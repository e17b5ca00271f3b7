/- The walks of `kernel/fs/fs.c` over the cached directory entries. -/

import Mathlib.Data.List.Basic

namespace KosKernel.Fs
open Function

/-- The characters of a name. -/
abbrev Name : Type := List Char

/-- The errors of a walk. -/
inductive WalkError where
  | noEntry
  | notDirectory
  | manyLinks
  | noMemory
  | failed (code : Nat)
  deriving DecidableEq

/-- This is `struct dhashtab`. -/
structure DHashTab where
  htTabc : Nat
  htTaba : Nat
  htTabv : Nat → List Nat

/-- The directory entries. Those below the size are allocated. -/
structure DentryTree (Inode : Type) where
  size : Nat
  dParent : Nat → Nat
  dName : Nat → Name
  dInode : Nat → Option Inode
  dSubs : Nat → DHashTab

/-- The allocations of a new entry that succeed. -/
structure NewEntry where
  entry : Bool
  table : Bool
  name : Bool

/-- What a walk finds outside of the directory entries. -/
structure FileSystem (Inode : Type) where
  hash : Name → Nat
  mayAccess : Inode → Option WalkError
  isDir : Inode → Bool
  isLnk : Inode → Bool
  hasLookup : Inode → Bool
  hasReadlink : Inode → Bool
  lookup : Inode → Name → Bool → Except WalkError Inode
  effective : Inode → Inode
  readlink : Inode → Except WalkError Name
  longLinkFails : Inode → Bool
  memory : Nat → NewEntry
  maxlink : Nat

/-- The fields of `struct dentry_walker` that stay the same. -/
structure DentryWalker where
  dwRoot : Nat
  dosPath : Bool
  noFollow : Bool

/-- The state of a walk, with the entries that it visited. -/
structure WalkState (Inode : Type) where
  tree : DentryTree Inode
  dwNlink : Nat
  visited : List Nat

/-- How a walk ends. A walk spins if it reads a link again and again. -/
inductive Walked where
  | entry (dentry : Nat)
  | error (error : WalkError)
  | spins
  | unfinished
  deriving DecidableEq

variable {Inode : Type}
namespace DentryTree
variable (tree : DentryTree Inode) (fs : FileSystem Inode)

/-- The search of a name in a table. -/
def getsubWith (same : Name → Name → Bool) (self : Nat) (name : Name) : Option Nat :=
  let table := tree.dSubs self
  if table.htTaba = 0 then none
  else (table.htTabv (fs.hash name % table.htTaba)).find? fun sub => same (tree.dName sub) name

variable (self : Nat) (name : Name)

/-- This is `dentry_getsub_unlocked`. -/
def getsub : Option Nat :=
  tree.getsubWith fs (fun left right => left == right) self name

/-- This is `dentry_getdossub_unlocked`. -/
def getdossub : Option Nat :=
  tree.getsubWith fs (fun left right => left.map Char.toLower == right.map Char.toLower) self name

/-- The chains after an entry is put in front of its chain. -/
def pushSub (chains : Nat → List Nat) (bucket sub : Nat) : Nat → List Nat :=
  update chains bucket (sub :: chains bucket)

variable (table : DHashTab)

/-- This is `dentry_rehashsubs_unlocked`. -/
def rehashsubs : DHashTab :=
  let size := (if table.htTaba = 0 then 1 else table.htTaba) * 2
  { table with
    htTaba := size
    htTabv := ((List.range table.htTaba).flatMap table.htTabv).foldl
      (fun chains sub => pushSub chains (fs.hash (tree.dName sub) % size) sub) fun _ => [] }

/-- A table has too many entries for its size. -/
def shouldRehash : Bool := table.htTabc * 3 / 2 > table.htTaba

/-- The table of a directory that gets another entry, unchanged without memory. -/
def makeRoom (memory : NewEntry) : DHashTab :=
  let table := { tree.dSubs self with htTabc := (tree.dSubs self).htTabc + 1 }
  if shouldRehash table && memory.table then tree.rehashsubs fs table else table

/-- A new entry is a child of its directory and stands in the table. -/
def insertSub (bucket : Nat) : DentryTree Inode where
  size := tree.size + 1
  dParent := update tree.dParent tree.size self
  dName := update tree.dName tree.size name
  dInode := update tree.dInode tree.size none
  dSubs := update (update tree.dSubs tree.size ⟨0, 0, fun _ => []⟩) self
    { table with htTabv := pushSub table.htTabv bucket tree.size }

/-- This is `dentry_addsub_unlocked`. -/
def addsub : DentryTree Inode × Option Nat :=
  let memory := fs.memory tree.size
  if memory.entry = false then (tree, none)
  else
    let table := tree.makeRoom fs self memory
    if table.htTaba = 0 ∨ memory.name = false then
      ({ tree with dSubs := update tree.dSubs self { table with htTabc := table.htTabc - 1 } }, none)
    else (tree.insertSub self name table (fs.hash name % table.htTaba), some tree.size)

/-- This is `dentry_delsub_unlocked`. -/
def delsub (self sub : Nat) : DentryTree Inode :=
  let table := tree.dSubs self
  if table.htTaba = 0 then tree
  else
    let bucket := fs.hash (tree.dName sub) % table.htTaba
    let chains := update table.htTabv bucket ((table.htTabv bucket).erase sub)
    if sub ∈ table.htTabv bucket then
      { tree with dSubs := update tree.dSubs self ⟨table.htTabc - 1, table.htTaba, chains⟩ }
    else tree

end DentryTree

/-- The entry is visited. -/
def WalkState.visit (state : WalkState Inode) (dentry : Nat) : WalkState Inode :=
  { state with visited := dentry :: state.visited }

namespace DentryWalker
variable (fs : FileSystem Inode) (walker : DentryWalker)

/-- This is `dentry_walklnk`. The size is compared with the one of the first buffer only. -/
def walklnk (xwalk : Nat → Name → WalkState Inode → WalkState Inode × Walked) (linkDir : Nat)
    (linkNode : Inode) (state : WalkState Inode) : WalkState Inode × Walked :=
  let state := { state with dwNlink := state.dwNlink + 1 }
  if fs.maxlink ≤ state.dwNlink then (state, .error .manyLinks)
  else
    match fs.readlink linkNode with
    | .error error => (state, .error error)
    | .ok text =>
      if 128 < text.length + 1 then (state,
        if fs.longLinkFails linkNode then .error .noMemory else .spins)
      else xwalk linkDir text state

variable (follow : Nat → Inode → WalkState Inode → WalkState Inode × Walked)

/-- The end of `dentry_walk`, which follows a link. -/
def followSub (self sub : Nat) (node : Inode)
    (alwaysFollowLinks : Bool) (state : WalkState Inode) : WalkState Inode × Walked :=
  if (alwaysFollowLinks || !walker.noFollow) && fs.isLnk node && fs.hasReadlink node
    then follow self node (state.visit sub)
  else (state.visit sub, .entry sub)

/-- This is `dentry_walk`. -/
def walk (self : Nat) (name : Name) (alwaysFollowLinks : Bool) (state : WalkState Inode) :
    WalkState Inode × Walked :=
  match state.tree.dInode self with
  | none => (state, .error .noEntry)
  | some ino =>
    match fs.mayAccess ino with
    | some error => (state, .error error)
    | none =>
      match if walker.dosPath then state.tree.getdossub fs self name else state.tree.getsub
        fs self name with
      | some sub =>
        match state.tree.dInode sub with
        | none => (state, .error .noEntry)
        | some node => followSub fs walker follow self sub node alwaysFollowLinks state
      | none =>
        if fs.isDir ino = false ∨ fs.hasLookup ino = false then (state, .error .notDirectory)
        else
          match state.tree.addsub fs self name with
          | (tree, none) => ({ state with tree := tree }, .error .noMemory)
          | (tree, some sub) =>
            match fs.lookup ino name walker.dosPath with
            | .error error => ({ state with tree := tree.delsub fs self sub }, .error error)
            | .ok node =>
              let tree := { tree with dInode := update tree.dInode sub (some (fs.effective node)) }
              followSub fs walker follow self sub (fs.effective node) alwaysFollowLinks
                { state with tree := tree }

/-- This is `dentry_walk2`. -/
def walk2 (self : Nat) (name : Name) (alwaysFollowLinks : Bool) (state : WalkState Inode) :
    WalkState Inode × Walked :=
  match name with
  | [] => (state, .entry self)
  | ['.'] => (state, .entry self)
  | ['.', '.'] => (state, .entry (if self = walker.dwRoot then self else state.tree.dParent self))
  | name => walk fs walker follow self name alwaysFollowLinks state

/-- This is `dos_issep`. -/
def issep (chr : Char) : Bool := chr == '/' || chr == '\\' && walker.dosPath

/-- The loop of `dentry_xwalk_internal`. -/
def walkParts (walkPart : Nat → Name → Bool → WalkState Inode → WalkState Inode × Walked) :
    Nat → Option Name → List Char → WalkState Inode → WalkState Inode × Walked
  | result, none, [], state => (state, .entry result)
  | result, none, chr :: rest, state =>
    if issep walker chr then walkParts walkPart result none rest state
    else walkParts walkPart result (some [chr]) rest state
  | result, some part, [], state =>
    match walkPart result part false state with
    | (state, .entry next) => (state.visit next, .entry next)
    | failed => failed
  | result, some part, chr :: rest, state =>
    if issep walker chr then
      match walkPart result part true state with
      | (state, .entry next) => walkParts walkPart next none rest (state.visit next)
      | failed => failed
    else walkParts walkPart result (some (part ++ [chr])) rest state

/-- The body of `dentry_xwalk_internal`. A separator in front starts the walk at the root. -/
def xwalkWith (start : Nat) (path : Name) (state : WalkState Inode) : WalkState Inode × Walked :=
  let start := if path.head?.any (issep walker) then walker.dwRoot else start
  walkParts walker (walk2 fs walker follow) start (some []) (path.dropWhile (issep walker))
    (state.visit start)

/-- This is `dentry_xwalk_internal`. The fuel bounds the nesting of the links. -/
def xwalkInternal : Nat → Nat → Name → WalkState Inode → WalkState Inode × Walked
  | 0 => xwalkWith fs walker fun _ _ state => (state, .unfinished)
  | fuel + 1 => xwalkWith fs walker (walklnk fs (xwalkInternal fuel))

end DentryWalker

end KosKernel.Fs
