import KosKernel.Fs.PathWalk

namespace KosKernel.Fs
open Function List

/-- The entries from which the parents lead to a root. -/
inductive Below (parent : Nat → Nat) (root : Nat) : Nat → Prop where
  | root : Below parent root root
  | child (dentry : Nat) (above : Below parent root (parent dentry)) : Below parent root dentry

variable {dentry bucket fuel : Nat}

lemma Below.above {parent : Nat → Nat} {root : Nat} (below : Below parent root dentry)
    (different : dentry ≠ root) :
    Below parent root (parent dentry) := by
  cases below with
  | root => exact absurd rfl different
  | child _ above => exact above

variable {Inode : Type}
namespace DentryTree
variable {tree after : DentryTree Inode} {fs : FileSystem Inode} {root self sub : Nat} {name : Name}

/-- The parents are allocated, and the entries of a table are children of its directory. -/
structure Ok (tree : DentryTree Inode) : Prop where
  parent : ∀ dentry < tree.size, tree.dParent dentry < tree.size
  child : ∀ dentry < tree.size, ∀ bucket < (tree.dSubs dentry).htTaba,
    ∀ sub ∈ (tree.dSubs dentry).htTabv bucket, sub < tree.size ∧ tree.dParent sub = dentry

/-- The allocated entries of the subtree of a root. -/
def Inside (tree : DentryTree Inode) (root dentry : Nat) : Prop :=
  dentry < tree.size ∧ Below tree.dParent root dentry

/-- The allocated entries keep their parents. -/
structure Grows (tree after : DentryTree Inode) : Prop where
  size : tree.size ≤ after.size
  parent : ∀ dentry < tree.size, after.dParent dentry = tree.dParent dentry

lemma Grows.trans {later : DentryTree Inode} (first : tree.Grows after)
    (second : after.Grows later) : tree.Grows later :=
  ⟨Nat.le_trans first.size second.size, fun dentry allocated =>
    (second.parent dentry (Nat.lt_of_lt_of_le allocated first.size)).trans
      (first.parent dentry allocated)⟩

lemma Inside.grow (ok : tree.Ok) (grows : tree.Grows after) (inside : tree.Inside root dentry) :
    after.Inside root dentry := by
  refine ⟨Nat.lt_of_lt_of_le inside.1 grows.size, ?_⟩
  obtain ⟨allocated, below⟩ := inside
  induction below with
  | root => exact .root
  | child dentry _ ih =>
    refine .child dentry ?_
    rw [grows.parent dentry allocated]
    exact ih (ok.parent dentry allocated)

lemma Inside.child (inside : tree.Inside root self) (allocated : sub < tree.size)
    (parent : tree.dParent sub = self) :
    tree.Inside root sub :=
  ⟨allocated, .child sub (parent ▸ inside.2)⟩

/-- The parent of an entry other than the root. -/
lemma Inside.parent (ok : tree.Ok) (inside : tree.Inside root self) (different : self ≠ root) :
    tree.Inside root (tree.dParent self) :=
  ⟨ok.parent self inside.1, inside.2.above different⟩

lemma getsubWith_child {same : Name → Name → Bool} (ok : tree.Ok) (allocated : self < tree.size)
    (found : tree.getsubWith fs same self name = some sub) :
    sub < tree.size ∧ tree.dParent sub = self := by
  unfold getsubWith at found
  dsimp only at found
  split at found
  · exact absurd found.symm (Option.some_ne_none sub)
  · next filled => exact ok.child self allocated _ (Nat.mod_lt _
        (Nat.pos_of_ne_zero filled)) sub (mem_of_find?_eq_some found)

lemma pushSub_mem {chains : Nat → List Nat} {other : Nat}
    (mem : sub ∈ pushSub chains bucket self other) :
    sub = self ∨ sub ∈ chains other := by
  unfold pushSub at mem
  rw [update_apply] at mem
  split at mem
  · next same => exact same ▸ mem_cons.mp mem
  · exact .inr mem

/-- The entries of a table after some entries were moved into it. -/
lemma foldl_pushSub_mem {hash : Nat → Nat} (subs : List Nat) {chains : Nat → List Nat}
    (mem : sub ∈ (subs.foldl (fun chains sub => pushSub chains (hash sub) sub) chains) bucket) :
    sub ∈ subs ∨ sub ∈ chains bucket := by
  induction subs generalizing chains with
  | nil => exact .inr mem
  | cons first rest ih =>
    rcases ih mem with later | earlier
    · exact .inl (mem_cons_of_mem first later)
    · rcases pushSub_mem earlier with rfl | old
      · exact .inl mem_cons_self
      · exact .inr old

lemma rehashsubs_mem {table : DHashTab} (mem : sub ∈ (tree.rehashsubs fs table).htTabv bucket) :
    ∃ bucket < table.htTaba, sub ∈ table.htTabv bucket := by
  rcases foldl_pushSub_mem _ mem with moved | none
  · obtain ⟨old, inside, chain⟩ := mem_flatMap.mp moved
    exact ⟨old, mem_range.mp inside, chain⟩
  · exact absurd none not_mem_nil

/-- The entries of a table are children of the directory. -/
def Children (tree : DentryTree Inode) (self : Nat) (table : DHashTab) : Prop :=
  ∀ bucket < table.htTaba, ∀ sub ∈ table.htTabv bucket, sub < tree.size ∧ tree.dParent sub = self

variable (fs : FileSystem Inode)

lemma makeRoom_children (ok : tree.Ok) (allocated : self < tree.size) (memory : NewEntry) :
    tree.Children self (tree.makeRoom fs self memory) := by
  unfold makeRoom
  dsimp only
  split
  · intro bucket _ sub mem
    obtain ⟨old, inside, chain⟩ := rehashsubs_mem mem
    exact ok.child self allocated old inside sub chain
  · exact ok.child self allocated

/-- A table of children keeps the tree in order. -/
lemma Ok.table (ok : tree.Ok) {table : DHashTab} (children : tree.Children self table) :
    Ok { tree with dSubs := update tree.dSubs self table } := by
  refine ⟨ok.parent, fun dentry allocated => ?_⟩
  dsimp only
  by_cases same : dentry = self
  · subst same
    rw [update_self]
    exact children
  · rw [update_of_ne same]
    exact ok.child dentry allocated

lemma insertSub_grows (tree : DentryTree Inode) (self : Nat) (name : Name) (table : DHashTab)
    (bucket : Nat) :
    tree.Grows (tree.insertSub self name table bucket) :=
  ⟨Nat.le_succ _, fun _ allocated => update_of_ne (Nat.ne_of_lt allocated) _ _⟩

/-- A new child of a directory keeps the tree in order. -/
lemma insertSub_ok (ok : tree.Ok) (allocated : self < tree.size) {table : DHashTab}
    (children : tree.Children self table)
    (bucket : Nat) : (tree.insertSub self name table bucket).Ok := by
  have grows := insertSub_grows tree self name table bucket
  have newest : (tree.insertSub self name table bucket).dParent tree.size = self := update_self _ _ _
  have old : ∀ {sub dentry}, sub < tree.size ∧ tree.dParent sub = dentry →
      sub < (tree.insertSub self name table bucket).size ∧
        (tree.insertSub self name table bucket).dParent sub = dentry :=
    fun child => ⟨Nat.lt_succ_of_lt child.1, (grows.parent _ child.1).trans child.2⟩
  refine ⟨fun dentry inside => ?_, fun dentry inside => ?_⟩
  · rcases Nat.lt_succ_iff_lt_or_eq.mp inside with before | rfl
    · rw [grows.parent dentry before]
      exact Nat.lt_succ_of_lt (ok.parent dentry before)
    · rw [newest]
      exact Nat.lt_succ_of_lt allocated
  · have subs : (tree.insertSub self name table bucket).dSubs dentry = update
        (update tree.dSubs tree.size ⟨0, 0, fun _ => []⟩) self ⟨table.htTabc, table.htTaba,
          pushSub table.htTabv bucket tree.size⟩ dentry := rfl
    rw [subs]
    by_cases same : dentry = self
    · subst same
      rw [update_self]
      intro other filled sub mem
      rcases pushSub_mem mem with rfl | before
      · exact ⟨Nat.lt_succ_self _, newest⟩
      · exact old (children other filled sub before)
    · rw [update_of_ne same]
      rcases Nat.lt_succ_iff_lt_or_eq.mp inside with before | rfl
      · rw [update_of_ne (Nat.ne_of_lt before)]
        exact fun other filled sub mem => old (ok.child dentry before other filled sub mem)
      · rw [update_self]
        exact fun other filled => absurd filled (Nat.not_lt_zero other)

/-- What `dentry_addsub_unlocked` does. -/
lemma addsub_spec (name : Name) (ok : tree.Ok) (allocated : self < tree.size) :
    (tree.addsub fs self name).1.Ok ∧ tree.Grows (tree.addsub fs self name).1 ∧
    ∀ sub, (tree.addsub fs self name).2 = some sub →
        sub < (tree.addsub fs self name).1.size ∧ (tree.addsub fs self name).1.dParent sub = self := by
  have children := makeRoom_children fs ok allocated (fs.memory tree.size)
  unfold addsub
  dsimp only
  split
  · exact ⟨ok, ⟨Nat.le_refl _, fun _ _ => rfl⟩,
      fun sub none => absurd none.symm (Option.some_ne_none sub)⟩
  split
  · exact ⟨ok.table children, ⟨Nat.le_refl _, fun _ _ => rfl⟩,
      fun sub none => absurd none.symm (Option.some_ne_none sub)⟩
  · refine ⟨insertSub_ok ok allocated children _, insertSub_grows _ _ _ _ _, fun sub new => ?_⟩
    obtain rfl := Option.some.inj new
    exact ⟨Nat.lt_succ_self _, update_self _ _ _⟩

lemma delsub_spec (ok : tree.Ok) (allocated : self < tree.size) (sub : Nat) :
    (tree.delsub fs self sub).Ok ∧ tree.Grows (tree.delsub fs self sub) := by
  have same : tree.Grows tree := ⟨Nat.le_refl _, fun _ _ => rfl⟩
  unfold delsub
  dsimp only
  split
  · exact ⟨ok, same⟩
  split
  · refine ⟨ok.table fun bucket filled child mem => ?_, ⟨Nat.le_refl _, fun _ _ => rfl⟩⟩
    dsimp only at filled mem
    rw [update_apply] at mem
    split at mem
    · next equal => exact ok.child self allocated bucket filled child (equal ▸ mem_of_mem_erase mem)
    · exact ok.child self allocated bucket filled child mem
  · exact ⟨ok, same⟩

end DentryTree

namespace WalkState
variable {root : Nat} {state : WalkState Inode}

/-- The tree is in order, and the root and the visited entries lie in the subtree. -/
structure Ok (root : Nat) (state : WalkState Inode) : Prop where
  tree : state.tree.Ok
  top : state.tree.Inside root root
  visited : ∀ dentry ∈ state.visited, state.tree.Inside root dentry

lemma Ok.visit (ok : state.Ok root) (inside : state.tree.Inside root dentry) :
    (state.visit dentry).Ok root := by
  refine ⟨ok.tree, ok.top, ?_⟩
  rintro other (_ | ⟨_, before⟩)
  · exact inside
  · exact ok.visited other before

lemma Ok.grow {tree : DentryTree Inode} (ok : state.Ok root) (after : tree.Ok)
    (grows : state.tree.Grows tree) :
    Ok root { state with tree := tree } :=
  ⟨after, ok.top.grow ok.tree grows, fun dentry before => (ok.visited dentry before).grow ok.tree grows⟩

end WalkState

namespace DentryWalker
variable {fs : FileSystem Inode} {walker : DentryWalker}

/-- A walk leaves a state in order, and its result lies in the subtree. -/
def Confined (root : Nat) (result : WalkState Inode × Walked) : Prop :=
  result.1.Ok root ∧ ∀ dentry, result.2 = .entry dentry → result.1.tree.Inside root dentry

variable {state : WalkState Inode}

lemma Confined.failed {root : Nat} {walked : Walked} (ok : state.Ok root)
    (none : ∀ dentry, walked ≠ .entry dentry) : Confined root (state, walked) :=
  ⟨ok, fun dentry equal => absurd equal (none dentry)⟩

lemma Confined.entry {root : Nat} (ok : state.Ok root)
    (inside : state.tree.Inside root dentry) : Confined root (state, .entry dentry) :=
  ⟨ok, fun _ equal => Walked.entry.inj equal ▸ inside⟩

/-- Every part of the loop keeps a condition on the current entry. -/
lemma walkParts_rule {walkPart : Nat → Name → Bool → WalkState Inode → WalkState Inode × Walked}
    (before : WalkState Inode → Nat → Prop) (after : WalkState Inode × Walked → Prop)
    (part : ∀ self name always state, before state self → after (walkPart self name always state))
    (leave : ∀ state dentry, before state dentry → after (state, .entry dentry))
    (enter : ∀ state dentry, after (state, .entry dentry) → before (state.visit dentry) dentry)
    (path : List Char) {self : Nat} {name : Option Name} (start : before state self) :
    after (walkParts walker walkPart self name path state) := by
  induction path generalizing self name state with
  | nil =>
    cases name with
    | none => exact leave state self start
    | some name =>
      have step := part self name false state start
      unfold walkParts
      generalize walkPart self name false state = result at step
      obtain ⟨state, walked⟩ := result
      cases walked with
      | entry next => exact leave _ next (enter state next step)
      | error error => exact step
      | spins => exact step
      | unfinished => exact step
  | cons chr rest ih =>
    cases name with
    | none =>
      unfold walkParts
      split
      · exact ih start
      · exact ih start
    | some name =>
      unfold walkParts
      split
      · have step := part self name true state start
        generalize walkPart self name true state = result at step
        obtain ⟨state, walked⟩ := result
        cases walked with
        | entry next => exact ih (enter state next step)
        | error error => exact step
        | spins => exact step
        | unfinished => exact step
      · exact ih start

section Steps
variable {follow : Nat → Inode → WalkState Inode → WalkState Inode × Walked}

/-- The links of a directory in the subtree lead to entries of the subtree. -/
def LinksConfined (root : Nat) (follow : Nat → Inode → WalkState Inode →
    WalkState Inode × Walked) : Prop :=
  ∀ self node state, state.Ok root → state.tree.Inside root self → Confined root (follow self node state)

section
variable (links : LinksConfined walker.dwRoot follow)
include links

lemma followSub_confined {self sub : Nat} (node : Inode) (always : Bool) {state : WalkState Inode}
    (ok : state.Ok walker.dwRoot) (inside : state.tree.Inside walker.dwRoot self)
    (child : state.tree.Inside walker.dwRoot sub) :
    Confined walker.dwRoot (followSub fs walker follow self sub node always state) := by
  unfold followSub
  split
  · exact links self node _ (ok.visit child) inside
  · exact .entry (ok.visit child) child

section
variable {state : WalkState Inode} (self : Nat) (name : Name) (always : Bool)
  (ok : state.Ok walker.dwRoot)
  (inside : state.tree.Inside walker.dwRoot self)
include self name always ok inside

lemma walk_confined : Confined walker.dwRoot (walk fs walker follow self name always state) := by
  unfold walk
  split
  · exact .failed ok (by simp)
  split
  · exact .failed ok (by simp)
  split
  · next sub found =>
    have child : sub < state.tree.size ∧ state.tree.dParent sub = self := by
      split at found
      · exact DentryTree.getsubWith_child ok.tree inside.1 found
      · exact DentryTree.getsubWith_child ok.tree inside.1 found
    split
    · exact .failed ok (by simp)
    · exact followSub_confined links _ always ok inside (inside.child child.1 child.2)
  · split
    · exact .failed ok (by simp)
    obtain ⟨added, grows, new⟩ := DentryTree.addsub_spec fs name ok.tree inside.1
    generalize state.tree.addsub fs self name = result at added grows new
    obtain ⟨tree, found⟩ := result
    have here := inside.grow ok.tree grows
    cases found with
    | none => exact .failed (ok.grow added grows) (by simp)
    | some sub =>
      dsimp only
      split
      · obtain ⟨after, again⟩ := DentryTree.delsub_spec fs added here.1 sub
        exact .failed (ok.grow after (grows.trans again)) (by simp)
      · obtain ⟨allocated, parent⟩ := new sub rfl
        exact followSub_confined links _ always
          (ok.grow ⟨added.parent, added.child⟩ ⟨grows.size, grows.parent⟩) here
          (here.child allocated parent)

/-- A step into a subdirectory or over a link stays in the subtree if the links do. -/
lemma walk2_confined : Confined walker.dwRoot (walk2 fs walker follow self name always state) := by
  unfold walk2
  split
  · exact .entry ok inside
  · exact .entry ok inside
  · refine .entry ok ?_
    split
    · exact inside
    · next different => exact inside.parent ok.tree different
  · exact walk_confined links self _ always ok inside

end

lemma xwalkWith_confined {start : Nat} (path : Name) {state : WalkState Inode}
    (ok : state.Ok walker.dwRoot) (inside : state.tree.Inside walker.dwRoot start) :
    Confined walker.dwRoot (xwalkWith fs walker follow start path state) := by
  have first : state.tree.Inside walker.dwRoot
      (if path.head?.any (issep walker) then walker.dwRoot else start) := by
    split
    · exact ok.top
    · exact inside
  refine walkParts_rule (fun state self => state.Ok walker.dwRoot ∧
    state.tree.Inside walker.dwRoot self) _
    (fun self name always state here => walk2_confined links self name always here.1 here.2)
    (fun state dentry here => .entry here.1 here.2) (fun state dentry here => ?_) _
      (And.intro (ok.visit first) first)
  have there := here.2 dentry rfl
  exact ⟨here.1.visit there, there⟩

end

end Steps

/-- Links of any nesting stay in the subtree. -/
lemma xwalkInternal_confined (fs : FileSystem Inode) (walker : DentryWalker) (fuel : Nat)
    {start : Nat} (path : Name) (ok : state.Ok walker.dwRoot)
      (inside : state.tree.Inside walker.dwRoot start) :
    Confined walker.dwRoot (xwalkInternal fs walker fuel start path state) := by
  induction fuel generalizing start path state with
  | zero => exact xwalkWith_confined (fun _ _ _ ok _ => .failed ok (by simp)) path ok inside
  | succ fuel ih =>
    refine xwalkWith_confined (fun self node state ok inside => ?_) path ok inside
    have counted : WalkState.Ok walker.dwRoot { state with dwNlink := state.dwNlink + 1 } :=
      ⟨ok.tree, ok.top, ok.visited⟩
    unfold walklnk
    dsimp only
    split
    · exact .failed counted (by simp)
    split
    · exact .failed counted (by simp)
    · split
      · refine .failed counted ?_
        cases fs.longLinkFails node <;> simp
      · exact ih _ counted inside

section Depth
variable {follow : Nat → Inode → WalkState Inode → WalkState Inode × Walked}

/-- The links left are fewer than the fuel, and the walk does not run out of fuel. -/
def Finishes (fs : FileSystem Inode) (fuel : Nat) (result : WalkState Inode × Walked) : Prop :=
  fs.maxlink ≤ result.1.dwNlink + fuel ∧ result.2 ≠ .unfinished

section
variable (links : ∀ self node state, fs.maxlink ≤ state.dwNlink + fuel →
  Finishes fs fuel (follow self node state))
include links

lemma followSub_finishes
    (self sub : Nat) (node : Inode) (always : Bool) {state : WalkState Inode}
    (bound : fs.maxlink ≤ state.dwNlink + fuel) :
    Finishes fs fuel (followSub fs walker follow self sub node always state) := by
  unfold followSub
  split
  · exact links self node _ bound
  · exact ⟨bound, by simp⟩

lemma walk2_finishes
    (self : Nat) (name : Name) (always : Bool) (state : WalkState Inode)
    (bound : fs.maxlink ≤ state.dwNlink + fuel) :
    Finishes fs fuel (walk2 fs walker follow self name always state) := by
  have failed : ∀ (tree : DentryTree Inode) error,
    Finishes fs fuel ({ state with tree := tree }, .error error) :=
    fun _ _ => ⟨bound, by simp⟩
  unfold walk2
  split
  · exact ⟨bound, by simp⟩
  · exact ⟨bound, by simp⟩
  · exact ⟨bound, by simp⟩
  unfold walk
  split
  · exact failed _ _
  split
  · exact failed _ _
  split
  · split
    · exact failed _ _
    · exact followSub_finishes links _ _ _ _ bound
  split
  · exact failed _ _
  split
  · exact failed _ _
  split
  · exact failed _ _
  · exact followSub_finishes links _ _ _ _ bound

end

lemma xwalkInternal_finishes (fs : FileSystem Inode) (walker : DentryWalker)
    (some : 0 < fuel) (start : Nat)
    (path : Name) {state : WalkState Inode} (bound : fs.maxlink ≤ state.dwNlink + fuel) :
    Finishes fs fuel (xwalkInternal fs walker fuel start path state) := by
  induction fuel generalizing start path state with
  | zero => exact absurd some (Nat.lt_irrefl 0)
  | succ fuel ih =>
    refine walkParts_rule (fun state _ => fs.maxlink ≤ state.dwNlink + (fuel + 1)) _
      (fun self name always state bound => walk2_finishes (fun self node state bound => ?_) self
        name always state bound)
      (fun _ _ bound => ⟨bound, by simp⟩) (fun _ _ step => step.1) _ bound
    unfold walklnk
    dsimp only
    split
    · exact ⟨by dsimp only; omega, by simp⟩
    next few =>
    split
    · exact ⟨by dsimp only; omega, by simp⟩
    split
    · refine ⟨by dsimp only; omega, ?_⟩
      cases fs.longLinkFails node <;> simp
    have left : fs.maxlink ≤ WalkState.dwNlink { state with dwNlink := state.dwNlink + 1 } + fuel := by
      dsimp only
      omega
    obtain ⟨links, ended⟩ := ih (by omega) self _ left
    exact ⟨Nat.le_succ_of_le links, ended⟩

end Depth

/-- A walk from the subtree of its root stays in the subtree, and it ends or spins. -/
theorem xwalk_confined (fs : FileSystem Inode) (walker : DentryWalker) (tree : DentryTree Inode)
    (fuel dwNlink start : Nat)
    (path : Name) (ok : tree.Ok) (root : walker.dwRoot < tree.size)
    (inside : tree.Inside walker.dwRoot start) :
    (∀ dentry ∈ (xwalkInternal fs walker fuel start path ⟨tree, dwNlink, []⟩).1.visited,
        (xwalkInternal fs walker fuel start path ⟨tree, dwNlink, []⟩).1.tree.Inside
          walker.dwRoot dentry) ∧
      (∀ dentry, (xwalkInternal fs walker fuel start path ⟨tree, dwNlink, []⟩).2 = .entry dentry →
        (xwalkInternal fs walker fuel start path ⟨tree, dwNlink, []⟩).1.tree.Inside
          walker.dwRoot dentry) ∧
      (0 < fuel → fs.maxlink ≤ dwNlink + fuel →
        (xwalkInternal fs walker fuel start path ⟨tree, dwNlink, []⟩).2 ≠ .unfinished) := by
  have first : WalkState.Ok walker.dwRoot (⟨tree, dwNlink, []⟩ : WalkState Inode) :=
    ⟨ok, ⟨root, .root⟩, by simp⟩
  have confined := xwalkInternal_confined fs walker fuel path first inside
  exact ⟨confined.1.visited, confined.2,
    fun some bound => (xwalkInternal_finishes fs walker some start path bound).2⟩

/-- A directory tree with a jail, a directory in the jail and a link in that directory. -/
def jailTree : DentryTree Nat where
  size := 4
  dParent := fun dentry => dentry - 1
  dName := fun dentry => [['/'], ['j'], ['a'], ['l']].getD dentry []
  dInode := some
  dSubs := fun dentry => ⟨1, 1, fun _ => if dentry < 3 then [dentry + 1] else []⟩

/-- The link leads above the root and back into the directory. -/
def jailFs : FileSystem Nat where
  hash := fun _ => 0
  mayAccess := fun _ => none
  isDir := fun ino => ino != 3
  isLnk := fun ino => ino == 3
  hasLookup := fun _ => false
  hasReadlink := fun _ => true
  lookup := fun _ _ _ => .error .noEntry
  effective := id
  readlink := fun _ => .ok ['/', '.', '.', '/', 'a']
  longLinkFails := fun _ => true
  memory := fun _ => ⟨true, true, true⟩
  maxlink := 20

/-- A walk over the link and back to the parent ends at the root of the jail. -/
theorem xwalk_confined_jail :
    (xwalkInternal jailFs ⟨1, false, false⟩ 20 2 ['l', '/', '.', '.'] ⟨jailTree, 0, []⟩).2 = .entry 1 ∧
      (xwalkInternal jailFs ⟨1, false, false⟩ 20 2 ['l', '/', '.', '.'] ⟨jailTree, 0,
        []⟩).1.tree.Inside 1 1 := by
  have ok : jailTree.Ok := ⟨by decide, by decide⟩
  have ends : (xwalkInternal jailFs ⟨1, false, false⟩ 20 2 ['l', '/', '.', '.'] ⟨jailTree, 0,
    []⟩).2 = .entry 1 := by decide
  exact ⟨ends, (xwalk_confined jailFs ⟨1, false, false⟩ jailTree 20 0 2 ['l', '/', '.',
    '.'] ok (by decide)
    ⟨by decide, .child 2 .root⟩).2.1 1 ends⟩

end DentryWalker

end KosKernel.Fs
