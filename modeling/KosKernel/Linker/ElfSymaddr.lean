/- This is `elf_symaddr` from `core-modules/linker/elf.c` for a 32-bit target. A read outside of the
hash table gives nothing. -/

import Mathlib.Tactic

namespace KosKernel.Linker
open List

/-- This is `Elf_Sym` without the size. -/
structure ElfSym where
  stName : Nat
  stValue : UInt32
  stInfo : UInt8
  stShndx : UInt16

/-- This is `struct modsym`. -/
inductive ModSym where
  | invalid
  | ok (addr : UInt32)
  | weak (addr : UInt32)
  deriving DecidableEq

/-- This is `struct elf_hashtab` with `d_hashsz`. -/
structure ElfHashtab where
  dHashsz : UInt32
  htNbuckts : UInt32
  htNchains : UInt32

namespace ElfHashtab
variable (table : ElfHashtab)

/-- A table that the lookup does not refuse. The size is computed in 32 bits. -/
def Accepted (dSymcnt : UInt32) : Prop :=
  table.htNbuckts ≠ 0 ∧ 8 + (table.htNbuckts + table.htNchains) * 4 ≤ table.dHashsz ∧
    table.htNchains ≤ dSymcnt

/-- The buckets lie inside of the table, and so do the chains if there is a symbol to come to. -/
def Fits (dSymcnt : UInt32) : Prop :=
  8 + (table.htNbuckts.toNat + if 1 < dSymcnt.toNat then table.htNchains.toNat else 0) * 4 ≤
    table.dHashsz.toNat

instance (dSymcnt : UInt32) : Decidable (table.Accepted dSymcnt) := inferInstanceAs (Decidable (_ ∧ _))

/-- A word behind the header. -/
def word (ptable : Nat → UInt32) (index : Nat) : Option UInt32 :=
  if 8 + (index + 1) * 4 ≤ table.dHashsz.toNat then some (ptable index) else none

end ElfHashtab

/-- A loaded module with the symbols that begin in the symbol table. -/
structure ElfModule where
  strtab : List UInt8
  symtab : List ElfSym
  dSymcnt : UInt32
  hasStrtab : Bool
  hasSymtab : Bool
  hashtab : Option ElfHashtab
  ptable : Nat → UInt32
  absent : hasSymtab = false → symtab = []

namespace ElfModule
variable (self : ElfModule) (loadAddr : UInt32) (name : List UInt8) (hash : UInt32)

/-- This is `string_end`, behind the last zero of the string table. -/
def stringEnd : Nat := (self.strtab.reverse.dropWhile (· ≠ 0)).length

/-- The comparison by `strcmp`. -/
def named (sym : ElfSym) : Bool := (self.strtab.drop sym.stName).takeWhile (· ≠ 0) = name

/-- The result for the symbol that was found. -/
def found (sym : ElfSym) : ModSym :=
  if sym.stShndx = 0 then .invalid
  else
    let addr := if sym.stShndx = 0xfff1 then sym.stValue else sym.stValue + loadAddr
    if sym.stInfo >>> 4 = 2 then .weak addr else .ok addr

/-- The walk along a chain of the hash table. -/
def walkChain (table : ElfHashtab) : Nat → UInt32 → Option (Option ModSym)
  | 0, _ => some none
  | attempts + 1, chain =>
    if chain = 0 ∨ self.dSymcnt ≤ chain then some none
    else
      match self.symtab[chain.toNat]? with
      | none => none
      | some sym =>
        if self.stringEnd ≤ sym.stName then some none
        else if self.named name sym then some (some (found loadAddr sym))
        else
          let next := if table.htNchains ≤ chain then chain % table.htNchains else chain
          (table.word self.ptable (table.htNbuckts.toNat + next.toNat)).bind (walkChain table attempts)

/-- The loop over all symbols. -/
def scan : List ElfSym → ModSym
  | [] => .invalid
  | sym :: rest =>
    if self.stringEnd ≤ sym.stName then .invalid else if self.named name sym then found loadAddr
      sym else scan rest

/-- This is `elf_symaddr`, with the flag of the hash table that it leaves. -/
def symaddr : Option (ModSym × Bool) :=
  if !self.hasStrtab && !self.hasSymtab || self.stringEnd = 0 then some (.invalid, self.hashtab.isSome)
  else
    match self.hashtab with
    | none => some (self.scan loadAddr name self.symtab, false)
    | some table =>
      if table.Accepted self.dSymcnt then
        (table.word self.ptable (hash % table.htNbuckts).toNat).bind fun chain =>
          (self.walkChain loadAddr name table table.htNchains.toNat chain).map fun hit =>
            (hit.getD (self.scan loadAddr name self.symtab), true)
      else some (self.scan loadAddr name self.symtab, false)

/-- The symbol that the table defines under the name. -/
def resolve : ModSym := ((self.symtab.find? (self.named name)).map (found loadAddr)).getD .invalid

/-- The names lie in the string table, and no two symbols have the name. -/
structure Sound (module : ElfModule) (name : List UInt8) : Prop where
  inside : ∀ sym ∈ module.symtab, sym.stName < module.stringEnd
  whole : module.dSymcnt.toNat ≤ module.symtab.length
  unique : ∀ first ∈ module.symtab, ∀ second ∈ module.symtab,
    module.named name first = true → module.named name second = true → first = second

variable {self name loadAddr}

lemma scan_eq {syms : List ElfSym} (inside : ∀ sym ∈ syms, sym.stName < self.stringEnd) :
    self.scan loadAddr name syms =
      ((syms.find? (self.named name)).map (found loadAddr)).getD .invalid := by
  induction syms with
  | nil => rfl
  | cons sym rest ih =>
    have here := inside sym mem_cons_self
    rw [scan, if_neg (by omega), find?_cons]
    cases self.named name sym with
    | true => rfl
    | false => exact ih fun other mem => inside other (mem_cons_of_mem sym mem)

/-- A chain, whatever it links, leads to no other symbol than the one of the name. -/
lemma Sound.walkChain (sound : self.Sound name) (loadAddr : UInt32) {table : ElfHashtab}
    (fits : table.Fits self.dSymcnt) (attempts : Nat) (chain : UInt32)
    (few : attempts ≤ table.htNchains.toNat) :
    ∃ hit, self.walkChain loadAddr name table attempts chain = some hit ∧
      hit.getD (self.resolve loadAddr name) = self.resolve loadAddr name := by
  induction attempts generalizing chain with
  | zero => exact ⟨none, rfl, rfl⟩
  | succ attempts ih =>
    rw [ElfModule.walkChain]
    split
    · exact ⟨none, rfl, rfl⟩
    · next valid =>
      obtain ⟨nonzero, below⟩ := not_or.mp valid
      have small : chain.toNat < self.dSymcnt.toNat := UInt32.lt_iff_toNat_lt.mp (UInt32.not_le.mp below)
      have positive : chain.toNat ≠ 0 := fun none => nonzero (UInt32.toNat_inj.mp none)
      have listed : chain.toNat < self.symtab.length := lt_of_lt_of_le small sound.whole
      rw [getElem?_eq_getElem listed]
      dsimp only
      have mem := getElem_mem listed
      generalize self.symtab[chain.toNat] = sym at mem
      rw [if_neg (by have := sound.inside sym mem; omega)]
      split
      · next same =>
        obtain ⟨other, found⟩ := Option.isSome_iff_exists.mp (find?_isSome.mpr ⟨sym, mem, same⟩)
        refine ⟨_, rfl, ?_⟩
        rw [resolve, found, sound.unique sym mem other (mem_of_find?_eq_some found) same
          (find?_some found)]
        rfl
      · have next : (if table.htNchains ≤ chain then chain % table.htNchains else chain).toNat <
          table.htNchains.toNat := by
          split
          · rw [UInt32.toNat_mod]
            exact Nat.mod_lt _ (by omega)
          · next below => exact UInt32.lt_iff_toNat_lt.mp (UInt32.not_le.mp below)
        rw [ElfHashtab.Fits, if_pos (by omega)] at fits
        rw [ElfHashtab.word, if_pos (by omega)]
        exact ih _ (by omega)

/-- If a refused or intact hash table is given, the lookup gives the symbol. -/
lemma Sound.symaddr (sound : self.Sound name) (hash : UInt32)
    (fits : ∀ table ∈ self.hashtab, table.Accepted self.dSymcnt → table.Fits self.dSymcnt) :
    (self.symaddr loadAddr name hash).map Prod.fst = some (self.resolve loadAddr name) := by
  have plain : self.scan loadAddr name self.symtab = self.resolve loadAddr name := scan_eq sound.inside
  unfold ElfModule.symaddr
  split
  · next missing =>
    have empty : self.symtab = [] := by
      simp only [Bool.or_eq_true, Bool.and_eq_true, Bool.not_eq_true', decide_eq_true_eq] at missing
      rcases missing with ⟨-, without⟩ | none
      · exact self.absent without
      · exact eq_nil_iff_forall_not_mem.mpr fun sym mem => absurd (sound.inside sym mem) (by omega)
    rw [resolve, empty]
    rfl
  · rw [plain]
    split
    · rfl
    · next table given =>
      split
      · next used =>
        have inside := fits table given used
        have bucket : (hash % table.htNbuckts).toNat < table.htNbuckts.toNat := by
          exact Nat.mod_lt _ (Nat.pos_of_ne_zero fun none => used.1 (UInt32.toNat_inj.mp none))
        obtain ⟨hit, walked, same⟩ := sound.walkChain loadAddr inside _
          (self.ptable (hash % table.htNbuckts).toNat) le_rfl
        unfold ElfHashtab.Fits at inside
        rw [ElfHashtab.word, if_pos (by omega), Option.bind_some, walked, Option.map_some,
          Option.map_some, same]
      · rfl

/-- A module whose chains all lead to one symbol. -/
def chained (table : ElfHashtab) (dSymcnt link : UInt32) : ElfModule where
  strtab := [0]
  symtab := replicate dSymcnt.toNat ⟨0, 0, 0, 0⟩
  dSymcnt := dSymcnt
  hasStrtab := true
  hasSymtab := true
  hashtab := some table
  ptable := fun _ => link
  absent := by simp

lemma chained_sound (table : ElfHashtab) (dSymcnt link : UInt32) :
    (chained table dSymcnt link).Sound [65] where
  inside sym mem := by
    rw [eq_of_mem_replicate mem]
    exact Nat.zero_lt_one
  whole := by simp [chained]
  unique first firstMem second secondMem _ _ :=
    (eq_of_mem_replicate firstMem).trans (eq_of_mem_replicate secondMem).symm

/-- From some symbol the walk goes on with the last chain, also if there is only one. -/
lemma exists_last {chains dSymcnt : UInt32} (several : 1 < dSymcnt.toNat) (few : chains ≤ dSymcnt)
    (filled : chains.toNat ≠ 0) :
    ∃ link : UInt32, link ≠ 0 ∧ link < dSymcnt ∧
      (if chains ≤ link then link % chains else link).toNat = chains.toNat - 1 := by
  by_cases many : 1 < chains.toNat
  · have before : (chains - 1).toNat = chains.toNat - 1 :=
      UInt32.toNat_sub_of_le _ _ (UInt32.le_iff_toNat_le.mpr many.le)
    have bound := UInt32.le_iff_toNat_le.mp few
    refine ⟨chains - 1, fun none => ?_, UInt32.lt_iff_toNat_lt.mpr (by omega), ?_⟩
    · rw [none] at before
      exact absurd before (by simp; omega)
    · rw [if_neg (by rw [UInt32.le_iff_toNat_le]; omega), before]
  · refine ⟨1, by decide, UInt32.lt_iff_toNat_lt.mpr several, ?_⟩
    rw [show chains = 1 from UInt32.toNat_inj.mp (show _ = 1 by omega)]
    decide

/-- A table whose size wraps around is read behind its end. -/
lemma chained_outside {table : ElfHashtab} {dSymcnt : UInt32} (accepted : table.Accepted dSymcnt)
    (outside : ¬table.Fits dSymcnt) :
    ∃ link, (chained table dSymcnt link).symaddr 0 [65] (table.htNbuckts - 1) = none := by
  have buckets : table.htNbuckts.toNat ≠ 0 := fun none => accepted.1 (UInt32.toNat_inj.mp none)
  have bucket : ((table.htNbuckts - 1) % table.htNbuckts).toNat = table.htNbuckts.toNat - 1 := by
    have below := table.htNbuckts.toNat_lt
    rw [UInt32.toNat_mod, UInt32.toNat_sub, Nat.mod_eq_of_lt] <;> simp <;> omega
  have start : ∀ link, (chained table dSymcnt link).symaddr 0 [65] (table.htNbuckts - 1) =
      (table.word (fun _ => link) (table.htNbuckts.toNat - 1)).bind fun chain =>
        ((chained table dSymcnt link).walkChain 0 [65] table table.htNchains.toNat chain).map fun hit =>
          (hit.getD ((chained table dSymcnt link).scan 0 [65] (chained table dSymcnt link).symtab),
            true) := fun link => by
    simp [ElfModule.symaddr, chained, stringEnd, accepted, bucket]
  unfold ElfHashtab.Fits at outside
  by_cases held : 8 + table.htNbuckts.toNat * 4 ≤ table.dHashsz.toNat
  · have several : 1 < dSymcnt.toNat := by
      by_contra few
      rw [if_neg few] at outside
      omega
    rw [if_pos several] at outside
    have chains : table.htNchains.toNat ≠ 0 := by omega
    obtain ⟨link, positive, small, last⟩ := exists_last several accepted.2.2 chains
    obtain ⟨attempts, count⟩ := Nat.exists_eq_succ_of_ne_zero chains
    have step : (chained table dSymcnt link).walkChain 0 [65] table (attempts + 1) link = none := by
      have listed : ¬(link = 0 ∨ (chained table dSymcnt link).dSymcnt ≤ link) :=
        not_or.mpr ⟨positive, UInt32.not_le.mpr small⟩
      have inside := UInt32.lt_iff_toNat_lt.mp small
      rw [ElfModule.walkChain, if_neg listed]
      simp [chained, inside, stringEnd, named, ElfHashtab.word, last]
      omega
    refine ⟨link, ?_⟩
    rw [start, ElfHashtab.word, if_pos (by omega), Option.bind_some, count, step]
    rfl
  · refine ⟨0, ?_⟩
    rw [start, ElfHashtab.word, if_neg (by omega)]
    rfl

/-- Every lookup is right exactly if an accepted table lies inside of its memory. -/
theorem symaddr_resolves_iff (table : ElfHashtab) (dSymcnt : UInt32) :
    (∀ (self : ElfModule) (loadAddr : UInt32) (name : List UInt8) (hash : UInt32),
      (∀ other ∈ self.hashtab, other = table) → self.dSymcnt = dSymcnt → self.Sound name →
        (self.symaddr loadAddr name hash).map Prod.fst = some (self.resolve loadAddr name)) ↔
    (table.Accepted dSymcnt → table.Fits dSymcnt) := by
  constructor
  · intro all accepted
    by_contra outside
    obtain ⟨link, none⟩ := chained_outside accepted outside
    have some := all (chained table dSymcnt link) 0 [65] (table.htNbuckts - 1)
      (fun other mem => (Option.some.inj mem).symm) rfl (chained_sound table dSymcnt link)
    rw [none] at some
    cases some
  · intro fits self loadAddr name hash header count sound
    exact sound.symaddr hash fun other mem => header other mem ▸ count ▸ fits

/-- The size of this table wraps around to 8 bytes. -/
theorem symaddr_resolves_fails : (chained ⟨16, 0x3fffffff, 1⟩ 3 1).Sound [65] ∧
    (chained ⟨16, 0x3fffffff, 1⟩ 3 1).symaddr 0 [65] 0x0fffffff = none :=
  ⟨chained_sound _ _ _, by decide +kernel⟩

end ElfModule

end KosKernel.Linker
