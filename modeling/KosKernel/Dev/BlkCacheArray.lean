import KosKernel.Dev.BlkCache

namespace KosKernel.Dev
open Effect Function List

/-- The bytes of an array from an offset on. -/
def slice (array : Nat → UInt8) (offset size : Nat) : List UInt8 :=
  (List.range size).map fun index => array (offset + index)

/-- Two arrays agree outside of a range. -/
def Outside (offset size : Nat) (array after : Nat → UInt8) : Prop :=
  ∀ address, address < offset ∨ offset + size ≤ address → after address = array address

/-- The loaded buffers, and without changed buffers the hardware, show an array. -/
structure Shows (shape : BlkShape) (array : Nat → UInt8) (dev : BlkDev) : Prop where
  room : dev.bufc ≤ dev.bufa ∧ dev.bufa ≤ shape.bsBufm
  unique : ∀ left < dev.bufc, ∀ right < dev.bufc, (dev.bufv left).load = true →
    (dev.bufv right).load = true →
    (dev.bufv left).bbId = (dev.bufv right).bbId → left = right
  loaded : ∀ index < dev.bufc, (dev.bufv index).chng = true → (dev.bufv index).load = true
  held : ∀ index < dev.bufc, (dev.bufv index).load = true → ∀ offset < shape.bdBlocksize,
    (dev.bufv index).bbData offset = array ((dev.bufv index).bbId * shape.bdBlocksize + offset)
  stored : ∀ blockid, (∀ index < dev.bufc, (dev.bufv index).chng = true →
    (dev.bufv index).bbId ≠ blockid) →
    ∀ offset < shape.bdBlocksize, dev.disk blockid offset = array (blockid * shape.bdBlocksize + offset)

namespace BlkDev

/-- No buffer holds a block. -/
def Absent (dev : BlkDev) (blockid : Nat) : Prop :=
  ∀ index < dev.bufc, (dev.bufv index).load = true → (dev.bufv index).bbId ≠ blockid

/-- A buffer holds a block. -/
def Holds (dev : BlkDev) (index blockid : Nat) : Prop :=
  index < dev.bufc ∧ (dev.bufv index).load = true ∧ (dev.bufv index).bbId = blockid

/-- A buffer holds no block. -/
def Free (dev : BlkDev) (index : Nat) : Prop :=
  index < dev.bufc ∧ (dev.bufv index).load = false ∧ (dev.bufv index).chng = false

variable {dev : BlkDev} {property : BlockBuf → Bool} {index blockid : Nat}

lemma findBuffer_some (found : dev.findBuffer property = some index) :
    index < dev.bufc ∧ property (dev.bufv index) = true :=
  ⟨mem_range.mp (mem_of_find?_eq_some found),
    List.find?_some (p := fun index => property (dev.bufv index)) found⟩

lemma findBuffer_none (missing : dev.findBuffer property = none) (inside : index < dev.bufc) :
    property (dev.bufv index) = false :=
  Bool.eq_false_iff.mpr (List.find?_eq_none.mp missing index (mem_range.mpr inside))

lemma findLast_some (found : dev.findLast property = some index) :
    index < dev.bufc ∧ property (dev.bufv index) = true :=
  ⟨mem_range.mp (mem_reverse.mp (mem_of_find?_eq_some found)),
    List.find?_some (p := fun index => property (dev.bufv index)) found⟩

lemma findLast_none (missing : dev.findLast property = none) (inside : index < dev.bufc) :
    property (dev.bufv index) = false :=
  Bool.eq_false_iff.mpr (List.find?_eq_none.mp missing index (mem_reverse.mpr (mem_range.mpr inside)))

lemma getBuffer_some (found : dev.getBuffer blockid = some index) : dev.Holds index blockid := by
  obtain ⟨inside, both⟩ := findBuffer_some found
  rw [Bool.and_eq_true, beq_iff_eq] at both
  exact ⟨inside, both.2, both.1⟩

lemma getBuffer_none (missing : dev.getBuffer blockid = none) : dev.Absent blockid := by
  intro index inside loaded same
  have skipped := findBuffer_none missing inside
  rw [same, loaded, beq_self_eq_true] at skipped
  exact absurd skipped (by decide)

lemma setBuffer_same (dev : BlkDev) (index : Nat) (buf : BlockBuf) :
    (dev.setBuffer index buf).bufv index = buf :=
  update_self _ _ _

lemma setBuffer_other (dev : BlkDev) {index other : Nat} (buf : BlockBuf) (different : other ≠ index) :
    (dev.setBuffer index buf).bufv other = dev.bufv other :=
  update_of_ne different _ _

lemma Absent.drop (absent : dev.Absent blockid) {buf : BlockBuf} (free : buf.load = false) :
    (dev.setBuffer index buf).Absent blockid := by
  intro other inside loaded
  by_cases same : other = index
  · rw [same, setBuffer_same, free] at loaded
    exact absurd loaded (by decide)
  · rw [setBuffer_other dev buf same] at loaded ⊢
    exact absent other inside loaded

end BlkDev

namespace Shows
variable {shape : BlkShape} {array after : Nat → UInt8} {dev : BlkDev} {index blockid : Nat}

section
variable (before : Shows shape array dev)
include before
variable {buf : BlockBuf}

/-- A device whose array and buffer change together. -/
lemma setBuffer (inside : index < dev.bufc) (loaded : buf.chng = true → buf.load = true)
    (unique : buf.load = true → ∀ other < dev.bufc, other ≠ index → (dev.bufv other).load = true →
      (dev.bufv other).bbId ≠ buf.bbId)
    (held : buf.load = true → ∀ offset < shape.bdBlocksize,
      buf.bbData offset = after (buf.bbId * shape.bdBlocksize + offset))
    (others : ∀ other < dev.bufc, other ≠ index → (dev.bufv other).load = true →
      ∀ offset < shape.bdBlocksize,
      after ((dev.bufv other).bbId * shape.bdBlocksize + offset) =
        array ((dev.bufv other).bbId * shape.bdBlocksize + offset))
    (stored : ∀ blockid, (∀ other < dev.bufc, other ≠ index → (dev.bufv other).chng = true →
      (dev.bufv other).bbId ≠ blockid) →
      (buf.chng = true → buf.bbId ≠ blockid) →
        ∀ offset < shape.bdBlocksize, dev.disk blockid offset =
          after (blockid * shape.bdBlocksize + offset)) :
    Shows shape after (dev.setBuffer index buf) := by
  have same := dev.setBuffer_same index buf
  have other : ∀ {next}, next ≠ index → (dev.setBuffer index buf).bufv next = dev.bufv next :=
    dev.setBuffer_other buf
  refine ⟨before.room, fun left insideLeft right insideRight leftLoaded rightLoaded equal => ?_,
    fun next insideNext changed => ?_,
    fun next insideNext holds offset bound => ?_, fun block missing => ?_⟩
  · by_cases first : left = index
    · by_cases second : right = index
      · exact first.trans second.symm
      · subst first
        rw [same] at leftLoaded equal
        rw [other second] at rightLoaded equal
        exact absurd equal.symm (unique leftLoaded right insideRight second rightLoaded)
    · rw [other first] at leftLoaded equal
      by_cases second : right = index
      · subst second
        rw [same] at rightLoaded equal
        exact absurd equal (unique rightLoaded left insideLeft first leftLoaded)
      · rw [other second] at rightLoaded equal
        exact before.unique left insideLeft right insideRight leftLoaded rightLoaded equal
  · by_cases equal : next = index
    · subst equal
      rw [same] at changed ⊢
      exact loaded changed
    · rw [other equal] at changed ⊢
      exact before.loaded next insideNext changed
  · by_cases equal : next = index
    · subst equal
      rw [same] at holds ⊢
      exact held holds offset bound
    · rw [other equal] at holds ⊢
      exact (before.held next insideNext holds offset bound).trans
        (others next insideNext equal holds offset bound).symm
  · refine stored block (fun next insideNext different changed => ?_) fun changed => ?_
    · have kept := missing next insideNext
      rw [other different] at kept
      exact kept changed
    · have kept := missing index inside
      rw [same] at kept
      exact kept changed

/-- A buffer that holds no change may be replaced by a free one. -/
lemma drop (inside : index < dev.bufc) (free : buf.load = false ∧ buf.chng = false)
    (clean : (dev.bufv index).chng = true → ∀ offset < shape.bdBlocksize,
      dev.disk (dev.bufv index).bbId offset =
        array ((dev.bufv index).bbId * shape.bdBlocksize + offset)) :
    Shows shape array (dev.setBuffer index buf) := by
  have unloaded : ¬buf.load = true := Bool.eq_false_iff.mp free.1
  have unchanged : ¬buf.chng = true := Bool.eq_false_iff.mp free.2
  refine before.setBuffer inside (fun changed => absurd changed unchanged)
    (fun loaded => absurd loaded unloaded) (fun loaded => absurd loaded unloaded)
    (fun _ _ _ _ _ _ => rfl) fun block missing _ offset bound => ?_
  by_cases mine : (dev.bufv index).chng = true ∧ (dev.bufv index).bbId = block
  · rw [← mine.2]
    exact clean mine.1 offset bound
  refine before.stored block (fun other insideOther changed equal => ?_) offset bound
  by_cases same : other = index
  · subst same
    exact mine ⟨changed, equal⟩
  · exact missing other insideOther same changed equal

/-- A free buffer gets a block that no other buffer holds. -/
lemma load (free : dev.Free index) (absent : dev.Absent blockid) (id : buf.bbId = blockid)
    (clean : buf.chng = false)
    (data : ∀ offset < shape.bdBlocksize, buf.bbData offset = dev.disk blockid offset) :
    Shows shape array (dev.setBuffer index buf) := by
  have missing : ∀ other < dev.bufc, (dev.bufv other).chng = true →
    (dev.bufv other).bbId ≠ blockid := fun other inside changed =>
    absent other inside (before.loaded other inside changed)
  refine before.setBuffer free.1 (fun changed => absurd changed (Bool.eq_false_iff.mp clean))
    (fun _ other inside _ loaded => id ▸ absent other inside loaded) (fun _ offset bound => ?_)
      (fun _ _ _ _ _ _ => rfl)
    fun block others _ offset bound => ?_
  · rw [data offset bound, id]
    exact before.stored blockid missing offset bound
  · refine before.stored block (fun other inside changed => ?_) offset bound
    by_cases same : other = index
    · rw [same, free.2.2] at changed
      exact absurd changed (by decide)
    · exact others other inside same changed

/-- Another buffer at the end of the vector. -/
lemma add (room : dev.bufc < dev.bufa) (free : buf.load = false ∧ buf.chng = false) :
    Shows shape array { dev.setBuffer dev.bufc buf with bufc := dev.bufc + 1 } := by
  have same := dev.setBuffer_same dev.bufc buf
  have old : ∀ {next}, next < dev.bufc + 1 → ((dev.setBuffer dev.bufc buf).bufv next).load = true →
      next < dev.bufc ∧ (dev.setBuffer dev.bufc buf).bufv next = dev.bufv next := by
    intro next inside loaded
    have different : next ≠ dev.bufc := by
      rintro rfl
      rw [same, free.1] at loaded
      exact absurd loaded (by decide)
    exact ⟨Nat.lt_of_le_of_ne (Nat.le_of_lt_succ inside) different, dev.setBuffer_other buf different⟩
  refine ⟨⟨room, before.room.2⟩,
    fun left insideLeft right insideRight leftLoaded rightLoaded equal => ?_,
    fun next inside changed => ?_, fun next inside loaded => ?_, fun block missing => ?_⟩
  · obtain ⟨left', leftSame⟩ := old insideLeft leftLoaded
    obtain ⟨right', rightSame⟩ := old insideRight rightLoaded
    rw [leftSame] at leftLoaded equal
    rw [rightSame] at rightLoaded equal
    exact before.unique left left' right right' leftLoaded rightLoaded equal
  · by_cases equal : next = dev.bufc
    · rw [equal, same, free.2] at changed
      exact absurd changed (by decide)
    · rw [dev.setBuffer_other buf equal] at changed ⊢
      exact before.loaded next (Nat.lt_of_le_of_ne (Nat.le_of_lt_succ inside) equal) changed
  · obtain ⟨inside', nextSame⟩ := old inside loaded
    rw [nextSame] at loaded ⊢
    exact before.held next inside' loaded
  · refine before.stored block fun next inside changed => ?_
    have kept := missing next (Nat.lt_succ_of_lt inside)
    rw [dev.setBuffer_other buf (Nat.ne_of_lt inside)] at kept
    exact kept changed

/-- The hardware gets another content for a block. -/
lemma setBlock {data : Nat → UInt8}
    (others : ∀ index < dev.bufc, (dev.bufv index).load = true → ∀ offset < shape.bdBlocksize,
      after ((dev.bufv index).bbId * shape.bdBlocksize + offset) =
        array ((dev.bufv index).bbId * shape.bdBlocksize + offset))
    (rest : ∀ block, block ≠ blockid → ∀ offset < shape.bdBlocksize,
      after (block * shape.bdBlocksize + offset) = array (block * shape.bdBlocksize + offset))
    (new : (∀ index < dev.bufc, (dev.bufv index).chng = true → (dev.bufv index).bbId ≠ blockid) →
      ∀ offset < shape.bdBlocksize, data offset = after (blockid * shape.bdBlocksize + offset)) :
    Shows shape after (dev.setBlock blockid data) := by
  refine ⟨before.room, before.unique, before.loaded, fun index inside loaded offset bound => ?_,
    fun block missing offset bound => ?_⟩
  · exact (before.held index inside loaded offset bound).trans
      (others index inside loaded offset bound).symm
  · show update dev.disk blockid data block offset = _
    by_cases same : block = blockid
    · subst same
      rw [update_self]
      exact new missing offset bound
    · rw [update_of_ne same, rest block same offset bound]
      exact before.stored block missing offset bound

end

end Shows

end KosKernel.Dev
