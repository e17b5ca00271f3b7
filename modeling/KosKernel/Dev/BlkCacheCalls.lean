import KosKernel.Dev.BlkCacheBuffers
import Mathlib.Data.List.GetD

namespace KosKernel.Dev
open Effect List Triple

section Bytes
variable {array : Nat → UInt8} (array : Nat → UInt8)

lemma slice_add (offset first second : Nat) :
    slice array offset (first + second) = slice array offset first ++ slice array
      (offset + first) second := by
  unfold slice
  rw [range_add, map_append]
  simp [Function.comp_def, Nat.add_assoc]

lemma storeBytes_nil (offset : Nat) : storeBytes array offset [] = array := by
  funext address
  exact if_neg fun inside => by simp only [length_nil] at inside; omega

lemma storeBytes_append (offset : Nat) (first second : List UInt8) :
    storeBytes (storeBytes array offset first) (offset + first.length) second =
      storeBytes array offset (first ++ second) := by
  funext address
  unfold storeBytes
  rw [length_append]
  by_cases late : offset + first.length ≤ address ∧ address < offset + first.length + second.length
  · rw [if_pos late, if_pos (by omega), getD_append_right _ _ _ _ (by omega)]
    congr 1
    omega
  · rw [if_neg late]
    by_cases early : offset ≤ address ∧ address < offset + first.length
    · rw [if_pos early, if_pos (by omega), getD_append _ _ _ _ (by omega)]
    · rw [if_neg early, if_neg (by omega)]

lemma storeBytes_outside (offset : Nat) (bytes : List UInt8) {size : Nat} (bound : bytes.length ≤ size) :
    Outside offset size array (storeBytes array offset bytes) :=
  fun _ outside => if_neg (by omega)

/-- A range inside of a block does not touch another block. -/
lemma block_apart {size block other offset : Nat} (begin : Nat) (different : other ≠ block)
    (bound : offset < size) :
    other * size + offset < block * size + begin ∨ (block + 1) * size ≤ other * size + offset := by
  rcases Nat.lt_or_gt_of_ne different with less | greater
  · left
    have ordered : (other + 1) * size ≤ block * size := Nat.mul_le_mul_right _ less
    rw [Nat.succ_mul] at ordered
    omega
  · right
    exact Nat.le_add_right_of_le (Nat.mul_le_mul_right _ greater)

end Bytes

section Reads
variable {shape : BlkShape} {events : Nat → BlkEvent} {array : Nat → UInt8} {index blockid : Nat}

lemma copyToUser_spec (array : Nat → UInt8) (events : Nat → BlkEvent) (index blockid : Nat)
    {begin size : Nat} (inside : begin + size ≤ shape.bdBlocksize) :
    Triple (fun dev => Shows shape array dev ∧ dev.Holds index blockid)
      (copyToUser events index begin size)
      (fun bytes dev => Shows shape array dev ∧
        bytes = slice array (blockid * shape.bdBlocksize + begin) size)
      fun _ => Shows shape array := by
  have calm : Calm fun dev => Shows shape array dev ∧ dev.Holds index blockid :=
    Shows.calm.and fun _ _ _ _ => id
  refine bind (nextEvent_spec calm) fun event => ?_
  split
  · refine inspect fun dev ⟨⟨shown, holds⟩, _⟩ => pure fun same equal => ?_
    subst equal
    refine ⟨shown, map_congr_left fun offset mem => ?_⟩
    have bound := mem_range.mp mem
    rw [shown.held index holds.1 holds.2.1 (begin + offset) (by omega), holds.2.2, Nat.add_assoc]
  · exact throw fun _ before => before.1.1

lemma bdReadUser_spec : Triple (Ready shape array blockid) (bdReadUser shape events blockid)
    (fun found dev => Shows shape array dev ∧
      (∀ bytes, found = some bytes →
        bytes = slice array (blockid * shape.bdBlocksize) shape.bdBlocksize) ∧
      (Steady events → found ≠ none)) fun _ => Shows shape array := by
  refine bind (nextEvent_spec Ready.calm) fun event => ?_
  split
  · refine inspect fun dev ⟨⟨shown, absent⟩, _⟩ => pure fun same equal => ?_
    subst equal
    refine ⟨shown, fun bytes found => ?_, fun _ => Option.some_ne_none _⟩
    rw [← Option.some.inj found]
    refine map_congr_left fun offset mem => ?_
    exact shown.stored blockid (fun other inside changed =>
      absent other inside (shown.loaded other inside changed)) offset
      (mem_range.mp mem)
  · next answer =>
    refine pure fun dev before => ⟨before.1.1,
      fun bytes none => absurd none.symm (Option.some_ne_none bytes), fun steady => ?_⟩
    obtain ⟨index, rfl⟩ := before.2
    exact absurd answer (steady index)
  · exact throw fun _ before => before.1.1

/-- The loop reads whole blocks, all of them if the hardware always reads. -/
lemma readBlocks_spec (count blockid : Nat) :
    Triple (Shows shape array) (readBlocks shape events count blockid)
    (fun whole dev => Shows shape array dev ∧
      ∃ done ≤ count, whole.1 = slice array (blockid * shape.bdBlocksize) (done * shape.bdBlocksize) ∧
        (whole.2 = false → done = count) ∧ (Steady events → whole.2 = false))
    fun _ => Shows shape array := by
  induction count generalizing blockid with
  | zero => exact pure fun dev shown => ⟨shown, 0, Nat.le_refl 0,
      by simp [slice], fun _ => rfl, fun _ => rfl⟩
  | succ count ih =>
    have next : ∀ bytes, bytes = slice array (blockid * shape.bdBlocksize) shape.bdBlocksize →
      Triple (Shows shape array) (do
          let rest ← readBlocks shape events count (blockid + 1)
          pure (bytes ++ rest.1, rest.2))
          (fun whole dev => Shows shape array dev ∧
            ∃ done ≤ count + 1, whole.1 = slice array (blockid * shape.bdBlocksize)
              (done * shape.bdBlocksize) ∧
              (whole.2 = false → done = count + 1) ∧ (Steady events → whole.2 = false))
          fun _ => Shows shape array := by
      rintro bytes rfl
      refine bind (ih (blockid + 1)) fun rest =>
        pure fun dev ⟨shown, done, few, bytes, all, steady⟩ => ?_
      refine ⟨shown, done + 1, Nat.succ_le_succ few, ?_,
        fun more => congrArg Nat.succ (all more), steady⟩
      show slice _ _ _ ++ rest.1 = _
      rw [bytes, Nat.succ_mul blockid, ← slice_add, Nat.succ_mul done, Nat.add_comm (done * _)]
    refine inspect fun dev shown => ?_
    split
    · next index found =>
      have copied := (copyToUser_spec array events index blockid
        (Nat.le_of_eq (Nat.zero_add shape.bdBlocksize))).at
        (show Shows shape array dev ∧ dev.Holds index blockid from ⟨shown, BlkDev.getBuffer_some found⟩)
      refine bind copied fun bytes => ?_
      refine assume fun equal => next bytes equal
    · next missing =>
      refine bind (bdReadUser_spec.at ⟨shown, BlkDev.getBuffer_none missing⟩) fun found => ?_
      cases found with
      | none =>
        refine pure fun dev ⟨shown, _, read⟩ =>
          ⟨shown, 0, Nat.zero_le _, by simp [slice], ?_, fun steady => ?_⟩
        · exact fun never => absurd never (by decide)
        · exact absurd rfl (read steady)
      | some bytes =>
        exact (assume fun (equal : bytes = _) => next bytes equal).weaken
          (fun dev before => ⟨before.1, before.2.1 bytes rfl⟩) (fun _ _ => id) fun _ _ => id

/-- The first bytes of a range, and all of them if the hardware always reads. -/
def ReadPart (events : Nat → BlkEvent) (array : Nat → UInt8) (offset size : Nat)
    (bytes : List UInt8) : Prop :=
  ∃ done ≤ size, bytes = slice array offset done ∧ (Steady events → done = size)

lemma readAligned_spec (events : Nat → BlkEvent) (positive : 0 < shape.bsBufm)
    (size : 0 < shape.bdBlocksize) (blockid bufsize : Nat) :
    Triple (Shows shape array) (readAligned shape events blockid bufsize)
      (fun bytes dev => Shows shape array dev ∧
        ReadPart events array (blockid * shape.bdBlocksize) bufsize bytes)
      fun _ => Shows shape array := by
  have whole := Nat.div_add_mod' bufsize shape.bdBlocksize
  refine bind (readBlocks_spec _ _) fun read => ?_
  split
  · next last =>
    refine pure fun dev ⟨shown, done, few, bytes, all, steady⟩ => ⟨shown, _, ?_, bytes, fun calm => ?_⟩
    · have product := Nat.mul_le_mul_right shape.bdBlocksize few
      omega
    · have complete := all (steady calm)
      rcases last with stopped | none
      · exact absurd stopped (Bool.eq_false_iff.mp (steady calm))
      · rw [complete]
        omega
  · next more =>
    rw [not_or] at more
    have blocks : ∀ dev, (Shows shape array dev ∧ ∃ done ≤ bufsize / shape.bdBlocksize,
        read.1 = slice array (blockid * shape.bdBlocksize) (done * shape.bdBlocksize) ∧
          (read.2 = false → done = bufsize / shape.bdBlocksize) ∧ (Steady events → read.2 = false)) →
        Shows shape array dev ∧ read.1 = slice array (blockid * shape.bdBlocksize)
          (bufsize / shape.bdBlocksize * shape.bdBlocksize) :=
      fun dev ⟨shown, done, _, bytes, all, _⟩ => ⟨shown, all (Bool.eq_false_iff.mpr more.1) ▸ bytes⟩
    refine (assume fun bytes => bind (openBlock_spec positive false) fun found => ?_).weaken blocks
      (fun _ _ => id) fun _ _ => id
    cases found with
    | none =>
      refine pure fun dev ⟨shown, _, opened⟩ =>
        ⟨shown, _, ?_, bytes, fun steady => absurd rfl (opened steady)⟩
      omega
    | some index =>
      have short := Nat.mod_lt bufsize size
      have copied := copyToUser_spec array events index (blockid + bufsize / shape.bdBlocksize)
        (show 0 + bufsize % shape.bdBlocksize ≤ shape.bdBlocksize by omega)
      refine bind (copied.weaken (fun dev before => ⟨before.1, before.2.1 index rfl⟩)
        (fun _ _ => id) fun _ _ => id)
        fun last => pure fun dev ⟨shown, tail⟩ => ⟨shown, bufsize, Nat.le_refl _, ?_, fun _ => rfl⟩
      rw [bytes, tail, Nat.add_zero, Nat.add_mul, ← slice_add, whole]

/-- The bytes of the leading block and the bytes behind it. -/
lemma ReadPart.cons {offset first size : Nat} {rest : List UInt8} (bound : first ≤ size)
    (part : ReadPart events array (offset + first) (size - first) rest) :
    ReadPart events array offset size (slice array offset first ++ rest) := by
  obtain ⟨done, few, rfl, all⟩ := part
  refine ⟨first + done, by omega, (slice_add _ _ _ _).symm, fun steady => ?_⟩
  have complete := all steady
  omega

lemma ReadPart.move {offset other size : Nat} {bytes : List UInt8}
    (part : ReadPart events array offset size bytes)
    (same : size ≠ 0 → offset = other) : ReadPart events array other size bytes := by
  obtain ⟨done, few, rfl, all⟩ := part
  by_cases none : size = 0
  · subst none
    obtain rfl := Nat.le_zero.mp few
    exact ⟨0, Nat.le_refl 0, rfl, all⟩
  · exact ⟨done, few, same none ▸ rfl, all⟩

/-- The bytes behind the leading block start with the next block. -/
lemma next_block {offset size : Nat} (whole : offset / size * size + offset % size = offset)
    (short : offset % size < size)
    (length : Nat) (more : length - min (size - offset % size) length ≠ 0) :
    (offset / size + 1) * size = offset + min (size - offset % size) length := by
  rw [Nat.succ_mul]
  omega

lemma blkdevRead_spec (positive : 0 < shape.bsBufm) (size : 0 < shape.bdBlocksize)
    (offset bufsize : Nat) :
    Triple (Shows shape array) (blkdevRead shape events offset bufsize)
      (fun bytes dev => Shows shape array dev ∧ ReadPart events array offset bufsize bytes)
      fun _ => Shows shape array := by
  have whole := Nat.div_add_mod' offset shape.bdBlocksize
  have short := Nat.mod_lt offset size
  unfold blkdevRead
  split
  · next none =>
    subst none
    exact pure fun dev shown => ⟨shown, 0, Nat.le_refl 0, rfl, fun _ => rfl⟩
  refine bind (lockBuffers_spec Shows.calm) fun _ => ?_
  refine inspect fun dev shown => ?_
  split
  · next aligned =>
    have start : offset / shape.bdBlocksize * shape.bdBlocksize = offset := by omega
    have read := (readAligned_spec events positive size (offset / shape.bdBlocksize) bufsize).at shown
    rwa [start] at read
  · refine bind ((openBlock_spec positive true).at shown) fun found => ?_
    cases found with
    | none =>
      refine pure fun dev ⟨shown, _, opened⟩ => ⟨shown, 0, Nat.zero_le _, rfl,
        fun steady => absurd rfl (opened steady)⟩
    | some index =>
      have copied := copyToUser_spec array events index (offset / shape.bdBlocksize)
        (show offset % shape.bdBlocksize +
        min (shape.bdBlocksize - offset % shape.bdBlocksize) bufsize ≤ shape.bdBlocksize by omega)
      rw [whole] at copied
      refine bind (copied.weaken (fun dev before => ⟨before.1, before.2.1 index rfl⟩)
        (fun _ _ => id) fun _ _ => id)
        fun first => assume fun leading => ?_
      refine bind (readAligned_spec events positive size _ _) fun rest =>
        pure fun dev ⟨shown, part⟩ => ⟨shown, ?_⟩
      rw [leading]
      exact (part.move (next_block whole short bufsize)).cons (Nat.min_le_right _ _)

end Reads

section Writes
variable {shape : BlkShape} {events : Nat → BlkEvent} {array : Nat → UInt8} {dev : BlkDev}
  {index blockid : Nat}
variable {size offset other begin : Nat} {bytes : List UInt8}
variable {block total first count : Nat}

/-- A range inside of a block, seen from another block. -/
lemma storeBytes_apart (inside : begin + bytes.length ≤ size) (different : other ≠ block)
    (bound : offset < size) :
    storeBytes array (block * size + begin) bytes (other * size + offset) =
      array (other * size + offset) := by
  refine storeBytes_outside array _ bytes (Nat.le_refl _) _ ?_
  have apart := block_apart begin different bound
  rw [Nat.succ_mul] at apart
  omega

/-- A range inside of a block, seen from that block. -/
lemma storeBytes_inside (data : Nat → UInt8) (same : data offset = array (block * size + offset)) :
    storeBytes array (block * size + begin) bytes (block * size + offset) =
      storeBytes data begin bytes offset := by
  unfold storeBytes
  rw [same, Nat.add_sub_add_left]
  refine if_congr ?_ rfl rfl
  omega

/-- Some bytes are stored in a loaded buffer, which is changed then. -/
lemma Shows.store (shown : Shows shape array dev) (holds : dev.Holds index blockid)
    (inside : begin + bytes.length ≤ shape.bdBlocksize) :
    Shows shape (storeBytes array (blockid * shape.bdBlocksize + begin) bytes)
      (dev.setBuffer index { dev.bufv index with
      bbData := storeBytes (dev.bufv index).bbData begin bytes, chng := true }) := by
  obtain ⟨within, loaded, id⟩ := holds
  have others : ∀ other < dev.bufc, other ≠ index → (dev.bufv other).load = true →
    (dev.bufv other).bbId ≠ blockid :=
    fun other insideOther different otherLoaded equal =>
      different (shown.unique other insideOther index within otherLoaded loaded (equal.trans id.symm))
  refine shown.setBuffer within (fun _ => loaded)
    (fun _ other insideOther different otherLoaded => ?_) (fun _ offset bound => ?_)
    (fun other insideOther different otherLoaded offset bound => ?_)
    fun block missing changed offset bound => ?_
  · exact fun equal => others other insideOther different otherLoaded (equal.trans id)
  · have held := shown.held index within loaded offset bound
    rw [id] at held ⊢
    exact (storeBytes_inside _ held).symm
  · exact storeBytes_apart inside (others other insideOther different otherLoaded) bound
  · have different : block ≠ blockid := fun equal => changed rfl (id.trans equal.symm)
    rw [storeBytes_apart inside different bound]
    refine shown.stored block (fun other insideOther otherChanged => ?_) offset bound
    by_cases same : other = index
    · rw [same, id]
      exact different.symm
    · exact missing other insideOther same otherChanged

/-- The hardware gets a block that no buffer holds. -/
lemma Shows.direct {data : Nat → UInt8} (ready : Ready shape array blockid dev)
    (length : bytes.length = shape.bdBlocksize)
    (same : ∀ offset < shape.bdBlocksize, data offset = bytes.getD offset 0) :
    Shows shape (storeBytes array (blockid * shape.bdBlocksize) bytes) (dev.setBlock blockid data) := by
  obtain ⟨shown, absent⟩ := ready
  have inside : 0 + bytes.length ≤ shape.bdBlocksize := by omega
  have start := Nat.add_zero (blockid * shape.bdBlocksize)
  rw [← start]
  refine shown.setBlock (fun other insideOther loaded offset bound => ?_)
    (fun block different offset bound => ?_)
    fun _ offset bound => ?_
  · exact storeBytes_apart inside (absent other insideOther loaded) bound
  · exact storeBytes_apart inside different bound
  · rw [storeBytes_inside (array.comp fun offset => blockid * shape.bdBlocksize + offset) rfl,
      same offset bound]
    exact (if_pos ⟨Nat.zero_le _, by omega⟩).symm

/-- A failed call leaves the bytes outside of its range. -/
def Broken (shape : BlkShape) (array : Nat → UInt8) (offset size : Nat) (dev : BlkDev) : Prop :=
  ∃ after, Outside offset size array after ∧ Shows shape after dev

lemma Shows.broken (shown : Shows shape array dev) (offset size : Nat) :
    Broken shape array offset size dev :=
  ⟨array, fun _ _ => rfl, shown⟩

lemma Broken.mono (broken : Broken shape array offset size dev) (bound : size ≤ total) :
    Broken shape array offset total dev := by
  obtain ⟨after, outside, shown⟩ := broken
  exact ⟨after, fun address apart => outside address (by omega), shown⟩

lemma Broken.after (broken : Broken shape (storeBytes array offset bytes) (offset + first) size dev)
    (length : bytes.length = first) (bound : first + size ≤ total) :
      Broken shape array offset total dev := by
  obtain ⟨after, outside, shown⟩ := broken
  refine ⟨after, fun address apart => ?_, shown⟩
  rw [outside address (by omega)]
  exact storeBytes_outside array offset bytes (show bytes.length ≤ total by omega) address apart

lemma copyFromUser_spec (array : Nat → UInt8) (events : Nat → BlkEvent) (index blockid : Nat)
    (inside : begin + bytes.length ≤ shape.bdBlocksize) :
    Triple (fun dev => Shows shape array dev ∧ dev.Holds index blockid)
      (copyFromUser events index begin bytes)
      (fun _ => Shows shape (storeBytes array (blockid * shape.bdBlocksize + begin) bytes))
      fun _ => Broken shape array (blockid * shape.bdBlocksize + begin) bytes.length := by
  have calm : Calm fun dev => Shows shape array dev ∧ dev.Holds index blockid :=
    Shows.calm.and fun _ _ _ _ => id
  refine bind (nextEvent_spec calm) fun event => ?_
  dsimp only
  refine change (Shows shape (storeBytes array (blockid * shape.bdBlocksize + begin)
    (bytes.take (bytes.length - min event.uncopied bytes.length))))
      (fun dev ⟨⟨shown, holds⟩, _⟩ => ?_) ?_
  · by_cases nothing : min event.uncopied bytes.length = bytes.length
    · have same : dev.setBuffer index (dev.bufv index) = dev := by
        unfold BlkDev.setBuffer
        rw [Function.update_eq_self]
      simpa [nothing, storeBytes_nil, same] using shown
    · have changed :
          ((dev.bufv index).chng || min event.uncopied bytes.length != bytes.length) = true := by
        rw [bne_iff_ne.mpr nothing, Bool.or_true]
      rw [changed]
      refine shown.store holds ?_
      rw [length_take]
      omega
  · split
    · next all =>
      refine pure fun dev shown => ?_
      rwa [all, Nat.sub_zero, take_length] at shown
    · refine throw fun dev shown => ⟨_, storeBytes_outside _ _ _ ?_, shown⟩
      rw [length_take]
      omega

/-- A block that no buffer holds is written to the hardware. -/
lemma writeDirect_spec (bytes : List UInt8) (enough : shape.bdBlocksize ≤ bytes.length) :
    Triple (Ready shape array blockid) (bdWrite events blockid fun offset => bytes.getD offset 0)
      (fun accepted dev => if accepted then Shows shape
        (storeBytes array (blockid * shape.bdBlocksize) (bytes.take shape.bdBlocksize)) dev
        else Shows shape array dev ∧ ¬Steady events)
      fun _ => Broken shape array (blockid * shape.bdBlocksize) shape.bdBlocksize := by
  have junkLength : ∀ junk : Nat → UInt8, ((List.range shape.bdBlocksize).map junk).length =
    shape.bdBlocksize := fun junk => by
    rw [length_map, length_range]
  refine bdWrite_spec Ready.calm (fun dev ready => Shows.direct ready ?_ fun offset bound => ?_)
    (fun unsteady dev ready => ⟨ready.1, unsteady⟩) fun dev junk code ready => ?_
  · rw [length_take]
    omega
  · rw [getD_eq_getElem?_getD, getD_eq_getElem?_getD, List.getElem?_take_of_lt bound]
  · refine ⟨_, storeBytes_outside _ _ _ (Nat.le_of_eq (junkLength junk)),
      Shows.direct ready (junkLength junk) fun offset bound => ?_⟩
    rw [getD_eq_getElem?_getD, List.getElem?_map, List.getElem?_range bound]
    rfl

/-- The loop writes whole blocks, all of them if the hardware always writes. -/
lemma writeBlocks_spec (count blockid : Nat) (bytes : List UInt8)
    (enough : count * shape.bdBlocksize ≤ bytes.length) (array : Nat → UInt8) :
    Triple (Shows shape array) (writeBlocks shape events count blockid bytes)
      (fun whole dev => ∃ done ≤ count, whole.1 = done * shape.bdBlocksize ∧
        Shows shape (storeBytes array (blockid * shape.bdBlocksize)
          (bytes.take (done * shape.bdBlocksize))) dev ∧
          (whole.2 = false → done = count) ∧ (Steady events → whole.2 = false))
      fun _ => Broken shape array (blockid * shape.bdBlocksize) (count * shape.bdBlocksize) := by
  induction count generalizing blockid bytes array with
  | zero =>
    refine pure fun dev shown => ⟨0, Nat.le_refl 0, (Nat.zero_mul _).symm, ?_,
      fun _ => rfl, fun _ => rfl⟩
    rwa [Nat.zero_mul, take_zero, storeBytes_nil]
  | succ count ih =>
    rw [Nat.succ_mul] at enough
    have first : (bytes.take shape.bdBlocksize).length = shape.bdBlocksize := by
      rw [length_take]
      omega
    have next : Triple (Shows shape
      (storeBytes array (blockid * shape.bdBlocksize) (bytes.take shape.bdBlocksize))) (do
          let rest ← writeBlocks shape events count (blockid + 1) (bytes.drop shape.bdBlocksize)
          pure (shape.bdBlocksize + rest.1, rest.2))
        (fun whole dev => ∃ done ≤ count + 1, whole.1 = done * shape.bdBlocksize ∧
          Shows shape (storeBytes array (blockid * shape.bdBlocksize)
            (bytes.take (done * shape.bdBlocksize))) dev ∧
            (whole.2 = false → done = count + 1) ∧ (Steady events → whole.2 = false))
        fun _ => Broken shape array (blockid * shape.bdBlocksize) ((count + 1) * shape.bdBlocksize) := by
      have rest := ih (blockid + 1) (bytes.drop shape.bdBlocksize) (by rw [length_drop]; omega)
        (storeBytes array (blockid * shape.bdBlocksize) (bytes.take shape.bdBlocksize))
      have start : (blockid + 1) * shape.bdBlocksize =
        blockid * shape.bdBlocksize + (bytes.take shape.bdBlocksize).length := by
        rw [Nat.succ_mul, first]
      rw [start] at rest
      refine bind (rest.weaken (fun _ => id) (fun _ _ => id) fun _ dev broken => ?_) fun whole =>
        pure fun dev ⟨done, few, size, shown, all, steady⟩ => ?_
      · exact broken.after rfl (Nat.le_of_eq (by rw [first, Nat.succ_mul, Nat.add_comm]))
      · refine ⟨done + 1, Nat.succ_le_succ few, ?_, ?_, fun more => congrArg Nat.succ (all more), steady⟩
        · show shape.bdBlocksize + whole.1 = _
          rw [size, Nat.succ_mul, Nat.add_comm]
        · rwa [storeBytes_append, ← take_add, Nat.add_comm, ← Nat.succ_mul] at shown
    refine inspect fun dev shown => ?_
    split
    · next index found =>
      have inside : 0 + (bytes.take shape.bdBlocksize).length ≤ shape.bdBlocksize := by omega
      have copied := (copyFromUser_spec array events _ _ inside).at
        (show Shows shape array dev ∧ dev.Holds index blockid from ⟨shown, BlkDev.getBuffer_some found⟩)
      rw [first] at copied
      refine bind (copied.weaken (fun _ => id) (fun _ _ => id) fun _ dev broken => ?_) fun _ => next
      exact broken.mono (Nat.le_mul_of_pos_left _ (Nat.succ_pos count))
    · next missing =>
      refine bind ((writeDirect_spec bytes (by omega)).at ⟨shown, BlkDev.getBuffer_none missing⟩
        |>.weaken (fun _ => id)
        (fun _ _ => id) fun _ dev broken =>
          broken.mono (Nat.le_mul_of_pos_left _ (Nat.succ_pos count))) fun accepted => ?_
      cases accepted with
      | true => exact next
      | false =>
        refine pure fun dev ⟨shown, unsteady⟩ => ⟨0, Nat.zero_le _, (Nat.zero_mul _).symm, ?_, ?_,
          fun steady => ?_⟩
        · rwa [Nat.zero_mul, take_zero, storeBytes_nil]
        · exact fun never => absurd never (by decide)
        · exact absurd steady unsteady

/-- The first bytes of a range are stored, all of them if the hardware always writes. -/
def WritePart (shape : BlkShape) (events : Nat → BlkEvent) (array : Nat → UInt8) (offset : Nat)
    (bytes : List UInt8) (count : Nat) (dev : BlkDev) : Prop :=
  count ≤ bytes.length ∧ Shows shape (storeBytes array offset (bytes.take count)) dev ∧
    (Steady events → count = bytes.length)

lemma writeAligned_spec (events : Nat → BlkEvent) (positive : 0 < shape.bsBufm)
    (size : 0 < shape.bdBlocksize) (blockid : Nat) (bytes : List UInt8) (array : Nat → UInt8) :
    Triple (Shows shape array) (writeAligned shape events blockid bytes)
      (WritePart shape events array (blockid * shape.bdBlocksize) bytes)
      fun _ => Broken shape array (blockid * shape.bdBlocksize) bytes.length := by
  have whole := Nat.div_add_mod' bytes.length shape.bdBlocksize
  have enough : bytes.length / shape.bdBlocksize * shape.bdBlocksize ≤ bytes.length :=
    Nat.div_mul_le_self _ _
  refine bind ((writeBlocks_spec _ blockid bytes enough array).weaken (fun _ => id) (fun _ _ => id)
    fun _ dev broken =>
    broken.mono enough) fun written => ?_
  split
  · next last =>
    refine pure fun dev ⟨done, few, count, shown, all, steady⟩ => ⟨?_, count ▸ shown, fun calm => ?_⟩
    · have product := Nat.mul_le_mul_right shape.bdBlocksize few
      omega
    · have complete := all (steady calm)
      rcases last with stopped | none
      · exact absurd stopped (Bool.eq_false_iff.mp (steady calm))
      · rw [count, complete]
        omega
  · next more =>
    rw [not_or] at more
    have front : (bytes.take (bytes.length / shape.bdBlocksize * shape.bdBlocksize)).length =
        bytes.length / shape.bdBlocksize * shape.bdBlocksize := by
      rw [length_take]
      omega
    have blocks : ∀ dev, (∃ done ≤ bytes.length / shape.bdBlocksize,
      written.1 = done * shape.bdBlocksize ∧
        Shows shape (storeBytes array (blockid * shape.bdBlocksize)
          (bytes.take (done * shape.bdBlocksize))) dev ∧
          (written.2 = false → done = bytes.length / shape.bdBlocksize) ∧
            (Steady events → written.2 = false)) →
        Shows shape (storeBytes array (blockid * shape.bdBlocksize)
          (bytes.take (bytes.length / shape.bdBlocksize * shape.bdBlocksize))) dev ∧
            written.1 = bytes.length / shape.bdBlocksize * shape.bdBlocksize :=
      fun dev ⟨done, _, count, shown, all, _⟩ => by
        have complete := all (Bool.eq_false_iff.mpr more.1)
        rw [complete] at count shown
        exact ⟨shown, count⟩
    refine (assume fun count => bind
      ((openBlock_spec positive false).weaken (fun _ => id) (fun _ _ => id)
      fun _ dev shown => ⟨_, storeBytes_outside _ _ _ (by omega), shown⟩) fun found => ?_).weaken
        blocks (fun _ _ => id) fun _ _ => id
    cases found with
    | none =>
      refine pure fun dev ⟨shown, _, opened⟩ =>
        ⟨by omega, count ▸ shown, fun steady => absurd rfl (opened steady)⟩
    | some index =>
      have short := Nat.mod_lt bytes.length size
      have inside : 0 + (bytes.drop (bytes.length / shape.bdBlocksize * shape.bdBlocksize)).length ≤
        shape.bdBlocksize := by
        rw [length_drop]
        omega
      have copied := copyFromUser_spec (storeBytes array (blockid * shape.bdBlocksize)
        (bytes.take (bytes.length / shape.bdBlocksize * shape.bdBlocksize))) events index
          (blockid + bytes.length / shape.bdBlocksize) inside
      have start : (blockid + bytes.length / shape.bdBlocksize) * shape.bdBlocksize + 0 =
        blockid * shape.bdBlocksize +
          (bytes.take (bytes.length / shape.bdBlocksize * shape.bdBlocksize)).length := by
        rw [Nat.add_zero, Nat.add_mul, front]
      rw [start] at copied
      refine bind (copied.weaken (fun dev before => ⟨before.1, before.2.1 index rfl⟩)
        (fun _ _ => id) fun _ dev broken => ?_)
        fun _ => pure fun dev shown => ⟨by omega, ?_, fun _ => by omega⟩
      · refine broken.after rfl ?_
        rw [length_drop]
        omega
      · rw [storeBytes_append, take_append_drop] at shown
        rwa [count, whole, take_length]

lemma WritePart.move (part : WritePart shape events array offset bytes count dev)
    (same : bytes.length ≠ 0 → offset = other) : WritePart shape events array other bytes count dev := by
  obtain ⟨few, shown, all⟩ := part
  by_cases none : bytes.length = 0
  · refine ⟨few, ?_, all⟩
    rw [length_eq_zero_iff.mp none, take_nil, storeBytes_nil] at shown ⊢
    exact shown
  · exact ⟨few, same none ▸ shown, all⟩

lemma Broken.move (broken : Broken shape array offset size dev) (same : size ≠ 0 → offset = other) :
    Broken shape array other size dev := by
  obtain ⟨after, outside, shown⟩ := broken
  by_cases none : size = 0
  · exact ⟨after, fun address _ => outside address (by omega), shown⟩
  · exact ⟨after, same none ▸ outside, shown⟩

/-- The bytes of the leading block and the bytes behind it. -/
lemma WritePart.cons (bound : first ≤ bytes.length)
    (part : WritePart shape events (storeBytes array offset (bytes.take first)) (offset + first)
      (bytes.drop first) count dev) :
    WritePart shape events array offset bytes (first + count) dev := by
  obtain ⟨few, shown, all⟩ := part
  rw [length_drop] at few all
  refine ⟨by omega, ?_, fun steady => by have complete := all steady; omega⟩
  have front : (bytes.take first).length = first := by
    rw [length_take]
    omega
  have joined := storeBytes_append array offset (bytes.take first) ((bytes.drop first).take count)
  rw [front] at joined
  rwa [joined, ← take_add] at shown

lemma blkdevWrite_spec (positive : 0 < shape.bsBufm) (size : 0 < shape.bdBlocksize) (offset : Nat)
    (bytes : List UInt8) :
    Triple (Shows shape array) (blkdevWrite shape events offset bytes)
      (WritePart shape events array offset bytes) fun _ => Broken shape array offset bytes.length := by
  have whole := Nat.div_add_mod' offset shape.bdBlocksize
  have short := Nat.mod_lt offset size
  unfold blkdevWrite
  split
  · next none =>
    refine pure fun dev shown => ⟨Nat.zero_le _, ?_, fun _ => none.symm⟩
    rwa [take_zero, storeBytes_nil]
  split
  · exact throw fun dev shown => shown.broken _ _
  refine bind ((lockBuffers_spec Shows.calm).weaken (fun _ => id) (fun _ _ => id) fun _ dev shown =>
    shown.broken _ _)
    fun _ => ?_
  refine inspect fun dev shown => ?_
  split
  · next aligned =>
    have start : offset / shape.bdBlocksize * shape.bdBlocksize = offset := by omega
    have wrote :=
      (writeAligned_spec events positive size (offset / shape.bdBlocksize) bytes array).at shown
    rwa [start] at wrote
  · refine bind (((openBlock_spec positive true).at shown).weaken (fun _ => id) (fun _ _ => id)
      fun _ dev shown =>
      shown.broken _ _) fun found => ?_
    cases found with
    | none =>
      refine pure fun dev ⟨shown, _, opened⟩ =>
        ⟨Nat.zero_le _, ?_, fun steady => absurd rfl (opened steady)⟩
      rwa [take_zero, storeBytes_nil]
    | some index =>
      have bound := Nat.min_le_right (shape.bdBlocksize - offset % shape.bdBlocksize) bytes.length
      have front :
        (bytes.take (min (shape.bdBlocksize - offset % shape.bdBlocksize) bytes.length)).length =
          min (shape.bdBlocksize - offset % shape.bdBlocksize) bytes.length := by
        rw [length_take]
        omega
      have inside : offset % shape.bdBlocksize +
          (bytes.take (min (shape.bdBlocksize - offset % shape.bdBlocksize) bytes.length)).length ≤
            shape.bdBlocksize := by omega
      have copied := copyFromUser_spec array events index (offset / shape.bdBlocksize) inside
      rw [whole, front] at copied
      refine bind (copied.weaken (fun dev before => ⟨before.1, before.2.1 index rfl⟩)
        (fun _ _ => id) fun _ dev broken =>
        broken.mono bound) fun _ => ?_
      have apart :
        (bytes.drop (min (shape.bdBlocksize - offset % shape.bdBlocksize) bytes.length)).length ≠ 0 →
          (offset / shape.bdBlocksize + 1) * shape.bdBlocksize =
            offset + min (shape.bdBlocksize - offset % shape.bdBlocksize) bytes.length := by
        rw [length_drop]
        exact next_block whole short bytes.length
      refine bind ((writeAligned_spec events positive size _ _ _).weaken (fun _ => id)
        (fun _ dev part => (part.move apart).cons bound) fun _ dev broken => ?_) fun count =>
          pure fun dev => id
      refine (broken.move apart).after front ?_
      rw [length_drop]
      omega

end Writes

end KosKernel.Dev
