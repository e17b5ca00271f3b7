import KosKernel.Dev.BlkCacheRuns
import KosKernel.Dev.DiskPart
import Mathlib.Tactic

namespace KosKernel.Dev
open Effect List Triple Nat BlkNode

/-- The arguments of nested calls of `blkdev_mkpart`, with the innermost call first. -/
abbrev Nesting : Type := List (Nat × Nat)

/-- The device that nested calls make. -/
def nested (bits : Nat) (disk : BlkNode) : Nesting → BlkNode
  | [] => disk
  | call :: outer => (nested bits disk outer).blkdevMkpart bits call.1 call.2

/-- The first block and the number of blocks that a nested partition stands for. -/
def window (count : Nat) : Nesting → Nat × Nat
  | [] => (0, count)
  | call :: outer => ((window count outer).1 + call.1, min call.2 ((window count outer).2 - call.1))

/-- The blocks of the disk that belong to a device. -/
def BlkNode.Holds : BlkNode → Nat → Prop
  | .disk _ bdBlockcount, block => block < bdBlockcount
  | .part _ dpStart _ bdBlockcount _, block => dpStart ≤ block ∧ block < dpStart + bdBlockcount

section Windows
variable {bits count blocksize : Nat} {calls outer : Nesting} {call : Nat × Nat}

lemma window_fst (count : Nat) (calls : Nesting) :
    (window count calls).1 = (calls.map Prod.fst).sum := by
  induction calls with
  | nil => rfl
  | cons call outer ih => rw [window, ih, map_cons, sum_cons, add_comm]

/-- A window that is not empty lies inside of the disk. -/
lemma window_inside (filled : 0 < (window count calls).2) :
    (window count calls).1 + (window count calls).2 ≤ count := by
  induction calls with
  | nil => exact le_of_eq (zero_add count)
  | cons call outer ih =>
    simp only [window] at filled ⊢
    omega

lemma window_le (count : Nat) (calls : Nesting) : (window count calls).2 ≤ count := by
  by_cases filled : 0 < (window count calls).2
  · exact le_trans (le_add_left _ _) (window_inside filled)
  · omega

/-- A window lies inside of the windows around it. -/
lemma window_suffix (around : outer <:+ calls) (filled : 0 < (window count calls).2) :
    0 < (window count outer).2 ∧ (window count outer).1 ≤ (window count calls).1 ∧
      (window count calls).1 + (window count calls).2 ≤
        (window count outer).1 + (window count outer).2 := by
  induction calls with
  | nil =>
    rw [suffix_nil.mp around]
    exact ⟨filled, le_refl _, le_refl _⟩
  | cons call rest ih =>
    rcases suffix_cons_iff.mp around with rfl | around
    · exact ⟨filled, le_refl _, le_refl _⟩
    · simp only [window] at filled ⊢
      have := ih around (by omega)
      omega

/-- Without a wrap of the sizes, the macro `MIN` makes no difference. -/
lemma clampTo_eq {limit start size : Nat} (small : limit < 2 ^ bits) :
    clampTo bits limit start size = min size (limit - start) := by
  unfold clampTo
  split
  · rw [mod_eq_of_lt (by omega)]
  · omega

/-- A request is never made longer and ends at the limit. -/
lemma clampTo_le (bits limit start size : Nat) :
    clampTo bits limit start size ≤ min size (limit - start) := by
  have := mod_le (limit - start) (2 ^ bits)
  unfold clampTo
  split <;> omega

/-- The size that `blkdev_mkpart` takes first ends a partition at the last address. -/
lemma mkpart_size {start size limit : Nat} (word : start < 2 ^ bits) (short : size < 2 ^ bits)
    (small : limit < 2 ^ bits) :
    min (if (start + size) % 2 ^ bits < start then (2 ^ bits - start) % 2 ^ bits else size)
      (limit - start) = min size (limit - start) := by
  by_cases wraps : start + size < 2 ^ bits
  · rw [if_neg (by rw [mod_eq_of_lt wraps]; omega)]
  rw [mod_eq_sub_mod (by omega), mod_eq_of_lt (show start + size - 2 ^ bits < 2 ^ bits by omega)]
  by_cases zero : start = 0
  · omega
  · rw [if_pos (by omega), mod_eq_of_lt (by omega)]
    omega

/-- A partition inside of a partition lies on the disk. -/
lemma mkpart_part {dpStart limit start size : Nat} {readOnly : Bool} (small : count < 2 ^ bits)
    (word : start < 2 ^ bits) (short : size < 2 ^ bits)
    (few : limit ≤ count) (inside : 0 < limit → dpStart + limit ≤ count) :
    (part (.disk blocksize count) dpStart blocksize limit readOnly).blkdevMkpart bits start size =
      .part (.disk blocksize count) ((start + dpStart) % 2 ^ bits) blocksize
        (min size (limit - start)) false := by
  have limitSmall : limit < 2 ^ bits := lt_of_le_of_lt few small
  simp only [blkdevMkpart, mkpartLoop, clampTo_eq small, clampTo_eq limitSmall,
    mkpart_size word short limitSmall, bdBlocksize, part.injEq, true_and, and_true]
  by_cases behind : limit ≤ start
  · rw [Nat.sub_eq_zero_of_le behind, Nat.min_zero, ite_self, Nat.zero_min]
  · rw [mod_eq_of_lt (show start + dpStart < 2 ^ bits by omega), if_neg (by omega)]
    omega

/-- The partition that nested calls make. -/
lemma nested_eq (blocksize : Nat) (small : count < 2 ^ bits)
    (words : ∀ call ∈ calls, call.1 < 2 ^ bits ∧ call.2 < 2 ^ bits) (filled : calls ≠ []) :
    ∃ start, nested bits (.disk blocksize count) calls =
        .part (.disk blocksize count) start blocksize (window count calls).2 false ∧
      (0 < (window count calls).2 → start = (window count calls).1) := by
  induction calls with
  | nil => exact absurd rfl filled
  | cons call outer ih =>
    obtain ⟨word, short⟩ := words call mem_cons_self
    cases outer with
    | nil =>
      refine ⟨call.1, ?_, fun _ => (zero_add call.1).symm⟩
      simp only [nested, blkdevMkpart, mkpartLoop, clampTo_eq small,
        mkpart_size word short small, window]
      rfl
    | cons second rest =>
      obtain ⟨start, made, place⟩ := ih (fun call mem => words call (mem_cons_of_mem _ mem))
        (cons_ne_nil _ _)
      have few := window_le count (second :: rest)
      have inside := @window_inside count (second :: rest)
      rw [nested, made, show window count (call :: second :: rest) =
        ((window count (second :: rest)).1 + call.1,
        min call.2 ((window count (second :: rest)).2 - call.1)) from rfl]
      refine ⟨(call.1 + start) % 2 ^ bits, mkpart_part small word short few fun positive => ?_,
        fun positive => ?_⟩
      · rw [place positive]
        exact inside positive
      · rw [place (by omega), mod_eq_of_lt (by omega), add_comm]

end Windows

/-- A request through a nested partition reaches the right bytes or blocks of the disk. -/
structure Confined (widths : BlkWidths) (disk : BlkNode) (calls : Nesting) (unit start size : Nat)
    (request : Nat × Nat) : Prop where
  few : request.2 ≤ size
  place : ∀ index < request.2, request.1 + index = (calls.map Prod.fst).sum * unit + (start + index)
  inside : ∀ index < request.2, ∀ outer, outer <:+ calls →
    (nested widths.posBits disk outer).Holds ((request.1 + index) / unit)
  answered : 0 < size → start < (nested widths.posBits disk calls).bdBlockcount * unit → 0 < request.2

/-- Confined calls through a nested partition are calls on the disk. -/
structure PartContract (widths : BlkWidths) (shape : BlkShape) (count : Nat) (calls : Nesting)
    (offset bufsize block blocks : Nat) : Prop where
  product : (nested widths.posBits (.disk shape.bdBlocksize count) calls).bdBlockcount *
    shape.bdBlocksize % 2 ^ widths.posBits =
    (nested widths.posBits (.disk shape.bdBlocksize count) calls).bdBlockcount * shape.bdBlocksize
  bytes : ∃ request,
    Confined widths (.disk shape.bdBlocksize count) calls shape.bdBlocksize offset bufsize request ∧
    (∀ events, (nested widths.posBits (.disk shape.bdBlocksize count) calls).blkdevRead widths shape
      events offset bufsize = blkdevRead shape events request.1 request.2) ∧
    ∀ events data, data.length = bufsize →
      (nested widths.posBits (.disk shape.bdBlocksize count) calls).blkdevWrite widths shape
        events offset data = blkdevWrite shape events request.1 (data.take request.2)
  raw : ∃ request, Confined widths (.disk shape.bdBlocksize count) calls 1 block blocks request ∧
    (∀ events, (nested widths.posBits (.disk shape.bdBlocksize count) calls).diskpartRead widths
      shape events block blocks =
      (disk shape.bdBlocksize count).blkdevRawRead widths shape events request.1 request.2) ∧
    ∀ events data, (nested widths.posBits (.disk shape.bdBlocksize count) calls).diskpartWrite
      widths shape events block blocks data =
      (disk shape.bdBlocksize count).blkdevRawWrite widths shape events request.1 request.2 data

/-- The size is a position, and no distance to the end is lost in `size_t`. -/
def PartSafe (widths : BlkWidths) (shape : BlkShape) (count : Nat) (calls : Nesting)
    (offset bufsize block blocks : Nat) : Prop :=
  (window count calls).2 * shape.bdBlocksize ≠ 2 ^ widths.posBits ∧
    (0 < bufsize → offset < (window count calls).2 * shape.bdBlocksize →
      ¬ 2 ^ widths.sizeBits ∣ (window count calls).2 * shape.bdBlocksize - offset) ∧
    (0 < blocks → block < (window count calls).2 →
      ¬ 2 ^ widths.sizeBits ∣ (window count calls).2 - block)

instance (widths : BlkWidths) (shape : BlkShape) (count : Nat) (calls : Nesting)
    (offset bufsize block blocks : Nat) :
    Decidable (PartSafe widths shape count calls offset bufsize block blocks) :=
  inferInstanceAs (Decidable (_ ∧ _))

/-- The place and the amount of a request on the disk, in bytes or in blocks. -/
def partRequest (widths : BlkWidths) (part : BlkNode) (unit start size : Nat) : Nat × Nat :=
  match part with
  | .disk _ _ => (start, size)
  | .part _ dpStart _ bdBlockcount _ => ((dpStart * unit + start) % 2 ^ widths.posBits,
      clampTo widths.sizeBits (bdBlockcount * unit % 2 ^ widths.posBits) start size)

section Requests
variable {widths : BlkWidths} {shape : BlkShape} {count blocksize unit start size : Nat}
  {calls outer : Nesting}
  (small : count < 2 ^ widths.posBits) (words : ∀ call ∈ calls, call.1 < 2 ^ widths.posBits ∧
    call.2 < 2 ^ widths.posBits)
include small words

/-- The blocks of a window belong to the device. -/
lemma nested_holds {block : Nat} (lower : (window count calls).1 ≤ block)
    (upper : block < (window count calls).1 + (window count calls).2) :
    (nested widths.posBits (.disk blocksize count) calls).Holds block := by
  by_cases empty : calls = []
  · subst empty
    exact lt_of_lt_of_eq upper (zero_add count)
  · obtain ⟨start, made, place⟩ := nested_eq blocksize small words empty
    have same := place (by omega)
    rw [made]
    exact ⟨same ▸ lower, same ▸ upper⟩

/-- The amount of a request through a partition whose size is a position. -/
lemma partRequest_size (filled : calls ≠ [])
    (product : (window count calls).2 * unit < 2 ^ widths.posBits) :
    (partRequest widths (nested widths.posBits (.disk blocksize count) calls) unit start size).2 =
      clampTo widths.sizeBits ((window count calls).2 * unit) start size := by
  obtain ⟨first, made, _⟩ := nested_eq blocksize small words filled
  rw [made, partRequest, mod_eq_of_lt product]

section
variable {index : Nat} {request : Nat × Nat} (filled : calls ≠ [])
  (asked : partRequest widths (nested widths.posBits (.disk blocksize count) calls) unit
    start size = request)
include filled asked

/-- A request is never made longer and ends with the partition, also if its size wraps. -/
lemma partRequest_le : request.2 ≤ min size ((window count calls).2 * unit - start) := by
  obtain ⟨first, made, _⟩ := nested_eq blocksize small words filled
  rw [← asked, made]
  have short := mod_le ((window count calls).2 * unit) (2 ^ widths.posBits)
  have less := clampTo_le widths.sizeBits ((window count calls).2 * unit % 2 ^ widths.posBits) start size
  simp only [partRequest]
  omega

variable (fits : count * unit ≤ 2 ^ widths.posBits) (less : index < request.2)
include fits less

/-- A request that reaches something starts at the sum of the starts and stays in the partition. -/
lemma partRequest_place : request.1 + index = (window count calls).1 * unit + (start + index) ∧
    start + index < (window count calls).2 * unit := by
  have short := partRequest_le small words filled asked
  obtain ⟨first, made, same⟩ := nested_eq blocksize small words filled
  have blocks : 0 < (window count calls).2 :=
    Nat.pos_of_mul_pos_right (show 0 < (window count calls).2 * unit by omega)
  have inside := mul_le_mul_right unit (window_inside blocks)
  rw [add_mul] at inside
  refine ⟨?_, by omega⟩
  rw [← asked, made, partRequest, same blocks]
  rw [mod_eq_of_lt (by omega)]
  exact add_assoc _ _ _

/-- Every partition around a request holds what it reaches. -/
lemma partRequest_inside (positive : 0 < unit) (around : outer <:+ calls) :
    (nested widths.posBits (.disk blocksize count) outer).Holds ((request.1 + index) / unit) := by
  obtain ⟨same, limit⟩ := partRequest_place small words filled asked fits less
  rw [same, add_comm, add_mul_div_right _ _ positive]
  have block : (start + index) / unit < (window count calls).2 :=
    Nat.div_lt_of_lt_mul (Nat.mul_comm _ unit ▸ limit)
  generalize (start + index) / unit = behind at block ⊢
  obtain ⟨_, lower, upper⟩ := window_suffix around (zero_lt_of_lt block)
  have inner : ∀ call ∈ outer, call.1 < 2 ^ widths.posBits ∧ call.2 < 2 ^ widths.posBits :=
    fun call mem => words call (around.subset mem)
  exact nested_holds small inner (by omega) (by omega)

end

/-- A request stays in the partition and reaches something unless its distance is lost. -/
lemma partRequest_confined (filled : calls ≠ []) (positive : 0 < unit)
    (fits : count * unit ≤ 2 ^ widths.posBits)
    (product : (window count calls).2 * unit < 2 ^ widths.posBits)
    (safe : 0 < size → start < (window count calls).2 * unit →
      ¬ 2 ^ widths.sizeBits ∣ (window count calls).2 * unit - start) :
    Confined widths (.disk blocksize count) calls unit start size
      (partRequest widths (nested widths.posBits (.disk blocksize count) calls) unit start size) where
  few := le_trans (partRequest_le small words filled rfl) (min_le_left _ _)
  place index less := by
    rw [← window_fst count]
    exact (partRequest_place small words filled rfl fits less).1
  inside index less outer around := partRequest_inside small words filled rfl fits less positive around
  answered asked before := by
    rw [partRequest_size small words filled product]
    obtain ⟨first, made, _⟩ := nested_eq blocksize small words filled
    rw [made] at before
    change start < (window count calls).2 * unit at before
    have left := Nat.pos_of_ne_zero fun zero => safe asked before (Nat.dvd_of_mod_eq_zero zero)
    rw [clampTo, if_pos before]
    omega

/-- The calls through a partition are calls on the disk. -/
lemma nested_calls (filled : calls ≠ []) (events : Nat → BlkEvent)
    (offset bufsize block blocks : Nat) (data : List UInt8) (stored : Nat → UInt8) :
    let part := nested widths.posBits (.disk shape.bdBlocksize count) calls
    let bytes := partRequest widths part shape.bdBlocksize offset
    let raw := partRequest widths part 1 block blocks
    part.blkdevRead widths shape events offset bufsize =
        blkdevRead shape events (bytes bufsize).1 (bytes bufsize).2 ∧
      part.blkdevWrite widths shape events offset data =
        blkdevWrite shape events (bytes data.length).1 (data.take (bytes data.length).2) ∧
      part.diskpartRead widths shape events block blocks =
        (disk shape.bdBlocksize count).blkdevRawRead widths shape events raw.1 raw.2 ∧
      part.diskpartWrite widths shape events block blocks stored =
        (disk shape.bdBlocksize count).blkdevRawWrite widths shape events raw.1 raw.2 stored := by
  obtain ⟨first, made, _⟩ := nested_eq shape.bdBlocksize small words filled
  have word : (window count calls).2 < 2 ^ widths.posBits := lt_of_le_of_lt (window_le count calls) small
  intro part bytes raw
  simp only [part, bytes, raw, made, partRequest, mul_one, mod_eq_of_lt word, add_comm first block]
  exact ⟨rfl, rfl, rfl, rfl⟩

end Requests

/-- A read of bytes is not an empty one. -/
lemma read_answers {shape : BlkShape} {place granted other : Nat}
    (same : ∀ events, blkdevRead shape events other 0 = blkdevRead shape events place granted) :
      granted = 0 := by
  by_contra some
  have fails := congrArg (fun act =>
    (perform act (BlkDev.fresh (fun _ _ => 0) fun _ => ⟨0, false, false, fun _ => 0⟩)).1)
    (same fun _ => ⟨Option.some 0, .done, true, 0, .done, fun _ => 0, 0⟩)
  simp only [blkdevRead, if_neg some] at fails
  exact absurd fails (by intro never; cases never)

/-- A raw read of blocks is not an empty one. -/
lemma raw_answers {widths : BlkWidths} {shape : BlkShape} (positive : 0 < shape.bdBlocksize)
    {place granted other count : Nat}
    (same : ∀ events, (disk shape.bdBlocksize count).blkdevRawRead widths shape events other 0 =
      (disk shape.bdBlocksize count).blkdevRawRead widths shape events place granted) : granted = 0 := by
  have reads := congrArg (fun act =>
    (perform act (BlkDev.fresh (fun _ _ => 0) fun _ => ⟨0, false, false, fun _ => 0⟩)).1)
    (same fun _ => ⟨none, .done, true, 0, .done, fun _ => 0, 0⟩)
  have empty : (List.range (granted - 0)).flatMap
    (fun _ => (List.range shape.bdBlocksize).map fun _ => (0 : UInt8)) = [] :=
    (Except.ok.inj reads).symm
  have length : granted * shape.bdBlocksize = 0 := by simpa using congrArg List.length empty
  exact (Nat.mul_eq_zero.mp length).resolve_right (Nat.ne_of_gt positive)

section Contract
variable {widths : BlkWidths} {shape : BlkShape} {count : Nat} {calls : Nesting}
  (size : 0 < shape.bdBlocksize)
  (small : count < 2 ^ widths.posBits) (fits : count * shape.bdBlocksize ≤ 2 ^ widths.posBits)
  (words : ∀ call ∈ calls, call.1 < 2 ^ widths.posBits ∧ call.2 < 2 ^ widths.posBits)
  (filled : calls ≠ [])
  {offset bufsize block blocks : Nat}
include size small fits words filled
omit fits in
/-- An access that keeps the contract is a safe one. -/
lemma PartContract.safe (contract : PartContract widths shape count calls offset bufsize block blocks) :
    PartSafe widths shape count calls offset bufsize block blocks := by
  obtain ⟨first, made, _⟩ := nested_eq shape.bdBlocksize small words filled
  have limit : (nested widths.posBits (.disk shape.bdBlocksize count) calls).bdBlockcount =
    (window count calls).2 := by
    rw [made]
    rfl
  have product : (window count calls).2 * shape.bdBlocksize < 2 ^ widths.posBits := by
    have exact := contract.product
    rw [limit] at exact
    rw [← exact]
    exact Nat.mod_lt _ (Nat.two_pow_pos _)
  have blockProduct : (window count calls).2 * 1 < 2 ^ widths.posBits := by
    rw [mul_one]
    exact lt_of_le_of_lt (window_le count calls) small
  refine ⟨Nat.ne_of_lt product, fun asked before lost => ?_, fun asked before lost => ?_⟩
  · obtain ⟨request, confined, reads, _⟩ := contract.bytes
    have none := @partRequest_size widths count shape.bdBlocksize shape.bdBlocksize offset bufsize
      calls small words filled product
    rw [clampTo, if_pos before, mod_eq_zero_of_dvd lost, min_zero] at none
    have answered := confined.answered asked (limit ▸ before)
    have empty : request.2 = 0 := read_answers fun events => by
      have path := (@nested_calls widths shape count calls small words filled events offset bufsize
        0 0 [] fun _ => 0).1
      rw [none] at path
      exact path.symm.trans (reads events)
    omega
  · obtain ⟨request, confined, reads, _⟩ := contract.raw
    have none := @partRequest_size widths count shape.bdBlocksize 1 block blocks calls small words
      filled blockProduct
    rw [mul_one, clampTo, if_pos before, mod_eq_zero_of_dvd lost, min_zero] at none
    have answered := confined.answered asked (by rw [limit, mul_one]; exact before)
    have empty : request.2 = 0 := raw_answers size fun events => by
      have path := (@nested_calls widths shape count calls small words filled events 0 0 block
        blocks [] fun _ => 0).2.2.1
      rw [none] at path
      exact path.symm.trans (reads events)
    omega

/-- An access through nested partitions keeps the contract exactly if it is safe. -/
theorem partition_confined_iff : PartContract widths shape count calls offset bufsize block blocks ↔
      PartSafe widths shape count calls offset bufsize block blocks := by
  refine ⟨PartContract.safe size small words filled, fun ⟨notWhole, bytesSafe, blocksSafe⟩ => ?_⟩
  obtain ⟨first, made, _⟩ := nested_eq shape.bdBlocksize small words filled
  have few := mul_le_mul_right shape.bdBlocksize (window_le count calls)
  have product : (window count calls).2 * shape.bdBlocksize < 2 ^ widths.posBits := by omega
  have blockProduct : (window count calls).2 * 1 < 2 ^ widths.posBits := by
    have := window_le count calls
    omega
  refine ⟨?_, ⟨_, partRequest_confined small words filled size fits product bytesSafe,
    fun events => ?_, fun events data length => ?_⟩,
    ⟨_, partRequest_confined small words filled one_pos (by omega) blockProduct
      (by simpa only [mul_one] using blocksSafe), fun events => ?_, fun events data => ?_⟩⟩
  · rw [made]
    exact mod_eq_of_lt product
  · exact (nested_calls small words filled events offset bufsize 0 0 [] fun _ => 0).1
  · rw [← length]
    exact (nested_calls small words filled events offset bufsize 0 0 data fun _ => 0).2.1
  · exact (nested_calls small words filled events 0 0 block blocks [] fun _ => 0).2.2.1
  · exact (nested_calls small words filled events 0 0 block blocks [] data).2.2.2

end Contract

section Contents

/-- A write through nested partitions. -/
structure PartWrite where
  calls : Nesting
  offset : Nat
  data : List UInt8

variable (widths : BlkWidths) (shape : BlkShape) (count : Nat) (events : Nat → BlkEvent)

/-- The write goes through a partition, and the arguments of the calls that made it are words. -/
def PartWrite.Proper (write : PartWrite) : Prop :=
  write.calls ≠ [] ∧ ∀ call ∈ write.calls, call.1 < 2 ^ widths.posBits ∧ call.2 < 2 ^ widths.posBits

/-- The partition and every partition around it hold a block. -/
def PartWrite.Holds (write : PartWrite) (block : Nat) : Prop :=
  ∀ outer, outer <:+ write.calls →
    (nested widths.posBits (.disk shape.bdBlocksize count) outer).Holds block

/-- The call on the partition. -/
def PartWrite.act (write : PartWrite) : BlkAct Nat :=
  (nested widths.posBits (.disk shape.bdBlocksize count) write.calls).blkdevWrite widths shape
    events write.offset write.data

/-- The device after some writes. Each of them may fail. -/
def partWrites (dev : BlkDev) : List PartWrite → BlkDev
  | [] => dev
  | write :: rest => partWrites
      { (perform (write.act widths shape count events) dev).2
        with lockBf := false, lockHw := false } rest

variable {widths shape count}

variable (buffers : 0 < shape.bsBufm) (size : 0 < shape.bdBlocksize) (small : count < 2 ^ widths.posBits)
  (fits : count * shape.bdBlocksize ≤ 2 ^ widths.posBits)

include buffers size small fits

/-- A write through a partition leaves the bytes outside of it. -/
lemma PartWrite.act_keeps {write : PartWrite} (proper : write.Proper widths) (array : Nat → UInt8) :
    let kept := fun dev => ∃ after, Shows shape after dev ∧
      ∀ address, ¬ write.Holds widths shape count (address / shape.bdBlocksize) →
        after address = array address
    Triple (Shows shape array) (write.act widths shape count events) (fun _ => kept) fun _ => kept := by
  intro kept
  obtain ⟨filled, words⟩ := proper
  rw [act, (nested_calls small words filled events write.offset 0 0 0 write.data fun _ => 0).2.1]
  generalize asked : partRequest widths _ shape.bdBlocksize write.offset write.data.length = request
  have apart : ∀ address, ¬ write.Holds widths shape count (address / shape.bdBlocksize) →
      address < request.1 ∨ request.1 + request.2 ≤ address := by
    intro address outside
    by_contra between
    refine outside fun outer around => ?_
    have reached : address - request.1 < request.2 := by omega
    have inside := partRequest_inside small words filled asked fits reached size around
    rwa [show request.1 + (address - request.1) = address by omega] at inside
  refine (blkdevWrite_spec buffers size _ _).weaken (fun _ => id) (fun done dev ⟨few, shown, _⟩ =>
    ⟨_, shown, fun address outside => ?_⟩)
    fun error dev ⟨after, unchanged, shown⟩ => ⟨after, shown, fun address outside => ?_⟩
  · have place := apart address outside
    rw [storeBytes, if_neg]
    rw [length_take, length_take]
    omega
  · have place := apart address outside
    refine unchanged address ?_
    rw [length_take]
    omega

/-- Writes through partitions leave the bytes that none of the partitions holds. -/
theorem partWrites_isolated (writes : List PartWrite) {array : Nat → UInt8}
    {dev : BlkDev} (shown : Shows shape array dev)
    (proper : ∀ write ∈ writes, write.Proper widths) :
    ∃ after, Shows shape after (partWrites widths shape count events dev writes) ∧ ∀ address,
      (∀ write ∈ writes, ¬ write.Holds widths shape count (address / shape.bdBlocksize)) → after
        address = array address := by
  induction writes generalizing array dev with
  | nil => exact ⟨array, shown, fun _ _ => rfl⟩
  | cons write rest ih =>
    have spec := PartWrite.act_keeps events buffers size small fits (proper write mem_cons_self) array
    obtain ⟨middle, shownMiddle, kept⟩ := spec.either shown
    obtain ⟨after, shownAfter, same⟩ := ih (Shows.calm _ false false _ shownMiddle) fun other mem =>
      proper other (mem_cons_of_mem _ mem)
    refine ⟨after, shownAfter, fun address outside => ?_⟩
    rw [same address fun other mem => outside other (mem_cons_of_mem _ mem), kept address
      (outside write mem_cons_self)]

end Contents

/-- Writes to the second half of four blocks and to a partition inside of it. -/
theorem partWrites_isolated_half : let shape : BlkShape := ⟨2, 1, false⟩
    let events : Nat → BlkEvent := fun _ => ⟨none, .done, true, 0, .done, fun _ => 0, 0⟩
    let dev := BlkDev.fresh (fun _ _ => 0) fun _ => ⟨0, false, false, fun _ => 0⟩
    ∃ after, Shows shape after (partWrites ⟨64, 32⟩ shape 4 events dev
      [⟨[(2, 2)], 0, [7]⟩, ⟨[(1, 5), (2, 2)], 1, [8, 9]⟩]) ∧ ∀ address < 4, after address = 0 := by
  intro shape events dev
  obtain ⟨after, shown, same⟩ :=
    @partWrites_isolated ⟨64, 32⟩ shape 4 events (by decide) (by decide) (by decide) (by decide)
    [⟨[(2, 2)], 0, [7]⟩, ⟨[(1, 5), (2, 2)], 1, [8, 9]⟩] _ dev (fresh_shows (by decide) _ _)
    (by unfold PartWrite.Proper; decide)
  refine ⟨after, shown, fun address low => same address fun write mem held => ?_⟩
  have second : [(2, 2)] <:+ write.calls := by
    fin_cases mem
    · exact suffix_refl _
    · exact suffix_cons _ _
  have high : 2 ≤ address / 2 := (held _ second).1
  omega

/-- Two nested partitions on a disk of a thousand blocks, with sizes that wrap. -/
theorem partition_confined_small :
    PartContract ⟨64, 32⟩ ⟨512, 16, false⟩ 1000 [(10, 20), (2 ^ 64 - 1, 5), (100, 2 ^ 64 - 1)] 0 7 0 1 ∧
      PartContract ⟨64, 32⟩ ⟨512, 16, false⟩ 1000 [(10, 20), (100, 2 ^ 64 - 1)] 5 600 3 4 :=
  ⟨(partition_confined_iff (by decide) (by decide) (by decide) (by decide) (by decide)).mpr (by decide),
    (partition_confined_iff (by decide) (by decide) (by decide) (by decide) (by decide)).mpr (by decide)⟩

/-- With a `size_t` of 32 bits, the first byte of a partition of 4 GiB cannot be read. -/
theorem partition_breaks_contract :
    ¬ PartContract ⟨64, 32⟩ ⟨512, 16, false⟩ (2 ^ 24) [(2048, 2 ^ 23)] 0 1 0 1 := fun contract =>
  (contract.safe (by decide) (by decide) (by decide) (by decide)).2.1 (by decide) (by decide) (by decide)

end KosKernel.Dev
