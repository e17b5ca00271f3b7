import KosKernel.Dev.BlkCacheCalls

namespace KosKernel.Dev
open Effect List Triple
variable {shape : BlkShape} {events : Nat → BlkEvent} {array : Nat → UInt8} {dev : BlkDev}

/-- A changed buffer whose block was written is unchanged. -/
lemma Shows.clean {index : Nat} (shown : Shows shape array dev) (inside : index < dev.bufc)
    (loaded : (dev.bufv index).load = true)
    (written : ∀ offset < shape.bdBlocksize, dev.disk (dev.bufv index).bbId offset =
      array ((dev.bufv index).bbId * shape.bdBlocksize + offset)) :
    Shows shape array (dev.setBuffer index { dev.bufv index with chng := false }) := by
  refine shown.setBuffer inside (fun _ => loaded)
    (fun _ other insideOther different otherLoaded same => ?_)
    (fun _ => shown.held index inside loaded) (fun _ _ _ _ _ _ => rfl)
    fun block missing _ offset bound => ?_
  · exact different (shown.unique other insideOther index inside otherLoaded loaded same)
  · by_cases mine : (dev.bufv index).bbId = block
    · rw [← mine]
      exact written offset bound
    · refine shown.stored block (fun other insideOther changed => ?_) offset bound
      by_cases same : other = index
      · rw [same]
        exact mine
      · exact missing other insideOther same changed

/-- The loop of the synchronization leaves no changed buffer. -/
lemma syncBuffers_spec (indices : List Nat) :
    Triple (fun dev => Shows shape array dev ∧ (∀ index ∈ indices, index < dev.bufc) ∧
        ∀ index < dev.bufc, index ∉ indices → (dev.bufv index).chng = false)
      (syncBuffers events indices) (fun _ dev => Shows shape array dev ∧ ∀ index < dev.bufc,
        (dev.bufv index).chng = false)
      fun _ => Shows shape array := by
  induction indices with
  | nil => exact pure fun dev ⟨shown, _, clean⟩ => ⟨shown,
      fun index inside => clean index inside not_mem_nil⟩
  | cons index rest ih =>
    refine inspect fun dev ⟨shown, inside, clean⟩ => ?_
    have within := inside index mem_cons_self
    dsimp only
    split
    · next changed =>
      refine bind (((lockHardware_spec Unmoved.calm).weaken (fun _ => id) (fun _ _ => id)
        fun _ _ before => before.1).at
        ⟨shown, rfl, rfl⟩) fun _ => ?_
      refine bind (writeBack_spec within changed) fun accepted => ?_
      cases accepted with
      | false => exact throw fun now before => before.1.1
      | true =>
        refine change _ (fun now ⟨⟨shown, same, count⟩, stored⟩ => ?_) ih
        have loaded := shown.loaded index (count ▸ within) (same ▸ changed)
        refine ⟨shown.clean (count ▸ within) loaded ?_, fun other mem => ?_,
          fun other insideOther absent => ?_⟩
        · rw [same]
          exact stored rfl
        · exact count ▸ inside other (mem_cons_of_mem index mem)
        · by_cases equal : other = index
          · rw [equal, BlkDev.setBuffer_same]
          · rw [now.setBuffer_other _ equal, same]
            refine clean other (count ▸ insideOther) fun mem => ?_
            exact (mem_cons.mp mem).elim equal absent
    · next unchanged =>
      refine ih.at ⟨shown, fun other mem => inside other (mem_cons_of_mem index mem),
        fun other insideOther absent => ?_⟩
      by_cases equal : other = index
      · rw [equal]
        exact Bool.eq_false_iff.mpr unchanged
      · exact clean other insideOther fun mem => (mem_cons.mp mem).elim equal absent

lemma blkdevSync_spec : Triple (Shows shape array) (blkdevSync events)
    (fun _ dev => Shows shape array dev ∧ ∀ index < dev.bufc, (dev.bufv index).chng = false)
      fun _ => Shows shape array := by
  refine bind (lockBuffers_spec Shows.calm) fun _ => inspect fun dev shown => (syncBuffers_spec _).at ?_
  exact ⟨shown, fun _ => mem_range.mp, fun _ inside => absurd (mem_range.mpr inside)⟩

/-- The calls on an array of bytes. A failed write may leave anything in its range. -/
inductive Accepts (events : Nat → BlkEvent) (array : Nat → UInt8) :
    BlkCall → BlkReply → (Nat → UInt8) → Prop where
  | read (offset bufsize : Nat) (bytes : List UInt8)
    (part : ReadPart events array offset bufsize bytes) :
      Accepts events array (.read offset bufsize) (.bytes bytes) array
  | readFailed (offset bufsize : Nat) (error : BlkError) :
    Accepts events array (.read offset bufsize) (.failed error) array
  | write (offset : Nat) (bytes : List UInt8) (count : Nat) (few : count ≤ bytes.length)
      (complete : Steady events → count = bytes.length) :
      Accepts events array (.write offset bytes) (.count count)
        (storeBytes array offset (bytes.take count))
  | writeFailed (offset : Nat) (bytes : List UInt8) (error : BlkError) (after : Nat → UInt8)
      (outside : Outside offset bytes.length array after) :
        Accepts events array (.write offset bytes) (.failed error) after
  | sync : Accepts events array .sync .synced array
  | syncFailed (error : BlkError) : Accepts events array .sync (.failed error) array

/-- The replies to some calls on an array of bytes, and the array at the end. -/
inductive Follows (events : Nat → BlkEvent) : (Nat → UInt8) → List BlkCall → List BlkReply →
    (Nat → UInt8) → Prop where
  | nil (array : Nat → UInt8) : Follows events array [] [] array
  | cons {array next last : Nat → UInt8} {call : BlkCall} {reply : BlkReply} {calls : List BlkCall}
    {replies : List BlkReply}
      (first : Accepts events array call reply next) (rest : Follows events next calls replies last) :
      Follows events array (call :: calls) (reply :: replies) last

/-- The hardware holds the array. -/
def Stored (shape : BlkShape) (array : Nat → UInt8) (dev : BlkDev) : Prop :=
  ∀ blockid, ∀ offset < shape.bdBlocksize, dev.disk blockid offset =
    array (blockid * shape.bdBlocksize + offset)

/-- What one call does. -/
lemma call_accepts (positive : 0 < shape.bsBufm) (size : 0 < shape.bdBlocksize) (events : Nat → BlkEvent)
    (shown : Shows shape array dev) (call : BlkCall) :
    ∃ after, Accepts events array call (dev.call shape events call).2 after ∧
    Shows shape after (dev.call shape events call).1 ∧
      ((dev.call shape events call).2 = .synced →
        Stored shape after (dev.call shape events call).1) := by
  have spec : Triple (Shows shape array) (blkdevCall shape events call)
      (fun reply dev => ∃ after, Accepts events array call reply after ∧ Shows shape after dev ∧
        (reply = .synced → Stored shape after dev))
      fun error dev => ∃ after, Accepts events array call (.failed error) after ∧
        Shows shape after dev := by
    cases call with
    | read offset bufsize =>
      refine bind ((blkdevRead_spec positive size offset bufsize).weaken (fun _ => id)
        (fun _ _ => id) fun error dev shown =>
        ⟨array, .readFailed offset bufsize error, shown⟩) fun bytes => pure fun dev ⟨shown, part⟩ => ?_
      exact ⟨array, .read offset bufsize bytes part, shown, fun never => absurd never (by simp)⟩
    | write offset bytes =>
      refine bind ((blkdevWrite_spec positive size offset bytes).weaken (fun _ => id) (fun _ _ => id)
        fun error dev ⟨after, outside, shown⟩ =>
          ⟨after, .writeFailed offset bytes error after outside, shown⟩) fun count =>
        pure fun dev ⟨few, shown, complete⟩ => ?_
      exact ⟨_, .write offset bytes count few complete, shown, fun never => absurd never (by simp)⟩
    | sync =>
      refine bind (blkdevSync_spec.weaken (fun _ => id) (fun _ _ => id) fun error dev shown =>
        ⟨array, .syncFailed error, shown⟩) fun _ => pure fun dev ⟨shown, clean⟩ => ?_
      refine ⟨array, .sync, shown, fun _ blockid => shown.stored blockid fun index inside changed => ?_⟩
      exact absurd changed (Bool.eq_false_iff.mp (clean index inside))
  have reached := spec dev shown
  unfold BlkDev.call
  generalize perform (blkdevCall shape events call) dev = outcome at reached
  obtain ⟨result, last⟩ := outcome
  cases result with
  | ok reply =>
    obtain ⟨after, accepted, shown, stored⟩ := reached
    exact ⟨after, accepted, Shows.calm last false false last.clock shown, stored⟩
  | error error =>
    obtain ⟨after, accepted, shown⟩ := reached
    exact ⟨after, accepted, Shows.calm last false false last.clock shown,
      fun never => absurd never (by simp)⟩

/-- A device without buffers. -/
def BlkDev.fresh (disk : Nat → Nat → UInt8) (bufv : Nat → BlockBuf) : BlkDev :=
  ⟨disk, bufv, 0, 0, false, false, 0⟩

/-- The bytes of the hardware, block by block. -/
def diskArray (shape : BlkShape) (disk : Nat → Nat → UInt8) : Nat → UInt8 := fun position =>
  disk (position / shape.bdBlocksize) (position % shape.bdBlocksize)

lemma fresh_shows (size : 0 < shape.bdBlocksize) (disk : Nat → Nat → UInt8) (bufv : Nat → BlockBuf) :
    Shows shape (diskArray shape disk) (BlkDev.fresh disk bufv) where
  room := ⟨Nat.le_refl 0, Nat.zero_le shape.bsBufm⟩
  unique := fun first inside => absurd inside (Nat.not_lt_zero first)
  loaded := fun index inside => absurd inside (Nat.not_lt_zero index)
  held := fun index inside => absurd inside (Nat.not_lt_zero index)
  stored := fun blockid _ offset bound => by
    have block : (blockid * shape.bdBlocksize + offset) / shape.bdBlocksize = blockid := by
      rw [Nat.mul_comm, Nat.mul_add_div size, Nat.div_eq_of_lt bound, Nat.add_zero]
    have byte : (blockid * shape.bdBlocksize + offset) % shape.bdBlocksize = offset := by
      rw [Nat.mul_comm, Nat.mul_add_mod, Nat.mod_eq_of_lt bound]
    change disk blockid offset = disk _ _
    rw [block, byte]

/-- What some calls do. -/
lemma calls_follow (positive : 0 < shape.bsBufm) (size : 0 < shape.bdBlocksize)
    (events : Nat → BlkEvent) (calls : List BlkCall)
    {array : Nat → UInt8} {dev : BlkDev} (shown : Shows shape array dev) :
    ∃ last, Follows events array calls (dev.calls shape events calls).2 last ∧
    Shows shape last (dev.calls shape events calls).1 ∧
      ((dev.calls shape events calls).2.getLast? = some .synced →
        Stored shape last (dev.calls shape events calls).1) := by
  induction calls generalizing array dev with
  | nil => exact ⟨array, .nil array, shown,
      fun never => absurd never (Option.some_ne_none BlkReply.synced).symm⟩
  | cons call rest ih =>
    obtain ⟨next, accepted, shownNext, storedNext⟩ := call_accepts positive size events shown call
    obtain ⟨last, follows, shownLast, storedLast⟩ := ih shownNext
    refine ⟨last, .cons accepted follows, shownLast, fun synced => ?_⟩
    cases rest with
    | nil =>
      cases follows
      exact storedNext (Option.some.inj synced)
    | cons second others => exact storedLast (List.getLast?_cons_cons.symm.trans synced)

/-- A cached block device is an array of bytes, which a synchronization stores. -/
theorem blkdev_byteArray (shape : BlkShape) (positive : 0 < shape.bsBufm)
    (size : 0 < shape.bdBlocksize) (disk : Nat → Nat → UInt8)
    (bufv : Nat → BlockBuf) (events : Nat → BlkEvent) (calls : List BlkCall) :
    let run := (BlkDev.fresh disk bufv).calls shape events calls
    ∃ array, Follows events (diskArray shape disk) calls run.2 array ∧
      (∀ first < run.1.bufc, ∀ second < run.1.bufc, (run.1.bufv first).load = true →
        (run.1.bufv second).load = true →
        (run.1.bufv first).bbId = (run.1.bufv second).bbId → first = second) ∧
      (∀ blockid, (∀ index < run.1.bufc, (run.1.bufv index).chng = true →
        (run.1.bufv index).bbId ≠ blockid) →
        ∀ offset < shape.bdBlocksize, run.1.disk blockid offset =
          array (blockid * shape.bdBlocksize + offset)) ∧
      (run.2.getLast? = some .synced → Stored shape array run.1) := by
  obtain ⟨array, follows, shown, stored⟩ :=
    calls_follow positive size events calls (fresh_shows size disk bufv)
  exact ⟨array, follows, shown.unique, shown.stored, stored⟩

/-- A device of two-byte blocks with one buffer. -/
theorem blkdev_byteArray_small : let shape : BlkShape := ⟨2, 1, false⟩
    let events : Nat → BlkEvent := fun _ => ⟨none, .done, true, 0, .done, fun _ => 0, 0⟩
    let calls : List BlkCall := [.write 1 [7, 8], .sync]
    let run := (BlkDev.fresh (fun _ _ => 0) fun _ => ⟨0, false, false, fun _ => 0⟩).calls
      shape events calls
    run.2 = [.count 2, .synced] ∧ ∃ array, Follows events (diskArray shape fun _ _ => 0) calls run.2
      array ∧ Stored shape array run.1 := by
  intro shape events calls run
  have replies : run.2 = [.count 2, .synced] := by decide
  obtain ⟨array, follows, _, _, stored⟩ := blkdev_byteArray shape (by decide) (by decide) (fun _ _ => 0)
    (fun _ => ⟨0, false, false, fun _ => 0⟩) events calls
  exact ⟨replies, array, follows, stored (congrArg List.getLast? replies)⟩

/-- A device that starts anew after a synchronization goes on from the same bytes. -/
theorem blkdev_restart (positive : 0 < shape.bsBufm) (size : 0 < shape.bdBlocksize)
    (disk : Nat → Nat → UInt8) (bufv fresh : Nat → BlockBuf) (laterEvents : Nat → BlkEvent)
    (calls later : List BlkCall) :
    let run := (BlkDev.fresh disk bufv).calls shape events calls
    run.2.getLast? = some .synced → ∃ array last,
      Follows events (diskArray shape disk) calls run.2 array ∧
      Follows laterEvents array later
        ((BlkDev.fresh run.1.disk fresh).calls shape laterEvents later).2 last := by
  intro run synced
  obtain ⟨array, follows, _, stored⟩ :=
    calls_follow positive size events calls (fresh_shows size disk bufv)
  have same : diskArray shape run.1.disk = array := by
    funext position
    have byte := stored synced (position / shape.bdBlocksize) _ (Nat.mod_lt position size)
    rwa [Nat.div_add_mod'] at byte
  obtain ⟨last, goesOn, _⟩ :=
    calls_follow positive size laterEvents later (fresh_shows size run.1.disk fresh)
  exact ⟨array, last, follows, same ▸ goesOn⟩

/-- Two bytes are there after the restart, although the lock refuses the first call then. -/
theorem blkdev_restart_small : let shape : BlkShape := ⟨2, 1, false⟩
    let events : Nat → BlkEvent := fun _ => ⟨none, .done, true, 0, .done, fun _ => 0, 0⟩
    let laterEvents : Nat → BlkEvent := fun number =>
      { events number with lock := if number = 0 then some 4 else none }
    let start := (BlkDev.fresh · fun _ => ⟨0, false, false, fun _ => 0⟩)
    let run := (start fun _ _ => 0).calls shape events [.write 1 [7, 8], .sync]
    let later : List BlkCall := [.read 1 2, .read 1 2]
    ∃ array last, Follows events (diskArray shape fun _ _ => 0) [.write 1 [7, 8], .sync] run.2 array ∧
      Follows laterEvents array later ((start run.1.disk).calls shape laterEvents later).2 last := by
  intro shape events laterEvents start run later
  exact @blkdev_restart shape events (by decide) (by decide) _ _ _ laterEvents
    [.write 1 [7, 8], .sync] later (by decide)

end KosKernel.Dev
