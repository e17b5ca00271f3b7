import KosKernel.Dev.BlkCacheArray

namespace KosKernel.Dev
open Effect Triple

/-- A condition that does not read the locks and the clock. -/
def Calm (condition : BlkDev → Prop) : Prop :=
  ∀ dev lockBf lockHw clock, condition dev →
    condition { dev with lockBf := lockBf, lockHw := lockHw, clock := clock }

/-- The hardware never answers that it moved nothing. -/
def Steady (events : Nat → BlkEvent) : Prop := ∀ index, (events index).device ≠ .nothing

section Rules
variable {shape : BlkShape} {events : Nat → BlkEvent} {array : Nat → UInt8}
  {condition : BlkDev → Prop} {index blockid : Nat}

lemma Shows.calm : Calm (Shows shape array) := fun _ _ _ _ before =>
  ⟨before.room, before.unique, before.loaded, before.held, before.stored⟩

variable {failed : BlkError → BlkDev → Prop}

section
variable (calm : Calm condition)
include calm

/-- A part of a condition that reads neither locks nor clock stays. -/
lemma Calm.and {rest : BlkDev → Prop} (stays : Calm rest) : Calm fun dev => condition dev ∧ rest dev :=
  fun dev lockBf lockHw clock before => ⟨calm dev lockBf lockHw clock before.1,
    stays dev lockBf lockHw clock before.2⟩

lemma nextEvent_spec : Triple condition (nextEvent events) (fun event dev => condition dev ∧
    ∃ index, event = events index) failed :=
  fun dev start => ⟨calm dev dev.lockBf dev.lockHw (dev.clock + 1) start, dev.clock, rfl⟩

lemma lockHardware_spec :
    Triple condition (lockHardware events) (fun _ => condition) fun _ => condition := by
  refine Triple.inspect fun dev start => Triple.at ?_ start
  split
  · exact pure fun _ => id
  · refine bind (nextEvent_spec calm) fun event => ?_
    split
    · exact throw fun _ both => both.1
    · exact modify fun dev both => calm dev dev.lockBf true dev.clock both.1

lemma lockBuffers_spec :
    Triple condition (lockBuffers events) (fun _ => condition) fun _ => condition := by
  refine bind (nextEvent_spec calm) fun event => ?_
  split
  · exact throw fun _ both => both.1
  · exact pure fun _ both => both.1

lemma bdWrite_spec {data : Nat → UInt8} {after : Bool → BlkDev → Prop}
    (done : ∀ dev, condition dev → after true (dev.setBlock blockid data))
    (nothing : ¬Steady events → ∀ dev, condition dev → after false dev)
    (broken : ∀ dev junk code, condition dev → failed (.failed code) (dev.setBlock blockid junk)) :
    Triple condition (bdWrite events blockid data) after failed := by
  refine bind (nextEvent_spec calm) fun event => ?_
  split
  · exact change (after true) (fun dev both => done dev both.1) (pure fun _ => id)
  · next answer =>
    refine pure fun dev both => nothing (fun steady => ?_) dev both.1
    obtain ⟨index, rfl⟩ := both.2
    exact steady index answer
  · next code _ => exact change (failed (.failed code)) (fun dev both =>
        broken dev _ _ both.1) (throw fun _ => id)

end

/-- A block is transferred into a free buffer. -/
lemma bdReadBuffer_spec (absent : Calm condition) {after : Bool → BlkDev → Prop}
    (done : ∀ dev, condition dev →
      after true (dev.setBuffer index { dev.bufv index with bbData := dev.disk blockid }))
    (nothing : ¬Steady events → ∀ dev, condition dev → after false dev)
    (broken : ∀ dev junk code, condition dev →
      failed (.failed code) (dev.setBuffer index { dev.bufv index with bbData := junk })) :
    Triple condition (bdReadBuffer events index blockid) after failed := by
  refine bind (nextEvent_spec absent) fun event => ?_
  split
  · exact change (after true) (fun dev both => done dev both.1) (pure fun _ => id)
  · next answer =>
    refine pure fun dev both => nothing (fun steady => ?_) dev both.1
    obtain ⟨index, rfl⟩ := both.2
    exact steady index answer
  · next code _ => exact change (failed (.failed code)) (fun dev both =>
        broken dev _ _ both.1) (throw fun _ => id)

end Rules

section Buffers
variable {shape : BlkShape} {events : Nat → BlkEvent} {array : Nat → UInt8} {index blockid : Nat}

/-- The device shows the array, and no buffer holds the block. -/
def Ready (shape : BlkShape) (array : Nat → UInt8) (blockid : Nat) (dev : BlkDev) : Prop :=
  Shows shape array dev ∧ dev.Absent blockid

lemma Ready.calm : Calm (Ready shape array blockid) := Shows.calm.and fun _ _ _ _ => id

/-- A buffer that holds no change becomes free. -/
lemma clearBuffer_spec :
    Triple (fun dev => Ready shape array blockid dev ∧ index < dev.bufc ∧ ((dev.bufv index).chng = true →
      ∀ offset < shape.bdBlocksize, dev.disk (dev.bufv index).bbId offset =
        array ((dev.bufv index).bbId * shape.bdBlocksize + offset)))
      (clearBuffer index) (fun index dev => Ready shape array blockid dev ∧ dev.Free index)
      fun _ => Shows shape array := by
  refine change (fun dev => Ready shape array blockid dev ∧ dev.Free index) (fun dev before => ?_)
    (pure fun _ => id)
  obtain ⟨⟨shown, absent⟩, inside, clean⟩ := before
  have same := dev.setBuffer_same index { dev.bufv index with load := false, chng := false }
  exact ⟨⟨shown.drop inside ⟨rfl, rfl⟩ clean, absent.drop rfl⟩, inside, by rw [same], by rw [same]⟩

lemma growBuffers_spec :
    Triple (fun dev => Ready shape array blockid dev ∧ dev.bufc < shape.bsBufm)
      (growBuffers shape events)
      (fun _ dev => Ready shape array blockid dev ∧ dev.bufc < dev.bufa) fun _ => Shows shape array := by
  refine inspect fun dev ⟨ready, few⟩ => ?_
  split
  · next full =>
    have calm : Calm fun dev => Ready shape array blockid dev ∧ dev.bufc = dev.bufa ∧
      dev.bufc < shape.bsBufm :=
      Ready.calm.and fun _ _ _ _ => id
    refine bind ((nextEvent_spec calm).at ⟨ready, full, few⟩) fun event => ?_
    split
    · refine modify fun dev before => ?_
      obtain ⟨⟨⟨shown, absent⟩, full, few⟩, -⟩ := before
      have grown : dev.bufc < min ((if dev.bufa = 0 then 1 else dev.bufa) * 2) shape.bsBufm := by
        split <;> omega
      exact ⟨⟨⟨⟨Nat.le_of_lt grown, Nat.min_le_right _ _⟩, shown.unique, shown.loaded, shown.held,
        shown.stored⟩, absent⟩, grown⟩
    · exact throw fun _ before => before.1.1.1
  · next free => exact pure fun same equal => equal ▸ ⟨ready, Nat.lt_of_le_of_ne ready.1.room.1 free⟩

lemma addBuffer_spec : Triple (fun dev => Ready shape array blockid dev ∧ dev.bufc < shape.bsBufm)
    (addBuffer shape events)
    (fun index dev => Ready shape array blockid dev ∧ dev.Free index) fun _ => Shows shape array := by
  refine bind growBuffers_spec fun _ => inspect fun dev ⟨ready, room⟩ => ?_
  have calm : Calm fun now => Ready shape array blockid now ∧ now.bufc < now.bufa ∧
    now.bufc = dev.bufc :=
    Ready.calm.and fun _ _ _ _ => id
  refine bind ((nextEvent_spec calm).at ⟨ready, room, rfl⟩) fun event => ?_
  split
  · refine change (fun now => Ready shape array blockid now ∧ now.Free dev.bufc)
      (fun now before => ?_) (pure fun _ => id)
    obtain ⟨⟨⟨shown, absent⟩, room, same⟩, -⟩ := before
    have new := now.setBuffer_same now.bufc ⟨0, false, false, event.junk⟩
    refine ⟨⟨shown.add room ⟨rfl, rfl⟩, fun other inside loaded => ?_⟩, ?_⟩
    · by_cases last : other = now.bufc
      · rw [last] at loaded
        exact absurd ((congrArg BlockBuf.load new).symm.trans loaded) Bool.false_ne_true
      · have old := now.setBuffer_other ⟨0, false, false, event.junk⟩ last
        rw [old] at loaded ⊢
        exact absent other (Nat.lt_of_le_of_ne (Nat.le_of_lt_succ inside) last) loaded
    · rw [← same]
      exact ⟨Nat.lt_succ_self _, congrArg BlockBuf.load new, congrArg BlockBuf.chng new⟩
  · exact throw fun _ before => before.1.1.1

/-- The device shows the array with the buffers of another one. -/
def Unmoved (shape : BlkShape) (array : Nat → UInt8) (dev now : BlkDev) : Prop :=
  Shows shape array now ∧ now.bufv = dev.bufv ∧ now.bufc = dev.bufc

lemma Unmoved.calm {dev : BlkDev} : Calm (Unmoved shape array dev) := Shows.calm.and fun _ _ _ _ => id

/-- The contents of a changed buffer are written to its block. -/
lemma writeBack_spec {dev : BlkDev} (inside : index < dev.bufc)
    (changed : (dev.bufv index).chng = true) :
    Triple (Unmoved shape array dev) (bdWrite events (dev.bufv index).bbId (dev.bufv index).bbData)
      (fun accepted now => Unmoved shape array dev now ∧ (accepted = true → ∀ offset < shape.bdBlocksize,
        now.disk (dev.bufv index).bbId offset =
          array ((dev.bufv index).bbId * shape.bdBlocksize + offset)))
      fun _ => Shows shape array := by
  -- The buffer stays changed during the transfer, so the array does not depend on the block of the
  -- hardware.
  have written : ∀ (now : BlkDev) (data : Nat → UInt8), Unmoved shape array dev now →
      Shows shape array (now.setBlock (dev.bufv index).bbId data) := fun now data ⟨shown, same, count⟩ =>
    shown.setBlock (fun _ _ _ _ _ => rfl) (fun _ _ _ _ => rfl) fun none =>
      absurd rfl (same ▸ none index (count ▸ inside) (same ▸ changed))
  refine bdWrite_spec Unmoved.calm (fun now before => ?_) (fun _ now before => ?_)
    fun now junk code => written now junk
  · refine ⟨⟨written now _ before, before.2⟩, fun _ offset bound => ?_⟩
    obtain ⟨shown, same, count⟩ := before
    have loaded := shown.loaded index (count ▸ inside) (same ▸ changed)
    have held := shown.held index (count ▸ inside) loaded offset bound
    rw [same] at held
    simp only [BlkDev.setBlock, Function.update_self]
    exact held
  · exact ⟨before, fun never => absurd never (by decide)⟩

/-- A changed buffer is written back before it becomes free. -/
lemma reuseBuffer_spec : Triple (fun dev => Ready shape array blockid dev ∧ 0 < dev.bufc)
    (reuseBuffer events)
    (fun index dev => Ready shape array blockid dev ∧ dev.Free index) fun _ => Shows shape array := by
  refine inspect fun dev ⟨ready, positive⟩ => ?_
  split
  · next index found =>
    obtain ⟨inside, unchanged⟩ := BlkDev.findLast_some found
    rw [Bool.not_eq_true'] at unchanged
    exact clearBuffer_spec.at ⟨ready, inside,
      fun changed => absurd changed (Bool.eq_false_iff.mp unchanged)⟩
  · next missing =>
    refine bind ((nextEvent_spec Unmoved.calm).at ⟨ready.1, rfl, rfl⟩) fun event => ?_
    have inside : event.rand % dev.bufc < dev.bufc := Nat.mod_lt _ positive
    have changed : (dev.bufv (event.rand % dev.bufc)).chng = true := by
      simpa using BlkDev.findLast_none missing inside
    generalize event.rand % dev.bufc = index at inside changed
    refine bind ((lockHardware_spec Unmoved.calm).weaken (fun _ before => before.1) (fun _ _ => id)
      fun _ _ before => before.1)
      fun _ => ?_
    refine bind (writeBack_spec inside changed) fun accepted => ?_
    cases accepted with
    | true =>
      refine clearBuffer_spec.weaken (fun now ⟨⟨shown, same, count⟩, stored⟩ => ?_)
        (fun _ _ => id) fun _ _ => id
      rw [same]
      exact ⟨⟨shown, by rw [BlkDev.Absent, same, count]; exact ready.2⟩, count ▸ inside,
        fun _ => stored rfl⟩
    | false => exact throw fun _ before => before.1.1

lemma pickBuffer_spec (positive : 0 < shape.bsBufm) :
    Triple (Ready shape array blockid) (pickBuffer shape events)
    (fun index dev => Ready shape array blockid dev ∧ dev.Free index) fun _ => Shows shape array := by
  refine inspect fun dev ready => ?_
  split
  · next index found =>
    obtain ⟨inside, unloaded⟩ := BlkDev.findBuffer_some found
    rw [Bool.not_eq_true'] at unloaded
    exact clearBuffer_spec.at ⟨ready, inside, fun changed =>
      absurd (ready.1.loaded index inside changed) (Bool.eq_false_iff.mp unloaded)⟩
  · have full := ready.1.room
    split
    · exact addBuffer_spec.at ⟨ready, by omega⟩
    · exact reuseBuffer_spec.at ⟨ready, by omega⟩

/-- A lost lock leaves the device as it is. -/
lemma newBuffer_spec (positive : 0 < shape.bsBufm) :
    Triple (Ready shape array blockid) (newBuffer shape events)
    (fun found dev => Ready shape array blockid dev ∧ ∀ index, found = some index → dev.Free index)
      fun _ => Shows shape array := by
  have picked : Triple (Ready shape array blockid) (do
      let index ← pickBuffer shape events
      pure (some index))
      (fun found dev => Ready shape array blockid dev ∧ ∀ index, found = some index →
        dev.Free index) fun _ => Shows shape array :=
    bind (pickBuffer_spec positive) fun index => pure fun dev before =>
      ⟨before.1, fun _ equal => Option.some.inj equal ▸ before.2⟩
  refine inspect fun dev ready => ?_
  split
  · exact picked.at ready
  refine bind ((nextEvent_spec Ready.calm).at ready) fun event => ?_
  have locked : ∀ dev, Ready shape array blockid dev ∧ (∃ index, event = events index) →
      Ready shape array blockid { dev with lockBf := true } := fun dev before =>
    Ready.calm dev true dev.lockHw dev.clock before.1
  split
  · exact change _ locked picked
  · refine change _ locked (pure fun dev ready => ⟨ready, fun index none => ?_⟩)
    exact absurd none.symm (Option.some_ne_none index)
  · exact throw fun _ before => before.1.1

/-- A free buffer may get any number and any bytes. -/
lemma Ready.keep {dev : BlkDev} (ready : Ready shape array blockid dev) (free : dev.Free index)
    (buf : BlockBuf) (unloaded : buf.load = false ∧ buf.chng = false) :
    Ready shape array blockid (dev.setBuffer index buf) ∧ (dev.setBuffer index buf).Free index := by
  have same := dev.setBuffer_same index buf
  refine ⟨⟨ready.1.drop free.1 unloaded fun changed => ?_, ready.2.drop unloaded.1⟩, free.1,
    by rw [same, unloaded.1], by rw [same, unloaded.2]⟩
  exact absurd changed (Bool.eq_false_iff.mp free.2.2)

/-- A block is loaded into a free buffer, or the hardware reads nothing. -/
lemma loadBuffer_spec (leading : Bool) :
    Triple (fun dev => Ready shape array blockid dev ∧ dev.Free index)
      (loadBuffer events leading index blockid)
      (fun found dev => Shows shape array dev ∧ (∀ index, found = some index → dev.Holds index blockid) ∧
        (Steady events → found ≠ none)) fun _ => Shows shape array := by
  have calm : Calm fun dev => Ready shape array blockid dev ∧ dev.Free index :=
    Ready.calm.and fun _ _ _ _ => id
  have named : Triple (fun dev => Ready shape array blockid dev ∧ dev.Free index)
    (nameBuffer leading index blockid)
      (fun _ dev => Ready shape array blockid dev ∧ dev.Free index) fun _ => Shows shape array := by
    cases leading with
    | false => exact pure fun _ => id
    | true => exact modify fun dev before => before.1.keep before.2 _ ⟨before.2.2.1, before.2.2.2⟩
  have transferred : Triple (fun dev => Ready shape array blockid dev ∧ dev.Free index)
    (bdReadBuffer events index blockid)
      (fun done dev => (Ready shape array blockid dev ∧ dev.Free index) ∧
        (done = true → (dev.bufv index).bbData = dev.disk blockid) ∧ (Steady events → done = true))
          fun _ => Shows shape array := by
    refine bdReadBuffer_spec calm (fun dev before => ?_) (fun unsteady dev before => ?_)
      fun dev junk code before => ?_
    · refine ⟨before.1.keep before.2 _ ⟨before.2.2.1, before.2.2.2⟩, fun _ => ?_, fun _ => rfl⟩
      rw [dev.setBuffer_same]
      rfl
    · exact ⟨before, fun never => absurd never (by decide), fun steady => absurd steady unsteady⟩
    · have kept := before.1.keep before.2 { dev.bufv index with bbData := junk }
        ⟨before.2.2.1, before.2.2.2⟩
      exact kept.1.1
  refine bind named fun _ => bind ((lockHardware_spec calm).weaken (fun _ => id) (fun _ _ => id)
    fun _ _ before => before.1.1) fun _ => bind transferred fun done => ?_
  cases done with
  | true =>
    refine change (fun dev => Shows shape array dev ∧ dev.Holds index blockid) (fun dev before => ?_)
      (pure fun dev before => ⟨before.1, fun _ equal => Option.some.inj equal ▸ before.2,
        fun _ => Option.some_ne_none index⟩)
    obtain ⟨⟨ready, free⟩, data, -⟩ := before
    have same := dev.setBuffer_same index { dev.bufv index with bbId := blockid, load := true }
    refine ⟨ready.1.load free ready.2 rfl free.2.2 fun offset _ => ?_, free.1,
      by rw [same], by rw [same]⟩
    exact congrFun (data rfl) offset
  | false =>
    refine pure fun dev before => ⟨before.1.1.1, fun index none => ?_, fun steady => ?_⟩
    · exact absurd none.symm (Option.some_ne_none index)
    · exact absurd (before.2.2 steady) (by decide)

/-- The buffer of a block, which is loaded if no buffer holds it. -/
lemma openBlock_spec (positive : 0 < shape.bsBufm) (leading : Bool) :
    Triple (Shows shape array) (openBlock shape events leading blockid)
      (fun found dev => Shows shape array dev ∧ (∀ index, found = some index → dev.Holds index blockid) ∧
        (Steady events → found ≠ none)) fun _ => Shows shape array := by
  have hit : ∀ {dev : BlkDev} {index : Nat}, Shows shape array dev → dev.Holds index blockid →
      Triple (fun same => same = dev) (pure (some index) : BlkAct (Option Nat))
        (fun found dev => Shows shape array dev ∧
          (∀ index, found = some index → dev.Holds index blockid) ∧
          (Steady events → found ≠ none)) fun _ => Shows shape array := fun {dev index} shown holds =>
    pure fun same equal => equal ▸ ⟨shown, fun _ found => Option.some.inj found ▸ holds,
      fun _ => Option.some_ne_none index⟩
  refine inspect fun dev shown => ?_
  split
  · next index found => exact hit shown (BlkDev.getBuffer_some found)
  next missing =>
  refine bind ((newBuffer_spec positive).at ⟨shown, BlkDev.getBuffer_none missing⟩) fun found => ?_
  cases found with
  | some index => exact (loadBuffer_spec leading).weaken (fun dev before =>
      ⟨before.1, before.2 index rfl⟩) (fun _ _ => id) fun _ _ => id
  | none =>
    refine inspect fun dev before => ?_
    split
    · next index found => exact hit before.1.1 (BlkDev.getBuffer_some found)
    · exact bind ((pickBuffer_spec positive).at before.1) fun index => loadBuffer_spec leading

end Buffers

end KosKernel.Dev
