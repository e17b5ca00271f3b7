/- The cached block devices of `kernel/dev/blkdev.c`. Locks, heap, hardware and user memory take
their outcome from the next event. -/

import KosKernel.Library.Effect
import Mathlib.Data.List.Basic

namespace KosKernel.Dev
open Effect

/-- This is `struct blockbuf`. -/
structure BlockBuf where
  bbId : Nat
  load : Bool
  chng : Bool
  bbData : Nat → UInt8

/-- The constant fields of `struct blkdev`. -/
structure BlkShape where
  bdBlocksize : Nat
  bsBufm : Nat
  readOnly : Bool

/-- The hardware, the buffers, the locks of the call and the number of the next event. -/
structure BlkDev where
  disk : Nat → Nat → UInt8
  bufv : Nat → BlockBuf
  bufc : Nat
  bufa : Nat
  lockBf : Bool
  lockHw : Bool
  clock : Nat

/-- The errors of the calls. -/
inductive BlkError where
  | noMemory
  | noSpace
  | fault
  | readOnly
  | failed (code : Nat)
  deriving DecidableEq

/-- What `rwlock_upgrade` answers. -/
inductive UpgradeAnswer where
  | done
  | reload
  | failed (code : Nat)

/-- What `bd_read` and `bd_write` answer. -/
inductive DeviceAnswer where
  | done
  | nothing
  | failed (code : Nat)

/-- The outcomes that a call meets. -/
structure BlkEvent where
  lock : Option Nat
  upgrade : UpgradeAnswer
  memory : Bool
  rand : Nat
  device : DeviceAnswer
  junk : Nat → UInt8
  uncopied : Nat

/-- The calls change a device and may fail. -/
abbrev BlkAct (Result : Type) : Type := Act BlkDev BlkError Result

namespace BlkDev
variable (dev : BlkDev) (property : BlockBuf → Bool)

/-- The first buffer that has a property. -/
def findBuffer : Option Nat :=
  (List.range dev.bufc).find? fun index => property (dev.bufv index)

/-- The last buffer that has a property. -/
def findLast : Option Nat :=
  (List.range dev.bufc).reverse.find? fun index => property (dev.bufv index)

/-- This is `get_buffer`. -/
def getBuffer (blockid : Nat) : Option Nat :=
  dev.findBuffer fun buf => buf.bbId == blockid && buf.load

/-- The device with another buffer at an index. -/
def setBuffer (index : Nat) (buf : BlockBuf) : BlkDev :=
  { dev with bufv := Function.update dev.bufv index buf }

/-- The device with another block on the hardware. -/
def setBlock (blockid : Nat) (data : Nat → UInt8) : BlkDev :=
  { dev with disk := Function.update dev.disk blockid data }

end BlkDev

section Calls
variable (self : BlkShape) (events : Nat → BlkEvent)

/-- The next event. -/
def nextEvent : BlkAct BlkEvent := do
  let dev ← get
  modify fun dev => { dev with clock := dev.clock + 1 }
  pure (events dev.clock)

/-- The lock of the hardware is taken once in a call. -/
def lockHardware : BlkAct Unit := do
  let dev ← get
  if dev.lockHw then pure ()
  else
    match (← nextEvent events).lock with
    | some code => throw (.failed code)
    | none => modify fun dev => { dev with lockHw := true }

/-- This is `bd_write` of one block. -/
def bdWrite (blockid : Nat) (data : Nat → UInt8) : BlkAct Bool := do
  let event ← nextEvent events
  match event.device with
  | .done => do
    modify fun dev => dev.setBlock blockid data
    pure true
  | .nothing => pure false
  | .failed code => do
    modify fun dev => dev.setBlock blockid event.junk
    throw (.failed code)

/-- This is `bd_read` of one block into a buffer. -/
def bdReadBuffer (index blockid : Nat) : BlkAct Bool := do
  let event ← nextEvent events
  match event.device with
  | .done => do
    modify fun dev => dev.setBuffer index { dev.bufv index with bbData := dev.disk blockid }
    pure true
  | .nothing => pure false
  | .failed code => do
    modify fun dev => dev.setBuffer index { dev.bufv index with bbData := event.junk }
    throw (.failed code)

/-- This is `bd_read` of one block into user memory. -/
def bdReadUser (blockid : Nat) : BlkAct (Option (List UInt8)) := do
  let event ← nextEvent events
  match event.device with
  | .done => do
    let dev ← get
    pure (some ((List.range self.bdBlocksize).map (dev.disk blockid)))
  | .nothing => pure none
  | .failed code => throw (.failed code)

/-- The code behind the label `gotit` of `new_buffer`. -/
def clearBuffer (index : Nat) : BlkAct Nat := do
  modify fun dev => dev.setBuffer index { dev.bufv index with load := false, chng := false }
  pure index

/-- The vector of the buffers gets longer if it is full. -/
def growBuffers : BlkAct Unit := do
  let dev ← get
  if dev.bufc = dev.bufa then
    if (← nextEvent events).memory then
      modify fun dev => { dev with bufa := min ((if dev.bufa = 0 then 1 else dev.bufa) * 2) self.bsBufm }
    else throw .noMemory
  else pure ()

/-- A new buffer at the end of the vector. -/
def addBuffer : BlkAct Nat := do
  growBuffers self events
  let dev ← get
  let event ← nextEvent events
  if event.memory then do
    modify fun dev => { dev.setBuffer dev.bufc ⟨0, false, false, event.junk⟩ with bufc := dev.bufc + 1 }
    pure dev.bufc
  else throw .noMemory

/-- A buffer that held another block, the last unchanged one if there is one. -/
def reuseBuffer : BlkAct Nat := do
  let dev ← get
  match dev.findLast fun buf => !buf.chng with
  | some index => clearBuffer index
  | none => do
    let event ← nextEvent events
    let index := event.rand % dev.bufc
    lockHardware events
    if ← bdWrite events (dev.bufv index).bbId (dev.bufv index).bbData then clearBuffer index
    else throw .noSpace

/-- This is `new_buffer` once the buffers are locked for writing. -/
def pickBuffer : BlkAct Nat := do
  let dev ← get
  match dev.findBuffer fun buf => !buf.load with
  | some index => clearBuffer index
  | none => if dev.bufc ≠ self.bsBufm then addBuffer self events else reuseBuffer events

/-- This is `new_buffer`. -/
def newBuffer : BlkAct (Option Nat) := do
  let dev ← get
  if dev.lockBf then do
    let index ← pickBuffer self events
    pure (some index)
  else
    match (← nextEvent events).upgrade with
    | .done => do
      modify fun dev => { dev with lockBf := true }
      let index ← pickBuffer self events
      pure (some index)
    | .reload => do
      modify fun dev => { dev with lockBf := true }
      pure none
    | .failed code => throw (.failed code)

variable (leading : Bool)

/-- For a leading block, the number is stored before the transfer. -/
def nameBuffer (index blockid : Nat) : BlkAct Unit :=
  if leading then modify fun dev => dev.setBuffer index { dev.bufv index with bbId := blockid }
  else pure ()

/-- A block is loaded into a buffer. -/
def loadBuffer (index blockid : Nat) : BlkAct (Option Nat) := do
  nameBuffer leading index blockid
  lockHardware events
  if ← bdReadBuffer events index blockid then do
    modify fun dev => dev.setBuffer index { dev.bufv index with bbId := blockid, load := true }
    pure (some index)
  else pure none

/-- The code behind the labels `search_cache` and `search_late_cache`. -/
def openBlock (blockid : Nat) : BlkAct (Option Nat) := do
  match (← get).getBuffer blockid with
  | some index => pure (some index)
  | none =>
    match ← newBuffer self events with
    | some index => loadBuffer events leading index blockid
    | none =>
      match (← get).getBuffer blockid with
      | some index => pure (some index)
      | none => do loadBuffer events leading (← pickBuffer self events) blockid

/-- This is `copy_to_user` from a buffer. -/
def copyToUser (index begin size : Nat) : BlkAct (List UInt8) := do
  if (← nextEvent events).uncopied = 0 then do
    let dev ← get
    pure ((List.range size).map fun offset => (dev.bufv index).bbData (begin + offset))
  else throw .fault

/-- The bytes of a buffer after some bytes are stored in it. -/
def storeBytes (data : Nat → UInt8) (begin : Nat) (bytes : List UInt8) : Nat → UInt8 := fun offset =>
  if begin ≤ offset ∧ offset < begin + bytes.length then bytes.getD (offset - begin) 0 else data offset

/-- This is `copy_from_user` into a buffer. -/
def copyFromUser (index begin : Nat) (bytes : List UInt8) : BlkAct Unit := do
  let event ← nextEvent events
  let errorSize := min event.uncopied bytes.length
  modify fun dev =>
    let buf := dev.bufv index
    dev.setBuffer index { buf with
      bbData := storeBytes buf.bbData begin (bytes.take (bytes.length - errorSize))
      chng := buf.chng || errorSize != bytes.length }
  if errorSize = 0 then pure () else throw .fault

/-- The buffers are locked when a call starts. -/
def lockBuffers : BlkAct Unit := do
  match (← nextEvent events).lock with
  | some code => throw (.failed code)
  | none => pure ()

/-- The loop of `blkdev_read` over whole blocks. The flag tells that the hardware read nothing. -/
def readBlocks : Nat → Nat → BlkAct (List UInt8 × Bool)
  | 0, _ => pure ([], false)
  | count + 1, blockid => do
    match (← get).getBuffer blockid with
    | some index => do
      let bytes ← copyToUser events index 0 self.bdBlocksize
      let rest ← readBlocks count (blockid + 1)
      pure (bytes ++ rest.1, rest.2)
    | none =>
      match ← bdReadUser self events blockid with
      | none => pure ([], true)
      | some bytes => do
        let rest ← readBlocks count (blockid + 1)
        pure (bytes ++ rest.1, rest.2)

/-- The part of `blkdev_read` behind the leading block. -/
def readAligned (blockid bufsize : Nat) : BlkAct (List UInt8) := do
  let whole ← readBlocks self events (bufsize / self.bdBlocksize) blockid
  if whole.2 ∨ bufsize % self.bdBlocksize = 0 then pure whole.1
  else
    match ← openBlock self events false (blockid + bufsize / self.bdBlocksize) with
    | none => pure whole.1
    | some index => do
      let last ← copyToUser events index 0 (bufsize % self.bdBlocksize)
      pure (whole.1 ++ last)

/-- This is `blkdev_read`. -/
def blkdevRead (offset bufsize : Nat) : BlkAct (List UInt8) := do
  if bufsize = 0 then pure []
  else
    lockBuffers events
    let startBlock := offset / self.bdBlocksize
    let blockBegin := offset % self.bdBlocksize
    let blockSize := min (self.bdBlocksize - blockBegin) bufsize
    if blockBegin = 0 ∧ (← get).getBuffer startBlock = none then
      readAligned self events startBlock bufsize
    else
      match ← openBlock self events true startBlock with
      | none => pure []
      | some index => do
        let first ← copyToUser events index blockBegin blockSize
        let rest ← readAligned self events (startBlock + 1) (bufsize - blockSize)
        pure (first ++ rest)

/-- The loop of `blkdev_write` over whole blocks. The flag tells that the hardware wrote nothing. -/
def writeBlocks : Nat → Nat → List UInt8 → BlkAct (Nat × Bool)
  | 0, _, _ => pure (0, false)
  | count + 1, blockid, bytes => do
    match (← get).getBuffer blockid with
    | some index => do
      copyFromUser events index 0 (bytes.take self.bdBlocksize)
      let rest ← writeBlocks count (blockid + 1) (bytes.drop self.bdBlocksize)
      pure (self.bdBlocksize + rest.1, rest.2)
    | none =>
      if ← bdWrite events blockid fun offset => bytes.getD offset 0 then do
        let rest ← writeBlocks count (blockid + 1) (bytes.drop self.bdBlocksize)
        pure (self.bdBlocksize + rest.1, rest.2)
      else pure (0, true)

/-- The part of `blkdev_write` behind the leading block. -/
def writeAligned (blockid : Nat) (bytes : List UInt8) : BlkAct Nat := do
  let whole ← writeBlocks self events (bytes.length / self.bdBlocksize) blockid bytes
  if whole.2 ∨ bytes.length % self.bdBlocksize = 0 then pure whole.1
  else
    match ← openBlock self events false (blockid + bytes.length / self.bdBlocksize) with
    | none => pure whole.1
    | some index => do
      copyFromUser events index 0 (bytes.drop (bytes.length / self.bdBlocksize * self.bdBlocksize))
      pure (whole.1 + bytes.length % self.bdBlocksize)

/-- This is `blkdev_write`. -/
def blkdevWrite (offset : Nat) (bytes : List UInt8) : BlkAct Nat := do
  if bytes.length = 0 then pure 0
  else if self.readOnly then throw .readOnly
  else
    lockBuffers events
    let startBlock := offset / self.bdBlocksize
    let blockBegin := offset % self.bdBlocksize
    let blockSize := min (self.bdBlocksize - blockBegin) bytes.length
    if blockBegin = 0 ∧ (← get).getBuffer startBlock = none then
      writeAligned self events startBlock bytes
    else
      match ← openBlock self events true startBlock with
      | none => pure 0
      | some index => do
        copyFromUser events index blockBegin (bytes.take blockSize)
        let rest ← writeAligned self events (startBlock + 1) (bytes.drop blockSize)
        pure (blockSize + rest)

/-- The loop of `blkdev_do_sync_unlocked`. -/
def syncBuffers : List Nat → BlkAct Unit
  | [] => pure ()
  | index :: rest => do
    let buf := (← get).bufv index
    if buf.chng then do
      lockHardware events
      if ← bdWrite events buf.bbId buf.bbData then do
        modify fun dev => dev.setBuffer index { dev.bufv index with chng := false }
        syncBuffers rest
      else throw .noSpace
    else syncBuffers rest

/-- This is `blkdev_sync`. -/
def blkdevSync : BlkAct Unit := do
  lockBuffers events
  let dev ← get
  syncBuffers events (List.range dev.bufc)

end Calls

/-- The calls on a device. -/
inductive BlkCall where
  | read (offset bufsize : Nat)
  | write (offset : Nat) (bytes : List UInt8)
  | sync

/-- The replies of the calls. -/
inductive BlkReply where
  | bytes (bytes : List UInt8)
  | count (count : Nat)
  | synced
  | failed (error : BlkError)
  deriving DecidableEq

/-- The reply that a call computes. -/
def blkdevCall (self : BlkShape) (events : Nat → BlkEvent) : BlkCall → BlkAct BlkReply
  | .read offset bufsize => do
    let bytes ← blkdevRead self events offset bufsize
    pure (.bytes bytes)
  | .write offset bytes => do
    let count ← blkdevWrite self events offset bytes
    pure (.count count)
  | .sync => do
    blkdevSync events
    pure .synced

/-- A call with its reply. It releases the locks at its end. -/
def BlkDev.call (self : BlkShape) (events : Nat → BlkEvent) (dev : BlkDev) (call : BlkCall) :
    BlkDev × BlkReply :=
  match perform (blkdevCall self events call) dev with
  | (.ok reply, dev) => ({ dev with lockBf := false, lockHw := false }, reply)
  | (.error error, dev) => ({ dev with lockBf := false, lockHw := false }, .failed error)

/-- The device and the replies after some calls. -/
def BlkDev.calls (self : BlkShape) (events : Nat → BlkEvent) :
    BlkDev → List BlkCall → BlkDev × List BlkReply
  | dev, [] => (dev, [])
  | dev, first :: rest =>
    let (dev, reply) := dev.call self events first
    let (dev, replies) := dev.calls self events rest
    (dev, reply :: replies)

end KosKernel.Dev
