/- The partitions of `kernel/dev/diskpart.c` and the paths of the calls from a partition to its disk. -/

import KosKernel.Dev.BlkCache
import Mathlib.Algebra.Group.Nat.Defs

namespace KosKernel.Dev
open Effect

/-- The width of `blkaddr_t`, `blkcnt_t` and `pos_t`, and the width of `size_t`. -/
structure BlkWidths where
  posBits : Nat
  sizeBits : Nat

/-- A block device is a disk or a `struct diskpart`, with the flag that `BLKROSET` sets in it. -/
inductive BlkNode where
  | disk (bdBlocksize bdBlockcount : Nat)
  | part (dpRef : BlkNode) (dpStart bdBlocksize bdBlockcount : Nat) (readOnly : Bool)
  deriving DecidableEq

/-- What is left of a request behind the limit of a device. -/
def clampTo (bits limit start size : Nat) : Nat :=
  if start < limit then min size ((limit - start) % 2 ^ bits) else 0

namespace BlkNode

def bdBlocksize : BlkNode → Nat
  | .disk bdBlocksize _ => bdBlocksize
  | .part _ _ bdBlocksize _ _ => bdBlocksize

def bdBlockcount : BlkNode → Nat
  | .disk _ bdBlockcount => bdBlockcount
  | .part _ _ _ bdBlockcount _ => bdBlockcount

/-- The loop of `blkdev_mkpart` gives the disk, the first block and the number of blocks. -/
def mkpartLoop (bits : Nat) : BlkNode → Nat → Nat → BlkNode × Nat × Nat
  | .disk bdBlocksize bdBlockcount, start, size =>
    (.disk bdBlocksize bdBlockcount, start, clampTo bits bdBlockcount start size)
  | .part dpRef dpStart _ bdBlockcount _, start, size =>
    let size := clampTo bits bdBlockcount start size
    let size := if (start + dpStart) % 2 ^ bits < start then 0 else size
    mkpartLoop bits dpRef ((start + dpStart) % 2 ^ bits) size

/-- This is `blkdev_mkpart`. -/
def blkdevMkpart (bits : Nat) (self : BlkNode) (start size : Nat) : BlkNode :=
  let size := if (start + size) % 2 ^ bits < start then (2 ^ bits - start) % 2 ^ bits else size
  let found := mkpartLoop bits self start size
  .part found.1 found.2.1 found.1.bdBlocksize found.2.2 false

section Calls
variable (widths : BlkWidths) (shape : BlkShape) (events : Nat → BlkEvent)

/-- This is `blkdev_read` with its branch for partitions. -/
def blkdevRead : BlkNode → Nat → Nat → BlkAct (List UInt8)
  | .disk _ _, offset, bufsize => Dev.blkdevRead shape events offset bufsize
  | .part dpRef dpStart bdBlocksize bdBlockcount _, offset, bufsize =>
    let partsize := bdBlockcount * bdBlocksize % 2 ^ widths.posBits
    let bufsize := clampTo widths.sizeBits partsize offset bufsize
    blkdevRead dpRef ((dpStart * bdBlocksize + offset) % 2 ^ widths.posBits) bufsize

/-- This is `blkdev_write` with its branch for partitions. -/
def blkdevWrite : BlkNode → Nat → List UInt8 → BlkAct Nat
  | .disk _ _, offset, bytes => Dev.blkdevWrite shape events offset bytes
  | .part dpRef dpStart bdBlocksize bdBlockcount _, offset, bytes =>
    let partsize := bdBlockcount * bdBlocksize % 2 ^ widths.posBits
    let bufsize := clampTo widths.sizeBits partsize offset bytes.length
    blkdevWrite dpRef ((dpStart * bdBlocksize + offset) % 2 ^ widths.posBits) (bytes.take bufsize)

/-- This is `bd_read` of a disk for some blocks. The hardware may stop early. -/
def bdReadBlocks (block count : Nat) : BlkAct (List UInt8) := do
  let event ← nextEvent events
  match event.device with
  | .done => do
    let dev ← get
    pure ((List.range (count - event.uncopied)).flatMap fun index =>
      (List.range shape.bdBlocksize).map (dev.disk (block + index)))
  | .nothing => pure []
  | .failed code => throw (.failed code)

/-- The hardware with other data in some blocks. -/
def storeBlocks (bdBlocksize : Nat) (disk : Nat → Nat → UInt8) (block count : Nat)
    (data : Nat → UInt8) : Nat → Nat → UInt8 :=
  fun blockid offset =>
    if block ≤ blockid ∧ blockid < block + count then data
      ((blockid - block) * bdBlocksize + offset) else disk blockid offset

/-- This is `bd_write` of a disk. A transfer that fails leaves arbitrary bytes. -/
def bdWriteBlocks (block count : Nat) (data : Nat → UInt8) : BlkAct Nat := do
  let event ← nextEvent events
  match event.device with
  | .done => do
    modify fun dev =>
      { dev with disk := storeBlocks shape.bdBlocksize dev.disk block (count - event.uncopied) data }
    pure (count - event.uncopied)
  | .nothing => pure 0
  | .failed code => do
    modify fun dev => { dev with disk := storeBlocks shape.bdBlocksize dev.disk block count event.junk }
    throw (.failed code)

/-- The hardware is locked for a raw call like the buffers for the others. -/
def lockRaw : BlkAct Unit := lockBuffers events

/-- This is `blkdev_raw_read`. For a partition, `bd_read` is `diskpart_read`. -/
def blkdevRawRead : BlkNode → Nat → Nat → BlkAct (List UInt8)
  | .disk _ _, block, count => do
    lockRaw events
    bdReadBlocks shape events block count
  | .part dpRef dpStart _ bdBlockcount _, block, count => do
    lockRaw events
    blkdevRawRead dpRef ((block + dpStart) % 2 ^ widths.posBits)
      (clampTo widths.sizeBits bdBlockcount block count)

/-- This is `blkdev_raw_write`. -/
def blkdevRawWrite : BlkNode → Nat → Nat → (Nat → UInt8) → BlkAct Nat
  | .disk _ _, block, count, data => do
    if shape.readOnly then throw .readOnly
    lockRaw events
    bdWriteBlocks shape events block count data
  | .part dpRef dpStart _ bdBlockcount readOnly, block, count, data => do
    if readOnly then throw .readOnly
    lockRaw events
    blkdevRawWrite dpRef ((block + dpStart) % 2 ^ widths.posBits)
      (clampTo widths.sizeBits bdBlockcount block count) data

/-- This is `diskpart_read`. -/
def diskpartRead (self : BlkNode) (block count : Nat) : BlkAct (List UInt8) :=
  match self with
  | .disk _ _ => bdReadBlocks shape events block count
  | .part dpRef dpStart _ bdBlockcount _ =>
    blkdevRawRead widths shape events dpRef ((block + dpStart) % 2 ^ widths.posBits)
      (clampTo widths.sizeBits bdBlockcount block count)

/-- This is `diskpart_write`. -/
def diskpartWrite (self : BlkNode) (block count : Nat) (data : Nat → UInt8) : BlkAct Nat :=
  match self with
  | .disk _ _ => bdWriteBlocks shape events block count data
  | .part dpRef dpStart _ bdBlockcount _ =>
    blkdevRawWrite widths shape events dpRef ((block + dpStart) % 2 ^ widths.posBits)
      (clampTo widths.sizeBits bdBlockcount block count) data

end Calls

end BlkNode

end KosKernel.Dev
