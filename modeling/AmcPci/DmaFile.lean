import AmcPci.Memory
import AmcPci.PromProcessing

/-!
# Handles on a DMA device (`src/driver/memory.c`)

The file operations of a DMA device one after the other, with the bytes they move. The engine is
idle when a call comes to it and does what it is told at once and without an error; copies to and
from the user copy everything; the only thing left to fail is what the driver itself checks.

The engine sees the buffer at `bufferDma` and the device's memory from zero on. The buffer is one
for all handles, and every call leaves its bytes in it for the next.
-/

namespace AmcPci
namespace DmaFile

open Lib

/-- An open file: its `private_data` and its `f_pos`. -/
structure Handle where
  context : MemoryContext
  fPos : Size
deriving DecidableEq

/-- The device's memory, the buffer, and the handles that are open. -/
structure Board where
  memory : Nat → UInt8
  buffer : Nat → UInt8
  handles : List Handle

/-- What a call returns, with what it has copied to the user. -/
structure Reply where
  rc : Int
  data : List UInt8
deriving DecidableEq

/-! ## The engine -/

/-- A transfer, carried out. -/
def Board.transfer (dma : DmaControl) (b : Board) (dir : DmaDirection) (t : Transfer) : Board :=
  match dir with
  | .toDevice =>
    let bytes := peek b.buffer (t.src - dma.bufferDma).toNat t.count.toNat
    { b with memory := memcpy b.memory t.dst.toNat bytes }
  | .fromDevice =>
    let bytes := peek b.memory t.src.toNat t.count.toNat
    { b with buffer := memcpy b.buffer (t.dst - dma.bufferDma).toNat bytes }

/-- `dma_operation_unlocked`, on an engine that does what it is told. -/
def dmaOperationUnlocked (dma : DmaControl) (b : Board) (r : Request) : Except Int Size × Board :=
  let t := r.transfer dma
  if transferAligned dma t then (.ok t.count, b.transfer dma r.dir t) else (.error (-einval), b)

/-! ## The file operations -/

/-- `amc_pci_open` of a PROM entry, and `amc_pci_dma_open`. -/
def openContext : PromEntry → Option MemoryContext
  | .dma base length _ _ => some ⟨BitVec.ofNat 64 base, BitVec.ofNat 64 length⟩
  | .dmaExt base length _ _ => some ⟨BitVec.ofNat 64 base, BitVec.ofNat 64 length⟩
  | _ => none

/-- `amc_pci_dma_write`. -/
def amcPciDmaWrite (dma : DmaControl) (b : Board) (h : Handle) (data : List UInt8) :
    Reply × Board × Handle :=
  let count := BitVec.ofNat 64 data.length
  match writeRequest dma h.context h.fPos count with
  | .error rc => (⟨rc, []⟩, b, h)
  | .ok r =>
    let b := { b with buffer := memcpy b.buffer 0 data }
    if isPositive count then
      match dmaOperationUnlocked dma b r with
      | (.error rc, b) => (⟨rc, []⟩, b, h)
      | (.ok dmaWriteCount, b) =>
        if isPositive dmaWriteCount then
          (⟨dmaWriteCount.toInt, []⟩, b, { h with fPos := advance h.context h.fPos dmaWriteCount })
        else (⟨dmaWriteCount.toInt, []⟩, b, h)
    else (⟨-efault, []⟩, b, h)

/-- `amc_pci_dma_read`. -/
def amcPciDmaRead (dma : DmaControl) (b : Board) (h : Handle) (count : Size) :
    Reply × Board × Handle :=
  match readRequest dma h.context h.fPos count with
  | .error rc => (⟨rc, []⟩, b, h)
  | .ok r =>
    match dmaOperationUnlocked dma b r with
    | (.error rc, b) => (⟨rc, []⟩, b, h)
    | (.ok dmaReadCount, b) =>
      if isPositive dmaReadCount then
        let n := userCount r dmaReadCount
        let data := peek b.buffer r.inOffset.toNat n.toNat
        if isPositive n then
          (⟨n.toInt, data⟩, b, { h with fPos := advance h.context h.fPos n })
        else (⟨-efault, data⟩, b, h)
      else (⟨dmaReadCount.toInt, []⟩, b, h)

/-- The last argument of `llseek`; `SEEK_DATA` and `SEEK_HOLE` are left out. -/
inductive Whence
  | seekSet
  | seekCur
  | seekEnd
deriving DecidableEq

/-- `vfs_setpos`, with the length of the region for the largest position. -/
def vfsSetpos (h : Handle) (offset : Size) : Reply × Handle :=
  if BitVec.slt offset 0 || BitVec.slt h.context.length offset then (⟨-einval, []⟩, h)
  else (⟨offset.toInt, []⟩, { h with fPos := offset })

/-- `generic_file_llseek_size(file, f_pos, whence, context->length, context->length)`. -/
def amcPciDmaLlseek (h : Handle) (fPos : Size) : Whence → Reply × Handle
  | .seekSet => vfsSetpos h fPos
  | .seekCur => if fPos = 0 then (⟨h.fPos.toInt, []⟩, h) else vfsSetpos h (h.fPos + fPos)
  | .seekEnd => vfsSetpos h (h.context.length + fPos)

/-! ## A session -/

/-- What a client does next. -/
inductive Action
  | openEntry (entry : PromEntry)
  | read (i : Nat) (count : Size)
  | write (i : Nat) (data : List UInt8)
  | llseek (i : Nat) (fPos : Size) (whence : Whence)
deriving DecidableEq

/-- A handle is as a call has left it. -/
def Board.put (b : Board) (i : Nat) (h : Handle) : Board :=
  { b with handles := b.handles.set i h }

/-- One call of one client, with its reply. -/
def step (dma : DmaControl) (b : Board) : Action → Option (Reply × Board)
  | .openEntry entry =>
    (openContext entry).map fun context =>
      (⟨0, []⟩, { b with handles := b.handles ++ [⟨context, 0⟩] })
  | .read i count =>
    b.handles[i]?.map fun h =>
      let (reply, b, h) := amcPciDmaRead dma b h count
      (reply, b.put i h)
  | .write i data =>
    b.handles[i]?.map fun h =>
      let (reply, b, h) := amcPciDmaWrite dma b h data
      (reply, b.put i h)
  | .llseek i fPos whence =>
    b.handles[i]?.map fun h =>
      let (reply, h) := amcPciDmaLlseek h fPos whence
      (reply, b.put i h)

end DmaFile
end AmcPci
