import AmcPci.Kernel

/-!
# The DMA device (`src/driver/memory.c` and the transfers of `src/driver/dma_control.c`)

A handle on a DMA device reads and writes a region of the device's memory through one buffer
that all handles share. What a call asks the engine for is computed here, in the 64-bit
arithmetic the code uses: `size_t` and `loff_t` are both `BitVec 64`, an `ssize_t` is the same
bits read as signed, and a comparison of mixed types is unsigned as C converts it.

`AmcPci.Dma` puts the calls on an engine that takes its time, with other callers in between;
`AmcPci.DmaFile` on one that does at once what it is told.
-/

namespace AmcPci

/-- `size_t`, `ssize_t` and `loff_t`. -/
abbrev Size := BitVec 64

/-! ## Kernel macros -/

/-- `ALIGN(x, a)`. -/
def align (x a : Size) : Size := (x + (a - 1)) &&& ~~~(a - 1)

/-- `ALIGN_DOWN(x, a)`. -/
def alignDown (x a : Size) : Size := align (x - (a - 1)) a

/-- `IS_ALIGNED(x, a)`. -/
def isAligned (x a : Size) : Bool := x &&& (a - 1) == 0

/-- `x > 0` for an `ssize_t`. -/
def isPositive (x : Size) : Bool := BitVec.slt 0 x

/-! ## Structures -/

/-- The part of `struct dma_control` that stays as it was initialised. -/
structure DmaControl where
  alignment : Size
  maxTransfer : Size
  bufferSize : Size
  /-- Bus address of the buffer. -/
  bufferDma : Size
deriving DecidableEq

/-- `MAX_DMA_TRANSFER`, the most that `btt` can hold. -/
def maxDmaTransfer : Size := 1 <<< 23 - 1

/-- `dma->max_transfer` as `initialise_dma_control` sets it. -/
def maxTransferFor (bufferSize alignment : Size) : Size :=
  alignDown (if maxDmaTransfer < bufferSize then maxDmaTransfer else bufferSize) alignment

/-- `struct memory_context`. -/
structure MemoryContext where
  base : Size
  length : Size
deriving DecidableEq

/-- `enum dma_data_direction`, as far as the driver uses it. -/
inductive DmaDirection
  | toDevice
  | fromDevice
deriving DecidableEq

/-! ## What is transferred -/

/-- What `dma_operation_unlocked` is asked for, with what the caller keeps for afterwards. -/
structure Request where
  dir : DmaDirection
  start : Size
  dmaCount : Size
  inOffset : Size
  count : Size
deriving DecidableEq

/-- `amc_pci_dma_write` up to the lock; on the left, what it returns without taking it. -/
def writeRequest (dma : DmaControl) (context : MemoryContext) (offset count : Size) :
    Except Int Request :=
  if offset = context.length then .error 0
  else if offset > context.length then .error (-efault)
  else if count > context.length - offset ∨ count > dma.bufferSize then .error (-einval)
  else .ok ⟨.toDevice, context.base + offset, count, 0, count⟩

/-- `amc_pci_dma_read` up to the lock. -/
def readRequest (dma : DmaControl) (context : MemoryContext) (offset count : Size) :
    Except Int Request :=
  if offset = context.length then .error 0
  else if offset > context.length then .error (-efault)
  else
    let inOffset := offset &&& (dma.alignment - 1)
    let dmaAddr := context.base + offset - inOffset
    let wanted := align (count + inOffset) dma.alignment
    let dmaCount :=
      if dmaAddr + wanted > context.base + context.length then
        alignDown (context.base + context.length - dmaAddr) dma.alignment
      else wanted
    if dmaCount = 0 then .error (-efault)
    else .ok ⟨.fromDevice, dmaAddr, dmaCount, inOffset, count⟩

/-- The clipping at the head of `dma_operation_unlocked`. -/
def clipCount (dma : DmaControl) (count : Size) : Size :=
  if count > dma.maxTransfer then dma.maxTransfer else count

/-- One transfer, as it is written to the engine's registers. -/
structure Transfer where
  src : Size
  dst : Size
  count : Size
deriving DecidableEq

/-- The transfer `dma_operation_unlocked` configures for a request. -/
def Request.transfer (dma : DmaControl) (r : Request) : Transfer :=
  match r.dir with
  | .toDevice => ⟨dma.bufferDma, r.start, clipCount dma r.dmaCount⟩
  | .fromDevice => ⟨r.start, dma.bufferDma, clipCount dma r.dmaCount⟩

/-- The check at the head of `configure_dma_engine`. -/
def transferAligned (dma : DmaControl) (t : Transfer) : Bool :=
  isAligned t.src dma.alignment && isAligned t.dst dma.alignment &&
    isAligned t.count dma.alignment

/-- `*f_pos += n; if (*f_pos >= context->length) *f_pos = 0;`. -/
def advance (context : MemoryContext) (pos n : Size) : Size :=
  if pos + n ≥ context.length then 0 else pos + n

/-- `min(count, dma_read_count - in_offset)`: how much of what was read is the caller's. -/
def userCount (r : Request) (dmaReadCount : Size) : Size :=
  if r.count < dmaReadCount - r.inOffset then r.count else dmaReadCount - r.inOffset

end AmcPci
