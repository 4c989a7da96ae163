import AmcPci.DmaCall
import AmcPci.Lib.Resource
import AmcPci.Probe

/-!
# Setting a board up and taking it down (`initialise_board`, `terminate_board`)

The three nested chains of `initialise_board` in `src/driver/amc_pci_core.c`,
`initialise_dma_control` in `src/driver/dma_control.c` and `initialise_interrupt_control` in
`src/driver/interrupts.c`, with what each takes from the kernel and gives back. A label of the
source is a function on the log: it gives one thing back and falls through to the next label.

`AmcPci.Probe` sees the same functions from outside, by what they return.
-/

namespace AmcPci
namespace Setup

open Lib
open Probe (Pointer)

/-- What a board holds once it is set up. -/
inductive Resource
  /-- The mapping of BAR2. -/
  | bar2
  /-- `struct prom_context`. -/
  | promContext
  /-- `struct dma_control`. -/
  | dmaControl
  /-- The pages of the DMA buffer. -/
  | dmaPages
  /-- The buffer's mapping for the device. -/
  | dmaMapping
  /-- `struct interrupt_control`. -/
  | interruptControl
  | irq
deriving DecidableEq

/-- What has been taken and given back so far, in order. -/
abbrev Log := List (Use Resource)

/-- The resource is taken. -/
def acquire (log : Log) (r : Resource) : Log := log ++ [.acquire r]

/-- The resource is given back. -/
def release (log : Log) (r : Resource) : Log := log ++ [.release r]

/-- `PAGE_SHIFT`. -/
def pageShift : Int := 12

/-- The answers of the kernel and of the hardware, the PROM, and the module's parameter. -/
structure Kernel where
  pciResourceLen : Int
  pciIomap : Pointer
  /-- Whether `load_prom` gets its buffer. -/
  kzallocProm : Bool
  prom : Nat → UInt8
  defaultProm : List UInt8
  beyond : Nat → UInt8
  dmaBlockShift : Int
  dmaSetMask : Size → Int
  kmallocDma : Pointer
  /-- By order. -/
  getFreePages : Nat → Pointer
  dmaMapSingle : Size
  dmaMappingError : Bool
  /-- `cdmacr` during the reset, read before the deadline. -/
  resetting : List (BitVec 32)
  /-- `cdmacr` as it is read with the deadline past. -/
  resetStat : BitVec 32
  kzallocInterrupts : Pointer
  requestIrq : Int
  /-- What `1ULL << n` comes to when `n` is 64 or more. -/
  shiftOut : Nat → Size
  /-- What `1 << n` comes to when `n` is 31 or more. -/
  intShiftOut : Int → Size

/-! ## `dma_control.c` -/

/-- `1ULL << n`. -/
def shiftOne (k : Kernel) (n : UInt8) : Size :=
  if n.toNat < 64 then (1 : Size) <<< n.toNat else k.shiftOut n.toNat

/-- `DMA_BIT_MASK(n)`. -/
def dmaBitMask (k : Kernel) (n : UInt8) : Size :=
  if n = 64 then BitVec.allOnes 64 else shiftOne k n - 1

/-- `1 << dma_block_shift`. -/
def bufferSize (k : Kernel) : Size :=
  if k.dmaBlockShift < 31 then (1 : Size) <<< k.dmaBlockShift.toNat
  else k.intShiftOut k.dmaBlockShift

/-- `reset_dma_controller`, with nobody yet to look at the engine. -/
def resetDmaController (k : Kernel) : Int :=
  if DmaCall.pollReset k.resetting k.resetStat &&& DmaCall.cdmacrReset ≠ 0 then -eio else 0

namespace DmaLabel

/-- `no_buffer` and the labels below it. -/
def noBuffer (log : Log) : Log := release log .dmaControl

/-- `no_dma_map` and the labels below it. -/
def noDmaMap (log : Log) : Log := noBuffer (release log .dmaPages)

/-- `reset_error` and the labels below it. -/
def resetError (log : Log) : Log := noDmaMap (release log .dmaMapping)

end DmaLabel

/-- `initialise_dma_control`: the engine, or the code it returns, with the log. -/
def initialiseDmaControl (k : Kernel) (dmaMask dmaAlignmentShift : UInt8) (log : Log) :
    Except Int DmaControl × Log :=
  if k.dmaBlockShift < pageShift then (.error (-einval), log)
  else if k.dmaSetMask (dmaBitMask k dmaMask) < 0 then
    (.error (k.dmaSetMask (dmaBitMask k dmaMask)), log)
  else if k.kmallocDma.rc < 0 then (.error k.kmallocDma.rc, log)
  else
    let log := acquire log .dmaControl
    let buffer := k.getFreePages (k.dmaBlockShift - pageShift).toNat
    if buffer.rc < 0 then (.error buffer.rc, DmaLabel.noBuffer log)
    else
      let log := acquire log .dmaPages
      let alignment := shiftOne k dmaAlignmentShift
      let dma : DmaControl :=
        ⟨alignment, maxTransferFor (bufferSize k) alignment, bufferSize k, k.dmaMapSingle⟩
      if k.dmaMappingError then (.error (-eio), DmaLabel.noDmaMap log)
      else
        let log := acquire log .dmaMapping
        if resetDmaController k < 0 then (.error (resetDmaController k), DmaLabel.resetError log)
        else (.ok dma, log)

/-- `terminate_dma_control`. -/
def terminateDmaControl (log : Log) : Log :=
  release (release (release log .dmaMapping) .dmaPages) .dmaControl

/-! ## `interrupts.c` -/

/-- `initialise_interrupt_control`. The handler is there once the irq is. -/
def initialiseInterruptControl (k : Kernel) (log : Log) : Except Int Unit × Log :=
  if k.kzallocInterrupts.rc < 0 then (.error k.kzallocInterrupts.rc, log)
  else
    let log := acquire log .interruptControl
    if k.requestIrq < 0 then (.error k.requestIrq, release log .interruptControl)
    else (.ok (), acquire log .irq)

/-- `terminate_interrupt_control`. -/
def terminateInterruptControl (log : Log) : Log := release (release log .irq) .interruptControl

/-! ## `prom_processing.c` -/

/-- `load_prom`: each of its labels but the last is above the `kfree`. -/
def loadPromContext (k : Kernel) (log : Log) : Except Int PromContext × Log :=
  match loadProm k.defaultProm k.beyond k.kzallocProm k.prom with
  | .ok prom => (.ok prom, acquire log .promContext)
  | .error rc =>
    if k.kzallocProm then (.error rc, release (acquire log .promContext) .promContext)
    else (.error rc, log)

/-! ## `amc_pci_core.c` -/

/-- What `struct amc_pci` is left with. The engine is there if the PROM has a use for it. -/
structure Board where
  prom : PromContext
  dma : Option DmaControl

/-- The part of `initialise_board` between `load_prom` and the interrupts. -/
def dmaControl (k : Kernel) (prom : PromContext) (log : Log) :
    Except Int (Option DmaControl) × Log :=
  if prom.dmaNentries ≠ 0 then
    let (dma, log) :=
      initialiseDmaControl k (Probe.dmaGeometry prom).1 (Probe.dmaGeometry prom).2 log
    (dma.map some, log)
  else (.ok none, log)

namespace BoardLabel

/-- `prom_error` and the labels below it. -/
def promError (log : Log) : Log := release log .bar2

/-- `no_dma`, which falls through to `prom_error`: it does not give the PROM context back. -/
def noDma (log : Log) : Log := promError log

/-- `no_minor` and the labels below it. -/
def noMinor (log : Log) : Log := noDma (release log .promContext)

/-- `no_irq` and the labels below it. -/
def noIrq (prom : PromContext) (log : Log) : Log :=
  noMinor (if prom.dmaNentries ≠ 0 then terminateDmaControl log else log)

end BoardLabel

/-- `initialise_board`, from an empty log. -/
def initialiseBoard (k : Kernel) : Except Int Board × Log :=
  if k.pciResourceLen < Probe.bar2Length then (.error (-einval), [])
  else if k.pciIomap.rc < 0 then (.error k.pciIomap.rc, [])
  else
    match loadPromContext k (acquire [] .bar2) with
    | (.error rc, log) => (.error rc, BoardLabel.promError log)
    | (.ok prom, log) =>
      if prom.nentries > Probe.maxMinorsPerBoard then (.error (-e2big), BoardLabel.noMinor log)
      else
        match dmaControl k prom log with
        | (.error rc, log) => (.error rc, BoardLabel.noDma log)
        | (.ok dma, log) =>
          match initialiseInterruptControl k log with
          | (.error rc, log) => (.error rc, BoardLabel.noIrq prom log)
          | (.ok _, log) => (.ok ⟨prom, dma⟩, log)

/-- `terminate_board`. -/
def terminateBoard (b : Board) (log : Log) : Log :=
  let log := terminateInterruptControl log
  let log := if b.prom.dmaNentries ≠ 0 then terminateDmaControl log else log
  release (release log .promContext) .bar2

end Setup
end AmcPci
