import AmcPci.Registers

/-!
# The interrupt handler (`amc_pci_isr` in `src/driver/interrupts.c`)

The interrupt controller latches bit `i` of `isr` when source `i` fires and clears the bits that
are written to `iar`. The handler reads `isr`, lets the DMA engine and the event readers know,
and acknowledges last. Sources fire, and the register handles read, at any point in between.

The readers are the register handles of `AmcPci.Registers`, which move as they do there; the one
call of `event_interrupt` that can run is the handler's own.
-/

namespace AmcPci
namespace Isr

open Registers (Board RegisterFile FileAction fileStep storeEvents)

/-- How far the handler has got, with the bits of `isr` it read. -/
inductive Handler
  | idle
  | dmaInterrupt (isr : BitVec 32)
  | eventInterrupt (isr : BitVec 32) (reader : Nat)
  | acknowledge (isr : BitVec 32)

/-- The interrupt controller, the handler, and the register handles. -/
structure State where
  /-- `isr` of the interrupt controller. -/
  isr : BitVec 32
  handler : Handler
  board : Board
  files : List RegisterFile

/-- What happens next, one step at a time. -/
inductive Action
  /-- An edge on one of the inputs of the interrupt controller. -/
  | fire (source : Fin 32)
  /-- The kernel calls the handler, which reads `isr`. -/
  | amcPciIsr
  /-- The handler's next step. -/
  | proceed
  | openFile
  | file (i : Nat) (action : FileAction)

/-- Nothing has fired, and nobody has opened a handle. -/
def initial : State := ⟨0, .idle, Registers.initial.board, []⟩

/-- The next step of the handler. The engine's own part of it is in `AmcPci.Dma`. -/
def handlerStep (s : State) : Option State :=
  match s.handler with
  | .idle => none
  | .dmaInterrupt isr =>
    let userIsr := isr >>> 1
    some { s with handler := if userIsr ≠ 0 then .eventInterrupt isr 0 else .acknowledge isr }
  | .eventInterrupt isr reader =>
    if h : reader < nEventReaders then
      some { s with
        board := storeEvents s.board (isr >>> 1) ⟨reader, h⟩
        handler := .eventInterrupt isr (reader + 1) }
    else some { s with handler := .acknowledge isr }
  | .acknowledge isr => some { s with isr := s.isr &&& ~~~isr, handler := .idle }

/-- One step; `none` if it cannot be taken there. -/
def step (s : State) : Action → Option State
  | .fire source => some { s with isr := s.isr ||| BitVec.twoPow 32 source }
  | .amcPciIsr =>
    match s.handler with
    | .idle => some { s with handler := .dmaInterrupt s.isr }
    | _ => none
  | .proceed => handlerStep s
  | .openFile => some { s with files := s.files ++ [.testAndSet 0] }
  | .file i action =>
    s.files[i]?.bind fun file =>
      (fileStep s.board file action).map fun (board, file') =>
        { s with board, files := s.files.set i file' }

end Isr
end AmcPci
