import AmcPci.Memory
import AmcPci.Lib.Run

/-!
# The DMA engine and its callers (`src/driver/dma_control.c`, `src/driver/memory.c`)

Any number of threads call `amc_pci_dma_read` and `amc_pci_dma_write` on any number of files.
They share one engine, one buffer, one mutex and one completion. The engine runs by itself: a
write to `btt` starts a transfer, which ends some time later and raises an interrupt, and
`dma_interrupt` runs some time after that. A reset takes a running transfer down.

A transfer is known by its place among all that were ever programmed. The completion does not
know it: `dma_done` is a count, as in the kernel.

`reset_dma_controller` starts by writing `CDMACR_Reset` alone, which takes the two interrupt enable
bits down, and puts them back at its end, which it does not come to if the reset is late. From then
until the next reset that is in time a transfer ends without an interrupt.
-/

namespace AmcPci
namespace Dma

/-- The registers of the engine, and what it has done. -/
structure Engine where
  /-- Every write to `btt`, with the registers as they were. -/
  log : List Transfer
  /-- The transfer it is at; `CDMASR_Idle` is set when there is none. -/
  running : Option Nat
  /-- One of the error bits of `cdmasr` is set. -/
  error : Bool
  /-- Transfers that have ended without an error. -/
  finished : List Nat
  /-- Transfers that have ended and whose interrupt has not been handled. -/
  interrupts : List Nat
  /-- `CDMACR_IrqEn` and `CDMACR_Err_IrqEn`, which the driver only writes together. -/
  irqEnabled : Bool
deriving DecidableEq

/-- What the calls share. -/
structure Shared where
  /-- The engine behind `dma->regs`. -/
  engine : Engine
  /-- `dma_done.done`. -/
  done : Nat
  /-- `dma->mutex` is held. -/
  mutex : Bool
deriving DecidableEq

/-- What a call does next. -/
inductive Pc
  | lock
  | copyFromUser
  | syncForDevice
  | reinitCompletion
  | checkAligned
  | maybeReset
  | resetController
  | program
  | waitForCompletion (transfer : Nat)
  | checkStatus (transfer : Nat)
  | copyToUser
  | unlock (rc : Int)
  | returned (rc : Int)
deriving DecidableEq

/-- One call of `amc_pci_dma_read` or `amc_pci_dma_write`, from where it asks for the lock. -/
structure Call where
  /-- The file it was made on. -/
  file : Nat
  /-- What it asks `dma_operation_unlocked` for. -/
  request : Request
  /-- What it does next. -/
  pc : Pc
  /-- For the proofs only: the transfer this call programmed and the count it was told, once
      `dma_operation_unlocked` has returned one. -/
  result : Option (Nat × Size)
deriving DecidableEq

/-- What a call does, or what happens to it, with the answer it gets from outside. -/
inductive CallAction
  /-- The call's next step, where nothing outside has a say in it. -/
  | proceed
  /-- The answer of `copy_from_user` or `copy_to_user`: the bytes that are left. -/
  | copied (left : Size)
  /-- The reset has ended, or has not in time; then the transfer may be gone or not. -/
  | reset (ok gone : Bool)
  /-- A fatal signal. -/
  | kill
deriving DecidableEq

/-! ## The engine -/

/-- The write to `btt`, which starts the transfer that the other registers describe. -/
def Engine.write (e : Engine) (t : Transfer) : Engine :=
  { e with log := e.log ++ [t], running := some e.log.length }

/-- The running transfer ends, and raises its interrupt if it may. -/
def Engine.finish (e : Engine) (ok : Bool) : Option Engine :=
  e.running.map fun t =>
    { e with
      running := none
      error := e.error || !ok
      finished := if ok then e.finished ++ [t] else e.finished
      interrupts := if e.irqEnabled then e.interrupts ++ [t] else e.interrupts }

/-- A reset that is in time, with the write that puts the interrupt enables back. -/
def Engine.reset (e : Engine) : Engine :=
  { e with running := none, error := false, irqEnabled := true }

/-- A reset that is late. -/
def Engine.resetLate (e : Engine) (gone : Bool) : Engine :=
  { e with running := if gone then none else e.running, irqEnabled := false }

/-! ## One call -/

/-- `return rc` from a place where the mutex is held. -/
def Call.leave (c : Call) (rc : Int) : Call := { c with pc := .unlock rc }

/-- The call goes on. -/
def Call.goto (c : Call) (pc : Pc) : Call := { c with pc }

/-- The tail of `dma_operation_unlocked`, and what its caller makes of the count. -/
def Call.complete (dma : DmaControl) (c : Call) (transfer : Nat) : Call :=
  let count := clipCount dma c.request.dmaCount
  let c := { c with result := some (transfer, count) }
  if isPositive count then
    match c.request.dir with
    | .toDevice => c.leave count.toInt
    | .fromDevice => c.goto .copyToUser
  else c.leave count.toInt

/-- `configure_dma_engine`. -/
def configureStep (dma : DmaControl) (s : Shared) (c : Call) :
    Pc → CallAction → Option (Shared × Call)
  | .checkAligned, .proceed =>
    some (s, if transferAligned dma (c.request.transfer dma) then c.goto .maybeReset
      else c.leave (-einval))
  | .maybeReset, .proceed =>
    some (s, if s.engine.error || s.engine.running.isSome then c.goto .resetController
      else c.goto .program)
  | .resetController, .reset ok gone =>
    if ok then some ({ s with engine := s.engine.reset }, c.goto .program)
    else some ({ s with engine := s.engine.resetLate gone }, c.leave (-eio))
  | .program, .proceed =>
    some ({ s with engine := s.engine.write (c.request.transfer dma) },
      c.goto (.waitForCompletion s.engine.log.length))
  | _, _ => none

/-- `dma_operation_unlocked`. -/
def operationStep (dma : DmaControl) (s : Shared) (c : Call) :
    Pc → CallAction → Option (Shared × Call)
  | .syncForDevice, .proceed => some (s, c.goto .reinitCompletion)
  | .reinitCompletion, .proceed => some ({ s with done := 0 }, c.goto .checkAligned)
  -- wait_for_completion_killable looks for the completion before it looks for the signal
  | .waitForCompletion transfer, .proceed =>
    if s.done = 0 then none
    else some ({ s with done := s.done - 1 }, c.goto (.checkStatus transfer))
  | .waitForCompletion _, .kill =>
    if s.done = 0 then some (s, c.leave (-erestartsys)) else none
  | .checkStatus transfer, .proceed =>
    some (s, if s.engine.error then c.leave (-eio) else c.complete dma transfer)
  | pc, a => configureStep dma s c pc a

/-- `amc_pci_dma_read` and `amc_pci_dma_write`, from the lock on. -/
def fileStep (dma : DmaControl) (s : Shared) (c : Call) :
    Pc → CallAction → Option (Shared × Call)
  | .lock, .proceed =>
    if s.mutex then none
    else some ({ s with mutex := true }, c.goto (match c.request.dir with
      | .toDevice => .copyFromUser
      | .fromDevice => .syncForDevice))
  | .copyFromUser, .copied left =>
    if left > c.request.count then none
    else some (s, if isPositive (c.request.count - left) then c.goto .syncForDevice
      else c.leave (-efault))
  | .copyToUser, .copied left =>
    let count := userCount c.request (clipCount dma c.request.dmaCount)
    if left > count then none
    else some (s, c.leave (if isPositive (count - left) then (count - left).toInt else -efault))
  | .unlock rc, .proceed => some ({ s with mutex := false }, c.goto (.returned rc))
  | pc, a => operationStep dma s c pc a

/-- One step of a call. -/
def callStep (dma : DmaControl) (s : Shared) (c : Call) (a : CallAction) :
    Option (Shared × Call) :=
  fileStep dma s c c.pc a

/-! ## The device -/

/-- How far `terminate_board` is: interrupts, then the mapping, then the pages. -/
inductive Removal
  | attached
  | interruptsOff
  | unmapped
  | freed
deriving DecidableEq

/-- One open of the device, with what `file->private_data` points to. -/
structure File where
  context : MemoryContext
  isOpen : Bool
deriving DecidableEq

/-- One device, with all that was ever opened and called on it. -/
structure State where
  shared : Shared
  files : List File
  calls : List Call
  removal : Removal
deriving DecidableEq

/-- What happens on the device, one step at a time. -/
inductive Action
  | openFile (context : MemoryContext)
  | release (f : Nat)
  /-- A call of `amc_pci_dma_read` is made, at a file position and with a count. -/
  | read (f : Nat) (offset count : Size)
  /-- A call of `amc_pci_dma_write`. -/
  | write (f : Nat) (offset count : Size)
  /-- The next step of a call. -/
  | call (i : Nat) (action : CallAction)
  /-- The engine ends its transfer. -/
  | engine (ok : Bool)
  /-- The handler gets to a pending interrupt. -/
  | dmaInterrupt (k : Nat)
  /-- The next step of `terminate_board`. -/
  | terminate
deriving DecidableEq

/-- After `initialise_dma_control`, whose last act is a reset that was in time. -/
def initial : State := ⟨⟨⟨[], none, false, [], [], true⟩, 0, false⟩, [], [], .attached⟩

/-- A call begins, unless it returns before it takes the lock. -/
def begin (s : State) (f : Nat) (request : MemoryContext → Except Int Request) : Option State :=
  s.files[f]?.bind fun file =>
    if file.isOpen then
      match request file.context with
      | .error _ => some s
      | .ok request => some { s with calls := s.calls ++ [⟨f, request, .lock, none⟩] }
    else none

/-- A call that has given its result to the user. -/
def Call.hasReturned (c : Call) : Bool :=
  match c.pc with
  | .returned _ => true
  | _ => false

/-- One step of the device; `none` if it cannot be taken there. -/
def step (dma : DmaControl) (s : State) : Action → Option State
  | .openFile context =>
    if s.removal = .attached then some { s with files := s.files ++ [⟨context, true⟩] } else none
  | .release f =>
    s.files[f]?.bind fun file =>
      if file.isOpen && s.calls.all fun c => c.file != f || c.hasReturned then
        some { s with files := s.files.set f { file with isOpen := false } }
      else none
  | .read f offset count => begin s f fun context => readRequest dma context offset count
  | .write f offset count => begin s f fun context => writeRequest dma context offset count
  | .call i action =>
    s.calls[i]?.bind fun c =>
      (callStep dma s.shared c action).map fun (shared, c') =>
        { s with shared, calls := s.calls.set i c' }
  | .engine ok =>
    (s.shared.engine.finish ok).map fun engine => { s with shared := { s.shared with engine } }
  | .dmaInterrupt k =>
    if s.removal = .attached ∧ k < s.shared.engine.interrupts.length then
      some { s with shared := { s.shared with
        engine := { s.shared.engine with interrupts := s.shared.engine.interrupts.eraseIdx k }
        done := s.shared.done + 1 } }
    else none
  | .terminate =>
    match s.removal with
    | .attached =>
      -- wait_for_clients has seen the last file go
      if s.files.all fun file => !file.isOpen then some { s with removal := .interruptsOff }
      else none
    | .interruptsOff => some { s with removal := .unmapped }
    | .unmapped => some { s with removal := .freed }
    | .freed => none

end Dma
end AmcPci
