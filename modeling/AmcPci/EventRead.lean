import AmcPci.Registers

/-!
# Reading the events (`amc_pci_reg_read`)

One call of `amc_pci_reg_read` in `src/driver/registers.c`, with `read_interrupt_events` of
`src/driver/interrupts.c`. `AmcPci.Registers` looks at such a read as the one atomic exchange that
takes the events; here is the rest of it, the checks before the exchange and the copy after, with
every way out.

Around the call the board goes on as it does there: other handles are opened, read and released,
interrupts store events, and other threads read from the same handle. Only the release of the
handle itself has to wait, as the kernel holds on to the file while a call is using it.
-/

namespace AmcPci
namespace EventRead

open Registers (Handle takeEvents)

/-- What the client asks for. -/
structure Request where
  file : Nat
  count : BitVec 64
  /-- `O_NONBLOCK`. -/
  noWait : Bool

/-- How far the call has got. -/
inductive ReadCall
  | start
  | readInterruptEvents
  /-- In `wait_event_interruptible`, with no events yet. -/
  | asleep
  | copyToUser (events : BitVec 32)
  | returned (rc : Int)

/-- The board, and how far the call on it has got. -/
structure State where
  system : Registers.State
  call : ReadCall
  /-- For the proofs only: the events stored for the reader since the call. -/
  arrived : BitVec 32
  /-- For the proofs only: the events other reads on the handle have taken since the call. -/
  elsewhere : BitVec 32

/-- What happens next. -/
inductive Action
  /-- Anything that happens around the call. -/
  | other (action : Registers.Action)
  | proceed
  | wake (signal : Bool)
  /-- `copy_to_user` returns, with the number of bytes it could not copy. -/
  | copyToUser (notCopied : Nat)

/-! ## The call -/

/-- `file->private_data`. -/
def context (s : Registers.State) (file : Nat) : Option Handle :=
  match s.files[file]? with
  | some (.live handle) => some handle
  | _ => none

/-- The part of `amc_pci_reg_read` before `read_interrupt_events`. -/
def check (request : Request) (ready : Bool) : ReadCall :=
  if request.noWait && !ready then .returned (-eagain)
  else if request.count < 4 then .returned (-eio)
  else .readInterruptEvents

/-- The atomic exchange of `read_interrupt_events`, on behalf of a handle. One that finds nothing
    adds nothing to what the handle's reads have returned; one that finds events ends the read. -/
def exchange (s : Registers.State) (file : Nat) (handle : Handle) :
    BitVec 32 × Registers.State :=
  let (events, board) := takeEvents s.board handle
  let handle := { handle with returned := handle.returned ||| events }
  (events, { s with board, files := s.files.set file (.live handle) })

/-- `read_interrupt_events` after its first exchange. -/
def taken (noWait : Bool) (events : BitVec 32) : ReadCall :=
  if noWait then .copyToUser events
  else if events ≠ 0 then .copyToUser events
  else .asleep

/-- `wait_event_interruptible` after another exchange: the condition is looked at before the
    signal. -/
def woken (signal : Bool) (events : BitVec 32) : ReadCall :=
  if events ≠ 0 then .copyToUser events
  else if signal then .returned (-erestartsys)
  else .asleep

/-- The part of `amc_pci_reg_read` from `copy_to_user` on. -/
def copied (events : BitVec 32) (notCopied : Nat) : Int :=
  if notCopied > 0 then -efault
  else if events = 0 then -eagain
  else 4

/-! ## What happens around it -/

/-- The kernel does not release a file that a call is using. -/
def releases (file : Nat) : Registers.Action → Bool
  | .file i .release => i == file
  | _ => false

/-- The events an action stores for a reader. -/
def arriving (s : Registers.State) (reader : Reader) : Registers.Action → BitVec 32
  | .atomicOr k =>
    match s.interrupts[k]? with
    | some call => if call.reader = reader then call.events else 0
    | none => 0
  | _ => 0

/-- The events another read on the handle takes. -/
def leaving (s : Registers.State) (file : Nat) (reader : Reader) : Registers.Action → BitVec 32
  | .file i action => if i = file ∧ action.isRead then s.board.control.events reader else 0
  | _ => 0

/-- A step of what is around the call. -/
def otherStep (request : Request) (s : State) (action : Registers.Action) : Option State :=
  if releases request.file action then none
  else
    (context s.system request.file).bind fun handle =>
      (Registers.step s.system action).map fun system =>
        { s with
          system
          arrived := s.arrived ||| arriving s.system handle.readerNumber action
          elsewhere := s.elsewhere ||| leaving s.system request.file handle.readerNumber action }

/-- One step of the call, or of what is around it, until the call returns. -/
def step (request : Request) (s : State) (action : Action) : Option State :=
  match s.call, action with
  | .returned _, _ => none
  | _, .other action => otherStep request s action
  | .start, .proceed =>
    (context s.system request.file).map fun handle =>
      { s with
        call := check request (s.system.board.control.interruptEventsReady handle.readerNumber) }
  | .readInterruptEvents, .proceed =>
    (context s.system request.file).map fun handle =>
      let (events, system) := exchange s.system request.file handle
      { s with system, call := taken request.noWait events }
  | .asleep, .wake signal =>
    (context s.system request.file).map fun handle =>
      let (events, system) := exchange s.system request.file handle
      { s with system, call := woken signal events }
  | .copyToUser events, .copyToUser notCopied =>
    some { s with call := .returned (copied events notCopied) }
  | _, _ => none

/-- A call that has just been made. -/
def initial (system : Registers.State) : State := ⟨system, .start, 0, 0⟩

/-! ## What it is for -/

/-- The events pending for the reader of a file. -/
def pending (s : Registers.State) (file : Nat) : BitVec 32 :=
  match context s file with
  | some handle => s.board.control.events handle.readerNumber
  | none => 0

/-- Every event of the one is among the other. -/
def Within (events kept : BitVec 32) : Prop :=
  ∀ i, events.getLsbD i = true → kept.getLsbD i = true

/-- When the call has failed, what was pending when it was made and what has arrived since is
    still pending, or another read on the handle has it. -/
def LosesNothing (request : Request) (before : Registers.State) (s : State) : Prop :=
  ∀ rc, s.call = .returned rc → rc < 0 →
    Within (pending before request.file ||| s.arrived)
      (pending s.system request.file ||| s.elsewhere)

end EventRead
end AmcPci
