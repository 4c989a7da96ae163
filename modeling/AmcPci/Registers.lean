import AmcPci.Kernel
import AmcPci.Interrupts
import AmcPci.Lib.Run

/-!
# Register handles (`src/driver/registers.c`)

A board has one register file, which any number of clients may open. Each open handle has an
event reader of its own, and one of them may lock the board for itself.

`RegisterFile` is where one such `struct file` is in its life: in one of the calls of
`amc_pci_reg_open`, open, in one of the calls of `amc_pci_reg_release`, or over. `fileStep` is
the next thing it does to what all handles share, and one interleaving is a list of these. A
critical section under `locking->mutex` is one step, as the mutex makes it; everything the
reader slots see is one atomic operation a step.

Two ghosts stand beside the state, and no step looks at them: `stored` grows where events are put
into a slot and starts again where an open resets it, and `returned` grows where
`read_interrupt_events` returns 0 with a mask, not where the mask is taken.
-/

namespace AmcPci
namespace Registers

/-- `struct register_locking`. The owner is known by the address of its context. -/
structure RegisterLocking where
  referenceCount : BitVec 32
  lockedBy : Option Nat

/-- What the handles of one board share. -/
structure Board where
  control : InterruptControl
  locking : RegisterLocking
  /-- The addresses at which a `register_context` is allocated. -/
  heap : Nat → Bool
  /-- For the proofs only: all events stored into a slot since it was last reset. -/
  stored : Reader → BitVec 32

/-- A handle that `amc_pci_reg_open` returned 0 for. -/
structure Handle where
  /-- Address of its `register_context`. -/
  context : Nat
  readerNumber : Reader
  /-- Blocking reads asleep in `wait_event_interruptible`. -/
  waiting : Nat
  /-- What the last call on it returned. -/
  rc : Int
  /-- For the proofs only: the masks its reads have returned, put together. -/
  returned : BitVec 32

/-- One `struct file` of the register device; each state names what it does next. -/
inductive RegisterFile
  | testAndSet (bit : Nat)
  | resetEvents (reader : Reader)
  | kmalloc (reader : Reader)
  | countIn (reader : Reader) (context : Nat)
  | kfree (reader : Reader) (context : Nat) (rc : Int)
  | unassign (reader : Reader) (rc : Int)
  | failed (rc : Int)
  | live (handle : Handle)
  | releaseUnassign (reader : Reader) (context : Nat)
  | releaseKfree (context : Nat)
  | released

/-- What a client, or the kernel on its behalf, does with one file. -/
inductive FileAction
  | proceed
  | kmalloc (address : Option Nat)
  | lock
  | unlock
  | readNoWait
  | read
  | wake (signal : Bool)
  | release

/-- The step evaluates the `atomic_xchg` of `read_interrupt_events` once. -/
def FileAction.isRead : FileAction → Bool
  | .readNoWait => true
  | .read => true
  | .wake _ => true
  | _ => false

/-! ## The critical sections -/

/-- `lock_register`. -/
def lockRegister (locking : RegisterLocking) (context : Nat) : Int × RegisterLocking :=
  if locking.referenceCount > 1 then (-ebusy, locking)
  else if locking.lockedBy.isSome then (-ebusy, locking)
  else (0, { locking with lockedBy := some context })

/-- `unlock_register`. -/
def unlockRegister (locking : RegisterLocking) (context : Nat) : Int × RegisterLocking :=
  if locking.lockedBy = some context then (0, { locking with lockedBy := none })
  else (-einval, locking)

/-- The critical section of `amc_pci_reg_open`; `none` when it jumps to `locked`. -/
def countIn (locking : RegisterLocking) : Option RegisterLocking :=
  if locking.lockedBy.isSome then none
  else some { locking with referenceCount := locking.referenceCount + 1 }

/-- The critical section of `amc_pci_reg_release`. -/
def countOut (locking : RegisterLocking) (context : Nat) : RegisterLocking where
  referenceCount := locking.referenceCount - 1
  lockedBy := if locking.lockedBy = some context then none else locking.lockedBy

/-! ## One file -/

/-- One evaluation of the condition a reader waits for: it takes whatever is pending. -/
def takeEvents (board : Board) (handle : Handle) : BitVec 32 × Board :=
  let (events, control) := board.control.atomicXchg handle.readerNumber
  (events, { board with control })

/-- `read_interrupt_events` returns 0, with a mask. -/
def Handle.readReturns (handle : Handle) (events : BitVec 32) : Handle :=
  { handle with rc := 0, returned := handle.returned ||| events }

/-- The next thing a file does; `none` if it cannot do that there. -/
def fileStep (board : Board) : RegisterFile → FileAction → Option (Board × RegisterFile)
  -- assign_reader_number
  | .testAndSet bit, .proceed =>
    if h : bit < nEventReaders then
      let (taken, control) := board.control.testAndSetBit ⟨bit, h⟩
      some ({ board with control }, if taken then .testAndSet (bit + 1) else .resetEvents ⟨bit, h⟩)
    else some (board, .failed (-eio))
  | .resetEvents reader, .proceed =>
    some ({ board with
      control := board.control.atomicSet reader 0
      stored := Function.update board.stored reader 0 }, .kmalloc reader)
  -- the rest of amc_pci_reg_open
  | .kmalloc reader, .kmalloc none => some (board, .unassign reader (-enomem))
  | .kmalloc reader, .kmalloc (some context) =>
    -- the allocator never hands out what is in use
    if board.heap context then none
    else some ({ board with heap := Function.update board.heap context true },
      .countIn reader context)
  | .countIn reader context, .proceed =>
    match countIn board.locking with
    | none => some (board, .kfree reader context (-ebusy))
    | some locking => some ({ board with locking }, .live ⟨context, reader, 0, 0, 0⟩)
  | .kfree reader context rc, .proceed =>
    some ({ board with heap := Function.update board.heap context false }, .unassign reader rc)
  | .unassign reader rc, .proceed =>
    some ({ board with control := board.control.clearBit reader }, .failed rc)
  -- amc_pci_reg_ioctl
  | .live handle, .lock =>
    let (rc, locking) := lockRegister board.locking handle.context
    some ({ board with locking }, .live { handle with rc })
  | .live handle, .unlock =>
    let (rc, locking) := unlockRegister board.locking handle.context
    some ({ board with locking }, .live { handle with rc })
  -- read_interrupt_events
  | .live handle, .readNoWait =>
    let (events, board) := takeEvents board handle
    some (board, .live (handle.readReturns events))
  | .live handle, .read =>
    let (events, board) := takeEvents board handle
    if events ≠ 0 then some (board, .live (handle.readReturns events))
    else some (board, .live { handle with waiting := handle.waiting + 1 })
  | .live handle, .wake signal =>
    if handle.waiting = 0 then none
    else
      let (events, board) := takeEvents board handle
      let waiting := handle.waiting - 1
      -- the condition is looked at before the signal
      if events ≠ 0 then some (board, .live ({ handle with waiting }.readReturns events))
      else if signal then some (board, .live { handle with waiting, rc := -erestartsys })
      else some (board, .live handle)
  -- amc_pci_reg_release, once no call on the file is left
  | .live handle, .release =>
    if handle.waiting = 0 then
      some ({ board with locking := countOut board.locking handle.context },
        .releaseUnassign handle.readerNumber handle.context)
    else none
  | .releaseUnassign reader context, .proceed =>
    some ({ board with control := board.control.clearBit reader }, .releaseKfree context)
  | .releaseKfree context, .proceed =>
    some ({ board with heap := Function.update board.heap context false }, .released)
  | _, _ => none

/-! ## The board -/

/-- A call of `event_interrupt` that still has readers to go through. -/
structure EventInterrupt where
  events : BitVec 32
  reader : Nat

/-- One board, with all files that were ever opened and all interrupts that ever came. -/
structure State where
  board : Board
  files : List RegisterFile
  interrupts : List EventInterrupt

/-- What happens on the board, one step at a time. -/
inductive Action
  | openFile
  | file (i : Nat) (action : FileAction)
  | eventInterrupt (events : BitVec 32)
  | atomicOr (k : Nat)

/-- Before the first handle is opened. -/
def initial : State where
  board := ⟨.initial, ⟨0, none⟩, fun _ => false, fun _ => 0⟩
  files := []
  interrupts := []

/-- One turn of the loop of `event_interrupt`. -/
def storeEvents (board : Board) (events : BitVec 32) (reader : Reader) : Board :=
  { board with
    control := board.control.atomicOr events reader
    stored := Function.update board.stored reader (board.stored reader ||| events) }

/-- One step of the board. -/
def step (s : State) : Action → Option State
  | .openFile => some { s with files := s.files ++ [.testAndSet 0] }
  | .file i action =>
    s.files[i]?.bind fun file =>
      (fileStep s.board file action).map fun (board, file') =>
        { s with board, files := s.files.set i file' }
  | .eventInterrupt events => some { s with interrupts := s.interrupts ++ [⟨events, 0⟩] }
  | .atomicOr k =>
    s.interrupts[k]?.bind fun call =>
      if h : call.reader < nEventReaders then
        some { s with
          board := storeEvents s.board call.events ⟨call.reader, h⟩
          interrupts := s.interrupts.set k { call with reader := call.reader + 1 } }
      else none

end Registers
end AmcPci
