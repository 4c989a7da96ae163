import AmcPci.PromProcessing
import AmcPci.Lib.Run

/-!
# Opening, releasing and removing a board (`src/driver/amc_pci_core.c`)

`struct amc_pci` may go away while clients still hold files on it. A count keeps it alive: one
for the device itself and one for each client that `amc_pci_open` has let in. `amc_pci_remove`
drops the first and waits for a completion that whoever drops the last one signals.

A client is one `struct file`, and its steps interleave with the others' and with the removal.
What the rest of the driver and the kernel answer on the way (the PROM entry of the minor, the
outcome of the device specific open) is part of the action and arbitrary.

`atomic_t` has 32 bits and is modelled by `Int`, as the count cannot wrap: before `amc_pci_open` is
called for a file the kernel takes two references to the module, whose own 32-bit counter lets
nobody in once it is at zero, so there are fewer than 2^31 files at a time. The completion's `done` is a
number as in the kernel.
-/

namespace AmcPci
namespace Core

/-- `file->f_flags & O_ACCMODE`. -/
inductive AccMode
  | rdonly
  | wronly
  | rdwr
deriving DecidableEq

/-- `PROM_PERM_CAN_READ`. -/
def promPermCanRead (perm : UInt8) : Bool := perm &&& 4 != 0

/-- `PROM_PERM_CAN_WRITE`. -/
def promPermCanWrite (perm : UInt8) : Bool := perm &&& 2 != 0

/-- `validate_file_permission`. -/
def validateFilePermission (mode : AccMode) (canRead canWrite : Bool) : Bool :=
  if canRead && mode == .rdonly then true
  else if canWrite && mode == .wronly then true
  else if canRead && canWrite && mode == .rdwr then true
  else false

/-- What `amc_pci_open` is told once it is counted in. -/
structure OpenAnswers where
  /-- `prom_find_entry_with_minor`. -/
  entry : Option PromEntry
  mode : AccMode
  /-- Returned by `amc_pci_reg_open`. -/
  regOpen : Int
  /-- Returned by `amc_pci_dma_open`. -/
  dmaOpen : Int

/-- `amc_pci_open` between the increment and the test of `rc`. -/
def deviceOpen (answers : OpenAnswers) : Int :=
  match answers.entry with
  | none => -einval
  | some (.device _) => answers.regOpen
  | some (.dma _ _ perm _) =>
    if validateFilePermission answers.mode (promPermCanRead perm) (promPermCanWrite perm) then
      answers.dmaOpen
    else -eacces
  | some (.dmaExt _ _ perm _) =>
    if validateFilePermission answers.mode (promPermCanRead perm) (promPermCanWrite perm) then
      answers.dmaOpen
    else -eacces
  | some _ => -einval

/-- Where one client is. -/
inductive Client
  /-- In `amc_pci_open`, not counted yet. -/
  | incNotZero
  /-- Counted, about to look up its minor. -/
  | deviceOpen
  /-- The device specific open failed. -/
  | errorRelease (rc : Int)
  | opened
  /-- In the device's own `release`, which ends in `amc_pci_release`. -/
  | releasing
  | failed (rc : Int)
  | closed
deriving DecidableEq

/-- What `amc_pci_remove` does next. -/
inductive Remover
  | destroyDeviceNodes
  | decAndTest
  | waitForCompletion
  | terminateBoard
  | disableBoard
  | releaseBoard
  | sysfsRemove
  | kfree
  | done
deriving DecidableEq

/-- One board, with all that was ever opened on it. -/
structure State where
  /-- One for the device, as long as it is not removed, and one for each client that is counted. -/
  refcount : Int
  /-- `completion.done`. -/
  done : Nat
  /-- For the proofs only: how often `complete` was called. -/
  signals : Nat
  /-- `none` until the device is removed. -/
  remover : Option Remover
  clients : List Client
deriving DecidableEq

/-- After a successful probe. -/
def initial : State := ⟨1, 0, 0, none, []⟩

/-- `if (atomic_dec_and_test(&refcount)) complete(&completion);`, the body of `amc_pci_release`
    and the first half of `wait_for_clients`. -/
def release (s : State) : State :=
  if s.refcount - 1 = 0 then
    { s with refcount := s.refcount - 1, done := s.done + 1, signals := s.signals + 1 }
  else { s with refcount := s.refcount - 1 }

/-- What a client, or the kernel on its behalf, does next. -/
inductive ClientAction
  | incNotZero
  | deviceOpen (answers : OpenAnswers)
  | release

/-- What happens on the board, one step at a time. -/
inductive Action
  | openFile
  | client (i : Nat) (action : ClientAction)
  | remove

/-- The next step of a client. -/
def clientStep (s : State) : Client → ClientAction → Option (State × Client)
  | .incNotZero, .incNotZero =>
    -- `amc_priv` is still there
    if s.remover = some .done then none
    else if s.refcount = 0 then some (s, .failed (-enxio))
    else some ({ s with refcount := s.refcount + 1 }, .deviceOpen)
  | .deviceOpen, .deviceOpen answers =>
    let rc := deviceOpen answers
    some (s, if rc < 0 then .errorRelease rc else .opened)
  | .errorRelease rc, .release => some (release s, .failed rc)
  | .opened, .release => some (s, .releasing)
  | .releasing, .release => some (release s, .closed)
  | _, _ => none

/-- The next step of `amc_pci_remove`. -/
def removeStep (s : State) : Option State :=
  match s.remover with
  | none => some { s with remover := some .destroyDeviceNodes }
  | some .destroyDeviceNodes => some { s with remover := some .decAndTest }
  | some .decAndTest => some { release s with remover := some .waitForCompletion }
  | some .waitForCompletion =>
    if s.done = 0 then none
    else some { s with done := s.done - 1, remover := some .terminateBoard }
  | some .terminateBoard => some { s with remover := some .disableBoard }
  | some .disableBoard => some { s with remover := some .releaseBoard }
  | some .releaseBoard => some { s with remover := some .sysfsRemove }
  | some .sysfsRemove => some { s with remover := some .kfree }
  | some .kfree => some { s with remover := some .done }
  | some .done => none

/-- One step of the board; `none` if it cannot be taken there. -/
def step (s : State) : Action → Option State
  | .openFile => some { s with clients := s.clients ++ [.incNotZero] }
  | .client i action =>
    s.clients[i]?.bind fun client =>
      (clientStep s client action).map fun (s', client') =>
        { s' with clients := s.clients.set i client' }
  | .remove => removeStep s

end Core
end AmcPci
