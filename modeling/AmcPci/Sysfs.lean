import AmcPci.PromProcessing
import AmcPci.Lib.Run

/-!
# The PROM files in sysfs, while the board goes away (`src/driver/amc_pci_core.c`)

A board shows its PROM in two files of sysfs: `prom_used` is the copy in memory that was loaded,
`prom` reads BAR2 again. Their reads are not clients in the sense of `AmcPci.Core`: no count keeps
the board for them. What does is `sysfs_remove_bin_file`, which returns when no read of the file
is left and lets none start afterwards.

Any number of reads interleave with the steps of `amc_pci_remove`, a byte of `memcpy` and a word of
`ioread32` at a time. What a read looks at comes first, the bytes it brings are at the end.
-/

namespace AmcPci
namespace Sysfs

open Lib

/-- What a read may look at. -/
inductive Resource
  /-- `struct amc_pci`. -/
  | privateState
  /-- `struct prom_context`. -/
  | promContext
  /-- The mapping of BAR2. -/
  | bar2
deriving DecidableEq

/-- The two files. -/
inductive BinFile
  | promUsed
  | prom
deriving DecidableEq

/-- How far a read has got. -/
inductive ReadPc
  /-- `prom_used_read` or `prom_read` is called. -/
  | entry
  /-- In the loop that copies, `i` bytes in. -/
  | copy (i : Nat)
  | returned (rc : Int)
deriving DecidableEq

/-- One read of a file, with what sysfs passes to it. -/
structure Read where
  file : BinFile
  off : Nat
  count : Nat
  pc : ReadPc
deriving DecidableEq

/-- `size` in `prom_used_read`, and in `read_prom`. -/
def Read.size (r : Read) : Nat :=
  match r.file with
  | .promUsed => min r.count (promMaxLength - r.off)
  | .prom => min (promMaxLength - r.off / 4 * 4) r.count

/-- What one turn of the copy loop brings. -/
def Read.unit (r : Read) : Nat :=
  match r.file with
  | .promUsed => 1
  | .prom => 4

/-- What the next step of a read looks at. -/
def Read.accesses (r : Read) : List Resource :=
  match r.pc with
  | .entry =>
    match r.file with
    | .promUsed => if r.off > promMaxLength then [] else [.privateState]
    | .prom => [.privateState]
  | .copy i =>
    if i < r.size then
      match r.file with
      | .promUsed => [.promContext]
      | .prom => [.promContext, .bar2]
    else []
  | .returned _ => []

/-- The read goes on. -/
def Read.goto (r : Read) (pc : ReadPc) : Read := { r with pc }

/-- Its next step, with no word on what it looks at. -/
def Read.next (r : Read) : Option Read :=
  match r.pc with
  | .entry =>
    if r.off > promMaxLength then some (r.goto (.returned (-einval))) else some (r.goto (.copy 0))
  | .copy i =>
    if i < r.size then some (r.goto (.copy (i + r.unit))) else some (r.goto (.returned r.size))
  | .returned _ => none

/-- It has not returned, so `sysfs_remove_bin_file` waits for it. -/
def Read.running (r : Read) : Bool :=
  match r.pc with
  | .returned _ => false
  | _ => true

/-- What `amc_pci_remove` does next, with the calls in `terminate_board` for themselves. -/
inductive Remover
  | destroyDeviceNodes
  | waitForClients
  | terminateInterruptControl
  | terminateDmaControl
  | releasePromContext
  | pciIounmap
  | disableBoard
  | releaseBoard
  | removePromUsed
  | removeProm
  | kfree
  | done
deriving DecidableEq

/-- The removal of one board, with all reads that were ever made. -/
structure State where
  remover : Remover
  live : Resource → Bool
  /-- `sysfs_remove_bin_file` has not returned for the file. -/
  registered : BinFile → Bool
  reads : List Read

/-- What happens next, one step at a time. -/
inductive Action
  | start (file : BinFile) (off count : Nat)
  | read (i : Nat)
  | remove
deriving DecidableEq

/-- After a successful probe. -/
def initial : State := ⟨.destroyDeviceNodes, fun _ => true, fun _ => true, []⟩

/-- `sysfs_remove_bin_file`, once the running reads have drained. -/
def removeBinFile (s : State) (file : BinFile) (remover : Remover) : Option State :=
  if s.reads.any fun r => r.file == file && r.running then none
  else some { s with remover, registered := Function.update s.registered file false }

/-- The next step of `amc_pci_remove`. -/
def removeStep (s : State) : Option State :=
  match s.remover with
  | .destroyDeviceNodes => some { s with remover := .waitForClients }
  | .waitForClients => some { s with remover := .terminateInterruptControl }
  | .terminateInterruptControl => some { s with remover := .terminateDmaControl }
  | .terminateDmaControl => some { s with remover := .releasePromContext }
  | .releasePromContext =>
    some { s with remover := .pciIounmap, live := Function.update s.live .promContext false }
  | .pciIounmap =>
    some { s with remover := .disableBoard, live := Function.update s.live .bar2 false }
  | .disableBoard => some { s with remover := .releaseBoard }
  | .releaseBoard => some { s with remover := .removePromUsed }
  | .removePromUsed => removeBinFile s .promUsed .removeProm
  | .removeProm => removeBinFile s .prom .kfree
  | .kfree => some { s with remover := .done, live := Function.update s.live .privateState false }
  | .done => none

/-- One step; `none` if it cannot be taken there. -/
def step (s : State) : Action → Option State
  | .start file off count =>
    if s.registered file then some { s with reads := s.reads ++ [⟨file, off, count, .entry⟩] }
    else none
  | .read i => s.reads[i]?.bind fun r => r.next.map fun r' => { s with reads := s.reads.set i r' }
  | .remove => removeStep s

/-! ## What a read brings -/

/-- `prom_used_read`. -/
def promUsedRead (prom : PromContext) (buff : Nat → UInt8) (off count : Nat) :
    Int × (Nat → UInt8) :=
  if off > promMaxLength then (-einval, buff)
  else
    let size := min count (promMaxLength - off)
    (size, memcpy buff 0 (peek prom.buff off size))

/-- `prom_read`. -/
def promRead (prom : PromContext) (buff : Nat → UInt8) (off count : Nat) : Int × (Nat → UInt8) :=
  readProm prom.base buff off count

/-- A file read by a client from `off` on, in reads of these counts, each of which starts where
    the one before it has ended. -/
def readFile (read : Nat → Nat → Int × (Nat → UInt8)) : Nat → List Nat → List UInt8
  | _, [] => []
  | off, count :: counts =>
    let r := read off count
    peek r.2 0 r.1.toNat ++ readFile read (off + r.1.toNat) counts

end Sysfs
end AmcPci
