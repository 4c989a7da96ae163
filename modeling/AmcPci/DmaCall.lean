import AmcPci.DmaFile
import AmcPci.Lib.Run

/-!
# A call on a DMA device (`src/driver/memory.c`, `src/driver/dma_control.c`)

`amc_pci_dma_read` and `amc_pci_dma_write` from the system call to its return, with everything that
can go wrong on the way: copies that fault after any number of bytes, any reading of the engine's
registers, a reset that does not end, a kill. What the driver does to the mutex and to the engine
is kept in a log.

`AmcPci.DmaFile` has the same calls with nothing going wrong.
-/

namespace AmcPci
namespace DmaCall

open Lib
open DmaFile (Board Handle Reply)

/-! ## Registers of the engine -/

/-- `CDMACR_Reset`: written to start a reset, read as set until it has ended. -/
def cdmacrReset : BitVec 32 := 1 <<< 2

/-- `CDMASR_DMADecErr`, the first of the three error bits. -/
def cdmasrDMADecErr : BitVec 32 := 1 <<< 6
/-- `CDMASR_DMASlvErr`. -/
def cdmasrDMASlvErr : BitVec 32 := 1 <<< 5
/-- `CDMASR_DMAIntErr`. -/
def cdmasrDMAIntErr : BitVec 32 := 1 <<< 4
/-- `CDMASR_Idle`. -/
def cdmasrIdle : BitVec 32 := 1 <<< 1

/-- `error` in `check_dma_status` and in `maybe_reset_dma`. -/
def isError (cdmasr : BitVec 32) : Bool :=
  cdmasr &&& (cdmasrDMADecErr ||| cdmasrDMASlvErr ||| cdmasrDMAIntErr) != 0

/-- `idle` in `maybe_reset_dma`. -/
def isIdle (cdmasr : BitVec 32) : Bool := cdmasr &&& cdmasrIdle != 0

/-! ## One call's surroundings -/

/-- What the user's memory, the engine and the kernel answer in one call. -/
structure Answers where
  /-- The bytes `copy_from_user` or `copy_to_user` would leave, if it had so many. -/
  left : Nat
  /-- `cdmasr` before the transfer. -/
  status : BitVec 32
  /-- `cdmacr` during a reset, read before the deadline. -/
  resetting : List (BitVec 32)
  /-- `cdmacr` as it is read with the deadline past. -/
  resetStat : BitVec 32
  killed : Bool
  /-- `cdmasr` after the transfer. -/
  doneStatus : BitVec 32
  /-- The device's memory and the buffer after a transfer that was not carried out. -/
  wreck : (Nat → UInt8) × (Nat → UInt8)

/-- What the driver does to the mutex and to the engine. -/
inductive Event
  | lock
  | unlock
  /-- `maybe_reset_dma` has read `cdmasr`. -/
  | status (cdmasr : BitVec 32)
  /-- A reset, and whether it has ended in time. -/
  | reset (ok : Bool)
  /-- The write to `btt`. -/
  | btt (dir : DmaDirection) (t : Transfer)
deriving DecidableEq

/-- The board, with the log of what was done to the mutex and the engine. -/
structure Device where
  board : Board
  log : List Event

/-- The log gets one entry more. -/
def Device.record (d : Device) (e : Event) : Device := { d with log := d.log ++ [e] }

/-- A transfer that fails, or is left to itself. -/
def Device.abandon (d : Device) (a : Answers) : Device :=
  { d with board := { d.board with memory := a.wreck.1, buffer := a.wreck.2 } }

/-! ## `dma_control.c` -/

/-- The loop in `reset_dma_controller`: the last value it has read. -/
def pollReset : List (BitVec 32) → BitVec 32 → BitVec 32
  | [], late => late
  | stat :: stats, late => if stat &&& cdmacrReset = 0 then stat else pollReset stats late

/-- `reset_dma_controller`. -/
def resetDmaController (a : Answers) (d : Device) : Int × Device :=
  if pollReset a.resetting a.resetStat &&& cdmacrReset ≠ 0 then (-eio, d.record (.reset false))
  else (0, d.record (.reset true))

/-- `check_dma_status`. -/
def checkDmaStatus (a : Answers) : Int := if isError a.doneStatus then -eio else 0

/-- `maybe_reset_dma`. -/
def maybeResetDma (a : Answers) (d : Device) : Int × Device :=
  let d := d.record (.status a.status)
  if isError a.status || !isIdle a.status then resetDmaController a d else (0, d)

/-- `configure_dma_engine`: the check, the reset if there is to be one, and the write to `btt`. -/
def configureDmaEngine (dma : DmaControl) (a : Answers) (d : Device) (dir : DmaDirection)
    (t : Transfer) : Int × Device :=
  if transferAligned dma t then
    let (rc, d) := maybeResetDma a d
    if rc < 0 then (rc, d) else (rc, d.record (.btt dir t))
  else (-einval, d)

/-- `dma_operation_unlocked`. The transfer is carried out if the call sees it end well. -/
def dmaOperationUnlocked (dma : DmaControl) (a : Answers) (d : Device) (r : Request) :
    Except Int Size × Device :=
  let t := r.transfer dma
  let (rc, d) := configureDmaEngine dma a d r.dir t
  if rc < 0 then (.error rc, d)
  else if a.killed then (.error (-erestartsys), d.abandon a)
  else
    let rc := checkDmaStatus a
    if rc ≠ 0 then (.error rc, d.abandon a)
    else (.ok t.count, { d with board := d.board.transfer dma r.dir t })

/-! ## `memory.c` -/

/-- `copy_from_user`, with what it leaves: the bytes that could not be read are zero. -/
def copyFromUser (a : Answers) (d : Device) (buf : Nat → UInt8) (count : Size) : Size × Device :=
  let left := min a.left count.toNat
  let copied := peek buf 0 (count.toNat - left) ++ List.replicate left 0
  (BitVec.ofNat 64 left,
    { d with board := { d.board with buffer := memcpy d.board.buffer 0 copied } })

/-- `copy_to_user`, with what it leaves. -/
def copyToUser (a : Answers) (d : Device) (p : Size) (count : Size) : Size × List UInt8 :=
  let left := min a.left count.toNat
  (BitVec.ofNat 64 left, peek d.board.buffer p.toNat (count.toNat - left))

/-- From the lock to the unlock of `amc_pci_dma_write`: what is left to return. -/
def writeLocked (dma : DmaControl) (a : Answers) (d : Device) (r : Request) (buf : Nat → UInt8) :
    Except Int Size × Device :=
  let (left, d) := copyFromUser a d buf r.count
  if isPositive (r.count - left) then
    match dmaOperationUnlocked dma a d r with
    | (.error rc, d) => (.error rc, d)
    | (.ok dmaWriteCount, d) =>
      if isPositive dmaWriteCount then (.ok dmaWriteCount, d) else (.error dmaWriteCount.toInt, d)
  else (.error (-efault), d)

/-- `amc_pci_dma_write`: what it returns, and the board and the handle after it. -/
def amcPciDmaWrite (dma : DmaControl) (a : Answers) (d : Device) (h : Handle) (buf : Nat → UInt8)
    (count : Size) : Reply × Device × Handle :=
  match writeRequest dma h.context h.fPos count with
  | .error rc => (⟨rc, []⟩, d, h)
  | .ok r =>
    match writeLocked dma a (d.record .lock) r buf with
    | (.error rc, d) => (⟨rc, []⟩, d.record .unlock, h)
    | (.ok n, d) => (⟨n.toInt, []⟩, d.record .unlock, { h with fPos := advance h.context h.fPos n })

/-- From the lock to the unlock of `amc_pci_dma_read`, with what reaches the user. -/
def readLocked (dma : DmaControl) (a : Answers) (d : Device) (r : Request) :
    Except Int Size × List UInt8 × Device :=
  match dmaOperationUnlocked dma a d r with
  | (.error rc, d) => (.error rc, [], d)
  | (.ok dmaReadCount, d) =>
    if isPositive dmaReadCount then
      let count := userCount r dmaReadCount
      let (left, data) := copyToUser a d r.inOffset count
      if isPositive (count - left) then (.ok (count - left), data, d)
      else (.error (-efault), data, d)
    else (.error dmaReadCount.toInt, [], d)

/-- `amc_pci_dma_read`, with what it copies to the user. -/
def amcPciDmaRead (dma : DmaControl) (a : Answers) (d : Device) (h : Handle) (count : Size) :
    Reply × Device × Handle :=
  match readRequest dma h.context h.fPos count with
  | .error rc => (⟨rc, []⟩, d, h)
  | .ok r =>
    match readLocked dma a (d.record .lock) r with
    | (.error rc, data, d) => (⟨rc, data⟩, d.record .unlock, h)
    | (.ok n, data, d) =>
      (⟨n.toInt, data⟩, d.record .unlock, { h with fPos := advance h.context h.fPos n })

/-! ## Calls one after the other -/

/-- A system call on a DMA device. -/
inductive Call
  | read (count : Size)
  | write (buf : Nat → UInt8) (count : Size)

/-- The count it is called with. -/
def Call.count : Call → Size
  | .read count => count
  | .write _ count => count

/-- The call, from its entry to its return. -/
def Call.perform (dma : DmaControl) (a : Answers) (d : Device) (h : Handle) :
    Call → Reply × Device × Handle
  | .read count => amcPciDmaRead dma a d h count
  | .write buf count => amcPciDmaWrite dma a d h buf count

/-- What a client does next. -/
inductive Action
  /-- `amc_pci_dma_open`, whatever the PROM says. -/
  | dmaOpen (context : MemoryContext)
  | call (i : Nat) (c : Call) (a : Answers)
  | seek (i : Nat) (fPos : Size)

/-- One call of one client, while no other client has one. -/
def step (dma : DmaControl) (d : Device) : Action → Option Device
  | .dmaOpen context =>
    some { d with board := { d.board with handles := d.board.handles ++ [⟨context, 0⟩] } }
  | .call i c a =>
    d.board.handles[i]?.map fun h =>
      let (_, d, h) := c.perform dma a d h
      { d with board := d.board.put i h }
  | .seek i fPos =>
    d.board.handles[i]?.map fun h => { d with board := d.board.put i { h with fPos } }

end DmaCall
end AmcPci
