import AmcPci.DmaCall
import AmcPci.Proof.DmaFile.Requests

/-!
# What one call does

What a call leaves in the log is `Call.events`, a function of the call and of the answers it is
given and of nothing else (`perform_logs`); what it returns is an error with the handle as it was, or
a positive count that moves it (`perform_outcome`).
-/

namespace AmcPci
namespace DmaCall

open Lib
open DmaFile (Board Handle Reply)

variable {dma : DmaControl} {a : Answers} {d d' : Device} {h f : Handle} {r : Request} {c : Call}
  {n count : Size} {rc : Int} {buf : Nat → UInt8}

@[simp] theorem Device.log_record (d : Device) (e : Event) : (d.record e).log = d.log ++ [e] := rfl

@[simp] theorem Device.board_record (d : Device) (e : Event) : (d.record e).board = d.board := rfl

/-! ## The engine made ready -/

/-- `maybe_reset_dma` finds the engine idle and without an error. -/
def Answers.idle (a : Answers) : Bool := !isError a.status && isIdle a.status

/-- A reset would end in time. -/
def Answers.resets (a : Answers) : Bool :=
  pollReset a.resetting a.resetStat &&& cdmacrReset == 0

/-- The engine can take a transfer. -/
def Answers.ready (a : Answers) : Bool := a.idle || a.resets

/-- What `maybe_reset_dma` does to the engine. -/
def Answers.prepare (a : Answers) : List Event :=
  if a.idle then [.status a.status] else [.status a.status, .reset a.resets]

theorem resetDmaController_eq (a : Answers) (d : Device) :
    resetDmaController a d = (if a.resets then 0 else -eio, d.record (.reset a.resets)) := by
  unfold resetDmaController
  by_cases hstat : pollReset a.resetting a.resetStat &&& cdmacrReset = 0
  · have hresets : a.resets = true := beq_iff_eq.mpr hstat
    rw [if_neg (not_not_intro hstat), hresets]
    rfl
  · have hresets : a.resets = false := beq_false_of_ne hstat
    rw [if_pos hstat, hresets]
    rfl

theorem maybeResetDma_eq (a : Answers) (d : Device) :
    maybeResetDma a d = (if a.ready then 0 else -eio, { d with log := d.log ++ a.prepare }) := by
  have hidle : (isError a.status || !isIdle a.status) = !a.idle := by
    rw [Answers.idle, Bool.not_and, Bool.not_not]
  rw [maybeResetDma, hidle, resetDmaController_eq, Answers.ready, Answers.prepare]
  cases a.idle with
  | true => rfl
  | false => simp [Device.record]

/-! ## `dma_operation_unlocked` -/

/-- What an operation does to the engine. -/
def operationEvents (dma : DmaControl) (a : Answers) (r : Request) : List Event :=
  if transferAligned dma (r.transfer dma) then
    a.prepare ++ if a.ready then [.btt r.dir (r.transfer dma)] else []
  else []

theorem configureDmaEngine_eq (dma : DmaControl) (a : Answers) (d : Device) (r : Request) :
    configureDmaEngine dma a d r.dir (r.transfer dma) =
      (if transferAligned dma (r.transfer dma) then if a.ready then 0 else -eio else -einval,
        { d with log := d.log ++ operationEvents dma a r }) := by
  rw [configureDmaEngine, maybeResetDma_eq, operationEvents]
  cases transferAligned dma (r.transfer dma) with
  | false => simp
  | true =>
    cases a.ready with
    | false => simp [eio]
    | true => simp [Device.record]

/-- How an operation ends. -/
inductive Operation (dma : DmaControl) (a : Answers) (d : Device) (r : Request) :
    Except Int Size × Device → Prop
  /-- It is refused, or the engine cannot be made ready. -/
  | refused {rc : Int} (hrc : rc < 0) :
    Operation dma a d r (.error rc, { d with log := d.log ++ operationEvents dma a r })
  /-- The transfer is not seen to its end, or ends in an error. -/
  | abandoned {rc : Int} (hrc : rc < 0) :
    Operation dma a d r
      (.error rc, { d with log := d.log ++ operationEvents dma a r }.abandon a)
  | done (haligned : transferAligned dma (r.transfer dma) = true) :
    Operation dma a d r (.ok (r.transfer dma).count,
      ⟨d.board.transfer dma r.dir (r.transfer dma), d.log ++ operationEvents dma a r⟩)

theorem dmaOperationUnlocked_cases (dma : DmaControl) (a : Answers) (d : Device) (r : Request) :
    Operation dma a d r (dmaOperationUnlocked dma a d r) := by
  rw [dmaOperationUnlocked, configureDmaEngine_eq]
  cases haligned : transferAligned dma (r.transfer dma) with
  | false => exact .refused (show -einval < 0 by decide)
  | true =>
    cases hready : a.ready with
    | false => exact .refused (show -eio < 0 by decide)
    | true =>
      cases hkilled : a.killed with
      | true => exact .abandoned (show -erestartsys < 0 by decide)
      | false =>
        unfold checkDmaStatus
        cases herror : isError a.doneStatus with
        | true => exact .abandoned (show -eio < 0 by decide)
        | false => exact .done haligned

/-- Between the two the log has grown by `events`, and no file has moved. -/
structure Logs (d : Device) (events : List Event) (d' : Device) : Prop where
  log : d'.log = d.log ++ events
  handles : d'.board.handles = d.board.handles

theorem dmaOperationUnlocked_logs (dma : DmaControl) (a : Answers) (d : Device) (r : Request) :
    Logs d (operationEvents dma a r) (dmaOperationUnlocked dma a d r).2 := by
  have hcases := dmaOperationUnlocked_cases dma a d r
  generalize dmaOperationUnlocked dma a d r = out at hcases
  cases hcases with
  | refused => exact ⟨rfl, rfl⟩
  | abandoned => exact ⟨rfl, rfl⟩
  | done =>
    refine ⟨rfl, ?_⟩
    cases r.dir <;> rfl

theorem count_transfer (dma : DmaControl) (r : Request) :
    (r.transfer dma).count = clipCount dma r.dmaCount := by
  unfold Request.transfer
  split <;> rfl

theorem toInt_nonpos (h : isPositive n = false) : n.toInt ≤ 0 := by
  rw [isPositive, BitVec.slt, decide_eq_false_iff_not] at h
  simpa using h

theorem toInt_pos (h : isPositive n = true) : 0 < n.toInt := by
  rw [isPositive, BitVec.slt, decide_eq_true_iff] at h
  simpa using h

/-! ## With the lock held -/

/-- What `copy_from_user` leaves of `count` bytes. -/
def Answers.uncopied (a : Answers) (count : Size) : Size :=
  BitVec.ofNat 64 (min a.left count.toNat)

theorem toNat_uncopied (a : Answers) (count : Size) :
    (a.uncopied count).toNat = min a.left count.toNat := by
  rw [Answers.uncopied, BitVec.toNat_ofNat, Nat.mod_eq_of_lt]
  have hlt := count.isLt
  omega

/-- What is copied is no more than there is. -/
theorem toNat_sub_uncopied (a : Answers) (count : Size) :
    (count - a.uncopied count).toNat = count.toNat - min a.left count.toNat := by
  rw [BitVec.toNat_sub_of_le (by rw [BitVec.le_def, toNat_uncopied]; omega), toNat_uncopied]

/-- The state a write brings to the engine. -/
def Device.filled (d : Device) (a : Answers) (buf : Nat → UInt8) (count : Size) : Device :=
  (copyFromUser a d buf count).2

theorem writeLocked_eq (dma : DmaControl) (a : Answers) (d : Device) (r : Request)
    (buf : Nat → UInt8) :
    writeLocked dma a d r buf =
      if isPositive (r.count - a.uncopied r.count) then
        match dmaOperationUnlocked dma a (d.filled a buf r.count) r with
        | (.error rc, d) => (.error rc, d)
        | (.ok dmaWriteCount, d) =>
          if isPositive dmaWriteCount then (.ok dmaWriteCount, d)
          else (.error dmaWriteCount.toInt, d)
      else (.error (-efault), d.filled a buf r.count) := rfl

theorem writeLocked_logs (dma : DmaControl) (a : Answers) (d : Device) (r : Request)
    (buf : Nat → UInt8) :
    Logs d (if isPositive (r.count - a.uncopied r.count) then operationEvents dma a r else [])
      (writeLocked dma a d r buf).2 := by
  rw [writeLocked_eq]
  by_cases hcopied : isPositive (r.count - a.uncopied r.count) = true
  · rw [if_pos hcopied, if_pos hcopied]
    obtain ⟨hlog, hhandles⟩ := dmaOperationUnlocked_logs dma a (d.filled a buf r.count) r
    generalize dmaOperationUnlocked dma a (d.filled a buf r.count) r = out at hlog hhandles ⊢
    obtain ⟨res, d'⟩ := out
    cases res with
    | error rc => exact ⟨hlog, hhandles⟩
    | ok n => simp only; split <;> exact ⟨hlog, hhandles⟩
  · rw [if_neg hcopied, if_neg hcopied]
    exact ⟨(List.append_nil _).symm, rfl⟩

/-- How much of what a request asks for it can bring. -/
def obtainable (dma : DmaControl) (r : Request) : Size :=
  if transferAligned dma (r.transfer dma) && isPositive (clipCount dma r.dmaCount) then
    match r.dir with
    | .toDevice => clipCount dma r.dmaCount
    | .fromDevice => userCount r (clipCount dma r.dmaCount)
  else 0

/-- What is left to return with the lock still held: an error, or a positive count. -/
def Returns (out : Except Int Size) (bound : Size) : Prop :=
  match out with
  | .error rc => rc ≤ 0
  | .ok n => isPositive n = true ∧ n ≤ bound

theorem writeLocked_returns (hdir : r.dir = .toDevice) :
    Returns (writeLocked dma a d r buf).1 (obtainable dma r) := by
  rw [writeLocked_eq]
  split
  · have hcases := dmaOperationUnlocked_cases dma a (d.filled a buf r.count) r
    generalize dmaOperationUnlocked dma a (d.filled a buf r.count) r = out at hcases ⊢
    cases hcases with
    | refused hrc => exact Int.le_of_lt hrc
    | abandoned hrc => exact Int.le_of_lt hrc
    | done haligned =>
      simp only [count_transfer]
      split
      · rename_i hpos
        refine ⟨hpos, ?_⟩
        rw [obtainable, haligned, hpos, hdir]
        exact BitVec.le_refl _
      · rename_i hpos
        exact toInt_nonpos (Bool.eq_false_of_not_eq_true hpos)
  · exact show -efault ≤ 0 by decide

theorem readLocked_logs (dma : DmaControl) (a : Answers) (d : Device) (r : Request) :
    Logs d (operationEvents dma a r) (readLocked dma a d r).2.2 := by
  unfold readLocked
  obtain ⟨hlog, hhandles⟩ := dmaOperationUnlocked_logs dma a d r
  generalize dmaOperationUnlocked dma a d r = out at hlog hhandles ⊢
  obtain ⟨res, d'⟩ := out
  cases res with
  | error rc => exact ⟨hlog, hhandles⟩
  | ok n =>
    simp only
    split
    · split <;> exact ⟨hlog, hhandles⟩
    · exact ⟨hlog, hhandles⟩

theorem readLocked_returns (hdir : r.dir = .fromDevice) :
    Returns (readLocked dma a d r).1 (obtainable dma r) := by
  unfold readLocked
  have hcases := dmaOperationUnlocked_cases dma a d r
  generalize dmaOperationUnlocked dma a d r = out at hcases ⊢
  cases hcases with
  | refused hrc => exact Int.le_of_lt hrc
  | abandoned hrc => exact Int.le_of_lt hrc
  | done haligned =>
    simp only [count_transfer]
    split
    · rename_i hcount
      split
      · rename_i hpos
        refine ⟨hpos, ?_⟩
        rw [obtainable, haligned, hcount, hdir, BitVec.le_def]
        exact Nat.le_trans (Nat.le_of_eq (toNat_sub_uncopied a _)) (Nat.sub_le _ _)
      · exact show -efault ≤ 0 by decide
    · rename_i hpos
      exact toInt_nonpos (Bool.eq_false_of_not_eq_true hpos)

/-! ## Whole calls -/

/-- What the call asks `dma_operation_unlocked` for, unless it returns before the lock. -/
def Call.request (dma : DmaControl) (h : Handle) : Call → Except Int Request
  | .read count => readRequest dma h.context h.fPos count
  | .write _ count => writeRequest dma h.context h.fPos count

/-- A call that has the lock comes to the engine. -/
def Call.proceeds (a : Answers) : Call → Bool
  | .read _ => true
  | .write _ count => isPositive (count - a.uncopied count)

/-- What the call leaves in the log. -/
def Call.events (dma : DmaControl) (a : Answers) (h : Handle) (c : Call) : List Event :=
  match c.request dma h with
  | .error _ => []
  | .ok r => .lock :: (if c.proceeds a then operationEvents dma a r else []) ++ [.unlock]

theorem Call.count_request (hr : c.request dma h = .ok r) : r.count = c.count := by
  cases c with
  | read count =>
    obtain ⟨-, -, rfl⟩ := readRequest_ok hr
    rfl
  | write buf count =>
    obtain ⟨-, -, -, rfl⟩ := writeRequest_ok hr
    rfl

theorem Logs.locked {events : List Event} (h : Logs (d.record .lock) events d') :
    Logs d (.lock :: events ++ [.unlock]) (d'.record .unlock) := by
  refine ⟨?_, h.handles⟩
  rw [Device.log_record, h.log, Device.log_record]
  simp

theorem perform_logs (dma : DmaControl) (a : Answers) (d : Device) (h : Handle) (c : Call) :
    Logs d (c.events dma a h) (c.perform dma a d h).2.1 := by
  cases c with
  | read count =>
    simp only [Call.perform, amcPciDmaRead, Call.events, Call.request, Call.proceeds]
    cases readRequest dma h.context h.fPos count with
    | error rc => exact ⟨(List.append_nil _).symm, rfl⟩
    | ok r =>
      simp only
      have hlogs := readLocked_logs dma a (d.record .lock) r
      generalize readLocked dma a (d.record .lock) r = out at hlogs ⊢
      obtain ⟨res, data, d'⟩ := out
      cases res <;> exact hlogs.locked
  | write buf count =>
    simp only [Call.perform, amcPciDmaWrite, Call.events, Call.request, Call.proceeds]
    cases hr : writeRequest dma h.context h.fPos count with
    | error rc => exact ⟨(List.append_nil _).symm, rfl⟩
    | ok r =>
      simp only
      have hlogs := writeLocked_logs dma a (d.record .lock) r buf
      have hcount : r.count = count := Call.count_request (c := .write buf count) hr
      rw [hcount] at hlogs
      generalize writeLocked dma a (d.record .lock) r buf = out at hlogs ⊢
      obtain ⟨res, d'⟩ := out
      cases res <;> exact hlogs.locked

/-- How a call ends for its file. -/
inductive Outcome (h : Handle) (bound : Size) : Reply × Device × Handle → Prop
  | failed {rc : Int} {data : List UInt8} {d : Device} (hrc : rc ≤ 0) :
    Outcome h bound (⟨rc, data⟩, d, h)
  | moved {n : Size} {data : List UInt8} {d : Device} (hpos : isPositive n = true)
    (hle : n ≤ bound) :
    Outcome h bound (⟨n.toInt, data⟩, d, { h with fPos := advance h.context h.fPos n })

/-- How much of what a call asks for it can get. -/
def Call.atMost (dma : DmaControl) (h : Handle) (c : Call) : Size :=
  match c.request dma h with
  | .error _ => 0
  | .ok r => obtainable dma r

theorem perform_outcome (dma : DmaControl) (a : Answers) (d : Device) (h : Handle) (c : Call) :
    Outcome h (c.atMost dma h) (c.perform dma a d h) := by
  cases c with
  | read count =>
    simp only [Call.perform, amcPciDmaRead, Call.atMost, Call.request]
    cases hr : readRequest dma h.context h.fPos count with
    | error rc => exact .failed (readRequest_error hr)
    | ok r =>
      simp only
      have hdir : r.dir = .fromDevice := by obtain ⟨-, -, rfl⟩ := readRequest_ok hr; rfl
      have hreturns := @readLocked_returns dma a (d.record .lock) r hdir
      generalize readLocked dma a (d.record .lock) r = out at hreturns ⊢
      obtain ⟨res, data, d'⟩ := out
      cases res with
      | error rc => exact .failed hreturns
      | ok n => exact .moved hreturns.1 hreturns.2
  | write buf count =>
    simp only [Call.perform, amcPciDmaWrite, Call.atMost, Call.request]
    cases hr : writeRequest dma h.context h.fPos count with
    | error rc => exact .failed (writeRequest_error hr)
    | ok r =>
      simp only
      have hdir : r.dir = .toDevice := by obtain ⟨-, -, -, rfl⟩ := writeRequest_ok hr; rfl
      have hreturns := @writeLocked_returns dma a (d.record .lock) r buf hdir
      generalize writeLocked dma a (d.record .lock) r buf = out at hreturns ⊢
      obtain ⟨res, d'⟩ := out
      cases res with
      | error rc => exact .failed hreturns
      | ok n => exact .moved hreturns.1 hreturns.2

theorem mem_events {dir : DmaDirection} {t : Transfer} (h : .btt dir t ∈ c.events dma a f) :
    ∃ r, c.request dma f = .ok r ∧ dir = r.dir ∧ t = r.transfer dma ∧
      transferAligned dma t = true := by
  unfold Call.events at h
  split at h
  · cases h
  · rename_i r hr
    rw [operationEvents, Answers.prepare] at h
    refine ⟨r, hr, ?_⟩
    cases haligned : transferAligned dma (r.transfer dma) with
    | false => simp [haligned] at h
    | true =>
      have hbtt : dir = r.dir ∧ t = r.transfer dma := by
        rw [haligned] at h
        repeat' split at h
        all_goals simp_all
      exact ⟨hbtt.1, hbtt.2, by rw [hbtt.2, haligned]⟩

theorem btt_mem_events (hr : c.request dma f = .ok r) (hproceeds : c.proceeds a = true)
    (hready : a.ready = true) (haligned : transferAligned dma (r.transfer dma) = true) :
    .btt r.dir (r.transfer dma) ∈ c.events dma a f := by
  simp [Call.events, hr, hproceeds, operationEvents, haligned, hready]

end DmaCall
end AmcPci
