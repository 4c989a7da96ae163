import AmcPci.DmaShared
import AmcPci.Proof.DmaCall.File

/-!
# A call by itself

What `serve` comes to, by how far the call gets: the copy from the user faults, the operation fails,
or it ends and there is a count to return or bytes to copy out.
-/

namespace AmcPci
namespace DmaShared

open Lib
open DmaCall (Answers Device Succeeds)
open DmaFile (Board Handle Reply)

variable {dma : DmaControl} {a : Answers} {b : Board} {d d' : Device} {client : Client}
  {r : Request} {n : Size} {rc : Int} {dir : DmaDirection} {t : Transfer}

/-! ## A transfer part of the way -/

/-- The board when `n` bytes of a transfer have been moved. -/
def partly (dma : DmaControl) (b : Board) (dir : DmaDirection) (t : Transfer) (n : Nat) : Board :=
  match dir with
  | .toDevice =>
    { b with memory := memcpy b.memory t.dst.toNat (peek b.buffer (t.src - dma.bufferDma).toNat n) }
  | .fromDevice =>
    { b with buffer := memcpy b.buffer (t.dst - dma.bufferDma).toNat (peek b.memory t.src.toNat n) }

theorem partly_zero (dma : DmaControl) (b : Board) (dir : DmaDirection) (t : Transfer) :
    partly dma b dir t 0 = b := by
  cases dir with
  | toDevice => exact congrArg (fun m => { b with memory := m }) (memcpy_nil b.memory _)
  | fromDevice => exact congrArg (fun m => { b with buffer := m }) (memcpy_nil b.buffer _)

theorem moveByte_partly (dma : DmaControl) (b : Board) (dir : DmaDirection) (t : Transfer)
    (n : Nat) : moveByte dma (partly dma b dir t n) dir t n = partly dma b dir t (n + 1) := by
  cases dir with
  | toDevice => simp only [partly, moveByte, memcpy_peek_succ]
  | fromDevice => simp only [partly, moveByte, memcpy_peek_succ]

theorem partly_count (dma : DmaControl) (b : Board) (dir : DmaDirection) (t : Transfer) :
    partly dma b dir t t.count.toNat = b.transfer dma dir t := by
  cases dir <;> rfl

theorem handles_partly (dma : DmaControl) (b : Board) (dir : DmaDirection) (t : Transfer)
    (n : Nat) : (partly dma b dir t n).handles = b.handles := by
  cases dir <;> rfl

/-! ## The operation -/

/-- What an operation returns, and the board it leaves. -/
structure Ends (out : Except Int Size × Device) (res : Except Int Size) (b : Board) : Prop where
  res : out.1 = res
  board : out.2.board = b

theorem operation_misaligned (h : transferAligned dma (r.transfer dma) = false) :
    Ends (DmaCall.dmaOperationUnlocked dma a d r) (.error (-einval)) d.board := by
  rw [DmaCall.dmaOperationUnlocked, DmaCall.configureDmaEngine_eq, h]
  exact ⟨rfl, rfl⟩

theorem operation_notReady (haligned : transferAligned dma (r.transfer dma) = true)
    (h : a.ready = false) :
    Ends (DmaCall.dmaOperationUnlocked dma a d r) (.error (-eio)) d.board := by
  rw [DmaCall.dmaOperationUnlocked, DmaCall.configureDmaEngine_eq, haligned, h]
  exact ⟨rfl, rfl⟩

theorem operation_failed (haligned : transferAligned dma (r.transfer dma) = true)
    (hready : a.ready = true) (hkilled : a.killed = false)
    (h : DmaCall.isError a.doneStatus = true) :
    Ends (DmaCall.dmaOperationUnlocked dma a d r) (.error (-eio)) (d.abandon a).board := by
  rw [DmaCall.dmaOperationUnlocked, DmaCall.configureDmaEngine_eq, haligned, hready, hkilled,
    DmaCall.checkDmaStatus, h]
  exact ⟨rfl, rfl⟩

theorem operation_done (haligned : transferAligned dma (r.transfer dma) = true)
    (h : Succeeds a) : Ends (DmaCall.dmaOperationUnlocked dma a d r)
      (.ok (clipCount dma r.dmaCount)) (d.board.transfer dma r.dir (r.transfer dma)) := by
  rw [DmaCall.dmaOperationUnlocked_succeeds h d haligned]
  exact ⟨rfl, rfl⟩

/-! ## The whole call -/

/-- What a call brings to the engine, if it gets there. -/
def Client.atEngine (client : Client) (b : Board) : Device :=
  match client.call with
  | .read _ => (⟨b, []⟩ : Device).record .lock
  | .write buf count => ((⟨b, []⟩ : Device).record .lock).filled client.answers buf count

/-- The operation a call asks for, and what is done to the engine's bytes by it. -/
def Client.operation (client : Client) (dma : DmaControl) (b : Board) (r : Request) :
    Except Int Size × Device :=
  DmaCall.dmaOperationUnlocked dma client.answers (client.atEngine b) r

theorem serve_read {count : Size} (hcall : client.call = .read count)
    (hr : client.call.request dma client.handle = .ok r) :
    serve dma b client =
      match client.operation dma b r with
      | (.error rc, d) => (⟨rc, []⟩, d.board)
      | (.ok n, d) =>
        if isPositive n then
          let count := userCount r n
          let (left, data) := DmaCall.copyToUser client.answers d r.inOffset count
          (⟨if isPositive (count - left) then (count - left).toInt else -efault, data⟩, d.board)
        else (⟨n.toInt, []⟩, d.board) := by
  rw [hcall] at hr
  rw [serve, hcall, DmaCall.Call.perform, DmaCall.amcPciDmaRead,
    show readRequest dma client.handle.context client.handle.fPos count = .ok r from hr,
    Client.operation, Client.atEngine, hcall]
  simp only [DmaCall.readLocked]
  generalize DmaCall.dmaOperationUnlocked dma client.answers (Device.record ⟨b, []⟩ .lock) r = out
  obtain ⟨res, d⟩ := out
  cases res with
  | error rc => rfl
  | ok n =>
    by_cases hn : isPositive n = true
    · simp only [if_pos hn]
      split <;> rename_i hleft
      · by_cases hpos : isPositive (userCount r n - (DmaCall.copyToUser client.answers d r.inOffset
          (userCount r n)).1) = true
        · rw [if_pos hpos] at hleft
          cases hleft
        · rw [if_neg hpos] at hleft ⊢
          cases hleft
          rfl
      · by_cases hpos : isPositive (userCount r n - (DmaCall.copyToUser client.answers d r.inOffset
          (userCount r n)).1) = true
        · rw [if_pos hpos] at hleft ⊢
          cases hleft
          rfl
        · rw [if_neg hpos] at hleft
          cases hleft
    · simp only [if_neg hn]
      rfl

theorem serve_write {buf : Nat → UInt8} {count : Size} (hcall : client.call = .write buf count)
    (hr : client.call.request dma client.handle = .ok r) :
    serve dma b client =
      if client.call.proceeds client.answers then
        match client.operation dma b r with
        | (.error rc, d) => (⟨rc, []⟩, d.board)
        | (.ok n, d) => (⟨n.toInt, []⟩, d.board)
      else (⟨-efault, []⟩, (client.atEngine b).board) := by
  have hcount : r.count = count := by
    have hcount := DmaCall.Call.count_request hr
    rwa [hcall] at hcount
  rw [hcall] at hr
  rw [serve, hcall, DmaCall.Call.perform, DmaCall.amcPciDmaWrite,
    show writeRequest dma client.handle.context client.handle.fPos count = .ok r from hr,
    Client.operation, Client.atEngine, hcall, DmaCall.Call.proceeds]
  simp only [DmaCall.writeLocked_eq, hcount]
  by_cases hproceeds : isPositive (count - client.answers.uncopied count) = true
  · rw [if_pos hproceeds, if_pos hproceeds]
    generalize DmaCall.dmaOperationUnlocked dma client.answers
      ((Device.record ⟨b, []⟩ .lock).filled client.answers buf count) r = out
    obtain ⟨res, d⟩ := out
    cases res with
    | error rc => rfl
    | ok n =>
      by_cases hn : isPositive n = true
      · simp only [if_pos hn]
        rfl
      · simp only [if_neg hn]
        rfl
  · rw [if_neg hproceeds, if_neg hproceeds]
    rfl

/-- The copy from the user brings nothing. -/
theorem serve_fault (hr : client.call.request dma client.handle = .ok r)
    (h : client.call.proceeds client.answers = false) :
    serve dma b client = (⟨-efault, []⟩, (client.atEngine b).board) := by
  cases hcall : client.call with
  | read count => rw [hcall] at h; cases h
  | write buf count => rw [serve_write hcall hr, h, if_neg Bool.false_ne_true]

/-- The operation fails. -/
theorem serve_error {b' : Board} (hr : client.call.request dma client.handle = .ok r)
    (hproceeds : client.call.proceeds client.answers = true)
    (h : Ends (client.operation dma b r) (.error rc) b') :
    serve dma b client = (⟨rc, []⟩, b') := by
  obtain ⟨hres, rfl⟩ := h
  cases hcall : client.call with
  | read count =>
    rw [serve_read hcall hr]
    generalize client.operation dma b r = out at hres ⊢
    obtain ⟨res, d⟩ := out
    simp only at hres
    subst hres
    rfl
  | write buf count =>
    rw [serve_write hcall hr, if_pos hproceeds]
    generalize client.operation dma b r = out at hres ⊢
    obtain ⟨res, d⟩ := out
    simp only at hres
    subst hres
    rfl

/-- The operation ends, and its count is what the call returns. -/
theorem serve_count {b' : Board} (hr : client.call.request dma client.handle = .ok r)
    (hproceeds : client.call.proceeds client.answers = true)
    (h : Ends (client.operation dma b r) (.ok n) b')
    (hn : isPositive n = true → ∃ buf count, client.call = .write buf count) :
    serve dma b client = (⟨n.toInt, []⟩, b') := by
  obtain ⟨hres, rfl⟩ := h
  cases hcall : client.call with
  | read count =>
    have hn : ¬ isPositive n = true := by
      intro hpos
      obtain ⟨buf, count', hwrite⟩ := hn hpos
      rw [hcall] at hwrite
      cases hwrite
    rw [serve_read hcall hr]
    generalize client.operation dma b r = out at hres ⊢
    obtain ⟨res, d⟩ := out
    simp only at hres
    subst hres
    simp only [if_neg hn]
  | write buf count =>
    rw [serve_write hcall hr, if_pos hproceeds]
    generalize client.operation dma b r = out at hres ⊢
    obtain ⟨res, d⟩ := out
    simp only at hres
    subst hres
    rfl

/-- The operation ends, and there are bytes for the user. -/
theorem serve_copy {b' : Board} {count : Size} (hcall : client.call = .read count)
    (hr : client.call.request dma client.handle = .ok r)
    (h : Ends (client.operation dma b r) (.ok n) b') (hn : isPositive n = true) :
    serve dma b client =
      (⟨if isPositive (userCount r n - client.answers.uncopied (userCount r n)) then
          (userCount r n - client.answers.uncopied (userCount r n)).toInt else -efault,
        (DmaCall.copyToUser client.answers ⟨b', []⟩ r.inOffset (userCount r n)).2⟩, b') := by
  obtain ⟨hres, rfl⟩ := h
  rw [serve_read hcall hr]
  generalize client.operation dma b r = out at hres ⊢
  obtain ⟨res, d⟩ := out
  simp only at hres
  subst hres
  simp only [if_pos hn]
  rfl

end DmaShared
end AmcPci
