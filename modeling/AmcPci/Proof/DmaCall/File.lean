import AmcPci.Proof.DmaCall.Supplied

/-!
# Calls on which nothing goes wrong

With an engine that is made ready and ends its transfer, and with copies that copy everything, the
calls are those of `AmcPci.DmaFile`: the cyclic file that module is shown to be is what a client
sees as long as all goes well.
-/

namespace AmcPci
namespace DmaCall

open Lib
open DmaFile (Board Handle Reply)

variable {dma : DmaControl} {a : Answers} {d : Device} {h : Handle} {r : Request}
  {count : Size} {buf : Nat → UInt8}

/-- Nothing goes wrong. -/
structure Smooth (a : Answers) : Prop extends Succeeds a where
  copies : a.left = 0

theorem Smooth.sub_uncopied (hs : Smooth a) (count : Size) : count - a.uncopied count = count := by
  refine BitVec.eq_of_toNat_eq ?_
  rw [toNat_sub_uncopied, hs.copies, Nat.zero_min, Nat.sub_zero]

/-- Both do the same to a board. -/
def Same (out : Reply × Device × Handle) (file : Reply × Board × Handle) : Prop :=
  out.1 = file.1 ∧ out.2.1.board = file.2.1 ∧ out.2.2 = file.2.2

/-- An operation on which nothing goes wrong. -/
theorem dmaOperationUnlocked_smooth (hs : Smooth a) (dma : DmaControl) (d : Device)
    (r : Request) :
    (dmaOperationUnlocked dma a d r).1 = (DmaFile.dmaOperationUnlocked dma d.board r).1 ∧
      (dmaOperationUnlocked dma a d r).2.board
        = (DmaFile.dmaOperationUnlocked dma d.board r).2 := by
  rw [DmaFile.dmaOperationUnlocked]
  cases haligned : transferAligned dma (r.transfer dma) with
  | true =>
    rw [dmaOperationUnlocked_succeeds hs.toSucceeds d haligned, ← count_transfer]
    exact ⟨rfl, rfl⟩
  | false =>
    rw [dmaOperationUnlocked, configureDmaEngine_eq, haligned]
    exact ⟨rfl, rfl⟩

theorem filled_smooth (hs : Smooth a) : (d.filled a buf count).board
    = { d.board with buffer := memcpy d.board.buffer 0 (peek buf 0 count.toNat) } := by
  simp [Device.filled, copyFromUser, hs.copies]

theorem amcPciDmaWrite_smooth (hs : Smooth a) (d : Device) (h : Handle) (buf : Nat → UInt8)
    (count : Size) : Same (amcPciDmaWrite dma a d h buf count)
      (DmaFile.amcPciDmaWrite dma d.board h (peek buf 0 count.toNat)) := by
  rw [amcPciDmaWrite, DmaFile.amcPciDmaWrite, length_peek, BitVec.ofNat_toNat, BitVec.setWidth_eq]
  cases hr : writeRequest dma h.context h.fPos count with
  | error rc => exact ⟨rfl, rfl, rfl⟩
  | ok r =>
    have hcount : r.count = count := by obtain ⟨-, -, -, rfl⟩ := writeRequest_ok hr; rfl
    simp only
    rw [writeLocked_eq, hs.sub_uncopied, hcount]
    obtain ⟨hres, hboard⟩ := dmaOperationUnlocked_smooth hs dma
      ((d.record .lock).filled a buf count) r
    rw [filled_smooth hs, Device.board_record] at hres hboard
    by_cases hpos : isPositive count = true
    · rw [if_pos hpos, if_pos hpos]
      generalize dmaOperationUnlocked dma a ((d.record .lock).filled a buf count) r = out
        at hres hboard ⊢
      generalize DmaFile.dmaOperationUnlocked dma _ r = file at hres hboard ⊢
      obtain ⟨res, d'⟩ := out
      obtain ⟨res', b'⟩ := file
      simp only at hres hboard
      subst hres hboard
      cases res with
      | error rc => exact ⟨rfl, rfl, rfl⟩
      | ok n =>
        by_cases hn : isPositive n = true
        · simp only [if_pos hn]
          exact ⟨rfl, rfl, rfl⟩
        · simp only [if_neg hn]
          exact ⟨rfl, rfl, rfl⟩
    · rw [if_neg hpos, if_neg hpos]
      exact ⟨rfl, filled_smooth hs, rfl⟩

theorem amcPciDmaRead_smooth (hs : Smooth a) (d : Device) (h : Handle) (count : Size) :
    Same (amcPciDmaRead dma a d h count) (DmaFile.amcPciDmaRead dma d.board h count) := by
  rw [amcPciDmaRead, DmaFile.amcPciDmaRead]
  cases readRequest dma h.context h.fPos count with
  | error rc => exact ⟨rfl, rfl, rfl⟩
  | ok r =>
    simp only
    unfold readLocked
    obtain ⟨hres, hboard⟩ := dmaOperationUnlocked_smooth hs dma (d.record .lock) r
    rw [Device.board_record] at hres hboard
    generalize dmaOperationUnlocked dma a (d.record .lock) r = out at hres hboard ⊢
    generalize DmaFile.dmaOperationUnlocked dma d.board r = file at hres hboard ⊢
    obtain ⟨res, d'⟩ := out
    obtain ⟨res', b'⟩ := file
    simp only at hres hboard
    subst hres hboard
    cases res with
    | error rc => exact ⟨rfl, rfl, rfl⟩
    | ok n =>
      simp only
      by_cases hpos : isPositive n = true
      · rw [if_pos hpos, if_pos hpos]
        have hcopy : copyToUser a d' r.inOffset (userCount r n)
            = (a.uncopied (userCount r n),
              peek d'.board.buffer r.inOffset.toNat (userCount r n).toNat) := by
          simp [copyToUser, Answers.uncopied, hs.copies]
        rw [hcopy]
        by_cases hn : isPositive (userCount r n) = true
        · simp only [hs.sub_uncopied, if_pos hn]
          exact ⟨rfl, rfl, rfl⟩
        · simp only [hs.sub_uncopied, if_neg hn]
          exact ⟨rfl, rfl, rfl⟩
      · rw [if_neg hpos, if_neg hpos]
        exact ⟨rfl, rfl, rfl⟩

end DmaCall
end AmcPci
