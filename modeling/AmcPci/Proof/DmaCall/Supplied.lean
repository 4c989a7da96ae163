import AmcPci.Proof.DmaCall.Position

/-!
# Whose bytes a write writes

`amc_pci_dma_write` asks the engine for as many bytes as the caller wanted written, not for as many
as were copied. When a copy faults part of the way, the bytes behind the fault are whatever
`copy_from_user` has put there, and the caller is told that they were his (`write_overstated`).
`supplied_iff` is when this does not show.
-/

namespace AmcPci
namespace DmaCall

open Lib
open DmaFile (Board Handle Reply)

variable {dma : DmaControl} {a : Answers} {d d' : Device} {h : Handle} {r : Request}
  {count : Size} {buf : Nat → UInt8}

/-- The transfer is seen to a good end, if the driver starts one. -/
structure Succeeds (a : Answers) : Prop where
  ready : a.ready = true
  notKilled : a.killed = false
  noError : isError a.doneStatus = false

theorem dmaOperationUnlocked_succeeds (hs : Succeeds a) (d : Device)
    (haligned : transferAligned dma (r.transfer dma) = true) :
    dmaOperationUnlocked dma a d r = (.ok (clipCount dma r.dmaCount),
      ⟨d.board.transfer dma r.dir (r.transfer dma), d.log ++ operationEvents dma a r⟩) := by
  rw [dmaOperationUnlocked, configureDmaEngine_eq, haligned, hs.ready, hs.notKilled, checkDmaStatus,
    hs.noError, ← count_transfer]
  rfl

/-- How many bytes of `count` reach the buffer. -/
def Answers.copied (a : Answers) (count : Size) : Nat := count.toNat - min a.left count.toNat

/-- A write that comes to its end: it is not refused, some of it is copied, and the transfer is
    aligned and not empty. -/
structure Completes (dma : DmaControl) (a : Answers) (h : Handle) (count : Size) : Prop where
  request : writeRequest dma h.context h.fPos count
    = .ok ⟨.toDevice, h.context.base + h.fPos, count, 0, count⟩
  copied : isPositive (count - a.uncopied count) = true
  aligned : transferAligned dma ⟨dma.bufferDma, h.context.base + h.fPos, clipCount dma count⟩ = true
  pos : isPositive (clipCount dma count) = true

/-- What such a write does to the device. -/
theorem amcPciDmaWrite_completes (hs : Succeeds a) (hc : Completes dma a h count) (d : Device)
    (buf : Nat → UInt8) :
    (amcPciDmaWrite dma a d h buf count).1.rc = (clipCount dma count).toInt ∧
      (amcPciDmaWrite dma a d h buf count).2.1.board.memory =
        memcpy d.board.memory (h.context.base + h.fPos).toNat
          (peek (d.filled a buf count).board.buffer 0 (clipCount dma count).toNat) := by
  have haligned := hc.aligned
  have hlocked : writeLocked dma a (d.record .lock)
      ⟨.toDevice, h.context.base + h.fPos, count, 0, count⟩ buf = _ := writeLocked_eq ..
  rw [if_pos hc.copied, dmaOperationUnlocked_succeeds hs _ haligned] at hlocked
  simp only [hc.pos, if_true] at hlocked
  rw [amcPciDmaWrite, hc.request]
  simp only [hlocked]
  refine ⟨trivial, ?_⟩
  simp [Board.transfer, Request.transfer, Device.filled, copyFromUser]

/-- What was copied is in the buffer. -/
theorem peek_filled {n : Nat} (hn : n ≤ a.copied count) :
    peek (d.filled a buf count).board.buffer 0 n = peek buf 0 n := by
  refine peek_congr fun i hi => ?_
  have hcopied : i < (peek buf 0 (a.copied count)).length := by
    rw [length_peek]
    omega
  have hlt : i < (peek buf 0 (a.copied count)
      ++ List.replicate (min a.left count.toNat) 0).length := by
    rw [List.length_append]
    omega
  calc (d.filled a buf count).board.buffer (0 + i)
      = (peek buf 0 (a.copied count) ++ List.replicate (min a.left count.toNat) 0)[i] :=
        memcpy_of_mem hlt
    _ = (peek buf 0 (a.copied count))[i] := List.getElem_append_left hcopied
    _ = buf (0 + i) := by simp [peek]

/-- A write that returns a count has come to its end. -/
theorem completes_of_pos (hrc : 0 < (amcPciDmaWrite dma a d h buf count).1.rc) :
    Completes dma a h count := by
  have hatMost := rc_le_atMost dma a d h (.write buf count)
  have hpos : 0 < ((Call.write buf count).atMost dma h).toNat :=
    Int.natCast_pos.mp (Int.lt_of_lt_of_le hrc hatMost)
  unfold Call.atMost at hpos
  cases hr : (Call.write buf count).request dma h with
  | error rc =>
    rw [hr] at hpos
    cases hpos
  | ok r =>
    rw [hr] at hpos
    obtain ⟨-, -, -, rfl⟩ := writeRequest_ok hr
    simp only [obtainable] at hpos
    split at hpos
    · rename_i hgoes
      rw [Bool.and_eq_true] at hgoes
      refine ⟨hr, ?_, hgoes.1, hgoes.2⟩
      by_contra hcopied
      have hlocked : writeLocked dma a (d.record .lock)
          ⟨.toDevice, h.context.base + h.fPos, count, 0, count⟩ buf = _ := writeLocked_eq ..
      rw [if_neg hcopied] at hlocked
      have hrequest : writeRequest dma h.context h.fPos count = _ := hr
      rw [amcPciDmaWrite, hrequest] at hrc
      simp only [hlocked] at hrc
      cases hrc
    · cases hpos

/-- A write that returns `n` has written the first `n` bytes of the caller's, all of which were
    copied, and nothing else. -/
def Supplied (dma : DmaControl) (a : Answers) (d : Device) (h : Handle) (buf : Nat → UInt8)
    (count : Size) : Prop :=
  let out := amcPciDmaWrite dma a d h buf count
  let start := (h.context.base + h.fPos).toNat
  let n := out.1.rc.toNat
  0 < out.1.rc → n ≤ a.copied count ∧
    (∀ i < n, out.2.1.board.memory (start + i) = buf i) ∧
    ∀ x, x < start ∨ start + n ≤ x → out.2.1.board.memory x = d.board.memory x

/-- **A write writes what it was given** unless it comes to its end with more to transfer than was
    copied. -/
theorem supplied_iff (hs : Succeeds a) : Supplied dma a d h buf count ↔
    ¬ (Completes dma a h count ∧ a.copied count < (clipCount dma count).toNat) := by
  constructor
  · rintro hsupplied ⟨hc, hlt⟩
    have hrc := (amcPciDmaWrite_completes hs hc d buf).1
    have hn := toInt_of_isPositive hc.pos
    have hle := (hsupplied (by rw [hrc]; exact toInt_pos hc.pos)).1
    rw [hrc, hn] at hle
    omega
  · intro hshort hrc
    have hc := completes_of_pos hrc
    obtain ⟨hout, hmemory⟩ := amcPciDmaWrite_completes hs hc d buf
    have hn := toInt_of_isPositive hc.pos
    have hle : (clipCount dma count).toNat ≤ a.copied count :=
      Nat.not_lt.mp fun hlt => hshort ⟨hc, hlt⟩
    have hrcn : (amcPciDmaWrite dma a d h buf count).1.rc.toNat = (clipCount dma count).toNat := by
      rw [hout, hn, Int.toNat_natCast]
    rw [peek_filled hle] at hmemory
    rw [hrcn, hmemory]
    refine ⟨hle, fun i hi => ?_, fun x hx => memcpy_of_lt (by rwa [length_peek])⟩
    rw [memcpy_of_mem (by rwa [length_peek])]
    simp [peek]

/-- A write of which nothing faults. -/
theorem supplied_iff_whole : Supplied board64 idleEngine ⟨blank, []⟩ ⟨⟨256, 128⟩, 0⟩ (fun _ => 7) 48 :=
  (supplied_iff ⟨rfl, rfl, rfl⟩).mpr fun h => absurd h.2 (by decide)

/-- The last three of 64 bytes fault. All 64 are said to be written, the last three of them as
    zeros. -/
theorem write_overstated :
    let out := amcPciDmaWrite board64 { idleEngine with left := 3 } ⟨blank, []⟩ ⟨⟨256, 128⟩, 0⟩
      (fun _ => 7) 64
    out.1.rc = 64 ∧ out.2.1.board.memory 316 = 7 ∧ out.2.1.board.memory 317 = 0 ∧
    ¬ Supplied board64 { idleEngine with left := 3 } ⟨blank, []⟩ ⟨⟨256, 128⟩, 0⟩ (fun _ => 7) 64 := by
  refine ⟨rfl, rfl, rfl, fun h => ?_⟩
  exact absurd (h (by decide)).1 (by decide)

end DmaCall
end AmcPci
