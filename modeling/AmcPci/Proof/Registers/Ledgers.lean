import AmcPci.Proof.Registers.Moves

/-!
# What the register handles hold between them

Three books are kept: the reader slots (`active_readers`), the contexts (the allocator) and the
count (`reference_count`). Each move changes one file's holding and the record of it together,
so all three balance in every reachable state, whatever is interleaved with what.
-/

namespace AmcPci
namespace Registers

open Lib

/-- The reader slot a file holds. -/
def RegisterFile.slot : RegisterFile → Option Reader
  | .resetEvents reader => some reader
  | .kmalloc reader => some reader
  | .countIn reader _ => some reader
  | .kfree reader _ _ => some reader
  | .unassign reader _ => some reader
  | .live handle => some handle.readerNumber
  | .releaseUnassign reader _ => some reader
  | _ => none

/-- The context a file has allocated. -/
def RegisterFile.context : RegisterFile → Option Nat
  | .countIn _ context => some context
  | .kfree _ context _ => some context
  | .live handle => some handle.context
  | .releaseUnassign _ context => some context
  | .releaseKfree context => some context
  | _ => none

/-- Open handles, the ones that count. -/
def RegisterFile.isLive : RegisterFile → Bool
  | .live _ => true
  | _ => false

/-- The three books balance. -/
structure Ledgers (s : State) : Prop where
  slots : ∀ r, Balanced (fun f => share f.slot r) (s.board.control.activeReaders r).toNat s.files
  contexts : ∀ p, Balanced (fun f => share f.context p) (s.board.heap p).toNat s.files
  count : Balanced (fun f => f.isLive.toNat) s.board.locking.referenceCount.toNat s.files

/-! ## One move -/

variable {b b' : Board} {f f' : RegisterFile} {a : FileAction}

theorem FileMove.slot_share (h : FileMove b f a b' f') (r : Reader)
    (hheld : share f.slot r ≤ (b.control.activeReaders r).toNat) :
    share f'.slot r + (b.control.activeReaders r).toNat
      = share f.slot r + (b'.control.activeReaders r).toNat := by
  cases h with
  | take hfree => exact share_take hfree
  | unassign => exact share_return hheld
  | releaseUnassign => exact share_return hheld
  | _ => rfl

theorem FileMove.context_share (h : FileMove b f a b' f') (p : Nat)
    (hheld : share f.context p ≤ (b.heap p).toNat) :
    share f'.context p + (b.heap p).toNat = share f.context p + (b'.heap p).toNat := by
  cases h with
  | alloc hfree => exact share_take hfree
  | kfree => exact share_return hheld
  | releaseKfree => exact share_return hheld
  | _ => rfl

/-- The count follows the handles as long as the 32 bits of it do not overflow. -/
theorem FileMove.live_count (h : FileMove b f a b' f')
    (hheld : f.isLive.toNat ≤ b.locking.referenceCount.toNat)
    (hroom : b.locking.referenceCount.toNat + 1 < 2 ^ 32) :
    f'.isLive.toNat + b.locking.referenceCount.toNat
      = f.isLive.toNat + b'.locking.referenceCount.toNat := by
  cases h with
  | count _ =>
    have hadd : (b.locking.referenceCount + 1).toNat = b.locking.referenceCount.toNat + 1 := by
      rw [BitVec.toNat_add, Nat.mod_eq_of_lt (by simpa using hroom)]
      rfl
    simp only [RegisterFile.isLive, Bool.toNat_true, Bool.toNat_false]
    omega
  | release =>
    have hsub : (b.locking.referenceCount - 1).toNat = b.locking.referenceCount.toNat - 1 := by
      rw [BitVec.toNat_sub_of_le]
      · rfl
      · simpa [BitVec.le_def, RegisterFile.isLive] using hheld
    simp only [RegisterFile.isLive, Bool.toNat_true, Bool.toNat_false, countOut] at hheld ⊢
    omega
  | _ => rfl

/-! ## Every reachable state -/

theorem ledgers_initial : Ledgers initial :=
  ⟨fun _ => rfl, fun _ => rfl, rfl⟩

/-- Every open handle has a reader slot, and there are eight of these. -/
theorem Ledgers.count_le {s : State} (h : Ledgers s) :
    s.board.locking.referenceCount.toNat ≤ nEventReaders := by
  have hslots := Balanced.sum h.slots (List.finRange nEventReaders)
  have hle := h.count.mono hslots fun f => ?_
  · refine hle.trans ?_
    have hone : ∀ x ∈ (List.finRange nEventReaders).map fun r =>
        (s.board.control.activeReaders r).toNat, x ≤ 1 := by
      intro x hx
      obtain ⟨r, -, rfl⟩ := List.mem_map.mp hx
      exact Bool.toNat_le _
    simpa using List.sum_le_card_nsmul _ 1 hone
  · cases f with
    | live handle =>
      refine (?_ : 1 ≤ share (some handle.readerNumber) handle.readerNumber).trans ?_
      · rw [share_self]
      · exact List.le_sum_of_mem (List.mem_map.mpr ⟨_, List.mem_finRange _, rfl⟩)
    | _ => exact Nat.zero_le _

theorem Ledgers.move {s s' : State} {a : Action} (h : Ledgers s) (hmove : Move s a s') : Ledgers s' := by
  cases hmove with
  | openFile =>
    exact ⟨fun r => (h.slots r).concat rfl, fun p => (h.contexts p).concat rfl, h.count.concat rfl⟩
  | file hi hmove =>
    have hroom : s.board.locking.referenceCount.toNat + 1 < 2 ^ 32 :=
      Nat.lt_of_le_of_lt (Nat.succ_le_succ h.count_le) (by decide)
    exact ⟨fun r => (h.slots r).set hi (hmove.slot_share r ((h.slots r).le hi)),
      fun p => (h.contexts p).set hi (hmove.context_share p ((h.contexts p).le hi)),
      h.count.set hi (hmove.live_count (h.count.le hi) hroom)⟩
  | eventInterrupt => exact ⟨h.slots, h.contexts, h.count⟩
  | atomicOr => exact ⟨h.slots, h.contexts, h.count⟩

/-! What the books say about single files. -/

section
variable {s : State} {i j : Nat}

/-- No slot is held twice. -/
theorem Ledgers.slot_unique (h : Ledgers s) {r : Reader} (hi : s.files[i]? = some f)
    (hj : s.files[j]? = some f') (hr : f.slot = some r) (hr' : f'.slot = some r) : i = j :=
  (h.slots r).exclusive (Bool.toNat_le _) hi hj (by simp [hr]) (by simp [hr'])

/-- A slot's bit is set exactly while some file holds the slot. -/
theorem Ledgers.active_iff (h : Ledgers s) (r : Reader) :
    s.board.control.activeReaders r = true ↔
      ∃ (i : Nat) (f : RegisterFile), s.files[i]? = some f ∧ f.slot = some r := by
  constructor
  · intro hr
    obtain ⟨i, f, hi, hpos⟩ := (h.slots r).holder (by simp [hr])
    exact ⟨i, f, hi, eq_some_of_share_pos hpos⟩
  · rintro ⟨i, f, hi, hr⟩
    exact taken_of_share hr ((h.slots r).le hi)

/-- A context a file refers to is allocated. -/
theorem Ledgers.context_allocated (h : Ledgers s) {p : Nat} (hi : s.files[i]? = some f)
    (hp : f.context = some p) : s.board.heap p = true :=
  taken_of_share hp ((h.contexts p).le hi)

/-- The count is at least one for each of two open handles. -/
theorem Ledgers.two_live (h : Ledgers s) (hi : s.files[i]? = some f) (hj : s.files[j]? = some f')
    (hf : f.isLive = true) (hf' : f'.isLive = true) (hij : i ≠ j) :
    2 ≤ s.board.locking.referenceCount.toNat := by
  have hle := h.count.add_le hi hj hij
  simpa [hf, hf'] using hle

end

theorem ledgers_run {ok : State → Action → Prop} {as : List Action} {s : State}
    (h : Exec step ok initial as s) : Ledgers s :=
  h.invariant (fun hinv _ hstep => hinv.move (move_of_step hstep)) ledgers_initial

end Registers
end AmcPci
