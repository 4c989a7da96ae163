import Mathlib.Tactic.Ring
import Mathlib.Tactic.Linarith
import Mathlib.Algebra.BigOperators.Group.List.Basic

/-!
# Ones' complement sums

A checksum of this family adds words below `B` with an *end-around carry*: a carry out of the
top is added back at the bottom. Implementations do not do that word by word. They add the
words plainly in a wider accumulator and then fold the high half into the low half, twice.

`fold_fold_eq_onesSum` is the fact that makes the two the same: below `B * B` two folds are
enough. The rest of the file is the arithmetic meaning of the result, which is arithmetic
modulo `B - 1` with one twist: the non-zero multiples of `B - 1` are represented by `B - 1` and
not by `0`.
-/

namespace AmcPci
namespace Lib

/-- Add two words, the carry going round the end. -/
def eacAdd (B a b : Nat) : Nat := if a + b < B then a + b else a + b - B + 1

/-- The ones' complement sum of a list of words. -/
def onesSum (B : Nat) (ws : List Nat) : Nat := ws.foldl (eacAdd B) 0

/-- One carry fold of a wide accumulator: high part added onto low part. -/
def foldCarry (B s : Nat) : Nat := s % B + s / B

variable {B : Nat}

theorem foldCarry_of_lt {s : Nat} (h : s < B) : foldCarry B s = s := by
  rw [foldCarry, Nat.mod_eq_of_lt h, Nat.div_eq_of_lt h, Nat.add_zero]

theorem foldCarry_pos {s : Nat} (h : 0 < s) : 0 < foldCarry B s := by
  have hdm := Nat.div_add_mod s B
  rcases Nat.eq_zero_or_pos (s % B + s / B) with h0 | h0
  · obtain ⟨h₁, h₂⟩ := Nat.add_eq_zero_iff.mp h0
    rw [h₁, h₂] at hdm
    omega
  · exact h0

/-- Folding subtracts a multiple of `B - 1`. -/
theorem foldCarry_add_mul (hB : 0 < B) (s : Nat) : foldCarry B s + (B - 1) * (s / B) = s := by
  obtain ⟨b, rfl⟩ : ∃ b, B = b + 1 := ⟨B - 1, by omega⟩
  have hdm := Nat.div_add_mod s (b + 1)
  have hexp : (b + 1) * (s / (b + 1)) = b * (s / (b + 1)) + s / (b + 1) := by ring
  rw [hexp] at hdm
  simp only [foldCarry, Nat.add_sub_cancel]
  omega

theorem foldCarry_mod (hB : 0 < B) (s : Nat) : foldCarry B s % (B - 1) = s % (B - 1) := by
  conv_rhs => rw [← foldCarry_add_mul hB s]
  rw [Nat.add_mul_mod_self_left]

/-- Below `B * B`, two folds bring the sum back into one word. -/
theorem foldCarry_foldCarry_lt {s : Nat} (h : s < B * B) : foldCarry B (foldCarry B s) < B := by
  have hB : 0 < B := by
    rcases Nat.eq_zero_or_pos B with rfl | hB
    · simp at h
    · exact hB
  have hr : s % B < B := Nat.mod_lt _ hB
  have hq : s / B < B := Nat.div_lt_of_lt_mul h
  by_cases hlt : foldCarry B s < B
  · rw [foldCarry_of_lt hlt]
    exact hlt
  · have hle : foldCarry B s < 2 * B - 1 := by unfold foldCarry; omega
    have hdiv : foldCarry B s / B = 1 := by
      rw [Nat.div_eq_iff hB]
      omega
    have hmod : foldCarry B s % B = foldCarry B s - B := by
      have := Nat.div_add_mod (foldCarry B s) B
      rw [hdiv] at this
      omega
    rw [foldCarry, hdiv, hmod]
    omega

/-- Two words below `B` with the same residue modulo `B - 1` are equal, once it is known that
    they are zero together. -/
theorem eq_of_mod_eq {a b : Nat} (ha : a < B) (hb : b < B) (hz : a = 0 ↔ b = 0)
    (hm : a % (B - 1) = b % (B - 1)) : a = b := by
  have key : ∀ x, x < B → x = B - 1 ∨ x % (B - 1) = x := by
    intro x hx
    rcases Nat.lt_or_ge x (B - 1) with h | h
    · exact Or.inr (Nat.mod_eq_of_lt h)
    · exact Or.inl (by omega)
  rcases key a ha with h₁ | h₁ <;> rcases key b hb with h₂ | h₂
  · rw [h₁, h₂]
  · -- `a` is the all-ones word, so `b` has residue zero, and `b` is not zero
    rw [h₁, Nat.mod_self, h₂] at hm
    omega
  · rw [h₂, Nat.mod_self, h₁] at hm
    omega
  · rw [h₁, h₂] at hm
    exact hm

/-! ## The word-by-word sum -/

theorem eacAdd_eq_foldCarry {a b : Nat} (ha : a < B) (hb : b < B) :
    eacAdd B a b = foldCarry B (a + b) := by
  unfold eacAdd
  split
  · rename_i h
    rw [foldCarry_of_lt h]
  · rename_i h
    have hdiv : (a + b) / B = 1 := by
      rw [Nat.div_eq_iff (by omega)]
      omega
    have hmod := Nat.div_add_mod (a + b) B
    rw [hdiv] at hmod
    rw [foldCarry, hdiv]
    omega

theorem eacAdd_lt {a b : Nat} (ha : a < B) (hb : b < B) : eacAdd B a b < B := by
  unfold eacAdd
  split <;> omega

theorem foldl_eacAdd_spec {ws : List Nat} (hw : ∀ w ∈ ws, w < B) :
    ∀ {a : Nat}, a < B →
      ws.foldl (eacAdd B) a < B ∧
      (ws.foldl (eacAdd B) a = 0 ↔ a + ws.sum = 0) ∧
      ws.foldl (eacAdd B) a % (B - 1) = (a + ws.sum) % (B - 1) := by
  induction ws with
  | nil => intro a ha; simp [ha]
  | cons w ws ih =>
    intro a ha
    have hwB : w < B := hw w (by simp)
    obtain ⟨hlt, hz, hm⟩ := ih (fun x hx => hw x (by simp [hx])) (eacAdd_lt ha hwB)
    have hB : 0 < B := by omega
    have hfold : eacAdd B a w = foldCarry B (a + w) := eacAdd_eq_foldCarry ha hwB
    refine ⟨hlt, ?_, ?_⟩
    · rw [List.foldl_cons, hz, List.sum_cons]
      have hzero : eacAdd B a w = 0 ↔ a + w = 0 := by
        unfold eacAdd
        split <;> omega
      omega
    · rw [List.foldl_cons, hm, List.sum_cons, hfold, Nat.add_mod, foldCarry_mod hB, ← Nat.add_mod,
        Nat.add_assoc]

theorem onesSum_lt (hB : 0 < B) {ws : List Nat} (hw : ∀ w ∈ ws, w < B) : onesSum B ws < B :=
  (foldl_eacAdd_spec hw hB).1

theorem onesSum_eq_zero_iff (hB : 0 < B) {ws : List Nat} (hw : ∀ w ∈ ws, w < B) :
    onesSum B ws = 0 ↔ ws.sum = 0 := by
  simpa [onesSum] using (foldl_eacAdd_spec hw hB).2.1

theorem onesSum_mod (hB : 0 < B) {ws : List Nat} (hw : ∀ w ∈ ws, w < B) :
    onesSum B ws % (B - 1) = ws.sum % (B - 1) := by
  simpa [onesSum] using (foldl_eacAdd_spec hw hB).2.2

/-- **Two folds of the plain sum are the ones' complement sum**, as long as the plain sum fits
    in two words. -/
theorem fold_fold_eq_onesSum {ws : List Nat} (hw : ∀ w ∈ ws, w < B) (hs : ws.sum < B * B) :
    foldCarry B (foldCarry B ws.sum) = onesSum B ws := by
  have hB : 0 < B := by
    rcases Nat.eq_zero_or_pos B with rfl | hB
    · simp at hs
    · exact hB
  refine eq_of_mod_eq (foldCarry_foldCarry_lt hs) (onesSum_lt hB hw) ?_ ?_
  · rw [onesSum_eq_zero_iff hB hw]
    constructor
    · intro h0
      rcases Nat.eq_zero_or_pos ws.sum with h | h
      · exact h
      · have := foldCarry_pos (B := B) (foldCarry_pos (B := B) h)
        omega
    · intro h
      rw [h]
      simp [foldCarry]
  · rw [foldCarry_mod hB, foldCarry_mod hB, onesSum_mod hB hw]

/-- The sum is the all-ones word exactly when the plain sum is a positive multiple of `B - 1`. -/
theorem onesSum_eq_top_iff (hB : 1 < B) {ws : List Nat} (hw : ∀ w ∈ ws, w < B) :
    onesSum B ws = B - 1 ↔ 0 < ws.sum ∧ (B - 1) ∣ ws.sum := by
  have hlt := onesSum_lt (by omega) hw
  have hz := onesSum_eq_zero_iff (by omega) hw
  have hm := onesSum_mod (by omega) hw
  constructor
  · intro h
    refine ⟨by omega, ?_⟩
    rw [h, Nat.mod_self] at hm
    exact Nat.dvd_of_mod_eq_zero hm.symm
  · rintro ⟨hpos, hdvd⟩
    refine eq_of_mod_eq hlt (by omega) (by omega) ?_
    rw [hm, Nat.mod_self, Nat.mod_eq_zero_of_dvd hdvd]

/-- Appending the complement of the sum makes the sum all ones. This is what lets a writer
    close a block with its own check word. -/
theorem onesSum_append_complement (hB : 1 < B) {ws : List Nat} (hw : ∀ w ∈ ws, w < B) :
    onesSum B (ws ++ [B - 1 - onesSum B ws]) = B - 1 := by
  have hlt := onesSum_lt (by omega) hw
  rw [onesSum, List.foldl_append, List.foldl_cons, List.foldl_nil, ← onesSum]
  unfold eacAdd
  split <;> omega

/-! ## One word changed -/

theorem sum_set_add {ws : List Nat} {k : Nat} (hk : k < ws.length) (w : Nat) :
    (ws.set k w).sum + ws[k] = ws.sum + w := by
  have hsplit := List.sum_take_add_sum_drop ws k
  rw [List.drop_eq_getElem_cons hk, List.sum_cons] at hsplit
  rw [List.sum_set, if_pos hk]
  omega

/-- **What an all-ones sum cannot see.** If it stays all ones when one word is replaced, the word
    is the same, or zero and all ones have been exchanged. -/
theorem eq_of_onesSum_set (hB : 1 < B) {ws : List Nat} (hw : ∀ w ∈ ws, w < B) {k w : Nat}
    (hk : k < ws.length) (hwB : w < B) (h : onesSum B ws = B - 1)
    (h' : onesSum B (ws.set k w) = B - 1) :
    w = ws[k] ∨ ws[k] = 0 ∧ w = B - 1 ∨ ws[k] = B - 1 ∧ w = 0 := by
  have hkB := hw ws[k] (List.getElem_mem hk)
  have hset : ∀ x ∈ ws.set k w, x < B := by
    intro x hx
    rcases List.mem_or_eq_of_mem_set hx with hx | rfl
    · exact hw x hx
    · exact hwB
  obtain ⟨-, a, ha⟩ := (onesSum_eq_top_iff hB hw).mp h
  obtain ⟨-, b, hb⟩ := (onesSum_eq_top_iff hB hset).mp h'
  have hsum := sum_set_add hk w
  rw [ha, hb] at hsum
  -- the two words differ by a multiple of `B - 1`, and by no more than one
  obtain hlt | heq | hgt := Nat.lt_trichotomy a b
  · obtain ⟨d, rfl⟩ := Nat.exists_eq_add_of_lt hlt
    have hexp : (B - 1) * (a + d + 1) = (B - 1) * a + (B - 1) * d + (B - 1) := by ring
    omega
  · subst heq
    omega
  · obtain ⟨d, rfl⟩ := Nat.exists_eq_add_of_lt hgt
    have hexp : (B - 1) * (b + d + 1) = (B - 1) * b + (B - 1) * d + (B - 1) := by ring
    omega

end Lib
end AmcPci
