import Mathlib.Tactic.Ring

/-!
# Tables of hexadecimal numbers

A table in a text file is a row of numerals with something between them. Core's `Nat.toDigits`
writes a numeral; what is here is the other direction, for base 16 with lower-case digits and
any number of leading zeros, and the way from a joined row back to its cells.

`readHex_padded` is the round trip of one cell, `splitOn_intercalate_blank` that of the row: a
separator that is a comma with blanks is a comma once the blanks are gone.
-/

namespace AmcPci
namespace Lib

/-! ## One numeral -/

/-- The value of one hexadecimal digit. -/
def hexValue (c : Char) : Option Nat :=
  if '0' ≤ c ∧ c ≤ '9' then some (c.toNat - '0'.toNat)
  else if 'a' ≤ c ∧ c ≤ 'f' then some (c.toNat - 'a'.toNat + 10)
  else none

/-- Read digits behind a numeral of value `n`. -/
def readHexFrom : Nat → List Char → Option Nat
  | n, [] => some n
  | n, c :: cs => (hexValue c).bind fun d => readHexFrom (16 * n + d) cs

/-- The value of a numeral. -/
def readHex (cs : List Char) : Option Nat := readHexFrom 0 cs

/-- At least `width` digits, the missing ones zeros in front. -/
def padded (width n : Nat) : List Char :=
  List.replicate (width - (Nat.toDigits 16 n).length) '0' ++ Nat.toDigits 16 n

theorem hexValue_digitChar {d : Nat} (h : d < 16) : hexValue d.digitChar = some d := by
  have hall : ∀ d : Fin 16, hexValue d.val.digitChar = some d.val := by decide
  exact hall ⟨d, h⟩

theorem readHexFrom_append (n : Nat) (cs ds : List Char) :
    readHexFrom n (cs ++ ds) = (readHexFrom n cs).bind fun m => readHexFrom m ds := by
  induction cs generalizing n with
  | nil => rfl
  | cons c cs ih =>
    rw [List.cons_append, readHexFrom, readHexFrom]
    cases hexValue c with
    | none => rfl
    | some d => exact ih (16 * n + d)

theorem readHexFrom_digit (n : Nat) {d : Nat} (h : d < 16) :
    readHexFrom n [d.digitChar] = some (16 * n + d) := by
  rw [readHexFrom, hexValue_digitChar h]
  rfl

theorem readHex_toDigits (n : Nat) : readHex (Nat.toDigits 16 n) = some n := by
  induction n using Nat.base_induction 16 (by decide) with
  | single m hm =>
    rw [Nat.toDigits_of_lt_base hm, readHex, readHexFrom_digit 0 hm]
    simp
  | digit m k hk hm ih =>
    rw [← Nat.toDigits_append_toDigits (by decide) hm hk, readHex, readHexFrom_append,
      show readHexFrom 0 (Nat.toDigits 16 m) = some m from ih, Nat.toDigits_of_lt_base hk]
    exact readHexFrom_digit m hk

theorem readHexFrom_zeros (k : Nat) (cs : List Char) :
    readHexFrom 0 (List.replicate k '0' ++ cs) = readHexFrom 0 cs := by
  induction k with
  | zero => rfl
  | succ k ih =>
    rw [List.replicate_succ, List.cons_append, readHexFrom, show hexValue '0' = some 0 by decide]
    exact ih

/-- **A padded numeral is read back.** -/
theorem readHex_padded (width n : Nat) : readHex (padded width n) = some n := by
  rw [readHex, padded, readHexFrom_zeros]
  exact readHex_toDigits n

/-- A number that fits takes exactly the width. -/
theorem length_padded {width n : Nat} (hw : 0 < width) (h : n < 16 ^ width) :
    (padded width n).length = width := by
  have hle := (Nat.length_toDigits_le_iff (b := 16) (by decide) hw).mpr h
  rw [padded, List.length_append, List.length_replicate]
  omega

/-- Every character of a numeral is a digit. -/
theorem hexValue_of_readHexFrom {cs : List Char} : ∀ {n m : Nat}, readHexFrom n cs = some m →
    ∀ c ∈ cs, (hexValue c).isSome := by
  induction cs with
  | nil => intro n m _ c hc; cases hc
  | cons c cs ih =>
    intro n m h c' hc'
    rw [readHexFrom, Option.bind_eq_some_iff] at h
    obtain ⟨d, hd, h⟩ := h
    rcases List.mem_cons.mp hc' with rfl | hc'
    · rw [hd]
      rfl
    · exact ih h c' hc'

/-- A character that is no digit does not occur in a numeral. -/
theorem not_mem_padded {c : Char} (h : hexValue c = none) (width n : Nat) : c ∉ padded width n := by
  intro hc
  have hsome := hexValue_of_readHexFrom (readHex_padded width n) c hc
  rw [h] at hsome
  cases hsome

/-! ## A row of numerals -/

theorem map_intersperse {α β : Type} (f : α → β) (sep : α) (xs : List α) :
    (xs.intersperse sep).map f = (xs.map f).intersperse (f sep) := by
  induction xs with
  | nil => rfl
  | cons x xs ih =>
    cases xs with
    | nil => rfl
    | cons y ys =>
      simp only [List.map_cons] at ih
      simp only [List.map_cons, List.intersperse, ih]

theorem mem_of_mem_intercalate {α : Type} {sep : List α} {c : α} : ∀ {cells : List (List α)},
    c ∈ sep.intercalate cells → c ∈ sep ∨ ∃ cell ∈ cells, c ∈ cell := by
  intro cells
  induction cells with
  | nil => intro h; cases h
  | cons cell cells ih =>
    intro h
    cases cells with
    | nil => exact Or.inr ⟨cell, by simp, by simpa [List.intercalate] using h⟩
    | cons next cells =>
      rw [List.intercalate_cons_cons, List.mem_append, List.mem_append] at h
      rcases h with (h | h) | h
      · exact Or.inr ⟨cell, by simp, h⟩
      · exact Or.inl h
      · rcases ih h with hsep | ⟨cell', hcell', hc⟩
        · exact Or.inl hsep
        · exact Or.inr ⟨cell', List.mem_cons_of_mem _ hcell', hc⟩

/-- A row joined by `sep` and freed of blanks comes apart again at the comma, if that is what
    `sep` is without blanks, and the cells have neither. -/
theorem splitOn_intercalate_blank {blank : Char → Bool} {comma : Char} {sep : List Char}
    {cells : List (List Char)} (hsep : sep.filter (fun c => !blank c) = [comma]) (hne : cells ≠ [])
    (hblank : ∀ cell ∈ cells, ∀ c ∈ cell, blank c = false) (hcomma : ∀ cell ∈ cells, comma ∉ cell) :
    ((sep.intercalate cells).filter fun c => !blank c).splitOn comma = cells := by
  have hcells : cells.map (List.filter fun c => !blank c) = cells := by
    conv_rhs => rw [← List.map_id cells]
    refine List.map_congr_left fun cell hcell => List.filter_eq_self.mpr fun c hc => ?_
    rw [hblank cell hcell c hc]
    rfl
  rw [List.intercalate, List.filter_flatten, map_intersperse, hsep, hcells, ← List.intercalate]
  exact List.splitOn_intercalate comma hcomma hne

/-- Cells that are read one by one. -/
theorem mapM_map_eq_some {α β : Type} {f : α → Option β} {g : β → α}
    (h : ∀ v, f (g v) = some v) (vs : List β) : (vs.map g).mapM f = some vs := by
  induction vs with
  | nil => rfl
  | cons v vs ih =>
    rw [List.map_cons, List.mapM_cons, h, ih]
    rfl

end Lib
end AmcPci
