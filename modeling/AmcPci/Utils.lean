import AmcPci.Lib.OnesSum
import AmcPci.Lib.Bytes

/-!
# `utils.c`

`calc_checksum16` adds 16-bit loads into a `u32` and folds twice. Its meaning is
`calcChecksum16_eq`: the complement of the ones' complement sum of the little-endian words, for
every size whose words cannot overflow the accumulator.
-/

namespace AmcPci

open Lib

/-- `ptr[i]` for `u16 *ptr = (u16 *) buff`, on a little-endian host. -/
def u16At (buff : Nat → UInt8) (i : Nat) : UInt32 :=
  (buff (2 * i)).toUInt32 + (buff (2 * i + 1)).toUInt32 <<< 8

/-- `calc_checksum16`. -/
def calcChecksum16 (buff : Nat → UInt8) (size : Nat) : UInt16 :=
  let result : UInt32 := (List.range (size / 2)).foldl (fun result i => result + u16At buff i) 0
  let result := if size % 2 = 1 then result + (buff (size - 1)).toUInt32 <<< 8 else result
  let result : UInt32 := (result &&& (0xffff : UInt32)) + (result >>> 16)
  let result : UInt32 := (result &&& (0xffff : UInt32)) + (result >>> 16)
  ((~~~result) &&& (0xffff : UInt32)).toUInt16

/-! ## Its meaning -/

theorem toNat_toUInt32_shiftLeft_eight (b : UInt8) : (b.toUInt32 <<< 8).toNat = 256 * b.toNat := by
  have hb := b.toNat_lt
  rw [UInt32.toNat_shiftLeft, UInt8.toNat_toUInt32, Nat.shiftLeft_eq]
  simp
  omega

theorem toNat_u16At (buff : Nat → UInt8) (i : Nat) :
    (u16At buff i).toNat = (buff (2 * i)).toNat + 256 * (buff (2 * i + 1)).toNat := by
  have h₁ := (buff (2 * i)).toNat_lt
  have h₂ := (buff (2 * i + 1)).toNat_lt
  rw [u16At, UInt32.toNat_add, toNat_toUInt32_shiftLeft_eight, UInt8.toNat_toUInt32]
  omega

/-- The accumulation loop, as long as the sum stays a `u32`. -/
theorem toNat_foldl_u16At (buff : Nat → UInt8) : ∀ (is : List Nat) (acc : UInt32),
    acc.toNat + (is.map fun i => (u16At buff i).toNat).sum < 2 ^ 32 →
    (is.foldl (fun result i => result + u16At buff i) acc).toNat
      = acc.toNat + (is.map fun i => (u16At buff i).toNat).sum := by
  intro is
  induction is with
  | nil => intro acc _; simp
  | cons i is ih =>
    intro acc h
    rw [List.map_cons, List.sum_cons] at h
    have hadd : (acc + u16At buff i).toNat = acc.toNat + (u16At buff i).toNat := by
      rw [UInt32.toNat_add, Nat.mod_eq_of_lt (by omega)]
    rw [List.foldl_cons, ih _ (by rw [hadd]; omega), hadd, List.map_cons, List.sum_cons]
    omega

/-- One carry fold of the accumulator. -/
theorem toNat_fold (r : UInt32) :
    ((r &&& (0xffff : UInt32)) + (r >>> 16)).toNat = foldCarry 65536 r.toNat := by
  have hr := r.toNat_lt
  have hlow : (r &&& (0xffff : UInt32)).toNat = r.toNat % 65536 := by
    rw [UInt32.toNat_and]
    exact Nat.and_two_pow_sub_one_eq_mod r.toNat 16
  have hhigh : (r >>> 16).toNat = r.toNat / 65536 := by
    rw [UInt32.toNat_shiftRight]
    exact Nat.shiftRight_eq_div_pow r.toNat 16
  rw [UInt32.toNat_add, hlow, hhigh, foldCarry]
  omega

theorem toNat_complement (r : UInt32) (h : r.toNat < 65536) :
    ((~~~r) &&& (0xffff : UInt32)).toUInt16.toNat = 65535 - r.toNat := by
  rw [UInt32.toNat_toUInt16, UInt32.toNat_and, UInt32.toNat_not]
  have hmod : (UInt32.size - 1 - r.toNat) &&& (0xffff : UInt32).toNat
      = (UInt32.size - 1 - r.toNat) % 65536 := Nat.and_two_pow_sub_one_eq_mod _ 16
  rw [hmod]
  simp only [UInt32.size]
  omega

/-- The words the loop adds, and the odd byte after it, are the little-endian words. -/
theorem sum_words (buff : Nat → UInt8) (size : Nat) :
    ((List.range (size / 2)).map fun i => (u16At buff i).toNat).sum
      + (if size % 2 = 1 then 256 * (buff (size - 1)).toNat else 0)
      = (leWords (peek buff 0 size)).sum := by
  simp only [toNat_u16At]
  exact (sum_leWords_peek buff size).symm

/-- **The checksum's meaning.** No size the driver checks comes near the bound: at `2 ^ 17`
    bytes the accumulator still cannot wrap. -/
theorem calcChecksum16_eq (buff : Nat → UInt8) {size : Nat} (h : size ≤ 2 ^ 17 - 2) :
    (calcChecksum16 buff size).toNat = 65535 - onesSum 65536 (leWords (peek buff 0 size)) := by
  have hle := leWords_sum_le (peek buff 0 size)
  rw [length_peek] at hle
  have hsum := sum_words buff size
  have hS : (leWords (peek buff 0 size)).sum < 2 ^ 32 := by omega
  have hloop := toNat_foldl_u16At buff (List.range (size / 2)) 0 (by
    simp only [UInt32.toNat_zero, Nat.zero_add]
    omega)
  rw [UInt32.toNat_zero, Nat.zero_add] at hloop
  unfold calcChecksum16
  generalize hacc : (List.range (size / 2)).foldl (fun result i => result + u16At buff i) 0 = acc
    at hloop ⊢
  -- the accumulator after the loop and the odd byte is the plain sum
  have htotal : (if size % 2 = 1 then acc + (buff (size - 1)).toUInt32 <<< 8 else acc).toNat
      = (leWords (peek buff 0 size)).sum := by
    rw [← hsum] at hS ⊢
    split
    · rename_i hodd
      rw [if_pos hodd] at hS
      rw [UInt32.toNat_add, toNat_toUInt32_shiftLeft_eight, hloop, Nat.mod_eq_of_lt hS]
    · rename_i heven
      rw [hloop, Nat.add_zero]
  have hfold : foldCarry 65536 (foldCarry 65536 (leWords (peek buff 0 size)).sum)
      = onesSum 65536 (leWords (peek buff 0 size)) :=
    fold_fold_eq_onesSum (leWords_lt _) (by omega)
  have hlt := onesSum_lt (B := 65536) (by omega) (leWords_lt (peek buff 0 size))
  rw [toNat_complement, toNat_fold, toNat_fold, htotal, hfold]
  rw [toNat_fold, toNat_fold, htotal, hfold]
  exact hlt

/-- The test `calc_checksum16(…) == 0`, on the bytes. -/
theorem calcChecksum16_eq_zero_iff (buff : Nat → UInt8) {size : Nat} (h : size ≤ 2 ^ 17 - 2) :
    calcChecksum16 buff size = 0 ↔ onesSum 65536 (leWords (peek buff 0 size)) = 65535 := by
  have heq := calcChecksum16_eq buff h
  have hlt := onesSum_lt (B := 65536) (by omega) (leWords_lt (peek buff 0 size))
  rw [← UInt16.toNat_inj, heq]
  simp
  omega

end AmcPci
