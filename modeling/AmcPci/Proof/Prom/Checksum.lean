import AmcPci.Proof.Prom.Accept
import AmcPci.Proof.Tool.Image

/-!
# Two checksums

`calc_checksum16` adds in a `u32` of the kernel, the tool's `checksum` in an integer of Python
that never wraps. For every byte string a PROM can hold they are the same function, and the
reason is the same for both: the plain sum of the words stays far below `2 ^ 32`, so the `u32`
does not wrap and two carry folds bring it back into one word.
-/

namespace AmcPci

open Lib

/-! ## The accumulator -/

/-- `result` of `calc_checksum16` after `n` turns of its loop. -/
def accumulator (buff : Nat → UInt8) (n : Nat) : UInt32 :=
  (List.range n).foldl (fun result i => result + u16At buff i) 0

theorem accumulator_succ (buff : Nat → UInt8) (n : Nat) :
    accumulator buff (n + 1) = accumulator buff n + u16At buff n := by
  simp [accumulator, List.range_succ]

theorem toNat_u16At_lt (buff : Nat → UInt8) (i : Nat) : (u16At buff i).toNat < 65536 := by
  have h₁ := (buff (2 * i)).toNat_lt
  have h₂ := (buff (2 * i + 1)).toNat_lt
  rw [toNat_u16At]
  omega

theorem accumulator_le (buff : Nat → UInt8) : ∀ n, n ≤ 65536 →
    (accumulator buff n).toNat ≤ 65535 * n := by
  intro n
  induction n with
  | zero => intro _; exact Nat.le_refl 0
  | succ n ih =>
    intro hn
    have hle := ih (by omega)
    have hlt := toNat_u16At_lt buff n
    rw [accumulator_succ, UInt32.toNat_add, Nat.mod_eq_of_lt (by omega)]
    omega

/-- No addition of `calc_checksum16` leaves the `u32`. -/
structure NoWrap (buff : Nat → UInt8) (size : Nat) : Prop where
  loop : ∀ i, i < size / 2 → (accumulator buff i).toNat + (u16At buff i).toNat < 2 ^ 32
  odd : size % 2 = 1 →
    (accumulator buff (size / 2)).toNat + ((buff (size - 1)).toUInt32 <<< 8).toNat < 2 ^ 32
  fold : ∀ result : UInt32, (result &&& (0xffff : UInt32)).toNat + (result >>> 16).toNat < 2 ^ 32

theorem noWrap (buff : Nat → UInt8) {size : Nat} (h : size ≤ promMaxLength) : NoWrap buff size where
  loop := by
    intro i hi
    have hmax : promMaxLength = 4096 := rfl
    have hacc := accumulator_le buff i (by omega)
    have hword := toNat_u16At_lt buff i
    omega
  odd := by
    intro _
    have hmax : promMaxLength = 4096 := rfl
    have hacc := accumulator_le buff (size / 2) (by omega)
    have hbyte := (buff (size - 1)).toNat_lt
    rw [toNat_toUInt32_shiftLeft_eight]
    omega
  fold := by
    intro result
    have hlt := result.toNat_lt
    have hlow : (result &&& (0xffff : UInt32)).toNat ≤ 0xffff := by
      rw [UInt32.toNat_and]
      exact Nat.and_le_right
    have hhigh : (result >>> 16).toNat = result.toNat / 65536 := by
      rw [UInt32.toNat_shiftRight]
      exact Nat.shiftRight_eq_div_pow result.toNat 16
    omega

/-! ## One function -/

theorem promLength_le {len : Nat} (h : len ≤ promMaxLength) : len ≤ 2 ^ 17 - 2 :=
  Nat.le_trans h (by decide)

theorem checksum_eq_onesChecksum {bs : List UInt8} (h : bs.length ≤ promMaxLength) :
    checksum bs = onesChecksum bs := checksum_eq (promLength_le h)

theorem calcChecksum16_eq_checksum {buff : Nat → UInt8} {bs : List UInt8} (hb : Holds buff 0 bs)
    (h : bs.length ≤ promMaxLength) : (calcChecksum16 buff bs.length).toNat = checksum bs := by
  rw [calcChecksum16_eq buff (promLength_le h), checksum_eq (promLength_le h),
    show peek buff 0 bs.length = bs from hb]

theorem onesChecksum_eq_zero_iff (bs : List UInt8) :
    onesChecksum bs = 0 ↔ 0 < (leWords bs).sum ∧ 65535 ∣ (leWords bs).sum := by
  have hlt := onesSum_lt (B := 65536) (by decide) (leWords_lt bs)
  rw [← onesSum_eq_top_iff (B := 65536) (by decide) (leWords_lt bs), onesChecksum]
  omega

theorem onesChecksum_close {bs : List UInt8} (heven : bs.length % 2 = 0)
    (h : bs.length + 2 ≤ promMaxLength) : onesChecksum (bs ++ leBytes 2 (checksum bs)) = 0 := by
  rw [onesChecksum, onesSum_close heven (promLength_le (by omega))]

/-- What the two checksums of the bytes `bs`, in C over the buffer `buff`, have to do with each
    other and with the words of `bs`. -/
structure ChecksumsAgree (buff : Nat → UInt8) (bs : List UInt8) : Prop where
  noWrap : NoWrap buff bs.length
  same : (calcChecksum16 buff bs.length).toNat = checksum bs
  /-- The complement of the ones' complement sum. -/
  meaning : checksum bs = 65535 - onesSum 65536 (leWords bs)
  zero_iff : calcChecksum16 buff bs.length = 0 ↔ 0 < (leWords bs).sum ∧ 65535 ∣ (leWords bs).sum
  /-- Two carry folds are enough. -/
  folds : foldCarry 65536 (foldCarry 65536 (leWords bs).sum) = onesSum 65536 (leWords bs)
  /-- Content closed with its own checksum has the checksum 0, in C and in Python. -/
  close : bs.length % 2 = 0 → bs.length + 2 ≤ promMaxLength →
    checksum (bs ++ leBytes 2 (checksum bs)) = 0 ∧
      ∀ closed, Holds closed 0 (bs ++ leBytes 2 (calcChecksum16 buff bs.length).toNat) →
        calcChecksum16 closed (bs.length + 2) = 0

/-- **The driver's checksum and the tool's are one function**, on every byte string no longer
    than a PROM and every buffer that holds it. -/
theorem checksums_agree {buff : Nat → UInt8} {bs : List UInt8} (hb : Holds buff 0 bs)
    (h : bs.length ≤ promMaxLength) : ChecksumsAgree buff bs where
  noWrap := noWrap buff h
  same := calcChecksum16_eq_checksum hb h
  meaning := checksum_eq (promLength_le h)
  zero_iff := by
    rw [← onesChecksum_eq_zero_iff, ← checksum_eq_onesChecksum h,
      ← calcChecksum16_eq_checksum hb h, ← UInt16.toNat_inj]
    rfl
  folds := by
    have hsum := leWords_sum_le bs
    have hmax : promMaxLength = 4096 := rfl
    exact fold_fold_eq_onesSum (leWords_lt bs) (by omega)
  close := by
    intro heven hroom
    have hclose := onesChecksum_close heven hroom
    have hlen : (bs ++ leBytes 2 (checksum bs)).length = bs.length + 2 := by simp
    refine ⟨?_, ?_⟩
    · rw [checksum_eq_onesChecksum (by rw [hlen]; exact hroom)]
      exact hclose
    · intro closed hclosed
      rw [calcChecksum16_eq_checksum hb h] at hclosed
      have hsame := calcChecksum16_eq_checksum hclosed (by rw [hlen]; exact hroom)
      rw [hlen] at hsame
      rw [← UInt16.toNat_inj, hsame, checksum_eq_onesChecksum (by rw [hlen]; exact hroom)]
      exact hclose

theorem checksums_agree_diag : ChecksumsAgree (storeOf [0x44, 0x49, 0x41, 0x47, 0x01] 0)
    [0x44, 0x49, 0x41, 0x47, 0x01] :=
  checksums_agree (holds_storeOf _ 0) (by decide)

end AmcPci
