import Mathlib.Algebra.Order.Ring.Nat
import Mathlib.Tactic.Common

/-!
# Rounding to multiples

`floorTo a n` and `ceilTo a n` are the multiples of `a` next to `n`. The first is used through the
equivalence that defines it, `le_floorTo_iff`: a multiple of `a` is below `floorTo a n` exactly
when it is below `n`. The second is a multiple of `a` that is no less than `n` and no `a` above it.

Hardware and kernels round with masks. For `a` a power of two, `x &&& (a - 1)` is the remainder
and `x &&& ~~~(a - 1)` is `floorTo`, in machine words of any width.
-/

namespace AmcPci
namespace Lib

/-! ## Natural numbers -/

variable {a m n : Nat}

/-- The largest multiple of `a` that is at most `x`. -/
def floorTo (a n : Nat) : Nat := n - n % a

/-- The smallest multiple of `a` that is at least `x`. -/
def ceilTo (a n : Nat) : Nat := floorTo a (n + (a - 1))

theorem floorTo_add_mod (a n : Nat) : floorTo a n + n % a = n :=
  Nat.sub_add_cancel (Nat.mod_le n a)

theorem dvd_floorTo (a n : Nat) : a ∣ floorTo a n := Nat.dvd_sub_mod n

theorem floorTo_le (a n : Nat) : floorTo a n ≤ n := Nat.sub_le n (n % a)

/-- A multiple of `a` is below `floorTo a n` exactly when it is below `n`. -/
theorem le_floorTo_iff (ha : 0 < a) (hm : a ∣ m) : m ≤ floorTo a n ↔ m ≤ n := by
  constructor
  · exact fun h => Nat.le_trans h (floorTo_le a n)
  · intro h
    by_contra hlt
    -- two multiples of `a` that differ, differ by `a`
    have hgap : a ≤ m - floorTo a n :=
      Nat.le_of_dvd (by omega) (Nat.dvd_sub hm (dvd_floorTo a n))
    have hrem := Nat.mod_lt n ha
    have hsplit := floorTo_add_mod a n
    omega

theorem floorTo_lt_iff (ha : 0 < a) (hm : a ∣ m) : floorTo a n < m ↔ n < m := by
  rw [← Nat.not_le, le_floorTo_iff ha hm, Nat.not_le]

theorem floorTo_pos_iff (ha : 0 < a) : 0 < floorTo a n ↔ a ≤ n := by
  rw [← le_floorTo_iff ha (Nat.dvd_refl a)]
  exact ⟨fun h => Nat.le_of_dvd h (dvd_floorTo a n), fun h => Nat.lt_of_lt_of_le ha h⟩

theorem dvd_ceilTo (a n : Nat) : a ∣ ceilTo a n := dvd_floorTo a _

theorem le_ceilTo (ha : 0 < a) (n : Nat) : n ≤ ceilTo a n := by
  have hrem := Nat.mod_lt (n + (a - 1)) ha
  have hsplit := floorTo_add_mod a (n + (a - 1))
  rw [ceilTo]
  omega

theorem ceilTo_lt_add (ha : 0 < a) (n : Nat) : ceilTo a n < n + a := by
  have hle := floorTo_le a (n + (a - 1))
  rw [ceilTo]
  omega

theorem dvd_min (hm : a ∣ m) (hn : a ∣ n) : a ∣ min m n := by
  rcases Nat.le_total m n with hle | hle
  · rwa [Nat.min_eq_left hle]
  · rwa [Nat.min_eq_right hle]

/-- Rounding down commutes with taking a multiple away. -/
theorem floorTo_sub (hm : a ∣ m) (hle : m ≤ n) : floorTo a (n - m) = floorTo a n - m := by
  obtain ⟨q, rfl⟩ := hm
  have hrem : (n - a * q) % a = n % a := Nat.sub_mul_mod hle
  rw [floorTo, floorTo, hrem]
  omega

/-! ## Machine words -/

variable {w k : Nat} {x y b : BitVec w}

theorem toNat_sub_one (hb : b.toNat = 2 ^ k) : (b - 1).toNat = 2 ^ k - 1 := by
  have hpos := Nat.two_pow_pos k
  have hlt := b.isLt
  rcases Nat.eq_zero_or_pos w with rfl | hw
  · simp at hlt
    omega
  · have hone : (1 : BitVec w).toNat = 1 := by
      simp [Nat.mod_eq_of_lt (Nat.one_lt_two_pow (Nat.ne_of_gt hw))]
    rw [BitVec.toNat_sub_of_le (by rw [BitVec.le_def]; omega), hb, hone]

/-- The low bits are the remainder. -/
theorem toNat_and_sub_one (hb : b.toNat = 2 ^ k) (x : BitVec w) :
    (x &&& (b - 1)).toNat = x.toNat % b.toNat := by
  rw [BitVec.toNat_and, toNat_sub_one hb, Nat.and_two_pow_sub_one_eq_mod, hb]

/-- The high bits are the number rounded down. -/
theorem toNat_and_not_sub_one (hb : b.toNat = 2 ^ k) (x : BitVec w) :
    (x &&& ~~~(b - 1)).toNat = floorTo b.toNat x.toNat := by
  have hdisjoint : (x &&& ~~~(b - 1)) &&& (x &&& (b - 1)) = 0#w := by
    ext i hi
    simp
    grind
  have hunion : (x &&& ~~~(b - 1)) ||| (x &&& (b - 1)) = x := by
    ext i hi
    simp
    grind
  have hsum := BitVec.toNat_add_of_and_eq_zero hdisjoint
  rw [BitVec.add_eq_or_of_and_eq_zero _ _ hdisjoint, hunion, toNat_and_sub_one hb] at hsum
  rw [floorTo]
  omega

theorem and_sub_one_eq_zero_iff (hb : b.toNat = 2 ^ k) (x : BitVec w) :
    x &&& (b - 1) = 0 ↔ b.toNat ∣ x.toNat := by
  rw [← BitVec.toNat_inj, toNat_and_sub_one hb, Nat.dvd_iff_mod_eq_zero]
  simp

end Lib
end AmcPci
