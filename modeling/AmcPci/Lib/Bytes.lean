import Mathlib.Tactic.Ring
import Mathlib.Tactic.Linarith

/-!
# Bytes in an addressed store

A store is a function `Nat → UInt8`. `Holds m p bs` says that the store `m` contains the byte
string `bs` from address `p` on; it is the only bridge between the two shapes data takes in a
driver: the byte string a writer produced, and the memory a reader indexes.

The second half is the little-endian number format: `leValue` reads a byte string as a number
and `leBytes n` writes a number into `n` bytes.
-/

namespace AmcPci
namespace Lib

/-! ## Stores -/

/-- The bytes of the store `m` at `p, p + 1, …, p + n - 1`. -/
def peek (m : Nat → UInt8) (p n : Nat) : List UInt8 := (List.range n).map fun k => m (p + k)

@[simp] theorem length_peek (m : Nat → UInt8) (p n : Nat) : (peek m p n).length = n := by
  simp [peek]

theorem peek_congr {m m' : Nat → UInt8} {p n : Nat} (h : ∀ k, k < n → m (p + k) = m' (p + k)) :
    peek m p n = peek m' p n :=
  List.map_congr_left fun k hk => h k (List.mem_range.mp hk)

theorem peek_add (m : Nat → UInt8) (p a b : Nat) :
    peek m p (a + b) = peek m p a ++ peek m (p + a) b := by
  simp [peek, List.range_add, Nat.add_assoc, Function.comp_def]

/-- `m` holds the bytes `bs` from address `p` on. -/
def Holds (m : Nat → UInt8) (p : Nat) (bs : List UInt8) : Prop := peek m p bs.length = bs

instance (m : Nat → UInt8) (p : Nat) (bs : List UInt8) : Decidable (Holds m p bs) :=
  inferInstanceAs (Decidable (_ = _))

theorem holds_append {m : Nat → UInt8} {p : Nat} {as bs : List UInt8} :
    Holds m p (as ++ bs) ↔ Holds m p as ∧ Holds m (p + as.length) bs := by
  unfold Holds
  rw [List.length_append, peek_add]
  constructor
  · intro h
    exact List.append_inj h (by simp)
  · rintro ⟨h₁, h₂⟩
    rw [h₁, h₂]

theorem holds_cons {m : Nat → UInt8} {p : Nat} {b : UInt8} {bs : List UInt8} :
    Holds m p (b :: bs) ↔ m p = b ∧ Holds m (p + 1) bs := by
  have h := @holds_append m p [b] bs
  simpa [Holds, peek] using h

theorem Holds.get {m : Nat → UInt8} {p : Nat} {bs : List UInt8} (h : Holds m p bs) {k : Nat}
    (hk : k < bs.length) : m (p + k) = bs[k] := by
  have hlen : k < (peek m p bs.length).length := by simpa using hk
  have hget : (peek m p bs.length)[k] = bs[k] := by simp only [show peek m p bs.length = bs from h]
  simpa [peek] using hget

theorem holds_of_get {m : Nat → UInt8} {p : Nat} {bs : List UInt8}
    (h : ∀ k (hk : k < bs.length), m (p + k) = bs[k]) : Holds m p bs := by
  refine List.ext_getElem (by simp) fun k h₁ h₂ => ?_
  simpa [peek] using h k h₂

/-- What a store holds is seen through any window onto it. -/
theorem Holds.congr {m m' : Nat → UInt8} {p : Nat} {bs : List UInt8} (h : Holds m p bs)
    (he : ∀ k, k < bs.length → m' (p + k) = m (p + k)) : Holds m' p bs :=
  holds_of_get fun k hk => (he k hk).trans (h.get hk)

/-- The store that holds `bs` from address zero on and `fill` after it. -/
def storeOf (bs : List UInt8) (fill : UInt8) : Nat → UInt8 := fun i => bs.getD i fill

theorem holds_storeOf (bs : List UInt8) (fill : UInt8) : Holds (storeOf bs fill) 0 bs :=
  holds_of_get fun k hk => by simp [storeOf, hk]

/-- The store after the bytes `bs` have been copied to `p`. -/
def memcpy (dst : Nat → UInt8) (p : Nat) (bs : List UInt8) : Nat → UInt8 :=
  fun i => if p ≤ i ∧ i < p + bs.length then bs.getD (i - p) 0 else dst i

theorem memcpy_of_lt {dst : Nat → UInt8} {p : Nat} {bs : List UInt8} {i : Nat}
    (h : i < p ∨ p + bs.length ≤ i) : memcpy dst p bs i = dst i := by
  rw [memcpy, if_neg (by omega)]

theorem memcpy_of_mem {dst : Nat → UInt8} {p : Nat} {bs : List UInt8} {k : Nat}
    (h : k < bs.length) : memcpy dst p bs (p + k) = bs[k] := by
  rw [memcpy, if_pos (by omega), Nat.add_sub_cancel_left]
  simp [h]

theorem memcpy_nil (dst : Nat → UInt8) (p : Nat) : memcpy dst p [] = dst := by
  funext i
  exact memcpy_of_lt (by simp only [List.length_nil]; omega)

/-- One more byte is copied. -/
theorem memcpy_peek_succ (dst src : Nat → UInt8) (p q n : Nat) :
    memcpy dst p (peek src q (n + 1))
      = Function.update (memcpy dst p (peek src q n)) (p + n) (src (q + n)) := by
  funext i
  by_cases hlast : i = p + n
  · subst hlast
    rw [Function.update_self, memcpy_of_mem (by simp)]
    simp [peek]
  · rw [Function.update_of_ne hlast]
    by_cases hin : p ≤ i ∧ i < p + n
    · obtain ⟨k, rfl⟩ := Nat.exists_eq_add_of_le hin.1
      have hk : k < n := by omega
      rw [memcpy_of_mem (by simp; omega), memcpy_of_mem (by simpa using hk)]
      simp [peek]
    · rw [memcpy_of_lt (by rw [length_peek]; omega), memcpy_of_lt (by rw [length_peek]; omega)]

/-- A window onto what was copied is a window onto where it came from. -/
theorem peek_memcpy_peek {dst src : Nat → UInt8} {p q n o c : Nat} (h : o + c ≤ n) :
    peek (memcpy dst p (peek src q n)) (p + o) c = peek src (q + o) c := by
  refine List.map_congr_left fun k hk => ?_
  have hk : o + k < (peek src q n).length := by
    have hlt := List.mem_range.mp hk
    rw [length_peek]
    omega
  rw [Nat.add_assoc, memcpy_of_mem hk]
  simp [peek, Nat.add_assoc]

theorem peek_memcpy {dst : Nat → UInt8} {p n : Nat} {bs : List UInt8} (h : n ≤ bs.length) :
    peek (memcpy dst p bs) p n = bs.take n := by
  refine List.ext_getElem (by simp [h]) fun k h₁ h₂ => ?_
  rw [length_peek] at h₁
  have hk : k < bs.length := Nat.lt_of_lt_of_le h₁ h
  simp [peek, memcpy_of_mem hk]

/-! ## Little-endian numbers -/

/-- The number a byte string spells, least significant byte first. -/
def leValue : List UInt8 → Nat
  | [] => 0
  | b :: bs => b.toNat + 256 * leValue bs

/-- The `n` low bytes of a number, least significant byte first. -/
def leBytes : Nat → Nat → List UInt8
  | 0, _ => []
  | n + 1, v => UInt8.ofNat v :: leBytes n (v / 256)

@[simp] theorem length_leBytes (n v : Nat) : (leBytes n v).length = n := by
  induction n generalizing v with
  | zero => rfl
  | succ n ih => simp [leBytes, ih]

theorem leValue_lt (bs : List UInt8) : leValue bs < 256 ^ bs.length := by
  induction bs with
  | nil => simp [leValue]
  | cons b bs ih =>
    have hb := b.toNat_lt
    rw [leValue, List.length_cons, pow_succ]
    omega

theorem leValue_append (as bs : List UInt8) :
    leValue (as ++ bs) = leValue as + 256 ^ as.length * leValue bs := by
  induction as with
  | nil => simp [leValue]
  | cons a as ih =>
    rw [List.cons_append, leValue, ih, leValue, List.length_cons, pow_succ]
    ring

/-- **What is written is read back**, up to the width it was written in. -/
theorem leValue_leBytes (n v : Nat) : leValue (leBytes n v) = v % 256 ^ n := by
  induction n generalizing v with
  | zero => simp [leBytes, leValue, Nat.mod_one]
  | succ n ih =>
    have hb : (UInt8.ofNat v).toNat = v % 256 := by simp
    rw [leBytes, leValue, ih, hb, pow_succ, Nat.mul_comm (256 ^ n), Nat.mod_mul]

/-- A byte string read as a number and written into more bytes has zeros behind it. -/
theorem leBytes_leValue_pad : ∀ {bs : List UInt8} {n : Nat}, bs.length ≤ n →
    leBytes n (leValue bs) = bs ++ List.replicate (n - bs.length) 0 := by
  intro bs
  induction bs with
  | nil =>
    intro n _
    induction n with
    | zero => rfl
    | succ n ih =>
      rw [leValue, leBytes]
      exact congrArg (0 :: ·) (ih (Nat.zero_le n))
  | cons b bs ih =>
    intro n h
    cases n with
    | zero => exact absurd h (by simp)
    | succ n =>
      have hb := b.toNat_lt
      have hdiv : (b.toNat + 256 * leValue bs) / 256 = leValue bs := by omega
      have hhead : UInt8.ofNat (b.toNat + 256 * leValue bs) = b := by
        apply UInt8.toNat_inj.mp
        rw [UInt8.toNat_ofNat']
        omega
      rw [leValue, leBytes, hdiv, hhead, ih (by simpa using h), List.length_cons,
        Nat.add_sub_add_right, List.cons_append]

theorem leBytes_leValue (bs : List UInt8) : leBytes bs.length (leValue bs) = bs := by
  rw [leBytes_leValue_pad (Nat.le_refl _), Nat.sub_self, List.replicate_zero, List.append_nil]

/-! ## Sixteen-bit words -/

/-- The little-endian 16-bit words of a byte string. A last odd byte counts as the high byte of
    a word whose low byte is missing. -/
def leWords : List UInt8 → List Nat
  | [] => []
  | [b] => [b.toNat * 256]
  | a :: b :: bs => (a.toNat + 256 * b.toNat) :: leWords bs

theorem leWords_lt : ∀ (bs : List UInt8), ∀ w ∈ leWords bs, w < 65536
  | [], _, h => absurd h (by simp [leWords])
  | [b], w, h => by
    have hb := b.toNat_lt
    rw [List.mem_singleton.mp h]
    omega
  | a :: b :: bs, w, h => by
    have ha := a.toNat_lt
    have hb := b.toNat_lt
    rcases List.mem_cons.mp h with rfl | h
    · omega
    · exact leWords_lt bs w h

/-- Words of an even-length byte string do not straddle what follows it. -/
theorem leWords_append : ∀ {as : List UInt8} (bs : List UInt8), as.length % 2 = 0 →
    leWords (as ++ bs) = leWords as ++ leWords bs
  | [], _, _ => rfl
  | [_], _, h => absurd h (by simp)
  | a :: b :: as, bs, h => by
    have h' : as.length % 2 = 0 := by simpa [Nat.add_assoc] using h
    have := leWords_append bs h'
    rw [List.cons_append, List.cons_append, leWords, leWords, this, List.cons_append]

/-- `leWords` by index: the words, then the odd byte. -/
theorem leWords_peek (m : Nat → UInt8) (p : Nat) : ∀ n,
    leWords (peek m p (2 * n)) =
      (List.range n).map fun i => (m (p + 2 * i)).toNat + 256 * (m (p + 2 * i + 1)).toNat := by
  intro n
  induction n with
  | zero => rfl
  | succ n ih =>
    rw [Nat.mul_succ, peek_add, leWords_append _ (by simp), ih, List.range_succ, List.map_append]
    simp [peek, List.range_succ, leWords, Nat.add_assoc]

/-- The 16-bit word at `k` of the first `len` bytes of a store. -/
def leWordAt (m : Nat → UInt8) (len k : Nat) : Nat :=
  if 2 * k + 1 < len then (m (2 * k)).toNat + 256 * (m (2 * k + 1)).toNat
  else 256 * (m (2 * k)).toNat

theorem leWords_peek_eq (m : Nat → UInt8) (len : Nat) :
    leWords (peek m 0 len) = (List.range ((len + 1) / 2)).map (leWordAt m len) := by
  have hwhole : (List.range (len / 2)).map (leWordAt m len)
      = leWords (peek m 0 (2 * (len / 2))) := by
    rw [leWords_peek]
    refine List.map_congr_left fun i hi => ?_
    have hlt := List.mem_range.mp hi
    rw [leWordAt, if_pos (by omega), Nat.zero_add]
  rcases Nat.mod_two_eq_zero_or_one len with h | h
  · have hlen : 2 * (len / 2) = len := by omega
    have hcount : (len + 1) / 2 = len / 2 := by omega
    rw [hcount, hwhole, hlen]
  · have hlen : len = 2 * (len / 2) + 1 := by omega
    have hcount : (len + 1) / 2 = len / 2 + 1 := by omega
    rw [hcount, List.range_succ, List.map_append, hwhole]
    conv_lhs => rw [hlen, peek_add, leWords_append _ (by simp)]
    simp only [List.map_cons, List.map_nil, leWordAt, if_neg (show ¬ 2 * (len / 2) + 1 < len by omega)]
    simp [peek, leWords, Nat.mul_comm 256]

/-- A loop over whole words that adds an odd last byte by itself adds up the words. -/
theorem sum_leWords_peek (m : Nat → UInt8) (len : Nat) :
    (leWords (peek m 0 len)).sum =
      ((List.range (len / 2)).map fun i => (m (2 * i)).toNat + 256 * (m (2 * i + 1)).toNat).sum
        + (if len % 2 = 1 then 256 * (m (len - 1)).toNat else 0) := by
  have hwhole : (List.range (len / 2)).map (leWordAt m len) =
      (List.range (len / 2)).map fun i => (m (2 * i)).toNat + 256 * (m (2 * i + 1)).toNat := by
    refine List.map_congr_left fun i hi => ?_
    have hlt := List.mem_range.mp hi
    rw [leWordAt, if_pos (by omega)]
  rw [leWords_peek_eq, ← hwhole]
  rcases Nat.mod_two_eq_zero_or_one len with h | h
  · have hcount : (len + 1) / 2 = len / 2 := by omega
    rw [if_neg (by omega), hcount, Nat.add_zero]
  · have hcount : (len + 1) / 2 = len / 2 + 1 := by omega
    have hlast : len - 1 = 2 * (len / 2) := by omega
    rw [if_pos h, hcount, hlast, List.range_succ, List.map_append, List.sum_append,
      List.map_singleton, List.sum_singleton, leWordAt, if_neg (by omega)]

/-- A store that differs in the bytes of one word has that one word of the list changed. -/
theorem leWords_peek_of_eq_off {m m' : Nat → UInt8} {len k : Nat}
    (he : ∀ i, i < len → i / 2 ≠ k → m' i = m i) :
    leWords (peek m' 0 len) = (leWords (peek m 0 len)).set k (leWordAt m' len k) := by
  rw [leWords_peek_eq, leWords_peek_eq]
  refine List.ext_getElem (by simp) fun j h₁ h₂ => ?_
  rw [List.length_map, List.length_range] at h₁
  rw [List.getElem_set]
  split
  · rename_i hkj
    rw [List.getElem_map, List.getElem_range, hkj]
  · rename_i hkj
    have hlow : m' (2 * j) = m (2 * j) := he _ (by omega) (by omega)
    rw [List.getElem_map, List.getElem_map, List.getElem_range, leWordAt, leWordAt, hlow]
    split
    · rename_i hin
      rw [he (2 * j + 1) hin (by omega)]
    · rfl

theorem leWords_sum_le (bs : List UInt8) : (leWords bs).sum ≤ 65535 * ((bs.length + 1) / 2) := by
  match bs with
  | [] => simp [leWords]
  | [b] =>
    have hb := b.toNat_lt
    simp [leWords]
    omega
  | a :: b :: bs =>
    have ha := a.toNat_lt
    have hb := b.toNat_lt
    have ih := leWords_sum_le bs
    have hlen : ((a :: b :: bs).length + 1) / 2 = (bs.length + 1) / 2 + 1 := by
      simp only [List.length_cons]
      omega
    rw [leWords, List.sum_cons, hlen]
    omega

end Lib
end AmcPci
