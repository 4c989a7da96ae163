import Mathlib.Tactic.Common
import Mathlib.Algebra.Order.BigOperators.Group.List
import Mathlib.Algebra.Order.Ring.Nat

/-!
# Ledgers over a list of threads

Some shared thing (a lock, a slot, an allocation, a reference) is taken by one thread and given
back by the same thread. What must hold over every interleaving is that the books balance: the
shared record of the thing says exactly what the threads hold between them.

`Balanced w n ts` says that of the threads `ts`, where `w t` is how much thread `t` holds and `n`
is the record. A step of one thread changes its own holding and the record, and `Balanced.set`
asks for nothing but that the two changes agree. Everything one wants to know afterwards (two
threads never hold the same thing, the record does not underflow) is read off the balance.
-/

namespace AmcPci
namespace Lib

variable {τ : Type*} {w : τ → Nat} {n n' : Nat} {ts : List τ} {i j : Nat} {t t' u : τ}

/-- The holdings of the threads add up to the record. -/
def Balanced (w : τ → Nat) (n : Nat) (ts : List τ) : Prop := (ts.map w).sum = n

/-- A changed thread is the one that moved; every other is as it was. -/
theorem getElem?_set_some (h : (ts.set i t')[j]? = some u) :
    (j = i ∧ u = t') ∨ (j ≠ i ∧ ts[j]? = some u) := by
  by_cases hj : i = j
  · subst hj
    rw [List.getElem?_set_self'] at h
    cases hi : ts[i]? with
    | none => simp [hi] at h
    | some v => exact .inl ⟨rfl, by simpa [hi] using h.symm⟩
  · rw [List.getElem?_set_ne hj] at h
    exact .inr ⟨fun hji => hj hji.symm, h⟩

theorem getElem?_set_of_some (hi : ts[i]? = some t) : (ts.set i t')[i]? = some t' := by
  have hlt : i < ts.length := by
    obtain ⟨hlt, -⟩ := List.getElem?_eq_some_iff.mp hi
    exact hlt
  rw [List.getElem?_set_self hlt]

/-- A thread added at the end, or one of those before it. -/
theorem getElem?_concat_some (h : (ts ++ [t])[j]? = some u) :
    (j = ts.length ∧ u = t) ∨ ts[j]? = some u := by
  rw [List.getElem?_append] at h
  split at h
  · exact .inr h
  · rename_i hj
    have hlt : j - ts.length < 1 := by
      obtain ⟨hlt, -⟩ := List.getElem?_eq_some_iff.mp h
      simpa using hlt
    have hj' : j = ts.length := by omega
    subst hj'
    exact .inl ⟨rfl, by simpa using h.symm⟩

theorem sum_map_set : ∀ {ts : List τ} {i : Nat}, ts[i]? = some t →
    ((ts.set i t').map w).sum + w t = (ts.map w).sum + w t' := by
  intro ts
  induction ts with
  | nil => intro i h; simp at h
  | cons v ts ih =>
    intro i h
    cases i with
    | zero =>
      obtain rfl : v = t := by simpa using h
      simp only [List.set_cons_zero, List.map_cons, List.sum_cons]
      omega
    | succ i =>
      have hrec := ih (by simpa using h)
      simp only [List.set_cons_succ, List.map_cons, List.sum_cons]
      omega

/-- One thread moves and the record moves with it. -/
theorem Balanced.set (h : Balanced w n ts) (hi : ts[i]? = some t) (hmove : w t' + n = w t + n') :
    Balanced w n' (ts.set i t') := by
  have hsum : ((ts.set i t').map w).sum + w t = (ts.map w).sum + w t' := sum_map_set hi
  simp only [Balanced] at h ⊢
  omega

/-- A new thread that holds nothing. -/
theorem Balanced.concat (h : Balanced w n ts) (ht : w t = 0) : Balanced w n (ts ++ [t]) := by
  simpa [Balanced, ht] using h

theorem le_sum_map : ∀ {ts : List τ} {i : Nat}, ts[i]? = some t → w t ≤ (ts.map w).sum := by
  intro ts
  induction ts with
  | nil => intro i h; simp at h
  | cons v ts ih =>
    intro i h
    simp only [List.map_cons, List.sum_cons]
    cases i with
    | zero =>
      obtain rfl : v = t := by simpa using h
      exact Nat.le_add_right _ _
    | succ i => exact Nat.le_add_left_of_le (ih (by simpa using h))

theorem add_le_sum_map : ∀ {ts : List τ} {i j : Nat}, ts[i]? = some t → ts[j]? = some u → i < j →
    w t + w u ≤ (ts.map w).sum := by
  intro ts
  induction ts with
  | nil => intro i j h; simp at h
  | cons v ts ih =>
    intro i j hi hj hij
    simp only [List.map_cons, List.sum_cons]
    cases j with
    | zero => exact absurd hij (Nat.not_lt_zero i)
    | succ j =>
      have hj' : ts[j]? = some u := by simpa using hj
      cases i with
      | zero =>
        obtain rfl : v = t := by simpa using hi
        exact Nat.add_le_add_left (le_sum_map hj') _
      | succ i =>
        exact Nat.le_add_left_of_le (ih (by simpa using hi) hj' (Nat.lt_of_succ_lt_succ hij))

/-- What one thread holds is on record. -/
theorem Balanced.le (h : Balanced w n ts) (hi : ts[i]? = some t) : w t ≤ n :=
  h ▸ le_sum_map hi

/-- What two threads hold together is on record. -/
theorem Balanced.add_le (h : Balanced w n ts) (hi : ts[i]? = some t) (hj : ts[j]? = some u)
    (hij : i ≠ j) : w t + w u ≤ n := by
  rcases Nat.lt_or_gt_of_ne hij with hlt | hlt
  · exact h ▸ add_le_sum_map hi hj hlt
  · rw [Nat.add_comm]
    exact h ▸ add_le_sum_map hj hi hlt

/-- **Exclusion.** What is on record once is held by one thread only. -/
theorem Balanced.exclusive (h : Balanced w n ts) (hn : n ≤ 1) (hi : ts[i]? = some t)
    (hj : ts[j]? = some u) (ht : 0 < w t) (hu : 0 < w u) : i = j := by
  by_contra hij
  have := h.add_le hi hj hij
  omega

/-- What is on record is held by some thread. -/
theorem Balanced.holder : ∀ {ts : List τ} {n : Nat}, Balanced w n ts → 0 < n →
    ∃ (i : Nat) (t : τ), ts[i]? = some t ∧ 0 < w t := by
  intro ts
  induction ts with
  | nil => intro n h hn; simp [Balanced] at h; omega
  | cons v ts ih =>
    intro n h hn
    by_cases hv : 0 < w v
    · exact ⟨0, v, rfl, hv⟩
    · have hrest : Balanced w n ts := by
        simp only [Balanced, List.map_cons, List.sum_cons] at h ⊢
        omega
      obtain ⟨i, t, hi, ht⟩ := ih hrest hn
      exact ⟨i + 1, t, by simpa using hi, ht⟩

/-- The books of several things kept as one. -/
theorem Balanced.sum {ρ : Type*} {w : ρ → τ → Nat} {n : ρ → Nat} (h : ∀ r, Balanced (w r) (n r) ts)
    (rs : List ρ) : Balanced (fun t => (rs.map fun r => w r t).sum) (rs.map n).sum ts := by
  induction rs with
  | nil => simp [Balanced]
  | cons r rs ih =>
    have hr := h r
    simp only [Balanced] at hr ih ⊢
    simp only [List.map_cons, List.sum_cons, List.sum_map_add, hr, ih]

/-- Threads that hold less have less on record. -/
theorem Balanced.mono {w' : τ → Nat} (h : Balanced w n ts) (h' : Balanced w' n' ts)
    (hle : ∀ t, w t ≤ w' t) : n ≤ n' := by
  rw [← show (ts.map w).sum = n from h, ← show (ts.map w').sum = n' from h']
  exact List.sum_le_sum fun t _ => hle t

theorem sum_map_toNat (p : τ → Bool) : ∀ ts : List τ,
    (ts.map fun t => (p t).toNat).sum = ts.countP p := by
  intro ts
  induction ts with
  | nil => rfl
  | cons t ts ih =>
    rw [List.map_cons, List.sum_cons, List.countP_cons, ih, Nat.add_comm]
    cases p t <;> rfl

/-! ## Things that are free or taken -/

variable {ρ : Type*} [DecidableEq ρ] {taken : ρ → Bool} {r q : ρ}

/-- The share of `r` in what a thread holds, when it holds at most one thing. -/
def share (o : Option ρ) (r : ρ) : Nat := if o = some r then 1 else 0

@[simp] theorem share_none : share none r = 0 := rfl

@[simp] theorem share_self : share (some r) r = 1 := if_pos rfl

theorem share_of_ne (h : q ≠ r) : share (some q) r = 0 := if_neg fun hq => h (Option.some.inj hq)

theorem eq_some_of_share_pos {o : Option ρ} (h : 0 < share o r) : o = some r := by
  by_contra ho
  rw [share, if_neg ho] at h
  exact absurd h (Nat.lt_irrefl 0)

/-- Taking what was free. -/
theorem share_take (hfree : taken q = false) :
    share (some q) r + (taken r).toNat
      = share none r + (Function.update taken q true r).toNat := by
  by_cases h : q = r
  · subst h
    simp [hfree]
  · rw [share_of_ne h, share_none, Function.update_of_ne fun h' => h h'.symm]

/-- What is held is taken. -/
theorem taken_of_share {o : Option ρ} (ho : o = some q) (hle : share o q ≤ (taken q).toNat) :
    taken q = true := by
  subst ho
  cases hq : taken q with
  | true => rfl
  | false => simp [hq] at hle

/-- Giving back what one holds. -/
theorem share_return (hheld : share (some q) r ≤ (taken r).toNat) :
    share none r + (taken r).toNat
      = share (some q) r + (Function.update taken q false r).toNat := by
  by_cases h : q = r
  · subst h
    simp [taken_of_share rfl hheld]
  · rw [share_of_ne h, share_none, Function.update_of_ne fun h' => h h'.symm]

end Lib
end AmcPci
