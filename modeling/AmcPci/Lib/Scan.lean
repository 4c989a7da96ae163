import AmcPci.Lib.Ledger

/-!
# Scanning for a free place

A thread that wants one of a row of places tries them one after the other, from 0 upwards, and
keeps the first that was free when it looked. Places are given back at any time, also behind a
thread that is still looking, so a scan can pass a place that is free a moment later: that a place
is free all along does not mean that a scan finds one.

What does hold is a matter of numbers. `Crowd place c ts` says that no more than `c - m` threads
are at place `m` or further up, looking or settled. A thread that moves on from `j` leaves behind
one that has settled there, which is why the threads further up can grow by one. So `c` threads
never need more than `c` places, whatever comes and goes (`Crowd.lt`).
-/

namespace AmcPci
namespace Lib

variable {τ : Type*} {place : τ → Option Nat} {c i j : Nat} {ts : List τ} {t t' u : τ}

/-- 1 for a thread at `m` or further up. -/
def beyond : Option Nat → Nat → Nat
  | none, _ => 0
  | some j, m => if m ≤ j then 1 else 0

theorem beyond_some_of_le {m : Nat} (h : m ≤ j) : beyond (some j) m = 1 := if_pos h

theorem beyond_some_of_lt {m : Nat} (h : j < m) : beyond (some j) m = 0 :=
  if_neg (Nat.not_le.mpr h)

theorem beyond_zero (o : Option Nat) : beyond o 0 = o.isSome.toNat := by
  cases o with
  | none => rfl
  | some j => exact beyond_some_of_le (Nat.zero_le j)

/-- At `m` or further up is at `m`, or further up. -/
theorem beyond_eq_add_share (o : Option Nat) (m : Nat) :
    beyond o m = beyond o (m + 1) + share o m := by
  cases o with
  | none => rfl
  | some j =>
    rcases Nat.lt_trichotomy m j with hlt | rfl | hlt
    · rw [beyond_some_of_le hlt.le, beyond_some_of_le hlt, share_of_ne hlt.ne']
    · rw [beyond_some_of_le le_rfl, beyond_some_of_lt (Nat.lt_succ_self _), share_self]
    · rw [beyond_some_of_lt hlt, beyond_some_of_lt (Nat.lt_succ_of_lt hlt), share_of_ne hlt.ne]

/-- One place further on counts at one place more. -/
theorem beyond_succ (j m : Nat) :
    beyond (some (j + 1)) m = beyond (some j) m + share (some (j + 1)) m := by
  rcases Nat.lt_trichotomy m (j + 1) with hlt | rfl | hlt
  · rw [beyond_some_of_le hlt.le, beyond_some_of_le (Nat.lt_succ_iff.mp hlt), share_of_ne hlt.ne']
  · rw [beyond_some_of_le le_rfl, beyond_some_of_lt (Nat.lt_succ_self j), share_self]
  · rw [beyond_some_of_lt hlt, beyond_some_of_lt (Nat.lt_of_succ_lt hlt), share_of_ne hlt.ne]

/-- No more than `c - m` of the threads are at `m` or further up. -/
def Crowd (place : τ → Option Nat) (c : Nat) (ts : List τ) : Prop :=
  ∀ m, (ts.map fun t => beyond (place t) m).sum ≤ c - m

/-- All threads that have a place, or look for one. -/
theorem sum_beyond_zero (place : τ → Option Nat) (ts : List τ) :
    (ts.map fun t => beyond (place t) 0).sum = ts.countP fun t => (place t).isSome := by
  simp only [beyond_zero, sum_map_toNat]

theorem Crowd.nil : Crowd place c [] := fun m => Nat.zero_le (c - m)

/-- A new thread starts its scan, and there are not `c` of them yet. -/
theorem Crowd.concat (h : Crowd place c ts) (ht : place t = some 0)
    (hfew : (ts.countP fun t => (place t).isSome) < c) : Crowd place c (ts ++ [t]) := by
  intro m
  rw [List.map_append, List.sum_append, List.map_singleton, List.sum_singleton, ht]
  cases m with
  | zero =>
    rw [sum_beyond_zero, beyond_some_of_le le_rfl]
    exact hfew
  | succ m =>
    rw [beyond_some_of_lt (Nat.succ_pos m)]
    exact h (m + 1)

theorem sum_beyond_set (hi : ts[i]? = some t) (m : Nat) :
    ((ts.set i t').map fun t => beyond (place t) m).sum + beyond (place t) m
      = (ts.map fun t => beyond (place t) m).sum + beyond (place t') m :=
  @sum_map_set _ (fun t => beyond (place t) m) t t' ts i hi

/-- A thread that stays where it is, or gives up its place. -/
theorem Crowd.set (h : Crowd place c ts) (hi : ts[i]? = some t)
    (ht : place t' = place t ∨ place t' = none) : Crowd place c (ts.set i t') := by
  intro m
  have hle : beyond (place t') m ≤ beyond (place t) m := by
    rcases ht with hsame | hgone
    · rw [hsame]
    · rw [hgone]
      exact Nat.zero_le _
  have hsum := @sum_beyond_set _ place i ts t t' hi m
  have hm := h m
  omega

/-- **Moving on.** A thread passes a place that another one is at. -/
theorem Crowd.pass {k : Nat} (h : Crowd place c ts) (hi : ts[i]? = some t) (hk : ts[k]? = some u)
    (hik : i ≠ k) (ht : place t = some j) (hu : place u = some j) (ht' : place t' = some (j + 1)) :
    Crowd place c (ts.set i t') := by
  intro m
  have hsum := @sum_beyond_set _ place i ts t t' hi m
  simp only [ht, ht', beyond_succ] at hsum
  have hm := h m
  by_cases hne : j + 1 = m
  · subst hne
    -- of those at `j` or further up two are at `j` itself
    have hat : 2 ≤ (ts.map fun t => share (place t) j).sum := by
      have htwo := Balanced.add_le (w := fun t => share (place t) j) rfl hi hk hik
      simpa [ht, hu] using htwo
    have hj := h j
    simp only [beyond_eq_add_share _ j, List.sum_map_add] at hj
    rw [share_self] at hsum
    omega
  · rw [share_of_ne hne] at hsum
    omega

/-- **No more places than threads.** -/
theorem Crowd.lt (h : Crowd place c ts) (hi : ts[i]? = some t) (ht : place t = some j) : j < c := by
  have hone : beyond (place t) j ≤ (ts.map fun t => beyond (place t) j).sum :=
    le_sum_map (w := fun t => beyond (place t) j) hi
  rw [ht, beyond_some_of_le le_rfl] at hone
  have hj := h j
  omega

end Lib
end AmcPci
