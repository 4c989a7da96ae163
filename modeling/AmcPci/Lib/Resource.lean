import Mathlib.Tactic.Common

/-!
# Resources taken and given back

A procedure with cleanup labels is followed by the log of what it takes and gives back, in order.
`Settled` is that nothing is left over: every resource was given back once after it was taken once,
or never taken. A procedure that unwinds in the reverse order of what it took leaves a `bracket`,
and every bracket is settled (`settled_bracket`).
-/

namespace AmcPci
namespace Lib

/-- A resource is taken, or given back. -/
inductive Use (ρ : Type*)
  | acquire (r : ρ)
  | release (r : ρ)
deriving DecidableEq

variable {ρ : Type*}

/-- The resource in question. -/
def Use.resource : Use ρ → ρ
  | .acquire r => r
  | .release r => r

variable [DecidableEq ρ] {r : ρ} {rs : List ρ} {log log' : List (Use ρ)}

/-- What happens to one resource. -/
def uses (r : ρ) (log : List (Use ρ)) : List (Use ρ) := log.filter fun u => u.resource = r

@[simp] theorem uses_nil (r : ρ) : uses r [] = [] := rfl

@[simp] theorem uses_append (r : ρ) (log log' : List (Use ρ)) :
    uses r (log ++ log') = uses r log ++ uses r log' := List.filter_append ..

theorem uses_acquire (r r' : ρ) (log : List (Use ρ)) :
    uses r (.acquire r' :: log) = if r' = r then .acquire r' :: uses r log else uses r log := by
  by_cases h : r' = r
  · rw [if_pos h]
    exact List.filter_cons_of_pos (decide_eq_true h)
  · rw [if_neg h]
    exact List.filter_cons_of_neg (ne_true_of_eq_false (decide_eq_false h))

theorem uses_release (r r' : ρ) (log : List (Use ρ)) :
    uses r (.release r' :: log) = if r' = r then .release r' :: uses r log else uses r log := by
  by_cases h : r' = r
  · rw [if_pos h]
    exact List.filter_cons_of_pos (decide_eq_true h)
  · rw [if_neg h]
    exact List.filter_cons_of_neg (ne_true_of_eq_false (decide_eq_false h))

/-- Taken once and given back once, or never taken. -/
def Settled (log : List (Use ρ)) : Prop :=
  ∀ r, uses r log = [] ∨ uses r log = [.acquire r, .release r]

/-- The resources `rs` have been taken and not given back, and there were no others. -/
def Held (rs : List ρ) (log : List (Use ρ)) : Prop :=
  ∀ r, uses r log = if r ∈ rs then [.acquire r] else []

theorem settled_nil : Settled ([] : List (Use ρ)) := fun _ => .inl rfl

/-- What is taken before and given back after a settled stretch is settled. -/
theorem Settled.wrap (h : Settled log) (hr : uses r log = []) :
    Settled (.acquire r :: log ++ [.release r]) := by
  intro r'
  by_cases heq : r = r'
  · subst heq
    refine .inr ?_
    rw [uses_append, uses_acquire, uses_release, hr, if_pos rfl, if_pos rfl]
    rfl
  · rw [uses_append, uses_acquire, uses_release, if_neg heq, if_neg heq, uses_nil, List.append_nil]
    exact h r'

/-- Everything taken in order and given back in reverse. -/
def bracket (rs : List ρ) : List (Use ρ) := rs.map .acquire ++ rs.reverse.map .release

omit [DecidableEq ρ] in
theorem bracket_cons (r : ρ) (rs : List ρ) :
    bracket (r :: rs) = .acquire r :: bracket rs ++ [.release r] := by
  simp [bracket]

theorem uses_bracket_of_notMem (h : r ∉ rs) : uses r (bracket rs) = [] := by
  induction rs with
  | nil => rfl
  | cons r' rs ih =>
    rw [List.mem_cons, not_or] at h
    have hne : r' ≠ r := Ne.symm h.1
    rw [bracket_cons, uses_append, uses_acquire, uses_release, if_neg hne, if_neg hne, ih h.2]
    rfl

/-- **What is unwound in reverse is settled.** -/
theorem settled_bracket (h : rs.Nodup) : Settled (bracket rs) := by
  induction rs with
  | nil => exact settled_nil
  | cons r rs ih =>
    rw [List.nodup_cons] at h
    rw [bracket_cons]
    exact (ih h.2).wrap (uses_bracket_of_notMem h.1)

theorem held_acquires (h : rs.Nodup) : Held rs (rs.map .acquire) := by
  induction rs with
  | nil => exact fun _ => rfl
  | cons r rs ih =>
    rw [List.nodup_cons] at h
    intro r'
    rw [List.map_cons, uses_acquire, ih h.2 r']
    by_cases heq : r = r'
    · subst heq
      rw [if_pos rfl, if_neg h.1, if_pos (List.mem_cons_self ..)]
    · have hmem : r' ∈ r :: rs ↔ r' ∈ rs := by simp [Ne.symm heq]
      rw [if_neg heq]
      simp only [hmem]

end Lib
end AmcPci
