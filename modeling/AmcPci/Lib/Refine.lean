import Mathlib.Tactic.Common

/-!
# Machines that answer

A sequential component answers each request and moves on: `step s a` is the answer to `a` in state
`s` with the next state, or `none` when there is nothing in `s` to put the request to. `answers`
is a whole session.

One machine refines another when a client cannot tell the two apart. `answers_refines` is the rule:
with an abstraction function that every step commutes with, on states that keep an invariant and
for requests that keep their side of the contract, every session has the same answers on both, and
ends in states that correspond.
-/

namespace AmcPci
namespace Lib

variable {σ τ α β : Type*}

/-- The answers to a list of requests, and the state after it. -/
def answers (step : σ → α → Option (β × σ)) : σ → List α → Option (List β × σ)
  | s, [] => some ([], s)
  | s, a :: as =>
    (step s a).bind fun (b, s') => (answers step s' as).map fun (bs, s'') => (b :: bs, s'')

/-- One more request, put to the state the session has come to. -/
theorem answers_concat {step : σ → α → Option (β × σ)} {a : α} {b : β} {s' s'' : σ}
    (hlast : step s' a = some (b, s'')) : ∀ {as : List α} {bs : List β} {s : σ},
      answers step s as = some (bs, s') → answers step s (as ++ [a]) = some (bs ++ [b], s'') := by
  intro as
  induction as with
  | nil =>
    intro bs s h
    obtain ⟨rfl, rfl⟩ := Prod.mk.inj (Option.some.inj h)
    simp [answers, hlast]
  | cons a' as ih =>
    intro bs s h
    simp only [answers, Option.bind_eq_some_iff, Option.map_eq_some_iff] at h
    obtain ⟨⟨b', s₁⟩, hone, ⟨bs', s₂⟩, hrest, heq⟩ := h
    obtain ⟨rfl, rfl⟩ := Prod.mk.inj heq
    simp [answers, hone, ih hrest]

/-- `abs` commutes with a step from `s`, and the invariant is kept. -/
def Refines (step : σ → α → Option (β × σ)) (spec : τ → α → Option (β × τ)) (abs : σ → τ)
    (I : σ → Prop) (s : σ) (a : α) : Prop :=
  spec (abs s) a = (step s a).map (fun (b, s') => (b, abs s')) ∧
    ∀ b s', step s a = some (b, s') → I s'

/-- **Step by step, then session by session.** -/
theorem answers_refines {step : σ → α → Option (β × σ)} {spec : τ → α → Option (β × τ)}
    {abs : σ → τ} {I : σ → Prop} {ok : α → Prop}
    (hstep : ∀ s a, I s → ok a → Refines step spec abs I s a) :
    ∀ {as : List α} {s : σ}, I s → (∀ a ∈ as, ok a) →
      answers spec (abs s) as = (answers step s as).map (fun (bs, s') => (bs, abs s')) ∧
        ∀ bs s', answers step s as = some (bs, s') → I s' := by
  intro as
  induction as with
  | nil =>
    intro s hs _
    refine ⟨rfl, fun bs s' h => ?_⟩
    obtain ⟨-, rfl⟩ := Prod.mk.inj (Option.some.inj h)
    exact hs
  | cons a as ih =>
    intro s hs hok
    obtain ⟨hcommutes, hkeeps⟩ := hstep s a hs (hok a (List.mem_cons_self ..))
    cases hone : step s a with
    | none =>
      rw [hone] at hcommutes
      simp [answers, hcommutes, hone]
    | some out =>
      obtain ⟨b, s₁⟩ := out
      rw [hone] at hcommutes
      obtain ⟨hrest, hend⟩ := ih (hkeeps b s₁ hone) fun a ha => hok a (List.mem_cons_of_mem _ ha)
      simp only [answers, hcommutes, hone, Option.map_some, Option.bind_some, hrest,
        Option.map_map]
      refine ⟨rfl, fun bs s' h => ?_⟩
      rw [Option.map_eq_some_iff] at h
      obtain ⟨⟨bs', s''⟩, hlast, heq⟩ := h
      obtain ⟨-, rfl⟩ := Prod.mk.inj heq
      exact hend bs' _ hlast

end Lib
end AmcPci
