import Mathlib.Tactic.Common

/-!
# Runs of a partial step function

A concurrent program is modelled throughout as one function `step : σ → α → Option σ`: the
action `a` names who moves and what the environment answers, and `none` says that the action
is not enabled in this state. An interleaving is then nothing but a list of actions.

`Exec step ok s as s'` is such a run in which every step also meets `ok` in the state it
starts from. With `ok := fun _ _ => True` it is an arbitrary run; a narrower `ok` is how a
statement confines itself to the runs that keep clear of some event, step by step.

The two rules everything else uses are `Exec.invariant` (what each step preserves, a run
preserves) and `Exec.unless` (what each step preserves unless something happens in it, a run
preserves unless it happens on the way).
-/

namespace AmcPci
namespace Lib

variable {σ α : Type*}

/-- Run a list of actions; `none` as soon as one of them is not enabled. -/
def run (step : σ → α → Option σ) : σ → List α → Option σ
  | s, [] => some s
  | s, a :: as => (step s a).bind fun s' => run step s' as

/-- A run from `s` to `s'` whose every step meets `ok`. -/
inductive Exec (step : σ → α → Option σ) (ok : σ → α → Prop) : σ → List α → σ → Prop
  | nil (s : σ) : Exec step ok s [] s
  | cons {s s' s'' : σ} {a : α} {as : List α} (hok : ok s a) (hs : step s a = some s')
      (ht : Exec step ok s' as s'') : Exec step ok s (a :: as) s''

/-- No condition on the steps: every interleaving. -/
def Always (_ : σ) (_ : α) : Prop := True

variable {step : σ → α → Option σ} {ok : σ → α → Prop}

/-- **What each step preserves, a run preserves.** -/
theorem Exec.invariant {I : σ → Prop}
    (hI : ∀ {s s' : σ} {a : α}, I s → ok s a → step s a = some s' → I s') :
    ∀ {s s' : σ} {as : List α}, Exec step ok s as s' → I s → I s' := by
  intro s s' as h
  induction h with
  | nil s => exact id
  | cons hok hs _ ih => exact fun h₀ => ih (hI h₀ hok hs)

theorem Exec.mono {ok' : σ → α → Prop} (hok : ∀ s a, ok s a → ok' s a) {s s' : σ} {as : List α}
    (h : Exec step ok s as s') : Exec step ok' s as s' := by
  induction h with
  | nil s => exact .nil s
  | cons h₀ hs _ ih => exact .cons (hok _ _ h₀) hs ih

theorem Exec.always {s s' : σ} {as : List α} (h : Exec step ok s as s') :
    Exec step Always s as s' := h.mono fun _ _ _ => trivial

/-- A run none of whose actions is one that `ok` restricts. -/
theorem Exec.restrict {s s' : σ} {as : List α} (h : Exec step Always s as s')
    (hok : ∀ a ∈ as, ∀ s, ok s a) : Exec step ok s as s' := by
  induction h with
  | nil s => exact .nil s
  | cons _ hs _ ih =>
    exact .cons (hok _ (List.mem_cons_self ..) _) hs
      (ih fun a ha => hok a (List.mem_cons_of_mem _ ha))

theorem Exec.append {s s' s'' : σ} {as bs : List α} (h : Exec step ok s as s')
    (h' : Exec step ok s' bs s'') : Exec step ok s (as ++ bs) s'' := by
  induction h with
  | nil s => exact h'
  | cons hok hs _ ih => exact .cons hok hs (ih h')

/-- `run` computes the unconditional runs. -/
theorem exec_iff_run {s s' : σ} {as : List α} :
    Exec step Always s as s' ↔ run step s as = some s' := by
  induction as generalizing s with
  | nil =>
    constructor
    · intro h; cases h; rfl
    · intro h
      simp only [run, Option.some.injEq] at h
      subst h
      exact .nil s
  | cons a as ih =>
    constructor
    · intro h
      cases h with
      | cons _ hs ht => simpa [run, hs] using ih.mp ht
    · intro h
      cases hs : step s a with
      | none => simp [run, hs] at h
      | some s₁ => exact .cons trivial hs (ih.mpr (by simpa [run, hs] using h))

/-- A step that is not enabled where `ok` fails. -/
def keeping (step : σ → α → Option σ) (ok : σ → α → Prop) [∀ s a, Decidable (ok s a)] (s : σ)
    (a : α) : Option σ :=
  if ok s a then step s a else none

/-- `run` computes the restricted runs too, where the restriction can be decided. -/
theorem exec_iff_run_keeping [∀ s a, Decidable (ok s a)] {s s' : σ} {as : List α} :
    Exec step ok s as s' ↔ run (keeping step ok) s as = some s' := by
  rw [← exec_iff_run]
  constructor
  · intro h
    induction h with
    | nil s => exact .nil s
    | cons hok hs _ ih => exact .cons trivial ((if_pos hok).trans hs) ih
  · intro h
    induction h with
    | nil s => exact .nil s
    | cons _ hs _ ih =>
      rw [keeping, Option.ite_none_right_eq_some] at hs
      exact .cons hs.1 hs.2 ih

/-- Some step of the run meets `P` in the state it starts from. -/
inductive Occurs (step : σ → α → Option σ) (P : σ → α → Prop) : σ → List α → Prop
  | here {s : σ} {a : α} {as : List α} (h : P s a) : Occurs step P s (a :: as)
  | later {s s' : σ} {a : α} {as : List α} (hs : step s a = some s') (h : Occurs step P s' as) :
    Occurs step P s (a :: as)

/-- **What each step preserves unless `P` happens, a run preserves unless `P` happens.** -/
theorem Exec.unless {I : σ → Prop} {P : σ → α → Prop}
    (hI : ∀ {s s' : σ} {a : α}, I s → ok s a → step s a = some s' → P s a ∨ I s') :
    ∀ {s s' : σ} {as : List α}, Exec step ok s as s' → I s → Occurs step P s as ∨ I s' := by
  intro s s' as h
  induction h with
  | nil s => exact .inr
  | cons hok hs _ ih =>
    intro h₀
    rcases hI h₀ hok hs with hp | h₁
    · exact .inl (.here hp)
    · rcases ih h₁ with hlater | hend
      · exact .inl (.later hs hlater)
      · exact .inr hend

/-- What no step that meets `ok` does, does not occur in a run of such steps. -/
theorem Exec.not_occurs {P : σ → α → Prop} (hP : ∀ s a, ok s a → ¬ P s a) {s s' : σ} {as : List α}
    (h : Exec step ok s as s') : ¬ Occurs step P s as := by
  induction h with
  | nil s => exact fun hoccurs => by cases hoccurs
  | cons hok hs _ ih =>
    intro hoccurs
    cases hoccurs with
    | here hp => exact hP _ _ hok hp
    | later hs' hlater =>
      obtain rfl := Option.some.inj (hs.symm.trans hs')
      exact ih hlater

theorem Occurs.mem {P : σ → α → Prop} {s : σ} {as : List α} (h : Occurs step P s as) :
    ∃ a ∈ as, ∃ s', P s' a := by
  induction h with
  | here hp => exact ⟨_, List.mem_cons_self .., _, hp⟩
  | later _ _ ih =>
    obtain ⟨a, ha, hp⟩ := ih
    exact ⟨a, List.mem_cons_of_mem _ ha, hp⟩

end Lib
end AmcPci
