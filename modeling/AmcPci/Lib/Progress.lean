import AmcPci.Lib.Run

/-!
# Runs that come to an end

A store of work that every step of a kind uses up (`UsesUp`) bounds how many steps of that kind
there can be in a row. If beside that some such step can be taken as long as the work is not done
(`NeverStuck`), then it is done in the end, whichever steps are taken: a run of these steps cannot
go on for ever, and where it stops it is done.
-/

namespace AmcPci
namespace Lib

variable {σ α : Type*} {step : σ → α → Option σ} {ok : σ → α → Prop} {I Done : σ → Prop}
  {work : σ → Nat}

/-- Every step that meets `ok` keeps the invariant and uses up some of the work. -/
def UsesUp (step : σ → α → Option σ) (ok : σ → α → Prop) (I : σ → Prop) (work : σ → Nat) : Prop :=
  ∀ {s s' : σ} {a : α}, I s → ok s a → step s a = some s' → I s' ∧ work s' < work s

/-- Where the work is not done a step that meets `ok` can be taken. -/
def NeverStuck (step : σ → α → Option σ) (ok : σ → α → Prop) (I Done : σ → Prop) : Prop :=
  ∀ s, I s → ¬ Done s → ∃ a s', ok s a ∧ step s a = some s'

/-- **No run is longer than the work there is.** -/
theorem UsesUp.length_le (h : UsesUp step ok I work) {s s' : σ} {as : List α}
    (hrun : Exec step ok s as s') (hs : I s) : as.length + work s' ≤ work s := by
  induction hrun with
  | nil s => simp
  | cons hok hstep _ ih =>
    obtain ⟨hkept, hless⟩ := h hs hok hstep
    have hrest := ih hkept
    rw [List.length_cons]
    omega

/-- **The work can be done**, from every state and without leaving the steps that use it up. -/
theorem UsesUp.exists_done (h : UsesUp step ok I work) (hstuck : NeverStuck step ok I Done) :
    ∀ s, I s → ∃ as s', Exec step ok s as s' ∧ Done s' := by
  intro s
  induction hw : work s using Nat.strongRecOn generalizing s with
  | ind w ih =>
    intro hs
    by_cases hdone : Done s
    · exact ⟨[], s, .nil s, hdone⟩
    · obtain ⟨a, s₁, hok, hstep⟩ := hstuck s hs hdone
      obtain ⟨hkept, hless⟩ := h hs hok hstep
      obtain ⟨as, s', hrun, hend⟩ := ih (work s₁) (hw ▸ hless) s₁ rfl hkept
      exact ⟨a :: as, s', .cons hok hstep hrun, hend⟩

end Lib
end AmcPci
