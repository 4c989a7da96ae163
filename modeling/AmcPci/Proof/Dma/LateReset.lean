import AmcPci.Proof.Dma.Buffer
import AmcPci.Proof.Dma.Progress

/-!
# After a late reset

`reset_dma_controller` gives up on a late reset before it has put the interrupt enables back, and
nothing looks at them again: `maybe_reset_dma` resets an engine that has an error or is not idle,
and leaves any other as it is. So the next call that finds the engine idle starts a transfer that
raises no interrupt. It waits until it is killed, and no other call gets the mutex
(`lateReset_hangs`).
-/

namespace AmcPci
namespace Dma

open Lib

variable {dma : DmaControl} {s s' : State} {sh sh' : Shared} {c c' : Call} {a : CallAction}

/-- The call is about to start its transfer, or waits for it. -/
def Call.committed (c : Call) : Bool :=
  match c.pc with
  | .program => true
  | .waitForCompletion _ => true
  | _ => false

theorem Call.holdsMutex_of_committed (h : c.committed = true) : c.holdsMutex = true := by
  cases hpc : c.pc with
  | program => exact holdsMutex_of_pc hpc rfl
  | waitForCompletion t => exact holdsMutex_of_pc hpc rfl
  | _ => rw [Call.committed, hpc] at h; cases h

/-- No interrupt is pending, none has been handled, and none will be raised. -/
structure Mute (sh : Shared) : Prop where
  irqEnabled : sh.engine.irqEnabled = false
  interrupts : sh.engine.interrupts = []
  done : sh.done = 0

/-- Call `i` is committed to a transfer that it will not hear of. -/
structure Stranded (s : State) (i : Nat) : Prop where
  sound : Sound s
  committed : ∃ c, s.calls[i]? = some c ∧ c.committed = true
  mute : Mute s.shared

/-- All a committed call can do is start its transfer. -/
theorem committed_of_committed (hcommitted : c.committed = true) (hmute : Mute sh)
    (hkill : a ≠ .kill) (h : callStep dma sh c a = some (sh', c')) :
    c'.committed = true ∧ Mute sh' := by
  rw [callStep] at h
  cases hpc : c.pc with
  | program =>
    rw [hpc] at h
    cases a with
    | proceed =>
      cases h
      exact ⟨rfl, hmute.irqEnabled, hmute.interrupts, hmute.done⟩
    | _ => cases h
  | waitForCompletion t =>
    rw [hpc] at h
    cases a with
    | proceed => simp [fileStep, operationStep, hmute.done] at h
    | kill => exact absurd rfl hkill
    | _ => cases h
  | _ => rw [Call.committed, hpc] at hcommitted; cases hcommitted

/-- The other calls have no part in it. -/
theorem Stranded.call {i j : Nat} (h : Stranded s i) (hj : s.calls[j]? = some c)
    (hkill : i = j → a ≠ .kill) (hstep : callStep dma s.shared c a = some (sh', c')) :
    Stranded { s with shared := sh', calls := s.calls.set j c' } i := by
  have hmove := callMove_of_callStep hstep
  have hsound := h.sound.call hj hmove
  obtain ⟨d, hi, hcommitted⟩ := h.committed
  have hheld := Call.holdsMutex_of_committed hcommitted
  by_cases hij : i = j
  · subst hij
    obtain rfl : d = c := Option.some.inj (hi.symm.trans hj)
    obtain ⟨hstill, hmute⟩ := committed_of_committed hcommitted h.mute (hkill rfl) hstep
    exact ⟨hsound, ⟨c', getElem?_set_of_some hi, hstill⟩, hmute⟩
  · have hfree := holds_alone h.sound.books hi hj (Ne.symm hij) hheld
    rcases hmove.quiet with hmine | ⟨hengine, hdone⟩
    · rw [hfree] at hmine
      cases hmine
    · refine ⟨hsound, ⟨d, (List.getElem?_set_ne (Ne.symm hij)).trans hi, hcommitted⟩, ?_⟩
      exact ⟨hengine ▸ h.mute.irqEnabled, hengine ▸ h.mute.interrupts, hdone ▸ h.mute.done⟩

theorem stranded_step {i : Nat} {a : Action} (h : Stranded s i) (hkill : a ≠ .call i .kill)
    (hstep : step dma s a = some s') : Stranded s' i := by
  have hsound := sound_step h.sound hstep
  obtain ⟨c, hi, hcommitted⟩ := h.committed
  have hqueued : ∀ d : Call, ∃ c, (s.calls ++ [d])[i]? = some c ∧ c.committed = true := fun d =>
    ⟨c, (List.getElem?_append_left (List.getElem?_eq_some_iff.mp hi).1).trans hi, hcommitted⟩
  cases a with
  | call j action =>
    simp only [step, Option.bind_eq_some_iff, Option.map_eq_some_iff] at hstep
    obtain ⟨d, hj, ⟨shared, d'⟩, hcall, rfl⟩ := hstep
    refine h.call hj ?_ hcall
    rintro rfl rfl
    exact hkill rfl
  | engine ok =>
    simp only [step, Option.map_eq_some_iff] at hstep
    obtain ⟨engine, hfinish, rfl⟩ := hstep
    rw [Engine.finish, Option.map_eq_some_iff] at hfinish
    obtain ⟨u, -, rfl⟩ := hfinish
    exact ⟨hsound, h.committed, h.mute.irqEnabled,
      by simp [h.mute.irqEnabled, h.mute.interrupts], h.mute.done⟩
  | dmaInterrupt k =>
    simp [step, h.mute.interrupts] at hstep
  | read f offset count =>
    cases moved_of_step hstep with
    | read => exact ⟨hsound, hqueued _, h.mute⟩
    | refused => exact h
  | write f offset count =>
    cases moved_of_step hstep with
    | write => exact ⟨hsound, hqueued _, h.mute⟩
    | refused => exact h
  | _ =>
    cases moved_of_step hstep with
    | _ => exact ⟨hsound, h.committed, h.mute⟩

theorem Stranded.mutex {i : Nat} (h : Stranded s i) : s.shared.mutex = true := by
  obtain ⟨c, hi, hcommitted⟩ := h.committed
  have hle := h.sound.books.le hi
  cases hmutex : s.shared.mutex with
  | true => rfl
  | false =>
    rw [hmutex, Call.holdsMutex_of_committed hcommitted] at hle
    exact absurd hle (by decide)

/-- Interrupts that are disabled are so by a reset that was late. -/
theorem lateReset_of_disabled {as : List Action} (h : Exec (step dma) Always initial as s)
    (hdisabled : s.shared.engine.irqEnabled = false) :
    ∃ k gone, Action.call k (.reset false gone) ∈ as := by
  by_contra hnone
  have hintime : Exec (step dma) InTime initial as s := by
    refine h.restrict fun b hb s => ?_
    cases b with
    | call k action =>
      cases action with
      | reset ok gone =>
        cases ok with
        | true => rfl
        | false => exact absurd ⟨k, gone, hb⟩ hnone
      | _ => trivial
    | _ => trivial
  rw [(alive_run hintime).irqEnabled] at hdisabled
  cases hdisabled

/-- **A late reset costs a later call its completion.** A call that comes to its transfer with the
    interrupts disabled, and none on its way, comes after a late reset; it holds the mutex and does
    not get past its wait, in every run in which it is not killed. -/
theorem lateReset_hangs {as : List Action} {i : Nat} (h : Exec (step dma) Always initial as s)
    (hi : s.calls[i]? = some c) (hpc : c.pc = .program) (hmute : Mute s.shared) :
    (∃ k gone, Action.call k (.reset false gone) ∈ as) ∧
    ∀ bs s', Exec (step dma) (fun _ b => b ≠ .call i .kill) s bs s' →
      s'.shared.mutex = true ∧ ∃ c', s'.calls[i]? = some c' ∧ c'.committed = true := by
  have hstranded : Stranded s i := ⟨sound_run h, ⟨c, hi, by rw [Call.committed, hpc]⟩, hmute⟩
  refine ⟨lateReset_of_disabled h hmute.irqEnabled, fun bs s' hrun => ?_⟩
  have hstranded' : Stranded s' i :=
    hrun.invariant (fun hs hok hstep => stranded_step hs hok hstep) hstranded
  exact ⟨hstranded'.mutex, hstranded'.committed⟩

/-- A caller is killed in its wait; the next finds its transfer running, and its reset is late; a
    third finds the engine idle. -/
def resetLate : List Action :=
  abandoned ++ [.read 0 16 16, .read 0 32 16] ++ List.replicate 5 (.call 1 .proceed) ++
    [.call 1 (.reset false true), .call 1 .proceed] ++ List.replicate 5 (.call 2 .proceed)

theorem lateReset_hangs_third : ∃ s, run (step smallDma) initial resetLate = some s ∧
    ∀ bs s', Exec (step smallDma) (fun _ b => b ≠ .call 2 .kill) s bs s' →
      s'.shared.mutex = true ∧ ∃ c', s'.calls[2]? = some c' ∧ c'.committed = true :=
  ⟨_, rfl,
    (@lateReset_hangs smallDma _ _ resetLate 2 (exec_iff_run.mpr rfl) rfl rfl ⟨rfl, rfl, rfl⟩).2⟩

end Dma
end AmcPci
