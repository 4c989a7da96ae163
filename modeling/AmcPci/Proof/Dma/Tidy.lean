import AmcPci.Proof.Dma.Moves

/-!
# Runs in which no call is killed

A call that is killed in its wait is the one way to leave a transfer behind. Where none is, a call
stays with its transfer until the interrupt of it has come: there is never more than one transfer
about, the one a call waits for, and while no call waits the engine is idle, no interrupt is
pending and the completion is down. A call whose transfer ends with the interrupts disabled stays
with it too, for good.
-/

namespace AmcPci
namespace Dma

open Lib

variable {dma : DmaControl} {s s' : State} {sh sh' : Shared} {c c' d : Call} {a : CallAction}
  {t : Nat}

/-- No call is killed in its wait. -/
def NoKill (_ : State) : Action → Prop
  | .call _ .kill => False
  | _ => True

/-- Nothing is running, nothing pending and nothing signalled. -/
structure Quiet (sh : Shared) : Prop where
  running : sh.engine.running = none
  interrupts : sh.engine.interrupts = []
  done : sh.done = 0

/-- Transfer `t` is running, or its interrupt is pending, or it has been signalled, or it has ended
    and there is to be no interrupt. -/
inductive Awaits (sh : Shared) (t : Nat) : Prop
  | running (hrunning : sh.engine.running = some t) (hnone : sh.engine.interrupts = [])
    (hdone : sh.done = 0)
  | pending (hidle : sh.engine.running = none) (hpending : sh.engine.interrupts = [t])
    (hdone : sh.done = 0)
  | signalled (hidle : sh.engine.running = none) (hnone : sh.engine.interrupts = [])
    (hdone : sh.done = 1)
  | silent (hidle : sh.engine.running = none) (hnone : sh.engine.interrupts = [])
    (hdone : sh.done = 0)

/-- The call waits, and for the transfer it has programmed. -/
structure Call.Waits (dma : DmaControl) (sh : Shared) (c : Call) (t : Nat) : Prop where
  awaits : Awaits sh t
  mine : sh.engine.log[t]? = some (c.request.transfer dma)

/-- All is quiet, or one call waits for the one transfer there is. -/
structure Tidy (dma : DmaControl) (s : State) : Prop where
  books : Balanced (fun c : Call => c.holdsMutex.toNat) s.shared.mutex.toNat s.calls
  quiet : (∀ c ∈ s.calls, ∀ t, c.pc ≠ .waitForCompletion t) → Quiet s.shared
  waits : ∀ c ∈ s.calls, ∀ t, c.pc = .waitForCompletion t → c.Waits dma s.shared t

theorem tidy_initial : Tidy dma initial := ⟨rfl, fun _ => ⟨rfl, rfl, rfl⟩, nofun⟩

/-! ## The steps of a call -/

theorem Call.holdsMutex_of_waiting (h : c.pc = .waitForCompletion t) : c.holdsMutex = true :=
  holdsMutex_of_pc h rfl

/-- A call that moves has the mutex, or finds it free. -/
theorem CallMove.holds_or_free (h : CallMove dma sh c a sh' c') :
    c.holdsMutex = true ∨ sh.mutex = false := by
  cases h with
  | lockWrite _ hfree => exact .inr hfree
  | lockRead _ hfree => exact .inr hfree
  | leave hheld => exact .inl hheld
  | _ hpc => exact .inl (holdsMutex_of_pc hpc rfl)

/-- Only the unlock gives the mutex up. -/
theorem CallMove.holds_after (h : CallMove dma sh c a sh' c') (hpc : ∀ rc, c.pc ≠ .unlock rc) :
    c'.holdsMutex = true := by
  cases h with
  | complete _ _ hnext => rcases hnext with rfl | ⟨rc, rfl⟩ <;> rfl
  | unlock hunlock => exact absurd hunlock (hpc _)
  | _ => rfl

/-- Next to a call that moves no other one waits. -/
theorem not_waiting_other {i j : Nat}
    (hbooks : Balanced (fun c : Call => c.holdsMutex.toNat) s.shared.mutex.toNat s.calls)
    (hi : s.calls[i]? = some c) (hj : s.calls[j]? = some d) (hne : j ≠ i)
    (hmove : CallMove dma s.shared c a sh' c') (t : Nat) : d.pc ≠ .waitForCompletion t := by
  intro hpc
  have hheld := Call.holdsMutex_of_waiting hpc
  rcases hmove.holds_or_free with hmine | hfree
  · rw [holds_alone hbooks hi hj hne hmine] at hheld
    cases hheld
  · have hle := hbooks.le hj
    rw [hfree, hheld] at hle
    exact absurd hle (by decide)

/-- All a waiting call does is wake up. -/
theorem woken_of_waiting (hpc : c.pc = .waitForCompletion t) (hkill : a ≠ .kill)
    (h : callStep dma sh c a = some (sh', c')) :
    0 < sh.done ∧ sh' = { sh with done := sh.done - 1 } ∧ c' = c.goto (.checkStatus t) := by
  rw [callStep, hpc] at h
  cases a with
  | proceed =>
    simp only [fileStep, operationStep] at h
    split at h
    · cases h
    · rename_i hdone
      cases h
      exact ⟨Nat.pos_of_ne_zero hdone, rfl, rfl⟩
  | kill => exact absurd rfl hkill
  | _ => cases h

/-- A late reset does not start anything. -/
theorem Engine.running_resetLate {gone : Bool} (e : Engine) (hrunning : e.running = none) :
    (e.resetLate gone).running = none := by
  simp [Engine.resetLate, hrunning]

/-- A call that does not wait leaves all quiet, or starts a transfer and waits for it. -/
theorem CallMove.quiet_or_waits (h : CallMove dma sh c a sh' c')
    (hwait : ∀ t, c.pc ≠ .waitForCompletion t) (hquiet : Quiet sh) :
    (Quiet sh' ∧ ∀ t, c'.pc ≠ .waitForCompletion t) ∨
      ∃ t, c'.pc = .waitForCompletion t ∧ c'.Waits dma sh' t := by
  obtain ⟨hrunning, hinterrupts, hdone⟩ := hquiet
  cases h with
  | lockWrite => exact .inl ⟨⟨hrunning, hinterrupts, hdone⟩, nofun⟩
  | lockRead => exact .inl ⟨⟨hrunning, hinterrupts, hdone⟩, nofun⟩
  | reinit => exact .inl ⟨⟨hrunning, hinterrupts, rfl⟩, nofun⟩
  | reset => exact .inl ⟨⟨rfl, hinterrupts, hdone⟩, nofun⟩
  | resetLate => exact .inl ⟨⟨sh.engine.running_resetLate hrunning, hinterrupts, hdone⟩, nofun⟩
  | program =>
    exact .inr ⟨_, rfl, .running rfl hinterrupts hdone, List.getElem?_concat_length⟩
  | woken hpc => exact absurd hpc (hwait _)
  | complete _ _ hnext =>
    refine .inl ⟨⟨hrunning, hinterrupts, hdone⟩, fun t => ?_⟩
    rcases hnext with rfl | ⟨rc, rfl⟩ <;> nofun
  | unlock => exact .inl ⟨⟨hrunning, hinterrupts, hdone⟩, nofun⟩
  | _ => exact .inl ⟨⟨hrunning, hinterrupts, hdone⟩, nofun⟩

/-- A call that moves, and does not wait, finds all quiet. -/
theorem Tidy.quiet_of_move {i : Nat} (h : Tidy dma s) (hi : s.calls[i]? = some c)
    (hmove : CallMove dma s.shared c a sh' c') (hwait : ∀ t, c.pc ≠ .waitForCompletion t) :
    Quiet s.shared := by
  refine h.quiet fun d hd t => ?_
  obtain ⟨j, hj⟩ := List.mem_iff_getElem?.mp hd
  by_cases hne : j = i
  · subst hne
    obtain rfl : c = d := Option.some.inj (hi.symm.trans hj)
    exact hwait t
  · exact not_waiting_other h.books hi hj hne hmove t

theorem Tidy.call {i : Nat} (h : Tidy dma s) (hi : s.calls[i]? = some c) (hkill : a ≠ .kill)
    (hstep : callStep dma s.shared c a = some (sh', c')) :
    Tidy dma { s with shared := sh', calls := s.calls.set i c' } := by
  have hmove := callMove_of_callStep hstep
  have hc : c ∈ s.calls := List.mem_of_getElem? hi
  have hother : ∀ d ∈ s.calls.set i c', d = c' ∨ ∀ t, d.pc ≠ .waitForCompletion t := by
    intro d hd
    obtain ⟨j, hj⟩ := List.mem_iff_getElem?.mp hd
    rcases getElem?_set_some hj with ⟨-, rfl⟩ | ⟨hne, hj⟩
    · exact .inl rfl
    · exact .inr fun t => not_waiting_other h.books hi hj hne hmove t
  have hafter : (Quiet sh' ∧ ∀ t, c'.pc ≠ .waitForCompletion t) ∨
      ∃ t, c'.pc = .waitForCompletion t ∧ c'.Waits dma sh' t := by
    by_cases hwait : ∃ t, c.pc = .waitForCompletion t
    · obtain ⟨t, hpc⟩ := hwait
      obtain ⟨hdone, rfl, rfl⟩ := woken_of_waiting hpc hkill hstep
      left
      cases (h.waits c hc t hpc).awaits with
      | running _ _ hzero => omega
      | pending _ _ hzero => omega
      | signalled hidle hnone hone => exact ⟨⟨hidle, hnone, by simp [hone]⟩, nofun⟩
      | silent _ _ hzero => omega
    · rw [not_exists] at hwait
      exact hmove.quiet_or_waits hwait (h.quiet_of_move hi hmove hwait)
  refine ⟨h.books.set hi (hmove.holds (h.books.le hi)), fun hnone => ?_, fun d hd t hpc => ?_⟩
  · rcases hafter with ⟨hquiet, -⟩ | ⟨t, hpc, -⟩
    · exact hquiet
    · exact absurd hpc (hnone c' (List.mem_of_getElem? (getElem?_set_of_some hi)) t)
  · rcases hother d hd with rfl | hnot
    · rcases hafter with ⟨-, hnot⟩ | ⟨u, hu, hwaits⟩
      · exact absurd hpc (hnot t)
      · obtain rfl : u = t := Pc.waitForCompletion.inj (hu.symm.trans hpc)
        exact hwaits
    · exact absurd hpc (hnot t)

/-! ## The steps of the engine and of the handler -/

/-- A completion that has been signalled is that of a transfer that has ended. -/
theorem Awaits.idle (h : Awaits sh t) (hdone : 0 < sh.done) : sh.engine.running = none := by
  cases h with
  | running _ _ hzero => omega
  | pending hidle => exact hidle
  | signalled hidle => exact hidle
  | silent hidle => exact hidle

/-- Something that is not quiet has a call waiting for it. -/
theorem Tidy.waiting (h : Tidy dma s) (hbusy : ¬ Quiet s.shared) :
    ∃ c ∈ s.calls, ∃ t, c.pc = .waitForCompletion t := by
  by_contra hnone
  refine hbusy (h.quiet fun c hc t hpc => hnone ⟨c, hc, t, hpc⟩)

/-- What happens to the transfer that is waited for. -/
theorem Tidy.advance {engine : Engine} {done : Nat} (h : Tidy dma s)
    (hbusy : ¬ Quiet s.shared) (hlog : engine.log = s.shared.engine.log)
    (hnext : ∀ t, Awaits s.shared t → Awaits { s.shared with engine, done } t) :
    Tidy dma { s with shared := { s.shared with engine, done } } := by
  refine ⟨h.books, fun hnone => ?_, fun c hc t hpc => ?_⟩
  · obtain ⟨c, hc, t, hpc⟩ := h.waiting hbusy
    exact absurd hpc (hnone c hc t)
  · obtain ⟨hawaits, hmine⟩ := h.waits c hc t hpc
    exact ⟨hnext t hawaits, hlog ▸ hmine⟩

theorem Tidy.finish {ok : Bool} {engine : Engine} (h : Tidy dma s)
    (hfinish : s.shared.engine.finish ok = some engine) :
    Tidy dma { s with shared := { s.shared with engine } } := by
  rw [Engine.finish, Option.map_eq_some_iff] at hfinish
  obtain ⟨u, hrunning, rfl⟩ := hfinish
  refine h.advance (fun hquiet => ?_) rfl fun t hawaits => ?_
  · rw [hquiet.running] at hrunning
    cases hrunning
  · cases hawaits with
    | running hat hnone hdone =>
      obtain rfl : u = t := Option.some.inj (hrunning.symm.trans hat)
      cases hirq : s.shared.engine.irqEnabled with
      | true => exact .pending rfl (by simp [hnone]) hdone
      | false => exact .silent rfl (by simp [hnone]) hdone
    | pending hidle => rw [hidle] at hrunning; cases hrunning
    | signalled hidle => rw [hidle] at hrunning; cases hrunning
    | silent hidle => rw [hidle] at hrunning; cases hrunning

theorem Tidy.dmaInterrupt {k : Nat} (h : Tidy dma s)
    (hk : k < s.shared.engine.interrupts.length) :
    Tidy dma { s with shared := { s.shared with
      engine := { s.shared.engine with interrupts := s.shared.engine.interrupts.eraseIdx k }
      done := s.shared.done + 1 } } := by
  refine h.advance (fun hquiet => ?_) rfl fun t hawaits => ?_
  · rw [hquiet.interrupts] at hk
    exact absurd hk (Nat.not_lt_zero k)
  · cases hawaits with
    | running _ hnone => rw [hnone] at hk; exact absurd hk (Nat.not_lt_zero k)
    | pending hidle hpending hdone =>
      rw [hpending, List.length_singleton, Nat.lt_one_iff] at hk
      subst hk
      exact .signalled hidle (by simp [hpending]) (by simp [hdone])
    | signalled _ hnone => rw [hnone] at hk; exact absurd hk (Nat.not_lt_zero k)
    | silent _ hnone => rw [hnone] at hk; exact absurd hk (Nat.not_lt_zero k)

/-! ## Every run -/

theorem Tidy.concat {f : Nat} {request : Request} (h : Tidy dma s) :
    Tidy dma { s with calls := s.calls ++ [⟨f, request, .lock, none⟩] } := by
  refine ⟨h.books.concat rfl, fun hnone => ?_, fun c hc t hpc => ?_⟩
  · exact h.quiet fun c hc => hnone c (List.mem_append_left _ hc)
  · rcases List.mem_append.mp hc with hc | hc
    · exact h.waits c hc t hpc
    · cases List.mem_singleton.mp hc
      cases hpc

theorem tidy_step {a : Action} (h : Tidy dma s) (hkill : NoKill s a)
    (hstep : step dma s a = some s') : Tidy dma s' := by
  cases a with
  | call i action =>
    simp only [step, Option.bind_eq_some_iff, Option.map_eq_some_iff] at hstep
    obtain ⟨c, hi, ⟨shared, c'⟩, hcall, rfl⟩ := hstep
    refine h.call hi ?_ hcall
    rintro rfl
    exact hkill
  | engine ok =>
    simp only [step, Option.map_eq_some_iff] at hstep
    obtain ⟨engine, hfinish, rfl⟩ := hstep
    exact h.finish hfinish
  | dmaInterrupt k =>
    simp only [step] at hstep
    split at hstep
    · rename_i hpending
      cases hstep
      exact h.dmaInterrupt hpending.2
    · cases hstep
  | read f offset count =>
    cases moved_of_step hstep with
    | read => exact h.concat
    | refused => exact h
  | write f offset count =>
    cases moved_of_step hstep with
    | write => exact h.concat
    | refused => exact h
  | _ =>
    cases moved_of_step hstep with
    | _ => exact ⟨h.books, h.quiet, h.waits⟩

end Dma
end AmcPci
