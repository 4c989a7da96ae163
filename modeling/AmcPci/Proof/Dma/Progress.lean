import AmcPci.Proof.Dma.Tidy
import AmcPci.Proof.Dma.Completion
import AmcPci.Lib.Progress

/-!
# No call hangs

`wait_for_completion_killable` has no timeout, so a call is lost if its completion never comes. As
long as no reset is late it does come: the engine's interrupts are enabled, and while a call waits a
transfer is running, or an interrupt is pending, or the completion has been signalled. That holds
with calls killed, transfers that end in errors and interrupts that come late; what a call wakes up
to is another matter. Nor can the calls keep each other busy: every step brings some call or the
engine closer to its end.
-/

namespace AmcPci
namespace Dma

open Lib

variable {dma : DmaControl} {s s' : State} {sh sh' : Shared} {c c' d : Call} {a : CallAction}
  {t : Nat}

/-- A step of a call, of the engine or of the handler; nobody begins, opens or closes. -/
def Going (_ : State) : Action → Prop
  | .call _ _ => True
  | .engine _ => True
  | .dmaInterrupt _ => True
  | _ => False

/-- No reset is late. -/
def InTime (_ : State) : Action → Prop
  | .call _ (.reset ok _) => ok = true
  | _ => True

/-- Both. -/
def GoingInTime (s : State) (a : Action) : Prop := Going s a ∧ InTime s a

/-- Both, and nobody is killed. -/
def GoingOn (s : State) (a : Action) : Prop := GoingInTime s a ∧ ∀ i, a ≠ .call i .kill

/-! ## The work there is -/

/-- How many steps a call has to go, with the engine's and the handler's for it. -/
def Pc.work : Pc → Nat
  | .lock => 14
  | .copyFromUser => 13
  | .syncForDevice => 12
  | .reinitCompletion => 11
  | .checkAligned => 10
  | .maybeReset => 9
  | .resetController => 8
  | .program => 7
  | .waitForCompletion _ => 4
  | .checkStatus _ => 3
  | .copyToUser => 2
  | .unlock _ => 1
  | .returned _ => 0

/-- A running transfer has an interrupt to raise and to be handled. -/
def Engine.work (e : Engine) : Nat := (if e.running.isSome then 2 else 0) + e.interrupts.length

/-- The steps of all calls together, and those of the engine. -/
def State.work (s : State) : Nat := (s.calls.map fun c => c.pc.work).sum + s.shared.engine.work

/-- A call that has the mutex and has not come to the unlock. -/
theorem two_le_work (hheld : c.holdsMutex = true) (hunlock : ∀ rc, c.pc ≠ .unlock rc) :
    2 ≤ c.pc.work := by
  cases hpc : c.pc with
  | lock => rw [Call.holdsMutex, hpc] at hheld; cases hheld
  | returned rc => rw [Call.holdsMutex, hpc] at hheld; cases hheld
  | unlock rc => exact absurd hpc (hunlock rc)
  | _ => simp [Pc.work]

/-- A late reset gives the engine nothing to do. -/
theorem Engine.work_resetLate (e : Engine) (gone : Bool) : (e.resetLate gone).work ≤ e.work := by
  cases gone with
  | true => simp [Engine.work, Engine.resetLate]
  | false => exact le_rfl

theorem work_callStep (h : callStep dma sh c a = some (sh', c')) :
    c'.pc.work + sh'.engine.work < c.pc.work + sh.engine.work := by
  by_cases hunlock : ∃ rc, c.pc = .unlock rc
  · obtain ⟨rc, hpc⟩ := hunlock
    rw [callStep, hpc] at h
    cases a with
    | proceed => cases h; simp [hpc, Pc.work, Call.goto]
    | _ => cases h
  · rw [not_exists] at hunlock
    cases callMove_of_callStep h with
    | program hpc =>
      simp only [hpc, Pc.work, Call.goto, Engine.work, Engine.write, Option.isSome_some, if_true]
      omega
    | reset hpc =>
      simp only [hpc, Pc.work, Call.goto, Engine.work, Engine.reset, Option.isSome_none,
        Bool.false_eq_true, if_false]
      omega
    | @resetLate gone hpc =>
      have hengine := sh.engine.work_resetLate gone
      simp only [hpc, Pc.work, Call.leave]
      omega
    | complete hpc _ hnext =>
      rcases hnext with rfl | ⟨rc, rfl⟩ <;> simp [hpc, Pc.work]
    | @leave _ rc hheld =>
      have htwo := two_le_work hheld hunlock
      have hone : (c.leave rc).pc.work = 1 := rfl
      omega
    | unlock hpc => exact absurd hpc (hunlock _)
    | _ hpc => simp [hpc, Pc.work, Call.goto]

theorem work_finish {ok : Bool} {e e' : Engine} (h : e.finish ok = some e') :
    e'.work < e.work := by
  rw [Engine.finish, Option.map_eq_some_iff] at h
  obtain ⟨u, hrunning, rfl⟩ := h
  have hlength : (if e.irqEnabled then e.interrupts ++ [u] else e.interrupts).length
      ≤ e.interrupts.length + 1 := by
    split
    · simp
    · exact Nat.le_succ _
  simp only [Engine.work, hrunning, Option.isSome_none, Option.isSome_some, if_true,
    Bool.false_eq_true, if_false]
  omega

theorem work_step {a : Action} (hgoing : Going s a) (h : step dma s a = some s') :
    s'.work < s.work := by
  cases a with
  | call i action =>
    simp only [step, Option.bind_eq_some_iff, Option.map_eq_some_iff] at h
    obtain ⟨c, hi, ⟨shared, c'⟩, hcall, rfl⟩ := h
    have hless := work_callStep hcall
    have hsum : ((s.calls.set i c').map fun c => c.pc.work).sum + c.pc.work
        = (s.calls.map fun c => c.pc.work).sum + c'.pc.work := sum_map_set hi
    simp only [State.work]
    omega
  | engine ok =>
    simp only [step, Option.map_eq_some_iff] at h
    obtain ⟨engine, hfinish, rfl⟩ := h
    exact Nat.add_lt_add_left (work_finish hfinish) _
  | dmaInterrupt k =>
    simp only [step] at h
    split at h
    · rename_i hpending
      cases h
      simp only [State.work, Engine.work, List.length_eraseIdx_of_lt hpending.2]
      omega
    · cases h
  | _ => exact absurd hgoing id

/-! ## What a waiting call waits for -/

/-- Something is to come, or has. -/
def ToCome (sh : Shared) : Prop :=
  sh.engine.running.isSome = true ∨ sh.engine.interrupts ≠ [] ∨ 0 < sh.done

/-- Whoever waits has something to wait for. -/
structure Alive (s : State) : Prop where
  sound : Sound s
  irqEnabled : s.shared.engine.irqEnabled = true
  waits : ∀ c ∈ s.calls, ∀ t, c.pc = .waitForCompletion t → ToCome s.shared

theorem alive_initial : Alive initial := ⟨sound_initial, rfl, nofun⟩

/-- A call waits once its transfer is running. -/
theorem CallMove.toCome (h : CallMove dma sh c a sh' c')
    (hpc : c'.pc = .waitForCompletion t) : ToCome sh' := by
  cases h with
  | program => exact .inl rfl
  | complete _ _ hnext => rcases hnext with rfl | ⟨rc, rfl⟩ <;> cases hpc
  | _ => cases hpc

/-- Only a late reset leaves the interrupts disabled. -/
theorem CallMove.irqEnabled (h : CallMove dma sh c a sh' c')
    (hintime : ∀ gone, a ≠ .reset false gone) (henabled : sh.engine.irqEnabled = true) :
    sh'.engine.irqEnabled = true := by
  cases h with
  | reset => rfl
  | resetLate => exact absurd rfl (hintime _)
  | _ => exact henabled

theorem Alive.call {i : Nat} (h : Alive s) (hi : s.calls[i]? = some c)
    (hmove : CallMove dma s.shared c a sh' c') (hintime : ∀ gone, a ≠ .reset false gone) :
    Alive { s with shared := sh', calls := s.calls.set i c' } := by
  refine ⟨h.sound.call hi hmove, hmove.irqEnabled hintime h.irqEnabled, fun d hd t hpc => ?_⟩
  obtain ⟨j, hj⟩ := List.mem_iff_getElem?.mp hd
  rcases getElem?_set_some hj with ⟨-, rfl⟩ | ⟨hne, hj⟩
  · exact hmove.toCome hpc
  · exact absurd hpc (not_waiting_other h.sound.books hi hj hne hmove t)

theorem Alive.concat {f : Nat} {request : Request} {file : File} (h : Alive s)
    (hf : s.files[f]? = some file) (hopen : file.isOpen = true) :
    Alive { s with calls := s.calls ++ [⟨f, request, .lock, none⟩] } := by
  refine ⟨h.sound.concat hf hopen, h.irqEnabled, fun c hc t hpc => ?_⟩
  rcases List.mem_append.mp hc with hc | hc
  · exact h.waits c hc t hpc
  · cases List.mem_singleton.mp hc
    cases hpc

theorem alive_step {a : Action} (h : Alive s) (hintime : InTime s a)
    (hstep : step dma s a = some s') : Alive s' := by
  have hsound := sound_step h.sound hstep
  cases moved_of_step hstep with
  | refused => exact h
  | read hf hopen => exact h.concat hf hopen
  | write hf hopen => exact h.concat hf hopen
  | call hi hmove =>
    refine h.call hi hmove ?_
    rintro gone rfl
    cases hintime
  | engine hfinish =>
    rw [Engine.finish, Option.map_eq_some_iff] at hfinish
    obtain ⟨u, -, rfl⟩ := hfinish
    -- the transfer that ends raises its interrupt
    exact ⟨hsound, h.irqEnabled, fun _ _ _ _ => .inr (.inl (by simp [h.irqEnabled]))⟩
  | dmaInterrupt =>
    exact ⟨hsound, h.irqEnabled, fun _ _ _ _ => .inr (.inr (Nat.succ_pos _))⟩
  | _ => exact ⟨hsound, h.irqEnabled, h.waits⟩

theorem alive_run {as : List Action} (h : Exec (step dma) InTime initial as s) : Alive s :=
  h.invariant (fun hs hok hstep => alive_step hs hok hstep) alive_initial

/-! ## There is always a step -/

/-- Neither a signal nor a late reset. -/
def CallAction.GoesOn : CallAction → Prop
  | .kill => False
  | .reset ok _ => ok = true
  | _ => True

theorem CallAction.GoesOn.goingOn {i : Nat} (h : a.GoesOn) : GoingOn s (.call i a) := by
  cases a with
  | kill => exact absurd h id
  | reset ok gone => exact ⟨⟨trivial, h⟩, fun j heq => by cases heq⟩
  | _ => exact ⟨⟨trivial, trivial⟩, fun j heq => by cases heq⟩

/-- The holder of the mutex can go on by itself, or waits for what is to come. -/
theorem holder_goes_on (hheld : c.holdsMutex = true) :
    (∃ a sh' c', a.GoesOn ∧ callStep dma sh c a = some (sh', c')) ∨
      ∃ t, c.pc = .waitForCompletion t ∧ sh.done = 0 := by
  have hcall : ∀ {pc : Pc} (a : CallAction), c.pc = pc → a.GoesOn →
      (fileStep dma sh c pc a).isSome = true →
      ∃ a sh' c', a.GoesOn ∧ callStep dma sh c a = some (sh', c') := by
    rintro pc a rfl hgoes hsome
    obtain ⟨⟨sh', c'⟩, hstep⟩ := Option.isSome_iff_exists.mp hsome
    exact ⟨a, sh', c', hgoes, hstep⟩
  cases hpc : c.pc with
  | lock => rw [Call.holdsMutex, hpc] at hheld; cases hheld
  | returned rc => rw [Call.holdsMutex, hpc] at hheld; cases hheld
  | copyFromUser =>
    have hle : ¬ (0 : Size) > c.request.count := by simp [BitVec.lt_def]
    exact .inl (hcall (.copied 0) hpc trivial (by simp only [fileStep, if_neg hle]; rfl))
  | copyToUser =>
    have hle : ¬ (0 : Size) > userCount c.request (clipCount dma c.request.dmaCount) := by
      simp [BitVec.lt_def]
    exact .inl (hcall (.copied 0) hpc trivial (by simp only [fileStep, if_neg hle]; rfl))
  | resetController => exact .inl (hcall (.reset true true) hpc rfl rfl)
  | waitForCompletion t =>
    by_cases hdone : sh.done = 0
    · exact .inr ⟨t, rfl, hdone⟩
    · refine .inl (hcall .proceed hpc trivial ?_)
      simp only [fileStep, operationStep, if_neg hdone]
      rfl
  | _ => exact .inl (hcall .proceed hpc trivial rfl)

theorem step_call {i : Nat} (hi : s.calls[i]? = some c)
    (h : callStep dma s.shared c a = some (sh', c')) :
    step dma s (.call i a) = some { s with shared := sh', calls := s.calls.set i c' } := by
  simp [step, hi, h]

theorem goes_on (h : Alive s) (hc : c ∈ s.calls) (hstill : c.hasReturned = false) :
    ∃ a s', GoingOn s a ∧ step dma s a = some s' := by
  cases hmutex : s.shared.mutex with
  | true =>
    obtain ⟨i, d, hi, hpos⟩ := h.sound.books.holder (by rw [hmutex]; exact Nat.one_pos)
    have hheld : d.holdsMutex = true := by
      cases hd : d.holdsMutex with
      | true => rfl
      | false => rw [hd] at hpos; exact absurd hpos (Nat.lt_irrefl 0)
    rcases @holder_goes_on dma s.shared d hheld with
      ⟨a, sh', c', hgoes, hstep⟩ | ⟨t, hpc, hdone⟩
    · exact ⟨.call i a, _, hgoes.goingOn, step_call hi hstep⟩
    · have hd := List.mem_of_getElem? hi
      have hattached := h.sound.attached hd (by rw [Call.hasReturned, hpc])
      rcases h.waits d hd t hpc with hrunning | hpending | hsignalled
      · obtain ⟨u, hu⟩ := Option.isSome_iff_exists.mp hrunning
        have hfinish : ∃ engine, s.shared.engine.finish true = some engine :=
          ⟨_, by rw [Engine.finish, hu]; rfl⟩
        obtain ⟨engine, hfinish⟩ := hfinish
        exact ⟨.engine true, _, ⟨⟨trivial, trivial⟩, fun _ h => by cases h⟩,
          by rw [step, hfinish]; rfl⟩
      · exact ⟨.dmaInterrupt 0, _, ⟨⟨trivial, trivial⟩, fun _ h => by cases h⟩,
          if_pos ⟨hattached, List.length_pos_iff.mpr hpending⟩⟩
      · omega
  | false =>
    -- nobody is between lock and unlock, so this one is before the lock
    obtain ⟨i, hi⟩ := List.mem_iff_getElem?.mp hc
    have hle := h.sound.books.le hi
    rw [hmutex] at hle
    cases hpc : c.pc with
    | lock =>
      have hsome : (fileStep dma s.shared c .lock .proceed).isSome = true := by
        simp [fileStep, hmutex]
      obtain ⟨⟨sh', c'⟩, hstep⟩ := Option.isSome_iff_exists.mp hsome
      have hcall : callStep dma s.shared c .proceed = some (sh', c') := by
        rw [callStep, hpc]
        exact hstep
      exact ⟨.call i .proceed, _, CallAction.GoesOn.goingOn trivial, step_call hi hcall⟩
    | returned rc => rw [Call.hasReturned, hpc] at hstill; cases hstill
    | _ => rw [holdsMutex_of_pc hpc rfl] at hle; exact absurd hle (by decide)

/-! ## Every run in which no reset is late -/

/-- No call is under way. -/
def AllReturned (s : State) : Prop := ∀ c ∈ s.calls, c.hasReturned = true

theorem usesUp_going : UsesUp (step dma) Going (fun _ => True) State.work :=
  fun _ hok hstep => ⟨trivial, work_step hok hstep⟩

theorem usesUp_goingOn : UsesUp (step dma) GoingOn Alive State.work :=
  fun hs hok hstep => ⟨alive_step hs hok.1.2 hstep, work_step hok.1.1 hstep⟩

theorem neverStuck_goingOn : NeverStuck (step dma) GoingOn Alive AllReturned := by
  intro s hs hnot
  simp only [AllReturned, not_forall, Bool.not_eq_true] at hnot
  obtain ⟨c, hc, hstill⟩ := hnot
  exact goes_on hs hc hstill

/-- **No call hangs**, while no reset is late. After any such run, once nobody begins, opens or
    closes any more: there are at most `work` steps to go; whatever steps are taken, there is
    another one as long as some call has not returned, and not only that it be killed; and so all
    calls can return without one being killed, and leave the mutex free. -/
theorem calls_return {as : List Action} (h : Exec (step dma) InTime initial as s) :
    (∀ bs s', Exec (step dma) Going s bs s' → bs.length ≤ s.work) ∧
    (∀ bs s', Exec (step dma) GoingInTime s bs s' →
      AllReturned s' ∧ s'.shared.mutex = false ∨
        ∃ a s'', GoingOn s' a ∧ step dma s' a = some s'') ∧
    ∃ bs s', Exec (step dma) GoingOn s bs s' ∧ AllReturned s' ∧ s'.shared.mutex = false := by
  have halive := alive_run h
  refine ⟨fun bs s' hrun => ?_, fun bs s' hrun => ?_, ?_⟩
  · have hlength := usesUp_going.length_le hrun trivial
    omega
  · have halive' : Alive s' :=
      hrun.invariant (fun hs hok hstep => alive_step hs hok.2 hstep) halive
    by_cases hdone : AllReturned s'
    · exact .inl ⟨hdone, halive'.sound.mutex_free hdone⟩
    · exact .inr (neverStuck_goingOn s' halive' hdone)
  · obtain ⟨bs, s', hrun, hdone⟩ := (@usesUp_goingOn dma).exists_done neverStuck_goingOn s halive
    have halive' : Alive s' :=
      hrun.invariant (fun hs hok hstep => alive_step hs hok.1.2 hstep) halive
    exact ⟨bs, s', hrun, hdone, halive'.sound.mutex_free hdone⟩

/-- One caller has been killed in its wait, the next is past its reinit, and a third is queued. -/
def crowded : List Action :=
  [.openFile ⟨256, 128⟩, .read 0 0 16, .read 0 16 16, .write 0 0 16] ++ startRead 0 ++
    [.call 0 .kill, .call 0 .proceed, .call 1 .proceed, .call 1 .proceed, .call 1 .proceed]

theorem calls_return_crowded : ∃ s, run (step smallDma) initial crowded = some s ∧ s.work = 26 ∧
    s.shared.engine.running = some 0 ∧
    ∃ bs s', Exec (step smallDma) GoingOn s bs s' ∧ AllReturned s' ∧ s'.shared.mutex = false := by
  refine ⟨_, rfl, rfl, rfl, ?_⟩
  have hintime : Exec (step smallDma) InTime initial crowded _ :=
    (exec_iff_run.mpr rfl).restrict (by simp [crowded, startRead, InTime])
  exact (@calls_return smallDma _ crowded hintime).2.2

end Dma
end AmcPci
