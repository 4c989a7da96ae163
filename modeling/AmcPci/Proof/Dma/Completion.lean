import AmcPci.Proof.Dma.Moves

/-!
# Whose completion a call returns on

`dma_done` does not say whose transfer has ended, and an interrupt may be handled long after its
transfer ended: a caller killed in its wait leaves a transfer behind, and the next caller may
find the engine idle again and the interrupt still to come. Handled before that caller's own
transfer has ended, it wakes the caller too early (`completion_mismatch`).

That is the only way to go wrong. In a run that handles no interrupt between a call's
`reinit_completion` and the end of the transfer it then programs, a call that is told of a
completion is told of its own, and no call returns a count that has not been told of one
(`completion_matches`).
-/

namespace AmcPci
namespace Dma

open Lib

variable {dma : DmaControl} {s s' : State} {sh sh' : Shared} {c c' d : Call} {a : CallAction}
  {t : Nat}

/-! ## What the holder of the mutex knows -/

/-- The engine is at transfer `t` or has just ended it, well or badly. -/
def Engine.IsAt (e : Engine) (t : Nat) : Prop :=
  e.running = some t ∨ (e.running = none ∧ (t ∈ e.finished ∨ e.error = true))

/-- The call programmed transfer `t`, and none has been programmed since. -/
def Call.Programmed (dma : DmaControl) (e : Engine) (c : Call) (t : Nat) : Prop :=
  e.log[t]? = some (c.request.transfer dma) ∧ e.IsAt t

/-- A completion that has been signalled is for the transfer the call waits for. -/
def Call.Matched (dma : DmaControl) (sh : Shared) (c : Call) : Prop :=
  match c.pc with
  | .checkAligned => sh.done = 0
  | .maybeReset => sh.done = 0
  | .resetController => sh.done = 0
  | .program => sh.done = 0 ∧ sh.engine.running = none
  | .waitForCompletion t =>
    c.Programmed dma sh.engine t ∧ (0 < sh.done → sh.engine.running = none)
  | .checkStatus t => c.Programmed dma sh.engine t ∧ sh.engine.running = none
  | _ => True

/-- What a call was told ended is the transfer it programmed, and it did end. -/
def Call.ToldOwn (dma : DmaControl) (e : Engine) (c : Call) : Prop :=
  ∀ t n, c.result = some (t, n) → e.log[t]? = some (c.request.transfer dma) ∧ t ∈ e.finished

/-- A call that is to return a count, or has returned one, was told of a completion. -/
def Call.Told (c : Call) : Prop :=
  match c.pc with
  | .copyToUser => c.result.isSome = true
  | .unlock rc => 0 < rc → c.result.isSome = true
  | .returned rc => 0 < rc → c.result.isSome = true
  | _ => True

theorem Call.matched_of_pc {pc : Pc} (hpc : c.pc = pc)
    (h : ({ c with pc } : Call).Matched dma sh) : c.Matched dma sh := by
  subst hpc
  exact h

theorem Call.Matched.of_pc {pc : Pc} (h : c.Matched dma sh) (hpc : c.pc = pc) :
    ({ c with pc } : Call).Matched dma sh := by
  subst hpc
  exact h

theorem Call.matched_of_not_holds (h : c.holdsMutex = false) : c.Matched dma sh := by
  cases hpc : c.pc with
  | lock => exact matched_of_pc hpc trivial
  | returned rc => exact matched_of_pc hpc trivial
  | _ => rw [holdsMutex_of_pc hpc rfl] at h; cases h

/-- The transfer just programmed is the last of the log, and the engine is at it. -/
theorem Call.programmed_write (e : Engine) :
    c.Programmed dma (e.write (c.request.transfer dma)) e.log.length :=
  ⟨List.getElem?_concat_length, .inl rfl⟩

/-! ## The steps of the call itself -/

theorem Call.Matched.move (h : c.Matched dma sh) (hmove : CallMove dma sh c a sh' c') :
    c'.Matched dma sh' := by
  cases hmove with
  | reinit => exact rfl
  | aligned hpc =>
    have hdone : sh.done = 0 := h.of_pc hpc
    exact hdone
  | idle hpc _ hidle =>
    have hdone : sh.done = 0 := h.of_pc hpc
    exact ⟨hdone, hidle⟩
  | notIdle hpc =>
    have hdone : sh.done = 0 := h.of_pc hpc
    exact hdone
  | reset hpc =>
    have hdone : sh.done = 0 := h.of_pc hpc
    exact ⟨hdone, rfl⟩
  | program hpc =>
    obtain ⟨hdone, -⟩ := h.of_pc hpc
    exact ⟨c.programmed_write sh.engine, fun hpos => absurd hpos (by simp [hdone])⟩
  | woken hpc hdone =>
    obtain ⟨hprogrammed, hended⟩ := h.of_pc hpc
    exact ⟨hprogrammed, hended hdone⟩
  | complete _ _ hnext => rcases hnext with rfl | ⟨rc, rfl⟩ <;> trivial
  | _ => trivial

/-- A call finds its transfer ended without an error only if it did. -/
theorem Call.Matched.finished (h : c.Matched dma sh) (hpc : c.pc = .checkStatus t)
    (herror : sh.engine.error = false) :
    sh.engine.log[t]? = some (c.request.transfer dma) ∧ t ∈ sh.engine.finished := by
  obtain ⟨⟨hlog, hat⟩, hidle⟩ := h.of_pc hpc
  refine ⟨hlog, ?_⟩
  rcases hat with hrunning | ⟨-, hfinished | hbad⟩
  · rw [hidle] at hrunning; cases hrunning
  · exact hfinished
  · rw [herror] at hbad; cases hbad

/-- The log and the list of ended transfers only grow. -/
def Engine.Grows (e e' : Engine) : Prop :=
  (∀ (t : Nat) (x : Transfer), e.log[t]? = some x → e'.log[t]? = some x) ∧
    ∀ t ∈ e.finished, t ∈ e'.finished

theorem Engine.grows_write (e : Engine) (x : Transfer) : e.Grows (e.write x) :=
  by
  refine ⟨fun t y h => ?_, fun _ => id⟩
  obtain ⟨hlt, -⟩ := List.getElem?_eq_some_iff.mp h
  exact (List.getElem?_append_left hlt).trans h

theorem Call.ToldOwn.mono {e e' : Engine} (h : c.ToldOwn dma e) (hgrows : e.Grows e') :
    c.ToldOwn dma e' := by
  intro t n hr
  obtain ⟨hlog, hfinished⟩ := h t n hr
  exact ⟨hgrows.1 t _ hlog, hgrows.2 t hfinished⟩

theorem CallMove.grows (h : CallMove dma sh c a sh' c') : sh.engine.Grows sh'.engine := by
  cases h with
  | program => exact sh.engine.grows_write _
  | _ => exact ⟨fun _ _ => id, fun _ => id⟩

theorem Call.ToldOwn.move (h : c.ToldOwn dma sh.engine) (hmatched : c.Matched dma sh)
    (hmove : CallMove dma sh c a sh' c') : c'.ToldOwn dma sh'.engine := by
  have hgrows := hmove.grows
  cases hmove with
  | complete hpc herror =>
    intro t' n hr
    obtain ⟨rfl, -⟩ := Prod.mk.inj (Option.some.inj hr)
    exact hmatched.finished hpc herror
  | _ => exact h.mono hgrows

theorem Call.Told.of_pc {pc : Pc} (h : c.Told) (hpc : c.pc = pc) : ({ c with pc } : Call).Told := by
  subst hpc
  exact h

theorem Call.Told.move (h : c.Told) (hmove : CallMove dma sh c a sh' c') : c'.Told := by
  cases hmove with
  | complete _ _ hnext =>
    rcases hnext with rfl | ⟨rc, rfl⟩
    · rfl
    · exact fun _ => rfl
  | resetLate => exact fun hpos => absurd hpos (by decide)
  | leave _ _ hrc =>
    intro hpos
    rcases hrc with hle | hpc
    · exact absurd hpos (Int.not_lt.mpr hle)
    · exact h.of_pc hpc
  | @unlock rc hpc =>
    have htold : 0 < rc → c.result.isSome = true := h.of_pc hpc
    exact htold
  | _ => trivial

/-! ## The steps of the engine and of the handler -/

theorem Engine.finish_some {e e' : Engine} {ok : Bool} (h : e.finish ok = some e') :
    ∃ t, e.running = some t ∧ e'.running = none ∧ e'.log = e.log ∧
      e'.error = (e.error || !ok) ∧ e'.finished = if ok then e.finished ++ [t] else e.finished := by
  rw [Engine.finish, Option.map_eq_some_iff] at h
  obtain ⟨t, hrunning, rfl⟩ := h
  exact ⟨t, hrunning, rfl, rfl, rfl, rfl⟩

theorem Engine.grows_finish {e e' : Engine} {ok : Bool} (h : e.finish ok = some e') :
    e.Grows e' := by
  obtain ⟨t, -, -, hlog, -, hfinished⟩ := e.finish_some h
  refine ⟨fun t x hx => hlog ▸ hx, fun u hu => ?_⟩
  rw [hfinished]
  split
  · exact List.mem_append_left _ hu
  · exact hu

theorem Engine.IsAt.finish {e e' : Engine} {ok : Bool} (h : e.IsAt t)
    (hfinish : e.finish ok = some e') : e'.IsAt t := by
  obtain ⟨u, hrunning, hidle, -, herror, hfinished⟩ := e.finish_some hfinish
  refine .inr ⟨hidle, ?_⟩
  rcases h with hat | ⟨hnone, -⟩
  · obtain rfl : u = t := Option.some.inj (hrunning.symm.trans hat)
    cases ok with
    | true => left; rw [hfinished]; exact List.mem_append_right _ (List.mem_singleton_self u)
    | false => right; rw [herror]; exact Bool.or_true _
  · rw [hrunning] at hnone; cases hnone

theorem Call.Matched.finish {e : Engine} {ok : Bool} (h : c.Matched dma sh)
    (hfinish : sh.engine.finish ok = some e) : c.Matched dma { sh with engine := e } := by
  obtain ⟨u, hrunning, hidle, hlog, -⟩ := sh.engine.finish_some hfinish
  cases hpc : c.pc with
  | checkAligned => exact matched_of_pc hpc (h.of_pc hpc)
  | maybeReset => exact matched_of_pc hpc (h.of_pc hpc)
  | resetController => exact matched_of_pc hpc (h.of_pc hpc)
  | program => exact matched_of_pc hpc ⟨(h.of_pc hpc).1, hidle⟩
  | waitForCompletion t =>
    obtain ⟨⟨hmine, hat⟩, -⟩ := h.of_pc hpc
    exact matched_of_pc hpc ⟨⟨hlog ▸ hmine, hat.finish hfinish⟩, fun _ => hidle⟩
  | checkStatus t =>
    obtain ⟨-, hnone⟩ := h.of_pc hpc
    rw [hrunning] at hnone
    cases hnone
  | _ => exact matched_of_pc hpc trivial

/-- No interrupt is handled between a call's `reinit_completion` and the end of the transfer the
    call programs after it. -/
def OnTime (s : State) : Action → Prop
  | .dmaInterrupt _ => ∀ c ∈ s.calls, c.configuring = false ∧
    ∀ t, c.pc = .waitForCompletion t → s.shared.engine.running ≠ some t
  | _ => True

theorem Call.Matched.dmaInterrupt {interrupts : List Nat} (h : c.Matched dma sh)
    (hconfiguring : c.configuring = false)
    (hended : ∀ t, c.pc = .waitForCompletion t → sh.engine.running ≠ some t) :
    c.Matched dma { sh with engine := { sh.engine with interrupts }, done := sh.done + 1 } := by
  cases hpc : c.pc with
  | checkAligned => simp [Call.configuring, hpc] at hconfiguring
  | maybeReset => simp [Call.configuring, hpc] at hconfiguring
  | resetController => simp [Call.configuring, hpc] at hconfiguring
  | program => simp [Call.configuring, hpc] at hconfiguring
  | waitForCompletion t =>
    obtain ⟨⟨hmine, hat⟩, -⟩ := h.of_pc hpc
    refine matched_of_pc hpc ⟨⟨hmine, hat⟩, fun _ => ?_⟩
    rcases hat with hrunning | ⟨hidle, -⟩
    · exact absurd hrunning (hended t hpc)
    · exact hidle
  | checkStatus t => exact matched_of_pc hpc (h.of_pc hpc)
  | _ => exact matched_of_pc hpc trivial

/-! ## Every run -/

/-- The books of the mutex, and what each call knows and was told. -/
structure Matching (dma : DmaControl) (s : State) : Prop where
  books : Balanced (fun c : Call => c.holdsMutex.toNat) s.shared.mutex.toNat s.calls
  matched : ∀ c ∈ s.calls, c.Matched dma s.shared
  toldOwn : ∀ c ∈ s.calls, c.ToldOwn dma s.shared.engine
  told : ∀ c ∈ s.calls, c.Told

theorem matching_initial : Matching dma initial :=
  ⟨rfl, nofun, nofun, nofun⟩

/-- A call that does not move keeps what it knows: it knows something only as the holder of the
    mutex, and then the call that moves is not. -/
theorem Call.Matched.other (h : d.Matched dma sh) (hmove : CallMove dma sh c a sh' c')
    (hexcl : c.holdsMutex = true → d.holdsMutex = false) : d.Matched dma sh' := by
  rcases hmove.quiet with hheld | ⟨hengine, hdone⟩
  · exact matched_of_not_holds (hexcl hheld)
  · simpa only [Call.Matched, hengine, hdone] using h

/-- A call that queues for the lock. -/
theorem Matching.concat {f : Nat} {request : Request} (h : Matching dma s) :
    Matching dma { s with calls := s.calls ++ [⟨f, request, .lock, none⟩] } := by
  refine ⟨h.books.concat rfl, ?_, ?_, ?_⟩
  · intro c hc
    rcases List.mem_append.mp hc with hc | hc
    · exact h.matched c hc
    · cases List.mem_singleton.mp hc
      trivial
  · intro c hc
    rcases List.mem_append.mp hc with hc | hc
    · exact h.toldOwn c hc
    · cases List.mem_singleton.mp hc
      nofun
  · intro c hc
    rcases List.mem_append.mp hc with hc | hc
    · exact h.told c hc
    · cases List.mem_singleton.mp hc
      trivial

theorem Matching.call {i : Nat} (h : Matching dma s) (hi : s.calls[i]? = some c)
    (hmove : CallMove dma s.shared c a sh' c') :
    Matching dma { s with shared := sh', calls := s.calls.set i c' } := by
  have hc : c ∈ s.calls := List.mem_of_getElem? hi
  refine ⟨h.books.set hi (hmove.holds (h.books.le hi)), ?_, ?_, ?_⟩
  · intro d hd
    obtain ⟨j, hj⟩ := List.mem_iff_getElem?.mp hd
    rcases getElem?_set_some hj with ⟨-, rfl⟩ | ⟨hne, hj⟩
    · exact (h.matched c hc).move hmove
    · exact (h.matched d (List.mem_of_getElem? hj)).other hmove
        fun hheld => holds_alone h.books hi hj hne hheld
  · intro d hd
    obtain ⟨j, hj⟩ := List.mem_iff_getElem?.mp hd
    rcases getElem?_set_some hj with ⟨-, rfl⟩ | ⟨-, hj⟩
    · exact (h.toldOwn c hc).move (h.matched c hc) hmove
    · exact (h.toldOwn d (List.mem_of_getElem? hj)).mono hmove.grows
  · intro d hd
    rcases List.mem_or_eq_of_mem_set hd with hd | rfl
    · exact h.told d hd
    · exact (h.told c hc).move hmove

theorem matching_step {a : Action} (h : Matching dma s) (hontime : OnTime s a)
    (hstep : step dma s a = some s') : Matching dma s' := by
  cases moved_of_step hstep with
  | read => exact h.concat
  | write => exact h.concat
  | call hi hmove => exact h.call hi hmove
  | engine hfinish =>
    exact ⟨h.books, fun c hc => (h.matched c hc).finish hfinish,
      fun c hc => (h.toldOwn c hc).mono (Engine.grows_finish hfinish), h.told⟩
  | dmaInterrupt =>
    exact ⟨h.books, fun c hc => (h.matched c hc).dmaInterrupt (hontime c hc).1 (hontime c hc).2,
      h.toldOwn, h.told⟩
  | _ => exact ⟨h.books, h.matched, h.toldOwn, h.told⟩

theorem matching_run {as : List Action} (h : Exec (step dma) OnTime initial as s) :
    Matching dma s :=
  h.invariant (fun hs hok hstep => matching_step hs hok hstep) matching_initial

/-- **A call returns on its own completion.** In a run that handles every interrupt on time, a
    transfer that a call was told had ended is the one it programmed, and has ended; and a call
    that returns a count was told so. -/
theorem completion_matches {as : List Action} (h : Exec (step dma) OnTime initial as s) {i : Nat}
    (hi : s.calls[i]? = some c) :
    (∀ t n, c.result = some (t, n) →
      s.shared.engine.log[t]? = some (c.request.transfer dma) ∧ t ∈ s.shared.engine.finished) ∧
    ∀ rc, c.pc = .unlock rc ∨ c.pc = .returned rc → 0 < rc → ∃ t n, c.result = some (t, n) ∧
      s.shared.engine.log[t]? = some (c.request.transfer dma) ∧
      t ∈ s.shared.engine.finished := by
  have hinv := matching_run h
  have hc : c ∈ s.calls := List.mem_of_getElem? hi
  refine ⟨hinv.toldOwn c hc, fun rc hend hpos => ?_⟩
  have hsome : c.result.isSome = true := by
    rcases hend with hpc | hpc
    · exact (hinv.told c hc).of_pc hpc hpos
    · exact (hinv.told c hc).of_pc hpc hpos
  obtain ⟨⟨t, n⟩, hresult⟩ := Option.isSome_iff_exists.mp hsome
  exact ⟨t, n, hresult, hinv.toldOwn c hc t n hresult⟩

/-- Words of four bytes and a small buffer. -/
def smallDma : DmaControl := ⟨4, 64, 64, 4096⟩

/-- A call's steps from the lock to the wait, with an idle engine. -/
def startRead (i : Nat) : List Action := List.replicate 6 (.call i .proceed)

/-- A client opens a device and reads 16 bytes of it; the transfer ends. -/
def readToInterrupt : List Action :=
  [.openFile ⟨256, 128⟩, .read 0 0 16] ++ startRead 0 ++ [.engine true]

/-- The client waits, and the interrupt is to come. -/
def interrupting : State :=
  { shared := ⟨⟨[⟨256, 4096, 16⟩], none, false, [0], [0], true⟩, 0, true⟩
    files := [⟨⟨256, 128⟩, true⟩]
    calls := [⟨0, ⟨.fromDevice, 256, 16, 0, 16⟩, .waitForCompletion 0, none⟩]
    removal := .attached }

/-- The client wakes up, copies and returns. -/
def interruptToReturn : List Action :=
  [.call 0 .proceed, .call 0 .proceed, .call 0 (.copied 0), .call 0 .proceed]

theorem completion_matches_read : ∃ s c,
    run (step smallDma) initial readToInterrupt = some interrupting ∧
    run (step smallDma) interrupting (.dmaInterrupt 0 :: interruptToReturn) = some s ∧
    s.calls[0]? = some c ∧ c.pc = .returned 16 ∧
    ∃ t n, c.result = some (t, n) ∧
      s.shared.engine.log[t]? = some (c.request.transfer smallDma) ∧
      t ∈ s.shared.engine.finished := by
  refine ⟨_, _, rfl, rfl, rfl, rfl, ?_⟩
  have hstart : Exec (step smallDma) OnTime initial readToInterrupt interrupting :=
    (exec_iff_run.mpr rfl).restrict (by simp [readToInterrupt, startRead, OnTime])
  have hontime : OnTime interrupting (.dmaInterrupt 0) := by
    intro c hc
    obtain rfl := List.mem_singleton.mp hc
    exact ⟨rfl, fun _ _ => nofun⟩
  have hinterrupt : Exec (step smallDma) OnTime interrupting [.dmaInterrupt 0] _ :=
    .cons hontime rfl (.nil _)
  have hend : ∀ a ∈ interruptToReturn, ∀ s, OnTime s a := by
    simp [interruptToReturn, OnTime]
  exact (@completion_matches smallDma _ _ _
    ((hstart.append hinterrupt).append ((exec_iff_run.mpr rfl).restrict hend)) 0 rfl).2 16
      (.inr rfl) (by decide)

/-- The first caller is killed in its wait; its transfer ends; the second caller finds the engine
    idle and starts its own; only now the handler gets to the interrupt of the first. -/
def lateInterrupt : List Action :=
  [.openFile ⟨256, 128⟩, .read 0 0 16, .read 0 16 16] ++ startRead 0 ++
    [.call 0 .kill, .call 0 .proceed, .engine true] ++ startRead 1 ++
    [.dmaInterrupt 0, .call 1 .proceed, .call 1 .proceed]

/-- The second caller is told of 16 bytes that its transfer, the second, has yet to bring. -/
theorem completion_mismatch : ∃ s c, run (step smallDma) initial lateInterrupt = some s ∧
    s.calls[1]? = some c ∧ c.result = some (1, 16) ∧ isPositive 16 = true ∧
    s.shared.engine.running = some 1 ∧ 1 ∉ s.shared.engine.finished :=
  ⟨_, _, rfl, rfl, rfl, rfl, rfl, by decide⟩

end Dma
end AmcPci
