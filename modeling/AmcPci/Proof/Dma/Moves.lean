import AmcPci.Dma
import AmcPci.Lib.Ledger

/-!
# What one step of a DMA call does

`CallMove` says for each step of a call where it was, what it needed and what it changed of what
the calls share. The many ways of giving up are one move, `leave`, which changes nothing; a read
that has copied ends with it too, and that is the only time its return code is positive.

`Moved` says the same of the whole device. What holds in every run, whatever goes wrong, is `Sound`:
one call at most has the mutex, and no file is closed under a call.
-/

namespace AmcPci
namespace Dma

open Lib

/-- Between `dma_memory_lock` and `dma_memory_unlock`. -/
def Call.holdsMutex (c : Call) : Bool :=
  match c.pc with
  | .lock => false
  | .returned _ => false
  | _ => true

/-- After `reinit_completion` and before the write to `btt`. -/
def Call.configuring (c : Call) : Bool :=
  match c.pc with
  | .checkAligned => true
  | .maybeReset => true
  | .resetController => true
  | .program => true
  | _ => false

/-- In `copy_from_user` or `copy_to_user`. -/
def Call.copying (c : Call) : Bool :=
  match c.pc with
  | .copyFromUser => true
  | .copyToUser => true
  | _ => false

/-- A call that has had its transfer goes on to the copy or to the unlock. -/
theorem Call.complete_spec (dma : DmaControl) (c : Call) (t : Nat) :
    ∃ pc, c.complete dma t = { c with pc, result := some (t, clipCount dma c.request.dmaCount) } ∧
      (pc = .copyToUser ∨ ∃ rc, pc = .unlock rc) := by
  simp only [Call.complete]
  split
  · split
    · exact ⟨_, rfl, .inr ⟨_, rfl⟩⟩
    · exact ⟨_, rfl, .inl rfl⟩
  · exact ⟨_, rfl, .inr ⟨_, rfl⟩⟩

/-- What a step of a call can do. -/
inductive CallMove (dma : DmaControl) (s : Shared) (c : Call) : CallAction → Shared → Call → Prop
  | lockWrite (hpc : c.pc = .lock) (hfree : s.mutex = false) (hdir : c.request.dir = .toDevice) :
    CallMove dma s c .proceed { s with mutex := true } (c.goto .copyFromUser)
  | lockRead (hpc : c.pc = .lock) (hfree : s.mutex = false) :
    CallMove dma s c .proceed { s with mutex := true } (c.goto .syncForDevice)
  | copyFromUser {left : Size} (hpc : c.pc = .copyFromUser) :
    CallMove dma s c (.copied left) s (c.goto .syncForDevice)
  | syncForDevice (hpc : c.pc = .syncForDevice) :
    CallMove dma s c .proceed s (c.goto .reinitCompletion)
  | reinit (hpc : c.pc = .reinitCompletion) :
    CallMove dma s c .proceed { s with done := 0 } (c.goto .checkAligned)
  | aligned (hpc : c.pc = .checkAligned)
    (haligned : transferAligned dma (c.request.transfer dma) = true) :
    CallMove dma s c .proceed s (c.goto .maybeReset)
  | idle (hpc : c.pc = .maybeReset) (herror : s.engine.error = false)
    (hidle : s.engine.running = none) : CallMove dma s c .proceed s (c.goto .program)
  | notIdle (hpc : c.pc = .maybeReset) : CallMove dma s c .proceed s (c.goto .resetController)
  | reset {gone : Bool} (hpc : c.pc = .resetController) :
    CallMove dma s c (.reset true gone) { s with engine := s.engine.reset } (c.goto .program)
  | resetLate {gone : Bool} (hpc : c.pc = .resetController) :
    CallMove dma s c (.reset false gone) { s with engine := s.engine.resetLate gone }
      (c.leave (-eio))
  | program (hpc : c.pc = .program) :
    CallMove dma s c .proceed { s with engine := s.engine.write (c.request.transfer dma) }
      (c.goto (.waitForCompletion s.engine.log.length))
  | woken {t : Nat} (hpc : c.pc = .waitForCompletion t) (hdone : 0 < s.done) :
    CallMove dma s c .proceed { s with done := s.done - 1 } (c.goto (.checkStatus t))
  | complete {t : Nat} {pc : Pc} (hpc : c.pc = .checkStatus t) (herror : s.engine.error = false)
    (hnext : pc = .copyToUser ∨ ∃ rc, pc = .unlock rc) : CallMove dma s c .proceed s
      { c with pc, result := some (t, clipCount dma c.request.dmaCount) }
  | leave {a : CallAction} {rc : Int} (hheld : c.holdsMutex = true)
    (hcopied : ∀ left, a = .copied left → c.copying = true)
    (hrc : rc ≤ 0 ∨ c.pc = .copyToUser) : CallMove dma s c a s (c.leave rc)
  | unlock {rc : Int} (hpc : c.pc = .unlock rc) :
    CallMove dma s c .proceed { s with mutex := false } (c.goto (.returned rc))

theorem holdsMutex_of_pc {c : Call} {pc : Pc} (hpc : c.pc = pc)
    (h : ({ c with pc } : Call).holdsMutex = true) : c.holdsMutex = true := by
  subst hpc
  exact h

theorem callMove_of_configureStep {dma : DmaControl} {s s' : Shared} {c c' : Call} {pc : Pc}
    {a : CallAction} (hpc : c.pc = pc) (h : configureStep dma s c pc a = some (s', c')) :
    CallMove dma s c a s' c' := by
  cases pc with
  | checkAligned =>
    cases a with
    | proceed =>
      simp only [configureStep] at h
      split at h
      · rename_i haligned
        cases h
        exact .aligned hpc haligned
      · cases h; exact .leave (holdsMutex_of_pc hpc rfl) nofun (.inl (by decide))
    | _ => cases h
  | maybeReset =>
    cases a with
    | proceed =>
      simp only [configureStep] at h
      split at h
      · cases h; exact .notIdle hpc
      · rename_i hquiet
        cases h
        simp only [Bool.or_eq_true, not_or, Bool.not_eq_true, Option.isSome_eq_false_iff,
          Option.isNone_iff_eq_none] at hquiet
        exact .idle hpc hquiet.1 hquiet.2
    | _ => cases h
  | resetController =>
    cases a with
    | reset ok gone =>
      cases ok with
      | true => cases h; exact .reset hpc
      | false => cases h; exact .resetLate hpc
    | _ => cases h
  | program =>
    cases a with
    | proceed => cases h; exact .program hpc
    | _ => cases h
  | _ => cases h

theorem callMove_of_operationStep {dma : DmaControl} {s s' : Shared} {c c' : Call} {pc : Pc}
    {a : CallAction} (hpc : c.pc = pc) (h : operationStep dma s c pc a = some (s', c')) :
    CallMove dma s c a s' c' := by
  cases pc with
  | syncForDevice =>
    cases a with
    | proceed => cases h; exact .syncForDevice hpc
    | _ => cases h
  | reinitCompletion =>
    cases a with
    | proceed => cases h; exact .reinit hpc
    | _ => cases h
  | waitForCompletion t =>
    cases a with
    | proceed =>
      simp only [operationStep] at h
      split at h
      · cases h
      · rename_i hdone
        cases h
        exact .woken hpc (Nat.pos_of_ne_zero hdone)
    | kill =>
      simp only [operationStep] at h
      split at h
      · cases h; exact .leave (holdsMutex_of_pc hpc rfl) nofun (.inl (by decide))
      · cases h
    | _ => cases h
  | checkStatus t =>
    cases a with
    | proceed =>
      simp only [operationStep] at h
      split at h
      · cases h; exact .leave (holdsMutex_of_pc hpc rfl) nofun (.inl (by decide))
      · rename_i herror
        cases h
        obtain ⟨pc, hcomplete, hnext⟩ := c.complete_spec dma t
        rw [hcomplete]
        exact .complete hpc (by simpa using herror) hnext
    | _ => cases h
  | _ => exact callMove_of_configureStep hpc h

theorem callMove_of_callStep {dma : DmaControl} {s s' : Shared} {c c' : Call} {a : CallAction}
    (h : callStep dma s c a = some (s', c')) : CallMove dma s c a s' c' := by
  rw [callStep] at h
  generalize hpc : c.pc = pc at h
  cases pc with
  | lock =>
    cases a with
    | proceed =>
      simp only [fileStep] at h
      split at h
      · cases h
      · rename_i hfree
        cases hdir : c.request.dir with
        | toDevice =>
          rw [hdir] at h
          cases h
          exact .lockWrite hpc (by simpa using hfree) hdir
        | fromDevice =>
          rw [hdir] at h
          cases h
          exact .lockRead hpc (by simpa using hfree)
    | _ => cases h
  | copyFromUser =>
    cases a with
    | copied left =>
      simp only [fileStep] at h
      split at h
      · cases h
      · split at h
        · cases h; exact .copyFromUser hpc
        · cases h
          exact .leave (holdsMutex_of_pc hpc rfl) (fun _ _ => by rw [Call.copying, hpc])
            (.inl (by decide))
    | _ => cases h
  | copyToUser =>
    cases a with
    | copied left =>
      simp only [fileStep] at h
      split at h
      · cases h
      · cases h
        exact .leave (holdsMutex_of_pc hpc rfl) (fun _ _ => by rw [Call.copying, hpc]) (.inr hpc)
    | _ => cases h
  | unlock rc =>
    cases a with
    | proceed => cases h; exact .unlock hpc
    | _ => cases h
  | _ => exact callMove_of_operationStep hpc h

/-! ## The mutex -/

@[simp] theorem Call.holdsMutex_leave (c : Call) (rc : Int) : (c.leave rc).holdsMutex = true := rfl

/-- What a call's step does to its own claim on the mutex, it does to the mutex. -/
theorem CallMove.holds {dma : DmaControl} {s s' : Shared} {c c' : Call} {a : CallAction}
    (h : CallMove dma s c a s' c') (hle : c.holdsMutex.toNat ≤ s.mutex.toNat) :
    c'.holdsMutex.toNat + s.mutex.toNat = c.holdsMutex.toNat + s'.mutex.toNat := by
  have hpc : ∀ {pc : Pc}, c.pc = pc → c.holdsMutex = ({ c with pc } : Call).holdsMutex := by
    rintro pc rfl
    rfl
  cases h with
  | lockWrite h hfree => rw [hpc h, hfree]; rfl
  | lockRead h hfree => rw [hpc h, hfree]; rfl
  | complete h _ hnext => rcases hnext with rfl | ⟨rc, rfl⟩ <;> rw [hpc h] <;> rfl
  | leave hheld => rw [hheld, Call.holdsMutex_leave]
  | unlock h =>
    rw [hpc h] at hle ⊢
    have hheld : s.mutex = true := by simpa [Call.holdsMutex, Nat.one_le_iff_ne_zero] using hle
    rw [hheld]
    rfl
  | _ h => rw [hpc h]; rfl

/-- A call touches the engine and the completion only while it holds the mutex. -/
theorem CallMove.quiet {dma : DmaControl} {s s' : Shared} {c c' : Call} {a : CallAction}
    (h : CallMove dma s c a s' c') :
    c.holdsMutex = true ∨ s'.engine = s.engine ∧ s'.done = s.done := by
  cases h with
  | lockWrite => exact .inr ⟨rfl, rfl⟩
  | lockRead => exact .inr ⟨rfl, rfl⟩
  | leave hheld => exact .inl hheld
  | _ hpc => exact .inl (holdsMutex_of_pc hpc rfl)

/-- A call that has returned does not move. -/
theorem CallMove.not_returned {dma : DmaControl} {s s' : Shared} {c c' : Call} {a : CallAction}
    (h : CallMove dma s c a s' c') : c.hasReturned = false := by
  cases h with
  | leave hheld =>
    rw [Call.holdsMutex] at hheld
    rw [Call.hasReturned]
    split at hheld <;> simp_all
  | _ hpc => rw [Call.hasReturned, hpc]

/-- A call copies only where it is to copy. -/
theorem CallMove.copying_of_copied {dma : DmaControl} {s s' : Shared} {c c' : Call} {left : Size}
    (h : CallMove dma s c (.copied left) s' c') : c.copying = true := by
  cases h with
  | copyFromUser hpc => rw [Call.copying, hpc]
  | leave _ hcopied _ => exact hcopied left rfl

theorem CallMove.file {dma : DmaControl} {s s' : Shared} {c c' : Call} {a : CallAction}
    (h : CallMove dma s c a s' c') : c'.file = c.file := by
  cases h <;> rfl

/-! ## The machine -/

/-- What a step of the device can do. -/
inductive Moved (dma : DmaControl) (s : State) : Action → State → Prop
  | openFile {context : MemoryContext} (hattached : s.removal = .attached) :
    Moved dma s (.openFile context) { s with files := s.files ++ [⟨context, true⟩] }
  | release {f : Nat} {file : File} (hf : s.files[f]? = some file)
    (hreturned : ∀ c ∈ s.calls, c.file = f → c.hasReturned = true) :
    Moved dma s (.release f) { s with files := s.files.set f { file with isOpen := false } }
  | refused {a : Action} (hstart : (∃ f offset count, a = .read f offset count) ∨
      ∃ f offset count, a = .write f offset count) : Moved dma s a s
  | read {f : Nat} {offset count : Size} {file : File} {request : Request}
    (hf : s.files[f]? = some file) (hopen : file.isOpen = true)
    (hrequest : readRequest dma file.context offset count = .ok request) :
    Moved dma s (.read f offset count) { s with calls := s.calls ++ [⟨f, request, .lock, none⟩] }
  | write {f : Nat} {offset count : Size} {file : File} {request : Request}
    (hf : s.files[f]? = some file) (hopen : file.isOpen = true)
    (hrequest : writeRequest dma file.context offset count = .ok request) :
    Moved dma s (.write f offset count) { s with calls := s.calls ++ [⟨f, request, .lock, none⟩] }
  | call {i : Nat} {c c' : Call} {a : CallAction} {shared : Shared} (hi : s.calls[i]? = some c)
    (hmove : CallMove dma s.shared c a shared c') :
    Moved dma s (.call i a) { s with shared, calls := s.calls.set i c' }
  | engine {ok : Bool} {engine : Engine} (hfinish : s.shared.engine.finish ok = some engine) :
    Moved dma s (.engine ok) { s with shared := { s.shared with engine } }
  | dmaInterrupt {k : Nat} {interrupts : List Nat} :
    Moved dma s (.dmaInterrupt k) { s with shared :=
      { s.shared with engine := { s.shared.engine with interrupts }, done := s.shared.done + 1 } }
  | detach (hattached : s.removal = .attached) (hclosed : ∀ file ∈ s.files, file.isOpen = false) :
    Moved dma s .terminate { s with removal := .interruptsOff }
  | teardown {removal : Removal} (hdetached : s.removal ≠ .attached) (hstill : removal ≠ .attached) :
    Moved dma s .terminate { s with removal }

/-- How a call begins: it is refused, or it queues for the lock with its request. -/
theorem begin_cases {s s' : State} {f : Nat} {request : MemoryContext → Except Int Request}
    (h : begin s f request = some s') :
    s' = s ∨ ∃ file r, s.files[f]? = some file ∧ file.isOpen = true ∧
      request file.context = .ok r ∧ s' = { s with calls := s.calls ++ [⟨f, r, .lock, none⟩] } := by
  rw [begin, Option.bind_eq_some_iff] at h
  obtain ⟨file, hf, h⟩ := h
  split at h
  · rename_i hopen
    cases hr : request file.context with
    | error e =>
      rw [hr] at h
      exact .inl (Option.some.inj h).symm
    | ok r =>
      rw [hr] at h
      exact .inr ⟨file, r, hf, hopen, hr, (Option.some.inj h).symm⟩
  · cases h

theorem moved_of_step {dma : DmaControl} {s s' : State} {a : Action}
    (h : step dma s a = some s') : Moved dma s a s' := by
  cases a with
  | openFile context =>
    simp only [step] at h
    split at h
    · rename_i hattached
      cases h
      exact .openFile hattached
    · cases h
  | release f =>
    simp only [step, Option.bind_eq_some_iff] at h
    obtain ⟨file, hf, h⟩ := h
    split at h
    · rename_i hidle
      cases h
      simp only [Bool.and_eq_true, List.all_eq_true, Bool.or_eq_true, bne_iff_ne] at hidle
      exact .release hf fun c hc hfile => (hidle.2 c hc).resolve_left fun hne => hne hfile
    · cases h
  | read f offset count =>
    simp only [step] at h
    rcases begin_cases h with rfl | ⟨file, r, hf, hopen, hr, rfl⟩
    · exact .refused (.inl ⟨f, offset, count, rfl⟩)
    · exact .read hf hopen hr
  | write f offset count =>
    simp only [step] at h
    rcases begin_cases h with rfl | ⟨file, r, hf, hopen, hr, rfl⟩
    · exact .refused (.inr ⟨f, offset, count, rfl⟩)
    · exact .write hf hopen hr
  | call i a =>
    simp only [step, Option.bind_eq_some_iff, Option.map_eq_some_iff] at h
    obtain ⟨c, hi, ⟨shared, c'⟩, hcall, rfl⟩ := h
    exact .call hi (callMove_of_callStep hcall)
  | engine ok =>
    simp only [step, Option.map_eq_some_iff] at h
    obtain ⟨engine, hfinish, rfl⟩ := h
    exact .engine hfinish
  | dmaInterrupt k =>
    simp only [step] at h
    split at h
    · cases h; exact .dmaInterrupt
    · cases h
  | terminate =>
    simp only [step] at h
    split at h
    · rename_i hattached
      split at h
      · rename_i hclosed
        cases h
        exact .detach hattached (by simpa using hclosed)
      · cases h
    · rename_i hoff
      cases h
      exact .teardown (hoff ▸ nofun) nofun
    · rename_i hunmapped
      cases h
      exact .teardown (hunmapped ▸ nofun) nofun
    · cases h

/-- No other call is between lock and unlock. -/
theorem holds_alone {s : State} {i j : Nat} {c d : Call}
    (hbooks : Balanced (fun c : Call => c.holdsMutex.toNat) s.shared.mutex.toNat s.calls)
    (hi : s.calls[i]? = some c) (hj : s.calls[j]? = some d) (hne : j ≠ i)
    (hheld : c.holdsMutex = true) : d.holdsMutex = false := by
  by_contra hd
  have hd : d.holdsMutex = true := by simpa using hd
  exact hne (hbooks.exclusive (Bool.toNat_le _) hj hi (by simp [hd]) (by simp [hheld]))

/-! ## The mutex and the files, in every run -/

variable {dma : DmaControl} {s s' : State} {sh' : Shared} {c c' : Call} {a : CallAction}

/-- One call has the mutex, if it is held, and files outlast the calls on them. -/
structure Sound (s : State) : Prop where
  books : Balanced (fun c : Call => c.holdsMutex.toNat) s.shared.mutex.toNat s.calls
  /-- A file stays open while a call on it has not returned. -/
  opened : ∀ c ∈ s.calls, c.hasReturned = false →
    ∃ file, s.files[c.file]? = some file ∧ file.isOpen = true
  closed : s.removal ≠ .attached → ∀ file ∈ s.files, file.isOpen = false

theorem sound_initial : Sound initial := ⟨rfl, nofun, fun h => absurd rfl h⟩

/-- While a call has not returned the board is attached. -/
theorem Sound.attached (h : Sound s) (hc : c ∈ s.calls) (hstill : c.hasReturned = false) :
    s.removal = .attached := by
  by_contra hdetached
  obtain ⟨file, hf, hopen⟩ := h.opened c hc hstill
  rw [h.closed hdetached file (List.mem_of_getElem? hf)] at hopen
  cases hopen

theorem Sound.call {i : Nat} (h : Sound s) (hi : s.calls[i]? = some c)
    (hmove : CallMove dma s.shared c a sh' c') :
    Sound { s with shared := sh', calls := s.calls.set i c' } := by
  refine ⟨h.books.set hi (hmove.holds (h.books.le hi)), fun d hd hstill => ?_, h.closed⟩
  rcases List.mem_or_eq_of_mem_set hd with hd | rfl
  · exact h.opened d hd hstill
  · rw [hmove.file]
    exact h.opened c (List.mem_of_getElem? hi) hmove.not_returned

theorem Sound.concat {f : Nat} {request : Request} {file : File} (h : Sound s)
    (hf : s.files[f]? = some file) (hopen : file.isOpen = true) :
    Sound { s with calls := s.calls ++ [⟨f, request, .lock, none⟩] } := by
  refine ⟨h.books.concat rfl, fun c hc hstill => ?_, h.closed⟩
  rcases List.mem_append.mp hc with hc | hc
  · exact h.opened c hc hstill
  · cases List.mem_singleton.mp hc
    exact ⟨file, hf, hopen⟩

theorem sound_step {a : Action} (h : Sound s) (hstep : step dma s a = some s') : Sound s' := by
  cases moved_of_step hstep with
  | openFile hattached =>
    refine ⟨h.books, fun c hc hstill => ?_, fun hdetached => absurd hattached hdetached⟩
    obtain ⟨file, hf, hopen⟩ := h.opened c hc hstill
    exact ⟨file, (List.getElem?_append_left (List.getElem?_eq_some_iff.mp hf).1).trans hf, hopen⟩
  | release hf hreturned =>
    refine ⟨h.books, fun c hc hstill => ?_, fun hdetached file hfile => ?_⟩
    · obtain ⟨file, hfile, hopen⟩ := h.opened c hc hstill
      refine ⟨file, ?_, hopen⟩
      rw [List.getElem?_set_ne, hfile]
      intro hsame
      rw [hreturned c hc hsame.symm] at hstill
      cases hstill
    · rcases List.mem_or_eq_of_mem_set hfile with hold | rfl
      · exact h.closed hdetached file hold
      · rfl
  | refused => exact h
  | read hf hopen => exact h.concat hf hopen
  | write hf hopen => exact h.concat hf hopen
  | call hi hmove => exact h.call hi hmove
  | detach _ hclosed => exact ⟨h.books, h.opened, fun _ => hclosed⟩
  | teardown hdetached => exact ⟨h.books, h.opened, fun _ => h.closed hdetached⟩
  | _ => exact ⟨h.books, h.opened, h.closed⟩

theorem sound_run {ok : State → Action → Prop} {as : List Action}
    (h : Exec (step dma) ok initial as s) : Sound s :=
  h.invariant (fun hs _ hstep => sound_step hs hstep) sound_initial

/-- Where all calls have returned the mutex is free. -/
theorem Sound.mutex_free (h : Sound s) (hall : ∀ c ∈ s.calls, c.hasReturned = true) :
    s.shared.mutex = false := by
  cases hmutex : s.shared.mutex with
  | false => rfl
  | true =>
    obtain ⟨i, d, hi, hpos⟩ := h.books.holder (by rw [hmutex]; exact Nat.one_pos)
    have hreturned := hall d (List.mem_of_getElem? hi)
    cases hpc : d.pc with
    | returned rc => simp [Call.holdsMutex, hpc] at hpos
    | _ => rw [Call.hasReturned, hpc] at hreturned; cases hreturned

end Dma
end AmcPci
