import AmcPci.Proof.Dma.Completion

/-!
# Who owns the DMA buffer

While a transfer runs the buffer is the engine's: no call should copy into it or out of it, and
nobody should take its mapping or its pages away. The mutex keeps the calls from each other, but
a transfer whose caller was killed runs on with the mutex free, and three things go wrong with it
(`buffer_shared`): the next write fills the buffer before it looks at the engine, a read woken by
a late interrupt copies out while its transfer comes in, and `terminate_dma_control` never looks
at the engine at all.

There is no fourth (`buffer_owned`): the buffer is left alone in a run in which the interrupts are
on time, no write takes the lock and no board is torn down over a running transfer.
-/

namespace AmcPci
namespace Dma

open Lib

variable {dma : DmaControl} {s s' : State} {sh sh' : Shared} {c c' d : Call} {a : CallAction}
  {t : Nat}

/-! ## What touches the buffer -/

/-- A copy to or from the user, and each step of `terminate_dma_control`. -/
def TouchesBuffer (s : State) : Action → Prop
  | .call _ (.copied _) => True
  | .terminate => s.removal ≠ .attached
  | _ => False

/-- Interrupts are on time, and nobody who is not going to look at the engine first starts on the
    buffer while a transfer runs. -/
def Orderly (s : State) (a : Action) : Prop :=
  OnTime s a ∧ match a with
  | .call i _ => ∀ c, s.calls[i]? = some c → c.pc = .lock → c.request.dir = .toDevice →
    s.shared.engine.running = none
  | .terminate => s.removal = .attached → s.shared.engine.running = none
  | _ => True

/-! ## Calls that copy -/

theorem Call.holdsMutex_of_copying (h : c.copying = true) : c.holdsMutex = true := by
  cases hpc : c.pc with
  | lock => simp [copying, hpc] at h
  | returned rc => simp [copying, hpc] at h
  | _ => exact holdsMutex_of_pc hpc rfl

/-- A call comes to its copy with the engine idle: a write by what it found at the lock, a read
    because its transfer has ended. -/
theorem CallMove.idle_of_copying (hmove : CallMove dma sh c a sh' c') (hmatched : c.Matched dma sh)
    (hlock : c.pc = .lock → c.request.dir = .toDevice → sh.engine.running = none)
    (hcopying : c'.copying = true) : sh'.engine.running = none := by
  cases hmove with
  | lockWrite hpc _ hdir => exact hlock hpc hdir
  | complete hpc =>
    obtain ⟨-, hidle⟩ := hmatched.of_pc hpc
    exact hidle
  | _ => cases hcopying

/-! ## Every run -/

/-- What keeps the buffer to a running transfer: a call copies only while the engine is idle, and
    the board is torn down only with the engine idle and nobody there. -/
structure Guarded (dma : DmaControl) (s : State) : Prop where
  matching : Matching dma s
  idle : ∀ c ∈ s.calls, c.copying = true → s.shared.engine.running = none
  /-- A file stays open while a call on it has not returned. -/
  opened : ∀ c ∈ s.calls, c.hasReturned = false →
    ∃ file, s.files[c.file]? = some file ∧ file.isOpen = true
  detached : s.removal ≠ .attached →
    s.shared.engine.running = none ∧ ∀ file ∈ s.files, file.isOpen = false

theorem guarded_initial : Guarded dma initial :=
  ⟨matching_initial, nofun, nofun, fun h => absurd rfl h⟩

theorem Guarded.sound (h : Guarded dma s) : Sound s :=
  ⟨h.matching.books, h.opened, fun hdetached => (h.detached hdetached).2⟩

theorem Guarded.call {i : Nat} (h : Guarded dma s) (hi : s.calls[i]? = some c)
    (hmove : CallMove dma s.shared c a sh' c')
    (hlock : c.pc = .lock → c.request.dir = .toDevice → s.shared.engine.running = none) :
    Guarded dma { s with shared := sh', calls := s.calls.set i c' } := by
  have hc : c ∈ s.calls := List.mem_of_getElem? hi
  refine ⟨h.matching.call hi hmove, ?_, (h.sound.call hi hmove).opened, ?_⟩
  · intro d hd hcopying
    obtain ⟨j, hj⟩ := List.mem_iff_getElem?.mp hd
    rcases getElem?_set_some hj with ⟨-, rfl⟩ | ⟨hne, hj⟩
    · exact hmove.idle_of_copying (h.matching.matched c hc) hlock hcopying
    · have hidle := h.idle d (List.mem_of_getElem? hj) hcopying
      rcases hmove.quiet with hheld | ⟨hengine, -⟩
      · have hfree := holds_alone h.matching.books hi hj hne hheld
        rw [Call.holdsMutex_of_copying hcopying] at hfree
        cases hfree
      · rw [hengine]
        exact hidle
  · -- once the board is detached no call is left to move
    exact fun hdetached => absurd (h.sound.attached hc hmove.not_returned) hdetached

theorem Guarded.concat {f : Nat} {request : Request} {file : File} (h : Guarded dma s)
    (hf : s.files[f]? = some file) (hopen : file.isOpen = true) :
    Guarded dma { s with calls := s.calls ++ [⟨f, request, .lock, none⟩] } := by
  refine ⟨h.matching.concat, ?_, (h.sound.concat hf hopen).opened, h.detached⟩
  intro c hc hcopying
  rcases List.mem_append.mp hc with hc | hc
  · exact h.idle c hc hcopying
  · cases List.mem_singleton.mp hc
    cases hcopying

theorem guarded_step {a : Action} (h : Guarded dma s) (horderly : Orderly s a)
    (hstep : step dma s a = some s') : Guarded dma s' := by
  have hmatching := matching_step h.matching horderly.1 hstep
  have hsound := sound_step h.sound hstep
  cases moved_of_step hstep with
  | openFile hattached =>
    exact ⟨hmatching, h.idle, hsound.opened, fun hdetached => absurd hattached hdetached⟩
  | release =>
    exact ⟨hmatching, h.idle, hsound.opened,
      fun hdetached => ⟨(h.detached hdetached).1, hsound.closed hdetached⟩⟩
  | refused => exact h
  | read hf hopen => exact h.concat hf hopen
  | write hf hopen => exact h.concat hf hopen
  | call hi hmove => exact h.call hi hmove (horderly.2 _ hi)
  | engine hfinish =>
    obtain ⟨-, -, hidle, -⟩ := Engine.finish_some hfinish
    exact ⟨hmatching, fun _ _ _ => hidle, hsound.opened,
      fun hdetached => ⟨hidle, hsound.closed hdetached⟩⟩
  | dmaInterrupt => exact ⟨hmatching, h.idle, h.opened, h.detached⟩
  | detach hattached hclosed =>
    exact ⟨hmatching, h.idle, h.opened, fun _ => ⟨horderly.2 hattached, hclosed⟩⟩
  | teardown hdetached => exact ⟨hmatching, h.idle, h.opened, fun _ => h.detached hdetached⟩

theorem guarded_run {as : List Action} (h : Exec (step dma) Orderly initial as s) :
    Guarded dma s :=
  h.invariant (fun hs hok hstep => guarded_step hs hok hstep) guarded_initial

/-- **A running transfer has the buffer to itself**, in every orderly run: nothing copies into it
    or out of it, unmaps it or frees it before the transfer has ended. -/
theorem buffer_owned {as : List Action} {a : Action} (h : Exec (step dma) Orderly initial as s)
    (hstep : step dma s a = some s') (htouch : TouchesBuffer s a) :
    s.shared.engine.running = none := by
  have hinv := guarded_run h
  cases moved_of_step hstep with
  | @call i c c' a shared hi hmove =>
    cases a with
    | copied left => exact hinv.idle c (List.mem_of_getElem? hi) hmove.copying_of_copied
    | _ => cases htouch
  | refused hstart => rcases hstart with ⟨_, _, _, rfl⟩ | ⟨_, _, _, rfl⟩ <;> cases htouch
  | detach hattached => exact absurd hattached htouch
  | teardown hdetached => exact (hinv.detached hdetached).1
  | _ => cases htouch

/-- A client writes to an idle device and comes to its copy. -/
theorem buffer_owned_write : ∃ s s',
    run (step smallDma) initial [.openFile ⟨256, 128⟩, .write 0 0 16, .call 0 .proceed] = some s ∧
    step smallDma s (.call 0 (.copied 0)) = some s' ∧ s.shared.engine.running = none := by
  refine ⟨_, _, rfl, rfl, ?_⟩
  have hrun : Exec (step smallDma) Orderly initial
      [.openFile ⟨256, 128⟩, .write 0 0 16, .call 0 .proceed] _ :=
    .cons ⟨trivial, trivial⟩ rfl (.cons ⟨trivial, trivial⟩ rfl
      (.cons ⟨trivial, fun _ _ _ _ => rfl⟩ rfl (.nil _)))
  exact @buffer_owned smallDma _ _ _ (.call 0 (.copied 0)) hrun rfl trivial

/-- A caller is killed in its wait and its transfer runs on. -/
def abandoned : List Action :=
  [.openFile ⟨256, 128⟩, .read 0 0 16] ++ startRead 0 ++ [.call 0 .kill, .call 0 .proceed]

/-- A write copies in over the abandoned transfer; a read copies out while its own transfer comes
    in; and the board unmaps and frees the buffer with the abandoned transfer still to end. -/
theorem buffer_shared :
    (∃ s s', run (step smallDma) initial (abandoned ++ [.write 0 0 16, .call 1 .proceed]) = some s ∧
      s.shared.engine.running = some 0 ∧ TouchesBuffer s (.call 1 (.copied 0)) ∧
      step smallDma s (.call 1 (.copied 0)) = some s') ∧
    (∃ s s', run (step smallDma) initial lateInterrupt = some s ∧
      s.shared.engine.running = some 1 ∧ TouchesBuffer s (.call 1 (.copied 0)) ∧
      step smallDma s (.call 1 (.copied 0)) = some s') ∧
    ∃ s s' s'', run (step smallDma) initial (abandoned ++ [.release 0, .terminate]) = some s ∧
      s.shared.engine.running = some 0 ∧ TouchesBuffer s .terminate ∧
      step smallDma s .terminate = some s' ∧ s'.removal = .unmapped ∧
      s'.shared.engine.running = some 0 ∧ step smallDma s' .terminate = some s'' :=
  ⟨⟨_, _, rfl, rfl, trivial, rfl⟩, ⟨_, _, rfl, rfl, trivial, rfl⟩,
    ⟨_, _, _, rfl, rfl, nofun, rfl, rfl, rfl, rfl⟩⟩

end Dma
end AmcPci
