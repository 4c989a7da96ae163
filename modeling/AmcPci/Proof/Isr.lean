import AmcPci.Isr
import AmcPci.Lib.Progress
import AmcPci.Proof.Registers.Events

/-!
# What the interrupt handler does with an event

An event travels from the latch through the handler into each reader's slot. The acknowledge comes
last, so between the store into a slot and the acknowledge the same bit is in both places; `Covered`
follows the one that matters. It survives every step but one: a source that fires again in that
window is wiped from the latch by an acknowledge that was for its first event, and if the reader has
already taken that one, nobody is told of the second. `Seen` rules that out, and is just what is
needed: a firing that is seen is not lost, whatever comes after it, and one that is not seen is lost
as soon as the handler has run to its end (`event_notLost_iff`).

Events are numbered as the readers see them: event `e` is bit `e` of `user_isr`, so it is that of
source `e + 1`. Source 0 is the DMA engine, and may fire at any time.
-/

namespace AmcPci
namespace Isr

open Lib Registers

/-- The handler has read event `e` and has yet to store it for reader `r`. -/
def Handler.Holds (e : Fin 31) (r : Reader) : Handler → Prop
  | .idle => False
  | .dmaInterrupt isr => (isr >>> 1).getLsbD e = true
  | .eventInterrupt isr reader => (isr >>> 1).getLsbD e = true ∧ reader ≤ r
  | .acknowledge _ => False

/-- The handler has stored event `e` for reader `r`, and has yet to acknowledge it. -/
def Handler.Passed (e : Fin 31) (r : Reader) : Handler → Prop
  | .idle => False
  | .dmaInterrupt _ => False
  | .eventInterrupt isr reader => (isr >>> 1).getLsbD e = true ∧ ↑r < reader
  | .acknowledge isr => (isr >>> 1).getLsbD e = true

/-- Event `e` is waiting in slot `r`. -/
def Pending (s : State) (e : Fin 31) (r : Reader) : Prop :=
  (s.board.control.events r).getLsbD e = true

/-- The interrupt controller has event `e`. -/
def Latched (s : State) (e : Fin 31) : Prop := (s.isr >>> 1).getLsbD e = true

/-- Where event `e` can be on its way to `r` without being at risk. -/
def Covered (s : State) (e : Fin 31) (r : Reader) : Prop :=
  Pending s e r ∨ s.handler.Holds e r ∨ Latched s e ∧ ¬ s.handler.Passed e r

variable {s s' : State} {e : Fin 31} {r : Reader}

/-! ## The handler's own steps -/

theorem pending_storeEvents {b : Board} {events : BitVec 32} {reader : Reader}
    (h : (b.control.events r).getLsbD e = true) :
    ((storeEvents b events reader).control.events r).getLsbD e = true := by
  rw [storeEvents_events, BitVec.getLsbD_or, h, Bool.true_or]

theorem pending_of_stored {b : Board} {events : BitVec 32} (h : events.getLsbD e = true) :
    ((storeEvents b events r).control.events r).getLsbD e = true := by
  rw [storeEvents_events, if_pos rfl, BitVec.getLsbD_or, h, Bool.or_true]

theorem ne_zero_of_event {events : BitVec 32} (h : events.getLsbD e = true) : events ≠ 0 := by
  rintro rfl
  simp at h

/-- The acknowledge takes what was read from the latch, and nothing else. -/
theorem latched_acknowledge {isr isr' : BitVec 32} :
    ((isr &&& ~~~isr') >>> 1).getLsbD e = true ↔
      (isr >>> 1).getLsbD e = true ∧ ¬ (isr' >>> 1).getLsbD e = true := by
  have hlt : 1 + (e : Nat) < 32 := by omega
  simp [BitVec.getLsbD_ushiftRight, hlt]

/-- One turn of the handler's loop: what it holds for the reader it comes to is pending then. -/
theorem Covered.turn {isr : BitVec 32} {reader : Nat} (hreader : reader < nEventReaders)
    (hh : s.handler = .eventInterrupt isr reader) (h : Covered s e r) :
    Covered { s with
      board := storeEvents s.board (isr >>> 1) ⟨reader, hreader⟩
      handler := .eventInterrupt isr (reader + 1) } e r := by
  rcases h with hp | hrest
  · exact .inl (pending_storeEvents hp)
  · by_cases hbit : (isr >>> 1).getLsbD e = true
    · -- read by the handler, which has come at most to this reader
      have hle : reader ≤ r := by
        rw [hh] at hrest
        rcases hrest with hheld | ⟨-, hnot⟩
        · exact hheld.2
        · exact Nat.le_of_not_lt fun hlt => hnot ⟨hbit, hlt⟩
      rcases Nat.eq_or_lt_of_le hle with heq | hlt
      · subst heq
        exact .inl (pending_of_stored hbit)
      · exact .inr (.inl ⟨hbit, hlt⟩)
    · rw [hh] at hrest
      rcases hrest with hheld | ⟨hl, -⟩
      · exact absurd hheld.1 hbit
      · exact .inr (.inr ⟨hl, fun hp => hbit hp.1⟩)

theorem Covered.handlerStep (h : Covered s e r) (hs : Isr.handlerStep s = some s') :
    Covered s' e r := by
  rw [Isr.handlerStep] at hs
  cases hh : s.handler with
  | idle => simp [hh] at hs
  | dmaInterrupt isr =>
    simp only [hh] at hs
    cases hs
    rcases h with hp | hrest
    · exact .inl hp
    · by_cases hbit : (isr >>> 1).getLsbD e = true
      · refine .inr (.inl ?_)
        rw [if_pos (ne_zero_of_event hbit)]
        exact ⟨hbit, Nat.zero_le _⟩
      · -- not among the bits it read, so the latch still has it
        rw [hh] at hrest
        rcases hrest with hheld | ⟨hl, -⟩
        · exact absurd hheld hbit
        · refine .inr (.inr ⟨hl, ?_⟩)
          split
          · exact fun hp => hbit hp.1
          · exact hbit
  | eventInterrupt isr reader =>
    simp only [hh] at hs
    by_cases hreader : reader < nEventReaders
    · rw [dif_pos hreader] at hs
      cases hs
      exact h.turn hreader hh
    · rw [dif_neg hreader] at hs
      cases hs
      have hlt : r < reader := Nat.lt_of_lt_of_le r.isLt (Nat.le_of_not_lt hreader)
      rw [Covered, hh] at h
      rcases h with hp | hheld | ⟨hl, hnot⟩
      · exact .inl hp
      · exact absurd hheld.2 (Nat.not_le_of_lt hlt)
      · exact .inr (.inr ⟨hl, fun hbit => hnot ⟨hbit, hlt⟩⟩)
  | acknowledge isr =>
    simp only [hh] at hs
    cases hs
    rw [Covered, hh] at h
    rcases h with hp | hheld | ⟨hl, hnot⟩
    · exact .inl hp
    · exact absurd hheld id
    · exact .inr (.inr ⟨latched_acknowledge.mpr ⟨hl, hnot⟩, id⟩)

/-! ## Every step -/

/-- The step completes a read on slot `r`, with event `e` in the mask it returns. -/
def Returns (e : Fin 31) (r : Reader) (s : State) (a : Action) : Prop :=
  ∃ j act g g' s', a = .file j act ∧ step s a = some s' ∧ s.files[j]? = some (.live g) ∧
    s'.files[j]? = some (.live g') ∧ g.readerNumber = r ∧ Completes act g g' ∧
    (takeEvents s.board g).1.getLsbD e = true

/-- No open resets slot `r` while event `e` is pending there. -/
def SlotKept (e : Fin 31) (r : Reader) (s : State) (a : Action) : Prop :=
  ∀ j, a = .file j .proceed → s.files[j]? = some (.resetEvents r) → ¬ Pending s e r

/-- A step of a file: an event that is pending stays so, unless a read returns it. -/
theorem Covered.file {j : Nat} {act : FileAction} {f f' : RegisterFile} {b : Board}
    (h : Covered s e r) (hkept : SlotKept e r s (.file j act)) (hj : s.files[j]? = some f)
    (hstep : fileStep s.board f act = some (b, f')) : Returns e r s (.file j act) ∨
      Covered { s with board := b, files := s.files.set j f' } e r := by
  rcases h with hp | hrest
  · rcases (fileMove_of_fileStep hstep).events_cases r with
      hsame | ⟨rfl, rfl⟩ | ⟨g, g', rfl, rfl, rfl, hcompletes⟩
    · refine .inr (.inl ?_)
      rw [Pending, show State.board _ = b from rfl, hsame]
      exact hp
    · exact absurd hp (hkept j rfl hj)
    · refine .inl ⟨j, act, g, g', { s with board := b, files := s.files.set j (.live g') }, rfl, ?_,
        hj, getElem?_set_of_some hj, rfl, hcompletes, hp⟩
      simp only [step, hj, Option.bind_some, hstep]
      rfl
  · exact .inr (.inr hrest)

/-- **One step.** An event that is covered stays so, unless a read returns it. -/
theorem Covered.step {a : Action} (h : Covered s e r) (hkept : SlotKept e r s a)
    (hs : Isr.step s a = some s') : Returns e r s a ∨ Covered s' e r := by
  cases a with
  | fire source =>
    cases hs
    refine .inr (h.imp_right fun h => h.imp_right fun ⟨hlatched, hnot⟩ => ⟨?_, hnot⟩)
    rw [Latched, BitVec.getLsbD_ushiftRight] at hlatched
    simp [Latched, hlatched]
  | amcPciIsr =>
    simp only [Isr.step] at hs
    split at hs
    · rename_i hidle
      cases hs
      rw [Covered, hidle] at h
      rcases h with hp | hheld | ⟨hlatched, -⟩
      · exact .inr (.inl hp)
      · exact absurd hheld id
      · exact .inr (.inr (.inl hlatched))
    · cases hs
  | proceed => exact .inr (h.handlerStep hs)
  | openFile => cases hs; exact .inr h
  | file j act =>
    simp only [Isr.step, Option.bind_eq_some_iff, Option.map_eq_some_iff] at hs
    obtain ⟨f, hj, ⟨b, f'⟩, hstep, rfl⟩ := hs
    exact h.file hkept hj hstep

/-! ## The whole run -/

/-- The firing of event `e` will be seen by reader `r`: it has not been told of the event by a
    handler that has yet to acknowledge it, unless the event still waits in its slot. -/
def Seen (e : Fin 31) (r : Reader) (s : State) : Prop := s.handler.Passed e r → Pending s e r

/-- What has become of event `e` for slot `r` over a run from `s` to `s'`: a completed read on the
    slot has returned it, or it is pending there, or held by the handler, or latched. -/
def NotLost (e : Fin 31) (r : Reader) (s : State) (as : List Action) (s' : State) : Prop :=
  Occurs step (Returns e r) s as ∨ Pending s' e r ∨ s'.handler.Holds e r ∨ Latched s' e

/-- The state after event `e` has fired. -/
def State.fired (s : State) (e : Fin 31) : State :=
  { s with isr := s.isr ||| BitVec.twoPow 32 e.succ }

/-- A firing that is seen is covered. -/
theorem covered_of_seen (hseen : Seen e r s) : Covered (s.fired e) e r := by
  by_cases hpassed : s.handler.Passed e r
  · exact .inl (hseen hpassed)
  · refine .inr (.inr ⟨?_, hpassed⟩)
    have hlt : (e : Nat) + 1 < 32 := by omega
    simp [Latched, State.fired, BitVec.getLsbD_ushiftRight, Nat.add_comm 1, hlt]

/-- The event is not pending, and the acknowledge to come will take it from the latch. -/
def Doomed (e : Fin 31) (r : Reader) (s : State) : Prop := ¬ Pending s e r ∧ s.handler.Passed e r

/-- The event is nowhere. -/
def Gone (e : Fin 31) (r : Reader) (s : State) : Prop :=
  s.handler = .idle ∧ ¬ Pending s e r ∧ ¬ Latched s e

/-- How many steps the handler has to go, once it is at the readers. -/
def Handler.toGo : Handler → Nat
  | .idle => 0
  | .dmaInterrupt _ => 0
  | .eventInterrupt _ reader => nEventReaders - reader + 2
  | .acknowledge _ => 1

theorem Doomed.handlerStep (h : Doomed e r s) (hs : Isr.handlerStep s = some s') :
    (Doomed e r s' ∨ Gone e r s') ∧ s'.handler.toGo < s.handler.toGo := by
  obtain ⟨hp, hpassed⟩ := h
  rw [Isr.handlerStep] at hs
  cases hh : s.handler with
  | idle => rw [hh] at hpassed; exact absurd hpassed id
  | dmaInterrupt isr => rw [hh] at hpassed; exact absurd hpassed id
  | eventInterrupt isr reader =>
    rw [hh] at hpassed
    obtain ⟨hbit, hlt⟩ := hpassed
    simp only [hh] at hs
    by_cases hreader : reader < nEventReaders
    · rw [dif_pos hreader] at hs
      cases hs
      refine ⟨.inl ⟨?_, hbit, Nat.lt_succ_of_lt hlt⟩, ?_⟩
      · -- the readers to come are others
        have hne : (⟨reader, hreader⟩ : Reader) ≠ r := fun heq => by
          subst heq
          exact Nat.lt_irrefl _ hlt
        rw [Pending, show State.board _ = storeEvents _ _ _ from rfl, storeEvents_events,
          if_neg hne]
        simpa [Pending] using hp
      · simp only [Handler.toGo]
        omega
    · rw [dif_neg hreader] at hs
      cases hs
      exact ⟨.inl ⟨hp, hbit⟩, by simp only [Handler.toGo]; omega⟩
  | acknowledge isr =>
    rw [hh] at hpassed
    simp only [hh] at hs
    cases hs
    exact ⟨.inr ⟨rfl, hp, fun hl => (latched_acknowledge.mp hl).2 hpassed⟩, Nat.one_pos⟩

/-- Once it is doomed, all it takes for the event to be lost is that the handler goes on. -/
theorem gone_of_doomed (h : Doomed e r s) :
    ∃ as s', Exec step (fun _ a => a = .proceed) s as s' ∧ Gone e r s' := by
  have huses : UsesUp step (fun _ a => a = .proceed) (fun s => Doomed e r s ∨ Gone e r s)
      (fun s => s.handler.toGo) := by
    rintro s s' a (hdoomed | ⟨hidle, -⟩) rfl hs
    · exact hdoomed.handlerStep hs
    · simp [step, handlerStep, hidle] at hs
  refine huses.exists_done ?_ s (.inl h)
  rintro s (⟨-, hpassed⟩ | hgone) hnot
  · have hsome : (handlerStep s).isSome = true := by
      cases hh : s.handler with
      | idle => rw [hh] at hpassed; exact absurd hpassed id
      | eventInterrupt isr reader =>
        simp only [handlerStep, hh]
        split <;> rfl
      | _ => simp only [handlerStep, hh]; rfl
    obtain ⟨s', hs⟩ := Option.isSome_iff_exists.mp hsome
    exact ⟨.proceed, s', rfl, hs⟩
  · exact absurd hgone hnot

/-- **When a firing is lost.** An event that fires is accounted for in slot `r` ever after, whatever
    interleaves, as long as no open resets the slot while the event is pending there, if and only if
    its firing is seen. -/
theorem event_notLost_iff (s : State) (e : Fin 31) (r : Reader) :
    (∀ as s', Exec step (SlotKept e r) s (.fire e.succ :: as) s' →
      NotLost e r s (.fire e.succ :: as) s') ↔ Seen e r s := by
  constructor
  · intro hall hpassed
    by_contra hp
    obtain ⟨as, s', hrun, hidle, hp', hl⟩ := gone_of_doomed (s := s.fired e) ⟨hp, hpassed⟩
    have hquiet : Exec step (fun _ a => ∀ j act, a ≠ .file j act) s (.fire e.succ :: as) s' :=
      .cons (fun _ _ heq => by cases heq) rfl
        (hrun.mono fun _ _ heq _ _ hfile => by rw [heq] at hfile; cases hfile)
    have hkept : Exec step (SlotKept e r) s (.fire e.succ :: as) s' :=
      hquiet.mono fun _ _ hnot j heq => absurd heq (hnot j _)
    rcases hall as s' hkept with hread | hpending | hheld | hlatched
    · refine hquiet.not_occurs ?_ hread
      rintro s a hnot ⟨j, act, -, -, -, rfl, -⟩
      exact hnot j act rfl
    · exact hp' hpending
    · rw [hidle] at hheld
      exact hheld
    · exact hl hlatched
  · intro hseen as s' hrun
    cases hrun with
    | cons _ hs ht =>
      cases hs
      rcases ht.unless (I := fun s => Covered s e r) (P := Returns e r)
        (fun h hkept hs => h.step hkept hs) (covered_of_seen hseen) with hread | hc
      · exact .inl (.later rfl hread)
      · exact .inr (hc.imp_right fun h => h.imp_right And.left)

/-- A client opens a handle. -/
def openRun : List Action :=
  [.openFile, .file 0 .proceed, .file 0 .proceed, .file 0 (.kmalloc (some 100)), .file 0 .proceed]

/-- The kernel calls the handler, which runs to its end, and then the client reads. -/
def isrRun : List Action := .amcPciIsr :: List.replicate 11 .proceed ++ [.file 0 .read]

theorem event_notLost_isrRun : ∃ s s', run step initial openRun = some s ∧
    run step s (.fire 1 :: isrRun) = some s' ∧
    NotLost 0 ⟨0, by decide⟩ s (.fire 1 :: isrRun) s' := by
  refine ⟨_, _, rfl, rfl, ?_⟩
  refine (event_notLost_iff _ 0 ⟨0, by decide⟩).mpr (fun hpassed => absurd hpassed id) isrRun _ ?_
  refine Exec.restrict (exec_iff_run.mpr rfl) ?_
  rintro a ha s j rfl
  simp [isrRun] at ha

/-- The handler tells the first reader of an event, and the client reads it, all before the
    acknowledge. -/
def readBeforeAcknowledge : List Action :=
  openRun ++ [.fire 1, .amcPciIsr, .proceed, .proceed, .file 0 .readNoWait]

/-- Source 1 fires again there, and the acknowledge of its first event wipes the second. -/
theorem event_lost : ∃ s s', run step initial readBeforeAcknowledge = some s ∧
    (∃ g, s.files[0]? = some (.live g) ∧ g.readerNumber = ⟨0, by decide⟩) ∧
    run step s (.fire 1 :: List.replicate 9 .proceed) = some s' ∧
    ¬ NotLost 0 ⟨0, by decide⟩ s (.fire 1 :: List.replicate 9 .proceed) s' := by
  refine ⟨_, _, rfl, ⟨_, rfl, rfl⟩, rfl, ?_⟩
  rintro (hread | hpending | hheld | hlatched)
  · obtain ⟨a, ha, s, j, act, -, -, -, rfl, -⟩ := hread.mem
    simp at ha
  · exact Bool.false_ne_true hpending
  · exact hheld
  · exact Bool.false_ne_true hlatched

end Isr
end AmcPci
