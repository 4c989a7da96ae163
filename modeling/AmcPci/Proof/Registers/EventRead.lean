import AmcPci.EventRead
import AmcPci.Proof.Registers.Events

/-!
# What a failed read does with the events

The exchange empties the slot, so from there to the copy the call alone has the events. `Accounts`
keeps the books over any interleaving: what was pending when the call was made and what has
arrived since is what is pending, what other reads on the handle took, and what the call itself
holds. The ways out before an exchange, the signal and the race for the events all leave with
empty hands, so they lose nothing. The one that does not is a copy that fails: it drops what it
holds, and that is lost unless the same events have come in again (`CopyKept`).

What happens around the call is every step of `AmcPci.Registers`; that no other handle reaches the
slot is what `Ledgers` is there for.
-/

namespace AmcPci
namespace EventRead

open Lib
open Registers (Handle Board RegisterFile FileAction FileMove Ledgers Move move_of_step
  ledgers_run)

/-- What the call has taken from the slot and not yet passed on. -/
def ReadCall.held : ReadCall → BitVec 32
  | .copyToUser events => events
  | _ => 0

/-- If the copy fails, what it was to copy is pending again, or with another read. -/
def CopyKept (request : Request) (s : State) (a : Action) : Prop :=
  ∀ notCopied events, a = .copyToUser notCopied → s.call = .copyToUser events → 0 < notCopied →
    Within events (pending s.system request.file ||| s.elsewhere)

/-- Another thread reads from the same handle. -/
def Action.isOtherRead (file : Nat) : Action → Bool
  | .other (.file i action) => i == file && action.isRead
  | _ => false

variable {request : Request} {system system' : Registers.State} {file : Nat} {g : Handle}
  {s s' : State} {a : Action} {as : List Action}

/-! ## The handle -/

theorem context_eq_some_iff : context system file = some g ↔ Registers.IsOpen system file g := by
  unfold context Registers.IsOpen
  split
  · rename_i handle hfile
    rw [hfile]
    simp
  · rename_i hnone
    constructor
    · intro h
      cases h
    · intro h
      exact absurd h (hnone g)

theorem open_unique {g' : Handle} (hi : Registers.IsOpen system file g)
    (hi' : Registers.IsOpen system file g') : g = g' :=
  RegisterFile.live.inj (Option.some.inj (hi.symm.trans hi'))

theorem pending_of_open (hi : Registers.IsOpen system file g) :
    pending system file = system.board.control.events g.readerNumber := by
  rw [pending, context_eq_some_iff.mpr hi]

/-! ## The exchange -/

theorem exchange_move (hi : Registers.IsOpen system file g) :
    Move system (.file file .readNoWait) (exchange system file g).2 :=
  .file hi (.read trivial)

theorem exchange_open (hi : Registers.IsOpen system file g) :
    ∃ g', Registers.IsOpen (exchange system file g).2 file g' ∧ g'.readerNumber = g.readerNumber :=
  ⟨_, getElem?_set_of_some hi, rfl⟩

theorem exchange_events :
    (exchange system file g).2.board.control.events g.readerNumber = 0 := by
  simp [exchange, Registers.takeEvents, InterruptControl.atomicXchg, InterruptControl.atomicSet]

/-! ## Around the call -/

/-- A call on an open handle, other than its release, leaves it open, and its slot is only emptied
    by a read. -/
theorem live_move {b b' : Board} {f' : RegisterFile} {action : FileAction}
    (h : FileMove b (.live g) action b' f') (hkeep : action ≠ .release) :
    ∃ g', f' = .live g' ∧ g'.readerNumber = g.readerNumber ∧
      b'.control.events g.readerNumber |||
          (if action.isRead then b.control.events g.readerNumber else 0)
        = b.control.events g.readerNumber := by
  cases h with
  | answer =>
    refine ⟨_, rfl, rfl, ?_⟩
    split <;> simp
  | lock => exact ⟨_, rfl, rfl, by simp [FileAction.isRead]⟩
  | unlock => exact ⟨_, rfl, rfl, by simp [FileAction.isRead]⟩
  | read hcompletes =>
    refine ⟨_, rfl, rfl, ?_⟩
    simp [InterruptControl.atomicSet, hcompletes.isRead]
  | release => exact absurd rfl hkeep

/-- One turn of `event_interrupt` stores its events for the reader it has come to. -/
theorem atomicOr_arriving {k : Nat} (hstep : Registers.step system (.atomicOr k) = some system')
    (reader : Reader) : system'.files = system.files ∧ system'.board.control.events reader =
      system.board.control.events reader ||| arriving system reader (.atomicOr k) := by
  simp only [Registers.step, Option.bind_eq_some_iff] at hstep
  obtain ⟨call, hk, hstep⟩ := hstep
  split at hstep
  · rename_i hlt
    cases hstep
    have hreader : (⟨call.reader, hlt⟩ : Reader) = reader ↔ call.reader = reader := Fin.ext_iff
    refine ⟨rfl, ?_⟩
    simp only [Registers.storeEvents_events, arriving, hk, hreader]
  · cases hstep

/-- **Around the call the slot's books balance**: events come in with an interrupt and go out with
    a read on the handle, and nothing else touches them. -/
theorem other_balance (hl : Ledgers system) (hi : Registers.IsOpen system file g)
    {action : Registers.Action} (hkeep : releases file action = false)
    (hstep : Registers.step system action = some system') :
    ∃ g', Registers.IsOpen system' file g' ∧ g'.readerNumber = g.readerNumber ∧
      system'.board.control.events g.readerNumber ||| leaving system file g.readerNumber action
        = system.board.control.events g.readerNumber |||
          arriving system g.readerNumber action := by
  cases action with
  | openFile =>
    cases hstep
    have hlt : file < system.files.length := (List.getElem?_eq_some_iff.mp hi).1
    exact ⟨g, (List.getElem?_append_left hlt).trans hi, rfl, rfl⟩
  | eventInterrupt events =>
    cases hstep
    exact ⟨g, hi, rfl, rfl⟩
  | atomicOr k =>
    obtain ⟨hfiles, hevents⟩ := atomicOr_arriving hstep g.readerNumber
    refine ⟨g, (congrArg (·[file]?) hfiles).trans hi, rfl, ?_⟩
    rw [hevents]
    exact BitVec.or_zero
  | file j action =>
    have hmove := move_of_step hstep
    by_cases hj : j = file
    · subst hj
      cases hmove with
      | @file _ _ f f' b hf hmove =>
        obtain rfl : f = .live g := Option.some.inj (hf.symm.trans hi)
        have haction : action ≠ .release := by
          rintro rfl
          simp [releases] at hkeep
        obtain ⟨g', rfl, hreader, hevents⟩ := live_move hmove haction
        refine ⟨g', getElem?_set_of_some hi, hreader, ?_⟩
        simpa [leaving, arriving] using hevents
    · obtain ⟨hopen, hevents⟩ := hmove.isolated hl hi (Ne.symm hj)
      refine ⟨g, hopen, rfl, ?_⟩
      simp [leaving, arriving, hj, hevents]

/-! ## One step -/

/-- What a step of the call, or of what is around it, can do. A call that has returned takes
    none. -/
inductive CallMove (request : Request) (s : State) : Action → State → Prop
  | other {g : Handle} {action : Registers.Action} {system : Registers.State}
    (hi : Registers.IsOpen s.system request.file g) (hkeep : releases request.file action = false)
    (hstep : Registers.step s.system action = some system) :
    CallMove request s (.other action) { s with
      system
      arrived := s.arrived ||| arriving s.system g.readerNumber action
      elsewhere := s.elsewhere ||| leaving s.system request.file g.readerNumber action }
  | check {call : ReadCall} (hheld : s.call.held = 0) (hcall : call.held = 0) :
    CallMove request s .proceed { s with call }
  | take {g : Handle} {a : Action} {call : ReadCall} (hi : Registers.IsOpen s.system request.file g)
    (hheld : s.call.held = 0)
    (hcall : call.held = s.system.board.control.events g.readerNumber) :
    CallMove request s a { s with system := (exchange s.system request.file g).2, call }
  | copied {events : BitVec 32} {notCopied : Nat} (hcall : s.call = .copyToUser events) :
    CallMove request s (.copyToUser notCopied)
      { s with call := .returned (copied events notCopied) }

theorem held_check {ready : Bool} : (check request ready).held = 0 := by
  unfold check
  split
  · rfl
  · split <;> rfl

theorem held_taken {noWait : Bool} {events : BitVec 32} : (taken noWait events).held = events := by
  unfold taken
  split
  · rfl
  · split
    · rfl
    · rename_i hzero
      exact (not_not.mp hzero).symm

theorem held_woken {signal : Bool} {events : BitVec 32} : (woken signal events).held = events := by
  unfold woken
  split
  · rfl
  · rename_i hzero
    have hzero' := not_not.mp hzero
    split
    · exact hzero'.symm
    · exact hzero'.symm

theorem step_of_returned {rc : Int} (hcall : s.call = .returned rc) : step request s a = none := by
  simp only [step, hcall]

theorem other_move {action : Registers.Action}
    (h : otherStep request s action = some s') : CallMove request s (.other action) s' := by
  unfold otherStep at h
  split at h
  · cases h
  · rename_i hkeep
    simp only [Option.bind_eq_some_iff, Option.map_eq_some_iff] at h
    obtain ⟨g, hcontext, system, hstep, rfl⟩ := h
    exact .other (context_eq_some_iff.mp hcontext) (by simpa using hkeep) hstep

theorem callMove_of_step (h : step request s a = some s') : CallMove request s a s' := by
  cases a with
  | other action =>
    cases hcall : s.call with
    | returned rc =>
      rw [step_of_returned hcall] at h
      cases h
    | _ =>
      simp only [step, hcall] at h
      exact other_move h
  | proceed =>
    cases hcall : s.call with
    | start =>
      simp only [step, hcall, Option.map_eq_some_iff] at h
      obtain ⟨g, -, rfl⟩ := h
      exact .check (by rw [hcall]; rfl) held_check
    | readInterruptEvents =>
      simp only [step, hcall, Option.map_eq_some_iff] at h
      obtain ⟨g, hcontext, rfl⟩ := h
      exact .take (context_eq_some_iff.mp hcontext) (by rw [hcall]; rfl) held_taken
    | _ => simp only [step, hcall] at h; cases h
  | wake signal =>
    cases hcall : s.call with
    | asleep =>
      simp only [step, hcall, Option.map_eq_some_iff] at h
      obtain ⟨g, hcontext, rfl⟩ := h
      exact .take (context_eq_some_iff.mp hcontext) (by rw [hcall]; rfl) held_woken
    | _ => simp only [step, hcall] at h; cases h
  | copyToUser notCopied =>
    cases hcall : s.call with
    | copyToUser events =>
      simp only [step, hcall, Option.some.injEq] at h
      subst h
      exact .copied hcall
    | _ => simp only [step, hcall] at h; cases h

/-! ## The books over a run -/

/-- What was pending for the reader before the call, and what arrived since, is accounted for. -/
structure Accounts (request : Request) (before : BitVec 32) (reader : Reader) (s : State) :
    Prop where
  ledgers : Ledgers s.system
  opened : ∃ g, Registers.IsOpen s.system request.file g ∧ g.readerNumber = reader
  balance : before ||| s.arrived =
    s.system.board.control.events reader ||| s.elsewhere ||| s.call.held

variable {before : BitVec 32} {reader : Reader}

theorem Accounts.pending_eq (h : Accounts request before reader s) :
    pending s.system request.file = s.system.board.control.events reader := by
  obtain ⟨g, hi, rfl⟩ := h.opened
  exact pending_of_open hi

theorem accounts_initial (hl : Ledgers system) (hi : Registers.IsOpen system request.file g) :
    Accounts request (pending system request.file) g.readerNumber (initial system) where
  ledgers := hl
  opened := ⟨g, hi, rfl⟩
  balance := by simp [initial, ReadCall.held, pending_of_open hi]

/-- The call is over and has handed its events to the client. -/
def Served (s : State) : Prop := ∃ rc, s.call = .returned rc ∧ 0 ≤ rc

theorem or_eq_of_within {a b : BitVec 32} (h : Within a b) : b ||| a = b := by
  apply BitVec.eq_of_getLsbD_eq
  intro i _
  have hi := h i
  simp only [BitVec.getLsbD_or]
  cases ha : a.getLsbD i with
  | false => exact Bool.or_false _
  | true => simp [hi ha]

theorem Accounts.other (h : Accounts request before reader s) {g : Handle}
    {action : Registers.Action} (hi : Registers.IsOpen s.system request.file g)
    (hkeep : releases request.file action = false)
    (hstep : Registers.step s.system action = some system) :
    Accounts request before reader { s with
      system
      arrived := s.arrived ||| arriving s.system g.readerNumber action
      elsewhere := s.elsewhere ||| leaving s.system request.file g.readerNumber action } := by
  obtain ⟨g₀, hi₀, rfl⟩ := h.opened
  obtain rfl : g₀ = g := open_unique hi₀ hi
  obtain ⟨g', hi', hreader, hevents⟩ := other_balance h.ledgers hi hkeep hstep
  refine ⟨h.ledgers.move (move_of_step hstep), ⟨g', hi', hreader⟩, ?_⟩
  have hbalance := h.balance
  calc before ||| (s.arrived ||| arriving s.system g₀.readerNumber action)
      = (before ||| s.arrived) ||| arriving s.system g₀.readerNumber action := by
        rw [BitVec.or_assoc]
    _ = (s.system.board.control.events g₀.readerNumber |||
          arriving s.system g₀.readerNumber action) ||| s.elsewhere ||| s.call.held := by
        rw [hbalance]
        ac_rfl
    _ = system.board.control.events g₀.readerNumber |||
          (s.elsewhere ||| leaving s.system request.file g₀.readerNumber action) |||
          s.call.held := by
        rw [← hevents]
        ac_rfl

/-- **A step keeps the books**, or is the one that serves the client. -/
theorem Accounts.move (h : Accounts request before reader s) (hkept : CopyKept request s a)
    (hmove : CallMove request s a s') : Accounts request before reader s' ∨ Served s' := by
  cases hmove with
  | other hi hkeep hstep => exact .inl (h.other hi hkeep hstep)
  | check hheld hcall =>
    refine .inl ⟨h.ledgers, h.opened, ?_⟩
    rw [hcall, ← hheld]
    exact h.balance
  | @take g _ call hi hheld hcall =>
    obtain ⟨g₀, hi₀, hreader⟩ := h.opened
    obtain rfl : g₀ = g := open_unique hi₀ hi
    obtain ⟨g', hi', hreader'⟩ := exchange_open hi
    refine .inl ⟨h.ledgers.move (exchange_move hi), ⟨g', hi', hreader'.trans hreader⟩, ?_⟩
    -- what was in the slot is now in the call's hands
    have hbalance := h.balance
    rw [hheld, ← hreader] at hbalance
    rw [hcall, ← hreader, exchange_events, hbalance]
    ac_rfl
  | @copied events notCopied hcall =>
    by_cases hfail : 0 < notCopied
    · have hwithin := hkept notCopied events rfl hcall hfail
      rw [h.pending_eq] at hwithin
      refine .inl ⟨h.ledgers, h.opened, ?_⟩
      have hbalance := h.balance
      rw [hcall, ReadCall.held, or_eq_of_within hwithin] at hbalance
      simpa [ReadCall.held] using hbalance
    · by_cases hzero : events = 0
      · refine .inl ⟨h.ledgers, h.opened, ?_⟩
        have hbalance := h.balance
        rw [hcall, ReadCall.held, hzero] at hbalance
        simpa [ReadCall.held] using hbalance
      · refine .inr ⟨4, ?_, by decide⟩
        rw [copied, if_neg hfail, if_neg hzero]

/-! ## What is lost -/

theorem Accounts.losesNothing (h : Accounts request (pending system request.file) reader s) :
    LosesNothing request system s := by
  intro rc hcall _
  have hbalance := h.balance
  rw [hcall] at hbalance
  rw [hbalance, h.pending_eq]
  intro i hi
  simpa [ReadCall.held] using hi

/-- A copy that fails leaves the client without what it was to copy, unless that is back. -/
theorem Accounts.within_of_losesNothing {events : BitVec 32} {notCopied : Nat}
    (h : Accounts request (pending system request.file) reader s)
    (hcall : s.call = .copyToUser events) (hfail : 0 < notCopied)
    (hlost : LosesNothing request system
      { s with call := .returned (copied events notCopied) }) :
    Within events (pending s.system request.file ||| s.elsewhere) := by
  have hrc : copied events notCopied = -efault := if_pos hfail
  have hkept := hlost _ rfl (by rw [hrc]; decide)
  have hbalance := h.balance
  rw [hcall] at hbalance
  rw [hbalance] at hkept
  intro i hi
  exact hkept i (by simp [ReadCall.held, hi])

theorem not_served_step (h : Served s) : step request s a = none := by
  obtain ⟨rc, hcall, -⟩ := h
  exact step_of_returned hcall

theorem eq_of_returned {ok : State → Action → Prop} {rc : Int} (hcall : s.call = .returned rc)
    (h : Exec (step request) ok s as s') : as = [] ∧ s' = s := by
  cases h with
  | nil => exact ⟨rfl, rfl⟩
  | cons _ hs _ =>
    rw [step_of_returned hcall] at hs
    cases hs

/-- The books are kept as long as no copy loses what it holds. -/
theorem accounts_run (h : Exec (step request) (CopyKept request) s as s')
    (hacc : Accounts request before reader s) : Accounts request before reader s' ∨ Served s' :=
  h.invariant (I := fun s => Accounts request before reader s ∨ Served s)
    (fun hinv hkept hstep => by
      rcases hinv with hacc | hserved
      · exact hacc.move hkept (callMove_of_step hstep)
      · rw [not_served_step hserved] at hstep
        cases hstep) (.inl hacc)

theorem losesNothing_run (h : Exec (step request) (CopyKept request) s as s')
    (hacc : Accounts request (pending system request.file) reader s) :
    LosesNothing request system s' := by
  rcases accounts_run h hacc with hacc' | ⟨rc, hcall, hrc⟩
  · exact hacc'.losesNothing
  · intro rc' hcall' hneg
    obtain rfl : rc = rc' := ReadCall.returned.inj (hcall.symm.trans hcall')
    omega

/-- A run at whose end nothing is lost never had a copy fail with something in hand: the first
    such failure would have been its end. -/
theorem copyKept_run (h : Exec (step request) Always s as s')
    (hacc : Accounts request (pending system request.file) reader s ∨ Served s)
    (hlost : LosesNothing request system s') :
    Exec (step request) (CopyKept request) s as s' := by
  induction h with
  | nil s => exact .nil s
  | @cons s s₁ s' a as _ hs ht ih =>
    rcases hacc with hacc | hserved
    · have hkept : CopyKept request s a := by
        rintro notCopied events rfl hcall hfail
        simp only [step, hcall, Option.some.injEq] at hs
        subst hs
        obtain ⟨-, rfl⟩ := eq_of_returned rfl ht
        exact hacc.within_of_losesNothing hcall hfail hlost
      exact .cons hkept hs (ih (hacc.move hkept (callMove_of_step hs)) hlost)
    · rw [not_served_step hserved] at hs
      cases hs

theorem elsewhere_move (ha : a.isOtherRead request.file = false)
    (hmove : CallMove request s a s') (h : s.elsewhere = 0) : s'.elsewhere = 0 := by
  cases hmove with
  | @other g action system hi hkeep hstep =>
    have hleaving : leaving s.system request.file g.readerNumber action = 0 := by
      cases action with
      | file i action =>
        have hnot : ¬ (i = request.file ∧ action.isRead = true) := by
          simpa [Action.isOtherRead] using ha
        exact if_neg hnot
      | _ => rfl
    rw [show State.elsewhere _ = s.elsewhere ||| _ from rfl, h, hleaving]
    rfl
  | check => exact h
  | take => exact h
  | copied => exact h

/-- One client opens and is sent event 4. -/
def sentRun : List Registers.Action :=
  [.openFile, .file 0 .proceed, .file 0 .proceed, .file 0 (.kmalloc (some 100)), .file 0 .proceed,
    .eventInterrupt 4, .atomicOr 0]

/-- A read of it without waiting. -/
def sentRequest : Request := ⟨0, 4, true⟩

/-- Another read gets there first, and this one leaves with `-EAGAIN`. -/
def racedRun : List Action :=
  [.proceed, .other (.file 0 .readNoWait), .proceed, .copyToUser 0]

/-- The buffer is bad, and this one leaves with `-EFAULT`. -/
def faultRun : List Action := [.proceed, .proceed, .copyToUser 4]

end EventRead
end AmcPci
