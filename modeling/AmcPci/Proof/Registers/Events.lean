import AmcPci.Proof.Registers.Lock

/-!
# Reader slots and their events

The interrupt handler adds events to every slot and only the handle that holds a slot takes them
out, each in one atomic exchange. So nothing is lost between the two: what a handle's reads have
returned, together with what is pending, is all that was stored since its open reset the slot.
That the slots are exclusive is what makes this true of each handle by itself; and that a blocking
read takes nothing in any evaluation of its condition but the last, that what it took it returned.
-/

namespace AmcPci
namespace Registers

open Lib

/-- From the reset of its slot on, what a file answers for: its reader number, and the masks its
    reads have returned. -/
def RegisterFile.account : RegisterFile → Option (Reader × BitVec 32)
  | .kmalloc reader => some (reader, 0)
  | .countIn reader _ => some (reader, 0)
  | .live handle => some (handle.readerNumber, handle.returned)
  | _ => none

/-- What the reads of a file have returned and what is pending is what was stored. -/
def Accounted (b : Board) (f : RegisterFile) : Prop :=
  ∀ r got, f.account = some (r, got) → got ||| b.control.events r = b.stored r

/-- Nothing stored for a handle is lost, and nothing else reaches it. -/
def Conserved (s : State) : Prop :=
  ∀ (i : Nat) (f : RegisterFile), s.files[i]? = some f → Accounted s.board f

variable {b b' : Board} {f f' : RegisterFile} {a : FileAction} {s s' : State}

theorem slot_of_account {r : Reader} {got : BitVec 32} (h : f.account = some (r, got)) :
    f.slot = some r := by
  cases f with
  | kmalloc => cases h; rfl
  | countIn => cases h; rfl
  | live => cases h; rfl
  | _ => cases h

/-- A file only touches the slot it holds. -/
theorem FileMove.frame (h : FileMove b f a b' f') {r : Reader} (hr : f.slot ≠ some r) :
    b'.control.events r = b.control.events r ∧ b'.stored r = b.stored r := by
  cases h with
  | @reset r' =>
    have hne : r ≠ r' := fun h' => hr (h' ▸ rfl)
    exact ⟨Function.update_of_ne hne _ _, Function.update_of_ne hne _ _⟩
  | @read g =>
    have hne : r ≠ g.readerNumber := fun h' => hr (h' ▸ rfl)
    exact ⟨Function.update_of_ne hne _ _, rfl⟩
  | _ => exact ⟨rfl, rfl⟩

/-- What is pending in a slot is only changed by the reset of an open and by the end of a read on
    it. -/
theorem FileMove.events_cases (h : FileMove b f a b' f') (r : Reader) :
    b'.control.events r = b.control.events r ∨ (a = .proceed ∧ f = .resetEvents r) ∨
      ∃ g g', f = .live g ∧ f' = .live g' ∧ g.readerNumber = r ∧ Completes a g g' := by
  by_cases hr : f.slot = some r
  · cases h with
    | reset => cases hr; exact .inr (.inl ⟨rfl, rfl⟩)
    | read hcompletes => cases hr; exact .inr (.inr ⟨_, _, rfl, rfl, rfl, hcompletes⟩)
    | _ => exact .inl rfl
  · exact .inl (h.frame hr).1

theorem FileMove.accounted (h : FileMove b f a b' f') (hacc : Accounted b f) :
    Accounted b' f' := by
  intro r got hgot
  cases h with
  | reset =>
    cases hgot
    simp [InterruptControl.atomicSet]
  | alloc => exact hacc r got hgot
  | count => exact hacc r got hgot
  | answer => exact hacc r got hgot
  | lock => exact hacc r got hgot
  | unlock => exact hacc r got hgot
  | read =>
    -- the read returns what the exchange took out of the slot
    cases hgot
    have hbefore := hacc _ _ rfl
    simpa [InterruptControl.atomicSet] using hbefore
  | _ => cases hgot

theorem conserved_initial : Conserved initial := by
  intro i f hi
  cases hi

theorem update_or {stored : Reader → BitVec 32} {events : BitVec 32} {r reader : Reader} :
    Function.update stored r (stored r ||| events) reader =
      stored reader ||| (if r = reader then events else 0) := by
  by_cases hr : r = reader
  · subst hr
    simp
  · simp [hr, Function.update_of_ne (Ne.symm hr)]

theorem storeEvents_events {events : BitVec 32} {r reader : Reader} :
    (storeEvents b events r).control.events reader =
      b.control.events reader ||| (if r = reader then events else 0) := update_or

theorem storeEvents_stored {events : BitVec 32} {r reader : Reader} :
    (storeEvents b events r).stored reader =
      b.stored reader ||| (if r = reader then events else 0) := update_or

theorem storeEvents_accounted {events : BitVec 32} {r : Reader} (h : Accounted b f) :
    Accounted (storeEvents b events r) f := by
  intro r' got hgot
  have hbefore := h r' got hgot
  rw [storeEvents_events, storeEvents_stored, ← BitVec.or_assoc, hbefore]

theorem Conserved.move {a : Action} (h : Conserved s) (hl : Ledgers s) (hmove : Move s a s') :
    Conserved s' := by
  intro j f₁ hj
  cases hmove with
  | openFile =>
    rcases getElem?_concat_some hj with ⟨-, rfl⟩ | hold
    · intro r got hgot
      cases hgot
    · exact h j f₁ hold
  | eventInterrupt => exact h j f₁ hj
  | atomicOr => exact storeEvents_accounted (h j f₁ hj)
  | @file i _ f f' b hi hmove =>
    rcases getElem?_set_some hj with ⟨-, rfl⟩ | ⟨hji, hold⟩
    · exact hmove.accounted (h i f hi)
    · intro r got hgot
      -- another file's slot: the one that moved does not hold it
      have hslot : f.slot ≠ some r := fun hr =>
        hji (hl.slot_unique hold hi (slot_of_account hgot) hr)
      obtain ⟨hevents, hstored⟩ := hmove.frame hslot
      rw [show State.board _ = b from rfl, hevents, hstored]
      exact h j f₁ hold r got hgot

theorem conserved_run {ok : State → Action → Prop} {as : List Action}
    (h : Exec step ok initial as s) : Conserved s := by
  have hboth : Ledgers s ∧ Conserved s :=
    h.invariant (I := fun s => Ledgers s ∧ Conserved s)
      (fun hinv _ hstep => ⟨hinv.1.move (move_of_step hstep), hinv.2.move hinv.1
        (move_of_step hstep)⟩) ⟨ledgers_initial, conserved_initial⟩
  exact hboth.2

/-! ## What others see of a step -/

/-- A step of one file leaves every other handle as it was, and its pending events too. -/
theorem Move.isolated (hl : Ledgers s) {i j : Nat} (hmove : Move s (.file i a) s') {g : Handle}
    (hj : IsOpen s j g) (hji : j ≠ i) : IsOpen s' j g ∧
      s'.board.control.events g.readerNumber = s.board.control.events g.readerNumber := by
  cases hmove with
  | file hi hmove =>
    refine ⟨(List.getElem?_set_ne hji.symm).trans hj, (hmove.frame ?_).1⟩
    exact fun hr => hji (hl.slot_unique hj hi rfl hr)

/-- A step on an open handle ends a read, which then has all that was pending; or it takes nothing,
    however often the condition of a blocking read is looked at and whatever ends the wait. -/
theorem FileMove.ends_or_takes_nothing {g g' : Handle} (h : FileMove b (.live g) a b' (.live g')) :
    (Completes a g g' ∧ g'.returned = g.returned ||| b.control.events g.readerNumber ∧
      b'.control.events g.readerNumber = 0) ∨
    (¬ Completes a g g' ∧ g'.returned = g.returned ∧ b'.control.events = b.control.events) := by
  cases h with
  | answer hnot => exact .inr ⟨hnot, rfl, rfl⟩
  | lock => exact .inr ⟨id, rfl, rfl⟩
  | unlock => exact .inr ⟨id, rfl, rfl⟩
  | read hcompletes => exact .inl ⟨hcompletes, rfl, Function.update_self ..⟩

/-- What a step on a handle that stays open does to it. -/
theorem Move.of_open {i : Nat} {g g' : Handle} (hmove : Move s (.file i a) s') (hi : IsOpen s i g)
    (hi' : IsOpen s' i g') : FileMove s.board (.live g) a s'.board (.live g') := by
  cases hmove with
  | @file _ _ f f' b hf hmove =>
    obtain rfl : f = .live g := Option.some.inj (hf.symm.trans hi)
    obtain rfl : f' = .live g' := by
      rw [IsOpen, getElem?_set_of_some hf] at hi'
      exact Option.some.inj hi'
    exact hmove

/-- A file that no call is using. -/
def RegisterFile.AtRest : RegisterFile → Prop
  | .live _ => True
  | .failed _ => True
  | .released => True
  | _ => False

/-- One client opens, is sent event 4, and reads it. -/
def readRun : List Action :=
  [.openFile, .file 0 .proceed, .file 0 .proceed, .file 0 (.kmalloc (some 100)), .file 0 .proceed,
    .file 0 .read, .eventInterrupt 4, .atomicOr 0, .file 0 (.wake true)]

end Registers
end AmcPci
