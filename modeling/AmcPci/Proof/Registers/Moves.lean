import AmcPci.Registers
import AmcPci.Lib.Ledger

/-!
# What one step of a register handle does

`FileMove` says once, for each step a file can take, what it needed and what it changed. The three
ways for a read to return with a mask are one move, `read`: the slot is emptied and its events are
added to the handle's. An evaluation that does not end the read has found the slot empty, so it is
an `answer`, which changes nothing but the handle's own state. Every invariant of the handles is a
case analysis over these moves, and none opens `fileStep` again.
-/

namespace AmcPci
namespace Registers

open Lib

/-- The step is the end of a call of `read_interrupt_events` that returns 0, that is, with a mask. A
    blocking read that goes to sleep is one more that waits, and one that wakes up is one less. -/
def Completes (a : FileAction) (h h' : Handle) : Prop :=
  match a with
  | .readNoWait => True
  | .read => h'.waiting = h.waiting
  | .wake _ => h'.waiting < h.waiting ∧ h'.rc = 0
  | _ => False

theorem Completes.isRead {a : FileAction} {h h' : Handle} (hcompletes : Completes a h h') :
    a.isRead = true := by
  cases a with
  | readNoWait => rfl
  | read => rfl
  | wake => rfl
  | _ => exact absurd hcompletes id

/-- What a step of a file can do. -/
inductive FileMove (b : Board) : RegisterFile → FileAction → Board → RegisterFile → Prop
  | skip {bit : Nat} : FileMove b (.testAndSet bit) .proceed b (.testAndSet (bit + 1))
  | take {r : Reader} (hfree : b.control.activeReaders r = false) :
    FileMove b (.testAndSet r) .proceed { b with control := (b.control.testAndSetBit r).2 }
      (.resetEvents r)
  | noSlot {bit : Nat} : FileMove b (.testAndSet bit) .proceed b (.failed (-eio))
  | reset {r : Reader} :
    FileMove b (.resetEvents r) .proceed { b with
      control := b.control.atomicSet r 0, stored := Function.update b.stored r 0 } (.kmalloc r)
  | noMemory {r : Reader} : FileMove b (.kmalloc r) (.kmalloc none) b (.unassign r (-enomem))
  | alloc {r : Reader} {p : Nat} (hfree : b.heap p = false) :
    FileMove b (.kmalloc r) (.kmalloc (some p))
      { b with heap := Function.update b.heap p true } (.countIn r p)
  | refuse {r : Reader} {p : Nat} (hlocked : b.locking.lockedBy ≠ none) :
    FileMove b (.countIn r p) .proceed b (.kfree r p (-ebusy))
  | count {r : Reader} {p : Nat} (hfree : b.locking.lockedBy = none) :
    FileMove b (.countIn r p) .proceed
      { b with locking := ⟨b.locking.referenceCount + 1, none⟩ } (.live ⟨p, r, 0, 0, 0⟩)
  | kfree {r : Reader} {p : Nat} {rc : Int} :
    FileMove b (.kfree r p rc) .proceed
      { b with heap := Function.update b.heap p false } (.unassign r rc)
  | unassign {r : Reader} {rc : Int} :
    FileMove b (.unassign r rc) .proceed { b with control := b.control.clearBit r } (.failed rc)
  | answer {h : Handle} {a : FileAction} {waiting : Nat} {rc : Int}
    (hnot : ¬ Completes a h { h with waiting, rc }) :
    FileMove b (.live h) a b (.live { h with waiting, rc })
  | lock {h : Handle} {rc : Int} (hfree : b.locking.lockedBy = none)
    (halone : b.locking.referenceCount.toNat ≤ 1) :
    FileMove b (.live h) .lock
      { b with locking := ⟨b.locking.referenceCount, some h.context⟩ } (.live { h with rc })
  | unlock {h : Handle} {rc : Int} (howner : b.locking.lockedBy = some h.context) :
    FileMove b (.live h) .unlock { b with locking := ⟨b.locking.referenceCount, none⟩ }
      (.live { h with rc })
  | read {h : Handle} {a : FileAction} {waiting : Nat} {rc : Int}
    (hcompletes : Completes a h { h with waiting, rc }) :
    FileMove b (.live h) a { b with control := b.control.atomicSet h.readerNumber 0 }
      (.live { h with waiting, rc, returned := h.returned ||| b.control.events h.readerNumber })
  | release {h : Handle} :
    FileMove b (.live h) .release { b with locking := countOut b.locking h.context }
      (.releaseUnassign h.readerNumber h.context)
  | releaseUnassign {r : Reader} {p : Nat} :
    FileMove b (.releaseUnassign r p) .proceed { b with control := b.control.clearBit r }
      (.releaseKfree p)
  | releaseKfree {p : Nat} :
    FileMove b (.releaseKfree p) .proceed { b with heap := Function.update b.heap p false } .released

theorem take_move {b : Board} {bit : Nat} (h : bit < nEventReaders) :
    FileMove b (.testAndSet bit) .proceed { b with control := (b.control.testAndSetBit ⟨bit, h⟩).2 }
      (if (b.control.testAndSetBit ⟨bit, h⟩).1 then .testAndSet (bit + 1)
        else .resetEvents ⟨bit, h⟩) := by
  cases htaken : b.control.activeReaders ⟨bit, h⟩ with
  | false =>
    have hmove := FileMove.take (r := ⟨bit, h⟩) htaken
    simpa [InterruptControl.testAndSetBit, htaken] using hmove
  | true =>
    -- setting a bit that is set changes nothing
    have hset : (b.control.testAndSetBit ⟨bit, h⟩).2 = b.control := by
      rw [InterruptControl.testAndSetBit, ← htaken, Function.update_eq_self]
    rw [hset, show (b.control.testAndSetBit ⟨bit, h⟩).1 = true from htaken]
    exact FileMove.skip

theorem lock_move {b : Board} {h : Handle} :
    FileMove b (.live h) .lock { b with locking := (lockRegister b.locking h.context).2 }
      (.live { h with rc := (lockRegister b.locking h.context).1 }) := by
  rw [lockRegister]
  split
  · exact .answer id
  · rename_i hfew
    split
    · exact .answer id
    · rename_i hfree
      refine .lock (by simpa using hfree) ?_
      simpa [BitVec.lt_def] using hfew

theorem unlock_move {b : Board} {h : Handle} :
    FileMove b (.live h) .unlock { b with locking := (unlockRegister b.locking h.context).2 }
      (.live { h with rc := (unlockRegister b.locking h.context).1 }) := by
  rw [unlockRegister]
  split
  · rename_i howner
    exact .unlock howner
  · exact .answer id

/-- An evaluation that finds nothing leaves the board as it was. -/
theorem takeEvents_of_zero {b : Board} {h : Handle} (hzero : (takeEvents b h).1 = 0) :
    (takeEvents b h).2 = b := by
  have hslot : b.control.events h.readerNumber = 0 := hzero
  rw [takeEvents, InterruptControl.atomicXchg, InterruptControl.atomicSet, ← hslot,
    Function.update_eq_self]

theorem sleep_move {b : Board} {h : Handle} {a : FileAction} {waiting : Nat} {rc : Int}
    (hzero : ¬ (takeEvents b h).1 ≠ 0) (hnot : ¬ Completes a h { h with waiting, rc }) :
    FileMove b (.live h) a (takeEvents b h).2 (.live { h with waiting, rc }) := by
  rw [takeEvents_of_zero (not_not.mp hzero)]
  exact .answer hnot

/-- What the calls on an open handle do. -/
theorem fileMove_of_call {b b' : Board} {handle : Handle} {f' : RegisterFile} {a : FileAction}
    (h : fileStep b (.live handle) a = some (b', f')) : FileMove b (.live handle) a b' f' := by
  cases a with
  | lock => cases h; exact lock_move
  | unlock => cases h; exact unlock_move
  | readNoWait => cases h; exact .read trivial
  | read =>
    simp only [fileStep] at h
    split at h
    · cases h; exact .read rfl
    · rename_i hzero
      cases h
      exact sleep_move hzero (Nat.succ_ne_self _)
  | wake signal =>
    by_cases hwaiting : handle.waiting = 0
    · simp [fileStep, hwaiting] at h
    · simp only [fileStep, if_neg hwaiting] at h
      split at h
      · cases h; exact .read ⟨Nat.pred_lt hwaiting, rfl⟩
      · rename_i hzero
        cases signal with
        | true =>
          cases h
          have hrc : -erestartsys ≠ 0 := by decide
          exact sleep_move hzero fun hends => hrc hends.2
        | false => cases h; exact sleep_move hzero fun hends => Nat.lt_irrefl _ hends.1
  | release =>
    by_cases hwaiting : handle.waiting = 0
    · rw [fileStep, if_pos hwaiting] at h
      cases h
      exact .release
    · simp [fileStep, hwaiting] at h
  | _ => cases h

theorem fileMove_of_fileStep {b b' : Board} {f f' : RegisterFile} {a : FileAction}
    (h : fileStep b f a = some (b', f')) : FileMove b f a b' f' := by
  cases f with
  | testAndSet bit =>
    cases a with
    | proceed =>
      by_cases hbit : bit < nEventReaders
      · rw [fileStep, dif_pos hbit] at h
        cases h
        exact take_move hbit
      · rw [fileStep, dif_neg hbit] at h
        cases h
        exact .noSlot
    | _ => cases h
  | resetEvents reader =>
    cases a with
    | proceed => cases h; exact .reset
    | _ => cases h
  | kmalloc reader =>
    cases a with
    | kmalloc address =>
      cases address with
      | none => cases h; exact .noMemory
      | some context =>
        by_cases hused : b.heap context = true
        · simp [fileStep, hused] at h
        · rw [fileStep, if_neg hused] at h
          cases h
          exact .alloc (by simpa using hused)
    | _ => cases h
  | countIn reader context =>
    cases a with
    | proceed =>
      cases hlocked : b.locking.lockedBy with
      | none =>
        simp only [fileStep, countIn, hlocked, Option.isSome_none] at h
        cases h
        exact .count hlocked
      | some owner =>
        simp only [fileStep, countIn, hlocked, Option.isSome_some] at h
        cases h
        exact .refuse (by simp [hlocked])
    | _ => cases h
  | kfree reader context rc =>
    cases a with
    | proceed => cases h; exact .kfree
    | _ => cases h
  | unassign reader rc =>
    cases a with
    | proceed => cases h; exact .unassign
    | _ => cases h
  | failed rc => cases a <;> cases h
  | live handle => exact fileMove_of_call h
  | releaseUnassign reader context =>
    cases a with
    | proceed => cases h; exact .releaseUnassign
    | _ => cases h
  | releaseKfree context =>
    cases a with
    | proceed => cases h; exact .releaseKfree
    | _ => cases h
  | released => cases a <;> cases h

/-- A step of the board: of one file, or of an interrupt that stores events. -/
inductive Move (s : State) : Action → State → Prop
  | openFile : Move s .openFile { s with files := s.files ++ [.testAndSet 0] }
  | file {i : Nat} {a : FileAction} {f f' : RegisterFile} {b : Board} (hi : s.files[i]? = some f)
    (hmove : FileMove s.board f a b f') :
    Move s (.file i a) { s with board := b, files := s.files.set i f' }
  | eventInterrupt {events : BitVec 32} {calls : List EventInterrupt} :
    Move s (.eventInterrupt events) { s with interrupts := calls }
  | atomicOr {k : Nat} {events : BitVec 32} {r : Reader} {calls : List EventInterrupt} :
    Move s (.atomicOr k) { s with board := storeEvents s.board events r, interrupts := calls }

theorem move_of_step {s s' : State} {a : Action} (h : step s a = some s') : Move s a s' := by
  cases a with
  | openFile => cases h; exact .openFile
  | file i action =>
    simp only [step, Option.bind_eq_some_iff, Option.map_eq_some_iff] at h
    obtain ⟨f, hi, ⟨b, f'⟩, hf, rfl⟩ := h
    exact .file hi (fileMove_of_fileStep hf)
  | eventInterrupt events => cases h; exact .eventInterrupt
  | atomicOr k =>
    simp only [step, Option.bind_eq_some_iff] at h
    obtain ⟨call, hk, h⟩ := h
    split at h
    · cases h; exact .atomicOr
    · cases h

end Registers
end AmcPci
