import AmcPci.Proof.Registers.Ledgers
import AmcPci.Lib.Scan

/-!
# Finding a reader slot

`assign_reader_number` tries the slots one after the other while other files give theirs back, so
a scan can fail although at every moment some slot was free. It takes more than eight files at
once, though: with fewer the scan ends on a slot, and on a low one.
-/

namespace AmcPci
namespace Registers

open Lib

/-- The slot a file looks at or has. -/
def RegisterFile.place : RegisterFile → Option Nat
  | .testAndSet bit => some bit
  | f => f.slot.map Fin.val

/-- The files being opened, open, or being closed. -/
def State.present (s : State) : Nat := s.files.countP fun f => f.place.isSome

/-- A file is opened only while there are fewer than `c`. -/
def Fewer (c : Nat) (s : State) : Action → Prop
  | .openFile => s.present < c
  | _ => True

instance (c : Nat) (s : State) : ∀ a, Decidable (Fewer c s a)
  | .openFile => inferInstanceAs (Decidable (s.present < c))
  | .file _ _ => isTrue trivial
  | .eventInterrupt _ => isTrue trivial
  | .atomicOr _ => isTrue trivial

theorem RegisterFile.place_of_slot {f : RegisterFile} {r : Reader} (h : f.slot = some r) :
    f.place = some r.val := by
  cases f with
  | testAndSet => cases h
  | _ => exact congrArg (Option.map Fin.val) h

/-- What a file that has yet to fail will fail with, or has failed with. -/
def RegisterFile.failing : RegisterFile → Option Int
  | .kfree _ _ rc => some rc
  | .unassign _ rc => some rc
  | .failed rc => some rc
  | _ => none

/-- No file is turned away for want of a slot. -/
def Served (s : State) : Prop :=
  ∀ (i : Nat) (f : RegisterFile), s.files[i]? = some f → ∀ rc, f.failing = some rc → rc = -enomem ∨ rc = -ebusy

variable {b b' : Board} {f f' : RegisterFile} {a : FileAction}

/-- A scan goes past a slot only if it is taken. -/
theorem taken_of_pass {bit : Nat}
    (h : fileStep b (.testAndSet bit) a = some (b', .testAndSet (bit + 1))) :
    ∃ hbit : bit < nEventReaders, b.control.activeReaders ⟨bit, hbit⟩ = true := by
  cases a with
  | proceed =>
    by_cases hbit : bit < nEventReaders
    · rw [fileStep, dif_pos hbit] at h
      refine ⟨hbit, ?_⟩
      cases htaken : b.control.activeReaders ⟨bit, hbit⟩ with
      | true => rfl
      | false => simp [InterruptControl.testAndSetBit, htaken] at h
    · rw [fileStep, dif_neg hbit] at h
      cases h
  | _ => cases h

/-- A scan fails only at the end. -/
theorem beyond_of_noSlot {bit : Nat} {rc : Int}
    (h : fileStep b (.testAndSet bit) a = some (b', .failed rc)) : nEventReaders ≤ bit := by
  cases a with
  | proceed =>
    by_contra hbit
    rw [fileStep, dif_pos (Nat.lt_of_not_le hbit)] at h
    cases htaken : b.control.activeReaders ⟨bit, Nat.lt_of_not_le hbit⟩ <;>
      simp [InterruptControl.testAndSetBit, htaken] at h
  | _ => cases h

/-- A file stays at its place, gives it up, or goes on to the next. -/
theorem FileMove.place (h : FileMove b f a b' f') :
    f'.place = f.place ∨ f'.place = none ∨
      ∃ bit, f = .testAndSet bit ∧ f' = .testAndSet (bit + 1) := by
  cases h with
  | @skip bit => exact .inr (.inr ⟨bit, rfl, rfl⟩)
  | noSlot => exact .inr (.inl rfl)
  | unassign => exact .inr (.inl rfl)
  | releaseUnassign => exact .inr (.inl rfl)
  | releaseKfree => exact .inr (.inl rfl)
  | _ => exact .inl rfl

/-- How a file comes to fail, but for want of a slot. -/
theorem FileMove.failing (h : FileMove b f a b' f') {rc : Int} (hrc : f'.failing = some rc) :
    f.failing = some rc ∨ rc = -enomem ∨ rc = -ebusy ∨
      ∃ bit, f = .testAndSet bit ∧ f' = .failed rc := by
  cases h with
  | noMemory => exact .inr (.inl (Option.some.inj hrc).symm)
  | refuse => exact .inr (.inr (.inl (Option.some.inj hrc).symm))
  | @noSlot bit => exact .inr (.inr (.inr ⟨bit, rfl, congrArg _ (Option.some.inj hrc)⟩))
  | kfree => exact .inl hrc
  | unassign => exact .inl hrc
  | _ => cases hrc

variable {s s' : State} {c : Nat}

theorem crowd_step {action : Action} (hl : Ledgers s) (h : Crowd RegisterFile.place c s.files)
    (hfew : Fewer c s action) (hstep : step s action = some s') :
    Crowd RegisterFile.place c s'.files := by
  cases action with
  | openFile =>
    cases hstep
    exact h.concat rfl hfew
  | eventInterrupt => cases hstep; exact h
  | atomicOr k =>
    simp only [step, Option.bind_eq_some_iff] at hstep
    obtain ⟨call, -, hstep⟩ := hstep
    split at hstep
    · cases hstep; exact h
    · cases hstep
  | file i action =>
    simp only [step, Option.bind_eq_some_iff, Option.map_eq_some_iff] at hstep
    obtain ⟨f, hi, ⟨b, f'⟩, hf, rfl⟩ := hstep
    rcases (fileMove_of_fileStep hf).place with hsame | hgone | ⟨bit, rfl, rfl⟩
    · exact h.set hi (.inl hsame)
    · exact h.set hi (.inr hgone)
    · -- the slot that is passed has a holder, which is not the file that looks
      obtain ⟨hbit, htaken⟩ := taken_of_pass hf
      obtain ⟨k, u, hk, hslot⟩ := (hl.active_iff ⟨bit, hbit⟩).mp htaken
      refine h.pass hi hk ?_ rfl (RegisterFile.place_of_slot hslot) rfl
      rintro rfl
      obtain rfl : u = .testAndSet bit := Option.some.inj (hk.symm.trans hi)
      cases hslot

theorem served_step {action : Action} (h : Served s) (hc : c ≤ nEventReaders)
    (hcrowd : Crowd RegisterFile.place c s.files) (hstep : step s action = some s') :
    Served s' := by
  cases action with
  | openFile =>
    cases hstep
    intro i f hi rc hrc
    rcases getElem?_concat_some hi with ⟨-, rfl⟩ | hold
    · cases hrc
    · exact h i f hold rc hrc
  | eventInterrupt => cases hstep; exact h
  | atomicOr k =>
    simp only [step, Option.bind_eq_some_iff] at hstep
    obtain ⟨call, -, hstep⟩ := hstep
    split at hstep
    · cases hstep; exact h
    · cases hstep
  | file k action =>
    simp only [step, Option.bind_eq_some_iff, Option.map_eq_some_iff] at hstep
    obtain ⟨g, hk, ⟨b, g'⟩, hg, rfl⟩ := hstep
    intro i f hi rc hrc
    rcases getElem?_set_some hi with ⟨-, rfl⟩ | ⟨-, hold⟩
    · rcases (fileMove_of_fileStep hg).failing hrc with hwas | hmem | hbusy | ⟨bit, rfl, rfl⟩
      · exact h k g hk rc hwas
      · exact .inl hmem
      · exact .inr hbusy
      · -- a scan at the end would be one too many
        have hend : bit < c := hcrowd.lt hk rfl
        exact absurd (beyond_of_noSlot hg) (Nat.not_le.mpr (hend.trans_le hc))
    · exact h i f hold rc hrc

/-- **A slot for everyone.** If a file is opened only while fewer than `c` are being opened, open
    or being closed, and `c` is no more than eight, then no open fails with `-EIO`, and only the
    first `c` slots are ever used: whatever the interleaving of the scans with the files that come
    and go. -/
theorem openers_served (hc : c ≤ nEventReaders) {as : List Action}
    (h : Exec step (Fewer c) initial as s) :
    (∀ (i : Nat) (rc : Int), s.files[i]? = some (.failed rc) → rc = -enomem ∨ rc = -ebusy) ∧
      ∀ (i : Nat) (f : RegisterFile) (r : Reader), s.files[i]? = some f → f.slot = some r →
        r.val < c := by
  obtain ⟨-, hcrowd, hserved⟩ :
      Ledgers s ∧ Crowd RegisterFile.place c s.files ∧ Served s := by
    refine h.invariant (I := fun s => Ledgers s ∧ Crowd RegisterFile.place c s.files ∧ Served s)
      ?_ ⟨ledgers_initial, Crowd.nil, fun i f hi => by simp [initial] at hi⟩
    rintro s s' a ⟨hl, hcrowd, hserved⟩ hfew hstep
    exact ⟨hl.move (move_of_step hstep), crowd_step hl hcrowd hfew hstep,
      served_step hserved hc hcrowd hstep⟩
  exact ⟨fun i rc hi => hserved i _ hi rc rfl,
    fun i f r hi hr => hcrowd.lt hi (RegisterFile.place_of_slot hr)⟩

/-- Two clients scan at once, and the one that lost the first slot runs out of memory; a third
    that comes after it is gone finds its slot free again. -/
def scanRun : List Action :=
  [.openFile, .openFile, .file 0 .proceed, .file 1 .proceed, .file 1 .proceed, .file 0 .proceed,
    .file 1 .proceed, .file 1 (.kmalloc none), .file 1 .proceed, .openFile, .file 2 .proceed,
    .file 2 .proceed]

theorem openers_served_scanRun : ∃ s, run step initial scanRun = some s ∧
    s.files[1]?.map RegisterFile.failing = some (some (-enomem)) ∧
    s.files[2]?.map RegisterFile.slot = some (some ⟨1, by decide⟩) ∧
    ∀ (i : Nat) (f : RegisterFile) (r : Reader), s.files[i]? = some f → f.slot = some r →
      r.val < 2 :=
  ⟨_, rfl, rfl, rfl, (@openers_served _ 2 (by decide) scanRun (exec_iff_run_keeping.mpr rfl)).2⟩

end Registers
end AmcPci
