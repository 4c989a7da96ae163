import AmcPci.Proof.Registers.Ledgers

/-!
# The exclusive register lock

`locked_by` is a bare pointer and `reference_count` a bare number; nothing in the code ties the
two together. `OwnerAlone` does: an owner is an open handle, and the count is one. Opening is
refused while there is an owner and locking while there is company, so neither can break it, and
a release by the owner takes the pointer down before the context goes.
-/

namespace AmcPci
namespace Registers

open Lib

/-- Handle `i` of the board is open. -/
def IsOpen (s : State) (i : Nat) (h : Handle) : Prop := s.files[i]? = some (.live h)

/-- Whoever owns the lock is open, and the only one counted. -/
def OwnerAlone (s : State) : Prop :=
  ∀ p, s.board.locking.lockedBy = some p →
    s.board.locking.referenceCount.toNat = 1 ∧ ∃ i h, IsOpen s i h ∧ h.context = p

variable {s s' : State} {b : Board} {f f' : RegisterFile} {i : Nat}

/-- Of two handles open at a time at which one of them owns the lock, both are the same. -/
theorem OwnerAlone.unique (h : OwnerAlone s) (hl : Ledgers s) {p j : Nat} {g h' : Handle}
    (hp : s.board.locking.lockedBy = some p) (hi : IsOpen s i g) (hj : IsOpen s j h') : i = j := by
  obtain ⟨hone, -⟩ := h p hp
  by_contra hij
  have := hl.two_live hi hj rfl rfl hij
  omega

/-- A move that leaves the lock alone, and leaves an open handle open, changes nothing. -/
theorem OwnerAlone.keep (h : OwnerAlone s) (hi : s.files[i]? = some f)
    (hlock : b.locking = s.board.locking)
    (hlive : ∀ g, f = .live g → ∃ g', f' = .live g' ∧ g'.context = g.context) :
    OwnerAlone { s with board := b, files := s.files.set i f' } := by
  intro p hp
  rw [show State.board _ = b from rfl, hlock] at hp
  obtain ⟨hone, j, g, hj, hg⟩ := h p hp
  refine ⟨by rw [show State.board _ = b from rfl, hlock]; exact hone, ?_⟩
  by_cases hij : i = j
  · subst hij
    obtain ⟨g', hf', hg'⟩ := hlive g (Option.some.inj (hi.symm.trans hj))
    exact ⟨i, g', (getElem?_set_of_some hi).trans (congrArg some hf'), hg'.trans hg⟩
  · exact ⟨j, g, (List.getElem?_set_ne hij).trans hj, hg⟩

theorem ownerAlone_initial : OwnerAlone initial := by
  intro p hp
  cases hp

theorem OwnerAlone.move {a : Action} (h : OwnerAlone s) (hl : Ledgers s) (hmove : Move s a s') :
    OwnerAlone s' := by
  cases hmove with
  | openFile =>
    intro p hp
    obtain ⟨hone, j, g, hj, hg⟩ := h p hp
    have hlt : j < s.files.length := (List.getElem?_eq_some_iff.mp hj).1
    exact ⟨hone, j, g, (List.getElem?_append_left hlt).trans hj, hg⟩
  | eventInterrupt => exact h
  | atomicOr => exact h
  | @file i _ f f' b hi hmove =>
    cases hmove with
    | count => intro p hp; cases hp
    | unlock => intro p hp; cases hp
    | @lock g rc _ halone =>
      -- the one that locks is open, so the count it saw was one
      intro p hp
      have hpos : 1 ≤ s.board.locking.referenceCount.toNat := hl.count.le hi
      exact ⟨Nat.le_antisymm halone hpos, i, { g with rc }, getElem?_set_of_some hi,
        Option.some.inj hp⟩
    | @release g =>
      -- an owner other than the one released would make two
      intro p hp
      simp only [countOut] at hp
      split at hp
      · cases hp
      · rename_i hother
        obtain ⟨-, j, g', hj, hg'⟩ := h p hp
        have hij := h.unique hl hp hi hj
        subst hij
        obtain rfl : g = g' := by simpa [IsOpen, hi] using hj
        exact absurd (hg' ▸ hp) hother
    | answer => exact h.keep hi rfl fun g hg => ⟨_, rfl, by cases hg; rfl⟩
    | read => exact h.keep hi rfl fun g hg => ⟨_, rfl, by cases hg; rfl⟩
    | _ => exact h.keep hi rfl fun g hg => by cases hg

theorem ownerAlone_run {ok : State → Action → Prop} {as : List Action}
    (h : Exec step ok initial as s) : OwnerAlone s := by
  have hboth : Ledgers s ∧ OwnerAlone s :=
    h.invariant (I := fun s => Ledgers s ∧ OwnerAlone s)
      (fun hinv _ hstep => ⟨hinv.1.move (move_of_step hstep), hinv.2.move hinv.1
        (move_of_step hstep)⟩) ⟨ledgers_initial, ownerAlone_initial⟩
  exact hboth.2

/-! ## Who can change the owner -/

/-- A handle that is open after a step was open before, or found the lock free. -/
theorem Move.open_of_open {a : Action} (hmove : Move s a s') {j : Nat} {g : Handle}
    (hj : IsOpen s' j g) : (∃ h, IsOpen s j h) ∨ s.board.locking.lockedBy = none := by
  cases hmove with
  | openFile =>
    rcases getElem?_concat_some hj with ⟨-, hnew⟩ | hold
    · cases hnew
    · exact .inl ⟨g, hold⟩
  | eventInterrupt => exact .inl ⟨g, hj⟩
  | atomicOr => exact .inl ⟨g, hj⟩
  | @file i _ f f' b hi hmove =>
    rcases getElem?_set_some hj with ⟨rfl, hg⟩ | ⟨-, hold⟩
    · cases hmove with
      | count hfree => exact .inr hfree
      | answer => exact .inl ⟨_, hi⟩
      | lock => exact .inl ⟨_, hi⟩
      | unlock => exact .inl ⟨_, hi⟩
      | read => exact .inl ⟨_, hi⟩
      | _ => cases hg
    · exact .inl ⟨g, hold⟩

/-- An owner stays the owner until it unlocks or is released itself. -/
theorem Move.owner_stays {a : Action} (hmove : Move s a s') {p : Nat}
    (hp : s.board.locking.lockedBy = some p) :
    s'.board.locking.lockedBy = some p ∨ s'.board.locking.lockedBy = none ∧
      ∃ i h, IsOpen s i h ∧ h.context = p ∧ (a = .file i .unlock ∨ a = .file i .release) := by
  cases hmove with
  | openFile => exact .inl hp
  | eventInterrupt => exact .inl hp
  | atomicOr => exact .inl hp
  | @file i _ f f' b hi hmove =>
    cases hmove with
    | count hfree => exact absurd (hp.symm.trans hfree) (by simp)
    | lock hfree => exact absurd (hp.symm.trans hfree) (by simp)
    | @unlock g rc howner =>
      exact .inr ⟨rfl, i, g, hi, Option.some.inj (howner.symm.trans hp), .inl rfl⟩
    | @release g =>
      by_cases howner : s.board.locking.lockedBy = some g.context
      · exact .inr ⟨if_pos howner, i, g, hi, Option.some.inj (howner.symm.trans hp), .inr rfl⟩
      · exact .inl ((if_neg howner).trans hp)
    | _ => exact .inl hp

theorem step_release {g : Handle} (hi : IsOpen s i g)
    (hstep : step s (.file i .release) = some s') :
    s'.board.locking = countOut s.board.locking g.context := by
  rw [IsOpen] at hi
  simp only [step, hi, Option.bind_some, fileStep] at hstep
  split at hstep
  · cases hstep
    rfl
  · cases hstep

/-- **The register lock.** In every reachable state the count is the number of open handles, and
    whoever owns the lock is the only open handle. So no two handles own it, none is opened while
    another owns it, only its owner gives it up, and when the owner is released it is free. -/
theorem registerLock_exclusive {as : List Action} (h : Exec step Always initial as s) :
    s.board.locking.referenceCount.toNat = s.files.countP RegisterFile.isLive ∧
    (∀ p, s.board.locking.lockedBy = some p → s.board.heap p = true ∧
      ∃ i g, IsOpen s i g ∧ g.context = p ∧ ∀ j g', IsOpen s j g' → j = i) ∧
    (∀ i j g g', IsOpen s i g → IsOpen s j g' → s.board.locking.lockedBy = some g.context →
      s.board.locking.lockedBy = some g'.context → i = j) ∧
    ∀ a s', step s a = some s' →
      (∀ i g, IsOpen s' i g → (∃ h, IsOpen s i h) ∨ s.board.locking.lockedBy = none) ∧
      (∀ p, s.board.locking.lockedBy = some p → s'.board.locking.lockedBy ≠ some p →
        ∃ i g, IsOpen s i g ∧ g.context = p ∧ (a = .file i .unlock ∨ a = .file i .release)) ∧
      (∀ i g, IsOpen s i g → s.board.locking.lockedBy = some g.context →
        a = .file i .release → s'.board.locking.lockedBy = none) := by
  have hl := ledgers_run h
  have ho := ownerAlone_run h
  refine ⟨?_, ?_, ?_, ?_⟩
  · rw [← sum_map_toNat]
    exact hl.count.symm
  · intro p hp
    obtain ⟨-, i, g, hi, hg⟩ := ho p hp
    exact ⟨hl.context_allocated hi (congrArg some hg), i, g, hi, hg,
      fun j g' hj => ho.unique hl hp hj hi⟩
  · intro i j g g' hi hj hp _
    exact ho.unique hl hp hi hj
  · intro a s' hstep
    have hmove := move_of_step hstep
    refine ⟨fun i g hi => hmove.open_of_open hi, ?_, ?_⟩
    · intro p hp hp'
      rcases hmove.owner_stays hp with hsame | ⟨-, howner⟩
      · exact absurd hsame hp'
      · exact howner
    · rintro i g hi hp rfl
      rw [step_release hi hstep, countOut, if_pos hp]

/-- One client opens and locks, and a second is turned away. -/
def lockRun : List Action :=
  [.openFile, .file 0 .proceed, .file 0 .proceed, .file 0 (.kmalloc (some 100)), .file 0 .proceed,
    .file 0 .lock, .openFile, .file 1 .proceed, .file 1 .proceed, .file 1 .proceed,
    .file 1 (.kmalloc (some 200)), .file 1 .proceed, .file 1 .proceed, .file 1 .proceed]

theorem registerLock_exclusive_lockRun : ∃ s, run step initial lockRun = some s ∧
    s.board.locking.lockedBy = some 100 ∧ s.files[1]?.map RegisterFile.isLive = some false ∧
    s.board.locking.referenceCount.toNat = s.files.countP RegisterFile.isLive :=
  ⟨_, rfl, rfl, rfl, (@registerLock_exclusive _ lockRun (exec_iff_run.mpr rfl)).1⟩

end Registers
end AmcPci
