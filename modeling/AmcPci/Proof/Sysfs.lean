import AmcPci.Sysfs
import AmcPci.Lib.Ledger

/-!
# Reads of the PROM files while the board is removed

The private state of a board outlives every read of its PROM files: it is freed after
`sysfs_remove_bin_file` has drained them (`privateState_live`). The PROM context and the mapping
of BAR2 do not: `terminate_board` takes them away while both files are still there, so a read that
starts then, or has not finished, looks at freed memory (`read_freed`). `read_safe` is that it takes
such a read, and `unsafe_of_disturbed` that such a read is all it takes.
-/

namespace AmcPci
namespace Sysfs

open Lib

variable {s s' : State} {a : Action} {r r' : Read}

/-! ## What is there at each step of the removal -/

/-- What is still there at this step of the removal. -/
def Remover.live : Remover → Resource → Bool
  | .pciIounmap, x => x != .promContext
  | .disableBoard, x => x == .privateState
  | .releaseBoard, x => x == .privateState
  | .removePromUsed, x => x == .privateState
  | .removeProm, x => x == .privateState
  | .kfree, x => x == .privateState
  | .done, _ => false
  | _, _ => true

/-- Which files are still there. -/
def Remover.registered : Remover → BinFile → Bool
  | .removeProm, file => file == .prom
  | .kfree, _ => false
  | .done, _ => false
  | _, _ => true

/-- The mapping is taken away after the context. -/
theorem Remover.bar2_live {p : Remover} (h : p.live .promContext = true) :
    p.live .bar2 = true := by
  cases p <;> first | rfl | cases h

/-- The private state is freed after the files are removed. -/
theorem Remover.privateState_live {p : Remover} {file : BinFile}
    (h : p.registered file = true) : p.live .privateState = true := by
  cases p <;> first | rfl | cases h

/-! ## Reads -/

/-- A read that has not looked at the last byte it is to bring. -/
def Read.pending (r : Read) : Bool :=
  match r.pc with
  | .entry => 0 < r.size
  | .copy i => i < r.size
  | .returned _ => false

/-- A step of a read goes on in the same file, and is not the first to ask for bytes. -/
theorem Read.next_spec (h : r.next = some r') : r'.file = r.file ∧ r.running = true ∧
    (r'.pending = true → r.pending = true) := by
  unfold Read.next at h
  split at h
  · rename_i hpc
    have hrunning : r.running = true := by rw [running, hpc]
    split at h
    · cases h
      exact ⟨rfl, hrunning, nofun⟩
    · cases h
      refine ⟨rfl, hrunning, ?_⟩
      rw [pending, pending, hpc]
      exact id
  · rename_i i hpc
    have hrunning : r.running = true := by rw [running, hpc]
    split at h
    · rename_i hlt
      cases h
      refine ⟨rfl, hrunning, fun _ => ?_⟩
      rw [pending, hpc]
      exact decide_eq_true hlt
    · cases h
      exact ⟨rfl, hrunning, nofun⟩
  · cases h

/-- Only what the removal has not taken yet is looked at, by reads that are pending. -/
theorem Read.mem_accesses {x : Resource} (h : x ∈ r.accesses) :
    (x = .privateState ∧ r.running = true) ∨
      ((x = .promContext ∨ x = .bar2) ∧ r.pending = true) := by
  unfold accesses at h
  split at h
  · rename_i hpc
    have hrunning : r.running = true := by rw [running, hpc]
    refine .inl ⟨?_, hrunning⟩
    split at h
    · split at h
      · cases h
      · exact List.mem_singleton.mp h
    · exact List.mem_singleton.mp h
  · rename_i i hpc
    split at h
    · rename_i hlt
      have hpending : r.pending = true := by
        rw [pending, hpc]
        exact decide_eq_true hlt
      refine .inr ⟨?_, hpending⟩
      split at h
      · exact .inl (List.mem_singleton.mp h)
      · simpa using h
    · cases h
  · cases h

/-! ## The removal -/

/-- The resources and the files are there as the removal has left them, and a running read is of a
    file that is. -/
structure Draining (s : State) : Prop where
  live : ∀ x, s.live x = s.remover.live x
  registered : ∀ file, s.registered file = s.remover.registered file
  running : ∀ r ∈ s.reads, r.running = true → s.registered r.file = true

theorem draining_initial : Draining initial := ⟨fun _ => rfl, fun _ => rfl, nofun⟩

theorem removeBinFile_some {file : BinFile} {p : Remover} (h : removeBinFile s file p = some s') :
    s' = { s with remover := p, registered := Function.update s.registered file false } ∧
      ∀ r ∈ s.reads, r.running = true → r.file ≠ file := by
  unfold removeBinFile at h
  split at h
  · cases h
  · rename_i hdrained
    refine ⟨(Option.some.inj h).symm, fun r hr hrunning hfile => hdrained ?_⟩
    rw [List.any_eq_true]
    exact ⟨r, hr, by simp [hfile, hrunning]⟩

theorem Draining.remove (h : Draining s) (hstep : removeStep s = some s') :
    Draining s' ∧ s'.reads = s.reads := by
  obtain ⟨p, live, registered, reads⟩ := s
  obtain ⟨hlive, hregistered, hrunning⟩ := h
  have hlive' : live = p.live := funext hlive
  have hregistered' : registered = p.registered := funext hregistered
  subst hlive' hregistered'
  cases p with
  | removePromUsed =>
    obtain ⟨rfl, hdrained⟩ := removeBinFile_some hstep
    refine ⟨⟨hlive, ?_, ?_⟩, rfl⟩
    · intro file
      cases file <;> rfl
    · intro r hr hrun
      simp only [Function.update_of_ne (hdrained r hr hrun)]
      exact hrunning r hr hrun
  | removeProm =>
    obtain ⟨rfl, hdrained⟩ := removeBinFile_some hstep
    refine ⟨⟨hlive, ?_, ?_⟩, rfl⟩
    · intro file
      cases file <;> rfl
    · intro r hr hrun
      simp only [Function.update_of_ne (hdrained r hr hrun)]
      exact hrunning r hr hrun
  | done => cases hstep
  | _ =>
    cases hstep
    refine ⟨⟨?_, fun _ => rfl, hrunning⟩, rfl⟩
    intro x
    cases x <;> rfl

theorem draining_step (h : Draining s) (hstep : step s a = some s') : Draining s' := by
  cases a with
  | start file off count =>
    simp only [step] at hstep
    split at hstep
    · rename_i hregistered
      cases hstep
      refine ⟨h.live, h.registered, fun r hr hrunning => ?_⟩
      rcases List.mem_append.mp hr with hr | hr
      · exact h.running r hr hrunning
      · cases List.mem_singleton.mp hr
        exact hregistered
    · cases hstep
  | read i =>
    simp only [step, Option.bind_eq_some_iff, Option.map_eq_some_iff] at hstep
    obtain ⟨r, hi, r', hnext, rfl⟩ := hstep
    obtain ⟨hfile, hrunning, -⟩ := Read.next_spec hnext
    refine ⟨h.live, h.registered, fun q hq hq' => ?_⟩
    rcases List.mem_or_eq_of_mem_set hq with hold | rfl
    · exact h.running q hold hq'
    · rw [hfile]
      exact h.running r (List.mem_of_getElem? hi) hrunning
  | remove => exact (h.remove hstep).1

theorem draining_run {as : List Action} (h : Exec step Always initial as s) : Draining s :=
  h.invariant (fun hs _ hstep => draining_step hs hstep) draining_initial

/-- **The private state outlives the reads**, whatever interleaves. -/
theorem privateState_live {as : List Action} (h : Exec step Always initial as s) (hr : r ∈ s.reads)
    (hx : .privateState ∈ r.accesses) : s.live .privateState = true := by
  have hdraining := draining_run h
  rcases Read.mem_accesses hx with ⟨-, hrunning⟩ | ⟨hother, -⟩
  · rw [hdraining.live]
    have hregistered := hdraining.running r hr hrunning
    rw [hdraining.registered] at hregistered
    exact Remover.privateState_live hregistered
  · rcases hother with hother | hother <;> cases hother

/-! ## The PROM and BAR2 -/

/-- No read that is to bring a byte starts after `release_prom_context`, and none is left over
    when `amc_pci_remove` comes to it. -/
def Undisturbed (s : State) : Action → Prop
  | .start file off count =>
    s.live .promContext = false → (⟨file, off, count, .entry⟩ : Read).pending = false
  | .remove => s.remover = .releasePromContext → ∀ r ∈ s.reads, r.pending = false
  | .read _ => True

/-- A pending read has the context to look at. -/
def Backed (s : State) : Prop := ∀ r ∈ s.reads, r.pending = true → s.live .promContext = true

theorem backed_step (hdraining : Draining s) (h : Backed s) (hok : Undisturbed s a)
    (hstep : step s a = some s') : Backed s' := by
  cases a with
  | start file off count =>
    simp only [step] at hstep
    split at hstep
    · cases hstep
      intro r hr hpending
      rcases List.mem_append.mp hr with hr | hr
      · exact h r hr hpending
      · rw [List.mem_singleton.mp hr] at hpending
        by_contra hfreed
        rw [hok (by simpa using hfreed)] at hpending
        cases hpending
    · cases hstep
  | read i =>
    simp only [step, Option.bind_eq_some_iff, Option.map_eq_some_iff] at hstep
    obtain ⟨r, hi, r', hnext, rfl⟩ := hstep
    obtain ⟨-, -, hmore⟩ := Read.next_spec hnext
    intro q hq hpending
    rcases List.mem_or_eq_of_mem_set hq with hold | rfl
    · exact h q hold hpending
    · exact h r (List.mem_of_getElem? hi) (hmore hpending)
  | remove =>
    intro r hr hpending
    obtain ⟨hdraining', hreads⟩ := hdraining.remove hstep
    rw [hreads] at hr
    have hlive := h r hr hpending
    by_cases hrelease : s.remover = .releasePromContext
    · rw [hok hrelease r hr] at hpending
      cases hpending
    · rw [hdraining.live] at hlive
      rw [hdraining'.live]
      obtain ⟨p, live, registered, reads⟩ := s
      cases p with
      | releasePromContext => exact absurd rfl hrelease
      | removePromUsed => cases hlive
      | removeProm => cases hlive
      | done => cases hstep
      | _ => cases hstep; first | rfl | cases hlive

/-- Both halves hold in every state of such a run. -/
theorem safe_run {as : List Action} (h : Exec step Undisturbed initial as s) :
    Draining s ∧ Backed s :=
  Exec.invariant (I := fun s => Draining s ∧ Backed s)
    (fun hs hok hstep => ⟨draining_step hs.1 hstep, backed_step hs.1 hs.2 hok hstep⟩) h
    ⟨draining_initial, nofun⟩

/-- **No read looks at what is gone**, in a run that leaves the removal undisturbed. -/
theorem read_safe {as : List Action} (h : Exec step Undisturbed initial as s) (hr : r ∈ s.reads)
    {x : Resource} (hx : x ∈ r.accesses) : s.live x = true := by
  have hinv : Draining s ∧ Backed s := safe_run h
  rcases Read.mem_accesses hx with ⟨rfl, -⟩ | ⟨hx', hpending⟩
  · exact privateState_live h.always hr hx
  · have hcontext := hinv.2 r hr hpending
    rcases hx' with rfl | rfl
    · exact hcontext
    · rw [hinv.1.live] at hcontext ⊢
      exact Remover.bar2_live hcontext

/-- A read of `prom` is over before the context goes, and one of `prom_used` that starts with both
    the context and the mapping gone asks for nothing. -/
theorem read_safe_calm : ∃ s r, run step initial [.start .prom 4092 4, .remove, .read 0, .remove,
      .remove, .read 0, .remove, .remove, .remove, .start .promUsed 4096 8] = some s ∧
    s.reads[1]? = some r ∧ s.live .promContext = false ∧ .privateState ∈ r.accesses ∧
    s.live .privateState = true := by
  refine ⟨_, _, rfl, rfl, rfl, List.mem_singleton.mpr rfl, ?_⟩
  have hrun : Exec step Undisturbed initial [.start .prom 4092 4, .remove, .read 0, .remove,
      .remove, .read 0, .remove, .remove, .remove, .start .promUsed 4096 8] _ :=
    .cons nofun rfl (.cons nofun rfl (.cons trivial rfl (.cons nofun rfl (.cons nofun rfl
      (.cons trivial rfl (.cons nofun rfl
        (.cons (fun _ r hr => by cases List.mem_singleton.mp hr; decide) rfl (.cons nofun rfl
          (.cons (fun _ => by decide) rfl (.nil _))))))))))
  exact read_safe hrun (r := ⟨.promUsed, 4096, 8, .entry⟩) (List.mem_of_getElem? (i := 1) rfl)
    (List.mem_singleton.mpr rfl)

/-- A read of `prom_used` starts after `release_prom_context`, the file still being there, and
    comes to its copy. -/
theorem read_freed : ∃ s r, run step initial [.remove, .remove, .remove, .remove, .remove,
      .start .promUsed 0 1, .read 0] = some s ∧
    s.reads[0]? = some r ∧ .promContext ∈ r.accesses ∧ s.live .promContext = false :=
  ⟨_, _, rfl, rfl, List.mem_singleton.mpr rfl, rfl⟩

/-! ## Reads that disturb it -/

theorem Read.off_le_of_size (h : 0 < r.size) : ¬ r.off > promMaxLength := by
  unfold size at h
  split at h
  · omega
  · simp only [promMaxLength] at h ⊢
    omega

theorem Read.accesses_copy {i : Nat} (hpc : r.pc = .copy i) (h : i < r.size) :
    .promContext ∈ r.accesses := by
  simp only [accesses, hpc, if_pos h]
  split <;> simp

/-- A read that is pending looks at the context now, or after one step. -/
theorem freed_of_pending {i : Nat} (hi : s.reads[i]? = some r) (hpending : r.pending = true) :
    ∃ bs s'', Exec step Always s bs s'' ∧ s''.live = s.live ∧
      ∃ r' ∈ s''.reads, .promContext ∈ r'.accesses := by
  unfold Read.pending at hpending
  split at hpending
  · rename_i hpc
    have hsize : 0 < r.size := of_decide_eq_true hpending
    have hnext : r.next = some (r.goto (.copy 0)) := by
      rw [Read.next, hpc]
      exact if_neg (Read.off_le_of_size hsize)
    have hlt := (List.getElem?_eq_some_iff.mp hi).1
    refine ⟨[.read i], { s with reads := s.reads.set i (r.goto (.copy 0)) }, ?_, rfl,
      r.goto (.copy 0), List.mem_set hlt _, Read.accesses_copy rfl hsize⟩
    refine .cons trivial ?_ (.nil _)
    simp only [step, hi, hnext, Option.bind_some, Option.map_some]
  · rename_i j hpc
    exact ⟨[], s, .nil s, rfl, r, List.mem_of_getElem? hi,
      Read.accesses_copy hpc (of_decide_eq_true hpending)⟩
  · cases hpending

/-- **Nothing less will do**: a step that is not undisturbed leaves a read that comes to look at
    the context after it is freed. -/
theorem unsafe_of_disturbed (hdisturbed : ¬ Undisturbed s a) (hstep : step s a = some s') :
    ∃ bs s'', Exec step Always s' bs s'' ∧
      ∃ r ∈ s''.reads, .promContext ∈ r.accesses ∧ s''.live .promContext = false := by
  have hreads : ∃ (i : Nat) (r : Read), s'.reads[i]? = some r ∧ r.pending = true ∧
      s'.live .promContext = false := by
    cases a with
    | start file off count =>
      simp only [Undisturbed, Classical.not_imp, Bool.not_eq_false] at hdisturbed
      obtain ⟨hfreed, hpending⟩ := hdisturbed
      simp only [step] at hstep
      split at hstep
      · cases hstep
        exact ⟨s.reads.length, _, List.getElem?_concat_length .., hpending, hfreed⟩
      · cases hstep
    | read i => exact absurd trivial hdisturbed
    | remove =>
      simp only [Undisturbed, Classical.not_imp, not_forall, Bool.not_eq_false] at hdisturbed
      obtain ⟨hrelease, r, hr, hpending⟩ := hdisturbed
      simp only [step, removeStep, hrelease] at hstep
      cases hstep
      obtain ⟨i, hi⟩ := List.mem_iff_getElem?.mp hr
      refine ⟨i, r, hi, hpending, ?_⟩
      show Function.update s.live .promContext false .promContext = false
      rw [Function.update_self]
  obtain ⟨i, r, hi, hpending, hfreed⟩ := hreads
  obtain ⟨bs, s'', hrun, hlive, r', hr', haccess⟩ := freed_of_pending hi hpending
  exact ⟨bs, s'', hrun, r', hr', haccess, by rw [hlive, hfreed]⟩

end Sysfs
end AmcPci
