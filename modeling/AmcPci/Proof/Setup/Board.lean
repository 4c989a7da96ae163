import AmcPci.Setup
import AmcPci.Proof.Probe

/-!
# What setting a board up takes, and what is left of it

Every chain of labels but one unwinds in the reverse order of what it took. The exception is the
jump of `initialise_board` to `no_dma`, which stands below the release of the PROM context: if the
DMA engine cannot be initialised the context is leaked (`promContext_leaked`). `settles_iff` is that
this is all that can go wrong.
-/

namespace AmcPci
namespace Setup

open Lib
open Probe (Pointer)

variable {k : Kernel} {log : Log} {mask shift : UInt8} {prom : PromContext}

/-! ## The DMA engine -/

/-- What the engine takes, in the order in which it is taken. -/
def dmaResources : List Resource := [.dmaControl, .dmaPages, .dmaMapping]

/-- All that `initialise_dma_control` asks for is granted. -/
structure DmaGranted (k : Kernel) (mask : UInt8) : Prop where
  blockShift : pageShift ≤ k.dmaBlockShift
  mask : 0 ≤ k.dmaSetMask (dmaBitMask k mask)
  memory : k.kmallocDma = .valid
  pages : k.getFreePages (k.dmaBlockShift - pageShift).toNat = .valid
  mapping : k.dmaMappingError = false
  reset : DmaCall.pollReset k.resetting k.resetStat &&& DmaCall.cdmacrReset = 0

/-- The controller it then sets up. -/
def dmaControlFor (k : Kernel) (shift : UInt8) : DmaControl :=
  ⟨shiftOne k shift, maxTransferFor (bufferSize k) (shiftOne k shift), bufferSize k,
    k.dmaMapSingle⟩

/-- How `initialise_dma_control` ends: it has taken everything, or given back what it took. -/
inductive DmaOutcome (k : Kernel) (mask shift : UInt8) (log : Log) :
    Except Int DmaControl × Log → Prop
  | granted {log' : Log} (h : DmaGranted k mask) (hlog : log' = log ++ dmaResources.map .acquire) :
    DmaOutcome k mask shift log (.ok (dmaControlFor k shift), log')
  | refused {rc : Int} {log' : Log} (h : ¬ DmaGranted k mask) (hrc : rc < 0) (n : Nat)
    (hlog : log' = log ++ bracket (dmaResources.take n)) :
    DmaOutcome k mask shift log (.error rc, log')

theorem resetDmaController_neg_iff : resetDmaController k < 0 ↔
    DmaCall.pollReset k.resetting k.resetStat &&& DmaCall.cdmacrReset ≠ 0 := by
  unfold resetDmaController
  split
  · rename_i h
    exact iff_of_true (by decide) h
  · rename_i h
    exact iff_of_false (by decide) h

theorem valid_of_rc {p : Pointer} (h : ¬ p.rc < 0) : p = .valid :=
  not_not.mp fun hp => h (Probe.Pointer.rc_neg_iff.mpr hp)

theorem initialiseDmaControl_outcome (k : Kernel) (mask shift : UInt8) (log : Log) :
    DmaOutcome k mask shift log (initialiseDmaControl k mask shift log) := by
  unfold initialiseDmaControl
  split
  · rename_i hblock
    exact .refused (fun h => absurd h.blockShift (Int.not_le.mpr hblock)) (by decide) 0
      (List.append_nil _).symm
  · rename_i hblock
    split
    · rename_i hmask
      exact .refused (fun h => absurd h.mask (Int.not_le.mpr hmask)) hmask 0
        (List.append_nil _).symm
    · rename_i hmask
      split
      · rename_i hmemory
        exact .refused (fun h => Probe.Pointer.rc_neg_iff.mp hmemory h.memory) hmemory 0
          (List.append_nil _).symm
      · rename_i hmemory
        simp only
        split
        · rename_i hpages
          exact .refused (fun h => Probe.Pointer.rc_neg_iff.mp hpages h.pages) hpages 1
            (List.append_assoc ..)
        · rename_i hpages
          split
          · rename_i hmapping
            refine .refused (fun h => ?_) (by decide) 2 ?_
            · rw [h.mapping] at hmapping
              cases hmapping
            · simp [acquire, release, DmaLabel.noDmaMap, DmaLabel.noBuffer, bracket, dmaResources]
          · rename_i hmapping
            split
            · rename_i hreset
              refine .refused (fun h => resetDmaController_neg_iff.mp hreset h.reset) hreset 3 ?_
              simp [acquire, release, DmaLabel.resetError, DmaLabel.noDmaMap, DmaLabel.noBuffer,
                bracket, dmaResources]
            · rename_i hreset
              refine .granted ⟨Int.not_lt.mp hblock, Int.not_lt.mp hmask, valid_of_rc hmemory,
                valid_of_rc hpages, Bool.eq_false_of_not_eq_true hmapping,
                not_not.mp fun h => hreset (resetDmaController_neg_iff.mpr h)⟩ ?_
              simp [acquire, dmaResources]

/-! ## The interrupts -/

/-- What the interrupts take, in that order. -/
def interruptResources : List Resource := [.interruptControl, .irq]

/-- All is taken, or nothing stays. -/
inductive InterruptOutcome (log : Log) : Except Int Unit × Log → Prop
  | granted {log' : Log} (hlog : log' = log ++ interruptResources.map .acquire) :
    InterruptOutcome log (.ok (), log')
  | refused {rc : Int} {log' : Log} (hrc : rc < 0) (n : Nat)
    (hlog : log' = log ++ bracket (interruptResources.take n)) :
    InterruptOutcome log (.error rc, log')

theorem initialiseInterruptControl_outcome (k : Kernel) (log : Log) :
    InterruptOutcome log (initialiseInterruptControl k log) := by
  unfold initialiseInterruptControl
  split
  · rename_i hmemory
    exact .refused hmemory 0 (List.append_nil _).symm
  · simp only
    split
    · rename_i hirq
      exact .refused hirq 1 (List.append_assoc ..)
    · exact .granted (List.append_assoc ..)

/-! ## The board -/

/-- What a board holds while it is up. -/
def boardResources (prom : PromContext) : List Resource :=
  [Resource.bar2, .promContext] ++ (if prom.dmaNentries ≠ 0 then dmaResources else []) ++
    interruptResources

/-- Whether it fails or not, initialising a board leaves nothing over: what has failed has given
    back what it took, and what has not gives it back in `terminate_board`. -/
def Settles (k : Kernel) : Prop :=
  match initialiseBoard k with
  | (.error _, log) => Settled log
  | (.ok b, log) => Held (boardResources b.prom) log ∧ Settled (terminateBoard b log)

/-- The PROM asks for a DMA engine, which cannot be initialised. -/
structure DmaRefused (k : Kernel) (prom : PromContext) : Prop where
  bar2 : Probe.bar2Length ≤ k.pciResourceLen
  iomap : k.pciIomap = .valid
  loaded : loadProm k.defaultProm k.beyond k.kzallocProm k.prom = .ok prom
  minors : prom.nentries ≤ Probe.maxMinorsPerBoard
  needed : prom.dmaNentries ≠ 0
  refused : ¬ DmaGranted k (Probe.dmaGeometry prom).1

theorem nodup_boardResources (prom : PromContext) : (boardResources prom).Nodup := by
  unfold boardResources
  split <;> decide

/-- What is known of a board that is up. -/
structure BoardUp (k : Kernel) (b : Board) : Prop where
  loaded : loadProm k.defaultProm k.beyond k.kzallocProm k.prom = .ok b.prom
  minors : b.prom.nentries ≤ Probe.maxMinorsPerBoard
  dma : b.prom.dmaNentries ≠ 0 → ∃ dma log log', b.dma = some dma ∧
    initialiseDmaControl k (Probe.dmaGeometry b.prom).1 (Probe.dmaGeometry b.prom).2 log
      = (.ok dma, log')

/-- How `initialise_board` ends. -/
inductive BoardOutcome (k : Kernel) : Except Int Board × Log → Prop
  | up {b : Board} {log : Log} (hup : BoardUp k b) (hno : ∀ prom, ¬ DmaRefused k prom)
    (hlog : log = (boardResources b.prom).map .acquire) : BoardOutcome k (.ok b, log)
  | down {rc : Int} {log : Log} (rs : List Resource) (hno : ∀ prom, ¬ DmaRefused k prom)
    (hrc : rc < 0) (hnodup : rs.Nodup) (hlog : log = bracket rs) : BoardOutcome k (.error rc, log)
  | leaked {prom : PromContext} {rc : Int} {log : Log} (h : DmaRefused k prom) (hrc : rc < 0)
    (n : Nat) (hlog : log = [.acquire .bar2, .acquire .promContext]
      ++ bracket (dmaResources.take n) ++ [.release .bar2]) : BoardOutcome k (.error rc, log)

/-- What is held when the interrupts are about to be initialised. -/
def heldBefore (prom : PromContext) : List Resource :=
  [.bar2, .promContext] ++ if prom.dmaNentries ≠ 0 then dmaResources else []

/-- The last stretch of `initialise_board`, which unwinds all of it. -/
theorem interrupts_outcome {dma : Option DmaControl} (hup : BoardUp k ⟨prom, dma⟩)
    (hno : ∀ prom, ¬ DmaRefused k prom) (hlog : log = (heldBefore prom).map .acquire) :
    BoardOutcome k (match initialiseInterruptControl k log with
      | (.error rc, log) => (.error rc, BoardLabel.noIrq prom log)
      | (.ok _, log) => (.ok ⟨prom, dma⟩, log)) := by
  have hcases := initialiseInterruptControl_outcome k log
  generalize initialiseInterruptControl k log = out at hcases ⊢
  cases hcases with
  | granted hlog' =>
    refine .up hup hno ?_
    rw [hlog', hlog, boardResources, List.map_append]
    rfl
  | refused hrc n hlog' =>
    refine .down (heldBefore prom ++ interruptResources.take n) hno hrc ?_ ?_
    · exact (nodup_boardResources prom).sublist
        ((List.take_sublist n interruptResources).append_left (heldBefore prom))
    · rw [hlog', hlog, heldBefore]
      by_cases hneeded : prom.dmaNentries ≠ 0
      · simp [BoardLabel.noIrq, BoardLabel.noMinor, BoardLabel.noDma, BoardLabel.promError,
          terminateDmaControl, release, bracket, dmaResources, hneeded]
      · simp [BoardLabel.noIrq, BoardLabel.noMinor, BoardLabel.noDma, BoardLabel.promError,
          release, bracket, hneeded]

theorem initialiseBoard_outcome (k : Kernel) : BoardOutcome k (initialiseBoard k) := by
  unfold initialiseBoard
  split
  · rename_i hbar2
    exact .down [] (fun _ h => absurd h.bar2 (Int.not_le.mpr hbar2)) (by decide) .nil rfl
  · rename_i hbar2
    split
    · rename_i hiomap
      exact .down [] (fun _ h => Probe.Pointer.rc_neg_iff.mp hiomap h.iomap) hiomap .nil rfl
    · rename_i hiomap
      unfold loadPromContext
      cases hload : loadProm k.defaultProm k.beyond k.kzallocProm k.prom with
      | error rc =>
        have hno : ∀ prom, ¬ DmaRefused k prom := fun prom h => by
          have hloaded := h.loaded
          rw [hload] at hloaded
          cases hloaded
        cases k.kzallocProm with
        | true => exact .down [.bar2, .promContext] hno (loadProm_error_neg hload) (by decide) rfl
        | false => exact .down [.bar2] hno (loadProm_error_neg hload) (by decide) rfl
      | ok prom =>
        have huniq : ∀ {prom'}, DmaRefused k prom' → prom' = prom :=
          fun h => Except.ok.inj (h.loaded.symm.trans hload)
        simp only
        split
        · rename_i hminors
          refine .down [.bar2, .promContext] (fun prom' h => ?_) (by decide) (by decide) rfl
          have hle := huniq h ▸ h.minors
          omega
        · rename_i hminors
          unfold dmaControl
          by_cases hneeded : prom.dmaNentries ≠ 0
          · rw [if_pos hneeded]
            have hcases := initialiseDmaControl_outcome k (Probe.dmaGeometry prom).1
              (Probe.dmaGeometry prom).2 (acquire (acquire [] .bar2) .promContext)
            generalize hout : initialiseDmaControl k (Probe.dmaGeometry prom).1
              (Probe.dmaGeometry prom).2 (acquire (acquire [] .bar2) .promContext) = out at hcases ⊢
            cases hcases with
            | granted h hlog =>
              refine interrupts_outcome ⟨hload, Nat.le_of_not_gt hminors,
                fun _ => ⟨_, _, _, rfl, hout⟩⟩ (fun prom' h' => ?_) ?_
              · exact h'.refused (huniq h' ▸ h)
              · rw [hlog, heldBefore, if_pos hneeded]
                rfl
            | refused h hrc n hlog =>
              refine .leaked ⟨Int.not_lt.mp hbar2, valid_of_rc hiomap, hload,
                Nat.le_of_not_gt hminors, hneeded, h⟩ hrc n ?_
              rw [hlog]
              rfl
          · rw [if_neg hneeded]
            refine interrupts_outcome ⟨hload, Nat.le_of_not_gt hminors,
              fun hneeded' => absurd hneeded' hneeded⟩ (fun prom' h' => ?_) ?_
            · exact hneeded (huniq h' ▸ h'.needed)
            · rw [heldBefore, if_neg hneeded]
              rfl

theorem initialiseBoard_ok {b : Board} (h : (initialiseBoard k).1 = .ok b) : BoardUp k b := by
  have hcases := initialiseBoard_outcome k
  generalize initialiseBoard k = out at h hcases
  cases hcases with
  | up hup => exact Except.ok.inj h ▸ hup
  | down => cases h
  | leaked => cases h

/-- The context is what the jump to `no_dma` leaves over. -/
theorem leaks_of_dmaRefused (h : DmaRefused k prom) : ∃ rc log, initialiseBoard k = (.error rc, log) ∧
    rc < 0 ∧ uses .promContext log = [.acquire .promContext] := by
  have hcases := initialiseBoard_outcome k
  generalize initialiseBoard k = out at hcases ⊢
  cases hcases with
  | up _ hno => exact absurd h (hno prom)
  | down rs hno => exact absurd h (hno prom)
  | leaked h' hrc n hlog =>
    have hnone : uses Resource.promContext (bracket (dmaResources.take n)) = [] :=
      uses_bracket_of_notMem fun hmem => by simpa [dmaResources] using List.mem_of_mem_take hmem
    refine ⟨_, _, rfl, hrc, ?_⟩
    simp [hlog, uses_acquire, uses_release, hnone]

theorem not_settles_of_dmaRefused (h : DmaRefused k prom) : ¬ Settles k := by
  obtain ⟨rc, log, hboard, -, hcontext⟩ := leaks_of_dmaRefused h
  rw [Settles, hboard]
  intro hsettled
  rcases hsettled .promContext with hnone | hboth
  · rw [hcontext] at hnone
    cases hnone
  · rw [hcontext] at hboth
    cases hboth

/-- **Nothing is left over** unless the DMA engine is needed and refused. -/
theorem settles_iff (k : Kernel) : Settles k ↔ ∀ prom, ¬ DmaRefused k prom := by
  refine ⟨fun hsettles prom h => not_settles_of_dmaRefused h hsettles, fun hno => ?_⟩
  unfold Settles
  have hcases := initialiseBoard_outcome k
  generalize initialiseBoard k = out at hcases ⊢
  cases hcases with
  | @up b log _ _ hlog =>
    constructor
    · rw [hlog]
      exact held_acquires (nodup_boardResources b.prom)
    · have hbracket : terminateBoard b log = bracket (boardResources b.prom) := by
        rw [hlog, terminateBoard, boardResources]
        by_cases hneeded : b.prom.dmaNentries ≠ 0
        · simp [terminateDmaControl, terminateInterruptControl, release, bracket, dmaResources,
            interruptResources, hneeded]
        · simp [terminateInterruptControl, release, bracket, interruptResources, hneeded]
      rw [hbracket]
      exact settled_bracket (nodup_boardResources b.prom)
  | down rs _ hrc hnodup hlog =>
    simp only [hlog]
    exact settled_bracket hnodup
  | leaked h => exact absurd h (hno _)

/-- A kernel that grants everything to a board with the first image of the unit tests. -/
def granting : Kernel where
  pciResourceLen := 16384
  pciIomap := .valid
  kzallocProm := true
  prom := storeOf testProm1 0
  defaultProm := []
  beyond := fun _ => 0
  dmaBlockShift := 20
  dmaSetMask := fun _ => 0
  kmallocDma := .valid
  getFreePages := fun order => if order < 11 then .valid else .null
  dmaMapSingle := 4096
  dmaMappingError := false
  resetting := []
  resetStat := 0
  kzallocInterrupts := .valid
  requestIrq := 0
  shiftOut := fun _ => 0
  intShiftOut := fun _ => 0

/-- There is no memory for `struct dma_control`: the error is returned with the PROM context still
    held. -/
theorem promContext_leaked :
    (∃ rc log, initialiseBoard { granting with kmallocDma := .null } = (.error rc, log) ∧ rc < 0 ∧
      uses .promContext log = [.acquire .promContext]) ∧
    ¬ Settles { granting with kmallocDma := .null } := by
  have hrefused : DmaRefused { granting with kmallocDma := .null } _ := {
    bar2 := by decide, iomap := rfl, loaded := loadProm_testProm1 [] fun _ => 0,
    minors := by decide, needed := by decide, refused := fun h => nomatch h.memory }
  exact ⟨leaks_of_dmaRefused hrefused, not_settles_of_dmaRefused hrefused⟩

end Setup
end AmcPci
