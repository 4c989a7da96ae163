import AmcPci.Proof.Setup.Board

/-!
# Which PROMs bring a board up

`create_device_nodes` wants a device entry first and regions after it, and there are 16 minors for
them. `initialise_board` makes the second check on `nentries`, which counts the entries without a
minor as well (`refused_for_unknown`). `bringsUp_iff` is what both functions ask for together.
-/

namespace AmcPci
namespace Setup

open Lib
open Probe (createDeviceNodes createNodes createNodes_spec created minorEntries needingMinor)

variable {k : Kernel} {prom : PromContext}

/-! ## Seen from the probe -/

/-- What a function returns that leaves its result elsewhere. -/
def rcOf {α : Type} : Except Int α → Int
  | .ok _ => 0
  | .error rc => rc

@[simp] theorem rcOf_ok {α : Type} (a : α) : rcOf (.ok a) = 0 := rfl

@[simp] theorem rcOf_error {α : Type} (rc : Int) : rcOf (.error rc : Except Int α) = rc := rfl

/-- The kernel as `amc_pci_probe` sees it: what the two control chains return is all it knows of
    them. -/
def Kernel.seen (k : Kernel) (p : Probe.Kernel) : Probe.Kernel :=
  { p with
    pciResourceLen := k.pciResourceLen
    pciIomap := k.pciIomap
    kzalloc := k.kzallocProm
    prom := k.prom
    defaultProm := k.defaultProm
    beyond := k.beyond
    initialiseDmaControl := fun mask shift => rcOf (initialiseDmaControl k mask shift []).1
    initialiseInterruptControl := rcOf (initialiseInterruptControl k []).1 }

/-- What a chain returns does not depend on what has been taken before. -/
theorem initialiseDmaControl_fst (k : Kernel) (mask shift : UInt8) (log log' : Log) :
    (initialiseDmaControl k mask shift log).1 = (initialiseDmaControl k mask shift log').1 := by
  simp only [initialiseDmaControl]
  split
  · rfl
  · split
    · rfl
    · split
      · rfl
      · split
        · rfl
        · split
          · rfl
          · split <;> rfl

theorem initialiseInterruptControl_fst (k : Kernel) (log log' : Log) :
    (initialiseInterruptControl k log).1 = (initialiseInterruptControl k log').1 := by
  simp only [initialiseInterruptControl]
  split
  · rfl
  · split <;> rfl

theorem dmaControl_seen (k : Kernel) (p : Probe.Kernel) (prom : PromContext) (log : Log) :
    Probe.dmaControl (k.seen p) prom = rcOf (dmaControl k prom log).1 := by
  rw [Probe.dmaControl, dmaControl]
  by_cases hneeded : prom.dmaNentries ≠ 0
  · rw [if_pos hneeded, if_pos hneeded]
    simp only [Kernel.seen]
    rw [initialiseDmaControl_fst k _ _ [] log]
    cases (initialiseDmaControl k (Probe.dmaGeometry prom).1 (Probe.dmaGeometry prom).2 log).1 <;> rfl
  · rw [if_neg hneeded, if_neg hneeded]
    rfl

theorem dmaControl_neg {log log' : Log} {rc : Int}
    (h : dmaControl k prom log = (.error rc, log')) : rc < 0 := by
  unfold dmaControl at h
  split at h
  · have hcases := initialiseDmaControl_outcome k (Probe.dmaGeometry prom).1
      (Probe.dmaGeometry prom).2 log
    generalize initialiseDmaControl k (Probe.dmaGeometry prom).1 (Probe.dmaGeometry prom).2 log
      = out at h hcases
    cases hcases with
    | granted => cases h
    | refused _ hrc => cases h; exact hrc
  · cases h

theorem initialiseInterruptControl_neg {log log' : Log} {rc : Int}
    (h : initialiseInterruptControl k log = (.error rc, log')) : rc < 0 := by
  have hcases := initialiseInterruptControl_outcome k log
  rw [h] at hcases
  cases hcases with
  | refused hrc => exact hrc

/-- **The two models agree**: the probe's board is the one set up here, without its engine. -/
theorem initialiseBoard_seen (k : Kernel) (p : Probe.Kernel) :
    Probe.initialiseBoard (k.seen p) = (initialiseBoard k).1.map Board.prom := by
  rw [Probe.initialiseBoard, initialiseBoard]
  by_cases hbar2 : k.pciResourceLen < Probe.bar2Length
  · rw [if_pos (show (k.seen p).pciResourceLen < Probe.bar2Length from hbar2), if_pos hbar2]
    rfl
  · rw [if_neg (show ¬ (k.seen p).pciResourceLen < Probe.bar2Length from hbar2), if_neg hbar2]
    by_cases hiomap : k.pciIomap.rc < 0
    · rw [if_pos (show (k.seen p).pciIomap.rc < 0 from hiomap), if_pos hiomap]
      rfl
    · rw [if_neg (show ¬ (k.seen p).pciIomap.rc < 0 from hiomap), if_neg hiomap, loadPromContext,
        show loadProm (k.seen p).defaultProm (k.seen p).beyond (k.seen p).kzalloc (k.seen p).prom
          = loadProm k.defaultProm k.beyond k.kzallocProm k.prom from rfl]
      cases hload : loadProm k.defaultProm k.beyond k.kzallocProm k.prom with
      | error rc => cases k.kzallocProm <;> rfl
      | ok prom =>
        simp only
        by_cases hminors : prom.nentries > Probe.maxMinorsPerBoard
        · rw [if_pos hminors, if_pos hminors]
          rfl
        · rw [if_neg hminors, if_neg hminors,
            dmaControl_seen k p prom (acquire (acquire [] .bar2) .promContext)]
          cases hdma : dmaControl k prom (acquire (acquire [] .bar2) .promContext) with
          | mk dma log =>
            cases dma with
            | error rc =>
              simp only [rcOf_error]
              exact if_pos (dmaControl_neg hdma)
            | ok dma =>
              simp only [rcOf_ok, lt_irrefl, if_false]
              rw [show (k.seen p).initialiseInterruptControl
                = rcOf (initialiseInterruptControl k []).1 from rfl,
                initialiseInterruptControl_fst k [] log]
              cases hirq : initialiseInterruptControl k log with
              | mk irq log' =>
                cases irq with
                | error rc =>
                  simp only [rcOf_error]
                  exact if_pos (initialiseInterruptControl_neg hirq)
                | ok =>
                  simp only [rcOf_ok, lt_irrefl, if_false]
                  rfl

/-! ## The shape of a PROM -/

/-- The entries that need a minor are one device and then only regions, and there are minors for all
    of them. -/
structure WellShaped (prom : PromContext) : Prop where
  order : ∃ m ms, minorEntries prom = m :: ms ∧ prom.buff m = promDeviceTag ∧
    ∀ e ∈ ms, prom.buff e = promDmaTag ∨ prom.buff e = promDmaExtTag
  minors : (minorEntries prom).length ≤ Probe.maxMinorsPerBoard

/-- Everything asked of the kernel and of the hardware on the way to the nodes is granted. -/
structure Granted (k : Kernel) (p : Probe.Kernel) : Prop where
  bar2 : Probe.bar2Length ≤ k.pciResourceLen
  iomap : k.pciIomap = .valid
  mask : ∀ mask, 0 ≤ k.dmaSetMask mask
  memory : k.kmallocDma = .valid
  pages : k.getFreePages (k.dmaBlockShift - pageShift).toNat = .valid
  mapping : k.dmaMappingError = false
  reset : DmaCall.pollReset k.resetting k.resetStat &&& DmaCall.cdmacrReset = 0
  interrupts : k.kzallocInterrupts = .valid
  irq : 0 ≤ k.requestIrq
  cdev : 0 ≤ p.cdevAdd

/-- `initialise_board`, and `create_device_nodes` after it, succeed. -/
def BringsUp (k : Kernel) (p : Probe.Kernel) : Prop :=
  ∃ b log, initialiseBoard k = (.ok b, log) ∧ (createDeviceNodes p b.prom).1 = 0

/-- Behind the first, an entry that needs a minor is a region unless it is a second device. -/
theorem regions_iff {m : Nat} {ms : List Nat} (hms : minorEntries prom = m :: ms) :
    (∀ e ∈ ms, prom.buff e = promDmaTag ∨ prom.buff e = promDmaExtTag) ↔
      promDeviceTag ∉ ms.map prom.buff := by
  constructor
  · intro hregions hsecond
    obtain ⟨e, he, htag⟩ := List.mem_map.mp hsecond
    have hdma := hregions e he
    rw [htag] at hdma
    exact absurd hdma (by decide)
  · intro hsecond e he
    have hmem : e ∈ minorEntries prom := hms ▸ List.mem_cons_of_mem m he
    rcases (Probe.needsMinor_iff _).mp (List.mem_filter.mp hmem).2 with hdevice | hdma
    · exact absurd (List.mem_map.mpr ⟨e, he, hdevice⟩) hsecond
    · exact hdma

/-- The loop over the entries comes to its end if a device is first and no other follows. -/
theorem createNodes_ok_iff (p : Probe.Kernel) (prom : PromContext) {m : Nat} {ms : List Nat}
    (hms : minorEntries prom = m :: ms) :
    ¬ (createNodes p prom.buff prom.entries false 0 []).1 < 0 ↔ prom.buff m = promDeviceTag ∧
      ∀ e ∈ ms, prom.buff e = promDmaTag ∨ prom.buff e = promDmaExtTag := by
  have hneg : -einval < 0 := by decide
  rw [regions_iff hms, createNodes_spec p prom.buff prom.entries m ms hms]
  by_cases hdevice : prom.buff m = promDeviceTag
  · rw [if_neg (not_not.mpr hdevice)]
    by_cases hsecond : promDeviceTag ∈ ms.map prom.buff
    · rw [if_pos hsecond]
      exact iff_of_false (not_not.mpr hneg) fun h => h.2 hsecond
    · rw [if_neg hsecond]
      exact iff_of_true (Int.lt_irrefl 0) ⟨hdevice, hsecond⟩
  · rw [if_pos hdevice]
    exact iff_of_false (not_not.mpr hneg) fun h => hdevice h.1

theorem createDeviceNodes_ok_iff {p : Probe.Kernel} {es : List Nat} {e : Nat}
    (hcdev : 0 ≤ p.cdevAdd) (hacc : Accepted prom es e) :
    (createDeviceNodes p prom).1 = 0 ↔ ∃ m ms, minorEntries prom = m :: ms ∧
      prom.buff m = promDeviceTag ∧
        ∀ e ∈ ms, prom.buff e = promDmaTag ∨ prom.buff e = promDmaExtTag := by
  have hlength := Probe.length_minorEntries hacc
  unfold createDeviceNodes
  cases hms : minorEntries prom with
  | nil =>
    have hzero : prom.nentriesWithMinor = 0 := by
      rw [← hlength, hms]
      rfl
    rw [if_pos hzero]
    refine iff_of_false (by decide) ?_
    rintro ⟨m, ms, hno, -⟩
    cases hno
  | cons m ms =>
    have hsome : prom.nentriesWithMinor ≠ 0 := by
      rw [← hlength, hms]
      exact Nat.succ_ne_zero ms.length
    rw [if_neg hsome, if_neg (Int.not_lt.mpr hcdev)]
    have hloop := createNodes_ok_iff p prom hms
    have hcons : (∃ m' ms', m :: ms = m' :: ms' ∧ prom.buff m' = promDeviceTag ∧
        ∀ e ∈ ms', prom.buff e = promDmaTag ∨ prom.buff e = promDmaExtTag) ↔
        prom.buff m = promDeviceTag ∧
          ∀ e ∈ ms, prom.buff e = promDmaTag ∨ prom.buff e = promDmaExtTag := by
      constructor
      · rintro ⟨m', ms', heq, h⟩
        obtain ⟨rfl, rfl⟩ := List.cons.inj heq
        exact h
      · exact fun h => ⟨m, ms, rfl, h⟩
    rw [hcons, ← hloop]
    simp only
    split
    · rename_i hrc
      exact iff_of_false (Int.ne_of_lt hrc) (not_not.mpr hrc)
    · rename_i hrc
      exact iff_of_true rfl hrc

/-! ## What brings a board up -/

theorem Granted.dmaGranted_iff {p : Probe.Kernel} (h : Granted k p) (mask : UInt8) :
    DmaGranted k mask ↔ pageShift ≤ k.dmaBlockShift :=
  ⟨DmaGranted.blockShift, fun hblock =>
    ⟨hblock, h.mask _, h.memory, h.pages, h.mapping, h.reset⟩⟩

theorem Granted.dmaControl_neg_iff {p : Probe.Kernel} (h : Granted k p) (prom : PromContext) :
    Probe.dmaControl (k.seen p) prom < 0 ↔
      ¬ (prom.dmaNentries ≠ 0 → pageShift ≤ k.dmaBlockShift) := by
  rw [dmaControl_seen k p prom [], dmaControl]
  by_cases hneeded : prom.dmaNentries ≠ 0
  · rw [if_pos hneeded, ← h.dmaGranted_iff (Probe.dmaGeometry prom).1]
    have hcases := initialiseDmaControl_outcome k (Probe.dmaGeometry prom).1
      (Probe.dmaGeometry prom).2 []
    generalize initialiseDmaControl k (Probe.dmaGeometry prom).1 (Probe.dmaGeometry prom).2 []
      = out at hcases ⊢
    cases hcases with
    | granted hgranted => exact iff_of_false (Int.lt_irrefl 0) fun hno => hno fun _ => hgranted
    | refused hno hrc => exact iff_of_true hrc fun hall => hno (hall hneeded)
  · rw [if_neg hneeded]
    exact iff_of_false (Int.lt_irrefl 0) fun hno => hno fun hneeded' => absurd hneeded' hneeded

theorem Granted.interrupts_ok {p : Probe.Kernel} (h : Granted k p) :
    ¬ (k.seen p).initialiseInterruptControl < 0 := by
  have hmemory : ¬ k.kzallocInterrupts.rc < 0 := fun hneg =>
    Probe.Pointer.rc_neg_iff.mp hneg h.interrupts
  show ¬ rcOf (initialiseInterruptControl k []).1 < 0
  rw [initialiseInterruptControl, if_neg hmemory]
  simp only
  rw [if_neg (Int.not_lt.mpr h.irq)]
  exact Int.lt_irrefl 0

theorem Granted.initialiseBoard_ok_iff {p : Probe.Kernel} (h : Granted k p) (prom' : PromContext)
    (hload : loadProm k.defaultProm k.beyond k.kzallocProm k.prom = .ok prom) :
    Probe.initialiseBoard (k.seen p) = .ok prom' ↔ prom' = prom ∧
      prom.nentries ≤ Probe.maxMinorsPerBoard ∧
        (prom.dmaNentries ≠ 0 → pageShift ≤ k.dmaBlockShift) := by
  have hbar2 : ¬ (k.seen p).pciResourceLen < Probe.bar2Length := Int.not_lt.mpr h.bar2
  have hiomap : ¬ (k.seen p).pciIomap.rc < 0 := fun hneg =>
    Probe.Pointer.rc_neg_iff.mp hneg h.iomap
  have hloaded : loadProm (k.seen p).defaultProm (k.seen p).beyond (k.seen p).kzalloc (k.seen p).prom
      = .ok prom := hload
  rw [Probe.initialiseBoard, if_neg hbar2, if_neg hiomap, hloaded]
  simp only
  by_cases hminors : prom.nentries > Probe.maxMinorsPerBoard
  · rw [if_pos hminors]
    refine iff_of_false ?_ fun hall => absurd hall.2.1 (Nat.not_le.mpr hminors)
    intro herror
    cases herror
  · rw [if_neg hminors]
    by_cases hdma : Probe.dmaControl (k.seen p) prom < 0
    · rw [if_pos hdma]
      refine iff_of_false ?_ fun hall => (h.dmaControl_neg_iff prom).mp hdma hall.2.2
      intro herror
      cases herror
    · rw [if_neg hdma, if_neg h.interrupts_ok, Except.ok.injEq]
      have hblock := not_not.mp fun hno => hdma ((h.dmaControl_neg_iff prom).mpr hno)
      exact ⟨fun heq => ⟨heq.symm, Nat.le_of_not_gt hminors, hblock⟩, fun hall => hall.1.symm⟩

theorem bringsUp_iff_seen (k : Kernel) (p : Probe.Kernel) : BringsUp k p ↔
    ∃ prom, Probe.initialiseBoard (k.seen p) = .ok prom ∧ (createDeviceNodes p prom).1 = 0 := by
  rw [initialiseBoard_seen, BringsUp]
  cases initialiseBoard k with
  | mk r log =>
    cases r with
    | error rc => simp [Except.map]
    | ok b => simp [Except.map]

theorem bringsUp_iff {p : Probe.Kernel} (h : Granted k p)
    (hload : loadProm k.defaultProm k.beyond k.kzallocProm k.prom = .ok prom) :
    BringsUp k p ↔ WellShaped prom ∧ prom.nentries ≤ Probe.maxMinorsPerBoard ∧
      (prom.dmaNentries ≠ 0 → pageShift ≤ k.dmaBlockShift) := by
  obtain ⟨es, e, hacc⟩ := accepted_of_loadProm hload
  rw [bringsUp_iff_seen]
  constructor
  · rintro ⟨prom', hboard, hnodes⟩
    obtain ⟨hprom, hminors, hblock⟩ := (h.initialiseBoard_ok_iff prom' hload).mp hboard
    rw [hprom] at hnodes
    have hle : (minorEntries prom).length ≤ prom.nentries := by
      rw [minorEntries, needingMinor, hacc.entries_eq, hacc.nentries]
      exact List.length_filter_le _ _
    exact ⟨⟨(createDeviceNodes_ok_iff h.cdev hacc).mp hnodes, by omega⟩, hminors, hblock⟩
  · rintro ⟨hshape, hminors, hblock⟩
    exact ⟨prom, (h.initialiseBoard_ok_iff prom hload).mpr ⟨rfl, hminors, hblock⟩,
      (createDeviceNodes_ok_iff h.cdev hacc).mpr hshape.order⟩

/-- **The shape decides**, unless there are more than 16 entries with those that need no minor, or
    `dma_block_shift` asks for less than a page. -/
theorem bringsUp_iff_wellShaped_iff {p : Probe.Kernel} (h : Granted k p)
    (hload : loadProm k.defaultProm k.beyond k.kzallocProm k.prom = .ok prom) :
    (BringsUp k p ↔ WellShaped prom) ↔ (WellShaped prom →
      prom.nentries ≤ Probe.maxMinorsPerBoard ∧
        (prom.dmaNentries ≠ 0 → pageShift ≤ k.dmaBlockShift)) := by
  rw [bringsUp_iff h hload]
  exact and_iff_left_iff_imp

theorem reset_granting :
    DmaCall.pollReset granting.resetting granting.resetStat &&& DmaCall.cdmacrReset = 0 := by
  decide

theorem granted_granting (image : List UInt8) :
    Granted { granting with prom := storeOf image 0 } Probe.noSysfsProm where
  bar2 := Int.le_refl _
  iomap := rfl
  mask := fun _ => Int.le_refl 0
  memory := rfl
  pages := rfl
  mapping := rfl
  reset := reset_granting
  interrupts := rfl
  irq := Int.le_refl 0
  cdev := by decide

/-- The device and the three regions of the first image of the unit tests bring a board up. -/
theorem bringsUp_iff_wellShaped_iff_testProm1 :
    BringsUp { granting with prom := storeOf testProm1 0 } Probe.noSysfsProm ↔
      WellShaped (promContextOf (storeOf testProm1 0)
        (promBuffer (storeOf testProm1 0) fun _ => 0) [5, 16, 34, 52] 70) :=
  (bringsUp_iff_wellShaped_iff (granted_granting testProm1)
    (loadProm_testProm1 [] fun _ => 0)).mpr fun _ => ⟨by decide, fun _ => by decide⟩

/-- A device, and sixteen entries of a tag the driver does not know. -/
def crowdedProm : List UInt8 :=
  [0x44, 0x49, 0x41, 0x47, 0x01, 0x01, 0x03, 0x61, 0x62, 0x00, 0x09, 0x00, 0x09, 0x00, 0x09, 0x00,
   0x09, 0x00, 0x09, 0x00, 0x09, 0x00, 0x09, 0x00, 0x09, 0x00, 0x09, 0x00, 0x09, 0x00, 0x09, 0x00,
   0x09, 0x00, 0x09, 0x00, 0x09, 0x00, 0x09, 0x00, 0x09, 0x00, 0x00, 0x02, 0x84, 0x0a]

def crowdedEntries : List Nat :=
  [5, 10, 12, 14, 16, 18, 20, 22, 24, 26, 28, 30, 32, 34, 36, 38, 40]

theorem promImage_crowdedProm : PromImage (storeOf crowdedProm 0) crowdedEntries 42 where
  version := by decide
  chain := by
    iterate 17 refine .cons (by decide) ?_
    exact .nil 42
  marker := by decide
  size := by decide
  checksum := by decide +kernel

/-- One entry needs a minor, and the board does not come up. -/
theorem refused_for_unknown : ∃ prom,
    loadProm [] (fun _ => 0) true (storeOf crowdedProm 0) = .ok prom ∧ WellShaped prom ∧
    ¬ BringsUp { granting with prom := storeOf crowdedProm 0 } Probe.noSysfsProm := by
  have hload := (@loadProm_eq_ok_iff [] (storeOf crowdedProm 0) (fun _ => 0) _ (by decide)).mpr
    ⟨_, _, promImage_crowdedProm, by decide, rfl⟩
  have hacc := accepted_of_promImage (fun _ => 0) promImage_crowdedProm (by decide)
  have hms : minorEntries (promContextOf (storeOf crowdedProm 0)
      (promBuffer (storeOf crowdedProm 0) fun _ => 0) crowdedEntries 42) = [5] := by
    rw [minorEntries, hacc.entries_eq]
    decide
  refine ⟨_, hload, ⟨⟨5, [], hms, by decide, by simp⟩, ?_⟩, fun hup => ?_⟩
  · rw [hms]
    decide
  · have hminors := ((bringsUp_iff (granted_granting crowdedProm) hload).mp hup).2.1
    rw [hacc.nentries] at hminors
    exact absurd hminors (by decide)

end Setup
end AmcPci
