import AmcPci.Probe
import AmcPci.Proof.Prom.Walk

/-!
# What a probe leaves behind

A probe is to register everything or nothing. It does for every way of failing before the first
node is made; after that, three ways out of it leave something registered or unregistered:
`prom_error` deletes the cdev but none of the nodes made so far, the sysfs labels skip
`destroy_device_nodes`, and the result of `device_create` is dropped. `Complete` says on which
answers of the kernel none of these matters, and `allOrNothing_iff` that it is exactly these.
-/

namespace AmcPci
namespace Probe

open Lib

/-- The entries that need a minor, in order. -/
def needingMinor (buff : Nat → UInt8) (pentries : List Nat) : List Nat :=
  pentries.filter fun pentry => promEntryNeedsMinor (buff pentry)

/-- The entries of a loaded PROM that need a minor. -/
def minorEntries (prom : PromContext) : List Nat := needingMinor prom.buff prom.entries

/-- The board is there, with one node for each entry that needs a minor. -/
def AllVisible (prom : PromContext) (v : Visible) : Prop :=
  v.cdev = true ∧ v.nodes = (minorEntries prom).zipIdx ∧ v.sysfsPromUsed = true ∧
    v.sysfsProm = true

/-- All or nothing. -/
def AllOrNothing (k : Kernel) (deviceBoards : Fin maxBoards → Bool) : Prop :=
  let r := amcPciProbe k deviceBoards
  (r.rc = 0 ∧ ∃ prom, loadProm k.defaultProm k.beyond k.kzalloc k.prom = .ok prom ∧
    AllVisible prom r.visible) ∨ (r.rc < 0 ∧ r.visible = nothing)

/-- Everything before the first node goes well. -/
structure Reaches (k : Kernel) (deviceBoards : Fin maxBoards → Bool) (prom : PromContext) :
    Prop where
  board : ∃ board, deviceBoards board = false
  kmalloc : k.kmalloc = .valid
  enable : 0 ≤ k.pciEnableDevice ∧ 0 ≤ k.pciRequestRegions ∧ 0 ≤ k.pciEnableMsi
  bar2 : bar2Length ≤ k.pciResourceLen
  iomap : k.pciIomap = .valid
  loaded : loadProm k.defaultProm k.beyond k.kzalloc k.prom = .ok prom
  minors : prom.nentries ≤ maxMinorsPerBoard
  dma : prom.dmaNentries ≠ 0 → 0 ≤ k.initialiseDmaControl (dmaGeometry prom).1 (dmaGeometry prom).2
  interrupts : 0 ≤ k.initialiseInterruptControl
  nodes : prom.nentriesWithMinor ≠ 0
  cdev : 0 ≤ k.cdevAdd

/-- What it takes from the nodes on, by the tags of the entries that need a minor: if the first is
    not a device nothing is made; if a second device follows, none of the nodes before it may
    have been made; and otherwise every node must be, and both files in sysfs. -/
def NodesComplete (k : Kernel) : List UInt8 → Prop
  | [] => False
  | tag :: tags =>
    if tag ≠ promDeviceTag then True
    else if promDeviceTag ∈ tags then
      ∀ minorOff ≤ tags.idxOf promDeviceTag, k.deviceCreate minorOff = false
    else (∀ minorOff ≤ tags.length, k.deviceCreate minorOff = true) ∧ 0 ≤ k.sysfsPromUsed ∧
      0 ≤ k.sysfsProm

/-- If the probe comes to the nodes, it makes all of them and both files, or nothing. -/
def Complete (k : Kernel) (deviceBoards : Fin maxBoards → Bool) : Prop :=
  ∀ prom, Reaches k deviceBoards prom → NodesComplete k ((minorEntries prom).map prom.buff)

/-- `load_prom` counts the entries that need a minor. -/
theorem length_minorEntries {prom : PromContext} {es : List Nat} {e : Nat}
    (h : Accepted prom es e) : (minorEntries prom).length = prom.nentriesWithMinor := by
  rw [minorEntries, needingMinor, h.entries_eq, ← List.countP_eq_length_filter, h.nentriesWithMinor]

/-! ## The loop over the entries -/

/-- The nodes made for some entries, the first at `minorOff`. -/
def created (k : Kernel) (pentries : List Nat) (minorOff : Nat) : List (Nat × Nat) :=
  (pentries.zipIdx minorOff).filter fun node => k.deviceCreate node.2

theorem deviceCreate_append (k : Kernel) (pentry minorOff : Nat) (nodes : List (Nat × Nat))
    (pentries : List Nat) : deviceCreate k pentry minorOff nodes ++ created k pentries (minorOff + 1)
      = nodes ++ created k (pentry :: pentries) minorOff := by
  rw [deviceCreate, created, created, List.zipIdx_cons, List.filter_cons]
  split <;> simp

theorem needsMinor_iff (tag : UInt8) : promEntryNeedsMinor tag = true ↔
    tag = promDeviceTag ∨ tag = promDmaTag ∨ tag = promDmaExtTag := by
  simp [promEntryNeedsMinor, or_assoc]

theorem needingMinor_cons_of_pos {buff : Nat → UInt8} {e : Nat} {es : List Nat}
    (h : promEntryNeedsMinor (buff e) = true) :
    needingMinor buff (e :: es) = e :: needingMinor buff es := List.filter_cons_of_pos h

theorem needingMinor_cons_of_neg {buff : Nat → UInt8} {e : Nat} {es : List Nat}
    (h : ¬ promEntryNeedsMinor (buff e) = true) :
    needingMinor buff (e :: es) = needingMinor buff es := List.filter_cons_of_neg h

/-- After the device entry the loop makes a node for each entry, up to a second device. -/
theorem createNodes_named (k : Kernel) (buff : Nat → UInt8) : ∀ (es : List Nat) (minorOff : Nat)
    (nodes : List (Nat × Nat)) (ms : List Nat),
    needingMinor buff es = ms →
    createNodes k buff es true minorOff nodes =
      if promDeviceTag ∈ ms.map buff then
        (-einval, nodes ++ created k (ms.take ((ms.map buff).idxOf promDeviceTag)) minorOff)
      else (0, nodes ++ created k ms minorOff) := by
  intro es
  induction es with
  | nil => rintro minorOff nodes ms rfl; simp [createNodes, created, needingMinor]
  | cons e es ih =>
    rintro minorOff nodes ms rfl
    by_cases hdevice : buff e = promDeviceTag
    · simp [createNodes, hdevice, needingMinor, promEntryNeedsMinor, created]
    · by_cases hdma : buff e = promDmaTag ∨ buff e = promDmaExtTag
      · have hminor : promEntryNeedsMinor (buff e) = true := (needsMinor_iff _).mpr (.inr hdma)
        rw [createNodes, if_neg hdevice, if_pos hdma, if_pos rfl, ih _ _ _ rfl,
          needingMinor_cons_of_pos hminor, List.map_cons, List.idxOf_cons_ne _ hdevice,
          List.take_succ_cons, deviceCreate_append, deviceCreate_append]
        have hmem : ∀ tags : List UInt8, promDeviceTag ∈ buff e :: tags ↔ promDeviceTag ∈ tags :=
          fun tags => List.mem_cons.trans (or_iff_right fun h => hdevice h.symm)
        simp only [hmem]
      · have hminor : ¬ promEntryNeedsMinor (buff e) = true := fun h => by
          rcases (needsMinor_iff _).mp h with h | h
          · exact hdevice h
          · exact hdma h
        rw [createNodes, if_neg hdevice, if_neg hdma, ih _ _ _ rfl,
          needingMinor_cons_of_neg hminor]

/-- The loop from its start: an entry that needs a minor and comes before the device is an error,
    and so is a second device. -/
theorem createNodes_spec (k : Kernel) (buff : Nat → UInt8) : ∀ (es : List Nat) (m : Nat)
    (ms : List Nat), needingMinor buff es = m :: ms →
    createNodes k buff es false 0 [] =
      if buff m ≠ promDeviceTag then (-einval, [])
      else if promDeviceTag ∈ ms.map buff then
        (-einval, created k (m :: ms.take ((ms.map buff).idxOf promDeviceTag)) 0)
      else (0, created k (m :: ms) 0) := by
  intro es
  induction es with
  | nil => intro m ms h; cases h
  | cons e es ih =>
    intro m ms h
    by_cases hminor : promEntryNeedsMinor (buff e) = true
    · rw [needingMinor_cons_of_pos hminor] at h
      obtain ⟨rfl, hms⟩ := List.cons.inj h
      by_cases hdevice : buff e = promDeviceTag
      · rw [createNodes, if_pos hdevice, if_neg (by simp), if_neg (by simp [hdevice]),
          createNodes_named k buff es _ _ ms hms, deviceCreate_append, deviceCreate_append,
          List.nil_append, List.nil_append]
      · have hdma : buff e = promDmaTag ∨ buff e = promDmaExtTag :=
          ((needsMinor_iff _).mp hminor).resolve_left hdevice
        rw [createNodes, if_neg hdevice, if_pos hdma, if_neg (by simp), if_pos hdevice]
    · rw [needingMinor_cons_of_neg hminor] at h
      have hdevice : ¬ buff e = promDeviceTag := fun h => hminor ((needsMinor_iff _).mpr (.inl h))
      have hdma : ¬ (buff e = promDmaTag ∨ buff e = promDmaExtTag) :=
        fun h => hminor ((needsMinor_iff _).mpr (.inr h))
      rw [createNodes, if_neg hdevice, if_neg hdma, ih m ms h]

theorem created_eq_zipIdx_iff (k : Kernel) (pentries : List Nat) :
    created k pentries 0 = pentries.zipIdx ↔
      ∀ minorOff < pentries.length, k.deviceCreate minorOff = true := by
  rw [created, List.filter_eq_self]
  constructor
  · intro h minorOff hlt
    exact h (pentries[minorOff], minorOff) (by simp [List.mk_mem_zipIdx_iff_getElem?, hlt])
  · intro h node hnode
    exact h _ (List.snd_lt_of_mem_zipIdx hnode)

theorem created_eq_nil_iff (k : Kernel) (pentries : List Nat) :
    created k pentries 0 = [] ↔
      ∀ minorOff < pentries.length, k.deviceCreate minorOff = false := by
  rw [created, List.filter_eq_nil_iff]
  constructor
  · intro h minorOff hlt
    have := h (pentries[minorOff], minorOff) (by simp [List.mk_mem_zipIdx_iff_getElem?, hlt])
    simpa using this
  · intro h node hnode
    rw [h _ (List.snd_lt_of_mem_zipIdx hnode)]
    exact Bool.false_ne_true

/-! ## Up to the first node -/

theorem Pointer.rc_neg_iff {p : Pointer} : p.rc < 0 ↔ p ≠ .valid := by
  cases p with
  | valid => simp [Pointer.rc]
  | null => simp [Pointer.rc, enomem]
  | error errno hpos =>
    simp only [Pointer.rc, ne_eq, reduceCtorEq, not_false_eq_true, iff_true]
    omega

theorem getFreeBoard_eq_none_iff {deviceBoards : Fin maxBoards → Bool} :
    getFreeBoard deviceBoards = none ↔ ∀ board, deviceBoards board = true := by
  simp [getFreeBoard, List.find?_eq_none]

theorem getFreeBoard_free {deviceBoards : Fin maxBoards → Bool} {board : Fin maxBoards}
    (h : getFreeBoard deviceBoards = some board) : deviceBoards board = false := by
  simpa using List.find?_some h

theorem enableBoard_neg_iff {k : Kernel} : enableBoard k < 0 ↔
    ¬ (0 ≤ k.pciEnableDevice ∧ 0 ≤ k.pciRequestRegions ∧ 0 ≤ k.pciEnableMsi) := by
  rw [enableBoard]
  split
  · omega
  · split
    · omega
    · split <;> omega

/-- The outcome of `initialise_board`, by the answers it got. -/
theorem initialiseBoard_spec (k : Kernel) :
    (∃ rc, initialiseBoard k = .error rc ∧ rc < 0 ∧
      ∀ deviceBoards prom, ¬ Reaches k deviceBoards prom) ∨
    ∃ prom, initialiseBoard k = .ok prom ∧ bar2Length ≤ k.pciResourceLen ∧ k.pciIomap = .valid ∧
      loadProm k.defaultProm k.beyond k.kzalloc k.prom = .ok prom ∧
      prom.nentries ≤ maxMinorsPerBoard ∧
      (prom.dmaNentries ≠ 0 →
        0 ≤ k.initialiseDmaControl (dmaGeometry prom).1 (dmaGeometry prom).2) ∧
      0 ≤ k.initialiseInterruptControl := by
  rw [initialiseBoard]
  split
  · rename_i hbar
    exact .inl ⟨_, rfl, by decide, fun _ _ h => absurd hbar (Int.not_lt.mpr h.bar2)⟩
  · rename_i hbar
    split
    · rename_i hiomap
      exact .inl ⟨_, rfl, hiomap, fun _ _ h => Pointer.rc_neg_iff.mp hiomap h.iomap⟩
    · rename_i hiomap
      have hvalid : k.pciIomap = .valid := not_not.mp fun h => hiomap (Pointer.rc_neg_iff.mpr h)
      cases hload : loadProm k.defaultProm k.beyond k.kzalloc k.prom with
      | error rc =>
        refine .inl ⟨rc, rfl, loadProm_error_neg hload, fun _ _ h => ?_⟩
        have hloaded := h.loaded
        rw [hload] at hloaded
        cases hloaded
      | ok prom =>
        have huniq : ∀ {deviceBoards prom'}, Reaches k deviceBoards prom' → prom' = prom :=
          fun h => Except.ok.inj (h.loaded.symm.trans hload)
        simp only
        split
        · rename_i hminors
          refine .inl ⟨_, rfl, by decide, fun _ prom' h => ?_⟩
          have := huniq h ▸ h.minors
          omega
        · rename_i hminors
          split
          · rename_i hdma
            refine .inl ⟨_, rfl, hdma, fun _ prom' h => ?_⟩
            obtain rfl := huniq h
            rw [dmaControl] at hdma
            split at hdma
            · rename_i hentries
              exact absurd (h.dma hentries) (Int.not_le.mpr hdma)
            · exact absurd hdma (by decide)
          · rename_i hdma
            split
            · rename_i hirq
              exact .inl ⟨_, rfl, hirq, fun _ _ h => absurd hirq (Int.not_lt.mpr h.interrupts)⟩
            · rename_i hirq
              refine .inr ⟨prom, rfl, Int.not_lt.mp hbar, hvalid, rfl, Nat.le_of_not_gt hminors,
                fun hentries => ?_, Int.not_lt.mp hirq⟩
              rw [dmaControl, if_pos hentries] at hdma
              exact Int.not_lt.mp hdma

theorem getFreeBoard_of_reaches {k : Kernel} {deviceBoards : Fin maxBoards → Bool}
    {prom : PromContext} (h : Reaches k deviceBoards prom) :
    ∃ board, getFreeBoard deviceBoards = some board := by
  cases hboard : getFreeBoard deviceBoards with
  | some board => exact ⟨board, rfl⟩
  | none =>
    obtain ⟨board, hfree⟩ := h.board
    rw [getFreeBoard_eq_none_iff.mp hboard board] at hfree
    cases hfree

theorem initialiseBoard_of_reaches {k : Kernel} {deviceBoards : Fin maxBoards → Bool}
    {prom : PromContext} (h : Reaches k deviceBoards prom) : initialiseBoard k = .ok prom := by
  rcases initialiseBoard_spec k with ⟨rc, -, -, hnot⟩ | ⟨prom', hok, -, -, hload, -⟩
  · exact absurd h (hnot deviceBoards prom)
  · rw [hok, Except.ok.inj (hload.symm.trans h.loaded)]

/-- The outcome of a probe that gets as far as the nodes. -/
theorem probe_of_reaches {k : Kernel} {deviceBoards : Fin maxBoards → Bool} {prom : PromContext}
    {rc : Int} {nodes : List (Nat × Nat)} (h : Reaches k deviceBoards prom)
    (hnodes : createNodes k prom.buff prom.entries false 0 [] = (rc, nodes)) :
    let r := amcPciProbe k deviceBoards
    if rc < 0 then r.rc = rc ∧ r.visible = ⟨false, nodes, false, false⟩
    else if k.sysfsPromUsed < 0 then r.rc < 0 ∧ r.visible = ⟨true, nodes, false, false⟩
    else if k.sysfsProm < 0 then r.rc < 0 ∧ r.visible = ⟨true, nodes, true, false⟩
    else r.rc = 0 ∧ r.visible = ⟨true, nodes, true, true⟩ := by
  obtain ⟨board, hboard⟩ := getFreeBoard_of_reaches h
  have hkmalloc : ¬ k.kmalloc.rc < 0 := fun hneg => Pointer.rc_neg_iff.mp hneg h.kmalloc
  have henable : ¬ enableBoard k < 0 := fun hneg => enableBoard_neg_iff.mp hneg h.enable
  have hcdev : ¬ k.cdevAdd < 0 := Int.not_lt.mpr h.cdev
  simp only [amcPciProbe, hboard, if_neg hkmalloc, if_neg henable, initialiseBoard_of_reaches h,
    createDeviceNodes, if_neg h.nodes, if_neg hcdev, hnodes]
  by_cases hrc : rc < 0
  · simp only [if_pos hrc]
    exact ⟨trivial, rfl⟩
  · simp only [if_neg hrc, lt_irrefl, if_false]
    by_cases hused : k.sysfsPromUsed < 0
    · simp only [if_pos hused]
      exact ⟨hused, rfl⟩
    · simp only [if_neg hused]
      by_cases hprom : k.sysfsProm < 0
      · simp only [if_pos hprom]
        exact ⟨hprom, rfl⟩
      · simp only [if_neg hprom]
        exact ⟨trivial, trivial⟩

/-- The outcome of one that does not. -/
theorem probe_of_not_reaches {k : Kernel} {deviceBoards : Fin maxBoards → Bool}
    (h : ∀ prom, ¬ Reaches k deviceBoards prom) :
    (amcPciProbe k deviceBoards).rc < 0 ∧ (amcPciProbe k deviceBoards).visible = nothing := by
  cases hboard : getFreeBoard deviceBoards with
  | none =>
    simp only [amcPciProbe, hboard]
    exact ⟨by decide, trivial⟩
  | some board =>
    have hfree : deviceBoards board = false := getFreeBoard_free hboard
    simp only [amcPciProbe, hboard]
    by_cases hkmalloc : k.kmalloc.rc < 0
    · simp only [if_pos hkmalloc]
      exact ⟨hkmalloc, trivial⟩
    · by_cases henable : enableBoard k < 0
      · simp only [if_neg hkmalloc, if_pos henable]
        exact ⟨henable, trivial⟩
      · simp only [if_neg hkmalloc, if_neg henable]
        rcases initialiseBoard_spec k with ⟨rc, herror, hneg, -⟩ | ⟨prom, hok, hboard'⟩
        · simp only [herror]
          exact ⟨hneg, trivial⟩
        · simp only [hok, createDeviceNodes]
          by_cases hminor : prom.nentriesWithMinor = 0
          · have hneg : -einval < 0 := by decide
            simp only [if_pos hminor, if_pos hneg]
            exact ⟨hneg, trivial⟩
          · by_cases hcdev : k.cdevAdd < 0
            · simp only [if_neg hminor, if_pos hcdev]
              exact ⟨hcdev, trivial⟩
            · obtain ⟨hbar, hiomap, hload, hn, hdma, hirq⟩ := hboard'
              exact absurd ⟨⟨board, hfree⟩, not_not.mp fun hne =>
                hkmalloc (Pointer.rc_neg_iff.mpr hne), not_not.mp fun hne =>
                henable (enableBoard_neg_iff.mpr hne), hbar, hiomap, hload, hn, hdma, hirq,
                hminor, Int.not_lt.mp hcdev⟩ (h prom)

/-! ## All or nothing -/

theorem minorEntries_ne_nil {k : Kernel} {deviceBoards : Fin maxBoards → Bool} {prom : PromContext}
    (h : Reaches k deviceBoards prom) : minorEntries prom ≠ [] := by
  obtain ⟨es, e, hacc⟩ := accepted_of_loadProm h.loaded
  intro hnil
  have hlength := length_minorEntries hacc
  rw [hnil] at hlength
  exact h.nodes hlength.symm

/-- With every node and both files, and not otherwise, a probe that makes its nodes is complete. -/
theorem allOrNothing_of_nodes {k : Kernel} {deviceBoards : Fin maxBoards → Bool}
    {prom : PromContext} {m : Nat} {ms : List Nat} (h : Reaches k deviceBoards prom)
    (hms : minorEntries prom = m :: ms)
    (hnodes : createNodes k prom.buff prom.entries false 0 [] = (0, created k (m :: ms) 0)) :
    AllOrNothing k deviceBoards ↔
      (∀ minorOff ≤ ms.length, k.deviceCreate minorOff = true) ∧ 0 ≤ k.sysfsPromUsed ∧
        0 ≤ k.sysfsProm := by
  have hprobe := probe_of_reaches h hnodes
  simp only [lt_irrefl, if_false] at hprobe
  have hall : (∀ minorOff ≤ ms.length, k.deviceCreate minorOff = true) ↔
      created k (m :: ms) 0 = (minorEntries prom).zipIdx := by
    rw [hms, created_eq_zipIdx_iff]
    simp only [List.length_cons, Nat.lt_succ_iff]
  rw [hall]
  constructor
  · rintro (⟨hrc, prom', hload, hcdev, hsame, hused, hsysfs⟩ | ⟨hrc, hnothing⟩)
    · obtain rfl : prom = prom' := Except.ok.inj (h.loaded.symm.trans hload)
      split at hprobe
      · omega
      · rename_i hused'
        split at hprobe
        · omega
        · rename_i hsysfs'
          rw [hprobe.2] at hsame
          exact ⟨hsame, Int.not_lt.mp hused', Int.not_lt.mp hsysfs'⟩
    · -- the cdev is registered on every way out from here
      exfalso
      split at hprobe
      · rw [hprobe.2] at hnothing; cases hnothing
      · split at hprobe
        · rw [hprobe.2] at hnothing; cases hnothing
        · rw [hprobe.2] at hnothing; cases hnothing
  · rintro ⟨hsame, hused, hsysfs⟩
    rw [if_neg (Int.not_lt.mpr hused), if_neg (Int.not_lt.mpr hsysfs)] at hprobe
    refine .inl ⟨hprobe.1, prom, h.loaded, ?_⟩
    rw [hprobe.2]
    exact ⟨rfl, hsame, rfl, rfl⟩

/-- A probe that meets an entry out of place is complete if it has made no node by then. -/
theorem allOrNothing_of_misplaced {k : Kernel} {deviceBoards : Fin maxBoards → Bool}
    {prom : PromContext} {nodes : List (Nat × Nat)} (h : Reaches k deviceBoards prom)
    (hnodes : createNodes k prom.buff prom.entries false 0 [] = (-einval, nodes)) :
    AllOrNothing k deviceBoards ↔ nodes = [] := by
  have hneg : -einval < 0 := by decide
  obtain ⟨hrc, hvisible⟩ : (amcPciProbe k deviceBoards).rc = -einval ∧
      (amcPciProbe k deviceBoards).visible = ⟨false, nodes, false, false⟩ := by
    have hprobe := probe_of_reaches h hnodes
    simpa only [if_pos hneg] using hprobe
  constructor
  · rintro (⟨hzero, -⟩ | ⟨-, hnothing⟩)
    · rw [hrc] at hzero
      cases hzero
    · rw [hvisible] at hnothing
      exact congrArg Visible.nodes hnothing
  · rintro rfl
    exact .inr ⟨hrc ▸ hneg, hvisible⟩

/-- **All or nothing, exactly.** A probe registers all that a user can see and returns 0, or
    returns an error and leaves nothing registered, if and only if the kernel's answers and the
    PROM's entries make it `Complete`. -/
theorem allOrNothing_iff (k : Kernel) (deviceBoards : Fin maxBoards → Bool) :
    AllOrNothing k deviceBoards ↔ Complete k deviceBoards := by
  by_cases hreach : ∃ prom, Reaches k deviceBoards prom
  · obtain ⟨prom, h⟩ := hreach
    have hcomplete : Complete k deviceBoards ↔
        NodesComplete k ((minorEntries prom).map prom.buff) := by
      constructor
      · exact fun hc => hc prom h
      · intro hn prom' h'
        obtain rfl : prom' = prom := Except.ok.inj (h'.loaded.symm.trans h.loaded)
        exact hn
    rw [hcomplete]
    cases hms : minorEntries prom with
    | nil => exact absurd hms (minorEntries_ne_nil h)
    | cons m ms =>
      have hnodes := createNodes_spec k prom.buff prom.entries m ms hms
      rw [List.map_cons, NodesComplete]
      by_cases hdevice : prom.buff m ≠ promDeviceTag
      · rw [if_pos hdevice] at hnodes ⊢
        exact (allOrNothing_of_misplaced h hnodes).trans (iff_true_intro rfl)
      · rw [if_neg hdevice] at hnodes ⊢
        by_cases hsecond : promDeviceTag ∈ ms.map prom.buff
        · rw [if_pos hsecond] at hnodes ⊢
          rw [allOrNothing_of_misplaced h hnodes, created_eq_nil_iff]
          have hidx : (ms.map prom.buff).idxOf promDeviceTag < ms.length := by
            simpa using List.idxOf_lt_length_iff.mpr hsecond
          rw [List.length_cons, List.length_take, Nat.min_eq_left (Nat.le_of_lt hidx)]
          simp only [Nat.lt_succ_iff]
        · rw [if_neg hsecond] at hnodes ⊢
          rw [allOrNothing_of_nodes h hms hnodes, List.length_map]
  · have hnone : ∀ prom, ¬ Reaches k deviceBoards prom := fun prom h => hreach ⟨prom, h⟩
    exact iff_of_true (.inr (probe_of_not_reaches hnone)) fun prom h => absurd h (hnone prom)

/-! A kernel that grants everything but the last file in sysfs. -/

def noSysfsProm : Kernel where
  kmalloc := .valid
  pciEnableDevice := 0
  pciRequestRegions := 0
  pciEnableMsi := 0
  pciResourceLen := 16384
  pciIomap := .valid
  kzalloc := true
  prom := storeOf testProm1 0
  defaultProm := []
  beyond := fun _ => 0
  initialiseDmaControl := fun _ _ => 0
  initialiseInterruptControl := 0
  cdevAdd := 0
  deviceCreate := fun _ => true
  sysfsPromUsed := 0
  sysfsProm := -enomem

theorem minorEntries_testProm1 : minorEntries (promContextOf (storeOf testProm1 0)
    (promBuffer (storeOf testProm1 0) fun _ => 0) [5, 16, 34, 52] 70) = [5, 16, 34, 52] := by
  have hacc := accepted_of_promImage (fun _ => 0) promImage_testProm1 (by decide)
  rw [minorEntries, hacc.entries_eq]
  decide

theorem not_allOrNothing_noSysfsProm :
    (∃ prom, loadProm noSysfsProm.defaultProm noSysfsProm.beyond noSysfsProm.kzalloc
      noSysfsProm.prom = .ok prom) ∧ ¬ AllOrNothing noSysfsProm fun _ => false := by
  have hload := loadProm_testProm1 [] fun _ => 0
  refine ⟨⟨_, hload⟩, ?_⟩
  have hreach : Reaches noSysfsProm (fun _ => false) _ := {
    board := ⟨⟨0, by decide⟩, rfl⟩, kmalloc := rfl, enable := by decide, bar2 := by decide, iomap := rfl,
    loaded := hload, minors := by decide, dma := fun _ => by decide, interrupts := by decide,
    nodes := by decide, cdev := by decide }
  have hnodes := createNodes_spec noSysfsProm _ _ _ _ minorEntries_testProm1
  rw [if_neg (by decide), if_neg (by decide)] at hnodes
  -- the second file fails, behind the call that would take the rest down again
  intro hall
  have hsysfs := ((allOrNothing_of_nodes hreach minorEntries_testProm1 hnodes).mp hall).2.2
  exact absurd hsysfs (by decide)

end Probe
end AmcPci
