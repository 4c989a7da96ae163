import AmcPci.Nodes
import AmcPci.Proof.Prom.Fields
import AmcPci.Proof.Setup.Shape

/-!
# Numbering the entries of a board

Four walks number the entries of a PROM: the count of `load_prom`, the one of `create_device_nodes`,
the one of `amc_pci_open` and the plain numbers of `destroy_device_nodes`. The first three come down
to positions in `minorEntries`. The nodes that are made are those the probe's model counts
(`createDeviceNodes_eq`), and `Up` is what is known of a board once they are there.
-/

namespace AmcPci
namespace Nodes

open Lib
open Probe (maxMinorsPerBoard minorEntries needingMinor)

variable {b : Board} {k : Setup.Kernel} {p : Probe.Kernel}

/-! ## Looking a minor up -/

theorem findEntry_eq : ∀ (es : List Nat) (index i : Int), findEntry index es i
    = if i ≤ index ∧ index < i + es.length then es[(index - i).toNat]? else none := by
  intro es
  induction es with
  | nil =>
    intro index i
    rw [if_neg (by simp only [List.length_nil]; omega)]
    rfl
  | cons e es ih =>
    intro index i
    rw [findEntry]
    by_cases hi : i = index
    · rw [if_pos hi, if_pos (by simp only [List.length_cons]; omega), hi, Int.sub_self]
      rfl
    · rw [if_neg hi, ih]
      by_cases hin : i + 1 ≤ index ∧ index < i + 1 + es.length
      · have hsucc : (index - i).toNat = (index - (i + 1)).toNat + 1 := by omega
        rw [if_pos hin, if_pos (by simp only [List.length_cons]; omega), hsucc,
          List.getElem?_cons_succ]
      · rw [if_neg hin, if_neg (by simp only [List.length_cons]; omega)]

/-- Counting only the entries that need a minor is numbering those alone. -/
theorem findEntryWithMinor_eq_findEntry (buff : Nat → UInt8) (minor : Int) : ∀ (es : List Nat)
    (i : Int), findEntryWithMinor buff minor es i = findEntry minor (needingMinor buff es) i := by
  intro es
  induction es with
  | nil => intro i; rfl
  | cons e es ih =>
    intro i
    unfold findEntryWithMinor
    by_cases hminor : promEntryNeedsMinor (buff e) = true
    · rw [if_pos hminor, Probe.needingMinor_cons_of_pos hminor, findEntry, ih]
    · rw [if_neg hminor, Probe.needingMinor_cons_of_neg hminor]
      exact ih i

theorem promFindEntryWithMinor_eq (context : PromContext) (n : Nat) :
    promFindEntryWithMinor context n = (minorEntries context)[n]? := by
  rw [promFindEntryWithMinor, findEntryWithMinor_eq_findEntry, findEntry_eq, Int.zero_add,
    Int.sub_zero, Int.toNat_natCast, minorEntries]
  split
  · rfl
  · rename_i hout
    exact (List.getElem?_eq_none (by omega)).symm

/-! ## Making the nodes -/

/-- The last part of the name of an entry's node. -/
def suffixAt (buff : Nat → UInt8) (pentry : Nat) : Option (List UInt8) :=
  if buff pentry = promDeviceTag then some regSuffix
  else if buff pentry = promDmaTag then promString buff (pentry + 13)
  else promString buff (pentry + 19)

/-- The node of an entry and its offset, with the device name at `p`. -/
def nodeFor (b : Board) (p : Nat) (node : Nat × Nat) : Node :=
  ⟨b.minor + node.2,
    nodeName (promString b.prom.buff p) b.board (suffixAt b.prom.buff node.1)⟩

/-- The loop makes the nodes that the probe's loop counts, and gives them their names. -/
theorem createNodes_named (hall : ∀ minorOff, p.deviceCreate minorOff = true) (name : Nat) :
    ∀ (es : List Nat) (minorOff : Nat) (nodes : List (Nat × Nat)),
      createNodes b es (some name) minorOff (nodes.map (nodeFor b name)) =
        ((Probe.createNodes p b.prom.buff es true minorOff nodes).1,
          (Probe.createNodes p b.prom.buff es true minorOff nodes).2.map (nodeFor b name)) := by
  intro es
  induction es with
  | nil => intro minorOff nodes; rfl
  | cons e es ih =>
    intro minorOff nodes
    have hmake : Probe.deviceCreate p e minorOff nodes = nodes ++ [(e, minorOff)] :=
      if_pos (hall minorOff)
    rw [createNodes, Probe.createNodes]
    by_cases hdevice : b.prom.buff e = promDeviceTag
    · simp only [if_pos hdevice, if_true]
    · simp only [if_neg hdevice]
      by_cases hdma : b.prom.buff e = promDmaTag
      · simp only [if_pos hdma, if_pos (Or.inl hdma), if_true, hmake]
        rw [← ih, List.map_append, List.map_singleton, nodeFor, suffixAt, if_neg hdevice,
          if_pos hdma]
      · simp only [if_neg hdma]
        by_cases hext : b.prom.buff e = promDmaExtTag
        · simp only [if_pos hext, if_pos (Or.inr hext), if_true, hmake]
          rw [← ih, List.map_append, List.map_singleton, nodeFor, suffixAt, if_neg hdevice,
            if_neg hdma]
        · simp only [if_neg hext, if_neg (not_or.mpr ⟨hdma, hext⟩)]
          exact ih minorOff nodes

theorem createNodes_eq (hall : ∀ minorOff, p.deviceCreate minorOff = true) :
    ∀ {es : List Nat} {m : Nat} {ms : List Nat}, needingMinor b.prom.buff es = m :: ms →
      createNodes b es none 0 [] =
        ((Probe.createNodes p b.prom.buff es false 0 []).1,
          (Probe.createNodes p b.prom.buff es false 0 []).2.map (nodeFor b (m + 2))) := by
  intro es
  induction es with
  | nil => intro m ms h; cases h
  | cons e es ih =>
    intro m ms h
    rw [createNodes, Probe.createNodes]
    by_cases hminor : promEntryNeedsMinor (b.prom.buff e) = true
    · rw [Probe.needingMinor_cons_of_pos hminor] at h
      obtain ⟨rfl, -⟩ := List.cons.inj h
      by_cases hdevice : b.prom.buff e = promDeviceTag
      · have hmake : Probe.deviceCreate p e 0 [] = [(e, 0)] := if_pos (hall 0)
        simp only [if_pos hdevice, hmake, Bool.false_eq_true, if_false]
        rw [← createNodes_named hall, List.map_singleton, nodeFor, suffixAt, if_pos hdevice]
        rfl
      · simp only [if_neg hdevice]
        rcases (Probe.needsMinor_iff _).mp hminor with hno | hdma | hext
        · exact absurd hno hdevice
        · simp only [if_pos hdma, if_pos (Or.inl hdma)]
          rfl
        · have hdma : b.prom.buff e ≠ promDmaTag := by
            rw [hext]
            decide
          simp only [if_neg hdma, if_pos hext, if_pos (Or.inr hext)]
          rfl
    · have hdevice : b.prom.buff e ≠ promDeviceTag := fun htag =>
        hminor ((Probe.needsMinor_iff _).mpr (.inl htag))
      have hdma : b.prom.buff e ≠ promDmaTag := fun htag =>
        hminor ((Probe.needsMinor_iff _).mpr (.inr (.inl htag)))
      have hext : b.prom.buff e ≠ promDmaExtTag := fun htag =>
        hminor ((Probe.needsMinor_iff _).mpr (.inr (.inr htag)))
      rw [Probe.needingMinor_cons_of_neg hminor] at h
      simp only [if_neg hdevice, if_neg hdma, if_neg hext, if_neg (not_or.mpr ⟨hdma, hext⟩)]
      exact ih h

/-- The nodes of a board, one for each entry that needs a minor. -/
def ownNodes (b : Board) : List Node :=
  (minorEntries b.prom).zipIdx.map (nodeFor b ((minorEntries b.prom).headD 0 + 2))

/-- **The two models agree**: the nodes are those the probe counts. -/
theorem createDeviceNodes_eq (hall : ∀ minorOff, p.deviceCreate minorOff = true)
    (hcdev : 0 ≤ p.cdevAdd) {es : List Nat} {e : Nat} (hacc : Accepted b.prom es e) :
    createDeviceNodes b = ((Probe.createDeviceNodes p b.prom).1,
      (Probe.createDeviceNodes p b.prom).2.nodes.map (nodeFor b
        ((minorEntries b.prom).headD 0 + 2))) := by
  have hlength := Probe.length_minorEntries hacc
  rw [createDeviceNodes, Probe.createDeviceNodes]
  by_cases hzero : b.prom.nentriesWithMinor = 0
  · rw [if_pos hzero, if_pos hzero]
    rfl
  · rw [if_neg hzero, if_neg hzero, if_neg (Int.not_lt.mpr hcdev)]
    cases hms : minorEntries b.prom with
    | nil =>
      rw [hms] at hlength
      exact absurd hlength.symm hzero
    | cons m ms =>
      have hrc : (Probe.createNodes p b.prom.buff b.prom.entries false 0 []).1 < 0 ∨
          (Probe.createNodes p b.prom.buff b.prom.entries false 0 []).1 = 0 := by
        rw [Probe.createNodes_spec p b.prom.buff b.prom.entries m ms hms]
        split
        · exact .inl (show -einval < 0 by decide)
        · split
          · exact .inl (show -einval < 0 by decide)
          · exact .inr rfl
      rw [createNodes_eq hall hms, List.headD_cons]
      simp only
      rcases hrc with hneg | hok
      · rw [if_pos hneg]
      · rw [if_neg (hok ▸ Int.lt_irrefl 0), hok]

/-! ## A board that is up -/

/-- What a successful probe has checked and set up. -/
structure Up (b : Board) : Prop where
  accepted : ∃ es e, Accepted b.prom es e
  minors : b.prom.nentries ≤ maxMinorsPerBoard
  order : ∃ m ms, minorEntries b.prom = m :: ms ∧ b.prom.buff m = promDeviceTag ∧
    ∀ e ∈ ms, b.prom.buff e = promDmaTag ∨ b.prom.buff e = promDmaExtTag
  dma : b.prom.dmaNentries ≠ 0 → ∃ dma, b.dma = some dma ∧
    ∃ k mask shift log log', Setup.initialiseDmaControl k mask shift log = (.ok dma, log')

theorem Up.le_nentries (h : Up b) : b.prom.nentriesWithMinor ≤ b.prom.nentries := by
  obtain ⟨es, e, hacc⟩ := h.accepted
  rw [hacc.nentriesWithMinor, hacc.nentries]
  exact List.countP_le_length

theorem Up.le_minors (h : Up b) : b.prom.nentriesWithMinor ≤ maxMinorsPerBoard :=
  h.le_nentries.trans h.minors

theorem Up.length_minorEntries (h : Up b) :
    (minorEntries b.prom).length = b.prom.nentriesWithMinor := by
  obtain ⟨es, e, hacc⟩ := h.accepted
  exact Probe.length_minorEntries hacc

/-- There is an engine wherever a region needs it. -/
theorem Up.dma_of_mem (h : Up b) {e : Nat} (he : e ∈ minorEntries b.prom)
    (htag : b.prom.buff e = promDmaTag ∨ b.prom.buff e = promDmaExtTag) :
    ∃ dma, b.dma = some dma ∧
      ∃ k mask shift log log', Setup.initialiseDmaControl k mask shift log = (.ok dma, log') := by
  refine h.dma ?_
  obtain ⟨es, _, hacc⟩ := h.accepted
  have hmem : e ∈ es := hacc.entries_eq ▸ (List.mem_filter.mp he).1
  rw [hacc.dmaNentries]
  exact Nat.pos_iff_ne_zero.mp (List.countP_pos_iff.mpr ⟨e, hmem, decide_eq_true htag⟩)

theorem mem_ownNodes_iff {node : Node} : node ∈ ownNodes b ↔ ∃ n e,
    (minorEntries b.prom)[n]? = some e ∧
      node = nodeFor b ((minorEntries b.prom).headD 0 + 2) (e, n) := by
  rw [ownNodes, List.mem_map]
  constructor
  · rintro ⟨⟨e, n⟩, hmem, rfl⟩
    exact ⟨n, e, List.mem_zipIdx_iff_getElem?.mp hmem, rfl⟩
  · rintro ⟨n, e, hget, rfl⟩
    exact ⟨(e, n), List.mem_zipIdx_iff_getElem?.mpr hget, rfl⟩

theorem Up.hasMinor_of_mem (h : Up b) {node : Node} (hmem : node ∈ ownNodes b) :
    b.HasMinor node.minor := by
  obtain ⟨n, e, hget, rfl⟩ := mem_ownNodes_iff.mp hmem
  have hlt := (List.getElem?_eq_some_iff.mp hget).1
  rw [h.length_minorEntries] at hlt
  exact ⟨Nat.le_add_right .., Nat.add_lt_add_left hlt _⟩

/-- With entries that are written out in full, all nodes have a name. -/
theorem Up.named (h : Up b) (hcomplete : ∀ e ∈ b.prom.entries, Complete b.prom.buff e) :
    ∀ node ∈ ownNodes b, ∃ name, node.name = some name := by
  intro node hnode
  obtain ⟨m, ms, hms, hdevice, -⟩ := h.order
  have hminor : ∀ e ∈ minorEntries b.prom, Complete b.prom.buff e := fun e he =>
    hcomplete e (List.mem_filter.mp he).1
  obtain ⟨n, e, hget, rfl⟩ := mem_ownNodes_iff.mp hnode
  have he := hminor e (List.mem_of_getElem? hget)
  obtain ⟨deviceName, hname⟩ := @Complete.name_of_fuel b.prom.buff m
    (hminor m (hms ▸ List.mem_cons_self ..)) 2 (promMaxLength + 1) (by rw [hdevice]; rfl)
    (by decide)
  have hsuffix : ∃ suffix, suffixAt b.prom.buff e = some suffix := by
    unfold suffixAt
    rcases (Probe.needsMinor_iff _).mp (List.mem_filter.mp (List.mem_of_getElem? hget)).2
      with htag | htag | htag
    · exact ⟨_, if_pos htag⟩
    · rw [htag]
      exact he.name_of_fuel (by rw [htag]; rfl) (by decide)
    · rw [htag]
      exact he.name_of_fuel (by rw [htag]; rfl) (by decide)
  obtain ⟨suffix, hsuffix⟩ := hsuffix
  rw [nodeFor, hms, List.headD_cons, hsuffix]
  simp only [nodeName, promString, hname]
  exact ⟨_, rfl⟩

theorem keyed_ownNodes (b : Board) : Keyed Node.minor (ownNodes b) :=
  keyed_zipIdx (fun _ _ => rfl) (add_right_injective b.minor)

theorem createDeviceNodes_rc (p : Probe.Kernel) (prom : PromContext) :
    (Probe.createDeviceNodes p prom).1 < 0 ∨ (Probe.createDeviceNodes p prom).1 = 0 := by
  unfold Probe.createDeviceNodes
  split
  · exact .inl (show -einval < 0 by decide)
  · split
    · rename_i hcdev
      exact .inl hcdev
    · simp only
      split
      · rename_i hrc
        exact .inl hrc
      · exact .inr rfl

/-- If all goes well the probe makes a node for each entry that needs a minor. -/
theorem nodes_of_order (hall : ∀ minorOff, p.deviceCreate minorOff = true) (hcdev : 0 ≤ p.cdevAdd)
    {prom : PromContext} {m : Nat} {ms : List Nat} (hms : minorEntries prom = m :: ms)
    (hdevice : prom.buff m = promDeviceTag)
    (hrest : ∀ e ∈ ms, prom.buff e = promDmaTag ∨ prom.buff e = promDmaExtTag)
    (hsome : prom.nentriesWithMinor ≠ 0) :
    (Probe.createDeviceNodes p prom).2.nodes = (minorEntries prom).zipIdx := by
  have hnodes := Probe.createNodes_spec p prom.buff prom.entries m ms hms
  rw [if_neg (not_not.mpr hdevice), if_neg ((Setup.regions_iff hms).mp hrest)] at hnodes
  rw [Probe.createDeviceNodes, if_neg hsome, if_neg (Int.not_lt.mpr hcdev), hnodes, hms]
  exact (Probe.created_eq_zipIdx_iff p (m :: ms)).mpr fun minorOff _ => hall minorOff

/-- A board whose nodes could be made is up, and these are its nodes. -/
theorem up_of_createDeviceNodes (hboard : (Setup.initialiseBoard k).1 = .ok b.toBoard)
    (hrc : ¬ (createDeviceNodes b).1 < 0) : Up b ∧ (createDeviceNodes b).2 = ownNodes b := by
  obtain ⟨hload, hminors, hdma⟩ := Setup.initialiseBoard_ok hboard
  obtain ⟨es, e, hacc⟩ := accepted_of_loadProm hload
  have hall : ∀ minorOff, Probe.noSysfsProm.deviceCreate minorOff = true := fun _ => rfl
  have hcdev : 0 ≤ Probe.noSysfsProm.cdevAdd := Int.le_refl 0
  rw [createDeviceNodes_eq hall hcdev hacc] at hrc ⊢
  have hok : (Probe.createDeviceNodes Probe.noSysfsProm b.prom).1 = 0 :=
    (createDeviceNodes_rc _ b.prom).resolve_left hrc
  obtain ⟨m, ms, hms, hdevice, hrest⟩ := (Setup.createDeviceNodes_ok_iff hcdev hacc).mp hok
  have hsome : b.prom.nentriesWithMinor ≠ 0 := by
    rw [← Probe.length_minorEntries hacc, hms]
    exact Nat.succ_ne_zero ms.length
  refine ⟨⟨⟨es, e, hacc⟩, hminors, ⟨m, ms, hms, hdevice, hrest⟩, fun hneeded => ?_⟩, ?_⟩
  · obtain ⟨dma, log, log', hsome, hout⟩ := hdma hneeded
    exact ⟨dma, hsome, k, _, _, log, log', hout⟩
  · rw [nodes_of_order hall hcdev hms hdevice hrest hsome]
    rfl

end Nodes
end AmcPci
