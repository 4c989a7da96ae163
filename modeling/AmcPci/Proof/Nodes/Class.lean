import AmcPci.DmaFile
import AmcPci.Proof.Nodes.Numbering

/-!
# Nodes and opens agree

With 16 minors to a board, those of different boards are apart, and `destroy_device_nodes` does not
come near another board's. So the class always holds the nodes of the boards that are up and no
others, each opens what it is named after, and taking a board away leaves the others as they were
(`nodes_agree`).
-/

namespace AmcPci
namespace Nodes

open Lib
open AmcPci.Core (AccMode validateFilePermission promPermCanRead promPermCanWrite)
open Probe (maxBoards maxMinorsPerBoard getFreeBoard minorEntries)

variable {b : Board} {s s' : State} {k : Setup.Kernel} {p : Probe.Kernel}

/-! ## The class -/

/-- The minors that `destroy_device_nodes` goes through. -/
def Board.Destroys (b : Board) (minor : Nat) : Prop :=
  b.minor ≤ minor ∧ minor < b.minor + b.prom.nentries

instance (b : Board) (minor : Nat) : Decidable (b.Destroys minor) :=
  inferInstanceAs (Decidable (_ ∧ _))

theorem Up.destroys (h : Up b) {minor : Nat} (hminor : b.HasMinor minor) : b.Destroys minor :=
  ⟨hminor.1, Nat.lt_of_lt_of_le hminor.2 (Nat.add_le_add_left h.le_nentries _)⟩

/-- Neither for itself nor to destroy does a board go beyond its 16 minors. -/
theorem apart {b' : Board} (h : Up b) (h' : Up b') (hne : b.board ≠ b'.board) {minor : Nat}
    (hminor : b.Destroys minor) : ¬ b'.HasMinor minor := by
  intro hminor'
  have hle := h.minors
  have hle' := h'.le_minors
  have hnat : (b.board : Nat) ≠ b'.board := fun heq => hne (Fin.ext heq)
  simp only [Board.HasMinor, Board.Destroys, Board.minor, maxMinorsPerBoard] at hminor hminor' hle hle'
  omega

/-- What holds however boards come and go. -/
structure Inv (s : State) : Prop where
  up : ∀ b ∈ s.boards, Up b
  numbers : Keyed Board.board s.boards
  taken : ∀ board, s.deviceBoards board = true ↔ board ∈ s.boards.map Board.board
  nodes : s.nodes = s.boards.flatMap ownNodes

theorem Inv.keyed (h : Inv s) : Keyed Node.minor s.nodes := by
  rw [h.nodes]
  refine keyed_flatMap (fun b _ => keyed_ownNodes b) ?_
  refine (List.pairwise_map.mp h.numbers).imp_of_mem fun {b b'} hb hb' hne => ?_
  intro node hnode node' hnode' heq
  refine apart (h.up b hb) (h.up b' hb') hne
    ((h.up b hb).destroys ((h.up b hb).hasMinor_of_mem hnode)) ?_
  rw [heq]
  exact (h.up b' hb').hasMinor_of_mem hnode'

theorem destroyDeviceNodes_eq {nodes : List Node} (hkeyed : Keyed Node.minor nodes) :
    destroyDeviceNodes b nodes = nodes.filter fun node => ¬ b.Destroys node.minor := by
  unfold destroyDeviceNodes
  refine (foldl_eraseKey hkeyed).trans (List.filter_congr fun node _ => ?_)
  refine decide_eq_decide.mpr (not_congr ?_)
  rw [List.mem_map]
  constructor
  · rintro ⟨i, hi, hminor⟩
    have hlt := List.mem_range.mp hi
    exact ⟨by omega, by omega⟩
  · rintro ⟨hle, hlt⟩
    exact ⟨node.minor - b.minor, List.mem_range.mpr (by omega), by omega⟩

theorem destroys_ownNodes (h : Up b) :
    (ownNodes b).filter (fun node => ¬ b.Destroys node.minor) = [] := by
  rw [List.filter_eq_nil_iff]
  intro node hnode
  simpa using h.destroys (h.hasMinor_of_mem hnode)

/-- The nodes of other boards are not touched. -/
theorem destroys_flatMap (h : Up b) {bs : List Board} (hup : ∀ b' ∈ bs, Up b')
    (hne : ∀ b' ∈ bs, b.board ≠ b'.board) :
    (bs.flatMap ownNodes).filter (fun node => ¬ b.Destroys node.minor) = bs.flatMap ownNodes := by
  rw [List.filter_eq_self]
  intro node hnode
  obtain ⟨b', hb', hmem⟩ := List.mem_flatMap.mp hnode
  have hminor := (hup b' hb').hasMinor_of_mem hmem
  simpa using fun hdestroys => apart h (hup b' hb') (hne b' hb') hdestroys hminor

theorem inv_probe (hi : Inv s) (hs : probe s k = some s') : Inv s' := by
  unfold probe at hs
  split at hs
  · rename_i board b hboard hinit
    simp only at hs
    split at hs
    · cases hs
    · rename_i hrc
      cases hs
      obtain ⟨hup, hnodes⟩ := @up_of_createDeviceNodes { b with board } k hinit hrc
      have hnew : board ∉ s.boards.map Board.board := fun hmem => by
        have htaken := (hi.taken board).mpr hmem
        rw [Probe.getFreeBoard_free hboard] at htaken
        cases htaken
      refine ⟨fun b' hb' => ?_, ?_, fun board' => ?_, ?_⟩
      · rcases List.mem_append.mp hb' with hold | hlast
        · exact hi.up b' hold
        · exact List.mem_singleton.mp hlast ▸ hup
      · refine keyed_append.mpr ⟨hi.numbers, List.nodup_singleton _, fun b' hb' b'' hb'' heq => ?_⟩
        rw [List.mem_singleton.mp hb''] at heq
        exact hnew (List.mem_map.mpr ⟨b', hb', heq⟩)
      · rw [List.map_append, List.mem_append, ← hi.taken board', List.map_singleton,
          List.mem_singleton]
        simp only [Function.update_apply]
        split
        · rename_i heq
          exact iff_of_true rfl (.inr heq)
        · rename_i heq
          exact (or_iff_left heq).symm
      · rw [List.flatMap_append, ← hi.nodes, hnodes, List.flatMap_singleton]
  · cases hs

theorem inv_remove {i : Nat} (hi : Inv s) (hs : remove s i = some s') : Inv s' := by
  obtain ⟨b, hget, rfl⟩ := Option.map_eq_some_iff.mp hs
  have hup := hi.up b (List.mem_of_getElem? hget)
  obtain ⟨front, back, hsplit, herase, hkeyed, hnot⟩ := hi.numbers.split hget
  have hrest : ∀ b' ∈ front ++ back, Up b' := fun b' hb' => hi.up b' (by
    rw [hsplit]
    rcases List.mem_append.mp hb' with hfront | hback
    · exact List.mem_append_left _ hfront
    · exact List.mem_append_right _ (List.mem_cons_of_mem b hback))
  have hne : ∀ b' ∈ front ++ back, b.board ≠ b'.board := fun b' hb' heq =>
    hnot (List.mem_map.mpr ⟨b', hb', heq.symm⟩)
  refine ⟨?_, ?_, fun board => ?_, ?_⟩
  · rw [herase]
    exact hrest
  · rw [herase]
    exact hkeyed
  · rw [herase]
    simp only [Function.update_apply]
    split
    · rename_i heq
      exact iff_of_false Bool.false_ne_true (heq ▸ hnot)
    · rename_i heq
      rw [hi.taken board, hsplit, List.map_append, List.map_append, List.map_cons, List.mem_append,
        List.mem_append, List.mem_cons, or_iff_right heq]
  · rw [herase, destroyDeviceNodes_eq hi.keyed, hi.nodes, hsplit, List.flatMap_append,
      List.flatMap_cons, List.filter_append, List.filter_append, destroys_ownNodes hup,
      List.nil_append, ← List.filter_append, ← List.flatMap_append]
    exact destroys_flatMap hup hrest hne

theorem inv_initial : Inv initial where
  up := fun _ hb => absurd hb List.not_mem_nil
  numbers := List.nodup_nil
  taken := fun _ => iff_of_false Bool.false_ne_true List.not_mem_nil
  nodes := rfl

theorem inv_of_exec {as : List Action} (h : Exec step Always initial as s) : Inv s := by
  refine h.invariant (fun {s s' a} hi _ hs => ?_) inv_initial
  cases a with
  | probe k => exact inv_probe hi hs
  | remove i => exact inv_remove hi hs

/-! ## What a user finds -/

/-- What the entry of a region says about it. -/
structure Region where
  context : MemoryContext
  perm : UInt8
  name : Option (List UInt8)

/-- The region that an entry describes. -/
def regionAt (buff : Nat → UInt8) (pentry : Nat) : Option Region :=
  if buff pentry = promDmaTag then
    some ⟨⟨BitVec.ofNat 64 (dmaEntryBase buff pentry),
      BitVec.ofNat 64 (leValue (peek buff (pentry + 8) 4))⟩, buff (pentry + 12),
      promString buff (pentry + 13)⟩
  else if buff pentry = promDmaExtTag then
    some ⟨⟨BitVec.ofNat 64 (leValue (peek buff (pentry + 2) 8)),
      BitVec.ofNat 64 (leValue (peek buff (pentry + 10) 8))⟩, buff (pentry + 18),
      promString buff (pentry + 19)⟩
  else none

/-- The name of the board's device, which all its nodes begin with. -/
def Board.deviceName (b : Board) : Option (List UInt8) :=
  promString b.prom.buff ((minorEntries b.prom).headD 0 + 2)

/-- The node at the `n`th minor of a board, and the file behind it, are those of the entry. -/
def Serves (s : State) (b : Board) (n pentry : Nat) : Prop :=
  let at_ := 16 * (b.board : Nat) + n
  match regionAt b.prom.buff pentry with
  | none => b.prom.buff pentry = promDeviceTag ∧
    s.nodes.filter (fun node => node.minor = at_)
      = [⟨at_, nodeName b.deviceName b.board (some regSuffix)⟩] ∧
    ∀ mode, openNode s at_ mode = .ok (.reg b.board)
  | some region =>
    s.nodes.filter (fun node => node.minor = at_)
      = [⟨at_, nodeName b.deviceName b.board region.name⟩] ∧
    ∃ dma, (∃ k mask shift log log',
        Setup.initialiseDmaControl k mask shift log = (.ok dma, log')) ∧
      ∀ mode, openNode s at_ mode =
        if validateFilePermission mode (promPermCanRead region.perm) (promPermCanWrite region.perm)
        then .ok (.dma (some dma) region.context) else .error (-eacces)

/-- The kernel comes to the board whose minor it is. -/
theorem find_board (hi : Inv s) (hb : b ∈ s.boards) {minor : Nat} (hminor : b.HasMinor minor) :
    s.boards.find? (fun b => b.HasMinor minor) = some b := by
  cases hfind : s.boards.find? (fun b => b.HasMinor minor) with
  | none => exact absurd (decide_eq_true hminor) (List.find?_eq_none.mp hfind b hb)
  | some b' =>
    have hb' := List.mem_of_find?_eq_some hfind
    have hminor' : b'.HasMinor minor := by
      simpa using List.find?_some hfind
    have hnumber : b.board = b'.board := not_not.mp fun hne =>
      apart (hi.up b hb) (hi.up b' hb') hne ((hi.up b hb).destroys hminor) hminor'
    rw [List.inj_on_of_nodup_map hi.numbers hb hb' hnumber]

theorem node_at (hi : Inv s) (hb : b ∈ s.boards) {n e : Nat}
    (hget : (minorEntries b.prom)[n]? = some e) :
    s.nodes.filter (fun node => node.minor = 16 * (b.board : Nat) + n) =
      [⟨16 * (b.board : Nat) + n,
        nodeName b.deviceName b.board (suffixAt b.prom.buff e)⟩] := by
  have hmem : nodeFor b ((minorEntries b.prom).headD 0 + 2) (e, n) ∈ s.nodes := by
    rw [hi.nodes, List.mem_flatMap]
    exact ⟨b, hb, mem_ownNodes_iff.mpr ⟨n, e, hget, rfl⟩⟩
  have hnode : nodeFor b ((minorEntries b.prom).headD 0 + 2) (e, n) =
      ⟨16 * (b.board : Nat) + n, nodeName b.deviceName b.board (suffixAt b.prom.buff e)⟩ := by
    rw [nodeFor, Board.deviceName, Board.minor, maxMinorsPerBoard, Nat.mul_comm]
  rw [hnode] at hmem
  exact hi.keyed.filter_key hmem

theorem openNode_eq (hi : Inv s) (hb : b ∈ s.boards) {n e : Nat}
    (hget : (minorEntries b.prom)[n]? = some e) (mode : AccMode) :
    openNode s (16 * (b.board : Nat) + n) mode =
      if b.prom.buff e = promDeviceTag then .ok (.reg b.board)
      else match regionAt b.prom.buff e with
        | none => .error (-einval)
        | some region =>
          if validateFilePermission mode (promPermCanRead region.perm) (promPermCanWrite region.perm)
          then .ok (.dma b.dma region.context) else .error (-eacces) := by
  have hlt := (List.getElem?_eq_some_iff.mp hget).1
  rw [(hi.up b hb).length_minorEntries] at hlt
  have hminor : b.HasMinor (16 * (b.board : Nat) + n) := by
    rw [Board.HasMinor, Board.minor, maxMinorsPerBoard]
    omega
  have hindex : ((16 * (b.board : Nat) + n : Nat) : Int) - (b.minor : Nat) = (n : Int) := by
    rw [Board.minor, maxMinorsPerBoard]
    omega
  rw [openNode, find_board hi hb hminor]
  simp only
  rw [amcPciOpen, hindex, promFindEntryWithMinor_eq, hget]
  simp only [regionAt]
  split
  · rfl
  · split
    · rfl
    · split <;> rfl

theorem regionAt_device {buff : Nat → UInt8} {pentry : Nat} (h : buff pentry = promDeviceTag) :
    regionAt buff pentry = none := by
  rw [regionAt, h]
  rfl

theorem regionAt_region {buff : Nat → UInt8} {pentry : Nat}
    (h : buff pentry = promDmaTag ∨ buff pentry = promDmaExtTag) :
    buff pentry ≠ promDeviceTag ∧
      ∃ region, regionAt buff pentry = some region ∧ suffixAt buff pentry = region.name := by
  rcases h with hdma | hext
  · have hdevice : buff pentry ≠ promDeviceTag := by
      rw [hdma]
      decide
    refine ⟨hdevice, _, if_pos hdma, ?_⟩
    rw [suffixAt, if_neg hdevice, if_pos hdma]
  · have hdevice : buff pentry ≠ promDeviceTag := by
      rw [hext]
      decide
    have hdma : buff pentry ≠ promDmaTag := by
      rw [hext]
      decide
    refine ⟨hdevice, _, (if_neg hdma).trans (if_pos hext), ?_⟩
    rw [suffixAt, if_neg hdevice, if_neg hdma]

theorem serves (hi : Inv s) (hb : b ∈ s.boards) {n e : Nat}
    (hget : (minorEntries b.prom)[n]? = some e) : Serves s b n e := by
  have hnode := node_at hi hb hget
  have hmem : e ∈ minorEntries b.prom := List.mem_of_getElem? hget
  unfold Serves
  rcases (Probe.needsMinor_iff _).mp (List.mem_filter.mp hmem).2 with hdevice | htag
  · rw [regionAt_device hdevice]
    refine ⟨hdevice, ?_, fun mode => ?_⟩
    · rw [hnode, suffixAt, if_pos hdevice]
    · rw [openNode_eq hi hb hget, if_pos hdevice]
  · obtain ⟨hdevice, region, hregion, hsuffix⟩ := regionAt_region htag
    obtain ⟨dma, hsome, hinit⟩ := (hi.up b hb).dma_of_mem hmem htag
    rw [hregion]
    refine ⟨?_, dma, hinit, fun mode => ?_⟩
    · rw [hnode, hsuffix]
    · rw [openNode_eq hi hb hget, if_neg hdevice, hregion, hsome]

/-- **Nodes and opens agree** on what each minor stands for. -/
structure Agree (s : State) : Prop where
  /-- The minors of a board, all that its cdev has, are those of its entries in order. -/
  serves : ∀ b ∈ s.boards, ∀ minor, b.HasMinor minor ↔ ∃ n < b.prom.nentriesWithMinor,
    minor = 16 * (b.board : Nat) + n ∧
      ∃ e, (minorEntries b.prom)[n]? = some e ∧ Serves s b n e
  /-- No two boards have a minor in common. -/
  apart : ∀ b ∈ s.boards, ∀ b' ∈ s.boards, b.board = b'.board ∨
    ∀ minor, b.HasMinor minor → ¬ b'.HasMinor minor
  numbers : (s.boards.map Board.board).Nodup
  /-- There are no other nodes. -/
  nodes : ∀ node ∈ s.nodes, ∃ b ∈ s.boards, b.HasMinor node.minor
  /-- `destroy_device_nodes` takes away the nodes of its board, and no others. -/
  destroyed : ∀ b ∈ s.boards, ∀ node, node ∈ destroyDeviceNodes b s.nodes ↔
    node ∈ s.nodes ∧ ¬ b.HasMinor node.minor

theorem agree_of_inv (hi : Inv s) : Agree s where
  serves := fun b hb minor => by
    have hup := hi.up b hb
    constructor
    · rintro ⟨hle, hlt⟩
      obtain ⟨n, rfl⟩ := Nat.exists_eq_add_of_le hle
      have hn : n < b.prom.nentriesWithMinor := Nat.lt_of_add_lt_add_left hlt
      have hget : n < (minorEntries b.prom).length := hup.length_minorEntries ▸ hn
      refine ⟨n, hn, ?_, _, List.getElem?_eq_getElem hget,
        Nodes.serves hi hb (List.getElem?_eq_getElem hget)⟩
      rw [Board.minor, maxMinorsPerBoard, Nat.mul_comm]
    · rintro ⟨n, hn, rfl, -⟩
      rw [Board.HasMinor, Board.minor, maxMinorsPerBoard]
      omega
  apart := fun b hb b' hb' => or_iff_not_imp_left.mpr fun hne minor hminor =>
    Nodes.apart (hi.up b hb) (hi.up b' hb') hne ((hi.up b hb).destroys hminor)
  numbers := hi.numbers
  nodes := fun node hnode => by
    rw [hi.nodes, List.mem_flatMap] at hnode
    obtain ⟨b, hb, hmem⟩ := hnode
    exact ⟨b, hb, (hi.up b hb).hasMinor_of_mem hmem⟩
  destroyed := fun b hb node => by
    rw [destroyDeviceNodes_eq hi.keyed, List.mem_filter]
    refine and_congr_right fun hnode => ?_
    rw [hi.nodes, List.mem_flatMap] at hnode
    obtain ⟨b', hb', hmem⟩ := hnode
    have hminor' := (hi.up b' hb').hasMinor_of_mem hmem
    rw [decide_eq_true_eq, not_iff_not]
    refine ⟨fun hdestroys => ?_, (hi.up b hb).destroys⟩
    have hnumber : b.board = b'.board := not_not.mp fun hne =>
      Nodes.apart (hi.up b hb) (hi.up b' hb') hne hdestroys hminor'
    rw [List.inj_on_of_nodup_map hi.numbers hb hb' hnumber]
    exact hminor'

/-- The machine leaves out no probe: one that the kernel lets through is a step. -/
theorem step_of_bringsUp (hall : ∀ minorOff, p.deviceCreate minorOff = true) (hcdev : 0 ≤ p.cdevAdd)
    (h : Setup.BringsUp k p) (hfree : ∃ board, s.deviceBoards board = false) :
    ∃ b : Board, getFreeBoard s.deviceBoards = some b.board ∧
      (Setup.initialiseBoard k).1 = .ok b.toBoard ∧
      step s (.probe k) = some ⟨Function.update s.deviceBoards b.board true, s.boards ++ [b],
        s.nodes ++ ownNodes b⟩ := by
  obtain ⟨b, log, hboard, hnodes⟩ := h
  obtain ⟨hload, -⟩ := Setup.initialiseBoard_ok (congrArg Prod.fst hboard)
  obtain ⟨es, e, hacc⟩ := accepted_of_loadProm hload
  cases hget : getFreeBoard s.deviceBoards with
  | none =>
    obtain ⟨board, hboard⟩ := hfree
    rw [Probe.getFreeBoard_eq_none_iff.mp hget board] at hboard
    cases hboard
  | some board =>
    have hrc : ¬ (createDeviceNodes { b with board }).1 < 0 := by
      rw [createDeviceNodes_eq hall hcdev hacc, hnodes]
      exact Int.lt_irrefl 0
    have hinit : (Setup.initialiseBoard k).1 = .ok b := congrArg Prod.fst hboard
    refine ⟨{ b with board }, rfl, hinit, ?_⟩
    obtain ⟨-, hown⟩ := @up_of_createDeviceNodes { b with board } k hinit hrc
    rw [step, probe, hget, hinit]
    simp only
    rw [if_neg hrc, hown]

/-- What `amc_pci_open` returns, by what the device's own open does. -/
def openRc (regOpen dmaOpen : Int) : Except Int Opened → Int
  | .error rc => rc
  | .ok (.reg _) => regOpen
  | .ok (.dma _ _) => dmaOpen

/-- The open here is the one that `AmcPci.Core` interleaves with the removal. -/
theorem deviceOpen_eq {minor fuel pentry : Nat} {mode : AccMode} {entry : PromEntry}
    {regOpen dmaOpen : Int}
    (hfind : promFindEntryWithMinor b.prom ((minor : Int) - b.minor) = some pentry)
    (hentry : promEntryAt b.prom.buff fuel pentry = some entry) :
    Core.deviceOpen ⟨some entry, mode, regOpen, dmaOpen⟩ =
      openRc regOpen dmaOpen (amcPciOpen b minor mode) := by
  rw [amcPciOpen, hfind]
  simp only
  cases decoded_of_promEntryAt hentry with
  | device htag =>
    rw [if_pos htag]
    rfl
  | dma htag =>
    rw [htag, if_neg (by decide), if_pos rfl, apply_ite (openRc regOpen dmaOpen)]
    rfl
  | dmaExt htag =>
    rw [htag, if_neg (by decide), if_neg (by decide), if_pos rfl,
      apply_ite (openRc regOpen dmaOpen)]
    rfl
  | dmaMask htag =>
    rw [htag]
    rfl
  | dmaAlign htag =>
    rw [htag]
    rfl

/-- And a region's file is the one that `AmcPci.DmaFile` reads and writes. -/
theorem openContext_eq {buff : Nat → UInt8} {fuel pentry : Nat} {entry : PromEntry}
    (hentry : promEntryAt buff fuel pentry = some entry) :
    DmaFile.openContext entry = (regionAt buff pentry).map Region.context := by
  cases decoded_of_promEntryAt hentry with
  | device htag =>
    rw [regionAt_device htag]
    rfl
  | dma htag =>
    rw [regionAt, if_pos htag]
    rfl
  | dmaExt htag =>
    rw [regionAt, htag, if_neg (by decide), if_pos rfl]
    rfl
  | dmaMask htag =>
    rw [regionAt, htag]
    rfl
  | dmaAlign htag =>
    rw [regionAt, htag]
    rfl

theorem bringsUp_testProm1 :
    Setup.BringsUp { Setup.granting with prom := storeOf testProm1 0 } Probe.noSysfsProm := by
  refine (Setup.bringsUp_iff (Setup.granted_granting testProm1)
    (loadProm_testProm1 [] fun _ => 0)).mpr ⟨⟨?_, ?_⟩, by decide, fun _ => by decide⟩
  · exact ⟨5, [16, 34, 52], Probe.minorEntries_testProm1, by decide, by decide⟩
  · rw [Probe.minorEntries_testProm1]
    decide

end Nodes
end AmcPci
