import AmcPci.Proof.Nodes.Numbering
import AmcPci.Proof.Prom.Access

/-!
# The walks of an accepted PROM

`load_prom` scans by index and stops at the end of the PROM at the latest. Every walk after it
follows pointers and stops at an end marker only, so that it comes back at all, and what it meets,
is a matter of what was accepted. For an accepted PROM all of them see one list of entries, the
one `load_prom` has counted (`walks_agree`).
-/

namespace AmcPci
namespace Nodes

open Lib Reading
open Probe (needingMinor)

/-! ## The walk with its reads -/

theorem value_promNextEntryLooking (buff : Nat → UInt8) (entry : Nat) :
    (promNextEntryLooking buff entry).value = promNextEntry buff entry := by
  unfold promNextEntryLooking promNextEntry
  rw [value_bind, value_ite]
  rfl

theorem value_promEntriesLooking (buff : Nat → UInt8) : ∀ fuel pos,
    (promEntriesLooking buff fuel pos).value = promEntries buff fuel pos := by
  intro fuel
  induction fuel with
  | zero => intro pos; rfl
  | succ fuel ih =>
    intro pos
    rw [promEntriesLooking, promEntries, value_bind, value_ite, value_bind, value_bind, ih,
      value_promNextEntryLooking]
    rfl

/-- On a chain the walk looks at tags and sizes of the chain and at the tag that ends it. -/
theorem below_promEntriesLooking {buff : Nat → UInt8} : ∀ {es : List Nat} {p e : Nat} (fuel : Nat),
    Chain buff p es e → buff e = promEndTag → Below (e + 1) (promEntriesLooking buff fuel p) := by
  intro es
  induction es with
  | nil =>
    intro p e fuel hc hm
    cases hc
    cases fuel with
    | zero => exact below_pure _ _
    | succ fuel =>
      have hseen : (look buff p).value = promEndTag := hm
      rw [promEntriesLooking, below_bind, if_pos hseen, below_look]
      exact ⟨by omega, below_pure _ _⟩
  | cons p es ih =>
    intro p' e fuel hc hm
    cases hc with
    | cons hp ht =>
      have hlt := lt_nextAt buff p
      have hle := ht.le
      cases fuel with
      | zero => exact below_pure _ _
      | succ fuel =>
        have hp' : ¬ buff p = promEndTag := hp
        have hseen : ¬ (look buff p).value = promEndTag := hp
        have hnext : (promNextEntryLooking buff p).value = nextAt buff p := by
          rw [value_promNextEntryLooking, promNextEntry, if_neg hp', nextAt]
        rw [promEntriesLooking, below_bind, if_neg hseen, below_bind, hnext, below_bind, below_look]
        refine ⟨by omega, ?_, ih fuel ht hm, below_pure _ _⟩
        rw [promNextEntryLooking, below_bind, if_neg hseen, below_bind, below_look, below_look]
        exact ⟨by omega, by omega, below_pure _ _⟩

/-! ## What `load_prom` counts -/

/-- The entries at which the scan loop of `load_prom` counts one up. -/
def scanVisits (buff : Nat → UInt8) (s : PromScan) : List Nat :=
  if s.entI < promMaxLength ∧ buff s.entI ≠ promEndTag then
    s.entI :: scanVisits buff (s.step buff)
  else []
termination_by promMaxLength - s.entI
decreasing_by
  simp only [PromScan.step]
  omega

theorem scanVisits_of_chain {buff : Nat → UInt8} : ∀ {es : List Nat} {s : PromScan} {e : Nat},
    Chain buff s.entI es e → e < promMaxLength → buff e = promEndTag → scanVisits buff s = es := by
  intro es
  induction es with
  | nil =>
    intro s e hc _ hm
    cases hc
    rw [scanVisits, if_neg (by simp [hm])]
  | cons p es ih =>
    intro s e hc he hm
    cases hc with
    | cons hp ht =>
      have hlt := lt_nextAt buff s.entI
      have hle := ht.le
      rw [scanVisits, if_pos ⟨by omega, hp⟩]
      exact congrArg (s.entI :: ·) (ih ht he hm)

/-! ## Finding by number -/

/-- `find` knows the members of `es` by their positions, and nothing else. -/
def Numbers (find : Int → Option Nat) (n : Nat) (es : List Nat) : Prop :=
  es.length = n ∧ ∀ index : Int,
    find index = if 0 ≤ index ∧ index < n then es[index.toNat]? else none

theorem numbers_findEntry (es : List Nat) : Numbers (findEntry · es 0) es.length es := by
  refine ⟨rfl, fun index => ?_⟩
  have hfind := findEntry_eq es index 0
  rwa [Int.zero_add, Int.sub_zero] at hfind

/-! ## Finding by tag -/

/-- `find` is the first member of `es` with the tag, `none` if there is none. -/
def FirstWithTag (buff : Nat → UInt8) (tag : UInt8) (es : List Nat) (find : Option Nat) : Prop :=
  (∀ e, find = some e ↔ buff e = tag ∧ ∃ before after, es = before ++ e :: after ∧
    ∀ e' ∈ before, buff e' ≠ tag) ∧
  (find = none ↔ ∀ e ∈ es, buff e ≠ tag)

theorem firstWithTag_find (buff : Nat → UInt8) (tag : UInt8) (es : List Nat) :
    FirstWithTag buff tag es (es.find? fun e => buff e == tag) := by
  refine ⟨fun e => ?_, ?_⟩
  · rw [List.find?_eq_some_iff_append]
    simp
  · simp [List.find?_eq_none]

/-! ## One list -/

/-- What the walks over the PROM of a context make of it. -/
structure WalksAgree (context : PromContext) (es : List Nat) : Prop where
  /-- `load_prom` has counted these. -/
  scan : scanVisits context.buff ⟨promFirstEntryOffset, 0, 0, 0⟩ = es
  nentries : context.nentries = es.length
  /-- `prom_for_each_entry` ends after one turn an entry, and has visited these. -/
  visits : ∀ fuel, context.nentries < fuel →
    (promEntriesLooking context.buff fuel promFirstEntryOffset).value = some es
  /-- It reads below `data_len` only, however far it has come. -/
  reads : ∀ fuel, Below context.dataLen (promEntriesLooking context.buff fuel promFirstEntryOffset)
  findEntry : Numbers (promFindEntry context) context.nentries es
  findEntryWithMinor : Numbers (promFindEntryWithMinor context) context.nentriesWithMinor
    (es.filter fun e => promEntryNeedsMinor (context.buff e))
  findEntryByTag : ∀ tag, tag ≠ promEndTag →
    FirstWithTag context.buff tag es (promFindEntryByTag context tag)
  dmaNentries : context.dmaNentries = es.countP fun e =>
    decide (context.buff e = promDmaTag ∨ context.buff e = promDmaExtTag)

theorem walksAgree_of_accepted {context : PromContext} {es : List Nat} {e : Nat}
    (h : Accepted context es e) : WalksAgree context es where
  scan := by
    have hlen := h.image.length_le
    have hshort := h.short
    rw [h.length] at hshort
    exact scanVisits_of_chain h.image.chain (by omega) h.image.marker
  nentries := h.nentries
  visits := by
    intro fuel hfuel
    rw [h.nentries] at hfuel
    rw [value_promEntriesLooking]
    exact promEntries_of_chain h.image.chain h.image.marker hfuel
  reads := by
    intro fuel
    have hlen := h.image.length_le
    have hend := below_promEntriesLooking fuel h.image.chain h.image.marker
    refine hend.mono ?_
    rw [h.length]
    omega
  findEntry := by
    unfold promFindEntry
    rw [h.entries_eq, h.nentries]
    exact numbers_findEntry es
  findEntryWithMinor := by
    have hcount : context.nentriesWithMinor
        = (es.filter fun e => promEntryNeedsMinor (context.buff e)).length := by
      rw [h.nentriesWithMinor, List.countP_eq_length_filter]
    unfold promFindEntryWithMinor
    simp only [h.entries_eq, findEntryWithMinor_eq_findEntry]
    rw [hcount]
    exact numbers_findEntry _
  findEntryByTag := by
    intro tag _
    rw [promFindEntryByTag, h.entries_eq]
    exact firstWithTag_find context.buff tag es
  dmaNentries := h.dmaNentries

/-- **All walks see the entries `load_prom` has counted**, for every PROM it accepts. -/
theorem walks_agree {defaultProm : List UInt8} {beyond base : Nat → UInt8} {kzalloc : Bool}
    {context : PromContext} (h : loadProm defaultProm beyond kzalloc base = .ok context) :
    ∃ es, WalksAgree context es := by
  obtain ⟨es, e, hacc⟩ := accepted_of_loadProm h
  exact ⟨es, walksAgree_of_accepted hacc⟩

/-- The first image of the unit tests has a device and three regions. -/
theorem walks_agree_testProm1 : ∃ context,
    loadProm [] (fun _ => 0) true (storeOf testProm1 0) = .ok context ∧
      ∃ es, WalksAgree context es :=
  ⟨_, loadProm_testProm1 [] fun _ => 0, walks_agree (loadProm_testProm1 [] fun _ => 0)⟩

end Nodes
end AmcPci
