import AmcPci.Proof.Prom.Accept

/-!
# Walks over an accepted PROM

`load_prom` counts the entries while it scans, and everything after it walks them again from
the front. For an accepted PROM both see the same chain: the walk ends within its fuel, and the
three counters are counts over what it visits.
-/

namespace AmcPci

open Lib

/-- A context `load_prom` has returned, with the chain it found. -/
structure Accepted (context : PromContext) (es : List Nat) (e : Nat) : Prop where
  image : PromImage context.buff es e
  length : context.dataLen = imageLength context.buff e
  short : context.dataLen < promMaxLength
  nentries : context.nentries = es.length
  dmaNentries : context.dmaNentries = es.countP fun e =>
    decide (context.buff e = promDmaTag ∨ context.buff e = promDmaExtTag)
  nentriesWithMinor :
    context.nentriesWithMinor = es.countP fun e => promEntryNeedsMinor (context.buff e)

/-- The counters after a chain. -/
theorem PromScan.after_counts {buff : Nat → UInt8} : ∀ {es : List Nat} {s : PromScan} {e : Nat},
    Chain buff s.entI es e →
      (s.after buff es).nentries = s.nentries + es.length ∧
      (s.after buff es).dmaNentries = s.dmaNentries + es.countP (fun e =>
        decide (buff e = promDmaTag ∨ buff e = promDmaExtTag)) ∧
      (s.after buff es).nentriesWithMinor
        = s.nentriesWithMinor + es.countP fun e => promEntryNeedsMinor (buff e) := by
  intro es
  induction es with
  | nil => intro s e _; exact ⟨rfl, rfl, rfl⟩
  | cons p es ih =>
    intro s e hc
    cases hc with
    | cons hp ht =>
      obtain ⟨hn, hd, hm⟩ := @ih (s.step buff) e ht
      rw [PromScan.after_cons, hn, hd, hm]
      refine ⟨?_, ?_, ?_⟩
      · simp only [PromScan.step, List.length_cons]
        omega
      · rw [List.countP_cons]
        simp only [PromScan.step, decide_eq_true_eq]
        split <;> omega
      · rw [List.countP_cons]
        simp only [PromScan.step]
        split <;> omega

theorem accepted_promContextOf {base buff : Nat → UInt8} {es : List Nat} {e : Nat}
    (himage : PromImage buff es e) (hshort : imageLength buff e < promMaxLength) :
    Accepted (promContextOf base buff es e) es e := by
  obtain ⟨hn, hd, hm⟩ := @PromScan.after_counts buff es ⟨promFirstEntryOffset, 0, 0, 0⟩ e
    himage.chain
  exact ⟨himage, rfl, hshort, hn.trans (Nat.zero_add _), hd.trans (Nat.zero_add _),
    hm.trans (Nat.zero_add _)⟩

/-- The context of an image in BAR2. -/
theorem accepted_of_promImage {base : Nat → UInt8} {es : List Nat} {e : Nat} (beyond : Nat → UInt8)
    (himage : PromImage base es e) (hshort : imageLength base e < promMaxLength) :
    Accepted (promContextOf base (promBuffer base beyond) es e) es e := by
  obtain ⟨hbuff, hlength⟩ := (@promImage_promBuffer_iff base beyond _ _ _
    (Nat.le_of_lt hshort)).mpr ⟨himage, rfl⟩
  exact accepted_promContextOf hbuff (hlength ▸ hshort)

theorem accepted_of_loadPromBuff {base buff : Nat → UInt8} {context : PromContext}
    (h : loadPromBuff base buff = .ok context) : ∃ es e, Accepted context es e := by
  obtain ⟨es, e, himage, hshort, rfl⟩ := loadPromBuff_eq_ok_iff.mp h
  exact ⟨es, e, accepted_promContextOf himage hshort⟩

theorem accepted_of_loadProm {defaultProm : List UInt8} {beyond base : Nat → UInt8}
    {kzalloc : Bool} {context : PromContext}
    (h : loadProm defaultProm beyond kzalloc base = .ok context) :
    ∃ es e, Accepted context es e := by
  rw [loadProm] at h
  split at h
  · cases h
  · split at h
    · simp only at h
      split at h
      · exact accepted_of_loadPromBuff h
      · cases h
    · exact accepted_of_loadPromBuff h

/-- The fuel of the walks is enough. -/
theorem Accepted.entries_eq {context : PromContext} {es : List Nat} {e : Nat}
    (h : Accepted context es e) : context.entries = es := by
  have hle := h.image.chain.le
  have hshort := h.short
  rw [h.length, imageLength] at hshort
  have hfuel : es.length < promMaxLength := by omega
  rw [PromContext.entries, promEntries_of_chain h.image.chain h.image.marker hfuel]
  rfl

/-- Every way `load_prom` fails is a negative code. -/
theorem loadProm_error_neg {defaultProm : List UInt8} {beyond base : Nat → UInt8}
    {kzalloc : Bool} {rc : Int} (h : loadProm defaultProm beyond kzalloc base = .error rc) :
    rc < 0 := by
  have hbuff : ∀ {buff : Nat → UInt8}, loadPromBuff base buff = .error rc → rc < 0 := by
    intro buff hb
    rw [loadPromBuff] at hb
    split at hb
    · cases hb; decide
    · simp only at hb
      split at hb
      · cases hb; decide
      · split at hb
        · cases hb
        · cases hb; decide
  rw [loadProm] at h
  split at h
  · cases h; decide
  · split at h
    · simp only at h
      split at h
      · exact hbuff h
      · cases h; decide
    · exact hbuff h

/-! The first image of the unit tests has a device and three regions. -/

theorem promImage_testProm1 : PromImage (storeOf testProm1 0) [5, 16, 34, 52] 70 where
  version := by decide
  chain := .cons (by decide) (.cons (by decide) (.cons (by decide) (.cons (by decide) (.nil 70))))
  marker := by decide
  size := by decide
  checksum := by decide +kernel

theorem loadProm_testProm1 (defaultProm : List UInt8) (beyond : Nat → UInt8) :
    loadProm defaultProm beyond true (storeOf testProm1 0) = .ok
      (promContextOf (storeOf testProm1 0) (promBuffer (storeOf testProm1 0) beyond)
        [5, 16, 34, 52] 70) :=
  (loadProm_eq_ok_iff (by decide)).mpr ⟨_, _, promImage_testProm1, by decide, rfl⟩

end AmcPci
