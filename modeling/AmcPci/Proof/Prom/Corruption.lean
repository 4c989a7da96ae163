import AmcPci.Proof.Prom.Access
import AmcPci.Proof.Prom.Walk

/-!
# Damage to a payload is detected

The checksum covers the whole image, but it can only be trusted with damage that leaves the tags
and the sizes alone: these decide how much is summed. A change of payload bytes leaves the walk,
and with it the length, as they were (`PayloadChange.image`), so that what is left is arithmetic:
the sum of the words is the same modulo 65535, and one word of 16 bits is a residue modulo 65535
but for zero and all ones, which are the same.
-/

namespace AmcPci

open Lib

/-- Byte `i` of the image of length `len` is neither in the header nor a tag nor a size. -/
def IsPayload (m : Nat → UInt8) (len i : Nat) : Prop :=
  promFirstEntryOffset ≤ i ∧ i < len ∧ ¬ IsHeader m promFirstEntryOffset i

/-- `m'` is `m` with payload bytes of the word at `k` modified. -/
structure PayloadChange (m m' : Nat → UInt8) (len k : Nat) : Prop where
  confined : ∀ i, m' i ≠ m i → i / 2 = k ∧ IsPayload m len i
  changed : ∃ i, m' i ≠ m i

/-- The word at `k` was `0x0000` and is `0xffff`, or the other way round. -/
def Exchanged (m m' : Nat → UInt8) (len k : Nat) : Prop :=
  leWordAt m len k = 0 ∧ leWordAt m' len k = 0xffff ∨
    leWordAt m len k = 0xffff ∧ leWordAt m' len k = 0

variable {m m' : Nat → UInt8} {len k : Nat}

/-! ## The walk stays -/

theorem PayloadChange.eq_of_not_payload (h : PayloadChange m m' len k) {i : Nat}
    (hi : ¬ IsPayload m len i) : m' i = m i :=
  Classical.byContradiction fun hne => hi (h.confined i hne).2

theorem PayloadChange.eq_of_header (h : PayloadChange m m' len k) {i : Nat}
    (hi : IsHeader m promFirstEntryOffset i) : m' i = m i :=
  h.eq_of_not_payload fun hp => hp.2.2 hi

/-- The walk and the end marker of an image stay. -/
theorem PayloadChange.image {es : List Nat} {e : Nat} (h : PayloadChange m m' len k)
    (himage : PromImage m es e) :
    Chain m' promFirstEntryOffset es e ∧ m' e = promEndTag ∧ m' (e + 1) = m (e + 1) := by
  have htag : m' e = m e := h.eq_of_header ⟨es, e, himage.chain, Or.inl rfl⟩
  have hsize : m' (e + 1) = m (e + 1) := h.eq_of_header ⟨es, e, himage.chain, Or.inr rfl⟩
  refine ⟨?_, ?_, hsize⟩
  · refine himage.chain.congr_headers fun e' he' => ?_
    obtain ⟨fs, hfs⟩ := himage.chain.upTo he'
    exact ⟨h.eq_of_header ⟨fs, e', hfs, Or.inl rfl⟩, h.eq_of_header ⟨fs, e', hfs, Or.inr rfl⟩⟩
  · rw [htag]
    exact himage.marker

/-! ## The sum moves -/

theorem leWordAt_lt (m : Nat → UInt8) (len k : Nat) : leWordAt m len k < 65536 := by
  have h₁ := (m (2 * k)).toNat_lt
  have h₂ := (m (2 * k + 1)).toNat_lt
  unfold leWordAt
  split <;> omega

/-- A word is its bytes. -/
theorem eq_of_leWordAt_eq (h : leWordAt m' len k = leWordAt m len k) {i : Nat} (hi : i < len)
    (hk : i / 2 = k) : m' i = m i := by
  have h₁ := (m (2 * k)).toNat_lt
  have h₁' := (m' (2 * k)).toNat_lt
  have h₂ := (m (2 * k + 1)).toNat_lt
  have h₂' := (m' (2 * k + 1)).toNat_lt
  apply UInt8.toNat_inj.mp
  unfold leWordAt at h
  obtain rfl | rfl : i = 2 * k ∨ i = 2 * k + 1 := by omega
  · split at h <;> omega
  · rw [if_pos hi, if_pos hi] at h
    omega

/-- The word a payload change touches is a word of the image. -/
theorem PayloadChange.word (h : PayloadChange m m' len k) :
    ∃ hk : k < (leWords (peek m 0 len)).length, (leWords (peek m 0 len))[k] = leWordAt m len k := by
  obtain ⟨i, hi⟩ := h.changed
  obtain ⟨rfl, hp⟩ := h.confined i hi
  have hlt := hp.2.1
  have hk : i / 2 < (leWords (peek m 0 len)).length := by
    rw [leWords_peek_eq, List.length_map, List.length_range]
    omega
  refine ⟨hk, ?_⟩
  simp only [leWords_peek_eq, List.getElem_map, List.getElem_range]

/-- **One changed word shows in the checksum**, unless zero and all ones are exchanged. -/
theorem PayloadChange.onesChecksum_ne (h : PayloadChange m m' len k)
    (hzero : onesChecksum (peek m 0 len) = 0) (hx : ¬ Exchanged m m' len k) :
    onesChecksum (peek m' 0 len) ≠ 0 := by
  intro hzero'
  have hlt := onesSum_lt (B := 65536) (by decide) (leWords_lt (peek m 0 len))
  have hlt' := onesSum_lt (B := 65536) (by decide) (leWords_lt (peek m' 0 len))
  unfold onesChecksum at hzero hzero'
  have hset : leWords (peek m' 0 len) = (leWords (peek m 0 len)).set k (leWordAt m' len k) :=
    leWords_peek_of_eq_off fun i _ hi =>
      Classical.byContradiction fun hne => hi (h.confined i hne).1
  obtain ⟨hk, hword⟩ := h.word
  have hwords := eq_of_onesSum_set (B := 65536) (by decide) (leWords_lt (peek m 0 len)) hk
    (leWordAt_lt m' len k) (by omega) (by rw [← hset]; omega)
  rw [hword] at hwords
  rcases hwords with hsame | hup | hdown
  · obtain ⟨i, hi⟩ := h.changed
    obtain ⟨hik, hp⟩ := h.confined i hi
    exact hi (eq_of_leWordAt_eq hsame hp.2.1 hik)
  · exact hx (Or.inl hup)
  · exact hx (Or.inr hdown)

/-! ## `load_prom` -/

/-- `load_prom` has one code for every buffer it does not like. -/
theorem loadPromBuff_error_of_not_ok {base buff : Nat → UInt8}
    (h : ∀ context, loadPromBuff base buff ≠ .ok context) :
    loadPromBuff base buff = .error (-eio) := by
  unfold loadPromBuff at h ⊢
  split
  · rfl
  · rename_i hver
    rw [if_neg hver] at h
    simp only at h ⊢
    split
    · rfl
    · rename_i hend
      rw [if_neg hend] at h
      split
      · rename_i hval
        rw [if_pos hval] at h
        exact absurd rfl (h _)
      · rfl

/-- **What a payload change makes of an image is no image**, of whatever length. -/
theorem PayloadChange.not_promImage {es es' : List Nat} {e e' : Nat}
    (h : PayloadChange m m' (imageLength m e) k) (hx : ¬ Exchanged m m' (imageLength m e) k)
    (himage : PromImage m es e) : ¬ PromImage m' es' e' := by
  intro himage'
  obtain ⟨hchain, hmark, hsize⟩ := h.image himage
  -- the walk of the changed image ends where the walk of the image did
  obtain ⟨-, rfl⟩ := hchain.unique hmark himage'.chain himage'.marker
  have hlen : imageLength m' e = imageLength m e := by rw [imageLength, hsize, imageLength]
  have hzero := himage'.checksum
  rw [hlen] at hzero
  exact h.onesChecksum_ne himage.checksum hx hzero

/-- A change of one byte alone never exchanges zero and all ones. -/
theorem not_exchanged_of_byte {i : Nat} (hothers : ∀ j, j ≠ i → m' j = m j) :
    ¬ Exchanged m m' len k := by
  have h₁ := (m (2 * k)).toNat_lt
  have h₁' := (m' (2 * k)).toNat_lt
  have h₂ := (m (2 * k + 1)).toNat_lt
  have h₂' := (m' (2 * k + 1)).toNat_lt
  unfold Exchanged leWordAt
  split
  · by_cases hi : 2 * k = i
    · rw [hothers (2 * k + 1) (by omega)]
      omega
    · rw [hothers (2 * k) hi]
      omega
  · omega

theorem payloadChange_of_byte {i : Nat} (hothers : ∀ j, j ≠ i → m' j = m j) (hi : m' i ≠ m i)
    (hp : IsPayload m len i) : PayloadChange m m' len (i / 2) where
  confined := by
    intro j hj
    obtain rfl : j = i := Classical.byContradiction fun hne => hj (hothers j hne)
    exact ⟨rfl, hp⟩
  changed := ⟨i, hi⟩

/-- `reject` holds of everything that payload damage makes of the image `m`. -/
structure Detects (reject : (Nat → UInt8) → Prop) (m : Nat → UInt8) (len : Nat) : Prop where
  word : ∀ m' k, PayloadChange m m' len k → ¬ Exchanged m m' len k → reject m'
  byte : ∀ m' i, (∀ j, j ≠ i → m' j = m j) → m' i ≠ m i → IsPayload m len i → reject m'

theorem detects_of_word {reject : (Nat → UInt8) → Prop}
    (h : ∀ m' k, PayloadChange m m' len k → ¬ Exchanged m m' len k → reject m') :
    Detects reject m len where
  word := h
  byte := fun m' i hothers hi hp =>
    h m' (i / 2) (payloadChange_of_byte hothers hi hp) (not_exchanged_of_byte hothers)

/-- **Damage to the payload of an accepted image is detected**: by `load_prom` with the damaged
    image in its buffer, wherever that came from, and so in particular with it in BAR2. -/
theorem payloadDamage_detected {defaultProm : List UInt8} {beyond base : Nat → UInt8}
    {kzalloc : Bool} {context : PromContext}
    (h : loadProm defaultProm beyond kzalloc base = .ok context) :
    Detects (fun buff' => ∀ defaultProm' beyond' base',
        filledBuffer defaultProm' beyond' base' = buff' →
          loadProm defaultProm' beyond' true base' = .error (-eio))
        context.buff context.dataLen ∧
      (Holds base 0 [0x44, 0x49, 0x41, 0x47] → ∀ beyond',
        Detects (fun base' => loadProm defaultProm beyond' true base' = .error (-eio))
          base context.dataLen) := by
  cases kzalloc with
  | false => cases h
  | true =>
    refine ⟨?_, fun hmagic beyond' => ?_⟩
    · rw [loadProm_filled] at h
      obtain ⟨es, e, himage, -, rfl⟩ := loadPromBuff_eq_ok_iff.mp h
      refine detects_of_word fun m' k hc hx => ?_
      rintro defaultProm' beyond' base' rfl
      rw [loadProm_filled]
      refine loadPromBuff_error_of_not_ok fun context' hctx' => ?_
      obtain ⟨es', e', himage', -, -⟩ := loadPromBuff_eq_ok_iff.mp hctx'
      exact hc.not_promImage hx himage himage'
    · obtain ⟨⟨es, e, himage, hlen, -⟩, -, -⟩ := promFormat_of_loadProm hmagic h
      rw [← hlen]
      refine detects_of_word fun base' k hc hx => ?_
      have hmagic' : Holds base' 0 [0x44, 0x49, 0x41, 0x47] := by
        refine hmagic.congr fun j hj => hc.eq_of_not_payload fun hp => ?_
        have hfirst : promFirstEntryOffset = 5 := rfl
        have hle := hp.1
        simp only [List.length_cons, List.length_nil] at hj
        omega
      rw [loadProm_of_magic defaultProm beyond' hmagic']
      refine loadPromBuff_error_of_not_ok fun context' hctx' => ?_
      rw [← loadProm_of_magic defaultProm beyond' hmagic'] at hctx'
      obtain ⟨es', e', himage', -, -⟩ := (loadProm_eq_ok_iff hmagic').mp hctx'
      exact hc.not_promImage hx himage himage'

theorem payloadDamage_detected_testProm1 :
    Detects (fun base' => loadProm [] (fun _ => 0) true base' = .error (-eio))
      (storeOf testProm1 0) 74 :=
  (payloadDamage_detected (loadProm_testProm1 [] fun _ => 0)).2 (by decide) fun _ => 0

end AmcPci
