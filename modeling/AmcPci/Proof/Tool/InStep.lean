import AmcPci.Proof.Prom.RoundTrip

/-!
# The size bytes of the tool's image

Each `dump_` function computes the size byte of its entry from constants and from `len(name)`,
and appends the entry's bytes separately. The constants are right for every layout. `len(name)`
counts characters where `name.encode()` appends UTF-8, so the size is right for a name of ASCII
characters and too small for any other (`walk_iff`): everything behind such a name is then found
at the wrong place. Parity and checksum are right all the same, as they are computed from the
bytes that were appended.
-/

namespace AmcPci

open Lib

/-! ## Characters and bytes -/

/-- Every character is one byte. -/
def IsAscii (s : List Char) : Prop := ∀ c ∈ s, c.toNat < 128

instance (s : List Char) : Decidable (IsAscii s) := List.decidableBAll _ s

theorem utf8EncodeChar_length (c : Char) : 1 ≤ (String.utf8EncodeChar c).length ∧
    ((String.utf8EncodeChar c).length = 1 ↔ c.toNat < 128) := by
  rw [String.length_utf8EncodeChar]
  refine ⟨Char.utf8Size_pos c, ?_⟩
  rw [Char.utf8Size_eq_one_iff, UInt32.le_iff_toNat_le]
  exact Nat.lt_succ_iff.symm

/-- UTF-8 has at least a byte for every character, and no more exactly if all are ASCII. -/
theorem length_encode (s : List Char) : s.length ≤ (encode s).length ∧
    ((encode s).length = s.length ↔ IsAscii s) := by
  unfold IsAscii
  induction s with
  | nil => exact ⟨Nat.le_refl 0, by simp [encode]⟩
  | cons c s ih =>
    obtain ⟨hle, hone⟩ := utf8EncodeChar_length c
    obtain ⟨ihle, iheq⟩ := ih
    have hsplit : (encode (c :: s)).length
        = (String.utf8EncodeChar c).length + (encode s).length := by
      simp [encode]
    rw [hsplit, List.length_cons, List.forall_mem_cons, ← hone, ← iheq]
    omega

/-! ## The walk -/

/-- Where the encodings of the fields start, the first one at `p`. -/
def starts : Nat → List (List UInt8) → List Nat
  | _, [] => []
  | p, bs :: bss => p :: starts (p + bs.length) bss

/-- A walk over the encodings from `p` on starts at `p`. -/
theorem chain_starts_eq {m : Nat → UInt8} {bss : List (List UInt8)} {p p' : Nat}
    (h : Chain m p' (starts p bss) (p + bss.flatten.length)) : p' = p := by
  cases bss with
  | nil => cases h; rfl
  | cons bs bss => cases h; rfl

/-- **The size bytes lead from field to field** exactly if every name is ASCII. -/
theorem walk_iff {m : Nat → UInt8} : ∀ {fs : List ConfigField} {bss : List (List UInt8)} {p : Nat},
    List.Forall₂ (fun f bs => dumpField f = .ok bs) fs bss → (∀ f ∈ fs, f.isVersion = false) →
      Holds m p bss.flatten →
      (Chain m p (starts p bss) (p + bss.flatten.length) ↔
        ∀ f ∈ fs, IsAscii f.text) := by
  intro fs bss p h
  induction h generalizing p with
  | nil =>
    intro _ _
    refine ⟨fun _ f hf => ?_, fun _ => Chain.nil p⟩
    cases hf
  | @cons f bs fs bss hbs _ ih =>
    intro hv hholds
    obtain ⟨n, hn, rfl, hlen, -⟩ := dumpField_shape hbs (hv f (by simp))
    rw [List.flatten_cons] at hholds ⊢
    obtain ⟨hfield, hrest⟩ := holds_append.mp hholds
    obtain ⟨htag, hfield⟩ := holds_cons.mp hfield
    obtain ⟨hsize, -⟩ := holds_cons.mp hfield
    have hp : m p ≠ 0 := by
      rw [htag]
      exact f.entry_tag_ne (hv f (by simp))
    have hnext : nextAt m p = p + n + 2 := by
      rw [nextAt, hsize, UInt8.toNat_ofNat', Nat.mod_eq_of_lt hn]
    have hrest' := ih (fun f hf => hv f (List.mem_cons_of_mem _ hf)) hrest
    have hwidth : (f.entry.1 :: UInt8.ofNat n :: f.entry.2).length = f.entry.2.length + 2 := rfl
    -- the step over this field is as long as its encoding exactly if its text is ASCII
    have hstep : nextAt m p = p + (f.entry.1 :: UInt8.ofNat n :: f.entry.2).length ↔
        IsAscii f.text := by
      rw [← (length_encode f.text).2, hnext, hwidth]
      omega
    rw [List.forall_mem_cons, ← hstep, ← hrest', List.length_append, ← Nat.add_assoc]
    constructor
    · intro hchain
      cases hchain with
      | cons _ ht =>
        have heq := chain_starts_eq ht
        exact ⟨heq, heq ▸ ht⟩
    · rintro ⟨heq, ht⟩
      exact .cons hp (heq.symm ▸ ht)

/-! ## The image -/

/-- The image in the store `m` is in step with its own size bytes: even, closed by its checksum,
    and walked from offset 5 field by field to the END entry that closes it. -/
structure InStep (m : Nat → UInt8) (image : List UInt8) (fs : List ConfigField) : Prop where
  even : image.length % 2 = 0
  checks : image.length ≤ promMaxLength → checkChecksum image = true
  walk : ∃ bss, List.Forall₂ (fun f bs => dumpField f = .ok bs) fs bss ∧
    Holds m promFirstEntryOffset bss.flatten ∧
    Chain m promFirstEntryOffset (starts promFirstEntryOffset bss)
      (promFirstEntryOffset + bss.flatten.length) ∧
    m (promFirstEntryOffset + bss.flatten.length) = promEndTag ∧
    nextAt m (promFirstEntryOffset + bss.flatten.length) = image.length

theorem length_dumpHeader {version : Int} {header : List UInt8}
    (h : dumpHeader version = .ok header) : header.length = promFirstEntryOffset := by
  simp only [dumpHeader, bind_eq_ok, pure_eq_ok] at h
  obtain ⟨v, hv, rfl⟩ := h
  obtain ⟨-, rfl⟩ := pack_eq_ok.mp hv
  rfl

theorem length_dumpEnd_even {content : List UInt8} (hne : content ≠ []) :
    (content ++ dumpEnd content).length % 2 = 0 := by
  rw [List.length_append, dumpEnd, if_pos hne]
  split
  · simp only [List.length_append, List.length_cons, List.length_nil, length_leBytes]
    omega
  · simp only [List.length_append, List.length_cons, List.length_nil, length_leBytes]
    omega

theorem checkChecksum_dumpEnd {content : List UInt8} (hne : content ≠ [])
    (hlen : (content ++ dumpEnd content).length ≤ promMaxLength) :
    checkChecksum (content ++ dumpEnd content) = true := by
  have hmax : promMaxLength = 4096 := rfl
  have hclen : content.length ≤ 2 ^ 16 := by
    rw [List.length_append] at hlen
    omega
  rw [checkChecksum, checksum_eq (by omega), onesSum_dumpEnd hne hclen]
  rfl

/-- What `process_config_file` makes of a configuration that starts with a version. -/
theorem processConfigFile_parts {U : Unicode} {lines : List (List Char)} {version : Int}
    {fs : List ConfigField} {image : List UInt8}
    (hfields : configFields U lines = .ok (.version version :: fs))
    (himage : processConfigFile U lines = .ok image) :
    ∃ header bss, header.length = promFirstEntryOffset ∧
      List.Forall₂ (fun f bs => dumpField f = .ok bs) fs bss ∧
      image = header ++ bss.flatten ++ dumpEnd (header ++ bss.flatten) := by
  simp only [processConfigFile, bind_eq_ok, pure_eq_ok] at himage
  obtain ⟨content, hlines, rfl⟩ := himage
  obtain ⟨bss, hbss, rfl⟩ := processLines_spec hlines hfields
  cases hbss with
  | @cons _ header _ bss hheader hrest =>
    exact ⟨header, bss, length_dumpHeader hheader, hrest, by simp⟩

/-- **When the tool's image is in step with its size bytes.** Its parity and its checksum always
    are right; following the size bytes leads through its fields exactly if every name in the
    configuration is ASCII. -/
theorem inStep_iff {U : Unicode} {lines : List (List Char)} {version : Int}
    {fs : List ConfigField} {image : List UInt8} {m : Nat → UInt8}
    (hfields : configFields U lines = .ok (.version version :: fs))
    (hversion : ∀ f ∈ fs, f.isVersion = false)
    (himage : processConfigFile U lines = .ok image) (hholds : Holds m 0 image) :
    (image.length % 2 = 0 ∧ (image.length ≤ promMaxLength → checkChecksum image = true)) ∧
      (InStep m image fs ↔ ∀ f ∈ fs, IsAscii f.text) := by
  obtain ⟨header, bss, hheader, hbss, rfl⟩ := processConfigFile_parts hfields himage
  have hne : header ++ bss.flatten ≠ [] := by
    intro hnil
    rw [List.append_eq_nil_iff] at hnil
    rw [hnil.1] at hheader
    cases hheader
  have heven := length_dumpEnd_even hne
  have hchecks := fun hlen => checkChecksum_dumpEnd hne hlen
  refine ⟨⟨heven, hchecks⟩, ?_⟩
  obtain ⟨hcontent, hend⟩ := holds_append.mp hholds
  obtain ⟨-, hflat⟩ := holds_append.mp hcontent
  rw [Nat.zero_add, hheader] at hflat
  rw [Nat.zero_add, List.length_append, hheader] at hend
  constructor
  · intro h
    obtain ⟨bss', hbss', hholds', hchain, -, -⟩ := h.walk
    exact (walk_iff hbss' hversion hholds').mp hchain
  · intro hascii
    obtain ⟨size, payload, heq, -, hpay⟩ := dumpEnd_shape hne
    rw [heq, holds_cons, holds_cons] at hend
    obtain ⟨hmark, hsize, -⟩ := hend
    refine ⟨heven, hchecks, bss, hbss, hflat, (walk_iff hbss hversion hflat).mpr hascii, hmark, ?_⟩
    rw [nextAt, hsize, heq, List.length_append, List.length_append, hheader]
    simp only [List.length_cons, hpay]
    omega

theorem inStep_iff_testConfig :
    InStep (storeOf testConfigImage 0) testConfigImage testConfigFields :=
  ((@inStep_iff asciiText testConfig 1 _ testConfigImage (storeOf testConfigImage 0)
    configFields_testConfig (by decide) processConfigFile_testConfig (holds_storeOf _ 0)).2).mpr
    (by decide)

/-- A device whose name is one character and two bytes. -/
def accentConfig : List (List Char) := ["Version: 1\n".toList, "Name: é\n".toList]

def accentImage : List UInt8 :=
  [0x44, 0x49, 0x41, 0x47, 0x01,
    0x01, 2, 0xc3, 0xa9, 0x00,
    0x00, 2, 0xcd, 0xa8]

/-- **One accent puts the image out of step.** The size of the device entry is 2, for the
    character and the NUL; the entry has three bytes behind it. -/
theorem not_inStep_accent :
    configFields asciiText accentConfig = .ok [.version 1, .name "é".toList] ∧
      processConfigFile asciiText accentConfig = .ok accentImage ∧
      checkChecksum accentImage = true ∧
      ¬ InStep (storeOf accentImage 0) accentImage [.name "é".toList] := by
  refine ⟨rfl, rfl, rfl, fun h => ?_⟩
  obtain ⟨bss, hbss, hholds, hchain, -, -⟩ := h.walk
  have hascii := (walk_iff hbss (by decide) hholds).mp hchain
  exact absurd hascii (by decide)

end AmcPci
