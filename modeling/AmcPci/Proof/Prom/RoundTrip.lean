import AmcPci.Proof.Prom.Accept
import AmcPci.Proof.Tool.Image

/-!
# What the tool writes, the driver loads

The encoder is a Python script and the decoder is C that overlays packed structures; neither
mentions the other. The round trip is proved in three steps, one per level of the format:

* a single field: `promEntryAt_of_record` reads back, at the offset of its record, the values
  the field was configured with, in either of the two region layouts;
* the chain: the records are visited in order, because the size bytes agree with what was
  appended (`chain_of_holds`);
* the image: `promImage_of_fields`, where the end marker closes the chain and the checksum.
-/

namespace AmcPci

open Lib

/-! ## One field -/

/-- An entry carries the configured values. The name is compared as text. -/
def ConfigField.Decodes : ConfigField → PromEntry → Prop
  | .name value, .device n => n.map (fun b => Char.ofNat b.toNat) = value
  | .dma region base length perm, .dma b l p n =>
    (b : Int) = base ∧ (l : Int) = length ∧ (p.toNat : Int) = perm ∧
      n.map (fun b => Char.ofNat b.toNat) = region
  | .dma region base length perm, .dmaExt b l p n =>
    (b : Int) = base ∧ (l : Int) = length ∧ (p.toNat : Int) = perm ∧
      n.map (fun b => Char.ofNat b.toNat) = region
  | .mask v, .dmaMask b => (b.toNat : Int) = v
  | .alignShift v, .dmaAlign b => (b.toNat : Int) = v
  | _, _ => False

theorem encode_text {name : List Char} (h : AsciiName name) :
    (encode name).map (fun b => Char.ofNat b.toNat) = name := by
  rw [encode_ascii h, List.map_map]
  conv_rhs => rw [← List.map_id name]
  refine List.map_congr_left fun c hc => ?_
  have hlt := (h c hc).2
  have hnat : (UInt8.ofNat c.toNat).toNat = c.toNat := by
    rw [UInt8.toNat_ofNat', Nat.mod_eq_of_lt (by omega)]
  rw [Function.comp_apply, hnat, Char.ofNat_toNat]
  rfl

theorem encode_ne_zero {name : List Char} (h : AsciiName name) : ∀ b ∈ encode name, b ≠ 0 := by
  rw [encode_ascii h]
  intro b hb
  obtain ⟨c, hc, rfl⟩ := List.mem_map.mp hb
  obtain ⟨hpos, hlt⟩ := h c hc
  intro hzero
  have := congrArg UInt8.toNat hzero
  rw [UInt8.toNat_ofNat', Nat.mod_eq_of_lt (by omega)] at this
  exact absurd this (by simpa using Nat.pos_iff_ne_zero.mp hpos)

/-- A name is read up to its NUL. -/
theorem cString_of_holds {m : Nat → UInt8} : ∀ {name : List UInt8} {p fuel : Nat},
    Holds m p (name ++ [0]) → (∀ b ∈ name, b ≠ 0) → name.length < fuel →
      cString m fuel p = some name := by
  intro name
  induction name with
  | nil =>
    intro p fuel h _ hf
    cases fuel with
    | zero => exact absurd hf (by simp)
    | succ fuel => rw [cString, if_pos (holds_cons.mp h).1]
  | cons b bs ih =>
    intro p fuel h hz hf
    cases fuel with
    | zero => exact absurd hf (by simp)
    | succ fuel =>
      obtain ⟨hb, hbs⟩ := holds_cons.mp h
      have hne : m p ≠ 0 := by
        rw [hb]
        exact hz b (by simp)
      rw [cString, if_neg hne, ih hbs (fun x hx => hz x (by simp [hx])) (by simpa using hf), hb]
      rfl

/-- The three `u16` of a short entry, put together, are its six base bytes as one number. -/
theorem dmaEntryBase_eq (m : Nat → UInt8) (e : Nat) :
    dmaEntryBase m e = leValue (peek m (e + 2) 6) := by
  have h₀ := leValue_lt (peek m (e + 2) 2)
  have h₁ := leValue_lt (peek m (e + 4) 2)
  rw [length_peek] at h₀ h₁
  have hlow : leValue (peek m (e + 2) 2) ||| leValue (peek m (e + 4) 2) <<< 16
      = 2 ^ 16 * leValue (peek m (e + 4) 2) + leValue (peek m (e + 2) 2) := by
    rw [Nat.or_comm, ← Nat.shiftLeft_add_eq_or_of_lt (by omega), Nat.shiftLeft_eq, Nat.mul_comm]
  have hall : ∀ x, x < 2 ^ 32 → x ||| leValue (peek m (e + 6) 2) <<< 32
      = 2 ^ 32 * leValue (peek m (e + 6) 2) + x := by
    intro x hx
    rw [Nat.or_comm, ← Nat.shiftLeft_add_eq_or_of_lt hx, Nat.shiftLeft_eq, Nat.mul_comm]
  have hsplit : peek m (e + 2) 6
      = peek m (e + 2) 2 ++ (peek m (e + 4) 2 ++ peek m (e + 6) 2) := by
    rw [show (6 : Nat) = 2 + (2 + 2) from rfl, peek_add, peek_add]
  rw [dmaEntryBase, hlow, hall _ (by omega), hsplit, leValue_append, leValue_append,
    length_peek, length_peek]
  omega

/-- A number written in enough bytes is read back from the store. -/
theorem leValue_peek_of_holds {m : Nat → UInt8} {p n : Nat} {v : Int}
    (h : Holds m p (leBytes n v.toNat)) (hv : 0 ≤ v) (hlt : v < 256 ^ n) :
    (leValue (peek m p n) : Int) = v := by
  have hpeek : peek m p (leBytes n v.toNat).length = leBytes n v.toNat := h
  rw [length_leBytes] at hpeek
  have hlt' : v.toNat < 256 ^ n := by
    have hcast : (v.toNat : Int) < ((256 ^ n : Nat) : Int) := by
      rw [Int.toNat_of_nonneg hv]
      exact_mod_cast hlt
    exact_mod_cast hcast
  rw [hpeek, leValue_leBytes, Nat.mod_eq_of_lt hlt', Int.toNat_of_nonneg hv]

/-- The same for a single byte. -/
theorem toNat_of_holds_byte {m : Nat → UInt8} {p : Nat} {v : Int}
    (h : Holds m p (leBytes 1 v.toNat)) (hv : 0 ≤ v) (hlt : v < 256) : ((m p).toNat : Int) = v := by
  have hval := leValue_peek_of_holds h hv (by simpa using hlt)
  simpa [peek, leValue] using hval

/-- A region in the extended layout. -/
theorem promEntryAt_dmaExt {m : Nat → UInt8} {p fuel : Nat} {region : List Char}
    {base length perm : Int} (htag : m p = promDmaExtTag)
    (hpay : Holds m (p + 2) (leBytes 8 base.toNat ++ leBytes 8 length.toNat ++
      leBytes 1 perm.toNat ++ encode region ++ [0]))
    (ha : AsciiName region) (hin : (ConfigField.dma region base length perm).InRange)
    (hname : (encode region).length < fuel) : ∃ entry, promEntryAt m fuel p = some entry ∧
      (ConfigField.dma region base length perm).Decodes entry := by
  obtain ⟨hbase, hlength, hperm⟩ := hin
  obtain ⟨hpay, hnul⟩ := holds_append.mp hpay
  obtain ⟨hpay, hregion⟩ := holds_append.mp hpay
  obtain ⟨hpay, hp⟩ := holds_append.mp hpay
  obtain ⟨hb, hl⟩ := holds_append.mp hpay
  simp only [List.length_append, length_leBytes] at hl hp hregion hnul
  have hstring := @cString_of_holds _ _ _ fuel (holds_append.mpr ⟨hregion, by
    convert hnul using 1
    omega⟩) (encode_ne_zero ha) hname
  refine ⟨.dmaExt (leValue (peek m (p + 2) 8)) (leValue (peek m (p + 10) 8)) (m (p + 18))
    (encode region), ?_, leValue_peek_of_holds hb hbase.1 hbase.2,
    leValue_peek_of_holds hl hlength.1 hlength.2, toNat_of_holds_byte hp hperm.1 hperm.2,
    encode_text ha⟩
  rw [promEntryAt, htag]
  exact congrArg (Option.map _) hstring

/-- And in the short one, where the base is in two pieces. -/
theorem promEntryAt_dma {m : Nat → UInt8} {p fuel : Nat} {region : List Char}
    {base length perm : Int} (htag : m p = promDmaTag)
    (hpay : Holds m (p + 2) (leBytes 4 (base % 2 ^ 32).toNat ++ leBytes 2 (base / 2 ^ 32).toNat ++
      leBytes 4 length.toNat ++ leBytes 1 perm.toNat ++ encode region ++ [0]))
    (ha : AsciiName region) (hin : (ConfigField.dma region base length perm).InRange)
    (hshort : base ≤ 0xffffffffffff ∧ length ≤ 0xffffffff)
    (hname : (encode region).length < fuel) : ∃ entry, promEntryAt m fuel p = some entry ∧
      (ConfigField.dma region base length perm).Decodes entry := by
  obtain ⟨hbase, hlength, hperm⟩ := hin
  obtain ⟨hpay, hnul⟩ := holds_append.mp hpay
  obtain ⟨hpay, hregion⟩ := holds_append.mp hpay
  obtain ⟨hpay, hp⟩ := holds_append.mp hpay
  obtain ⟨hpay, hl⟩ := holds_append.mp hpay
  obtain ⟨hlow, hhigh⟩ := holds_append.mp hpay
  simp only [List.length_append, length_leBytes] at hhigh hl hp hregion hnul
  have hstring := @cString_of_holds _ _ _ fuel (holds_append.mpr ⟨hregion, by
    convert hnul using 1
    omega⟩) (encode_ne_zero ha) hname
  have hlow' := leValue_peek_of_holds hlow (by omega) (by omega)
  have hhigh' := leValue_peek_of_holds hhigh (by omega) (by omega)
  have hsum : ((leValue (peek m (p + 2) 6) : Nat) : Int) = base := by
    rw [show (6 : Nat) = 4 + 2 from rfl, peek_add, leValue_append, length_peek]
    push_cast
    rw [hlow', hhigh']
    omega
  refine ⟨.dma (dmaEntryBase m p) (leValue (peek m (p + 8) 4)) (m (p + 12))
    (encode region), ?_, ?_, leValue_peek_of_holds hl hlength.1 (by omega),
    toNat_of_holds_byte hp hperm.1 hperm.2, encode_text ha⟩
  · rw [promEntryAt, htag]
    exact congrArg (Option.map _) hstring
  · rw [dmaEntryBase_eq]
    exact hsum

/-- **One field, read back.** At a record that is the entry of a field, the driver finds the
    values of the field. Names fit in one entry, so 256 turns always find their NUL. -/
theorem promEntryAt_of_record {m : Nat → UInt8} {p fuel : Nat} {f : ConfigField} {r : Record}
    (h : Holds m p r.bytes) (hr : (r.tag, r.payload) = f.entry) (hv : f.isVersion = false)
    (ha : f.Ascii) (hin : f.InRange) (hf : 256 ≤ fuel) :
    ∃ entry, promEntryAt m fuel p = some entry ∧ f.Decodes entry := by
  have hfit := r.fits
  obtain ⟨htag, hrest⟩ := holds_cons.mp h
  obtain ⟨-, hpay⟩ := holds_cons.mp hrest
  rw [show p + 1 + 1 = p + 2 from rfl] at hpay
  have htag' : r.tag = f.entry.1 := congrArg Prod.fst hr
  have hpay' : r.payload = f.entry.2 := congrArg Prod.snd hr
  rw [htag'] at htag
  rw [hpay'] at hpay hfit
  cases f with
  | version v => simp [ConfigField.isVersion] at hv
  | name value =>
    have hname := @cString_of_holds _ _ _ fuel hpay (encode_ne_zero ha) (by
      simp [ConfigField.entry] at hfit
      omega)
    refine ⟨.device (encode value), ?_, encode_text ha⟩
    rw [promEntryAt, if_pos (show m p = promDeviceTag from htag)]
    exact congrArg (Option.map _) hname
  | mask v =>
    refine ⟨.dmaMask (m (p + 2)), ?_, toNat_of_holds_byte hpay hin.1 hin.2⟩
    rw [promEntryAt, htag]
    rfl
  | alignShift v =>
    refine ⟨.dmaAlign (m (p + 2)), ?_, toNat_of_holds_byte hpay hin.1 hin.2⟩
    rw [promEntryAt, htag]
    rfl
  | dma region base length perm =>
    by_cases hext : base > 0xffffffffffff ∨ length > 0xffffffff
    · rw [ConfigField.entry, if_pos hext] at htag hpay hfit
      simp only [List.length_append, length_leBytes] at hfit
      exact promEntryAt_dmaExt htag hpay ha hin (by omega)
    · rw [ConfigField.entry, if_neg hext] at htag hpay hfit
      simp only [List.length_append, length_leBytes] at hfit
      exact promEntryAt_dma htag hpay ha hin (by omega) (by omega)

/-! ## All fields -/

/-- The bytes of a list of fields are a chain of their records. -/
theorem fields_records : ∀ {fs : List ConfigField} {bss : List (List UInt8)},
    List.Forall₂ (fun f bs => dumpField f = .ok bs) fs bss →
      (∀ f ∈ fs, f.isVersion = false) → (∀ f ∈ fs, f.Ascii) →
      ∃ rs, bss.flatten = chainBytes rs ∧
        List.Forall₂ (fun f r => (r.tag, r.payload) = f.entry ∧ f.InRange) fs rs := by
  intro fs bss h
  induction h with
  | nil => intro _ _; exact ⟨[], rfl, .nil⟩
  | @cons f bs fs bss hbs _ ih =>
    intro hv ha
    obtain ⟨r, rfl, hr, hin⟩ := dumpField_record hbs (hv f (by simp)) (ha f (by simp))
    obtain ⟨rs, hflat, hrs⟩ := ih (fun x hx => hv x (by simp [hx])) (fun x hx => ha x (by simp [hx]))
    exact ⟨r :: rs, by rw [List.flatten_cons, hflat, chainBytes_cons], .cons ⟨hr, hin⟩ hrs⟩

/-- Each offset of the chain decodes to its field. -/
theorem forall₂_decodes {m : Nat → UInt8} : ∀ {fs : List ConfigField} {rs : List Record} {p : Nat},
    List.Forall₂ (fun f r => (r.tag, r.payload) = f.entry ∧ f.InRange) fs rs →
      Holds m p (chainBytes rs) → (∀ f ∈ fs, f.isVersion = false) → (∀ f ∈ fs, f.Ascii) →
      List.Forall₂ (fun f e => ∀ fuel, 256 ≤ fuel →
        ∃ entry, promEntryAt m fuel e = some entry ∧ f.Decodes entry) fs (offsets p rs) := by
  intro fs rs p h
  induction h generalizing p with
  | nil => intro _ _ _; exact .nil
  | @cons f r fs rs hr _ ih =>
    intro hholds hv ha
    obtain ⟨hhead, htail⟩ := holds_append.mp hholds
    refine .cons (fun fuel hf => ?_) (ih htail (fun x hx => hv x (by simp [hx])) fun x hx =>
      ha x (by simp [hx]))
    exact promEntryAt_of_record hhead hr.1 (hv f (by simp)) (ha f (by simp)) hr.2 hf

/-! ## The image -/

/-- Where the header, the fields and the end marker of an image lie. -/
theorem holds_image {m : Nat → UInt8} {rs : List Record} {content image : List UInt8}
    (hcontent : content = [0x44, 0x49, 0x41, 0x47, 0x01] ++ chainBytes rs)
    (himage : image = content ++ dumpEnd content) (hholds : Holds m 0 image) :
    Holds m 0 [0x44, 0x49, 0x41, 0x47, 0x01] ∧ Holds m promFirstEntryOffset (chainBytes rs) ∧
      Holds m content.length (dumpEnd content) := by
  rw [himage, holds_append, Nat.zero_add] at hholds
  obtain ⟨hcon, hmark⟩ := hholds
  rw [hcontent, holds_append] at hcon
  exact ⟨hcon.1, hcon.2, hmark⟩

/-- The five header bytes, a chain, and the end marker of `dump_end` make a PROM image. -/
theorem promImage_of_fields {m : Nat → UInt8} {rs : List Record} {content image : List UInt8}
    (hcontent : content = [0x44, 0x49, 0x41, 0x47, 0x01] ++ chainBytes rs)
    (himage : image = content ++ dumpEnd content) (hholds : Holds m 0 image)
    (hlen : image.length ≤ 2 ^ 16) :
    PromImage m (offsets promFirstEntryOffset rs) content.length ∧
      imageLength m content.length = image.length := by
  have hne : content ≠ [] := by simp [hcontent]
  have hclen : content.length = promFirstEntryOffset + (chainBytes rs).length := by
    rw [hcontent, List.length_append]
    rfl
  have hsum := onesSum_dumpEnd hne (by
    rw [himage, List.length_append] at hlen
    omega)
  obtain ⟨size, payload, hend, hsize, hpay⟩ := dumpEnd_shape hne
  have hwhole : peek m 0 image.length = image := hholds
  obtain ⟨hheader, hchain, hmark⟩ := holds_image hcontent himage hholds
  have hversion : m promVersionOffset = promVersion := hheader.get (k := 4) (by decide)
  have hwalk := chain_of_holds hchain
  rw [← hclen] at hwalk
  rw [hend, holds_cons, holds_cons] at hmark
  obtain ⟨hmark, hsizeAt, _⟩ := hmark
  have hlength : imageLength m content.length = image.length := by
    rw [imageLength, hsizeAt, himage, hend]
    simp [hpay]
    omega
  refine ⟨⟨hversion, hwalk, hmark, ?_, ?_⟩, hlength⟩
  · rw [hsizeAt]
    exact hsize
  · rw [hlength, hwhole, onesChecksum, himage, hsum]

/-- **The round trip.** A configuration `Version: 1` followed by any fields with ASCII names, once
    written by the tool into fewer than `PROM_MAX_LENGTH` bytes and padded with zeros, is loaded by
    the driver. The walk over the loaded entries visits one entry a field, in order, and each
    carries the values of its field. -/
theorem loadProm_processConfigFile {U : Unicode} {lines : List (List Char)}
    {fs : List ConfigField} {image defaultProm : List UInt8} {beyond : Nat → UInt8}
    (hfields : configFields U lines = .ok (.version 1 :: fs))
    (hversion : ∀ f ∈ fs, f.isVersion = false) (hascii : ∀ f ∈ fs, f.Ascii)
    (himage : processConfigFile U lines = .ok image) (hlen : image.length < promMaxLength) :
    ∃ ctx es, loadProm defaultProm beyond true (storeOf image 0) = .ok ctx ∧
      ctx.dataLen = image.length ∧
      (∀ fuel, fs.length < fuel → promEntries ctx.buff fuel promFirstEntryOffset = some es) ∧
      List.Forall₂ (fun f e => ∀ fuel, 256 ≤ fuel →
        ∃ entry, promEntryAt ctx.buff fuel e = some entry ∧ f.Decodes entry) fs es := by
  simp only [processConfigFile, bind_eq_ok, pure_eq_ok] at himage
  obtain ⟨content, hlines, rfl⟩ := himage
  obtain ⟨bss, hbss, rfl⟩ := processLines_spec hlines hfields
  cases hbss with
  | @cons _ header _ bss hheader hrest =>
    obtain ⟨rs, hflat, hrs⟩ := fields_records hrest hversion hascii
    have hheader' : header = [0x44, 0x49, 0x41, 0x47, 0x01] := (Except.ok.inj hheader).symm
    have hcontent : [] ++ (header :: bss).flatten
        = [0x44, 0x49, 0x41, 0x47, 0x01] ++ chainBytes rs := by
      rw [List.nil_append, List.flatten_cons, hflat, hheader']
    generalize hc : [] ++ (header :: bss).flatten = content at *
    generalize hi : content ++ dumpEnd content = image at *
    have hstore := holds_storeOf image 0
    -- the buffer the driver scans holds the image too, being the PROM below its end
    have hbuff : Holds (promBuffer (storeOf image 0) beyond) 0 image :=
      hstore.congr fun k hk => promBuffer_of_lt (by omega)
    obtain ⟨hstoreImage, hstoreLen⟩ := promImage_of_fields hcontent hi.symm hstore (by
      simp only [promMaxLength] at hlen
      omega)
    obtain ⟨hbuffImage, hbuffLen⟩ := promImage_of_fields hcontent hi.symm hbuff (by
      simp only [promMaxLength] at hlen
      omega)
    have hmagic : Holds (storeOf image 0) 0 [0x44, 0x49, 0x41, 0x47] :=
      (@holds_append _ _ [0x44, 0x49, 0x41, 0x47] [0x01]).mp
        (holds_image hcontent hi.symm hstore).1 |>.1
    refine ⟨promContextOf (storeOf image 0) (promBuffer (storeOf image 0) beyond)
      (offsets promFirstEntryOffset rs) content.length, offsets promFirstEntryOffset rs,
      (loadProm_eq_ok_iff hmagic).mpr ⟨_, _, hstoreImage, by omega, rfl⟩, hbuffLen, ?_, ?_⟩
    · intro fuel hfuel
      refine promEntries_of_chain hbuffImage.chain hbuffImage.marker ?_
      rw [length_offsets, ← hrs.length_eq]
      exact hfuel
    · exact forall₂_decodes hrs (holds_image hcontent hi.symm hbuff).2.1 hversion hascii

/-- The part of Python's text handling that plain ASCII configurations use. -/
def asciiText : Unicode where
  isSpace c := c ∈ [' ', '\t', '\n', '\r']
  lower s := s.map Char.toLower
  decimal c := if '0' ≤ c ∧ c ≤ '9' then some (c.toNat - '0'.toNat) else none

/-- A configuration with fields of every kind: regions that fit the short form, the last one just so,
    and regions that need the extended one for their base or their length; and permissions in
    letters and as a number. -/
def testConfig : List (List Char) :=
  ["# A board\n".toList, "Version: 1\n".toList, "\n".toList, "Name: test-name\n".toList,
    "mask: 64\n".toList, "Align_Shift: 6\n".toList, "DMA: reg1 R 0 1000\n".toList,
    "Region: reg2 rw 1_0000_0000_0000 2000\n".toList, "region: reg3 W 8000 1_0000_0000\n".toList,
    "DMA: reg4 7 ffff_ffff_ffff 0xffff_ffff\n".toList]

/-- What it says, after its version. -/
def testConfigFields : List ConfigField :=
  [.name "test-name".toList, .mask 64, .alignShift 6, .dma "reg1".toList 0 0x1000 4,
    .dma "reg2".toList 0x1000000000000 0x2000 6, .dma "reg3".toList 0x8000 0x100000000 2,
    .dma "reg4".toList 0xffffffffffff 0xffffffff 7]

/-- Its image. -/
def testConfigImage : List UInt8 :=
  [0x44, 0x49, 0x41, 0x47, 0x01,
    0x01, 10, 0x74, 0x65, 0x73, 0x74, 0x2d, 0x6e, 0x61, 0x6d, 0x65, 0x00,
    0x04, 1, 64,
    0x05, 1, 6,
    0x02, 16, 0, 0, 0, 0, 0, 0, 0x00, 0x10, 0, 0, 4, 0x72, 0x65, 0x67, 0x31, 0x00,
    0x03, 22, 0, 0, 0, 0, 0, 0, 0x01, 0, 0x00, 0x20, 0, 0, 0, 0, 0, 0, 6,
    0x72, 0x65, 0x67, 0x32, 0x00,
    0x03, 22, 0x00, 0x80, 0, 0, 0, 0, 0, 0, 0, 0, 0, 0, 0x01, 0, 0, 0, 2,
    0x72, 0x65, 0x67, 0x33, 0x00,
    0x02, 16, 0xff, 0xff, 0xff, 0xff, 0xff, 0xff, 0xff, 0xff, 0xff, 0xff, 7,
    0x72, 0x65, 0x67, 0x34, 0x00,
    0x00, 3, 0, 71, 204]

theorem configFields_testConfig :
    configFields asciiText testConfig = .ok (.version 1 :: testConfigFields) := rfl

theorem processConfigFile_testConfig :
    processConfigFile asciiText testConfig = .ok testConfigImage := by
  decide +kernel

theorem loadProm_processConfigFile_testConfig :
    configFields asciiText testConfig = .ok (.version 1 :: testConfigFields) ∧
    processConfigFile asciiText testConfig = .ok testConfigImage ∧ ∃ ctx es,
      loadProm [] (fun _ => 0) true (storeOf testConfigImage 0) = .ok ctx ∧
      promEntries ctx.buff 8 promFirstEntryOffset = some es ∧
      List.Forall₂ (fun f e => ∃ entry, promEntryAt ctx.buff 256 e = some entry ∧ f.Decodes entry)
        testConfigFields es := by
  obtain ⟨ctx, es, hload, -, hwalk, hdec⟩ := @loadProm_processConfigFile asciiText testConfig _
    testConfigImage [] (fun _ => 0) configFields_testConfig (by decide) (by decide)
    processConfigFile_testConfig (by decide)
  exact ⟨configFields_testConfig, processConfigFile_testConfig, ctx, es, hload,
    hwalk 8 (by decide), hdec.imp fun _ _ hentry => hentry 256 (Nat.le_refl _)⟩

end AmcPci
