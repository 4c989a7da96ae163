import AmcPci.PromProcessing

/-!
# What `load_prom` accepts

`PromImage m es e` is the PROM format with no code in it: version byte, a chain of entries at
`es` from offset 5 to an end marker at `e`, the end marker's size byte, and a 16-bit ones'
complement checksum over everything up to the end of its payload. `imageLength` is where that
payload ends.

Two halves meet here. `scanEntries_of_chain` says that on a chain the index loop of `load_prom`
visits exactly the chain, so its four variables are a fold of the loop body over the entries;
`scanEntries_spec` says that whatever the bytes are, the loop has followed a chain to the place
where it stopped. Together they give `loadPromBuff_eq_ok_iff`, which is all later files use.

The format lets an image fill the PROM: its last byte may be byte 4095. `load_prom` tests
`data_len < PROM_MAX_LENGTH`, so it does not take those.
-/

namespace AmcPci

open Lib

/-! ## The format -/

/-- The checksum of a byte string: the complement of the ones' complement sum of its words. -/
def onesChecksum (bs : List UInt8) : Nat := 0xffff - onesSum 65536 (leWords bs)

/-- Where the image that ends with the marker at `e` ends. -/
def imageLength (m : Nat → UInt8) (e : Nat) : Nat := e + 2 + (m (e + 1)).toNat

/-- The store `m` is a PROM image: entries at `es`, end marker at `e`. -/
structure PromImage (m : Nat → UInt8) (es : List Nat) (e : Nat) : Prop where
  version : m promVersionOffset = promVersion
  chain : Chain m promFirstEntryOffset es e
  marker : m e = promEndTag
  size : m (e + 1) = 2 ∨ m (e + 1) = 3
  checksum : onesChecksum (peek m 0 (imageLength m e)) = 0

/-- The store is a PROM image of `len` bytes, and they fit in the PROM. -/
def PromFormat (m : Nat → UInt8) (len : Nat) : Prop :=
  ∃ es e, PromImage m es e ∧ imageLength m e = len ∧ len ≤ promMaxLength

theorem PromImage.length_le {m : Nat → UInt8} {es : List Nat} {e : Nat} (h : PromImage m es e) :
    e + 4 ≤ imageLength m e := by
  unfold imageLength
  rcases h.size with hs | hs <;> rw [hs]
  · exact Nat.le_refl _
  · exact Nat.le_succ _

/-- A store has at most one image in it. -/
theorem PromImage.unique {m : Nat → UInt8} {es es' : List Nat} {e e' : Nat}
    (h : PromImage m es e) (h' : PromImage m es' e') : es = es' ∧ e = e' :=
  h.chain.unique h.marker h'.chain h'.marker

/-- The format looks no further than the image's own end. -/
theorem PromImage.congr {m m' : Nat → UInt8} {es : List Nat} {e : Nat} (h : PromImage m es e)
    (he : ∀ i, i < imageLength m e → m' i = m i) : PromImage m' es e := by
  have hlen := h.length_le
  have hle := h.chain.le
  have hfirst : promFirstEntryOffset = 5 := rfl
  have hsize : m' (e + 1) = m (e + 1) := he _ (by omega)
  have hlen' : imageLength m' e = imageLength m e := by rw [imageLength, hsize, ← imageLength]
  refine ⟨?_, ?_, ?_, ?_, ?_⟩
  · rw [he _ (by simp only [promVersionOffset]; omega)]
    exact h.version
  · exact h.chain.congr fun i _ hi => he i (by omega)
  · rw [he _ (by omega)]
    exact h.marker
  · rw [hsize]
    exact h.size
  · have hpeek : peek m' 0 (imageLength m e) = peek m 0 (imageLength m e) :=
      peek_congr fun k hk => by rw [Nat.zero_add]; exact he k hk
    rw [hlen', hpeek]
    exact h.checksum

/-! ## The scan loop -/

/-- The loop's variables after it has visited the entries `es`. -/
def PromScan.after (buff : Nat → UInt8) (s : PromScan) (es : List Nat) : PromScan :=
  es.foldl (fun s _ => s.step buff) s

theorem PromScan.after_cons (buff : Nat → UInt8) (s : PromScan) (e : Nat) (es : List Nat) :
    s.after buff (e :: es) = (s.step buff).after buff es := rfl

/-- On a chain the loop visits the chain. -/
theorem scanEntries_of_chain {buff : Nat → UInt8} : ∀ {es : List Nat} {s : PromScan} {e : Nat},
    Chain buff s.entI es e → e < promMaxLength → buff e = promEndTag →
      scanEntries buff s = s.after buff es ∧ (s.after buff es).entI = e := by
  intro es
  induction es with
  | nil =>
    intro s e hc _ hm
    cases hc
    rw [scanEntries, if_neg (by simp [hm])]
    exact ⟨rfl, rfl⟩
  | cons p es ih =>
    intro s e hc he hm
    cases hc with
    | cons hp ht =>
      have hlt := lt_nextAt buff s.entI
      have hle := ht.le
      rw [scanEntries, if_pos ⟨by omega, hp⟩, PromScan.after_cons]
      exact ih ht he hm

/-- Whatever the bytes are, the loop stops behind a chain: at an end marker or past the PROM. -/
theorem scanEntries_spec (buff : Nat → UInt8) (s : PromScan) :
    ∃ es, Chain buff s.entI es (scanEntries buff s).entI ∧
      (promMaxLength ≤ (scanEntries buff s).entI ∨
        buff (scanEntries buff s).entI = promEndTag) := by
  induction s using scanEntries.induct buff with
  | case1 s hc ih =>
    obtain ⟨es, hes, hstop⟩ := ih
    rw [scanEntries, if_pos hc]
    exact ⟨s.entI :: es, .cons hc.2 hes, hstop⟩
  | case2 s hc =>
    rw [scanEntries, if_neg hc]
    refine ⟨[], .nil _, ?_⟩
    by_cases hlt : s.entI < promMaxLength
    · exact Or.inr (Classical.not_not.mp fun hm => hc ⟨hlt, hm⟩)
    · exact Or.inl (by omega)

/-- On a chain `prom_for_each_entry` visits the chain and stops, given a turn an entry and one
    more to see the end marker. -/
theorem promEntries_of_chain {buff : Nat → UInt8} : ∀ {es : List Nat} {p e fuel : Nat},
    Chain buff p es e → buff e = promEndTag → es.length < fuel →
      promEntries buff fuel p = some es := by
  intro es
  induction es with
  | nil =>
    intro p e fuel hc hm hf
    cases hc
    cases fuel with
    | zero => exact absurd hf (by simp)
    | succ fuel => rw [promEntries, if_pos hm]
  | cons p es ih =>
    intro p' e fuel hc hm hf
    cases hc with
    | cons hp ht =>
      cases fuel with
      | zero => exact absurd hf (by simp)
      | succ fuel =>
        have hp' : ¬ buff p = promEndTag := hp
        have hnext : promNextEntry buff p = nextAt buff p := by
          rw [promNextEntry, if_neg hp', nextAt]
        rw [promEntries, if_neg hp', hnext, ih ht hm (by simpa using hf)]
        rfl

/-! ## Acceptance, on a filled buffer -/

/-- The context `load_prom` returns for an image. -/
def promContextOf (base buff : Nat → UInt8) (es : List Nat) (e : Nat) : PromContext :=
  let s := PromScan.after buff ⟨promFirstEntryOffset, 0, 0, 0⟩ es
  ⟨base, buff, imageLength buff e, s.nentries, s.dmaNentries, s.nentriesWithMinor⟩

@[simp] theorem promContextOf_dataLen (base buff : Nat → UInt8) (es : List Nat) (e : Nat) :
    (promContextOf base buff es e).dataLen = imageLength buff e := rfl

theorem validateProm_iff {buff : Nat → UInt8} {len : Nat} (h : len ≤ promMaxLength) :
    validateProm buff len = true ↔ onesChecksum (peek buff 0 len) = 0 := by
  have hlt := onesSum_lt (B := 65536) (by omega) (leWords_lt (peek buff 0 len))
  have hbound : len ≤ 2 ^ 17 - 2 := Nat.le_trans h (by decide)
  rw [validateProm, beq_iff_eq, calcChecksum16_eq_zero_iff buff hbound, onesChecksum]
  omega

/-- **What `load_prom` makes of a filled buffer**: exactly the images that end before the last
    byte of the PROM, with the counters the scan collected on the way. -/
theorem loadPromBuff_eq_ok_iff {base buff : Nat → UInt8} {ctx : PromContext} :
    loadPromBuff base buff = .ok ctx ↔
      ∃ es e, PromImage buff es e ∧ imageLength buff e < promMaxLength ∧
        ctx = promContextOf base buff es e := by
  constructor
  · intro h
    unfold loadPromBuff at h
    split at h
    · cases h
    · rename_i hver
      obtain ⟨es, hes, _⟩ := scanEntries_spec buff ⟨promFirstEntryOffset, 0, 0, 0⟩
      generalize hs : scanEntries buff ⟨promFirstEntryOffset, 0, 0, 0⟩ = s at h hes
      simp only at h hes
      split at h
      · cases h
      · rename_i hend
        rw [Classical.not_not] at hend
        obtain ⟨hlen, hmark, hsize⟩ := hend
        have himg : s.entI + (buff (s.entI + 1)).toNat + 2 = imageLength buff s.entI := by
          unfold imageLength
          omega
        rw [himg] at h hlen
        split at h
        · rename_i hval
          have hsum := (validateProm_iff (Nat.le_of_lt hlen)).mp hval
          have himage : PromImage buff es s.entI :=
            ⟨Classical.not_not.mp hver, hes, hmark, hsize, hsum⟩
          have hafter := scanEntries_of_chain (s := ⟨promFirstEntryOffset, 0, 0, 0⟩) hes
            (by have := himage.length_le; omega) hmark
          rw [hs] at hafter
          refine ⟨es, s.entI, himage, hlen, ?_⟩
          rw [promContextOf, ← hafter.1]
          exact (Except.ok.inj h).symm
        · cases h
  · rintro ⟨es, e, himage, hlen, rfl⟩
    have hle := himage.length_le
    obtain ⟨hscan, hent⟩ := scanEntries_of_chain (s := ⟨promFirstEntryOffset, 0, 0, 0⟩)
      himage.chain (by omega) himage.marker
    have himg : e + (buff (e + 1)).toNat + 2 = imageLength buff e := by
      unfold imageLength
      omega
    have hval := (validateProm_iff (Nat.le_of_lt hlen)).mpr himage.checksum
    unfold loadPromBuff
    rw [if_neg (Classical.not_not.mpr himage.version)]
    simp only [hscan, hent, himg]
    have hend : imageLength buff e < promMaxLength ∧ buff e = promEndTag ∧
        (buff (e + 1) = promChecksumSize ∨ buff (e + 1) = promChecksumSize + 1) :=
      ⟨hlen, himage.marker, himage.size⟩
    rw [if_neg (Classical.not_not.mpr hend), if_pos hval]
    rfl

/-! ## Filling the buffer -/

/-- A word read from the PROM and stored is four bytes of the PROM. -/
theorem leBytes_ioread32 (base : Nat → UInt8) (addr : Nat) :
    leBytes 4 (ioread32 base addr) = peek base addr 4 := by
  have h := leBytes_leValue (peek base addr 4)
  rwa [length_peek] at h

/-- The copy loop, `n` words in. -/
theorem copyWords_spec (base buff : Nat → UInt8) (offAl : Nat) : ∀ n i,
    ((List.range n).foldl
      (fun buff i => memcpy buff (4 * i) (leBytes 4 (ioread32 base (offAl + 4 * i)))) buff) i
      = if i < 4 * n then base (offAl + i) else buff i := by
  intro n
  induction n with
  | zero => intro i; simp
  | succ n ih =>
    intro i
    rw [List.range_succ, List.foldl_append, List.foldl_cons, List.foldl_nil, leBytes_ioread32]
    by_cases hw : 4 * n ≤ i ∧ i < 4 * n + 4
    · -- the word the last turn stored
      obtain ⟨k, rfl⟩ : ∃ k, i = 4 * n + k := ⟨i - 4 * n, by omega⟩
      have hk : k < (peek base (offAl + 4 * n) 4).length := by rw [length_peek]; omega
      rw [memcpy_of_mem hk, if_pos (by omega)]
      simp [peek, Nat.add_assoc]
    · rw [memcpy_of_lt (by rw [length_peek]; omega), ih]
      by_cases hlt : i < 4 * n
      · rw [if_pos hlt, if_pos (by omega)]
      · rw [if_neg hlt, if_neg (by omega)]

/-- Reading the whole PROM copies it, and touches nothing behind it. -/
theorem readProm_whole (base buff : Nat → UInt8) :
    readProm base buff 0 promMaxLength
      = ((promMaxLength : Int), fun i => if i < promMaxLength then base i else buff i) := by
  unfold readProm
  rw [if_neg (by decide)]
  simp only [Nat.zero_div, Nat.zero_mul, Nat.sub_zero, Nat.min_self]
  refine Prod.ext rfl ?_
  funext i
  have h := copyWords_spec base buff 0 ((promMaxLength + 3) / 4) i
  have hn : 4 * ((promMaxLength + 3) / 4) = promMaxLength := by decide
  rw [hn] at h
  simpa using h

/-- The buffer `load_prom` scans when BAR2 holds a PROM. -/
def promBuffer (base beyond : Nat → UInt8) : Nat → UInt8 :=
  fun i => if i < promMaxLength then base i else zeroed beyond i

/-- The magic, as bytes. -/
theorem checkMagic_iff (base : Nat → UInt8) :
    checkMagic (ioread32 base 0) = true ↔ Holds base 0 [0x44, 0x49, 0x41, 0x47] := by
  rw [checkMagic, leBytes_ioread32, beq_iff_eq]
  rfl

theorem loadProm_of_magic (defaultProm : List UInt8) (beyond : Nat → UInt8) {base : Nat → UInt8}
    (hmagic : Holds base 0 [0x44, 0x49, 0x41, 0x47]) :
    loadProm defaultProm beyond true base = loadPromBuff base (promBuffer base beyond) := by
  unfold loadProm
  rw [if_neg (by decide), if_pos ((checkMagic_iff base).mpr hmagic), readProm_whole]
  rfl

theorem promBuffer_of_lt {base beyond : Nat → UInt8} {i : Nat} (h : i < promMaxLength) :
    promBuffer base beyond i = base i := by
  rw [promBuffer, if_pos h]

/-- An image lies in the buffer exactly when it lies in the PROM, as long as it fits. -/
theorem promImage_promBuffer_iff {base beyond : Nat → UInt8} {es : List Nat} {e len : Nat}
    (hlen : len ≤ promMaxLength) :
    (PromImage (promBuffer base beyond) es e ∧ imageLength (promBuffer base beyond) e = len) ↔
      (PromImage base es e ∧ imageLength base e = len) := by
  have agree : ∀ i, i < promMaxLength → promBuffer base beyond i = base i :=
    fun i => promBuffer_of_lt
  constructor
  · rintro ⟨h, rfl⟩
    have hle := h.length_le
    have hs := agree (e + 1) (by omega)
    have hlen' : imageLength base e = imageLength (promBuffer base beyond) e := by
      rw [imageLength, imageLength, hs]
    exact ⟨h.congr fun i hi => (agree i (by omega)).symm, hlen'⟩
  · rintro ⟨h, rfl⟩
    have hle := h.length_le
    have hs := agree (e + 1) (by omega)
    have hlen' : imageLength (promBuffer base beyond) e = imageLength base e := by
      rw [imageLength, imageLength, hs]
    exact ⟨h.congr fun i hi => agree i (by omega), hlen'⟩

/-- **`load_prom` on a PROM with the magic.** -/
theorem loadProm_eq_ok_iff {defaultProm : List UInt8} {base beyond : Nat → UInt8}
    {ctx : PromContext} (hmagic : Holds base 0 [0x44, 0x49, 0x41, 0x47]) :
    loadProm defaultProm beyond true base = .ok ctx ↔
      ∃ es e, PromImage base es e ∧ imageLength base e < promMaxLength ∧
        ctx = promContextOf base (promBuffer base beyond) es e := by
  rw [loadProm_of_magic defaultProm beyond hmagic, loadPromBuff_eq_ok_iff]
  constructor
  · rintro ⟨es, e, himage, hlen, rfl⟩
    obtain ⟨h₁, h₂⟩ := (promImage_promBuffer_iff (Nat.le_of_lt hlen)).mp ⟨himage, rfl⟩
    exact ⟨es, e, h₁, by omega, rfl⟩
  · rintro ⟨es, e, himage, hlen, rfl⟩
    obtain ⟨h₁, h₂⟩ := (promImage_promBuffer_iff (Nat.le_of_lt hlen)).mpr ⟨himage, rfl⟩
    exact ⟨es, e, h₁, by omega, rfl⟩

/-! ## Acceptance against the format -/

/-- `load_prom` returns a context exactly for the images of the format; its length is the
    image's, and its buffer is the PROM. -/
def LoadsExactly (defaultProm : List UInt8) (beyond base : Nat → UInt8) : Prop :=
  ((∃ ctx, loadProm defaultProm beyond true base = .ok ctx) ↔ ∃ len, PromFormat base len) ∧
    ∀ ctx, loadProm defaultProm beyond true base = .ok ctx →
      PromFormat base ctx.dataLen ∧ ∀ i, i < promMaxLength → ctx.buff i = base i

theorem PromFormat.unique {m : Nat → UInt8} {len len' : Nat} (h : PromFormat m len)
    (h' : PromFormat m len') : len = len' := by
  obtain ⟨es, e, hi, rfl, _⟩ := h
  obtain ⟨es', e', hi', rfl, _⟩ := h'
  rw [(hi.unique hi').2]

/-- What is accepted is an image of the format, shorter than the PROM. -/
theorem promFormat_of_loadProm {defaultProm : List UInt8} {base beyond : Nat → UInt8}
    {ctx : PromContext} (hmagic : Holds base 0 [0x44, 0x49, 0x41, 0x47])
    (h : loadProm defaultProm beyond true base = .ok ctx) :
    PromFormat base ctx.dataLen ∧ ctx.dataLen < promMaxLength ∧
      ctx.buff = promBuffer base beyond := by
  obtain ⟨es, e, himage, hlen, rfl⟩ := (loadProm_eq_ok_iff hmagic).mp h
  have hdata : imageLength (promBuffer base beyond) e = imageLength base e :=
    ((promImage_promBuffer_iff (Nat.le_of_lt hlen)).mpr ⟨himage, rfl⟩).2
  rw [promContextOf_dataLen, hdata]
  exact ⟨⟨es, e, himage, rfl, Nat.le_of_lt hlen⟩, hlen, rfl⟩

/-- An image of the format that leaves the last byte free is accepted. -/
theorem exists_loadProm {defaultProm : List UInt8} {base beyond : Nat → UInt8} {len : Nat}
    (hmagic : Holds base 0 [0x44, 0x49, 0x41, 0x47]) (h : PromFormat base len)
    (hlt : len < promMaxLength) : ∃ ctx, loadProm defaultProm beyond true base = .ok ctx := by
  obtain ⟨es, e, himage, rfl, _⟩ := h
  exact ⟨_, (loadProm_eq_ok_iff hmagic).mpr ⟨es, e, himage, hlt, rfl⟩⟩

/-- **`load_prom` and the format part ways at one length.** For a PROM with the magic, it accepts
    exactly the format unless the PROM holds an image of `PROM_MAX_LENGTH` bytes, and then it
    refuses what the format allows. -/
theorem loadsExactly_iff {defaultProm : List UInt8} {base beyond : Nat → UInt8}
    (hmagic : Holds base 0 [0x44, 0x49, 0x41, 0x47]) :
    LoadsExactly defaultProm beyond base ↔ ¬ PromFormat base promMaxLength := by
  constructor
  · rintro ⟨hiff, _⟩ hfull
    obtain ⟨ctx, hctx⟩ := hiff.mpr ⟨promMaxLength, hfull⟩
    obtain ⟨hformat, hlt, _⟩ := promFormat_of_loadProm hmagic hctx
    have := hformat.unique hfull
    omega
  · intro hfull
    refine ⟨⟨?_, ?_⟩, ?_⟩
    · rintro ⟨ctx, hctx⟩
      exact ⟨ctx.dataLen, (promFormat_of_loadProm hmagic hctx).1⟩
    · rintro ⟨len, hlen⟩
      refine exists_loadProm hmagic hlen ?_
      obtain ⟨es, e, himage, hl, hle⟩ := hlen
      rcases Nat.lt_or_eq_of_le hle with hlt | heq
      · exact hlt
      · exact absurd ⟨es, e, himage, by omega, Nat.le_refl _⟩ hfull
    · intro ctx hctx
      obtain ⟨hformat, _, hbuff⟩ := promFormat_of_loadProm hmagic hctx
      exact ⟨hformat, fun i hi => by rw [hbuff, promBuffer_of_lt hi]⟩

/-- The first image of the unit tests, magic to checksum. -/
def testProm1 : List UInt8 :=
  [0x44, 0x49, 0x41, 0x47, 0x01, 0x01, 0x09, 0x74, 0x65, 0x73,
   0x74, 0x5f, 0x64, 0x65, 0x76, 0x00, 0x02, 0x10, 0x00, 0x00,
   0x00, 0x00, 0x00, 0x00, 0x15, 0x14, 0x13, 0x12, 0x04, 0x6d,
   0x65, 0x6d, 0x41, 0x00, 0x02, 0x10, 0x44, 0x33, 0x22, 0x11,
   0xcd, 0xab, 0x45, 0x23, 0x91, 0x08, 0x02, 0x6d, 0x65, 0x6d,
   0x42, 0x00, 0x02, 0x10, 0x63, 0x62, 0x61, 0x42, 0x00, 0x00,
   0x00, 0x01, 0x00, 0x00, 0x06, 0x6d, 0x65, 0x6d, 0x43, 0x00,
   0x00, 0x02, 0xbb, 0x17]

theorem loadsExactly_iff_testProm1 :
    LoadsExactly [] (fun _ => 0) (storeOf testProm1 0) ↔
      ¬ PromFormat (storeOf testProm1 0) promMaxLength :=
  loadsExactly_iff (by decide)

/-! An image that fills the PROM: zero-filled entries, end marker, checksum. The first entry is
three bytes long, so that from there on every piece of the image is a whole number of words. -/

def fillRecord (n : Nat) (h : n < 256) : Record where
  tag := promDeviceTag
  payload := List.replicate n 0
  tag_ne := by decide
  fits := by simpa using h

theorem length_fillRecord (n : Nat) (h : n < 256) : (fillRecord n h).payload.length = n :=
  List.length_replicate

def fullRecords : List Record :=
  List.replicate 15 (fillRecord 254 (by decide)) ++ [fillRecord 242 (by decide)]

def firstRecord : Record := fillRecord 1 (by decide)

def fullImage : List UInt8 :=
  [0x44, 0x49, 0x41, 0x47, 0x01] ++ chainBytes (firstRecord :: fullRecords) ++
    [0x00, 0x02, 0x58, 0x98]

/-- Records of even length keep the words aligned, so their sums add up. -/
theorem leWords_chainBytes_sum : ∀ {rs : List Record},
    (∀ r ∈ rs, r.payload.length % 2 = 0) →
      (leWords (chainBytes rs)).sum = (rs.map fun r => (leWords r.bytes).sum).sum := by
  intro rs
  induction rs with
  | nil => intro _; rfl
  | cons r rs ih =>
    intro h
    have hr := h r (by simp)
    rw [chainBytes_cons, leWords_append _ (by rw [Record.length_bytes]; omega), List.sum_append,
      ih fun x hx => h x (by simp [hx]), List.map_cons, List.sum_cons]

theorem leWords_fullImage_sum : (leWords fullImage).sum = 17 * 65535 := by
  have heven : ∀ r ∈ fullRecords, r.payload.length % 2 = 0 := by
    intro r hr
    rcases List.mem_append.mp hr with hr | hr
    · rw [List.eq_of_mem_replicate hr, length_fillRecord]
    · rw [List.mem_singleton.mp hr, length_fillRecord]
  have hrecs : (fullRecords.map fun r => (leWords r.bytes).sum).sum = 1037328 := by decide +kernel
  have hsplit : fullImage = [0x44, 0x49, 0x41, 0x47, 0x01, 0x01, 0x01, 0x00] ++
      (chainBytes fullRecords ++ [0x00, 0x02, 0x58, 0x98]) := by
    simp [fullImage, firstRecord, Record.bytes, fillRecord, promDeviceTag]
  have hlen : (chainBytes fullRecords).length % 2 = 0 := by decide +kernel
  rw [hsplit, leWords_append _ (by decide), leWords_append _ hlen, List.sum_append,
    List.sum_append, leWords_chainBytes_sum heven, hrecs]
  decide

theorem promFormat_fullImage : PromFormat (storeOf fullImage 0) promMaxLength := by
  have hholds := holds_storeOf fullImage 0
  have hlen : fullImage.length = promMaxLength := by decide +kernel
  have hchainLen : (chainBytes (firstRecord :: fullRecords)).length = 4087 := by
    decide +kernel
  obtain ⟨hpre, hend⟩ := holds_append.mp hholds
  obtain ⟨_, hrecs⟩ := holds_append.mp hpre
  have hchain := chain_of_holds hrecs
  have hstart : 0 + [0x44, 0x49, 0x41, 0x47, (0x01 : UInt8)].length = promFirstEntryOffset := rfl
  rw [hchainLen, hstart] at hchain
  have hstop : 0 + ([0x44, 0x49, 0x41, 0x47, (0x01 : UInt8)].length + 4087)
      = promFirstEntryOffset + 4087 := rfl
  rw [List.length_append, hchainLen, hstop] at hend
  obtain ⟨hmark, hend⟩ := holds_cons.mp hend
  obtain ⟨hsize, _⟩ := holds_cons.mp hend
  have hpeek : peek (storeOf fullImage 0) 0 promMaxLength = fullImage := by
    rw [← hlen]
    exact hholds
  have hlength : imageLength (storeOf fullImage 0) (promFirstEntryOffset + 4087)
      = promMaxLength := by
    rw [imageLength, hsize]
    rfl
  have hsum : onesSum 65536 (leWords fullImage) = 65535 := by
    rw [onesSum_eq_top_iff (by decide) (leWords_lt _), leWords_fullImage_sum]
    exact ⟨by decide, Nat.dvd_mul_left _ _⟩
  refine ⟨_, _, ⟨by decide, hchain, hmark, Or.inl hsize, ?_⟩, hlength, Nat.le_refl _⟩
  rw [hlength, hpeek, onesChecksum, hsum]

/-- **The off-by-one, on a PROM.** A well-formed 4096-byte image, its checksum zero, is refused. -/
theorem not_loadsExactly_fullImage :
    Holds (storeOf fullImage 0) 0 [0x44, 0x49, 0x41, 0x47] ∧
      ¬ LoadsExactly [] (fun _ => 0) (storeOf fullImage 0) := by
  have hmagic : Holds (storeOf fullImage 0) 0 [0x44, 0x49, 0x41, 0x47] := by decide
  refine ⟨hmagic, fun h => ?_⟩
  obtain ⟨ctx, hctx⟩ := h.1.mpr ⟨_, promFormat_fullImage⟩
  obtain ⟨hformat, hlt, _⟩ := promFormat_of_loadProm hmagic hctx
  have := hformat.unique promFormat_fullImage
  omega

end AmcPci
