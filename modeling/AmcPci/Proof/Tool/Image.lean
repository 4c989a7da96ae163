import AmcPci.PromDataCreator
import AmcPci.Lib.OnesSum
import AmcPci.Lib.Tlv

/-!
# What the PROM tool writes

An image is a header, the bytes of the fields in order, and an end marker with a checksum. This
file gives each piece its meaning in the vocabulary of the two libraries it is later read with:
a field with an ASCII name is a `Record` (`dumpField_record`), the checksum is the complement of
the ones' complement sum (`checksum_eq`), and the end marker brings the sum of the whole image
to all ones whatever the parity of what it closes (`onesSum_dumpEnd`).
-/

namespace AmcPci

open Lib

/-! ## `Except` and `struct.pack` -/

theorem bind_eq_ok {ε α β : Type} {x : Except ε α} {f : α → Except ε β} {r : β} :
    x >>= f = .ok r ↔ ∃ a, x = .ok a ∧ f a = .ok r := by
  cases x with
  | error e => simp [bind, Except.bind]
  | ok a => simp [bind, Except.bind]

theorem pure_eq_ok {ε α : Type} {a r : α} : (pure a : Except ε α) = .ok r ↔ a = r :=
  Except.ok.injEq a r ▸ Iff.rfl

theorem pack_eq_ok {n : Nat} {v : Int} {bs : List UInt8} :
    pack n v = .ok bs ↔ (0 ≤ v ∧ v < 256 ^ n) ∧ leBytes n v.toNat = bs := by
  unfold pack
  split
  · rename_i h
    simp [h]
  · rename_i h
    simp [h]

/-! ## The checksum -/

theorem leValue_pair (a b : UInt8) : leValue [a, b] = a.toNat + 256 * b.toNat := by
  simp [leValue]

/-- The tool's loop over `content[i*2:i*2+2]` adds the little-endian words. -/
theorem checksum_words (content : List UInt8) :
    (List.range (content.length / 2)).foldl
        (fun result i => result + leValue ((content.drop (i * 2)).take 2)) 0
      + (if content.length % 2 = 1 then leValue (content.drop (content.length - 1)) <<< 8 else 0)
      = (leWords content).sum := by
  have hwhole : peek (storeOf content 0) 0 content.length = content := holds_storeOf content 0
  have hword : ∀ i ∈ List.range (content.length / 2),
      leValue ((content.drop (i * 2)).take 2)
        = (storeOf content 0 (2 * i)).toNat + 256 * (storeOf content 0 (2 * i + 1)).toNat := by
    intro i hi
    have hlt := List.mem_range.mp hi
    have h₀ : i * 2 < content.length := by omega
    have h₁ : i * 2 + 1 < content.length := by omega
    have htake : (content.drop (i * 2)).take 2 = [content[i * 2], content[i * 2 + 1]] := by
      rw [List.drop_eq_getElem_cons h₀, List.drop_eq_getElem_cons h₁]
      rfl
    rw [htake, leValue_pair]
    simp [storeOf, Nat.mul_comm 2 i, h₀, h₁]
  have hodd : content.length % 2 = 1 → leValue (content.drop (content.length - 1)) <<< 8
      = 256 * (storeOf content 0 (content.length - 1)).toNat := by
    intro h
    have hlast : content.length - 1 < content.length := by omega
    have hdrop : content.drop (content.length - 1) = [content[content.length - 1]] := by
      rw [List.drop_eq_getElem_cons hlast, show content.length - 1 + 1 = content.length by omega,
        List.drop_length]
    rw [hdrop, Nat.shiftLeft_eq, Nat.mul_comm]
    simp [leValue, storeOf, hlast]
  -- the content, read by index from a store that holds it
  conv_rhs => rw [← hwhole, sum_leWords_peek]
  rw [← List.map_congr_left hword, List.sum_eq_foldl, List.foldl_map]
  split
  · rename_i h
    rw [hodd h]
  · rfl

/-- `(x & 0xffff) + (x >> 16)`. -/
theorem and_add_shiftRight (x : Nat) : (x &&& 0xffff) + (x >>> 16) = foldCarry 65536 x := by
  rw [foldCarry, Nat.shiftRight_eq_div_pow]
  exact congrArg (· + x / 2 ^ 16) (Nat.and_two_pow_sub_one_eq_mod x 16)

/-- **The tool's checksum is the complement of the ones' complement sum.** -/
theorem checksum_eq {content : List UInt8} (h : content.length ≤ 2 ^ 17 - 2) :
    checksum content = 65535 - onesSum 65536 (leWords content) := by
  have hsum := checksum_words content
  have hle := leWords_sum_le content
  unfold checksum
  simp only [and_add_shiftRight]
  have htotal : (if content.length % 2 = 1 then
      (List.range (content.length / 2)).foldl
        (fun result i => result + leValue ((content.drop (i * 2)).take 2)) 0
        + leValue (content.drop (content.length - 1)) <<< 8
      else (List.range (content.length / 2)).foldl
        (fun result i => result + leValue ((content.drop (i * 2)).take 2)) 0)
      = (leWords content).sum := by
    rw [← hsum]
    split
    · rfl
    · rfl
  rw [htotal, fold_fold_eq_onesSum (leWords_lt content) (by omega)]
  have hlt := onesSum_lt (B := 65536) (by omega) (leWords_lt content)
  have hmod : onesSum 65536 (leWords content) &&& 0xffff = onesSum 65536 (leWords content) := by
    rw [show (0xffff : Nat) = 2 ^ 16 - 1 from rfl, Nat.and_two_pow_sub_one_eq_mod,
      Nat.mod_eq_of_lt hlt]
  rw [hmod]

/-! ## The end marker -/

theorem leWords_leBytes_two {v : Nat} (h : v < 65536) : leWords (leBytes 2 v) = [v] := by
  have hval := leValue_leBytes 2 v
  rw [Nat.mod_eq_of_lt (by simpa using h)] at hval
  simp only [leBytes, leValue, Nat.mul_zero, Nat.add_zero] at hval
  simp only [leBytes, leWords, hval]

/-- A block of whole words closed by its own check word sums to all ones. -/
theorem onesSum_close {content : List UInt8} (heven : content.length % 2 = 0)
    (hlen : content.length ≤ 2 ^ 17 - 2) :
    onesSum 65536 (leWords (content ++ leBytes 2 (checksum content))) = 65535 := by
  have hck := checksum_eq hlen
  rw [leWords_append _ heven, leWords_leBytes_two (by omega), hck]
  exact onesSum_append_complement (by decide) (leWords_lt content)

/-- The end marker: its two layouts, and what both of them do to the sum. -/
theorem onesSum_dumpEnd {content : List UInt8} (hne : content ≠ [])
    (hlen : content.length ≤ 2 ^ 16) :
    onesSum 65536 (leWords (content ++ dumpEnd content)) = 65535 := by
  unfold dumpEnd
  rw [if_pos hne]
  split
  · rename_i hodd
    rw [← List.append_assoc]
    exact onesSum_close (by simp; omega) (by simp; omega)
  · rename_i heven
    rw [← List.append_assoc]
    exact onesSum_close (by simp; omega) (by simp; omega)

/-- The end marker is a tag `0`, a size byte 2 or 3, and that many bytes. -/
theorem dumpEnd_shape {content : List UInt8} (hne : content ≠ []) :
    ∃ size payload, dumpEnd content = 0 :: size :: payload ∧ (size = 2 ∨ size = 3) ∧
      payload.length = size.toNat := by
  unfold dumpEnd
  rw [if_pos hne]
  split
  · exact ⟨3, _, rfl, Or.inr rfl, by simp⟩
  · exact ⟨2, _, rfl, Or.inl rfl, by simp⟩

/-! ## Fields as records -/

/-- Names made of ASCII characters other than NUL. -/
def AsciiName (name : List Char) : Prop := ∀ c ∈ name, 0 < c.toNat ∧ c.toNat < 128

theorem encode_ascii : ∀ {name : List Char}, AsciiName name →
    encode name = name.map fun c => UInt8.ofNat c.toNat := by
  intro name
  induction name with
  | nil => intro _; rfl
  | cons c cs ih =>
    intro h
    have hc := (h c (by simp)).2
    have hchar : String.utf8EncodeChar c = [UInt8.ofNat c.toNat] := by
      have : c.val.toNat ≤ 127 := Nat.le_of_lt_succ hc
      rw [String.utf8EncodeChar]
      simp only [this, if_true]
      rfl
    have hcs := ih fun x hx => h x (by simp [hx])
    rw [encode] at hcs ⊢
    rw [List.flatMap_cons, hchar, hcs]
    rfl

/-- The tag and payload of a field. -/
def ConfigField.entry : ConfigField → UInt8 × List UInt8
  | .version _ => (0, [])
  | .name value => (1, encode value ++ [0])
  | .dma region base length perm =>
    if base > 0xffffffffffff ∨ length > 0xffffffff then
      (3, leBytes 8 base.toNat ++ leBytes 8 length.toNat ++ leBytes 1 perm.toNat ++
        encode region ++ [0])
    else
      (2, leBytes 4 (base % 2 ^ 32).toNat ++ leBytes 2 (base / 2 ^ 32).toNat ++
        leBytes 4 length.toNat ++ leBytes 1 perm.toNat ++ encode region ++ [0])
  | .mask v => (4, leBytes 1 v.toNat)
  | .alignShift v => (5, leBytes 1 v.toNat)

/-- The names of a field are ASCII without NUL. -/
def ConfigField.Ascii : ConfigField → Prop
  | .name value => AsciiName value
  | .dma region _ _ _ => AsciiName region
  | _ => True

instance (name : List Char) : Decidable (AsciiName name) :=
  List.decidableBAll _ name

instance ConfigField.decidableAscii : (f : ConfigField) → Decidable f.Ascii
  | .name value => inferInstanceAs (Decidable (AsciiName value))
  | .dma region _ _ _ => inferInstanceAs (Decidable (AsciiName region))
  | .version _ => isTrue trivial
  | .mask _ => isTrue trivial
  | .alignShift _ => isTrue trivial

/-- The ranges `struct.pack` enforces on the values of a field. -/
def ConfigField.InRange : ConfigField → Prop
  | .dma _ base length perm =>
    (0 ≤ base ∧ base < 2 ^ 64) ∧ (0 ≤ length ∧ length < 2 ^ 64) ∧ (0 ≤ perm ∧ perm < 256)
  | .mask v => 0 ≤ v ∧ v < 256
  | .alignShift v => 0 ≤ v ∧ v < 256
  | _ => True

/-- The field that makes the header. -/
def ConfigField.isVersion : ConfigField → Bool
  | .version _ => true
  | _ => false

/-- The text of a field, whose length goes into its size byte. -/
def ConfigField.text : ConfigField → List Char
  | .name value => value
  | .dma region _ _ _ => region
  | _ => []

/-- A packed tag and a packed size. -/
theorem head_of_pack {tag size : List UInt8} {t : UInt8} {n : Nat}
    (htag : pack 1 (t.toNat : Int) = .ok tag) (hsize : pack 1 (n : Int) = .ok size) :
    n < 256 ∧ tag ++ size = [t, UInt8.ofNat n] := by
  obtain ⟨-, rfl⟩ := pack_eq_ok.mp htag
  obtain ⟨⟨-, hlt⟩, rfl⟩ := pack_eq_ok.mp hsize
  exact ⟨by omega, by simp [leBytes]⟩

theorem ConfigField.entry_tag_ne {f : ConfigField} (hv : f.isVersion = false) : f.entry.1 ≠ 0 := by
  cases f with
  | version v => simp [ConfigField.isVersion] at hv
  | name value => exact (by decide : (1 : UInt8) ≠ 0)
  | dma name base length perm =>
    rw [ConfigField.entry]
    split
    · exact (by decide : (3 : UInt8) ≠ 0)
    · exact (by decide : (2 : UInt8) ≠ 0)
  | mask v => exact (by decide : (4 : UInt8) ≠ 0)
  | alignShift v => exact (by decide : (5 : UInt8) ≠ 0)

/-- **Every field but `Version` is written as tag, size and payload.** The size counts the
    characters of the text where the payload has its bytes. -/
theorem dumpField_shape {f : ConfigField} {bs : List UInt8} (h : dumpField f = .ok bs)
    (hv : f.isVersion = false) :
    ∃ n, n < 256 ∧ bs = f.entry.1 :: UInt8.ofNat n :: f.entry.2 ∧
      f.entry.2.length + f.text.length = n + (encode f.text).length ∧ f.InRange := by
  cases f with
  | version v => simp [ConfigField.isVersion] at hv
  | name value =>
    simp only [dumpField, dumpDeviceDescription, bind_eq_ok, pure_eq_ok] at h
    obtain ⟨tag, htag, size, hsize, rfl⟩ := h
    obtain ⟨hn, hhead⟩ := @head_of_pack _ _ 1 (value.length + 1) htag (by exact_mod_cast hsize)
    refine ⟨value.length + 1, hn, ?_, ?_, trivial⟩
    · rw [hhead]
      simp [ConfigField.entry]
    · simp [ConfigField.entry, ConfigField.text]
      omega
  | dma name base length perm =>
    simp only [dumpField, dumpMemoryDescription] at h
    split at h
    · rename_i hext
      simp only [bind_eq_ok, pure_eq_ok] at h
      obtain ⟨tag, htag, size, hsize, b, hb, l, hl, p, hp, rfl⟩ := h
      obtain ⟨hbase, rfl⟩ := pack_eq_ok.mp hb
      obtain ⟨hlength, rfl⟩ := pack_eq_ok.mp hl
      obtain ⟨hperm, rfl⟩ := pack_eq_ok.mp hp
      obtain ⟨hn, hhead⟩ := @head_of_pack _ _ 3 (name.length + 18) htag (by exact_mod_cast hsize)
      refine ⟨name.length + 18, hn, ?_, ?_, hbase, hlength, hperm⟩
      · rw [hhead, ConfigField.entry, if_pos hext]
        simp
      · rw [ConfigField.entry, if_pos hext]
        simp [ConfigField.text]
        omega
    · rename_i hshort
      simp only [bind_eq_ok, pure_eq_ok] at h
      obtain ⟨tag, htag, size, hsize, bl, hbl, bh, hbh, l, hl, p, hp, rfl⟩ := h
      obtain ⟨hlow, rfl⟩ := pack_eq_ok.mp hbl
      obtain ⟨hhigh, rfl⟩ := pack_eq_ok.mp hbh
      obtain ⟨hlength, rfl⟩ := pack_eq_ok.mp hl
      obtain ⟨hperm, rfl⟩ := pack_eq_ok.mp hp
      obtain ⟨hn, hhead⟩ := @head_of_pack _ _ 2 (name.length + 12) htag (by exact_mod_cast hsize)
      refine ⟨name.length + 12, hn, ?_, ?_, ⟨by omega, by omega⟩, ⟨hlength.1, by omega⟩, hperm⟩
      · rw [hhead, ConfigField.entry, if_neg hshort]
        simp
      · rw [ConfigField.entry, if_neg hshort]
        simp [ConfigField.text]
        omega
  | mask v =>
    simp only [dumpField, dumpDmaMask, dumpByte, bind_eq_ok, pure_eq_ok] at h
    obtain ⟨tag, htag, size, hsize, p, hp, rfl⟩ := h
    obtain ⟨hrange, rfl⟩ := pack_eq_ok.mp hp
    obtain ⟨hn, hhead⟩ := @head_of_pack _ _ 4 1 htag hsize
    exact ⟨1, hn, by rw [hhead]; rfl, by simp [ConfigField.entry, ConfigField.text, encode], hrange⟩
  | alignShift v =>
    simp only [dumpField, dumpDmaAlignmentShift, dumpByte, bind_eq_ok, pure_eq_ok] at h
    obtain ⟨tag, htag, size, hsize, p, hp, rfl⟩ := h
    obtain ⟨hrange, rfl⟩ := pack_eq_ok.mp hp
    obtain ⟨hn, hhead⟩ := @head_of_pack _ _ 5 1 htag hsize
    exact ⟨1, hn, by rw [hhead]; rfl, by simp [ConfigField.entry, ConfigField.text, encode], hrange⟩

theorem ConfigField.Ascii.text {f : ConfigField} (ha : f.Ascii) : AsciiName f.text := by
  cases f with
  | name value => exact ha
  | dma region base length perm => exact ha
  | _ => intro c hc; cases hc

/-- A field with an ASCII name is a record: the size byte is then the length of what is
    appended. -/
theorem dumpField_record {f : ConfigField} {bs : List UInt8} (h : dumpField f = .ok bs)
    (hv : f.isVersion = false) (ha : f.Ascii) :
    ∃ r : Record, bs = r.bytes ∧ (r.tag, r.payload) = f.entry ∧ f.InRange := by
  obtain ⟨n, hn, rfl, hlen, hin⟩ := dumpField_shape h hv
  rw [encode_ascii ha.text, List.length_map, Nat.add_left_inj] at hlen
  subst hlen
  exact ⟨⟨f.entry.1, f.entry.2, f.entry_tag_ne hv, hn⟩, rfl, rfl, hin⟩

/-! ## The image -/

/-- `process_config_file` writes the fields of the configuration, in order. -/
theorem processLines_spec {U : Unicode} : ∀ {lines : List (List Char)} {acc out : List UInt8}
    {fs : List ConfigField}, processLines U acc lines = .ok out →
      configFields U lines = .ok fs →
      ∃ bss, List.Forall₂ (fun f bs => dumpField f = .ok bs) fs bss ∧ out = acc ++ bss.flatten := by
  intro lines
  induction lines with
  | nil =>
    intro acc out fs h hf
    simp only [processLines, Except.ok.injEq] at h
    simp only [configFields, List.mapM_nil, bind_eq_ok, pure_eq_ok] at hf
    obtain ⟨_, rfl, rfl⟩ := hf
    exact ⟨[], .nil, by simp [h]⟩
  | cons line lines ih =>
    intro acc out fs h hf
    simp only [configFields, List.mapM_cons, bind_eq_ok, pure_eq_ok] at hf
    obtain ⟨_, ⟨field?, hline, rest, hrest, rfl⟩, rfl⟩ := hf
    have hfs : configFields U lines = .ok (rest.filterMap id) := by
      simp only [configFields, bind_eq_ok, pure_eq_ok]
      exact ⟨rest, hrest, rfl⟩
    simp only [processLines, bind_eq_ok] at h
    obtain ⟨field?', hline', h⟩ := h
    rw [hline] at hline'
    cases hline'
    cases field? with
    | none =>
      obtain ⟨bss, hbss, rfl⟩ := ih h hfs
      exact ⟨bss, by simpa using hbss, rfl⟩
    | some field =>
      simp only [bind_eq_ok] at h
      obtain ⟨bs, hbs, h⟩ := h
      obtain ⟨bss, hbss, rfl⟩ := ih h hfs
      refine ⟨bs :: bss, ?_, by simp⟩
      show List.Forall₂ _ (field :: rest.filterMap id) (bs :: bss)
      exact .cons hbs hbss

end AmcPci
