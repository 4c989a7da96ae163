import AmcPci.Proof.Prom.Walk

/-!
# The fields of an entry

The driver lays a packed structure over an entry, by its tag, and reads the fields from there. The
size byte says where the next entry starts, and `load_prom` sees to it that all entries lie within
the checksum; whether the structure fits into its entry is left to whoever wrote the PROM.
`fields_inside_iff` is what a PROM has to keep to: the payload holds the fixed part, and the
name ends in it.
-/

namespace AmcPci

open Lib

/-- A packed structure: offset and length of each field, and where its `char name[]` starts. -/
structure Layout where
  fixed : List (Nat × Nat)
  name : Option Nat

/-- The member of `union prom_entry` for a tag. -/
def promEntryLayout (tag : UInt8) : Layout :=
  if tag = promDeviceTag then ⟨[], some 2⟩
  else if tag = promDmaTag then ⟨[(2, 6), (8, 4), (12, 1)], some 13⟩
  else if tag = promDmaExtTag then ⟨[(2, 8), (10, 8), (18, 1)], some 19⟩
  else if tag = promDmaMaskTag then ⟨[(2, 1)], none⟩
  else if tag = promDmaAlignTag then ⟨[(2, 1)], none⟩
  else ⟨[], none⟩

variable {buff buff' : Nat → UInt8} {entry i : Nat}

/-- A string is read up to its NUL. -/
def ReadsString (buff : Nat → UInt8) (p i : Nat) : Prop :=
  p ≤ i ∧ ∀ j, p ≤ j → j < i → buff j ≠ 0

/-- The bytes the driver looks at when it reads the fields of an entry. -/
inductive Reads (buff : Nat → UInt8) (entry : Nat) : Nat → Prop
  | fixed {i : Nat} (field : Nat × Nat) (hfield : field ∈ (promEntryLayout (buff entry)).fixed)
    (hle : entry + field.1 ≤ i) (hlt : i < entry + field.1 + field.2) : Reads buff entry i
  | name {i : Nat} (off : Nat) (hoff : (promEntryLayout (buff entry)).name = some off)
    (hstring : ReadsString buff (entry + off) i) : Reads buff entry i

/-- All of them are bytes of the entry. -/
def FieldsInside (buff : Nat → UInt8) (entry : Nat) : Prop :=
  ∀ i, Reads buff entry i → entry ≤ i ∧ i < nextAt buff entry

/-- An entry that is written out in full. -/
structure Complete (buff : Nat → UInt8) (entry : Nat) : Prop where
  fixed : ∀ field ∈ (promEntryLayout (buff entry)).fixed,
    field.1 + field.2 ≤ (buff (entry + 1)).toNat + 2
  name : ∀ off, (promEntryLayout (buff entry)).name = some off →
    ∃ j, entry + off ≤ j ∧ j < nextAt buff entry ∧ buff j = 0

/-! ## What is read -/

/-- No field of a structure is empty. -/
theorem promEntryLayout_pos (tag : UInt8) : ∀ field ∈ (promEntryLayout tag).fixed, 0 < field.2 := by
  unfold promEntryLayout
  split_ifs <;> simp

theorem fieldsInside_iff : FieldsInside buff entry ↔ Complete buff entry := by
  constructor
  · intro h
    refine ⟨fun field hfield => ?_, fun off hoff => ?_⟩
    · -- the last byte of the field
      have hpos := promEntryLayout_pos _ field hfield
      have hlast := (h (entry + field.1 + field.2 - 1)
        (.fixed field hfield (by omega) (by omega))).2
      unfold nextAt at hlast
      omega
    · -- without a NUL, the byte behind the entry would be read
      by_contra hno
      have hread : Reads buff entry (max (entry + off) (nextAt buff entry)) := by
        refine .name off hoff ⟨Nat.le_max_left .., fun j hj hlt hzero => ?_⟩
        rcases Nat.lt_or_ge j (nextAt buff entry) with hinside | hbehind
        · exact hno ⟨j, hj, hinside, hzero⟩
        · omega
      have hlt := (h _ hread).2
      omega
  · intro h i hread
    cases hread with
    | fixed field hfield hle hlt =>
      have hend := h.fixed field hfield
      unfold nextAt
      omega
    | name off hoff hstring =>
      obtain ⟨j, hj, hinside, hzero⟩ := h.name off hoff
      obtain ⟨hle, hnonzero⟩ := hstring
      have hij : i ≤ j := by
        by_contra hlt
        exact hnonzero j hj (by omega) hzero
      omega

/-- An entry with a name, written out in full up to the NUL at `j`. -/
theorem complete_of_nul (off j : Nat) (hoff : (promEntryLayout (buff entry)).name = some off)
    (hfixed : ∀ field ∈ (promEntryLayout (buff entry)).fixed,
      field.1 + field.2 ≤ (buff (entry + 1)).toNat + 2)
    (hj : entry + off ≤ j ∧ j < nextAt buff entry ∧ buff j = 0) : Complete buff entry := by
  refine ⟨hfixed, fun off' hoff' => ?_⟩
  obtain rfl : off = off' := Option.some.inj (hoff.symm.trans hoff')
  exact ⟨j, hj⟩

/-! ## Nothing else is -/

theorem cString_congr : ∀ {fuel p : Nat}, (∀ i, ReadsString buff p i → buff' i = buff i) →
    cString buff' fuel p = cString buff fuel p := by
  intro fuel
  induction fuel with
  | zero => intro p _; rfl
  | succ fuel ih =>
    intro p h
    have hp : buff' p = buff p := h p ⟨Nat.le_refl p, fun j hj hlt => by omega⟩
    rw [cString, cString, hp]
    by_cases hzero : buff p = 0
    · rw [if_pos hzero, if_pos hzero]
    · rw [if_neg hzero, if_neg hzero, ih]
      rintro i ⟨hle, hnonzero⟩
      refine h i ⟨by omega, fun j hj hlt => ?_⟩
      rcases Nat.eq_or_lt_of_le hj with rfl | hlater
      · exact hzero
      · exact hnonzero j hlater hlt

/-- A string with a NUL ahead of it comes to an end. -/
theorem cString_of_nul {j : Nat} (hzero : buff j = 0) : ∀ {fuel p : Nat}, p ≤ j → j < p + fuel →
    ∃ name, cString buff fuel p = some name := by
  intro fuel
  induction fuel with
  | zero => intro p hle hlt; omega
  | succ fuel ih =>
    intro p hle hlt
    unfold cString
    by_cases hp : buff p = 0
    · exact ⟨[], if_pos hp⟩
    · have hne : p ≠ j := fun heq => hp (heq ▸ hzero)
      obtain ⟨name, hname⟩ := @ih (p + 1) (by omega) (by omega)
      rw [if_neg hp, hname]
      exact ⟨buff p :: name, rfl⟩

/-- The name of an entry that is written out in full ends after at most 257 bytes. -/
theorem Complete.name_of_fuel (h : Complete buff entry) {off fuel : Nat}
    (hoff : (promEntryLayout (buff entry)).name = some off) (hfuel : 257 ≤ fuel) :
    ∃ name, cString buff fuel (entry + off) = some name := by
  obtain ⟨j, hle, hlt, hzero⟩ := h.name off hoff
  have hsize := UInt8.toNat_lt (buff (entry + 1))
  unfold nextAt at hlt
  exact cString_of_nul hzero hle (by omega)

theorem peek_of_reads {off n : Nat} (hfield : (off, n) ∈ (promEntryLayout (buff entry)).fixed)
    {o m : Nat} (hle : off ≤ o) (hlt : o + m ≤ off + n)
    (h : ∀ i, Reads buff entry i → buff' i = buff i) :
    peek buff' (entry + o) m = peek buff (entry + o) m :=
  peek_congr fun k hk => h _ (.fixed (off, n) hfield (by simp only; omega) (by simp only; omega))

/-- What the driver makes of an entry is decided by the bytes it reads. -/
theorem promEntryAt_congr {fuel : Nat} (htag : buff' entry = buff entry)
    (h : ∀ i, Reads buff entry i → buff' i = buff i) :
    promEntryAt buff' fuel entry = promEntryAt buff fuel entry := by
  have hbyte : ∀ off, (off, 1) ∈ (promEntryLayout (buff entry)).fixed →
      buff' (entry + off) = buff (entry + off) := fun off hfield =>
    h _ (.fixed (off, 1) hfield (Nat.le_refl _) (Nat.lt_succ_self _))
  have hname : ∀ off, (promEntryLayout (buff entry)).name = some off →
      cString buff' fuel (entry + off) = cString buff fuel (entry + off) := fun off hoff =>
    cString_congr fun i hstring => h i (.name off hoff hstring)
  rw [promEntryAt, promEntryAt, htag]
  by_cases hdevice : buff entry = promDeviceTag
  · rw [if_pos hdevice, if_pos hdevice, hname 2 (by rw [hdevice]; rfl)]
  · rw [if_neg hdevice, if_neg hdevice]
    by_cases hdma : buff entry = promDmaTag
    · have hfixed : (promEntryLayout (buff entry)).fixed = [(2, 6), (8, 4), (12, 1)] := by
        rw [hdma]
        rfl
      have hbase : (2, 6) ∈ (promEntryLayout (buff entry)).fixed := by simp [hfixed]
      have hlength : (8, 4) ∈ (promEntryLayout (buff entry)).fixed := by simp [hfixed]
      rw [if_pos hdma, if_pos hdma, hname 13 (by rw [hdma]; rfl), hbyte 12 (by simp [hfixed]),
        dmaEntryBase, dmaEntryBase, peek_of_reads hbase (Nat.le_refl 2) (by decide) h,
        peek_of_reads hbase (by decide : 2 ≤ 4) (by decide) h,
        peek_of_reads hbase (by decide : 2 ≤ 6) (by decide) h,
        peek_of_reads hlength (Nat.le_refl 8) (by decide) h]
    · rw [if_neg hdma, if_neg hdma]
      by_cases hext : buff entry = promDmaExtTag
      · have hfixed : (promEntryLayout (buff entry)).fixed = [(2, 8), (10, 8), (18, 1)] := by
          rw [hext]
          rfl
        have hbase : (2, 8) ∈ (promEntryLayout (buff entry)).fixed := by simp [hfixed]
        have hlength : (10, 8) ∈ (promEntryLayout (buff entry)).fixed := by simp [hfixed]
        rw [if_pos hext, if_pos hext, hname 19 (by rw [hext]; rfl), hbyte 18 (by simp [hfixed]),
          peek_of_reads hbase (Nat.le_refl 2) (by decide) h,
          peek_of_reads hlength (Nat.le_refl 10) (by decide) h]
      · rw [if_neg hext, if_neg hext]
        by_cases hmask : buff entry = promDmaMaskTag
        · have hfixed : (promEntryLayout (buff entry)).fixed = [(2, 1)] := by
            rw [hmask]
            rfl
          rw [if_pos hmask, if_pos hmask, hbyte 2 (by simp [hfixed])]
        · rw [if_neg hmask, if_neg hmask]
          by_cases halign : buff entry = promDmaAlignTag
          · have hfixed : (promEntryLayout (buff entry)).fixed = [(2, 1)] := by
              rw [halign]
              rfl
            rw [if_pos halign, if_pos halign, hbyte 2 (by simp [hfixed])]
          · rw [if_neg halign, if_neg halign]

/-- What the driver can make of an entry, by its tag. -/
inductive Decoded (buff : Nat → UInt8) (entry : Nat) : PromEntry → Prop
  | device (htag : buff entry = promDeviceTag) (name : List UInt8) :
    Decoded buff entry (.device name)
  | dma (htag : buff entry = promDmaTag) (name : List UInt8) :
    Decoded buff entry (.dma (dmaEntryBase buff entry) (leValue (peek buff (entry + 8) 4))
      (buff (entry + 12)) name)
  | dmaExt (htag : buff entry = promDmaExtTag) (name : List UInt8) :
    Decoded buff entry (.dmaExt (leValue (peek buff (entry + 2) 8))
      (leValue (peek buff (entry + 10) 8)) (buff (entry + 18)) name)
  | dmaMask (htag : buff entry = promDmaMaskTag) : Decoded buff entry (.dmaMask (buff (entry + 2)))
  | dmaAlign (htag : buff entry = promDmaAlignTag) :
    Decoded buff entry (.dmaAlign (buff (entry + 2)))

theorem decoded_of_promEntryAt {fuel : Nat} {x : PromEntry}
    (h : promEntryAt buff fuel entry = some x) : Decoded buff entry x := by
  unfold promEntryAt at h
  split at h
  · rename_i htag
    obtain ⟨name, -, rfl⟩ := Option.map_eq_some_iff.mp h
    exact .device htag name
  · split at h
    · rename_i htag
      obtain ⟨name, -, rfl⟩ := Option.map_eq_some_iff.mp h
      exact .dma htag name
    · split at h
      · rename_i htag
        obtain ⟨name, -, rfl⟩ := Option.map_eq_some_iff.mp h
        exact .dmaExt htag name
      · split at h
        · rename_i htag
          cases h
          exact .dmaMask htag
        · split at h
          · rename_i htag
            cases h
            exact .dmaAlign htag
          · cases h

/-! ## Accepted images -/

/-- **Where the fields of an accepted PROM lie.** Every entry is within the checksum and the buffer;
    what the driver makes of it is decided by its tag and the bytes of its fields; and these are
    within the entry exactly if it is written out in full. -/
theorem fields_inside_iff {defaultProm : List UInt8} {beyond base : Nat → UInt8} {kzalloc : Bool}
    {prom : PromContext} (hload : loadProm defaultProm beyond kzalloc base = .ok prom) :
    ∀ entry ∈ prom.entries, nextAt prom.buff entry ≤ prom.dataLen ∧ prom.dataLen < promMaxLength ∧
      (∀ buff' fuel, buff' entry = prom.buff entry →
        (∀ i, Reads prom.buff entry i → buff' i = prom.buff i) →
          promEntryAt buff' fuel entry = promEntryAt prom.buff fuel entry) ∧
      (FieldsInside prom.buff entry ↔ Complete prom.buff entry) := by
  obtain ⟨es, e, hacc⟩ := accepted_of_loadProm hload
  intro entry hentry
  rw [hacc.entries_eq] at hentry
  have hnext := (hacc.image.chain.mem hentry).2.2
  have hlength := hacc.length
  unfold imageLength at hlength
  exact ⟨by omega, hacc.short, fun _ _ htag hreads => promEntryAt_congr htag hreads,
    fieldsInside_iff⟩

/-- The entries of the first image of the unit tests are written out in full. -/
theorem fields_inside_iff_testProm1 : ∃ prom,
    loadProm [] (fun _ => 0) true (storeOf testProm1 0) = .ok prom ∧
      ∀ entry ∈ prom.entries, nextAt prom.buff entry ≤ prom.dataLen ∧
        FieldsInside prom.buff entry := by
  refine ⟨_, loadProm_testProm1 [] fun _ => 0, fun entry hentry => ?_⟩
  have hacc := accepted_of_promImage (fun _ => 0) promImage_testProm1 (by decide)
  obtain ⟨hnext, -, -, hiff⟩ := fields_inside_iff (loadProm_testProm1 [] fun _ => 0) entry hentry
  refine ⟨hnext, hiff.mpr ?_⟩
  rw [hacc.entries_eq] at hentry
  rcases List.mem_cons.mp hentry with rfl | hentry
  · exact complete_of_nul 2 15 rfl (by decide) (by decide)
  · rcases List.mem_cons.mp hentry with rfl | hentry
    · exact complete_of_nul 13 33 rfl (by decide) (by decide)
    · rcases List.mem_cons.mp hentry with rfl | hentry
      · exact complete_of_nul 13 51 rfl (by decide) (by decide)
      · rw [List.mem_singleton.mp hentry]
        exact complete_of_nul 13 69 rfl (by decide) (by decide)

/-- A device whose name does not end, a region and a mask without payload. -/
def shortProm : List UInt8 :=
  [0x44, 0x49, 0x41, 0x47, 0x01, 0x01, 0x02, 0x61, 0x62, 0x02, 0x00, 0x04, 0x00, 0x00, 0x03, 0x00,
   0x12, 0x07]

theorem promImage_shortProm : PromImage (storeOf shortProm 0) [5, 9, 11] 13 where
  version := by decide
  chain := .cons (by decide) (.cons (by decide) (.cons (by decide) (.nil 13)))
  marker := by decide
  size := by decide
  checksum := by decide +kernel

/-- It is accepted, and the fields of all three entries go on behind them. -/
theorem fields_outside : ∃ prom,
    loadProm [] (fun _ => 0) true (storeOf shortProm 0) = .ok prom ∧ prom.entries = [5, 9, 11] ∧
      ∀ entry ∈ prom.entries, ¬ FieldsInside prom.buff entry := by
  have hload := (@loadProm_eq_ok_iff [] (storeOf shortProm 0) (fun _ => 0) _ (by decide)).mpr
    ⟨_, _, promImage_shortProm, by decide, rfl⟩
  have hacc := accepted_of_promImage (fun _ => 0) promImage_shortProm (by decide)
  refine ⟨_, hload, hacc.entries_eq, ?_⟩
  rw [hacc.entries_eq]
  intro entry hentry hinside
  obtain ⟨hfixed, hname⟩ := fieldsInside_iff.mp hinside
  rcases List.mem_cons.mp hentry with rfl | hentry
  · obtain ⟨j, hle, hlt, hzero⟩ := hname 2 rfl
    have hj : j = 7 ∨ j = 8 := by
      have hnext : nextAt (promBuffer (storeOf shortProm 0) fun _ => 0) 5 = 9 := by decide
      have hlt' : j < 9 := hnext ▸ hlt
      omega
    rcases hj with rfl | rfl
    · exact absurd hzero (by decide)
    · exact absurd hzero (by decide)
  · rcases List.mem_cons.mp hentry with rfl | hentry
    · exact absurd (hfixed (2, 6) (by decide)) (by decide)
    · rw [List.mem_singleton.mp hentry] at hfixed
      exact absurd (hfixed (2, 1) (by decide)) (by decide)

end AmcPci
