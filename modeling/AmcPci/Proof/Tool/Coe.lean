import AmcPci.Lib.Hex
import AmcPci.Proof.Prom.Accept
import AmcPci.PromDataCreator

/-!
# The COE output is the image

`dump_coe` cuts the image into cells, folds each into a number with its last byte on top and
prints that in hexadecimal. Reading goes the other way in two places that know nothing of the
tool: whatever initialises a memory from the table, cell by cell, and the driver, which gets the
words of that memory from `ioread32` and stores them byte by byte.

`coeBytes_dumpCoe` is the first of these, for every cell size; `readProm_of_coe` is both, for the
cells of four bytes that the words of the PROM are.
-/

namespace AmcPci

open Lib

/-! ## Reading a COE file -/

/-- White space between cells. -/
def isBlank (c : Char) : Bool := c == ' ' || c == '\n'

/-- The cells of `memory_initialization_vector`: what stands between the `=` of the second
    statement and its semicolon. -/
def coeCells (text : List Char) : List (List Char) :=
  let vector := (((text.dropWhile (· ≠ ';')).dropWhile (· ≠ '=')).drop 1).takeWhile (· ≠ ';')
  (vector.filter fun c => !isBlank c).splitOn ','

/-- The numbers in the cells. -/
def coeVector (text : List Char) : Option (List Nat) := (coeCells text).mapM readHex

/-- The memory of `cellSize` bytes a cell that the table stands for, least significant byte
    first. -/
def coeBytes (cellSize : Nat) (text : List Char) : Option (List UInt8) :=
  (coeVector text).map (·.flatMap (leBytes cellSize))

/-! ## Cells -/

theorem intFromByteArray_eq (buffer : List UInt8) : intFromByteArray buffer = leValue buffer := by
  induction buffer with
  | nil => rfl
  | cons b bs ih =>
    rw [intFromByteArray] at ih ⊢
    rw [List.reverse_cons, List.foldl_append, ih, leValue]
    simp only [List.foldl_cons, List.foldl_nil, Nat.shiftLeft_eq]
    omega

/-- The slice `binData[i:i+cellSize]` of the cell at `i`. -/
def slice (binData : List UInt8) (cellSize i : Nat) : List UInt8 :=
  (binData.drop (i * cellSize)).take cellSize

/-- The numbers `dump_coe` prints. -/
def cellValues (binData : List UInt8) (cellSize : Nat) : List Nat :=
  (List.range ((binData.length + cellSize - 1) / cellSize)).map fun i =>
    leValue (slice binData cellSize i)

theorem slice_length_le (binData : List UInt8) (cellSize i : Nat) :
    (slice binData cellSize i).length ≤ cellSize := by
  rw [slice, List.length_take]
  exact Nat.min_le_left _ _

theorem cellValue_lt (binData : List UInt8) (cellSize i : Nat) :
    leValue (slice binData cellSize i) < 256 ^ cellSize :=
  Nat.lt_of_lt_of_le (leValue_lt _) (Nat.pow_le_pow_right (by decide) (slice_length_le ..))

/-- The zeros that fill the last cell. -/
def padding (length cellSize : Nat) : List UInt8 :=
  List.replicate ((length + cellSize - 1) / cellSize * cellSize - length) 0

/-- A cell, spelled out, is a slice of the image with its padding. -/
theorem leBytes_cellValue {binData : List UInt8} {cellSize i : Nat}
    (hi : i < (binData.length + cellSize - 1) / cellSize) :
    leBytes cellSize (leValue (slice binData cellSize i))
      = slice (binData ++ padding binData.length cellSize) cellSize i := by
  have hc : 0 < cellSize := by
    rcases Nat.eq_zero_or_pos cellSize with rfl | hc
    · simp at hi
    · exact hc
  generalize hn : (binData.length + cellSize - 1) / cellSize = n at hi
  have hcover : i * cellSize + cellSize ≤ n * cellSize := by
    rw [← Nat.succ_mul]
    exact Nat.mul_le_mul_right _ hi
  have hstart : i * cellSize ≤ binData.length := by
    have hle : n * cellSize ≤ binData.length + cellSize - 1 := by
      rw [← hn]
      exact Nat.div_mul_le_self _ _
    omega
  rw [leBytes_leValue_pad (slice_length_le ..), slice, slice, List.drop_append_of_le_length hstart,
    List.take_append, padding, hn, List.take_replicate, List.length_take, List.length_drop]
  congr 2
  omega

/-- Slices one after the other are the front of the list. -/
theorem flatMap_slice (bs : List UInt8) (cellSize : Nat) : ∀ n,
    (List.range n).flatMap (slice bs cellSize) = bs.take (n * cellSize) := by
  intro n
  induction n with
  | zero => simp
  | succ n ih =>
    rw [List.range_succ, List.flatMap_append, ih, List.flatMap_singleton, slice, Nat.succ_mul,
      List.take_add]

/-- **The cells are the image**, filled up to a whole number of cells. -/
theorem flatMap_cellValues {binData : List UInt8} {cellSize : Nat} (hc : 0 < cellSize) :
    (cellValues binData cellSize).flatMap (leBytes cellSize)
      = binData ++ padding binData.length cellSize := by
  have hcells : (cellValues binData cellSize).flatMap (leBytes cellSize)
      = (List.range ((binData.length + cellSize - 1) / cellSize)).flatMap
          (slice (binData ++ padding binData.length cellSize) cellSize) := by
    rw [cellValues, List.flatMap_map]
    exact List.flatMap_congr fun i hi => leBytes_cellValue (List.mem_range.mp hi)
  rw [hcells, flatMap_slice]
  refine List.take_of_length_le ?_
  rw [padding, List.length_append, List.length_replicate]
  have hdm := Nat.div_add_mod (binData.length + cellSize - 1) cellSize
  have hmod := Nat.mod_lt (binData.length + cellSize - 1) hc
  rw [Nat.mul_comm] at hdm
  omega

/-! ## The text -/

theorem dumpCoe_eq (binData : List UInt8) {cellSize : Nat} (hc : 0 < cellSize) :
    dumpCoe binData cellSize = .ok (coeStart ++ (", ".toList).intercalate
      ((cellValues binData cellSize).map (padded (cellSize * 2))) ++ coeEnd) := by
  rw [dumpCoe, if_neg (by omega), cellValues, List.map_map]
  simp only [intFromByteArray_eq]
  rfl

/-- What stands in front of the table is skipped, and so is what is behind it. -/
theorem coeCells_of_body {body : List Char} (h : ';' ∉ body) :
    coeCells (coeStart ++ body ++ coeEnd) = (body.filter fun c => !isBlank c).splitOn ',' := by
  have hskip : (((coeStart ++ (body ++ coeEnd)).dropWhile (· ≠ ';')).dropWhile (· ≠ '=')).drop 1
      = '\n' :: (body ++ coeEnd) := rfl
  have hend : (body ++ coeEnd).takeWhile (· ≠ ';') = body := by
    rw [List.takeWhile_append_of_pos]
    · exact List.append_nil body
    · intro c hc
      exact decide_eq_true fun heq => h (heq ▸ hc)
  rw [coeCells, List.append_assoc, hskip, List.takeWhile_cons, if_pos (by decide), hend]
  rfl

theorem coeCells_dumpCoe {values : List Nat} (hne : values ≠ []) (width : Nat) :
    coeCells (coeStart ++ (", ".toList).intercalate (values.map (padded width)) ++ coeEnd)
      = values.map (padded width) := by
  have hdigits : ∀ c, hexValue c = none → ∀ cell ∈ values.map (padded width), c ∉ cell := by
    intro c hc cell hcell
    obtain ⟨v, -, rfl⟩ := List.mem_map.mp hcell
    exact not_mem_padded hc width v
  rw [coeCells_of_body]
  · refine splitOn_intercalate_blank (by decide) (by simpa using hne) ?_ (hdigits ',' (by decide))
    intro cell hcell c hc
    rw [isBlank, Bool.or_eq_false_iff, beq_eq_false_iff_ne, beq_eq_false_iff_ne]
    refine ⟨?_, ?_⟩
    · rintro rfl
      exact hdigits ' ' (by decide) cell hcell hc
    · rintro rfl
      exact hdigits '\n' (by decide) cell hcell hc
  · intro hmem
    rcases mem_of_mem_intercalate hmem with hsep | ⟨cell, hcell, hc⟩
    · exact absurd hsep (by decide)
    · exact hdigits ';' (by decide) cell hcell hc

/-! ## The PROM -/

/-- A zero-filled PROM whose words from the first on are initialised from a table. -/
def InitialisedFrom (base : Nat → UInt8) (vector : List Nat) : Prop :=
  ∀ i, i < promMaxLength / 4 → ioread32 base (4 * i) = vector.getD i 0

theorem getD_cellValues (binData : List UInt8) {cellSize : Nat} (hc : 0 < cellSize) (i : Nat) :
    (cellValues binData cellSize).getD i 0 = leValue (slice binData cellSize i) := by
  rw [cellValues, List.getD_eq_getElem?_getD, List.getElem?_map]
  by_cases hi : i < (binData.length + cellSize - 1) / cellSize
  · rw [List.getElem?_range hi]
    rfl
  · -- behind the last cell there is nothing left of the image
    have hle : (binData.length + cellSize - 1) / cellSize < i + 1 := by omega
    rw [Nat.div_lt_iff_lt_mul hc, Nat.succ_mul] at hle
    have hnil : slice binData cellSize i = [] := by
      rw [slice, List.drop_eq_nil_of_le (by omega), List.take_nil]
    rw [List.getElem?_eq_none (by rw [List.length_range]; omega), hnil]
    rfl

/-- The bytes of such a PROM are the image, then zeros. -/
theorem InitialisedFrom.byte {base : Nat → UInt8} {binData : List UInt8}
    (h : InitialisedFrom base (cellValues binData 4)) {i : Nat} (hi : i < promMaxLength) :
    base i = binData.getD i 0 := by
  have hmax : promMaxLength = 4096 := rfl
  have hword := h (i / 4) (by omega)
  rw [getD_cellValues binData (by decide)] at hword
  have hpeek := leBytes_ioread32 base (4 * (i / 4))
  rw [hword, leBytes_leValue_pad (slice_length_le ..)] at hpeek
  have hget := congrArg (·[i % 4]?) hpeek
  have hmod := Nat.mod_lt i (show 0 < 4 by decide)
  have haddr : 4 * (i / 4) + i % 4 = i := Nat.div_add_mod i 4
  have hright : (peek base (4 * (i / 4)) 4)[i % 4]? = some (base i) := by
    simp [peek, hmod, haddr]
  have hleft : (slice binData 4 (i / 4) ++
      List.replicate (4 - (slice binData 4 (i / 4)).length) 0)[i % 4]? = some (binData.getD i 0) := by
    have hlen : (slice binData 4 (i / 4)).length = min 4 (binData.length - 4 * (i / 4)) := by
      rw [slice, List.length_take, List.length_drop, Nat.mul_comm]
    by_cases hin : i % 4 < (slice binData 4 (i / 4)).length
    · rw [List.getElem?_append_left hin, slice, List.getElem?_take, if_pos hmod,
        List.getElem?_drop, Nat.mul_comm, haddr, List.getD_eq_getElem?_getD,
        List.getElem?_eq_getElem (by omega)]
      rfl
    · rw [List.getElem?_append_right (by omega), List.getElem?_replicate, if_pos (by omega),
        List.getD_eq_getElem?_getD, List.getElem?_eq_none (by omega)]
      rfl
  exact Option.some.inj (hright.symm.trans (hget.symm.trans hleft))

/-- `read_prom(0, PROM_MAX_LENGTH)` from such a PROM. -/
theorem readProm_initialisedFrom {base buff : Nat → UInt8} {binData : List UInt8}
    (h : InitialisedFrom base (cellValues binData 4)) (hlen : binData.length ≤ promMaxLength) :
    (readProm base buff 0 promMaxLength).1 = promMaxLength ∧
      peek (readProm base buff 0 promMaxLength).2 0 promMaxLength
        = binData ++ List.replicate (promMaxLength - binData.length) 0 := by
  rw [readProm_whole]
  refine ⟨rfl, List.ext_getElem ?_ fun k h₁ h₂ => ?_⟩
  · rw [length_peek, List.length_append, List.length_replicate]
    omega
  · rw [length_peek] at h₁
    have hbyte := h.byte h₁
    by_cases hin : k < binData.length
    · rw [List.getElem_append_left hin]
      simpa [peek, h₁, hin] using hbyte
    · rw [List.getElem_append_right (by omega), List.getElem_replicate]
      simpa [peek, h₁, hin] using hbyte

/-! ## The round trip -/

/-- What a reader of the COE file makes of it. -/
structure ReadBack (binData : List UInt8) (cellSize : Nat) (text : List Char) : Prop where
  /-- Every cell has the two digits a byte that its number needs. -/
  digits : ∀ cell ∈ coeCells text, cell.length = cellSize * 2
  fits : ∃ vector, coeVector text = some vector ∧ ∀ v ∈ vector, v < 256 ^ cellSize
  /-- The image, and zeros up to the next whole cell. -/
  bytes : ∃ k, k < cellSize ∧ cellSize ∣ binData.length + k ∧
    coeBytes cellSize text = some (binData ++ List.replicate k 0)
  /-- The PROM, read by the driver. -/
  prom : cellSize = 4 → binData.length ≤ promMaxLength → ∀ vector, coeVector text = some vector →
    ∀ base buff, InitialisedFrom base vector →
      (readProm base buff 0 promMaxLength).1 = promMaxLength ∧
        peek (readProm base buff 0 promMaxLength).2 0 promMaxLength
          = binData ++ List.replicate (promMaxLength - binData.length) 0

/-- **The COE output is read back as the image**, whatever the image and the size of a cell. -/
theorem dumpCoe_readBack {binData : List UInt8} {cellSize : Nat} (hne : binData ≠ [])
    (hc : 1 ≤ cellSize) : ∃ text, dumpCoe binData cellSize = .ok text ∧
      ReadBack binData cellSize text := by
  have hcells : cellValues binData cellSize ≠ [] := by
    have hpos := List.length_pos_iff.mpr hne
    have hn : 1 ≤ (binData.length + cellSize - 1) / cellSize :=
      (Nat.le_div_iff_mul_le hc).mpr (by omega)
    rw [← List.length_pos_iff, cellValues, List.length_map, List.length_range]
    exact hn
  have htext := coeCells_dumpCoe hcells (cellSize * 2)
  refine ⟨_, dumpCoe_eq binData hc, ?_⟩
  generalize coeStart ++ (", ".toList).intercalate
    ((cellValues binData cellSize).map (padded (cellSize * 2))) ++ coeEnd = text at htext ⊢
  have hvector : coeVector text = some (cellValues binData cellSize) := by
    rw [coeVector, htext]
    exact mapM_map_eq_some (readHex_padded (cellSize * 2)) _
  have hfits : ∀ v ∈ cellValues binData cellSize, v < 256 ^ cellSize := by
    intro v hv
    obtain ⟨i, -, rfl⟩ := List.mem_map.mp hv
    exact cellValue_lt binData cellSize i
  refine ⟨?_, ⟨_, hvector, hfits⟩, ?_, ?_⟩
  · rw [htext]
    intro cell hcell
    obtain ⟨v, hv, rfl⟩ := List.mem_map.mp hcell
    refine length_padded (by omega) ?_
    have hpow : 16 ^ (cellSize * 2) = 256 ^ cellSize := by rw [Nat.mul_comm, Nat.pow_mul]
    rw [hpow]
    exact hfits v hv
  · have hdm := Nat.div_add_mod (binData.length + cellSize - 1) cellSize
    have hmod := Nat.mod_lt (binData.length + cellSize - 1) hc
    rw [Nat.mul_comm] at hdm
    refine ⟨(binData.length + cellSize - 1) / cellSize * cellSize - binData.length, by omega,
      ⟨(binData.length + cellSize - 1) / cellSize, ?_⟩, ?_⟩
    · rw [Nat.mul_comm cellSize]
      omega
    · rw [coeBytes, hvector, Option.map_some, flatMap_cellValues hc]
      rfl
  · rintro rfl hlen vector hvec base buff hinit
    rw [hvector] at hvec
    cases hvec
    exact readProm_initialisedFrom hinit hlen

/-- The vector of the unit tests, four bytes a cell. -/
theorem dumpCoe_readBack_deadbeef :
    ∃ text, dumpCoe [0x01, 0x12, 0x23, 0x34, 0x45, 0x56, 0x67, 0xde, 0xad, 0xbe, 0xef] 4 = .ok text ∧
      ReadBack [0x01, 0x12, 0x23, 0x34, 0x45, 0x56, 0x67, 0xde, 0xad, 0xbe, 0xef] 4 text :=
  dumpCoe_readBack (by decide) (by decide)

example : dumpCoe [0x01, 0x12, 0x23, 0x34, 0x45, 0x56, 0x67, 0xde, 0xad, 0xbe, 0xef] 4 = .ok
    "memory_initialization_radix=16;\nmemory_initialization_vector=\n34231201, de675645, 00efbead;\n".toList := by
  decide +kernel

end AmcPci
