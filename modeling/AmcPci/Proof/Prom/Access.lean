import AmcPci.PromAccess
import AmcPci.Proof.Prom.Accept

/-!
# The indices `load_prom` evaluates

`context->buff` has one byte more than a PROM, so that the size byte of an entry whose tag is the
last byte of the PROM can be read. The scan steps by up to 257 bytes, however, and what it steps
over the end of the PROM with is used as an index once more before it is compared with anything:
`data_len` is computed from `buff[ent_i + 1]` and only then tested.

So the reads stay inside the buffer exactly when the scan is stopped by an end marker, or never
starts (`below_loadPromLooking_iff`).
-/

namespace AmcPci

open Lib Reading

/-! ## The same functions -/

theorem value_u16AtLooking (buff : Nat → UInt8) (i : Nat) :
    (u16AtLooking buff i).value = u16At buff i := rfl

theorem value_addOddByteLooking (buff : Nat → UInt8) (size : Nat) (result : UInt32) :
    (addOddByteLooking buff size result).value
      = if size % 2 = 1 then result + (buff (size - 1)).toUInt32 <<< 8 else result := by
  rw [addOddByteLooking, value_ite]
  rfl

theorem value_calcChecksum16Looking (buff : Nat → UInt8) (size : Nat) :
    (calcChecksum16Looking buff size).value = calcChecksum16 buff size := by
  have hloop := value_foldlM (fun (result : UInt32) i => do
    return result + (← u16AtLooking buff i)) 0 (List.range (size / 2))
  simp only [value_bind, value_pure, value_u16AtLooking] at hloop
  unfold calcChecksum16Looking calcChecksum16
  simp only [value_bind, value_pure, value_addOddByteLooking, hloop]

/-- One turn of the loop: what it looks at, and what is left to do. -/
theorem scanEntriesLooking_next {buff : Nat → UInt8} {s : PromScan} (hlt : s.entI < promMaxLength)
    (htag : buff s.entI ≠ promEndTag) :
    (scanEntriesLooking buff s).value = (scanEntriesLooking buff (s.step buff)).value ∧
      (scanEntriesLooking buff s).looks
        = [s.entI, s.entI, s.entI, s.entI + 1] ++ (scanEntriesLooking buff (s.step buff)).looks := by
  have hseen : ¬ (look buff s.entI).value = promEndTag := htag
  rw [scanEntriesLooking, if_pos hlt]
  refine ⟨?_, ?_⟩
  · rw [value_bind, if_neg hseen]
    rfl
  · rw [looks_bind, if_neg hseen]
    rfl

theorem scanEntriesLooking_end {buff : Nat → UInt8} {s : PromScan} (hlt : s.entI < promMaxLength)
    (htag : buff s.entI = promEndTag) :
    (scanEntriesLooking buff s).value = s ∧ (scanEntriesLooking buff s).looks = [s.entI] := by
  have hseen : (look buff s.entI).value = promEndTag := htag
  rw [scanEntriesLooking, if_pos hlt]
  refine ⟨?_, ?_⟩
  · rw [value_bind, if_pos hseen]
    rfl
  · rw [looks_bind, if_pos hseen]
    rfl

theorem value_scanEntriesLooking (buff : Nat → UInt8) (s : PromScan) :
    (scanEntriesLooking buff s).value = scanEntries buff s := by
  induction s using scanEntries.induct buff with
  | case1 s hc ih =>
    rw [(scanEntriesLooking_next hc.1 hc.2).1, ih]
    conv_rhs => rw [scanEntries, if_pos hc]
  | case2 s hc =>
    rw [scanEntries, if_neg hc]
    by_cases hlt : s.entI < promMaxLength
    · have htag : buff s.entI = promEndTag := Classical.not_not.mp fun h => hc ⟨hlt, h⟩
      exact (scanEntriesLooking_end hlt htag).1
    · rw [scanEntriesLooking, if_neg hlt, value_pure]

theorem value_endMarkerLooking (buff : Nat → UInt8) (entI dataLen : Nat) :
    (endMarkerLooking buff entI dataLen).value = true ↔
      dataLen < promMaxLength ∧ buff entI = promEndTag ∧
        (buff (entI + 1) = promChecksumSize ∨ buff (entI + 1) = promChecksumSize + 1) := by
  unfold endMarkerLooking
  rw [value_ite]
  split
  · rename_i hlen
    rw [value_bind, value_ite]
    split
    · rename_i htag
      rw [value_bind, value_ite]
      split
      · rename_i hsize
        exact ⟨fun _ => ⟨hlen, htag, Or.inl hsize⟩, fun _ => rfl⟩
      · rename_i hsize
        simp only [value_look] at htag hsize
        simp [hlen, htag, hsize]
    · rename_i htag
      simp only [value_look] at htag
      simp [htag]
  · rename_i hlen
    simp [hlen]

theorem value_loadPromBuffLooking (base buff : Nat → UInt8) :
    (loadPromBuffLooking base buff).value = loadPromBuff base buff := by
  unfold loadPromBuffLooking loadPromBuff
  rw [value_bind, value_ite]
  split
  · rename_i hver
    rw [if_pos (show buff promVersionOffset ≠ promVersion from hver), value_pure]
  · rename_i hver
    rw [if_neg (show ¬ buff promVersionOffset ≠ promVersion from hver), value_bind, value_bind,
      value_bind, value_ite, value_scanEntriesLooking, value_look]
    split
    · rename_i hend
      rw [value_endMarkerLooking] at hend
      rw [if_neg (Classical.not_not.mpr hend), value_bind, value_ite]
      simp only [value_pure, validateProm, beq_iff_eq, value_calcChecksum16Looking]
    · rename_i hend
      rw [value_endMarkerLooking] at hend
      rw [if_pos hend, value_pure]

/-- **The program that notes its indices is `load_prom`.** -/
theorem value_loadPromLooking (defaultProm : List UInt8) (beyond : Nat → UInt8) (kzalloc : Bool)
    (base : Nat → UInt8) : (loadPromLooking defaultProm beyond kzalloc base).value
      = loadProm defaultProm beyond kzalloc base := by
  unfold loadPromLooking loadProm
  simp only [value_ite, value_pure, value_loadPromBuffLooking]

/-! ## Their indices -/

/-- The checksum of `size` bytes looks at these bytes. -/
theorem below_calcChecksum16Looking (buff : Nat → UInt8) (size : Nat) :
    Below size (calcChecksum16Looking buff size) := by
  unfold calcChecksum16Looking
  rw [below_bind, below_bind]
  refine ⟨?_, ?_, below_pure _ _⟩
  · refine below_foldlM ?_ _
    intro result i hi
    have hlt := List.mem_range.mp hi
    rw [below_bind, u16AtLooking, below_bind, below_bind, below_look, below_look]
    exact ⟨⟨by omega, by omega, below_pure _ _⟩, below_pure _ _⟩
  · unfold addOddByteLooking
    split
    · rw [below_bind, below_look]
      exact ⟨by omega, below_pure _ _⟩
    · exact below_pure _ _

/-- The extra byte of the buffer is what the scan loop itself needs. -/
theorem below_scanEntriesLooking (buff : Nat → UInt8) (s : PromScan) :
    Below (promMaxLength + 1) (scanEntriesLooking buff s) := by
  induction s using scanEntries.induct buff with
  | case1 s hc ih =>
    intro i hi
    rw [(scanEntriesLooking_next hc.1 hc.2).2] at hi
    have hlt := hc.1
    rcases List.mem_append.mp hi with hi | hi
    · simp only [List.mem_cons, List.not_mem_nil, or_false] at hi
      omega
    · exact ih i hi
  | case2 s hc =>
    by_cases hlt : s.entI < promMaxLength
    · have htag : buff s.entI = promEndTag := Classical.not_not.mp fun h => hc ⟨hlt, h⟩
      intro i hi
      rw [(scanEntriesLooking_end hlt htag).2, List.mem_singleton] at hi
      omega
    · rw [scanEntriesLooking, if_neg hlt]
      exact below_pure _ _

/-- The end-marker test compares the length before it looks. -/
theorem below_endMarkerLooking (buff : Nat → UInt8) {entI dataLen : Nat} (h : entI + 2 ≤ dataLen) :
    Below promMaxLength (endMarkerLooking buff entI dataLen) := by
  unfold endMarkerLooking
  split
  · rw [below_bind, below_look]
    refine ⟨by omega, ?_⟩
    split
    · rw [below_bind, below_look]
      refine ⟨by omega, ?_⟩
      split
      · exact below_pure _ _
      · rw [below_bind, below_look]
        exact ⟨by omega, below_pure _ _⟩
    · exact below_pure _ _
  · exact below_pure _ _

/-- Following the size bytes from the first entry, an end marker comes before the end of the
    PROM. -/
def ScanEnds (buff : Nat → UInt8) : Prop :=
  ∃ es e, Chain buff promFirstEntryOffset es e ∧ buff e = promEndTag ∧ e < promMaxLength

/-- Where the scan loop stops, if an end marker stops it. -/
theorem scanEntries_entI_lt_iff (buff : Nat → UInt8) :
    (scanEntries buff ⟨promFirstEntryOffset, 0, 0, 0⟩).entI < promMaxLength ↔ ScanEnds buff := by
  constructor
  · intro hlt
    obtain ⟨es, hes, hstop⟩ := scanEntries_spec buff ⟨promFirstEntryOffset, 0, 0, 0⟩
    rcases hstop with hend | hmark
    · omega
    · exact ⟨es, _, hes, hmark, hlt⟩
  · rintro ⟨es, e, hes, hmark, hlt⟩
    obtain ⟨hscan, hent⟩ :=
      scanEntries_of_chain (s := ⟨promFirstEntryOffset, 0, 0, 0⟩) hes hlt hmark
    rw [hscan, hent]
    exact hlt

theorem below_loadPromBuffLooking_iff (base buff : Nat → UInt8) :
    Below (promMaxLength + 1) (loadPromBuffLooking base buff) ↔
      buff promVersionOffset ≠ promVersion ∨ ScanEnds buff := by
  unfold loadPromBuffLooking
  rw [below_bind, below_look]
  have hfirst : promVersionOffset < promMaxLength + 1 := by decide
  by_cases hver : buff promVersionOffset = promVersion
  · have hseen : ¬ (look buff promVersionOffset).value ≠ promVersion := not_not.mpr hver
    rw [if_neg hseen, below_bind, below_bind, below_look, value_scanEntriesLooking,
      ← scanEntries_entI_lt_iff]
    constructor
    · rintro ⟨-, -, hsize, -⟩
      -- the size byte of the place where the loop stopped, wherever that is
      exact Or.inr (by omega)
    · rintro (hne | hlt)
      · exact absurd hver hne
      · refine ⟨hfirst, below_scanEntriesLooking buff _, by omega, ?_⟩
        rw [below_bind]
        refine ⟨(below_endMarkerLooking buff (by omega)).mono (by omega), ?_⟩
        split
        · rename_i hend
          rw [value_endMarkerLooking] at hend
          rw [below_bind]
          refine ⟨(below_calcChecksum16Looking buff _).mono (by omega), ?_⟩
          split
          · exact below_pure _ _
          · exact below_pure _ _
        · exact below_pure _ _
  · have hseen : (look buff promVersionOffset).value ≠ promVersion := hver
    rw [if_pos hseen]
    exact ⟨fun _ => Or.inl hver, fun _ => ⟨hfirst, below_pure _ _⟩⟩

/-- What `load_prom` puts into the buffer: the PROM, or the default image where there is none. -/
def filledBuffer (defaultProm : List UInt8) (beyond base : Nat → UInt8) : Nat → UInt8 :=
  if checkMagic (ioread32 base 0) then promBuffer base beyond
  else memcpy (zeroed beyond) 0 defaultProm

theorem loadProm_filled (defaultProm : List UInt8) (beyond base : Nat → UInt8) :
    loadProm defaultProm beyond true base
      = loadPromBuff base (filledBuffer defaultProm beyond base) := by
  unfold loadProm filledBuffer
  rw [if_neg (by decide), readProm_whole]
  split
  · exact if_pos rfl
  · rfl

theorem loadPromLooking_filled (defaultProm : List UInt8) (beyond base : Nat → UInt8) :
    loadPromLooking defaultProm beyond true base
      = loadPromBuffLooking base (filledBuffer defaultProm beyond base) := by
  unfold loadPromLooking filledBuffer
  rw [if_neg (by decide), readProm_whole]
  split
  · exact if_pos rfl
  · rfl

/-- **Where `load_prom` stays inside its buffer.** Every index it evaluates, in the scan, for
    `data_len`, in the end-marker test and in the checksum, is at most `PROM_MAX_LENGTH`, exactly
    when there is no buffer to index, the version stops it, or an end marker stops the scan. -/
theorem looks_loadPromLooking_le_iff (defaultProm : List UInt8) (beyond : Nat → UInt8)
    (kzalloc : Bool) (base : Nat → UInt8) :
    (∀ i ∈ (loadPromLooking defaultProm beyond kzalloc base).looks, i ≤ promMaxLength) ↔
      kzalloc = false ∨
        filledBuffer defaultProm beyond base promVersionOffset ≠ promVersion ∨
        ScanEnds (filledBuffer defaultProm beyond base) := by
  rw [← below_succ_iff]
  cases kzalloc with
  | false => exact ⟨fun _ => Or.inl rfl, fun _ => below_pure _ _⟩
  | true =>
    rw [loadPromLooking_filled, below_loadPromBuffLooking_iff]
    simp

/-- A PROM that was never written behind its version byte: erased flash. -/
def erasedProm : Nat → UInt8 := storeOf [0x44, 0x49, 0x41, 0x47, 0x01] 0xff

theorem erasedProm_ne_zero (i : Nat) : erasedProm i ≠ 0 := by
  unfold erasedProm storeOf
  by_cases h : i < 5
  · have hall : ∀ j : Fin 5, [0x44, 0x49, 0x41, 0x47, (0x01 : UInt8)].getD j 0xff ≠ 0 := by decide
    exact hall ⟨i, h⟩
  · have hnone : [0x44, 0x49, 0x41, 0x47, (0x01 : UInt8)][i]? = none :=
      List.getElem?_eq_none (Nat.le_of_not_lt h)
    rw [List.getD_eq_getElem?_getD, hnone]
    decide

/-- **The size byte behind the buffer.** On erased flash the scan runs over the end of the PROM,
    and the size byte of the place where it stops is outside the buffer. -/
theorem not_looks_loadPromLooking_erasedProm :
    ¬ ∀ i ∈ (loadPromLooking [] (fun _ => 0) true erasedProm).looks, i ≤ promMaxLength := by
  have hfilled : filledBuffer [] (fun _ => 0) erasedProm = promBuffer erasedProm fun _ => 0 :=
    if_pos (by decide)
  have hver : promBuffer erasedProm (fun _ => 0) promVersionOffset = promVersion := by
    rw [promBuffer_of_lt (by decide)]
    rfl
  rw [← below_succ_iff, loadPromLooking_filled, hfilled, below_loadPromBuffLooking_iff]
  rintro (hne | ⟨es, e, -, hmark, hlt⟩)
  · exact hne hver
  · rw [promBuffer_of_lt hlt] at hmark
    exact erasedProm_ne_zero e hmark

end AmcPci
