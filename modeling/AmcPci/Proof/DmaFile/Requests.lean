import AmcPci.Memory
import AmcPci.Lib.Align

/-!
# What is transferred, in exact integers

`amc_pci_dma_read` widens what it is asked for to whole units of the alignment and clips it twice,
`amc_pci_dma_write` refuses what it would have to clip to the region, and all of it is computed in
64-bit words. For a region of a `PROM_DMA_TAG` entry, whose base has 48 bits and whose length has
32, nothing wraps, and the requests are those of the theorems `readRequest_inside` and
`writeRequest_inside`.
-/

namespace AmcPci

open Lib

variable {dma : DmaControl} {context : MemoryContext} {a x offset count : Size} {k : Nat}
  {r : Request}

/-! ## The kernel's rounding macros -/

theorem toNat_alignDown (ha : a.toNat = 2 ^ k) (x : Size) :
    (alignDown x a).toNat = floorTo a.toNat x.toNat := by
  rw [alignDown, align, BitVec.sub_add_cancel, toNat_and_not_sub_one ha]

theorem toNat_align (ha : a.toNat = 2 ^ k) (h : x.toNat + (a.toNat - 1) < 2 ^ 64) :
    (align x a).toNat = ceilTo a.toNat x.toNat := by
  have hmask : (a - 1).toNat = a.toNat - 1 := by rw [toNat_sub_one ha, ha]
  rw [align, toNat_and_not_sub_one ha, BitVec.toNat_add_of_lt (by rwa [hmask]), hmask, ceilTo]

theorem isAligned_iff (ha : a.toNat = 2 ^ k) : isAligned x a = true ↔ a.toNat ∣ x.toNat := by
  rw [isAligned, beq_iff_eq]
  exact and_sub_one_eq_zero_iff ha x

theorem isPositive_iff (h : x.toNat < 2 ^ 63) : isPositive x = true ↔ 0 < x.toNat := by
  have hint : x.toInt = x.toNat := BitVec.toInt_eq_toNat_of_lt (by omega)
  rw [isPositive, BitVec.slt, decide_eq_true_iff, hint]
  simp

/-! ## The controller -/

/-- The largest count `read` and `write` pass on. -/
def maxRwCount : Nat := 0x7ffff000

/-- A controller whose alignment and largest transfer are as `initialise_dma_control` sets them. -/
structure Initialised (dma : DmaControl) (k : Nat) : Prop where
  alignment : dma.alignment.toNat = 2 ^ k
  maxTransfer : dma.maxTransfer = maxTransferFor dma.bufferSize dma.alignment

theorem Initialised.pos (hi : Initialised dma k) : 0 < dma.alignment.toNat := by
  rw [hi.alignment]
  exact Nat.two_pow_pos k

theorem Initialised.maxTransfer_eq (hi : Initialised dma k) : dma.maxTransfer.toNat
    = floorTo dma.alignment.toNat (min (2 ^ 23 - 1) dma.bufferSize.toNat) := by
  have hmax : maxDmaTransfer.toNat = 2 ^ 23 - 1 := rfl
  rw [hi.maxTransfer, maxTransferFor, toNat_alignDown hi.alignment]
  congr 1
  split
  · rename_i hlt
    rw [BitVec.lt_def] at hlt
    omega
  · rename_i hge
    rw [BitVec.lt_def] at hge
    omega

theorem Initialised.maxTransfer_dvd (hi : Initialised dma k) :
    dma.alignment.toNat ∣ dma.maxTransfer.toNat := by
  rw [hi.maxTransfer_eq]
  exact dvd_floorTo _ _

theorem Initialised.maxTransfer_le (hi : Initialised dma k) :
    dma.maxTransfer.toNat ≤ min (2 ^ 23 - 1) dma.bufferSize.toNat := by
  rw [hi.maxTransfer_eq]
  exact floorTo_le _ _

/-- A controller that can transfer anything at all has room for one unit. -/
theorem Initialised.room (hi : Initialised dma k) (hmax : 0 < dma.maxTransfer.toNat) :
    dma.alignment.toNat ≤ dma.maxTransfer.toNat ∧ dma.alignment.toNat < 2 ^ 23 := by
  have hunit := Nat.le_of_dvd hmax hi.maxTransfer_dvd
  have hle := hi.maxTransfer_le
  exact ⟨hunit, by omega⟩

theorem Initialised.transferAligned_iff (hi : Initialised dma k) {t : Transfer} :
    transferAligned dma t = true ↔ dma.alignment.toNat ∣ t.src.toNat ∧
      dma.alignment.toNat ∣ t.dst.toNat ∧ dma.alignment.toNat ∣ t.count.toNat := by
  rw [transferAligned, Bool.and_eq_true, Bool.and_eq_true, isAligned_iff hi.alignment,
    isAligned_iff hi.alignment, isAligned_iff hi.alignment, and_assoc]

/-- A controller as `initialise_dma_control` leaves it, with the buffer on an aligned bus address
    and room in a transfer for one unit of the alignment. -/
structure Geometry (dma : DmaControl) (k : Nat) : Prop where
  alignment : dma.alignment.toNat = 2 ^ k
  maxTransfer : dma.maxTransfer = maxTransferFor dma.bufferSize dma.alignment
  bufferDma : dma.alignment.toNat ∣ dma.bufferDma.toNat
  room : dma.alignment.toNat ≤ dma.maxTransfer.toNat

theorem Geometry.initialised (hg : Geometry dma k) : Initialised dma k :=
  ⟨hg.alignment, hg.maxTransfer⟩

theorem Geometry.pos (hg : Geometry dma k) : 0 < dma.alignment.toNat := hg.initialised.pos

theorem Geometry.maxTransfer_lt (hg : Geometry dma k) : dma.maxTransfer.toNat < 2 ^ 23 := by
  have hle := hg.initialised.maxTransfer_le
  omega

theorem Geometry.alignment_lt (hg : Geometry dma k) : dma.alignment.toNat < 2 ^ 23 :=
  Nat.lt_of_le_of_lt hg.room hg.maxTransfer_lt

theorem toNat_clipCount (dma : DmaControl) (count : Size) :
    (clipCount dma count).toNat = min count.toNat dma.maxTransfer.toNat := by
  rw [clipCount]
  split
  · rename_i hgt
    have hlt := BitVec.lt_def.mp hgt
    omega
  · rename_i hle
    rw [gt_iff_lt, BitVec.lt_def] at hle
    omega

/-! ## Requests -/

/-- `dma_addr` in `amc_pci_dma_read`. -/
def readAddr (dma : DmaControl) (context : MemoryContext) (offset : Size) : Size :=
  context.base + offset - (offset &&& (dma.alignment - 1))

/-- `dma_count` in `amc_pci_dma_read`, before it is clipped to the region. -/
def readWanted (dma : DmaControl) (offset count : Size) : Size :=
  align (count + (offset &&& (dma.alignment - 1))) dma.alignment

/-- `dma_count` in `amc_pci_dma_read`, as it is passed on. -/
def readCount (dma : DmaControl) (context : MemoryContext) (offset count : Size) : Size :=
  if readAddr dma context offset + readWanted dma offset count > context.base + context.length then
    alignDown (context.base + context.length - readAddr dma context offset) dma.alignment
  else readWanted dma offset count

theorem readRequest_eq (dma : DmaControl) (context : MemoryContext) (offset count : Size) :
    readRequest dma context offset count =
      if offset = context.length then .error 0
      else if offset > context.length then .error (-efault)
      else if readCount dma context offset count = 0 then .error (-efault)
      else .ok ⟨.fromDevice, readAddr dma context offset, readCount dma context offset count,
        offset &&& (dma.alignment - 1), count⟩ := rfl

theorem readRequest_ok (h : readRequest dma context offset count = .ok r) :
    offset < context.length ∧ readCount dma context offset count ≠ 0 ∧
      r = ⟨.fromDevice, readAddr dma context offset, readCount dma context offset count,
        offset &&& (dma.alignment - 1), count⟩ := by
  rw [readRequest_eq] at h
  split at h
  · cases h
  · rename_i hne
    split at h
    · cases h
    · rename_i hgt
      split at h
      · cases h
      · rename_i hcount
        cases h
        exact ⟨BitVec.lt_of_le_ne (BitVec.not_lt.mp hgt) hne, hcount, rfl⟩

theorem writeRequest_ok (h : writeRequest dma context offset count = .ok r) :
    offset < context.length ∧ count ≤ context.length - offset ∧ count ≤ dma.bufferSize ∧
      r = ⟨.toDevice, context.base + offset, count, 0, count⟩ := by
  rw [writeRequest] at h
  split at h
  · cases h
  · rename_i hne
    split at h
    · cases h
    · rename_i hgt
      split at h
      · cases h
      · rename_i hfits
        cases h
        rw [not_or] at hfits
        exact ⟨BitVec.lt_of_le_ne (BitVec.not_lt.mp hgt) hne, BitVec.not_lt.mp hfits.1,
          BitVec.not_lt.mp hfits.2, rfl⟩

theorem readRequest_error {rc : Int} (h : readRequest dma context offset count = .error rc) :
    rc ≤ 0 := by
  rw [readRequest_eq] at h
  repeat' split at h
  all_goals cases h
  all_goals decide

theorem writeRequest_error {rc : Int} (h : writeRequest dma context offset count = .error rc) :
    rc ≤ 0 := by
  rw [writeRequest] at h
  repeat' split at h
  all_goals cases h
  all_goals decide

/-! ## Regions -/

/-- A region as a `PROM_DMA_TAG` entry can give it, with an aligned base. -/
structure Region (dma : DmaControl) (context : MemoryContext) : Prop where
  base : context.base.toNat < 2 ^ 48
  length : context.length.toNat < 2 ^ 32
  aligned : dma.alignment.toNat ∣ context.base.toNat

/-- At the end of the region there is nothing to read. -/
theorem readRequest_end (h : offset = context.length) :
    readRequest dma context offset count = .error 0 := by
  rw [readRequest, if_pos h]

/-- The clip to the region keeps the whole units that are left in it. -/
theorem toNat_clipRegion (hg : Geometry dma k) (hr : Region dma context) {dmaAddr wanted : Size}
    (hoffset : offset.toNat < context.length.toNat)
    (haddr : dmaAddr.toNat = context.base.toNat + floorTo dma.alignment.toNat offset.toNat)
    (hunits : dma.alignment.toNat ∣ wanted.toNat) (hwanted : wanted.toNat < 2 ^ 32) :
    (if dmaAddr + wanted > context.base + context.length then
      alignDown (context.base + context.length - dmaAddr) dma.alignment
      else wanted).toNat = min wanted.toNat (floorTo dma.alignment.toNat context.length.toNat
        - floorTo dma.alignment.toNat offset.toNat) := by
  have hbase := hr.base
  have hlength := hr.length
  have hfloor := floorTo_le dma.alignment.toNat offset.toNat
  have hlhs : (dmaAddr + wanted).toNat = dmaAddr.toNat + wanted.toNat :=
    BitVec.toNat_add_of_lt (by omega)
  have hrhs : (context.base + context.length).toNat
      = context.base.toNat + context.length.toNat := BitVec.toNat_add_of_lt (by omega)
  -- whole units fit into the region when they fit into its whole units
  have hfits := le_floorTo_iff (n := context.length.toNat) hg.pos
    (Nat.dvd_add (dvd_floorTo dma.alignment.toNat offset.toNat) hunits)
  split
  · rename_i hgt
    rw [gt_iff_lt, BitVec.lt_def, hlhs, hrhs] at hgt
    have hrest : (context.base + context.length - dmaAddr).toNat
        = context.length.toNat - floorTo dma.alignment.toNat offset.toNat := by
      rw [BitVec.toNat_sub_of_le (by rw [BitVec.le_def]; omega)]
      omega
    rw [toNat_alignDown hg.alignment, hrest, floorTo_sub (dvd_floorTo _ _) (by omega)]
    omega
  · rename_i hle
    rw [gt_iff_lt, BitVec.lt_def, hlhs, hrhs] at hle
    omega

/-- What a read asks the engine for, inside the region: whole units of the alignment around what
    the caller wants, as far as there are whole units. In the last, broken unit there are none. -/
theorem readRequest_inside (hg : Geometry dma k) (hr : Region dma context)
    (hoffset : offset.toNat < context.length.toNat) (hcount : count.toNat ≤ maxRwCount) :
    ∃ start dmaCount inOffset : Size,
      start.toNat = context.base.toNat + floorTo dma.alignment.toNat offset.toNat ∧
      inOffset.toNat = offset.toNat % dma.alignment.toNat ∧
      dmaCount.toNat = min (ceilTo dma.alignment.toNat (count.toNat + inOffset.toNat))
        (floorTo dma.alignment.toNat context.length.toNat
          - floorTo dma.alignment.toNat offset.toNat) ∧
      readRequest dma context offset count = if dmaCount = 0 then .error (-efault)
        else .ok ⟨.fromDevice, start, dmaCount, inOffset, count⟩ := by
  have hbase := hr.base
  have hlength := hr.length
  have hsmall := hg.alignment_lt
  have hrem : offset.toNat % dma.alignment.toNat < dma.alignment.toNat := Nat.mod_lt _ hg.pos
  have hsplit := floorTo_add_mod dma.alignment.toNat offset.toNat
  rw [maxRwCount] at hcount
  rw [readRequest, if_neg (show ¬ offset = context.length by rw [← BitVec.toNat_inj]; omega),
    if_neg (show ¬ offset > context.length by rw [gt_iff_lt, BitVec.lt_def]; omega)]
  have hin : (offset &&& (dma.alignment - 1)).toNat = offset.toNat % dma.alignment.toNat :=
    toNat_and_sub_one hg.alignment offset
  generalize offset &&& (dma.alignment - 1) = inOffset at hin ⊢
  have hpos : (context.base + offset).toNat = context.base.toNat + offset.toNat :=
    BitVec.toNat_add_of_lt (by omega)
  have haddr : (context.base + offset - inOffset).toNat
      = context.base.toNat + floorTo dma.alignment.toNat offset.toNat := by
    rw [BitVec.toNat_sub_of_le (by rw [BitVec.le_def]; omega)]
    omega
  have hsum : (count + inOffset).toNat = count.toNat + inOffset.toNat :=
    BitVec.toNat_add_of_lt (by omega)
  have hwanted : (align (count + inOffset) dma.alignment).toNat
      = ceilTo dma.alignment.toNat (count.toNat + inOffset.toNat) := by
    rw [toNat_align hg.alignment (by omega), hsum]
  have hceil := ceilTo_lt_add hg.pos (count.toNat + inOffset.toNat)
  have hunits : dma.alignment.toNat ∣ (align (count + inOffset) dma.alignment).toNat :=
    hwanted ▸ dvd_ceilTo _ _
  have hclip := toNat_clipRegion hg hr hoffset haddr hunits (by omega)
  rw [hwanted] at hclip
  exact ⟨_, _, inOffset, haddr, hin, hclip, rfl⟩

/-- What a write asks the engine for. -/
theorem writeRequest_inside (hr : Region dma context)
    (hoffset : offset.toNat < context.length.toNat) :
    ∃ start : Size, start.toNat = context.base.toNat + offset.toNat ∧
      writeRequest dma context offset count =
        if count.toNat ≤ min (context.length.toNat - offset.toNat) dma.bufferSize.toNat then
          .ok ⟨.toDevice, start, count, 0, count⟩
        else .error (-einval) := by
  have hbase := hr.base
  have hlength := hr.length
  refine ⟨context.base + offset, BitVec.toNat_add_of_lt (by omega), ?_⟩
  rw [writeRequest, if_neg (show ¬ offset = context.length by rw [← BitVec.toNat_inj]; omega),
    if_neg (show ¬ offset > context.length by rw [gt_iff_lt, BitVec.lt_def]; omega)]
  have hleft : (context.length - offset).toNat = context.length.toNat - offset.toNat :=
    BitVec.toNat_sub_of_le (by rw [BitVec.le_def]; omega)
  by_cases hfits : count.toNat ≤ min (context.length.toNat - offset.toNat) dma.bufferSize.toNat
  · rw [if_pos hfits, if_neg]
    simp only [gt_iff_lt, BitVec.lt_def, hleft]
    omega
  · rw [if_neg hfits, if_pos]
    simp only [gt_iff_lt, BitVec.lt_def, hleft]
    omega

theorem writeRequest_end (h : offset = context.length) :
    writeRequest dma context offset count = .error 0 := by
  rw [writeRequest, if_pos h]

end AmcPci
