import AmcPci.Proof.DmaCall.Position

/-!
# Transfers and the region of their file

An extended PROM entry has a base and a length of 64 bits each. A write is refused unless it fits
into the region, but a read is clipped, by a comparison of two sums that are taken in 64 bits: a
read whose units go past the end of the address space while the region does not is not clipped at
all, and brings bytes from behind the region (`read_overruns`). `contains_iff` is that this is the
only way out of a region.
-/

namespace AmcPci
namespace DmaCall

open Lib
open DmaFile (Board Handle Reply)

variable {dma : DmaControl} {a : Answers} {d d' : Device} {h : Handle} {r : Request} {c : Call}
  {count : Size} {buf : Nat → UInt8} {k : Nat}

/-- The side of a transfer that is the device's. -/
def deviceSide (dir : DmaDirection) (t : Transfer) : Size :=
  match dir with
  | .toDevice => t.dst
  | .fromDevice => t.src

/-- Every byte a transfer addresses is one of the region, in exact integers. -/
def Inside (context : MemoryContext) (dir : DmaDirection) (t : Transfer) : Prop :=
  ∀ x < t.count.toNat, context.base.toNat ≤ (deviceSide dir t).toNat + x ∧
    (deviceSide dir t).toNat + x < context.base.toNat + context.length.toNat

/-- Whatever the answers: what a call programs is inside, and it returns no more than there is
    from the position on. -/
structure Contains (dma : DmaControl) (h : Handle) (c : Call) : Prop where
  programmed : ∀ a dir t, .btt dir t ∈ c.events dma a h → Inside h.context dir t
  returned : ∀ a d, (c.perform dma a d h).1.rc ≤ (h.context.length.toNat - h.fPos.toNat : Nat)

/-- A read from inside an aligned region whose units run past the end of the address space where
    the region does not, with more of them in one transfer than the region has left. -/
def Overruns (dma : DmaControl) (h : Handle) : Call → Prop
  | .read count =>
    let unit := dma.alignment.toNat
    let units := ceilTo unit (count.toNat + h.fPos.toNat % unit)
    h.fPos.toNat < h.context.length.toNat ∧
      unit ∣ h.context.base.toNat ∧ unit ∣ dma.bufferDma.toNat ∧
      h.context.base.toNat + h.context.length.toNat < 2 ^ 64 ∧
      2 ^ 64 ≤ h.context.base.toNat + floorTo unit h.fPos.toNat + units ∧
      h.context.length.toNat < floorTo unit h.fPos.toNat + min units dma.maxTransfer.toNat
  | .write .. => False

/-! ## Reads in 64 bits -/

theorem toNat_readAddr (hi : Initialised dma k) {context : MemoryContext} {offset : Size}
    (hregion : context.base.toNat + context.length.toNat ≤ 2 ^ 64)
    (hoffset : offset.toNat < context.length.toNat) :
    (readAddr dma context offset).toNat
      = context.base.toNat + floorTo dma.alignment.toNat offset.toNat := by
  have hin : (offset &&& (dma.alignment - 1)).toNat = offset.toNat % dma.alignment.toNat :=
    toNat_and_sub_one hi.alignment offset
  have hsplit := floorTo_add_mod dma.alignment.toNat offset.toNat
  have hsum : (context.base + offset).toNat = context.base.toNat + offset.toNat :=
    BitVec.toNat_add_of_lt (by omega)
  rw [readAddr, BitVec.toNat_sub_of_le (by rw [BitVec.le_def]; omega)]
  omega

theorem toNat_readWanted (hi : Initialised dma k) (offset : Size)
    (hroom : dma.alignment.toNat < 2 ^ 23) (hcount : count.toNat ≤ maxRwCount) :
    (readWanted dma offset count).toNat
      = ceilTo dma.alignment.toNat (count.toNat + offset.toNat % dma.alignment.toNat) := by
  have hpos := hi.pos
  have hrem : offset.toNat % dma.alignment.toNat < dma.alignment.toNat := Nat.mod_lt _ hpos
  have hin : (offset &&& (dma.alignment - 1)).toNat = offset.toNat % dma.alignment.toNat :=
    toNat_and_sub_one hi.alignment offset
  unfold maxRwCount at hcount
  have hsum : (count + (offset &&& (dma.alignment - 1))).toNat
      = count.toNat + offset.toNat % dma.alignment.toNat := by
    rw [BitVec.toNat_add_of_lt (by omega), hin]
  rw [readWanted, toNat_align hi.alignment (by omega), hsum]

/-- The clip holds unless the sum on its left has wrapped and the one on its right has not. -/
theorem toNat_clip_le {alignment base length p w : Size} (ha : alignment.toNat = 2 ^ k)
    (hregion : base.toNat + length.toNat ≤ 2 ^ 64) (hbase : base.toNat ≤ p.toNat)
    (hend : p.toNat < base.toNat + length.toNat) (hw : w.toNat < 2 ^ 63)
    (hwrap : ¬ (base.toNat + length.toNat < 2 ^ 64 ∧ 2 ^ 64 ≤ p.toNat + w.toNat)) :
    (if p + w > base + length then alignDown (base + length - p) alignment else w).toNat
      ≤ base.toNat + length.toNat - p.toNat := by
  have hlength := length.isLt
  have hrest : (base + length - p).toNat = base.toNat + length.toNat - p.toNat := by
    rw [BitVec.toNat_sub, BitVec.toNat_add]
    omega
  split
  · rw [toNat_alignDown ha, hrest]
    exact floorTo_le _ _
  · rename_i hle
    rw [gt_iff_lt, BitVec.lt_def, BitVec.toNat_add, BitVec.toNat_add] at hle
    omega

theorem toNat_clip_wrapped {alignment base length p w : Size}
    (hregion : base.toNat + length.toNat < 2 ^ 64)
    (hend : p.toNat < base.toNat + length.toNat)
    (hwrap : 2 ^ 64 ≤ p.toNat + w.toNat) :
    (if p + w > base + length then alignDown (base + length - p) alignment else w) = w := by
  have hw := w.isLt
  rw [if_neg]
  rw [gt_iff_lt, BitVec.lt_def, BitVec.toNat_add, BitVec.toNat_add]
  omega

/-! ## Calls that stay inside -/

theorem contains_of_error {rc : Int} (hr : c.request dma h = .error rc) : Contains dma h c := by
  constructor
  · intro a dir t hbtt
    obtain ⟨r, hok, -⟩ := mem_events hbtt
    rw [hr] at hok
    cases hok
  · intro a d
    have hrc := rc_le_atMost dma a d h c
    rw [Call.atMost, hr] at hrc
    exact Int.le_trans hrc (Int.natCast_nonneg _)

theorem contains_of_request (hr : c.request dma h = .ok r)
    (hinside : transferAligned dma (r.transfer dma) = true →
      Inside h.context r.dir (r.transfer dma))
    (hle : (obtainable dma r).toNat ≤ h.context.length.toNat - h.fPos.toNat) :
    Contains dma h c := by
  constructor
  · intro a dir t hbtt
    obtain ⟨r', hok, rfl, rfl, haligned⟩ := mem_events hbtt
    rw [hr] at hok
    cases hok
    exact hinside haligned
  · intro a d
    have hrc := rc_le_atMost dma a d h c
    rw [Call.atMost, hr] at hrc
    exact Int.le_trans hrc (Int.ofNat_le.mpr hle)

/-- A write is refused unless all of it fits. -/
theorem contains_write (hregion : h.context.base.toNat + h.context.length.toNat ≤ 2 ^ 64) :
    Contains dma h (.write buf count) := by
  cases hr : (Call.write buf count).request dma h with
  | error rc => exact contains_of_error hr
  | ok r =>
    obtain ⟨hoffset, hleft, -, rfl⟩ := writeRequest_ok hr
    rw [BitVec.lt_def] at hoffset
    rw [BitVec.le_def, BitVec.toNat_sub_of_le (by rw [BitVec.le_def]; omega)] at hleft
    have hstart : (h.context.base + h.fPos).toNat = h.context.base.toNat + h.fPos.toNat :=
      BitVec.toNat_add_of_lt (by omega)
    refine contains_of_request hr (fun _ => ?_) (Nat.le_trans (obtainable_le hr) hleft)
    intro x hx
    simp only [Request.transfer, deviceSide, toNat_clipCount, hstart] at hx ⊢
    omega

/-- A read from inside the region asks for whole units around what the caller wants. -/
structure Reads (dma : DmaControl) (h : Handle) (r : Request) : Prop where
  dir : r.dir = .fromDevice
  start : r.start.toNat
    = h.context.base.toNat + floorTo dma.alignment.toNat h.fPos.toNat
  inOffset : r.inOffset.toNat = h.fPos.toNat % dma.alignment.toNat

/-- Whole units inside the region make for a read inside it, and for no more than it has left. -/
theorem contains_read_of_le (hi : Initialised dma k) (hr : c.request dma h = .ok r)
    (hreads : Reads dma h r) (hle : (clipCount dma r.dmaCount).toNat ≤ h.context.length.toNat
      - floorTo dma.alignment.toNat h.fPos.toNat) : Contains dma h c := by
  have hsplit := floorTo_add_mod dma.alignment.toNat h.fPos.toNat
  have hpos := hi.pos
  have hrem : h.fPos.toNat % dma.alignment.toNat < dma.alignment.toNat := Nat.mod_lt _ hpos
  refine contains_of_request hr (fun _ x hx => ?_) ?_
  · have hstart := hreads.start
    simp only [Request.transfer, hreads.dir, deviceSide] at hx ⊢
    omega
  · unfold obtainable
    split
    · rename_i hgoes
      rw [Bool.and_eq_true, hi.transferAligned_iff, count_transfer] at hgoes
      obtain ⟨⟨-, -, hunits⟩, hpositive⟩ := hgoes
      have hint := toInt_of_isPositive hpositive
      have hcount : 0 < (clipCount dma r.dmaCount).toNat := by
        have := toInt_pos hpositive
        omega
      have hunit := Nat.le_of_dvd hcount hunits
      have hdiff : (clipCount dma r.dmaCount - r.inOffset).toNat
          = (clipCount dma r.dmaCount).toNat - h.fPos.toNat % dma.alignment.toNat := by
        rw [BitVec.toNat_sub_of_le (by rw [BitVec.le_def, hreads.inOffset]; omega),
          hreads.inOffset]
      simp only [hreads.dir, userCount]
      split
      · rename_i hlt
        rw [BitVec.lt_def] at hlt
        omega
      · omega
    · exact Nat.zero_le _

/-- What is wanted is far from wrapping by itself. -/
theorem toNat_readWanted_lt (hi : Initialised dma k) (offset : Size)
    (hroom : dma.alignment.toNat < 2 ^ 23) (hcount : count.toNat ≤ maxRwCount) :
    (readWanted dma offset count).toNat < 2 ^ 32 := by
  have hpos := hi.pos
  have hrem : offset.toNat % dma.alignment.toNat < dma.alignment.toNat := Nat.mod_lt _ hpos
  have hceil := ceilTo_lt_add hpos (count.toNat + offset.toNat % dma.alignment.toNat)
  rw [toNat_readWanted hi offset hroom hcount]
  unfold maxRwCount at hcount
  omega

theorem contains_read (hi : Initialised dma k) (hcount : count.toNat ≤ maxRwCount)
    (hregion : h.context.base.toNat + h.context.length.toNat ≤ 2 ^ 64)
    (hcontained : ¬ Overruns dma h (.read count)) : Contains dma h (.read count) := by
  cases hr : (Call.read count).request dma h with
  | error rc => exact contains_of_error hr
  | ok r =>
    obtain ⟨hoffset, -, rfl⟩ := readRequest_ok hr
    rw [BitVec.lt_def] at hoffset
    have haddr := toNat_readAddr hi hregion hoffset
    have hfloor := floorTo_le dma.alignment.toNat h.fPos.toNat
    have hreads : Reads dma h ⟨.fromDevice, readAddr dma h.context h.fPos,
        readCount dma h.context h.fPos count, h.fPos &&& (dma.alignment - 1), count⟩ :=
      ⟨rfl, haddr, toNat_and_sub_one hi.alignment h.fPos⟩
    refine (Nat.eq_zero_or_pos dma.maxTransfer.toNat).elim (fun hzero => ?_) fun hmax => ?_
    · -- a controller that transfers nothing goes nowhere
      refine contains_read_of_le hi hr hreads ?_
      rw [toNat_clipCount, hzero, Nat.min_zero]
      exact Nat.zero_le _
    · have hroom := (hi.room hmax).2
      have hwanted := toNat_readWanted hi h.fPos hroom hcount
      have hsmall := toNat_readWanted_lt hi h.fPos hroom hcount
      by_cases hwrap : h.context.base.toNat + h.context.length.toNat < 2 ^ 64 ∧
          2 ^ 64 ≤ (readAddr dma h.context h.fPos).toNat + (readWanted dma h.fPos count).toNat
      · have hwhole : readCount dma h.context h.fPos count = readWanted dma h.fPos count :=
          toNat_clip_wrapped hwrap.1 (by omega) hwrap.2
        by_cases hfits : floorTo dma.alignment.toNat h.fPos.toNat
            + min (readWanted dma h.fPos count).toNat dma.maxTransfer.toNat
              ≤ h.context.length.toNat
        · refine contains_read_of_le hi hr hreads ?_
          rw [toNat_clipCount, hwhole]
          omega
        · -- what would overrun is refused for its alignment
          have hmisaligned : transferAligned dma (Request.transfer dma ⟨.fromDevice,
              readAddr dma h.context h.fPos, readCount dma h.context h.fPos count,
              h.fPos &&& (dma.alignment - 1), count⟩) = false := by
            rw [Bool.eq_false_iff]
            intro haligned
            obtain ⟨hsrc, hdst, -⟩ := hi.transferAligned_iff.mp haligned
            refine hcontained ⟨hoffset, ?_, hdst, hwrap.1, ?_, ?_⟩
            · rw [Nat.dvd_add_iff_left (dvd_floorTo _ h.fPos.toNat), ← haddr]
              exact hsrc
            · rw [← hwanted, ← haddr]
              exact hwrap.2
            · rw [← hwanted]
              exact Nat.not_le.mp hfits
          refine contains_of_request hr (fun haligned => ?_) ?_
          · rw [hmisaligned] at haligned
            cases haligned
          · rw [obtainable, hmisaligned]
            exact Nat.zero_le _
      · have hclip := toNat_clip_le hi.alignment hregion (by omega) (by omega) (by omega) hwrap
        refine contains_read_of_le hi hr hreads ?_
        rw [toNat_clipCount]
        exact Nat.le_trans (Nat.min_le_left _ _) (Nat.le_trans hclip (by omega))

theorem not_contains_of_overruns (hi : Initialised dma k) (hcount : count.toNat ≤ maxRwCount)
    (hover : Overruns dma h (.read count)) : ¬ Contains dma h (.read count) := by
  obtain ⟨hoffset, hbase, hbuffer, hregion, hwrap, hlt⟩ := hover
  have hfloor := floorTo_le dma.alignment.toNat h.fPos.toNat
  have haddr := toNat_readAddr hi (Nat.le_of_lt hregion) hoffset
  have hroom := (hi.room (by omega)).2
  have hwanted := toNat_readWanted hi h.fPos hroom hcount
  rw [← hwanted] at hwrap hlt
  rw [← haddr] at hwrap
  have hwhole : readCount dma h.context h.fPos count = readWanted dma h.fPos count :=
    toNat_clip_wrapped hregion (by omega) hwrap
  have hr : (Call.read count).request dma h = .ok ⟨.fromDevice, readAddr dma h.context h.fPos,
      readCount dma h.context h.fPos count, h.fPos &&& (dma.alignment - 1), count⟩ := by
    rw [Call.request, readRequest_eq, if_neg, if_neg, if_neg]
    · rw [hwhole, ← BitVec.toNat_inj]
      exact fun hzero => by simp only [hzero] at hlt; simp at hlt; omega
    · rw [gt_iff_lt, BitVec.lt_def]
      omega
    · rw [← BitVec.toNat_inj]
      omega
  have haligned : transferAligned dma (Request.transfer dma ⟨.fromDevice,
      readAddr dma h.context h.fPos, readCount dma h.context h.fPos count,
      h.fPos &&& (dma.alignment - 1), count⟩) = true := by
    refine hi.transferAligned_iff.mpr ⟨?_, hbuffer, ?_⟩
    · simp only [Request.transfer, haddr]
      exact Nat.dvd_add hbase (dvd_floorTo _ _)
    · simp only [Request.transfer, toNat_clipCount, hwhole, hwanted]
      exact dvd_min (dvd_ceilTo _ _) hi.maxTransfer_dvd
  intro hcontains
  have hinside := hcontains.programmed idleEngine .fromDevice _
    (btt_mem_events hr rfl rfl haligned)
    (h.context.length.toNat - floorTo dma.alignment.toNat h.fPos.toNat)
  simp only [Request.transfer, deviceSide, toNat_clipCount, hwhole] at hinside
  omega

/-- **A call stays inside its region** unless it is a read that overruns it. -/
theorem contains_iff (hi : Initialised dma k) (hcount : c.count.toNat ≤ maxRwCount)
    (hregion : h.context.base.toNat + h.context.length.toNat ≤ 2 ^ 64) :
    Contains dma h c ↔ ¬ Overruns dma h c := by
  cases c with
  | read count =>
    exact ⟨fun hcontains hover => not_contains_of_overruns hi hcount hover hcontains,
      contains_read hi hcount hregion⟩
  | write buf count => exact ⟨fun _ => id, fun _ => contains_write hregion⟩

/-- 32 bytes, 64 below the end of the address space. -/
def topRegion : Handle := ⟨⟨-64, 32⟩, 0⟩

theorem contains_iff_top : Contains board64 topRegion (.read 32) :=
  (contains_iff initialised_board64 (by decide) (by decide)).mpr
    fun hover => absurd hover.2.2.2.2.1 (by decide)

/-- A read of 64 bytes from there is transferred and returned in full. -/
theorem read_overruns :
    (∃ d, (amcPciDmaRead board64 idleEngine ⟨blank, []⟩ topRegion 64).2.1 = d ∧
      d.log = [.lock, .status 2, .btt .fromDevice ⟨-64, 4096, 64⟩, .unlock]) ∧
    (amcPciDmaRead board64 idleEngine ⟨blank, []⟩ topRegion 64).1.rc = 64 ∧
    ¬ Contains board64 topRegion (.read 64) := by
  refine ⟨⟨_, rfl, rfl⟩, rfl, not_contains_of_overruns initialised_board64 (by decide) ?_⟩
  exact ⟨by decide, by decide, by decide, by decide, by decide, by decide⟩

end DmaCall
end AmcPci
