import AmcPci.Proof.DmaCall.Legal
import AmcPci.Proof.Setup.Board

/-!
# The geometry of the DMA engine

The mask and the alignment of the engine are bytes of the PROM that nobody checks. They are shifted
by, and the largest transfer is what is left of the buffer when it is rounded down to the alignment:
beyond a certain shift, nothing is left (`nothing_transferred`). `sound_iff` is how far the bytes
of a PROM may go.
-/

namespace AmcPci
namespace Setup

open Lib

variable {k : Kernel} {log : Log} {mask shift : UInt8} {prom : PromContext}

/-- What the operations of a DMA device rest on. -/
structure WellDefined (mask shift : UInt8) (dma : DmaControl) : Prop where
  maskBits : mask.toNat ≤ 64
  shiftBits : shift.toNat < 63
  alignment : dma.alignment.toInt = 2 ^ shift.toNat
  positive : 0 < dma.maxTransfer.toInt
  units : dma.alignment.toNat ∣ dma.maxTransfer.toNat
  limit : dma.maxTransfer.toNat ≤ min (2 ^ 23 - 1) dma.bufferSize.toNat

theorem toNat_shiftOne (h : shift.toNat < 64) : (shiftOne k shift).toNat = 2 ^ shift.toNat := by
  rw [shiftOne, if_pos h, BitVec.toNat_shiftLeft, Nat.shiftLeft_eq]
  have hlt : 2 ^ shift.toNat < 2 ^ 64 := Nat.pow_lt_pow_right (by decide) h
  rw [show (1 : Size).toNat = 1 from rfl, Nat.one_mul, Nat.mod_eq_of_lt hlt]

theorem toNat_bufferSize (h : k.dmaBlockShift < 31) :
    (bufferSize k).toNat = 2 ^ k.dmaBlockShift.toNat := by
  rw [bufferSize, if_pos h, BitVec.toNat_shiftLeft, Nat.shiftLeft_eq]
  have hlt : 2 ^ k.dmaBlockShift.toNat < 2 ^ 64 := Nat.pow_lt_pow_right (by decide) (by omega)
  rw [show (1 : Size).toNat = 1 from rfl, Nat.one_mul, Nat.mod_eq_of_lt hlt]

/-- With a shift that can be shifted by, a controller is as its calls expect it. -/
theorem initialised_dmaControlFor (h : shift.toNat < 64) :
    Initialised (dmaControlFor k shift) shift.toNat := ⟨toNat_shiftOne h, rfl⟩

/-- There is something to transfer when the counter and the buffer hold a unit. -/
theorem maxTransfer_pos_iff (hshift : shift.toNat < 64) (hblock : k.dmaBlockShift < 31)
    (hpage : pageShift ≤ k.dmaBlockShift) :
    0 < (dmaControlFor k shift).maxTransfer.toNat ↔
      shift.toNat ≤ 22 ∧ (shift.toNat : Int) ≤ k.dmaBlockShift := by
  have hi := initialised_dmaControlFor (k := k) hshift
  have hsize : (dmaControlFor k shift).bufferSize.toNat = 2 ^ k.dmaBlockShift.toNat :=
    toNat_bufferSize hblock
  have hcounter : 2 ^ shift.toNat ≤ 2 ^ 23 - 1 ↔ shift.toNat ≤ 22 := by
    rw [Nat.le_sub_one_iff_lt (by decide), Nat.pow_lt_pow_iff_right (by decide)]
    omega
  have hbuffer : 2 ^ shift.toNat ≤ 2 ^ k.dmaBlockShift.toNat ↔
      (shift.toNat : Int) ≤ k.dmaBlockShift := by
    rw [Nat.pow_le_pow_iff_right (by decide)]
    unfold pageShift at hpage
    omega
  rw [hi.maxTransfer_eq, floorTo_pos_iff hi.pos, hi.alignment, hsize, Nat.le_min, hcounter, hbuffer]

/-! ## What the PROM may ask for -/

/-- If `initialise_dma_control` returns 0, what it has set up is well defined. -/
def Sound (k : Kernel) (prom : PromContext) : Prop :=
  ∀ log dma log',
    initialiseDmaControl k (Probe.dmaGeometry prom).1 (Probe.dmaGeometry prom).2 log
      = (.ok dma, log') →
    WellDefined (Probe.dmaGeometry prom).1 (Probe.dmaGeometry prom).2 dma

/-- The bytes can be shifted by, and a unit fits into the counter and into the buffer. -/
structure InRange (k : Kernel) (mask shift : UInt8) : Prop where
  mask : mask.toNat ≤ 64
  counter : shift.toNat ≤ 22
  buffer : (shift.toNat : Int) ≤ k.dmaBlockShift

theorem wellDefined_dmaControlFor (hblock : k.dmaBlockShift < 31)
    (hpage : pageShift ≤ k.dmaBlockShift) :
    WellDefined mask shift (dmaControlFor k shift) ↔ InRange k mask shift := by
  constructor
  · intro h
    have hshift : shift.toNat < 64 := Nat.lt_succ_of_lt h.shiftBits
    have hpos : 0 < (dmaControlFor k shift).maxTransfer.toNat := by
      have hpositive := h.positive
      rw [BitVec.toInt_eq_toNat_cond] at hpositive
      split at hpositive <;> omega
    obtain ⟨hcounter, hbuffer⟩ := (maxTransfer_pos_iff hshift hblock hpage).mp hpos
    exact ⟨h.maskBits, hcounter, hbuffer⟩
  · intro h
    have hcounter := h.counter
    have hshift : shift.toNat < 64 := by omega
    have hi := initialised_dmaControlFor (k := k) hshift
    have hpos := (maxTransfer_pos_iff hshift hblock hpage).mpr ⟨h.counter, h.buffer⟩
    have hle := hi.maxTransfer_le
    have hunit : (dmaControlFor k shift).alignment.toNat < 2 ^ 23 := (hi.room hpos).2
    refine ⟨h.mask, by omega, ?_, ?_, hi.maxTransfer_dvd, hle⟩
    · rw [BitVec.toInt_eq_toNat_of_lt (by omega), hi.alignment]
      exact Int.natCast_pow 2 _
    · rw [BitVec.toInt_eq_toNat_of_lt (by omega)]
      omega

/-- **The geometry is well defined** when the bytes are in range, or when something is refused. No
    allocation is of 2 GiB or more. -/
theorem sound_iff (horder : ∀ order, k.getFreePages order = .valid → order < 19) :
    Sound k prom ↔ (DmaGranted k (Probe.dmaGeometry prom).1 →
      InRange k (Probe.dmaGeometry prom).1 (Probe.dmaGeometry prom).2) := by
  have hblock : DmaGranted k (Probe.dmaGeometry prom).1 → k.dmaBlockShift < 31 := fun h => by
    have hlt := horder _ h.pages
    unfold pageShift at hlt
    omega
  constructor
  · intro hsound h
    have hcases := initialiseDmaControl_outcome k (Probe.dmaGeometry prom).1
      (Probe.dmaGeometry prom).2 []
    generalize hout : initialiseDmaControl k (Probe.dmaGeometry prom).1
      (Probe.dmaGeometry prom).2 [] = out at hcases
    cases hcases with
    | granted _ hlog =>
      exact (wellDefined_dmaControlFor (hblock h) h.blockShift).mp (hsound _ _ _ hout)
    | refused hno => exact absurd h hno
  · intro hrange log dma log' hout
    have hcases := initialiseDmaControl_outcome k (Probe.dmaGeometry prom).1
      (Probe.dmaGeometry prom).2 log
    rw [hout] at hcases
    cases hcases with
    | granted h => exact (wellDefined_dmaControlFor (hblock h) h.blockShift).mpr (hrange h)

theorem order_lt_granting (order : Nat) (h : granting.getFreePages order = .valid) : order < 19 := by
  simp only [granting] at h
  split at h
  · omega
  · cases h

/-- The bytes of a PROM whose entries are known. -/
theorem dmaGeometry_eq {es : List Nat} {e : Nat} (hacc : Accepted prom es e) :
    Probe.dmaGeometry prom =
      ((es.find? fun entry => prom.buff entry == promDmaMaskTag).elim Probe.dmaDefaultMask
          fun pentry => prom.buff (pentry + 2),
        (es.find? fun entry => prom.buff entry == promDmaAlignTag).elim
          Probe.dmaDefaultAlignmentShift fun pentry => prom.buff (pentry + 2)) := by
  rw [Probe.dmaGeometry, promFindEntryByTag, promFindEntryByTag, hacc.entries_eq]
  refine Prod.ext ?_ ?_
  · cases es.find? fun entry => prom.buff entry == promDmaMaskTag <;> rfl
  · cases es.find? fun entry => prom.buff entry == promDmaAlignTag <;> rfl

/-- With the default mask and alignment and the default buffer all is well. -/
theorem sound_iff_testProm1 : Sound granting (promContextOf (storeOf testProm1 0)
    (promBuffer (storeOf testProm1 0) fun _ => 0) [5, 16, 34, 52] 70) := by
  refine (sound_iff order_lt_granting).mpr fun _ => ?_
  have hacc := accepted_of_promImage (fun _ => 0) promImage_testProm1 (by decide)
  rw [dmaGeometry_eq hacc]
  exact ⟨by decide, by decide, by decide⟩

/-- A device with one region, and an alignment of `2 ^ 23`. -/
def coarseProm : List UInt8 :=
  [0x44, 0x49, 0x41, 0x47, 0x01, 0x01, 0x03, 0x61, 0x62, 0x00, 0x02, 0x0d, 0x00, 0x00, 0x00, 0x00,
   0x00, 0x00, 0x00, 0x10, 0x00, 0x00, 0x06, 0x6d, 0x00, 0x05, 0x01, 0x17, 0x00, 0x02, 0x0a, 0x65]

theorem promImage_coarseProm : PromImage (storeOf coarseProm 0) [5, 10, 25] 28 where
  version := by decide
  chain := .cons (by decide) (.cons (by decide) (.cons (by decide) (.nil 28)))
  marker := by decide
  size := by decide
  checksum := by decide +kernel

/-- It is accepted, the engine is initialised, and the largest transfer is of no bytes. -/
theorem nothing_transferred : ∃ prom dma log,
    loadProm [] (fun _ => 0) true (storeOf coarseProm 0) = .ok prom ∧ prom.dmaNentries = 1 ∧
    initialiseDmaControl granting (Probe.dmaGeometry prom).1 (Probe.dmaGeometry prom).2 []
      = (.ok dma, log) ∧ dma.maxTransfer = 0 ∧ ¬ Sound granting prom := by
  have hload := (@loadProm_eq_ok_iff [] (storeOf coarseProm 0) (fun _ => 0) _ (by decide)).mpr
    ⟨_, _, promImage_coarseProm, by decide, rfl⟩
  have hacc := accepted_of_promImage (fun _ => 0) promImage_coarseProm (by decide)
  have hgeometry : Probe.dmaGeometry (promContextOf (storeOf coarseProm 0)
      (promBuffer (storeOf coarseProm 0) fun _ => 0) [5, 10, 25] 28) = (47, 23) := by
    rw [dmaGeometry_eq hacc]
    decide
  have hout : initialiseDmaControl granting 47 23 [] = (.ok (dmaControlFor granting 23),
      acquire (acquire (acquire [] .dmaControl) .dmaPages) .dmaMapping) := rfl
  refine ⟨_, dmaControlFor granting 23,
    acquire (acquire (acquire [] .dmaControl) .dmaPages) .dmaMapping, hload, by decide, ?_, ?_,
    fun hsound => ?_⟩
  · rw [hgeometry]
    exact hout
  · decide
  · have hpositive := (hsound [] _ _ (by rw [hgeometry]; exact hout)).positive
    exact absurd hpositive (by decide)

end Setup
end AmcPci
