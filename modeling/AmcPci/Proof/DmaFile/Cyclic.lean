import AmcPci.DmaFile
import AmcPci.Lib.Refine
import AmcPci.Proof.DmaFile.Requests

/-!
# A handle is a cyclic file

`CyclicFile` says what a DMA device is for: each handle is a window onto the device's memory with a
position in it, and what is left when the alignment, the size of the buffer and the largest
transfer have been said is reading, writing and seeking, and starting again at the end. It knows no
buffer, no addresses on the bus and no words that wrap.

`dmaFile_refines` is that nobody who opens the devices of a board can tell the driver from it.
-/

namespace AmcPci

open Lib

namespace CyclicFile

open DmaFile (Reply Action Whence)

/-- The unit of a transfer, the most that one can hold, and the most that a write may ask for. -/
structure Limits where
  unit : Nat
  maxTransfer : Nat
  bufferSize : Nat

/-- A region of the memory, and a position in it. -/
structure Window where
  base : Nat
  length : Nat
  pos : Nat

/-- The memory, and the windows on it that are open. -/
structure Device where
  memory : Nat → UInt8
  windows : List Window

/-- Onwards, and back to the start at the end. -/
def Window.forward (w : Window) (n : Nat) : Window :=
  { w with pos := if w.pos + n < w.length then w.pos + n else 0 }

/-- How much of `count` bytes is read: only the whole units of the region can be, and of these
    what one transfer holds. -/
def readCount (l : Limits) (w : Window) (count : Nat) : Nat :=
  min count (min (floorTo l.unit w.length - w.pos) (l.maxTransfer - w.pos % l.unit))

/-- What is read comes from the position on, which moves behind it. -/
def read (l : Limits) (memory : Nat → UInt8) (w : Window) (count : Nat) : Reply × Window :=
  if w.pos < floorTo l.unit w.length then
    let n := readCount l w count
    (⟨n, peek memory (w.base + w.pos) n⟩, w.forward n)
  else if w.pos < w.length then (⟨-efault, []⟩, w)
  else (⟨0, []⟩, w)

/-- How much of `count` bytes is written: what one transfer holds. -/
def writeCount (l : Limits) (count : Nat) : Nat := min count l.maxTransfer

/-- What is written is what fits, in whole units. -/
def write (l : Limits) (memory : Nat → UInt8) (w : Window) (data : List UInt8) :
    Reply × (Nat → UInt8) × Window :=
  if w.pos = w.length then (⟨0, []⟩, memory, w)
  else
    let n := writeCount l data.length
    if data.length ≤ min (w.length - w.pos) l.bufferSize ∧ l.unit ∣ w.pos ∧ l.unit ∣ n then
      (⟨n, []⟩, memcpy memory (w.base + w.pos) (data.take n), w.forward n)
    else (⟨-einval, []⟩, memory, w)

/-- A position in the region, its end included. -/
def seekTo (w : Window) (target : Int) : Reply × Window :=
  if 0 ≤ target ∧ target ≤ w.length then (⟨target, []⟩, { w with pos := target.toNat })
  else (⟨-einval, []⟩, w)

/-- A position from the start, from where it is, or from the end. -/
def seek (w : Window) (offset : Int) : Whence → Reply × Window
  | .seekSet => seekTo w offset
  | .seekCur => seekTo w (w.pos + offset)
  | .seekEnd => seekTo w (w.length + offset)

/-- A window is as an operation has left it. -/
def Device.put (d : Device) (i : Nat) (w : Window) : Device :=
  { d with windows := d.windows.set i w }

/-- One operation, with its reply. -/
def step (l : Limits) (d : Device) : Action → Option (Reply × Device)
  | .openEntry (.dma base length _ _) =>
    some (⟨0, []⟩, { d with windows := d.windows ++ [⟨base, length, 0⟩] })
  | .openEntry _ => none
  | .read i count =>
    d.windows[i]?.map fun w =>
      let (reply, w) := read l d.memory w count.toNat
      (reply, d.put i w)
  | .write i data =>
    d.windows[i]?.map fun w =>
      let (reply, memory, w) := write l d.memory w data
      (reply, { d.put i w with memory })
  | .llseek i offset whence =>
    d.windows[i]?.map fun w =>
      let (reply, w) := seek w offset.toInt whence
      (reply, d.put i w)

end CyclicFile

namespace DmaFile

variable {dma : DmaControl} {b : Board} {h : Handle} {r : Request} {count n : Size} {k : Nat}

/-! ## What a client sees -/

/-- The region of a handle and its position, as numbers. -/
def Handle.window (h : Handle) : CyclicFile.Window :=
  ⟨h.context.base.toNat, h.context.length.toNat, h.fPos.toNat⟩

/-- The buffer does not show. -/
def Board.device (b : Board) : CyclicFile.Device := ⟨b.memory, b.handles.map Handle.window⟩

/-- What the clients come to know of the engine and the buffer. -/
def limits (dma : DmaControl) : CyclicFile.Limits :=
  ⟨dma.alignment.toNat, dma.maxTransfer.toNat, dma.bufferSize.toNat⟩

/-- The region is as `openContext` makes it, and the position is in it. -/
structure Handle.Valid (dma : DmaControl) (h : Handle) : Prop where
  region : Region dma h.context
  pos : h.fPos.toNat ≤ h.context.length.toNat

/-- All handles are. -/
def Board.Valid (dma : DmaControl) (b : Board) : Prop := ∀ h ∈ b.handles, h.Valid dma

/-- What the clients keep to: they open the entries of tag `PROM_DMA_TAG`, whose regions are
    aligned, and ask for no more bytes than a call can carry, and for some. -/
def Allowed (dma : DmaControl) : Action → Prop
  | .openEntry entry => ∃ base length perm name, entry = .dma base length perm name ∧
    base < 2 ^ 48 ∧ length < 2 ^ 32 ∧ dma.alignment.toNat ∣ base
  | .read _ count => 0 < count.toNat ∧ count.toNat ≤ maxRwCount
  | .write _ data => 0 < data.length ∧ data.length ≤ maxRwCount
  | .llseek .. => True

/-! ## Positions -/

theorem Handle.Valid.advance (hv : h.Valid dma) (hn : h.fPos.toNat + n.toNat ≤ h.context.length.toNat) :
    ({ h with fPos := AmcPci.advance h.context h.fPos n } : Handle).window
        = h.window.forward n.toNat ∧
      ({ h with fPos := AmcPci.advance h.context h.fPos n } : Handle).Valid dma := by
  have hlength := hv.region.length
  have hsum : (h.fPos + n).toNat = h.fPos.toNat + n.toNat := BitVec.toNat_add_of_lt (by omega)
  have hpos : (AmcPci.advance h.context h.fPos n).toNat
      = if h.fPos.toNat + n.toNat < h.context.length.toNat then h.fPos.toNat + n.toNat else 0 := by
    rw [AmcPci.advance]
    by_cases hlt : h.fPos.toNat + n.toNat < h.context.length.toNat
    · rw [if_pos hlt, if_neg (by rw [ge_iff_le, BitVec.le_def]; omega), hsum]
    · rw [if_neg hlt, if_pos (by rw [ge_iff_le, BitVec.le_def]; omega)]
      rfl
  constructor
  · rw [Handle.window, CyclicFile.Window.forward, hpos]
    rfl
  · refine ⟨hv.region, ?_⟩
    rw [hpos]
    split <;> omega

/-! ## The engine -/

/-- A read's transfer brings its bytes to the start of the buffer. -/
theorem dmaOperation_fromDevice (hg : Geometry dma k) (hdir : r.dir = .fromDevice)
    (hstart : dma.alignment.toNat ∣ r.start.toNat) (hcount : dma.alignment.toNat ∣ r.dmaCount.toNat) :
    dmaOperationUnlocked dma b r = (.ok (clipCount dma r.dmaCount),
      { b with
        buffer := memcpy b.buffer 0
          (peek b.memory r.start.toNat (clipCount dma r.dmaCount).toNat) }) := by
  have hclip : dma.alignment.toNat ∣ (clipCount dma r.dmaCount).toNat := by
    rw [toNat_clipCount]
    exact dvd_min hcount hg.initialised.maxTransfer_dvd
  have haligned : transferAligned dma (r.transfer dma) = true := by
    rw [hg.initialised.transferAligned_iff, Request.transfer, hdir]
    exact ⟨hstart, hg.bufferDma, hclip⟩
  rw [dmaOperationUnlocked, if_pos haligned, hdir, Board.transfer, Request.transfer, hdir]
  simp

/-- A write's transfer takes its bytes from the start of the buffer, if it is aligned. -/
theorem dmaOperation_toDevice (hg : Geometry dma k) (hdir : r.dir = .toDevice) :
    dmaOperationUnlocked dma b r =
      if dma.alignment.toNat ∣ r.start.toNat ∧
          dma.alignment.toNat ∣ (clipCount dma r.dmaCount).toNat then
        (.ok (clipCount dma r.dmaCount),
          { b with
            memory := memcpy b.memory r.start.toNat
              (peek b.buffer 0 (clipCount dma r.dmaCount).toNat) })
      else (.error (-einval), b) := by
  have haligned : transferAligned dma (r.transfer dma) = true ↔
      dma.alignment.toNat ∣ r.start.toNat ∧
        dma.alignment.toNat ∣ (clipCount dma r.dmaCount).toNat := by
    rw [hg.initialised.transferAligned_iff, Request.transfer, hdir]
    exact and_iff_right hg.bufferDma
  rw [dmaOperationUnlocked]
  by_cases h : transferAligned dma (r.transfer dma) = true
  · rw [if_pos h, if_pos (haligned.mp h), hdir, Board.transfer, Request.transfer, hdir]
    simp
  · rw [if_neg h, if_neg fun h' => h (haligned.mpr h')]

/-! ## The operations on one handle -/

/-- What an operation on a handle leaves behind is what the one on its window does. -/
structure Agrees (dma : DmaControl) (b : Board) (out : Reply × Board × Handle)
    (spec : Reply × (Nat → UInt8) × CyclicFile.Window) : Prop where
  reply : out.1 = spec.1
  memory : out.2.1.memory = spec.2.1
  window : out.2.2.window = spec.2.2
  handles : out.2.1.handles = b.handles
  valid : out.2.2.Valid dma

theorem toNat_userCount (hin : r.inOffset.toNat ≤ n.toNat) :
    (userCount r n).toNat = min r.count.toNat (n.toNat - r.inOffset.toNat) := by
  have hsub : (n - r.inOffset).toNat = n.toNat - r.inOffset.toNat :=
    BitVec.toNat_sub_of_le (by rw [BitVec.le_def]; exact hin)
  rw [userCount]
  split
  · rename_i hlt
    rw [BitVec.lt_def, hsub] at hlt
    omega
  · rename_i hge
    rw [BitVec.lt_def, hsub] at hge
    omega

theorem toInt_eq_toNat (h : n.toNat < 2 ^ 63) : n.toInt = n.toNat :=
  BitVec.toInt_eq_toNat_of_lt (by omega)

/-- At the end of the region a read returns nothing. -/
theorem amcPciDmaRead_end (hv : h.Valid dma) (hend : h.fPos.toNat = h.context.length.toNat) :
    let spec := CyclicFile.read (limits dma) b.memory h.window count.toNat
    Agrees dma b (amcPciDmaRead dma b h count) (spec.1, b.memory, spec.2) := by
  have hwhole : ¬ h.window.pos < floorTo (limits dma).unit h.window.length :=
    Nat.not_lt.mpr (Nat.le_trans (floorTo_le _ _) (Nat.le_of_eq hend.symm))
  have hlt : ¬ h.window.pos < h.window.length := Nat.not_lt.mpr (Nat.le_of_eq hend.symm)
  rw [CyclicFile.read, if_neg hwhole, if_neg hlt, amcPciDmaRead,
    readRequest_end (BitVec.eq_of_toNat_eq hend)]
  exact ⟨rfl, rfl, rfl, rfl, hv⟩

/-- Where a whole unit is left, a read returns what the transfer brought of what was asked for. -/
theorem amcPciDmaRead_whole (hg : Geometry dma k) (hv : h.Valid dma) {start dmaCount inOffset : Size}
    (hpos : 0 < count.toNat)
    (hinside : h.fPos.toNat < floorTo dma.alignment.toNat h.context.length.toNat)
    (hstart : start.toNat = h.context.base.toNat + floorTo dma.alignment.toNat h.fPos.toNat)
    (hin : inOffset.toNat = h.fPos.toNat % dma.alignment.toNat)
    (hdma : dmaCount.toNat = min (ceilTo dma.alignment.toNat (count.toNat + inOffset.toNat))
      (floorTo dma.alignment.toNat h.context.length.toNat
        - floorTo dma.alignment.toNat h.fPos.toNat))
    (hreq : readRequest dma h.context h.fPos count
      = .ok ⟨.fromDevice, start, dmaCount, inOffset, count⟩) :
    let n := CyclicFile.readCount (limits dma) h.window count.toNat
    Agrees dma b (amcPciDmaRead dma b h count)
      (⟨n, peek b.memory (h.window.base + h.window.pos) n⟩, b.memory, h.window.forward n) := by
  intro n
  have hunit := hg.pos
  have hroom := hg.room
  have hlength := hv.region.length
  have hwhole := floorTo_le dma.alignment.toNat h.context.length.toNat
  have hsplit := floorTo_add_mod dma.alignment.toNat h.fPos.toNat
  have hrem := Nat.mod_lt h.fPos.toNat hunit
  have hceil := le_ceilTo hunit (count.toNat + inOffset.toNat)
  have hunits : dma.alignment.toNat ∣ dmaCount.toNat := by
    rw [hdma]
    exact dvd_min (dvd_ceilTo _ _) (Nat.dvd_sub (dvd_floorTo _ _) (dvd_floorTo _ _))
  have hop := dmaOperation_fromDevice (b := b) (r := ⟨.fromDevice, start, dmaCount, inOffset, count⟩)
    hg rfl (hstart ▸ Nat.dvd_add hv.region.aligned (dvd_floorTo _ _)) hunits
  have hclip := toNat_clipCount dma dmaCount
  simp only at hop
  generalize clipCount dma dmaCount = clip at hop hclip
  -- a transfer is at least one unit, so it goes past the offset into its first
  have hone : dma.alignment.toNat ≤ dmaCount.toNat := Nat.le_of_dvd (by omega) hunits
  have hn := toNat_userCount (r := ⟨.fromDevice, start, dmaCount, inOffset, count⟩) (n := clip)
    (show inOffset.toNat ≤ clip.toNat by omega)
  simp only at hn
  have hcount : n = min count.toNat (clip.toNat - inOffset.toNat) := by
    show min count.toNat (min (floorTo dma.alignment.toNat h.context.length.toNat - h.fPos.toNat)
      (dma.maxTransfer.toNat - h.fPos.toNat % dma.alignment.toNat)) = _
    omega
  rw [← hcount] at hn
  have hfits : h.fPos.toNat + n ≤ h.context.length.toNat := by omega
  simp only [amcPciDmaRead, hreq, hop]
  generalize userCount ⟨.fromDevice, start, dmaCount, inOffset, count⟩ clip = user at hn ⊢
  rw [if_pos ((isPositive_iff (by have := hg.maxTransfer_lt; omega)).mpr (by omega)),
    if_pos ((isPositive_iff (by omega)).mpr (by omega))]
  obtain ⟨hwindow, hvalid⟩ := hv.advance (n := user) (by omega)
  rw [hn] at hwindow
  refine ⟨?_, rfl, hwindow, rfl, hvalid⟩
  have hdata : peek (memcpy b.buffer 0 (peek b.memory start.toNat clip.toNat))
      (0 + inOffset.toNat) n = peek b.memory (start.toNat + inOffset.toNat) n :=
    peek_memcpy_peek (by omega)
  have haddress : start.toNat + inOffset.toNat = h.window.base + h.window.pos := by
    show _ = h.context.base.toNat + h.fPos.toNat
    omega
  rw [Nat.zero_add, haddress] at hdata
  rw [toInt_eq_toNat (by omega), hn, hdata]

theorem amcPciDmaRead_agrees (hg : Geometry dma k) (hv : h.Valid dma) (hpos : 0 < count.toNat)
    (hmax : count.toNat ≤ maxRwCount) :
    let spec := CyclicFile.read (limits dma) b.memory h.window count.toNat
    Agrees dma b (amcPciDmaRead dma b h count) (spec.1, b.memory, spec.2) := by
  rcases Nat.lt_or_eq_of_le hv.pos with hinside | hend
  swap
  · exact amcPciDmaRead_end hv hend
  have hlt : h.window.pos < h.window.length := hinside
  obtain ⟨start, dmaCount, inOffset, hstart, hin, hdma, hreq⟩ :=
    readRequest_inside hg hv.region hinside hmax
  have hceil := le_ceilTo hg.pos (count.toNat + inOffset.toNat)
  have hsplit := floorTo_add_mod dma.alignment.toNat h.fPos.toNat
  -- whether a whole unit is left is asked of the position, and of the unit it is in
  have hleft := floorTo_lt_iff (n := h.fPos.toNat) hg.pos
    (dvd_floorTo dma.alignment.toNat h.context.length.toNat)
  by_cases hzero : dmaCount.toNat = 0
  · have hnone : ¬ h.window.pos < floorTo (limits dma).unit h.window.length := by
      show ¬ h.fPos.toNat < floorTo dma.alignment.toNat h.context.length.toNat
      omega
    rw [if_pos (BitVec.eq_of_toNat_eq hzero)] at hreq
    rw [CyclicFile.read, if_neg hnone, if_pos hlt, amcPciDmaRead, hreq]
    exact ⟨rfl, rfl, rfl, rfl, hv⟩
  · have hsome : h.fPos.toNat < floorTo dma.alignment.toNat h.context.length.toNat := by omega
    rw [if_neg fun h => hzero (congrArg BitVec.toNat h)] at hreq
    rw [CyclicFile.read, if_pos (show h.window.pos < floorTo (limits dma).unit h.window.length from
      hsome)]
    exact amcPciDmaRead_whole hg hv hpos hsome hstart hin hdma hreq

theorem amcPciDmaWrite_agrees (hg : Geometry dma k) (hv : h.Valid dma) {data : List UInt8}
    (hpos : 0 < data.length) (hmax : data.length ≤ maxRwCount) :
    Agrees dma b (amcPciDmaWrite dma b h data)
      (CyclicFile.write (limits dma) b.memory h.window data) := by
  have hlength := hv.region.length
  rw [maxRwCount] at hmax
  have hcount : (BitVec.ofNat 64 data.length).toNat = data.length :=
    Nat.mod_eq_of_lt (by omega)
  rw [amcPciDmaWrite]
  generalize BitVec.ofNat 64 data.length = count at hcount ⊢
  rcases Nat.lt_or_eq_of_le hv.pos with hinside | hend
  swap
  · rw [CyclicFile.write, if_pos (show h.window.pos = h.window.length from hend),
      writeRequest_end (BitVec.eq_of_toNat_eq hend)]
    exact ⟨rfl, rfl, rfl, rfl, hv⟩
  rw [CyclicFile.write, if_neg (show ¬ h.window.pos = h.window.length from Nat.ne_of_lt hinside)]
  obtain ⟨start, hstart, hreq⟩ := @writeRequest_inside dma h.context h.fPos count hv.region hinside
  rw [hcount] at hreq
  by_cases hfits : data.length ≤ min (h.context.length.toNat - h.fPos.toNat) dma.bufferSize.toNat
  swap
  · rw [if_neg hfits] at hreq
    rw [hreq, if_neg fun hall => hfits hall.1]
    exact ⟨rfl, rfl, rfl, rfl, hv⟩
  rw [if_pos hfits] at hreq
  have hop := dmaOperation_toDevice (b := { b with buffer := memcpy b.buffer 0 data })
    (r := ⟨.toDevice, start, count, 0, count⟩) hg rfl
  have hclip := toNat_clipCount dma count
  simp only at hop
  generalize clipCount dma count = clip at hop hclip
  have hn : clip.toNat = CyclicFile.writeCount (limits dma) data.length := by
    rw [hclip, hcount]
    rfl
  -- the base is aligned, so the address is aligned when the position is
  have haligned : dma.alignment.toNat ∣ start.toNat ∧ dma.alignment.toNat ∣ clip.toNat ↔
      (limits dma).unit ∣ h.window.pos ∧
        (limits dma).unit ∣ CyclicFile.writeCount (limits dma) data.length := by
    rw [hstart, hn]
    exact and_congr_left' (Nat.dvd_add_right hv.region.aligned)
  by_cases hunits : (limits dma).unit ∣ h.window.pos ∧
      (limits dma).unit ∣ CyclicFile.writeCount (limits dma) data.length
  · have hroom := hg.room
    have hpositive := hg.pos
    obtain ⟨hwindow, hvalid⟩ := hv.advance (n := clip) (by omega)
    rw [if_pos (haligned.mpr hunits)] at hop
    rw [if_pos ⟨hfits, hunits⟩]
    simp only [hreq, hop]
    rw [if_pos ((isPositive_iff (by omega)).mpr (by omega)),
      if_pos ((isPositive_iff (by omega)).mpr (by omega)), ← hn]
    refine ⟨by rw [toInt_eq_toNat (by omega)], ?_, hwindow, rfl, hvalid⟩
    simp only [hstart, peek_memcpy (show clip.toNat ≤ data.length by omega)]
    rfl
  · rw [if_neg fun hall => hunits (haligned.mp hall)] at hop
    rw [if_neg fun hall => hunits hall.2]
    simp only [hreq, hop]
    rw [if_pos ((isPositive_iff (by omega)).mpr (by omega))]
    exact ⟨rfl, rfl, rfl, rfl, hv⟩

/-! ## Seeking -/

/-- A target in 64 bits is the target, or it was too large for them and is refused as negative. -/
theorem vfsSetpos_agrees (hv : h.Valid dma) {target : Int}
    (htarget : n.toInt = target ∨ n.toInt < 0 ∧ h.context.length.toNat < target) :
    Agrees dma b ((vfsSetpos h n).1, b, (vfsSetpos h n).2)
      ((CyclicFile.seekTo h.window target).1, b.memory, (CyclicFile.seekTo h.window target).2) := by
  have hlength := hv.region.length
  have hbound : (vfsSetpos h n) = if 0 ≤ n.toInt ∧ n.toInt ≤ h.context.length.toNat then
      (⟨n.toInt, []⟩, { h with fPos := n }) else (⟨-einval, []⟩, h) := by
    rw [vfsSetpos, BitVec.slt, BitVec.slt, toInt_eq_toNat (n := h.context.length) (by omega)]
    by_cases hin : 0 ≤ n.toInt ∧ n.toInt ≤ h.context.length.toNat
    · rw [if_pos hin, if_neg]
      simp
      omega
    · rw [if_neg hin, if_pos]
      simp
      omega
  rw [hbound, CyclicFile.seekTo]
  by_cases hin : 0 ≤ n.toInt ∧ n.toInt ≤ h.context.length.toNat
  · have hsame : n.toInt = target := htarget.resolve_right fun hbig => by omega
    have hnat : n.toNat = target.toNat := by
      have := BitVec.toInt_eq_toNat_cond n
      split at this <;> omega
    rw [if_pos hin, if_pos (show 0 ≤ target ∧ target ≤ h.window.length from hsame ▸ hin)]
    refine ⟨by rw [hsame], rfl, ?_, rfl, hv.region, ?_⟩
    · rw [← hnat]
      rfl
    · show n.toNat ≤ h.context.length.toNat
      omega
  · rw [if_neg hin, if_neg (show ¬ (0 ≤ target ∧ target ≤ h.window.length) by
      show ¬ (0 ≤ target ∧ target ≤ h.context.length.toNat)
      omega)]
    exact ⟨rfl, rfl, rfl, rfl, hv⟩

/-- A position in the region and an offset add up to their sum, or to something negative. -/
theorem toInt_add_of_small {p : Size} (offset : Size) {length : Nat} (hp : p.toNat ≤ length)
    (hlength : length < 2 ^ 32) :
    (p + offset).toInt = p.toNat + offset.toInt ∨
      (p + offset).toInt < 0 ∧ (length : Int) < p.toNat + offset.toInt := by
  have hlt : offset.toInt < 2 ^ 63 := BitVec.toInt_lt
  have hge : -2 ^ 63 ≤ offset.toInt := BitVec.le_toInt offset
  rw [BitVec.toInt_add, toInt_eq_toNat (n := p) (by omega), Int.bmod_def]
  split <;> omega

theorem amcPciDmaLlseek_agrees (hv : h.Valid dma) (fPos : Size) (whence : Whence) :
    Agrees dma b
      ((amcPciDmaLlseek h fPos whence).1, b, (amcPciDmaLlseek h fPos whence).2)
      ((CyclicFile.seek h.window fPos.toInt whence).1, b.memory,
        (CyclicFile.seek h.window fPos.toInt whence).2) := by
  have hlength := hv.region.length
  have hpos := hv.pos
  cases whence with
  | seekSet => exact vfsSetpos_agrees hv (.inl rfl)
  | seekEnd =>
    exact vfsSetpos_agrees hv (toInt_add_of_small fPos (Nat.le_refl _) hlength)
  | seekCur =>
    rw [amcPciDmaLlseek]
    by_cases hzero : fPos = 0
    · have hstay : CyclicFile.seek h.window fPos.toInt .seekCur
          = (⟨(h.window.pos : Int), []⟩, h.window) := by
        have hnone : (0 : Size).toInt = 0 := rfl
        rw [hzero, CyclicFile.seek, CyclicFile.seekTo, hnone, Int.add_zero, if_pos]
        · rfl
        · exact ⟨Int.natCast_nonneg _, Int.ofNat_le.mpr hpos⟩
      rw [if_pos hzero, hstay]
      refine ⟨?_, rfl, rfl, rfl, hv⟩
      rw [toInt_eq_toNat (by omega)]
      rfl
    · rw [if_neg hzero]
      exact vfsSetpos_agrees hv (toInt_add_of_small fPos hpos hlength)

/-! ## A session -/

theorem Agrees.device {out : Reply × Board × Handle}
    {spec : Reply × (Nat → UInt8) × CyclicFile.Window} (h : Agrees dma b out spec) (i : Nat) :
    (out.2.1.put i out.2.2).device = { b.device.put i spec.2.2 with memory := spec.2.1 } := by
  simp only [Board.device, Board.put, CyclicFile.Device.put, List.map_set, h.handles, h.memory,
    h.window]

theorem Agrees.boardValid {out : Reply × Board × Handle}
    {spec : Reply × (Nat → UInt8) × CyclicFile.Window} (h : Agrees dma b out spec)
    (hb : b.Valid dma) (i : Nat) : (out.2.1.put i out.2.2).Valid dma := by
  intro g hg
  rw [Board.put, h.handles] at hg
  rcases List.mem_or_eq_of_mem_set hg with hold | rfl
  · exact hb g hold
  · exact h.valid

/-- An entry that the clients may open gives a valid handle, and the window that stands for it. -/
theorem openContext_dma {base length : Nat} (perm : UInt8) (name : List UInt8)
    (hbase : base < 2 ^ 48) (hlength : length < 2 ^ 32) (hunit : dma.alignment.toNat ∣ base) :
    ∃ context, openContext (.dma base length perm name) = some context ∧
      (⟨context, 0⟩ : Handle).Valid dma ∧ (⟨context, 0⟩ : Handle).window = ⟨base, length, 0⟩ := by
  have hb : (BitVec.ofNat 64 base).toNat = base := Nat.mod_eq_of_lt (by omega)
  have hl : (BitVec.ofNat 64 length).toNat = length := Nat.mod_eq_of_lt (by omega)
  refine ⟨_, rfl, ⟨⟨?_, ?_, ?_⟩, Nat.zero_le _⟩, ?_⟩
  · rwa [hb]
  · rwa [hl]
  · rwa [hb]
  · rw [Handle.window, hb, hl]
    rfl

theorem step_refines (hg : Geometry dma k) {a : Action} (hb : b.Valid dma) (ha : Allowed dma a) :
    Refines (step dma) (CyclicFile.step (limits dma)) Board.device (Board.Valid dma) b a := by
  have hlookup : ∀ i, b.device.windows[i]? = b.handles[i]?.map Handle.window := fun i =>
    List.getElem?_map ..
  cases a with
  | openEntry entry =>
    obtain ⟨base, length, perm, name, rfl, hbase, hlength, hunit⟩ := ha
    obtain ⟨context, hcontext, hvalid, hwindow⟩ := openContext_dma perm name hbase hlength hunit
    simp only [Refines, step, CyclicFile.step, hcontext, Option.map_some]
    refine ⟨by simp only [Board.device, List.map_append, List.map_cons, List.map_nil, hwindow], ?_⟩
    rintro _ _ ⟨⟩ h hh
    rcases List.mem_append.mp hh with hold | hnew
    · exact hb h hold
    · rw [List.mem_singleton.mp hnew]
      exact hvalid
  | read i count =>
    cases hi : b.handles[i]? with
    | none => simp [Refines, step, CyclicFile.step, hlookup, hi]
    | some h =>
      have hagrees := amcPciDmaRead_agrees (b := b) hg (hb h (List.mem_of_getElem? hi)) ha.1 ha.2
      simp only [Refines, step, CyclicFile.step, hlookup, hi, Option.map_some]
      refine ⟨?_, ?_⟩
      · rw [hagrees.reply, hagrees.device i]
        rfl
      · rintro _ _ ⟨⟩
        exact hagrees.boardValid hb i
  | write i data =>
    cases hi : b.handles[i]? with
    | none => simp [Refines, step, CyclicFile.step, hlookup, hi]
    | some h =>
      have hagrees := amcPciDmaWrite_agrees (b := b) hg (hb h (List.mem_of_getElem? hi)) ha.1 ha.2
      simp only [Refines, step, CyclicFile.step, hlookup, hi, Option.map_some]
      refine ⟨?_, ?_⟩
      · rw [hagrees.reply, hagrees.device i]
        rfl
      · rintro _ _ ⟨⟩
        exact hagrees.boardValid hb i
  | llseek i fPos whence =>
    cases hi : b.handles[i]? with
    | none => simp [Refines, step, CyclicFile.step, hlookup, hi]
    | some h =>
      have hagrees :=
        amcPciDmaLlseek_agrees (b := b) (hb h (List.mem_of_getElem? hi)) fPos whence
      simp only [Refines, step, CyclicFile.step, hlookup, hi, Option.map_some]
      refine ⟨?_, ?_⟩
      · rw [hagrees.reply]
        exact congrArg (fun d => some (_, d)) (hagrees.device i).symm
      · rintro _ _ ⟨⟩
        exact hagrees.boardValid hb i

/-- **The driver is a cyclic file.** Whatever is in the buffer, a session of any length over any
    number of handles is answered as `CyclicFile` answers it, and leaves the device's memory and
    the positions as `CyclicFile` leaves them. -/
theorem dmaFile_refines (hg : Geometry dma k) (memory buffer : Nat → UInt8) {as : List Action}
    (has : ∀ a ∈ as, Allowed dma a) :
    answers (CyclicFile.step (limits dma)) ⟨memory, []⟩ as
      = (answers (step dma) ⟨memory, buffer, []⟩ as).map fun (replies, b) => (replies, b.device) :=
  (answers_refines (I := Board.Valid dma) (s := ⟨memory, buffer, []⟩)
    (fun _ _ hb ha => step_refines hg hb ha) nofun has).1

/-- Words of four bytes and a small buffer. -/
def wordDma : DmaControl := ⟨4, 64, 64, 4096⟩

theorem geometry_wordDma : Geometry wordDma 2 := ⟨rfl, rfl, by decide, by decide⟩

/-- Two handles on one region of 30 bytes: a read across words, a write to the wrong place and one
    to the right place, a read of it through the other handle, and the broken last word. -/
def twoHandles : List Action :=
  [.openEntry (.dma 256 30 3 []), .openEntry (.dma 256 30 3 []),
    .llseek 0 5 .seekSet, .read 0 10, .write 0 [1, 2, 3, 4],
    .llseek 0 (-3) .seekCur, .write 0 [1, 2, 3, 4],
    .llseek 1 14 .seekSet, .read 1 100, .read 1 1, .llseek 1 0 .seekEnd, .read 1 1]

theorem dmaFile_refines_twoHandles : ∃ replies b,
    answers (step wordDma) ⟨fun i => UInt8.ofNat i, fun _ => 0, []⟩ twoHandles
      = some (replies, b) ∧
    replies.map Reply.rc = [0, 0, 5, 10, -einval, 12, 4, 14, 14, -efault, 30, 0] ∧
    answers (CyclicFile.step (limits wordDma)) ⟨fun i => UInt8.ofNat i, []⟩ twoHandles
      = some (replies, b.device) := by
  refine ⟨_, _, rfl, rfl, ?_⟩
  have hallowed : ∀ a ∈ twoHandles, Allowed wordDma a := by
    have hentry : Allowed wordDma (.openEntry (.dma 256 30 3 [])) :=
      ⟨256, 30, 3, [], rfl, by decide, by decide, by decide⟩
    simp only [twoHandles, List.forall_mem_cons, hentry]
    simp [Allowed, maxRwCount]
  exact dmaFile_refines geometry_wordDma _ (fun _ => 0) hallowed

end DmaFile
end AmcPci
