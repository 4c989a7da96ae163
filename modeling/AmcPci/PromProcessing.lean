import AmcPci.Kernel
import AmcPci.Utils
import AmcPci.Lib.Tlv

/-!
# `prom_processing.c`

The identity PROM: loading it out of BAR2, checking it, and the walks over its entries.

A buffer is a function from byte index to byte. `context->buff` has `PROM_MAX_LENGTH + 1` bytes,
all of them zero after `kzalloc`; an index past them reads whatever memory follows, and the model
says so: `beyond` is that memory, and `load_prom` is defined for every value of it. `base` is the
PROM as it stands in BAR2.

An entry pointer is the index of its tag byte in the buffer. The macro `prom_for_each_entry` is a
loop without a bound, so `promEntries` takes fuel; that enough fuel exists for an accepted PROM
is a theorem (`Proof/Prom/Accept.lean`).
-/

namespace AmcPci

open Lib

/-! ## Constants -/

/-- `PROM_END_TAG`, and so on for the tags of the entries. -/
def promEndTag : UInt8 := 0
def promDeviceTag : UInt8 := 1
def promDmaTag : UInt8 := 2
def promDmaExtTag : UInt8 := 3
def promDmaMaskTag : UInt8 := 4
def promDmaAlignTag : UInt8 := 5

/-- `PROM_MAX_LENGTH`. -/
def promMaxLength : Nat := 4096

/-- `PROM_VERSION`, the one version there is. -/
def promVersion : UInt8 := 1
/-- `PROM_FIRST_ENTRY_OFFSET`. -/
def promFirstEntryOffset : Nat := 5
/-- `PROM_VERSION_OFFSET`. -/
def promVersionOffset : Nat := 4
/-- `PROM_CHECKSUM_SIZE`. -/
def promChecksumSize : UInt8 := 2

/-- `struct prom_context`. -/
structure PromContext where
  base : Nat → UInt8
  buff : Nat → UInt8
  dataLen : Nat
  nentries : Nat
  dmaNentries : Nat
  nentriesWithMinor : Nat

/-! ## Entries -/

/-- `prom_entry_needs_minor`, on the tag byte. -/
def promEntryNeedsMinor (tag : UInt8) : Bool :=
  tag == promDeviceTag || tag == promDmaTag || tag == promDmaExtTag

/-- `prom_next_entry`. -/
def promNextEntry (buff : Nat → UInt8) (entry : Nat) : Nat :=
  if buff entry = promEndTag then entry
  else entry + (buff (entry + 1)).toNat + 2

/-- `prom_for_each_entry`: the entries visited from `pos` on, `none` when the fuel runs out before
    an end marker is met. -/
def promEntries (buff : Nat → UInt8) : Nat → Nat → Option (List Nat)
  | 0, _ => none
  | fuel + 1, pos =>
    if buff pos = promEndTag then some []
    else (promEntries buff fuel (promNextEntry buff pos)).map (pos :: ·)

/-- A NUL-terminated `char name[]` at `p`. -/
def cString (buff : Nat → UInt8) : Nat → Nat → Option (List UInt8)
  | 0, _ => none
  | fuel + 1, p =>
    if buff p = 0 then some []
    else (cString buff fuel (p + 1)).map (buff p :: ·)

/-- `dma_entry->base[0] | dma_entry->base[1] << 16 | dma_entry->base[2] << 32`, the way
    `amc_pci_open` puts the three `u16` together. -/
def dmaEntryBase (buff : Nat → UInt8) (entry : Nat) : Nat :=
  leValue (peek buff (entry + 2) 2) ||| leValue (peek buff (entry + 4) 2) <<< 16 |||
    leValue (peek buff (entry + 6) 2) <<< 32

/-- What the driver reads out of one entry. -/
inductive PromEntry where
  | device (name : List UInt8)
  | dma (base length : Nat) (perm : UInt8) (name : List UInt8)
  | dmaExt (base length : Nat) (perm : UInt8) (name : List UInt8)
  | dmaMask (mask : UInt8)
  | dmaAlign (shift : UInt8)
deriving DecidableEq, Repr

/-- The fields of `union prom_entry` that belong to the tag, at the offsets of the packed
    structures. A tag the driver does not know has none. -/
def promEntryAt (buff : Nat → UInt8) (fuel entry : Nat) : Option PromEntry :=
  if buff entry = promDeviceTag then
    (cString buff fuel (entry + 2)).map .device
  else if buff entry = promDmaTag then
    (cString buff fuel (entry + 13)).map
      (.dma (dmaEntryBase buff entry) (leValue (peek buff (entry + 8) 4)) (buff (entry + 12)))
  else if buff entry = promDmaExtTag then
    (cString buff fuel (entry + 19)).map
      (.dmaExt (leValue (peek buff (entry + 2) 8)) (leValue (peek buff (entry + 10) 8))
        (buff (entry + 18)))
  else if buff entry = promDmaMaskTag then some (.dmaMask (buff (entry + 2)))
  else if buff entry = promDmaAlignTag then some (.dmaAlign (buff (entry + 2)))
  else none

/-! ## Reading and loading -/

/-- `ioread32` of the word at a byte address, as the processor sees it. -/
def ioread32 (base : Nat → UInt8) (addr : Nat) : Nat := leValue (peek base addr 4)

/-- `read_prom`: the returned size, and the caller's buffer afterwards. -/
def readProm (base buff : Nat → UInt8) (off count : Nat) : Int × (Nat → UInt8) :=
  if off > promMaxLength then (-einval, buff)
  else
    let offAl := off / 4 * 4
    let size := min (promMaxLength - offAl) count
    (size, (List.range ((size + 3) / 4)).foldl
      (fun buff i => memcpy buff (4 * i) (leBytes 4 (ioread32 base (offAl + 4 * i)))) buff)

/-- `check_magic`: the four bytes of the word spell `DIAG`. -/
def checkMagic (magic : Nat) : Bool := leBytes 4 magic == [0x44, 0x49, 0x41, 0x47]

/-- The buffer `kzalloc` returns. -/
def zeroed (beyond : Nat → UInt8) : Nat → UInt8 :=
  fun i => if i ≤ promMaxLength then 0 else beyond i

/-- The scan loop's variables: `ent_i` and the three counters. -/
structure PromScan where
  entI : Nat
  nentries : Nat
  dmaNentries : Nat
  nentriesWithMinor : Nat
deriving DecidableEq, Repr

/-- The loop body. -/
def PromScan.step (buff : Nat → UInt8) (s : PromScan) : PromScan where
  entI := s.entI + (buff (s.entI + 1)).toNat + 2
  nentries := s.nentries + 1
  dmaNentries :=
    if buff s.entI = promDmaTag ∨ buff s.entI = promDmaExtTag then s.dmaNentries + 1
    else s.dmaNentries
  nentriesWithMinor :=
    if promEntryNeedsMinor (buff s.entI) then s.nentriesWithMinor + 1 else s.nentriesWithMinor

/-- The `while` loop of `load_prom`. Every turn moves `ent_i` up by at least two. -/
def scanEntries (buff : Nat → UInt8) (s : PromScan) : PromScan :=
  if s.entI < promMaxLength ∧ buff s.entI ≠ promEndTag then scanEntries buff (s.step buff) else s
termination_by promMaxLength - s.entI
decreasing_by
  simp only [PromScan.step]
  omega

/-- `validate_prom`. -/
def validateProm (buff : Nat → UInt8) (dataLen : Nat) : Bool := calcChecksum16 buff dataLen == 0

/-- `load_prom` once the buffer is filled: version, scan, end marker, checksum. -/
def loadPromBuff (base buff : Nat → UInt8) : Except Int PromContext :=
  if buff promVersionOffset ≠ promVersion then .error (-eio)
  else
    let s := scanEntries buff ⟨promFirstEntryOffset, 0, 0, 0⟩
    let dataLen := s.entI + (buff (s.entI + 1)).toNat + 2
    if ¬(dataLen < promMaxLength ∧ buff s.entI = promEndTag ∧
        (buff (s.entI + 1) = promChecksumSize ∨ buff (s.entI + 1) = promChecksumSize + 1)) then
      .error (-eio)
    else if validateProm buff dataLen then
      .ok ⟨base, buff, dataLen, s.nentries, s.dmaNentries, s.nentriesWithMinor⟩
    else .error (-eio)

/-- `load_prom`. `kzalloc` is the outcome of the allocation and `defaultProm` the image built
    from `default_prom.config`, used when BAR2 holds no PROM. -/
def loadProm (defaultProm : List UInt8) (beyond : Nat → UInt8) (kzalloc : Bool)
    (base : Nat → UInt8) : Except Int PromContext :=
  if kzalloc = false then .error (-enomem)
  else if checkMagic (ioread32 base 0) then
    let r := readProm base (zeroed beyond) 0 promMaxLength
    if r.1 = promMaxLength then loadPromBuff base r.2 else .error (-eio)
  else loadPromBuff base (memcpy (zeroed beyond) 0 defaultProm)

/-! ## Walks -/

/-- The entries `prom_for_each_entry` visits. Each is at least two bytes long, so this is fuel
    enough for any PROM that has been accepted. -/
def PromContext.entries (context : PromContext) : List Nat :=
  (promEntries context.buff promMaxLength promFirstEntryOffset).getD []

/-- The loop of `prom_find_entry`, with its counter. -/
def findEntry (index : Int) : List Nat → Int → Option Nat
  | [], _ => none
  | pentry :: entries, i => if i = index then some pentry else findEntry index entries (i + 1)

def promFindEntry (context : PromContext) (index : Int) : Option Nat :=
  findEntry index context.entries 0

/-- `prom_find_entry_by_tag`. -/
def promFindEntryByTag (context : PromContext) (tag : UInt8) : Option Nat :=
  context.entries.find? fun entry => context.buff entry == tag

end AmcPci
