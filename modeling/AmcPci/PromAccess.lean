import AmcPci.Lib.Reading
import AmcPci.PromProcessing

/-!
# Where `load_prom` and the walks look

The functions of `prom_processing.c` and `utils.c` once more, as programs that note every index
into `context->buff` they evaluate, in the order in which C evaluates it: `&&` and `||` look at
their right side only when they have to. That they compute what `AmcPci.PromProcessing` says is
proved in `Proof/Prom/Access.lean`.
-/

namespace AmcPci

open Lib

/-- `ptr[i]` for `u16 *ptr = (u16 *) buff`. -/
def u16AtLooking (buff : Nat → UInt8) (i : Nat) : Reading UInt32 := do
  let low ← look buff (2 * i)
  let high ← look buff (2 * i + 1)
  return low.toUInt32 + high.toUInt32 <<< 8

/-- The odd byte of `calc_checksum16`. -/
def addOddByteLooking (buff : Nat → UInt8) (size : Nat) (result : UInt32) : Reading UInt32 :=
  if size % 2 = 1 then do
    let last ← look buff (size - 1)
    return result + last.toUInt32 <<< 8
  else return result

/-- `calc_checksum16`. -/
def calcChecksum16Looking (buff : Nat → UInt8) (size : Nat) : Reading UInt16 := do
  let result : UInt32 ← (List.range (size / 2)).foldlM
    (fun result i => do return result + (← u16AtLooking buff i)) 0
  let result ← addOddByteLooking buff size result
  let result : UInt32 := (result &&& (0xffff : UInt32)) + (result >>> 16)
  let result : UInt32 := (result &&& (0xffff : UInt32)) + (result >>> 16)
  return ((~~~result) &&& (0xffff : UInt32)).toUInt16

/-- The `while` loop of `load_prom`. -/
def scanEntriesLooking (buff : Nat → UInt8) (s : PromScan) : Reading PromScan :=
  if s.entI < promMaxLength then do
    let tag ← look buff s.entI
    if tag = promEndTag then return s
    else do
      -- `entry->tag`, for the one counter and for the other
      let dmaTag ← look buff s.entI
      let minorTag ← look buff s.entI
      let size ← look buff (s.entI + 1)
      scanEntriesLooking buff {
        entI := s.entI + size.toNat + 2
        nentries := s.nentries + 1
        dmaNentries :=
          if dmaTag = promDmaTag ∨ dmaTag = promDmaExtTag then s.dmaNentries + 1
          else s.dmaNentries
        nentriesWithMinor :=
          if promEntryNeedsMinor minorTag then s.nentriesWithMinor + 1
          else s.nentriesWithMinor }
  else return s
termination_by promMaxLength - s.entI
decreasing_by omega

/-- The end-marker test. -/
def endMarkerLooking (buff : Nat → UInt8) (entI dataLen : Nat) : Reading Bool :=
  if dataLen < promMaxLength then do
    let tag ← look buff entI
    if tag = promEndTag then do
      let size ← look buff (entI + 1)
      if size = promChecksumSize then return true
      else return (← look buff (entI + 1)) == promChecksumSize + 1
    else return false
  else return false

/-- `load_prom` once the buffer is filled. -/
def loadPromBuffLooking (base buff : Nat → UInt8) : Reading (Except Int PromContext) := do
  let version ← look buff promVersionOffset
  if version ≠ promVersion then return .error (-eio)
  else do
    let s ← scanEntriesLooking buff ⟨promFirstEntryOffset, 0, 0, 0⟩
    let size ← look buff (s.entI + 1)
    let dataLen := s.entI + size.toNat + 2
    let ended ← endMarkerLooking buff s.entI dataLen
    if ended then do
      let result ← calcChecksum16Looking buff dataLen
      if result = 0 then
        return .ok ⟨base, buff, dataLen, s.nentries, s.dmaNentries, s.nentriesWithMinor⟩
      else return .error (-eio)
    else return .error (-eio)

/-- `load_prom`. -/
def loadPromLooking (defaultProm : List UInt8) (beyond : Nat → UInt8) (kzalloc : Bool)
    (base : Nat → UInt8) : Reading (Except Int PromContext) :=
  if kzalloc = false then return .error (-enomem)
  else if checkMagic (ioread32 base 0) then
    let r := readProm base (zeroed beyond) 0 promMaxLength
    if r.1 = promMaxLength then loadPromBuffLooking base r.2 else return .error (-eio)
  else loadPromBuffLooking base (memcpy (zeroed beyond) 0 defaultProm)

/-- `prom_next_entry`. -/
def promNextEntryLooking (buff : Nat → UInt8) (entry : Nat) : Reading Nat := do
  let tag ← look buff entry
  if tag = promEndTag then return entry
  else do
    let size ← look buff (entry + 1)
    return entry + size.toNat + 2

/-- `prom_for_each_entry` from `pos` on, with an empty body. -/
def promEntriesLooking (buff : Nat → UInt8) : Nat → Nat → Reading (Option (List Nat))
  | 0, _ => return none
  | fuel + 1, pos => do
    let tag ← look buff pos
    if tag = promEndTag then return some []
    else do
      let next ← promNextEntryLooking buff pos
      let entries ← promEntriesLooking buff fuel next
      return entries.map (pos :: ·)

end AmcPci
