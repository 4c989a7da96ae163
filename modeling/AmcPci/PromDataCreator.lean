import AmcPci.Lib.Bytes

/-!
# `tools/prom_data_creator.py`

The tool that builds PROM images from a configuration file. Text is `List Char`, `bytes` is
`List UInt8`, and an integer is an `Int` until `struct.pack` has checked its range. A raised
exception is an `Except` error; which of the two kinds it is never matters to the tool.

Three facts about characters come from the Unicode database and not from the tool: what counts as
white space, how `str.lower` maps text, and which characters are decimal digits. They are the
fields of `Unicode`, a parameter of everything that reads text.
-/

namespace AmcPci

open Lib

/-- The exceptions that the tool can run into. -/
inductive PyError where
  | valueError
  | structError
deriving DecidableEq, Repr

/-- What the tool uses of the Unicode database. -/
structure Unicode where
  isSpace : Char → Bool
  lower : List Char → List Char
  decimal : Char → Option Nat

/-! ## The parts of Python the tool uses -/

/-- `str.strip`. -/
def strip (U : Unicode) (s : List Char) : List Char :=
  ((s.dropWhile U.isSpace).reverse.dropWhile U.isSpace).reverse

/-- `str.split()`: the words between runs of white space. -/
def splitWords (U : Unicode) (s : List Char) : List (List Char) :=
  (s.splitOnP U.isSpace).filter (· ≠ [])

/-- `a, b = s.split(":", 1)`: the unpacking fails when there is no colon. -/
def splitColon (s : List Char) : Except PyError (List Char × List Char) :=
  if ':' ∈ s then .ok (s.takeWhile (· ≠ ':'), (s.dropWhile (· ≠ ':')).drop 1)
  else .error .valueError

/-- The value of a digit in base 10 or 16. -/
def digit (U : Unicode) (base : Nat) (c : Char) : Option Nat :=
  match U.decimal c with
  | some d => some d
  | none =>
    if base = 16 ∧ 'a' ≤ c ∧ c ≤ 'f' then some (c.toNat - 'a'.toNat + 10)
    else if base = 16 ∧ 'A' ≤ c ∧ c ≤ 'F' then some (c.toNat - 'A'.toNat + 10)
    else none

/-- One or more digits, single underscores allowed between them. -/
def digits (U : Unicode) (base : Nat) (s : List Char) : Option (List Nat) :=
  let chunks := s.splitOn '_'
  if [] ∈ chunks then none else chunks.flatten.mapM (digit U base)

/-- `int(s, base)`: surrounding white space, a sign, `0x` in base 16, digits. -/
def pyInt (U : Unicode) (base : Nat) (s : List Char) : Except PyError Int :=
  let s := strip U s
  let sign : Int := if s.head? = some '-' then -1 else 1
  let s := if s.head? = some '-' ∨ s.head? = some '+' then s.drop 1 else s
  let s := if base = 16 ∧ (s.take 2 = ['0', 'x'] ∨ s.take 2 = ['0', 'X']) then s.drop 2 else s
  match digits U base s with
  | some ds => .ok (sign * (ds.foldl (fun n d => base * n + d) 0 : Nat))
  | none => .error .valueError

/-- `struct.pack` of one little-endian unsigned field of `n` bytes. -/
def pack (n : Nat) (v : Int) : Except PyError (List UInt8) :=
  if 0 ≤ v ∧ v < 256 ^ n then .ok (leBytes n v.toNat) else .error .structError

/-- `str.encode()`: UTF-8. -/
def encode (s : List Char) : List UInt8 := s.flatMap String.utf8EncodeChar

/-! ## Entries -/

/-- `int_hex`. -/
def intHex (U : Unicode) (number : List Char) : Except PyError Int :=
  pyInt U 16 (number.filter (· ≠ '_'))

/-- `dump_header`; `version or DEFAULT_VERSION` replaces a zero. -/
def dumpHeader (version : Int) : Except PyError (List UInt8) := do
  let v ← pack 1 (if version = 0 then 1 else version)
  return [0x44, 0x49, 0x41, 0x47] ++ v

/-- `dump_memory_description`: the short form, or the extended form when base or length needs it. -/
def dumpMemoryDescription (name : List Char) (base length perm : Int) :
    Except PyError (List UInt8) := do
  if base > 0xffffffffffff ∨ length > 0xffffffff then
    let tag ← pack 1 3
    let size ← pack 1 (name.length + 18)
    let base ← pack 8 base
    let length ← pack 8 length
    let perm ← pack 1 perm
    return tag ++ size ++ base ++ length ++ perm ++ encode name ++ [0]
  else
    let tag ← pack 1 2
    let size ← pack 1 (name.length + 12)
    let baseLow ← pack 4 (base % 2 ^ 32)
    let baseHigh ← pack 2 (base / 2 ^ 32)
    let length ← pack 4 length
    let perm ← pack 1 perm
    return tag ++ size ++ baseLow ++ baseHigh ++ length ++ perm ++ encode name ++ [0]

/-- `dump_device_description`. -/
def dumpDeviceDescription (name : List Char) : Except PyError (List UInt8) := do
  let tag ← pack 1 1
  let size ← pack 1 (name.length + 1)
  return tag ++ size ++ encode name ++ [0]

/-- An entry whose payload is one byte: `dump_dma_mask` and `dump_dma_alignment_shift`. -/
def dumpByte (tag : Int) (v : Int) : Except PyError (List UInt8) := do
  let tag ← pack 1 tag
  let size ← pack 1 1
  let v ← pack 1 v
  return tag ++ size ++ v

/-- `dump_dma_mask`. -/
def dumpDmaMask (mask : Int) : Except PyError (List UInt8) := dumpByte 4 mask

/-- `dump_dma_alignment_shift`. -/
def dumpDmaAlignmentShift (shift : Int) : Except PyError (List UInt8) := dumpByte 5 shift

/-- `perm_flag`. -/
def permFlag (U : Unicode) (arg : List Char) : Except PyError Int :=
  let result : Int :=
    (if 'r' ∈ arg ∨ 'R' ∈ arg then 4 else 0) + (if 'w' ∈ arg ∨ 'W' ∈ arg then 2 else 0)
  if result ≠ 0 then .ok result else pyInt U 10 arg

/-! ## Checksum and end marker -/

/-- `checksum`. The last line is `(~result) & 0xffff` of a result that is not negative. -/
def checksum (content : List UInt8) : Nat :=
  let result := (List.range (content.length / 2)).foldl
    (fun result i => result + leValue ((content.drop (i * 2)).take 2)) 0
  let result :=
    if content.length % 2 = 1 then result + leValue (content.drop (content.length - 1)) <<< 8
    else result
  let result := (result &&& 0xffff) + (result >>> 16)
  let result := (result &&& 0xffff) + (result >>> 16)
  0xffff - (result &&& 0xffff)

/-- `check_checksum`. -/
def checkChecksum (promData : List UInt8) : Bool := checksum promData == 0

/-- `dump_end`. -/
def dumpEnd (content : List UInt8) : List UInt8 :=
  if content ≠ [] then
    if content.length % 2 = 1 then
      [0x00, 0x03, 0x00] ++ leBytes 2 (checksum (content ++ [0x00, 0x03, 0x00]))
    else [0x00, 0x02] ++ leBytes 2 (checksum (content ++ [0x00, 0x02]))
  else [0x00, 0x00]

/-! ## The COE format -/

/-- `int_from_byte_array`. -/
def intFromByteArray (buffer : List UInt8) : Nat :=
  buffer.reverse.foldl (fun result item => (result <<< 8) + item.toNat) 0

/-- `"{:0Nx}".format(number)`, where `N` is the width. -/
def formatHex (width number : Nat) : List Char :=
  let digits := Nat.toDigits 16 number
  List.replicate (width - digits.length) '0' ++ digits

/-- `coe_start` in `dump_coe`. -/
def coeStart : List Char :=
  "memory_initialization_radix=16;\nmemory_initialization_vector=\n".toList

/-- `coe_end` in `dump_coe`. -/
def coeEnd : List Char := ";\n".toList

/-- `dump_coe`. Python's `range` has no step of zero. -/
def dumpCoe (binData : List UInt8) (cellSize : Nat) : Except PyError (List Char) :=
  if cellSize = 0 then .error .valueError
  else
    let hexPart := (List.range ((binData.length + cellSize - 1) / cellSize)).map fun i =>
      formatHex (cellSize * 2) (intFromByteArray ((binData.drop (i * cellSize)).take cellSize))
    .ok (coeStart ++ (", ".toList).intercalate hexPart ++ coeEnd)

/-! ## The configuration file -/

/-- One field of a configuration, its value converted. -/
inductive ConfigField where
  | version (version : Int)
  | name (value : List Char)
  | dma (name : List Char) (base length perm : Int)
  | mask (mask : Int)
  | alignShift (shift : Int)
deriving DecidableEq, Repr

/-- The bytes a field adds to the image. -/
def dumpField : ConfigField → Except PyError (List UInt8)
  | .version v => dumpHeader v
  | .name value => dumpDeviceDescription value
  | .dma name base length perm => dumpMemoryDescription name base length perm
  | .mask mask => dumpDmaMask mask
  | .alignShift shift => dumpDmaAlignmentShift shift

/-- One line of the file: a field, or `none` for a comment or an empty line. -/
def configField (U : Unicode) (line : List Char) : Except PyError (Option ConfigField) :=
  if line.head? = some '#' ∨ line.head? = some '\n' then .ok none
  else do
    let (rawField, rawValue) ← splitColon line
    let field := U.lower (strip U rawField)
    let value := strip U rawValue
    if field = "version".toList then
      return some (.version (← pyInt U 10 value))
    else if field = "name".toList then
      return some (.name value)
    else if field = "dma".toList ∨ field = "region".toList then
      match splitWords U value with
      | [name, perm, base, length] =>
        return some (.dma name (← intHex U base) (← intHex U length) (← permFlag U perm))
      | _ => .error .valueError
    else if field = "mask".toList then
      return some (.mask (← pyInt U 10 value))
    else if field = "align_shift".toList then
      return some (.alignShift (← pyInt U 10 value))
    else .error .valueError

/-- The loop of `process_config_file`, the image so far in `binData`. -/
def processLines (U : Unicode) : List UInt8 → List (List Char) → Except PyError (List UInt8)
  | binData, [] => .ok binData
  | binData, line :: lines => do
    match ← configField U line with
    | none => processLines U binData lines
    | some field => processLines U (binData ++ (← dumpField field)) lines

/-- `process_config_file`, on the lines of the file. -/
def processConfigFile (U : Unicode) (lines : List (List Char)) : Except PyError (List UInt8) := do
  let binData ← processLines U [] lines
  return binData ++ dumpEnd binData

/-- The fields a configuration consists of. -/
def configFields (U : Unicode) (lines : List (List Char)) : Except PyError (List ConfigField) := do
  return (← lines.mapM (configField U)).filterMap id

end AmcPci
