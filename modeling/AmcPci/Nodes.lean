import AmcPci.Core
import AmcPci.Lib.Table
import AmcPci.Setup

/-!
# Device nodes and their minors (`src/driver/amc_pci_core.c`)

A board has 16 minors. `create_device_nodes` walks the PROM and gives out the next one to each entry
it makes a node for; `amc_pci_open` counts through the PROM again to find the entry a minor stands
for; `destroy_device_nodes` takes nodes away by number, without looking at the entries.

The nodes of all boards are in one class. A step is a probe that succeeds, with a node made for
each `device_create`, or a removal. What a probe that fails leaves behind is in `AmcPci.Probe`,
clients that hold a board up are in `AmcPci.Core`.
-/

namespace AmcPci
namespace Nodes

open Lib
open AmcPci.Core (AccMode validateFilePermission promPermCanRead promPermCanWrite)
open Probe (maxBoards maxMinorsPerBoard getFreeBoard)

/-- `struct amc_pci`. `dma` is the pointer that stays `NULL` without an engine. -/
structure Board extends Setup.Board where
  board : Fin maxBoards

/-- The first of its minors. -/
def Board.minor (b : Board) : Nat := b.board * maxMinorsPerBoard

/-! ## `prom_processing.c` -/

/-- The loop of `prom_find_entry_with_minor`, with its counter. -/
def findEntryWithMinor (buff : Nat → UInt8) (minor : Int) : List Nat → Int → Option Nat
  | [], _ => none
  | pentry :: entries, i =>
    if promEntryNeedsMinor (buff pentry) then
      if i = minor then some pentry else findEntryWithMinor buff minor entries (i + 1)
    else findEntryWithMinor buff minor entries i

/-- `prom_find_entry_with_minor`. -/
def promFindEntryWithMinor (context : PromContext) (minor : Int) : Option Nat :=
  findEntryWithMinor context.buff minor context.entries 0

/-! ## Making nodes -/

/-- A node of the class. The name is missing if one of the strings in it does not end. -/
structure Node where
  minor : Nat
  name : Option (List UInt8)
deriving DecidableEq

/-- The PROM buffer has one byte more than the longest PROM. -/
def promString (buff : Nat → UInt8) (p : Nat) : Option (List UInt8) :=
  cString buff (promMaxLength + 1) p

/-- `"%s.%d.%s"`. -/
def nodeName (deviceName : Option (List UInt8)) (board : Nat) (suffix : Option (List UInt8)) :
    Option (List UInt8) :=
  deviceName.bind fun deviceName => suffix.map fun suffix =>
    deviceName ++ [0x2e] ++ (Nat.toDigits 10 board).map (UInt8.ofNat ·.toNat) ++ [0x2e] ++ suffix

/-- `reg`. -/
def regSuffix : List UInt8 := [0x72, 0x65, 0x67]

/-- The loop of `create_device_nodes`. `deviceName` points at a name in the PROM. -/
def createNodes (b : Board) :
    List Nat → Option Nat → Nat → List Node → Int × List Node
  | [], _, _, nodes => (0, nodes)
  | pentry :: entries, deviceName, minorOff, nodes =>
    let buff := b.prom.buff
    let create (deviceName : Nat) (suffix : Option (List UInt8)) : List Node :=
      nodes ++ [⟨b.minor + minorOff, nodeName (promString buff deviceName) b.board suffix⟩]
    if buff pentry = promDeviceTag then
      match deviceName with
      | some _ => (-einval, nodes)
      | none =>
        createNodes b entries (some (pentry + 2)) (minorOff + 1)
          (create (pentry + 2) (some regSuffix))
    else if buff pentry = promDmaTag then
      match deviceName with
      | none => (-einval, nodes)
      | some p =>
        createNodes b entries (some p) (minorOff + 1) (create p (promString buff (pentry + 13)))
    else if buff pentry = promDmaExtTag then
      match deviceName with
      | none => (-einval, nodes)
      | some p =>
        createNodes b entries (some p) (minorOff + 1) (create p (promString buff (pentry + 19)))
    else createNodes b entries deviceName minorOff nodes

/-- `create_device_nodes`, with every `cdev_add` and `device_create` a success. -/
def createDeviceNodes (b : Board) : Int × List Node :=
  if b.prom.nentriesWithMinor = 0 then (-einval, []) else createNodes b b.prom.entries none 0 []

/-! ## Taking them away -/

/-- `device_destroy`, which finds the node by its number. -/
def deviceDestroy (nodes : List Node) (minor : Nat) : List Node := eraseKey Node.minor nodes minor

/-- `destroy_device_nodes`: one number for each entry of the PROM. -/
def destroyDeviceNodes (b : Board) (nodes : List Node) : List Node :=
  ((List.range b.prom.nentries).map (b.minor + ·)).foldl deviceDestroy nodes

/-! ## Opening one -/

/-- The device a file is handed to, and what its own open is given. -/
inductive Opened
  /-- `amc_pci_reg_open`. -/
  | reg (board : Fin maxBoards)
  /-- `amc_pci_dma_open`. -/
  | dma (dma : Option DmaControl) (context : MemoryContext)
deriving DecidableEq

/-- `amc_pci_open`, up to the device's own open. -/
def amcPciOpen (b : Board) (minor : Nat) (mode : AccMode) : Except Int Opened :=
  let buff := b.prom.buff
  match promFindEntryWithMinor b.prom ((minor : Int) - b.minor) with
  | none => .error (-einval)
  | some pentry =>
    if buff pentry = promDeviceTag then .ok (.reg b.board)
    else if buff pentry = promDmaTag then
      let perm := buff (pentry + 12)
      if validateFilePermission mode (promPermCanRead perm) (promPermCanWrite perm) then
        .ok (.dma b.dma ⟨BitVec.ofNat 64 (dmaEntryBase buff pentry),
          BitVec.ofNat 64 (leValue (peek buff (pentry + 8) 4))⟩)
      else .error (-eacces)
    else if buff pentry = promDmaExtTag then
      let perm := buff (pentry + 18)
      if validateFilePermission mode (promPermCanRead perm) (promPermCanWrite perm) then
        .ok (.dma b.dma ⟨BitVec.ofNat 64 (leValue (peek buff (pentry + 2) 8)),
          BitVec.ofNat 64 (leValue (peek buff (pentry + 10) 8))⟩)
      else .error (-eacces)
    else .error (-einval)

/-! ## Boards coming and going -/

/-- All boards, with the nodes that are in the class. -/
structure State where
  deviceBoards : Fin maxBoards → Bool
  boards : List Board
  /-- `device_class`. -/
  nodes : List Node

/-- After `amc_pci_init`. -/
def initial : State := ⟨fun _ => false, [], []⟩

/-- What `cdev_add` was given for a board. -/
def Board.HasMinor (b : Board) (minor : Nat) : Prop :=
  b.minor ≤ minor ∧ minor < b.minor + b.prom.nentriesWithMinor

instance (b : Board) (minor : Nat) : Decidable (b.HasMinor minor) := inferInstanceAs (Decidable (_ ∧ _))

/-- The kernel finds the board by its cdev. -/
def openNode (s : State) (minor : Nat) (mode : AccMode) : Except Int Opened :=
  match s.boards.find? fun b => b.HasMinor minor with
  | none => .error (-enxio)
  | some b => amcPciOpen b minor mode

/-- A board comes or goes. -/
inductive Action
  | probe (k : Setup.Kernel)
  | remove (i : Nat)

/-- `amc_pci_probe`, where it succeeds. -/
def probe (s : State) (k : Setup.Kernel) : Option State :=
  match getFreeBoard s.deviceBoards, (Setup.initialiseBoard k).1 with
  | some board, .ok b =>
    let b : Board := { b with board }
    let (rc, nodes) := createDeviceNodes b
    if rc < 0 then none
    else some ⟨Function.update s.deviceBoards board true, s.boards ++ [b], s.nodes ++ nodes⟩
  | _, _ => none

/-- `amc_pci_remove`, as far as the nodes and the board number go. -/
def remove (s : State) (i : Nat) : Option State :=
  s.boards[i]?.map fun b =>
    ⟨Function.update s.deviceBoards b.board false, s.boards.eraseIdx i, destroyDeviceNodes b s.nodes⟩

/-- One step; `none` for a probe that fails and for a board that is not there. -/
def step (s : State) : Action → Option State
  | .probe k => probe s k
  | .remove i => remove s i

end Nodes
end AmcPci
