import AmcPci.PromProcessing

/-!
# Probing a board (`amc_pci_probe` in `src/driver/amc_pci_core.c`)

The probe is a chain of kernel calls with a `goto` label for each point of failure. What it
registers where a user can see it is the board's character device, its device nodes and two
files in sysfs; the model returns which of these are registered when the probe returns, together
with the code. `Kernel` holds what every kernel call on the way answers, and the PROM found in
BAR2. A call that returns `int` fails when it is negative.
-/

namespace AmcPci
namespace Probe

/-- `MAX_BOARDS`. -/
def maxBoards : Nat := 4
/-- `MAX_MINORS_PER_BOARD`. -/
def maxMinorsPerBoard : Nat := 16
/-- `BAR2_LENGTH`. -/
def bar2Length : Int := 16384
/-- `DMA_DEFAULT_MASK`. -/
def dmaDefaultMask : UInt8 := 47
/-- `DMA_DEFAULT_ALIGNMENT_SHIFT`. -/
def dmaDefaultAlignmentShift : UInt8 := 5

/-- What a function that returns a pointer or an error pointer answers. -/
inductive Pointer
  | valid
  | null
  | error (errno : Nat) (hpos : 0 < errno)

/-- `PTR_ERR(ptr) ?: -ENOMEM`, for a pointer that is an error or null. -/
def Pointer.rc : Pointer → Int
  | .valid => 0
  | .null => -enomem
  | .error errno _ => -errno

/-- The answers of the kernel, and the PROM. -/
structure Kernel where
  kmalloc : Pointer
  pciEnableDevice : Int
  pciRequestRegions : Int
  pciEnableMsi : Int
  pciResourceLen : Int
  pciIomap : Pointer
  /-- Whether `load_prom` gets its buffer. -/
  kzalloc : Bool
  prom : Nat → UInt8
  defaultProm : List UInt8
  beyond : Nat → UInt8
  /-- By mask and alignment shift. -/
  initialiseDmaControl : UInt8 → UInt8 → Int
  initialiseInterruptControl : Int
  cdevAdd : Int
  /-- Whether `device_create` makes the node, by minor offset. -/
  deviceCreate : Nat → Bool
  sysfsPromUsed : Int
  sysfsProm : Int

/-- What is registered. A node is known by its entry and its minor offset. -/
structure Visible where
  cdev : Bool
  nodes : List (Nat × Nat)
  sysfsPromUsed : Bool
  sysfsProm : Bool
deriving DecidableEq

/-- Nothing is registered. -/
def nothing : Visible := ⟨false, [], false, false⟩

/-! ## Initialising the board -/

/-- `get_free_board`: the first bit that `test_and_set_bit` finds clear. -/
def getFreeBoard (deviceBoards : Fin maxBoards → Bool) : Option (Fin maxBoards) :=
  (List.finRange maxBoards).find? fun board => !deviceBoards board

/-- `enable_board`. -/
def enableBoard (k : Kernel) : Int :=
  if k.pciEnableDevice < 0 then k.pciEnableDevice
  else if k.pciRequestRegions < 0 then k.pciRequestRegions
  else if k.pciEnableMsi < 0 then k.pciEnableMsi
  else 0

/-- The mask and the alignment shift of the DMA engine, from the PROM or by default. -/
def dmaGeometry (prom : PromContext) : UInt8 × UInt8 :=
  let mask := match promFindEntryByTag prom promDmaMaskTag with
    | some pentry => prom.buff (pentry + 2)
    | none => dmaDefaultMask
  let alignmentShift := match promFindEntryByTag prom promDmaAlignTag with
    | some pentry => prom.buff (pentry + 2)
    | none => dmaDefaultAlignmentShift
  (mask, alignmentShift)

/-- A PROM without DMA entries has no use for the engine. -/
def dmaControl (k : Kernel) (prom : PromContext) : Int :=
  if prom.dmaNentries ≠ 0 then
    k.initialiseDmaControl (dmaGeometry prom).1 (dmaGeometry prom).2
  else 0

/-- `initialise_board`, by what it returns. -/
def initialiseBoard (k : Kernel) : Except Int PromContext :=
  if k.pciResourceLen < bar2Length then .error (-einval)
  else if k.pciIomap.rc < 0 then .error k.pciIomap.rc
  else match loadProm k.defaultProm k.beyond k.kzalloc k.prom with
    | .error rc => .error rc
    | .ok prom =>
      if prom.nentries > maxMinorsPerBoard then .error (-e2big)
      else if dmaControl k prom < 0 then .error (dmaControl k prom)
      else if k.initialiseInterruptControl < 0 then .error k.initialiseInterruptControl
      else .ok prom

/-! ## The device nodes -/

/-- `device_create`, whose result is not looked at. -/
def deviceCreate (k : Kernel) (pentry minorOff : Nat) (nodes : List (Nat × Nat)) :
    List (Nat × Nat) :=
  if k.deviceCreate minorOff then nodes ++ [(pentry, minorOff)] else nodes

/-- The loop of `create_device_nodes`. `named` is `device_name != NULL`. -/
def createNodes (k : Kernel) (buff : Nat → UInt8) :
    List Nat → Bool → Nat → List (Nat × Nat) → Int × List (Nat × Nat)
  | [], _, _, nodes => (0, nodes)
  | pentry :: entries, named, minorOff, nodes =>
    if buff pentry = promDeviceTag then
      if named then (-einval, nodes)
      else createNodes k buff entries true (minorOff + 1) (deviceCreate k pentry minorOff nodes)
    else if buff pentry = promDmaTag ∨ buff pentry = promDmaExtTag then
      if named then
        createNodes k buff entries named (minorOff + 1) (deviceCreate k pentry minorOff nodes)
      else (-einval, nodes)
    else createNodes k buff entries named minorOff nodes

/-- `create_device_nodes`, with what it leaves registered. -/
def createDeviceNodes (k : Kernel) (prom : PromContext) : Int × Visible :=
  if prom.nentriesWithMinor = 0 then (-einval, nothing)
  else if k.cdevAdd < 0 then (k.cdevAdd, nothing)
  else
    let (rc, nodes) := createNodes k prom.buff prom.entries false 0 []
    -- prom_error deletes the cdev, and only that
    if rc < 0 then (rc, { nothing with nodes }) else (0, { nothing with cdev := true, nodes })

/-! ## The probe -/

/-- What the probe returns, with the board numbers that are taken and what is registered. -/
structure Result where
  rc : Int
  deviceBoards : Fin maxBoards → Bool
  visible : Visible

/-- `amc_pci_probe`. -/
def amcPciProbe (k : Kernel) (deviceBoards : Fin maxBoards → Bool) : Result :=
  match getFreeBoard deviceBoards with
  | none => ⟨-eio, deviceBoards, nothing⟩
  | some board =>
    let taken := Function.update deviceBoards board true
    -- no_memory and the labels above it
    let fail (rc : Int) (visible : Visible) : Result :=
      ⟨rc, Function.update taken board false, visible⟩
    if k.kmalloc.rc < 0 then fail k.kmalloc.rc nothing
    else if enableBoard k < 0 then fail (enableBoard k) nothing
    else match initialiseBoard k with
      | .error rc => fail rc nothing
      | .ok prom =>
        let (rc, visible) := createDeviceNodes k prom
        if rc < 0 then fail rc visible
        -- the call of destroy_device_nodes stands before the label, so no jump reaches it
        else if k.sysfsPromUsed < 0 then fail k.sysfsPromUsed visible
        else if k.sysfsProm < 0 then fail k.sysfsProm { visible with sysfsPromUsed := true }
        else ⟨0, taken, { visible with sysfsPromUsed := true, sysfsProm := true }⟩

end Probe
end AmcPci
