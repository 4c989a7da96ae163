import AmcPci.Kernel
import Mathlib.Data.BitVec
import Mathlib.Order.Interval.Set.Basic
import Mathlib.Tactic.Ring

/-!
# Mapping the registers (`amc_pci_reg_mmap`)

The part of `src/driver/registers.c` that lets user space into BAR0. The context keeps where
BAR0 is, in pages, and how long it is, in bytes; a mapping is asked for in pages from the start
of BAR0 and is granted by one comparison in `unsigned long`, which is 64 bits wide.

`AmcPci.Registers` has the rest of the file.
-/

namespace AmcPci
namespace RegisterMap

/-- `PAGE_SHIFT`. -/
def pageShift : Nat := 12

/-- `PAGE_SIZE`. -/
def pageSize : Nat := 2 ^ pageShift

/-- What the mapping needs of `struct register_context`. -/
structure RegisterContext where
  basePage : BitVec 64
  length : BitVec 64

/-- The context `amc_pci_reg_open` builds, from `pci_resource_start` and `pci_resource_len`. -/
def openContext (start len : BitVec 64) : RegisterContext where
  basePage := start >>> pageShift
  length := len

/-- What the kernel says of the area to be mapped. It comes in whole pages, and the offset is a
64-bit one that was shifted down. -/
structure VmArea where
  vmStart : BitVec 64
  vmEnd : BitVec 64
  vmPgoff : BitVec 64
  whole : pageSize ∣ (vmEnd - vmStart).toNat
  shifted : vmPgoff.toNat < 2 ^ (64 - pageShift)

/-- `size` of the source. -/
def VmArea.size (vma : VmArea) : BitVec 64 := vma.vmEnd - vma.vmStart

/-- A call of `io_remap_pfn_range`: where in the area, from which page frame on, how many
bytes. -/
structure IoRemap where
  addr : BitVec 64
  pfn : BitVec 64
  size : BitVec 64
deriving DecidableEq

/-- `amc_pci_reg_mmap`: the error it returns, or the call it goes on to. -/
def regMmap (context : RegisterContext) (vma : VmArea) : Except Int IoRemap :=
  let size := vma.size
  let end' := (vma.vmPgoff <<< pageShift) + size
  if end' > context.length then .error (-einval)
  else .ok ⟨vma.vmStart, context.basePage + vma.vmPgoff, size⟩

/-! ## What it is for -/

/-- The bus addresses BAR0 takes up. -/
def bar0 (start len : BitVec 64) : Set Nat := Set.Ico start.toNat (start.toNat + len.toNat)

/-- The bus addresses of the pages a call maps. -/
def IoRemap.mapped (call : IoRemap) : Set Nat :=
  Set.Ico (call.pfn.toNat * pageSize) (call.pfn.toNat * pageSize + call.size.toNat)

/-- Where the mapping ends, counted from the start of BAR0 and never wrapping. -/
def VmArea.exactEnd (vma : VmArea) : Nat := vma.vmPgoff.toNat * pageSize + vma.size.toNat

/-- Whatever is mapped ends inside BAR0, and every mapped page lies in it. -/
def StaysInside (start len : BitVec 64) (vma : VmArea) : Prop :=
  ∀ call, regMmap (openContext start len) vma = .ok call →
    vma.exactEnd ≤ len.toNat ∧ call.mapped ⊆ bar0 start len

end RegisterMap
end AmcPci
