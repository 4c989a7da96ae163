import AmcPci.RegisterMap
import Mathlib.Order.Interval.Set.LinearOrder

/-!
# Where a register mapping can end up

The test of `amc_pci_reg_mmap` is made on a sum that wraps. With whole pages and a shifted
offset neither term wraps by itself, so the sum is short of the exact one by at most one `2^64`
(`exactEnd_lt`), and a mapping goes through exactly when the exact sum, less that, is within the
length (`regMmap_ok_iff`). A sum that wrapped is larger than any length, so every mapping it
lets through is out of range: page `2^52 - 1` alone ends at `0`.

What is left is that the pages mapped are those of the context, which rounds the start of BAR0
down to a page. Only page `0` can then begin before BAR0 (`mapped_subset_iff`); a BAR of at
least a page is aligned to its size, so on a real board this asks for nothing.
-/

namespace AmcPci
namespace RegisterMap

variable {start len : BitVec 64} {vma : VmArea}

/-! ## The sum -/

theorem toNat_vmPgoff_shiftLeft (vma : VmArea) :
    (vma.vmPgoff <<< pageShift).toNat = vma.vmPgoff.toNat * pageSize := by
  have hlt := vma.shifted
  rw [BitVec.toNat_shiftLeft, Nat.shiftLeft_eq]
  simp only [pageShift, pageSize] at hlt ⊢
  apply Nat.mod_eq_of_lt
  omega

theorem toNat_sum (vma : VmArea) :
    ((vma.vmPgoff <<< pageShift) + vma.size).toNat = vma.exactEnd % 2 ^ 64 := by
  rw [BitVec.toNat_add, toNat_vmPgoff_shiftLeft, VmArea.exactEnd]

/-- The offset and the size are whole pages, so each stops a page short of `2^64`. -/
theorem exactEnd_lt (vma : VmArea) : vma.exactEnd < 2 ^ 64 + 2 ^ 64 := by
  have hpgoff := vma.shifted
  have hsize := vma.size.isLt
  simp only [VmArea.exactEnd, pageShift, pageSize] at hpgoff ⊢
  omega

/-- `start >> PAGE_SHIFT` has the top bits to spare for the offset. -/
theorem toNat_pfn (start : BitVec 64) (vma : VmArea) :
    (start >>> pageShift + vma.vmPgoff).toNat = start.toNat / pageSize + vma.vmPgoff.toNat := by
  have hpgoff := vma.shifted
  have hstart := start.isLt
  rw [BitVec.toNat_add, BitVec.toNat_ushiftRight, Nat.shiftRight_eq_div_pow]
  simp only [pageShift, pageSize] at hpgoff ⊢
  apply Nat.mod_eq_of_lt
  omega

/-! ## The mapping -/

/-- The call made when the test is passed. -/
def remapCall (start : BitVec 64) (vma : VmArea) : IoRemap where
  addr := vma.vmStart
  pfn := start >>> pageShift + vma.vmPgoff
  size := vma.size

theorem regMmap_ok_iff {call : IoRemap} :
    regMmap (openContext start len) vma = .ok call ↔
      vma.exactEnd % 2 ^ 64 ≤ len.toNat ∧ call = remapCall start vma := by
  have htest : (vma.vmPgoff <<< pageShift) + vma.size > (openContext start len).length ↔
      ¬ vma.exactEnd % 2 ^ 64 ≤ len.toNat := by
    rw [gt_iff_lt, BitVec.lt_def, toNat_sum, Nat.not_le]
    rfl
  unfold regMmap
  by_cases hle : vma.exactEnd % 2 ^ 64 ≤ len.toNat
  · rw [if_neg fun hgt => htest.mp hgt hle]
    constructor
    · intro h
      injection h with h
      exact ⟨hle, h.symm⟩
    · rintro ⟨-, rfl⟩
      rfl
  · rw [if_pos (htest.mpr hle)]
    constructor
    · intro h
      cases h
    · rintro ⟨h, -⟩
      exact absurd h hle

theorem staysInside_iff_of_test :
    StaysInside start len vma ↔
      (vma.exactEnd % 2 ^ 64 ≤ len.toNat →
        vma.exactEnd ≤ len.toNat ∧ (remapCall start vma).mapped ⊆ bar0 start len) := by
  constructor
  · intro h htest
    exact h _ (regMmap_ok_iff.mpr ⟨htest, rfl⟩)
  · intro h call hcall
    obtain ⟨htest, rfl⟩ := regMmap_ok_iff.mp hcall
    exact h htest

/-- Whether a sum that may wrap once is judged as the exact one would be. -/
theorem le_of_mod_le_iff {e n : Nat} (he : e < 2 ^ 64 + 2 ^ 64) (hn : n < 2 ^ 64) :
    (e % 2 ^ 64 ≤ n → e ≤ n) ↔ e < 2 ^ 64 ∨ 2 ^ 64 + n < e := by
  rcases Nat.lt_or_ge e (2 ^ 64) with hlt | hge
  · rw [Nat.mod_eq_of_lt hlt]
    exact ⟨fun _ => .inl hlt, fun _ h => h⟩
  · have hmod : e % 2 ^ 64 = e - 2 ^ 64 := by omega
    rw [hmod]
    constructor <;> omega

/-- **The pages of a mapping that ends in time are in BAR0**, but for page `0` of a BAR0 that
starts inside a page. -/
theorem mapped_subset_iff (hend : vma.exactEnd ≤ len.toNat) :
    (remapCall start vma).mapped ⊆ bar0 start len ↔
      pageSize ∣ start.toNat ∨ vma.size.toNat = 0 ∨ 0 < vma.vmPgoff.toNat := by
  have hpfn : (remapCall start vma).pfn.toNat * pageSize =
      start.toNat / pageSize * pageSize + vma.vmPgoff.toNat * pageSize := by
    rw [remapCall, toNat_pfn, Nat.add_mul]
  have hsize : (remapCall start vma).size = vma.size := rfl
  rw [IoRemap.mapped, bar0, hpfn, hsize]
  have hround := Nat.div_add_mod' start.toNat pageSize
  have hrest := Nat.mod_lt start.toNat (show 0 < pageSize by decide)
  rw [VmArea.exactEnd] at hend
  rcases Nat.eq_zero_or_pos vma.size.toNat with hzero | hpos
  · simp [hzero]
  rw [Set.Ico_subset_Ico_iff (by omega), Nat.dvd_iff_mod_eq_zero]
  simp only [pageSize, pageShift] at hround hrest hend ⊢
  omega

/-- **When the test keeps a mapping in BAR0**: when its end does not wrap, or wraps to something
still beyond the length, and page `0` is mapped only from a BAR0 that starts on a page. -/
theorem staysInside_iff (start len : BitVec 64) (vma : VmArea) :
    StaysInside start len vma ↔
      (vma.exactEnd < 2 ^ 64 ∨ 2 ^ 64 + len.toNat < vma.exactEnd) ∧
      (pageSize ∣ start.toNat ∨ vma.size.toNat = 0 ∨ 0 < vma.vmPgoff.toNat ∨
        len.toNat < vma.size.toNat) := by
  rw [staysInside_iff_of_test, ← le_of_mod_le_iff (exactEnd_lt vma) len.isLt]
  have hoff : vma.vmPgoff.toNat = 0 → vma.exactEnd = vma.size.toNat := by
    intro hzero
    simp [VmArea.exactEnd, hzero]
  have hsize := vma.size.isLt
  constructor
  · intro h
    refine ⟨fun htest => (h htest).1, ?_⟩
    rcases Nat.lt_or_ge len.toNat vma.size.toNat with hover | hfits
    · exact .inr (.inr (.inr hover))
    rcases Nat.eq_zero_or_pos vma.vmPgoff.toNat with hzero | hpos
    · have hend := hoff hzero
      have hin := h (by omega)
      rcases (mapped_subset_iff hin.1).mp hin.2 with h | h | h
      · exact .inl h
      · exact .inr (.inl h)
      · exact .inr (.inr (.inl h))
    · exact .inr (.inr (.inl hpos))
  · rintro ⟨hwrap, hpage⟩ htest
    have hend := hwrap htest
    refine ⟨hend, (mapped_subset_iff hend).mpr ?_⟩
    rcases hpage with h | h | h | h
    · exact .inl h
    · exact .inr (.inl h)
    · exact .inr (.inr h)
    · rw [VmArea.exactEnd] at hend
      omega

/-- One page at the offset `0xfffffffffffff000`, the last there is. -/
def lastPage : VmArea where
  vmStart := 0x7f0000000000
  vmEnd := 0x7f0000001000
  vmPgoff := 0xfffffffffffff
  whole := by decide
  shifted := by decide

/-- Its end wraps to `0`, which no length refuses, and the page frame asked for is `2^52 - 1`
above the first of BAR0. -/
theorem not_staysInside_lastPage : ¬ StaysInside 0xfe000000 0x10000 lastPage := by
  intro h
  have hcall : regMmap (openContext 0xfe000000 0x10000) lastPage =
      .ok (remapCall 0xfe000000 lastPage) := regMmap_ok_iff.mpr ⟨by decide, rfl⟩
  exact absurd (h _ hcall).1 (by decide)

end RegisterMap
end AmcPci
