import AmcPci.Proof.Prom.Walk
import AmcPci.Sysfs

/-!
# The bytes of the PROM files

Both files of sysfs show the PROM. `prom_used` copies the bytes that are asked for. `prom` goes
through `read_prom`, which starts at the word that contains the first of them, and copies whole
words until it has enough. What it brings is the PROM from the start of that word on
(`readProm_spec`): the bytes asked for if `off` is a multiple of four, or the PROM happens to
repeat itself there. And it writes up to three bytes more than it says it has, unless `count` is
a multiple of four.
-/

namespace AmcPci
namespace Sysfs

open Lib

/-! ## One read -/

/-- `read_prom` brings the PROM from `off / 4 * 4` on, in whole words. -/
theorem readProm_spec {base buff : Nat → UInt8} {off count : Nat} (hoff : off ≤ promMaxLength)
    (hcount : count ≤ promMaxLength - off) :
    (readProm base buff off count).1 = count ∧ ∀ i, (readProm base buff off count).2 i
      = if i < 4 * ((count + 3) / 4) then base (off / 4 * 4 + i) else buff i := by
  have hmax : promMaxLength = 4096 := rfl
  have hsize : min (promMaxLength - off / 4 * 4) count = count := by omega
  unfold readProm
  rw [if_neg (by omega)]
  simp only [hsize]
  exact ⟨trivial, fun i => copyWords_spec base buff (off / 4 * 4) ((count + 3) / 4) i⟩

/-- What is asked of `read_prom`, with any buffer of a caller's. -/
structure ReadsBack (base : Nat → UInt8) (off count : Nat) : Prop where
  returned : ∀ buff, (readProm base buff off count).1 = count
  stored : ∀ buff k, k < count → (readProm base buff off count).2 k = base (off + k)
  untouched : ∀ buff i, count ≤ i → (readProm base buff off count).2 i = buff i

/-- The `count` bytes at `off` are those at the start of the word that `off` is in. -/
def SameWindow (base : Nat → UInt8) (off count : Nat) : Prop :=
  off % 4 = 0 ∨ ∀ k, k < count → base (off / 4 * 4 + k) = base (off + k)

theorem sameWindow_iff {base : Nat → UInt8} {off count : Nat} :
    SameWindow base off count ↔ ∀ k, k < count → base (off / 4 * 4 + k) = base (off + k) := by
  constructor
  · rintro (hal | h)
    · intro k _
      have hoff : off / 4 * 4 = off := by omega
      rw [hoff]
    · exact h
  · exact Or.inr

/-- The bytes that are stored, against the bytes that were asked for. -/
theorem stored_iff {base buff : Nat → UInt8} {off count : Nat} (hoff : off ≤ promMaxLength)
    (hcount : count ≤ promMaxLength - off) :
    (∀ k, k < count → (readProm base buff off count).2 k = base (off + k)) ↔
      SameWindow base off count := by
  have hspec := (@readProm_spec base buff off count hoff hcount).2
  rw [sameWindow_iff]
  constructor
  · intro h k hk
    rw [← h k hk, hspec, if_pos (by omega)]
  · intro h k hk
    rw [hspec, if_pos (by omega), h k hk]

theorem readsBack_iff {base : Nat → UInt8} {off count : Nat} (hoff : off ≤ promMaxLength)
    (hcount : count ≤ promMaxLength - off) :
    ReadsBack base off count ↔ count % 4 = 0 ∧ SameWindow base off count := by
  constructor
  · intro h
    refine ⟨Classical.byContradiction fun hodd => ?_, (stored_iff hoff hcount).mp (h.stored base)⟩
    -- a buffer whose byte behind the read is not the one that is copied there
    have huntouched := h.untouched (fun _ => base (off / 4 * 4 + count) + 1) count (Nat.le_refl _)
    rw [(readProm_spec hoff hcount).2, if_pos (by omega)] at huntouched
    have hne : ∀ b : UInt8, b ≠ b + 1 := by
      intro b hb
      have hnat := congrArg UInt8.toNat hb
      have hlt := b.toNat_lt
      rw [UInt8.toNat_add] at hnat
      have hone : (1 : UInt8).toNat = 1 := rfl
      omega
    exact hne _ huntouched
  · rintro ⟨hwords, hwindow⟩
    refine ⟨fun buff => (readProm_spec hoff hcount).1,
      fun buff => (stored_iff hoff hcount).mpr hwindow, fun buff i hi => ?_⟩
    rw [(readProm_spec hoff hcount).2, if_neg (by omega)]

/-! ## Reads in a row -/

/-- Where each of a row of reads starts, and its count. -/
def windows : Nat → List Nat → List (Nat × Nat)
  | _, [] => []
  | off, count :: counts => (off, count) :: windows (off + count) counts

theorem readFile_eq_iff {base buff : Nat → UInt8} : ∀ {counts : List Nat} {off : Nat},
    off + counts.sum ≤ promMaxLength →
      (readFile (readProm base buff) off counts = peek base off counts.sum ↔
        ∀ w ∈ windows off counts, SameWindow base w.1 w.2) := by
  intro counts
  induction counts with
  | nil =>
    intro off _
    simp [readFile, windows, peek]
  | cons count counts ih =>
    intro off h
    rw [List.sum_cons] at h
    have hspec := @readProm_spec base buff off count (by omega) (by omega)
    have hnat : (readProm base buff off count).1.toNat = count := by rw [hspec.1]; rfl
    have hfirst : peek (readProm base buff off count).2 0 count = peek base off count ↔
        SameWindow base off count := by
      rw [← stored_iff (by omega) (by omega)]
      constructor
      · intro hpeek k hk
        have hget := congrArg (·[k]?) hpeek
        simpa [peek, hk] using hget
      · intro hstored
        refine List.map_congr_left fun k hk => ?_
        rw [Nat.zero_add]
        exact hstored k (List.mem_range.mp hk)
    simp only [readFile, windows, hnat, List.sum_cons, peek_add, List.forall_mem_cons]
    rw [← hfirst, ← ih (by omega)]
    constructor
    · intro h
      exact List.append_inj h (by simp)
    · rintro ⟨h₁, h₂⟩
      rw [h₁, h₂]

/-! ## The two files -/

/-- Both files bring the same number of bytes, and the same bytes. -/
def FilesAgree (prom : PromContext) (off count : Nat) : Prop :=
  ∀ buff, (promRead prom buff off count).1 = (promUsedRead prom buff off count).1 ∧
    ∀ k, k < count → (promRead prom buff off count).2 k = (promUsedRead prom buff off count).2 k

theorem promUsedRead_spec {prom : PromContext} {buff : Nat → UInt8} {off count : Nat}
    (hoff : off ≤ promMaxLength) (hcount : count ≤ promMaxLength - off) :
    (promUsedRead prom buff off count).1 = count ∧
      ∀ k, k < count → (promUsedRead prom buff off count).2 k = prom.buff (off + k) := by
  unfold promUsedRead
  rw [if_neg (by omega), Nat.min_eq_left hcount]
  refine ⟨rfl, fun k hk => ?_⟩
  have hmem := @memcpy_of_mem buff 0 (peek prom.buff off count) k (by rw [length_peek]; exact hk)
  rw [Nat.zero_add] at hmem
  simp only [hmem]
  simp [peek]

/-- On a board whose PROM has the magic both files stand for the PROM in BAR2. -/
theorem filesAgree_iff {defaultProm : List UInt8} {beyond base : Nat → UInt8} {kzalloc : Bool}
    {prom : PromContext} (hmagic : Holds base 0 [0x44, 0x49, 0x41, 0x47])
    (h : loadProm defaultProm beyond kzalloc base = .ok prom) {off count : Nat}
    (hoff : off ≤ promMaxLength) (hcount : count ≤ promMaxLength - off) :
    FilesAgree prom off count ↔ SameWindow base off count := by
  cases kzalloc with
  | false => cases h
  | true =>
    obtain ⟨es, e, -, -, rfl⟩ := (loadProm_eq_ok_iff hmagic).mp h
    have hused : ∀ buff k, k < count →
        (promUsedRead (promContextOf base (promBuffer base beyond) es e) buff off count).2 k
          = base (off + k) := by
      intro buff k hk
      rw [(promUsedRead_spec hoff hcount).2 k hk]
      exact promBuffer_of_lt (by omega)
    constructor
    · intro hagree
      refine (@stored_iff base base off count hoff hcount).mp fun k hk => ?_
      rw [← hused base k hk]
      exact (hagree base).2 k hk
    · intro hwindow buff
      refine ⟨?_, fun k hk => ?_⟩
      · rw [(promUsedRead_spec hoff hcount).1]
        exact (readProm_spec hoff hcount).1
      · rw [hused buff k hk]
        exact (stored_iff hoff hcount).mpr hwindow k hk

/-- **When partial reads of the PROM reassemble it.** For every PROM: one read brings what was
    asked for, and writes no more, exactly when its count is a multiple of four and it starts at
    a word, or the PROM repeats itself where it does not; a row of reads adds up to the PROM
    exactly when the second holds of each; and exactly when it holds of a read, the two files of
    a board that was loaded from this PROM agree on it. -/
theorem partialReads_iff (base : Nat → UInt8) :
    (∀ off count, off ≤ promMaxLength → count ≤ promMaxLength - off →
      (ReadsBack base off count ↔ count % 4 = 0 ∧ SameWindow base off count)) ∧
    (∀ buff counts, counts.sum ≤ promMaxLength →
      (readFile (readProm base buff) 0 counts = peek base 0 counts.sum ↔
        ∀ w ∈ windows 0 counts, SameWindow base w.1 w.2)) ∧
    ∀ defaultProm beyond kzalloc prom, Holds base 0 [0x44, 0x49, 0x41, 0x47] →
      loadProm defaultProm beyond kzalloc base = .ok prom →
      ∀ off count, off ≤ promMaxLength → count ≤ promMaxLength - off →
        (FilesAgree prom off count ↔ SameWindow base off count) := by
  refine ⟨fun off count hoff hcount => readsBack_iff hoff hcount, fun buff counts hsum => ?_, ?_⟩
  · exact readFile_eq_iff (by rw [Nat.zero_add]; exact hsum)
  · intro defaultProm beyond kzalloc prom hmagic h off count hoff hcount
    exact filesAgree_iff hmagic h hoff hcount

/-- A board with the first image of the unit tests, read at word boundaries. -/
theorem partialReads_iff_testProm1 : ∃ prom,
    loadProm [] (fun _ => 0) true (storeOf testProm1 0) = .ok prom ∧
      ReadsBack (storeOf testProm1 0) 4 8 ∧
      readFile (readProm (storeOf testProm1 0) fun _ => 0) 0 [8, 4, 3]
        = peek (storeOf testProm1 0) 0 15 ∧
      FilesAgree prom 4 8 := by
  obtain ⟨hreads, hrow, hfiles⟩ := partialReads_iff (storeOf testProm1 0)
  have hload := loadProm_testProm1 [] fun _ => 0
  refine ⟨_, hload, ?_, ?_, ?_⟩
  · exact (hreads 4 8 (by decide) (by decide)).mpr ⟨rfl, .inl rfl⟩
  · refine (hrow (fun _ => 0) [8, 4, 3] (by decide)).mpr fun w hw => .inl ?_
    revert w
    decide
  · exact (hfiles _ _ _ _ (by decide) hload 4 8 (by decide) (by decide)).mpr (.inl rfl)

/-- Four bytes from offset 1 come out as those from offset 0; one byte from offset 0 comes with
    three that were not asked for. -/
theorem not_readsBack_testProm1 :
    ¬ ReadsBack (storeOf testProm1 0) 1 4 ∧ ¬ ReadsBack (storeOf testProm1 0) 0 1 := by
  refine ⟨fun h => ?_, fun h => ?_⟩
  · rw [readsBack_iff (by decide) (by decide), sameWindow_iff] at h
    exact absurd (h.2 0 (by decide)) (by decide)
  · rw [readsBack_iff (by decide) (by decide)] at h
    exact absurd h.1 (by decide)

end Sysfs
end AmcPci
