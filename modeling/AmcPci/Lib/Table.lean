import Mathlib.Data.List.Nodup

/-!
# Tables with a key

A table is a list of rows, and `key` says which key a row is kept under. Rows come in at the end
and are taken out by their key, one row at a time: whoever takes a row out takes the first that is
kept under its key. As long as no two rows share a key (`Keyed`) this is the only one, and taking
out is the same as filtering.
-/

namespace AmcPci
namespace Lib

variable {ρ κ : Type*} {key : ρ → κ} {rows rows' : List ρ} {row : ρ} {k : κ}

/-- No two rows share a key. -/
def Keyed (key : ρ → κ) (rows : List ρ) : Prop := (rows.map key).Nodup

theorem Keyed.filter (h : Keyed key rows) (p : ρ → Bool) : Keyed key (rows.filter p) :=
  h.sublist (List.filter_sublist.map key)

theorem keyed_append : Keyed key (rows ++ rows') ↔ Keyed key rows ∧ Keyed key rows' ∧
    ∀ row ∈ rows, ∀ row' ∈ rows', key row ≠ key row' := by
  rw [Keyed, List.map_append, List.nodup_append]
  simp only [List.mem_map, forall_exists_index, and_imp, forall_apply_eq_imp_iff₂, Keyed]

/-- Blocks of rows that share no key with one another. -/
theorem keyed_flatMap {α : Type*} {block : α → List ρ} : ∀ {xs : List α},
    (∀ x ∈ xs, Keyed key (block x)) →
    xs.Pairwise (fun x x' => ∀ row ∈ block x, ∀ row' ∈ block x', key row ≠ key row') →
      Keyed key (xs.flatMap block) := by
  intro xs
  induction xs with
  | nil => intro _ _; exact List.nodup_nil
  | cons x xs ih =>
    intro hblock hapart
    obtain ⟨hx, hxs⟩ := List.pairwise_cons.mp hapart
    rw [List.flatMap_cons, keyed_append]
    refine ⟨hblock x (List.mem_cons_self ..), ih (fun x' h => hblock x' (List.mem_cons_of_mem x h))
      hxs, fun row hrow row' hrow' => ?_⟩
    obtain ⟨x', hx', hmem⟩ := List.mem_flatMap.mp hrow'
    exact hx x' hx' row hrow row' hmem

/-- Rows numbered from `start` on are kept under their numbers. -/
theorem keyed_zipIdx {α : Type*} {xs : List α} {start : Nat} {row : α × Nat → ρ} {num : Nat → κ}
    (hkey : ∀ x i, key (row (x, i)) = num i) (hnum : Function.Injective num) :
    Keyed key ((xs.zipIdx start).map row) := by
  have hmap : ((xs.zipIdx start).map row).map key = ((xs.zipIdx start).map Prod.snd).map num := by
    rw [List.map_map, List.map_map]
    exact List.map_congr_left fun x _ => hkey x.1 x.2
  rw [Keyed, hmap, List.zipIdx_map_snd]
  exact (List.nodup_range' ..).map hnum

/-- A row and the rest of the table, which has nothing under the row's key. -/
theorem Keyed.split {i : Nat} (h : Keyed key rows) (hget : rows[i]? = some row) :
    ∃ front back, rows = front ++ row :: back ∧ rows.eraseIdx i = front ++ back ∧
      Keyed key (front ++ back) ∧ key row ∉ (front ++ back).map key := by
  obtain ⟨hlt, hrow⟩ := List.getElem?_eq_some_iff.mp hget
  have hsplit : rows = rows.take i ++ row :: rows.drop (i + 1) := by
    rw [← hrow, ← List.drop_eq_getElem_cons hlt, List.take_append_drop]
  have hkeyed := h
  rw [hsplit, Keyed, List.map_append, List.map_cons, List.nodup_middle, List.nodup_cons,
    ← List.map_append] at hkeyed
  exact ⟨_, _, hsplit, List.eraseIdx_eq_take_drop_succ .., hkeyed.2, hkeyed.1⟩

variable [DecidableEq κ]

/-- Take out the first row kept under `k`. -/
def eraseKey (key : ρ → κ) (rows : List ρ) (k : κ) : List ρ := rows.eraseP fun row => key row = k

theorem eraseKey_eq_filter (h : Keyed key rows) :
    eraseKey key rows k = rows.filter fun row => key row ≠ k := by
  induction rows with
  | nil => rfl
  | cons row rows ih =>
    obtain ⟨hnot, hrows⟩ := List.nodup_cons.mp h
    by_cases hk : key row = k
    · rw [eraseKey, List.eraseP_cons_of_pos (by simpa using hk),
        List.filter_cons_of_neg (by simpa using hk)]
      refine (List.filter_eq_self.mpr fun row' hrow' => ?_).symm
      simp only [decide_eq_true_eq]
      rintro rfl
      exact hnot (List.mem_map.mpr ⟨row', hrow', hk.symm⟩)
    · rw [eraseKey, List.eraseP_cons_of_neg (by simpa using hk),
        List.filter_cons_of_pos (by simpa using hk)]
      exact congrArg _ (ih hrows)

/-- A row is alone under its key. -/
theorem Keyed.filter_key (h : Keyed key rows) (hrow : row ∈ rows) :
    rows.filter (fun row' => key row' = key row) = [row] := by
  induction rows with
  | nil => cases hrow
  | cons row' rows ih =>
    obtain ⟨hnot, hrows⟩ := List.nodup_cons.mp h
    rcases List.mem_cons.mp hrow with rfl | hrow
    · rw [List.filter_cons_of_pos (by simp)]
      refine congrArg _ (List.filter_eq_nil_iff.mpr fun row'' hrow'' => ?_)
      simp only [decide_eq_true_eq]
      exact fun heq => hnot (List.mem_map.mpr ⟨row'', hrow'', heq⟩)
    · have hne : key row' ≠ key row := fun heq => hnot (heq ▸ List.mem_map_of_mem hrow)
      rw [List.filter_cons_of_neg (by simpa using hne)]
      exact ih hrows hrow

/-- **Taking out rows by a list of keys** leaves the rows under other keys. -/
theorem foldl_eraseKey : ∀ {ks : List κ} {rows : List ρ}, Keyed key rows →
    ks.foldl (eraseKey key) rows = rows.filter fun row => key row ∉ ks := by
  intro ks
  induction ks with
  | nil => intro rows _; simp
  | cons k ks ih =>
    intro rows h
    rw [List.foldl_cons, eraseKey_eq_filter h, ih (h.filter _), List.filter_filter]
    refine List.filter_congr fun row _ => ?_
    simp only [List.mem_cons, not_or, ← Bool.decide_and]
    exact decide_eq_decide.mpr and_comm

end Lib
end AmcPci
