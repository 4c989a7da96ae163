import Mathlib.Control.Monad.Writer

/-!
# Computations that note where they look

A bound on the addresses a loop looks at cannot be stated about the loop's result: the result
is the same whether or not an address outside the array was read on the way to it. `Reading` is
the writer monad over the addresses, so that one program text gives both: `value` is what the
plain function computes, `looks` the addresses in the order they are read.

A program in this monad is tied to its plain counterpart by a theorem about `value`; what is
then proved about `looks` is about that counterpart.
-/

namespace AmcPci
namespace Lib

/-- A computation over a store, with the addresses it reads. -/
abbrev Reading (α : Type) := Writer (List Nat) α

/-- Read the store at one address. -/
def look {β : Type} (m : Nat → β) (i : Nat) : Reading β := WriterT.mk (m i, [i])

namespace Reading

variable {α β : Type}

/-- What the program returns. -/
def value (x : Reading α) : α := (WriterT.run x).1

/-- The indices it has looked at, in order. -/
def looks (x : Reading α) : List Nat := (WriterT.run x).2

/-- Every address read lies below `n`. -/
def Below (n : Nat) (x : Reading α) : Prop := ∀ i ∈ x.looks, i < n

@[simp] theorem value_pure (a : α) : value (pure a) = a := rfl

@[simp] theorem value_bind (x : Reading α) (f : α → Reading β) :
    value (x >>= f) = value (f (value x)) := rfl

@[simp] theorem looks_bind (x : Reading α) (f : α → Reading β) :
    looks (x >>= f) = looks x ++ looks (f (value x)) := rfl

@[simp] theorem value_look (m : Nat → β) (i : Nat) : value (look m i) = m i := rfl

@[simp] theorem looks_look (m : Nat → β) (i : Nat) : looks (look m i) = [i] := rfl

theorem value_ite {p : Prop} [Decidable p] (x y : Reading α) :
    value (if p then x else y) = if p then value x else value y := by
  split
  · rfl
  · rfl

/-! ## Bounds -/

theorem below_pure (n : Nat) (a : α) : Below n (pure a : Reading α) := by
  intro i hi
  cases hi

theorem below_look {m : Nat → β} {n i : Nat} : Below n (look m i) ↔ i < n := by
  simp [Below]

theorem below_bind {n : Nat} {x : Reading α} {f : α → Reading β} :
    Below n (x >>= f) ↔ Below n x ∧ Below n (f (value x)) := by
  unfold Below
  rw [looks_bind]
  constructor
  · intro h
    exact ⟨fun i hi => h i (List.mem_append_left _ hi), fun i hi => h i (List.mem_append_right _ hi)⟩
  · rintro ⟨hx, hf⟩ i hi
    rcases List.mem_append.mp hi with hi | hi
    · exact hx i hi
    · exact hf i hi

theorem below_succ_iff {n : Nat} {x : Reading α} : Below (n + 1) x ↔ ∀ i ∈ x.looks, i ≤ n := by
  simp only [Below, Nat.lt_succ_iff]

theorem Below.mono {n n' : Nat} {x : Reading α} (h : Below n x) (hn : n ≤ n') : Below n' x :=
  fun i hi => Nat.lt_of_lt_of_le (h i hi) hn

/-- A loop over a list computes in this monad what its body computes, turn by turn. -/
theorem value_foldlM {γ : Type} (f : β → γ → Reading β) (b : β) (l : List γ) :
    value (l.foldlM f b) = l.foldl (fun b c => value (f b c)) b := by
  induction l generalizing b with
  | nil => rfl
  | cons c l ih => rw [List.foldlM_cons, value_bind, ih, List.foldl_cons]

/-- A loop looks no further than each of its turns does. -/
theorem below_foldlM {γ : Type} {n : Nat} {f : β → γ → Reading β} {l : List γ}
    (h : ∀ b, ∀ c ∈ l, Below n (f b c)) (b : β) : Below n (l.foldlM f b) := by
  induction l generalizing b with
  | nil => exact below_pure n b
  | cons c l ih =>
    rw [List.foldlM_cons, below_bind]
    exact ⟨h b c (List.mem_cons_self ..), ih (fun b c hc => h b c (List.mem_cons_of_mem _ hc)) _⟩

end Reading

end Lib
end AmcPci
