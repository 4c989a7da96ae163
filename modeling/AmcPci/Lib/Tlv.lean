import AmcPci.Lib.Bytes

/-!
# Chains of tagged records

The format is the simplest of its family: a record is a tag byte, a size byte and that many
payload bytes; the next record starts right behind; the tag `0` ends the chain. Nothing but the
size bytes says where a record starts, so every reader is a walk along `nextAt`.

`Record` is the writer's side, with its two well-formedness conditions carried as fields.
`Chain m p es q` is the reader's side: starting at `p`, the walk visits the records at `es` and
arrives at `q`. `chain_of_holds` joins them, and `Chain.unique` says that where a walk ends,
and what it visited, is a function of the store alone.
-/

namespace AmcPci
namespace Lib

/-- A record a writer may put in a chain. -/
structure Record where
  tag : UInt8
  payload : List UInt8
  /-- The tag `0` would end the chain. -/
  tag_ne : tag ≠ 0
  /-- The size byte can spell the length. -/
  fits : payload.length < 256

/-- The record as it stands in the store. -/
def Record.bytes (r : Record) : List UInt8 := r.tag :: UInt8.ofNat r.payload.length :: r.payload

@[simp] theorem Record.length_bytes (r : Record) : r.bytes.length = r.payload.length + 2 := by
  simp [Record.bytes]

/-- Where the record behind the one at `p` starts. -/
def nextAt (m : Nat → UInt8) (p : Nat) : Nat := p + (m (p + 1)).toNat + 2

theorem lt_nextAt (m : Nat → UInt8) (p : Nat) : p + 2 ≤ nextAt m p := by
  unfold nextAt
  omega

/-- From `p`, the walk visits the records at `es`, none of them the end, and arrives at `q`. -/
inductive Chain (m : Nat → UInt8) : Nat → List Nat → Nat → Prop
  | nil (p : Nat) : Chain m p [] p
  | cons {p q : Nat} {es : List Nat} (hp : m p ≠ 0) (ht : Chain m (nextAt m p) es q) :
      Chain m p (p :: es) q

theorem Chain.le {m : Nat → UInt8} {p q : Nat} {es : List Nat} (h : Chain m p es q) :
    p + 2 * es.length ≤ q := by
  induction h with
  | nil p => simp
  | @cons p q es hp _ ih =>
    have := lt_nextAt m p
    simp only [List.length_cons]
    omega

/-- Two walks from one place to an end marker are the same walk. -/
theorem Chain.unique {m : Nat → UInt8} {p q q' : Nat} {es es' : List Nat} (h : Chain m p es q)
    (hq : m q = 0) (h' : Chain m p es' q') (hq' : m q' = 0) : es = es' ∧ q = q' := by
  induction h generalizing es' with
  | nil p =>
    cases h' with
    | nil => exact ⟨rfl, rfl⟩
    | cons hp _ => exact absurd hq hp
  | cons hp _ ih =>
    cases h' with
    | nil => exact absurd hq' hp
    | cons _ ht' =>
      obtain ⟨h₁, h₂⟩ := ih hq ht'
      exact ⟨by rw [h₁], h₂⟩

/-- A chain only looks at the store between its two ends. -/
theorem Chain.congr {m m' : Nat → UInt8} {p q : Nat} {es : List Nat} (h : Chain m p es q)
    (he : ∀ i, p ≤ i → i < q → m' i = m i) : Chain m' p es q := by
  induction h with
  | nil p => exact .nil p
  | @cons p q es hp ht ih =>
    have hlt := lt_nextAt m p
    have hle := ht.le
    have hn : nextAt m' p = nextAt m p := by
      unfold nextAt
      rw [he (p + 1) (by omega) (by omega)]
    refine .cons (by rw [he p (by omega) (by omega)]; exact hp) ?_
    rw [hn]
    exact ih fun i h₁ h₂ => he i (by omega) h₂

/-- Of the store between its two ends a chain only looks at tags and sizes. -/
theorem Chain.congr_headers {m m' : Nat → UInt8} {p q : Nat} {es : List Nat} (h : Chain m p es q)
    (he : ∀ e ∈ es, m' e = m e ∧ m' (e + 1) = m (e + 1)) : Chain m' p es q := by
  induction h with
  | nil p => exact .nil p
  | @cons p q es hp ht ih =>
    obtain ⟨htag, hsize⟩ := he p (List.mem_cons_self ..)
    have hn : nextAt m' p = nextAt m p := by
      unfold nextAt
      rw [hsize]
    refine .cons (by rw [htag]; exact hp) ?_
    rw [hn]
    exact ih fun e he' => he e (List.mem_cons_of_mem _ he')

/-- The part of a chain in front of one of its records. -/
theorem Chain.upTo {m : Nat → UInt8} {p q e : Nat} {es : List Nat} (h : Chain m p es q)
    (he : e ∈ es) : ∃ fs, Chain m p fs e := by
  induction h with
  | nil p => cases he
  | @cons p q es hp ht ih =>
    rcases List.mem_cons.mp he with rfl | he
    · exact ⟨[], .nil _⟩
    · obtain ⟨fs, hfs⟩ := ih he
      exact ⟨p :: fs, .cons hp hfs⟩

/-- Address `i` is the tag or the size of a place the walk from `p` comes to: of a record, or of
    the end marker. -/
def IsHeader (m : Nat → UInt8) (p i : Nat) : Prop :=
  ∃ es e, Chain m p es e ∧ (i = e ∨ i = e + 1)

/-- Every record of a chain is a tag the walk did not stop at, and its payload ends before the
    chain does. -/
theorem Chain.mem {m : Nat → UInt8} {p q e : Nat} {es : List Nat} (h : Chain m p es q)
    (he : e ∈ es) : p ≤ e ∧ m e ≠ 0 ∧ nextAt m e ≤ q := by
  induction h with
  | nil p => simp at he
  | @cons p q es hp ht ih =>
    rcases List.mem_cons.mp he with rfl | he
    · have := ht.le
      exact ⟨Nat.le_refl _, hp, by omega⟩
    · obtain ⟨h₁, h₂, h₃⟩ := ih he
      have := lt_nextAt m p
      exact ⟨by omega, h₂, h₃⟩

/-! ## From the writer's records to the reader's chain -/

/-- Where each record of a list starts, the first one at `p`. -/
def offsets : Nat → List Record → List Nat
  | _, [] => []
  | p, r :: rs => p :: offsets (p + r.bytes.length) rs

/-- The records of a list, one behind the other. -/
def chainBytes (rs : List Record) : List UInt8 := rs.flatMap Record.bytes

@[simp] theorem chainBytes_cons (r : Record) (rs : List Record) :
    chainBytes (r :: rs) = r.bytes ++ chainBytes rs := rfl

@[simp] theorem length_offsets (p : Nat) (rs : List Record) :
    (offsets p rs).length = rs.length := by
  induction rs generalizing p with
  | nil => rfl
  | cons r rs ih => simp [offsets, ih]

/-- The walk takes one record in one step. -/
theorem nextAt_of_holds {m : Nat → UInt8} {p : Nat} {r : Record} (h : Holds m p r.bytes) :
    nextAt m p = p + r.bytes.length := by
  obtain ⟨_, h⟩ := holds_cons.mp h
  obtain ⟨hs, _⟩ := holds_cons.mp h
  have hfit := r.fits
  rw [nextAt, hs, UInt8.toNat_ofNat', Nat.mod_eq_of_lt (by omega), Record.length_bytes]
  omega

/-- **The reader walks the writer's records**: one visit a record, in order, ending behind the
    last. -/
theorem chain_of_holds {m : Nat → UInt8} : ∀ {rs : List Record} {p : Nat},
    Holds m p (chainBytes rs) → Chain m p (offsets p rs) (p + (chainBytes rs).length) := by
  intro rs
  induction rs with
  | nil => intro p _; exact .nil p
  | cons r rs ih =>
    intro p h
    obtain ⟨hr, hrs⟩ := holds_append.mp h
    have hp : m p ≠ 0 := by
      rw [(holds_cons.mp hr).1]
      exact r.tag_ne
    refine .cons hp ?_
    rw [nextAt_of_holds hr]
    have hlen : p + (chainBytes (r :: rs)).length
        = p + r.bytes.length + (chainBytes rs).length := by
      rw [chainBytes_cons, List.length_append, Nat.add_assoc]
    rw [hlen]
    exact ih hrs

end Lib
end AmcPci
