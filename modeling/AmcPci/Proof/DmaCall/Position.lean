import AmcPci.Proof.DmaCall.Legal

/-!
# What a call leaves behind

Whatever fails on the way, a call gives the mutex back and says by its result what it has done to
the file: nothing, for zero and for an error, and otherwise that the position has moved on by what
it returns, or is back at the start of the region. So a position never leaves the region
(`calls_intact`).

Positions are compared as the code does it, as the `size_t` they are converted to. For a region of
less than `2 ^ 63` bytes that is all there is to say; beyond it, that a position does not come out
negative is up to the kernel, which asks nobody to read or write past the largest `loff_t`.
-/

namespace AmcPci
namespace DmaCall

open Lib
open DmaFile (Board Handle Reply)

variable {dma : DmaControl} {a : Answers} {d d' : Device} {h : Handle} {r : Request} {c : Call}
  {pos n : Size}

/-! ## The mutex -/

/-- What the driver does to the engine it does not do to the mutex. -/
theorem mutex_notMem_operation (dma : DmaControl) (a : Answers) (r : Request) :
    .lock ∉ operationEvents dma a r ∧ .unlock ∉ operationEvents dma a r := by
  rw [operationEvents, Answers.prepare]
  constructor
  all_goals
    repeat' split
    all_goals simp

theorem count_events (dma : DmaControl) (a : Answers) (h : Handle) (c : Call) :
    (c.events dma a h).count .lock = (c.events dma a h).count .unlock := by
  unfold Call.events
  split
  · rfl
  · rename_i r _
    obtain ⟨hlock, hunlock⟩ := mutex_notMem_operation dma a r
    split
    · simp [List.count_append, List.count_eq_zero_of_not_mem hlock,
        List.count_eq_zero_of_not_mem hunlock]
    · rfl

/-! ## The position -/

theorem toNat_lt_of_nonneg (h : 0 ≤ n.toInt) : n.toNat < 2 ^ 63 := by
  rw [BitVec.toInt_eq_toNat_cond] at h
  split at h <;> omega

theorem toInt_of_isPositive (h : isPositive n = true) : n.toInt = n.toNat := by
  have hlt := toNat_lt_of_nonneg (Int.le_of_lt (toInt_pos h))
  exact BitVec.toInt_eq_toNat_of_lt (by omega)

theorem toNat_advance (context : MemoryContext) (hpos : 0 ≤ pos.toInt) (hn : 0 ≤ n.toInt) :
    (advance context pos n).toNat =
      if context.length.toNat ≤ pos.toNat + n.toNat then 0 else pos.toNat + n.toNat := by
  have hposlt := toNat_lt_of_nonneg hpos
  have hnlt := toNat_lt_of_nonneg hn
  have hsum : (pos + n).toNat = pos.toNat + n.toNat := BitVec.toNat_add_of_lt (by omega)
  unfold advance
  by_cases hle : context.length.toNat ≤ pos.toNat + n.toNat
  · rw [if_pos hle, if_pos (by rw [ge_iff_le, BitVec.le_def]; omega)]
    rfl
  · rw [if_neg hle, if_neg (by rw [ge_iff_le, BitVec.le_def]; omega), hsum]

/-- A position that moves stays below the end. -/
theorem advance_le (context : MemoryContext) (pos n : Size) :
    (advance context pos n).toNat ≤ context.length.toNat := by
  unfold advance
  split
  · exact Nat.zero_le _
  · rename_i hlt
    rw [ge_iff_le, BitVec.le_def] at hlt
    omega

theorem obtainable_le (hr : c.request dma h = .ok r) : obtainable dma r ≤ c.count := by
  rw [obtainable, BitVec.le_def]
  split
  · cases c with
    | read count =>
      obtain ⟨-, -, rfl⟩ := readRequest_ok hr
      simp only [userCount]
      split
      · exact Nat.le_refl _
      · rename_i hge
        exact BitVec.le_def.mp (BitVec.not_lt.mp hge)
    | write buf count =>
      obtain ⟨-, -, -, rfl⟩ := writeRequest_ok hr
      simp only [toNat_clipCount]
      exact Nat.min_le_left _ _
  · exact Nat.zero_le _

/-- A call gets no more than it asks for. -/
theorem Call.atMost_le (dma : DmaControl) (h : Handle) (c : Call) : c.atMost dma h ≤ c.count := by
  unfold atMost
  split
  · rw [BitVec.le_def]
    exact Nat.zero_le _
  · rename_i r hr
    exact obtainable_le hr

theorem rc_le_atMost (dma : DmaControl) (a : Answers) (d : Device) (h : Handle) (c : Call) :
    (c.perform dma a d h).1.rc ≤ (c.atMost dma h).toNat := by
  have houtcome := perform_outcome dma a d h c
  generalize c.perform dma a d h = out at houtcome ⊢
  cases houtcome with
  | failed hrc => exact Int.le_trans hrc (Int.natCast_nonneg _)
  | moved hpos hle =>
    simp only [toInt_of_isPositive hpos]
    exact Int.ofNat_le.mpr hle

/-! ## Single calls -/

/-- What a call owes its file and the other callers. -/
structure Intact (d : Device) (h : Handle) (c : Call) (out : Reply × Device × Handle) : Prop where
  mutex : ∃ events, out.2.1.log = d.log ++ events ∧ events.count .lock = events.count .unlock
  context : out.2.2.context = h.context
  failed : out.1.rc ≤ 0 → out.2.2.fPos = h.fPos
  bounded : 0 < out.1.rc → out.1.rc ≤ c.count.toNat
  moved : 0 < out.1.rc → 0 ≤ h.fPos.toInt → (out.2.2.fPos.toNat : Int) =
    if h.context.length.toNat ≤ h.fPos.toNat + out.1.rc then 0 else h.fPos.toNat + out.1.rc
  nonneg : 0 ≤ h.fPos.toInt → h.fPos.toNat + c.count.toNat < 2 ^ 63 → 0 ≤ out.2.2.fPos.toInt

theorem perform_intact (dma : DmaControl) (a : Answers) (d : Device) (h : Handle) (c : Call) :
    Intact d h c (c.perform dma a d h) := by
  have hmutex : ∃ events, (c.perform dma a d h).2.1.log = d.log ++ events ∧
      events.count .lock = events.count .unlock :=
    ⟨_, (perform_logs dma a d h c).log, count_events dma a h c⟩
  have hatMost := c.atMost_le dma h
  have houtcome := perform_outcome dma a d h c
  generalize c.perform dma a d h = out at hmutex houtcome ⊢
  cases houtcome with
  | failed hrc =>
    exact ⟨hmutex, rfl, fun _ => rfl, fun hpos => absurd hrc (Int.not_le.mpr hpos),
      fun hpos => absurd hrc (Int.not_le.mpr hpos), fun hfPos _ => hfPos⟩
  | @moved n _ _ hpos hle =>
    have hrc := toInt_pos hpos
    have hn := toInt_of_isPositive hpos
    have hcount : n.toNat ≤ c.count.toNat := Nat.le_trans hle hatMost
    refine ⟨hmutex, rfl, fun hneg => absurd hneg (Int.not_le.mpr hrc), fun _ => ?_, fun _ hfPos => ?_,
      fun hfPos hlt => ?_⟩
    · simp only [hn]
      omega
    · simp only [hn, toNat_advance h.context hfPos (Int.le_of_lt hrc)]
      split <;> split <;> omega
    · have hadvance := toNat_advance h.context hfPos (Int.le_of_lt hrc)
      have hlt' : (advance h.context h.fPos n).toNat < 2 ^ 63 := by
        rw [hadvance]
        split <;> omega
      show 0 ≤ (advance h.context h.fPos n).toInt
      rw [BitVec.toInt_eq_toNat_of_lt (by omega)]
      exact Int.natCast_nonneg _

/-! ## Runs -/

/-- Seeks go no further than the end of the region. -/
def Limited (d : Device) : Action → Prop
  | .seek i fPos =>
    ∀ h, d.board.handles[i]? = some h → 0 ≤ fPos.toInt ∧ fPos ≤ h.context.length
  | _ => True

theorem vfsSetpos_limited (h : Handle) (offset : Size) :
    (DmaFile.vfsSetpos h offset).2 = h ∨ 0 ≤ offset.toInt ∧ offset ≤ h.context.length ∧
      (DmaFile.vfsSetpos h offset).2 = { h with fPos := offset } := by
  unfold DmaFile.vfsSetpos
  split
  · exact .inl rfl
  · rename_i hin
    rw [Bool.or_eq_true, not_or, BitVec.slt, BitVec.slt, decide_eq_true_iff,
      decide_eq_true_iff] at hin
    have hnonneg : 0 ≤ offset.toInt := by simpa using hin.1
    have hle : offset.toInt ≤ h.context.length.toInt := Int.not_lt.mp hin.2
    have hlength := toNat_lt_of_nonneg (Int.le_trans hnonneg hle)
    have hoffset := toNat_lt_of_nonneg hnonneg
    rw [BitVec.toInt_eq_toNat_of_lt (by omega), BitVec.toInt_eq_toNat_of_lt (by omega)] at hle
    exact .inr ⟨hnonneg, Int.ofNat_le.mp hle, rfl⟩

/-- The driver's own seek is such a seek. -/
theorem amcPciDmaLlseek_limited (h : Handle) (fPos : Size) (whence : DmaFile.Whence) :
    (DmaFile.amcPciDmaLlseek h fPos whence).2 = h ∨ ∃ target : Size, 0 ≤ target.toInt ∧
      target ≤ h.context.length ∧
      (DmaFile.amcPciDmaLlseek h fPos whence).2 = { h with fPos := target } := by
  have hsetpos : ∀ offset, (DmaFile.vfsSetpos h offset).2 = h ∨ ∃ target : Size, 0 ≤ target.toInt ∧
      target ≤ h.context.length ∧
      (DmaFile.vfsSetpos h offset).2 = { h with fPos := target } :=
    fun offset => (vfsSetpos_limited h offset).imp_right fun hmoved => ⟨offset, hmoved⟩
  cases whence with
  | seekSet => exact hsetpos fPos
  | seekCur =>
    simp only [DmaFile.amcPciDmaLlseek]
    split
    · exact .inl rfl
    · exact hsetpos _
  | seekEnd => exact hsetpos _

/-- Every handle has its position in its region. -/
def InRegions (d : Device) : Prop := ∀ h ∈ d.board.handles, h.fPos.toNat ≤ h.context.length.toNat

theorem perform_inside (hh : h.fPos.toNat ≤ h.context.length.toNat) :
    (c.perform dma a d h).2.2.fPos.toNat ≤ (c.perform dma a d h).2.2.context.length.toNat := by
  have houtcome := perform_outcome dma a d h c
  generalize c.perform dma a d h = out at houtcome ⊢
  cases houtcome with
  | failed => exact hh
  | moved => exact advance_le _ _ _

theorem inside_step {action : Action} (h : InRegions d) (hok : Limited d action)
    (hstep : step dma d action = some d') : InRegions d' := by
  cases action with
  | dmaOpen context =>
    cases hstep
    intro f hf
    rcases List.mem_append.mp hf with hf | hf
    · exact h f hf
    · rw [List.mem_singleton.mp hf]
      exact Nat.zero_le _
  | call i c a =>
    simp only [step, Option.map_eq_some_iff] at hstep
    obtain ⟨f, hf, rfl⟩ := hstep
    intro g hg
    rcases List.mem_or_eq_of_mem_set hg with hold | rfl
    · rw [(perform_logs dma a d f c).handles] at hold
      exact h g hold
    · exact perform_inside (h f (List.mem_of_getElem? hf))
  | seek i fPos =>
    simp only [step, Option.map_eq_some_iff] at hstep
    obtain ⟨f, hf, rfl⟩ := hstep
    intro g hg
    rcases List.mem_or_eq_of_mem_set hg with hold | rfl
    · exact h g hold
    · exact BitVec.le_def.mp (hok f hf).2

/-- **Calls leave everything as it should be**: each gives the mutex back as often as it took it and
    moves the file by what it returns; and in a run that seeks inside the regions, the positions
    stay inside. -/
theorem calls_intact (dma : DmaControl) :
    (∀ a d h c, Intact d h c (Call.perform dma a d h c)) ∧
      ∀ b actions d, b.handles = [] → Exec (step dma) Limited ⟨b, []⟩ actions d → InRegions d := by
  refine ⟨perform_intact dma, fun b actions d hb hrun => ?_⟩
  refine hrun.invariant (fun hs hok hstep => inside_step hs hok hstep) ?_
  intro h hh
  rw [hb] at hh
  cases hh

/-- From the middle of a region of 128 bytes a write to its end, three bytes of which fault. -/
theorem calls_intact_faulting : ∃ d, run (step board64) ⟨blank, []⟩ [.dmaOpen ⟨256, 128⟩,
      .seek 0 64, .call 0 (.write (fun _ => 7) 64) { idleEngine with left := 3 }] = some d ∧
    d.board.handles = [⟨⟨256, 128⟩, 0⟩] ∧ InRegions d := by
  refine ⟨_, rfl, rfl, ?_⟩
  have hrun : Exec (step board64) Limited ⟨blank, []⟩ [.dmaOpen ⟨256, 128⟩,
      .seek 0 64, .call 0 (.write (fun _ => 7) 64) { idleEngine with left := 3 }] _ :=
    .cons trivial rfl (.cons (fun h hh => by cases hh; decide) rfl (.cons trivial rfl (.nil _)))
  exact (calls_intact board64).2 blank _ _ rfl hrun

end DmaCall
end AmcPci
