import Mathlib.Data.List.Chain
import AmcPci.Proof.DmaCall.Steps

/-!
# What the engine is told

An engine that is given a misaligned transfer locks up without a report, so all the care there is
must come before the write to `btt`. Whatever is read from the engine, whoever is killed and
whichever copy faults, the log of a board has in it only transfers the engine can take, each right
after a reading of `cdmasr` that was idle and without an error, or after a reset that ended
(`transfers_legal`).
-/

namespace AmcPci
namespace DmaCall

open Lib
open DmaFile (Board Handle Reply)

variable {dma : DmaControl} {a : Answers} {d d' : Device} {h : Handle} {r : Request} {c : Call}
  {k : Nat}

/-! ## Transfers -/

/-- The side of a transfer that is the host's. -/
def hostSide (dir : DmaDirection) (t : Transfer) : Size :=
  match dir with
  | .toDevice => t.src
  | .fromDevice => t.dst

/-- A transfer the engine can take. -/
structure Legal (dma : DmaControl) (dir : DmaDirection) (t : Transfer) : Prop where
  src : dma.alignment.toNat ∣ t.src.toNat
  dst : dma.alignment.toNat ∣ t.dst.toNat
  count : dma.alignment.toNat ∣ t.count.toNat
  pos : 0 < t.count.toNat
  le : t.count.toNat ≤ min (2 ^ 23 - 1) dma.bufferSize.toNat
  host : hostSide dir t = dma.bufferDma

/-- What comes to the engine asks for something. -/
theorem Call.dmaCount_pos (hr : c.request dma h = .ok r) (hproceeds : c.proceeds a = true) :
    0 < r.dmaCount.toNat := by
  rw [Nat.pos_iff_ne_zero]
  intro hzero
  cases c with
  | read count =>
    obtain ⟨-, hcount, rfl⟩ := readRequest_ok hr
    exact hcount (BitVec.eq_of_toNat_eq hzero)
  | write buf count =>
    obtain ⟨-, -, -, rfl⟩ := writeRequest_ok hr
    -- of nothing, nothing is copied
    have hcopied : count - a.uncopied count = 0 := BitVec.eq_of_toNat_eq (by
      rw [toNat_sub_uncopied, show count.toNat = 0 from hzero]
      exact Nat.zero_sub _)
    rw [proceeds, hcopied] at hproceeds
    cases hproceeds

theorem hostSide_transfer (dma : DmaControl) (r : Request) :
    hostSide r.dir (r.transfer dma) = dma.bufferDma := by
  unfold Request.transfer
  cases r.dir <;> rfl

theorem legal_of_aligned (hi : Initialised dma k) (hpositive : isPositive dma.maxTransfer = true)
    (hcount : 0 < r.dmaCount.toNat) (haligned : transferAligned dma (r.transfer dma) = true) :
    Legal dma r.dir (r.transfer dma) := by
  rw [hi.transferAligned_iff] at haligned
  have hle := hi.maxTransfer_le
  have hmax : 0 < dma.maxTransfer.toNat := (isPositive_iff (by omega)).mp hpositive
  have hclip : (r.transfer dma).count.toNat = min r.dmaCount.toNat dma.maxTransfer.toNat := by
    rw [count_transfer, toNat_clipCount]
  exact ⟨haligned.1, haligned.2.1, haligned.2.2, by omega, by omega, hostSide_transfer dma r⟩

/-! ## Logs -/

/-- The engine has been seen fit for a transfer. -/
def Event.ready : Event → Bool
  | .status cdmasr => !isError cdmasr && isIdle cdmasr
  | .reset ok => ok
  | _ => false

/-- What may come right after what. -/
def Follows (dma : DmaControl) (e e' : Event) : Prop :=
  (∀ dir t, e' = .btt dir t → e.ready = true ∧ Legal dma dir t) ∧ (e = .reset false → e' = .unlock)

/-- A log, from an unlocked mutex to an unlocked mutex. -/
structure Orderly (dma : DmaControl) (log : List Event) : Prop where
  chain : (.unlock :: log).IsChain (Follows dma)
  last : ∀ e ∈ log.getLast?, e = .unlock

theorem Follows.of_ne {e e' : Event} (he : e ≠ .reset false) (he' : ∀ dir t, e' ≠ .btt dir t) :
    Follows dma e e' := ⟨fun dir t h => absurd h (he' dir t), fun h => absurd h he⟩

theorem Follows.unlock (dma : DmaControl) (e : Event) : Follows dma e .unlock :=
  ⟨nofun, fun _ => rfl⟩

theorem Orderly.nil (dma : DmaControl) : Orderly dma [] := ⟨.singleton _, nofun⟩

theorem Orderly.append {log log' : List Event} (h : Orderly dma log) (h' : Orderly dma log') :
    Orderly dma (log ++ log') := by
  have hhead := List.isChain_cons.mp h'.chain
  constructor
  · refine List.IsChain.append h.chain hhead.2 fun e he e' he' => ?_
    have hunlock : e = .unlock := by
      cases log with
      | nil => exact (Option.some.inj he).symm
      | cons e₀ log => exact h.last e (by rwa [List.getLast?_cons_cons] at he)
    rw [hunlock]
    exact hhead.1 e' he'
  · intro e he
    rw [List.getLast?_append] at he
    cases hlast : log'.getLast? with
    | none =>
      rw [hlast] at he
      exact h.last e he
    | some e₀ =>
      rw [hlast] at he
      cases he
      exact h'.last e hlast

theorem orderly_operation (hi : Initialised dma k) (hpositive : isPositive dma.maxTransfer = true)
    (a : Answers) (hcount : 0 < r.dmaCount.toNat) :
    (Event.lock :: operationEvents dma a r ++ [Event.unlock]).IsChain (Follows dma) := by
  unfold operationEvents
  split
  · rename_i haligned
    have hlegal := legal_of_aligned hi hpositive hcount haligned
    have hbtt : ∀ e : Event, e.ready = true → Follows dma e (.btt r.dir (r.transfer dma)) := by
      refine fun e he => ⟨fun dir t heq => ?_, fun hreset => ?_⟩
      · cases heq
        exact ⟨he, hlegal⟩
      · rw [hreset] at he
        cases he
    have hstatus : Follows dma .lock (.status a.status) := .of_ne (by simp) (by simp)
    have hreset : ∀ ok, Follows dma (.status a.status) (.reset ok) := fun ok => .of_ne (by simp) (by simp)
    rw [Answers.prepare, Answers.ready]
    cases hidle : a.idle with
    | true =>
      exact .cons_cons hstatus (.cons_cons (hbtt _ hidle) (.cons_cons (.unlock _ _) (.singleton _)))
    | false =>
      cases hresets : a.resets with
      | true =>
        exact .cons_cons hstatus (.cons_cons (hreset _)
          (.cons_cons (hbtt _ rfl) (.cons_cons (.unlock _ _) (.singleton _))))
      | false =>
        exact .cons_cons hstatus (.cons_cons (hreset _)
          (.cons_cons (.unlock _ _) (.singleton _)))
  · exact .cons_cons (.unlock _ _) (.singleton _)

theorem orderly_events (hi : Initialised dma k) (hpositive : isPositive dma.maxTransfer = true)
    (a : Answers) (h : Handle) (c : Call) : Orderly dma (c.events dma a h) := by
  unfold Call.events
  cases hr : c.request dma h with
  | error rc => exact .nil dma
  | ok r =>
    have hchain : (Event.lock :: (if c.proceeds a then operationEvents dma a r else [])
        ++ [Event.unlock]).IsChain (Follows dma) := by
      split
      · rename_i hproceeds
        exact orderly_operation hi hpositive a (c.dmaCount_pos hr hproceeds)
      · exact .cons_cons (.unlock _ _) (.singleton _)
    refine ⟨.cons_cons (.of_ne (by simp) (by simp)) hchain, fun e he => ?_⟩
    rw [List.getLast?_append] at he
    exact (Option.some.inj he).symm

/-! ## Runs -/

theorem orderly_step (hi : Initialised dma k) (hpositive : isPositive dma.maxTransfer = true)
    {action : Action} (h : Orderly dma d.log) (hstep : step dma d action = some d') :
    Orderly dma d'.log := by
  cases action with
  | dmaOpen context =>
    cases hstep
    exact h
  | call i c a =>
    simp only [step, Option.map_eq_some_iff] at hstep
    obtain ⟨f, -, rfl⟩ := hstep
    rw [(perform_logs dma a d f c).log]
    exact h.append (orderly_events hi hpositive a f c)
  | seek i fPos =>
    simp only [step, Option.map_eq_some_iff] at hstep
    obtain ⟨f, -, rfl⟩ := hstep
    exact h

/-- **Every transfer is one the engine can take**, and is told to an engine that was seen fit for
    it just before. After a reset that has not ended there is only the unlock. -/
theorem transfers_legal (hi : Initialised dma k) (hpositive : isPositive dma.maxTransfer = true)
    {b : Board} {actions : List Action} (h : Exec (step dma) Always ⟨b, []⟩ actions d) :
    (∀ before after dir t, d.log = before ++ .btt dir t :: after → Legal dma dir t ∧
      ∃ e earlier, before = earlier ++ [e] ∧ e.ready = true) ∧
      ∀ before after, d.log = before ++ .reset false :: after →
        ∃ rest, after = .unlock :: rest := by
  have horderly : Orderly dma d.log :=
    h.invariant (I := fun d => Orderly dma d.log)
      (fun hs _ hstep => orderly_step hi hpositive hs hstep) (.nil dma)
  have hfollows := List.isChain_iff_forall_rel_of_append_cons_cons.mp horderly.chain
  constructor
  · intro before after dir t hlog
    rcases List.eq_nil_or_concat before with rfl | ⟨earlier, e, rfl⟩
    · have hfirst := @hfollows .unlock (.btt dir t) [] after (congrArg (.unlock :: ·) hlog)
      exact absurd (hfirst.1 dir t rfl).1 nofun
    · have hlast := @hfollows e (.btt dir t) (.unlock :: earlier) after
        (by simp [hlog])
      obtain ⟨hready, hlegal⟩ := hlast.1 dir t rfl
      exact ⟨hlegal, e, earlier, List.concat_eq_append .., hready⟩
  · intro before after hlog
    cases after with
    | nil =>
      have hlast := horderly.last (.reset false) (by simp [hlog])
      cases hlast
    | cons e rest =>
      have hnext := @hfollows (.reset false) e (.unlock :: before) rest
        (by simp [hlog])
      rw [hnext.2 rfl]
      exact ⟨rest, rfl⟩

/-- Units of 16 bytes and a buffer of 64. -/
def board64 : DmaControl := ⟨16, maxTransferFor 64 16, 64, 4096⟩

theorem initialised_board64 : Initialised board64 4 := ⟨rfl, rfl⟩

/-- An engine that is idle, and says so again after the transfer. -/
def idleEngine : Answers := ⟨0, cdmasrIdle, [], 0, false, cdmasrIdle, (fun _ => 0, fun _ => 0)⟩

def blank : Board := ⟨fun _ => 0, fun _ => 0, []⟩

/-- A client is killed in its wait for 64 bytes of 100, and the engine still runs when the next
    one comes and a reset does not end. -/
def busyRun : List Action :=
  [.dmaOpen ⟨256, 128⟩, .call 0 (.read 100) { idleEngine with killed := true },
    .call 0 (.write (fun _ => 7) 32) { idleEngine with status := 0, resetStat := cdmacrReset }]

theorem transfers_legal_busyRun : ∃ d, run (step board64) ⟨blank, []⟩ busyRun = some d ∧
    d.log = [.lock, .status 2, .btt .fromDevice ⟨256, 4096, 64⟩, .unlock,
      .lock, .status 0, .reset false, .unlock] ∧
    Legal board64 .fromDevice ⟨256, 4096, 64⟩ := by
  refine ⟨_, rfl, rfl, ?_⟩
  have hrun : Exec (step board64) Always ⟨blank, []⟩ busyRun _ := exec_iff_run.mpr rfl
  exact ((transfers_legal initialised_board64 (by decide) hrun).1 [.lock, .status 2]
    [.unlock, .lock, .status 0, .reset false, .unlock] .fromDevice ⟨256, 4096, 64⟩ rfl).1

end DmaCall
end AmcPci
