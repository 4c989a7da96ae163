import AmcPci.Proof.DmaShared.Serve
import AmcPci.Proof.Dma.Tidy

/-!
# How far a call has come

`Stage` says for each place in a call what the board and the client look like there, measured
against the board `b` as it was when the call took the lock: what the call has done so far is what
`serve` does up to the same place. When it is about to give up the lock it has done all of it.
-/

namespace AmcPci
namespace DmaShared

open Lib
open Dma (CallAction Engine Pc Shared Quiet)
open DmaCall (Answers Succeeds)
open DmaFile (Board Handle Reply)

variable {dma : DmaControl} {b : Board} {s s' : State} {c c' : Dma.Call} {client : Client}
  {a : CallAction} {sh' : Shared} {i : Nat}

/-! ## What the driver reads from the engine -/

theorem isError_cdmasr (e : Engine) : DmaCall.isError (cdmasr e) = e.error := by
  unfold cdmasr
  cases e.error <;> cases e.running.isNone <;> decide

theorem isIdle_cdmasr (e : Engine) : DmaCall.isIdle (cdmasr e) = e.running.isNone := by
  unfold cdmasr
  cases e.error <;> cases e.running.isNone <;> decide

/-! ## The stages -/

/-- A call that has taken the lock, or waits for it. -/
structure Begun (dma : DmaControl) (r : Request) (client : Client) : Prop where
  request : client.call.request dma client.handle = .ok r
  notKilled : client.answers.killed = false
  resetting : client.answers.resetting = []
  data : client.data = []

/-- The buffer is filled, if it is to be. -/
structure AtEngine (dma : DmaControl) (b : Board) (s : State) (r : Request) (client : Client) :
    Prop extends Begun dma r client where
  proceeds : client.call.proceeds client.answers = true
  board : s.board = (client.atEngine b).board

/-- The transfer has been started. -/
structure Transferring (dma : DmaControl) (b : Board) (s : State) (r : Request) (client : Client) :
    Prop extends Begun dma r client where
  proceeds : client.call.proceeds client.answers = true
  aligned : transferAligned dma (r.transfer dma) = true
  ready : client.answers.ready = true
  dir : s.dir = r.dir
  moved : s.moved ≤ (r.transfer dma).count.toNat
  board : s.board = partly dma (client.atEngine b).board r.dir (r.transfer dma) s.moved

/-- The transfer is complete, and there are bytes for the user. -/
structure Transferred (dma : DmaControl) (b : Board) (s : State) (r : Request) (client : Client) :
    Prop extends Begun dma r client where
  aligned : transferAligned dma (r.transfer dma) = true
  succeeds : Succeeds client.answers
  dir : r.dir = .fromDevice
  positive : isPositive (clipCount dma r.dmaCount) = true
  board : s.board =
    (client.atEngine b).board.transfer dma r.dir (r.transfer dma)

/-- What a call has come to, place by place. -/
def Stage (dma : DmaControl) (b : Board) (s : State) (c : Dma.Call) (client : Client) : Prop :=
  match c.pc with
  | .lock => Begun dma c.request client
  | .copyFromUser => Begun dma c.request client ∧ c.request.dir = .toDevice ∧ s.board = b
  | .syncForDevice => AtEngine dma b s c.request client
  | .reinitCompletion => AtEngine dma b s c.request client
  | .checkAligned => AtEngine dma b s c.request client
  | .maybeReset =>
    AtEngine dma b s c.request client ∧ transferAligned dma (c.request.transfer dma) = true
  | .resetController => AtEngine dma b s c.request client ∧
    transferAligned dma (c.request.transfer dma) = true ∧ client.answers.idle = false
  | .program => AtEngine dma b s c.request client ∧
    transferAligned dma (c.request.transfer dma) = true ∧ client.answers.ready = true
  | .waitForCompletion _ => Transferring dma b s c.request client ∧
    (s.calls.shared.engine.running = none → s.calls.shared.engine.error = false →
      s.moved = (c.request.transfer dma).count.toNat)
  | .checkStatus _ => Transferring dma b s c.request client ∧
    (s.calls.shared.engine.error = false → s.moved = (c.request.transfer dma).count.toNat)
  | .copyToUser => Transferred dma b s c.request client
  | .unlock rc => serve dma b client = (⟨rc, client.data⟩, s.board)
  | .returned _ => True

theorem stage_of_pc {pc : Pc} (hpc : c.pc = pc) (h : Stage dma b s { c with pc } client) :
    Stage dma b s c client := by
  subst hpc
  exact h

theorem Stage.of_pc {pc : Pc} (h : Stage dma b s c client) (hpc : c.pc = pc) :
    Stage dma b s { c with pc } client := by
  subst hpc
  exact h

/-- Without the lock a call is at the beginning or at the end, whatever the others do. -/
theorem Stage.of_not_holds {b' : Board} (h : Stage dma b s c client)
    (hheld : c.holdsMutex = false) : Stage dma b' s' c client := by
  cases hpc : c.pc with
  | lock => exact stage_of_pc hpc (h.of_pc hpc)
  | returned rc => exact stage_of_pc hpc trivial
  | _ => rw [Dma.holdsMutex_of_pc hpc rfl] at hheld; cases hheld

/-- What a step of the call leaves. -/
def after (dma : DmaControl) (s : State) (i : Nat) (c : Dma.Call) (client : Client)
    (a : CallAction) (sh' : Shared) (c' : Dma.Call) : State :=
  { (callEffect dma s i c client a).1 with
    calls := { s.calls with shared := sh', calls := s.calls.calls.set i c' }
    clients := s.clients.set i (callEffect dma s i c client a).2 }

/-- The stage after a step of the call. -/
abbrev Next (dma : DmaControl) (b : Board) (s : State) (i : Nat) (c : Dma.Call)
    (client : Client) (a : CallAction) (sh' : Shared) (c' : Dma.Call) : Prop :=
  Stage dma b (after dma s i c client a sh' c') c' (callEffect dma s i c client a).2

theorem Begun.of_toDevice (h : Begun dma c.request client) (hdir : c.request.dir = .toDevice) :
    ∃ buf count, client.call = .write buf count ∧ c.request.count = count := by
  cases hcall : client.call with
  | read count =>
    have hr := h.request
    rw [hcall] at hr
    obtain ⟨-, -, hrequest⟩ := readRequest_ok hr
    rw [hrequest] at hdir
    cases hdir
  | write buf count =>
    have hcount := DmaCall.Call.count_request h.request
    rw [hcall] at hcount
    exact ⟨buf, count, rfl, hcount⟩

theorem Begun.of_fromDevice (h : Begun dma c.request client) (hdir : c.request.dir = .fromDevice) :
    ∃ count, client.call = .read count := by
  cases hcall : client.call with
  | read count => exact ⟨count, rfl⟩
  | write buf count =>
    have hr := h.request
    rw [hcall] at hr
    obtain ⟨-, -, -, hrequest⟩ := writeRequest_ok hr
    rw [hrequest] at hdir
    cases hdir

theorem uncopied_eq {a : Answers} {left count : Size} (hle : ¬ left > count) :
    ({ a with left := left.toNat } : Answers).uncopied count = left := by
  have hle : left.toNat ≤ count.toNat := by
    simpa [BitVec.lt_def] using hle
  refine BitVec.eq_of_toNat_eq ?_
  rw [DmaCall.toNat_uncopied, Nat.min_eq_left hle]

/-! ## The way to the engine -/

theorem stage_lock (hpc : c.pc = .lock) (h : Stage dma b s c client)
    (hfree : s.calls.shared.mutex = false → s.board = b)
    (hstep : Dma.callStep dma s.calls.shared c a = some (sh', c')) :
    Next dma b s i c client a sh' c' := by
  have hbegun : Begun dma c.request client := h.of_pc hpc
  rw [Dma.callStep, hpc] at hstep
  cases a with
  | proceed =>
    have heffect : callEffect dma s i c client .proceed = (s, client) := by
      cases c; cases hpc; rfl
    simp only [Dma.fileStep] at hstep
    split at hstep
    · cases hstep
    · rename_i hmutex
      have hboard := hfree (by simpa using hmutex)
      simp only [Next, after, heffect]
      cases hdir : c.request.dir with
      | toDevice =>
        rw [hdir] at hstep
        cases hstep
        exact ⟨⟨hbegun.request, hbegun.notKilled, hbegun.resetting, hbegun.data⟩, hdir, hboard⟩
      | fromDevice =>
        rw [hdir] at hstep
        cases hstep
        obtain ⟨count, hcall⟩ := hbegun.of_fromDevice hdir
        refine ⟨⟨hbegun.request, hbegun.notKilled, hbegun.resetting, hbegun.data⟩, ?_, ?_⟩
        · rw [hcall]
          rfl
        · rw [Client.atEngine, hcall]
          exact hboard
  | _ => cases hstep

theorem stage_copyFromUser (hpc : c.pc = .copyFromUser) (h : Stage dma b s c client)
    (hstep : Dma.callStep dma s.calls.shared c a = some (sh', c')) :
    Next dma b s i c client a sh' c' := by
  obtain ⟨hbegun, hdir, hboard⟩ := h.of_pc hpc
  rw [Dma.callStep, hpc] at hstep
  cases a with
  | copied left =>
    obtain ⟨buf, count, hcall, hcount⟩ := hbegun.of_toDevice hdir
    have hbuf : client.buf = buf := by rw [Client.buf, hcall]
    have heffect : callEffect dma s i c client (.copied left) =
        ({ s with board := (DmaCall.copyFromUser { client.answers with left := left.toNat }
          ⟨s.board, []⟩ client.buf c.request.count).2.board },
          { client with answers := { client.answers with left := left.toNat } }) := by
      cases c; cases hpc; rfl
    simp only [Dma.fileStep] at hstep
    split at hstep
    · cases hstep
    · rename_i hle
      have hproceeds : client.call.proceeds { client.answers with left := left.toNat }
          = isPositive (c.request.count - left) := by
        rw [hcall, DmaCall.Call.proceeds, ← hcount, uncopied_eq hle]
      have hfilled : (DmaCall.copyFromUser { client.answers with left := left.toNat }
          ⟨s.board, []⟩ client.buf c.request.count).2.board
          = (Client.atEngine { client with answers := { client.answers with left := left.toNat } }
            b).board := by
        simp only [Client.atEngine, hcall]
        rw [hbuf, hcount, hboard]
        rfl
      simp only [Next, after, heffect]
      split at hstep
      · rename_i hpositive
        cases hstep
        exact ⟨⟨hbegun.request, hbegun.notKilled, hbegun.resetting, hbegun.data⟩,
          hproceeds.trans hpositive, hfilled⟩
      · rename_i hpositive
        cases hstep
        show serve dma b _ = _
        have hfault := @serve_fault dma b
          { client with answers := { client.answers with left := left.toNat } } _ hbegun.request
          (hproceeds.trans (Bool.eq_false_of_not_eq_true hpositive))
        rw [hfault, ← hfilled, hbegun.data]
  | _ => cases hstep

theorem stage_syncForDevice (hpc : c.pc = .syncForDevice) (h : Stage dma b s c client)
    (hstep : Dma.callStep dma s.calls.shared c a = some (sh', c')) :
    Next dma b s i c client a sh' c' := by
  obtain ⟨hbegun, hproceeds, hboard⟩ := h.of_pc hpc
  rw [Dma.callStep, hpc] at hstep
  cases a with
  | proceed =>
    have heffect : callEffect dma s i c client .proceed = (s, client) := by
      cases c; cases hpc; rfl
    cases hstep
    simp only [Next, after, heffect]
    exact ⟨hbegun, hproceeds, hboard⟩
  | _ => cases hstep

theorem stage_reinitCompletion (hpc : c.pc = .reinitCompletion) (h : Stage dma b s c client)
    (hstep : Dma.callStep dma s.calls.shared c a = some (sh', c')) :
    Next dma b s i c client a sh' c' := by
  obtain ⟨hbegun, hproceeds, hboard⟩ := h.of_pc hpc
  rw [Dma.callStep, hpc] at hstep
  cases a with
  | proceed =>
    have heffect : callEffect dma s i c client .proceed = (s, client) := by
      cases c; cases hpc; rfl
    cases hstep
    simp only [Next, after, heffect]
    exact ⟨hbegun, hproceeds, hboard⟩
  | _ => cases hstep

theorem stage_checkAligned (hpc : c.pc = .checkAligned) (h : Stage dma b s c client)
    (hstep : Dma.callStep dma s.calls.shared c a = some (sh', c')) :
    Next dma b s i c client a sh' c' := by
  obtain ⟨hbegun, hproceeds, hboard⟩ := h.of_pc hpc
  rw [Dma.callStep, hpc] at hstep
  cases a with
  | proceed =>
    have heffect : callEffect dma s i c client .proceed = (s, client) := by
      cases c; cases hpc; rfl
    cases haligned : transferAligned dma (c.request.transfer dma) with
    | true =>
      simp only [Dma.fileStep, Dma.operationStep, Dma.configureStep, haligned] at hstep
      cases hstep
      simp only [Next, after, heffect]
      exact ⟨⟨hbegun, hproceeds, hboard⟩, haligned⟩
    | false =>
      simp only [Dma.fileStep, Dma.operationStep, Dma.configureStep, haligned] at hstep
      cases hstep
      simp only [Next, after, heffect]
      show serve dma b client = _
      rw [serve_error hbegun.request hproceeds (operation_misaligned haligned), ← hboard,
        hbegun.data]
  | _ => cases hstep

/-! ## The engine is made ready -/

/-- An engine that is not idle is ready if a reset ends in time. -/
theorem ready_reset {a : Answers} {ok : Bool} (hidle : a.idle = false)
    (hresetting : a.resetting = []) :
    Answers.ready { a with resetStat := if ok then 0 else DmaCall.cdmacrReset } = ok := by
  have hidle' : Answers.idle { a with resetStat := if ok then 0 else DmaCall.cdmacrReset }
      = false := hidle
  have hresets : Answers.resets { a with resetStat := if ok then 0 else DmaCall.cdmacrReset }
      = ok := by
    simp only [Answers.resets, hresetting]
    cases ok <;> rfl
  rw [Answers.ready, hidle', hresets, Bool.false_or]

theorem stage_maybeReset (hpc : c.pc = .maybeReset) (h : Stage dma b s c client)
    (hstep : Dma.callStep dma s.calls.shared c a = some (sh', c')) :
    Next dma b s i c client a sh' c' := by
  obtain ⟨⟨hbegun, hproceeds, hboard⟩, haligned⟩ := h.of_pc hpc
  rw [Dma.callStep, hpc] at hstep
  cases a with
  | proceed =>
    have heffect : callEffect dma s i c client .proceed = (s, { client with
        answers := { client.answers with status := cdmasr s.calls.shared.engine } }) := by
      cases c; cases hpc; rfl
    have hidle : Answers.idle { client.answers with status := cdmasr s.calls.shared.engine }
        = !(s.calls.shared.engine.error || s.calls.shared.engine.running.isSome) := by
      rw [Answers.idle, isError_cdmasr, isIdle_cdmasr, Bool.not_or, Option.not_isSome]
    have hbegun' : Begun dma c.request { client with
        answers := { client.answers with status := cdmasr s.calls.shared.engine } } :=
      ⟨hbegun.request, hbegun.notKilled, hbegun.resetting, hbegun.data⟩
    cases hbusy : s.calls.shared.engine.error || s.calls.shared.engine.running.isSome with
    | true =>
      simp only [Dma.fileStep, Dma.operationStep, Dma.configureStep, hbusy] at hstep
      cases hstep
      simp only [Next, after, heffect]
      exact ⟨⟨hbegun', hproceeds, hboard⟩, haligned, hidle.trans (by rw [hbusy]; rfl)⟩
    | false =>
      simp only [Dma.fileStep, Dma.operationStep, Dma.configureStep, hbusy] at hstep
      cases hstep
      simp only [Next, after, heffect]
      refine ⟨⟨hbegun', hproceeds, hboard⟩, haligned, ?_⟩
      rw [Answers.ready, hidle, hbusy]
      rfl
  | _ => cases hstep

theorem stage_resetController (hpc : c.pc = .resetController) (h : Stage dma b s c client)
    (hstep : Dma.callStep dma s.calls.shared c a = some (sh', c')) :
    Next dma b s i c client a sh' c' := by
  obtain ⟨⟨hbegun, hproceeds, hboard⟩, haligned, hidle⟩ := h.of_pc hpc
  rw [Dma.callStep, hpc] at hstep
  cases a with
  | reset ok gone =>
    have heffect : callEffect dma s i c client (.reset ok gone) = (s, { client with
        answers := { client.answers with
          resetStat := if ok then 0 else DmaCall.cdmacrReset } }) := by
      cases c; cases hpc; rfl
    have hready : Answers.ready { client.answers with
        resetStat := if ok then 0 else DmaCall.cdmacrReset } = ok :=
      ready_reset hidle hbegun.resetting
    have hbegun' : Begun dma c.request { client with answers := { client.answers with
        resetStat := if ok then 0 else DmaCall.cdmacrReset } } :=
      ⟨hbegun.request, hbegun.notKilled, hbegun.resetting, hbegun.data⟩
    cases ok with
    | true =>
      cases hstep
      simp only [Next, after, heffect]
      exact ⟨⟨hbegun', hproceeds, hboard⟩, haligned, hready⟩
    | false =>
      have hserve := @serve_error dma b _ _ _ _ hbegun'.request hproceeds
        (operation_notReady haligned hready)
      have hend : serve dma b { client with answers := { client.answers with
          resetStat := if false then 0 else DmaCall.cdmacrReset } }
          = (⟨-eio, client.data⟩, s.board) := by
        rw [hserve, hboard, hbegun.data]
        rfl
      cases gone with
      | true =>
        cases hstep
        simp only [Next, after, heffect]
        exact hend
      | false =>
        cases hstep
        simp only [Next, after, heffect]
        exact hend
  | _ => cases hstep

theorem stage_program (hpc : c.pc = .program) (h : Stage dma b s c client)
    (hstep : Dma.callStep dma s.calls.shared c a = some (sh', c')) :
    Next dma b s i c client a sh' c' := by
  obtain ⟨⟨hbegun, hproceeds, hboard⟩, haligned, hready⟩ := h.of_pc hpc
  rw [Dma.callStep, hpc] at hstep
  cases a with
  | proceed =>
    have heffect : callEffect dma s i c client .proceed
        = ({ s with dir := c.request.dir, moved := 0 }, client) := by
      cases c; cases hpc; rfl
    cases hstep
    simp only [Next, after, heffect]
    refine ⟨⟨hbegun, hproceeds, haligned, hready, rfl, Nat.zero_le _, ?_⟩, fun h => by cases h⟩
    rw [partly_zero]
    exact hboard
  | _ => cases hstep

/-! ## The transfer and what comes after it -/

theorem stage_waitForCompletion {t : Nat} (hpc : c.pc = .waitForCompletion t)
    (h : Stage dma b s c client) (hkill : a ≠ .kill)
    (hended : 0 < s.calls.shared.done → s.calls.shared.engine.running = none)
    (hstep : Dma.callStep dma s.calls.shared c a = some (sh', c')) :
    Next dma b s i c client a sh' c' := by
  obtain ⟨htransferring, hall⟩ := h.of_pc hpc
  obtain ⟨hdone, rfl, rfl⟩ := Dma.woken_of_waiting hpc hkill hstep
  have heffect : callEffect dma s i c client a = (s, client) := by
    cases c; cases hpc
    cases a with
    | kill => exact absurd rfl hkill
    | _ => rfl
  simp only [Next, after, heffect]
  obtain ⟨hbegun, hproceeds, haligned, hready, hdir, hmoved, hboard⟩ := htransferring
  exact ⟨⟨hbegun, hproceeds, haligned, hready, hdir, hmoved, hboard⟩, hall (hended hdone)⟩

/-- The board of a transfer that ended badly is what the client is told is left of it. -/
theorem board_abandon {d : DmaCall.Device} {a : Answers} (hhandles : s.board.handles = d.board.handles)
    (hwreck : a.wreck = (s.board.memory, s.board.buffer)) : (d.abandon a).board = s.board := by
  rw [DmaCall.Device.abandon, hwreck]
  simp only [← hhandles]

theorem stage_checkStatus {t : Nat} (hpc : c.pc = .checkStatus t) (h : Stage dma b s c client)
    (hstep : Dma.callStep dma s.calls.shared c a = some (sh', c')) :
    Next dma b s i c client a sh' c' := by
  obtain ⟨⟨hbegun, hproceeds, haligned, hready, hdir, hmoved, hboard⟩, hall⟩ := h.of_pc hpc
  rw [Dma.callStep, hpc] at hstep
  cases a with
  | proceed =>
    have heffect : callEffect dma s i c client .proceed = (s, { client with
        answers := { client.answers with
          doneStatus := cdmasr s.calls.shared.engine
          wreck := (s.board.memory, s.board.buffer) } }) := by
      cases c; cases hpc; rfl
    generalize hclient : ({ client with
        answers := { client.answers with
          doneStatus := cdmasr s.calls.shared.engine
          wreck := (s.board.memory, s.board.buffer) } } : Client) = client' at heffect
    have hbegun' : Begun dma c.request client' := by
      subst hclient
      exact ⟨hbegun.request, hbegun.notKilled, hbegun.resetting, hbegun.data⟩
    have hproceeds' : client'.call.proceeds client'.answers = true := by
      subst hclient
      exact hproceeds
    have hready' : client'.answers.ready = true := by
      subst hclient
      exact hready
    have hboard' : s.board = partly dma (client'.atEngine b).board c.request.dir
        (c.request.transfer dma) s.moved := by
      subst hclient
      exact hboard
    have herror : DmaCall.isError client'.answers.doneStatus = s.calls.shared.engine.error := by
      subst hclient
      exact isError_cdmasr _
    have hwreck : client'.answers.wreck = (s.board.memory, s.board.buffer) := by
      subst hclient
      rfl
    simp only [Next, after, heffect]
    cases hbad : s.calls.shared.engine.error with
    | true =>
      simp only [Dma.fileStep, Dma.operationStep, hbad] at hstep
      cases hstep
      have hhandles : s.board.handles = (client'.atEngine b).board.handles := by
        rw [hboard', handles_partly]
      show serve dma b client' = _
      rw [serve_error hbegun'.request hproceeds' (operation_failed haligned hready'
        hbegun'.notKilled (herror.trans hbad)), board_abandon hhandles hwreck, hbegun'.data]
    | false =>
      have hdone : s.board = (client'.atEngine b).board.transfer dma c.request.dir
          (c.request.transfer dma) := by
        rw [hboard', hall hbad, partly_count]
      have hsucceeds : Succeeds client'.answers :=
        ⟨hready', hbegun'.notKilled, herror.trans hbad⟩
      simp only [Dma.fileStep, Dma.operationStep, hbad, Dma.Call.complete] at hstep
      cases hpositive : isPositive (clipCount dma c.request.dmaCount) with
      | true =>
        cases hway : c.request.dir with
        | toDevice =>
          obtain ⟨buf, count, hcall, -⟩ := hbegun'.of_toDevice hway
          simp only [hpositive, hway] at hstep
          cases hstep
          show serve dma b client' = _
          rw [serve_count hbegun'.request hproceeds' (operation_done haligned hsucceeds)
            fun _ => ⟨buf, count, hcall⟩, ← hdone, hbegun'.data]
        | fromDevice =>
          simp only [hpositive, hway] at hstep
          cases hstep
          exact ⟨hbegun', haligned, hsucceeds, hway, hpositive, hdone⟩
      | false =>
        simp only [hpositive] at hstep
        cases hstep
        show serve dma b client' = _
        rw [serve_count hbegun'.request hproceeds' (operation_done haligned hsucceeds)
          fun hpos => absurd (hpositive.symm.trans hpos) Bool.false_ne_true, ← hdone,
          hbegun'.data]
  | _ => cases hstep

theorem stage_copyToUser (hpc : c.pc = .copyToUser) (h : Stage dma b s c client)
    (hstep : Dma.callStep dma s.calls.shared c a = some (sh', c')) :
    Next dma b s i c client a sh' c' := by
  obtain ⟨hbegun, haligned, hsucceeds, hdir, hpositive, hboard⟩ := h.of_pc hpc
  rw [Dma.callStep, hpc] at hstep
  cases a with
  | copied left =>
    obtain ⟨count, hcall⟩ := hbegun.of_fromDevice hdir
    have heffect : callEffect dma s i c client (.copied left) = (s, { client with
        data := (DmaCall.copyToUser { client.answers with left := left.toNat } ⟨s.board, []⟩
          c.request.inOffset (userCount c.request (clipCount dma c.request.dmaCount))).2
        answers := { client.answers with left := left.toNat } }) := by
      cases c; cases hpc; rfl
    simp only [Dma.fileStep] at hstep
    split at hstep
    · cases hstep
    · rename_i hle
      cases hstep
      have huncopied := uncopied_eq (a := client.answers) hle
      have hsucceeds' : Succeeds { client.answers with left := left.toNat } :=
        ⟨hsucceeds.ready, hsucceeds.notKilled, hsucceeds.noError⟩
      generalize ({ client.answers with left := left.toNat } : Answers) = answers
        at heffect huncopied hsucceeds'
      generalize hclient : ({ client with
        data := (DmaCall.copyToUser answers ⟨s.board, []⟩ c.request.inOffset
          (userCount c.request (clipCount dma c.request.dmaCount))).2
        answers } : Client) = client' at heffect
      have hcall' : client'.call = .read count := by rw [← hclient]; exact hcall
      have hrequest : client'.call.request dma client'.handle = .ok c.request := by
        rw [← hclient]
        exact hbegun.request
      have hanswers : client'.answers = answers := by rw [← hclient]
      have hdata : client'.data = (DmaCall.copyToUser answers ⟨s.board, []⟩ c.request.inOffset
          (userCount c.request (clipCount dma c.request.dmaCount))).2 := by rw [← hclient]
      have hends : Ends (client'.operation dma b c.request)
          (.ok (clipCount dma c.request.dmaCount)) s.board := by
        rw [hboard, Client.atEngine, hcall, Client.operation, Client.atEngine, hcall', hanswers]
        exact operation_done haligned hsucceeds'
      simp only [Next, after, heffect]
      show serve dma b client' = (⟨_, client'.data⟩, s.board)
      rw [serve_copy hcall' hrequest hends hpositive, hanswers, huncopied, hdata]
  | _ => cases hstep

end DmaShared
end AmcPci
