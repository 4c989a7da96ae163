import AmcPci.Core
import AmcPci.Lib.Ledger

/-!
# The removal handshake

The count is a ledger: each client that is counted holds one, and the removal holds the device's
own until it drops it. The last one out finds zero and signals, and nobody can be counted in
after that, so the completion is signalled once and the removal goes on alone.
-/

namespace AmcPci
namespace Core

open Lib

/-- In `amc_pci_open`, after the increment. -/
def Client.opening : Client → Bool
  | .deviceOpen => true
  | .errorRelease _ => true
  | _ => false

/-- Opened and not yet released. -/
def Client.isOpen : Client → Bool
  | .opened => true
  | .releasing => true
  | _ => false

/-- What a client holds of the count. -/
def Client.share (c : Client) : Nat := c.opening.toNat + c.isOpen.toNat

/-- What the device itself holds: one, until the removal drops it. -/
def State.deviceShare (s : State) : Nat :=
  match s.remover with
  | none => 1
  | some .destroyDeviceNodes => 1
  | some .decAndTest => 1
  | _ => 0

/-- The removal is past `wait_for_clients`. -/
def State.alone (s : State) : Bool :=
  match s.remover with
  | none => false
  | some .destroyDeviceNodes => false
  | some .decAndTest => false
  | some .waitForCompletion => false
  | _ => true

/-- The completion has been signalled if the count is down to zero, once, and what is left of the
    signal is what the removal has not consumed. -/
def Signalled (refcount : Int) (done signals : Nat) (alone : Bool) : Prop :=
  signals = (if refcount = 0 then 1 else 0) ∧ done + alone.toNat = signals

/-- The count is that of the device and of the clients that are counted. -/
structure Counted (s : State) : Prop where
  count : ∃ n, Balanced Client.share n s.clients ∧ s.refcount = s.deviceShare + n
  signalled : Signalled s.refcount s.done s.signals s.alone

/-! ## One step -/

/-- What a client's step does. -/
inductive ClientMove (s : State) : Client → State → Client → Prop
  | refused (hzero : s.refcount = 0) : ClientMove s .incNotZero s (.failed (-enxio))
  | counted (hpos : s.refcount ≠ 0) :
    ClientMove s .incNotZero { s with refcount := s.refcount + 1 } .deviceOpen
  | openFailed {rc : Int} : ClientMove s .deviceOpen s (.errorRelease rc)
  | opened : ClientMove s .deviceOpen s .opened
  | errorReleased {rc : Int} : ClientMove s (.errorRelease rc) (release s) (.failed rc)
  | releasing : ClientMove s .opened s .releasing
  | released : ClientMove s .releasing (release s) .closed

theorem clientMove_of_clientStep {s s' : State} {c c' : Client} {a : ClientAction}
    (h : clientStep s c a = some (s', c')) : ClientMove s c s' c' := by
  cases c with
  | incNotZero =>
    cases a with
    | incNotZero =>
      rw [clientStep] at h
      split at h
      · cases h
      · split at h
        · rename_i hzero
          cases h
          exact .refused hzero
        · rename_i hpos
          cases h
          exact .counted hpos
    | _ => cases h
  | deviceOpen =>
    cases a with
    | deviceOpen answers =>
      simp only [clientStep] at h
      split at h
      · cases h; exact .openFailed
      · cases h; exact .opened
    | _ => cases h
  | errorRelease rc =>
    cases a with
    | release => cases h; exact .errorReleased
    | _ => cases h
  | opened =>
    cases a with
    | release => cases h; exact .releasing
    | _ => cases h
  | releasing =>
    cases a with
    | release => cases h; exact .released
    | _ => cases h
  | failed rc => cases a <;> cases h
  | closed => cases a <;> cases h

theorem release_refcount (s : State) : (release s).refcount = s.refcount - 1 := by
  rw [release]
  split <;> rfl

theorem release_frame (s : State) :
    (release s).remover = s.remover ∧ (release s).clients = s.clients := by
  rw [release]
  split <;> exact ⟨rfl, rfl⟩

/-- Giving up one's share when nobody is alone with the device yet. -/
theorem Signalled.release {s : State} {alone : Bool} (hpos : 0 < s.refcount)
    (h : Signalled s.refcount s.done s.signals alone) :
    Signalled (release s).refcount (release s).done (release s).signals alone := by
  obtain ⟨hsignals, hdone⟩ := h
  rw [if_neg (Int.ne_of_gt hpos)] at hsignals
  rw [Core.release]
  split
  · rename_i hlast
    exact ⟨by rw [if_pos hlast, hsignals], by simp only; omega⟩
  · rename_i hmore
    exact ⟨by rw [if_neg hmore, hsignals], hdone⟩

theorem counted_initial : Counted initial :=
  ⟨⟨0, rfl, rfl⟩, rfl, rfl⟩

/-- A counted client leaves. -/
theorem Counted.leave {s : State} {i : Nat} {c c' : Client} (h : Counted s)
    (hi : s.clients[i]? = some c) (hc : c.share = 1) (hc' : c'.share = 0) :
    Counted { release s with clients := s.clients.set i c' } := by
  obtain ⟨⟨n, hn, hcount⟩, hsig⟩ := h
  have hle : 1 ≤ n := hc ▸ hn.le hi
  have hremover := (release_frame s).1
  have hshare : State.deviceShare { release s with clients := s.clients.set i c' }
      = s.deviceShare := by
    simp only [State.deviceShare, hremover]
  have halone : State.alone { release s with clients := s.clients.set i c' } = s.alone := by
    simp only [State.alone, hremover]
  refine ⟨⟨n - 1, hn.set hi (by omega), ?_⟩, ?_⟩
  · rw [hshare, show State.refcount _ = (release s).refcount from rfl, release_refcount]
    omega
  · rw [halone]
    exact hsig.release (by omega)

theorem Counted.client {s s' : State} {i : Nat} {c c' : Client} (h : Counted s)
    (hi : s.clients[i]? = some c) (hmove : ClientMove s c s' c') :
    Counted { s' with clients := s.clients.set i c' } := by
  cases hmove with
  | errorReleased => exact h.leave hi rfl rfl
  | released => exact h.leave hi rfl rfl
  | counted hpos =>
    obtain ⟨⟨n, hn, hcount⟩, hsignals, hdone⟩ := h
    have hone : Client.share .deviceOpen + n = Client.share .incNotZero + (n + 1) := by
      rw [show Client.share .deviceOpen = 1 from rfl, show Client.share .incNotZero = 0 from rfl]
      omega
    refine ⟨⟨n + 1, hn.set hi hone, ?_⟩, ?_, hdone⟩
    · show s.refcount + 1 = s.deviceShare + ((n + 1 : Nat) : Int)
      omega
    · -- it was not zero before and is not zero now
      show s.signals = if s.refcount + 1 = 0 then 1 else 0
      rw [hsignals, if_neg hpos, if_neg (by omega)]
  | _ =>
    obtain ⟨⟨n, hn, hcount⟩, hsig⟩ := h
    exact ⟨⟨n, hn.set hi rfl, hcount⟩, hsig⟩

theorem Counted.remove {s s' : State} (h : Counted s) (hs : removeStep s = some s') :
    Counted s' := by
  obtain ⟨⟨n, hn, hcount⟩, hsig⟩ := h
  cases hr : s.remover with
  | none =>
    simp only [removeStep, hr] at hs
    cases hs
    simp only [State.deviceShare, State.alone, hr] at hcount hsig
    exact ⟨⟨n, hn, hcount⟩, hsig⟩
  | some r =>
    cases r with
    | decAndTest =>
      simp only [removeStep, hr] at hs
      cases hs
      simp only [State.deviceShare, State.alone, hr] at hcount hsig
      refine ⟨⟨n, ?_, ?_⟩, ?_⟩
      · simp only [(release_frame s).2, hn]
      · simp only [State.deviceShare, release_refcount, hcount]
        omega
      · exact hsig.release (by omega)
    | waitForCompletion =>
      simp only [removeStep, hr] at hs
      split at hs
      · cases hs
      · rename_i hdone
        cases hs
        simp only [State.deviceShare, State.alone, hr] at hcount hsig
        refine ⟨⟨n, hn, hcount⟩, hsig.1, ?_⟩
        have hsum := hsig.2
        show s.done - 1 + 1 = s.signals
        simp only [Bool.toNat_false] at hsum
        omega
    | done =>
      simp only [removeStep, hr] at hs
      cases hs
    | _ =>
      simp only [removeStep, hr] at hs
      cases hs
      simp only [State.deviceShare, State.alone, hr] at hcount hsig
      exact ⟨⟨n, hn, hcount⟩, hsig⟩

theorem Counted.step {s s' : State} {a : Action} (h : Counted s) (hs : Core.step s a = some s') :
    Counted s' := by
  cases a with
  | openFile =>
    cases hs
    obtain ⟨⟨n, hn, hcount⟩, hsig⟩ := h
    exact ⟨⟨n, hn.concat rfl, hcount⟩, hsig⟩
  | client i action =>
    simp only [Core.step, Option.bind_eq_some_iff, Option.map_eq_some_iff] at hs
    obtain ⟨c, hi, ⟨s₁, c'⟩, hc, rfl⟩ := hs
    exact h.client hi (clientMove_of_clientStep hc)
  | remove => exact h.remove hs

theorem counted_run {ok : State → Action → Prop} {as : List Action} {s : State}
    (h : Exec Core.step ok initial as s) : Counted s :=
  h.invariant (fun hinv _ hstep => hinv.step hstep) counted_initial

/-! ## What the count says -/

/-- Past the wait nothing is counted, not even the device. -/
theorem Counted.alone_zero {s : State} (h : Counted s) (ha : s.alone = true) : s.refcount = 0 := by
  obtain ⟨hsignals, hdone⟩ := h.signalled
  by_contra hne
  rw [if_neg hne] at hsignals
  rw [ha, hsignals] at hdone
  simp at hdone

theorem Counted.no_share {s : State} (h : Counted s) (hzero : s.refcount = 0) {i : Nat} {c : Client}
    (hi : s.clients[i]? = some c) : c.share = 0 := by
  obtain ⟨⟨n, hn, hcount⟩, -⟩ := h
  have := hn.le hi
  omega

theorem sum_share (cs : List Client) : (cs.map Client.share).sum
    = cs.countP Client.isOpen + cs.countP Client.opening := by
  rw [← sum_map_toNat, ← sum_map_toNat, ← List.sum_map_add]
  exact congrArg List.sum (List.map_congr_left fun c _ => Nat.add_comm _ _)

theorem share_eq_zero {c : Client} (h : c.share = 0) : c.isOpen = false ∧ c.opening = false := by
  cases c with
  | deviceOpen => cases h
  | errorRelease => cases h
  | opened => cases h
  | releasing => cases h
  | _ => exact ⟨rfl, rfl⟩

theorem signals_le_release (s : State) : s.signals ≤ (release s).signals := by
  rw [release]
  split
  · exact Nat.le_succ _
  · exact Nat.le_refl _

/-- A signal is not taken back. -/
theorem signals_le {s s' : State} {a : Action} (hs : Core.step s a = some s') :
    s.signals ≤ s'.signals := by
  cases a with
  | openFile => cases hs; exact Nat.le_refl _
  | client i action =>
    simp only [Core.step, Option.bind_eq_some_iff, Option.map_eq_some_iff] at hs
    obtain ⟨c, hi, ⟨s₁, c'⟩, hclient, rfl⟩ := hs
    cases clientMove_of_clientStep hclient with
    | errorReleased => exact signals_le_release s
    | released => exact signals_le_release s
    | _ => exact Nat.le_refl _
  | remove =>
    simp only [Core.step, removeStep] at hs
    split at hs
    case h_3 => cases hs; exact signals_le_release s
    case h_4 =>
      split at hs
      · cases hs
      · cases hs; exact Nat.le_refl _
    case h_10 => cases hs
    all_goals cases hs; exact Nat.le_refl _

/-- The completion is signalled by the step that takes the count to zero, and by no other. -/
theorem Counted.signals_step {s s' : State} {a : Action} (h : Counted s)
    (hs : Core.step s a = some s') :
    s'.signals = s.signals + if s.refcount ≠ 0 ∧ s'.refcount = 0 then 1 else 0 := by
  have hle := signals_le hs
  have h₀ := h.signalled.1
  have h₁ := (h.step hs).signalled.1
  by_cases hzero : s.refcount = 0
  · rw [if_pos hzero] at h₀
    rw [if_neg fun h => h.1 hzero]
    split at h₁
    · omega
    · omega
  · rw [if_neg hzero] at h₀
    rw [h₀, h₁]
    by_cases hzero' : s'.refcount = 0
    · rw [if_pos hzero', if_pos ⟨hzero, hzero'⟩]
    · rw [if_neg hzero', if_neg fun h => hzero' h.2]

/-- **The removal handshake.** In every reachable state the count is one for the device until the
    removal has dropped it, and one for each open handle and each open in progress; the
    completion has been signalled once if the count is zero and not at all otherwise, and is
    signalled by the very step that takes the count to zero; past `wait_for_clients` no handle
    is open and no open in progress, and all an open can still do is return `-ENXIO`, with
    everything else left as it was. -/
theorem removal_handshake {as : List Action} {s : State}
    (h : Exec Core.step Always initial as s) :
    s.refcount = s.deviceShare + s.clients.countP Client.isOpen + s.clients.countP Client.opening ∧
    s.signals = (if s.refcount = 0 then 1 else 0) ∧
    (∀ a s', Core.step s a = some s' →
      s'.signals = s.signals + if s.refcount ≠ 0 ∧ s'.refcount = 0 then 1 else 0) ∧
    (s.alone = true → ∀ c ∈ s.clients, c.isOpen = false ∧ c.opening = false) ∧
    (s.alone = true → ∀ i a s', Core.step s (.client i a) = some s' →
      s.clients[i]? = some .incNotZero ∧
        s' = { s with clients := s.clients.set i (.failed (-enxio)) }) := by
  have hc := counted_run h
  refine ⟨?_, hc.signalled.1, ?_, ?_, ?_⟩
  · obtain ⟨⟨n, hn, hcount⟩, -⟩ := hc
    rw [hcount, ← show (s.clients.map Client.share).sum = n from hn, sum_share]
    push_cast
    exact (Int.add_assoc _ _ _).symm
  · intro a s' hstep
    exact hc.signals_step hstep
  · intro ha c hmem
    obtain ⟨i, hi⟩ := List.getElem?_of_mem hmem
    exact share_eq_zero (hc.no_share (hc.alone_zero ha) hi)
  · intro ha i a s' hstep
    simp only [Core.step, Option.bind_eq_some_iff, Option.map_eq_some_iff] at hstep
    obtain ⟨c, hi, ⟨s₁, c'⟩, hclient, rfl⟩ := hstep
    have hzero := hc.alone_zero ha
    have hshare := hc.no_share hzero hi
    cases clientMove_of_clientStep hclient with
    | refused => exact ⟨hi, rfl⟩
    | counted hpos => exact absurd hzero hpos
    | openFailed => cases hshare
    | opened => cases hshare
    | errorReleased => cases hshare
    | releasing => cases hshare
    | released => cases hshare

/-- A client opens while the device is being removed, another is too late. -/
def removalRun : List Action :=
  [.openFile, .openFile, .client 0 .incNotZero, .remove, .remove, .remove,
    .client 0 (.deviceOpen ⟨some (.device []), .rdwr, 0, 0⟩), .client 0 .release,
    .client 0 .release, .remove, .client 1 .incNotZero]

theorem removal_handshake_removalRun : ∃ s, run Core.step initial removalRun = some s ∧
    s.alone = true ∧ s.clients = [.closed, .failed (-enxio)] ∧
    s.refcount = s.deviceShare + s.clients.countP Client.isOpen +
      s.clients.countP Client.opening :=
  ⟨_, rfl, rfl, rfl, (@removal_handshake removalRun _ (exec_iff_run.mpr rfl)).1⟩

end Core
end AmcPci
