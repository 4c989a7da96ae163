import AmcPci.Proof.DmaShared.Serial
import AmcPci.Proof.DmaFile.Cyclic

/-!
# Clients that share a device share a memory

As long as nothing goes wrong with the engine and with the users' memory, what any number of clients
see of each other through their handles is one memory and nothing else: there is an order of the
calls in which each read brings what the memory holds and each write puts its bytes there, as
`CyclicFile` has it. The buffer that all the bytes go through does not show.
-/

namespace AmcPci
namespace DmaShared

open Lib
open Dma (CallAction CallMove Pc Shared Tidy)
open DmaCall (Answers Smooth)
open DmaFile (Board Handle Reply limits)

variable {dma : DmaControl} {b₀ b : Board} {s s' : State} {c c' : Dma.Call} {client : Client}
  {a : CallAction} {sh' : Shared} {i k : Nat}

/-- No call is killed, all is copied, no transfer ends in an error; and the clients open aligned
    regions, stay in them, and ask for no more bytes than a call can carry, and for some. -/
def Clean (dma : DmaControl) (s : State) : Action → Prop
  | .call _ .kill => False
  | .call _ (.copied left) => left = 0
  | .engine ok => ok = true
  | .openFile context => Region dma context
  | .read f offset count => 0 < count.toNat ∧ count.toNat ≤ maxRwCount ∧
    ∀ file, s.calls.files[f]? = some file → offset.toNat ≤ file.context.length.toNat
  | .write f offset _ count => 0 < count.toNat ∧ count.toNat ≤ maxRwCount ∧
    ∀ file, s.calls.files[f]? = some file → offset.toNat ≤ file.context.length.toNat
  | _ => True

/-- One call on the memory, without a driver. -/
def fileStep (l : CyclicFile.Limits) (memory : Nat → UInt8) (client : Client) :
    Option (Reply × (Nat → UInt8)) :=
  match client.call with
  | .read count => some ((CyclicFile.read l memory client.handle.window count.toNat).1, memory)
  | .write buf count =>
    let (reply, memory, _) := CyclicFile.write l memory client.handle.window (peek buf 0 count.toNat)
    some (reply, memory)

/-! ## Nothing has gone wrong -/

/-- What a call has been told so far is that all is well. -/
structure Unharmed (a : Answers) : Prop where
  idle : a.idle = true
  notKilled : a.killed = false
  noError : DmaCall.isError a.doneStatus = false
  copies : a.left = 0

theorem Unharmed.smooth {a : Answers} (h : Unharmed a) : Smooth a where
  ready := by rw [Answers.ready, h.idle, Bool.true_or]
  notKilled := h.notKilled
  noError := h.noError
  copies := h.copies

theorem unharmed_unanswered : Unharmed unanswered := ⟨by decide, rfl, by decide, rfl⟩

/-- A call that `CyclicFile` has a word for. -/
structure Asked (dma : DmaControl) (client : Client) : Prop where
  handle : client.handle.Valid dma
  pos : 0 < client.call.count.toNat
  max : client.call.count.toNat ≤ maxRwCount

/-- Nothing has gone wrong so far. -/
structure Faultless (dma : DmaControl) (s : State) : Prop where
  noError : s.calls.shared.engine.error = false
  regions : ∀ file ∈ s.calls.files, Region dma file.context
  unharmed : ∀ client ∈ s.clients, Unharmed client.answers ∧ Asked dma client

theorem faultless_initial (b : Board) : Faultless dma (initial b) := ⟨rfl, nofun, nofun⟩

/-- A step of a call does not change what was asked for. -/
theorem callEffect_asked : (callEffect dma s i c client a).2.handle = client.handle ∧
    (callEffect dma s i c client a).2.call = client.call := by
  obtain ⟨file, request, pc, result⟩ := c
  cases pc <;> cases a <;> exact ⟨rfl, rfl⟩

theorem Asked.effect (h : Asked dma client) : Asked dma (callEffect dma s i c client a).2 := by
  obtain ⟨hhandle, hcall⟩ := @callEffect_asked dma s c client a i
  exact ⟨hhandle ▸ h.handle, hcall ▸ h.pos, hcall ▸ h.max⟩

theorem Unharmed.effect (h : Unharmed client.answers)
    (herror : s.calls.shared.engine.error = false)
    (hidle : c.pc = .maybeReset → s.calls.shared.engine.running = none)
    (hreset : c.pc ≠ .resetController) (hkill : a ≠ .kill)
    (hcopied : ∀ left, a = .copied left → left = 0) :
    Unharmed (callEffect dma s i c client a).2.answers := by
  obtain ⟨file, request, pc, result⟩ := c
  cases pc with
  | copyFromUser =>
    cases a with
    | copied left =>
      obtain rfl := hcopied left rfl
      exact ⟨h.idle, h.notKilled, h.noError, rfl⟩
    | _ => exact h
  | maybeReset =>
    cases a with
    | proceed =>
      refine ⟨?_, h.notKilled, h.noError, h.copies⟩
      show (!DmaCall.isError (cdmasr s.calls.shared.engine) &&
        DmaCall.isIdle (cdmasr s.calls.shared.engine)) = true
      rw [isError_cdmasr, isIdle_cdmasr, herror, hidle rfl]
      rfl
    | _ => exact h
  | resetController => exact absurd rfl hreset
  | waitForCompletion t =>
    cases a with
    | kill => exact absurd rfl hkill
    | _ => exact h
  | checkStatus t =>
    cases a with
    | proceed => exact ⟨h.idle, h.notKilled, (isError_cdmasr _).trans herror, h.copies⟩
    | _ => exact h
  | copyToUser =>
    cases a with
    | copied left =>
      obtain rfl := hcopied left rfl
      exact ⟨h.idle, h.notKilled, h.noError, rfl⟩
    | _ => exact h
  | _ => cases a <;> exact h

/-- The engine comes to no error by what a call does. -/
theorem noError_of_move {sh : Shared} (hmove : CallMove dma sh c a sh' c')
    (herror : sh.engine.error = false) : sh'.engine.error = false := by
  cases hmove with
  | reset => rfl
  | _ => exact herror

theorem Faultless.call (h : Faultless dma s) (hserial : Serial dma b₀ b s)
    (hi : s.calls.calls[i]? = some c) (hclient : s.clients[i]? = some client) (hkill : a ≠ .kill)
    (hcopied : ∀ left, a = .copied left → left = 0)
    (hstep : Dma.callStep dma s.calls.shared c a = some (sh', c')) :
    Faultless dma (after dma s i c client a sh' c') := by
  have hmove := Dma.callMove_of_callStep hstep
  obtain ⟨hunharmed, hasked⟩ := h.unharmed client (List.mem_of_getElem? hclient)
  have hidle : c.pc = .maybeReset → s.calls.shared.engine.running = none := fun hpc =>
    (hserial.tidy.quiet_of_move hi hmove (by rw [hpc]; nofun)).running
  have hreset : c.pc ≠ .resetController := fun hpc => by
    obtain ⟨-, -, hbusy⟩ := (hserial.stages hi hclient).of_pc hpc
    rw [hunharmed.idle] at hbusy
    cases hbusy
  refine ⟨noError_of_move hmove h.noError, h.regions, fun d hd => ?_⟩
  rcases List.mem_or_eq_of_mem_set hd with hold | rfl
  · exact h.unharmed d hold
  · exact ⟨hunharmed.effect h.noError hidle hreset hkill hcopied, hasked.effect⟩

/-- A call that begins is asked for as it should be. -/
theorem Faultless.enter {calls : Dma.State} {f : Nat} {file : Dma.File} {offset : Size}
    {request : MemoryContext → Except Int Request} {call : DmaCall.Call} (h : Faultless dma s)
    (hf : s.calls.files[f]? = some file) (hcalls : Dma.begin s.calls f request = some calls)
    (hoffset : offset.toNat ≤ file.context.length.toNat) (hpos : 0 < call.count.toNat)
    (hmax : call.count.toNat ≤ maxRwCount) :
    Faultless dma (s.enter calls ⟨⟨file.context, offset⟩, call, [], unanswered⟩) := by
  have hregion := h.regions file (List.mem_of_getElem? hf)
  rcases Dma.begin_cases hcalls with rfl | ⟨_, r, -, -, -, rfl⟩
  · simpa [State.enter] using h
  · rw [enter_concat]
    refine ⟨h.noError, h.regions, fun d hd => ?_⟩
    rcases List.mem_append.mp hd with hold | hnew
    · exact h.unharmed d hold
    · rw [List.mem_singleton.mp hnew]
      exact ⟨unharmed_unanswered, ⟨hregion, hoffset⟩, hpos, hmax⟩

theorem faultless_step {action : Action} (h : Faultless dma s) (hserial : Serial dma b₀ b s)
    (hclean : Clean dma s action) (hstep : step dma s action = some s') : Faultless dma s' := by
  cases action with
  | openFile context =>
    simp only [step, Option.map_eq_some_iff] at hstep
    obtain ⟨calls, hcalls, rfl⟩ := hstep
    simp only [Dma.step] at hcalls
    split at hcalls
    · cases hcalls
      refine ⟨h.noError, fun file hfile => ?_, h.unharmed⟩
      rcases List.mem_append.mp hfile with hold | hnew
      · exact h.regions file hold
      · rw [List.mem_singleton.mp hnew]
        exact hclean
    · cases hcalls
  | release f =>
    simp only [step, Option.map_eq_some_iff] at hstep
    obtain ⟨calls, hcalls, rfl⟩ := hstep
    cases Dma.moved_of_step hcalls with
    | release hf =>
      refine ⟨h.noError, fun file hfile => ?_, h.unharmed⟩
      rcases List.mem_or_eq_of_mem_set hfile with hold | rfl
      · exact h.regions file hold
      · have hregion := h.regions _ (List.mem_of_getElem? hf)
        exact hregion
    | refused => exact h
  | terminate =>
    simp only [step, Option.map_eq_some_iff] at hstep
    obtain ⟨calls, hcalls, rfl⟩ := hstep
    cases Dma.moved_of_step hcalls <;> exact ⟨h.noError, h.regions, h.unharmed⟩
  | dmaInterrupt k =>
    simp only [step, Option.map_eq_some_iff] at hstep
    obtain ⟨calls, hcalls, rfl⟩ := hstep
    cases Dma.moved_of_step hcalls <;> exact ⟨h.noError, h.regions, h.unharmed⟩
  | read f offset count =>
    simp only [step, Option.bind_eq_some_iff, Option.map_eq_some_iff] at hstep
    obtain ⟨file, hf, calls, hcalls, rfl⟩ := hstep
    simp only [Dma.step] at hcalls
    exact h.enter hf hcalls (hclean.2.2 file hf) hclean.1 hclean.2.1
  | write f offset buf count =>
    simp only [step, Option.bind_eq_some_iff, Option.map_eq_some_iff] at hstep
    obtain ⟨file, hf, calls, hcalls, rfl⟩ := hstep
    simp only [Dma.step] at hcalls
    exact h.enter hf hcalls (hclean.2.2 file hf) hclean.1 hclean.2.1
  | call i a =>
    simp only [step, Option.bind_eq_some_iff, Option.map_eq_some_iff] at hstep
    obtain ⟨c, hi, client, hclient, calls, hcalls, rfl⟩ := hstep
    simp only [Dma.step, hi, Option.bind_some, Option.map_eq_some_iff] at hcalls
    obtain ⟨⟨sh', c'⟩, hcall, rfl⟩ := hcalls
    refine h.call hserial hi hclient ?_ ?_ hcall
    · rintro rfl
      exact hclean
    · rintro left rfl
      exact hclean
  | moveByte =>
    simp only [step, Option.bind_eq_some_iff] at hstep
    obtain ⟨t, -, hstep⟩ := hstep
    split at hstep
    · cases hstep; exact ⟨h.noError, h.regions, h.unharmed⟩
    · cases hstep
  | engine ok =>
    simp only [step, Option.bind_eq_some_iff] at hstep
    obtain ⟨t, -, hstep⟩ := hstep
    split at hstep
    · cases hstep
    · simp only [Dma.step, Option.map_eq_some_iff] at hstep
      obtain ⟨calls, ⟨engine, hfinish, rfl⟩, rfl⟩ := hstep
      obtain ⟨-, -, -, -, herror, -⟩ := Dma.Engine.finish_some hfinish
      obtain rfl : ok = true := hclean
      refine ⟨?_, h.regions, h.unharmed⟩
      simp only
      rw [herror, h.noError]
      rfl

/-! ## Call by call -/

theorem NoKill.of_clean {action : Action} (h : Clean dma s action) : NoKill s action := by
  cases action with
  | call i a =>
    cases a with
    | kill => exact h
    | _ => trivial
  | _ => trivial

theorem faultless_run {as : List Action} (h : Exec (step dma) (Clean dma) (initial b₀) as s) :
    ∃ b, Serial dma b₀ b s ∧ Faultless dma s := by
  refine h.invariant (I := fun s => ∃ b, Serial dma b₀ b s ∧ Faultless dma s) ?_
    ⟨b₀, serial_initial b₀, faultless_initial b₀⟩
  rintro s s' action ⟨b, hserial, hfaultless⟩ hclean hstep
  obtain ⟨b', hserial'⟩ := serial_step hserial (NoKill.of_clean hclean) hstep
  exact ⟨b', hserial', faultless_step hfaultless hserial hclean hstep⟩

/-- A call on which nothing goes wrong does to the memory what it does without a driver. -/
theorem serve_refines (hg : Geometry dma k) (b : Board) (hu : Unharmed client.answers)
    (ha : Asked dma client) :
    Refines (serveStep dma) (fileStep (limits dma)) Board.memory (fun _ => True) b client := by
  refine ⟨?_, fun _ _ _ => trivial⟩
  obtain ⟨handle, call, data, answers⟩ := client
  obtain ⟨hvalid, hpos, hmax⟩ := ha
  cases call with
  | read count =>
    have hsmooth : DmaCall.Same (DmaCall.amcPciDmaRead dma answers ⟨b, []⟩ handle count)
        (DmaFile.amcPciDmaRead dma b handle count) :=
      DmaCall.amcPciDmaRead_smooth hu.smooth ⟨b, []⟩ handle count
    obtain ⟨hreply, hboard, -⟩ := hsmooth
    have hpos : 0 < count.toNat := hpos
    obtain ⟨hreply', hmemory, -⟩ :=
      DmaFile.amcPciDmaRead_agrees (b := b) (h := handle) hg hvalid hpos hmax
    simp only [fileStep, serveStep, Option.map_some, serve, DmaCall.Call.perform]
    rw [hreply, hboard, hreply', hmemory]
  | write buf count =>
    have hsmooth : DmaCall.Same (DmaCall.amcPciDmaWrite dma answers ⟨b, []⟩ handle buf count)
        (DmaFile.amcPciDmaWrite dma b handle (peek buf 0 count.toNat)) :=
      DmaCall.amcPciDmaWrite_smooth hu.smooth ⟨b, []⟩ handle buf count
    have hlength : (peek buf 0 count.toNat).length = count.toNat := length_peek ..
    obtain ⟨hreply, hboard, -⟩ := hsmooth
    obtain ⟨hreply', hmemory, -⟩ := DmaFile.amcPciDmaWrite_agrees (b := b) (h := handle) hg hvalid
      (hpos.trans_eq hlength.symm) (hlength.trans_le hmax)
    simp only [fileStep, serveStep, Option.map_some, serve, DmaCall.Call.perform]
    rw [hreply, hboard, hreply', hmemory]

/-- **Clients share a memory.** In every run in which nothing goes wrong there is an order of the
    calls, the history, in which each call has the reply `CyclicFile` gives it on the memory that
    the calls before it have left, and in which they leave the device's memory as it is while the
    lock is free. A call is in the history once, if it has returned; and one that begins after
    another has returned comes after it. -/
theorem clients_share_memory (hg : Geometry dma k) {as : List Action}
    (h : Exec (step dma) (Clean dma) (initial b₀) as s) :
    (∃ memory, answers (fileStep (limits dma)) b₀.memory (s.history.map Entry.client)
        = some (s.history.map Entry.reply, memory) ∧
      (s.calls.shared.mutex = false → s.board.memory = memory)) ∧
    (s.history.map Entry.index).Nodup ∧
    (∀ (i : Nat) (c : Dma.Call) (client : Client) (rc : Int), s.calls.calls[i]? = some c →
      s.clients[i]? = some client → (⟨i, client, rc⟩ ∈ s.history ↔ c.pc = .returned rc)) ∧
    ∀ (bs : List Action) (s' : State), Exec (step dma) (Clean dma) s bs s' →
      s.history <+: s'.history := by
  obtain ⟨b, hserial, hfaultless⟩ := faultless_run h
  refine ⟨⟨b.memory, ?_, fun hfree => by rw [hserial.free hfree]⟩, hserial.once,
    fun _ _ _ _ hi hclient => hserial.mem_history_iff hi hclient, fun _ _ h' => history_prefix h'⟩
  have hgood : ∀ client ∈ s.history.map Entry.client,
      Unharmed client.answers ∧ Asked dma client := by
    intro client hmem
    obtain ⟨e, he, rfl⟩ := List.mem_map.mp hmem
    obtain ⟨-, -, hclient, -⟩ := hserial.returned e he
    exact hfaultless.unharmed _ (List.mem_of_getElem? hclient)
  have hrefines : ∀ (b : Board) (client : Client), True →
      Unharmed client.answers ∧ Asked dma client →
      Refines (serveStep dma) (fileStep (limits dma)) Board.memory (fun _ => True) b client :=
    fun b client _ hc => serve_refines hg b hc.1 hc.2
  obtain ⟨hanswers, -⟩ := answers_refines hrefines (s := b₀) trivial hgood
  rw [hanswers, hserial.served]
  rfl

theorem geometry_smallDma : Geometry Dma.smallDma 2 := ⟨rfl, rfl, by decide, by decide⟩

theorem clients_share_memory_overlapping : ∃ s,
    run (step Dma.smallDma) (initial blank) overlapping = some s ∧
    ∃ memory, answers (fileStep (limits Dma.smallDma)) blank.memory (s.history.map Entry.client)
      = some (s.history.map Entry.reply, memory) := by
  obtain ⟨s, hs, -⟩ := Option.map_eq_some_iff.mp overlapping_replies
  have hregion : Region Dma.smallDma ⟨256, 128⟩ := ⟨by decide, by decide, by decide⟩
  have hrun : Exec (step Dma.smallDma) (Clean Dma.smallDma) (initial blank) overlapping s :=
    (exec_iff_run.mpr hs).restrict
      (by simpa [overlapping, endTransfer, Clean, maxRwCount] using fun _ => hregion)
  obtain ⟨⟨memory, hmemory, -⟩, -⟩ := clients_share_memory geometry_smallDma hrun
  exact ⟨s, hs, memory, hmemory⟩

end DmaShared
end AmcPci
