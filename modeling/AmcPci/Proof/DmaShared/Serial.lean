import AmcPci.Proof.DmaShared.Stage
import AmcPci.Proof.Dma.Completion
import AmcPci.Lib.Refine

/-!
# Calls side by side are calls one after the other

Calls that overlap share the engine, the completion, the buffer and the device's memory, and the
engine moves its bytes while other calls run. What the mutex makes of that is a sequence: in any run
in which no call is killed, the calls have the replies they would have had one at a time, in the
order in which they give up the lock, and leave the device's memory as these would have left it.
That order agrees with the order in which calls begin and return, since a call takes and gives up
the lock in between.
-/

namespace AmcPci
namespace DmaShared

open Lib
open Dma (CallAction CallMove Engine Pc Shared Tidy)
open DmaFile (Board Handle Reply)

variable {dma : DmaControl} {b₀ b : Board} {s s' : State} {c c' : Dma.Call} {client : Client}
  {a : CallAction} {sh' : Shared} {i : Nat}

/-- No call is killed in its wait. -/
def NoKill (_ : State) : Action → Prop
  | .call _ .kill => False
  | _ => True

/-- One call after the other. -/
def serveStep (dma : DmaControl) (b : Board) (client : Client) : Option (Reply × Board) :=
  some (serve dma b client)

/-- The calls of the history, one after the other, have brought the board from `b₀` to `b`; whoever
    has the lock goes on from there. -/
structure Serial (dma : DmaControl) (b₀ b : Board) (s : State) : Prop where
  tidy : Tidy dma s.calls
  length : s.clients.length = s.calls.calls.length
  served : answers (serveStep dma) b₀ (s.history.map Entry.client)
    = some (s.history.map Entry.reply, b)
  free : s.calls.shared.mutex = false → s.board = b
  stages : ∀ {i : Nat} {c : Dma.Call} {client : Client}, s.calls.calls[i]? = some c →
    s.clients[i]? = some client → Stage dma b s c client
  entered : ∀ {i : Nat} {c : Dma.Call} {client : Client} {rc : Int}, s.calls.calls[i]? = some c →
    s.clients[i]? = some client → c.pc = .returned rc → ⟨i, client, rc⟩ ∈ s.history
  returned : ∀ e ∈ s.history, ∃ c, s.calls.calls[e.index]? = some c ∧
    s.clients[e.index]? = some e.client ∧ c.pc = .returned e.rc
  once : (s.history.map Entry.index).Nodup

theorem serial_initial (b : Board) : Serial dma b b (initial b) where
  tidy := Dma.tidy_initial
  length := rfl
  served := rfl
  free := fun _ => rfl
  stages := by intro i c client hi; simp [initial, Dma.initial] at hi
  entered := by intro i c client rc hi; simp [initial, Dma.initial] at hi
  returned := nofun
  once := List.nodup_nil

/-! ## The steps of a call -/

/-- A step of a call before the unlock. -/
theorem Stage.move (h : Stage dma b s c client) (htidy : Tidy dma s.calls)
    (hi : s.calls.calls[i]? = some c) (hfree : s.calls.shared.mutex = false → s.board = b)
    (hkill : a ≠ .kill) (hunlock : ∀ rc, c.pc ≠ .unlock rc)
    (hstep : Dma.callStep dma s.calls.shared c a = some (sh', c')) :
    Next dma b s i c client a sh' c' := by
  cases hpc : c.pc with
  | lock => exact stage_lock hpc h hfree hstep
  | copyFromUser => exact stage_copyFromUser hpc h hstep
  | syncForDevice => exact stage_syncForDevice hpc h hstep
  | reinitCompletion => exact stage_reinitCompletion hpc h hstep
  | checkAligned => exact stage_checkAligned hpc h hstep
  | maybeReset => exact stage_maybeReset hpc h hstep
  | resetController => exact stage_resetController hpc h hstep
  | program => exact stage_program hpc h hstep
  | waitForCompletion t =>
    have hwaits := htidy.waits c (List.mem_of_getElem? hi) t hpc
    exact stage_waitForCompletion hpc h hkill hwaits.awaits.idle hstep
  | checkStatus t => exact stage_checkStatus hpc h hstep
  | copyToUser => exact stage_copyToUser hpc h hstep
  | unlock rc => exact absurd hpc (hunlock rc)
  | returned rc =>
    have hnot := (Dma.callMove_of_callStep hstep).not_returned
    rw [Dma.Call.hasReturned, hpc] at hnot
    cases hnot

/-- A step of a call before the unlock is not entered in the history. -/
theorem callEffect_history (hunlock : ∀ rc, c.pc ≠ .unlock rc) :
    (callEffect dma s i c client a).1.history = s.history := by
  cases hpc : c.pc with
  | unlock rc => exact absurd hpc (hunlock rc)
  | _ => cases c; cases hpc; cases a <;> rfl

theorem Serial.after_stages (h : Serial dma b₀ b s) (hi : s.calls.calls[i]? = some c)
    (hclient : s.clients[i]? = some client)
    (hstep : Dma.callStep dma s.calls.shared c a = some (sh', c')) {b' : Board}
    (hnext : Next dma b' s i c client a sh' c') {j : Nat} {d : Dma.Call} {client' : Client}
    (hj : (s.calls.calls.set i c')[j]? = some d)
    (hclient' : (s.clients.set i (callEffect dma s i c client a).2)[j]? = some client') :
    Stage dma b' (after dma s i c client a sh' c') d client' := by
  have hmove := Dma.callMove_of_callStep hstep
  rcases getElem?_set_some hj with ⟨rfl, rfl⟩ | ⟨hne, hold⟩
  · rw [getElem?_set_of_some hclient] at hclient'
    obtain rfl := Option.some.inj hclient'
    exact hnext
  · rw [List.getElem?_set_ne hne.symm] at hclient'
    refine (h.stages hold hclient').of_not_holds ?_
    by_contra hheld
    have hheld : d.holdsMutex = true := by simpa using hheld
    rcases hmove.holds_or_free with hmine | hfree
    · rw [Dma.holds_alone h.tidy.books hi hold hne hmine] at hheld
      cases hheld
    · have hle := h.tidy.books.le hold
      rw [hfree, hheld] at hle
      exact absurd hle (by decide)

theorem Serial.proceed (h : Serial dma b₀ b s) (hi : s.calls.calls[i]? = some c)
    (hclient : s.clients[i]? = some client) (hkill : a ≠ .kill)
    (hunlock : ∀ rc, c.pc ≠ .unlock rc)
    (hstep : Dma.callStep dma s.calls.shared c a = some (sh', c')) :
    Serial dma b₀ b (after dma s i c client a sh' c') := by
  have hmove := Dma.callMove_of_callStep hstep
  have htidy := h.tidy.call hi hkill hstep
  have hnext := (h.stages hi hclient).move h.tidy hi h.free hkill hunlock hstep
  have hholds : c'.holdsMutex = true := hmove.holds_after hunlock
  have hhistory : (after dma s i c client a sh' c').history = s.history :=
    callEffect_history hunlock
  refine ⟨htidy, ?_, ?_, fun hmutex => ?_, fun hj hclient' => ?_, fun hj hclient' hrc => ?_,
    fun e he => ?_, ?_⟩
  · simp [after, h.length]
  · rw [hhistory]
    exact h.served
  · have hset : (s.calls.calls.set i c')[i]? = some c' := getElem?_set_of_some hi
    have hle := htidy.books.le hset
    rw [hholds, show sh'.mutex = false from hmutex] at hle
    exact absurd hle (by decide)
  · exact h.after_stages hi hclient hstep hnext hj hclient'
  · rw [hhistory]
    rcases getElem?_set_some hj with ⟨-, rfl⟩ | ⟨hne, hold⟩
    · rw [Dma.Call.holdsMutex, hrc] at hholds
      cases hholds
    · exact h.entered hold (by rwa [after, List.getElem?_set_ne hne.symm] at hclient') hrc
  · rw [hhistory] at he
    obtain ⟨d, hd, hdata, hrc⟩ := h.returned e he
    have hne : i ≠ e.index := by
      rintro rfl
      obtain rfl : c = d := Option.some.inj (hi.symm.trans hd)
      have hnot := hmove.not_returned
      rw [Dma.Call.hasReturned, hrc] at hnot
      cases hnot
    exact ⟨d, (List.getElem?_set_ne hne).trans hd, (List.getElem?_set_ne hne).trans hdata, hrc⟩
  · rw [hhistory]
    exact h.once

/-- The unlock, at which the call is entered in the history. -/
theorem Serial.unlock {rc : Int} (h : Serial dma b₀ b s) (hi : s.calls.calls[i]? = some c)
    (hclient : s.clients[i]? = some client) (hpc : c.pc = .unlock rc)
    (hstep : Dma.callStep dma s.calls.shared c a = some (sh', c')) (hkill : a ≠ .kill) :
    Serial dma b₀ s.board (after dma s i c client a sh' c') := by
  have hmove := Dma.callMove_of_callStep hstep
  have htidy := h.tidy.call hi hkill hstep
  have hserve : serve dma b client = (⟨rc, client.data⟩, s.board) := (h.stages hi hclient).of_pc hpc
  have hproceed : a = .proceed ∧ c' = c.goto (.returned rc) := by
    rw [Dma.callStep, hpc] at hstep
    cases a with
    | proceed => cases hstep; exact ⟨rfl, rfl⟩
    | _ => cases hstep
  obtain ⟨rfl, rfl⟩ := hproceed
  have heffect : callEffect dma s i c client .proceed
      = ({ s with history := s.history ++ [⟨i, client, rc⟩] }, client) := by
    cases c; cases hpc; rfl
  have hnext : Next dma s.board s i c client .proceed sh' (c.goto (.returned rc)) := trivial
  have hnot := hmove.not_returned
  have hfresh : ∀ e ∈ s.history, i ≠ e.index := by
    rintro e he rfl
    obtain ⟨d, hd, -, hrc⟩ := h.returned e he
    obtain rfl : c = d := Option.some.inj (hi.symm.trans hd)
    rw [Dma.Call.hasReturned, hrc] at hnot
    cases hnot
  have hstages := fun j d client' hj hclient' =>
    @Serial.after_stages dma b₀ b s c _ client .proceed sh' i h hi hclient hstep s.board hnext j d
      client' hj hclient'
  rw [after, heffect] at hstages ⊢
  refine ⟨htidy, ?_, ?_, fun _ => rfl, fun hj hclient' => hstages _ _ _ hj hclient',
    fun hj hclient' hrc => ?_, fun e he => ?_, ?_⟩
  · simp [h.length]
  · rw [List.map_append, List.map_append]
    exact answers_concat (congrArg some hserve) h.served
  · rcases getElem?_set_some hj with ⟨rfl, rfl⟩ | ⟨hne, hold⟩
    · rw [getElem?_set_of_some hclient] at hclient'
      obtain rfl := Option.some.inj hclient'
      obtain rfl := Pc.returned.inj hrc
      exact List.mem_append_right _ (List.mem_singleton_self _)
    · rw [List.getElem?_set_ne hne.symm] at hclient'
      exact List.mem_append_left _ (h.entered hold hclient' hrc)
  · rcases List.mem_append.mp he with hold | hnew
    · obtain ⟨d, hd, hdata, hrc⟩ := h.returned e hold
      have hne := hfresh e hold
      exact ⟨d, (List.getElem?_set_ne hne).trans hd, (List.getElem?_set_ne hne).trans hdata, hrc⟩
    · obtain rfl := List.mem_singleton.mp hnew
      exact ⟨_, getElem?_set_of_some hi, getElem?_set_of_some hclient, rfl⟩
  · rw [List.map_append, List.map_singleton, List.nodup_append]
    refine ⟨h.once, by simp, ?_⟩
    intro j hj k hk hjk
    obtain ⟨e, he, rfl⟩ := List.mem_map.mp hj
    rw [List.mem_singleton.mp hk] at hjk
    exact hfresh e he hjk.symm

/-! ## The steps of the engine -/

/-- Whoever holds the mutex while the engine runs waits for what it runs. -/
theorem Serial.owner {t : Transfer} (h : Serial dma b₀ b s) (ht : s.running = some t)
    (hi : s.calls.calls[i]? = some c) : c.holdsMutex = false ∨
      ∃ n, c.pc = .waitForCompletion n ∧ c.request.transfer dma = t := by
  simp only [State.running, Option.bind_eq_some_iff] at ht
  obtain ⟨n, hrunning, hlog⟩ := ht
  have hbusy : ¬ Dma.Quiet s.calls.shared := fun hquiet => by
    rw [hquiet.running] at hrunning
    cases hrunning
  obtain ⟨d, hd, u, hpc⟩ := h.tidy.waiting hbusy
  obtain ⟨j, hj⟩ := List.mem_iff_getElem?.mp hd
  obtain ⟨hawaits, hmine⟩ := h.tidy.waits d hd u hpc
  have hu : u = n := by
    cases hawaits with
    | running hat => exact Option.some.inj (hat.symm.trans hrunning)
    | pending hidle => rw [hidle] at hrunning; cases hrunning
    | signalled hidle => rw [hidle] at hrunning; cases hrunning
    | silent hidle => rw [hidle] at hrunning; cases hrunning
  subst hu
  by_cases hne : i = j
  · subst hne
    obtain rfl : c = d := Option.some.inj (hi.symm.trans hj)
    exact .inr ⟨u, hpc, Option.some.inj (hmine.symm.trans hlog)⟩
  · exact .inl (Dma.holds_alone h.tidy.books hj hi hne (Dma.Call.holdsMutex_of_waiting hpc))

/-- A step that neither the calls nor the clients see. -/
theorem Serial.background {s' : State} (h : Serial dma b₀ b s) (htidy : Tidy dma s'.calls)
    (hcalls : s'.calls.calls = s.calls.calls) (hmutex : s'.calls.shared.mutex = s.calls.shared.mutex)
    (hclients : s'.clients = s.clients) (hhistory : s'.history = s.history)
    (hboard : s.calls.shared.mutex = false → s'.board = s.board)
    (hstages : ∀ {i : Nat} {c : Dma.Call} {client : Client}, s.calls.calls[i]? = some c →
      s.clients[i]? = some client → Stage dma b s c client → Stage dma b s' c client) :
    Serial dma b₀ b s' where
  tidy := htidy
  length := by rw [hclients, hcalls, h.length]
  served := by rw [hhistory]; exact h.served
  free := fun hfree => by
    rw [hmutex] at hfree
    rw [hboard hfree, h.free hfree]
  stages := fun hi hclient => by
    rw [hcalls] at hi
    rw [hclients] at hclient
    exact hstages hi hclient (h.stages hi hclient)
  entered := fun hi hclient hrc => by
    rw [hcalls] at hi
    rw [hclients] at hclient
    rw [hhistory]
    exact h.entered hi hclient hrc
  returned := by rw [hcalls, hclients, hhistory]; exact h.returned
  once := by rw [hhistory]; exact h.once

/-- What a stage looks at. -/
theorem Stage.congr {s' : State} (h : Stage dma b s c client) (hboard : s'.board = s.board)
    (hdir : s'.dir = s.dir) (hmoved : s'.moved = s.moved)
    (hrunning : s'.calls.shared.engine.running = s.calls.shared.engine.running)
    (herror : s'.calls.shared.engine.error = s.calls.shared.engine.error) :
    Stage dma b s' c client := by
  have hat : AtEngine dma b s c.request client → AtEngine dma b s' c.request client :=
    fun h => ⟨h.toBegun, h.proceeds, hboard.trans h.board⟩
  have htransferring : Transferring dma b s c.request client →
      Transferring dma b s' c.request client := by
    rintro ⟨hbegun, hproceeds, haligned, hready, hd, hm, hb⟩
    exact ⟨hbegun, hproceeds, haligned, hready, hdir.trans hd, hmoved ▸ hm,
      hboard.trans (hmoved ▸ hb)⟩
  cases hpc : c.pc with
  | lock => exact stage_of_pc hpc (h.of_pc hpc)
  | copyFromUser =>
    obtain ⟨hbegun, hd, hb⟩ := h.of_pc hpc
    exact stage_of_pc hpc ⟨hbegun, hd, hboard.trans hb⟩
  | syncForDevice => exact stage_of_pc hpc (hat (h.of_pc hpc))
  | reinitCompletion => exact stage_of_pc hpc (hat (h.of_pc hpc))
  | checkAligned => exact stage_of_pc hpc (hat (h.of_pc hpc))
  | maybeReset =>
    obtain ⟨hengine, hrest⟩ := h.of_pc hpc
    exact stage_of_pc hpc ⟨hat hengine, hrest⟩
  | resetController =>
    obtain ⟨hengine, hrest⟩ := h.of_pc hpc
    exact stage_of_pc hpc ⟨hat hengine, hrest⟩
  | program =>
    obtain ⟨hengine, hrest⟩ := h.of_pc hpc
    exact stage_of_pc hpc ⟨hat hengine, hrest⟩
  | waitForCompletion t =>
    obtain ⟨htransfer, hall⟩ := h.of_pc hpc
    refine stage_of_pc hpc ⟨htransferring htransfer, fun hr he => ?_⟩
    exact hmoved.trans (hall (hrunning ▸ hr) (herror ▸ he))
  | checkStatus t =>
    obtain ⟨htransfer, hall⟩ := h.of_pc hpc
    exact stage_of_pc hpc ⟨htransferring htransfer, fun he => hmoved.trans (hall (herror ▸ he))⟩
  | copyToUser =>
    obtain ⟨hbegun, haligned, hsucceeds, hd, hpositive, hb⟩ := h.of_pc hpc
    exact stage_of_pc hpc ⟨hbegun, haligned, hsucceeds, hd, hpositive, hboard.trans hb⟩
  | unlock rc =>
    have hserve : serve dma b client = (⟨rc, client.data⟩, s.board) := h.of_pc hpc
    refine stage_of_pc hpc ?_
    show serve dma b client = _
    rw [hserve, hboard]
  | returned rc => exact stage_of_pc hpc trivial

/-- Nobody has the mutex only if nothing runs. -/
theorem Serial.held_of_running {t : Transfer} (h : Serial dma b₀ b s) (ht : s.running = some t) :
    s.calls.shared.mutex = true := by
  simp only [State.running, Option.bind_eq_some_iff] at ht
  obtain ⟨n, hrunning, -⟩ := ht
  have hbusy : ¬ Dma.Quiet s.calls.shared := fun hquiet => by
    rw [hquiet.running] at hrunning
    cases hrunning
  obtain ⟨d, hd, u, hpc⟩ := h.tidy.waiting hbusy
  obtain ⟨j, hj⟩ := List.mem_iff_getElem?.mp hd
  have hle := h.tidy.books.le hj
  rw [Dma.Call.holdsMutex_of_waiting hpc] at hle
  cases hmutex : s.calls.shared.mutex with
  | true => rfl
  | false => rw [hmutex] at hle; exact absurd hle (by decide)

theorem Serial.moveByte {t : Transfer} (h : Serial dma b₀ b s) (ht : s.running = some t)
    (hmore : s.moved < t.count.toNat) : Serial dma b₀ b
      { s with board := moveByte dma s.board s.dir t s.moved, moved := s.moved + 1 } := by
  refine h.background h.tidy rfl rfl rfl rfl (fun hfree => ?_) fun hi _ hstage => ?_
  · rw [h.held_of_running ht] at hfree
    cases hfree
  · rcases h.owner ht hi with hheld | ⟨n, hpc, rfl⟩
    · exact hstage.of_not_holds hheld
    · obtain ⟨⟨hbegun, hproceeds, haligned, hready, hdir, hmoved, hboard⟩, -⟩ := hstage.of_pc hpc
      refine stage_of_pc hpc ⟨⟨hbegun, hproceeds, haligned, hready, hdir, hmore, ?_⟩, ?_⟩
      · simp only
        rw [hboard, hdir]
        exact moveByte_partly ..
      · -- it still runs
        intro hidle
        simp only [State.running, Option.bind_eq_some_iff] at ht
        obtain ⟨n', hrunning, -⟩ := ht
        rw [show s.calls.shared.engine.running = none from hidle] at hrunning
        cases hrunning

theorem Serial.finish {ok : Bool} {t : Transfer} {engine : Engine} (h : Serial dma b₀ b s)
    (ht : s.running = some t) (hall : ¬ (ok && decide (s.moved < t.count.toNat)) = true)
    (hfinish : s.calls.shared.engine.finish ok = some engine) : Serial dma b₀ b
      { s with calls := { s.calls with shared := { s.calls.shared with engine } } } := by
  refine h.background (h.tidy.finish hfinish) rfl rfl rfl rfl (fun _ => rfl)
    fun hi _ hstage => ?_
  rcases h.owner ht hi with hheld | ⟨n, hpc, rfl⟩
  · exact hstage.of_not_holds hheld
  · obtain ⟨⟨hbegun, hproceeds, haligned, hready, hdir, hmoved, hboard⟩, -⟩ := hstage.of_pc hpc
    refine stage_of_pc hpc
      ⟨⟨hbegun, hproceeds, haligned, hready, hdir, hmoved, hboard⟩, fun _ herror => ?_⟩
    rw [Engine.finish, Option.map_eq_some_iff] at hfinish
    obtain ⟨u, -, rfl⟩ := hfinish
    -- it has ended well, and then everything had been moved
    cases ok with
    | true =>
      exact Nat.le_antisymm hmoved (Nat.not_lt.mp fun hmore => hall (decide_eq_true hmore))
    | false => simp at herror

/-! ## Every run -/

/-- A call that begins. -/
theorem Serial.concat {f : Nat} {request : Request} (h : Serial dma b₀ b s)
    (hbegun : Begun dma request client) : Serial dma b₀ b
      { s with
        calls := { s.calls with calls := s.calls.calls ++ [⟨f, request, .lock, none⟩] }
        clients := s.clients ++ [client] } := by
  refine ⟨h.tidy.concat, by simp [h.length], h.served, h.free, fun hi hclient => ?_,
    fun hi hclient hrc => ?_, fun e he => ?_, h.once⟩
  · rcases getElem?_concat_some hi with ⟨rfl, rfl⟩ | hold
    · rw [← h.length, List.getElem?_concat_length] at hclient
      obtain rfl := Option.some.inj hclient
      exact hbegun
    · have hlt : _ < s.clients.length := h.length ▸ (List.getElem?_eq_some_iff.mp hold).1
      rw [List.getElem?_append_left hlt] at hclient
      exact (h.stages hold hclient).congr rfl rfl rfl rfl rfl
  · rcases getElem?_concat_some hi with ⟨rfl, rfl⟩ | hold
    · cases hrc
    · have hlt : _ < s.clients.length := h.length ▸ (List.getElem?_eq_some_iff.mp hold).1
      rw [List.getElem?_append_left hlt] at hclient
      exact h.entered hold hclient hrc
  · obtain ⟨d, hd, hdata, hrc⟩ := h.returned e he
    refine ⟨d, ?_, ?_, hrc⟩
    · rw [List.getElem?_append_left (List.getElem?_eq_some_iff.mp hd).1, hd]
    · rw [List.getElem?_append_left (List.getElem?_eq_some_iff.mp hdata).1, hdata]

theorem enter_concat (s : State) (d : Dma.Call) (client : Client) :
    s.enter { s.calls with calls := s.calls.calls ++ [d] } client = { s with
      calls := { s.calls with calls := s.calls.calls ++ [d] }, clients := s.clients ++ [client] } := by
  rw [State.enter, if_neg (by simp)]

theorem serial_step {action : Action} (h : Serial dma b₀ b s) (hkill : NoKill s action)
    (hstep : step dma s action = some s') : ∃ b', Serial dma b₀ b' s' := by
  cases action with
  | openFile context =>
    simp only [step, Option.map_eq_some_iff] at hstep
    obtain ⟨calls, hcalls, rfl⟩ := hstep
    have htidy := Dma.tidy_step (a := .openFile context) h.tidy trivial hcalls
    cases Dma.moved_of_step hcalls with
    | openFile => exact ⟨b, h.background htidy rfl rfl rfl rfl (fun _ => rfl)
        fun _ _ hstage => hstage.congr rfl rfl rfl rfl rfl⟩
    | refused hstart => exact ⟨b, h⟩
  | release f =>
    simp only [step, Option.map_eq_some_iff] at hstep
    obtain ⟨calls, hcalls, rfl⟩ := hstep
    have htidy := Dma.tidy_step (a := .release f) h.tidy trivial hcalls
    cases Dma.moved_of_step hcalls with
    | release => exact ⟨b, h.background htidy rfl rfl rfl rfl (fun _ => rfl)
        fun _ _ hstage => hstage.congr rfl rfl rfl rfl rfl⟩
    | refused hstart => exact ⟨b, h⟩
  | terminate =>
    simp only [step, Option.map_eq_some_iff] at hstep
    obtain ⟨calls, hcalls, rfl⟩ := hstep
    have htidy := Dma.tidy_step (a := .terminate) h.tidy trivial hcalls
    cases Dma.moved_of_step hcalls with
    | detach => exact ⟨b, h.background htidy rfl rfl rfl rfl (fun _ => rfl)
        fun _ _ hstage => hstage.congr rfl rfl rfl rfl rfl⟩
    | teardown => exact ⟨b, h.background htidy rfl rfl rfl rfl (fun _ => rfl)
        fun _ _ hstage => hstage.congr rfl rfl rfl rfl rfl⟩
    | refused hstart => exact ⟨b, h⟩
  | dmaInterrupt k =>
    simp only [step, Option.map_eq_some_iff] at hstep
    obtain ⟨calls, hcalls, rfl⟩ := hstep
    have htidy := Dma.tidy_step (a := .dmaInterrupt k) h.tidy trivial hcalls
    cases Dma.moved_of_step hcalls with
    | dmaInterrupt => exact ⟨b, h.background htidy rfl rfl rfl rfl (fun _ => rfl)
        fun _ _ hstage => hstage.congr rfl rfl rfl rfl rfl⟩
    | refused hstart => exact ⟨b, h⟩
  | read f offset count =>
    simp only [step, Option.bind_eq_some_iff, Option.map_eq_some_iff] at hstep
    obtain ⟨file, hf, calls, hcalls, rfl⟩ := hstep
    simp only [Dma.step] at hcalls
    rcases Dma.begin_cases hcalls with rfl | ⟨file', r, hf', -, hr, rfl⟩
    · exact ⟨b, by simpa [State.enter] using h⟩
    · obtain rfl : file = file' := Option.some.inj (hf.symm.trans hf')
      rw [enter_concat]
      exact ⟨b, h.concat ⟨hr, rfl, rfl, rfl⟩⟩
  | write f offset buf count =>
    simp only [step, Option.bind_eq_some_iff, Option.map_eq_some_iff] at hstep
    obtain ⟨file, hf, calls, hcalls, rfl⟩ := hstep
    simp only [Dma.step] at hcalls
    rcases Dma.begin_cases hcalls with rfl | ⟨file', r, hf', -, hr, rfl⟩
    · exact ⟨b, by simpa [State.enter] using h⟩
    · obtain rfl : file = file' := Option.some.inj (hf.symm.trans hf')
      rw [enter_concat]
      exact ⟨b, h.concat ⟨hr, rfl, rfl, rfl⟩⟩
  | call i a =>
    simp only [step, Option.bind_eq_some_iff, Option.map_eq_some_iff] at hstep
    obtain ⟨c, hi, client, hclient, calls, hcalls, rfl⟩ := hstep
    simp only [Dma.step, hi, Option.bind_some, Option.map_eq_some_iff] at hcalls
    obtain ⟨⟨sh', c'⟩, hcall, rfl⟩ := hcalls
    have hnot : a ≠ .kill := by
      rintro rfl
      exact hkill
    by_cases hunlock : ∃ rc, c.pc = .unlock rc
    · obtain ⟨rc, hpc⟩ := hunlock
      exact ⟨s.board, h.unlock hi hclient hpc hcall hnot⟩
    · exact ⟨b, h.proceed hi hclient hnot (not_exists.mp hunlock) hcall⟩
  | moveByte =>
    simp only [step, Option.bind_eq_some_iff] at hstep
    obtain ⟨t, ht, hstep⟩ := hstep
    split at hstep
    · rename_i hmore
      cases hstep
      exact ⟨b, h.moveByte ht hmore⟩
    · cases hstep
  | engine ok =>
    simp only [step, Option.bind_eq_some_iff] at hstep
    obtain ⟨t, ht, hstep⟩ := hstep
    split at hstep
    · cases hstep
    · rename_i hall
      simp only [Dma.step, Option.map_eq_some_iff] at hstep
      obtain ⟨calls, ⟨engine, hfinish, rfl⟩, rfl⟩ := hstep
      exact ⟨b, h.finish ht hall hfinish⟩

theorem serial_run {as : List Action} (h : Exec (step dma) NoKill (initial b₀) as s) :
    ∃ b, Serial dma b₀ b s :=
  h.invariant (I := fun s => ∃ b, Serial dma b₀ b s)
    (fun ⟨_, hs⟩ hok hstep => serial_step hs hok hstep) ⟨b₀, serial_initial b₀⟩

theorem callEffect_prefix (dma : DmaControl) (s : State) (i : Nat) (c : Dma.Call) (client : Client)
    (a : CallAction) : s.history <+: (callEffect dma s i c client a).1.history := by
  by_cases hunlock : ∃ rc, c.pc = .unlock rc
  · obtain ⟨rc, hpc⟩ := hunlock
    cases c
    cases hpc
    cases a with
    | proceed => exact List.prefix_append _ _
    | _ => exact List.prefix_rfl
  · exact (callEffect_history (not_exists.mp hunlock)).symm ▸ List.prefix_rfl

theorem enter_history (s : State) (calls : Dma.State) (client : Client) :
    (s.enter calls client).history = s.history := by
  rw [State.enter]
  split <;> rfl

/-- What is in the history stays where it is. -/
theorem history_prefix_step {action : Action} (hstep : step dma s action = some s') :
    s.history <+: s'.history := by
  cases action with
  | read f offset count =>
    simp only [step, Option.bind_eq_some_iff, Option.map_eq_some_iff] at hstep
    obtain ⟨file, -, calls, -, rfl⟩ := hstep
    exact (enter_history ..).symm ▸ List.prefix_rfl
  | write f offset buf count =>
    simp only [step, Option.bind_eq_some_iff, Option.map_eq_some_iff] at hstep
    obtain ⟨file, -, calls, -, rfl⟩ := hstep
    exact (enter_history ..).symm ▸ List.prefix_rfl
  | call i a =>
    simp only [step, Option.bind_eq_some_iff, Option.map_eq_some_iff] at hstep
    obtain ⟨c, -, client, -, calls, -, rfl⟩ := hstep
    exact callEffect_prefix dma s i c client a
  | moveByte =>
    simp only [step, Option.bind_eq_some_iff] at hstep
    obtain ⟨t, -, hstep⟩ := hstep
    split at hstep
    · cases hstep; exact List.prefix_rfl
    · cases hstep
  | engine ok =>
    simp only [step, Option.bind_eq_some_iff] at hstep
    obtain ⟨t, -, hstep⟩ := hstep
    split at hstep
    · cases hstep
    · simp only [Option.map_eq_some_iff] at hstep
      obtain ⟨calls, -, rfl⟩ := hstep
      exact List.prefix_rfl
  | _ =>
    simp only [step, Option.map_eq_some_iff] at hstep
    obtain ⟨calls, -, rfl⟩ := hstep
    exact List.prefix_rfl

theorem history_prefix {ok : State → Action → Prop} {as : List Action}
    (h : Exec (step dma) ok s as s') : s.history <+: s'.history :=
  h.invariant (I := fun t => s.history <+: t.history)
    (fun hpre _ hstep => hpre.trans (history_prefix_step hstep)) List.prefix_rfl

/-- The history holds exactly the calls that have returned. -/
theorem Serial.mem_history_iff {rc : Int} (h : Serial dma b₀ b s)
    (hi : s.calls.calls[i]? = some c) (hclient : s.clients[i]? = some client) :
    ⟨i, client, rc⟩ ∈ s.history ↔ c.pc = .returned rc := by
  refine ⟨fun he => ?_, h.entered hi hclient⟩
  obtain ⟨d, hd, -, hrc⟩ := h.returned _ he
  obtain rfl : c = d := Option.some.inj (hi.symm.trans hd)
  exact hrc

/-- From the wait to the unlock. -/
def endTransfer (i n : Nat) : List Action :=
  List.replicate n .moveByte ++ [.engine true, .dmaInterrupt 0, .call i .proceed, .call i .proceed]

/-- A read is queued behind a write of the same four bytes, and the write is half done. -/
def overlapping : List Action :=
  [.openFile ⟨256, 128⟩, .write 0 0 (fun _ => 7) 4, .call 0 .proceed, .read 0 0 4,
    .call 0 (.copied 0)] ++ List.replicate 5 (.call 0 .proceed) ++ endTransfer 0 4 ++
    [.call 0 .proceed] ++ List.replicate 6 (.call 1 .proceed) ++ endTransfer 1 4 ++
    [.call 1 (.copied 0), .call 1 .proceed]

def blank : Board := ⟨fun _ => 0, fun _ => 0, []⟩

theorem overlapping_replies :
    (run (step Dma.smallDma) (initial blank) overlapping).map (fun s => s.history.map Entry.reply)
      = some [⟨4, []⟩, ⟨4, [7, 7, 7, 7]⟩] := by
  decide +kernel

end DmaShared
end AmcPci
