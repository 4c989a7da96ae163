import AmcPci.Dma
import AmcPci.DmaCall

/-!
# DMA calls side by side, with the bytes they move

`AmcPci.Dma` interleaves the calls of any number of clients and leaves the bytes out;
`AmcPci.DmaCall` has the bytes of a call, and no other call next to it. Here the calls of the first
move the bytes of the second: a step is a step of `AmcPci.Dma`, with what it does to the buffer and
to the user's memory. The engine moves its bytes one at a time, whatever happens in between.

The clients' requests and replies are kept beside the calls, and a call that gives up the lock is
entered in a history.
-/

namespace AmcPci
namespace DmaShared

open Lib
open Dma (CallAction Engine)
open DmaCall (Answers)
open DmaFile (Board Handle Reply)

/-- What one call was made with, and what has come of it. -/
structure Client where
  handle : Handle
  call : DmaCall.Call
  /-- What has been copied to the user. -/
  data : List UInt8
  /-- For the proofs only: what the user's memory and the engine have answered the call so far. -/
  answers : Answers

/-- A call that has given up the lock. -/
structure Entry where
  index : Nat
  client : Client
  rc : Int

/-- The device and its callers, with the bytes. -/
structure State where
  calls : Dma.State
  board : Board
  /-- Which way the transfer goes that was started last. -/
  dir : DmaDirection
  /-- How many bytes of it have been moved. -/
  moved : Nat
  /-- One for each of `calls.calls`. -/
  clients : List Client
  /-- For the proofs only: the calls in the order in which they gave up the lock. -/
  history : List Entry

/-- What happens on the device, one step at a time. -/
inductive Action
  | openFile (context : MemoryContext)
  | release (f : Nat)
  | read (f : Nat) (offset count : Size)
  | write (f : Nat) (offset : Size) (buf : Nat → UInt8) (count : Size)
  | call (i : Nat) (action : CallAction)
  /-- The engine moves the next byte. -/
  | moveByte
  | engine (ok : Bool)
  | dmaInterrupt (k : Nat)
  | terminate

/-- After a successful probe, with the bytes as they are. -/
def initial (b : Board) : State := ⟨Dma.initial, b, .toDevice, 0, [], []⟩

/-- Nothing has been answered yet, and nothing has gone wrong. -/
def unanswered : Answers :=
  ⟨0, DmaCall.cdmasrIdle, [], 0, false, DmaCall.cdmasrIdle, (fun _ => 0, fun _ => 0)⟩

/-- `cdmasr` as the driver reads it. -/
def cdmasr (e : Engine) : BitVec 32 :=
  (if e.error then DmaCall.cdmasrDMAIntErr else 0) |||
    (if e.running.isNone then DmaCall.cdmasrIdle else 0)

/-- What `copy_from_user` reads from. -/
def Client.buf (client : Client) : Nat → UInt8 :=
  match client.call with
  | .read _ => fun _ => 0
  | .write buf _ => buf

/-- What a step of a call does to the bytes, and what it is answered. -/
def callEffect (dma : DmaControl) (s : State) (i : Nat) (c : Dma.Call) (client : Client)
    (action : CallAction) : State × Client :=
  let a := client.answers
  match c.pc, action with
  | .copyFromUser, .copied left =>
    let a := { a with left := left.toNat }
    let (_, d) := DmaCall.copyFromUser a ⟨s.board, []⟩ client.buf c.request.count
    ({ s with board := d.board }, { client with answers := a })
  | .maybeReset, .proceed =>
    (s, { client with answers := { a with status := cdmasr s.calls.shared.engine } })
  | .resetController, .reset ok _ =>
    let resetStat := if ok then 0 else DmaCall.cdmacrReset
    (s, { client with answers := { a with resetStat } })
  | .program, .proceed => ({ s with dir := c.request.dir, moved := 0 }, client)
  | .waitForCompletion _, .kill => (s, { client with answers := { a with killed := true } })
  | .checkStatus _, .proceed =>
    let doneStatus := cdmasr s.calls.shared.engine
    let wreck := (s.board.memory, s.board.buffer)
    (s, { client with answers := { a with doneStatus, wreck } })
  | .copyToUser, .copied left =>
    let a := { a with left := left.toNat }
    let count := userCount c.request (clipCount dma c.request.dmaCount)
    let (_, data) := DmaCall.copyToUser a ⟨s.board, []⟩ c.request.inOffset count
    (s, { client with data, answers := a })
  | .unlock rc, .proceed => ({ s with history := s.history ++ [⟨i, client, rc⟩] }, client)
  | _, _ => (s, client)

/-- The transfer the engine is at. -/
def State.running (s : State) : Option Transfer :=
  s.calls.shared.engine.running.bind fun t => s.calls.shared.engine.log[t]?

/-- Byte `k` of a transfer. -/
def moveByte (dma : DmaControl) (b : Board) (dir : DmaDirection) (t : Transfer) (k : Nat) : Board :=
  match dir with
  | .toDevice =>
    let byte := b.buffer ((t.src - dma.bufferDma).toNat + k)
    { b with memory := Function.update b.memory (t.dst.toNat + k) byte }
  | .fromDevice =>
    let byte := b.memory (t.src.toNat + k)
    { b with buffer := Function.update b.buffer ((t.dst - dma.bufferDma).toNat + k) byte }

/-- The calls have gone on, perhaps with a new one. -/
def State.enter (s : State) (calls : Dma.State) (client : Client) : State :=
  if calls.calls.length = s.calls.calls.length then { s with calls }
  else { s with calls, clients := s.clients ++ [client] }

/-- One step of the device; `none` if it cannot be taken there. -/
def step (dma : DmaControl) (s : State) : Action → Option State
  | .openFile context =>
    (Dma.step dma s.calls (.openFile context)).map fun calls => { s with calls }
  | .release f => (Dma.step dma s.calls (.release f)).map fun calls => { s with calls }
  | .read f offset count =>
    s.calls.files[f]?.bind fun file =>
      (Dma.step dma s.calls (.read f offset count)).map fun calls =>
        s.enter calls ⟨⟨file.context, offset⟩, .read count, [], unanswered⟩
  | .write f offset buf count =>
    s.calls.files[f]?.bind fun file =>
      (Dma.step dma s.calls (.write f offset count)).map fun calls =>
        s.enter calls ⟨⟨file.context, offset⟩, .write buf count, [], unanswered⟩
  | .call i action =>
    s.calls.calls[i]?.bind fun c =>
      s.clients[i]?.bind fun client =>
        (Dma.step dma s.calls (.call i action)).map fun calls =>
          let (s', client') := callEffect dma s i c client action
          { s' with calls, clients := s.clients.set i client' }
  | .moveByte =>
    s.running.bind fun t =>
      if s.moved < t.count.toNat then
        some { s with board := moveByte dma s.board s.dir t s.moved, moved := s.moved + 1 }
      else none
  | .engine ok =>
    s.running.bind fun t =>
      -- a transfer that ends well has moved everything
      if ok && s.moved < t.count.toNat then none
      else (Dma.step dma s.calls (.engine ok)).map fun calls => { s with calls }
  | .dmaInterrupt k => (Dma.step dma s.calls (.dmaInterrupt k)).map fun calls => { s with calls }
  | .terminate => (Dma.step dma s.calls .terminate).map fun calls => { s with calls }

/-! ## The same calls one after the other -/

/-- A call by itself, on the board as it is and with the answers it is given. -/
def serve (dma : DmaControl) (b : Board) (client : Client) : Reply × Board :=
  let (reply, d, _) := client.call.perform dma client.answers ⟨b, []⟩ client.handle
  (reply, d.board)

/-- What a call has returned and copied to the user. -/
def Entry.reply (e : Entry) : Reply := ⟨e.rc, e.client.data⟩

end DmaShared
end AmcPci
