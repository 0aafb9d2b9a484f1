import Crack.Lang.Buffers
import Mathlib.Data.List.Infix

/-!
# Connections

A connection of `comm2` that a poller calls back and that gets messages through the queue
of the poller thread. The socket, the user handler and the threads that post messages may
do anything at any time.
-/
namespace Crack
namespace Comm

/-- Events by name. -/
structure Events where
  pollin : Bool := false
  pollout : Bool := false
  pollerr : Bool := false
  pollhup : Bool := false
  deriving DecidableEq, Repr

/-- What happens in a call of the connection. -/
structure PollEvent where
  /-- The events of the pollable. -/
  revents : Events := {}
  /-- What `read` returns, unless it throws. -/
  read : Option (List UInt8) := none
  /-- What `send` returns, an `int`, unless it fails. -/
  send : Option (Fin (2 ^ 31)) := none
  /-- What the user handler leaves of the input. -/
  process : ManagedBuffer → { inBuf : ManagedBuffer // inBuf.size ≤ inBuf.cap } := fun _ => ⟨.init 0, Nat.le_refl _⟩

structure Connection where
  /-- `__sock`, by its address. -/
  sock : Option Nat := none
  close : Bool := false
  /-- Whether there is a control channel. -/
  out : Bool := false
  owner : Option Nat := none
  processAllEvents : Bool := false
  inBuf : ManagedBuffer
  outBuf : ManagedBuffer
  deriving DecidableEq, Repr

def Connection.isClosed (conn : Connection) : Bool := conn.close && conn.sock.isNone

/-- The messages for the connection; there are others in the queue. -/
inductive Message where
  | sendData (data : List UInt8)
  | sendSync (data : List UInt8) (waiter : Nat)
  | stopClient
  /-- A `_NewClient` for the connection, whose socket can be connected. -/
  | newClient (sock : Nat)
  | other
  deriving DecidableEq, Repr

/-- A connection with its poller and its queue, and what it has done so far. -/
structure World where
  conn : Connection
  /-- The pollables of the poller. -/
  pollables : List Nat
  /-- The pollables for which the poller calls the connection back. -/
  callbacks : List Nat := []
  queue : List Message := []
  /-- The data of the messages that were run. -/
  ran : List UInt8 := []
  /-- The bytes that were given to the socket. -/
  sent : List UInt8 := []
  /-- The calls of `read`, `process` and `terminate`. -/
  reads : Nat := 0
  processed : Nat := 0
  terminated : Nat := 0
  responders : List Nat := []
  deriving DecidableEq, Repr

namespace World

/-- A new connection, which the poller doesn't have. -/
def init (blockSize : Nat) (pollables : List Nat) (owner : Option Nat) (processAllEvents : Bool) : World :=
  { conn := { owner, processAllEvents, inBuf := .init blockSize, outBuf := .init blockSize }, pollables }

/-- `Poller.add` -/
def pollerAdd (w : World) (p : Nat) : Except Stop World :=
  if p ∈ w.pollables then .error (.thrown "File descriptor is already managed by this poller.")
  else .ok { w with pollables := w.pollables ++ [p] }

/-- `Poller.remove` -/
def pollerRemove (w : World) (p : Nat) : Except Stop World :=
  if p ∈ w.pollables then .ok { w with pollables := w.pollables.erase p, callbacks := w.callbacks.erase p }
  else .error (.thrown "File handle is not in the set")

def removeFrom (w : World) : World :=
  let w := { w with conn := { w.conn with close := true } }
  match w.conn.sock with
  | none => w
  | some sock =>
    -- that the socket is not in the poller is only logged
    let w := match w.pollerRemove sock with
      | .ok w => w
      | .error _ => w
    { w with conn := { w.conn with sock := none }, terminated := w.terminated + 1 }

/-- The input of a call. The connection goes on if there is any. -/
def readInput (w : World) (e : PollEvent) : Except Stop (World × Bool) :=
  if e.revents.pollin then
    let w := { w with reads := w.reads + 1 }
    match e.read with
    | some (b :: data) => do
      let inBuf ← w.conn.inBuf.extend (b :: data)
      return ({ w with conn := { w.conn with inBuf } }, true)
    | _ => .ok (w, false)
  else .ok (w, true)

/-- The output of a call; `send` takes a part of the buffer, unless it fails. -/
def sendOutput (w : World) (e : PollEvent) : Except Stop (World × Bool) :=
  if e.revents.pollout then
    match e.send with
    | some rc => do
      let rc := min rc.val w.conn.outBuf.size
      let outBuf ← w.conn.outBuf.compact rc
      return ({ w with sent := w.sent ++ w.conn.outBuf.data.take rc, conn := { w.conn with outBuf } }, true)
    | none => .ok (w, false)
  else .ok (w, true)

/-- `userHandler.process` -/
def process (w : World) (e : PollEvent) : World :=
  { w with processed := w.processed + 1, conn := { w.conn with inBuf := e.process w.conn.inBuf } }

/-- The events that the connection waits for. -/
def mask (w : World) : Events := { pollin := true, pollerr := true, pollhup := true, pollout := w.conn.outBuf.size ≠ 0 }

/-- The end of `oper call`, behind the input and the output. -/
def finishCall (w : World) (e : PollEvent) : Events × World :=
  if e.revents.pollerr then ({}, w.removeFrom)
  else if e.revents.pollhup then ({}, w.removeFrom)
  else if e.revents.pollin || w.conn.processAllEvents then
    let w := w.process e
    if w.conn.close then ({}, w.removeFrom) else (w.mask, w)
  else (w.mask, w)

/-- `oper call` with the pollable of the event. -/
def call (w : World) (pollable : Nat) (e : PollEvent) : Except Stop (Events × World) :=
  let w := if w.conn.sock = none then { w with conn := { w.conn with sock := some pollable } } else w
  if w.conn.close then .ok ({}, w.removeFrom)
  else do
    let (w, ok) ← w.readInput e
    if !ok then return ({}, w.removeFrom)
    else
      let (w, ok) ← w.sendOutput e
      if !ok then return ({}, w.removeFrom) else return w.finishCall e

/-- `Poller.add` with the connection for a callback, which is called once without events. The pollable may be
refused then. -/
def addTo (w : World) (p : Nat) (e : PollEvent) : Except Stop (World × Bool) := do
  let (_, w) ← w.call p { e with revents := {} }
  match w.pollerAdd p with
  | .ok w => return ({ w with callbacks := w.callbacks ++ [p] }, true)
  | .error _ => return (w, false)

/-- `_NewClient.__run` with a socket that is connected. -/
def newClient (w : World) (sock : Nat) (e : PollEvent) : Except Stop World := do
  let (w, _) ← { w with conn := { w.conn with out := true } }.addTo sock e
  return w

/-- What a listener does with the connection for a socket that it accepts. -/
def accept (w : World) (sock : Nat) (e : PollEvent) : Except Stop World :=
  let w := { w with conn := { w.conn with out := true } }
  if w.conn.isClosed then .ok w
  else do
    let (w, ok) ← w.addTo sock e
    if ok then return w else .error (.thrown "File descriptor is already managed by this poller.")

/-- `run` of a message; a new client is called by the poller. -/
def runMessage (w : World) (e : PollEvent) : Message → Except Stop World
  | .sendData data => do
    let outBuf ← w.conn.outBuf.extend data
    return { w with ran := w.ran ++ data, conn := { w.conn with outBuf } }
  | .sendSync data waiter => do
    let outBuf ← w.conn.outBuf.extend data
    return { w with responders := w.responders ++ [waiter], ran := w.ran ++ data, conn := { w.conn with outBuf } }
  | .stopClient => .ok w.removeFrom
  | .newClient sock => w.newClient sock e
  | .other => .ok w

/-- A thread puts a message into the queue. `write` and `sendSync` use the control channel of the connection. -/
def post (w : World) (m : Message) : Except Stop World :=
  match m with
  | .sendData _ => if w.conn.out then .ok { w with queue := w.queue ++ [m] } else .error .wildAccess
  | .sendSync _ _ => if w.conn.out then .ok { w with queue := w.queue ++ [m] } else .ok w
  | _ => .ok { w with queue := w.queue ++ [m] }

/-- `Connection.close`: the message is for the owner, if there is one. -/
def closeRequest (w : World) : Except Stop World :=
  if w.conn.out then
    .ok { w with
      queue := w.queue ++ [if w.conn.owner = none then .stopClient else .other]
      conn := { w.conn with owner := none } }
  else .error .wildAccess

end World

/-- What may happen at any time. The queue is run by the poller thread, message by message. -/
inductive Step where
  | poll (p : Nat) (e : PollEvent)
  | post (m : Message)
  | close
  | message (e : PollEvent)
  | accept (sock : Nat) (e : PollEvent)
  /-- A connection with a control channel is associated with this one. -/
  | associate
  | addOther (p : Nat)
  | removeOther (p : Nat)

namespace World

/-- A pollable for which the poller doesn't have the connection is left to others. -/
def step (w : World) : Step → Except Stop World
  | .poll p e => do
    if p ∈ w.callbacks then
      let (_, w) ← w.call p e
      return w
    else return w
  | .post m => w.post m
  | .close => w.closeRequest
  | .message e =>
    match w.queue with
    | [] => .ok w
    | m :: queue => { w with queue }.runMessage e m
  | .accept sock e => w.accept sock e
  | .associate => .ok { w with conn := { w.conn with out := true } }
  | .addOther p =>
    match w.pollerAdd p with
    | .ok w => .ok w
    | .error _ => .ok w
  | .removeOther p =>
    if p ∈ w.callbacks then .ok w
    else match w.pollerRemove p with
      | .ok w => .ok w
      | .error _ => .ok w

def run (w : World) (steps : List Step) : Except Stop World := steps.foldlM step w

end World
end Comm
end Crack
