import Crack.Cont.TreeMapConstraints

/-!
# EventManager

Time values in nanoseconds and the loop of `EventManager.run`. The callbacks, the
poller and the clock are given by a world, which answers every call from the calls
made so far.
-/
namespace Crack

open TreeMap (heavycmp)

def uint64 (i : Int) : Nat := (i % 2 ^ 64).toNat

/-- `BILLION` -/
def billion : Nat := 1000000000

structure TimeVal where
  secs : BitVec 32
  nsecs : BitVec 32
  deriving DecidableEq, Repr

namespace TimeVal

def toNanos (t : TimeVal) : Nat := uint64 (uint64 (uint64 t.secs.toInt * billion) + uint64 t.nsecs.toInt)

def fromNanos (nanos : Nat) : TimeVal := ⟨.ofNat 32 (nanos / billion), .ofNat 32 (nanos % billion)⟩

end TimeVal

/-- What code that `run` calls can do to the manager. -/
inductive Action (κ : Type) where
  | scheduleEvent (time : TimeVal) (callback : κ)
  | terminate
  deriving DecidableEq, Repr

/-- The schedule maps times to arrays of callbacks, which are objects of their own. -/
structure EventManager (κ : Type) where
  schedule : TreeMap Nat Nat
  arrays : Nat → List κ
  fresh : Nat
  done : Bool

namespace EventManager

variable {κ : Type}

def init : EventManager κ := ⟨TreeMap.init, fun _ => [], 0, false⟩

/-- An array is true if it has elements. -/
def scheduleEvent (m : EventManager κ) (time : TimeVal) (callback : κ) : Except Fault (EventManager κ) := do
  let t := time.toNanos
  match (← m.schedule.get heavycmp t).filter fun events => !(m.arrays events).isEmpty with
  | some events => return { m with arrays := Function.update m.arrays events (m.arrays events ++ [callback]) }
  | none =>
    let schedule ← m.schedule.store heavycmp t m.fresh
    return { m with schedule, arrays := Function.update m.arrays m.fresh [callback], fresh := m.fresh + 1 }

def terminate (m : EventManager κ) : EventManager κ := { m with done := true }

def perform (m : EventManager κ) : Action κ → Except Fault (EventManager κ)
  | .scheduleEvent time callback => m.scheduleEvent time callback
  | .terminate => .ok m.terminate

def performAll (m : EventManager κ) (acts : List (Action κ)) : Except Fault (EventManager κ) := acts.foldlM perform m

/-- `__schedule.iter().elem()`, its key and its value -/
def nextEvent (m : EventManager κ) : Except Fault (Nat × Nat) := do
  let node ← deref (← m.schedule.iterElem)
  return (← deref (m.schedule.key node), ← deref (m.schedule.val node))

/-- The time of the next event if there is one. -/
def firstTime (m : EventManager κ) : Except Fault Nat := do
  if m.schedule.isTrue then return (← m.nextEvent).1 else return 0

end EventManager

/-- What `run` calls: the poller with a timeout, after which the clock is read, or a
callback for the time of its event. -/
inductive Call (κ : Type) where
  | waitAndProcess (timeout : Option TimeVal) (acts : List (Action κ)) (clock : TimeVal)
  | callback (time : Nat) (callback : κ) (acts : List (Action κ))
  deriving DecidableEq, Repr

structure World (κ : Type) where
  poll : List (Call κ) → Option TimeVal → List (Action κ) × TimeVal
  call : List (Call κ) → Nat → κ → List (Action κ)

/-- The places of `run` from which it goes on. -/
inductive Point where
  /-- `while (!__done)` -/
  | test
  /-- `while (__schedule)` -/
  | drain
  /-- `for (callback :in nextEvent.val)` -/
  | iterate (events index : Nat)
  | returned
  | thrown (e : Exc)
  deriving DecidableEq, Repr

structure Run (κ : Type) where
  manager : EventManager κ
  now : Nat
  nextTime : Nat
  point : Point
  calls : List (Call κ)

namespace Run

variable {κ : Type}

def start (manager : EventManager κ) (clock : TimeVal) : Except Fault (Run κ) := do
  return { manager, now := clock.toNanos, nextTime := ← manager.firstTime, point := .test, calls := [] }

/-- The argument of `waitAndProcess` -/
def timeout (r : Run κ) : Option TimeVal :=
  if r.nextTime ≠ 0 then some (.fromNanos (uint64 ((r.nextTime : Int) - r.now))) else none

def poll (w : World κ) (r : Run κ) : Except Fault (Run κ) := do
  let (acts, clock) := w.poll r.calls r.timeout
  let manager ← r.manager.performAll acts
  return { r with manager, now := clock.toNanos, point := .drain
                  calls := r.calls ++ [.waitAndProcess r.timeout acts clock] }

/-- Get the next scheduled event, and run it if we are at or past its time. -/
def drain (r : Run κ) : Except Fault (Run κ) := do
  let (key, val) ← r.manager.nextEvent
  return { r with nextTime := key, point := if key ≤ r.now then .iterate val 0 else .test }

def call (w : World κ) (r : Run κ) (events index : Nat) (callback : κ) : Except Fault (Run κ) := do
  let acts := w.call r.calls r.nextTime callback
  let manager ← r.manager.performAll acts
  return { r with manager, point := .iterate events (index + 1), calls := r.calls ++ [.callback r.nextTime callback acts] }

/-- Delete the event that has run and set the next time. -/
def forget (r : Run κ) : Except Fault (Run κ) := do
  match ← r.manager.schedule.delete heavycmp r.nextTime with
  | (schedule, .ok ()) =>
    let manager := { r.manager with schedule }
    return { r with manager, nextTime := ← manager.firstTime, point := .drain }
  | (schedule, .error e) => return { r with manager := { r.manager with schedule }, point := .thrown e }

def step (w : World κ) (r : Run κ) : Except Fault (Run κ) :=
  match r.point with
  | .test => if r.manager.done then .ok { r with point := .returned } else r.poll w
  | .drain => if r.manager.schedule.isTrue then r.drain else .ok { r with point := .test }
  | .iterate events index =>
    match (r.manager.arrays events)[index]? with
    | some callback => r.call w events index callback
    | none => r.forget
  | .returned | .thrown _ => .ok r

def steps (w : World κ) : Nat → Run κ → Except Fault (Run κ)
  | 0, r => .ok r
  | n + 1, r => do steps w n (← r.step w)

end Run

/-- `n` steps of `run` on a manager with which the actions have been done. -/
def EventManager.run {κ : Type} (w : World κ) (acts : List (Action κ)) (clock : TimeVal) (n : Nat) : Except Fault (Run κ) := do
  let manager ← EventManager.init.performAll acts
  (← Run.start manager clock).steps w n

end Crack
