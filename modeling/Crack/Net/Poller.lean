import Mathlib.Data.List.Basic
import Mathlib.Tactic.Common

/-!
# The poller

File handles and, next to them, the array of `pollfd` that `poll` works on. Callbacks may
call the poller again; what a callback does in a call, and what it returns or whether it
throws, is up to the program.
-/
namespace Crack

/-- `struct pollfd`, where a mask of events is a `short` -/
structure PollFd where
  fd : Int
  events : BitVec 16
  revents : BitVec 16
  deriving DecidableEq, Repr

/-- What the poller does outside its memory. -/
inductive PollFault where
  | wildAccess
  deriving DecidableEq, Repr

inductive PollError where
  | invalidArgument (text : String)
  | exception (text : String)
  | indexError
  | callback
  deriving DecidableEq, Repr

namespace PollSet

def create (size : Nat) : List PollFd := List.replicate size ⟨0, 0, 0⟩

def set (set : List PollFd) (index : Nat) (fd : Int) (events revents : BitVec 32) : Except PollFault (List PollFd) :=
  if index < set.length then .ok (set.set index ⟨fd, events.setWidth 16, revents.setWidth 16⟩)
  else .error .wildAccess

/-- The index of the next of `count` entries that has an event. -/
def next (set : List PollFd) (index : Nat) : (count : Nat) → Except PollFault (Option Nat)
  | 0 => .ok none
  | count + 1 =>
    match set[index]? with
    | none => .error .wildAccess
    | some elem => if elem.revents ≠ 0 then .ok (some index) else next set (index + 1) count

/-- `memmove`, so that the last entry stays where it is, too. -/
def delete (set : List PollFd) (size index : Nat) : Except PollFault (List PollFd) :=
  if index < size ∧ size ≤ set.length then
    .ok (set.take index ++ (set.drop (index + 1)).take (size - index - 1) ++ set.drop (size - 1))
  else .error .wildAccess

/-- What `poll` finds, for the first `nfds` entries. -/
def poll (set : List PollFd) (nfds : Nat) (revents : Nat → BitVec 16) : Except PollFault (List PollFd) :=
  if nfds ≤ set.length then
    .ok (set.mapIdx fun i elem => if i < nfds then { elem with revents := revents i } else elem)
  else .error .wildAccess

end PollSet

structure Poller (F : Type) where
  pollables : List F
  fds : List PollFd
  /-- the handles that have a callback -/
  callbacks : List F
  nextIndex : Nat
  capacity : Nat
  iter : Int

/-- A call of the program, or of a callback. `register` is `add` with a callback, after the
callback has returned the events to begin with. -/
inductive PollOp (F : Type) where
  | add (p : F) (events : BitVec 32)
  | register (p : F) (events : BitVec 32)
  | remove (p : F)
  | setEvents (p : F) (events : BitVec 32)

/-- What a callback does when it is called: its calls, and the events it returns if it
doesn't throw. -/
structure Reaction (F : Type) where
  calls : List (PollOp F)
  events : Option (BitVec 32)

/-- The result of `nx`. -/
inductive PollResult (F : Type) where
  | null
  | event (pollable : F) (revents : BitVec 16)
  | thrown (error : PollError)

namespace Poller

variable {F : Type} [DecidableEq F] (fd : F → Int)

/-- `oper init` -/
def init : Poller F where
  pollables := []
  fds := PollSet.create 256
  callbacks := []
  nextIndex := 0
  capacity := 256
  iter := 0

/-- The pollset that is created and copied to is not stored. -/
def grow (m : Poller F) (newCapacity : Nat) : Poller F × Except PollError Unit :=
  if newCapacity < m.capacity then (m, .error (.exception "cannot shrink"))
  else ({ m with capacity := newCapacity }, .ok ())

/-- `add` without a callback. -/
def add (m : Poller F) (p : F) (events : BitVec 32) : Except PollFault (Poller F × Except PollError Unit) :=
  if m.pollables.any (fun cur => fd p = fd cur) then
    .ok (m, .error (.invalidArgument s!"File descriptor {fd p} is already managed by this poller."))
  else do
    let (m, grown) := if m.nextIndex = m.capacity then m.grow (m.capacity * 2) else (m, .ok ())
    match grown with
    | .error e => return (m, .error e)
    | .ok _ =>
      let fds ← PollSet.set m.fds m.nextIndex (fd p) events 0
      return ({ m with pollables := m.pollables ++ [p], fds, nextIndex := m.nextIndex + 1 }, .ok ())

/-- `add` with a callback, from where the callback has returned. -/
def register (m : Poller F) (p : F) (events : BitVec 32) :
    Except PollFault (Poller F × Except PollError Unit) := do
  let (m, added) ← m.add fd p events
  match added with
  | .error e => return (m, .error e)
  | .ok _ => return ({ m with callbacks := m.callbacks.insert p }, .ok ())

def remove (m : Poller F) (p : F) : Except PollFault (Poller F × Except PollError Unit) := do
  let i := m.pollables.idxOf p
  if i = m.pollables.length then
    return (m, .error (.invalidArgument "File handle is not in the set"))
  let fds ← PollSet.delete m.fds m.nextIndex i
  return ({ m with
    pollables := m.pollables.eraseIdx i
    fds
    callbacks := m.callbacks.erase p
    nextIndex := m.nextIndex - 1
    iter := if m.iter ≥ i then m.iter - 1 else m.iter }, .ok ())

def setEvents (m : Poller F) (pollable : F) (events : BitVec 32) :
    Except PollFault (Poller F × Except PollError Unit) := do
  let i := m.pollables.idxOf pollable
  if i = m.pollables.length then
    return (m, .error (.invalidArgument "File handle not in Poller"))
  let fds ← PollSet.set m.fds i (fd pollable) events 0
  return ({ m with fds }, .ok ())

def call (m : Poller F) : PollOp F → Except PollFault (Poller F × Except PollError Unit)
  | .add p events => m.add fd p events
  | .register p events => m.register fd p events
  | .remove p => m.remove p
  | .setEvents p events => m.setEvents fd p events

/-- The calls of a callback, each with what came of it. Whether the callback goes on after
one that throws is in its reaction. -/
def calls (m : Poller F) :
    List (PollOp F) → Except PollFault (Poller F × List (PollOp F × Except PollError Unit))
  | [] => .ok (m, [])
  | op :: ops => do
    let (m, result) ← m.call fd op
    let (m, log) ← m.calls ops
    return (m, (op, result) :: log)

def wait (m : Poller F) (revents : Nat → BitVec 16) : Except PollFault (Poller F) := do
  let fds ← PollSet.poll m.fds m.nextIndex revents
  return { m with iter := 0, fds }

/-- `__callCallback` for the pollable `p`, of which the event has the mask `events`. The
iterator is restored whatever the callback did. -/
def callCallback (m : Poller F) (descriptorIndex : Nat) (p : F) (events : BitVec 32) (reaction : Reaction F) :
    Except PollFault (Poller F × Except PollError Unit × List (PollOp F × Except PollError Unit)) := do
  let oldVal := m.iter
  let m := { m with iter := descriptorIndex }
  if p ∈ m.callbacks then
    let (m, log) ← m.calls fd reaction.calls
    match reaction.events with
    | none => return ({ m with iter := oldVal }, .error .callback, log)
    | some requested =>
      if requested ≠ events ∧ m.iter ≥ 0 then
        match m.pollables[m.iter.toNat]? with
        | none => return ({ m with iter := oldVal }, .error .indexError, log)
        | some pollable =>
          if p = pollable then
            let fds ← PollSet.set m.fds descriptorIndex (fd p) requested 0
            return ({ m with fds, iter := oldVal }, .ok (), log)
          else return ({ m with iter := oldVal }, .ok (), log)
      else return ({ m with iter := oldVal }, .ok (), log)
  else return ({ m with iter := oldVal }, .ok (), [])

def nx (m : Poller F) (reaction : Reaction F) :
    Except PollFault (Poller F × PollResult F × List (PollOp F × Except PollError Unit)) := do
  if m.iter = -1 then return (m, .null, [])
  match ← PollSet.next m.fds m.iter.toNat (m.nextIndex - m.iter.toNat) with
  | none => return ({ m with iter := -1 }, .null, [])
  | some i =>
    let m := { m with iter := i }
    match m.fds[i]?, m.pollables[i]? with
    | some elem, some p =>
      let (m, called, log) ← m.callCallback fd i p (elem.events.signExtend 32) reaction
      match called with
      | .error e => return (m, .thrown e, log)
      | .ok _ => return ({ m with iter := m.iter + 1 }, .event p elem.revents, log)
    | none, _ => .error .wildAccess
    | _, none => return (m, .thrown .indexError, [])

/-- One round of the loop at the head of `waitAndProcess`, if there is one more. -/
def check (m : Poller F) (reaction : Reaction F) :
    Except PollFault (Poller F × PollResult F × List (PollOp F × Except PollError Unit)) := do
  if 0 ≤ m.iter ∧ m.iter < m.nextIndex then
    match m.fds[m.iter.toNat]?, m.pollables[m.iter.toNat]? with
    | some elem, some p =>
      let (m, called, log) ← m.callCallback fd m.iter.toNat p (elem.events.signExtend 32) reaction
      match called with
      | .error e => return (m, .thrown e, log)
      | .ok _ => return ({ m with iter := m.iter + 1 }, .event p 0, log)
    | none, _ => .error .wildAccess
    | _, none => return (m, .thrown .indexError, [])
  else return (m, .null, [])

end Poller

end Crack
