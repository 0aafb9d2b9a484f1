import Crack.Net.Poller
import Mathlib.Data.List.Nodup

/-!
# Runs of a poller

What a program does with a poller, which of its steps go well, and what a call leaves of the
entries and of a pass.
-/
namespace Crack

/-- What was asked of a poller, and what a pass has to give. -/
structure PollRecord (F : Type) where
  /-- the events last requested for a handle -/
  requested : F → BitVec 32
  /-- in a pass, the handles that were ready when it began and are still registered -/
  ready : Option (List F)
  /-- what the pass has given so far -/
  given : List F

/-- What the program does. -/
inductive PollStep (F : Type) where
  | call (op : PollOp F)
  | wait (revents : Nat → BitVec 16)
  | nx (reaction : Reaction F)
  /-- the loop at the head of `waitAndProcess`, and its rounds -/
  | startCheck
  | check (reaction : Reaction F)

namespace PollRecord

variable {F : Type} [DecidableEq F]

def init : PollRecord F := ⟨fun _ => 0, none, []⟩

def request (r : PollRecord F) (p : F) (events : BitVec 32) : PollRecord F :=
  { r with requested := fun q => if q = p then events else r.requested q }

theorem requested_request (r : PollRecord F) (p q : F) (events : BitVec 32) :
    (r.request p events).requested q = if q = p then events else r.requested q := rfl

/-- After a call that did not throw. -/
def note (r : PollRecord F) : PollOp F → Except PollError Unit → PollRecord F
  | .add p events, .ok _ | .register p events, .ok _ | .setEvents p events, .ok _ => r.request p events
  | .remove p, .ok _ => { r with ready := r.ready.map (·.filter (· ≠ p)) }
  | _, .error _ => r

def notes (r : PollRecord F) (log : List (PollOp F × Except PollError Unit)) : PollRecord F :=
  log.foldl (fun r entry => r.note entry.1 entry.2) r

/-- After a callback for `p`, if it has one; what it returned is requested. -/
def called (r : PollRecord F) (m : Poller F) (p : F) (reaction : Reaction F) : PollRecord F :=
  match reaction.events with
  | some events => if p ∈ m.callbacks then r.request p events else r
  | none => r

end PollRecord

/-- A poller with its record. -/
structure PollWorld (F : Type) where
  poller : Poller F
  record : PollRecord F

namespace PollWorld

variable {F : Type} [DecidableEq F] (fd : F → Int)

def init : PollWorld F := ⟨.init, .init⟩

/-- One step; `nx` gives something. -/
def step (w : PollWorld F) : PollStep F → Except PollFault (PollWorld F × Option (PollResult F))
  | .call op => do
    let (m, result) ← w.poller.call fd op
    return (⟨m, w.record.note op result⟩, none)
  | .wait revents => do
    let m ← w.poller.wait revents
    let ready := (List.range m.nextIndex).filterMap fun i => if revents i ≠ 0 then m.pollables[i]? else none
    return (⟨m, { w.record with ready := some ready, given := [] }⟩, none)
  | .nx reaction => do
    let (m, result, log) ← w.poller.nx fd reaction
    let record := w.record.notes log
    match result with
    | .null => return (⟨m, { record with ready := none }⟩, some .null)
    | .event p revents =>
      let record := record.called w.poller p reaction
      return (⟨m, { record with given := p :: record.given }⟩, some (.event p revents))
    | .thrown e => return (⟨m, record⟩, some (.thrown e))
  | .startCheck => return (⟨{ w.poller with iter := 0 }, { w.record with ready := none }⟩, none)
  | .check reaction => do
    let (m, result, log) ← w.poller.check fd reaction
    let record := w.record.notes log
    match result with
    | .event p _ => return (⟨m, record.called w.poller p reaction⟩, none)
    | _ => return (⟨m, record⟩, none)

/-- Every entry of the pollset describes the handle in its place, with the events last
requested for it. -/
def Aligned (w : PollWorld F) : Prop :=
  w.poller.nextIndex = w.poller.pollables.length ∧
    ∀ (i : Nat) p, w.poller.pollables[i]? = some p → ∃ elem : PollFd, w.poller.fds[i]? = some elem ∧
      elem.fd = fd p ∧ elem.events.signExtend 32 = w.record.requested p

/-- What a pass gives was ready and has not been given before, and at its end all that was
ready and stayed has been given. -/
def Gives (w : PollWorld F) (result : PollResult F) : Prop :=
  ∀ ready, w.record.ready = some ready →
    match result with
    | .null => ∀ p ∈ ready, p ∈ w.record.given
    | .event p _ => p ∈ ready ∧ p ∉ w.record.given
    | .thrown _ => True

/-- A mask that fits the `short` of an entry. -/
def Short (events : BitVec 32) : Prop := (events.setWidth 16).signExtend 32 = events

/-- Who makes a call: the program, or a callback, with the handle it is for if it returns. -/
inductive Caller (F : Type) where
  | program
  | callback (served : Option F)

/-- A call that adds a handle finds room for the entry. A call of the program does not
remove the handle that comes next in a pass, and one of a callback removes a handle behind
the one that the callback is for. A call that sets events, and so clears those that were
found, is not for a handle that the pass has still to give, unless it is the one served. -/
def CallOk (w : PollWorld F) (caller : Caller F) : PollOp F → Prop
  | .add p events | .register p events =>
    (∀ cur ∈ w.poller.pollables, fd p ≠ fd cur) → Short events ∧ w.poller.nextIndex ≠ w.poller.capacity
  | .remove p =>
    p ∈ w.poller.pollables → match caller with
      | .program => w.record.ready ≠ none → w.poller.iter ≠ w.poller.pollables.idxOf p
      | .callback _ => w.poller.iter < w.poller.pollables.idxOf p
  | .setEvents p events =>
    p ∈ w.poller.pollables → Short events ∧
      ∀ ready, w.record.ready = some ready → p ∈ ready → p ∈ w.record.given ∨ caller = .callback (some p)

def CallsOk (caller : Caller F) : PollWorld F → List (PollOp F) → Prop
  | _, [] => True
  | w, op :: ops => CallOk fd w caller op ∧
    ∀ m result, w.poller.call fd op = .ok (m, result) → CallsOk caller ⟨m, w.record.note op result⟩ ops

/-- The calls of a callback for `p` go well, and where it returns the events that were set
before, they are still those requested. -/
def ReactionOk (w : PollWorld F) (i : Nat) (p : F) (reaction : Reaction F) : Prop :=
  p ∈ w.poller.callbacks →
    CallsOk fd (.callback (reaction.events.map fun _ => p)) ⟨{ w.poller with iter := i }, w.record⟩ reaction.calls ∧
      ∀ events, reaction.events = some events → Short events ∧
        ∀ m log, { w.poller with iter := (i : Int) }.calls fd reaction.calls = .ok (m, log) →
          events = w.record.requested p → (w.record.notes log).requested p = events

/-- The handle at `i` is the one that is called back. -/
def StepOk (w : PollWorld F) : PollStep F → Prop
  | .call op => CallOk fd w .program op
  | .nx reaction => ∀ i p, PollSet.next w.poller.fds w.poller.iter.toNat (w.poller.nextIndex - w.poller.iter.toNat) =
      .ok (some i) → w.poller.pollables[i]? = some p → ReactionOk fd w i p reaction
  | .check reaction => w.record.ready = none ∧
    ∀ i : Nat, ∀ p, w.poller.iter = i → w.poller.pollables[i]? = some p → ReactionOk fd w i p reaction
  | _ => True

/-- A state that a run reaches from an empty poller, when all its steps go well. -/
inductive Reached : PollWorld F → Prop
  | init : Reached .init
  | step {w w' : PollWorld F} {s : PollStep F} {result : Option (PollResult F)} : Reached w → StepOk fd w s →
    w.step fd s = .ok (w', result) → Reached w'

/-- What holds between steps, a pass apart. -/
structure Tidy (w : PollWorld F) : Prop where
  aligned : w.Aligned fd
  distinct : (w.poller.pollables.map fd).Nodup
  le_capacity : w.poller.nextIndex ≤ w.poller.capacity
  capacity_le : w.poller.capacity ≤ w.poller.fds.length

/-- The ready handles that were not given are those from `low` on that have events. -/
def Pending (w : PollWorld F) (given : List F) (low : Int) : Prop :=
  ∀ ready, w.record.ready = some ready → ∀ q, q ∈ ready ∧ q ∉ given ↔
    ∃ (k : Nat) (elem : PollFd), w.poller.pollables[k]? = some q ∧ w.poller.fds[k]? = some elem ∧
      elem.revents ≠ 0 ∧ low ≤ k

/-- What becomes of the rest of a pass, and of the handles before a certain place. -/
structure Keeps (w w' : PollWorld F) (given : List F) (low low' : Int) (place : Nat) : Prop where
  tidy : w'.Tidy fd
  pending : w.Pending given low → w'.Pending given low'
  place : ∀ k < place, ∀ q, w.poller.pollables[k]? = some q → w'.poller.pollables[k]? = some q

/-- What comes of a call that does not move the iterator. -/
def Calls (w : PollWorld F) (op : PollOp F) (given : List F) (low : Int) (place : Nat) : Prop :=
  ∃ m result, w.poller.call fd op = .ok (m, result) ∧ m.iter = w.poller.iter ∧
    w.Keeps fd ⟨m, w.record.note op result⟩ given low low place

variable {fd} {w : PollWorld F} {p : F} {events : BitVec 32} {given : List F} {low : Int} {place : Nat} {i : Nat}

section

omit [DecidableEq F]

theorem Tidy.nodup (h : w.Tidy fd) : w.poller.pollables.Nodup := List.Nodup.of_map fd h.distinct

theorem Tidy.inj (h : w.Tidy fd) {i j : Nat} (hi : w.poller.pollables[i]? = some p)
    (hj : w.poller.pollables[j]? = some p) : i = j := by
  obtain ⟨hi', hip⟩ := List.getElem?_eq_some_iff.mp hi
  obtain ⟨hj', hjp⟩ := List.getElem?_eq_some_iff.mp hj
  exact (List.Nodup.getElem_inj_iff h.nodup).mp (hip.trans hjp.symm)

theorem Tidy.nextIndex_le (h : w.Tidy fd) : w.poller.nextIndex ≤ w.poller.fds.length :=
  Nat.le_trans h.le_capacity h.capacity_le

end

theorem lt_of_getElem? {l : List α} {x : α} (h : l[i]? = some x) : i < l.length :=
  (List.getElem?_eq_some_iff.mp h).1

omit [DecidableEq F] in
theorem Keeps.refl (h : w.Tidy fd) : w.Keeps fd w given low low place := ⟨h, id, fun _ _ _ hk => hk⟩

variable (fd) in
/-- A poller with another handle, in the entry behind the last one. -/
def added (w : PollWorld F) (p : F) (events : BitVec 32) (callbacks : List F) : Poller F :=
  { w.poller with
    pollables := w.poller.pollables ++ [p]
    fds := w.poller.fds.set w.poller.nextIndex ⟨fd p, events.setWidth 16, 0⟩
    callbacks
    nextIndex := w.poller.nextIndex + 1 }

theorem Tidy.keeps_added (h : w.Tidy fd) (hnew : ∀ cur ∈ w.poller.pollables, fd p ≠ fd cur) (hshort : Short events)
    (hfull : w.poller.nextIndex ≠ w.poller.capacity) (callbacks : List F) :
    w.Keeps fd ⟨w.added fd p events callbacks, w.record.request p events⟩ given low low place := by
  obtain ⟨hcount, hentry⟩ := h.aligned
  unfold added
  have hroom : w.poller.nextIndex < w.poller.fds.length :=
    Nat.lt_of_lt_of_le (Nat.lt_of_le_of_ne h.le_capacity hfull) h.capacity_le
  have hsplit : ∀ (k : Nat) q, (w.poller.pollables ++ [p])[k]? = some q →
      w.poller.pollables[k]? = some q ∧ k ≠ w.poller.nextIndex ∧ q ≠ p ∨ k = w.poller.nextIndex ∧ q = p := by
    intro k q hk
    rcases Nat.lt_or_ge k w.poller.pollables.length with hlt | hge
    · rw [List.getElem?_append_left hlt] at hk
      refine .inl ⟨hk, by omega, ?_⟩
      rintro rfl
      exact hnew q (List.mem_of_getElem? hk) rfl
    · rw [List.getElem?_append_right hge] at hk
      have hlast := lt_of_getElem? hk
      rw [List.length_singleton] at hlast
      rw [show k - w.poller.pollables.length = 0 by omega] at hk
      exact .inr ⟨by omega, (Option.some.inj hk).symm⟩
  refine ⟨⟨⟨?_, ?_⟩, ?_, ?_, ?_⟩, ?_, ?_⟩
  · simp [hcount]
  · intro k q hk
    dsimp only at hk ⊢
    rcases hsplit k q hk with ⟨hk, hne, hqp⟩ | ⟨rfl, rfl⟩
    · obtain ⟨elem, he, hfd, hevents⟩ := hentry k q hk
      refine ⟨elem, by rwa [List.getElem?_set_ne (Ne.symm hne)], hfd, ?_⟩
      rw [PollRecord.requested_request, if_neg hqp, hevents]
    · exact ⟨_, List.getElem?_set_self hroom, rfl, by rw [PollRecord.requested_request, if_pos rfl]; exact hshort⟩
  · rw [List.map_append, List.nodup_append]
    refine ⟨h.distinct, List.nodup_singleton _, ?_⟩
    intro x hx y hy
    obtain ⟨cur, hcur, rfl⟩ := List.mem_map.mp hx
    rw [List.map_singleton, List.mem_singleton] at hy
    rw [hy]
    exact (hnew cur hcur).symm
  · exact Nat.lt_of_le_of_ne h.le_capacity hfull
  · rw [List.length_set]
    exact h.capacity_le
  · intro hpending ready hready q
    rw [hpending ready hready q]
    constructor
    · rintro ⟨k, elem, hk, he, hrevents, hlow⟩
      have hlt := lt_of_getElem? hk
      refine ⟨k, elem, ?_, ?_, hrevents, hlow⟩
      · rwa [List.getElem?_append_left hlt]
      · rwa [List.getElem?_set_ne (by omega)]
    · rintro ⟨k, elem, hk, he, hrevents, hlow⟩
      rcases hsplit k q hk with ⟨hk, hne, -⟩ | ⟨rfl, rfl⟩
      · dsimp only at he
        rw [List.getElem?_set_ne (Ne.symm hne)] at he
        exact ⟨k, elem, hk, he, hrevents, hlow⟩
      · dsimp only at he
        rw [List.getElem?_set_self hroom, Option.some_inj] at he
        exact absurd (he ▸ rfl) hrevents
  · intro k _ q hk
    exact (List.getElem?_append_left (lt_of_getElem? hk)).trans hk

theorem Tidy.call_add (h : w.Tidy fd) {caller : Caller F} (hok : CallOk fd w caller (.add p events)) :
    w.Calls fd (.add p events) given low place ∧ w.Calls fd (.register p events) given low place := by
  by_cases hdup : w.poller.pollables.any (fun cur => fd p = fd cur)
  · have hadd : ∃ e, w.poller.add fd p events = .ok (w.poller, .error e) := ⟨_, if_pos hdup⟩
    obtain ⟨e, hadd⟩ := hadd
    refine ⟨⟨w.poller, .error e, hadd, rfl, .refl h⟩, ⟨w.poller, .error e, ?_, rfl, .refl h⟩⟩
    rw [Poller.call, Poller.register, hadd]
    rfl
  have hnew : ∀ cur ∈ w.poller.pollables, fd p ≠ fd cur := fun cur hcur heq =>
    hdup (List.any_eq_true.mpr ⟨cur, hcur, decide_eq_true heq⟩)
  obtain ⟨hshort, hfull⟩ := hok hnew
  have hroom : w.poller.nextIndex < w.poller.fds.length :=
    Nat.lt_of_lt_of_le (Nat.lt_of_le_of_ne h.le_capacity hfull) h.capacity_le
  have hadd : w.poller.add fd p events = .ok (w.added fd p events w.poller.callbacks, .ok ()) := by
    rw [Poller.add, if_neg hdup, if_neg hfull]
    simp only [PollSet.set, if_pos hroom, bind, Except.bind, pure, Except.pure]
    rfl
  refine ⟨⟨_, .ok (), hadd, rfl, h.keeps_added hnew hshort hfull _⟩,
    ⟨w.added fd p events (w.poller.callbacks.insert p), .ok (), ?_, rfl, h.keeps_added hnew hshort hfull _⟩⟩
  rw [Poller.call, Poller.register, hadd]
  rfl

/-- The events of a handle that the pass has given, or that it did not find ready. -/
theorem Tidy.keeps_set (h : w.Tidy fd) (hi : w.poller.pollables[i]? = some p) (hshort : Short events)
    (hgiven : ∀ ready, w.record.ready = some ready → p ∈ ready → p ∈ given) :
    w.Keeps fd ⟨{ w.poller with fds := w.poller.fds.set i ⟨fd p, events.setWidth 16, 0⟩ },
      w.record.request p events⟩ given low low place := by
  obtain ⟨hcount, hentry⟩ := h.aligned
  have hroom : i < w.poller.fds.length := by
    have := lt_of_getElem? hi
    have := h.nextIndex_le
    omega
  refine ⟨⟨⟨hcount, fun k q hk => ?_⟩, h.distinct, h.le_capacity, ?_⟩, ?_, fun _ _ _ hk => hk⟩
  · dsimp only at hk ⊢
    rw [PollRecord.requested_request]
    by_cases hki : k = i
    · subst hki
      obtain rfl : q = p := Option.some.inj (hk.symm.trans hi)
      exact ⟨_, List.getElem?_set_self hroom, rfl, by rw [if_pos rfl]; exact hshort⟩
    · obtain ⟨elem, he, hfd, hevents⟩ := hentry k q hk
      have hqp : q ≠ p := by
        rintro rfl
        exact hki (h.inj hk hi)
      exact ⟨elem, by rwa [List.getElem?_set_ne (Ne.symm hki)], hfd, by rw [if_neg hqp, hevents]⟩
  · rw [List.length_set]
    exact h.capacity_le
  · intro hpending ready hready q
    rw [hpending ready hready q]
    constructor
    · rintro ⟨k, elem, hk, he, hrevents, hlow⟩
      have hki : i ≠ k := by
        rintro rfl
        obtain rfl : q = p := Option.some.inj (hk.symm.trans hi)
        obtain ⟨hin, hout⟩ := (hpending ready hready q).mpr ⟨i, elem, hk, he, hrevents, hlow⟩
        exact hout (hgiven ready hready hin)
      exact ⟨k, elem, hk, by rwa [List.getElem?_set_ne hki], hrevents, hlow⟩
    · rintro ⟨k, elem, hk, he, hrevents, hlow⟩
      dsimp only at he
      by_cases hki : i = k
      · subst hki
        rw [List.getElem?_set_self hroom, Option.some_inj] at he
        exact absurd (he ▸ rfl) hrevents
      · rw [List.getElem?_set_ne hki] at he
        exact ⟨k, elem, hk, he, hrevents, hlow⟩

theorem Tidy.call_setEvents (h : w.Tidy fd) {caller : Caller F} (hok : CallOk fd w caller (.setEvents p events))
    (hgiven : ∀ q, q ∈ w.record.given ∨ caller = .callback (some q) → q ∈ given) :
    w.Calls fd (.setEvents p events) given low place := by
  by_cases hmem : p ∈ w.poller.pollables
  · obtain ⟨hshort, hpending⟩ := hok hmem
    have hlt : w.poller.pollables.idxOf p < w.poller.pollables.length := List.idxOf_lt_length_iff.mpr hmem
    have hroom : w.poller.pollables.idxOf p < w.poller.fds.length :=
      Nat.lt_of_lt_of_le hlt (h.aligned.1 ▸ h.nextIndex_le)
    have hi : w.poller.pollables[w.poller.pollables.idxOf p]? = some p := List.getElem?_idxOf hmem
    refine ⟨{ w.poller with fds := w.poller.fds.set (w.poller.pollables.idxOf p) ⟨fd p, events.setWidth 16, 0⟩ },
      .ok (), ?_, rfl, h.keeps_set hi hshort fun ready hready hin => hgiven p (hpending ready hready hin)⟩
    rw [Poller.call, Poller.setEvents]
    simp only [PollSet.set, if_pos hroom, if_neg (Nat.ne_of_lt hlt), bind, Except.bind, pure, Except.pure]
    rfl
  · have hnone : w.poller.pollables.idxOf p = w.poller.pollables.length := List.idxOf_eq_length hmem
    refine ⟨w.poller, .error (.invalidArgument "File handle not in Poller"), ?_, rfl, .refl h⟩
    rw [Poller.call, Poller.setEvents]
    simp only [if_pos hnone]
    rfl

/-- The entries behind the deleted one move up. -/
theorem delete_ok {set : List PollFd} {size index : Nat} (hi : index < size) (hs : size ≤ set.length) :
    ∃ set', PollSet.delete set size index = .ok set' ∧ set'.length = set.length ∧
      ∀ k, k + 1 < size → set'[k]? = if k < index then set[k]? else set[k + 1]? := by
  refine ⟨_, if_pos ⟨hi, hs⟩, ?_, fun k hk => ?_⟩
  · simp only [List.length_append, List.length_take, List.length_drop]
    omega
  · have hfront : ((set.drop (index + 1)).take (size - index - 1)).length = size - index - 1 := by
      rw [List.length_take, List.length_drop]
      omega
    have hlen : (set.take index).length = index := List.length_take_of_le (by omega)
    rw [List.append_assoc]
    split
    · next hlt =>
      rw [List.getElem?_append_left (by omega), List.getElem?_take_of_lt hlt]
    · next hge =>
      rw [List.getElem?_append_right (by omega), List.getElem?_append_left (by omega), hlen,
        List.getElem?_take_of_lt (by omega), List.getElem?_drop]
      congr 1
      omega

/-- The place in a pass, when the handle at `j` goes. -/
def lowAfter (low : Int) (j : Nat) : Int := if j < low then low - 1 else low

/-- A poller without the handle at `j`, of which the entry was deleted. -/
def removed (w : PollWorld F) (p : F) (j : Nat) (fds : List PollFd) : Poller F :=
  { w.poller with
    pollables := w.poller.pollables.eraseIdx j
    fds
    callbacks := w.poller.callbacks.erase p
    nextIndex := w.poller.nextIndex - 1
    iter := if w.poller.iter ≥ j then w.poller.iter - 1 else w.poller.iter }

theorem Tidy.keeps_removed (h : w.Tidy fd) {j : Nat} (hj : w.poller.pollables[j]? = some p) {fds : List PollFd}
    (hfds : PollSet.delete w.poller.fds w.poller.nextIndex j = .ok fds) (hplace : place ≤ j) :
    w.Keeps fd ⟨w.removed p j fds, { w.record with ready := w.record.ready.map (·.filter (· ≠ p)) }⟩ given low
      (lowAfter low j) place := by
  obtain ⟨hcount, hentry⟩ := h.aligned
  have hjlt := lt_of_getElem? hj
  obtain ⟨fds', hdelete, hlength, hget⟩ := delete_ok (hcount ▸ hjlt) h.nextIndex_le
  obtain rfl : fds = fds' := Except.ok.inj (hfds.symm.trans hdelete)
  unfold removed
  have hold : ∀ (k : Nat) q, (w.poller.pollables.eraseIdx j)[k]? = some q → ∃ k' : Nat,
      (k' = k ∧ k < j ∨ k' = k + 1 ∧ j ≤ k) ∧ w.poller.pollables[k']? = some q ∧ fds[k]? = w.poller.fds[k']? := by
    intro k q hk
    have hlt := lt_of_getElem? hk
    rw [List.length_eraseIdx_of_lt hjlt] at hlt
    rw [List.getElem?_eraseIdx] at hk
    have hat := hget k (by omega)
    by_cases hkj : k < j
    · rw [if_pos hkj] at hk hat
      exact ⟨k, .inl ⟨rfl, hkj⟩, hk, hat⟩
    · rw [if_neg hkj] at hk hat
      exact ⟨k + 1, .inr ⟨rfl, Nat.not_lt.mp hkj⟩, hk, hat⟩
  have hnew : ∀ (k : Nat) q, w.poller.pollables[k]? = some q → q ≠ p → ∃ k' : Nat,
      (k' = k ∧ k < j ∨ k = k' + 1 ∧ j ≤ k') ∧ (w.poller.pollables.eraseIdx j)[k']? = some q ∧
        fds[k']? = w.poller.fds[k]? := by
    intro k q hk hqp
    have hlt := lt_of_getElem? hk
    rcases Nat.lt_trichotomy k j with hkj | rfl | hkj
    · refine ⟨k, .inl ⟨rfl, hkj⟩, ?_, by rw [hget k (by omega), if_pos hkj]⟩
      rw [List.getElem?_eraseIdx_of_lt hkj, hk]
    · exact absurd (Option.some.inj (hk.symm.trans hj)) hqp
    · obtain ⟨k, rfl⟩ := Nat.exists_eq_succ_of_ne_zero (by omega : k ≠ 0)
      refine ⟨k, .inr ⟨rfl, by omega⟩, ?_, by rw [hget k (by omega), if_neg (by omega)]⟩
      rw [List.getElem?_eraseIdx_of_ge (by omega), hk]
  refine ⟨⟨⟨?_, fun k q hk => ?_⟩, ?_, ?_, ?_⟩, ?_, ?_⟩
  · dsimp only
    rw [List.length_eraseIdx_of_lt hjlt, hcount]
  · obtain ⟨k', -, hk', hfd⟩ := hold k q hk
    dsimp only
    rw [hfd]
    exact hentry k' q hk'
  · exact h.distinct.sublist ((List.eraseIdx_sublist _ _).map fd)
  · exact Nat.le_trans (Nat.sub_le _ _) h.le_capacity
  · dsimp only
    rw [hlength]
    exact h.capacity_le
  · intro hpending ready' hready' q
    obtain ⟨ready, hready, rfl⟩ := Option.map_eq_some_iff.mp hready'
    have hiff := hpending ready hready q
    rw [List.mem_filter, decide_eq_true_iff]
    constructor
    · rintro ⟨⟨hin, hqp⟩, hout⟩
      obtain ⟨k, elem, hk, he, hrevents, hlow⟩ := hiff.mp ⟨hin, hout⟩
      obtain ⟨k', hplace, hk', he'⟩ := hnew k q hk hqp
      refine ⟨k', elem, hk', he'.trans he, hrevents, ?_⟩
      rw [lowAfter]
      split <;> omega
    · rintro ⟨k, elem, hk, he, hrevents, hlow⟩
      obtain ⟨k', hplace, hk', he'⟩ := hold k q hk
      have hlow' : low ≤ k' := by
        rw [lowAfter] at hlow
        split at hlow <;> omega
      obtain ⟨hin, hout⟩ := hiff.mpr ⟨k', elem, hk', he'.symm.trans he, hrevents, hlow'⟩
      refine ⟨⟨hin, ?_⟩, hout⟩
      rintro rfl
      have := h.inj hk' hj
      omega
  · intro k hk q hq
    dsimp only
    rw [List.getElem?_eraseIdx_of_lt (by omega)]
    exact hq

theorem Tidy.call_remove (h : w.Tidy fd) (hplace : p ∈ w.poller.pollables → place ≤ w.poller.pollables.idxOf p) :
    ∃ m result, w.poller.call fd (.remove p) = .ok (m, result) ∧
      (m.iter = w.poller.iter ∧ w.Keeps fd ⟨m, w.record.note (.remove p) result⟩ given low low place ∨
        p ∈ w.poller.pollables ∧ m.iter = (if w.poller.iter ≥ w.poller.pollables.idxOf p then w.poller.iter - 1
          else w.poller.iter) ∧ w.Keeps fd ⟨m, w.record.note (.remove p) result⟩ given low
            (lowAfter low (w.poller.pollables.idxOf p)) place) := by
  by_cases hmem : p ∈ w.poller.pollables
  · have hlt : w.poller.pollables.idxOf p < w.poller.pollables.length := List.idxOf_lt_length_iff.mpr hmem
    have hj : w.poller.pollables[w.poller.pollables.idxOf p]? = some p := List.getElem?_idxOf hmem
    obtain ⟨fds, hdelete, -⟩ := delete_ok (h.aligned.1 ▸ hlt) h.nextIndex_le
    refine ⟨w.removed p (w.poller.pollables.idxOf p) fds, .ok (), ?_,
      .inr ⟨hmem, rfl, h.keeps_removed hj hdelete (hplace hmem)⟩⟩
    rw [Poller.call, Poller.remove]
    simp only [hdelete, if_neg (Nat.ne_of_lt hlt), bind, Except.bind, pure, Except.pure]
    rfl
  · have hnone : w.poller.pollables.idxOf p = w.poller.pollables.length := List.idxOf_eq_length hmem
    refine ⟨w.poller, .error (.invalidArgument "File handle is not in the set"), ?_, .inl ⟨rfl, .refl h⟩⟩
    rw [Poller.call, Poller.remove]
    simp only [if_pos hnone]
    rfl

end PollWorld

end Crack
