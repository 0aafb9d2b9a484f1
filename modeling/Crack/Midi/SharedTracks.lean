import Crack.Cont.ElemArrayExtend
import Crack.Midi.Events
import Crack.Lib.Merging

/-!
# Tracks of shared events

A track refers to event objects. Others may refer to them too, and `relocate` changes the time of one of them.
-/
namespace Crack

namespace Midi

/-- The array of a track and the event objects, with what is written for each of them in a text. -/
structure SharedTrack where
  events : ElemArray Nat
  store : Nat → Event
  shown : Nat → String

namespace SharedTrack

/-- What is read, or an exception. -/
abbrev Reading (α : Type) : Type := ExceptT Exc (Except Fault) α

/-- What a call returns or throws, with the track after it. -/
abbrev Changing (α : Type) : Type := Except Fault (SharedTrack × Except Exc α)

/-- What a call returns for what another one returned. -/
def Changing.andThen {α β : Type} (x : Changing α) (f : SharedTrack → Except Exc α → Changing β) : Changing β :=
  Except.bind x fun r => f r.1 r.2

inductive Call where
  | add (event : Nat)
  | append (evt : Nat)
  | relocate (event : Nat) (time : UInt32)
  | remove (event : Nat)
  | delete (index : BitVec 32)

variable (t : SharedTrack) {Q : List Nat} {last : Nat}

def init (store : Nat → Event) (shown : Nat → String) : SharedTrack := ⟨.init 0 16, store, shown⟩

def time (event : Nat) : Nat := (t.store event).time.toNat

def isEndTrack (event : Nat) : Bool := (t.store event).isEndTrack

/-- `__events.count()` as an `int` -/
def count : Int := (BitVec.ofNat 32 t.events.size).toInt

/-- `__events[index]` -/
def getItem (index : Int) : Reading Nat := t.events.getItem (BitVec.ofInt 32 index)

/-- An exception while the track is read leaves it as it is. -/
def reading {α β : Type} (x : Reading α) (f : α → Changing β) : Changing β :=
  Except.bind x.run fun
    | .ok a => f a
    | .error e => .ok (t, .error e)

/-- What an operation of the array does to the track. -/
def changed (r : Except Fault (ElemArray Nat × Except Exc Unit)) : Changing Unit :=
  r.map fun r => ({ t with events := r.1 }, r.2)

/-- The loop of `add`, over the events that are left. -/
def addBeforeLater (event : Nat) : Nat → Changing Unit
  | 0 => .ok (t, .error (.assertionError "found no location to insert an event"))
  | n + 1 =>
    let index := t.events.size - (n + 1)
    t.reading (t.getItem index) fun evt =>
      if t.time evt > t.time event then t.changed (t.events.insert 0 (BitVec.ofNat 32 index) event)
      else addBeforeLater event n

def add (event : Nat) : Changing Unit :=
  if t.events.size = 0 then t.changed (t.events.append 0 event)
  else t.reading (t.getItem (-1)) fun last =>
    if t.time event ≥ t.time last then
      if t.isEndTrack last ∧ t.time last = t.time event then t.changed (t.events.insert 0 (-1) event)
      else t.changed (t.events.append 0 event)
    else t.addBeforeLater event t.events.size

def earlierText (evt last : Nat) : String :=
  "Appending event " ++ t.shown evt ++ " which is earlier than the last event of the track (" ++
    toString last ++ ")."

def append (evt : Nat) : Changing Unit :=
  if t.events.size ≠ 0 then
    t.reading (t.getItem (-1)) fun last =>
      if t.time evt < t.time last then
        .ok (t, .error (.invalidArgumentError (t.earlierText evt (t.time last))))
      else if t.isEndTrack last ∧ t.time last = t.time evt then t.changed (t.events.insert 0 (-1) evt)
      else t.changed (t.events.append 0 evt)
  else t.changed (t.events.append 0 evt)

/-- `__binsearch`; the range becomes shorter with each call. -/
def binsearch (time : Nat) : Nat → Int → Int → Reading Int
  | 0, _, _ => ExceptT.mk (.error .forever)
  | fuel + 1, start, stop =>
    if stop - start < 2 then do
      let e ← t.getItem start
      return if t.time e < time then stop else start
    else do
      let mid := start + (stop - start) / 2
      let e ← t.getItem mid
      if t.time e < time then binsearch time fuel mid stop else binsearch time fuel start mid

def find (time : Nat) : Reading Int := t.binsearch time (t.events.size + 1) 0 t.count

/-- The loop of `find` for an event; there are as many rounds as events are left. -/
def findFrom (event : Nat) : Nat → Int → Reading Int
  | 0, _ => ExceptT.mk (.error .forever)
  | fuel + 1, i =>
    if i < t.count then do
      let e ← t.getItem i
      if t.time e = t.time event then
        if e = event then return i else findFrom event fuel (i + 1)
      else return -1
    else return -1

/-- `find` for an event -/
def findEvent (event : Nat) : Reading Int := do
  let i ← t.find (t.time event)
  if i = t.count then return -1 else t.findFrom event (t.events.size + 1) i

def delete (index : BitVec 32) : Changing Unit := t.changed (t.events.delete index)

def remove (event : Nat) : Changing Bool :=
  t.reading (t.findEvent event) fun index =>
    if index = -1 then .ok (t, .ok false)
    else (t.delete (BitVec.ofInt 32 index)).andThen fun t r => .ok (t, r.map fun _ => true)

/-- Whether a time is before the one of the left neighbor. -/
def early (index : Int) (time : Nat) : Reading Bool :=
  if index > 0 then (fun e => decide (time < t.time e)) <$> t.getItem (index - 1) else pure false

/-- Whether a time is behind the one of the right neighbor. -/
def late (index : Int) (time : Nat) : Reading Bool :=
  if index < t.count - 1 then (fun e => decide (time > t.time e)) <$> t.getItem (index + 1) else pure false

/-- Whether the new time of an event is out of place. -/
def outOfPlace (index : Int) (time : Nat) : Reading Bool := do
  let early ← t.early index time
  if early then return true else t.late index time

def relocate (event : Nat) (time : UInt32) : Changing Unit :=
  if t.time event = time.toNat then .ok (t, .ok ())
  else t.reading (t.findEvent event) fun index =>
    if index = -1 then .ok (t, .error (.assertionError "The event is not in the track."))
    else
      let t := { t with store := Function.update t.store event { t.store event with time } }
      t.reading (t.outOfPlace index time.toNat) fun out =>
        if out then (t.delete (BitVec.ofInt 32 index)).andThen fun t r =>
          match r with
          | .ok () => t.add event
          | .error e => .ok (t, .error e)
        else .ok (t, .ok ())

def call : Call → Changing Unit
  | .add event => t.add event
  | .append evt => t.append evt
  | .relocate event time => t.relocate event time
  | .remove event => (t.remove event).andThen fun t r => .ok (t, r.map fun _ => ())
  | .delete index => t.delete index

/-- A run goes on after an exception. -/
def run (t : SharedTrack) : List Call → Except Fault SharedTrack
  | [] => return t
  | c :: cs => do
    let (t, _) ← t.call c
    run t cs

/-- The events are sorted by time, and an end-of-track event is the last one at its time. -/
structure Ordered (t : SharedTrack) (events : List Nat) : Prop where
  sorted : events.Pairwise fun x y => t.time x ≤ t.time y
  ended : events.Pairwise fun x y => t.isEndTrack x → t.time x ≠ t.time y

/-- Both searches find what they look for. -/
def Finds (t : SharedTrack) (events : List Nat) : Prop :=
  (∀ time, t.find time = pure ((events.findIdx fun e => decide (time ≤ t.time e) : Nat) : Int)) ∧
    ∀ event, t.findEvent event = pure (if event ∈ events then (events.idxOf event : Int) else -1)

def contents : List Nat := t.events.rep.take t.events.size

/-- An end-of-track event at the time of an event is the last event of the track, and the event is none itself. -/
def AddOk (events : List Nat) (event : Nat) : Prop :=
  ∀ x ∈ events, t.isEndTrack x → t.time x = t.time event → events.getLast? = some x ∧ ¬t.isEndTrack event

instance (events : List Nat) (event : Nat) : Decidable (t.AddOk events event) :=
  inferInstanceAs (Decidable (∀ x ∈ events, _ → _ → _ ∧ _))

/-- The event is in the track only once. If it moves, it may be added to the others; if it stays, no end-of-track
event at its new time is before it, nor is it one itself with an event at that time behind it. -/
def RelocateOk (event : Nat) (time : UInt32) : Prop :=
  let before := t.contents.take (t.contents.idxOf event)
  let behind := t.contents.drop (t.contents.idxOf event + 1)
  let moved := { t with store := Function.update t.store event { t.store event with time } }
  event ∉ behind ∧
    if (∃ x, before.getLast? = some x ∧ time.toNat < moved.time x) ∨
        ∃ y, behind.head? = some y ∧ moved.time y < time.toNat then moved.AddOk (before ++ behind) event
    else (∀ x ∈ before, moved.isEndTrack x → moved.time x ≠ time.toNat) ∧
      (moved.isEndTrack event → ∀ y ∈ behind, moved.time y ≠ time.toNat)

instance (event : Nat) (time : UInt32) : Decidable (t.RelocateOk event time) := by
  unfold RelocateOk
  infer_instance

/-- An array has at most 2 ^ 31 elements, and only fewer of them are counted by an `int`. -/
def CallOk : Call → Prop
  | .add event => t.contents.length < 2 ^ 31 ∧ t.AddOk t.contents event
  | .append evt => t.contents.length < 2 ^ 31 ∧
    ∀ last, t.contents.getLast? = some last → t.isEndTrack last → t.time last = t.time evt → ¬t.isEndTrack evt
  | .relocate event time => t.time event ≠ time.toNat → t.contents.length < 2 ^ 31 ∧
    (event ∈ t.contents → t.RelocateOk event time)
  | .remove _ => t.contents.length < 2 ^ 31
  | .delete _ => True

def RunOk (t : SharedTrack) : List Call → Prop
  | [] => True
  | c :: cs => t.CallOk c ∧ ∀ t' r, t.call c = .ok (t', r) → RunOk t' cs

open ElemArray (Holds)

/-- What a call leaves. -/
structure Good (t : SharedTrack) (events : List Nat) : Prop where
  holds : Holds t.events events
  full : events.length ≤ 2 ^ 31
  ordered : Ordered t events

variable {t : SharedTrack} {P A B : List Nat} {x event : Nat} {index : BitVec 32} {cs : List Call} {α β : Type}

theorem reading_pure {x : Reading α} {a : α} {f : α → Changing β} (h : x = pure a) : t.reading x f = f a := by
  rw [h]
  rfl

theorem count_eq (h : Holds t.events P) (hsmall : P.length < 2 ^ 31) : t.count = P.length := by
  rw [count, h.size, BitVec.toInt_eq_toNat_cond, BitVec.toNat_ofNat]
  split <;> omega

theorem adjust_middle (h : Holds t.events P) (hsmall : P.length ≤ 2 ^ 31) {n : Nat} (hn : n < P.length) :
    (t.events.adjust (BitVec.ofInt 32 n)).toNat = n := by
  have hint : (BitVec.ofInt 32 n).toInt = n := by
    rw [BitVec.toInt_ofInt, Int.bmod_def]
    omega
  have hposition : ElemArray.position t.events.size (BitVec.ofInt 32 n) = n := by
    rw [ElemArray.position, hint, if_neg (by omega)]
  rw [ElemArray.adjust_eq (h.size ▸ hsmall) (by rw [hposition]; omega), hposition, Int.toNat_natCast]

theorem adjust_last (h : Holds t.events P) (hsmall : P.length ≤ 2 ^ 31) (hne : P ≠ []) :
    (t.events.adjust (BitVec.ofInt 32 (-1))).toNat = P.length - 1 := by
  have hpos := List.length_pos_of_ne_nil hne
  have hint : (BitVec.ofInt 32 (-1)).toInt = -1 := by decide
  have hposition : ElemArray.position t.events.size (BitVec.ofInt 32 (-1)) = P.length - 1 := by
    rw [ElemArray.position, hint, if_pos (by omega), h.size]
    omega
  rw [ElemArray.adjust_eq (h.size ▸ hsmall) (by rw [hposition]; omega), hposition]
  omega

theorem slot_ok (h : Holds t.events (A ++ x :: B)) (hA : A.length < 2 ^ 31) :
    A.length < t.events.size ∧ slot t.events.rep A.length = .ok x := by
  obtain ⟨C, hC⟩ := h.elems
  constructor
  · rw [h.size, List.length_append, List.length_cons]
    omega
  · rw [hC, List.append_assoc]
    exact slot_middle hA

theorem getItem_of_adjust (h : Holds t.events (A ++ x :: B)) (hsmall : (A ++ x :: B).length ≤ 2 ^ 31) {index : Int}
    (hA : (t.events.adjust (BitVec.ofInt 32 index)).toNat = A.length) : t.getItem index = pure x := by
  obtain ⟨hlt, hslot⟩ := slot_ok h (by rw [List.length_append, List.length_cons] at hsmall; omega)
  rw [getItem, ElemArray.getItem, ElemArray.fixIntIndex_eq, hA, if_neg fun hout => Nat.not_le_of_lt hlt hout.2]
  dsimp only
  rw [if_neg (Nat.not_le_of_lt hlt), hslot]
  rfl

theorem getItem_middle (h : Holds t.events (A ++ x :: B)) (hsmall : (A ++ x :: B).length ≤ 2 ^ 31) :
    t.getItem A.length = pure x :=
  getItem_of_adjust h hsmall (adjust_middle h hsmall (by rw [List.length_append, List.length_cons]; omega))

theorem getItem_first (h : Holds t.events (x :: P)) : t.getItem 0 = pure x := by
  obtain ⟨C, hC⟩ := h.elems
  exact ElemArray.getItem_middle (A := []) hC rfl (by rw [h.size]; exact Nat.succ_pos _) (by decide)

theorem getItem_last (h : Holds t.events (A ++ [x])) (hsmall : (A ++ [x]).length ≤ 2 ^ 31) : t.getItem (-1) = pure x :=
  getItem_of_adjust h hsmall (by rw [adjust_last h hsmall (List.concat_ne_nil _ _), List.length_append]; rfl)

theorem length_insert (hsmall : (A ++ B).length < 2 ^ 31) (event : Nat) : (A ++ event :: B).length ≤ 2 ^ 31 := by
  rw [List.length_append] at hsmall
  rw [List.length_append, List.length_cons]
  omega

/-- Where `add` puts an event. -/
inductive Placed (t : SharedTrack) (event : Nat) : List Nat → List Nat → Prop
  | behind {A : List Nat} : (∀ last, A.getLast? = some last → t.time last ≤ t.time event ∧
      (t.isEndTrack last → t.time last ≠ t.time event)) → Placed t event A []
  | beforeEnd {A : List Nat} {last : Nat} : t.isEndTrack last → t.time last = t.time event → Placed t event A [last]
  | beforeLater {A B : List Nat} {y last : Nat} : (∀ x ∈ A, t.time x ≤ t.time event) → t.time event < t.time y →
      (A ++ y :: B).getLast? = some last → t.time event < t.time last → Placed t event A (y :: B)

theorem insert_ok (h : Holds t.events (A ++ B)) (hsmall : (A ++ B).length < 2 ^ 31)
    (hA : (t.events.adjust index).toNat = A.length) (event : Nat) :
    ∃ m', t.changed (t.events.insert 0 index event) = .ok ({ t with events := m' }, .ok ()) ∧
      Holds m' (A ++ event :: B) := by
  obtain ⟨m', he, h'⟩ := h.insert 0 hsmall hA.symm event
  exact ⟨m', by rw [changed, he]; rfl, h'⟩

theorem append_ok (h : Holds t.events P) (hsmall : P.length < 2 ^ 31) (event : Nat) :
    ∃ m', t.changed (t.events.append 0 event) = .ok ({ t with events := m' }, .ok ()) ∧ Holds m' (P ++ [event]) := by
  obtain ⟨m', he, h'⟩ := h.append 0 hsmall event
  exact ⟨m', by rw [changed, he]; rfl, h'⟩

theorem addBeforeLater_ok (h : Holds t.events (A ++ B)) (hsmall : (A ++ B).length < 2 ^ 31)
    (hbefore : ∀ x ∈ A, t.time x ≤ t.time event) (hlast : B.getLast? = some last)
    (hlater : t.time event < t.time last) :
    ∃ A' B' m', A ++ B = A' ++ B' ∧
      t.addBeforeLater event B.length = .ok ({ t with events := m' }, .ok ()) ∧ Holds m' (A' ++ event :: B') ∧
      Placed t event A' B' := by
  induction B generalizing A with
  | nil => cases hlast
  | cons y B ih =>
    have hindex : t.events.size - (B.length + 1) = A.length := by
      rw [h.size, List.length_append, List.length_cons, Nat.add_sub_cancel]
    have hget := getItem_middle h (Nat.le_of_lt hsmall)
    by_cases hy : t.time y > t.time event
    · have hadjust := adjust_middle h (Nat.le_of_lt hsmall) (n := A.length)
        (by rw [List.length_append, List.length_cons]; omega)
      obtain ⟨m', he, h'⟩ := insert_ok h hsmall hadjust event
      refine ⟨A, y :: B, m', rfl, ?_, h', ?_⟩
      · rw [List.length_cons, addBeforeLater, hindex, reading_pure hget, if_pos hy, ← he, BitVec.ofInt_natCast]
      · exact .beforeLater hbefore hy (by rw [List.getLast?_append, hlast]; rfl) hlater
    · have hlast' : B.getLast? = some last := by
        cases B with
        | nil =>
          cases hlast
          exact absurd hlater hy
        | cons z B => rwa [List.getLast?_cons_cons] at hlast
      have hbefore' : ∀ x ∈ A ++ [y], t.time x ≤ t.time event := by
        intro x hx
        rcases List.mem_append.mp hx with hx | hx
        · exact hbefore x hx
        · rw [List.mem_singleton.mp hx]
          exact Nat.le_of_not_lt hy
      have hsplit : A ++ y :: B = A ++ [y] ++ B := by rw [List.append_assoc]; rfl
      obtain ⟨A', B', m', hP, he, h', hplaced⟩ :=
        ih (A := A ++ [y]) (hsplit ▸ h) (hsplit ▸ hsmall) hbefore' hlast'
      refine ⟨A', B', m', hsplit.trans hP, ?_, h', hplaced⟩
      rw [List.length_cons, addBeforeLater, hindex, reading_pure hget, if_neg hy, he]

theorem add_ok (h : Holds t.events P) (hsmall : P.length < 2 ^ 31) (event : Nat) :
    ∃ A B m', P = A ++ B ∧ t.add event = .ok ({ t with events := m' }, .ok ()) ∧ Holds m' (A ++ event :: B) ∧
      Placed t event A B := by
  rcases List.eq_nil_or_concat' P with rfl | ⟨Q, last, rfl⟩
  · obtain ⟨m', he, h'⟩ := append_ok h hsmall event
    refine ⟨[], [], m', rfl, ?_, h', .behind fun last hlast => ?_⟩
    · rw [add, if_pos (show t.events.size = 0 from h.size), he]
    · cases hlast
  · have hget := getItem_last h (Nat.le_of_lt hsmall)
    have hsize : t.events.size ≠ 0 := by
      rw [h.size, List.length_append]
      exact Nat.succ_ne_zero _
    have hlast : (Q ++ [last]).getLast? = some last := List.getLast?_concat
    rw [add, if_neg hsize, reading_pure hget]
    by_cases hlate : t.time event ≥ t.time last
    · rw [if_pos hlate]
      by_cases hend : t.isEndTrack last ∧ t.time last = t.time event
      · have hadjust := adjust_last h (Nat.le_of_lt hsmall) (List.concat_ne_nil _ _)
        rw [List.length_append] at hadjust
        obtain ⟨m', he, h'⟩ := insert_ok h hsmall hadjust event
        exact ⟨Q, [last], m', rfl, by rw [if_pos hend, ← he]; rfl, h', .beforeEnd hend.1 hend.2⟩
      · obtain ⟨m', he, h'⟩ := append_ok h hsmall event
        refine ⟨Q ++ [last], [], m', (List.append_nil _).symm, by rw [if_neg hend, he], h', .behind fun x hx => ?_⟩
        rw [hlast] at hx
        cases hx
        exact ⟨hlate, fun hisEnd heq => hend ⟨hisEnd, heq⟩⟩
    · rw [if_neg hlate]
      obtain ⟨A, B, m', hP, he, h', hplaced⟩ := addBeforeLater_ok (A := []) (B := Q ++ [last]) h hsmall
        (fun x hx => absurd hx List.not_mem_nil) hlast (Nat.lt_of_not_le hlate)
      exact ⟨A, B, m', hP, by rw [h.size, he], h', hplaced⟩

/-- An event may be before another one. -/
def Before (t : SharedTrack) (x y : Nat) : Prop := t.time x ≤ t.time y ∧ (t.isEndTrack x → t.time x ≠ t.time y)

theorem ordered_iff : Ordered t P ↔ P.Pairwise t.Before := by
  constructor
  · intro h
    exact h.sorted.and h.ended
  · intro h
    exact ⟨h.imp And.left, h.imp And.right⟩

theorem ordered_insert (h : Ordered t (A ++ B)) (hA : ∀ x ∈ A, t.Before x event) (hB : ∀ y ∈ B, t.Before event y) :
    Ordered t (A ++ event :: B) := by
  rw [ordered_iff, List.pairwise_append] at h ⊢
  obtain ⟨hbefore, hbehind, hacross⟩ := h
  refine ⟨hbefore, List.pairwise_cons.mpr ⟨hB, hbehind⟩, fun x hx y hy => ?_⟩
  rcases List.mem_cons.mp hy with rfl | hy
  · exact hA x hx
  · exact hacross x hx y hy

theorem Before.trans {y z : Nat} (h : t.Before x y) (h' : t.Before y z) : t.Before x z := by
  refine ⟨Nat.le_trans h.1 h'.1, fun hend heq => ?_⟩
  have hne := h.2 hend
  have hle := h.1
  have hle' := h'.1
  omega

theorem Placed.ordered (hplaced : Placed t event A B) (h : Ordered t (A ++ B)) (hok : t.AddOk (A ++ B) event) :
    Ordered t (A ++ event :: B) := by
  cases hplaced with
  | behind hlast =>
    refine ordered_insert h (fun x hx => ?_) fun y hy => absurd hy List.not_mem_nil
    rcases List.eq_nil_or_concat' A with rfl | ⟨Q, last, rfl⟩
    · exact absurd hx List.not_mem_nil
    · have hevent := hlast last List.getLast?_concat
      rcases List.mem_append.mp hx with hx | hx
      · rw [List.append_nil, ordered_iff, List.pairwise_append] at h
        exact (h.2.2 x hx last (List.mem_singleton_self last)).trans hevent
      · rw [List.mem_singleton.mp hx]
        exact hevent
  | @beforeEnd last hend heq =>
    refine ordered_insert h (fun x hx => ?_) fun y hy => ?_
    · rw [ordered_iff, List.pairwise_append] at h
      have hlast := h.2.2 x hx last (List.mem_singleton_self last)
      rwa [Before, heq] at hlast
    · obtain rfl := List.mem_singleton.mp hy
      have hnot := (hok y (List.mem_append_right _ hy) hend heq).2
      exact ⟨Nat.le_of_eq heq.symm, fun hisEnd => absurd hisEnd hnot⟩
  | @beforeLater B y last hbefore hlater hlast hlt =>
    refine ordered_insert h (fun x hx => ⟨hbefore x hx, fun hend heq => ?_⟩) fun z hz => ?_
    · have hx := (hok x (List.mem_append_left _ hx) hend heq).1
      rw [hlast] at hx
      cases hx
      exact Nat.ne_of_gt hlt heq
    · have hle : t.time event < t.time z := by
        rcases List.mem_cons.mp hz with rfl | hz
        · exact hlater
        · have hsorted := (List.pairwise_append.mp h.sorted).2.1
          exact Nat.lt_of_lt_of_le hlater ((List.pairwise_cons.mp hsorted).1 z hz)
      exact ⟨Nat.le_of_lt hle, fun _ => Nat.ne_of_lt hle⟩

theorem Ordered.sublist (h : Ordered t P) (hsub : Q.Sublist P) : Ordered t Q :=
  ⟨h.sorted.sublist hsub, h.ended.sublist hsub⟩

theorem AddOk.of_last (h : Ordered t P) (hlast : ∀ last, P.getLast? = some last → t.time last ≤ t.time event ∧
    (t.isEndTrack last → t.time last = t.time event → ¬t.isEndTrack event)) : t.AddOk P event := by
  intro x hx hend heq
  rcases List.eq_nil_or_concat' P with rfl | ⟨Q, last, rfl⟩
  · exact absurd hx List.not_mem_nil
  · obtain ⟨hle, hnot⟩ := hlast last List.getLast?_concat
    rcases List.mem_append.mp hx with hx | hx
    · rw [ordered_iff, List.pairwise_append] at h
      have hbefore := h.2.2 x hx last (List.mem_singleton_self last)
      have hne := hbefore.2 hend
      have hle' := hbefore.1
      omega
    · obtain rfl := List.mem_singleton.mp hx
      exact ⟨List.getLast?_concat, hnot hend heq⟩

/-- Except for earlier events, `append` is `add`. -/
theorem append_eq_add (hget : t.getItem (-1) = pure last) (hle : t.time last ≤ t.time event) :
    t.append event = t.add event := by
  rw [append, add, reading_pure hget, reading_pure hget, if_neg (Nat.not_lt_of_le hle), if_pos hle]
  by_cases hzero : t.events.size = 0
  · rw [if_neg (not_not_intro hzero), if_pos hzero]
  · rw [if_pos hzero, if_neg hzero]

open LowerBounds (Splits)

section

variable (h : Holds t.events P)

include h

theorem getItem_ok (hsmall : P.length ≤ 2 ^ 31) {i : Nat} (hx : P[i]? = some x) : t.getItem i = pure x := by
  obtain ⟨A, B, rfl, rfl⟩ := Linked.exists_split hx
  exact getItem_middle h hsmall

theorem binsearch_ok (hsmall : P.length < 2 ^ 31) {time k : Nat} (hk : Splits (fun e => time ≤ t.time e) P k)
    {start stop fuel : Nat} (hlt : start < stop) (hstop : stop ≤ P.length) (hlow : start ≤ k) (hhigh : k ≤ stop)
    (hfuel : stop - start ≤ fuel) : t.binsearch time fuel start stop = pure (k : Int) := by
  induction fuel generalizing start stop with
  | zero => omega
  | succ fuel ih =>
    rw [binsearch]
    by_cases hshort : (stop : Int) - start < 2
    · have hx := List.getElem?_eq_getElem (show start < P.length by omega)
      have hiff := hk.iff hx
      rw [if_pos hshort, getItem_ok h (Nat.le_of_lt hsmall) hx, pure_bind]
      by_cases hless : t.time P[start] < time
      · rw [if_pos hless]
        exact congrArg (fun i : Nat => pure (i : Int)) (show stop = k by omega)
      · rw [if_neg hless]
        exact congrArg (fun i : Nat => pure (i : Int)) (show start = k by omega)
    · have hmid : (start : Int) + ((stop : Int) - start) / 2 = ((start + (stop - start) / 2 : Nat) : Int) := by omega
      have hx := List.getElem?_eq_getElem (show start + (stop - start) / 2 < P.length by omega)
      have hiff := hk.iff hx
      rw [if_neg hshort]
      dsimp only
      rw [hmid, getItem_ok h (Nat.le_of_lt hsmall) hx, pure_bind]
      by_cases hless : t.time P[start + (stop - start) / 2] < time
      · rw [if_pos hless]
        exact ih (by omega) hstop (by omega) hhigh (by omega)
      · rw [if_neg hless]
        exact ih (by omega) (by omega) hlow (by omega) (by omega)

omit h in
theorem Ordered.splits (h : Ordered t P) (time : Nat) :
    Splits (fun e => time ≤ t.time e) P (P.findIdx fun e => decide (time ≤ t.time e)) :=
  LowerBounds.splits_findIdx (h.sorted.imp fun hle htime => Nat.le_trans htime hle)

theorem find_ok (hsmall : P.length < 2 ^ 31) (hordered : Ordered t P) (hne : P ≠ []) (time : Nat) :
    t.find time = pure ((P.findIdx fun e => decide (time ≤ t.time e) : Nat) : Int) := by
  rw [find, count_eq h hsmall, h.size]
  exact binsearch_ok h hsmall (hordered.splits time) (List.length_pos_of_ne_nil hne) (Nat.le_refl _) (Nat.zero_le _)
    (hordered.splits time).inside (by omega)

omit h in
/-- In an empty track there is an event looked at all the same. -/
theorem find_empty (h : Holds t.events []) (time : Nat) :
    t.find time = throw (.indexError (ElemArray.getItemText 0 0)) := by
  have hzero : t.events.size = 0 := h.size
  have hget : t.getItem 0 = throw (.indexError (ElemArray.getItemText 0 0)) := by
    rw [getItem, ElemArray.getItem, ElemArray.fixIntIndex, if_neg (by decide)]
    dsimp only
    rw [if_pos (by rw [hzero]; exact Nat.zero_le _), hzero]
    rfl
  rw [find, count_eq h (by decide), binsearch, if_pos (by decide), hget]
  rfl

theorem findFrom_found (hsmall : P.length < 2 ^ 31) {i j fuel : Nat} (hle : i ≤ j) (hj : P[j]? = some event)
    (hfirst : ∀ m < j, P[m]? ≠ some event) (htime : ∀ m e, i ≤ m → m ≤ j → P[m]? = some e → t.time e = t.time event)
    (hfuel : j < i + fuel) : t.findFrom event fuel i = pure (j : Int) := by
  have hlt : j < P.length := (List.getElem?_eq_some_iff.mp hj).1
  induction fuel generalizing i with
  | zero => omega
  | succ fuel ih =>
    have hx := List.getElem?_eq_getElem (show i < P.length by omega)
    rw [findFrom, if_pos (by rw [count_eq h hsmall]; omega), getItem_ok h (Nat.le_of_lt hsmall) hx, pure_bind,
      if_pos (htime i _ (Nat.le_refl i) hle hx)]
    by_cases hij : i = j
    · subst hij
      rw [hj] at hx
      rw [if_pos (Option.some.inj hx).symm]
    · have hne : P[i] ≠ event := fun heq => hfirst i (by omega) (heq ▸ hx)
      rw [if_neg hne]
      exact ih (i := i + 1) (by omega) (fun m e hm hmj => htime m e (by omega) hmj) (by omega)

theorem findFrom_missing (hsmall : P.length < 2 ^ 31) (hnot : event ∉ P) {i fuel : Nat} (hle : i ≤ P.length)
    (hfuel : P.length < i + fuel) : t.findFrom event fuel i = pure (-1) := by
  induction fuel generalizing i with
  | zero => omega
  | succ fuel ih =>
    rw [findFrom, count_eq h hsmall]
    by_cases hlt : i < P.length
    · have hx := List.getElem?_eq_getElem hlt
      have hne : P[i] ≠ event := fun heq => hnot (heq ▸ List.getElem_mem hlt)
      rw [if_pos (by omega), getItem_ok h (Nat.le_of_lt hsmall) hx, pure_bind]
      by_cases htime : t.time P[i] = t.time event
      · rw [if_pos htime, if_neg hne]
        exact ih (i := i + 1) hlt (by omega)
      · rw [if_neg htime]
    · rw [if_neg (by omega)]

theorem findEvent_ok (hsmall : P.length < 2 ^ 31) (hordered : Ordered t P) (hne : P ≠ []) (event : Nat) :
    t.findEvent event = pure (if event ∈ P then (P.idxOf event : Int) else -1) := by
  have hk := hordered.splits (t.time event)
  have hle := hk.inside
  rw [findEvent, find_ok h hsmall hordered hne, pure_bind, count_eq h hsmall, h.size]
  by_cases hmem : event ∈ P
  · rw [if_pos hmem]
    have hlt : P.idxOf event < P.length := List.idxOf_lt_length_of_mem hmem
    have hj : P[P.idxOf event]? = some event := by
      rw [List.getElem?_eq_getElem hlt, List.getElem_idxOf]
    have hkj := (hk.iff hj).mp (Nat.le_refl _)
    rw [if_neg (by omega)]
    refine findFrom_found h hsmall hkj hj (fun m hm heq => ?_) (fun m e hkm hmj he => ?_) (by omega)
    · obtain ⟨hlt', heq'⟩ := List.getElem?_eq_some_iff.mp heq
      exact absurd heq' (beq_eq_false_iff_ne.mp (List.not_of_lt_findIdx hm))
    · have hlow := (hk.iff he).mpr hkm
      rcases Nat.lt_or_eq_of_le hmj with hm | rfl
      · obtain ⟨hm', rfl⟩ := List.getElem?_eq_some_iff.mp he
        have hhigh := List.pairwise_iff_getElem.mp hordered.sorted m _ hm' hlt hm
        rw [List.getElem_idxOf] at hhigh
        exact Nat.le_antisymm hhigh hlow
      · rw [hj] at he
        rw [Option.some.inj he]
  · rw [if_neg hmem]
    split
    next => rfl
    next => exact findFrom_missing h hsmall hmem hle (by omega)

omit h in
theorem delete_middle (h : Holds t.events (A ++ x :: B)) (hsmall : (A ++ x :: B).length ≤ 2 ^ 31)
    (hA : (t.events.adjust index).toNat = A.length) :
    ∃ m', t.delete index = .ok ({ t with events := m' }, .ok ()) ∧ Holds m' (A ++ B) := by
  obtain ⟨m', he, h'⟩ := h.delete hsmall hA.symm
  exact ⟨m', by rw [delete, changed, he]; rfl, h'⟩

theorem delete_ok (hsmall : P.length ≤ 2 ^ 31) (index : BitVec 32) :
    ∃ m' r P', t.delete index = .ok ({ t with events := m' }, r) ∧ Holds m' P' ∧ P'.Sublist P := by
  by_cases hlt : (t.events.adjust index).toNat < t.events.size
  · obtain ⟨A, x, B, rfl, hA, -⟩ := h.split hsmall hlt
    obtain ⟨m', he, h'⟩ := delete_middle h hsmall hA.symm
    exact ⟨m', _, A ++ B, he, h', (List.sublist_cons_self x B).append_left A⟩
  · refine ⟨t.events, .error (.indexError "Index out of range in Array.delete()"), P, ?_, h, List.Sublist.refl P⟩
    rw [delete, changed, ElemArray.delete, if_pos (Nat.le_of_not_lt hlt)]
    rfl

omit h in
theorem reading_throw {x : Reading α} {e : Exc} {f : α → Changing β} (h : x = throw e) :
    t.reading x f = .ok (t, .error e) := by
  rw [h]
  rfl

omit h in
theorem findEvent_empty (h : Holds t.events []) (event : Nat) :
    t.findEvent event = throw (.indexError (ElemArray.getItemText 0 0)) := by
  rw [findEvent, find_empty h]
  rfl

theorem remove_ok (hsmall : P.length < 2 ^ 31) (hordered : Ordered t P) (event : Nat) :
    ∃ m' r P', t.remove event = .ok ({ t with events := m' }, r) ∧ Holds m' P' ∧ P'.Sublist P := by
  by_cases hempty : P = []
  · subst hempty
    exact ⟨t.events, _, [], reading_throw (findEvent_empty h event), h, List.Sublist.refl _⟩
  have hfind := findEvent_ok h hsmall hordered hempty event
  by_cases hmem : event ∈ P
  · rw [if_pos hmem] at hfind
    obtain ⟨m', r, P', he, h', hsub⟩ := delete_ok h (Nat.le_of_lt hsmall) (BitVec.ofInt 32 (P.idxOf event))
    refine ⟨m', r.map fun _ => true, P', ?_, h', hsub⟩
    rw [remove, reading_pure hfind, if_neg (by omega), he]
    rfl
  · rw [if_neg hmem] at hfind
    exact ⟨t.events, _, P, by rw [remove, reading_pure hfind, if_pos rfl], h, List.Sublist.refl P⟩

end

theorem Ordered.congr {t' : SharedTrack} (h : Ordered t P) (hstore : ∀ e ∈ P, t'.store e = t.store e) :
    Ordered t' P := by
  have htime : ∀ e ∈ P, t'.time e = t.time e := fun e he => by rw [time, time, hstore e he]
  have hend : ∀ e ∈ P, t'.isEndTrack e = t.isEndTrack e := fun e he => by rw [isEndTrack, isEndTrack, hstore e he]
  rw [ordered_iff] at h ⊢
  refine h.imp_of_mem fun hx hy hbefore => ?_
  rwa [Before, htime _ hx, htime _ hy, hend _ hx]

theorem early_ok (h : Holds t.events (A ++ x :: B)) (hsmall : (A ++ x :: B).length ≤ 2 ^ 31) (time : Nat) :
    t.early A.length time = pure (decide (∃ y, A.getLast? = some y ∧ time < t.time y)) := by
  rw [early]
  rcases List.eq_nil_or_concat' A with rfl | ⟨Q, y, rfl⟩
  · rw [if_neg (by decide), decide_eq_false]
    rintro ⟨y, hy, -⟩
    cases hy
  · have hplace : ((Q ++ [y]).length : Int) - 1 = Q.length := by
      rw [List.length_append, List.length_singleton]
      omega
    have hsplit : Q ++ [y] ++ x :: B = Q ++ y :: x :: B := by rw [List.append_assoc]; rfl
    rw [hsplit] at h hsmall
    rw [if_pos (by rw [List.length_append, List.length_singleton]; omega), hplace, getItem_middle h hsmall, map_pure]
    refine congrArg pure (decide_eq_decide.mpr ?_)
    rw [List.getLast?_concat]
    constructor
    · exact fun hlt => ⟨y, rfl, hlt⟩
    · rintro ⟨z, hz, hlt⟩
      cases hz
      exact hlt

theorem late_ok (h : Holds t.events (A ++ x :: B)) (hsmall : (A ++ x :: B).length < 2 ^ 31) (time : Nat) :
    t.late A.length time = pure (decide (∃ y, B.head? = some y ∧ t.time y < time)) := by
  rw [late, count_eq h hsmall]
  cases B with
  | nil =>
    rw [if_neg (by rw [List.length_append, List.length_singleton]; omega), decide_eq_false]
    rintro ⟨y, hy, -⟩
    cases hy
  | cons y B =>
    have hplace : (A.length : Int) + 1 = (A ++ [x]).length := by
      rw [List.length_append, List.length_singleton]
      omega
    have hsplit : A ++ x :: y :: B = A ++ [x] ++ y :: B := by rw [List.append_assoc]; rfl
    have hless : (A.length : Int) < (A ++ x :: y :: B).length - 1 := by
      rw [List.length_append, List.length_cons, List.length_cons]
      omega
    rw [if_pos hless, hplace]
    rw [hsplit] at h hsmall
    rw [getItem_middle h (Nat.le_of_lt hsmall), map_pure]
    refine congrArg pure (decide_eq_decide.mpr ?_)
    constructor
    · exact fun hlt => ⟨y, rfl, hlt⟩
    · rintro ⟨z, hz, hlt⟩
      cases hz
      exact hlt

theorem outOfPlace_ok (h : Holds t.events (A ++ x :: B)) (hsmall : (A ++ x :: B).length < 2 ^ 31) (time : Nat) :
    t.outOfPlace A.length time = pure (decide ((∃ y, A.getLast? = some y ∧ time < t.time y) ∨
      ∃ y, B.head? = some y ∧ t.time y < time)) := by
  rw [outOfPlace, early_ok h (Nat.le_of_lt hsmall), pure_bind]
  by_cases hearly : ∃ y, A.getLast? = some y ∧ time < t.time y
  · rw [decide_eq_true hearly, decide_eq_true (Or.inl hearly)]
    rfl
  · rw [decide_eq_false hearly]
    refine (late_ok h hsmall time).trans (congrArg pure (decide_eq_decide.mpr ?_))
    exact (or_iff_right hearly).symm

theorem contents_eq (h : Holds t.events P) : t.contents = P := by
  obtain ⟨C, hC⟩ := h.elems
  rw [contents, hC, h.size, List.take_left]

/-- An event that stays where it is. -/
theorem ordered_stay (h : Ordered t (A ++ B)) {time : Nat} (htime : t.time event = time)
    (hearly : ¬∃ y, A.getLast? = some y ∧ time < t.time y) (hlate : ¬∃ y, B.head? = some y ∧ t.time y < time)
    (hbefore : ∀ x ∈ A, t.isEndTrack x → t.time x ≠ time)
    (hbehind : t.isEndTrack event → ∀ y ∈ B, t.time y ≠ time) : Ordered t (A ++ event :: B) := by
  obtain ⟨hA, hB, -⟩ := List.pairwise_append.mp h.sorted
  refine ordered_insert h (fun x hx => ⟨?_, ?_⟩) fun y hy => ⟨?_, ?_⟩
  · rcases List.eq_nil_or_concat' A with rfl | ⟨Q, z, rfl⟩
    · exact absurd hx List.not_mem_nil
    · have hz : t.time z ≤ time := Nat.le_of_not_lt fun hlt => hearly ⟨z, List.getLast?_concat, hlt⟩
      rw [htime]
      rcases List.mem_append.mp hx with hx | hx
      · exact Nat.le_trans ((List.pairwise_append.mp hA).2.2 x hx z (List.mem_singleton_self z)) hz
      · rwa [List.mem_singleton.mp hx]
  · rw [htime]
    exact hbefore x hx
  · cases B with
    | nil => exact absurd hy List.not_mem_nil
    | cons z B =>
      have hz : time ≤ t.time z := Nat.le_of_not_lt fun hlt => hlate ⟨z, rfl, hlt⟩
      rw [htime]
      rcases List.mem_cons.mp hy with rfl | hy
      · exact hz
      · exact Nat.le_trans hz ((List.pairwise_cons.mp hB).1 y hy)
  · rw [htime]
    exact fun hend => (hbehind hend y hy).symm

/-- An event with its new time goes where it belongs. -/
theorem reposition_ok (h : Holds t.events (A ++ event :: B)) (hsmall : (A ++ event :: B).length < 2 ^ 31)
    (hordered : Ordered t (A ++ B)) {time : Nat} (htime : t.time event = time)
    (hok : if (∃ x, A.getLast? = some x ∧ time < t.time x) ∨ ∃ y, B.head? = some y ∧ t.time y < time
      then t.AddOk (A ++ B) event
      else (∀ x ∈ A, t.isEndTrack x → t.time x ≠ time) ∧ (t.isEndTrack event → ∀ y ∈ B, t.time y ≠ time)) :
    ∃ t' r P', (t.reading (t.outOfPlace A.length time) fun out =>
        if out then (t.delete (BitVec.ofInt 32 A.length)).andThen fun t r =>
          match r with
          | .ok () => t.add event
          | .error e => .ok (t, .error e)
        else .ok (t, .ok ())) = .ok (t', r) ∧ Good t' P' := by
  rw [reading_pure (outOfPlace_ok h hsmall time)]
  by_cases hout : (∃ x, A.getLast? = some x ∧ time < t.time x) ∨ ∃ y, B.head? = some y ∧ t.time y < time
  · rw [if_pos hout] at hok
    have hadjust := adjust_middle h (Nat.le_of_lt hsmall) (n := A.length)
      (by rw [List.length_append, List.length_cons]; omega)
    obtain ⟨m₁, he₁, h₁⟩ := delete_middle h (Nat.le_of_lt hsmall) hadjust
    have hsmall₁ : (A ++ B).length < 2 ^ 31 := by
      rw [List.length_append, List.length_cons] at hsmall
      rw [List.length_append]
      omega
    obtain ⟨A', B', m₂, hP, he₂, h₂, hplaced⟩ := add_ok (t := { t with events := m₁ }) h₁ hsmall₁ event
    have hordered₁ : Ordered { t with events := m₁ } (A ++ B) := hordered.congr fun e _ => rfl
    have hordered₂ := hplaced.ordered (hP ▸ hordered₁) (hP ▸ hok)
    refine ⟨{ t with events := m₂ }, .ok (), A' ++ event :: B', ?_, h₂, length_insert (hP ▸ hsmall₁) event,
      hordered₂.congr fun e _ => rfl⟩
    rw [if_pos (decide_eq_true hout), he₁]
    exact he₂
  · rw [if_neg hout] at hok
    obtain ⟨hearly, hlate⟩ := not_or.mp hout
    refine ⟨t, .ok (), A ++ event :: B, ?_, h, Nat.le_of_lt hsmall,
      ordered_stay hordered htime hearly hlate hok.1 hok.2⟩
    rw [if_neg (by rw [decide_eq_false hout]; exact Bool.false_ne_true)]

theorem relocate_ok (hgood : Good t P) {time : UInt32}
    (hok : t.CallOk (.relocate event time)) :
    ∃ t' r P', t.relocate event time = .ok (t', r) ∧ Good t' P' := by
  by_cases hsame : t.time event = time.toNat
  · exact ⟨t, _, P, if_pos hsame, hgood⟩
  obtain ⟨h, hfull, hordered⟩ := hgood
  obtain ⟨hsmall, hmoves⟩ := hok hsame
  rw [RelocateOk, contents_eq h] at hmoves
  rw [contents_eq h] at hsmall
  rw [relocate, if_neg hsame]
  by_cases hempty : P = []
  · subst hempty
    exact ⟨t, _, [], reading_throw (findEvent_empty h event), h, hfull, hordered⟩
  have hfind := findEvent_ok h hsmall hordered hempty event
  by_cases hmem : event ∈ P
  · rw [if_pos hmem] at hfind
    rw [reading_pure hfind, if_neg (by omega)]
    obtain ⟨honce, hmoved⟩ := hmoves hmem
    have hlt : P.idxOf event < P.length := List.idxOf_lt_length_of_mem hmem
    have hj : P[P.idxOf event]? = some event := by
      rw [List.getElem?_eq_getElem hlt, List.getElem_idxOf]
    obtain ⟨A, B, rfl, hA⟩ := Linked.exists_split hj
    have hbefore : event ∉ A := by
      intro hmemA
      rw [List.idxOf_append_of_mem hmemA] at hA
      exact Nat.ne_of_lt (List.idxOf_lt_length_of_mem hmemA) hA.symm
    have hdrop : (A ++ event :: B).drop (A.length + 1) = B := by
      rw [← List.drop_drop, List.drop_left]
      rfl
    rw [← hA] at hmoved honce ⊢
    rw [hdrop] at honce
    rw [List.take_left, hdrop] at hmoved
    have hothers : ∀ e ∈ A ++ B, e ≠ event := by
      rintro e he rfl
      exact (List.mem_append.mp he).elim hbefore honce
    refine reposition_ok (t := { t with store := Function.update t.store event { t.store event with time } }) h hsmall
      ?_ ?_ hmoved
    · refine (hordered.sublist ((List.sublist_cons_self event B).append_left A)).congr fun e he => ?_
      exact Function.update_of_ne (hothers e he) _ _
    · change (Function.update t.store event { t.store event with time } event).time.toNat = _
      rw [Function.update_self]
  · rw [if_neg hmem] at hfind
    exact ⟨t, _, P, by rw [reading_pure hfind, if_pos rfl], h, hfull, hordered⟩

theorem append_call_ok (hgood : Good t P) (hok : t.CallOk (.append event)) :
    ∃ t' r P', t.append event = .ok (t', r) ∧ Good t' P' := by
  obtain ⟨h, hfull, hordered⟩ := hgood
  obtain ⟨hsmall, hlast⟩ := hok
  rw [contents_eq h] at hsmall hlast
  rcases List.eq_nil_or_concat' P with rfl | ⟨Q, last, rfl⟩
  · obtain ⟨m', he, h'⟩ := append_ok h hsmall event
    refine ⟨{ t with events := m' }, .ok (), [event], ?_, h', length_insert (A := []) (B := []) hsmall event,
      List.pairwise_singleton _ _, List.pairwise_singleton _ _⟩
    rw [append, if_neg (not_not_intro (show t.events.size = 0 from h.size)), he]
  · have hget := getItem_last h (Nat.le_of_lt hsmall)
    by_cases hearlier : t.time event < t.time last
    · refine ⟨t, .error (.invalidArgumentError (t.earlierText event (t.time last))), Q ++ [last], ?_, h, hfull,
        hordered⟩
      have hsize : t.events.size ≠ 0 := by
        rw [h.size, List.length_append]
        exact Nat.succ_ne_zero _
      rw [append, if_pos hsize, reading_pure hget, if_pos hearlier]
    · have hle := Nat.le_of_not_lt hearlier
      obtain ⟨A, B, m', hP, he, h', hplaced⟩ := add_ok h hsmall event
      have haddOk : t.AddOk (Q ++ [last]) event := .of_last hordered fun x hx => by
        refine ⟨?_, hlast x hx⟩
        rw [List.getLast?_concat] at hx
        cases hx
        exact hle
      have hordered' := hplaced.ordered (hP ▸ hordered) (hP ▸ haddOk)
      exact ⟨{ t with events := m' }, .ok (), A ++ event :: B, (append_eq_add hget hle).trans he, h',
        length_insert (hP ▸ hsmall) event, hordered'.congr fun e _ => rfl⟩

theorem Good.sublist {m : ElemArray Nat} (h : Good t P) (h' : Holds m Q) (hsub : Q.Sublist P) :
    Good { t with events := m } Q :=
  ⟨h', Nat.le_trans hsub.length_le h.full, (h.ordered.sublist hsub).congr fun _ _ => rfl⟩

/-- What one call preserves. -/
theorem call_ok (h : Good t P) {c : Call} (hok : t.CallOk c) : ∃ t' r P', t.call c = .ok (t', r) ∧ Good t' P' := by
  cases c with
  | add event =>
    obtain ⟨hsmall, haddOk⟩ := hok
    rw [contents_eq h.holds] at hsmall haddOk
    obtain ⟨A, B, m', rfl, he, h', hplaced⟩ := add_ok h.holds hsmall event
    exact ⟨{ t with events := m' }, .ok (), A ++ event :: B, he, h', length_insert hsmall event,
      (hplaced.ordered h.ordered haddOk).congr fun e _ => rfl⟩
  | append evt => exact append_call_ok h hok
  | relocate event time => exact relocate_ok h hok
  | remove event =>
    have hsmall : t.contents.length < 2 ^ 31 := hok
    rw [contents_eq h.holds] at hsmall
    obtain ⟨m', r, P', he, h', hsub⟩ := remove_ok h.holds hsmall h.ordered event
    exact ⟨{ t with events := m' }, r.map fun _ => (), P', by rw [call, he]; rfl, h.sublist h' hsub⟩
  | delete index =>
    obtain ⟨m', r, P', he, h', hsub⟩ := delete_ok h.holds h.full index
    exact ⟨{ t with events := m' }, r, P', he, h.sublist h' hsub⟩

theorem run_ok (h : Good t P) (hok : t.RunOk cs) : ∃ t' P', t.run cs = .ok t' ∧ Good t' P' := by
  induction cs generalizing t P with
  | nil => exact ⟨t, P, rfl, h⟩
  | cons c cs ih =>
    obtain ⟨t₁, r, P₁, hcall, h₁⟩ := call_ok h hok.1
    obtain ⟨t₂, P₂, hrun, h₂⟩ := ih h₁ (hok.2 t₁ r hcall)
    refine ⟨t₂, P₂, ?_, h₂⟩
    rw [run, hcall]
    exact hrun

theorem good_init (store : Nat → Event) (shown : Nat → String) : Good (init store shown) [] :=
  ⟨ElemArray.init_holds 0 16, Nat.zero_le _, List.Pairwise.nil, List.Pairwise.nil⟩

/-- In a track that is not empty, the searches find what they look for. -/
theorem finds_iff (h : Holds t.events P) (hsmall : P.length < 2 ^ 31) (hordered : Ordered t P) :
    Finds t P ↔ P ≠ [] := by
  constructor
  · rintro ⟨hfind, -⟩ rfl
    have hthrown := (find_empty h 0).symm.trans (hfind 0)
    cases hthrown
  · intro hne
    exact ⟨find_ok h hsmall hordered hne, findEvent_ok h hsmall hordered hne⟩

/-- In every run the track stays in order, and where it is not empty its events are found. -/
theorem track_run_ordered {events : List Nat} (h : Good t events) (hok : t.RunOk cs) :
    ∃ t' events', t.run cs = .ok t' ∧ Holds t'.events events' ∧ Ordered t' events' ∧
      (events'.length < 2 ^ 31 → (Finds t' events' ↔ events' ≠ [])) := by
  obtain ⟨t', events', hrun, hgood⟩ := run_ok h hok
  exact ⟨t', events', hrun, hgood.holds, hgood.ordered, fun hsmall => finds_iff hgood.holds hsmall hgood.ordered⟩

/-- Notes at 0, 10 and 30 and an end-of-track event at 20. -/
def notesAndEnd (event : Nat) : Event :=
  if event = 2 then ⟨20, .endTrack⟩ else ⟨UInt32.ofNat (10 * event), .noteOn 0 0 0⟩

theorem moved_note_ordered : ∃ t' events',
    (init notesAndEnd fun _ => "a note").run [.add 1, .append 2, .add 0, .relocate 0 15, .remove 1] = .ok t' ∧
      Holds t'.events events' ∧ Ordered t' events' ∧
      (events'.length < 2 ^ 31 → (Finds t' events' ↔ events' ≠ [])) := by
  refine track_run_ordered (good_init _ _) ⟨⟨by decide, by decide⟩, fun t r hr => ?_⟩
  cases hr
  refine ⟨⟨by decide, fun last hlast hend => ?_⟩, fun t r hr => ?_⟩
  · cases hlast
    exact absurd hend (by decide)
  cases hr
  refine ⟨⟨by decide, by decide⟩, fun t r hr => ?_⟩
  cases hr
  refine ⟨fun _ => ⟨by decide, fun _ => by decide⟩, fun t r hr => ?_⟩
  cases hr
  exact ⟨show _ < _ by decide, fun _ _ _ => trivial⟩

/-- A note at the time of an end-of-track event that is not the last event goes behind it. -/
theorem end_not_last : ¬∀ (store : Nat → Event) (shown : Nat → String) (cs : List Call), ∃ t' events',
    (init store shown).run cs = .ok t' ∧ Holds t'.events events' ∧ Ordered t' events' ∧ Finds t' events' := by
  intro hall
  obtain ⟨t', events', hrun, h, hordered, -⟩ := hall (fun e => if e = 0 then ⟨5, .endTrack⟩ else
    if e = 1 then ⟨10, .noteOn 0 0 0⟩ else ⟨5, .noteOn 0 0 0⟩) (fun _ => "a note") [.add 0, .add 1, .add 2]
  cases hrun
  obtain rfl := contents_eq h
  exact absurd hordered.ended (by decide)

end SharedTrack

end Midi

end Crack
