import Crack.Sched.Schedule
import Mathlib.Data.List.Dedup

/-!
# Runs of EventManager

The calls that `run` makes are checked against a ledger, which knows from the calls
alone what is pending. Every call is right as long as the first event is not due
when `run` starts, times lie in the range of the clock, and no callback schedules
an earlier event while another callback of its own time is pending.
-/
namespace Crack

open EventManager (Holds Grows events keyed headTime mem_events events_append events_cons)

/-- The events that the actions schedule, at their times in nanoseconds. -/
def scheduled {κ : Type} : List (Action κ) → List (Int × κ)
  | [] => []
  | .scheduleEvent time callback :: acts => (time.nanos, callback) :: scheduled acts
  | .terminate :: acts => scheduled acts

/-- The events that are scheduled and not yet called, the last time read from the
clock, and whether the poller has been called. -/
structure Ledger (κ : Type) where
  pending : List (Int × κ)
  now : Int
  polled : Bool

/-- The times lie between the epoch and the last one that `int32` seconds can hold. -/
def InRange {κ : Type} (evs : List (Int × κ)) : Prop := ∀ e ∈ evs, 0 ≤ e.1 ∧ e.1 < (2 ^ 31 * billion : Nat)

instance {κ : Type} (evs : List (Int × κ)) : Decidable (InRange evs) :=
  inferInstanceAs (Decidable (∀ e ∈ evs, 0 ≤ e.1 ∧ e.1 < (2 ^ 31 * billion : Nat)))

/-- The events have fewer times than `uint` counts. -/
def Few {κ : Type} (evs : List (Int × κ)) : Prop := (evs.map Prod.fst).dedup.length < 2 ^ 32

instance {κ : Type} (evs : List (Int × κ)) : Decidable (Few evs) := inferInstanceAs (Decidable (_ < _))

namespace Ledger

variable {κ : Type}

def start (acts : List (Action κ)) (clock : TimeVal) : Ledger κ := ⟨scheduled acts, clock.nanos, false⟩

/-- The first event is in the future. -/
structure StartsOrderly (l : Ledger κ) : Prop where
  range : InRange l.pending
  few : Few l.pending
  clock : 0 ≤ l.now
  future : ∀ e ∈ l.pending, 0 < e.1 ∧ l.now ≤ e.1

variable [DecidableEq κ]

def after (l : Ledger κ) : Call κ → Ledger κ
  | .waitAndProcess _ acts clock => ⟨l.pending ++ scheduled acts, clock.nanos, true⟩
  | .callback time callback acts => { l with pending := l.pending.erase ((time : Int), callback) ++ scheduled acts }

/-- A poll ends no later than the first event is due, and after the first poll no
event is due. A callback is called when it is pending, not before its time, and
no pending event is earlier. -/
def Right (l : Ledger κ) : Call κ → Prop
  | .waitAndProcess timeout _ _ =>
    (∀ e ∈ l.pending, ∃ td ∈ timeout, td.nanos ≤ max 0 (e.1 - l.now)) ∧
      (l.polled = true → ∀ e ∈ l.pending, l.now < e.1)
  | .callback time callback _ =>
    ((time : Int), callback) ∈ l.pending ∧ (time : Int) ≤ l.now ∧ ∀ e ∈ l.pending, (time : Int) ≤ e.1

/-- The actions schedule in the range of the clock, and a callback that schedules an
event earlier than its own is the last one of its time. -/
def Orderly (l : Ledger κ) (c : Call κ) : Prop :=
  Few (l.after c).pending ∧
    match c with
    | .waitAndProcess _ acts clock => InRange (scheduled acts) ∧ 0 ≤ clock.nanos
    | .callback time _ acts =>
      InRange (scheduled acts) ∧ ((∃ e ∈ scheduled acts, e.1 < time) → ∀ e ∈ (l.after c).pending, e.1 ≠ time)

instance (l : Ledger κ) : DecidablePred l.Right
  | .waitAndProcess _ _ _ => inferInstanceAs (Decidable (_ ∧ _))
  | .callback _ _ _ => inferInstanceAs (Decidable (_ ∧ _))

instance (l : Ledger κ) : DecidablePred l.Orderly
  | .waitAndProcess _ _ _ => inferInstanceAs (Decidable (_ ∧ _ ∧ _))
  | .callback _ _ _ => inferInstanceAs (Decidable (_ ∧ _ ∧ _))

/-- Each of the calls has the property at the ledger before it. -/
def Each (P : Ledger κ → Call κ → Prop) : Ledger κ → List (Call κ) → Prop
  | _, [] => True
  | l, c :: cs => P l c ∧ Each P (l.after c) cs

instance decidableEach {P : Ledger κ → Call κ → Prop} [∀ l, DecidablePred (P l)] (l : Ledger κ) :
    (cs : List (Call κ)) → Decidable (Each P l cs)
  | [] => inferInstanceAs (Decidable True)
  | c :: cs => have := decidableEach (P := P) (l.after c) cs; inferInstanceAs (Decidable (P l c ∧ Each P (l.after c) cs))

def afterAll (l : Ledger κ) (cs : List (Call κ)) : Ledger κ := cs.foldl after l

variable {P : Ledger κ → Call κ → Prop} {l : Ledger κ} {c : Call κ} {cs cs' : List (Call κ)}

theorem each_append : Each P l (cs ++ cs') ↔ Each P l cs ∧ Each P (l.afterAll cs) cs' := by
  induction cs generalizing l with
  | nil => simp [Each, afterAll]
  | cons c cs ih => simp only [List.cons_append, Each, ih, afterAll, List.foldl_cons, and_assoc]

theorem afterAll_append : l.afterAll (cs ++ cs') = (l.afterAll cs).afterAll cs' := List.foldl_append

/-- The callbacks called, each with its time. -/
def called : List (Call κ) → List (Int × κ)
  | [] => []
  | .waitAndProcess _ _ _ :: cs => called cs
  | .callback time callback _ :: cs => ((time : Int), callback) :: called cs

/-- The events scheduled by the calls. -/
def added : List (Call κ) → List (Int × κ)
  | [] => []
  | .waitAndProcess _ acts _ :: cs => scheduled acts ++ added cs
  | .callback _ _ acts :: cs => scheduled acts ++ added cs

/-- An event is called once or pending. -/
theorem once (h : Each Right l cs) : (called cs ++ (l.afterAll cs).pending).Perm (l.pending ++ added cs) := by
  induction cs generalizing l with
  | nil => simp [called, afterAll, added]
  | cons c cs ih =>
    obtain ⟨hright, h⟩ := h
    have hrec := ih h
    cases c with
    | waitAndProcess timeout acts clock =>
      rw [added, ← List.append_assoc]
      exact hrec
    | callback time callback acts =>
      have hmem : ((time : Int), callback) ∈ l.pending := hright.1
      rw [called, added, List.cons_append, ← List.append_assoc]
      refine (hrec.cons _).trans ?_
      rw [← List.cons_append, after, ← List.cons_append]
      exact ((List.perm_cons_erase hmem).symm.append_right _).append_right _

end Ledger

variable {κ : Type} {l : Ledger κ} {r : Run κ} {L L' : List (Nat × Nat)} {pending : List (Int × κ)}

theorem keyed_eq {acts : List (Action κ)} (h : InRange (scheduled acts)) : keyed acts = scheduled acts := by
  induction acts with
  | nil => rfl
  | cons act acts ih =>
    cases act with
    | scheduleEvent time callback =>
      rw [scheduled] at h
      rw [keyed, scheduled, ih (fun e he => h e (List.mem_cons_of_mem _ he)),
        TimeVal.toNanos_eq (h (time.nanos, callback) List.mem_cons_self).1]
    | terminate => exact ih h

variable {m : EventManager κ}

/-- The times of the entries are the times of their events. -/
theorem EventManager.Holds.length_lt (h : Holds m L) (hperm : pending.Perm (events m.arrays L)) (hfew : Few pending) :
    L.length < 2 ^ 32 := by
  have hnodup : (L.map fun e => (e.1 : Int)).Nodup :=
    List.pairwise_map.mpr (h.sorted.imp fun hlt heq => Nat.ne_of_lt hlt (Int.ofNat.inj heq))
  have hsub : (L.map fun e => (e.1 : Int)) ⊆ (pending.map Prod.fst).dedup := by
    intro t ht
    obtain ⟨e, he, rfl⟩ := List.mem_map.mp ht
    obtain ⟨callback, hcallback⟩ := List.exists_mem_of_ne_nil _ (h.nonempty e he)
    rw [List.mem_dedup, List.mem_map]
    exact ⟨((e.1 : Int), callback), hperm.mem_iff.mpr (mem_events.mpr ⟨e, he, rfl, hcallback⟩), rfl⟩
  have hlen := (List.subperm_of_subset hnodup hsub).length_le
  rw [List.length_map] at hlen
  exact Nat.lt_of_le_of_lt hlen hfew

theorem EventManager.Holds.first {e : Nat × Nat} (h : Holds m (e :: L))
    (hperm : pending.Perm (events m.arrays (e :: L))) :
    (∃ callback, ((e.1 : Int), callback) ∈ pending) ∧ ∀ p ∈ pending, (e.1 : Int) ≤ p.1 := by
  constructor
  · obtain ⟨callback, hcallback⟩ := List.exists_mem_of_ne_nil _ (h.nonempty e List.mem_cons_self)
    exact ⟨callback, hperm.mem_iff.mpr (mem_events.mpr ⟨e, List.mem_cons_self, rfl, hcallback⟩)⟩
  · intro p hp
    obtain ⟨e', he', ht, -⟩ := mem_events.mp (hperm.mem_iff.mp hp)
    rw [ht]
    exact Int.ofNat_le.mpr (h.first_le e' he')

namespace Run

/-- What holds in every run: the schedule keeps its entries, and the one whose
callbacks are called is among them. -/
structure Kept (r : Run κ) (L : List (Nat × Nat)) : Prop where
  holds : r.manager.Holds L
  entry : ∀ a index, r.point = .iterate a index → (r.nextTime, a) ∈ L
  fine : ∀ e, r.point ≠ .thrown e

/-- What holds at the places of `run`. -/
def At (l : Ledger κ) (r : Run κ) (L : List (Nat × Nat)) : Point → Prop
  | .test =>
    l.pending.Perm (events r.manager.arrays L) ∧ r.nextTime = headTime L ∧
      (∀ e ∈ l.pending, 0 < e.1 ∧ l.now ≤ e.1) ∧ (l.polled = true → ∀ e ∈ l.pending, l.now < e.1)
  | .drain => l.pending.Perm (events r.manager.arrays L) ∧ (L = [] → r.nextTime = 0) ∧ l.polled = true
  | .iterate a index =>
    (((r.manager.arrays a).take index).map ((r.nextTime : Int), ·) ++ l.pending).Perm (events r.manager.arrays L) ∧
      index ≤ (r.manager.arrays a).length ∧ r.nextTime ≤ r.now ∧ l.polled = true ∧
      (index < (r.manager.arrays a).length → ∀ e ∈ l.pending, (r.nextTime : Int) ≤ e.1)
  | .returned => l.polled = true → ∀ e ∈ l.pending, l.now < e.1
  | .thrown _ => False

/-- The run agrees with the ledger. -/
structure Ready (l : Ledger κ) (r : Run κ) (L : List (Nat × Nat)) : Prop where
  now : (r.now : Int) = l.now
  range : InRange l.pending
  few : Few l.pending
  place : At l r L r.point

variable [DecidableEq κ]

/-- From `r` on, calls are made that are right as long as they are orderly. -/
def Leads (r : Run κ) (L : List (Nat × Nat)) (r' : Run κ) (L' : List (Nat × Nat)) : Prop :=
  Kept r' L' ∧ ∃ cs, r'.calls = r.calls ++ cs ∧ ∀ l, Ready l r L → Ledger.Each Ledger.Orderly l cs →
    Ledger.Each Ledger.Right l cs ∧ Ready (l.afterAll cs) r' L'

variable {r' r'' : Run κ} {L'' : List (Nat × Nat)} {w : World κ} {callback : κ} {a index : Nat}

theorem Leads.refl (h : Kept r L) : Leads r L r L :=
  ⟨h, [], (List.append_nil _).symm, fun _ hready _ => ⟨trivial, hready⟩⟩

theorem Leads.trans (h : Leads r L r' L') (h' : Leads r' L' r'' L'') : Leads r L r'' L'' := by
  obtain ⟨-, cs, hcalls, hall⟩ := h
  obtain ⟨hkept, cs', hcalls', hall'⟩ := h'
  refine ⟨hkept, cs ++ cs', by rw [hcalls', hcalls, List.append_assoc], fun l hready horderly => ?_⟩
  rw [Ledger.each_append] at horderly ⊢
  obtain ⟨hright, hready'⟩ := hall l hready horderly.1
  obtain ⟨hright', hready''⟩ := hall' _ hready' horderly.2
  rw [Ledger.afterAll_append]
  exact ⟨⟨hright, hright'⟩, hready''⟩

/-- A step without a call. -/
theorem Leads.silent (hkept : Kept r' L') (hcalls : r'.calls = r.calls) (h : ∀ l, Ready l r L → Ready l r' L') :
    Leads r L r' L' :=
  ⟨hkept, [], by rw [hcalls, List.append_nil], fun l hready _ => ⟨trivial, h l hready⟩⟩

/-- A step with one call. -/
theorem Leads.one {c : Call κ} (hkept : Kept r' L') (hcalls : r'.calls = r.calls ++ [c])
    (h : ∀ l, Ready l r L → l.Orderly c → l.Right c ∧ Ready (l.after c) r' L') : Leads r L r' L' := by
  refine ⟨hkept, [c], hcalls, fun l hready horderly => ?_⟩
  obtain ⟨hright, hready'⟩ := h l hready horderly.1
  exact ⟨⟨hright, trivial⟩, hready'⟩

omit [DecidableEq κ] in
/-- The timeout that is given to the poller. -/
theorem Ready.timeout_right (h : Ready l r L) (hholds : r.manager.Holds L) (hpoint : r.point = .test) :
    ∀ e ∈ l.pending, ∃ td ∈ r.timeout, td.nanos ≤ max 0 (e.1 - l.now) := by
  have hplace := h.place
  rw [hpoint] at hplace
  obtain ⟨hperm, hnext, hfuture, -⟩ := hplace
  intro p hp
  cases L with
  | nil => exact absurd (hperm.mem_iff.mp hp) List.not_mem_nil
  | cons e L =>
    obtain ⟨⟨callback, hfirst⟩, hle⟩ := hholds.first hperm
    obtain ⟨hpos, hnow⟩ := hfuture _ hfirst
    have hrange := (h.range _ hfirst).2
    have heq : r.nextTime = e.1 := hnext
    have hclock := h.now
    dsimp only at hpos hnow hrange
    have hsub : uint64 ((r.nextTime : Int) - r.now) = e.1 - r.now := by
      have hcast := uint64_cast ((r.nextTime : Int) - r.now)
      rw [Int.emod_eq_of_lt (by omega) (by rw [billion] at hrange; omega)] at hcast
      omega
    refine ⟨.fromNanos (e.1 - r.now), ?_, ?_⟩
    · rw [timeout, if_pos (by omega), hsub]
      exact Option.mem_some_self _
    · rw [TimeVal.fromNanos_nanos (by omega)]
      have hp' := hle p hp
      omega

theorem poll_leads (h : Kept r L) (hpoint : r.point = .test) : ∃ r' L', r.poll w = .ok r' ∧ Leads r L r' L' := by
  obtain ⟨m', L', he, hholds, hgrows⟩ := h.holds.performAll (w.poll r.calls r.timeout).1
  refine ⟨_, L', by simp only [poll, he, bind, Except.bind]; rfl, ?_⟩
  have hkept : Kept { r with manager := m', now := (w.poll r.calls r.timeout).2.toNanos, point := .drain
                             calls := r.calls ++ [.waitAndProcess r.timeout (w.poll r.calls r.timeout).1 (w.poll r.calls r.timeout).2] } L' :=
    ⟨hholds, fun _ _ hp => (by cases hp), fun _ hp => (by cases hp)⟩
  apply Leads.one (r := r) hkept rfl
  intro l hready horderly
  obtain ⟨hfew, hrange, hclock⟩ := horderly
  have hplace := hready.place
  rw [hpoint] at hplace
  obtain ⟨hperm, hnext, -, hlate⟩ := hplace
  refine ⟨⟨hready.timeout_right h.holds hpoint, hlate⟩, ⟨TimeVal.toNanos_eq hclock, ?_, hfew, ?_, ?_, rfl⟩⟩
  · intro e he
    exact (List.mem_append.mp he).elim (hready.range e) (hrange e)
  · rw [keyed_eq hrange] at hgrows
    exact (hperm.append_right _).trans hgrows.events.symm
  · rintro rfl
    cases L with
    | nil => exact hnext
    | cons e L => exact absurd (hgrows.kept e List.mem_cons_self).1 List.not_mem_nil

theorem drain_leads (h : Kept r L) (hpoint : r.point = .drain) (ht : r.manager.schedule.isTrue = true) :
    ∃ r', r.drain = .ok r' ∧ Leads r L r' L := by
  have hholds := h.holds
  obtain ⟨e, L', rfl⟩ := hholds.isTrue_of ht
  refine ⟨_, by simp only [drain, hholds.nextEvent, bind, Except.bind]; rfl, ?_⟩
  by_cases hle : e.1 ≤ r.now
  · simp only [if_pos hle]
    have hkept : Kept { r with nextTime := e.1, point := .iterate e.2 0 } (e :: L') := by
      refine ⟨hholds, fun a index hp => ?_, fun _ hp => by cases hp⟩
      cases hp
      exact List.mem_cons_self
    apply Leads.silent (r := r) hkept rfl
    intro l hready
    have hplace := hready.place
    rw [hpoint] at hplace
    obtain ⟨hperm, -, hpolled⟩ := hplace
    exact ⟨hready.now, hready.range, hready.few, by simpa using hperm, Nat.zero_le _, hle, hpolled,
      fun _ => (hholds.first hperm).2⟩
  · simp only [if_neg hle]
    have hkept : Kept { r with nextTime := e.1, point := .test } (e :: L') :=
      ⟨hholds, fun _ _ hp => (by cases hp), fun _ hp => (by cases hp)⟩
    apply Leads.silent (r := r) hkept rfl
    intro l hready
    have hplace := hready.place
    rw [hpoint] at hplace
    obtain ⟨hperm, -, -⟩ := hplace
    have hclock := hready.now
    have hlate : ∀ p ∈ l.pending, l.now < p.1 := by
      intro p hp
      have hfirst := (hholds.first hperm).2 p hp
      omega
    refine ⟨hclock, hready.range, hready.few, hperm, rfl, ?_, fun _ => hlate⟩
    intro p hp
    have hlt := hlate p hp
    omega

omit [DecidableEq κ] in
/-- What a callback is called with is pending. -/
theorem taken {k a index : Nat} (hmem : (k, a) ∈ L) (hcallback : (m.arrays a)[index]? = some callback)
    (hperm : (((m.arrays a).take index).map ((k : Int), ·) ++ pending).Perm (events m.arrays L)) :
    ((k : Int), callback) ∈ pending := by
  obtain ⟨X, Y, rfl⟩ := List.append_of_mem hmem
  obtain ⟨hlt, hget⟩ := List.getElem?_eq_some_iff.mp hcallback
  have hsplit : m.arrays a = (m.arrays a).take index ++ callback :: (m.arrays a).drop (index + 1) := by
    rw [← hget, ← List.drop_eq_getElem_cons, List.take_append_drop]
  generalize (m.arrays a).take index = before at hsplit hperm
  rw [events_append, events_cons, hsplit, List.map_append, List.append_assoc] at hperm
  have hcancel := (List.perm_append_left_iff _).mp (hperm.trans (List.perm_append_comm_assoc _ _ _))
  apply hcancel.mem_iff.mpr
  simp

theorem call_leads (h : Kept r L) (hpoint : r.point = .iterate a index)
    (hcallback : (r.manager.arrays a)[index]? = some callback) :
    ∃ r' L', r.call w a index callback = .ok r' ∧ Leads r L r' L' := by
  obtain ⟨hlt, -⟩ := List.getElem?_eq_some_iff.mp hcallback
  have hmem := h.entry a index hpoint
  obtain ⟨m', L', he, hholds, hgrows⟩ := h.holds.performAll (w.call r.calls r.nextTime callback)
  obtain ⟨hmem', more, hmore⟩ := hgrows.kept _ hmem
  refine ⟨_, L', by simp only [call, he, bind, Except.bind]; rfl, ?_⟩
  generalize w.call r.calls r.nextTime callback = acts at hgrows
  have hkept : Kept { r with manager := m', point := .iterate a (index + 1)
                             calls := r.calls ++ [.callback r.nextTime callback acts] } L' := by
    refine ⟨hholds, fun a' index' hp => ?_, fun _ hp => by cases hp⟩
    cases hp
    exact hmem'
  apply Leads.one (r := r) hkept rfl
  intro l hready horderly
  obtain ⟨hfew, hrange, hearlier⟩ := horderly
  have hplace := hready.place
  rw [hpoint] at hplace
  obtain ⟨hperm, -, hle, hpolled, hfirst⟩ := hplace
  have hpending := taken hmem hcallback hperm
  have htake : (m'.arrays a).take (index + 1) = (r.manager.arrays a).take index ++ [callback] := by
    rw [← hmore, List.take_append_of_le_length hlt, List.take_add_one, hcallback]
    rfl
  have hrest : ∀ e ∈ l.pending.erase ((r.nextTime : Int), callback), (r.nextTime : Int) ≤ e.1 := fun e he' =>
    hfirst hlt e (List.mem_of_mem_erase he')
  have hperm' : (((m'.arrays a).take (index + 1)).map ((r.nextTime : Int), ·) ++
      (l.pending.erase ((r.nextTime : Int), callback) ++ scheduled acts)).Perm (events m'.arrays L') := by
    rw [keyed_eq hrange] at hgrows
    rw [htake, List.map_append, List.append_assoc, ← List.append_assoc _ _ (scheduled acts)]
    have hback := (List.perm_cons_erase hpending).symm.append_right (scheduled acts)
    refine (hback.append_left _).trans ?_
    rw [← List.append_assoc]
    exact (hperm.append_right _).trans hgrows.events.symm
  refine ⟨⟨hpending, ?_, hfirst hlt⟩, ⟨hready.now, ?_, hfew, hperm', ?_, hle, hpolled, ?_⟩⟩
  · have hclock := hready.now
    omega
  · intro e he'
    exact (List.mem_append.mp he').elim (fun he' => hready.range e (List.mem_of_mem_erase he')) (hrange e)
  · change index + 1 ≤ (m'.arrays a).length
    rw [← hmore, List.length_append]
    exact Nat.le_add_right_of_le hlt
  · intro hlt' e he'
    change index + 1 < (m'.arrays a).length at hlt'
    -- another callback of this time is pending, so nothing earlier has been scheduled
    rcases List.mem_append.mp he' with he' | he'
    · exact hrest e he'
    · by_contra hlater
      have hnext := taken hmem' (List.getElem?_eq_getElem hlt') hperm'
      exact hearlier ⟨e, he', Int.lt_of_not_ge hlater⟩ _ hnext rfl

theorem forget_leads (h : Kept r L) (hpoint : r.point = .iterate a index)
    (hend : (r.manager.arrays a)[index]? = none) : ∃ r' L', r.forget = .ok r' ∧ Leads r L r' L' := by
  obtain ⟨s, X, Y, rfl, hdelete, hholds⟩ := h.holds.delete (h.entry a index hpoint)
  obtain ⟨t, ht, hhead⟩ := hholds.firstTime
  refine ⟨_, X ++ Y, by simp only [forget, hdelete, bind, Except.bind, ht]; rfl, ?_⟩
  have hkept : Kept { r with manager := { r.manager with schedule := s }, nextTime := t, point := .drain } (X ++ Y) :=
    ⟨hholds, fun _ _ hp => (by cases hp), fun _ hp => (by cases hp)⟩
  apply Leads.silent (r := r) hkept rfl
  intro l hready
  have hplace := hready.place
  rw [hpoint] at hplace
  obtain ⟨hperm, -, -, hpolled, -⟩ := hplace
  have hlen := List.getElem?_eq_none_iff.mp hend
  have hperm' : l.pending.Perm (events r.manager.arrays (X ++ Y)) := by
    rw [List.take_of_length_le hlen, events_append, events_cons] at hperm
    rw [events_append]
    exact (List.perm_append_left_iff _).mp (hperm.trans (List.perm_append_comm_assoc _ _ _))
  refine ⟨hready.now, hready.range, hready.few, hperm', fun hnil => ?_, hpolled⟩
  change t = 0
  rw [hhead (hholds.length_lt hperm' hready.few), hnil]
  rfl

/-- One step. -/
theorem step_leads (w : World κ) (h : Kept r L) : ∃ r' L', r.step w = .ok r' ∧ Leads r L r' L' := by
  rw [Run.step]
  cases hpoint : r.point with
  | test =>
    by_cases hdone : r.manager.done = true
    · simp only [if_pos hdone]
      have hkept : Kept { r with point := .returned } L := ⟨h.holds, fun _ _ hp => (by cases hp), fun _ hp => (by cases hp)⟩
      refine ⟨_, L, rfl, Leads.silent (r := r) hkept rfl fun l hready => ?_⟩
      have hplace := hready.place
      rw [hpoint] at hplace
      exact ⟨hready.now, hready.range, hready.few, hplace.2.2.2⟩
    · simp only [if_neg hdone]
      exact poll_leads h hpoint
  | drain =>
    by_cases ht : r.manager.schedule.isTrue = true
    · simp only [if_pos ht]
      obtain ⟨r', he, hleads⟩ := drain_leads h hpoint ht
      exact ⟨r', L, he, hleads⟩
    · simp only [if_neg ht]
      have hkept : Kept { r with point := .test } L := ⟨h.holds, fun _ _ hp => (by cases hp), fun _ hp => (by cases hp)⟩
      refine ⟨_, L, rfl, Leads.silent (r := r) hkept rfl fun l hready => ?_⟩
      have hplace := hready.place
      rw [hpoint] at hplace
      obtain ⟨hperm, hzero, -⟩ := hplace
      obtain rfl : L = [] := by
        rw [h.holds.isTrue_iff (h.holds.length_lt hperm hready.few), not_not] at ht
        exact ht
      have hnil : l.pending = [] := hperm.eq_nil
      refine ⟨hready.now, hready.range, hready.few, hperm, hzero rfl, ?_, fun _ => ?_⟩
      · rw [hnil]
        exact fun e he => absurd he List.not_mem_nil
      · rw [hnil]
        exact fun e he => absurd he List.not_mem_nil
  | iterate a index =>
    cases hcallback : (r.manager.arrays a)[index]? with
    | some callback =>
      simp only [hcallback]
      exact call_leads h hpoint hcallback
    | none =>
      simp only [hcallback]
      exact forget_leads h hpoint hcallback
  | returned => exact ⟨r, L, rfl, Leads.refl h⟩
  | thrown e => exact absurd hpoint (h.fine e)

/-- Any number of steps. -/
theorem steps_leads (w : World κ) (n : Nat) (h : Kept r L) : ∃ r' L', r.steps w n = .ok r' ∧ Leads r L r' L' := by
  induction n generalizing r L with
  | zero => exact ⟨r, L, rfl, Leads.refl h⟩
  | succ n ih =>
    obtain ⟨r₁, L₁, he₁, hleads₁⟩ := step_leads w h
    obtain ⟨r₂, L₂, he₂, hleads₂⟩ := ih hleads₁.1
    refine ⟨r₂, L₂, ?_, hleads₁.trans hleads₂⟩
    rw [Run.steps, he₁]
    exact he₂

end Run

variable [DecidableEq κ]

open Ledger (Each Right Orderly StartsOrderly)

def wholeSeconds (secs : Nat) : TimeVal := ⟨.ofNat 32 secs, 0⟩

/-- The clock goes on by a second with each call; the callback 1 schedules 7 for a time
that is due, and terminates. -/
def fewWorld : World Nat where
  poll calls _ := ([], wholeSeconds (11 + calls.length))
  call _ _ callback := if callback = 1 then [.scheduleEvent (wholeSeconds 11) 7, .terminate] else []

def fewActs : List (Action Nat) := [.scheduleEvent (wholeSeconds 11) 1, .scheduleEvent (wholeSeconds 30) 2]

end Crack
