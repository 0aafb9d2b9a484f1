import Crack.Midi.SharedTracks

/-!
# Sources of a track's events

A `TrackEventSource` is at some place in the events of a track.
-/
namespace Crack

namespace Midi

open Fuel (Returns)
open ElemArray (Holds)

structure TrackEventSource where
  track : SharedTrack
  i : Nat

namespace TrackEventSource

open SharedTrack (Reading)

variable (s : TrackEventSource)

/-- `__events[index]` for a `uint` -/
def getItem (index : Nat) : Reading Nat :=
  if index ≥ s.track.events.size then throw (.indexError (ElemArray.getItemText s.track.events.size index))
  else ExceptT.lift (slot s.track.events.rep index)

/-- The `binsearch` of `setPos`. -/
def binsearch (target : Nat) : Nat → Nat → Nat → Reading Nat
  | 0, _, _ => ExceptT.mk (.error .forever)
  | fuel + 1, bottom, top => do
    let e ← s.getItem bottom
    if target ≤ s.track.time e then return bottom
    else if top - bottom = 1 then return top
    else do
      let mid := bottom + (top - bottom) / 2
      let e ← s.getItem mid
      if target < s.track.time e then binsearch target fuel bottom mid else binsearch target fuel mid top

/-- The conditions before the search. -/
def guess (pos : Nat) : Reading Nat :=
  if s.track.events.size = 0 then return 0
  else do
    let first ← s.track.getItem 0
    if pos ≤ s.track.time first then return 0
    else do
      let last ← s.track.getItem (-1)
      if pos > s.track.time last then return s.track.events.size else return s.i

/-- The search follows whatever has been found out before it. -/
def setPos (fuel : Nat) (pos : UInt32) : Except Fault (TrackEventSource × Except Exc Unit) := do
  match ← (s.guess pos.toNat).run with
  | .error e => return (s, .error e)
  | .ok i =>
    match ← (s.binsearch pos.toNat fuel 0 s.track.events.size).run with
    | .error e => return ({ s with i }, .error e)
    | .ok i => return ({ s with i }, .ok ())

def getPos : Reading Nat :=
  if s.i < s.track.events.size then s.track.time <$> s.getItem s.i
  else if s.track.events.size = 0 then return 0
  else do
    let last ← s.track.getItem (-1)
    return uint (s.track.time last + 1)

/-- The first event that is not before a time. -/
def first (t : SharedTrack) (events : List Nat) (pos : Nat) : Nat := events.findIdx fun e => decide (pos ≤ t.time e)

/-- The source gets to the first event that is not before the time. -/
def Seeks (s : TrackEventSource) (events : List Nat) (pos : UInt32) : Prop :=
  ∃ s' : TrackEventSource, Returns (fun fuel => s.setPos fuel pos) (.ok (s', .ok ())) ∧ s'.track = s.track ∧
    s'.i = first s.track events pos.toNat ∧
    (s'.i < events.length → ∃ time, s'.getPos = pure time ∧ pos.toNat ≤ time)

/-- The places in the middle at which a bisection looks on its way to a place. -/
def middles (k : Nat) : Nat → Nat → Nat → List Nat
  | 0, _, _ => []
  | fuel + 1, bottom, top =>
    if top - bottom < 2 then []
    else
      let mid := bottom + (top - bottom) / 2
      if mid < k then mid :: middles k fuel mid top
      else if k < mid then mid :: middles k fuel bottom mid
      else [mid]

/-- Behind the first event at a time, the bisection on its way there looks at later events only. -/
def Unrepeated (t : SharedTrack) (events : List Nat) (pos : Nat) : Prop :=
  ∀ j ∈ middles (first t events pos) events.length 0 events.length, first t events pos < j →
    ∀ e, events[j]? = some e → pos < t.time e

open LowerBounds (Splits)

variable {s : TrackEventSource} {P : List Nat} {x i j k n bottom top : Nat} {pos : Nat}

section

variable (h : Holds s.track.events P)

include h

theorem getItem_ok (hi : i < 2 ^ 31) (hx : P[i]? = some x) : s.getItem i = pure x := by
  obtain ⟨A, B, rfl, rfl⟩ := Linked.exists_split hx
  obtain ⟨hlt, hslot⟩ := SharedTrack.slot_ok h hi
  rw [getItem, if_neg (Nat.not_le_of_lt hlt), hslot]
  rfl

omit h in
theorem lt_of_mem_middles (hlt : bottom < top) (hj : j ∈ middles k n bottom top) : j < top := by
  induction n generalizing bottom top with
  | zero => exact absurd hj List.not_mem_nil
  | succ n ih =>
    rw [middles] at hj
    by_cases hshort : top - bottom < 2
    · rw [if_pos hshort] at hj
      exact absurd hj List.not_mem_nil
    rw [if_neg hshort] at hj
    dsimp only at hj
    generalize hmid : bottom + (top - bottom) / 2 = mid at hj
    split at hj
    next =>
      rcases List.mem_cons.mp hj with rfl | hj
      · omega
      · exact ih (by omega) hj
    next =>
      split at hj
      next =>
        rcases List.mem_cons.mp hj with rfl | hj
        · omega
        · have := ih (by omega) hj
          omega
      next =>
        obtain rfl := List.mem_singleton.mp hj
        omega

/-- Where the time is at the lower end, the search ends there. -/
theorem binsearch_bottom (hi : bottom < 2 ^ 31) {pos fuel : Nat} (hx : P[bottom]? = some x)
    (hle : pos ≤ s.track.time x) : s.binsearch pos (fuel + 1) bottom top = pure bottom := by
  rw [binsearch, getItem_ok h hi hx, pure_bind, if_pos hle]

/-- The search ends at some place, and at the right one if it looks at no later event at the same time. -/
theorem binsearch_ok (hfull : P.length ≤ 2 ^ 31) (hk : Splits (fun e => pos ≤ s.track.time e) P k)
    (hlow : bottom < k) (hhigh : k ≤ top) (htop : top ≤ P.length) (hn : top - bottom ≤ n) :
    ∃ r, (∀ fuel, top - bottom ≤ fuel → s.binsearch pos fuel bottom top = pure r) ∧
      (r = k ↔ ∀ j ∈ middles k n bottom top, k < j → ∀ e, P[j]? = some e → pos < s.track.time e) := by
  induction n generalizing bottom top with
  | zero => omega
  | succ n ih =>
    have hbottom := List.getElem?_eq_getElem (show bottom < P.length by omega)
    have hless := mt (hk.iff hbottom).mp (Nat.not_le_of_lt hlow)
    have hstep (fuel : Nat) : s.binsearch pos (fuel + 1) bottom top =
        if top - bottom = 1 then pure top else (s.getItem (bottom + (top - bottom) / 2)) >>= fun e =>
          if pos < s.track.time e then s.binsearch pos fuel bottom (bottom + (top - bottom) / 2)
          else s.binsearch pos fuel (bottom + (top - bottom) / 2) top := by
      rw [binsearch, getItem_ok h (by omega) hbottom, pure_bind, if_neg hless]
    rw [middles]
    by_cases hshort : top - bottom < 2
    · refine ⟨top, fun fuel hfuel => ?_, ?_⟩
      · obtain ⟨fuel, rfl⟩ := Nat.exists_eq_add_of_le' (show 1 ≤ fuel by omega)
        rw [hstep, if_pos (by omega)]
      · rw [if_pos hshort]
        exact ⟨fun _ j hj => absurd hj List.not_mem_nil, fun _ => by omega⟩
    rw [if_neg hshort]
    dsimp only
    have hmidlow : bottom < bottom + (top - bottom) / 2 := by omega
    have hmidhigh : bottom + (top - bottom) / 2 < top := by omega
    generalize bottom + (top - bottom) / 2 = mid at hstep hmidlow hmidhigh ⊢
    have hmid := List.getElem?_eq_getElem (show mid < P.length by omega)
    have hiff := hk.iff hmid
    have hstep' (fuel : Nat) : s.binsearch pos (fuel + 1) bottom top =
        if pos < s.track.time P[mid] then s.binsearch pos fuel bottom mid else s.binsearch pos fuel mid top := by
      rw [hstep, if_neg (by omega), getItem_ok h (by omega) hmid, pure_bind]
    by_cases hlater : pos < s.track.time P[mid]
    · have hle := hiff.mp (Nat.le_of_lt hlater)
      obtain ⟨r, hr, hright⟩ := ih hlow hle (by omega) (by omega)
      refine ⟨r, fun fuel hfuel => ?_, ?_⟩
      · obtain ⟨fuel, rfl⟩ := Nat.exists_eq_add_of_le' (show 1 ≤ fuel by omega)
        rw [hstep', if_pos hlater]
        exact hr fuel (by omega)
      · rw [if_neg (Nat.not_lt_of_le hle)]
        by_cases hbehind : k < mid
        · have hmid' : k < mid → ∀ e, P[mid]? = some e → pos < s.track.time e := by
            intro _ e he
            rw [hmid] at he
            cases he
            exact hlater
          rw [if_pos hbehind, hright]
          exact (List.forall_mem_cons.trans (and_iff_right hmid')).symm
        · have hthere : mid = k := by omega
          subst hthere
          rw [if_neg hbehind]
          refine ⟨fun _ j hj hlt => ?_, fun _ => hright.mpr fun j hj hlt => ?_⟩
          · exact absurd hlt (by rw [List.mem_singleton.mp hj]; exact Nat.lt_irrefl _)
          · exact absurd (lt_of_mem_middles hmidlow hj) (Nat.not_lt_of_lt hlt)
    by_cases hearly : mid < k
    · obtain ⟨r, hr, hright⟩ := ih hearly hhigh htop (by omega)
      refine ⟨r, fun fuel hfuel => ?_, ?_⟩
      · obtain ⟨fuel, rfl⟩ := Nat.exists_eq_add_of_le' (show 1 ≤ fuel by omega)
        rw [hstep', if_neg hlater]
        exact hr fuel (by omega)
      · rw [if_pos hearly, hright]
        exact (List.forall_mem_cons.trans (and_iff_right fun hlt => absurd hlt (by omega))).symm
    · have hthere := hiff.mpr (Nat.le_of_not_lt hearly)
      refine ⟨mid, fun fuel hfuel => ?_, ?_⟩
      · obtain ⟨fuel, rfl⟩ := Nat.exists_eq_add_of_le' (show 2 ≤ fuel by omega)
        rw [hstep', if_neg hlater]
        exact binsearch_bottom h (by omega) hmid hthere
      · rw [if_neg hearly]
        by_cases hbehind : k < mid
        · rw [if_pos hbehind]
          refine ⟨fun heq => absurd heq (Nat.ne_of_gt hbehind), fun hall => ?_⟩
          exact absurd (hall mid List.mem_cons_self hbehind _ hmid) hlater
        · rw [if_neg hbehind]
          refine ⟨fun _ j hj hlt => ?_, fun _ => by omega⟩
          exact absurd hlt (by rw [List.mem_singleton.mp hj]; exact hbehind)

/-- An array with more elements than an `int` counts has its last one at a negative index. -/
theorem last_wild (hmany : 2 ^ 31 < P.length) : (s.track.getItem (-1)).run = .error .wildIndex := by
  have hle := h.size_le_cap
  have hcap := h.small
  have hsize := h.size
  have hindex : (BitVec.ofNat 32 s.track.events.size + BitVec.ofInt 32 (-1)).toNat = s.track.events.size - 1 := by
    rw [BitVec.toNat_add, BitVec.toNat_ofNat, show (BitVec.ofInt 32 (-1)).toNat = 2 ^ 32 - 1 by decide]
    omega
  have hslot : slot s.track.events.rep (s.track.events.size - 1) = .error .wildIndex := by
    rw [slot]
    split
    · exact if_neg (by omega)
    · rfl
  rw [SharedTrack.getItem, ExceptT.run, ElemArray.getItem, ElemArray.fixIntIndex, if_pos (by decide), hindex]
  dsimp only
  rw [if_neg (by omega)]
  dsimp only [bind, Except.bind]
  rw [if_neg (by omega), hslot]

omit h in
theorem guess_early (h : Holds s.track.events (x :: P)) (hle : pos ≤ s.track.time x) : s.guess pos = pure 0 := by
  rw [guess, if_neg (by rw [h.size]; exact Nat.succ_ne_zero _), SharedTrack.getItem_first h, pure_bind, if_pos hle]

omit h in
theorem guess_late (h : Holds s.track.events (x :: P)) (hlt : s.track.time x < pos) :
    s.guess pos = s.track.getItem (-1) >>= fun last =>
      if pos > s.track.time last then pure s.track.events.size else pure s.i := by
  rw [guess, if_neg (by rw [h.size]; exact Nat.succ_ne_zero _), SharedTrack.getItem_first h, pure_bind,
    if_neg (Nat.not_le_of_lt hlt)]

/-- Whatever is guessed, the source gets to where the search ends. -/
theorem setPos_ok {pos : UInt32} {i r : Nat} (hguess : s.guess pos.toNat = pure i)
    (hr : ∀ fuel, P.length ≤ fuel → s.binsearch pos.toNat fuel 0 P.length = pure r) :
    Returns (fun fuel => s.setPos fuel pos) (.ok ({ s with i := r }, .ok ())) := by
  refine ⟨P.length, fun fuel hfuel => ?_⟩
  dsimp only
  rw [setPos, hguess, h.size, hr fuel hfuel]
  rfl

omit h in
/-- In an empty track the search looks at an event all the same. -/
theorem setPos_empty (h : Holds s.track.events []) (pos : UInt32) :
    Returns (fun fuel => s.setPos fuel pos)
      (.ok ({ s with i := 0 }, .error (.indexError (ElemArray.getItemText 0 0)))) := by
  have hzero : s.track.events.size = 0 := h.size
  have hget : s.getItem 0 = throw (.indexError (ElemArray.getItemText 0 0)) := by
    rw [getItem, if_pos (Nat.le_of_eq hzero), hzero]
  refine .now fun fuel => ?_
  rw [setPos, guess, if_pos hzero, hzero, binsearch, hget]
  rfl

omit h in
/-- The search ends at some place, which is the right one under a condition. -/
theorem setPos_returns (h : Holds s.track.events (x :: P)) {pos : UInt32}
    (hk : Splits (fun e => pos.toNat ≤ s.track.time e) (x :: P) k) :
    (∃ r, Returns (fun fuel => s.setPos fuel pos) (.ok ({ s with i := r }, .ok ())) ∧
      (r = k ↔ k = 0 ∨ (x :: P).length ≤ 2 ^ 31 ∧ ∀ j ∈ middles k (x :: P).length 0 (x :: P).length, k < j →
        ∀ e, (x :: P)[j]? = some e → pos.toNat < s.track.time e)) ∨
      k ≠ 0 ∧ 2 ^ 31 < (x :: P).length ∧ Returns (fun fuel => s.setPos fuel pos) (.error .wildIndex) := by
  have hx : (x :: P)[0]? = some x := rfl
  by_cases hzero : k = 0
  · subst hzero
    have htime := (hk.iff hx).mpr (Nat.le_refl 0)
    refine .inl ⟨0, setPos_ok h (guess_early h htime) fun fuel hfuel => ?_, iff_of_true rfl (.inl rfl)⟩
    obtain ⟨fuel, rfl⟩ := Nat.exists_eq_add_of_le' (Nat.le_trans (Nat.succ_pos _) hfuel)
    exact binsearch_bottom h (by decide) hx htime
  have hlate : s.track.time x < pos.toNat := Nat.lt_of_not_le fun hle => hzero (Nat.le_zero.mp ((hk.iff hx).mp hle))
  by_cases hfull : (x :: P).length ≤ 2 ^ 31
  · obtain ⟨Q, last, hQ⟩ := (List.eq_nil_or_concat' (x :: P)).resolve_left (List.cons_ne_nil x P)
    have hlast : s.track.getItem (-1) = pure last := SharedTrack.getItem_last (hQ ▸ h) (hQ ▸ hfull)
    obtain ⟨r, hr, hright⟩ := binsearch_ok h hfull hk (Nat.pos_of_ne_zero hzero) hk.inside (Nat.le_refl _)
      (Nat.le_refl (x :: P).length)
    have hguess : ∃ i, s.guess pos.toNat = pure i := by
      rw [guess_late h hlate, hlast, pure_bind]
      split
      · exact ⟨_, rfl⟩
      · exact ⟨_, rfl⟩
    obtain ⟨i, hguess⟩ := hguess
    refine .inl ⟨r, setPos_ok h hguess hr, hright.trans ?_⟩
    rw [or_iff_right hzero, and_iff_right hfull]
  · have hmany := Nat.lt_of_not_le hfull
    refine .inr ⟨hzero, hmany, .now fun fuel => ?_⟩
    rw [setPos, guess_late h hlate, ExceptT.run_bind, last_wild h hmany]
    rfl

theorem getPos_ok (hi : s.i < 2 ^ 31) (hx : P[s.i]? = some x) : s.getPos = pure (s.track.time x) := by
  have hlt := (List.getElem?_eq_some_iff.mp hx).1
  rw [getPos, if_pos (by rw [h.size]; exact hlt), getItem_ok h hi hx, map_pure]

/-- In a sorted track, `setPos` gets to the first event not before the time under just this condition. -/
theorem seeks_iff (hsorted : P.Pairwise fun x y => s.track.time x ≤ s.track.time y) (pos : UInt32) :
    Seeks s P pos ↔ P ≠ [] ∧
      (first s.track P pos.toNat = 0 ∨ P.length ≤ 2 ^ 31 ∧ Unrepeated s.track P pos.toNat) := by
  cases P with
  | nil =>
    refine iff_of_false (fun hseeks => ?_) fun hok => hok.1 rfl
    obtain ⟨s', hreturns, -⟩ := hseeks
    cases hreturns.unique (setPos_empty h pos)
  | cons x P =>
    have hk : Splits (fun e => pos.toNat ≤ s.track.time e) (x :: P) (first s.track (x :: P) pos.toNat) :=
      LowerBounds.splits_findIdx (hsorted.imp fun hle htime => Nat.le_trans htime hle)
    rw [and_iff_right (List.cons_ne_nil x P), Unrepeated]
    rcases setPos_returns h hk with ⟨r, hreturns, hright⟩ | ⟨hzero, hmany, hwild⟩
    · rw [← hright]
      constructor
      · rintro ⟨s', hreturns', -, hi, -⟩
        cases hreturns.unique hreturns'
        exact hi
      · intro hi
        have hsmall : r = 0 ∨ (x :: P).length ≤ 2 ^ 31 := (hright.mp hi).imp (fun hz => hi.trans hz) And.left
        refine ⟨{ s with i := r }, hreturns, rfl, hi, fun hlt => ?_⟩
        have hx := List.getElem?_eq_getElem hlt
        exact ⟨_, getPos_ok h (by dsimp only at hlt ⊢; omega) hx, (hk.iff hx).mpr (Nat.le_of_eq hi.symm)⟩
    · refine iff_of_false (fun hseeks => ?_) fun hok => ?_
      · obtain ⟨s', hreturns, -⟩ := hseeks
        cases hreturns.unique hwild
      · exact hok.elim hzero fun hfull => Nat.not_lt_of_le hfull.1 hmany

end

/-- Notes at 1, 4, 4 and 6. -/
def fourNotes (i : Nat) : TrackEventSource :=
  ⟨⟨⟨[0, 1, 2, 3], 4, 4⟩, fun e => ⟨if e = 0 then 1 else if e = 3 then 6 else 4, .noteOn 0 0 0⟩, fun _ => "a note"⟩, i⟩

theorem fourNotes_holds (i : Nat) : Holds (fourNotes i).track.events [0, 1, 2, 3] :=
  ⟨⟨[], rfl⟩, rfl, rfl, show 4 < 2 ^ 32 by decide⟩

theorem last_note_found : Seeks (fourNotes 0) [0, 1, 2, 3] 5 := by
  have hmiddles : ∀ j ∈ middles (first (fourNotes 0).track [0, 1, 2, 3] 5) 4 0 4,
      ¬first (fourNotes 0).track [0, 1, 2, 3] 5 < j := by decide
  refine (seeks_iff (fourNotes_holds 0) (by decide) 5).mpr ⟨by decide, .inr ⟨by decide, fun j hj hlt => ?_⟩⟩
  exact absurd hlt (hmiddles j hj)

/-- The second one of two notes at the same time is found. -/
theorem second_note_found : ¬∀ (s : TrackEventSource) (events : List Nat), Holds s.track.events events →
    (events.Pairwise fun x y => s.track.time x ≤ s.track.time y) → ∀ pos, Seeks s events pos := by
  intro hall
  obtain ⟨s', hreturns, -, hi, -⟩ := hall (fourNotes 0) [0, 1, 2, 3] (fourNotes_holds 0) (by decide) 4
  have hfound : Returns (fun fuel => (fourNotes 0).setPos fuel 4) (.ok (fourNotes 2, .ok ())) := by
    refine ⟨2, fun fuel hle => ?_⟩
    obtain ⟨fuel, rfl⟩ := Nat.exists_eq_add_of_le' hle
    rfl
  cases hreturns.unique hfound
  exact absurd hi (by decide)

end TrackEventSource

end Midi

end Crack
