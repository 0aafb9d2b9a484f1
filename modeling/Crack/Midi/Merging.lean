import Mathlib.Data.Nat.Basic
import Crack.Midi.TrackSources

/-!
# Merging tracks

`merge` keeps an array of sources and appends the earliest of their events to a new track. The time of an event is
looked up in the new track, which refers to the same event objects as the others.
-/
namespace Crack

namespace Midi

open Fuel (Returns)
open ElemArray (Holds)
open SharedTrack (Reading)

namespace TrackEventSource

variable (s : TrackEventSource)

def isTrue : Bool := s.i < s.track.events.size

def next : TrackEventSource := { s with i := uint (s.i + 1) }

def elem : Reading Nat := s.getItem s.i

end TrackEventSource

/-- The array of iterators and the track so far. -/
structure Merger where
  iters : ElemArray TrackEventSource
  result : SharedTrack

namespace Merger

/-- What a call leaves, unless it throws. -/
def leaves {σ : Type} (x : Except Fault (σ × Except Exc Unit)) : Reading σ :=
  ExceptT.mk (x.map fun r => r.2.map fun _ => r.1)

variable (m : Merger)

/-- What a slot holds before it is filled. -/
def null : TrackEventSource := ⟨m.result, 0⟩

/-- The first loop for the track at an index, which is known by its events. -/
def addIter (tracks : ElemArray (ElemArray Nat)) (m : Merger) (index : Nat) : Reading Merger := do
  let events ← ExceptT.lift (slot tracks.rep index)
  let iters ← leaves (m.iters.append m.null ⟨{ m.result with events }, 0⟩)
  return { m with iters }

/-- The loop that looks for the earliest event, for the iterator at an index. -/
def look (best : Option Nat × Nat) (index : Nat) : Reading (Option Nat × Nat) := do
  let iter ← ExceptT.lift (slot m.iters.rep index)
  match best.1 with
  | none => return (some (← iter.elem), index)
  | some first =>
    let e ← iter.elem
    if m.result.time e < m.result.time first then return (some (← iter.elem), index) else return best

/-- `first` and `firstIndex` -/
def earliest : Reading (Option Nat × Nat) := (List.range' 0 m.iters.size).foldlM m.look (none, 0)

def getIter (index : Nat) : Reading TrackEventSource := ExceptT.mk (m.iters.getItem (BitVec.ofNat 32 index))

/-- `iters[firstIndex].next()`; nothing else refers to the iterator that changes. -/
def next (firstIndex : Nat) : Reading Merger := do
  let iter ← m.getIter firstIndex
  return { m with iters := { m.iters with rep := m.iters.rep.set firstIndex iter.next } }

def bump (firstIndex : Nat) : Reading Merger := do
  let m ← m.next firstIndex
  let iter ← m.getIter firstIndex
  if iter.isTrue then return m
  else
    let iters ← leaves (m.iters.delete (BitVec.ofNat 32 firstIndex))
    return { m with iters }

def append : Option Nat → Reading Merger
  | none => ExceptT.mk (.error .nullDereference)
  | some first => do
    let result ← leaves (m.result.append first)
    return { m with result }

def round : Reading Merger := do
  let (first, firstIndex) ← m.earliest
  let m ← m.bump firstIndex
  m.append first

def loop : Nat → Merger → Reading SharedTrack
  | 0, _ => ExceptT.mk (.error .forever)
  | fuel + 1, m => if m.iters.size = 0 then return m.result else do loop fuel (← m.round)

end Merger

def merge (store : Nat → Event) (shown : Nat → String) (tracks : ElemArray (ElemArray Nat)) (fuel : Nat) :
    Reading SharedTrack := do
  let result := SharedTrack.init store shown
  let m : Merger := ⟨.init ⟨result, 0⟩ (BitVec.ofNat 32 tracks.size), result⟩
  let m ← (List.range' 0 tracks.size).foldlM (Merger.addIter tracks) m
  m.loop fuel

/-- `merge` gets to a sorted track with all the events. Those of a track are in its order unless something follows
an end-of-track event of it. -/
def Merges (store : Nat → Event) (shown : Nat → String) (tracks : ElemArray (ElemArray Nat))
    (input : List (List Nat)) : Prop :=
  ∃ (result : SharedTrack) (events : List Nat),
    Returns (merge store shown tracks) (pure result) ∧ Holds result.events events ∧
    (events.Pairwise fun x y => (store x).time ≤ (store y).time) ∧ events.Perm input.flatten ∧
    ∀ P ∈ input, (∀ x ∈ P.dropLast, ¬(store x).isEndTrack) → P.Sublist events

open Merging (Takes Put Merged)

namespace Merger

section

variable {α β σ ι : Type} {a : σ} {b : β}

theorem leaves_ok {x : Except Fault (σ × Except Exc Unit)} (h : x = .ok (a, .ok ())) : leaves x = pure a := by
  rw [h]
  rfl

theorem ok_of_leaves {x : Except Fault (σ × Except Exc Unit)} (h : leaves x = pure a) : x = .ok (a, .ok ()) := by
  cases x with
  | error f => cases h
  | ok r =>
    obtain ⟨b, r⟩ := r
    cases r with
    | error e => cases h
    | ok u =>
      cases h
      rfl

/-- What a reading and the rest of the code that returns a result have returned. -/
theorem bind_pure {x : Reading α} {g : α → Reading β} (h : x >>= g = pure b) : ∃ a, x = pure a ∧ g a = pure b := by
  rcases x with f | e | a
  · cases h
  · cases h
  · exact ⟨a, rfl, h⟩

theorem round_of_foldlM {f : σ → ι → Reading σ} {l : List ι} {s s' : σ} (h : l.foldlM f s = pure s') {i : ι}
    (hi : i ∈ l) : ∃ t t', f t i = pure t' := by
  induction l generalizing s with
  | nil => exact absurd hi List.not_mem_nil
  | cons j l ih =>
    rw [List.foldlM_cons] at h
    obtain ⟨s₁, hj, hl⟩ := bind_pure h
    rcases List.mem_cons.mp hi with rfl | hi
    · exact ⟨s, s₁, hj⟩
    · exact ih hl hi

/-- The partner of an element. -/
theorem exists_partner {R : α → β → Prop} {l : List α} {I J : List β} (h : List.Forall₂ R l (I ++ b :: J)) :
    ∃ A a B, l = A ++ a :: B ∧ List.Forall₂ R A I ∧ R a b ∧ List.Forall₂ R B J := by
  induction I generalizing l with
  | nil =>
    obtain ⟨a, B, ha, hB, rfl⟩ := List.forall₂_cons_right_iff.mp h
    exact ⟨[], a, B, rfl, .nil, ha, hB⟩
  | cons c I ih =>
    obtain ⟨a', l', hc, hl, rfl⟩ := List.forall₂_cons_right_iff.mp h
    obtain ⟨A, a, B, rfl, hA, ha, hB⟩ := ih hl
    exact ⟨a' :: A, a, B, rfl, .cons hc hA, ha, hB⟩

end

/-- A source that has `R` left, after at most `n` events. -/
def Rests (n : Nat) (s : TrackEventSource) (R : List Nat) : Prop :=
  ∃ A, Holds s.track.events (A ++ R) ∧ s.i = A.length ∧ A.length ≤ n

variable {n n' x j : Nat} {s : TrackEventSource} {R : List Nat} {A B : List TrackEventSource} {best : Nat × Nat}

theorem Rests.mono (h : Rests n s R) (hle : n ≤ n') : Rests n' s R := by
  obtain ⟨A, hA, hi, hn⟩ := h
  exact ⟨A, hA, hi, Nat.le_trans hn hle⟩

theorem Rests.elem (h : Rests n s (x :: R)) (hn : n < 2 ^ 31) : s.elem = pure x := by
  obtain ⟨A, hA, hi, hle⟩ := h
  refine TrackEventSource.getItem_ok hA (hi ▸ Nat.lt_of_le_of_lt hle hn) ?_
  rw [hi, List.getElem?_append_right (Nat.le_refl _), Nat.sub_self]
  rfl

theorem Rests.elem_nil (h : Rests n s []) : s.elem ≠ pure x := by
  obtain ⟨A, hA, hi, -⟩ := h
  have hsize := hA.size
  rw [List.append_nil] at hsize
  rw [TrackEventSource.elem, TrackEventSource.getItem, if_pos (by omega)]
  intro hthrown
  cases hthrown

theorem Rests.next (h : Rests n s (x :: R)) (hn : n < 2 ^ 31) : Rests (n + 1) s.next R ∧ (s.next.isTrue ↔ R ≠ []) := by
  obtain ⟨A, hA, hi, hle⟩ := h
  have hnext : s.next.i = (A ++ [x]).length := by
    rw [TrackEventSource.next, hi, List.length_append, List.length_singleton]
    exact uint_of_lt (by omega)
  constructor
  · refine ⟨A ++ [x], ?_, hnext, ?_⟩
    · rwa [List.append_assoc]
    · rw [List.length_append]
      exact Nat.succ_le_succ hle
  · have hsize : s.next.track.events.size = (A ++ x :: R).length := hA.size
    rw [TrackEventSource.isTrue, decide_eq_true_iff, hnext, hsize, List.length_append, List.length_append,
      List.length_singleton, List.length_cons, ne_eq, ← List.length_eq_zero_iff]
    omega

variable {m : Merger} {sources : List TrackEventSource} {S input : List (List Nat)} {P : List Nat} {m' : Merger}

theorem iter_ok (h : Holds m.iters sources) (hrests : List.Forall₂ (Rests n) sources S) {L : List Nat}
    (hL : S[j]? = some L) (hj : j < 2 ^ 31) : ∃ s, slot m.iters.rep j = .ok s ∧ Rests n s L := by
  obtain ⟨C, hC⟩ := h.elems
  obtain ⟨I, J, rfl, rfl⟩ := Linked.exists_split hL
  obtain ⟨A, s, B, rfl, hA, hs, -⟩ := exists_partner hrests
  rw [← hA.length_eq] at hj ⊢
  refine ⟨s, ?_, hs⟩
  rw [hC, List.append_assoc]
  exact slot_middle hj

/-- The best of the first iterators. -/
def Best (m : Merger) (S : List (List Nat)) (j : Nat) (best : Nat × Nat) : Prop :=
  (∃ R, S[best.2]? = some (best.1 :: R)) ∧
    ∀ i < j, ∀ L, S[i]? = some L → ∀ y ∈ L.head?, m.result.time best.1 ≤ m.result.time y

theorem look_ok (h : Holds m.iters sources) (hrests : List.Forall₂ (Rests n) sources S) (hn : n < 2 ^ 31)
    (hsmall : S.length ≤ 2 ^ 31) (hfull : ∀ R ∈ S, R ≠ []) (hbest : Best m S j best)
    (hj : j < S.length) : ∃ best', m.look (some best.1, best.2) j = pure (some best'.1, best'.2) ∧
      Best m S (j + 1) best' := by
  have hL := List.getElem?_eq_getElem hj
  obtain ⟨y, R, hcons⟩ := List.exists_cons_of_ne_nil (hfull _ (List.getElem_mem hj))
  rw [hcons] at hL
  obtain ⟨s, hslot, hs⟩ := iter_ok h hrests hL (Nat.lt_of_lt_of_le hj hsmall)
  have helem := hs.elem hn
  obtain ⟨hplace, hleast⟩ := hbest
  have hlook : m.look (some best.1, best.2) j =
      if m.result.time y < m.result.time best.1 then pure (some y, j) else pure (some best.1, best.2) := by
    rw [look, hslot]
    change (do
      let e ← s.elem
      if m.result.time e < m.result.time best.1 then return (some (← s.elem), j) else return (some best.1, best.2)) = _
    rw [helem, pure_bind, pure_bind]
  have hcover : ∀ {t : Nat}, t ≤ m.result.time y → (∀ i < j, ∀ L, S[i]? = some L → ∀ z ∈ L.head?, t ≤ m.result.time z) →
      ∀ i < j + 1, ∀ L, S[i]? = some L → ∀ z ∈ L.head?, t ≤ m.result.time z := by
    intro t hy hbefore i hi L hiL z hz
    rcases Nat.eq_or_lt_of_le (Nat.le_of_lt_succ hi) with rfl | hlt
    · rw [hL] at hiL
      cases hiL
      cases hz
      exact hy
    · exact hbefore i hlt L hiL z hz
  by_cases hearlier : m.result.time y < m.result.time best.1
  · refine ⟨(y, j), by rw [hlook, if_pos hearlier], ⟨R, hL⟩, hcover (Nat.le_refl _) fun i hi L hiL z hz => ?_⟩
    exact Nat.le_trans (Nat.le_of_lt hearlier) (hleast i hi L hiL z hz)
  · exact ⟨best, by rw [hlook, if_neg hearlier], hplace, hcover (Nat.le_of_not_lt hearlier) hleast⟩

theorem looks_ok (h : Holds m.iters sources) (hrests : List.Forall₂ (Rests n) sources S) (hn : n < 2 ^ 31)
    (hsmall : S.length ≤ 2 ^ 31) (hfull : ∀ R ∈ S, R ≠ []) {k : Nat} (hbest : Best m S j best)
    (hk : j + k ≤ S.length) :
    ∃ best', (List.range' j k).foldlM m.look (some best.1, best.2) = pure (some best'.1, best'.2) ∧
      Best m S (j + k) best' := by
  induction k generalizing j best with
  | zero => exact ⟨best, rfl, hbest⟩
  | succ k ih =>
    obtain ⟨best₁, hlook, hbest₁⟩ := look_ok h hrests hn hsmall hfull hbest (by omega)
    obtain ⟨best₂, hlooks, hbest₂⟩ := ih hbest₁ (by omega)
    refine ⟨best₂, ?_, by rwa [Nat.add_right_comm] at hbest₂⟩
    rw [List.range'_succ, List.foldlM_cons, hlook, pure_bind, hlooks]

theorem earliest_ok (h : Holds m.iters sources) (hrests : List.Forall₂ (Rests n) sources S) (hn : n < 2 ^ 31)
    (hsmall : S.length ≤ 2 ^ 31) (hfull : ∀ R ∈ S, R ≠ []) (hS : S ≠ []) :
    ∃ x I R J, S = I ++ (x :: R) :: J ∧ m.earliest = pure (some x, I.length) ∧
      ∀ L ∈ S, ∀ y ∈ L.head?, m.result.time x ≤ m.result.time y := by
  obtain ⟨L, T, rfl⟩ := List.exists_cons_of_ne_nil hS
  obtain ⟨y, R, rfl⟩ := List.exists_cons_of_ne_nil (hfull L List.mem_cons_self)
  obtain ⟨s, hslot, hs⟩ := iter_ok (j := 0) h hrests rfl (by decide)
  have hlook : m.look (none, 0) 0 = pure (some y, 0) := by
    rw [look, hslot]
    change (do return (some (← s.elem), 0)) = _
    rw [hs.elem hn, pure_bind]
  have hbest : Best m ((y :: R) :: T) 1 (y, 0) := by
    refine ⟨⟨R, rfl⟩, fun i hi L hL z hz => ?_⟩
    obtain rfl := Nat.lt_one_iff.mp hi
    cases hL
    cases hz
    exact Nat.le_refl _
  obtain ⟨⟨x, k⟩, hlooks, ⟨R', hplace⟩, hleast⟩ :=
    looks_ok h hrests hn hsmall hfull (k := T.length) hbest (by rw [Nat.add_comm]; exact Nat.le_refl _)
  obtain ⟨I, J, hsplit, rfl⟩ := Linked.exists_split hplace
  refine ⟨x, I, R', J, hsplit, ?_, fun L hL => ?_⟩
  · have hsize : m.iters.size = T.length + 1 := h.size.trans hrests.length_eq
    rw [earliest, hsize, List.range'_succ, List.foldlM_cons, hlook, pure_bind, hlooks]
  · obtain ⟨i, hi, rfl⟩ := List.getElem_of_mem hL
    refine hleast i ?_ _ (List.getElem?_eq_getElem hi)
    rwa [List.length_cons, Nat.add_comm] at hi

/-- Every source that has been looked at has got an event. -/
theorem full_of_earliest (h : Holds m.iters sources) (hrests : List.Forall₂ (Rests n) sources S) {best : Option Nat × Nat}
    (he : m.earliest = pure best) : ∀ R ∈ S, R ≠ [] := by
  rintro R hR rfl
  obtain ⟨j, hj, hR⟩ := List.getElem_of_mem hR
  have hsize : m.iters.size = S.length := h.size.trans hrests.length_eq
  obtain ⟨⟨first, firstIndex⟩, b, hlook⟩ := round_of_foldlM he (List.mem_range'_1.mpr ⟨Nat.zero_le j, by omega⟩)
  obtain ⟨s, hslot, hlook⟩ := bind_pure hlook
  have hj' : j < 2 ^ 31 := by
    by_contra hlarge
    rw [slot] at hslot
    split at hslot
    next =>
      rw [if_neg hlarge] at hslot
      cases hslot
    next => cases hslot
  obtain ⟨s', hslot', hs⟩ := iter_ok h hrests (List.getElem?_eq_some_iff.mpr ⟨hj, hR⟩) hj'
  rw [hslot'] at hslot
  cases hslot
  cases first with
  | none =>
    obtain ⟨x, hx, -⟩ := bind_pure hlook
    exact hs.elem_nil hx
  | some first =>
    obtain ⟨x, hx, -⟩ := bind_pure hlook
    exact hs.elem_nil hx

theorem next_ok (h : Holds m.iters (A ++ s :: B)) (hA : A.length < 2 ^ 31) :
    ∃ m', m.next A.length = pure m' ∧ m'.result = m.result ∧ Holds m'.iters (A ++ s.next :: B) := by
  obtain ⟨C, hC⟩ := h.elems
  rw [List.append_assoc] at hC
  have hlt : A.length < m.iters.size := by
    rw [h.size, List.length_append, List.length_cons]
    omega
  have hget : m.getIter A.length = pure s := ElemArray.getItem_middle hC rfl hlt hA
  have hset : m.iters.rep.set A.length s.next = A ++ s.next :: B ++ C := by
    rw [hC, List.set_append_right _ _ (Nat.le_refl _), Nat.sub_self, List.append_assoc]
    rfl
  refine ⟨{ m with iters := { m.iters with rep := m.iters.rep.set A.length s.next } }, ?_, rfl, ⟨C, hset⟩, ?_, ?_,
    h.small⟩
  · rw [Merger.next, hget, pure_bind]
  · rw [h.size, List.length_append, List.length_append, List.length_cons, List.length_cons]
  · rw [h.cap, List.length_set]

theorem bump_ok (h : Holds m.iters (A ++ s :: B)) (hsmall : (A ++ s :: B).length ≤ 2 ^ 31) (hs : Rests n s (x :: R))
    (hn : n < 2 ^ 31) :
    ∃ m', m.bump A.length = pure m' ∧ m'.result = m.result ∧
      (R ≠ [] ∧ Holds m'.iters (A ++ s.next :: B) ∨ R = [] ∧ Holds m'.iters (A ++ B)) := by
  have hlen : (A ++ s :: B).length = A.length + B.length + 1 := by
    rw [List.length_append, List.length_cons, Nat.add_assoc]
  have hlen' : (A ++ s.next :: B).length = (A ++ s :: B).length := by
    rw [List.length_append, List.length_append, List.length_cons, List.length_cons]
  have hA : A.length < 2 ^ 31 := by omega
  obtain ⟨m₁, hnext, hresult, h₁⟩ := next_ok h hA
  obtain ⟨C, hC⟩ := h₁.elems
  rw [List.append_assoc] at hC
  have hget : m₁.getIter A.length = pure s.next :=
    ElemArray.getItem_middle hC rfl (by rw [h₁.size, hlen', hlen]; omega) hA
  have hbump : m.bump A.length = if s.next.isTrue then pure m₁ else do
      let iters ← leaves (m₁.iters.delete (BitVec.ofNat 32 A.length))
      return { m₁ with iters } := by
    rw [bump, hnext, pure_bind, hget, pure_bind]
  rw [hbump]
  by_cases hR : R = []
  · have hadjust : A.length = (m₁.iters.adjust (BitVec.ofNat 32 A.length)).toNat := by
      have hnat : (BitVec.ofNat 32 A.length).toNat = A.length := by
        rw [BitVec.toNat_ofNat]
        omega
      have hpos : ¬(BitVec.ofNat 32 A.length).toInt < 0 := by
        rw [BitVec.toInt_eq_toNat_cond, hnat]
        omega
      rw [ElemArray.adjust, if_neg hpos, hnat]
    obtain ⟨iters, hdelete, hiters⟩ := h₁.delete (hlen' ▸ hsmall) hadjust
    refine ⟨{ m₁ with iters }, ?_, hresult, .inr ⟨hR, hiters⟩⟩
    rw [if_neg fun htrue => (hs.next hn).2.mp htrue hR, leaves_ok hdelete, pure_bind]
  · exact ⟨m₁, if_pos ((hs.next hn).2.mpr hR), hresult, .inl ⟨hR, h₁⟩⟩

theorem bump_result {k : Nat} (h : m.bump k = pure m') : m'.result = m.result := by
  obtain ⟨m₁, hnext, h⟩ := bind_pure h
  obtain ⟨s, -, hnext⟩ := bind_pure hnext
  obtain ⟨s', -, h⟩ := bind_pure h
  cases hnext
  split at h
  next =>
    cases h
    rfl
  next =>
    obtain ⟨iters, -, h⟩ := bind_pure h
    cases h
    rfl

section

variable {t t' : SharedTrack}

theorem append_put (h : Holds t.events P) (hsmall : P.length < 2 ^ 31) (hle : ∀ y ∈ P, t.time y ≤ t.time x) :
    ∃ events P', t.append x = .ok ({ t with events }, .ok ()) ∧ Holds events P' ∧
      Put t.time (fun e => t.isEndTrack e) x P P' := by
  rcases List.eq_nil_or_concat' P with rfl | ⟨Q, last, rfl⟩
  · obtain ⟨events, he, h'⟩ := SharedTrack.append_ok h hsmall x
    refine ⟨events, [x], ?_, h', .behind⟩
    rw [SharedTrack.append, if_neg (not_not_intro (show t.events.size = 0 from h.size)), he]
  · have hlast := hle last (List.mem_append_right Q (List.mem_singleton_self last))
    have hget := SharedTrack.getItem_last h (Nat.le_of_lt hsmall)
    obtain ⟨A, B, events, hQ, he, h', hplaced⟩ := SharedTrack.add_ok h hsmall x
    refine ⟨events, A ++ x :: B, (SharedTrack.append_eq_add hget hlast).trans he, h', ?_⟩
    rw [hQ]
    cases hplaced with
    | behind hbehind =>
      rw [List.append_nil]
      exact .behind
    | beforeEnd hends heq => exact .beforeEnd hends heq
    | @beforeLater B y last' hbefore hlater hlast' hlt =>
      have hmem : last' ∈ Q ++ [last] := by
        rw [hQ]
        exact List.mem_of_getLast? hlast'
      exact absurd (hle last' hmem) (Nat.not_le_of_lt hlt)

theorem append_full (h : Holds t.events P) (hP : P.length = 2 ^ 31) : t.append x ≠ .ok (t', .ok ()) := by
  have hchanged : ∀ {r : Except Fault (ElemArray Nat × Except Exc Unit)}, (∀ m', r ≠ .ok (m', .ok ())) →
      t.changed r ≠ .ok (t', .ok ()) := by
    intro r hr he
    rcases r with f | ⟨m', e | u⟩
    · cases he
    · cases he
    · exact hr m' rfl
  rcases List.eq_nil_or_concat' P with rfl | ⟨Q, last, rfl⟩
  · exact absurd hP (by decide)
  · have hsize : t.events.size ≠ 0 := by
      rw [h.size, hP]
      decide
    rw [SharedTrack.append, if_pos hsize, SharedTrack.reading_pure (SharedTrack.getItem_last h (Nat.le_of_eq hP))]
    split
    next =>
      intro he
      cases he
    next =>
      split
      next => exact hchanged fun _ => h.insert_full hP _ _
      next => exact hchanged fun _ => h.append_full hP _

end

/-- The sources have `S` left when `P` has been merged. -/
structure Going (store : Nat → Event) (input S : List (List Nat)) (P : List Nat) (m : Merger) : Prop where
  iters : ∃ sources, Holds m.iters sources ∧ List.Forall₂ (Rests P.length) sources S
  few : S.length ≤ 2 ^ 31
  result : Holds m.result.events P
  times : m.result.store = store
  merged : Merged (fun e => (store e).time.toNat) (fun e => (store e).isEndTrack) input S P

variable {store : Nat → Event}

/-- What a round preserves. -/
theorem round_ok (h : Going store input S P m) (hfull : ∀ R ∈ S, R ≠ []) (hS : S ≠ []) (hsmall : P.length < 2 ^ 31) :
    ∃ m' S' P', m.round = pure m' ∧ Going store input S' P' m' ∧ (∀ R ∈ S', R ≠ []) ∧
      P'.length = P.length + 1 ∧ S'.flatten.length + 1 = S.flatten.length := by
  obtain ⟨⟨sources, hiters, hrests⟩, hfew, hresult, rfl, hmerged⟩ := h
  obtain ⟨x, I, R, J, rfl, hearliest, hleast⟩ := earliest_ok hiters hrests hsmall hfew hfull hS
  obtain ⟨A, s, B, rfl, hA, hs, hB⟩ := exists_partner hrests
  obtain ⟨m₁, hbump, hresult₁, hiters₁⟩ := bump_ok hiters (hrests.length_eq ▸ hfew) hs hsmall
  have hx : x ∈ (I ++ (x :: R) :: J).flatten :=
    List.mem_flatten.mpr ⟨x :: R, List.mem_append_right I List.mem_cons_self, List.mem_cons_self⟩
  obtain ⟨events, P', happend, hevents, hput⟩ := append_put hresult hsmall fun y hy => hmerged.behind y hy x hx
  have hround : m.round = pure { m₁ with result := { m.result with events } } := by
    rw [round, hearliest, pure_bind]
    dsimp only
    rw [← hA.length_eq, hbump, pure_bind, append, hresult₁, leaves_ok happend, pure_bind]
  have hlen : P'.length = P.length + 1 := by
    rw [hput.perm.length_eq, List.length_cons]
  have hmore : ∀ {s R}, Rests P.length s R → Rests P'.length s R := fun hs => hs.mono (hlen ▸ Nat.le_succ _)
  have hsome : ∃ S', Takes m.result.time x (I ++ (x :: R) :: J) S' ∧ (∀ R ∈ S', R ≠ []) ∧ S'.length ≤ 2 ^ 31 ∧
      ∃ sources', Holds m₁.iters sources' ∧ List.Forall₂ (Rests P'.length) sources' S' := by
    have hI : ∀ L ∈ I, L ≠ [] := fun L hL => hfull L (List.mem_append_left _ hL)
    have hJ : ∀ L ∈ J, L ≠ [] := fun L hL => hfull L (List.mem_append_right I (List.mem_cons_of_mem _ hL))
    rcases hiters₁ with ⟨hR, hiters₁⟩ | ⟨rfl, hiters₁⟩
    · refine ⟨I ++ R :: J, .more hleast hR, fun L hL => ?_, ?_, A ++ s.next :: B, hiters₁, ?_⟩
      · rcases List.mem_append.mp hL with hL | hL
        · exact hI L hL
        rcases List.mem_cons.mp hL with rfl | hL
        · exact hR
        · exact hJ L hL
      · rwa [List.length_append, List.length_cons] at hfew ⊢
      · exact List.rel_append (hA.imp fun _ _ => hmore) (.cons (hlen ▸ (hs.next hsmall).1) (hB.imp fun _ _ => hmore))
    · refine ⟨I ++ J, .last hleast, fun L hL => ?_, ?_, A ++ B, hiters₁, ?_⟩
      · rcases List.mem_append.mp hL with hL | hL
        · exact hI L hL
        · exact hJ L hL
      · rw [List.length_append, List.length_cons] at hfew
        rw [List.length_append]
        omega
      · exact List.rel_append (hA.imp fun _ _ => hmore) (hB.imp fun _ _ => hmore)
  obtain ⟨S', htakes, hfull', hfew', hsources⟩ := hsome
  refine ⟨_, S', P', hround, ⟨hsources, hfew', hevents, rfl, hmerged.step htakes hput⟩, hfull', hlen, ?_⟩
  rw [htakes.perm.length_eq, List.length_cons]

theorem round_full (h : Holds m.result.events P) (hP : P.length = 2 ^ 31) : m.round ≠ pure m' := by
  intro hround
  obtain ⟨⟨first, firstIndex⟩, -, hround⟩ := bind_pure hround
  obtain ⟨m₁, hbump, hround⟩ := bind_pure hround
  have hresult := bump_result hbump
  cases first with
  | none => cases hround
  | some first =>
    obtain ⟨t', happend, -⟩ := bind_pure hround
    exact append_full (hresult ▸ h) hP (ok_of_leaves happend)

theorem loop_ok (h : Going store input S P m) (hfull : ∀ R ∈ S, R ≠ []) (hsmall : P.length + S.flatten.length ≤ 2 ^ 31) :
    ∃ result P', Returns (fun fuel => m.loop fuel) (pure result) ∧ Holds result.events P' ∧
      Merged (fun e => (store e).time.toNat) (fun e => (store e).isEndTrack) input [] P' := by
  induction hk : S.flatten.length generalizing m S P with
  | zero =>
    have hS : S = [] := List.length_eq_zero_iff.mp (Nat.le_zero.mp (hk ▸ Merging.length_le_flatten hfull))
    subst hS
    obtain ⟨⟨sources, hiters, hrests⟩, -, hresult, -, hmerged⟩ := h
    have hsize : m.iters.size = 0 := hiters.size.trans hrests.length_eq
    exact ⟨m.result, P, .now fun fuel => by rw [loop, if_pos hsize], hresult, hmerged⟩
  | succ k ih =>
    have hS : S ≠ [] := by
      rintro rfl
      cases hk
    obtain ⟨m', S', P', hround, h', hfull', hP', hS'⟩ := round_ok h hfull hS (by omega)
    obtain ⟨result, P'', hreturns, hrest⟩ := ih h' hfull' (by omega) (by omega)
    obtain ⟨⟨sources, hiters, hrests⟩, -⟩ := h
    have hsize : m.iters.size ≠ 0 := by
      rw [hiters.size, hrests.length_eq]
      exact mt List.length_eq_zero_iff.mp hS
    refine ⟨result, P'', hreturns.step fun fuel hloop => ?_, hrest⟩
    rw [loop, if_neg hsize, hround, pure_bind]
    exact hloop

/-- With more events than an array can have, `merge` does not come to its end. -/
theorem loop_full (h : Going store input S P m) (hfull : ∀ R ∈ S, R ≠ []) (hP : P.length ≤ 2 ^ 31)
    (hmany : 2 ^ 31 < P.length + S.flatten.length) (fuel : Nat) (result : SharedTrack) : m.loop fuel ≠ pure result := by
  induction fuel generalizing m S P with
  | zero =>
    intro hloop
    cases hloop
  | succ fuel ih =>
    have hS : S ≠ [] := by
      rintro rfl
      exact Nat.not_lt_of_le hP hmany
    have hsize : m.iters.size ≠ 0 := by
      obtain ⟨⟨sources, hiters, hrests⟩, -⟩ := h
      rw [hiters.size, hrests.length_eq]
      exact mt List.length_eq_zero_iff.mp hS
    rw [loop, if_neg hsize]
    rcases Nat.eq_or_lt_of_le hP with heq | hlt
    · intro hloop
      obtain ⟨m', hround, -⟩ := bind_pure hloop
      exact round_full h.result heq hround
    · obtain ⟨m', S', P', hround, h', hfull', hP', hS'⟩ := round_ok h hfull hS hlt
      rw [hround, pure_bind]
      exact ih h' hfull' (by omega) (by omega)

variable {tracks : ElemArray (ElemArray Nat)}

theorem addIters_ok {T : List (ElemArray Nat)} {T' : List (List Nat)} (hT : List.Forall₂ Holds T T')
    {D : List (ElemArray Nat)} {D' : List (List Nat)} (h : Holds tracks (D ++ T)) (hsmall : (D ++ T).length ≤ 2 ^ 31)
    (hiters : Holds m.iters sources) (hrests : List.Forall₂ (Rests 0) sources D') (hlen : D.length = D'.length) :
    ∃ m' sources', (List.range' D.length T.length).foldlM (addIter tracks) m = pure m' ∧ m'.result = m.result ∧
      Holds m'.iters sources' ∧ List.Forall₂ (Rests 0) sources' (D' ++ T') := by
  induction hT generalizing m sources D D' with
  | nil => exact ⟨m, sources, rfl, rfl, hiters, by rwa [List.append_nil]⟩
  | @cons events L T T' hL hT ih =>
    rw [List.length_append, List.length_cons] at hsmall
    have hroom : sources.length < 2 ^ 31 := by
      rw [hrests.length_eq]
      omega
    obtain ⟨C, hC⟩ := h.elems
    have hslot : slot tracks.rep D.length = .ok events := by
      rw [hC, List.append_assoc]
      exact slot_middle (by omega)
    have hsource : Rests 0 ⟨{ m.result with events }, 0⟩ L := ⟨[], hL, rfl, Nat.le_refl 0⟩
    obtain ⟨iters, happend, hiters'⟩ := hiters.append m.null hroom ⟨{ m.result with events }, 0⟩
    have hadd : addIter tracks m D.length = pure { m with iters } := by
      rw [addIter, hslot]
      change (do
        let iters ← leaves (m.iters.append m.null ⟨{ m.result with events }, 0⟩)
        return { m with iters }) = _
      rw [leaves_ok happend, pure_bind]
    have hsplit : D ++ events :: T = D ++ [events] ++ T := List.append_cons D events T
    have hlen' : (D ++ [events]).length = D.length + 1 := List.length_append
    have hrests₁ := List.rel_append hrests (.cons hsource .nil)
    obtain ⟨m', sources', hfold, hresult, hiters'', hrests''⟩ := ih (m := { m with iters }) (D := D ++ [events])
      (hsplit ▸ h) (by rw [List.length_append, hlen']; omega) hiters' hrests₁ (by rw [hlen', List.length_append, hlen]; rfl)
    refine ⟨m', sources', ?_, hresult, hiters'', by rwa [List.append_cons]⟩
    rw [List.length_cons, List.range'_succ, List.foldlM_cons, hadd, pure_bind, ← hlen', hfold]

variable {ts : List (ElemArray Nat)} {shown : Nat → String}

/-- The loop over few enough tracks leaves a source for each of them. -/
theorem start_ok (h : Holds tracks ts) (hts : List.Forall₂ Holds ts input) (hsmall : ts.length ≤ 2 ^ 31)
    (hsorted : ∀ P ∈ input, P.Pairwise fun x y => (store x).time ≤ (store y).time) :
    ∃ m, (List.range' 0 tracks.size).foldlM (addIter tracks)
        ⟨.init ⟨.init store shown, 0⟩ (BitVec.ofNat 32 tracks.size), .init store shown⟩ = pure m ∧
      Going store input input [] m := by
  obtain ⟨m, sources, hfold, hresult, hiters, hrests⟩ := addIters_ok (D := [])
    (m := ⟨.init ⟨.init store shown, 0⟩ (BitVec.ofNat 32 tracks.size), .init store shown⟩)
    hts h hsmall (ElemArray.init_holds _ _) .nil rfl
  refine ⟨m, h.size ▸ hfold, ⟨sources, hiters, hrests⟩, hts.length_eq ▸ hsmall, ?_, ?_, .start fun L hL => ?_⟩
  · rw [hresult]
    exact ElemArray.init_holds _ _
  · rw [hresult]
    rfl
  · exact (hsorted L hL).imp fun hle => UInt32.le_iff_toNat_le.mp hle

/-- More tracks than an array can have are not all reached. -/
theorem few_tracks (h : Holds tracks ts) (hfold : (List.range' 0 tracks.size).foldlM (addIter tracks) m = pure m') :
    ts.length ≤ 2 ^ 31 := by
  by_contra hmany
  have hsize := h.size
  obtain ⟨m₁, m₂, hadd⟩ := round_of_foldlM (i := 2 ^ 31) hfold (List.mem_range'_1.mpr ⟨Nat.zero_le _, by omega⟩)
  obtain ⟨events, hslot, -⟩ := bind_pure hadd
  rw [slot] at hslot
  split at hslot
  next =>
    rw [if_neg (Nat.lt_irrefl _)] at hslot
    cases hslot
  next => cases hslot

end Merger

open Merger

/-- Sorted tracks are merged as they should be if each of them has an event, and if they have at most as many as an
array can have. -/
theorem merges_iff {store : Nat → Event} {shown : Nat → String} {tracks : ElemArray (ElemArray Nat)}
    {ts : List (ElemArray Nat)} {input : List (List Nat)} (h : Holds tracks ts) (hts : List.Forall₂ Holds ts input)
    (hsorted : ∀ P ∈ input, P.Pairwise fun x y => (store x).time ≤ (store y).time) :
    Merges store shown tracks input ↔ (∀ P ∈ input, P ≠ []) ∧ input.flatten.length ≤ 2 ^ 31 := by
  constructor
  · rintro ⟨result, events, ⟨n, hn⟩, -⟩
    obtain ⟨m, hfold, hloop⟩ := bind_pure (hn n (Nat.le_refl n))
    obtain ⟨m', hfold', hgoing⟩ := start_ok h hts (few_tracks h hfold) hsorted
    cases hfold.symm.trans hfold'
    have hfull : ∀ P ∈ input, P ≠ [] := by
      obtain ⟨⟨sources, hiters, hrests⟩, -⟩ := hgoing
      by_cases hinput : input = []
      · rw [hinput]
        exact fun P hP => absurd hP List.not_mem_nil
      · cases n with
        | zero => cases hloop
        | succ n =>
          have hsize : m.iters.size ≠ 0 := by
            rw [hiters.size, hrests.length_eq]
            exact mt List.length_eq_zero_iff.mp hinput
          rw [loop, if_neg hsize] at hloop
          obtain ⟨m₁, hround, -⟩ := bind_pure hloop
          obtain ⟨best, hbest, -⟩ := bind_pure hround
          exact full_of_earliest hiters hrests hbest
    refine ⟨hfull, Nat.le_of_not_lt fun hmany => loop_full hgoing hfull (Nat.zero_le _) ?_ n result hloop⟩
    rwa [List.length_nil, Nat.zero_add]
  · rintro ⟨hfull, hfew⟩
    have htracks : ts.length ≤ 2 ^ 31 := by
      rw [hts.length_eq]
      exact Nat.le_trans (Merging.length_le_flatten hfull) hfew
    obtain ⟨m, hfold, hgoing⟩ := start_ok h hts htracks hsorted
    obtain ⟨result, events, hreturns, hevents, hmerged⟩ :=
      loop_ok hgoing hfull (by rwa [List.length_nil, Nat.zero_add])
    obtain ⟨hperm, horder⟩ := hmerged.finish
    refine ⟨result, events, hreturns.imp fun fuel hloop => ?_, hevents, ?_, hperm, horder⟩
    · rw [merge, hfold, pure_bind]
      exact hloop
    · exact hmerged.sorted.imp fun hle => UInt32.le_iff_toNat_le.mpr hle

/-- Notes at 0, 10 and 30 and an end-of-track event at 20, in tracks that fill their arrays. -/
def fullTrack (events : List Nat) : ElemArray Nat := ⟨events, events.length, events.length⟩

theorem fullTrack_holds {events : List Nat} (h : events.length < 2 ^ 32) : Holds (fullTrack events) events :=
  ⟨⟨[], (List.append_nil events).symm⟩, rfl, rfl, h⟩

def twoTracks : ElemArray (ElemArray Nat) := ⟨[fullTrack [0, 2], fullTrack [1, 3]], 2, 2⟩

theorem two_tracks_merged : Merges SharedTrack.notesAndEnd (fun _ => "a note") twoTracks [[0, 2], [1, 3]] := by
  have hholds : Holds twoTracks [fullTrack [0, 2], fullTrack [1, 3]] := ⟨⟨[], rfl⟩, rfl, rfl, show 2 < 2 ^ 32 by decide⟩
  refine (merges_iff hholds ?_ (by decide)).mpr ⟨by decide, by decide⟩
  exact .cons (fullTrack_holds (by decide)) (.cons (fullTrack_holds (by decide)) .nil)

/-- The only track has no event to look at. -/
theorem empty_track_not_merged : ¬∀ (store : Nat → Event) (shown : Nat → String) (tracks : ElemArray (ElemArray Nat))
    (ts : List (ElemArray Nat)) (input : List (List Nat)), Holds tracks ts → List.Forall₂ Holds ts input →
    (∀ P ∈ input, P.Pairwise fun x y => (store x).time ≤ (store y).time) → Merges store shown tracks input := by
  intro hall
  have hholds : Holds (⟨[fullTrack []], 1, 1⟩ : ElemArray (ElemArray Nat)) [fullTrack []] :=
    ⟨⟨[], rfl⟩, rfl, rfl, show 1 < 2 ^ 32 by decide⟩
  obtain ⟨result, events, hreturns, -⟩ := hall SharedTrack.notesAndEnd (fun _ => "a note") _ _ [[]] hholds
    (.cons (fullTrack_holds (by decide)) .nil) (by decide)
  have hthrown : Returns (merge SharedTrack.notesAndEnd (fun _ => "a note") ⟨[fullTrack []], 1, 1⟩)
      (throw (.indexError (ElemArray.getItemText 0 0))) := .now fun fuel => rfl
  cases hreturns.unique hthrown

end Midi

end Crack
