import Crack.Io.StringWriter
import Crack.Lang.Splitting

/-!
# Substituting matches

The macro `__subst` of a regular expression. What the pattern matches is a parameter, and so is
what an action writes for a match.
-/
namespace Crack

namespace Regex

open Fuel (Returns)
open Loops (bind_ok)
open SubStrings (Target macros asInt)
open Splitting (length_bytes slice2_ok slice1_ok)

/-- Where a match begins and where it ends. -/
structure Match where
  begin : Nat
  stop : Nat
  deriving DecidableEq, Repr

/-- The matches in a subject: the end of the one that begins at a place. -/
structure Matches (size : Nat) where
  stopOf : Nat → Option Nat
  inside : ∀ p q, stopOf p = some q → p ≤ q ∧ q ≤ size

namespace Matches

variable {size : Nat} (ms : Matches size)

/-- The leftmost match at or behind a place. -/
def leftmost (start : Nat) : Option Match :=
  (List.range' start (size + 1 - start)).findSome? fun p => (ms.stopOf p).map (⟨p, ·⟩)

/-- Behind an empty match the next one begins one place further on. -/
def behind (m : Match) : Nat := if m.begin = m.stop then m.stop + 1 else m.stop

def allFrom : Nat → Nat → List Match
  | 0, _ => []
  | n + 1, start =>
    match ms.leftmost start with
    | none => []
    | some m => m :: allFrom n (behind m)

/-- All matches that do not overlap, from the left; none begins behind the end of the subject. -/
def all : List Match := ms.allFrom (size + 1) 0

/-- The first ones, or all for a negative count. -/
def first (count : BitVec 32) : List Match := if count.toInt < 0 then ms.all else ms.all.take count.toNat

end Matches

/-- What is behind the loop. -/
def finish (subject : Target) (last : BitVec 32) (result : StringWriter) : Except Stop (List UInt8) := do
  let result ←
    if last.toInt < asInt subject.size then do
      let rest ← macros subject (.slice1 last)
      result.write rest.bytes
    else .ok result
  result.getString

/-- The loop, with the matches that the action has been called for. -/
def substLoop (search : BitVec 32 → Option Match) (subject : Target) (action : Match → List UInt8) :
    Nat → Option Match → BitVec 32 → BitVec 32 → StringWriter → List Match → Except Stop (List UInt8 × List Match)
  | 0, _, _, _, _, _ => .error .forever
  | fuel + 1, mx, last, count, result, calls =>
    match mx with
    | none => do return (← finish subject last result, calls)
    | some m =>
      if count = 0 then do return (← finish subject last result, calls)
      else do
        let gap ← macros subject (.slice2 last (BitVec.ofNat 32 m.begin))
        let result ← result.write gap.bytes
        let result ← result.write (action m)
        substLoop search subject action fuel (search (BitVec.ofNat 32 m.stop)) (BitVec.ofNat 32 m.stop) (count - 1)
          result (calls ++ [m])

def subst (search : BitVec 32 → Option Match) (subject : Target) (action : Match → List UInt8) (count : BitVec 32)
    (fuel : Nat) : Except Stop (List UInt8 × List Match) :=
  match search 0 with
  | none => .ok (subject.view.bytes, [])
  | some mx => substLoop search subject action fuel (some mx) 0 count (.init 1024) []

/-- The text from a place on with these matches replaced. -/
def spliced (text : List UInt8) (action : Match → List UInt8) : Nat → List Match → List UInt8
  | start, [] => text.drop start
  | start, m :: ms => (text.drop start).take (m.begin - start) ++ action m ++ spliced text action m.stop ms

/-- What the writer is given for it, one after the other. -/
def pieces (text : List UInt8) (action : Match → List UInt8) : Nat → List Match → List (List UInt8)
  | start, [] => [text.drop start]
  | start, m :: ms => (text.drop start).take (m.begin - start) :: action m :: pieces text action m.stop ms

/-- Each piece that is not empty starts at the index of an `int`, and the whole is counted by a `uint`. -/
def Room : Nat → List (List UInt8) → Prop
  | _, [] => True
  | place, bytes :: rest =>
    ((place < 2 ^ 31 ∨ bytes = []) ∧ place + bytes.length < 2 ^ 32) ∧ Room (place + bytes.length) rest

instance : (place : Nat) → (rest : List (List UInt8)) → Decidable (Room place rest)
  | _, [] => isTrue trivial
  | place, bytes :: rest =>
    have := instDecidableRoom (place + bytes.length) rest
    inferInstanceAs (Decidable (_ ∧ _))

/-- `search` returns the leftmost match at or behind a place. -/
def Finds {size : Nat} (search : BitVec 32 → Option Match) (ms : Matches size) : Prop :=
  ∀ start : BitVec 32, 0 ≤ start.toInt → search start = ms.leftmost start.toNat

variable {subject : Target} (ms : Matches subject.size) (search : BitVec 32 → Option Match)
  (action : Match → List UInt8) (count : BitVec 32)

/-- The call returns, and the first matches have been replaced, once each. -/
def Substitutes : Prop :=
  Returns (subst search subject action count)
    (.ok (spliced subject.view.bytes action 0 (ms.first count), ms.first count))

/-- There is no match; or the subject and the result are small enough, and no match is empty but the one that
uses the count up. -/
def SubstOk : Prop :=
  ms.leftmost 0 = none ∨
    subject.size < 2 ^ 31 ∧ (∀ i m, ms.all[i]? = some m → i + 1 < count.toNat → m.begin < m.stop) ∧
      Room 0 (pieces subject.view.bytes action 0 (ms.first count))

namespace Matches

variable {size : Nat} {ms : Matches size} {m : Match} {start n fuel : Nat}

theorem leftmost_some (h : ms.leftmost start = some m) :
    start ≤ m.begin ∧ m.begin ≤ m.stop ∧ m.stop ≤ size ∧ ms.leftmost m.begin = some m := by
  rw [leftmost, List.findSome?_eq_some_iff] at h
  obtain ⟨before, p, behind, hrange, hp, hnone⟩ := h
  obtain ⟨q, hq, rfl⟩ := Option.map_eq_some_iff.mp hp
  obtain ⟨hle, hsize⟩ := ms.inside p q hq
  have hmem : p ∈ List.range' start (size + 1 - start) := hrange ▸ List.mem_append_right _ List.mem_cons_self
  have hstart := (List.mem_range'_1.mp hmem).1
  refine ⟨hstart, hle, hsize, ?_⟩
  have hpos : size + 1 - p = (size - p) + 1 := by omega
  rw [leftmost, hpos, List.range'_succ, List.findSome?_cons, hq]
  rfl

/-- The matches that the loop comes to; it goes on at the end of the last one. -/
def visited (ms : Matches size) : Nat → Nat → List Match
  | 0, _ => []
  | n + 1, start =>
    match ms.leftmost start with
    | none => []
    | some m => m :: visited ms n m.stop

theorem behind_le (h : ms.leftmost start = some m) : start < behind m ∧ behind m ≤ size + 1 := by
  obtain ⟨hstart, hle, hsize, -⟩ := leftmost_some h
  rw [behind]
  split <;> omega

theorem length_allFrom : (ms.allFrom fuel start).length ≤ size + 1 - start := by
  induction fuel generalizing start with
  | zero => exact Nat.zero_le _
  | succ fuel ih =>
    rw [allFrom]
    split
    next => exact Nat.zero_le _
    next m h =>
      have hbehind := behind_le h
      have hrest := @ih (behind m)
      rw [List.length_cons]
      omega

/-- An empty match that is not the last one is come to again. -/
theorem visited_eq_iff (hfuel : size + 1 - start ≤ fuel) :
    ms.visited n start = (ms.allFrom fuel start).take n ↔
      ∀ i m, (ms.allFrom fuel start)[i]? = some m → i + 1 < n → m.begin < m.stop := by
  induction n generalizing start fuel with
  | zero => exact iff_of_true rfl fun i m _ hlt => absurd hlt (Nat.not_lt_zero _)
  | succ n ih =>
    cases hleft : ms.leftmost start with
    | none =>
      have hnone : ms.allFrom fuel start = [] := by
        cases fuel with
        | zero => rfl
        | succ fuel => rw [allFrom, hleft]
      rw [visited, hleft, hnone]
      exact iff_of_true rfl fun i m h => nomatch h
    | some m =>
      obtain ⟨hstart, hle, hsize, hagain⟩ := leftmost_some hleft
      obtain ⟨fuel, rfl⟩ := Nat.exists_eq_succ_of_ne_zero (by omega : fuel ≠ 0)
      have hall : ms.allFrom (fuel + 1) start = m :: ms.allFrom fuel (behind m) := by rw [allFrom, hleft]
      have hforall : (∀ i m', (m :: ms.allFrom fuel (behind m))[i]? = some m' → i + 1 < n + 1 → m'.begin < m'.stop) ↔
          (0 < n → m.begin < m.stop) ∧
            ∀ i m', (ms.allFrom fuel (behind m))[i]? = some m' → i + 1 < n → m'.begin < m'.stop := by
        constructor
        · intro h
          exact ⟨fun hn => h 0 m rfl (by omega), fun i m' hi hlt => h (i + 1) m' hi (by omega)⟩
        · rintro ⟨h0, h⟩ i m' hi hlt
          cases i with
          | zero =>
            cases hi
            exact h0 (by omega)
          | succ i => exact h i m' hi (by omega)
      rw [visited, hleft, hall, List.take_succ_cons, hforall]
      dsimp only
      rw [List.cons_inj_right]
      have hbehind := behind_le hleft
      by_cases hempty : m.begin = m.stop
      · -- the same match again
        have hnext : behind m = m.stop + 1 := if_pos hempty
        cases n with
        | zero => exact iff_of_true rfl ⟨fun h => absurd h (Nat.lt_irrefl 0), fun i m' _ hlt => by omega⟩
        | succ n =>
          refine iff_of_false (fun h => ?_) (fun h => absurd (h.1 (Nat.succ_pos n)) (by omega))
          rw [visited, ← hempty, hagain] at h
          dsimp only at h
          cases hrest : ms.allFrom fuel (behind m) with
          | nil =>
            rw [hrest] at h
            cases h
          | cons m' rest =>
            rw [hrest, List.take_succ_cons] at h
            have hsame := (List.cons.inj h).1
            cases fuel with
            | zero => cases hrest
            | succ fuel =>
              rw [allFrom] at hrest
              split at hrest
              next => cases hrest
              next m'' hleft' =>
                have hhead := (List.cons.inj hrest).1
                have hge := (leftmost_some hleft').1
                rw [hhead, ← hsame] at hge
                omega
      · have hnext : behind m = m.stop := if_neg hempty
        rw [hnext] at hbehind ⊢
        rw [ih (by omega)]
        exact ⟨fun h => ⟨fun _ => by omega, h⟩, fun h => h.2⟩

/-- The loop comes to the first matches if and only if no match but the last one of them is empty. -/
theorem visited_first_iff (hsize : size < 2 ^ 31) (count : BitVec 32) :
    ms.visited count.toNat 0 = ms.first count ↔
      ∀ i m, ms.all[i]? = some m → i + 1 < count.toNat → m.begin < m.stop := by
  have hiff := @visited_eq_iff _ ms 0 count.toNat _ (Nat.le_refl _)
  have htake : ms.first count = ms.all.take count.toNat := by
    rw [first]
    split
    next hneg =>
      -- there are not so many matches
      have hlen : ms.all.length ≤ size + 1 := length_allFrom
      have hlarge : 2 ^ 31 ≤ count.toNat := by
        rw [BitVec.toInt_eq_toNat_cond] at hneg
        have hlt := count.isLt
        split at hneg <;> omega
      rw [List.take_of_length_le (by omega)]
    next => rfl
  rw [htake]
  exact hiff

end Matches

/-- A writer that has only been written to. -/
structure Written (w : StringWriter) (xs : List UInt8) : Prop where
  sound : w.buf.Sound
  pos : w.pos = w.buf.size
  data : w.buf.data = xs

variable {w w' : StringWriter} {xs bytes : List UInt8}

theorem written_init : Written (.init 1024) [] :=
  ⟨ManagedBuffer.sound_init (by decide), rfl, rfl⟩

section

variable (h : Written w xs)

include h

theorem Written.size : w.buf.size = xs.length := by
  rw [← h.data, ManagedBuffer.length_data h.sound.1]

theorem Written.lt : xs.length < 2 ^ 32 := by
  rw [← h.size]
  exact Nat.lt_of_le_of_lt h.sound.1 h.sound.2

theorem write_eq (bytes : List UInt8) : w.write bytes = do
    let buf ← w.buf.extend bytes
    return ⟨if buf.size < w.buf.size then { buf with size := w.buf.size } else buf, w.pos + bytes.length⟩ := by
  rw [StringWriter.write, h.pos]

theorem Written.write_only (he : w.write bytes = .ok w') : Written w' (xs ++ bytes) := by
  rw [write_eq h] at he
  obtain ⟨buf, hbuf, he⟩ := bind_ok he
  obtain ⟨hsound, hdata⟩ := (ManagedBuffer.appends_extend bytes).only _ _ h.sound hbuf
  have hsize : buf.size = w.buf.size + bytes.length := by
    rw [← ManagedBuffer.length_data hsound.1, hdata, List.length_append, ManagedBuffer.length_data h.sound.1]
  rw [if_neg (by omega)] at he
  cases he
  refine ⟨hsound, ?_, ?_⟩
  · change w.pos + bytes.length = buf.size
    rw [hsize, h.pos]
  · rw [hdata, h.data]

theorem Written.write_ok (hroom : (xs.length < 2 ^ 31 ∨ bytes = []) ∧ xs.length + bytes.length < 2 ^ 32) :
    ∃ w', w.write bytes = .ok w' ∧ Written w' (xs ++ bytes) := by
  rw [← h.size] at hroom
  obtain ⟨buf, hbuf, -⟩ := ManagedBuffer.extend_ok h.sound.1 hroom.1 hroom.2
  refine ⟨⟨if buf.size < w.buf.size then { buf with size := w.buf.size } else buf, w.pos + bytes.length⟩, ?_, ?_⟩
  · rw [write_eq h, hbuf]
    rfl
  · refine h.write_only ?_
    rw [write_eq h, hbuf]
    rfl

theorem Written.room_of_write (he : w.write bytes = .ok w') :
    (xs.length < 2 ^ 31 ∨ bytes = []) ∧ xs.length + bytes.length < 2 ^ 32 := by
  have hlt := (h.write_only he).lt
  rw [List.length_append] at hlt
  rw [write_eq h] at he
  obtain ⟨buf, hbuf, -⟩ := bind_ok he
  rw [← h.size] at hlt ⊢
  exact ⟨ManagedBuffer.place_of_extend h.sound hbuf, hlt⟩

theorem Written.getString : w.getString = .ok xs := by
  have huint : uint w.buf.size = w.buf.size := Nat.mod_eq_of_lt (by rw [h.size]; exact h.lt)
  rw [StringWriter.getString, huint, ManagedBuffer.string_ok (.inl (by decide)) (Nat.le_of_eq (Nat.zero_add _)) h.sound.1,
    List.drop_zero, ← ManagedBuffer.length_data h.sound.1, List.take_length, h.data]

/-- Code that goes on after a write returns if there is room, and if it returns then. -/
theorem Written.bind_iff {α : Type} {f : StringWriter → Except Stop α} {r : α} {p : Prop} {rest : List (List UInt8)}
    (hf : ∀ w', Written w' (xs ++ bytes) → (f w' = .ok r ↔ Room (xs ++ bytes).length rest ∧ p)) :
    (w.write bytes >>= f) = .ok r ↔ Room xs.length (bytes :: rest) ∧ p := by
  rw [Room, and_assoc, ← show (xs ++ bytes).length = _ from List.length_append]
  constructor
  · intro he
    obtain ⟨w', hw', he⟩ := bind_ok he
    exact ⟨List.length_append ▸ h.room_of_write hw', (hf w' (h.write_only hw')).mp he⟩
  · rintro ⟨hroom, hp⟩
    rw [List.length_append] at hroom
    obtain ⟨w', hw', hwritten⟩ := h.write_ok hroom
    rw [hw']
    exact (hf w' hwritten).mpr hp

end

variable {ms search action count} {last start fuel : Nat} {calls : List Match}

theorem ofNat_eq (n : Nat) : BitVec.ofNat 32 n = BitVec.ofInt 32 n := (BitVec.ofInt_natCast _ _).symm

theorem toInt_ofNat {n : Nat} (h : n < 2 ^ 31) : (BitVec.ofNat 32 n).toInt = n := by
  rw [BitVec.toInt_eq_toNat_of_lt] <;> rw [BitVec.toNat_ofNat, Nat.mod_eq_of_lt (by omega)]
  omega

/-- The rest of the subject is written. -/
theorem finish_iff (hsize : subject.size < 2 ^ 31) (hlast : last ≤ subject.size) (h : Written w xs) (r : List UInt8) :
    finish subject (BitVec.ofNat 32 last) w = .ok r ↔
      Room xs.length [subject.view.bytes.drop last] ∧ r = xs ++ subject.view.bytes.drop last := by
  have hlen := length_bytes subject
  have hint : asInt subject.size = subject.size := by
    rw [asInt]
    omega
  rw [finish, toInt_ofNat (by omega), hint]
  by_cases hrest : last < subject.size
  · obtain ⟨rest, hslice, hbytes⟩ := @slice1_ok subject last (by omega) (by omega) (by omega) (by omega)
    rw [Int.toNat_natCast] at hbytes
    rw [if_pos (by omega), ofNat_eq, hslice]
    change (w.write rest.bytes >>= fun w' => w'.getString) = _ ↔ _
    rw [hbytes]
    refine h.bind_iff fun w' hw' => ?_
    rw [hw'.getString]
    exact ⟨fun he => ⟨trivial, (Except.ok.inj he).symm⟩, fun hp => congrArg _ hp.2.symm⟩
  · rw [if_neg (by omega), List.drop_eq_nil_of_le (by omega), List.append_nil]
    change w.getString = _ ↔ _
    rw [h.getString]
    exact ⟨fun he => ⟨⟨⟨.inr rfl, h.lt⟩, trivial⟩, (Except.ok.inj he).symm⟩, fun hp => congrArg _ hp.2.symm⟩

/-- The loop returns if its result is small enough, with the matches that it has come to replaced. -/
theorem substLoop_iff (hsize : subject.size < 2 ^ 31) (hfinds : Finds search ms) (hstart : start ≤ subject.size)
    (hfuel : count.toNat < fuel) (h : Written w xs) (r : List UInt8 × List Match) :
    substLoop search subject action fuel (ms.leftmost start) (BitVec.ofNat 32 start) count w calls = .ok r ↔
      Room xs.length (pieces subject.view.bytes action start (ms.visited count.toNat start)) ∧
        r = (xs ++ spliced subject.view.bytes action start (ms.visited count.toNat start),
          calls ++ ms.visited count.toNat start) := by
  induction fuel generalizing start count w xs calls with
  | zero => exact absurd hfuel (Nat.not_lt_zero _)
  | succ fuel ih =>
    have hend : (do return (← finish subject (BitVec.ofNat 32 start) w, calls)) = Except.ok r ↔
        Room xs.length [subject.view.bytes.drop start] ∧ r = (xs ++ subject.view.bytes.drop start, calls) := by
      obtain ⟨text, calls'⟩ := r
      have hiff := finish_iff hsize hstart h text
      rw [Prod.mk.injEq]
      constructor
      · intro he
        obtain ⟨text', hfinish, he⟩ := bind_ok he
        cases he
        exact ⟨(hiff.mp hfinish).1, (hiff.mp hfinish).2, rfl⟩
      · rintro ⟨hlt, htext, rfl⟩
        rw [hiff.mpr ⟨hlt, htext⟩]
        rfl
    cases hleft : ms.leftmost start with
    | none =>
      have hvisited : ms.visited count.toNat start = [] := by
        cases count.toNat with
        | zero => rfl
        | succ n => rw [Matches.visited, hleft]
      rw [substLoop, hvisited, spliced, pieces, List.append_nil]
      exact hend
    | some m =>
      rw [substLoop]
      by_cases h0 : count = 0
      · have hvisited : ms.visited count.toNat start = [] := by
          rw [h0]
          rfl
        rw [if_pos h0, hvisited, spliced, pieces, List.append_nil]
        exact hend
      · obtain ⟨hle, hbegin, hstop, -⟩ := Matches.leftmost_some hleft
        obtain ⟨gap, hslice, hbytes⟩ := slice2_ok (p := start) (q := m.begin)
          (by rw [length_bytes]; exact hsize) (by omega) (by omega) (by rw [length_bytes]; omega)
        rw [Int.toNat_natCast, show ((m.begin : Int) - start).toNat = m.begin - start by omega] at hbytes
        have hpos : count.toNat = (count - 1).toNat + 1 := by
          have hne : count.toNat ≠ 0 := fun hz => h0 (BitVec.eq_of_toNat_eq hz)
          rw [BitVec.toNat_sub]
          have hlt := count.isLt
          change _ = (2 ^ 32 - 1 + count.toNat) % 2 ^ 32 + 1
          omega
        have hvisited : ms.visited count.toNat start = m :: ms.visited (count - 1).toNat m.stop := by
          rw [hpos, Matches.visited, hleft]
        have hnext : search (BitVec.ofNat 32 m.stop) = ms.leftmost m.stop := by
          have hnat : (BitVec.ofNat 32 m.stop).toNat = m.stop := by
            rw [BitVec.toNat_ofNat]
            exact Nat.mod_eq_of_lt (by omega)
          rw [hfinds _ (by rw [toInt_ofNat (by omega)]; omega), hnat]
        rw [if_neg h0, ofNat_eq start, ofNat_eq m.begin, hslice, hvisited, spliced, pieces]
        change (w.write gap.bytes >>= _) = _ ↔ _
        rw [hbytes]
        simp only [← List.append_assoc]
        refine h.bind_iff fun w₁ hw₁ => hw₁.bind_iff fun w₂ hw₂ => ?_
        have hiff := @ih (count - 1) _ _ _ (calls ++ [m]) hstop (by omega) hw₂
        rw [List.append_assoc calls] at hiff
        rw [hnext]
        exact hiff

theorem finds_zero (hfinds : Finds search ms) : search 0 = ms.leftmost 0 := hfinds 0 (Int.le_refl 0)

theorem first_nil (h : ms.leftmost 0 = none) : ms.first count = [] := by
  have hall : ms.all = [] := by rw [Matches.all, Matches.allFrom, h]
  rw [Matches.first, hall, List.take_nil, ite_self]

theorem substitutes_of_none (hfinds : Finds search ms) (h : ms.leftmost 0 = none) :
    Substitutes ms search action count := by
  refine .now fun fuel => ?_
  rw [subst, finds_zero hfinds, h, first_nil h]
  rfl

/-- With enough fuel the call returns what the loop does. -/
theorem subst_iff (hsize : subject.size < 2 ^ 31) (hfinds : Finds search ms) (hsome : ms.leftmost 0 ≠ none)
    {fuel : Nat} (hfuel : count.toNat < fuel) (r : List UInt8 × List Match) :
    subst search subject action count fuel = .ok r ↔
      Room 0 (pieces subject.view.bytes action 0 (ms.visited count.toNat 0)) ∧
        r = (spliced subject.view.bytes action 0 (ms.visited count.toNat 0), ms.visited count.toNat 0) := by
  obtain ⟨mx, hmx⟩ := Option.ne_none_iff_exists'.mp hsome
  have hloop := @substLoop_iff _ _ _ action _ _ _ _ _ [] hsize hfinds (Nat.zero_le _) hfuel written_init r
  rw [hmx] at hloop
  rw [subst, finds_zero hfinds, hmx]
  exact hloop

theorem substitutes_iff (hsize : subject.size < 2 ^ 31) (hfinds : Finds search ms) :
    Substitutes ms search action count ↔ SubstOk ms action count := by
  by_cases hnone : ms.leftmost 0 = none
  · exact iff_of_true (substitutes_of_none hfinds hnone) (.inl hnone)
  · rw [SubstOk, or_iff_right hnone, and_iff_right hsize, ← Matches.visited_first_iff hsize]
    constructor
    · rintro ⟨n, hn⟩
      have heq := (subst_iff hsize hfinds hnone (show count.toNat < n + count.toNat + 1 by omega) _).mp
        (hn (n + count.toNat + 1) (by omega))
      obtain ⟨hlt, hr⟩ := heq
      have hsame : ms.first count = ms.visited count.toNat 0 := congrArg Prod.snd hr
      exact ⟨hsame.symm, by rwa [hsame]⟩
    · rintro ⟨hsame, hlt⟩
      refine ⟨count.toNat + 1, fun fuel hfuel => (subst_iff hsize hfinds hnone (by omega) _).mpr ⟨hsame ▸ hlt, ?_⟩⟩
      rw [hsame]

/-- A call of `subst` replaces the first matches once each if the condition holds, and in a subject whose places are
all an `int` only then. -/
theorem subst_replaces_iff (subject : Target) (ms : Matches subject.size) (search : BitVec 32 → Option Match)
    (action : Match → List UInt8) (count : BitVec 32) (hfinds : Finds search ms) :
    (SubstOk ms action count → Substitutes ms search action count) ∧
      (subject.size < 2 ^ 31 → Substitutes ms search action count → SubstOk ms action count) := by
  refine ⟨fun hok => ?_, fun hsize => (substitutes_iff hsize hfinds).mp⟩
  rcases hok with hnone | ⟨hsize, hok⟩
  · exact substitutes_of_none hfinds hnone
  · exact (substitutes_iff hsize hfinds).mpr (.inr ⟨hsize, hok⟩)

/-- "aab" -/
def aab : Target := .string [97, 97, 98] (by decide)

/-- `a*` in "aab" -/
def starOfA : Matches aab.size where
  stopOf p := if p < 2 then some 2 else if p ≤ 3 then some p else none
  inside p q h := by
    have hsize : aab.size = 3 := rfl
    split at h
    · cases h
      omega
    · split at h <;> cases h
      omega

/-- The empty match before the "b" is the second one. -/
theorem two_matches_replaced : Substitutes starOfA (fun start => starOfA.leftmost start.toNat) (fun _ => [120]) 2 := by
  refine (subst_replaces_iff aab starOfA _ _ 2 fun start h => rfl).1 (.inr ⟨by decide, fun i m hi hlt => ?_, by decide⟩)
  obtain rfl : i = 0 := by
    change i + 1 < 2 at hlt
    omega
  cases hi
  decide

/-- The second match is found again in place of the third. -/
theorem empty_match_repeated : ¬∀ (subject : Target) (ms : Matches subject.size) (search : BitVec 32 → Option Match)
    (action : Match → List UInt8) (count : BitVec 32), Finds search ms → Substitutes ms search action count := by
  intro hall
  have hreplaced := hall aab starOfA (fun start => starOfA.leftmost start.toNat) (fun _ => [120]) 3 fun start _ => rfl
  rw [substitutes_iff (by decide) fun start _ => rfl] at hreplaced
  rcases hreplaced with hnone | ⟨-, hempty, -⟩
  · exact absurd hnone (by decide)
  · exact absurd (hempty 1 ⟨2, 2⟩ (by decide) (by decide)) (by decide)

end Regex

end Crack
