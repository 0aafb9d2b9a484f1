import Crack.Cont.ElemArrayRuns

/-!
# Parts of an Array

`subarray` and `slice` copy a range, and `swap` exchanges two elements. Each is
given with the slots of the array that it reads or writes.
-/
namespace Crack

namespace ElemArray

open Loops (loop loop_ok round_of_loop_ok bind_ok)

section

variable {α : Type} (null : α)

/-- The parenthesis is never closed. -/
def subarrayText (pos len size : Nat) : String :=
  "Sub-array index out of range (pos = " ++ toString pos ++ ", len = " ++ toString len ++ ", size = " ++ toString size

/-- The size has been added to the position once before. -/
def posText (pos : BitVec 32) (size : Nat) : String :=
  "Index out of range in Array.subarray() (index = " ++ toString (pos + BitVec.ofNat 32 size).toInt ++
    ", size = " ++ toString size ++ ")"

/-- It is the start index that is printed, for the end index too. -/
def sliceText (which : String) (start : BitVec 32) (size : Nat) : String :=
  which ++ " index out of range in Array.slice() (index = " ++ toString (start + BitVec.ofNat 32 size).toInt ++
    ", size = " ++ toString size

def afterEndText : String := "Start of slice is after end."

variable (m : ElemArray α)

/-- `tempRep[i]`, where `tempRep` is `__rep + uintz(pos)`: what is added is an `int`, too, so that `tempRep` is
before the array from `2 ^ 31` on. The loop begins there. -/
def tempSlot (pos i : Nat) : Except Fault α := if pos < 2 ^ 31 then slot (m.rep.drop pos) i else .error .wildIndex

/-- A round of the loop of `_subarray`. -/
def copyRound (pos : Nat) : List α × List Nat → Nat → Except Fault (List α × List Nat)
  | (newRep, touched), i => do
    let elem ← m.tempSlot pos i
    return (← setSlot newRep i elem, touched ++ [pos + i])

/-- `_subarray` -/
def subarrayAt (pos len : Nat) : Except Fault (Except Exc (ElemArray α) × List Nat) := do
  if pos > m.size ∨ uint (pos + len) > m.size then
    return (.error (.indexError (subarrayText pos len m.size)), [])
  else
    let newCap := if len > 0 then len else 16
    let (newRep, touched) ← loop (m.copyRound pos) 0 len (List.replicate newCap null, [])
    return (.ok ⟨newRep, newCap, len⟩, touched)

/-- `int(__size) + pos` -/
def fromEnd (pos : BitVec 32) : BitVec 32 := if pos.toInt < 0 then BitVec.ofNat 32 m.size + pos else pos

/-- `subarray(int pos, uint len)` -/
def subarray (pos len : BitVec 32) : Except Fault (Except Exc (ElemArray α) × List Nat) :=
  if pos.toInt < 0 ∧ (m.fromEnd pos).toInt < 0 then
    return (.error (.indexError (posText (m.fromEnd pos) m.size)), [])
  else m.subarrayAt null (m.fromEnd pos).toNat len.toNat

/-- `subarray(uint pos, uint len)` -/
def subarrayUint (pos len : BitVec 32) : Except Fault (Except Exc (ElemArray α) × List Nat) :=
  m.subarrayAt null pos.toNat len.toNat

/-- `subarray(int pos)` -/
def subarrayFrom (pos : BitVec 32) : Except Fault (Except Exc (ElemArray α) × List Nat) :=
  let pos := (m.fromEnd pos).toNat
  m.subarrayAt null pos (uint (m.size + 2 ^ 32 - pos))

/-- `subarray(uint pos)` -/
def subarrayFromUint (pos : BitVec 32) : Except Fault (Except Exc (ElemArray α) × List Nat) :=
  m.subarrayAt null pos.toNat (uint (m.size + 2 ^ 32 - pos.toNat))

/-- `slice(int start, int end)` -/
def slice (start finish : BitVec 32) : Except Fault (Except Exc (ElemArray α) × List Nat) :=
  let start' := m.fromEnd start
  let finish' := m.fromEnd finish
  if start.toInt < 0 ∧ start'.toInt < 0 then return (.error (.indexError (sliceText "Start" start' m.size)), [])
  else if finish.toInt < 0 ∧ finish'.toInt < 0 then return (.error (.indexError (sliceText "End" start' m.size)), [])
  else if finish'.toInt < start'.toInt then return (.error (.indexError afterEndText), [])
  else m.subarrayAt null start'.toNat (finish' - start').toNat

/-- `slice(uint start, uint end)` -/
def sliceUint (start finish : BitVec 32) : Except Fault (Except Exc (ElemArray α) × List Nat) :=
  if finish.toNat < start.toNat then return (.error (.indexError afterEndText), [])
  else m.subarrayAt null start.toNat (finish - start).toNat

/-- `slice(int start)` -/
def sliceFrom (start : BitVec 32) : Except Fault (Except Exc (ElemArray α) × List Nat) :=
  let start := (m.fromEnd start).toNat
  if start > m.size then return (.error (.indexError afterEndText), [])
  else m.subarrayAt null start (uint (m.size + 2 ^ 32 - start))

inductive PartCall where
  | subarray (pos len : BitVec 32)
  | subarrayUint (pos len : BitVec 32)
  | subarrayFrom (pos : BitVec 32)
  | subarrayFromUint (pos : BitVec 32)
  | slice (start finish : BitVec 32)
  | sliceUint (start finish : BitVec 32)
  | sliceFrom (start : BitVec 32)

def part : PartCall → Except Fault (Except Exc (ElemArray α) × List Nat)
  | .subarray pos len => m.subarray null pos len
  | .subarrayUint pos len => m.subarrayUint null pos len
  | .subarrayFrom pos => m.subarrayFrom null pos
  | .subarrayFromUint pos => m.subarrayFromUint null pos
  | .slice start finish => m.slice null start finish
  | .sliceUint start finish => m.sliceUint null start finish
  | .sliceFrom start => m.sliceFrom null start

def swap (index1 index2 : BitVec 32) : Except Fault (ElemArray α × Except Exc Unit × List Nat) := do
  let index1 := (m.adjust index1).toNat
  let index2 := (m.adjust index2).toNat
  if index1 > m.size ∨ index2 > m.size then
    return (m, .error (.indexError "Index out of range in Array.swap()"), [])
  else if index1 = index2 then return (m, .ok (), [])
  else
    let tmp ← slot m.rep index2
    let rep ← setSlot m.rep index2 (← slot m.rep index1)
    let rep ← setSlot rep index1 tmp
    return ({ m with rep }, .ok (), [index2, index1, index2, index1])

end

variable {α : Type} {null : α} {m : ElemArray α} {P : List α} {pos len : Nat}

/-- The range that a call asks for in an array of `n` elements. -/
def asked (n : Nat) : PartCall → Int × Int
  | .subarray pos len => (position n pos, position n pos + len.toNat)
  | .subarrayUint pos len => (pos.toNat, pos.toNat + len.toNat)
  | .subarrayFrom pos => (position n pos, n)
  | .subarrayFromUint pos => (pos.toNat, n)
  | .slice start finish => (position n start, position n finish)
  | .sliceUint start finish => (start.toNat, finish.toNat)
  | .sliceFrom start => (position n start, n)

/-- The elements of the range if there is such a range, and else an `IndexError`. -/
def Cuts (P : List α) (range : Int × Int) (r : Except Fault (Except Exc (ElemArray α) × List Nat)) : Prop :=
  if 0 ≤ range.1 ∧ range.1 ≤ range.2 ∧ range.2 ≤ P.length then
    ∃ part touched, r = .ok (.ok part, touched) ∧
      Holds part ((P.drop range.1.toNat).take (range.2 - range.1).toNat) ∧ ∀ i ∈ touched, i < P.length
  else ∃ text, r = .ok (.error (.indexError text), [])

/-- The two elements change places if there are both, and else an `IndexError`. -/
def Swaps (m : ElemArray α) (P : List α) (p q : Int) (r : Except Fault (ElemArray α × Except Exc Unit × List Nat)) :
    Prop :=
  if h : 0 ≤ p ∧ p < P.length ∧ 0 ≤ q ∧ q < P.length then
    ∃ m' touched, r = .ok (m', .ok (), touched) ∧
      Holds m' ((P.set p.toNat (P.get ⟨q.toNat, by omega⟩)).set q.toNat (P.get ⟨p.toNat, by omega⟩)) ∧
      ∀ i ∈ touched, i < P.length
  else ∃ text, r = .ok (m, .error (.indexError text), [])

/-- The elements of a range that exists have indexes, and so has the first one's place. -/
def Indexed (pos len : Int) : Prop := len ≤ 2 ^ 31 ∧ (len = 0 ∨ pos < 2 ^ 31)

/-- When a call does what it should on an array of `n` elements: no sum of a position and a
length wraps, and no position or length comes out as a negative `int`. -/
def CutOk (n : Nat) : PartCall → Prop
  | .subarray pos len =>
    if pos.toInt < 0 ∧ 2 ^ 31 ≤ position n pos then n < position n pos + len.toNat
    else 0 ≤ position n pos →
      (position n pos ≤ n → position n pos + len.toNat < 2 ^ 32) ∧ (position n pos + len.toNat ≤ n → len.toNat ≤ 2 ^ 31)
  | .subarrayUint pos len =>
    (pos.toNat ≤ n → pos.toNat + len.toNat < 2 ^ 32) ∧ (pos.toNat + len.toNat ≤ n → Indexed pos.toNat len.toNat)
  | .subarrayFrom pos | .sliceFrom pos =>
    0 ≤ position n pos → position n pos ≤ n → Indexed (position n pos) (n - position n pos)
  | .subarrayFromUint pos => pos.toNat ≤ n → Indexed pos.toNat (n - pos.toNat)
  | .slice start finish =>
    0 ≤ position n start → position n start ≤ position n finish → position n finish ≤ n → position n finish < 2 ^ 31
  | .sliceUint start finish =>
    start.toNat ≤ finish.toNat → finish.toNat ≤ n → Indexed start.toNat (finish.toNat - start.toNat)

/-- Neither position is the one behind the last element, which `swap` takes for one of the
array, and there is an index for both. -/
def SwapOk (n : Nat) (p q : Int) : Prop :=
  0 ≤ p → p ≤ n → 0 ≤ q → q ≤ n → p < n ∧ q < n ∧ (p = q ∨ p < 2 ^ 31 ∧ q < 2 ^ 31)

theorem fromEnd_toNat (hsize : m.size < 2 ^ 32) (index : BitVec 32) :
    ((m.fromEnd index).toNat : Int) =
      if 0 ≤ position m.size index then position m.size index else position m.size index + 2 ^ 32 := by
  rw [fromEnd, ← adjust]
  exact adjust_toNat hsize index

theorem fromEnd_toInt (hsize : m.size < 2 ^ 32) (index : BitVec 32) :
    (m.fromEnd index).toInt =
      if position m.size index < 2 ^ 31 then position m.size index else position m.size index - 2 ^ 32 := by
  have hnat := fromEnd_toNat hsize index
  have hle := le_position m.size index
  have hlt := (m.fromEnd index).isLt
  rw [BitVec.toInt_eq_toNat_cond]
  split at hnat <;> split <;> split <;> omega

/-- A position that was counted from the end and still comes out as a negative `int`. -/
theorem thrown_iff (hsize : m.size < 2 ^ 32) (index : BitVec 32) :
    index.toInt < 0 ∧ (m.fromEnd index).toInt < 0 ↔ position m.size index < 0 ∨ 2 ^ 31 ≤ position m.size index := by
  have hlow := BitVec.le_toInt index
  have hhigh := BitVec.toInt_lt (x := index)
  rw [fromEnd_toInt hsize, position]
  by_cases hneg : index.toInt < 0
  · rw [if_pos hneg]
    split <;> omega
  · rw [if_neg hneg]
    omega

theorem fromEnd_inRange (hsize : m.size < 2 ^ 32) (index : BitVec 32) (h0 : 0 ≤ position m.size index)
    (hlt : position m.size index < 2 ^ 31) :
    ((m.fromEnd index).toNat : Int) = position m.size index ∧ (m.fromEnd index).toInt = position m.size index := by
  rw [fromEnd_toNat hsize, fromEnd_toInt hsize, if_pos h0, if_pos hlt]
  exact ⟨rfl, rfl⟩

theorem slot_small {rep : List α} {i : Nat} {x : α} (h : slot rep i = .ok x) : i < 2 ^ 31 := by
  rw [slot] at h
  split at h
  · by_contra hbig
    rw [if_neg hbig] at h
    cases h
  · cases h

theorem cuts_thrown (range : Int × Int) (text : String) :
    Cuts P range (.ok (.error (.indexError text), [])) ↔ ¬(0 ≤ range.1 ∧ range.1 ≤ range.2 ∧ range.2 ≤ P.length) := by
  rw [Cuts]
  split
  · rename_i hin
    refine iff_of_false ?_ (not_not_intro hin)
    rintro ⟨part, touched, he, -⟩
    cases he
  · rename_i hout
    exact iff_of_true ⟨text, rfl⟩ hout

variable (null) in
theorem Holds.copyRound_ok (h : Holds m P) (hin : pos + len ≤ P.length) (hsmall : Indexed pos len) {newCap : Nat}
    (hcap : len ≤ newCap) :
    ∃ newRep touched, loop (m.copyRound pos) 0 len (List.replicate newCap null, []) = .ok (newRep, touched) ∧
      newRep.length = newCap ∧ newRep.take len = (P.drop pos).take len ∧ ∀ i ∈ touched, i < P.length := by
  obtain ⟨C, hC⟩ := h.elems
  obtain ⟨hshort, hplace⟩ := hsmall
  obtain ⟨⟨newRep, touched⟩, he, hlen, htake, htouched⟩ := loop_ok (f := m.copyRound pos)
    (s := (List.replicate newCap null, [])) (i := 0) (n := len)
    (fun i s => s.1.length = newCap ∧ s.1.take i = (P.drop pos).take i ∧ ∀ j ∈ s.2, j < P.length)
    ⟨List.length_replicate, rfl, fun _ hj => nomatch hj⟩ (by
      rintro j ⟨newRep, touched⟩ - hj ⟨hlen, htake, htouched⟩
      dsimp only at hlen htake htouched
      rw [Nat.zero_add] at hj
      have hjP : j < (P.drop pos).length := by
        rw [List.length_drop]
        omega
      have hget : m.tempSlot pos j = .ok (P.drop pos)[j] := by
        rw [tempSlot, if_pos (by omega)]
        apply slot_ok (by omega)
        rw [hC, List.drop_append_of_le_length (by omega), List.getElem?_append_left hjP, List.getElem?_eq_getElem hjP]
      have hset : setSlot newRep j (P.drop pos)[j] = .ok (newRep.set j (P.drop pos)[j]) :=
        setSlot_ok (by omega) (by omega)
      refine ⟨(newRep.set j (P.drop pos)[j], touched ++ [pos + j]), ?_, ?_, ?_, ?_⟩
      · simp only [copyRound, bind, Except.bind, hget, hset, pure, Except.pure]
      · rw [List.length_set, hlen]
      · rw [List.take_succ_eq_append_getElem hjP, ← htake, List.take_succ_eq_append_getElem (by simp; omega),
          List.getElem_set_self, List.take_set_of_le (Nat.le_refl j)]
      · intro i hi
        rcases List.mem_append.mp hi with hi | hi
        · exact htouched i hi
        · rw [List.mem_singleton.mp hi]
          omega)
  rw [Nat.zero_add] at htake
  exact ⟨newRep, touched, he, hlen, htake, htouched⟩

variable (null) in
/-- A part with more slots than there are indexes is never copied. -/
theorem copyRound_size {s s' : List α × List Nat} (h : loop (m.copyRound pos) 0 len s = .ok s') : Indexed pos len := by
  have hround : ∀ i, i < len → pos < 2 ^ 31 ∧ i < 2 ^ 31 := by
    intro i hi
    obtain ⟨⟨newRep, touched⟩, t', he⟩ := round_of_loop_ok h (Nat.zero_le i) (by omega)
    obtain ⟨elem, hget, -⟩ := bind_ok he
    rw [tempSlot] at hget
    split at hget
    next hplace => exact ⟨hplace, slot_small hget⟩
    next => cases hget
  refine ⟨?_, ?_⟩
  · by_contra hlong
    exact absurd (hround (2 ^ 31) (by omega)).2 (Nat.lt_irrefl _)
  · by_cases h0 : len = 0
    · exact .inl (by omega)
    · exact .inr (by have hfirst := hround 0 (by omega); omega)

variable (null) in
theorem Holds.cuts_subarrayAt (h : Holds m P) (hpos : pos < 2 ^ 32) (hlen : len < 2 ^ 32) :
    Cuts P (pos, pos + len) (m.subarrayAt null pos len) ↔
      (pos ≤ P.length → pos + len < 2 ^ 32) ∧ (pos + len ≤ P.length → Indexed pos len) := by
  have hsize := h.size
  have hlt := Nat.lt_of_le_of_lt h.size_le_cap h.small
  rw [subarrayAt]
  by_cases hout : pos > m.size ∨ uint (pos + len) > m.size
  · rw [if_pos hout]
    rw [uint] at hout
    refine (cuts_thrown _ _).trans ?_
    dsimp only
    omega
  · rw [if_neg hout]
    rw [uint] at hout
    by_cases hin : pos + len ≤ P.length ∧ Indexed pos len
    · refine iff_of_true ?_ ⟨by omega, fun _ => hin.2⟩
      have hcap : len ≤ if len > 0 then len else 16 := by split <;> omega
      obtain ⟨newRep, touched, he, hrep, htake, htouched⟩ := h.copyRound_ok null hin.1 hin.2 hcap
      rw [Cuts, if_pos (by dsimp only; omega)]
      have hcount : ((pos + len : Int) - pos).toNat = len := by omega
      dsimp only
      rw [Int.toNat_natCast, hcount]
      refine ⟨⟨newRep, if len > 0 then len else 16, len⟩, touched, ?_,
        ⟨⟨newRep.drop len, ?_⟩, ?_, hrep.symm, ?_⟩, htouched⟩
      · simp only [bind, Except.bind, he, pure, Except.pure]
      · rw [← htake, List.take_append_drop]
      · rw [List.length_take, List.length_drop, Nat.min_eq_left (by omega)]
      · change (if len > 0 then len else 16) < 2 ^ 32
        split <;> omega
    · refine iff_of_false (fun hcuts => ?_) (by unfold Indexed at hin ⊢; omega)
      rw [Cuts] at hcuts
      split at hcuts
      · rename_i hrange
        obtain ⟨part, touched, he, -⟩ := hcuts
        obtain ⟨s, hs, -⟩ := bind_ok he
        have hsmall := copyRound_size hs
        dsimp only at hrange
        exact hin ⟨by omega, hsmall⟩
      · obtain ⟨text, he⟩ := hcuts
        obtain ⟨s, hs, hend⟩ := bind_ok he
        cases hend

variable (null) in
theorem Holds.cuts_from (h : Holds m P) (hpos : pos < 2 ^ 32) :
    Cuts P (pos, P.length) (m.subarrayAt null pos (uint (m.size + 2 ^ 32 - pos))) ↔
      (pos ≤ P.length → Indexed pos (P.length - pos)) := by
  have hsize := h.size
  have hlt := Nat.lt_of_le_of_lt h.size_le_cap h.small
  by_cases hle : pos ≤ P.length
  · have hlen : uint (m.size + 2 ^ 32 - pos) = P.length - pos := by
      rw [uint]
      omega
    have hrange : ((pos : Int), (P.length : Int)) = ((pos : Int), (pos : Int) + (P.length - pos : Nat)) := by
      rw [Prod.mk.injEq]
      omega
    rw [hlen, hrange, h.cuts_subarrayAt null hpos (by omega)]
    unfold Indexed
    omega
  · have hout : pos > m.size ∨ uint (pos + uint (m.size + 2 ^ 32 - pos)) > m.size := .inl (by omega)
    rw [subarrayAt, if_pos hout]
    refine (cuts_thrown _ _).trans ?_
    dsimp only
    omega

variable (null) in
theorem Holds.cuts_subarray (h : Holds m P) (pos len : BitVec 32) :
    Cuts P (asked P.length (.subarray pos len)) (m.subarray null pos len) ↔ CutOk P.length (.subarray pos len) := by
  have hlt : m.size < 2 ^ 32 := Nat.lt_of_le_of_lt h.size_le_cap h.small
  have hthrown := thrown_iff hlt pos
  have hin := fromEnd_inRange hlt pos
  have hneg : pos.toInt < 0 ∨ 0 ≤ position P.length pos ∧ position P.length pos < 2 ^ 31 := by
    have hhigh := BitVec.toInt_lt (x := pos)
    rw [position]
    split <;> omega
  rw [asked, CutOk, subarray]
  rw [h.size] at hthrown hin
  generalize position P.length pos = s at hthrown hin hneg ⊢
  by_cases hout : s < 0 ∨ 2 ^ 31 ≤ s
  · rw [if_pos (hthrown.mpr hout)]
    refine (cuts_thrown _ _).trans ?_
    dsimp only
    split <;> omega
  · obtain ⟨hnat, -⟩ := hin (by omega) (by omega)
    rw [if_neg (fun hc => hout (hthrown.mp hc)), if_neg (by omega), ← hnat,
      h.cuts_subarrayAt null (m.fromEnd pos).isLt len.isLt]
    unfold Indexed
    omega

variable (null) in
theorem Holds.cuts_slice (h : Holds m P) (start finish : BitVec 32) :
    Cuts P (asked P.length (.slice start finish)) (m.slice null start finish) ↔
      CutOk P.length (.slice start finish) := by
  have hlt : m.size < 2 ^ 32 := Nat.lt_of_le_of_lt h.size_le_cap h.small
  have hs := thrown_iff hlt start
  have hf := thrown_iff hlt finish
  have hsin := fromEnd_inRange hlt start
  have hfin := fromEnd_inRange hlt finish
  rw [asked, CutOk, slice]
  rw [h.size] at hs hf hsin hfin
  generalize position P.length start = s at hs hsin ⊢
  generalize position P.length finish = f at hf hfin ⊢
  by_cases hsout : s < 0 ∨ 2 ^ 31 ≤ s
  · simp only [if_pos (hs.mpr hsout)]
    refine (cuts_thrown _ _).trans ?_
    dsimp only
    omega
  by_cases hfout : f < 0 ∨ 2 ^ 31 ≤ f
  · simp only [if_neg (fun hc => hsout (hs.mp hc)), if_pos (hf.mpr hfout)]
    refine (cuts_thrown _ _).trans ?_
    dsimp only
    omega
  obtain ⟨hsnat, hsint⟩ := hsin (by omega) (by omega)
  obtain ⟨hfnat, hfint⟩ := hfin (by omega) (by omega)
  simp only [if_neg (fun hc => hsout (hs.mp hc)), if_neg (fun hc => hfout (hf.mp hc))]
  rw [hsint, hfint]
  by_cases hback : f < s
  · rw [if_pos hback]
    refine (cuts_thrown _ _).trans ?_
    dsimp only
    omega
  · have hlen : (m.fromEnd finish - m.fromEnd start).toNat = (m.fromEnd finish).toNat - (m.fromEnd start).toNat :=
      BitVec.toNat_sub_of_le (by rw [BitVec.le_def]; omega)
    have hrange : (s, f) = (((m.fromEnd start).toNat : Int),
        ((m.fromEnd start).toNat : Int) + ((m.fromEnd finish - m.fromEnd start).toNat : Nat)) := by
      rw [hlen, Prod.mk.injEq]
      omega
    rw [if_neg hback, hrange, h.cuts_subarrayAt null (m.fromEnd start).isLt (m.fromEnd finish - m.fromEnd start).isLt]
    unfold Indexed
    omega

variable (null) in
theorem Holds.cuts_sliceUint (h : Holds m P) (start finish : BitVec 32) :
    Cuts P (asked P.length (.sliceUint start finish)) (m.sliceUint null start finish) ↔
      CutOk P.length (.sliceUint start finish) := by
  have hs := start.isLt
  have hf := finish.isLt
  have hlt := Nat.lt_of_le_of_lt h.size_le_cap h.small
  have hsize := h.size
  rw [asked, CutOk, sliceUint]
  by_cases hle : finish.toNat < start.toNat
  · rw [if_pos hle]
    refine (cuts_thrown _ _).trans ?_
    dsimp only
    omega
  · have hlen : (finish - start).toNat = finish.toNat - start.toNat := BitVec.toNat_sub_of_le (Nat.le_of_not_lt hle)
    have hrange : ((start.toNat : Int), (finish.toNat : Int)) =
        ((start.toNat : Int), (start.toNat : Int) + (finish - start).toNat) := by
      rw [hlen, Prod.mk.injEq]
      omega
    rw [if_neg hle, hrange, h.cuts_subarrayAt null hs (finish - start).isLt, hlen]
    unfold Indexed
    omega

variable (null) in
theorem Holds.cuts_fromEnd (h : Holds m P) (pos : BitVec 32) :
    Cuts P (position P.length pos, P.length)
        (m.subarrayAt null (m.fromEnd pos).toNat (uint (m.size + 2 ^ 32 - (m.fromEnd pos).toNat))) ↔
      (0 ≤ position P.length pos → position P.length pos ≤ P.length →
        Indexed (position P.length pos) (P.length - position P.length pos)) := by
  have hlt : m.size < 2 ^ 32 := Nat.lt_of_le_of_lt h.size_le_cap h.small
  have hnat := fromEnd_toNat hlt pos
  have hle := le_position m.size pos
  rw [h.size] at hnat hle
  by_cases h0 : 0 ≤ position P.length pos
  · rw [if_pos h0] at hnat
    rw [← hnat, h.cuts_from null (m.fromEnd pos).isLt]
    unfold Indexed
    omega
  · rw [if_neg h0] at hnat
    have hout : (m.fromEnd pos).toNat > m.size := by
      rw [h.size]
      omega
    rw [subarrayAt, if_pos (.inl hout)]
    refine (cuts_thrown _ _).trans ?_
    dsimp only
    omega

variable (null) in
theorem Holds.cuts_sliceFrom (h : Holds m P) (start : BitVec 32) :
    Cuts P (asked P.length (.sliceFrom start)) (m.sliceFrom null start) ↔ CutOk P.length (.sliceFrom start) := by
  have hlt : m.size < 2 ^ 32 := Nat.lt_of_le_of_lt h.size_le_cap h.small
  have hnat := fromEnd_toNat hlt start
  rw [h.size] at hnat
  by_cases hout : (m.fromEnd start).toNat > m.size
  · rw [sliceFrom, if_pos hout, asked, CutOk]
    rw [h.size] at hout
    refine (cuts_thrown _ _).trans ?_
    dsimp only
    split at hnat <;> omega
  · rw [sliceFrom, if_neg hout, asked, CutOk]
    exact h.cuts_fromEnd null start

/-- Two different slots are exchanged. -/
theorem Holds.swap_ok (h : Holds m P) {index1 index2 : BitVec 32} {i j : Nat} (hi : (m.adjust index1).toNat = i)
    (hj : (m.adjust index2).toNat = j) (hne : i ≠ j) (hin : i < P.length) (hjn : j < P.length) (hi31 : i < 2 ^ 31)
    (hj31 : j < 2 ^ 31) :
    ∃ m', m.swap index1 index2 = .ok (m', .ok (), [j, i, j, i]) ∧ Holds m' ((P.set i P[j]).set j P[i]) ∧
      m'.cap = m.cap := by
  obtain ⟨C, hC⟩ := h.elems
  have hget : ∀ k (hk : k < P.length), k < 2 ^ 31 → slot m.rep k = .ok P[k] := by
    intro k hk hk31
    apply slot_ok hk31
    rw [hC, List.getElem?_append_left hk, List.getElem?_eq_getElem hk]
  have hset : ∀ (Q : List α) k x, Q.length = P.length → k < P.length → k < 2 ^ 31 →
      setSlot (Q ++ C) k x = .ok (Q.set k x ++ C) := by
    intro Q k x hQ hk hk31
    rw [setSlot_ok hk31 (by rw [List.length_append]; omega), List.set_append_left _ _ (by omega)]
  have hout : ¬(i > m.size ∨ j > m.size) := by
    rw [h.size]
    omega
  refine ⟨{ m with rep := (P.set j P[i]).set i P[j] ++ C }, ?_, ⟨⟨C, ?_⟩, ?_, ?_, h.small⟩, rfl⟩
  · simp only [swap, hi, hj, if_neg hout, if_neg hne, hget i hin hi31, hget j hjn hj31, bind, Except.bind]
    rw [hC, hset P j _ rfl hjn hj31]
    dsimp only
    rw [hset _ i _ List.length_set hin hi31]
    rfl
  · rw [List.set_comm _ _ hne]
  · simpa using h.size
  · simpa [hC] using h.cap

theorem Holds.swaps_iff (h : Holds m P) (index1 index2 : BitVec 32) :
    Swaps m P (position P.length index1) (position P.length index2) (m.swap index1 index2) ↔
      SwapOk P.length (position P.length index1) (position P.length index2) := by
  have hlt : m.size < 2 ^ 32 := Nat.lt_of_le_of_lt h.size_le_cap h.small
  have hnat1 := fromEnd_toNat hlt index1
  have hnat2 := fromEnd_toNat hlt index2
  have hle1 := le_position m.size index1
  have hle2 := le_position m.size index2
  rw [fromEnd, ← adjust, h.size] at hnat1 hnat2
  rw [h.size] at hle1 hle2 hlt
  generalize hi : (m.adjust index1).toNat = i at hnat1
  generalize hj : (m.adjust index2).toNat = j at hnat2
  generalize position P.length index1 = p at hnat1 hle1 ⊢
  generalize position P.length index2 = q at hnat2 hle2 ⊢
  have hrange : i ≤ P.length → j ≤ P.length → p = i ∧ q = j := by
    intro hin hjn
    split at hnat1 <;> split at hnat2 <;> omega
  rw [Swaps, SwapOk]
  by_cases hout : i > m.size ∨ j > m.size
  · rw [h.size] at hout
    have hnot : ¬(0 ≤ p ∧ p < P.length ∧ 0 ≤ q ∧ q < P.length) := by
      split at hnat1 <;> split at hnat2 <;> omega
    rw [dif_neg hnot]
    refine iff_of_true ⟨"Index out of range in Array.swap()", ?_⟩ (by split at hnat1 <;> split at hnat2 <;> omega)
    rw [swap, hi, hj, h.size, if_pos hout]
    rfl
  obtain ⟨rfl, rfl⟩ := hrange (by rw [← h.size]; omega) (by rw [← h.size]; omega)
  by_cases hsame : i = j
  · subst hsame
    have hswap : m.swap index1 index2 = .ok (m, .ok (), []) := by
      rw [swap, hi, hj, if_neg hout, if_pos rfl]
      rfl
    rw [h.size] at hout
    rw [hswap]
    by_cases hin : i < P.length
    · rw [dif_pos (by omega)]
      refine iff_of_true ⟨m, [], rfl, ?_, fun _ hk => absurd hk List.not_mem_nil⟩ (by omega)
      simpa using h
    · rw [dif_neg (by omega)]
      refine iff_of_false ?_ (by omega)
      rintro ⟨text, he⟩
      cases he
  · by_cases hin : i < P.length ∧ j < P.length ∧ i < 2 ^ 31 ∧ j < 2 ^ 31
    · obtain ⟨hiP, hjP, hi31, hj31⟩ := hin
      obtain ⟨m', he, h', -⟩ := h.swap_ok hi hj hsame hiP hjP hi31 hj31
      rw [dif_pos (by omega)]
      refine iff_of_true ⟨m', _, he, ?_, ?_⟩ (by omega)
      · simpa using h'
      · intro k hk
        simp only [List.mem_cons, List.not_mem_nil, or_false] at hk
        omega
    · refine iff_of_false (fun hswap => ?_) (by rw [h.size] at hout; omega)
      rw [swap, hi, hj, if_neg hout, if_neg hsame] at hswap
      rw [h.size] at hout
      split at hswap
      · obtain ⟨m', touched, he, -⟩ := hswap
        obtain ⟨y, hy, hrest⟩ := bind_ok he
        obtain ⟨x, hx, -⟩ := bind_ok hrest
        have hj31 := slot_small hy
        have hi31 := slot_small hx
        omega
      · obtain ⟨text, he⟩ := hswap
        obtain ⟨y, hy, hrest⟩ := bind_ok he
        obtain ⟨x, hx, hrest⟩ := bind_ok hrest
        obtain ⟨rep, -, hrest⟩ := bind_ok hrest
        obtain ⟨rep', -, hrest⟩ := bind_ok hrest
        have hmatch := (Prod.mk.inj (Except.ok.inj hrest)).2
        cases hmatch

variable (null) in
/-- Every call gives what is asked for, provided that nothing wraps and that no position is
the one behind the last element. -/
theorem cuts_and_swaps_iff {m : ElemArray α} {P : List α} (h : Holds m P) :
    (∀ call, Cuts P (asked P.length call) (m.part null call) ↔ CutOk P.length call) ∧
      ∀ index1 index2, Swaps m P (position P.length index1) (position P.length index2) (m.swap index1 index2) ↔
        SwapOk P.length (position P.length index1) (position P.length index2) := by
  refine ⟨fun call => ?_, h.swaps_iff⟩
  cases call with
  | subarray pos len => exact h.cuts_subarray null pos len
  | subarrayUint pos len =>
    rw [asked, CutOk]
    exact h.cuts_subarrayAt null pos.isLt len.isLt
  | subarrayFrom pos => exact h.cuts_fromEnd null pos
  | subarrayFromUint pos => exact h.cuts_from null pos.isLt
  | slice start finish => exact h.cuts_slice null start finish
  | sliceUint start finish => exact h.cuts_sliceUint null start finish
  | sliceFrom start => exact h.cuts_sliceFrom null start

/-- The last two elements, and an exchange of the ends. -/
theorem cuts_and_swaps_three :
    Cuts [4, 5, 6] (1, 3) (part 0 ⟨[4, 5, 6], 3, 3⟩ (.slice (-2) 3)) ∧
      Swaps ⟨[4, 5, 6], 3, 3⟩ [4, 5, 6] 0 2 (swap ⟨[4, 5, 6], 3, 3⟩ 0 (-1)) := by
  have h : Holds (⟨[4, 5, 6], 3, 3⟩ : ElemArray Nat) [4, 5, 6] := ⟨⟨[], rfl⟩, rfl, rfl, by decide⟩
  exact ⟨((cuts_and_swaps_iff 0 h).1 (.slice (-2) 3)).mpr (by unfold CutOk; decide),
    ((cuts_and_swaps_iff 0 h).2 0 (-1)).mpr (by unfold SwapOk; decide)⟩

/-- The position behind the last element is exchanged with the first one. -/
theorem swap_past_end :
    Holds ⟨[4, 5, 0], 3, 2⟩ [4, 5] ∧ ¬Swaps ⟨[4, 5, 0], 3, 2⟩ [4, 5] 0 2 (swap ⟨[4, 5, 0], 3, 2⟩ 0 2) := by
  refine ⟨⟨⟨[0], rfl⟩, rfl, rfl, by decide⟩, ?_⟩
  rw [Swaps, dif_neg (by decide)]
  rintro ⟨text, he⟩
  cases he

end ElemArray

end Crack
