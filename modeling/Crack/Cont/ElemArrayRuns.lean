import Crack.Cont.ElemArrayRefines
import Crack.Lib.Linked

/-!
# Runs of an Array

The operations on a plain sequence, where a negative index counts from the end.
-/
namespace Crack

namespace ElemArray

open Loops (bind_ok)

variable {α : Type} {null : α} {m : ElemArray α} {P : List α}

/-- The position that an index stands for. -/
def position (n : Nat) (index : BitVec 32) : Int := if index.toInt < 0 then n + index.toInt else index.toInt

/-- The text for a negative index is the one of `oper []=`. -/
def specGetText (n : Nat) (index : BitVec 32) : String :=
  if index.toInt < 0 then setItemText n index.toInt else getItemText n index.toNat

variable (null) in
/-- The operations on a sequence. -/
def specUpdate (P : List α) : Update α → List α × Except Exc (Option α)
  | .append elem => (P ++ [elem], .ok none)
  | .insert index elem =>
    let i := position P.length index
    if 0 ≤ i ∧ i ≤ P.length then (P.insertIdx i.toNat elem, .ok none)
    else (P, .error (.indexError "Index out of range in Array.insert()"))
  | .delete index =>
    let i := position P.length index
    if 0 ≤ i ∧ i < P.length then (P.eraseIdx i.toNat, .ok none)
    else (P, .error (.indexError "Index out of range in Array.delete()"))
  | .pop => (P.dropLast, .ok (some (P.getLast?.getD null)))
  | .filter f => (P.filter f, .ok none)
  | .setItem index elem =>
    let i := position P.length index
    if 0 ≤ i ∧ i < P.length then (P.set i.toNat elem, .ok (some elem))
    else (P, .error (.indexError (setItemText P.length index.toInt)))
  | .getItem index =>
    let i := position P.length index
    if 0 ≤ i ∧ i < P.length then (P, .ok P[i.toNat]?)
    else (P, .error (.indexError (specGetText P.length index)))
  | .clear => ([], .ok none)

variable (null) in
def specRun (P : List α) : List (Update α) → List α × List (Except Exc (Option α))
  | [] => (P, [])
  | u :: us =>
    let (P, r) := specUpdate null P u
    let (P, rs) := specRun P us
    (P, r :: rs)

/-- An element is added only while there are fewer than `2 ^ 31` of them. -/
def StepOk (P : List α) : Update α → Prop
  | .append _ => P.length < 2 ^ 31
  | .insert index _ => 0 ≤ position P.length index ∧ position P.length index ≤ P.length → P.length < 2 ^ 31
  | _ => True

variable (null) in
def StepsOk (P : List α) : List (Update α) → Prop
  | [] => True
  | u :: us => StepOk P u ∧ StepsOk (specUpdate null P u).1 us

theorem adjust_toNat (hsize : m.size < 2 ^ 32) (index : BitVec 32) :
    ((m.adjust index).toNat : Int) =
      if 0 ≤ position m.size index then position m.size index else position m.size index + 2 ^ 32 := by
  have hlt := index.isLt
  rw [adjust, position, BitVec.toInt_eq_toNat_cond]
  by_cases hneg : 2 * index.toNat < 2 ^ 32
  · have h0 : ¬ (index.toNat : Int) < 0 := by omega
    simp only [if_pos hneg, if_neg h0]
    omega
  · have h0 : (index.toNat : Int) - (2 ^ 32 : Nat) < 0 := by omega
    simp only [if_neg hneg, if_pos h0, BitVec.toNat_add, BitVec.toNat_ofNat]
    split <;> omega

theorem le_position (n : Nat) (index : BitVec 32) : n - 2 ^ 31 ≤ position n index ∨ 0 ≤ position n index := by
  have hle : -2 ^ 31 ≤ index.toInt := BitVec.le_toInt index
  rw [position]
  split
  · left
    omega
  · right
    omega

theorem adjust_eq (hsize : m.size ≤ 2 ^ 31) {index : BitVec 32} (h : 0 ≤ position m.size index) :
    (m.adjust index).toNat = (position m.size index).toNat := by
  have hadjust := adjust_toNat (Nat.lt_of_le_of_lt hsize (by decide)) index
  rw [if_pos h] at hadjust
  omega

theorem adjust_lt_iff (hsize : m.size ≤ 2 ^ 31) (index : BitVec 32) :
    (m.adjust index).toNat < m.size ↔ 0 ≤ position m.size index ∧ position m.size index < m.size := by
  have hadjust := adjust_toNat (Nat.lt_of_le_of_lt hsize (by decide)) index
  have hle := le_position m.size index
  split at hadjust <;> omega

theorem adjust_le_iff (hsize : m.size ≤ 2 ^ 31) (index : BitVec 32) :
    (m.adjust index).toNat ≤ m.size ↔ 0 ≤ position m.size index ∧ position m.size index ≤ m.size := by
  have hadjust := adjust_toNat (Nat.lt_of_le_of_lt hsize (by decide)) index
  have hle := le_position m.size index
  split at hadjust <;> omega

theorem fixIntIndex_eq (index : BitVec 32) :
    m.fixIntIndex index = if index.toInt < 0 ∧ (m.adjust index).toNat ≥ m.size
      then .error (.indexError (setItemText m.size index.toInt)) else .ok (m.adjust index).toNat := by
  rw [fixIntIndex, adjust]
  by_cases hneg : index.toInt < 0
  · simp only [if_pos hneg, and_iff_right hneg]
  · rw [if_neg hneg, if_neg hneg, if_neg fun hc => hneg hc.1]

/-- What an operation gives. -/
def Gives (r : Except Fault (ElemArray α × Except Exc (Option α))) (s : List α × Except Exc (Option α)) : Prop :=
  ∃ m, r = .ok (m, s.2) ∧ Holds m s.1 ∧ s.1.length ≤ 2 ^ 31

theorem Holds.gives (h : Holds m P) (hsmall : P.length ≤ 2 ^ 31) {r : Except Fault (ElemArray α × Except Exc (Option α))}
    {reply : Except Exc (Option α)} (he : r = .ok (m, reply)) : Gives r (P, reply) :=
  ⟨m, he, h, hsmall⟩

/-- What an index in range refers to, with what is around it. -/
theorem Holds.split (h : Holds m P) (hsmall : P.length ≤ 2 ^ 31) {index : BitVec 32}
    (hlt : (m.adjust index).toNat < m.size) :
    ∃ A x B, P = A ++ x :: B ∧ A.length = (m.adjust index).toNat ∧ (position P.length index).toNat = A.length ∧
      0 ≤ position P.length index ∧ position P.length index < P.length := by
  have hsize : m.size ≤ 2 ^ 31 := h.size ▸ hsmall
  have hpos := (adjust_lt_iff hsize index).mp hlt
  obtain ⟨A, B, hP, hA⟩ := Linked.exists_split (List.getElem?_eq_getElem (h.size ▸ hlt))
  refine ⟨A, _, B, hP, hA, ?_, ?_⟩
  · rw [hA, adjust_eq hsize hpos.1, h.size]
  · rwa [h.size] at hpos

theorem Holds.update_setItem (h : Holds m P) (hsmall : P.length ≤ 2 ^ 31) (index : BitVec 32) (elem : α) :
    Gives (update null m (.setItem index elem)) (specUpdate null P (.setItem index elem)) := by
  have hsize : m.size ≤ 2 ^ 31 := h.size ▸ hsmall
  rw [ElemArray.update, ElemArray.setItem, specUpdate, fixIntIndex_eq]
  by_cases hlt : (m.adjust index).toNat < m.size
  · obtain ⟨A, x, B, rfl, hA, hpos, h0, hn⟩ := h.split hsmall hlt
    obtain ⟨C, hC⟩ := h.elems
    have hlen : A.length < 2 ^ 31 := by omega
    rw [← hA] at hlt ⊢
    have hget : slot m.rep A.length = .ok x := by
      rw [hC, List.append_assoc]
      exact slot_middle hlen
    have hset : setSlot m.rep A.length elem = .ok (A ++ elem :: B ++ C) := by
      have := setSlot_middle (x := x) (y := elem) (C := B ++ C) hlen
      simpa [hC] using this
    have hmid : (A ++ x :: B).set A.length elem = A ++ elem :: B := by
      rw [List.set_append_right _ _ (Nat.le_refl _), Nat.sub_self]
      rfl
    have hlenP : (A ++ elem :: B).length = (A ++ x :: B).length := by simp
    rw [if_neg (by omega)]
    simp only [if_neg (Nat.not_le_of_lt hlt), hget, hset, bind, Except.bind, if_pos (And.intro h0 hn), hpos, hmid]
    refine Holds.gives (m := ⟨A ++ elem :: B ++ C, m.cap, m.size⟩) ⟨⟨C, rfl⟩, h.size.trans hlenP.symm, ?_, h.small⟩
      (hlenP ▸ hsmall) rfl
    rw [h.cap, hC]
    simp
  · have hout := mt (adjust_lt_iff hsize index).mpr hlt
    rw [h.size] at hout
    simp only [if_neg hout]
    apply h.gives hsmall
    rw [← h.size]
    by_cases hneg : index.toInt < 0
    · rw [if_pos ⟨hneg, Nat.le_of_not_lt hlt⟩]
      simp only [bind, Except.bind, pure, Except.pure, Except.map]
    · rw [if_neg (fun hc => hneg hc.1)]
      simp only [if_pos (Nat.le_of_not_lt hlt), bind, Except.bind, pure, Except.pure, Except.map]

theorem Holds.update_getItem (h : Holds m P) (hsmall : P.length ≤ 2 ^ 31) (index : BitVec 32) :
    Gives (update null m (.getItem index)) (specUpdate null P (.getItem index)) := by
  have hsize : m.size ≤ 2 ^ 31 := h.size ▸ hsmall
  rw [ElemArray.update, ElemArray.getItem, specUpdate, fixIntIndex_eq]
  by_cases hlt : (m.adjust index).toNat < m.size
  · obtain ⟨A, x, B, rfl, hA, hpos, h0, hn⟩ := h.split hsmall hlt
    obtain ⟨C, hC⟩ := h.elems
    have hlen : A.length < 2 ^ 31 := by omega
    rw [← hA] at hlt ⊢
    have hget : slot m.rep A.length = .ok x := by
      rw [hC, List.append_assoc]
      exact slot_middle hlen
    have hmid : (A ++ x :: B)[A.length]? = some x := by simp
    rw [if_neg (by omega)]
    simp only [if_neg (Nat.not_le_of_lt hlt), hget, bind, Except.bind, if_pos (And.intro h0 hn), hpos, hmid]
    exact h.gives hsmall rfl
  · have hout := mt (adjust_lt_iff hsize index).mpr hlt
    rw [h.size] at hout
    simp only [if_neg hout]
    apply h.gives hsmall
    by_cases hneg : index.toInt < 0
    · rw [if_pos ⟨hneg, Nat.le_of_not_lt hlt⟩, specGetText, if_pos hneg, h.size]
      simp only [bind, Except.bind, pure, Except.pure, Except.map]
    · have hadjust : m.adjust index = index := if_neg hneg
      rw [if_neg (fun hc => hneg hc.1), hadjust, specGetText, if_neg hneg, ← h.size]
      rw [hadjust] at hlt
      simp only [if_pos (Nat.le_of_not_lt hlt), bind, Except.bind, pure, Except.pure, Except.map]

theorem Holds.delete {A B : List α} {x : α} (h : Holds m (A ++ x :: B)) (hsmall : (A ++ x :: B).length ≤ 2 ^ 31)
    {index : BitVec 32} (hA : A.length = (m.adjust index).toNat) :
    ∃ m', m.delete index = .ok (m', .ok ()) ∧ Holds m' (A ++ B) := by
  obtain ⟨C, hC⟩ := h.elems
  have hlen : (A ++ x :: B).length = A.length + B.length + 1 := by simp [Nat.add_assoc]
  have hsize : m.size = A.length + B.length + 1 := h.size.trans hlen
  have hlt : A.length < m.size := by omega
  have hget : slot m.rep A.length = .ok x := by
    rw [hC, List.append_assoc]
    exact slot_middle (by omega)
  obtain ⟨y, hy⟩ := moveDown_ok (A := A) (B := B) (C := C) (x := x) (n := m.size + 1) hsize (by omega) (by omega)
  rw [← hC] at hy
  refine ⟨⟨A ++ B ++ y :: C, m.cap, m.size - 1⟩, ?_, ⟨y :: C, rfl⟩, ?_, ?_, h.small⟩
  · rw [ElemArray.delete, ← hA, if_neg (Nat.not_le_of_lt hlt), hget, hy]
    rfl
  · change m.size - 1 = _
    rw [hsize, List.length_append, Nat.add_sub_cancel]
  · rw [h.cap, hC]
    simp
    omega

theorem Holds.update_delete (h : Holds m P) (hsmall : P.length ≤ 2 ^ 31) (index : BitVec 32) :
    Gives (update null m (.delete index)) (specUpdate null P (.delete index)) := by
  have hsize : m.size ≤ 2 ^ 31 := h.size ▸ hsmall
  rw [ElemArray.update, specUpdate]
  by_cases hlt : (m.adjust index).toNat < m.size
  · obtain ⟨A, x, B, rfl, hA, hpos, h0, hn⟩ := h.split hsmall hlt
    obtain ⟨m', he, h'⟩ := h.delete hsmall hA
    simp only [he, bind, Except.bind, if_pos (And.intro h0 hn), hpos, Linked.eraseIdx_middle]
    refine h'.gives ?_ rfl
    rw [List.length_append, List.length_cons] at hsmall
    rw [List.length_append]
    omega
  · have hout := mt (adjust_lt_iff hsize index).mpr hlt
    have hfail : m.delete index = .ok (m, .error (.indexError "Index out of range in Array.delete()")) := by
      rw [ElemArray.delete, if_pos (Nat.le_of_not_lt hlt)]
      rfl
    rw [h.size] at hout
    simp only [hfail, if_neg hout]
    exact h.gives hsmall rfl

variable (null) in
theorem Holds.append (h : Holds m P) (hsmall : P.length < 2 ^ 31) (elem : α) :
    ∃ m', m.append null elem = .ok (m', .ok ()) ∧ Holds m' (P ++ [elem]) := by
  obtain ⟨m₁, x, C, he, h₁, hC⟩ := h.ensureRoom null hsmall
  have hset : setSlot m₁.rep m₁.size elem = .ok (P ++ elem :: C) := by
    rw [hC, h₁.size]
    exact setSlot_middle hsmall
  have hsize : uint (m₁.size + 1) = (P ++ [elem]).length := by
    rw [uint_of_lt (by rw [h₁.size]; omega), h₁.size, List.length_append, List.length_singleton]
  refine ⟨{ m₁ with rep := P ++ elem :: C, size := uint (m₁.size + 1) }, ?_, ⟨C, ?_⟩, hsize, ?_, h₁.small⟩
  · rw [ElemArray.append, he]
    simp only [bind, Except.bind, hset]
    rfl
  · rw [List.append_assoc]
    rfl
  · rw [h₁.cap, hC]
    simp

variable (null) in
theorem Holds.insert {A B : List α} (h : Holds m (A ++ B)) (hsmall : (A ++ B).length < 2 ^ 31) {index : BitVec 32}
    (hA : A.length = (m.adjust index).toNat) (elem : α) :
    ∃ m', m.insert null index elem = .ok (m', .ok ()) ∧ Holds m' (A ++ elem :: B) := by
  have hle : A.length ≤ m.size := by
    rw [h.size, List.length_append]
    exact Nat.le_add_right _ _
  obtain ⟨m₁, x, C, he, h₁, hC⟩ := h.ensureRoom null hsmall
  obtain ⟨y, hy⟩ := moveUp_ok (A := A) (B := B) (x := x) (C := C) hsmall
  rw [← hC, ← h₁.size] at hy
  have hset : setSlot (A ++ y :: B ++ C) A.length elem = .ok (A ++ elem :: B ++ C) := by
    have := setSlot_middle (A := A) (x := y) (y := elem) (C := B ++ C)
      (by rw [List.length_append] at hsmall; omega)
    simpa using this
  have hlen : (A ++ elem :: B).length = (A ++ B).length + 1 := by simp [Nat.add_assoc]
  have hsize : uint (m₁.size + 1) = (A ++ elem :: B).length := by
    rw [uint_of_lt (by rw [h₁.size]; omega), h₁.size, hlen]
  refine ⟨{ m₁ with rep := A ++ elem :: B ++ C, size := uint (m₁.size + 1) }, ?_, ⟨C, rfl⟩, hsize, ?_, h₁.small⟩
  · rw [ElemArray.insert, ← hA]
    simp only [if_neg (Nat.not_lt_of_le hle), he, bind, Except.bind, hy, hset]
    rfl
  · rw [h₁.cap, hC]
    simp
    omega

theorem Holds.update_insert (h : Holds m P) (hsmall : P.length ≤ 2 ^ 31) {index : BitVec 32} {elem : α}
    (hok : StepOk P (.insert index elem)) :
    Gives (update null m (.insert index elem)) (specUpdate null P (.insert index elem)) := by
  have hsize : m.size ≤ 2 ^ 31 := h.size ▸ hsmall
  have hiff := adjust_le_iff hsize index
  rw [h.size] at hiff
  rw [ElemArray.update, specUpdate]
  by_cases hle : (m.adjust index).toNat ≤ P.length
  · have hpos := hiff.mp hle
    have hlt := hok hpos
    have hadjust : (m.adjust index).toNat = (position P.length index).toNat := by
      rw [adjust_eq hsize (by rw [h.size]; exact hpos.1), h.size]
    obtain ⟨A, B, rfl, hA⟩ : ∃ A B, P = A ++ B ∧ A.length = (m.adjust index).toNat :=
      ⟨P.take _, P.drop _, (List.take_append_drop _ P).symm, List.length_take_of_le hle⟩
    obtain ⟨m', he, h'⟩ := h.insert null hlt hA elem
    simp only [if_pos hpos, he, bind, Except.bind, ← hadjust, ← hA, Linked.insertIdx_middle]
    refine h'.gives ?_ rfl
    rw [List.length_append] at hlt ⊢
    rw [List.length_cons]
    omega
  · have hout := mt hiff.mpr hle
    have hgt : (m.adjust index).toNat > m.size := by
      rw [h.size]
      exact Nat.lt_of_not_le hle
    simp only [if_neg hout, ElemArray.insert, if_pos hgt]
    exact h.gives hsmall rfl

theorem Holds.update_pop (h : Holds m P) (hsmall : P.length ≤ 2 ^ 31) :
    Gives (update null m .pop) (specUpdate null P .pop) := by
  rw [ElemArray.update, ElemArray.pop, specUpdate]
  cases hP : P.getLast? with
  | none =>
    obtain rfl := List.getLast?_eq_none_iff.mp hP
    have hsize : ¬ m.size ≠ 0 := fun hne => hne h.size
    rw [if_neg hsize]
    exact h.gives hsmall rfl
  | some x =>
    obtain ⟨Q, rfl⟩ := List.getLast?_eq_some_iff.mp hP
    obtain ⟨C, hC⟩ := h.elems
    have hlen : (Q ++ [x]).length = Q.length + 1 := List.length_append
    have hsize : m.size = Q.length + 1 := h.size.trans hlen
    have hget : slot m.rep (m.size - 1) = .ok x := by
      rw [hC, hsize, Nat.add_sub_cancel, List.append_assoc]
      exact slot_middle (by omega)
    have hne : m.size ≠ 0 := by omega
    rw [if_pos hne, List.dropLast_concat]
    simp only [bind, Except.bind, hget]
    refine Holds.gives (m := { m with size := m.size - 1 }) ⟨⟨x :: C, ?_⟩, ?_, h.cap, h.small⟩ (by omega) rfl
    · rw [hC, List.append_assoc]
      rfl
    · change m.size - 1 = _
      omega

variable (null) in
/-- One operation does to the array what it does to the sequence. -/
theorem Holds.update (h : Holds m P) (hsmall : P.length ≤ 2 ^ 31) (u : Update α) (hok : StepOk P u) :
    Gives (update null m u) (specUpdate null P u) := by
  cases u with
  | append elem =>
    obtain ⟨m', he, h'⟩ := h.append null hok elem
    apply h'.gives
    · rw [List.length_append]
      exact hok
    · rw [ElemArray.update, he]
      rfl
  | insert index elem => exact h.update_insert hsmall hok
  | delete index => exact h.update_delete hsmall index
  | pop => exact h.update_pop hsmall
  | filter f =>
    obtain ⟨m', he, h'⟩ := h.filter null f hsmall
    apply h'.gives (Nat.le_trans (List.length_filter_le f P) hsmall)
    rw [ElemArray.update, he]
    rfl
  | setItem index elem => exact h.update_setItem hsmall index elem
  | getItem index => exact h.update_getItem hsmall index
  | clear =>
    obtain ⟨m', he, h'⟩ := h.clear null hsmall
    apply h'.gives (Nat.zero_le _)
    rw [ElemArray.update, he]
    rfl

variable (null) in
theorem Holds.run (us : List (Update α)) (h : Holds m P) (hsmall : P.length ≤ 2 ^ 31) (hok : StepsOk null P us) :
    ∃ m', run null m us = .ok (m', (specRun null P us).2) ∧ Holds m' (specRun null P us).1 ∧
      (specRun null P us).1.length ≤ 2 ^ 31 := by
  induction us generalizing m P with
  | nil => exact ⟨m, rfl, h, hsmall⟩
  | cons u us ih =>
    obtain ⟨m₁, he₁, h₁, hsmall₁⟩ := h.update null hsmall u hok.1
    obtain ⟨m₂, he₂, h₂⟩ := ih h₁ hsmall₁ hok.2
    refine ⟨m₂, ?_, h₂⟩
    rw [ElemArray.run, he₁]
    simp only [bind, Except.bind, he₂]
    rfl

/-- What a program can see of the array: its elements are `P`. -/
structure Behaves (m : ElemArray α) (P : List α) : Prop where
  count : m.size = P.length
  contents : m.rep.take m.size = P
  capacity : m.size ≤ m.cap ∧ m.rep.length = m.cap

theorem Holds.behaves (h : Holds m P) : Behaves m P where
  count := h.size
  contents := by
    obtain ⟨C, hC⟩ := h.elems
    rw [hC, h.size, List.take_left]
  capacity := ⟨h.size_le_cap, h.cap.symm⟩

theorem ensureRoom_failed {m' : ElemArray α} {e : Exc} (h : m.ensureRoom null = .ok (m', .error e)) : m' = m := by
  rw [ensureRoom] at h
  split at h
  · rw [grow] at h
    split at h
    · cases h
      rfl
    · obtain ⟨_, -, h⟩ := bind_ok h
      cases h
  · cases h

/-- An operation that raises an error leaves the array as it was. -/
theorem update_failed {u : Update α} {m' : ElemArray α} {e : Exc} (h : update null m u = .ok (m', .error e)) :
    m' = m := by
  cases u <;> obtain ⟨r, hr, h⟩ := bind_ok h
  case append elem =>
    obtain ⟨⟨m₁, r₁⟩, hroom, hr⟩ := bind_ok hr
    cases r₁ with
    | error e =>
      cases hr
      cases h
      exact ensureRoom_failed hroom
    | ok u =>
      obtain ⟨rep, -, hr⟩ := bind_ok hr
      cases hr
      cases h
  case insert index elem =>
    rw [ElemArray.insert] at hr
    split at hr
    · cases hr
      cases h
      rfl
    · obtain ⟨⟨m₁, r₁⟩, hroom, hr⟩ := bind_ok hr
      cases r₁ with
      | error e =>
        cases hr
        cases h
        exact ensureRoom_failed hroom
      | ok u =>
        obtain ⟨rep, -, hr⟩ := bind_ok hr
        obtain ⟨rep', -, hr⟩ := bind_ok hr
        cases hr
        cases h
  case delete index =>
    rw [ElemArray.delete] at hr
    split at hr
    · cases hr
      cases h
      rfl
    · obtain ⟨_, -, hr⟩ := bind_ok hr
      obtain ⟨rep, -, hr⟩ := bind_ok hr
      cases hr
      cases h
  case setItem index elem =>
    rw [ElemArray.setItem] at hr
    split at hr
    · cases hr
      cases h
      rfl
    · split at hr
      · cases hr
        cases h
        rfl
      · obtain ⟨_, -, hr⟩ := bind_ok hr
        obtain ⟨rep, -, hr⟩ := bind_ok hr
        cases hr
        cases h
  case getItem index => exact congrArg Prod.fst (Except.ok.inj h).symm
  all_goals cases h

/-- A run that adds elements only to less than `2 ^ 31` of them never touches a slot
outside of the array and behaves like a run on a sequence, reply by reply; and an
operation that fails then leaves the array as it is. -/
theorem array_run_behaves (null : α) (initCapacity : BitVec 32) (us : List (Update α)) (hok : StepsOk null [] us) :
    ∃ m, run null (init null initCapacity) us = .ok (m, (specRun null [] us).2) ∧
      Behaves m (specRun null [] us).1 ∧
      ∀ u m' e, update null m u = .ok (m', .error e) → m' = m := by
  obtain ⟨m, he, h, -⟩ := (init_holds null initCapacity).run null us (Nat.zero_le _) hok
  exact ⟨m, he, h.behaves, fun _ _ _ hu => update_failed hu⟩

theorem few_array_behave :
    ∃ m, run 0 (init 0 0) [.append 1, .insert 0 2, .insert (-1) 3, .setItem (-1) 4, .delete (-4), .delete 0, .pop] =
        .ok (m, [.ok none, .ok none, .ok none, .ok (some 4),
          .error (.indexError "Index out of range in Array.delete()"), .ok none, .ok (some 4)]) ∧
      Behaves m [3] ∧ ∀ u m' e, update 0 m u = .ok (m', .error e) → m' = m := by
  apply array_run_behaves 0 0 [.append 1, .insert 0 2, .insert (-1) 3, .setItem (-1) 4, .delete (-4), .delete 0, .pop]
  refine ⟨Nat.two_pow_pos 31, fun _ => by decide, fun _ => by decide, trivial, trivial, trivial, trivial, trivial⟩

theorem replicate_ok {k : Nat} {x : α} (h : P.length + k ≤ 2 ^ 31) : StepsOk null P (List.replicate k (.append x)) := by
  induction k generalizing P with
  | zero => trivial
  | succ k ih =>
    refine ⟨show P.length < 2 ^ 31 by omega, ih ?_⟩
    change (P ++ [x]).length + k ≤ 2 ^ 31
    rw [List.length_append, List.length_singleton]
    omega

theorem specRun_replicate {k : Nat} {x : α} :
    (specRun null P (List.replicate k (.append x))).1 = P ++ List.replicate k x := by
  induction k generalizing P with
  | zero => exact (List.append_nil P).symm
  | succ k ih =>
    change (specRun null (P ++ [x]) (List.replicate k (.append x))).1 = _
    rw [ih, List.append_assoc]
    rfl

/-- Room for more than `2 ^ 31` elements is none that is made. -/
theorem Holds.ensureRoom_full (h : Holds m P) (hP : P.length = 2 ^ 31) {m' : ElemArray α}
    (he : m.ensureRoom null = .ok (m', .ok ())) : m' = m := by
  have hsize := h.size
  have hle := h.size_le_cap
  have hcap := h.small
  rw [ElemArray.ensureRoom] at he
  split at he
  next hfull =>
    have hzero : uint (m.cap * 2) = 0 := by
      rw [uint]
      omega
    rw [hzero, ElemArray.grow, if_pos (by omega)] at he
    cases he
  next hroomy =>
    cases he
    rfl

/-- No element can be added to `2 ^ 31` of them. -/
theorem Holds.append_full (h : Holds m P) (hP : P.length = 2 ^ 31) (x : α) {m' : ElemArray α} :
    m.append null x ≠ .ok (m', .ok ()) := by
  intro he
  obtain ⟨⟨m₁, r⟩, hroom, he⟩ := bind_ok he
  have hsize := h.size
  cases r with
  | error e => cases he
  | ok u =>
    rw [h.ensureRoom_full hP hroom] at he
    obtain ⟨rep, hset, -⟩ := bind_ok he
    rw [setSlot, if_neg (by omega)] at hset
    cases hset

theorem Holds.insert_full (h : Holds m P) (hP : P.length = 2 ^ 31) (index : BitVec 32) (x : α) {m' : ElemArray α} :
    m.insert null index x ≠ .ok (m', .ok ()) := by
  intro he
  have hsize := h.size.trans hP
  rw [ElemArray.insert] at he
  split at he
  next => cases he
  next hin =>
    obtain ⟨⟨m₁, r⟩, hroom, he⟩ := bind_ok he
    cases r with
    | error e => cases he
    | ok u =>
      rw [h.ensureRoom_full hP hroom] at he
      obtain ⟨rep, hmoved, he⟩ := bind_ok he
      obtain ⟨rep', hset, -⟩ := bind_ok he
      -- Either the last element does not move up, or there is no slot for the new one.
      by_cases hlast : (m.adjust index).toNat = 2 ^ 31
      · rw [setSlot, if_neg (by omega)] at hset
        cases hset
      · rw [hsize, show 2 ^ 31 = (2 ^ 31 - 1) + 1 by decide, moveUp, if_pos (by omega)] at hmoved
        obtain ⟨y, -, hmoved⟩ := bind_ok hmoved
        obtain ⟨rep₁, hset₁, -⟩ := bind_ok hmoved
        rw [setSlot, if_neg (by omega)] at hset₁
        cases hset₁

/-- With `2 ^ 31` elements there is no way to add another one. -/
theorem full_fails :
    ∃ m rs, run 0 (init 0 16) (List.replicate (2 ^ 31) (.append 1)) = .ok (m, rs) ∧ m.size = 2 ^ 31 ∧
      ∀ m', update 0 m (.append 2) ≠ .ok (m', .ok none) := by
  have hok : StepsOk 0 [] (List.replicate (2 ^ 31) (.append 1)) := replicate_ok (Nat.le_of_eq (Nat.zero_add _))
  obtain ⟨m, he, h, -⟩ := (init_holds 0 16).run 0 _ (Nat.zero_le _) hok
  rw [specRun_replicate, List.nil_append] at h
  have hlen : (List.replicate (2 ^ 31) 1).length = 2 ^ 31 := List.length_replicate
  refine ⟨m, _, he, h.size.trans hlen, fun m' hu => ?_⟩
  obtain ⟨⟨m₁, r⟩, happend, hr⟩ := bind_ok hu
  cases r with
  | error e => cases hr
  | ok u => exact h.append_full hlen 2 happend

end ElemArray

end Crack
