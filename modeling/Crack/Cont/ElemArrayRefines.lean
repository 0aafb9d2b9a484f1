import Crack.Cont.ElemArray
import Mathlib.Data.List.Induction

/-!
# Array as a sequence

The first slots hold the elements of a sequence. Whatever moves elements about is
described by what it does to the parts of the low-level array.
-/
namespace Crack

open Loops (loop loop_ok)

section

variable {α : Type} {rep A B C : List α} {x y : α} {i n : Nat}

theorem slot_ok (hi : i < 2 ^ 31) (h : rep[i]? = some x) : slot rep i = .ok x := by
  rw [slot, h]
  exact if_pos hi

theorem slot_middle (hi : A.length < 2 ^ 31) : slot (A ++ x :: C) A.length = .ok x :=
  slot_ok hi (by simp)

theorem setSlot_ok (hi : i < 2 ^ 31) (h : i < rep.length) : setSlot rep i x = .ok (rep.set i x) := if_pos ⟨hi, h⟩

theorem setSlot_middle (hi : A.length < 2 ^ 31) : setSlot (A ++ x :: C) A.length y = .ok (A ++ y :: C) := by
  rw [setSlot_ok hi (by simp), List.set_append_right _ _ (Nat.le_refl _), Nat.sub_self]
  rfl

theorem uint_of_lt (h : n < 2 ^ 32) : uint n = n := Nat.mod_eq_of_lt h

end

namespace ElemArray

variable {α : Type} {null : α} {m : ElemArray α} {P A B C : List α} {x : α} {n : Nat}

/-- The array is the sequence `P`. -/
structure Holds (m : ElemArray α) (P : List α) : Prop where
  elems : ∃ C, m.rep = P ++ C
  size : m.size = P.length
  cap : m.cap = m.rep.length
  small : m.cap < 2 ^ 32

theorem Holds.size_le_cap (h : Holds m P) : m.size ≤ m.cap := by
  obtain ⟨C, hC⟩ := h.elems
  rw [h.cap, hC, h.size, List.length_append]
  exact Nat.le_add_right _ _

variable (null) in
theorem init_holds (initCapacity : BitVec 32) : Holds (init null initCapacity) [] where
  elems := ⟨_, rfl⟩
  size := rfl
  cap := List.length_replicate.symm
  small := initCapacity.isLt

/-- Everything behind the first part moves down one, and the last one stays where it was too. -/
theorem moveDown_ok {size : Nat} (hsize : size = A.length + B.length + 1) (hle : size ≤ 2 ^ 31) (hn : B.length < n) :
    ∃ y, moveDown size n A.length (A ++ x :: B ++ C) = .ok (A ++ B ++ y :: C) := by
  have hlast : uint (size + 2 ^ 32 - 1) = A.length + B.length := by
    rw [uint]
    omega
  induction B generalizing A x n with
  | nil =>
    obtain ⟨n, rfl⟩ := Nat.exists_eq_succ_of_ne_zero (Nat.ne_zero_of_lt hn)
    refine ⟨x, ?_⟩
    rw [moveDown, hlast, if_neg (by simp), List.append_nil, List.append_assoc]
    rfl
  | cons b B ih =>
    obtain ⟨n, rfl⟩ := Nat.exists_eq_succ_of_ne_zero (Nat.ne_zero_of_lt hn)
    rw [List.length_cons] at hsize hn hlast
    have hA : (A ++ [x]).length = A.length + 1 := List.length_append
    have hi : uint (A.length + 1) = A.length + 1 := uint_of_lt (by omega)
    have hget : slot (A ++ x :: b :: B ++ C) (A.length + 1) = .ok b := by
      have := slot_middle (A := A ++ [x]) (x := b) (C := B ++ C) (by omega)
      simpa using this
    have hset : setSlot (A ++ x :: b :: B ++ C) A.length b = .ok (A ++ b :: b :: B ++ C) := by
      have := setSlot_middle (A := A) (x := x) (y := b) (C := b :: B ++ C) (by omega)
      simpa using this
    obtain ⟨y, hy⟩ := ih (A := A ++ [b]) (x := b) (n := n)
      (by rw [List.length_append, List.length_singleton]; omega) (Nat.lt_of_succ_lt_succ hn)
      (by rw [hlast, List.length_append, List.length_singleton]; omega)
    refine ⟨y, ?_⟩
    rw [moveDown, hlast, if_pos (by omega), hi, hget]
    simp only [bind, Except.bind, hset]
    simpa using hy

/-- Everything between the parts moves up one, and its place is free then. -/
theorem moveUp_ok (hsize : (A ++ B).length < 2 ^ 31) :
    ∃ y, moveUp A.length (A ++ B).length (A ++ B ++ x :: C) = .ok (A ++ y :: B ++ C) := by
  induction B using List.reverseRecOn generalizing x C with
  | nil =>
    refine ⟨x, ?_⟩
    have hC : A ++ [x] ++ C = A ++ x :: C := by simp
    rw [List.append_nil, hC]
    cases hA : A.length with
    | zero => rfl
    | succ i =>
      rw [moveUp, if_neg (Nat.lt_irrefl _)]
      rfl
  | append_singleton B b ih =>
    have hlen : (A ++ (B ++ [b])).length = (A ++ B).length + 1 := by simp [Nat.add_assoc]
    rw [hlen] at hsize
    have hget : slot (A ++ (B ++ [b]) ++ x :: C) (A ++ B).length = .ok b := by
      have := slot_middle (A := A ++ B) (x := b) (C := x :: C) (by omega)
      simpa using this
    have hset : setSlot (A ++ (B ++ [b]) ++ x :: C) ((A ++ B).length + 1) b = .ok (A ++ B ++ b :: b :: C) := by
      have := setSlot_middle (A := A ++ B ++ [b]) (x := x) (y := b) (C := C) (by simp at hsize ⊢; omega)
      simpa [Nat.add_assoc] using this
    obtain ⟨y, hy⟩ := ih (x := b) (C := b :: C) (by omega)
    refine ⟨y, ?_⟩
    have hgt : (A ++ B).length + 1 > A.length := by
      rw [List.length_append]
      omega
    rw [hlen, moveUp, if_pos hgt, hget]
    simp only [bind, Except.bind, hset, hy]
    simp

theorem copy_ok {newRep : List α} (hm : m.rep = P ++ C) (hn : P.length ≤ newRep.length) (hsmall : P.length ≤ 2 ^ 31) :
    ∃ D, m.copy newRep P.length = .ok (P ++ D) ∧ (P ++ D).length = newRep.length := by
  obtain ⟨rep, he, hlen, htake⟩ := loop_ok
    (f := fun newRep i => do setSlot newRep i (← slot m.rep i)) (s := newRep) (i := 0) (n := P.length)
    (fun i rep => rep.length = newRep.length ∧ rep.take i = P.take i) ⟨rfl, rfl⟩ (by
      rintro j rep - hj ⟨hlen, htake⟩
      rw [Nat.zero_add] at hj
      have hget : slot m.rep j = .ok P[j] := by
        apply slot_ok (by omega)
        rw [hm, List.getElem?_append_left hj, List.getElem?_eq_getElem hj]
      refine ⟨rep.set j P[j], ?_, ?_, ?_⟩
      · simp only [bind, Except.bind, hget]
        exact setSlot_ok (by omega) (by omega)
      · rw [List.length_set, hlen]
      · rw [List.take_succ_eq_append_getElem hj, ← htake, List.take_succ_eq_append_getElem (by simp; omega),
          List.getElem_set_self, List.take_set_of_le (Nat.le_refl j)])
  rw [Nat.zero_add, List.take_length] at htake
  have hsplit : P ++ rep.drop P.length = rep := by
    rw [← htake, List.length_take, Nat.min_eq_left (by omega), List.take_append_drop]
  refine ⟨rep.drop P.length, ?_, ?_⟩
  · rw [hsplit]
    exact he
  · rw [hsplit, hlen]

variable (null) in
theorem Holds.grow (n : Nat) (h : Holds m P) (hle : m.cap ≤ n) (hpos : P.length < 2 ^ 31) (hn : n < 2 ^ 32) :
    ∃ m', m.grow null n = .ok (m', .ok ()) ∧ Holds m' P ∧ m'.cap = if n = 0 then 16 else n := by
  obtain ⟨C, hC⟩ := h.elems
  have hsize := h.size
  have hsc := h.size_le_cap
  have hcap : (List.replicate (if n = 0 then 16 else n) null).length = if n = 0 then 16 else n := List.length_replicate
  have hbound : P.length ≤ (List.replicate (if n = 0 then 16 else n) null).length := by
    rw [hcap]
    split <;> omega
  obtain ⟨D, hD, hlen⟩ := copy_ok hC hbound (Nat.le_of_lt hpos)
  refine ⟨⟨P ++ D, if n = 0 then 16 else n, m.size⟩, ?_, ⟨⟨D, rfl⟩, hsize, ?_, ?_⟩, rfl⟩
  · rw [ElemArray.grow, if_neg (Nat.not_lt.mpr hle), hsize]
    simp only [bind, Except.bind, hD]
    rfl
  · exact (hlen.trans hcap).symm
  · change (if n = 0 then 16 else n) < 2 ^ 32
    split <;> omega

variable (null) in
/-- There is room for one more element. -/
theorem Holds.ensureRoom (h : Holds m P) (hsmall : P.length < 2 ^ 31) :
    ∃ m' x C, m.ensureRoom null = .ok (m', .ok ()) ∧ Holds m' P ∧ m'.rep = P ++ x :: C := by
  have hroom : ∀ m' : ElemArray α, Holds m' P → m'.size < m'.cap → ∃ x C, m'.rep = P ++ x :: C := by
    intro m' h' hlt
    obtain ⟨C, hC⟩ := h'.elems
    rw [h'.size, h'.cap, hC, List.length_append] at hlt
    cases C with
    | nil => exact absurd hlt (by simp)
    | cons x C => exact ⟨x, C, hC⟩
  have hsize := h.size
  rw [ElemArray.ensureRoom]
  by_cases hfull : m.size = m.cap
  · have hdouble : uint (m.cap * 2) = m.cap * 2 := uint_of_lt (by omega)
    obtain ⟨m', he, h', hcap⟩ := h.grow null (m.cap * 2) (by omega) hsmall (by omega)
    obtain ⟨x, C, hC⟩ := hroom m' h' (by
      rw [hcap, h'.size, ← hsize, hfull]
      split <;> omega)
    rw [if_pos hfull, hdouble, he]
    exact ⟨m', x, C, rfl, h', hC⟩
  · have hlt : m.size < m.cap := Nat.lt_of_le_of_ne h.size_le_cap hfull
    obtain ⟨x, C, hC⟩ := hroom m h hlt
    rw [if_neg hfull]
    exact ⟨m, x, C, rfl, h, hC⟩

variable (null) in
/-- Slots from `k` on become null, and what is before them stays. -/
theorem erase_ok (f : List α → Nat → Except Fault (List α)) (rep : List α) (k n : Nat) (hn : k + n ≤ rep.length)
    (hsmall : k + n ≤ 2 ^ 31)
    (hf : ∀ rep i, i < 2 ^ 31 → i < rep.length → f rep i = .ok (rep.set i null)) :
    ∃ rep', loop f k n rep = .ok rep' ∧ rep'.length = rep.length ∧ rep'.take k = rep.take k := by
  refine loop_ok (fun _ (rep' : List α) => rep'.length = rep.length ∧ rep'.take k = rep.take k) ⟨rfl, rfl⟩ ?_
  rintro j rep' hj hjn ⟨hlen, htake⟩
  refine ⟨_, hf rep' j (by omega) (by omega), ?_, ?_⟩
  · rw [List.length_set, hlen]
  · rw [List.take_set_of_le hj, htake]

theorem filterStep_ok {f : α → Bool} (hm : m.rep = P ++ C) (hsmall : P.length ≤ 2 ^ 31) :
    ∃ rep ns, loop (filterStep f) 0 P.length (m.rep, 0) = .ok (rep, ns) ∧
      rep.length = m.rep.length ∧ ns ≤ P.length ∧ rep.take ns = P.filter f := by
  obtain ⟨⟨rep, ns⟩, he, hlen, hns, htake, -⟩ := loop_ok (f := filterStep f) (s := (m.rep, 0)) (i := 0) (n := P.length)
    (fun i s => s.1.length = m.rep.length ∧ s.2 ≤ i ∧ s.1.take s.2 = (P.take i).filter f ∧
      ∀ k, i ≤ k → s.1[k]? = m.rep[k]?) ⟨rfl, Nat.le_refl 0, rfl, fun _ _ => rfl⟩ (by
      rintro j ⟨rep, ns⟩ - hj ⟨hlen, hns, htake, hrest⟩
      dsimp only at hlen hns htake hrest
      rw [Nat.zero_add] at hj
      have hlenm : P.length ≤ m.rep.length := by simp [hm]
      have hget : slot rep j = .ok P[j] := by
        apply slot_ok (by omega)
        rw [hrest j (Nat.le_refl j), hm, List.getElem?_append_left hj, List.getElem?_eq_getElem hj]
      have hfilter : (P.take (j + 1)).filter f = rep.take ns ++ [P[j]].filter f := by
        rw [List.take_succ_eq_append_getElem hj, List.filter_append, htake]
      rw [filterStep]
      simp only [bind, Except.bind, hget]
      by_cases hf : f P[j] = true
      · have hset : setSlot rep ns P[j] = .ok (rep.set ns P[j]) := setSlot_ok (by omega) (by omega)
        rw [if_pos hf, hset, uint_of_lt (by omega)]
        refine ⟨_, rfl, ?_, Nat.succ_le_succ hns, ?_, ?_⟩
        · rw [List.length_set, hlen]
        · have hfj : [P[j]].filter f = [P[j]] := by simp [hf]
          rw [hfilter, hfj, List.take_succ_eq_append_getElem (by rw [List.length_set]; omega), List.getElem_set_self,
            List.take_set_of_le (Nat.le_refl ns)]
        · intro k hk
          rw [List.getElem?_set_ne (by omega)]
          exact hrest k (Nat.le_of_succ_le hk)
      · rw [if_neg hf]
        refine ⟨_, rfl, hlen, Nat.le_succ_of_le hns, ?_, fun k hk => hrest k (Nat.le_of_succ_le hk)⟩
        have hfj : [P[j]].filter f = [] := by simp [hf]
        rw [hfilter, hfj, List.append_nil])
  rw [Nat.zero_add] at hns
  rw [Nat.zero_add, List.take_length] at htake
  exact ⟨rep, ns, he, hlen, hns, htake⟩

variable (null) in
theorem Holds.filter (f : α → Bool) (h : Holds m P) (hsmall : P.length ≤ 2 ^ 31) :
    ∃ m', m.filter null f = .ok m' ∧ Holds m' (P.filter f) := by
  obtain ⟨C, hC⟩ := h.elems
  have hlenm : P.length ≤ m.rep.length := by simp [hC]
  obtain ⟨rep, ns, he, hlen, hns, htake⟩ := filterStep_ok (f := f) hC hsmall
  obtain ⟨rep', he', hlen', htake'⟩ := erase_ok null (fun rep nsi => setSlot rep nsi null) rep ns (P.length - ns)
    (by omega) (by omega) fun _ _ hi hlt => setSlot_ok hi hlt
  rw [htake] at htake'
  have hsize : (P.filter f).length = ns := by
    rw [← htake, List.length_take]
    omega
  refine ⟨{ m with rep := rep', size := ns }, ?_, ⟨rep'.drop ns, ?_⟩, hsize.symm, ?_, h.small⟩
  · rw [ElemArray.filter, h.size]
    simp only [bind, Except.bind, he, he']
    rfl
  · rw [← htake', List.take_append_drop]
  · rw [hlen', hlen]
    exact h.cap

variable (null) in
theorem Holds.clear (h : Holds m P) (hsmall : P.length ≤ 2 ^ 31) : ∃ m', m.clear null = .ok m' ∧ Holds m' [] := by
  obtain ⟨C, hC⟩ := h.elems
  have hlenm : P.length ≤ m.rep.length := by simp [hC]
  rw [ElemArray.clear]
  by_cases h0 : m.size = 0
  · obtain rfl := List.length_eq_zero_iff.mp (h.size ▸ h0)
    exact ⟨m, if_pos h0, h⟩
  · obtain ⟨rep', he', hlen', -⟩ := erase_ok null
      (fun rep i => do
        let _elem ← slot rep i
        setSlot rep i null)
      m.rep 0 m.size (by rw [h.size]; omega) (by rw [h.size]; omega) (by
        intro rep i hi hlt
        simp only [slot_ok hi (List.getElem?_eq_getElem hlt), bind, Except.bind]
        exact setSlot_ok hi hlt)
    refine ⟨{ m with rep := rep', size := 0 }, ?_, ⟨rep', rfl⟩, rfl, ?_, h.small⟩
    · rw [if_neg h0, he']
      rfl
    · rw [hlen']
      exact h.cap

end ElemArray

end Crack
