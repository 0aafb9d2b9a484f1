import Crack.Cont.ElemArrayRuns

/-!
# extend of an Array

Both arrays live in a heap, so that one of them may be the other. The capacity is
found by doubling, from the capacity that there is.
-/
namespace Crack

namespace ElemArray

open Fuel (Returns)
open Loops (bind_ok)

variable {α : Type} (null : α)

/-- The loop of `extend` that looks for a capacity. -/
def doubled (size n : Nat) : Nat → Nat → Except Fault Nat
  | 0, _ => .error .forever
  | fuel + 1, newCap =>
    if uint (newCap + 2 ^ 32 - size) < n then doubled size n fuel (uint (newCap * 2)) else .ok newCap

/-- The first half of `extend`: room for `n` more. -/
def makeRoom (m : ElemArray α) (fuel n : Nat) : Except Fault (ElemArray α × Except Exc Unit) := do
  if uint (m.cap + 2 ^ 32 - m.size) < n then m.grow null (← doubled m.size n fuel m.cap) else return (m, .ok ())

/-- The loop of `extend` that copies: the rounds from `i` on, of which there are `n`. -/
def extendFrom (this other : Nat) :
    Nat → Nat → (Nat → ElemArray α) → Except Fault ((Nat → ElemArray α) × Except Exc Unit)
  | 0, _, heap => return (heap, .ok ())
  | n + 1, i, heap => do
    match ← (heap other).getItem (BitVec.ofNat 32 i) with
    | .error e => return (heap, .error e)
    | .ok elem =>
      let rep ← setSlot (heap this).rep (uint ((heap this).size + i)) elem
      extendFrom this other n (i + 1) (Function.update heap this { heap this with rep })

def extend (fuel this other : Nat) (heap : Nat → ElemArray α) :
    Except Fault ((Nat → ElemArray α) × Except Exc Unit) := do
  match ← (heap this).makeRoom null fuel (heap other).size with
  | (m, .error e) => return (Function.update heap this m, .error e)
  | (m, .ok ()) =>
    let heap := Function.update heap this m
    match ← extendFrom this other (heap other).size 0 heap with
    | (heap, .error e) => return (heap, .error e)
    | (heap, .ok ()) =>
      let size := uint ((heap this).size + (heap other).size)
      return (Function.update heap this { heap this with size }, .ok ())

variable {null} {m m' : ElemArray α} {P Q A B C : List α} {x : α} {this other size n i newCap : Nat}
  {heap heap' : Nat → ElemArray α}

/-- Doubling ends at a capacity that is large enough. -/
theorem doubled_ok (hle : size ≤ newCap) (hpos : 0 < newCap) (hlt : newCap < 2 ^ 32) (hn : size + n ≤ 2 ^ 31) :
    ∃ c, Returns (fun fuel => doubled size n fuel newCap) (.ok c) ∧ newCap ≤ c ∧ c < 2 ^ 32 ∧ size + n ≤ c := by
  induction hk : size + n - newCap using Nat.strongRecOn generalizing newCap with
  | ind k ih =>
    have hroom : uint (newCap + 2 ^ 32 - size) = newCap - size := by
      rw [uint]
      omega
    by_cases hshort : newCap - size < n
    · have hdouble : uint (newCap * 2) = newCap * 2 := uint_of_lt (by omega)
      obtain ⟨c, hc, hge, hc32, hroomy⟩ :=
        ih (size + n - newCap * 2) (by omega) (by omega) (by omega) (by omega) rfl
      refine ⟨c, hc.step fun fuel he => ?_, by omega, hc32, hroomy⟩
      rw [doubled, hroom, if_pos hshort, hdouble]
      exact he
    · refine ⟨newCap, Returns.now fun fuel => ?_, Nat.le_refl _, hlt, by omega⟩
      rw [doubled, hroom, if_neg hshort]

/-- From capacity zero doubling goes nowhere. -/
theorem doubled_zero (hn : 0 < n) (fuel : Nat) : doubled 0 n fuel 0 = .error .forever := by
  induction fuel with
  | zero => rfl
  | succ fuel ih =>
    have hroom : uint (0 + 2 ^ 32 - 0) = 0 := Nat.mod_self _
    have hdouble : uint (0 * 2) = 0 := rfl
    rw [doubled, hroom, if_pos hn, hdouble, ih]

variable (null) in
theorem Holds.makeRoom (h : Holds m P) (hcap : m.cap ≠ 0 ∨ n = 0) (hsmall : P.length + n ≤ 2 ^ 31) :
    ∃ m', Returns (fun fuel => m.makeRoom null fuel n) (.ok (m', .ok ())) ∧ Holds m' P ∧ P.length + n ≤ m'.cap := by
  have hsc := h.size_le_cap
  have hsize := h.size
  have hm := h.small
  have hroom : uint (m.cap + 2 ^ 32 - m.size) = m.cap - m.size := by
    rw [uint]
    omega
  by_cases hshort : m.cap - m.size < n
  · obtain ⟨c, hc, hge, hc32, hroomy⟩ := doubled_ok hsc (by omega) hm (n := n) (by omega)
    obtain ⟨m', he, h', hcap'⟩ := h.grow null c hge (by omega) hc32
    refine ⟨m', hc.imp fun fuel hd => ?_, h', ?_⟩
    · rw [ElemArray.makeRoom, hroom, if_pos hshort, hd]
      exact he
    · rw [hcap']
      split <;> omega
  · refine ⟨m, Returns.now fun fuel => ?_, h, by omega⟩
    rw [ElemArray.makeRoom, hroom, if_neg hshort]
    rfl

theorem makeRoom_size {fuel : Nat} (h : m.makeRoom null fuel n = .ok (m', .ok ())) : m'.size = m.size := by
  rw [ElemArray.makeRoom] at h
  split at h
  · obtain ⟨c, -, hgrow⟩ := bind_ok h
    rw [ElemArray.grow] at hgrow
    split at hgrow
    · cases hgrow
    · obtain ⟨rep, -, hrep⟩ := bind_ok hgrow
      cases hrep
      rfl
  · cases h
    rfl

/-- `oper []` at a position that is an element. -/
theorem getItem_middle {i : Nat} (hrep : m.rep = A ++ x :: C) (hA : i = A.length) (hlt : A.length < m.size)
    (hsmall : A.length < 2 ^ 31) : m.getItem (BitVec.ofNat 32 i) = .ok (.ok x) := by
  subst hA
  have hnat : (BitVec.ofNat 32 A.length).toNat = A.length :=
    BitVec.toNat_ofNat _ _ |>.trans (Nat.mod_eq_of_lt (by omega))
  have hpos : ¬ (BitVec.ofNat 32 A.length).toInt < 0 := by
    rw [BitVec.toInt_eq_toNat_cond, hnat, if_pos (by omega)]
    omega
  have hget : slot m.rep A.length = .ok x := by
    rw [hrep]
    exact slot_middle hsmall
  rw [ElemArray.getItem, fixIntIndex, if_neg hpos, hnat]
  simp only [if_neg (Nat.not_le_of_lt hlt), hget, bind, Except.bind, pure, Except.pure]

/-- The elements from `i` on are copied behind what is there already. -/
theorem extendFrom_ok (hthis : (heap this).rep = P ++ A ++ C) (hsize : (heap this).size = P.length)
    (hother : ∃ D, (heap other).rep = A ++ B ++ D) (hcount : (heap other).size = (A ++ B).length)
    (hroom : B.length ≤ C.length) (hsmall : (P ++ A ++ B).length ≤ 2 ^ 31) (halias : other = this → P = A ++ B) :
    ∃ C', extendFrom this other B.length A.length heap =
        .ok (Function.update heap this { heap this with rep := P ++ A ++ B ++ C' }, .ok ()) ∧
      (P ++ A ++ B ++ C').length = (P ++ A ++ C).length := by
  induction B generalizing A C heap with
  | nil =>
    refine ⟨C, ?_, by simp⟩
    rw [List.append_nil, ← hthis]
    simp [extendFrom, pure, Except.pure]
  | cons b B ih =>
    obtain ⟨c, C, rfl⟩ :=
      List.exists_cons_of_ne_nil (List.ne_nil_of_length_pos (Nat.lt_of_lt_of_le (Nat.succ_pos _) hroom))
    have hlen : (P ++ A ++ b :: B).length = P.length + A.length + B.length + 1 := by
      simp [Nat.add_assoc]
    have hget : (heap other).getItem (BitVec.ofNat 32 A.length) = .ok (.ok b) := by
      obtain ⟨D, hD⟩ := hother
      refine getItem_middle (A := A) (C := B ++ D) (by rw [hD]; simp) rfl ?_ (by omega)
      rw [hcount]
      simp
    have hset : setSlot (heap this).rep (uint ((heap this).size + A.length)) b = .ok (P ++ A ++ b :: C) := by
      rw [hthis, hsize, uint_of_lt (by omega), ← List.length_append]
      exact setSlot_middle (by rw [List.length_append]; omega)
    let heap₁ := Function.update heap this { heap this with rep := P ++ A ++ b :: C }
    have hreads : (∃ D, (heap₁ other).rep = A ++ b :: B ++ D) ∧ (heap₁ other).size = (A ++ b :: B).length := by
      by_cases hsame : other = this
      · obtain rfl := halias hsame
        subst hsame
        exact ⟨⟨A ++ b :: C, by simp [heap₁]⟩, by simpa [heap₁] using hsize⟩
      · simp only [heap₁, Function.update_of_ne hsame]
        exact ⟨hother, hcount⟩
    obtain ⟨C', he, hC'⟩ :=
      ih (by simp [heap₁] : (heap₁ this).rep = P ++ (A ++ [b]) ++ C) (by simpa [heap₁] using hsize)
      (by simpa using hreads.1) (by simpa using hreads.2) (by simpa using hroom) (by simpa using hsmall)
      (by simpa using halias)
    refine ⟨C', ?_, by simpa using hC'⟩
    rw [List.length_cons, extendFrom, hget]
    simp only [bind, Except.bind, hset]
    simpa [heap₁] using he

/-- A slot from `2 ^ 31` on is never written. -/
theorem extendFrom_size (hn : 0 < n) (hlt : (heap this).size + i < 2 ^ 32)
    (h : extendFrom this other n i heap = .ok (heap', .ok ())) : (heap this).size + i + n ≤ 2 ^ 31 := by
  induction n generalizing i heap with
  | zero => exact absurd hn (Nat.lt_irrefl 0)
  | succ n ih =>
    rw [extendFrom] at h
    obtain ⟨r, -, hr⟩ := bind_ok h
    cases r with
    | error e => cases hr
    | ok elem =>
      obtain ⟨rep, hset, hrest⟩ := bind_ok hr
      rw [setSlot, uint_of_lt hlt] at hset
      split at hset
      · rename_i hin
        rcases Nat.eq_zero_or_pos n with rfl | hpos
        · omega
        · have hle := ih hpos (by simp; omega) hrest
          simp only [Function.update_self] at hle
          omega
      · cases hset

/-- An array is one sequence only. -/
theorem Holds.unique (h : Holds m P) (h' : Holds m Q) : P = Q := by
  have htake : ∀ {R : List α}, Holds m R → m.rep.take m.size = R := by
    intro R hR
    obtain ⟨C, hC⟩ := hR.elems
    rw [hC, hR.size, List.take_left]
  rw [← htake h, htake h']

variable (null) in
theorem Holds.extend_nil (hP : Holds (heap this) P) (hQ : Holds (heap other) []) :
    Returns (fun fuel => extend null fuel this other heap) (.ok (heap, .ok ())) := by
  have hlt := Nat.lt_of_le_of_lt hP.size_le_cap hP.small
  have hsize : uint ((heap this).size + 0) = (heap this).size := uint_of_lt hlt
  have hcount : (heap other).size = 0 := hQ.size
  refine Returns.now fun fuel => ?_
  rw [ElemArray.extend, ElemArray.makeRoom, hcount, if_neg (Nat.not_lt_zero _)]
  simp only [bind, Except.bind, pure, Except.pure, Function.update_eq_self, hcount, extendFrom, hsize]

variable (null) in
theorem Holds.extend (hP : Holds (heap this) P) (hQ : Holds (heap other) Q) (hcap : (heap this).cap ≠ 0)
    (hsmall : (P ++ Q).length ≤ 2 ^ 31) :
    ∃ heap', Returns (fun fuel => extend null fuel this other heap) (.ok (heap', .ok ())) ∧
      Holds (heap' this) (P ++ Q) ∧ ∀ a, a ≠ this → heap' a = heap a := by
  have hlen : (P ++ Q).length = P.length + Q.length := List.length_append
  obtain ⟨m, hroom, hm, hcap⟩ := hP.makeRoom null (.inl hcap) (n := Q.length) (by omega)
  have hsize := hm.size
  have hsmallcap := hm.small
  let heap₁ := Function.update heap this m
  have hreads : Holds (heap₁ other) Q ∧ (other = this → P = Q) := by
    by_cases hsame : other = this
    · subst hsame
      obtain rfl := hP.unique hQ
      exact ⟨by simpa [heap₁] using hm, fun _ => rfl⟩
    · exact ⟨by simpa [heap₁, Function.update_of_ne hsame] using hQ, fun hc => absurd hc hsame⟩
  obtain ⟨hQ₁, halias⟩ := hreads
  obtain ⟨C, hC⟩ := hm.elems
  have hfree : Q.length ≤ C.length := by
    rw [hm.cap, hC, List.length_append] at hcap
    omega
  obtain ⟨C', he, hC'⟩ := extendFrom_ok (by simp [heap₁, hC] : (heap₁ this).rep = P ++ [] ++ C)
    (by simp [heap₁, hsize]) hQ₁.elems hQ₁.size hfree (by simpa using hsmall) halias
  have hcount : uint (m.size + Q.length) = (P ++ Q).length := by
    rw [hsize, ← hlen]
    exact uint_of_lt (by omega)
  let heap₂ := Function.update heap this ⟨P ++ Q ++ C', m.cap, uint (m.size + Q.length)⟩
  refine ⟨heap₂, hroom.imp fun fuel hr => ?_, ?_, fun a ha => Function.update_of_ne ha _ _⟩
  · rw [← hQ.size] at hr
    rw [ElemArray.extend, hr]
    simp only [bind, Except.bind, List.length_nil, heap₁] at he ⊢
    rw [hQ₁.size, he]
    by_cases hsame : other = this
    · subst hsame
      obtain rfl := hP.unique hQ
      simp [heap₂, pure, Except.pure, hsize]
    · simp [heap₂, pure, Except.pure, Function.update_of_ne hsame, hQ.size]
  · refine ⟨⟨C', by simp [heap₂]⟩, by simp only [heap₂, Function.update_self, hcount], ?_, ?_⟩
    · simpa [heap₂, hm.cap, hC] using hC'.symm
    · simpa [heap₂] using hsmallcap

theorem extend_succeeds {fuel : Nat} (hP : Holds (heap this) P) (hQ : Holds (heap other) Q)
    (h : extend null fuel this other heap = .ok (heap', .ok ())) :
    Q = [] ∨ (heap this).cap ≠ 0 ∧ (P ++ Q).length ≤ 2 ^ 31 := by
  rw [ElemArray.extend] at h
  obtain ⟨⟨m, r⟩, hroom, hrest⟩ := bind_ok h
  cases r with
  | error e => cases hrest
  | ok u =>
    obtain ⟨⟨heap₂, r⟩, hcopy, hend⟩ := bind_ok hrest
    cases r with
    | error e => cases hend
    | ok u =>
      by_cases hQ0 : Q = []
      · exact .inl hQ0
      · have hpos : 0 < Q.length := List.length_pos_iff.mpr hQ0
        have hlt := Nat.lt_of_le_of_lt hP.size_le_cap hP.small
        have hsize := makeRoom_size hroom
        refine .inr ⟨fun hcap => ?_, ?_⟩
        · have hempty : (heap this).size = 0 := Nat.le_zero.mp (hcap ▸ hP.size_le_cap)
          have hzero : uint (0 + 2 ^ 32 - 0) < Q.length := by rwa [uint, Nat.sub_zero, Nat.zero_add, Nat.mod_self]
          rw [ElemArray.makeRoom, hcap, hempty, hQ.size, if_pos hzero, doubled_zero hpos] at hroom
          cases hroom
        · have hcount : (Function.update heap this m other).size = Q.length := by
            by_cases hsame : other = this
            · subst hsame
              rw [Function.update_self, hsize, hQ.size]
            · rw [Function.update_of_ne hsame, hQ.size]
          have hbound := extendFrom_size (hcount ▸ hpos) (by simpa [hsize] using hlt) hcopy
          rw [hcount, Function.update_self, hsize, hP.size] at hbound
          rw [List.length_append]
          omega

variable (null) in
/-- `extend` adds the elements of the other array, provided that it has none or that there
is a capacity to double and an index for each element. -/
theorem extend_iff (heap : Nat → ElemArray α) {this other : Nat} {P Q : List α} (hP : Holds (heap this) P)
    (hQ : Holds (heap other) Q) :
    (∃ heap', Returns (fun fuel => extend null fuel this other heap) (.ok (heap', .ok ())) ∧
      Holds (heap' this) (P ++ Q) ∧ (heap' this).size ≤ (heap' this).cap ∧ ∀ a, a ≠ this → heap' a = heap a) ↔
      (Q = [] ∨ (heap this).cap ≠ 0 ∧ (P ++ Q).length ≤ 2 ^ 31) := by
  constructor
  · rintro ⟨heap', ⟨fuel, hfuel⟩, -⟩
    exact extend_succeeds hP hQ (hfuel fuel (Nat.le_refl fuel))
  · rintro (rfl | ⟨hcap, hsmall⟩)
    · refine ⟨heap, hP.extend_nil null hQ, ?_, hP.size_le_cap, fun _ _ => rfl⟩
      rwa [List.append_nil]
    · obtain ⟨heap', hr, h', hframe⟩ := hP.extend null hQ hcap hsmall
      exact ⟨heap', hr, h', h'.size_le_cap, hframe⟩

/-- A full array is added to itself. -/
theorem extend_itself :
    ∃ heap', Returns (fun fuel => extend 0 fuel 0 0 fun _ => ⟨[4, 7], 2, 2⟩) (.ok (heap', .ok ())) ∧
      Holds (heap' 0) [4, 7, 4, 7] ∧ (heap' 0).size ≤ (heap' 0).cap ∧ ∀ a, a ≠ 0 → heap' a = ⟨[4, 7], 2, 2⟩ := by
  have h : Holds ⟨[4, 7], 2, 2⟩ [4, 7] := ⟨⟨[], rfl⟩, rfl, rfl, by decide⟩
  exact (extend_iff 0 (fun _ => ⟨[4, 7], 2, 2⟩) h h).mpr (.inr ⟨by decide, by decide⟩)

/-- An element is added to an array that was made with capacity zero. -/
theorem extend_from_capacity_zero :
    let heap : Nat → ElemArray Nat := Function.update (fun _ => ⟨[7], 1, 1⟩) 0 (init 0 0)
    Holds (heap 0) [] ∧ Holds (heap 1) [7] ∧
      ¬∃ heap', Returns (fun fuel => extend 0 fuel 0 1 heap) (.ok (heap', .ok ())) := by
  refine ⟨⟨⟨[], rfl⟩, rfl, rfl, by decide⟩, ⟨⟨[], rfl⟩, rfl, rfl, by decide⟩, ?_⟩
  rintro ⟨heap', fuel, hfuel⟩
  have hend : ElemArray.extend 0 fuel 0 1 _ = .ok (heap', .ok ()) := hfuel fuel (Nat.le_refl fuel)
  have hzero : uint (0 + 2 ^ 32 - 0) < 1 := by decide
  have hroom : ElemArray.makeRoom 0 (init 0 0) fuel 1 = .error .forever := by
    change (if uint (0 + 2 ^ 32 - 0) < 1 then _ else _) = _
    rw [if_pos hzero]
    change (doubled 0 1 fuel 0 >>= _) = _
    rw [doubled_zero Nat.one_pos]
    rfl
  rw [ElemArray.extend, Function.update_self, Function.update_of_ne Nat.one_ne_zero, hroom] at hend
  cases hend

end ElemArray

end Crack
