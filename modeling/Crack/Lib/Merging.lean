import Mathlib.Order.Basic
import Mathlib.Data.List.Basic
import Mathlib.Tactic.Common

/-!
# Merging sorted sequences

Each step takes one of the least heads. What is taken goes behind everything before, or before a last element
with an equal key which is to stay at the end.

## Lower bounds

The first place of a list from which on all elements have a property.
-/
namespace LowerBounds

variable {α : Type} {p : α → Prop} {xs : List α} {x : α} {i k : Nat}

structure Splits (p : α → Prop) (xs : List α) (k : Nat) : Prop where
  inside : k ≤ xs.length
  before : ∀ x ∈ xs.take k, ¬p x
  behind : ∀ x ∈ xs.drop k, p x

/-- An element tells on which side its place is. -/
theorem Splits.iff (h : Splits p xs k) (hx : xs[i]? = some x) : p x ↔ k ≤ i := by
  constructor
  · intro hp
    by_contra hnot
    have hmem : x ∈ xs.take k :=
      List.mem_of_getElem? (by rw [List.getElem?_take_of_lt (Nat.lt_of_not_le hnot), hx])
    exact h.before x hmem hp
  · intro hle
    have hmem : x ∈ xs.drop k :=
      List.mem_of_getElem? (i := i - k) (by rw [List.getElem?_drop, Nat.add_sub_cancel' hle, hx])
    exact h.behind x hmem

variable [DecidablePred p]

/-- What is true of an element and then of all behind it starts to be true at some place. -/
theorem splits_findIdx (h : xs.Pairwise fun x y => p x → p y) : Splits p xs (xs.findIdx fun x => decide (p x)) := by
  induction xs with
  | nil => exact ⟨Nat.le_refl 0, fun x hx => (List.not_mem_nil hx).elim, fun x hx => (List.not_mem_nil hx).elim⟩
  | cons x xs ih =>
    obtain ⟨hx, hxs⟩ := List.pairwise_cons.mp h
    rw [List.findIdx_cons]
    by_cases hp : p x
    · rw [decide_eq_true hp]
      refine ⟨Nat.zero_le _, fun y hy => (List.not_mem_nil hy).elim, fun y hy => ?_⟩
      rcases List.mem_cons.mp hy with rfl | hy
      · exact hp
      · exact hx y hy hp
    · obtain ⟨hinside, hbefore, hbehind⟩ := ih hxs
      rw [decide_eq_false hp]
      refine ⟨Nat.succ_le_succ hinside, fun y hy => ?_, hbehind⟩
      rcases List.mem_cons.mp hy with rfl | hy
      · exact hp
      · exact hbefore y hy

end LowerBounds

namespace Merging

variable {α κ : Type} {key : α → κ} {ends : α → Prop} {P P' A L : List α} {x y : α}

inductive Put (key : α → κ) (ends : α → Prop) (x : α) : List α → List α → Prop
  | behind {P : List α} : Put key ends x P (P ++ [x])
  | beforeEnd {P : List α} {e : α} : ends e → key e = key x → Put key ends x (P ++ [e]) (P ++ [x, e])

theorem Put.perm (h : Put key ends x P P') : P'.Perm (x :: P) := by
  cases h with
  | behind => exact List.perm_append_singleton x P
  | beforeEnd hends heq => exact List.perm_middle

theorem Put.sublist (h : Put key ends x P P') : P.Sublist P' := by
  cases h with
  | behind => exact List.sublist_append_left P [x]
  | beforeEnd hends heq => exact (List.sublist_cons_self x _).append_left _

/-- What is put behind a subsequence without anything that is to stay at the end is behind it there too. -/
theorem Put.sublist_concat (h : Put key ends x P P') (hA : A.Sublist P) (hends : ∀ y ∈ A, ¬ends y) :
    (A ++ [x]).Sublist P' := by
  cases h with
  | behind => exact hA.append_right [x]
  | @beforeEnd P e hend heq =>
    obtain ⟨B, C, rfl, hB, hC⟩ := List.sublist_append_iff.mp hA
    have hnil : C = [] := by
      rcases List.sublist_singleton.mp hC with rfl | rfl
      · rfl
      · exact absurd hend (hends e (List.mem_append_right B (List.mem_singleton_self e)))
    subst hnil
    rw [List.append_nil]
    exact hB.append (List.singleton_sublist.mpr List.mem_cons_self)

variable {input S S' : List (List α)}

/-- Sequences that are not empty have an element each. -/
theorem length_le_flatten (h : ∀ R ∈ S, R ≠ []) : S.length ≤ S.flatten.length := by
  induction S with
  | nil => exact Nat.le_refl 0
  | cons R S ih =>
    have hR := List.length_pos_of_ne_nil (h R List.mem_cons_self)
    have hS := ih fun L hL => h L (List.mem_cons_of_mem R hL)
    rw [List.flatten_cons, List.length_append, List.length_cons]
    omega

variable [Preorder κ]

/-- `x` is a least head. Its sequence is removed with its last element. -/
inductive Takes (key : α → κ) (x : α) : List (List α) → List (List α) → Prop
  | more {I J : List (List α)} {R : List α} : (∀ L ∈ I ++ (x :: R) :: J, ∀ y ∈ L.head?, key x ≤ key y) → R ≠ [] →
      Takes key x (I ++ (x :: R) :: J) (I ++ R :: J)
  | last {I J : List (List α)} : (∀ L ∈ I ++ [x] :: J, ∀ y ∈ L.head?, key x ≤ key y) →
      Takes key x (I ++ [x] :: J) (I ++ J)

/-- `P` has been taken of the sequences of the input, and `S` is what they still have. -/
structure Merged (key : α → κ) (ends : α → Prop) (input S : List (List α)) (P : List α) : Prop where
  perm : (P ++ S.flatten).Perm input.flatten
  sorted : P.Pairwise fun x y => key x ≤ key y
  behind : ∀ x ∈ P, ∀ y ∈ S.flatten, key x ≤ key y
  rests : ∀ R ∈ S, R.Pairwise fun x y => key x ≤ key y
  /-- Of a sequence where nothing else follows what is to stay at the end. -/
  order : ∀ L ∈ input, (∀ x ∈ L.dropLast, ¬ends x) → ∃ A R, L = A ++ R ∧ A.Sublist P ∧ (R = [] ∨ R ∈ S)

theorem Takes.perm (h : Takes key x S S') : S.flatten.Perm (x :: S'.flatten) := by
  cases h with
  | more hleast hne =>
    rw [List.flatten_append, List.flatten_append, List.flatten_cons, List.flatten_cons, List.cons_append]
    exact List.perm_middle
  | last hleast =>
    rw [List.flatten_append, List.flatten_append, List.flatten_cons, List.cons_append, List.nil_append]
    exact List.perm_middle

theorem Takes.least (h : Takes key x S S') (hrests : ∀ R ∈ S, R.Pairwise fun x y => key x ≤ key y)
    (hy : y ∈ S.flatten) : key x ≤ key y := by
  obtain ⟨L, hL, hy⟩ := List.mem_flatten.mp hy
  have hhead : ∀ z ∈ L.head?, key x ≤ key z := by
    cases h with
    | more hleast hne => exact hleast L hL
    | last hleast => exact hleast L hL
  cases L with
  | nil => cases hy
  | cons z L =>
    have hz := hhead z rfl
    rcases List.mem_cons.mp hy with rfl | hy
    · exact hz
    · exact le_trans hz ((List.pairwise_cons.mp (hrests _ hL)).1 y hy)

/-- A sequence is still there, or its first element has been taken. -/
theorem Takes.rest (h : Takes key x S S') (hL : L ∈ S) : L ∈ S' ∨ ∃ R, L = x :: R ∧ (R = [] ∨ R ∈ S') := by
  cases h with
  | @more I J R hleast hne =>
    rcases List.mem_append.mp hL with hL | hL
    · exact .inl (List.mem_append_left _ hL)
    rcases List.mem_cons.mp hL with rfl | hL
    · exact .inr ⟨R, rfl, .inr (List.mem_append_right _ List.mem_cons_self)⟩
    · exact .inl (List.mem_append_right _ (List.mem_cons_of_mem _ hL))
  | @last I J hleast =>
    rcases List.mem_append.mp hL with hL | hL
    · exact .inl (List.mem_append_left _ hL)
    rcases List.mem_cons.mp hL with rfl | hL
    · exact .inr ⟨[], rfl, .inl rfl⟩
    · exact .inl (List.mem_append_right _ hL)

theorem Takes.rests (h : Takes key x S S') (hrests : ∀ R ∈ S, R.Pairwise fun x y => key x ≤ key y) :
    ∀ R ∈ S', R.Pairwise fun x y => key x ≤ key y := by
  intro L hL
  cases h with
  | @more I J R hleast hne =>
    rcases List.mem_append.mp hL with hL | hL
    · exact hrests L (List.mem_append_left _ hL)
    rcases List.mem_cons.mp hL with rfl | hL
    · exact (List.pairwise_cons.mp (hrests (x :: L) (List.mem_append_right _ List.mem_cons_self))).2
    · exact hrests L (List.mem_append_right _ (List.mem_cons_of_mem _ hL))
  | @last I J hleast =>
    rcases List.mem_append.mp hL with hL | hL
    · exact hrests L (List.mem_append_left _ hL)
    · exact hrests L (List.mem_append_right _ (List.mem_cons_of_mem _ hL))

theorem Put.sorted (h : Put key ends x P P') (hP : P.Pairwise fun x y => key x ≤ key y)
    (hle : ∀ y ∈ P, key y ≤ key x) : P'.Pairwise fun x y => key x ≤ key y := by
  cases h with
  | behind =>
    refine List.pairwise_append.mpr ⟨hP, List.pairwise_singleton _ x, fun y hy z hz => ?_⟩
    rw [List.mem_singleton.mp hz]
    exact hle y hy
  | @beforeEnd P e hends heq =>
    obtain ⟨hP, -, hbefore⟩ := List.pairwise_append.mp hP
    have hpair : [x, e].Pairwise fun x y => key x ≤ key y := List.pairwise_pair.mpr (le_of_eq heq.symm)
    refine List.pairwise_append.mpr ⟨hP, hpair, fun y hy z hz => ?_⟩
    rcases List.mem_cons.mp hz with rfl | hz
    · exact hle y (List.mem_append_left _ hy)
    · exact hbefore y hy z hz

theorem Merged.start (h : ∀ L ∈ input, L.Pairwise fun x y => key x ≤ key y) : Merged key ends input input [] where
  perm := .refl _
  sorted := .nil
  behind _ hx := absurd hx List.not_mem_nil
  rests := h
  order L hL _ := ⟨[], L, rfl, .refl [], .inr hL⟩

/-- What one step preserves. -/
theorem Merged.step (h : Merged key ends input S P) (htakes : Takes key x S S') (hput : Put key ends x P P') :
    Merged key ends input S' P' := by
  have hx : x ∈ S.flatten := htakes.perm.mem_iff.mpr List.mem_cons_self
  have hrest : ∀ {y}, y ∈ S'.flatten → y ∈ S.flatten := fun hy => htakes.perm.mem_iff.mpr (List.mem_cons_of_mem x hy)
  refine ⟨?_, hput.sorted h.sorted fun y hy => h.behind y hy x hx, fun y hy z hz => ?_, htakes.rests h.rests,
    fun L hL hends => ?_⟩
  · calc (P' ++ S'.flatten).Perm (x :: P ++ S'.flatten) := hput.perm.append_right _
      List.Perm _ (P ++ x :: S'.flatten) := List.perm_middle.symm
      List.Perm _ (P ++ S.flatten) := htakes.perm.symm.append_left P
      List.Perm _ input.flatten := h.perm
  · rcases List.mem_cons.mp (hput.perm.mem_iff.mp hy) with rfl | hy
    · exact htakes.least h.rests (hrest hz)
    · exact h.behind y hy z (hrest hz)
  · obtain ⟨A, R, rfl, hA, hR⟩ := h.order L hL hends
    rcases hR with rfl | hR
    · exact ⟨A, [], rfl, hA.trans hput.sublist, .inl rfl⟩
    rcases htakes.rest hR with hR | ⟨R, rfl, hrest⟩
    · exact ⟨A, R, rfl, hA.trans hput.sublist, .inr hR⟩
    · refine ⟨A ++ [x], R, List.append_cons A x R, hput.sublist_concat hA fun y hy => hends y ?_, hrest⟩
      rw [List.dropLast_append_of_ne_nil (List.cons_ne_nil x R)]
      exact List.mem_append_left _ hy

/-- Every sequence is in order in what has been taken of all of them. -/
theorem Merged.finish (h : Merged key ends input [] P) :
    P.Perm input.flatten ∧ ∀ L ∈ input, (∀ x ∈ L.dropLast, ¬ends x) → L.Sublist P := by
  constructor
  · have hperm := h.perm
    rwa [List.flatten_nil, List.append_nil] at hperm
  · intro L hL hends
    obtain ⟨A, R, rfl, hA, hR⟩ := h.order L hL hends
    rw [hR.resolve_right List.not_mem_nil, List.append_nil]
    exact hA

end Merging
