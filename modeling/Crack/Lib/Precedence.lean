import Mathlib.Tactic.Common

/-!
# Operator precedence

Binary trees over operators with a precedence, read as sequences of leaves and
operators. Every sequence has one tree that follows the precedences with
association to the left.
-/
namespace Precedence

inductive Tree (Op Leaf : Type) where
  | leaf (x : Leaf)
  | node (l : Tree Op Leaf) (op : Op) (r : Tree Op Leaf)
  deriving DecidableEq, Repr

variable {Op Leaf : Type} (prec : Op → Nat)

namespace Tree

/-- The leftmost leaf. -/
def first : Tree Op Leaf → Leaf
  | leaf x => x
  | node l _ _ => l.first

def last : Tree Op Leaf → Leaf
  | leaf x => x
  | node _ _ r => r.last

/-- The operator left of the last leaf, if the one left of the tree is `prev`. -/
def lastOp (prev : Option Op) : Tree Op Leaf → Option Op
  | leaf _ => prev
  | node _ op r => r.lastOp (some op)

/-- The operators, each with the leaf right of it. -/
def items : Tree Op Leaf → List (Op × Leaf)
  | leaf _ => []
  | node l op r => l.items ++ (op, r.first) :: r.items

def map {Leaf' : Type} (f : Leaf → Leaf') : Tree Op Leaf → Tree Op Leaf'
  | leaf x => leaf (f x)
  | node l op r => node (l.map f) op (r.map f)

/-- All leaves satisfy `P`. -/
def All (P : Leaf → Prop) : Tree Op Leaf → Prop
  | leaf x => P x
  | node l _ r => l.All P ∧ r.All P

/-- A bound of the precedence of the topmost operator. -/
def TopGe (n : Nat) : Tree Op Leaf → Prop
  | leaf _ => True
  | node _ op _ => n ≤ prec op

/-- Operators nest by precedence; those of the same precedence nest to the left. -/
def WellPrec : Tree Op Leaf → Prop
  | leaf _ => True
  | node l op r => l.WellPrec ∧ r.WellPrec ∧ l.TopGe prec (prec op) ∧ r.TopGe prec (prec op + 1)

/-- Append an operator and a leaf to the sequence of a tree. -/
def push : Tree Op Leaf → Op → Leaf → Tree Op Leaf
  | leaf y, op, x => node (leaf y) op (leaf x)
  | node l op' r, op, x => if prec op' < prec op then node l op' (r.push op x) else node (node l op' r) op (leaf x)

end Tree

open Precedence.Tree

/-- The tree of a sequence. -/
def build (x : Leaf) (items : List (Op × Leaf)) : Tree Op Leaf :=
  items.foldl (fun t i => t.push prec i.1 i.2) (leaf x)

variable {prec} {t l r s : Tree Op Leaf} {op o : Op} {x : Leaf} {n m : Nat}

theorem push_inner (h : prec op < prec o) : (node l op r).push prec o x = node l op (r.push prec o x) := by
  simp [push, h]

theorem push_outer (h : ¬ prec op < prec o) : (node l op r).push prec o x = node (node l op r) o (leaf x) := by
  simp [push, h]

theorem topGe_mono (h : t.TopGe prec n) (hm : m ≤ n) : t.TopGe prec m := by
  cases t with
  | leaf => trivial
  | node l op r => exact Nat.le_trans hm h

@[simp] theorem first_push : (t.push prec op x).first = t.first := by
  induction t with
  | leaf y => rfl
  | node l o r =>
    simp only [push]
    split <;> rfl

@[simp] theorem items_push : (t.push prec op x).items = t.items ++ [(op, x)] := by
  induction t with
  | leaf y => rfl
  | node l o r ihl ihr =>
    by_cases h : prec o < prec op
    · rw [push_inner h]
      simp [items, ihr]
    · rw [push_outer h]
      simp [items, first]

theorem topGe_push (h : t.TopGe prec n) (hn : n ≤ prec op) : (t.push prec op x).TopGe prec n := by
  cases t with
  | leaf y => exact hn
  | node l o r =>
    by_cases ho : prec o < prec op
    · rw [push_inner ho]
      exact h
    · rw [push_outer ho]
      exact hn

theorem wellPrec_push (op : Op) (x : Leaf) (h : t.WellPrec prec) : (t.push prec op x).WellPrec prec := by
  induction t with
  | leaf y => exact ⟨trivial, trivial, trivial, trivial⟩
  | node l o r ihl ihr =>
    obtain ⟨hl, hr, hlo, hro⟩ := h
    by_cases ho : prec o < prec op
    · rw [push_inner ho]
      exact ⟨hl, ihr hr, hlo, topGe_push hro ho⟩
    · rw [push_outer ho]
      exact ⟨⟨hl, hr, hlo, hro⟩, trivial, Nat.le_of_not_lt ho, trivial⟩

section Fold

variable (items : List (Op × Leaf))

theorem wellPrec_leaf (x : Leaf) : (leaf x : Tree Op Leaf).WellPrec prec := trivial

theorem foldl_push_spec (h : t.WellPrec prec) :
    let t' := items.foldl (fun t i => t.push prec i.1 i.2) t
    t'.first = t.first ∧ t'.items = t.items ++ items ∧ t'.WellPrec prec := by
  induction items generalizing t with
  | nil => simpa using h
  | cons i items ih =>
    obtain ⟨hf, hi, hw⟩ := ih (wellPrec_push i.1 i.2 h)
    refine ⟨?_, ?_, hw⟩
    · simpa using hf
    · simpa using hi

theorem first_build : (build prec x items).first = x := (foldl_push_spec items (wellPrec_leaf x)).1

theorem items_build : (build prec x items).items = items := (foldl_push_spec items (wellPrec_leaf x)).2.1

theorem wellPrec_build : (build prec x items).WellPrec prec := (foldl_push_spec items (wellPrec_leaf x)).2.2

variable {items}

end Fold

section Leaves

variable {Leaf' : Type}

theorem map_push (f : Leaf → Leaf') : (t.push prec op x).map f = (t.map f).push prec op (f x) := by
  induction t with
  | leaf y => rfl
  | node l o r ihl ihr =>
    by_cases h : prec o < prec op
    · rw [push_inner h, map, ihr, map, push_inner h]
    · rw [push_outer h]
      exact (push_outer h).symm

theorem map_foldl_push (f : Leaf → Leaf') (items : List (Op × Leaf)) :
    (items.foldl (fun t i => t.push prec i.1 i.2) t).map f =
      (items.map (fun i => (i.1, f i.2))).foldl (fun t i => t.push prec i.1 i.2) (t.map f) := by
  induction items generalizing t with
  | nil => rfl
  | cons i items ih => rw [List.foldl_cons, ih, map_push, List.map_cons, List.foldl_cons]

theorem map_build (f : Leaf → Leaf') (items : List (Op × Leaf)) :
    (build prec x items).map f = build prec (f x) (items.map (fun i => (i.1, f i.2))) :=
  map_foldl_push f items

theorem all_iff {P : Leaf → Prop} : t.All P ↔ P t.first ∧ ∀ i ∈ t.items, P i.2 := by
  induction t with
  | leaf y => simp [All, first, items]
  | node l o r ihl ihr =>
    simp only [All, first, items, ihl, ihr, List.forall_mem_append, List.forall_mem_cons, and_assoc,
      and_left_comm]

end Leaves

theorem le_lastOp (h : t.WellPrec prec) (hn : t.TopGe prec n) {prev : Option Op} (hp : ∀ o ∈ prev, n ≤ prec o) :
    ∀ o ∈ t.lastOp prev, n ≤ prec o := by
  induction t generalizing prev with
  | leaf y => exact hp
  | node l o r ihl ihr =>
    obtain ⟨-, hr, -, hro⟩ := h
    have hn : n ≤ prec o := hn
    apply ihr hr (topGe_mono hro (Nat.le_succ_of_le hn))
    intro o' ho'
    rwa [← Option.some.inj ho']

theorem exists_lastOp (t : Tree Op Leaf) (op : Op) : ∃ o, t.lastOp (some op) = some o := by
  induction t generalizing op with
  | leaf y => exact ⟨op, rfl⟩
  | node l o r ihl ihr => exact ihr o

end Precedence
