import Crack.Algorithm.QuickSortRuns
import Crack.Lib.Heaps

/-!
# Heaps and heapsort

The functions work on any sequence that has `[]` and `[]=`. Positions are counted from
one; they are a `uintz`, and no sequence is long enough for twice one of them to wrap.
-/
namespace Crack

open Heaps (HeapFrom BrokenBelow Moves swapped)
open Fuel (Returns)

/-- How a call on a sequence comes to an end early. -/
inductive Abort where
  | fault (fault : Fault)
  | raised (exc : Exc)
  deriving DecidableEq, Repr

/-- A sequence, with what `[]` and `[]=` do at the positions that it has. -/
structure SeqT (σ α : Type) where
  get : σ → Nat → Except Abort α
  set : σ → Nat → α → Except Abort σ
  Holds : σ → List α → Prop
  get_ok : ∀ {s P i}, Holds s P → (hi : i < P.length) → get s i = .ok P[i]
  set_ok : ∀ {s P i} x, Holds s P → i < P.length → ∃ s', set s i x = .ok s' ∧ Holds s' (P.set i x)

namespace HeapBase

variable {σ α : Type} (seqT : SeqT σ α)

/-- `_swap` -/
def swap (seq : σ) (l r : Nat) : Except Abort σ := do
  let temp ← seqT.get seq (l - 1)
  let seq ← seqT.set seq (l - 1) (← seqT.get seq (r - 1))
  seqT.set seq (r - 1) temp

section

variable (cmp : α → α → Int)

/-- The loop of `isMaxHeap`, from `i` down. -/
def isMaxHeap (seq : σ) : Nat → Except Abort Bool
  | 0 | 1 => return true
  | i + 2 => do
    let parent := (i + 2) / 2
    if cmp (← seqT.get seq (parent - 1)) (← seqT.get seq (i + 1)) < 0 then return false else isMaxHeap seq (i + 1)

/-- The greater one of the largest so far and a child, if there is that child. -/
def larger (seq : σ) (count child largest : Nat) : Except Abort Nat := do
  if child ≤ count then
    if cmp (← seqT.get seq (child - 1)) (← seqT.get seq (largest - 1)) > 0 then return child else return largest
  else return largest

def maxHeapify (count : Nat) : Nat → σ → Nat → Except Abort σ
  | 0, _, _ => .error (.fault .forever)
  | fuel + 1, seq, i => do
    let l := i * 2
    let r := l + 1
    let largest ← larger seqT cmp seq count l i
    let largest ← larger seqT cmp seq count r largest
    if largest ≠ i then maxHeapify count fuel (← swap seqT seq i largest) largest else return seq

/-- The loop of `buildMaxHeap`, from `i` down. -/
def buildFrom (fuel count : Nat) : Nat → σ → Except Abort σ
  | 0, seq => return seq
  | i + 1, seq => do buildFrom fuel count i (← maxHeapify seqT cmp count fuel seq (i + 1))

def buildMaxHeap (fuel : Nat) (seq : σ) (count : Nat) : Except Abort σ :=
  buildFrom seqT cmp fuel count (count / 2) seq

/-- The loop of `_heapSort`, from `i` down. -/
def heapSortFrom (fuel : Nat) : Nat → Nat → σ → Except Abort σ
  | 0, _, seq | 1, _, seq => return seq
  | i + 2, heapSize, seq => do
    let seq ← swap seqT seq 1 (i + 2)
    let heapSize := heapSize - 1
    heapSortFrom fuel (i + 1) heapSize (← maxHeapify seqT cmp heapSize fuel seq 1)

/-- `_heapSort` -/
def heapSort (fuel : Nat) (seq : σ) (count : Nat) : Except Abort σ :=
  if count > 1 then heapSortFrom seqT cmp fuel count count seq else return seq

def sort (fuel : Nat) (seq : σ) (count : Nat) : Except Abort σ := do
  let seq ← if ← isMaxHeap seqT cmp seq count then pure seq else buildMaxHeap seqT cmp fuel seq count
  heapSort seqT cmp fuel seq count

end

variable {seqT} {s s' : σ} {P P' : List α} {v v' : Nat → α} {a b i k count fuel : Nat}

/-- The list as a function of positions. -/
def Entries (P : List α) (v : Nat → α) : Prop := ∀ i x, P[i]? = some x → v (i + 1) = x

theorem exists_entries (hP : P ≠ []) : ∃ v, Entries P v ∧ ∀ i, v i ∈ P := by
  refine ⟨fun i => P[i - 1]?.getD (P.head hP), ?_, ?_⟩
  · intro i x hx
    change P[i + 1 - 1]?.getD _ = x
    rw [Nat.add_sub_cancel, hx]
    rfl
  · intro i
    dsimp only
    cases hx : P[i - 1]? with
    | none => exact List.head_mem hP
    | some x => exact List.mem_of_getElem? hx

theorem Entries.getElem (hv : Entries P v) (hi : i < P.length) : P[i] = v (i + 1) :=
  (hv i _ (List.getElem?_eq_getElem hi)).symm

theorem Entries.get (hv : Entries P v) (h : seqT.Holds s P) (h0 : 0 < i) (hi : i ≤ P.length) :
    seqT.get s (i - 1) = .ok (v i) := by
  rw [seqT.get_ok h (by omega), hv.getElem (by omega), Nat.sub_add_cancel h0]

/-- The two entries are exchanged. -/
theorem Entries.exchange (hv : Entries P v) (ha : 0 < a) (haP : a ≤ P.length) (hb : 0 < b) (hbP : b ≤ P.length) :
    Entries ((P.set (a - 1) (v b)).set (b - 1) (v a)) (swapped v a b) ∧
      ((P.set (a - 1) (v b)).set (b - 1) (v a)).Perm P := by
  constructor
  · intro i x hx
    rw [List.getElem?_set, List.length_set] at hx
    by_cases hib : b = i + 1
    · rw [← hib, Heaps.swapped_right]
      rw [if_pos (by omega), if_pos (by omega)] at hx
      exact Option.some.inj hx
    · rw [if_neg (by omega), List.getElem?_set] at hx
      by_cases hia : a = i + 1
      · rw [← hia, Heaps.swapped_left]
        rw [if_pos (by omega), if_pos (by omega)] at hx
        exact Option.some.inj hx
      · rw [if_neg (by omega)] at hx
        rw [Heaps.swapped_other (fun hc => hia hc.symm) (fun hc => hib hc.symm)]
        exact hv i x hx
  · have hva := hv.getElem (i := a - 1) (by omega)
    have hvb := hv.getElem (i := b - 1) (by omega)
    rw [Nat.sub_add_cancel ha] at hva
    rw [Nat.sub_add_cancel hb] at hvb
    rw [← hva, ← hvb]
    exact List.set_set_perm _ _

theorem Entries.swap (hv : Entries P v) (h : seqT.Holds s P) (ha : 0 < a) (haP : a ≤ P.length) (hb : 0 < b)
    (hbP : b ≤ P.length) :
    ∃ s' P', swap seqT s a b = .ok s' ∧ seqT.Holds s' P' ∧ Entries P' (swapped v a b) ∧ P'.Perm P := by
  obtain ⟨s₁, hs₁, h₁⟩ := seqT.set_ok (i := a - 1) (v b) h (by omega)
  obtain ⟨s₂, hs₂, h₂⟩ := seqT.set_ok (i := b - 1) (v a) h₁ (by rw [List.length_set]; omega)
  refine ⟨s₂, _, ?_, h₂, hv.exchange ha haP hb hbP⟩
  simp only [HeapBase.swap, hv.get h ha haP, hv.get h hb hbP, hs₁, hs₂, bind, Except.bind]

end HeapBase

end Crack
