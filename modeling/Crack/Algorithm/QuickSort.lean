import Crack.Cont.HashTable
import Crack.Lib.Spans

/-!
# Quicksort

The sort with three partitions. A call may access the entries from `l` to `r`, and any
other access is a fault. Loops and the recursion take fuel.
-/
namespace Crack

open Spans (entry put)

namespace QuickSort

variable {α : Type}

section Access

variable (l r : Int) (s : Array α)

def get (i : Int) : Except Fault α :=
  if l ≤ i ∧ i ≤ r then
    match entry s i with
    | some x => .ok x
    | none => .error .wildIndex
  else .error .wildIndex

def set (i : Int) (x : α) : Except Fault (Array α) :=
  if l ≤ i ∧ i ≤ r ∧ (entry s i).isSome then .ok (put s i x) else .error .wildIndex

/-- `_swap` -/
def swap (i j : Int) : Except Fault (Array α) := do
  let temp ← get l r s i
  let s ← set l r s i (← get l r s j)
  set l r s j temp

end Access

/-- What the loop of the partition works on. -/
structure Parts (α : Type) where
  seq : Array α
  i : Int
  j : Int
  p : Int
  q : Int

section Calls

variable (cmp : α → α → Int) (l r : Int)

/-- The leftmost index after `i` that is not below the pivot. -/
def scanUp (s : Array α) (v : α) : Nat → Int → Except Fault Int
  | 0, _ => .error .forever
  | fuel + 1, i => do
    if cmp (← get l r s (i + 1)) v < 0 then scanUp s v fuel (i + 1) else return i + 1

/-- The rightmost index before `j` that is not above the pivot, or `l`. -/
def scanDown (s : Array α) (v : α) : Nat → Int → Except Fault Int
  | 0, _ => .error .forever
  | fuel + 1, j => do
    if cmp v (← get l r s (j - 1)) < 0 then
      if j - 1 = l then return j - 1 else scanDown s v fuel (j - 1)
    else return j - 1

/-- Move an entry that is equal to the pivot to the far left. -/
def migrateLeft (v : α) (t : Parts α) : Except Fault (Parts α) := do
  if cmp (← get l r t.seq t.i) v = 0 then
    return { t with p := t.p + 1, seq := ← swap l r t.seq (t.p + 1) t.i }
  else return t

def migrateRight (v : α) (t : Parts α) : Except Fault (Parts α) := do
  if cmp v (← get l r t.seq t.j) = 0 then
    return { t with q := t.q - 1, seq := ← swap l r t.seq t.j (t.q - 1) }
  else return t

def partitionLoop (v : α) : Nat → Parts α → Except Fault (Parts α)
  | 0, _ => .error .forever
  | fuel + 1, t => do
    let i ← scanUp cmp l r t.seq v fuel t.i
    let j ← scanDown cmp l r t.seq v fuel t.j
    if i ≥ j then return { t with i, j }
    else
      let seq ← swap l r t.seq i j
      let t ← migrateLeft cmp l r v { t with seq, i, j }
      let t ← migrateRight cmp l r v t
      partitionLoop v fuel t

/-- Move the entries from `k` up to `p`, and not `p` itself, next to the center. -/
def gatherLeft (p : Int) : Nat → Int → Int → Array α → Except Fault (Array α × Int)
  | 0, _, _, _ => .error .forever
  | fuel + 1, k, j, s => do
    if k < p then
      let s ← if k ≠ j then swap l r s k j else pure s
      gatherLeft p fuel (k + 1) (j - 1) s
    else return (s, j)

def gatherRight (q : Int) : Nat → Int → Int → Array α → Except Fault (Array α × Int)
  | 0, _, _, _ => .error .forever
  | fuel + 1, k, i, s => do
    if k > q then gatherRight q fuel (k - 1) (i + 1) (← swap l r s i k) else return (s, i)

/-- `_quickSort3` -/
def quickSort3 (fuel : Nat) (seq : Array α) (l r : Int) : Except Fault (Array α) :=
  match fuel with
  | 0 => .error .forever
  | fuel + 1 => do
    if r ≤ l then return seq
    else
      let v ← get l r seq r
      let t ← partitionLoop cmp l r v fuel { seq, i := l - 1, j := r, p := l - 1, q := r }
      let seq ← swap l r t.seq t.i r
      let (seq, j) ← gatherLeft l r t.p fuel l (t.i - 1) seq
      let (seq, i) ← gatherRight l r t.q fuel (r - 1) (t.i + 1) seq
      quickSort3 fuel (← quickSort3 fuel seq l j) i r

def sort (fuel : Nat) (seq : Array α) : Except Fault (Array α) :=
  if seq.size > 1 then quickSort3 cmp fuel seq 0 (seq.size - 1) else .ok seq

end Calls

end QuickSort

end Crack
