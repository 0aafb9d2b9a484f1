import Crack.Cont.HashTable
import Crack.Lib.Loops

/-!
# Array

A sequence backed by a low-level array. `null` is what a slot of a new low-level
array holds. An `int` is the pattern of its bits.
-/
namespace Crack

open Loops (loop)

structure ElemArray (α : Type) where
  rep : List α
  cap : Nat
  size : Nat
  deriving DecidableEq, Repr

section

variable {α : Type} (rep : List α)

/-- An index is an `int` there, so from `2 ^ 31` on it is negative. -/
def slot (i : Nat) : Except Fault α :=
  match rep[i]? with
  | some elem => if i < 2 ^ 31 then .ok elem else .error .wildIndex
  | none => .error .wildIndex

def setSlot (i : Nat) (elem : α) : Except Fault (List α) :=
  if i < 2 ^ 31 ∧ i < rep.length then .ok (rep.set i elem) else .error .wildIndex

end

namespace ElemArray

variable {α : Type} (null : α)

def init (initCapacity : BitVec 32) : ElemArray α :=
  ⟨List.replicate initCapacity.toNat null, initCapacity.toNat, 0⟩

def setItemText (size : Nat) (index : Int) : String :=
  "Index out of range in Array.oper []= (index = " ++ toString index ++ ", size = " ++ toString size ++ ")"

def getItemText (size index : Nat) : String :=
  "Index out of range in Array.oper [] (index = " ++ toString index ++ ", size = " ++ toString size ++ ")"

variable (m : ElemArray α)

/-- `__adjust` -/
def adjust (index : BitVec 32) : BitVec 32 :=
  if index.toInt < 0 then BitVec.ofNat 32 m.size + index else index

/-- `_fixIntIndex` -/
def fixIntIndex (index : BitVec 32) : Except Exc Nat :=
  if index.toInt < 0 then
    let i := (BitVec.ofNat 32 m.size + index).toNat
    if i ≥ m.size then .error (.indexError (setItemText m.size index.toInt)) else .ok i
  else .ok index.toNat

/-- `oper []=` -/
def setItem (index : BitVec 32) (elem : α) : Except Fault (ElemArray α × Except Exc α) := do
  match m.fixIntIndex index with
  | .error e => return (m, .error e)
  | .ok i =>
    if i ≥ m.size then return (m, .error (.indexError (setItemText m.size index.toInt)))
    else
      let _tmp ← slot m.rep i
      return ({ m with rep := ← setSlot m.rep i elem }, .ok elem)

/-- `oper []` -/
def getItem (index : BitVec 32) : Except Fault (Except Exc α) := do
  match m.fixIntIndex index with
  | .error e => return .error e
  | .ok i =>
    if i ≥ m.size then return .error (.indexError (getItemText m.size i))
    else return .ok (← slot m.rep i)

/-- The loop of `grow`: the first `n` entries go to the new array. -/
def copy (newRep : List α) (n : Nat) : Except Fault (List α) :=
  loop (fun newRep i => do setSlot newRep i (← slot m.rep i)) 0 n newRep

def grow (newCapacity : Nat) : Except Fault (ElemArray α × Except Exc Unit) := do
  if newCapacity < m.cap then
    return (m, .error (.invalidArgumentError "Array.grow() - decreasing capacity"))
  else
    let newCap := if newCapacity = 0 then 16 else newCapacity
    let newRep ← m.copy (List.replicate newCap null) m.size
    return ({ m with rep := newRep, cap := newCap }, .ok ())

/-- The room that `append` and `insert` make for one more. -/
def ensureRoom : Except Fault (ElemArray α × Except Exc Unit) :=
  if m.size = m.cap then m.grow null (uint (m.cap * 2)) else .ok (m, .ok ())

def append (elem : α) : Except Fault (ElemArray α × Except Exc Unit) := do
  match ← m.ensureRoom null with
  | (m, .error e) => return (m, .error e)
  | (m, .ok ()) => return ({ m with rep := ← setSlot m.rep m.size elem, size := uint (m.size + 1) }, .ok ())

def pop : Except Fault (ElemArray α × α) := do
  if m.size ≠ 0 then
    let result ← slot m.rep (m.size - 1)
    return ({ m with size := m.size - 1 }, result)
  else return (m, null)

/-- The loop of `delete` moves everything from `i` on down one. -/
def moveDown (size : Nat) : Nat → Nat → List α → Except Fault (List α)
  | 0, _, _ => .error .forever
  | n + 1, i, rep => do
    if i < uint (size + 2 ^ 32 - 1) then moveDown size n (uint (i + 1)) (← setSlot rep i (← slot rep (uint (i + 1))))
    else return rep

def delete (index : BitVec 32) : Except Fault (ElemArray α × Except Exc Unit) := do
  let index := (m.adjust index).toNat
  if index ≥ m.size then return (m, .error (.indexError "Index out of range in Array.delete()"))
  else
    let _elem ← slot m.rep index
    let rep ← moveDown m.size (m.size + 1) index m.rep
    return ({ m with rep, size := m.size - 1 }, .ok ())

/-- The loop of `insert` moves everything from `i` down to `index` up one. -/
def moveUp (index : Nat) : Nat → List α → Except Fault (List α)
  | 0, rep => return rep
  | i + 1, rep => do
    if i + 1 > index then moveUp index i (← setSlot rep (i + 1) (← slot rep i)) else return rep

def insert (index : BitVec 32) (elem : α) : Except Fault (ElemArray α × Except Exc Unit) := do
  let index := (m.adjust index).toNat
  if index > m.size then return (m, .error (.indexError "Index out of range in Array.insert()"))
  else
    match ← m.ensureRoom null with
    | (m, .error e) => return (m, .error e)
    | (m, .ok ()) =>
      let rep ← moveUp index m.size m.rep
      return ({ m with rep := ← setSlot rep index elem, size := uint (m.size + 1) }, .ok ())

/-- A round of the first loop of `filter`, with the size so far. -/
def filterStep (f : α → Bool) : List α × Nat → Nat → Except Fault (List α × Nat)
  | (rep, ns), i => do
    let elem ← slot rep i
    if f elem then return (← setSlot rep ns elem, uint (ns + 1)) else return (rep, ns)

def filter (f : α → Bool) : Except Fault (ElemArray α) := do
  let (rep, ns) ← loop (filterStep f) 0 m.size (m.rep, 0)
  let rep ← loop (fun rep nsi => setSlot rep nsi null) ns (m.size - ns) rep
  return { m with rep, size := ns }

def clear : Except Fault (ElemArray α) := do
  if m.size = 0 then return m
  else
    let rep ← loop (fun rep i => do
      let _elem ← slot rep i
      setSlot rep i null) 0 m.size m.rep
    return { m with rep, size := 0 }

inductive Update (α : Type) where
  | append (elem : α)
  | insert (index : BitVec 32) (elem : α)
  | delete (index : BitVec 32)
  | pop
  | filter (f : α → Bool)
  | setItem (index : BitVec 32) (elem : α)
  | getItem (index : BitVec 32)
  | clear

/-- An operation, with the element that it returns if it returns one. -/
def update (m : ElemArray α) : Update α → Except Fault (ElemArray α × Except Exc (Option α))
  | .append elem => do
    let (m, r) ← m.append null elem
    return (m, r.map fun _ => none)
  | .insert index elem => do
    let (m, r) ← m.insert null index elem
    return (m, r.map fun _ => none)
  | .delete index => do
    let (m, r) ← m.delete index
    return (m, r.map fun _ => none)
  | .pop => do
    let (m, elem) ← m.pop null
    return (m, .ok (some elem))
  | .filter f => do
    let m ← m.filter null f
    return (m, .ok none)
  | .setItem index elem => do
    let (m, r) ← m.setItem index elem
    return (m, r.map some)
  | .getItem index => do
    let r ← m.getItem index
    return (m, r.map some)
  | .clear => do
    let m ← m.clear null
    return (m, .ok none)

def run (m : ElemArray α) : List (Update α) → Except Fault (ElemArray α × List (Except Exc (Option α)))
  | [] => return (m, [])
  | u :: us => do
    let (m, r) ← update null m u
    let (m, rs) ← run m us
    return (m, r :: rs)

end ElemArray

end Crack
