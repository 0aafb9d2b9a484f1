import Crack.Cont.HashTable
import Crack.Lib.Linked

/-!
# List

The singly linked list. Its nodes are objects: each field is a map from the
addresses. A walk over more nodes than there are addresses goes around forever.
-/
namespace Crack

/-- `List`. -/
structure LinkedList (α : Type) where
  head : Option Nat
  tail : Option Nat
  count : Nat
  elem : Nat → Option α
  next : Nat → Option Nat
  /-- The address of the next node that is created. -/
  fresh : Nat

namespace LinkedList

variable {α : Type}

def init : LinkedList α := ⟨none, none, 0, fun _ => none, fun _ => none, 0⟩

variable (m : LinkedList α)

def setNext (node : Nat) (next : Option Nat) : LinkedList α := { m with next := Function.update m.next node next }

/-- `Node(elem)`; its address is `m.fresh`. -/
def newNode (elem : α) : LinkedList α :=
  { m with
    elem := Function.update m.elem m.fresh (some elem)
    next := Function.update m.next m.fresh none
    fresh := m.fresh + 1 }

def elemOf (node : Nat) : Except Fault α :=
  match m.elem node with
  | some elem => .ok elem
  | none => .error .nullDereference

def plusOne : LinkedList α := { m with count := uint (m.count + 1) }
def minusOne : LinkedList α := { m with count := uint (m.count + 2 ^ 32 - 1) }

section

variable {m}

@[simp] theorem setNext_count (node : Nat) (next : Option Nat) : (m.setNext node next).count = m.count := rfl
@[simp] theorem minusOne_head : m.minusOne.head = m.head := by cases m; rfl
@[simp] theorem minusOne_tail : m.minusOne.tail = m.tail := by cases m; rfl
@[simp] theorem minusOne_elem : m.minusOne.elem = m.elem := by cases m; rfl
@[simp] theorem minusOne_next : m.minusOne.next = m.next := by cases m; rfl
@[simp] theorem minusOne_fresh : m.minusOne.fresh = m.fresh := by cases m; rfl
@[simp] theorem minusOne_count : m.minusOne.count = uint (m.count + 2 ^ 32 - 1) := by cases m; rfl

end

/-- also `pushTail` -/
def append (elem : α) : LinkedList α :=
  let temp := m.fresh
  let m' := m.newNode elem
  match m.tail with
  | some tail => { m'.setNext tail (some temp) with tail := some temp }.plusOne
  | none => { m' with head := some temp, tail := some temp }.plusOne

def pushHead (elem : α) : LinkedList α :=
  let newNode := m.fresh
  let m' := m.newNode elem
  match m.head with
  | some head => { m'.setNext newNode (some head) with head := some newNode }.plusOne
  | none => { m' with head := some newNode, tail := some newNode }.plusOne

def popHead : Except Fault (LinkedList α × Except Exc α) := do
  match m.head with
  | none => return (m, .error (.invalidArgumentError "Attempting to pop from an empty list"))
  | some head =>
    let elem ← m.elemOf head
    let m' := if m.head = m.tail then { m with head := none, tail := none } else { m with head := m.next head }
    return (m'.minusOne, .ok elem)

/-- The loop of `popTail`, up to `cur` being the tail. -/
def findOld (tail : Nat) : Nat → Option Nat → Option Nat → Except Fault (Option Nat)
  | 0, _, _ => .error .forever
  | n + 1, old, cur =>
    if cur = some tail then .ok old
    else
      match cur with
      | none => .error .nullDereference
      | some node => findOld tail n cur (m.next node)

/-- also `pop` -/
def popTail : Except Fault (LinkedList α × Except Exc α) := do
  match m.tail with
  | none => return (m, .error (.invalidArgumentError "Attempting to pop from an empty list"))
  | some tail =>
    if m.head = m.tail then
      let elem ← m.elemOf tail
      return ({ m with head := none, tail := none }.minusOne, .ok elem)
    else
      match ← m.findOld tail (m.fresh + 1) m.head m.head with
      | none => .error .nullDereference
      | some old =>
        let elem ← m.elemOf tail
        return ({ m with tail := some old }.setNext old none |>.minusOne, .ok elem)

/-- The loop of `__findNode`. -/
def walk : Nat → Option Nat → Option Nat
  | 0, node => node
  | _, none => none
  | i + 1, some node => walk i (m.next node)

def findNode (index : Nat) : Except Exc Nat :=
  match m.walk index m.head with
  | some node => .ok node
  | none => .error (.assertionError "List is shorter than its count.")

/-- A new node behind `node`, as `insert` links it. -/
def linkAfter (node : Nat) (elem : α) : LinkedList α :=
  let newNode := m.fresh
  let m' := ((m.newNode elem).setNext newNode (m.next node)).setNext node (some newNode)
  if some node = m.tail then { m' with tail := some newNode } else m'

def insert (index : Nat) (elem : α) : LinkedList α × Except Exc Unit :=
  if index = 0 then (m.pushHead elem, .ok ())
  else
    match m.findNode (index - 1) with
    | .error e => (m, .error e)
    | .ok node => ((m.linkAfter node elem).plusOne, .ok ())

/-- The node behind `node`, as `delete` unlinks it. -/
def unlinkAfter (node found : Nat) : LinkedList α :=
  let m' := if m.next node = m.tail then { m with tail := some node } else m
  m'.setNext node (m.next found)

def delete (index : Nat) : Except Fault (LinkedList α × Except Exc Unit) := do
  match m.head, m.tail with
  | some head, some _ =>
    if index > m.count then return (m, .error (.indexError "List index out of range in delete()"))
    else if index > 0 then
      match m.findNode (index - 1) with
      | .error e => return (m, .error e)
      | .ok node =>
        match m.next node with
        | none => .error .nullDereference
        | some found => return ((m.unlinkAfter node found).minusOne, .ok ())
    else
      -- the tail stays, also when this was the only node
      return ({ m with head := m.next head }.minusOne, .ok ())
  | _, _ => return (m, .error (.assertionError "Cannot delete node from empty list"))

def clear : LinkedList α := { m with head := none, tail := none, count := 0 }

/-- `oper []` -/
def index (index : Nat) : Except Fault (Except Exc α) := do
  if index > m.count then return .error (.indexError "List index out of range in []")
  else
    match m.findNode index with
    | .error e => return .error e
    | .ok node => return .ok (← m.elemOf node)

/-- What `Iter` passes over from the node on. -/
def nodesFrom : Nat → Option Nat → Except Fault (List Nat)
  | _, none => return []
  | 0, some _ => .error .forever
  | n + 1, some node => return node :: (← nodesFrom n (m.next node))

def nodes : Except Fault (List Nat) := m.nodesFrom m.fresh m.head

section

variable [BEq α]

/-- The loop of `remove`: the node with the element, behind the node before it. -/
def findElem (elem : α) : Nat → Nat → Option Nat → Except Fault (Nat × Nat)
  | 0, _, _ => .error .forever
  | n + 1, onode, tnode => do
    match tnode with
    | none => .error .nullDereference
    | some tnode =>
      if (← m.elemOf tnode) == elem then .ok (onode, tnode)
      else findElem elem n tnode (m.next tnode)

/-- `isNull` is `_isNull` and `==` is `_equal` for the type of the elements. -/
def remove (isNull : α → Bool) (elem : α) : Except Fault (LinkedList α × Except Exc Unit) := do
  if isNull elem then return (m, .error (.invalidArgumentError "Invalid argument null for delete()"))
  else
    match m.head, m.tail with
    | some head, some _ =>
      if (← m.elemOf head) == elem then
        let (m, r) ← m.popHead
        return (m, r.map fun _ => ())
      else
        let (onode, tnode) ← m.findElem elem (m.fresh + 1) head (some head)
        let m' := m.setNext onode (m.next tnode)
        let m' := if some tnode = m.tail then { m' with tail := some onode } else m'
        return (m'.minusOne, .ok ())
    | _, _ => return (m, .error (.assertionError "Cannot delete element from empty list"))

end

inductive Update (α : Type) where
  | append (elem : α)
  | pushHead (elem : α)
  | popHead
  | popTail
  | insert (index : Nat) (elem : α)
  | delete (index : Nat)
  | remove (elem : α)
  | clear
  deriving DecidableEq, Repr

variable [BEq α]

/-- An operation, with the element that it gives, if any. -/
def update (isNull : α → Bool) (m : LinkedList α) : Update α → Except Fault (LinkedList α × Except Exc (Option α))
  | .append elem => return (m.append elem, .ok none)
  | .pushHead elem => return (m.pushHead elem, .ok none)
  | .popHead => do
    let (m, r) ← m.popHead
    return (m, r.map some)
  | .popTail => do
    let (m, r) ← m.popTail
    return (m, r.map some)
  | .insert index elem => return ((m.insert index elem).1, (m.insert index elem).2.map fun _ => none)
  | .delete index => do
    let (m, r) ← m.delete index
    return (m, r.map fun _ => none)
  | .remove elem => do
    let (m, r) ← m.remove isNull elem
    return (m, r.map fun _ => none)
  | .clear => return (m.clear, .ok none)

def run (isNull : α → Bool) (m : LinkedList α) :
    List (Update α) → Except Fault (LinkedList α × List (Except Exc (Option α)))
  | [] => return (m, [])
  | u :: us => do
    let (m, r) ← update isNull m u
    let (m, rs) ← run isNull m us
    return (m, r :: rs)

end LinkedList

end Crack
