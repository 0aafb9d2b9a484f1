import Crack.Cont.HashTable
import Crack.Lib.Linked

/-!
# DList

The doubly linked list, with a map from the addresses for each field of its nodes.
An iterator is passed to an operation as the node that it refers to.
-/
namespace Crack

structure DList (α : Type) where
  head : Option Nat
  tail : Option Nat
  count : Nat
  elem : Nat → Option α
  next : Nat → Option Nat
  prev : Nat → Option Nat
  /-- The address of the next node that is created. -/
  fresh : Nat

namespace DList

variable {α : Type}

def init : DList α := ⟨none, none, 0, fun _ => none, fun _ => none, fun _ => none, 0⟩

variable (m : DList α)

def setNext (node : Nat) (next : Option Nat) : DList α := { m with next := Function.update m.next node next }
def setPrev (node : Nat) (prev : Option Nat) : DList α := { m with prev := Function.update m.prev node prev }

/-- `Node(elem, prev)`; its address is `m.fresh`. -/
def newNode (elem : α) (prev : Option Nat) : DList α :=
  { m with
    elem := Function.update m.elem m.fresh (some elem)
    next := Function.update m.next m.fresh none
    prev := Function.update m.prev m.fresh prev
    fresh := m.fresh + 1 }

def elemOf (node : Nat) : Except Fault α :=
  match m.elem node with
  | some elem => .ok elem
  | none => .error .nullDereference

def plusOne : DList α := { m with count := uint (m.count + 1) }
def minusOne : DList α := { m with count := uint (m.count + 2 ^ 32 - 1) }

section

variable {m}

@[simp] theorem minusOne_head : m.minusOne.head = m.head := by cases m; rfl
@[simp] theorem minusOne_tail : m.minusOne.tail = m.tail := by cases m; rfl
@[simp] theorem minusOne_elem : m.minusOne.elem = m.elem := by cases m; rfl
@[simp] theorem minusOne_next : m.minusOne.next = m.next := by cases m; rfl
@[simp] theorem minusOne_prev : m.minusOne.prev = m.prev := by cases m; rfl
@[simp] theorem minusOne_fresh : m.minusOne.fresh = m.fresh := by cases m; rfl
@[simp] theorem minusOne_count : m.minusOne.count = uint (m.count + 2 ^ 32 - 1) := by cases m; rfl

end

/-- `insert` at an iterator, which then refers to the new node. -/
def insertAt (ix : Option Nat) (elem : α) : Except Fault (DList α × Option Nat) :=
  match ix with
  | none => .error .nullDereference
  | some next =>
    let prev := m.prev next
    let new := m.fresh
    let m := (m.newNode elem prev).setNext new (some next)
    let m := match prev with
      | some prev => m.setNext prev (some new)
      | none => { m with head := some new }
    let m := m.setPrev next (some new)
    .ok (m.plusOne, some new)

/-- The parts of `delete` at an iterator that change the links. -/
def unlink (node : Nat) : DList α :=
  let m' := match m.next node with
    | some next => m.setPrev next (m.prev node)
    | none => { m with tail := m.prev node }
  match m'.prev node with
  | some prev => m'.setNext prev (m.next node)
  | none => { m' with head := m.next node }

/-- `delete` at an iterator, which then refers to the node after it. -/
def deleteAt (ix : Option Nat) : Except Fault (DList α × Option Nat) :=
  match ix with
  | none => .error .nullDereference
  | some node =>
    let m := m.unlink node
    .ok (m.minusOne, m.next node)

/-- also `pushTail` -/
def append (elem : α) : DList α :=
  let temp := m.fresh
  match m.tail with
  | some tail => { (m.newNode elem (some tail)).setNext tail (some temp) with tail := some temp }.plusOne
  | none => { m.newNode elem none with head := some temp, tail := some temp }.plusOne

def pushHead (elem : α) : DList α :=
  let newNode := m.fresh
  let m' := m.newNode elem none
  match m.head with
  | some head =>
    { ((m'.setNext newNode (some head)).setPrev head (some newNode)) with head := some newNode }.plusOne
  | none => { m' with head := some newNode, tail := some newNode }.plusOne

def popHead : Except Fault (DList α × Except Exc α) := do
  match m.head with
  | none => return (m, .error (.invalidArgumentError "Attempting to pop from an empty list"))
  | some head =>
    let elem ← m.elemOf head
    let m' := if m.head = m.tail then { m with head := none, tail := none } else { m with head := m.next head }
    let m' := match m'.head with
      | some head => m'.setPrev head none
      | none => m'
    return (m'.minusOne, .ok elem)

/-- also `pop` -/
def popTail : Except Fault (DList α × Except Exc α) := do
  match m.tail with
  | none => return (m, .error (.invalidArgumentError "Attempting to pop from an empty list"))
  | some node =>
    let elem ← m.elemOf node
    let m' := if m.tail = m.head then { m with tail := none, head := none } else { m with tail := m.prev node }
    let m' := match m'.tail with
      | some tail => m'.setNext tail none
      | none => { m' with head := none }
    return (m'.minusOne, .ok elem)

/-- The loop of `__findNode`. -/
def walk : Nat → Option Nat → Option Nat
  | 0, node => node
  | _, none => none
  | i + 1, some node => walk i (m.next node)

def findNode (index : Nat) : Except Exc Nat :=
  match m.walk index m.head with
  | some node => .ok node
  | none => .error (.assertionError "List is shorter than its count.")

/-- A new node behind `node`, as `insert` links it. -/
def linkAfter (node : Nat) (elem : α) : DList α :=
  let newNode := m.fresh
  let m' := (m.newNode elem (some node)).setNext newNode (m.next node)
  let m' := match m.next node with
    | some next => m'.setPrev next (some newNode)
    | none => m'
  let m' := m'.setNext node (some newNode)
  if some node = m.tail then { m' with tail := some newNode } else m'

def insert (index : Nat) (elem : α) : DList α × Except Exc Unit :=
  if index = 0 then (m.pushHead elem, .ok ())
  else
    match m.findNode (index - 1) with
    | .error e => (m, .error e)
    | .ok node => ((m.linkAfter node elem).plusOne, .ok ())

/-- The node behind `node`, as `delete` unlinks it. -/
def unlinkAfter (node found : Nat) : DList α :=
  let m' := if m.next node = m.tail then { m with tail := some node } else m
  let tmp := m.next found
  let m' := m'.setNext node tmp
  match tmp with
  | some tmp => m'.setPrev tmp (some node)
  | none => m'

/-- The first node, as `delete` unlinks it. -/
def unlinkHead (head : Nat) : DList α :=
  let tmp := m.next head
  let m' := if m.head = m.tail then { m with tail := tmp } else m
  let m' := { m' with head := tmp }
  match tmp with
  | some tmp => m'.setPrev tmp none
  | none => m'

def delete (index : Nat) : Except Fault (DList α × Except Exc Unit) :=
  if index > m.count then .ok (m, .error (.indexError "List index out of range in delete()"))
  else if index > 0 then
    match m.findNode (index - 1) with
    | .error e => .ok (m, .error e)
    | .ok node =>
      match m.next node with
      | none => .error .nullDereference
      | some found => .ok ((m.unlinkAfter node found).minusOne, .ok ())
  else
    match m.head with
    | none => .error .nullDereference
    | some head => .ok ((m.unlinkHead head).minusOne, .ok ())

/-- `oper []` -/
def index (index : Nat) : Except Fault (Except Exc α) := do
  if index > m.count then return .error (.indexError "List index out of range in []")
  else
    match m.findNode index with
    | .error e => return .error e
    | .ok node => return .ok (← m.elemOf node)

/-- The links of `remove`. -/
def unlinkFound (node : Nat) : DList α :=
  let next := m.next node
  let m' := match m.prev node with
    | some prev => m.setNext prev next
    | none => m
  let m' := match next with
    | some next => m'.setPrev next (m.prev node)
    | none => m'
  let m' := if some node = m.head then { m' with head := m'.next node } else m'
  if some node = m.tail then { m' with tail := m'.prev node } else m'

/-- The loop of `remove`: the node with the element. -/
def findElem [BEq α] (elem : α) : Nat → Option Nat → Except Fault (Option Nat)
  | _, none => .ok none
  | 0, some _ => .error .forever
  | n + 1, some node => do
    if (← m.elemOf node) == elem then return some node
    else findElem elem n (m.next node)

/-- `==` is `_equal` for the type of the elements. -/
def remove [BEq α] (elem : α) : Except Fault (DList α × Bool) := do
  match ← m.findElem elem m.fresh m.head with
  | none => return (m, false)
  | some node => return ((m.unlinkFound node).minusOne, true)

/-- `__breakRefCycles`, from a node on. -/
def breakRefCycles (m : DList α) : Nat → Option Nat → Except Fault (DList α)
  | _, none => .ok m
  | 0, some _ => .error .forever
  | n + 1, some node => breakRefCycles (m.setPrev node none) n (m.next node)

def clear : Except Fault (DList α) := do
  let m ← m.breakRefCycles m.fresh m.head
  return { m with head := none, tail := none, count := 0 }

/-- What `Iter` passes over from the node on. -/
def nodesFrom : Nat → Option Nat → Except Fault (List Nat)
  | _, none => return []
  | 0, some _ => .error .forever
  | n + 1, some node => return node :: (← nodesFrom n (m.next node))

def nodes : Except Fault (List Nat) := m.nodesFrom m.fresh m.head

inductive Update (α : Type) where
  | append (elem : α)
  | pushHead (elem : α)
  | popHead
  | popTail
  | insert (index : Nat) (elem : α)
  | delete (index : Nat)
  | remove (elem : α)
  | clear
  | insertAt (ix : Option Nat) (elem : α)
  | deleteAt (ix : Option Nat)
  deriving DecidableEq, Repr

/-- What an operation returns, or where it leaves the iterator. -/
inductive Reply (α : Type) where
  | done
  | elem (elem : α)
  | removed (found : Bool)
  | iter (ix : Option Nat)
  deriving DecidableEq, Repr

variable [BEq α]

def update (m : DList α) : Update α → Except Fault (DList α × Except Exc (Reply α))
  | .append elem => return (m.append elem, .ok .done)
  | .pushHead elem => return (m.pushHead elem, .ok .done)
  | .popHead => do
    let (m, r) ← m.popHead
    return (m, r.map .elem)
  | .popTail => do
    let (m, r) ← m.popTail
    return (m, r.map .elem)
  | .insert index elem => return ((m.insert index elem).1, (m.insert index elem).2.map fun _ => .done)
  | .delete index => do
    let (m, r) ← m.delete index
    return (m, r.map fun _ => .done)
  | .remove elem => do
    let (m, found) ← m.remove elem
    return (m, .ok (.removed found))
  | .clear => do
    let m ← m.clear
    return (m, .ok .done)
  | .insertAt ix elem => do
    let (m, ix) ← m.insertAt ix elem
    return (m, .ok (.iter ix))
  | .deleteAt ix => do
    let (m, ix) ← m.deleteAt ix
    return (m, .ok (.iter ix))

def run (m : DList α) : List (Update α) → Except Fault (DList α × List (Except Exc (Reply α)))
  | [] => return (m, [])
  | u :: us => do
    let (m, r) ← update m u
    let (m, rs) ← run m us
    return (m, r :: rs)

end DList

end Crack
