import Crack.Cont.Storing

/-!
# HashMap

The operations of `HashMap`. Throwing an exception is a result; a fault ends the program.
-/
namespace Crack

open Probing (live)

structure HashMap.Item (K V : Type) where
  hash : Nat
  key : K
  val : V
  deriving DecidableEq, Repr

structure HashMap (K V : Type) where
  items : Nat → Option (HashMap.Item K V)
  size : Nat
  cap : Nat

namespace HashMap

variable {K V : Type}

def view : ItemView (Item K V) K := ⟨Item.hash, Item.key⟩

/-- A new map. -/
def init : HashMap K V := ⟨fun _ => none, 0, 16⟩

def clear (_ : HashMap K V) (newcap : Nat) : HashMap K V := ⟨fun _ => none, 0, newcap⟩

def unknownKey [ToString K] (key : K) : Exc := .keyError ("Unknown key: " ++ toString key)

section

variable [BEq K] (makeHashVal : K → Nat) (m : HashMap K V)

def findSlot (key : K) : Except Fault Nat := Crack.findSlot view m.cap m.items (makeHashVal key) key

def set (key : K) (val : V) : Except Fault (HashMap K V × Except Exc V) := do
  let i ← findSlot makeHashVal m key
  match ← slotItem m.items i with
  | some item => return ({ m with items := Function.update m.items i (some { item with val }) }, .ok val)
  | none =>
    match ← makeRoom view m.cap m.size m.items (makeHashVal key) key i with
    | .error e => return (m, .error e)
    | .ok (cap, items, i) =>
      return (⟨Function.update items i (some ⟨makeHashVal key, key, val⟩), uint (m.size + 1), cap⟩, .ok val)

def hasKey (key : K) : Except Fault Bool := do
  if m.size = 0 then return false
  let i ← findSlot makeHashVal m key
  return (← slotItem m.items i).isSome

/-- `oper []` -/
def index [ToString K] (key : K) : Except Fault (Except Exc V) := do
  let i ← findSlot makeHashVal m key
  match ← slotItem m.items i with
  | some item => return .ok item.val
  | none => return .error (unknownKey key)

def get (key : K) : Except Fault (Option V) := do
  let i ← findSlot makeHashVal m key
  return (← slotItem m.items i).map Item.val

def getDefault (key : K) (dflt : V) : Except Fault V := do
  let i ← findSlot makeHashVal m key
  match ← slotItem m.items i with
  | some item => return item.val
  | none => return dflt

def delete [ToString K] (key : K) : Except Fault (HashMap K V × Except Exc Unit) := do
  let i ← findSlot makeHashVal m key
  match ← slotItem m.items i with
  | some _ =>
    let items ← findNewOccupant view m.cap (Function.update m.items i none) i
    return (⟨items, uint (m.size + 2 ^ 32 - 1), m.cap⟩, .ok ())
  | none => return (m, .error (unknownKey key))

end

def count (m : HashMap K V) : Nat := m.size

def isTrue (m : HashMap K V) : Bool := m.size ≠ 0

/-- The loop of `Iter.next`, from the slot that `++__index` reaches first. -/
def advance (m : HashMap K V) : Nat → Nat → Except Fault Nat
  | 0, _ => .error .forever
  | n + 1, i =>
    if i < m.cap then do
      match ← slotItem m.items i with
      | some _ => return i
      | none => advance m n (i + 1)
    else return i

/-- What a `for` loop over the map sees, with the iterator at slot `i`. -/
def elemsFrom (m : HashMap K V) : Nat → Nat → Except Fault (List (Item K V))
  | 0, _ => .error .forever
  | n + 1, i =>
    if i < m.cap then do
      match ← slotItem m.items i with
      | some item =>
        let rest ← elemsFrom m n (← advance m (m.cap + 1) (i + 1))
        return item :: rest
      | none => .error .nullDereference
    else return []

def elems (m : HashMap K V) : Except Fault (List (Item K V)) := do
  elemsFrom m (m.cap + 1) (← advance m (m.cap + 1) 0)

inductive Update (K V : Type) where
  | set (key : K) (val : V)
  | delete (key : K)
  deriving DecidableEq, Repr

section

variable [BEq K] [ToString K] (makeHashVal : K → Nat)

/-- An operation, and the value or exception it gives. -/
def update (m : HashMap K V) : Update K V → Except Fault (HashMap K V × Except Exc (Option V))
  | .set key val => do
    let (m, r) ← set makeHashVal m key val
    return (m, r.map some)
  | .delete key => do
    let (m, r) ← delete makeHashVal m key
    return (m, r.map (fun _ => none))

def run (m : HashMap K V) : List (Update K V) → Except Fault (HashMap K V × List (Except Exc (Option V)))
  | [] => return (m, [])
  | u :: us => do
    let (m, r) ← update makeHashVal m u
    let (m, rs) ← run m us
    return (m, r :: rs)

end

end HashMap

end Crack
