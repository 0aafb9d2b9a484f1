import Crack.Cont.HashTable
import Crack.Lib.TreeLinks

/-!
# TreeMap

The nodes are objects, known by their addresses, and each field of the nodes is a
map from the addresses. What is done to a left child in one function is done to a
right child in its mirror image, so the two are one function of a side; `left` and
`right` are the child links of a node. Recursion over the nodes takes the number
of nodes as its fuel.
-/
namespace Crack

open RedBlack (Side Links)

structure TreeMap (K V : Type) extends Links Nat where
  root : Option Nat
  count : Nat
  key : Nat → Option K
  val : Nat → Option V
  /-- The address of the next node that is created. -/
  fresh : Nat

/-- The result of an operation on `int`. -/
def int (n : Int) : Int := n.bmod (2 ^ 32)

def deref {α : Type} : Option α → Except Fault α
  | some a => .ok a
  | none => .error .nullDereference

namespace TreeMap

variable {K V : Type}

def init : TreeMap K V :=
  ⟨⟨fun _ => false, fun _ => none, fun _ => none⟩, none, 0, fun _ => none, fun _ => none, 0⟩

variable (m : TreeMap K V)

abbrev left (node : Nat) : Option Nat := m.child (.left, node)

abbrev right (node : Nat) : Option Nat := m.child (.right, node)

def setRed (node : Nat) (red : Bool) : TreeMap K V :=
  { m with red := Function.update m.red node red }

def setParentField (node : Nat) (parent : Option Nat) : TreeMap K V :=
  { m with parent := Function.update m.parent node parent }

def setChildField (side : Side) (node : Nat) (child : Option Nat) : TreeMap K V :=
  { m with child := Function.update m.child (side, node) child }

/-- `Node.oper init` -/
def newNode (key : K) (val : V) (red : Bool) : TreeMap K V × Nat :=
  ({ m with
      red := Function.update m.red m.fresh red
      parent := Function.update m.parent m.fresh none
      child := Function.update (Function.update m.child (.left, m.fresh) none) (.right, m.fresh) none
      key := Function.update m.key m.fresh (some key)
      val := Function.update m.val m.fresh (some val)
      fresh := m.fresh + 1 },
    m.fresh)

/-- A node that is red, rather than black or null. -/
def isRed : Option Nat → Bool
  | some node => m.red node
  | none => false

section

variable (cmp : K → K → Int)

/-- `-cmp(key, target)` for the key of a node -/
def diff (key target : K) : Int := int (-cmp key target)

/-- The side of a node where the target is looked for. -/
def sideOf (key target : K) : Side := if diff cmp key target > 0 then .right else .left

/-- `Node.find` -/
def findNode (target : K) : Nat → Nat → Except Fault (Option Nat)
  | 0, _ => .error .forever
  | fuel + 1, this => do
    let key ← deref (m.key this)
    if diff cmp key target = 0 then return some this
    else match m.child (sideOf cmp key target, this) with
      | some child => findNode target fuel child
      | none => return none

end

def grandparent (this : Nat) : Option Nat :=
  match m.parent this with
  | some parent => m.parent parent
  | none => none

def uncle (this : Nat) : Option Nat :=
  match m.grandparent this with
  | none => none
  | some g => if m.parent this = m.left g then m.right g else m.left g

/-- `__setLeft` and `__setRight` -/
def setChild (side : Side) (this : Nat) (node : Option Nat) : TreeMap K V :=
  let m := m.setChildField side this node
  match node with
  | some node => m.setParentField node (some this)
  | none => m

def setParent (this : Nat) (newParent : Option Nat) (isRightChild : Bool) : TreeMap K V :=
  match newParent with
  | some newParent => m.setChild (if isRightChild then .right else .left) newParent (some this)
  | none => m.setParentField this none

def getRoot : Nat → Nat → Except Fault Nat
  | 0, _ => .error .forever
  | fuel + 1, p =>
    match m.parent p with
    | some parent => getRoot fuel parent
    | none => return p

/-- The node moves down to `side`, and its child on the other side up. -/
def rotate (side : Side) (this : Nat) : Except Fault (TreeMap K V) := do
  let newParent ← deref (m.child (side.other, this))
  let orgParent := m.parent this
  let isRight := orgParent.any (fun parent => m.right parent = some this)
  let newChild := m.child (side, newParent)
  let m := m.setChild side newParent (some this)
  let m := m.setChild side.other this newChild
  return m.setParent newParent orgParent isRight

def rotateLeft (this : Nat) : Except Fault (TreeMap K V) := m.rotate .left this

def rotateRight (this : Nat) : Except Fault (TreeMap K V) := m.rotate .right this

/-- In `__rebalance`, an inner grandchild is rotated to the outside first: the
node and the grandparent to go on with. -/
def alignNode (this parent gramps : Nat) : Except Fault (TreeMap K V × Option Nat × Option Nat) := do
  if m.right parent = some this ∧ m.left gramps = some parent then
    let m ← m.rotateLeft parent
    return (m, m.left this, m.parent this)
  else if m.left parent = some this ∧ m.right gramps = some parent then
    let m ← m.rotateRight parent
    return (m, m.right this, m.parent this)
  else return (m, some this, some gramps)

/-- The end of `__rebalance`, for an outer grandchild. -/
def raiseParent (node gramps : Option Nat) : Except Fault (TreeMap K V) := do
  let node ← deref node
  let parent ← deref (m.parent node)
  let m := m.setRed parent false
  let gramps ← deref gramps
  let m := m.setRed gramps true
  if m.left parent = some node ∧ m.left gramps = some parent then m.rotateRight gramps
  else m.rotateLeft gramps

/-- `__rebalance` for a red node that has a red parent and a black uncle. -/
def rebalanceRotate (this parent gramps : Nat) : Except Fault (TreeMap K V) := do
  let (m, node, gramps) ← m.alignNode this parent gramps
  m.raiseParent node gramps

def rebalance : Nat → TreeMap K V → Nat → Except Fault (TreeMap K V)
  | 0, _, _ => .error .forever
  | fuel + 1, m, this =>
    match m.parent this with
    | none => return m.setRed this false
    | some parent =>
      if m.red parent = false then return m
      else match m.uncle this, m.grandparent this with
        | some uncle, some gramps =>
          if m.red uncle then
            rebalance fuel (((m.setRed parent false).setRed uncle false).setRed gramps true) gramps
          else m.rebalanceRotate this parent gramps
        | _, gramps => do m.rebalanceRotate this parent (← deref gramps)

/-- `Node.insert` -/
def insertNode (cmp : K → K → Int) : Nat → TreeMap K V → Nat → Nat → Except Fault (TreeMap K V)
  | 0, _, _, _ => .error .forever
  | fuel + 1, m, this, newNode => do
    let key ← deref (m.key this)
    let newKey ← deref (m.key newNode)
    if diff cmp key newKey = 0 then
      return { m with val := Function.update m.val this (m.val newNode) }
    else match m.child (sideOf cmp key newKey, this) with
      | none =>
        let m := m.setChildField (sideOf cmp key newKey) this (some newNode)
        rebalance m.fresh (m.setParentField newNode (some this)) newNode
      | some child => insertNode cmp fuel m child newNode

/-- The last node on a side, `findMax` and `findMin`. -/
def findLast (side : Side) : Nat → Nat → Except Fault Nat
  | 0, _ => .error .forever
  | fuel + 1, this =>
    match m.child (side, this) with
    | some child => findLast side fuel child
    | none => return this

def findMax (fuel this : Nat) : Except Fault Nat := m.findLast .right fuel this

def findMin (fuel this : Nat) : Except Fault Nat := m.findLast .left fuel this

def replaceMe (this : Nat) (child : Option Nat) : Except Fault (TreeMap K V) := do
  let parent ← deref (m.parent this)
  return m.setChild (if m.left parent = some this then .left else .right) parent child

def sibling (this : Nat) : Except Fault (Option Nat) := do
  let parent ← deref (m.parent this)
  return if m.left parent = some this then m.right parent else m.left parent

/-- The parent moves down in the place of the node. -/
def rotateToward (this parent : Nat) : Except Fault (TreeMap K V) :=
  if m.left parent = some this then m.rotateLeft parent else m.rotateRight parent

/-- Case 2 of `__rebalanceAfterDelete`: the sibling is red. -/
def raiseSibling (this sibling : Nat) : Except Fault (TreeMap K V × Nat) := do
  if m.red sibling then
    let parent ← deref (m.parent this)
    let m ← ((m.setRed parent true).setRed sibling false).rotateToward this parent
    return (m, ← deref (← m.sibling this))
  else return (m, sibling)

/-- Case 5 on one side: the red child on this side comes up in the place of the sibling. -/
def turn (side : Side) (sibling : Nat) : Except Fault (TreeMap K V × Nat) := do
  let m := m.setRed sibling true
  let m := m.setRed (← deref (m.child (side, sibling))) false
  let m ← m.rotate side.other sibling
  return (m, ← deref (m.parent sibling))

/-- Case 5: the inner child of the sibling is red and the outer one black. -/
def turnSibling (this sibling : Nat) : Except Fault (TreeMap K V × Nat) := do
  let parent ← deref (m.parent this)
  if m.isRed (m.left sibling) ∧ ¬ m.isRed (m.right sibling) ∧ m.left parent = some this then
    m.turn .left sibling
  else if m.isRed (m.right sibling) ∧ ¬ m.isRed (m.left sibling) ∧ m.right parent = some this then
    m.turn .right sibling
  else return (m, sibling)

/-- Case 6: the outer child of the sibling is red. -/
def rotateSibling (this sibling : Nat) : Except Fault (TreeMap K V) := do
  let parent ← deref (m.parent this)
  let m := m.setRed sibling (m.red parent)
  let m := m.setRed parent false
  if m.left parent = some this then
    let m := m.setRed (← deref (m.right sibling)) false
    m.rotateLeft parent
  else
    let m := m.setRed (← deref (m.left sibling)) false
    m.rotateRight parent

def rebalanceAfterDelete : Nat → TreeMap K V → Nat → Except Fault (TreeMap K V)
  | 0, _, _ => .error .forever
  | fuel + 1, m, this =>
    -- case 1
    if m.parent this = none then return m
    else do
      let sibling ← deref (← m.sibling this)
      let (m, sibling) ← m.raiseSibling this sibling
      let parent ← deref (m.parent this)
      let siblingAndChildrenBlack := ¬ m.isRed (m.left sibling) ∧ ¬ m.isRed (m.right sibling)
      -- case 3
      if ¬ m.red parent ∧ siblingAndChildrenBlack then
        rebalanceAfterDelete fuel (m.setRed sibling true) parent
      -- case 4
      else if siblingAndChildrenBlack then
        return (m.setRed sibling true).setRed parent false
      else
        let (m, sibling) ← m.turnSibling this sibling
        m.rotateSibling this sibling

def deleteElbowNode (this : Nat) : Except Fault (TreeMap K V × Except Exc Unit) := do
  let child := (m.left this).or (m.right this)
  if m.red this then
    return (← m.replaceMe this child, .ok ())
  else match child with
    | some child =>
      if m.red child then
        let m ← m.replaceMe this (some child)
        return (m.setRed child false, .ok ())
      else return (m, .error (.assertionError "child is supposed to be null!"))
    | none =>
      let m ← rebalanceAfterDelete m.fresh m this
      return (← m.replaceMe this none, .ok ())

/-- The node takes over the contents of another one. -/
def moveEntry (this node : Nat) : TreeMap K V :=
  { m with
    key := Function.update m.key this (m.key node)
    val := Function.update m.val this (m.val node) }

/-- The node that is taken out when a node is deleted, null if it is the root node and the only one. -/
def nodeToDelete (this : Nat) : Except Fault (Option Nat) :=
  match m.left this, m.right this with
  | some left, _ => some <$> m.findMax m.fresh left
  | none, some right => some <$> m.findMin m.fresh right
  | none, none => pure (if (m.parent this).isSome then some this else none)

/-- `Node.delete`: true if the node is the root node. -/
def deleteNode (this : Nat) : Except Fault (TreeMap K V × Except Exc Bool) := do
  match ← m.nodeToDelete this with
  | none => return (m, .ok true)
  | some node =>
    let m := if node ≠ this then m.moveEntry this node else m
    let (m, r) ← m.deleteElbowNode node
    return (m, r.map (fun _ => false))

def unhookParents : Nat → TreeMap K V → Nat → Except Fault (TreeMap K V)
  | 0, _, _ => .error .forever
  | fuel + 1, m, this => do
    let m := m.setParentField this none
    let m ← match m.left this with
      | some left => unhookParents fuel m left
      | none => pure m
    match m.right this with
    | some right => unhookParents fuel m right
    | none => return m

section

variable (cmp : K → K → Int)

/-- The node of the key, if the map has one. -/
def find (key : K) : Except Fault (Option Nat) :=
  match m.root with
  | some root => m.findNode cmp key m.fresh root
  | none => return none

/-- `oper []=` -/
def store (key : K) (val : V) : Except Fault (TreeMap K V) := do
  let m ← match m.root with
    | some root => do
      let (m, node) := m.newNode key val true
      let m ← m.insertNode cmp m.fresh root node
      pure { m with root := some (← m.getRoot m.fresh root) }
    | none =>
      let (m, node) := m.newNode key val false
      pure { m with root := some node }
  return { m with count := uint (m.count + 1) }

def getDefault (key : K) (defaultVal : V) : Except Fault V := do
  match ← m.find cmp key with
  | some node => deref (m.val node)
  | none => return defaultVal

/-- `get` with one argument; null is `none`. -/
def get (key : K) : Except Fault (Option V) := do
  match ← m.find cmp key with
  | some node => return some (← deref (m.val node))
  | none => return none

def hasKey (key : K) : Except Fault Bool := do
  return (← m.find cmp key).isSome

/-- `oper []` -/
def index (key : K) : Except Fault (Except Exc V) := do
  match ← m.find cmp key with
  | some node => return .ok (← deref (m.val node))
  | none => return .error (.keyError "Node not found in oper []")

def delete (key : K) : Except Fault (TreeMap K V × Except Exc Unit) := do
  match ← m.find cmp key with
  | none => return (m, .error (.keyError "node not found in RBTree.delete()"))
  | some node =>
    let root := m.root
    match ← m.deleteNode node with
    | (m, .error e) => return (m, .error e)
    | (m, .ok isRoot) =>
      let root ← if isRoot then pure none else some <$> m.getRoot m.fresh (← deref root)
      return ({ m with root, count := uint (m.count + 2 ^ 32 - 1) }, .ok ())

end

def clear : Except Fault (TreeMap K V) :=
  match m.root with
  | some root => do
    let m ← unhookParents m.fresh m root
    return { m with root := none, count := 0 }
  | none => return m

/-- `isTrue` is whether the count is positive. -/
def isTrue : Bool := m.count ≠ 0

/-- The node of a new `Iter`, which its `elem` returns. -/
def iterElem : Except Fault (Option Nat) := do
  match m.root with
  | some root => return some (← m.findMin m.fresh root)
  | none => return none

inductive Update (K V : Type) where
  /-- `oper []=` -/
  | store (key : K) (val : V)
  | delete (key : K)
  | clear
  deriving DecidableEq, Repr

def update (cmp : K → K → Int) (m : TreeMap K V) : Update K V → Except Fault (TreeMap K V × Except Exc Unit)
  | .store key val => do return (← m.store cmp key val, .ok ())
  | .delete key => m.delete cmp key
  | .clear => do return (← m.clear, .ok ())

def run (cmp : K → K → Int) (m : TreeMap K V) :
    List (Update K V) → Except Fault (TreeMap K V × List (Except Exc Unit))
  | [] => return (m, [])
  | u :: us => do
    let (m, r) ← update cmp m u
    let (m, rs) ← run cmp m us
    return (m, r :: rs)

end TreeMap

end Crack
