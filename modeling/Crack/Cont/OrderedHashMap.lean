import Crack.Cont.Storing

/-!
# OrderedHashMap

The items of the map are objects. A reference carries the fields that are never
assigned after construction; the others are maps from the addresses, one for
each field. `is` compares addresses.
-/
namespace Crack

/-- A reference to an item. -/
structure OrderedHashMap.Item (K : Type) where
  addr : Nat
  hash : Nat
  key : K
  deriving DecidableEq, Repr

structure OrderedHashMap (K V : Type) where
  size : Nat
  cap : Nat
  items : Nat → Option (OrderedHashMap.Item K)
  head : Option (OrderedHashMap.Item K)
  tail : Option (OrderedHashMap.Item K)
  val : Nat → Option V
  prev : Nat → Option (OrderedHashMap.Item K)
  next : Nat → Option (OrderedHashMap.Item K)
  /-- The address of the next item that is created. -/
  fresh : Nat

namespace OrderedHashMap

variable {K V : Type}

def view : ItemView (Item K) K := ⟨Item.hash, Item.key⟩

/-- Whether two references, possibly null, are the same. -/
def same (a b : Option (Item K)) : Bool := a.map Item.addr == b.map Item.addr

def init : OrderedHashMap K V :=
  ⟨0, 16, fun _ => none, none, none, fun _ => none, fun _ => none, fun _ => none, 0⟩

variable (m : OrderedHashMap K V)

def setVal (item : Item K) (val : V) : OrderedHashMap K V :=
  { m with val := Function.update m.val item.addr (some val) }

def setPrev (item : Item K) (prev : Option (Item K)) : OrderedHashMap K V :=
  { m with prev := Function.update m.prev item.addr prev }

def setNext (item : Item K) (next : Option (Item K)) : OrderedHashMap K V :=
  { m with next := Function.update m.next item.addr next }

/-- `Item.oper init` -/
def newItem (hash : Nat) (key : K) (val : V) (prev : Option (Item K)) : OrderedHashMap K V × Item K :=
  ({ m with
      val := Function.update m.val m.fresh (some val)
      prev := Function.update m.prev m.fresh prev
      next := Function.update m.next m.fresh none
      fresh := m.fresh + 1 },
    ⟨m.fresh, hash, key⟩)

def valOf (item : Item K) : Except Fault V :=
  match m.val item.addr with
  | some val => .ok val
  | none => .error .nullDereference

/-- The released items keep their fields, but nothing of the map refers to them. -/
def clear (newcap : Nat) : OrderedHashMap K V :=
  { m with head := none, tail := none, items := fun _ => none, cap := newcap, size := 0 }

/-- A new item at the back, as `append` links it. -/
def linkTail (hash : Nat) (key : K) (value : V) : OrderedHashMap K V × Item K :=
  match m.tail with
  | some tail =>
    let (m, temp) := m.newItem hash key value (some tail)
    ({ m.setNext tail (some temp) with tail := some temp }, temp)
  | none =>
    let (m, temp) := m.newItem hash key value none
    ({ m with head := some temp, tail := some temp }, temp)

/-- A new item at the front, as `pushHead` links it. -/
def linkHead (hash : Nat) (key : K) (value : V) : OrderedHashMap K V × Item K :=
  let (m, temp) := m.newItem hash key value none
  match m.head with
  | some head => ({ (m.setNext temp (some head)).setPrev head (some temp) with head := some temp }, temp)
  | none => ({ m with head := some temp, tail := some temp }, temp)

/-- A new item behind `item`, as `insert` links it. -/
def linkAfter (item : Item K) (hash : Nat) (key : K) (value : V) : OrderedHashMap K V × Item K :=
  let after := m.next item.addr
  let (m, newItem) := m.newItem hash key value (some item)
  let m := m.setNext newItem after
  let m := match after with
    | some after => m.setPrev after (some newItem)
    | none => m
  let m := m.setNext item (some newItem)
  (if same (some item) m.tail then { m with tail := some newItem } else m, newItem)

def unlinkHead (item : Item K) : OrderedHashMap K V :=
  let m := if same m.head m.tail then { m with head := none, tail := none }
    else { m with head := m.next item.addr }
  match m.head with
  | some head => m.setPrev head none
  | none => m

def unlinkTail (item : Item K) : OrderedHashMap K V :=
  let m := { m with tail := m.prev item.addr }
  match m.tail with
  | some tail => m.setNext tail none
  | none => { m with head := none }

/-- The item between `prev` and `next`, as `deleteKey` unlinks it. -/
def unlinkBetween (prev next : Item K) : OrderedHashMap K V :=
  (m.setNext prev (some next)).setPrev next (some prev)

/-- `found`, which comes after `item`, as `delete` unlinks it. -/
def unlinkAfter (item found : Item K) : OrderedHashMap K V :=
  let m := if same (some found) m.tail then { m with tail := some item } else m
  let tmp := m.next found.addr
  let m := m.setNext item tmp
  match tmp with
  | some tmp => m.setPrev tmp (some item)
  | none => m

section

variable [BEq K] (makeHashVal : K → Nat)

def findSlot (hash : Nat) (key : K) : Except Fault Nat := Crack.findSlot view m.cap m.items hash key

def setItemNew (slot : Nat) (item : Item K) : Except Fault (OrderedHashMap K V × Except Exc Unit) := do
  match ← makeRoom view m.cap m.size m.items item.hash item.key slot with
  | .error e => return (m, .error e)
  | .ok (cap, items, slot) =>
    return ({ m with cap, items := Function.update items slot (some item), size := uint (m.size + 1) }, .ok ())

def append (key : K) (value : V) : Except Fault (OrderedHashMap K V × Except Exc V) := do
  let hash := makeHashVal key
  let i ← findSlot m hash key
  match ← slotItem m.items i with
  | none =>
    let (m, temp) := m.linkTail hash key value
    let (m, r) ← setItemNew m i temp
    return (m, r.map (fun _ => value))
  | some temp => return (m.setVal temp value, .ok value)

/-- `oper []` -/
def index [ToString K] (key : K) : Except Fault (Except Exc V) := do
  let i ← findSlot m (makeHashVal key) key
  match ← slotItem m.items i with
  | some item => return .ok (← m.valOf item)
  | none => return .error (.keyError ("Unknown key: " ++ toString key))

def getItem (key : K) : Except Fault (Option (Item K)) := do
  let i ← findSlot m (makeHashVal key) key
  slotItem m.items i

def deleteHash [ToString K] (key : K) : Except Fault (OrderedHashMap K V × Except Exc Unit) := do
  let i ← findSlot m (makeHashVal key) key
  match ← slotItem m.items i with
  | some _ =>
    let items ← findNewOccupant view m.cap (Function.update m.items i none) i
    return ({ m with items, size := uint (m.size + 2 ^ 32 - 1) }, .ok ())
  | none => return (m, .error (.keyError ("Unknown key: " ++ toString key)))

def pushHead [ToString K] (key : K) (value : V) : Except Fault (OrderedHashMap K V × Except Exc V) := do
  let hash := makeHashVal key
  let i ← findSlot m hash key
  match ← slotItem m.items i with
  | none =>
    let (m, temp) := m.linkHead hash key value
    let (m, r) ← setItemNew m i temp
    return (m, r.map (fun _ => value))
  | some temp =>
    if (m.prev temp.addr).isNone then return (m.setVal temp value, .ok value)
    else return (m, .error (.keyError ("Key " ++ toString key ++ " already assigned in a position not at the head")))

def popHead [ToString K] : Except Fault (OrderedHashMap K V × Except Exc (Item K)) := do
  match m.head with
  | none => return (m, .error (.invalidArgumentError "Attempting to pop from an empty list"))
  | some item =>
    let m := m.unlinkHead item
    let (m, r) ← deleteHash m makeHashVal item.key
    return (m, r.map (fun _ => item))

def popTail [ToString K] : Except Fault (OrderedHashMap K V × Except Exc (Item K)) := do
  match m.tail with
  | none => return (m, .error (.invalidArgumentError "Attempting to pop from an empty list"))
  | some item =>
    let m := m.unlinkTail item
    let (m, r) ← deleteHash m makeHashVal item.key
    return (m, r.map (fun _ => item))

/-- The loop of `__findItem`: `index` steps along the list, as far as it goes. -/
def walk : Nat → Option (Item K) → Option (Item K)
  | 0, item => item
  | _, none => none
  | index + 1, some item => walk index (m.next item.addr)

def findItem (index : Nat) : Except Exc (Item K) :=
  if index ≥ m.size then .error (.indexError "List index out of range in delete()")
  else match m.walk index m.head with
    | some item => .ok item
    | none => .error (.assertionError "List is shorter than its count.")

def insert [ToString K] (index : Nat) (key : K) (value : V) : Except Fault (OrderedHashMap K V × Except Exc Unit) := do
  if index = 0 then
    let (m, r) ← pushHead m makeHashVal key value
    return (m, r.map (fun _ => ()))
  else if index > m.size then
    return (m, .error (.indexError "Index out of range in insert()"))
  else match m.findItem (index - 1) with
    | .error e => return (m, .error e)
    | .ok item =>
      let hash := makeHashVal key
      let i ← findSlot m hash key
      let temp ← slotItem m.items i
      -- the same key is already at the same index
      if same (m.next item.addr) temp then
        match temp with
        | some temp => return (m.setVal temp value, .ok ())
        | none => .error .nullDereference
      else match temp with
        | some _ =>
          return (m, .error (.indexError ("Key " ++ toString key ++ " already exists at a different index")))
        | none =>
          let (m, newItem) := m.linkAfter item hash key value
          setItemNew m i newItem

def deleteKey [ToString K] (key : K) : Except Fault (OrderedHashMap K V × Except Exc Unit) := do
  let i ← findSlot m (makeHashVal key) key
  match ← slotItem m.items i with
  | some item =>
    if same (some item) m.tail then
      let (m, r) ← popTail m makeHashVal
      return (m, r.map (fun _ => ()))
    else if same (some item) m.head then
      let (m, r) ← popHead m makeHashVal
      return (m, r.map (fun _ => ()))
    else match m.prev item.addr, m.next item.addr with
      | some prev, some next =>
        deleteHash (m.unlinkBetween prev next) makeHashVal item.key
      | _, _ => .error .nullDereference
  | none => return (m, .error (.keyError ("Invalid key: " ++ toString key)))

def delete [ToString K] (index : Nat) : Except Fault (OrderedHashMap K V × Except Exc Unit) := do
  if index > 0 then
    if index > m.size then
      return (m, .error (.indexError "Index out of range in delete()"))
    else match m.findItem (index - 1) with
      | .error e => return (m, .error e)
      | .ok item =>
        match m.next item.addr with
        | none => .error .nullDereference
        | some found => deleteHash (m.unlinkAfter item found) makeHashVal found.key
  else match m.head with
    | none => return (m, .error (.indexError "Index out of range in delete()"))
    | some _ =>
      let (m, r) ← popHead m makeHashVal
      return (m, r.map (fun _ => ()))

end

/-- Only the list differs. -/
structure SameTable (m m' : OrderedHashMap K V) : Prop where
  cap : m'.cap = m.cap
  size : m'.size = m.size
  items : m'.items = m.items

theorem SameTable.sound {m m' : OrderedHashMap K V} (h : SameTable m m') (hs : Sound view m.cap m.size m.items) :
    Sound view m'.cap m'.size m'.items := by
  rw [h.cap, h.size, h.items]; exact hs

section

variable {m} {item found prev next : Item K} {hash : Nat} {key : K} {value : V}

theorem linkTail_table : SameTable m (m.linkTail hash key value).1 := by
  unfold linkTail; cases m.tail <;> exact ⟨rfl, rfl, rfl⟩

theorem linkHead_table : SameTable m (m.linkHead hash key value).1 := by
  unfold linkHead newItem; cases m.head <;> exact ⟨rfl, rfl, rfl⟩

theorem linkAfter_table : SameTable m (m.linkAfter item hash key value).1 := by
  unfold linkAfter; cases m.next item.addr <;> (dsimp only; split) <;> exact ⟨rfl, rfl, rfl⟩

theorem unlinkHead_table : SameTable m (m.unlinkHead item) := by
  unfold unlinkHead; dsimp only; split <;> split <;> exact ⟨rfl, rfl, rfl⟩

theorem unlinkTail_table : SameTable m (m.unlinkTail item) := by
  unfold unlinkTail; dsimp only; split <;> exact ⟨rfl, rfl, rfl⟩

theorem unlinkBetween_table : SameTable m (m.unlinkBetween prev next) := ⟨rfl, rfl, rfl⟩

theorem unlinkAfter_table : SameTable m (m.unlinkAfter item found) := by
  unfold unlinkAfter; dsimp only; split <;> split <;> exact ⟨rfl, rfl, rfl⟩

@[simp] theorem linkTail_item : (m.linkTail hash key value).2 = ⟨m.fresh, hash, key⟩ := by
  unfold linkTail; cases m.tail <;> rfl

@[simp] theorem linkHead_item : (m.linkHead hash key value).2 = ⟨m.fresh, hash, key⟩ := by
  unfold linkHead newItem; cases m.head <;> rfl

@[simp] theorem linkAfter_item : (m.linkAfter item hash key value).2 = ⟨m.fresh, hash, key⟩ := rfl

end

section

variable [BEq K] {makeHashVal : K → Nat} {m} {key : K} {value : V} {i : Nat}
  (he : findSlot m (makeHashVal key) key = .ok i)

include he

variable {temp : Item K}

theorem append_present (hs : slotItem m.items i = .ok (some temp)) :
    append m makeHashVal key value = .ok (m.setVal temp value, .ok value) := by
  simp only [append, he, hs, bind, Except.bind, pure, Except.pure]

theorem append_absent (hs : slotItem m.items i = .ok none) :
    append m makeHashVal key value = (do
      let (m, r) ← setItemNew (m.linkTail (makeHashVal key) key value).1 i ⟨m.fresh, makeHashVal key, key⟩
      return (m, r.map (fun _ => value))) := by
  simp only [append, he, hs, bind, Except.bind, pure, Except.pure, linkTail_item]

variable [ToString K] {index : Nat}

theorem pushHead_present (hs : slotItem m.items i = .ok (some temp)) :
    pushHead m makeHashVal key value = .ok (if (m.prev temp.addr).isNone then (m.setVal temp value, .ok value)
      else (m, .error (.keyError ("Key " ++ toString key ++ " already assigned in a position not at the head")))) := by
  simp only [pushHead, he, hs, bind, Except.bind, pure, Except.pure]
  split <;> rfl

theorem pushHead_absent (hs : slotItem m.items i = .ok none) :
    pushHead m makeHashVal key value = (do
      let (m, r) ← setItemNew (m.linkHead (makeHashVal key) key value).1 i ⟨m.fresh, makeHashVal key, key⟩
      return (m, r.map (fun _ => value))) := by
  simp only [pushHead, he, hs, bind, Except.bind, pure, Except.pure, linkHead_item]

theorem insert_present (h0 : index ≠ 0) (hi : index ≤ m.size) {item : Item K}
    (hf : m.findItem (index - 1) = .ok item) (hs : slotItem m.items i = .ok (some temp)) :
    insert m makeHashVal index key value = .ok (if same (m.next item.addr) (some temp)
      then (m.setVal temp value, .ok ())
      else (m, .error (.indexError ("Key " ++ toString key ++ " already exists at a different index")))) := by
  simp only [insert, if_neg h0, if_neg (Nat.not_lt.mpr hi), hf, he, hs, bind, Except.bind, pure, Except.pure]
  split <;> rfl

theorem insert_absent (h0 : index ≠ 0) (hi : index ≤ m.size) {item : Item K}
    (hf : m.findItem (index - 1) = .ok item) (hs : slotItem m.items i = .ok none) :
    insert m makeHashVal index key value =
      if same (m.next item.addr) none then .error .nullDereference
      else setItemNew (m.linkAfter item (makeHashVal key) key value).1 i ⟨m.fresh, makeHashVal key, key⟩ := by
  simp only [insert, if_neg h0, if_neg (Nat.not_lt.mpr hi), hf, he, hs, bind, Except.bind, linkAfter_item]

end

def count : Nat := m.size

/-- What `Iter` passes over from the item on; a list longer than the addresses is circular. -/
def elemsFrom : Nat → Option (Item K) → Except Fault (List (Item K))
  | _, none => return []
  | 0, some _ => .error .forever
  | n + 1, some item => return item :: (← elemsFrom n (m.next item.addr))

def elems : Except Fault (List (Item K)) := m.elemsFrom m.fresh m.head

inductive Update (K V : Type) where
  /-- also `set`, `oper []=` and `pushTail` -/
  | append (key : K) (value : V)
  | pushHead (key : K) (value : V)
  | insert (index : Nat) (key : K) (value : V)
  | popHead
  | popTail
  | deleteKey (key : K)
  | delete (index : Nat)
  deriving DecidableEq, Repr

section

variable [BEq K] [ToString K]

/-- An operation, with the key of the item that it gives, if any. -/
def update (makeHashVal : K → Nat) (m : OrderedHashMap K V) : Update K V → Except Fault (OrderedHashMap K V × Except Exc (Option K))
  | .append key value => do
    let (m, r) ← append m makeHashVal key value
    return (m, r.map (fun _ => none))
  | .pushHead key value => do
    let (m, r) ← pushHead m makeHashVal key value
    return (m, r.map (fun _ => none))
  | .insert index key value => do
    let (m, r) ← insert m makeHashVal index key value
    return (m, r.map (fun _ => none))
  | .popHead => do
    let (m, r) ← popHead m makeHashVal
    return (m, r.map (fun item => some item.key))
  | .popTail => do
    let (m, r) ← popTail m makeHashVal
    return (m, r.map (fun item => some item.key))
  | .deleteKey key => do
    let (m, r) ← deleteKey m makeHashVal key
    return (m, r.map (fun _ => none))
  | .delete index => do
    let (m, r) ← delete m makeHashVal index
    return (m, r.map (fun _ => none))

def run (makeHashVal : K → Nat) (m : OrderedHashMap K V) :
    List (Update K V) → Except Fault (OrderedHashMap K V × List (Except Exc (Option K)))
  | [] => return (m, [])
  | u :: us => do
    let (m, r) ← update makeHashVal m u
    let (m, rs) ← run makeHashVal m us
    return (m, r :: rs)

end

end OrderedHashMap

end Crack
