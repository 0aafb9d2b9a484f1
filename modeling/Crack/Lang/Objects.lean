import Crack.Lang.Builtins
import Mathlib.Algebra.Group.End
import Mathlib.Algebra.Order.Ring.Int
import Mathlib.Data.Fintype.EquivFin
import Mathlib.Data.Int.Order.Basic
import Mathlib.Data.Sign.Basic
import Mathlib.Tactic.Common

/-!
# Comparison and hashing of objects

An object is its address and what it holds, to any depth. A plain object is compared and
hashed by its address, a buffer by its bytes. A List, a DList or an Array, of references or
of values of a built-in type, is compared with its own kind element by element; only the
Array overrides `makeHashVal`. The loops that count in an `int` make no round where the size
is no positive one.
-/
namespace Crack

/-- Where an object lies. -/
@[ext] structure Addr where
  uintz : BitVec 64
  nonnull : uintz ≠ 0
  deriving DecidableEq

/-- The generic classes of sequences. -/
inductive SeqKind where
  | list
  | dlist
  | array
  deriving DecidableEq, Repr

/-- An instance of a generic, by the name of the element class. -/
structure SeqClass where
  generic : SeqKind
  elem : String
  deriving DecidableEq, Repr

/-- A reference to an object, or null. -/
inductive Ref where
  | null
  | object (addr : Addr)
  | buffer (addr : Addr) (bytes : List UInt8)
  | seq (addr : Addr) (cls : SeqClass) (elems : List Ref)
  | values (addr : Addr) (generic : SeqKind) (t : Builtin) (elems : List (BitVec t.width))

namespace Ref

/-- The conversion of a reference to a number. -/
def uintz : Ref → BitVec 64
  | .null => 0
  | .object addr | .buffer addr _ | .seq addr _ _ | .values addr _ _ _ => addr.uintz

/-- `Object.cmp` -/
def objectCmp (this other : Ref) : Int :=
  if this.uintz = other.uintz then 0 else if this.uintz > other.uintz then 1 else -1

def memcmp : (s1 s2 : List UInt8) → (n : Nat) → Int
  | c1 :: s1, c2 :: s2, n + 1 => if c1 = c2 then memcmp s1 s2 n else c1.toNat - c2.toNat
  | _, _, _ => 0

/-- The comparison of one buffer with another in `Buffer.cmp`. -/
def contentCmp (buffer osBuffer : List UInt8) : Int :=
  let size := buffer.length
  let osSize := osBuffer.length
  if size = osSize then memcmp buffer osBuffer size
  else if size > osSize then
    let rc := memcmp buffer osBuffer osSize
    if rc = 0 then 1 else rc
  else
    let rc := memcmp buffer osBuffer size
    if rc = 0 then -1 else rc

/-- `Buffer.cmp` -/
def bufferCmp (this : Ref) (buffer : List UInt8) (other : Ref) : Int :=
  if this.uintz = other.uintz then 0
  else match other with
    | .null => 1
    | .buffer _ osBuffer => contentCmp buffer osBuffer
    | _ => 1

/-- The elements of an object of the class, where the reference is to one. -/
def peerElems (cls : SeqClass) : Ref → Option (List Ref)
  | .seq _ otherCls o => if otherCls = cls then some o else none
  | _ => none

def peerValues (generic : SeqKind) (t : Builtin) : Ref → Option (List (BitVec t.width))
  | .values _ otherGeneric u o => if h : otherGeneric = generic ∧ u = t then some (h.2 ▸ o) else none
  | _ => none

section

variable {α : Type}

/-- The rounds of a loop from 0 to the size by an `int`. -/
def Counted (elems : List α) : Prop := elems.length < 2 ^ 31

instance (elems : List α) : Decidable (Counted elems) := inferInstanceAs (Decidable (_ < _))

/-- `List.isTrue` and `DList.isTrue`: the count is a `uint`. -/
def isTrue (elems : List α) : Prop := BitVec.ofNat 32 elems.length ≠ 0

instance (elems : List α) : Decidable (isTrue elems) := inferInstanceAs (Decidable (_ ≠ _))

/-- `Array.cmp`, with the loop over the elements of both. -/
def arrayCmp (this other : Ref) (elems : List α) (peer : Option (List α)) (loop : List α → Int) : Int :=
  if this.uintz = other.uintz then 0
  else if other.uintz = 0 then 1
  else match peer with
    | none => objectCmp this other
    | some others => if Counted elems then loop others else if others.length > elems.length then -1 else 0

/-- `List.cmp` and `DList.cmp`, with the loop over the elements of both. The result of the
cast is tested as a condition, where an empty list is false. -/
def listCmp (this other : Ref) (peer : Option (List α)) (loop : List α → Int) : Int :=
  match peer with
  | none => objectCmp this other
  | some o => if isTrue o then loop o else objectCmp this other

def seqCmp (generic : SeqKind) (this other : Ref) (elems : List α) (peer : Option (List α))
    (loop : List α → Int) : Int :=
  match generic with
  | .array => arrayCmp this other elems peer loop
  | .list | .dlist => listCmp this other peer loop

end

/-- The `cmp` of two references, where `diff` is what `a.cmp(b)` returns. -/
def cmpRefs (diff : Int) (a b : Ref) : Int :=
  if a.uintz = b.uintz then 0 else if a.uintz ≠ 0 then diff else if b.uintz ≠ 0 then -1 else 1

/-- The loop over the elements; the longer one of two that begin alike is greater. -/
def cmpLoop {α : Type} (cmp : α → α → Int) : (elems others : List α) → Int
  | [], [] => 0
  | [], _ :: _ => -1
  | _ :: _, [] => 1
  | a :: elems, b :: others =>
    let diff := cmp a b
    if diff ≠ 0 then diff else cmpLoop cmp elems others

mutual

/-- The method of the class of the object. -/
def cmp : (this other : Ref) → Int
  | .null, _ => 0
  | .object addr, other => objectCmp (.object addr) other
  | .buffer addr bytes, other => bufferCmp (.buffer addr bytes) bytes other
  | .seq addr cls elems, other =>
    seqCmp cls.generic (.seq addr cls elems) other elems (peerElems cls other) (cmpElems elems)
  | .values addr generic t elems, other =>
    seqCmp generic (.values addr generic t elems) other elems (peerValues generic t other)
      (cmpLoop (fun v w => (t.cmp v w).toInt) elems)

/-- The loop over references. -/
def cmpElems : (elems others : List Ref) → Int
  | [], [] => 0
  | [], _ :: _ => -1
  | _ :: _, [] => 1
  | a :: elems, b :: others =>
    let diff := cmpRefs (a.cmp b) a b
    if diff ≠ 0 then diff else cmpElems elems others

end

/-- `cmp(Object a, Object b)` -/
def compare (a b : Ref) : Int := cmpRefs (a.cmp b) a b

/-- `Object.makeHashVal` -/
def objectHash (addr : Addr) : BitVec 32 :=
  let v := addr.uintz
  (v ^^^ (v >>> 9) ^^^ (v <<< 7)).setWidth 32

/-- `Buffer.makeHashVal`, whose loop takes the size for an `int`. -/
def bufferHash (bytes : List UInt8) : BitVec 32 :=
  (bytes.take (BitVec.ofNat 32 bytes.length).toInt.toNat).foldl
    (fun hash b => (hash <<< 8 ^^^ hash >>> 24) ^^^ b.toBitVec.setWidth 32) 0

section

variable (fpToUI : AnyFloat → BitVec 32)

/-- The loop of `Array.makeHashVal`; the result is a `uintz`. -/
def hashLoop {α : Type} (hash : α → BitVec 32) (result : BitVec 64) : List α → BitVec 64
  | [] => result
  | a :: elems => hashLoop hash (result ^^^ (hash a).setWidth 64) elems

/-- `Array.makeHashVal`, or that of an Object for the other sequences. -/
def seqHash {α : Type} (generic : SeqKind) (addr : Addr) (elems : List α) (result : BitVec 64) : BitVec 32 :=
  match generic with
  | .array => if Counted elems then result.setWidth 32 else 0
  | .list | .dlist => objectHash addr

mutual

/-- The method of the class of the object, and 0 for null. -/
def makeHashVal : Ref → BitVec 32
  | .null => 0
  | .object addr => objectHash addr
  | .buffer _ bytes => bufferHash bytes
  | .seq addr cls elems => seqHash cls.generic addr elems (hashElems 0 elems)
  | .values addr generic t elems => seqHash generic addr elems (hashLoop (t.makeHashVal fpToUI) 0 elems)

/-- The loop over references. -/
def hashElems (result : BitVec 64) : List Ref → BitVec 64
  | [] => result
  | a :: elems => hashElems (result ^^^ a.makeHashVal.setWidth 64) elems

end

end

mutual

/-- The reference, and all that can be reached from it. -/
def parts : Ref → List Ref
  | .seq addr cls elems => .seq addr cls elems :: partsElems elems
  | a => [a]

def partsElems : List Ref → List Ref
  | [] => []
  | a :: elems => a.parts ++ partsElems elems

end

abbrev elems : Ref → List Ref
  | .seq _ _ elems => elems
  | _ => []

/-- Objects are made of their elements. -/
theorem byElems {P : Ref → Prop} (ofElems : ∀ a : Ref, (∀ x ∈ a.elems, P x) → P a) : ∀ a, P a :=
  @Ref.rec P (fun elems => ∀ a ∈ elems, P a) (ofElems _ nofun) (fun _ => ofElems _ nofun) (fun _ _ => ofElems _ nofun)
    (fun addr cls l => ofElems (.seq addr cls l)) (fun _ _ _ _ => ofElems _ nofun) nofun fun _ _ hb ih => List.forall_mem_cons.mpr ⟨hb, ih⟩

theorem mem_parts_self (a : Ref) : a ∈ a.parts := by
  cases a <;> exact List.mem_cons_self

variable {a : Ref} {elems : List Ref}

theorem parts_subset (h : a ∈ elems) : a.parts ⊆ partsElems elems := by
  induction elems with
  | nil => cases h
  | cons b elems ih =>
    rcases List.mem_cons.mp h with rfl | h
    · exact List.subset_append_left _ _
    · exact List.Subset.trans (ih h) (List.subset_append_right _ _)

theorem parts_of_elem {addr : Addr} {cls : SeqClass} {elems C : List Ref} (h : (seq addr cls elems).parts ⊆ C)
    (ha : a ∈ elems) : a.parts ⊆ C := List.Subset.trans (parts_subset ha) (List.cons_subset.mp h).2

theorem mem_partsElems (h : a ∈ elems) : a ∈ partsElems elems :=
  parts_subset h (mem_parts_self a)

/-- One address holds one object. -/
def Coherent (roots : List Ref) : Prop :=
  ∀ a ∈ partsElems roots, ∀ b ∈ partsElems roots, a.uintz = b.uintz → a = b

mutual

/-- The same objects at other addresses. -/
def move (σ : Equiv.Perm Addr) : Ref → Ref
  | .null => .null
  | .object addr => .object (σ addr)
  | .buffer addr bytes => .buffer (σ addr) bytes
  | .seq addr cls elems => .seq (σ addr) cls (moveElems σ elems)
  | .values addr generic t elems => .values (σ addr) generic t elems

def moveElems (σ : Equiv.Perm Addr) : List Ref → List Ref
  | [] => []
  | a :: elems => a.move σ :: moveElems σ elems

end

end Ref

end Crack
