import Mathlib.Logic.Function.Basic
import Crack.Model.TypeDef

/-!
# The vtables of a class

Slots are numbered while the bodies of classes are parsed; the tables of a class
are filled when the class and its bases are complete. A run is the sequence of
calls that the parser makes for the classes of a hierarchy, which begin in the
order of their numbers. A class that is forward declared counts from the place
of its body. A failed assertion or `SPUG_CHECK` stops the run.
-/
namespace Crack

open Acyclic (Reaches)

structure BFuncDef where
  name : String
  owner : Nat
  virtualized : Bool
  receiverType : Nat
  vtableSlot : Nat
  /-- The virtual method that the parser found to override. -/
  existing : Option Nat
  deriving DecidableEq, Repr

structure VTableInfo where
  name : String
  entries : List (Option Nat)
  deriving DecidableEq, Repr

/-- The map of tables is its keys, in the order of creation, and the table of each key. -/
structure VTableBuilder where
  roots : List Nat
  vtables : Nat → VTableInfo
  firstVTable : Option Nat

/-- The overloads of `defs` stand in the order of their names. -/
structure BTypeDef where
  firstVTableSlot : Nat
  nextVTableSlot : Nat
  defs : List (String × List Nat)
  complete : Bool
  incompleteChildren : List Nat
  /-- What `VTableBuilder::emit` has recorded. -/
  vtables : Option VTableBuilder

structure BuilderState where
  types : Nat → BTypeDef
  funcs : Nat → BFuncDef
  nextFunc : Nat
  /-- The classes whose bodies are being parsed, innermost first. -/
  stack : List Nat
  nextClass : Nat

namespace VTableInfo

def accomodate (vec : List (Option Nat)) (index : Nat) : List (Option Nat) :=
  if vec.length < index + 1 then vec ++ List.replicate (index + 1 - vec.length) none else vec

def write (info : VTableInfo) (slot func : Nat) : VTableInfo :=
  { info with entries := (accomodate info.entries slot).set slot (some func) }

end VTableInfo

def BTypeDef.new (nextVTableSlot : Nat) : BTypeDef := ⟨nextVTableSlot, nextVTableSlot, [], false, [], none⟩

/-- `OverloadDef::addFunc` on the overload of this name, which is created where it is missing. -/
def addFunc (name : String) (func : Nat) : List (String × List Nat) → List (String × List Nat)
  | [] => [(name, [func])]
  | ovld :: defs =>
    if ovld.1 = name then (ovld.1, ovld.2 ++ [func]) :: defs
    else if name < ovld.1 then (name, [func]) :: ovld :: defs
    else ovld :: addFunc name func defs

/-- `Namespace::addAlias` of a flattened overload, under another name. -/
def addAlias (name : String) (funcs : List Nat) : List (String × List Nat) → List (String × List Nat)
  | [] => [(name, funcs)]
  | ovld :: defs =>
    if ovld.1 = name then (name, funcs) :: defs
    else if name < ovld.1 then (name, funcs) :: ovld :: defs
    else ovld :: addAlias name funcs defs

namespace VTableBuilder

def empty : VTableBuilder := ⟨[], fun _ => ⟨"", []⟩, none⟩

def createVTable (vtb : VTableBuilder) (type : Nat) (name : String) (first : Bool) :
    Except String VTableBuilder :=
  if type ∈ vtb.roots then .error "vtables.find(type) == vtables.end()" else
    .ok ⟨vtb.roots ++ [type], Function.update vtb.vtables type ⟨name, []⟩,
      if first then some type else vtb.firstVTable⟩

def writeTo (vtb : VTableBuilder) (root slot func : Nat) : VTableBuilder :=
  { vtb with vtables := Function.update vtb.vtables root ((vtb.vtables root).write slot func) }

def addToAll (vtb : VTableBuilder) (slot func : Nat) : VTableBuilder :=
  { vtb with vtables := fun root =>
      if root ∈ vtb.roots then (vtb.vtables root).write slot func else vtb.vtables root }

/-- A table that is missing is replaced by the first one. -/
def addToAncestor (vtb : VTableBuilder) (ancestor slot func : Nat) : Except String VTableBuilder :=
  if ancestor ∈ vtb.roots then .ok (vtb.writeTo ancestor slot func) else
    match vtb.firstVTable with
    | none => .error "no first vtable"
    | some targetVTable => .ok (vtb.writeTo targetVTable slot func)

/-- The assertions of `VTableBuilder::emit`. -/
def emit (vtb : VTableBuilder) : Except String VTableBuilder :=
  if vtb.roots.any (fun root => (vtb.vtables root).entries.any Option.isNone) then
    .error "Null vtable entry."
  else if vtb.firstVTable.isNone then .error "type->firstVTableType"
  else .ok vtb

end VTableBuilder

namespace Hierarchy

variable (h : Hierarchy)

/-- Set by `addBaseClass` when a base has it, and on `VTableBase` from the start. -/
def hasVTable : Nat → Bool :=
  Acyclic.fix false (fun hasVTable this => this = h.vtableBaseType || (h.parents this).any hasVTable)

/-- The classes that `fixIncompletes` builds vtables for. -/
def virtual (c : Nat) : Bool := h.hasVTable c && !(h.types c).appendage

def findFirstVTable : Nat → Option Nat :=
  Acyclic.fix none (fun findFirstVTable this =>
    if this = h.vtableBaseType then some this else
      match (h.parents this).find? (fun parent => parent = h.vtableBaseType || h.hasVTable parent) with
      | none => none
      | some parent => if parent = h.vtableBaseType then some this else findFirstVTable parent)

end Hierarchy

namespace BuilderState

variable (h : Hierarchy) (s : BuilderState)

def setType (c : Nat) (type : BTypeDef) : BuilderState := { s with types := Function.update s.types c type }

def setFunc (f : Nat) (func : BFuncDef) : BuilderState := { s with funcs := Function.update s.funcs f func }

def add (vtb : VTableBuilder) (func : Nat) : Except String VTableBuilder :=
  match h.findFirstVTable (s.funcs func).receiverType with
  | none => .error "Failed to find first vtable"
  | some ancestor =>
    if ancestor = h.vtableBaseType then .ok (vtb.addToAll (s.funcs func).vtableSlot func)
    else vtb.addToAncestor ancestor (s.funcs func).vtableSlot func

/-- Functions that an alias put into the overload have another name and are passed over. -/
def extendVTables (this : Nat) (vtb : VTableBuilder) : Except String VTableBuilder :=
  (s.types this).defs.foldlM (fun vtb overload => overload.2.foldlM (fun vtb func =>
    if (s.funcs func).virtualized ∧ (s.funcs func).name = overload.1 then s.add h vtb func
    else .ok vtb) vtb) vtb

/-- What `createAllVTables` does for one of the bases; the flag is cleared after the first one. -/
def createBaseVTables (createAllVTables : Nat → VTableBuilder → String → Bool → Except String VTableBuilder)
    (this : Nat) (name : String) (st : VTableBuilder × Bool) (base : Nat) :
    Except String (VTableBuilder × Bool) := do
  let vtb ←
    if base = h.vtableBaseType then st.1.createVTable this name st.2
    else if h.hasVTable base then
      createAllVTables base st.1 (if st.2 then name else name ++ ":" ++ (h.types base).displayName) st.2
    else .ok st.1
  return (vtb, false)

/-- Only classes that are no appendages get here, so `getInstanceBases` is `parents`. -/
def createAllVTablesStep
    (createAllVTables : Nat → VTableBuilder → String → Bool → Except String VTableBuilder) (this : Nat)
    (vtb : VTableBuilder) (name : String) (firstVTable : Bool) : Except String VTableBuilder := do
  let vtb ← if this = h.vtableBaseType then vtb.createVTable this name true else .ok vtb
  let st ← (h.parents this).foldlM (createBaseVTables h createAllVTables this name) (vtb, firstVTable)
  if st.2 ∧ this ≠ h.vtableBaseType then .error "!firstVTable || this == vtb.vtableBaseType"
  s.extendVTables h this st.1

def createAllVTables : Nat → VTableBuilder → String → Bool → Except String VTableBuilder :=
  Acyclic.fix (fun _ _ _ => .error "") (s.createAllVTablesStep h)

/-- `createAllVTables` and `emit` on a new builder. -/
def emitVTables (this : Nat) : Except String VTableBuilder := do
  let vtb ← s.createAllVTables h this .empty (".vtable." ++ (h.types this).displayName) true
  vtb.emit

def fixVTableSlots (this offset : Nat) : BuilderState :=
  (s.types this).defs.foldl (fun s overload => overload.2.foldl (fun s func =>
    if (s.funcs func).virtualized ∧ (s.types this).firstVTableSlot ≤ (s.funcs func).vtableSlot then
      s.setFunc func { s.funcs func with vtableSlot := (s.funcs func).vtableSlot + offset }
    else s) s) s

/-- The function definition of a method after `LLVMBuilder::initializeMethodInfo`. -/
def initializeMethodInfo (classType : Nat) (name : String) (virtualized : Bool) (existing : Option Nat) : BFuncDef :=
  match virtualized, existing with
  | true, some e => ⟨name, classType, true, (s.funcs e).receiverType, (s.funcs e).vtableSlot, some e⟩
  | true, none => ⟨name, classType, true, classType, (s.types classType).nextVTableSlot, none⟩
  | false, _ => ⟨name, classType, false, classType, 0, none⟩

/-- A method is defined and added to its class; a new virtual method has taken a slot. -/
def emitMethod (classType : Nat) (name : String) (virtualized : Bool) (existing : Option Nat) : BuilderState :=
  let type := s.types classType
  let nextVTableSlot := if virtualized ∧ existing = none then type.nextVTableSlot + 1 else type.nextVTableSlot
  { s with
    types := Function.update s.types classType
      ⟨type.firstVTableSlot, nextVTableSlot, addFunc name s.nextFunc type.defs, type.complete,
        type.incompleteChildren, type.vtables⟩
    funcs := Function.update s.funcs s.nextFunc (s.initializeMethodInfo classType name virtualized existing)
    nextFunc := s.nextFunc + 1 }

def emitAlias (this : Nat) (name : String) (funcs : List Nat) : BuilderState :=
  s.setType this { s.types this with defs := addAlias name funcs (s.types this).defs }

def emitBeginClass (this : Nat) : BuilderState :=
  { s with
    types := Function.update s.types this (.new (match (h.parents this).find? h.hasVTable with
      | some baseWithVTable => (s.types baseWithVTable).nextVTableSlot
      | none => 0))
    stack := this :: s.stack
    nextClass := s.nextClass + 1 }

def lookUpNoArgs (name : String) : Nat → Option Nat :=
  Acyclic.fix none (fun lookUpNoArgs this =>
    match (s.types this).defs.lookup name with
    | some funcs => funcs.head?
    | none => (h.parents this).findSome? lookUpNoArgs)

def createOperClass (this : Nat) : BuilderState :=
  s.emitMethod this "oper class" true (s.lookUpNoArgs h "oper class" this)

/-- The first part of `fixIncompletes`. -/
def fixVTables (this : Nat) : Except String BuilderState :=
  if h.virtual this then do
    let s ←
      match h.parents this with
      | [] => .ok s
      | base :: _ =>
        let firstVTableSlot := (s.types this).firstVTableSlot
        let lastBaseVTableSlot := (s.types base).nextVTableSlot
        if lastBaseVTableSlot < firstVTableSlot then
          .error ("First vtable slot of " ++ (h.types this).name ++ " is " ++
            toString firstVTableSlot ++ " which is greater than the last " ++
            "vtable slot of base class (" ++ toString lastBaseVTableSlot ++ ")")
        else if firstVTableSlot < lastBaseVTableSlot then
          .ok (s.fixVTableSlots this (lastBaseVTableSlot - firstVTableSlot))
        else .ok s
    let vtb ← s.emitVTables h this
    return s.setType this { s.types this with vtables := some vtb }
  else .ok s

/-- Dependent classes have larger numbers, so the number of classes bounds the recursion. -/
def fixIncompletes : Nat → BuilderState → Nat → Except String BuilderState
  | 0, _, _ => .error ""
  | fuel + 1, s, this => do
    let s ← s.fixVTables h this
    let s ← (s.types this).incompleteChildren.foldlM (fun s child => fixIncompletes fuel s child) s
    return s.setType this { s.types this with incompleteChildren := [], complete := true }

def addDependent (base type : Nat) : BuilderState :=
  s.setType base { s.types base with incompleteChildren := (s.types base).incompleteChildren ++ [type] }

/-- The end of `LLVMBuilder::emitEndClass`. -/
def emitEndClass (this : Nat) : Except String BuilderState :=
  match (h.parents this).filter (fun base => !(s.types base).complete) with
  | [] => fixIncompletes h (s.nextClass - this) s this
  | [incompleteBase] => .ok (s.addDependent incompleteBase this)
  | _ => .error "!incompleteBase"

inductive Event where
  | beginClass
  | method (name : String) (virtualized : Bool) (existing : Option Nat)
  | aliasDef (name : String) (funcs : List Nat)
  | endClass
  deriving DecidableEq, Repr

/-- The builtin module defines `VTableBase`, which has no body; other classes are
begun by `parseClassDef`, which declares `oper class` before it parses the body. -/
def beginClass : Except String BuilderState :=
  let this := s.nextClass
  if this = h.vtableBaseType then
    let s := (s.emitBeginClass h this).createOperClass h this
    fixIncompletes h (s.nextClass - this) { s with stack := s.stack.tail } this
  else
    let s := s.emitBeginClass h this
    .ok (if h.virtual this then s.createOperClass h this else s)

def step : Event → Except String BuilderState
  | .beginClass => s.beginClass h
  | .method name virtualized existing =>
    match s.stack with
    | [] => .error "method is not nested in a class context."
    | this :: _ => .ok (s.emitMethod this name virtualized existing)
  | .aliasDef name funcs =>
    match s.stack with
    | [] => .error ""
    | this :: _ => .ok (s.emitAlias this name funcs)
  | .endClass =>
    match s.stack with
    | [] => .error ""
    | this :: stack => { s with stack := stack }.emitEndClass h this

def initial : BuilderState := ⟨fun _ => .new 0, fun _ => ⟨"", 0, false, 0, 0, none⟩, 0, [], 0⟩

/-- The calls that the parser makes. A method is virtual only in a class that has
vtables, and what it overrides is a virtual method of the class or of an ancestor.
There is no syntax for the name `oper class`. -/
def Accepts : Event → Prop
  | .beginClass => s.nextClass = h.vtableBaseType ∨ h.Accepted s.nextClass
  | .method name virtualized existing =>
    name ≠ "oper class" ∧ ∃ this stack, s.stack = this :: stack ∧
      (virtualized = true → h.hasVTable this = true) ∧
      ∀ e, existing = some e → e < s.nextFunc ∧ (s.funcs e).virtualized = true ∧
        Reaches h.parents this (s.funcs e).owner
  | .aliasDef name funcs =>
    name ≠ "oper class" ∧ s.stack ≠ [] ∧ ∀ this ∈ s.stack.head?, (s.types this).defs.lookup name = none ∧
      ∀ f ∈ funcs, f < s.nextFunc
  | .endClass => s.stack ≠ []

end BuilderState

end Crack
