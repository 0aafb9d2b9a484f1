import Crack.Model.TypeDef
import Crack.Model.OverloadDef

/-!
# The end of a class definition

`TypeDef::rectify` checks the abstract methods of a class that has just been
parsed and adds its default constructor and destructor. An abstract method is
implemented when the signature look-up from the class finds a method that is
not abstract and belongs to the same virtual method.
-/
namespace Crack

inductive VarDef where
  | overload (ovld : OverloadDef)
  /-- Variables, types and the like. -/
  | other
  deriving Repr

structure InstVarDef where
  name : String
  initializer : Bool
  deriving DecidableEq, Repr

/-- What the namespace of a class holds, its definitions in map order. -/
structure Members where
  fullName : String
  abstract : Bool
  defs : List (String × VarDef)
  orderedData : List InstVarDef
  names_nodup : (defs.map Prod.fst).Nodup

/-- A hierarchy together with the namespaces of its classes. -/
structure ClassTable extends Hierarchy where
  members : Nat → Members

/-- Why `rectify` does not return. -/
inductive Halt where
  /-- A failed assertion. -/
  | assertion
  | nullDereference
  | abstractMethods (this : Nat) (funcs : List FuncDef)
  | noDefaultConstructor (base : Nat)
  | noInitializer (ivar : InstVarDef)
  deriving DecidableEq, Repr

/-- The compiler aborts. -/
def Halt.Crash (e : Halt) : Prop := e = .assertion ∨ e = .nullDereference

/-- What `rectify` leaves behind: its warnings and the methods it generates. -/
structure Rectified where
  warnings : List String
  generated : List String
  deriving DecidableEq, Repr

namespace ClassTable

variable (h : ClassTable)

def parents (c : Nat) : List Nat := h.toHierarchy.parents c

theorem ranked : Acyclic.Ranked h.parents := h.toHierarchy.ranked

def lookUpOwn (c : Nat) (name : String) : Option VarDef := (h.members c).defs.lookup name

/-- `Namespace::lookUp`: the own definitions, then the parents in order. -/
def lookUp : Nat → String → Option VarDef :=
  Acyclic.fix (fun _ => none) (fun lookUp c name =>
    match h.lookUpOwn c name with
    | some d => some d
    | none => (h.parents c).findSome? (fun parent => lookUp parent name))

def isAbstract (this : Nat) (func : FuncDef) : Except Halt Bool :=
  if func.abstract then
    match h.lookUp this func.name with
    | some (.overload overloads) =>
      match overloads.getSigMatch func.args false with
      | some nearest => .ok (nearest.abstract || func.receiverType != nearest.receiverType)
      | none => .error .nullDereference
    | _ => .error .assertion
  else .ok false

/-- The shape of the three nested loops: they run to the end when they collect
functions, and stop at the first success otherwise. -/
def anyAbstract {α : Type} (collect : Bool) (visit : α → List FuncDef → Except Halt (Bool × List FuncDef)) :
    List α → List FuncDef → Except Halt (Bool × List FuncDef)
  | [], abstractFuncs => .ok (false, abstractFuncs)
  | x :: xs, abstractFuncs => do
    let (got, abstractFuncs) ← visit x abstractFuncs
    if got && !collect then return (true, abstractFuncs)
    let (gotRest, abstractFuncs) ← anyAbstract collect visit xs abstractFuncs
    return (got || gotRest, abstractFuncs)

def topFuncs : VarDef → List FuncDef
  | .overload (.mk _ funcs _) => funcs
  | .other => []

def hasAbstractFuncs (this : Nat) (collect : Bool) (d : VarDef) (abstractFuncs : List FuncDef) :
    Except Halt (Bool × List FuncDef) :=
  anyAbstract collect (fun f abstractFuncs => do
    let abs ← h.isAbstract this f
    return (abs, if abs && collect then abstractFuncs ++ [f] else abstractFuncs)) (topFuncs d) abstractFuncs

def gotAbstractFuncs (this : Nat) (collect : Bool) : Nat → List FuncDef → Except Halt (Bool × List FuncDef) :=
  Acyclic.fix (fun _ => .ok (false, [])) (fun gotAbstractFuncs ancestor abstractFuncs => do
    let (got, abstractFuncs) ←
      anyAbstract collect (fun d => h.hasAbstractFuncs this collect d.2) (h.members ancestor).defs abstractFuncs
    if got && !collect then return (true, abstractFuncs)
    let (gotAbove, abstractFuncs) ← anyAbstract collect gotAbstractFuncs (h.parents ancestor) abstractFuncs
    return (got || gotAbove, abstractFuncs))

/-- The constructor of a base that `createOperInit` calls when it is given no arguments. -/
def baseInit (base : Nat) (overloads : OverloadDef) : Except Halt FuncDef :=
  match overloads.getSigMatch [] true with
  | some f => if f.owner = some base then .ok f else defaultInit
  | none => defaultInit
where
  defaultInit : Except Halt FuncDef :=
    match overloads.getNoArgMatch false with
    | some f => if f.owner = some base then .ok f else .error (.noDefaultConstructor base)
    | none => .error (.noDefaultConstructor base)

def initBase (base : Nat) : Except Halt Unit :=
  match h.lookUp base "oper init" with
  | some (.overload overloads) => do
    let _ ← baseInit base overloads
  | _ => .ok ()

def initVar (ivar : InstVarDef) : Except Halt Unit :=
  if ivar.initializer then .ok () else .error (.noInitializer ivar)

def createDefaultInit (this : Nat) : Except Halt Unit := do
  (h.parents this).forM h.initBase
  (h.members this).orderedData.forM initVar

def operDel (this : Nat) : Option FuncDef :=
  match h.lookUp this "oper del" with
  | some (.overload overloads) => overloads.getNoArgMatch true
  | _ => none

/-- A class without a constructor of its own gets a default one. -/
def createInits (this : Nat) : Except Halt (List String) :=
  if (h.lookUpOwn this "oper init").isNone then do
    h.createDefaultInit this
    return "oper init" :: (if (h.members this).abstract then [] else ["oper new"])
  else .ok []

def createDefaults (this : Nat) : Except Halt (List String) := do
  let inits ← h.createInits this
  return inits ++ (if (h.operDel this).bind FuncDef.owner = some this then [] else ["oper del"])

/-- The check for abstract methods; it gives the warning. -/
def checkAbstract (this : Nat) : Except Halt (List String) :=
  if (h.members this).abstract then do
    let (got, _) ← h.gotAbstractFuncs this false this []
    return if got then [] else ["Abstract class " ++ (h.types this).name ++ " has no abstract functions."]
  else do
    let (got, funcs) ← h.gotAbstractFuncs this true this []
    if got && !(h.types this).appendage then .error (.abstractMethods this funcs) else return []

def rectify (this : Nat) : Except Halt Rectified := do
  let warnings ← h.checkAbstract this
  let generated ← if (h.types this).appendage then pure [] else h.createDefaults this
  return ⟨warnings, generated⟩

end ClassTable

end Crack
