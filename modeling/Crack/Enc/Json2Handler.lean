import Crack.Enc.Json2
import Crack.Lib.SortedMap
import Mathlib.Data.List.Lex
import Mathlib.Order.Defs.LinearOrder

/-!
# Default handler of json2

It builds the objects of a value on a stack of frames.
-/
namespace Crack

namespace Json2

/-- The objects that stand for values: `null`, boxes, strings, arrays and `JSONObject`s. A map has its entries in
the order of its keys. -/
inductive Object (F : Type) where
  | null
  | bool (val : Bool)
  | number (val : F)
  | string (bytes : List UInt8)
  | list (items : List (Object F))
  | map (entries : List (List UInt8 × Object F))

/-- A frame of the stack, `ObjectFrame`, `ListFrame` or `TopFrame`. -/
inductive Frame (F : Type) where
  | object (obj : List (List UInt8 × Object F)) (curKey : Option (List UInt8))
  | list (arr : List (Object F))
  | top (result : Object F)

variable {F : Type}

/-- Keys are compared byte by byte. -/
def keyOrder : List UInt8 ↪ List Nat := ⟨List.map UInt8.toNat, List.map_injective_iff.mpr fun _ _ => UInt8.toNat_inj.mp⟩

/-- `__obj[key] = value` -/
def Object.put (obj : List (List UInt8 × Object F)) (key : List UInt8) (value : Object F) :
    List (List UInt8 × Object F) :=
  SortedMap.place keyOrder key value obj

/-- `String.cast` -/
def Object.toString : Object F → Except Stop (List UInt8)
  | .string bytes => .ok bytes
  | .null => .error (.thrown "Unable to cast null object to String")
  | _ => .error (.thrown "Unable to cast object to String")

namespace Frame

def unsupported {α : Type} : Except Stop α := .error (.thrown "Unsupported operation")

def getObject : Frame F → Except Stop (Object F)
  | .object obj _ => .ok (.map obj)
  | _ => unsupported

def getList : Frame F → Except Stop (Object F)
  | .list arr => .ok (.list arr)
  | _ => unsupported

def get : Frame F → Except Stop (Object F)
  | .top result => .ok result
  | _ => unsupported

def add (obj : Object F) : Frame F → Except Stop (Frame F)
  | .object entries none => obj.toString.map fun key => .object entries (some key)
  | .object entries (some key) => .ok (.object (Object.put entries key obj) none)
  | .list arr => .ok (.list (arr ++ [obj]))
  | .top .null => .ok (.top obj)
  | .top _ => .error .assertion

end Frame

/-- The stack; its last frame comes first. -/
abbrev DefaultHandler (F : Type) := List (Frame F)

namespace DefaultHandler

def init : DefaultHandler F := [.top .null]

/-- `__stack[-1].add(obj)` -/
def addTop (obj : Object F) : DefaultHandler F → Except Stop (DefaultHandler F)
  | [] => .error (.indexError "Array index out of bounds")
  | frame :: stack => (frame.add obj).map (· :: stack)

/-- The frame that ends is taken off the stack, and its object goes to the one below. -/
def finish (get : Frame F → Except Stop (Object F)) : DefaultHandler F → Except Stop (DefaultHandler F)
  | [] => .error .wildAccess
  | frame :: stack => do addTop (← get frame) stack

def handle (stack : DefaultHandler F) : Call F → Except Stop (DefaultHandler F)
  | .onBeginObject => .ok (.object [] none :: stack)
  | .onEndObject => finish Frame.getObject stack
  | .onBeginList => .ok (.list [] :: stack)
  | .onEndList => finish Frame.getList stack
  | .onBool value => addTop (.bool value) stack
  | .onNumber value => addTop (.number value) stack
  | .onNull => addTop .null stack
  | .onString value => addTop (.string value) stack

/-- The handler after some calls. -/
def run (stack : DefaultHandler F) (calls : List (Call F)) : Except Stop (DefaultHandler F) := calls.foldlM handle stack

def getTop : DefaultHandler F → Except Stop (Object F)
  | [frame] => frame.get
  | _ => .error .assertion

end DefaultHandler

/-- The default handler for what the parser did. The parser learns nothing of the handler, except that a call
throws. -/
def handled (r : Except Failure Unit × Parser F) : Except Failure (DefaultHandler F) :=
  match DefaultHandler.run .init r.2.handler with
  | .error s => .error (.stop s)
  | .ok stack => r.1.map fun _ => stack

/-- A `StringReader` fills the buffer as long as there is text. -/
def stringReader : Nat → Nat := fun _ => 1023

/-- The place in its string is an index of 32 bits with a sign. -/
def farBytes (text : List UInt8) : Nat := text.length - 2 ^ 31

/-- The parser with the default handler, on a `StringReader`. -/
def drive (strtod : List UInt8 → F) (text : List UInt8) : Except Failure (DefaultHandler F) :=
  handled (parseText strtod text stringReader (farBytes text))

/-- `parse(String json)` -/
def parseJson (strtod : List UInt8 → F) (json : List UInt8) : Except Failure (Object F) := do
  let stack ← drive strtod json
  Parser.ofBuffer stack.getTop

end Json2

end Crack
