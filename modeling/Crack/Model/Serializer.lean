import Crack.Lib.Decoding
import Mathlib.Algebra.Group.Nat.Defs
import Mathlib.Algebra.Group.Int.Defs

/-!
# Serializer and deserializer

The streams of meta-data: variable length integers, blobs, doubles and references
to objects. An `unsigned int` is a number below 2³², an `int` an integer; bytes
added to the hasher are collected. The names, which are for tracing, are left out.
-/
namespace Crack

/-- `unsigned int` has 32 bits. -/
def uintSize : Nat := 2 ^ 32

def intMax : Nat := 2 ^ 31 - 1

/-- The conversion of an `unsigned int` to `int`. -/
def toInt (v : Nat) : Int := if v ≤ intMax then v else v - uintSize

/-- A double is its representation in memory. -/
abbrev Double := { bytes : List UInt8 // bytes.length = 8 }

structure Serializer where
  dst : List UInt8 := []
  /-- The ids of the objects, by address. -/
  objMap : List (Nat × Nat) := []
  lastId : Nat := 0
  /-- Incrementing `lastId` has overflowed. -/
  overflow : Bool := false
  digestEnabled : Bool := false
  /-- What was added to the hasher. -/
  hashed : List UInt8 := []
  deriving DecidableEq, Repr

namespace Serializer

/-- Write bytes to `dst` and, if enabled, add them to the hasher. -/
def emit (s : Serializer) (bytes : List UInt8) : Serializer :=
  { s with dst := s.dst ++ bytes, hashed := if s.digestEnabled then s.hashed ++ bytes else s.hashed }

/-- The loop of `write(unsigned int)`: seven bits a byte, lowest first. -/
def writeLoop (s : Serializer) (val : Nat) : Serializer :=
  if h : val = 0 then s
  else
    let b := val % 0x80
    let val' := val / 0x80
    let b := if val' ≠ 0 then b + 0x80 else b
    writeLoop (s.emit [UInt8.ofNat b]) val'
termination_by val

def writeUInt (s : Serializer) (val : Nat) : Serializer :=
  if val = 0 then s.emit [0] else s.writeLoop val

/-- The length is passed on as an `unsigned int`. -/
def writeBlob (s : Serializer) (data : List UInt8) : Serializer :=
  (s.writeUInt (data.length % uintSize)).emit data

def writeDouble (s : Serializer) (val : Double) : Serializer := s.emit val.1

/-- A new id for an object; `lastId` is an `int`. -/
def newId (s : Serializer) (object : Nat) : Serializer :=
  { s with
    objMap := (object, s.lastId) :: s.objMap
    lastId := s.lastId + 1
    overflow := s.overflow || s.lastId = intMax }

/-- True if the caller has to serialize the state of the object. -/
def writeObject (s : Serializer) (object : Nat) : Bool × Serializer :=
  match s.objMap.lookup object with
  | none => (true, (s.newId object).writeUInt ((2 * s.lastId + 1) % uintSize))
  | some id => (false, s.writeUInt (2 * id % uintSize))

def registerObject (s : Serializer) (object : Nat) : Nat × Serializer :=
  match s.objMap.lookup object with
  | none => (s.lastId, s.newId object)
  | some id => (id, s)

end Serializer

/-- An input stream. A read that meets the end of the data fails and sets `eof`. -/
structure IStream where
  data : List UInt8
  eof : Bool := false
  deriving DecidableEq, Repr

namespace IStream

/-- `get`, with the value of its result as a `uint8_t`. -/
def get (src : IStream) : UInt8 × IStream :=
  match src.eof, src.data with
  | false, b :: data => (b, { src with data := data })
  | _, data => (0xff, { data, eof := true })

/-- The bytes that were read; null if the read failed. -/
def read (src : IStream) (size : Nat) : Option (List UInt8) × IStream :=
  if src.eof = true ∨ src.data.length < size then (none, { data := [], eof := true })
  else (some (src.data.take size), { src with data := src.data.drop size })

/-- How often a read may be tried before the end is seen. -/
def left (src : IStream) : Nat := 2 * src.data.length + if src.eof then 0 else 1

theorem left_get {src : IStream} (h : ¬ src.eof = true) : src.get.2.left < src.left := by
  obtain ⟨data, eof⟩ := src
  cases eof with
  | true => exact absurd rfl h
  | false => cases data <;> simp [get, left]

end IStream

inductive DeserializationError where
  | eof
  /-- An assertion or check that failed. -/
  | check (msg : String)
  deriving DecidableEq, Repr

/-- An object that was read is the list of what its reader read. -/
inductive Val where
  | uint (v : Nat)
  | str (s : List UInt8)
  | double (d : Double)
  /-- A reference to an object, by address. -/
  | object (obj : Nat)
  deriving DecidableEq, Repr

structure Deserializer where
  src : IStream
  /-- The addresses of the objects, by id. -/
  objMap : List (Int × Nat) := []
  /-- The objects that were created, by address. -/
  objects : List (List Val) := []
  digestEnabled : Bool := false
  hashed : List UInt8 := []
  deriving DecidableEq, Repr

/-- A function that reads from a deserializer. -/
abbrev Reader (α : Type) := StateT Deserializer (Except DeserializationError) α

namespace Deserializer

def add (d : Deserializer) (bytes : List UInt8) : Deserializer :=
  { d with hashed := if d.digestEnabled then d.hashed ++ bytes else d.hashed }

/-- The loop of `readUInt`, which finds the end of the stream only after a `get`
that failed. No value stands for that end. -/
def readLoop (d : Deserializer) (val offset : Nat) : Option Nat × Deserializer :=
  if h : d.src.eof then (none, d)
  else
    let b := d.src.get.1
    let d' := { d with src := d.src.get.2 }.add [b]
    -- see if we've got the last byte
    let val := (val ||| (b.toNat % 0x80) <<< offset) % uintSize
    if b.toNat < 0x80 then (some val, d') else readLoop d' val (offset + 7)
termination_by d.src.left
decreasing_by exact IStream.left_get h

end Deserializer

section Reading

open DeserializationError

/-- `readUInt` without an eof flag. -/
def readUInt : Reader Nat := fun d =>
  match d.readLoop 0 0 with
  | (some val, d) => .ok (val, d)
  | (none, _) => .error eof

/-- `readUInt` with an eof flag; the flag is the second result. -/
def readUIntEof : Reader (Nat × Bool) := fun d =>
  match d.readLoop 0 0 with
  | (some val, d) => .ok ((val, false), d)
  | (none, d) => .ok ((0, true), d)

/-- A number of bytes, which are added to the hasher. -/
def readBytes (size : Nat) : Reader (List UInt8) := fun d =>
  match d.src.read size with
  | (some bytes, src) => .ok (bytes, { d with src }.add bytes)
  | (none, _) => .error eof

/-- The buffer that is passed only avoids an allocation. -/
def readBlob : Reader (List UInt8) := do
  let size ← readUInt
  readBytes size

def readString : Reader (List UInt8) := readBlob

def ofBytes (bytes : List UInt8) : Reader Double :=
  if h : bytes.length = 8 then pure ⟨bytes, h⟩ else throw eof

/-- The bytes are read over a double. -/
def readDouble : Reader Double := do
  ofBytes (← readBytes 8)

/-- `objMap->find(id)`. -/
def find (id : Int) : Reader (Option Nat) := fun d => .ok (d.objMap.lookup id, d)

/-- `(*objMap)[id] = obj`. -/
def enter (id : Int) (obj : Nat) : Reader Unit := fun d => .ok ((), { d with objMap := (id, obj) :: d.objMap })

/-- Create an object from what its reader read. -/
def create (contents : List Val) : Reader Nat := fun d =>
  .ok (d.objects.length, { d with objects := d.objects ++ [contents] })

/-- The rest of `readObject` once the id was read. -/
def resolve (reader : Reader Nat) (id : Int) : Reader (Nat × Bool) :=
  if id % 2 ≠ 0 then do
    -- this is a definition: let the reader read the object
    let obj ← reader
    enter (id / 2) obj
    pure (obj, true)
  else do
    match ← find (id / 2) with
    | some obj => pure (obj, false)
    | none => throw (check "Unable to resolve serialized object")

/-- Whether the object was just read is the second result. -/
def readObject (reader : Reader Nat) : Reader (Nat × Bool) := do
  resolve reader (toInt (← readUInt))

def registerObject (id : Int) (obj : Nat) : Reader Unit := do
  if (← find id).isSome then
    throw (check "The object id is already registered.")
  else enter id obj

end Reading

end Crack
