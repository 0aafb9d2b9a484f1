import Crack.Lang.Buffers

/-!
# The serializer

Unsigned integers and strings, written by a `SerialWriter` and read from a reader by a
`SerialReader` or from memory by a `BufferDeserializer`.
-/
namespace Crack

namespace Serial

/-- `END`, which a `uint` may also have as its value. -/
def endMark : Nat := 2 ^ 32 - 1

/-- What is written: a `uint` or the contents of a buffer. -/
inductive Item where
  | uint (val : UInt32)
  | string (val : List UInt8)
  deriving DecidableEq, Repr

/-- What a reader asks for. -/
inductive Kind where
  | uint | string
  deriving DecidableEq, Repr

def Item.kind : Item → Kind
  | .uint _ => .uint
  | .string _ => .string

/-- The loop of `write`. -/
def writeGroups (val : Nat) : List UInt8 :=
  if h : val = 0 then []
  else
    let b := UInt8.ofNat (val &&& 0x7f)
    let val' := val >>> 7
    (if val' ≠ 0 then b ||| 0x80 else b) :: writeGroups val'
termination_by val
decreasing_by
  rw [Nat.shiftRight_eq_div_pow]
  omega

def writeUInt (val : Nat) : List UInt8 := if val = 0 then [0] else writeGroups val

def writeString (val : List UInt8) : List UInt8 := writeUInt (uint val.length) ++ val

def Item.write : Item → List UInt8
  | .uint val => writeUInt val.toNat
  | .string val => writeString val

def writeAll (items : List Item) : List UInt8 := items.flatMap Item.write

structure SerialReader where
  buf : ManagedBuffer
  pos : Nat
  src : Source

def bufSize : Nat := 1024

namespace SerialReader

def init (src : Source) : SerialReader := ⟨ManagedBuffer.init bufSize, 0, src⟩

def dropBefore (r : SerialReader) (startPos : Nat) : Except Stop ManagedBuffer :=
  if startPos ≠ 0 then r.buf.compact startPos else .ok r.buf

/-- What `readUInt` does when the position is at the end of the buffer: the bytes from
`startPos` on go to the start, and a read follows them. It may return nothing. -/
def refill (r : SerialReader) (startPos : Nat) : Except Stop (SerialReader × Bool) := do
  let buf ← r.dropBefore startPos
  let pos := uintSub r.pos startPos
  let (bytes, src) := r.src.read (uintzSub buf.cap pos)
  return (⟨← buf.deliver pos bytes, pos, src⟩, bytes ≠ [])

/-- The test for data, with the new `startPos`. -/
def ensureData (r : SerialReader) (startPos : Nat) : Except Stop (SerialReader × Nat × Bool) :=
  if r.pos = r.buf.size then do
    let (r, more) ← r.refill startPos
    return (r, 0, more)
  else return (r, startPos, true)

/-- The groups of `readUInt`, in a loop until there is one without the high bit. -/
def readGroups (errorOnUnderflow : Bool) : Nat → SerialReader → Nat → Nat → Nat → Except Stop (Nat × SerialReader)
  | 0, _, _, _, _ => .error .forever
  | n + 1, r, startPos, val, offset => do
    let (r, startPos, more) ← r.ensureData startPos
    if more then
      let b ← r.buf.get r.pos
      let r := { r with pos := uint (r.pos + 1) }
      if offset ≥ 32 then .error .undefinedShift
      else
        let val := val ||| uint ((b &&& 0x7f).toNat <<< offset)
        if b &&& 0x80 ≠ 0 then readGroups errorOnUnderflow n r startPos val (offset + 7) else return (val, r)
    else if errorOnUnderflow then .error (.thrown "Ran out of data.")
    else return (endMark, { r with pos := 0 })

/-- Each group takes a byte from the buffer or the reader. -/
def readUInt (r : SerialReader) (errorOnUnderflow : Bool) : Except Stop (Nat × SerialReader) :=
  readGroups errorOnUnderflow (r.buf.size + r.src.left.length + 1) r r.pos 0 0

def ensureCap (r : SerialReader) (requiredCap : Nat) : Except Stop ManagedBuffer :=
  if r.buf.cap < requiredCap then r.buf.grow requiredCap else .ok r.buf

/-- The loop of `readFixedString`; it gives up when a read returns nothing. -/
def readMore (size : Nat) : Nat → SerialReader → Except Stop (SerialReader × Bool)
  | 0, _ => .error .forever
  | n + 1, r =>
    if uintzSub r.buf.size r.pos < size then
      let (bytes, src) := r.src.read (uintzSub r.buf.cap r.buf.size)
      match r.buf.deliver r.buf.size bytes with
      | .error stop => .error stop
      | .ok buf => if bytes = [] then .ok (⟨buf, r.pos, src⟩, false) else readMore size n ⟨buf, r.pos, src⟩
    else .ok (r, true)

/-- A `CString` with `size` bytes from `pos` on, and a zero at the index behind them. -/
def copy (r : SerialReader) (size : Nat) : Except Stop (List UInt8) :=
  if size ≥ 2 ^ 31 then .error .wildAccess else r.buf.string r.pos size

def readFixedString (r : SerialReader) (size : Nat) (errorOnUnderflow : Bool) :
    Except Stop (Option (List UInt8) × SerialReader) := do
  if uintzSub r.buf.size r.pos ≥ size then return (some (← r.copy size), { r with pos := uint (r.pos + size) })
  else
    let buf ← r.ensureCap (uint (r.pos + size + 1))
    let (r, enough) ← readMore size (r.src.left.length + 1) { r with buf }
    if enough then
      let result ← r.copy size
      let buf ← r.buf.compact (uint (r.pos + size))
      return (some result, { r with buf, pos := 0 })
    else if errorOnUnderflow then .error (.thrown "Ran out of data.")
    else return (none, r)

def readString (r : SerialReader) (errorOnUnderflow : Bool) : Except Stop (Option (List UInt8) × SerialReader) := do
  let startPos := r.pos
  let (size, r) ← r.readUInt errorOnUnderflow
  if size = endMark then
    if errorOnUnderflow then .error (.thrown "Ran out of data.") else return (none, r)
  else
    match ← r.readFixedString size errorOnUnderflow with
    | (none, r) => return (none, { r with pos := startPos })
    | (some result, r) => return (some result, r)

def readItem (r : SerialReader) : Kind → Except Stop (Item × SerialReader)
  | .uint => do
    let (val, r) ← r.readUInt true
    return (.uint (UInt32.ofNat val), r)
  | .string => do
    match ← r.readString true with
    | (some val, r) => return (.string val, r)
    | (none, _) => .error .wildAccess

def readItems (r : SerialReader) : List Kind → Except Stop (List Item × SerialReader)
  | [] => return ([], r)
  | kind :: kinds => do
    let (item, r) ← r.readItem kind
    let (items, r) ← readItems r kinds
    return (item :: items, r)

end SerialReader

structure BufferDeserializer where
  buffer : List UInt8
  pos : Nat
  success : Bool
  lastUInt : Nat
  lastString : List UInt8
  deriving DecidableEq, Repr

namespace BufferDeserializer

def init (buffer : List UInt8) : BufferDeserializer := ⟨buffer, 0, false, 0, []⟩

variable (d : BufferDeserializer)

/-- The loop of `readUInt`; without a result there is no data left. -/
def readGroups : Nat → Nat → Nat → Nat → Except Stop (Option (Nat × Nat))
  | 0, _, _, _ => .error .forever
  | n + 1, cur, val, offset =>
    if cur = d.buffer.length then .ok none
    else if cur ≥ 2 ^ 31 then .error .wildAccess
    else match d.buffer[cur]? with
      | none => .error .wildAccess
      | some b =>
        let cur := uint (cur + 1)
        if offset ≥ 32 then .error .undefinedShift
        else
          let val := val ||| uint ((b &&& 0x7f).toNat <<< offset)
          if b &&& 0x80 ≠ 0 then readGroups n cur val (offset + 7) else .ok (some (val, cur))

def readUInt : Except Stop BufferDeserializer := do
  match ← d.readGroups (d.buffer.length + 1) d.pos 0 0 with
  | none => return { d with success := false }
  | some (val, cur) => return { d with lastUInt := val, pos := cur, success := true }

def readString : Except Stop BufferDeserializer := do
  let start := d.pos
  let d ← d.readUInt
  if d.success then
    let stringSize := d.lastUInt
    if uintzSub d.buffer.length d.pos ≥ stringSize then
      if stringSize ≥ 2 ^ 31 ∨ d.pos ≥ 2 ^ 31 ∧ stringSize ≠ 0 then .error .wildAccess
      else return { d with
        lastString := (d.buffer.drop d.pos).take stringSize
        pos := uint (d.pos + stringSize) }
    else return { d with pos := start, success := false }
  else return d

/-- Reads an item, unless it fails. -/
def readItem : Kind → Except Stop (Option Item × BufferDeserializer)
  | .uint => do
    let d ← d.readUInt
    return (if d.success then some (.uint (UInt32.ofNat d.lastUInt)) else none, d)
  | .string => do
    let d ← d.readString
    return (if d.success then some (.string d.lastString) else none, d)

def readItems (d : BufferDeserializer) : List Kind → Except Stop (List (Option Item) × BufferDeserializer)
  | [] => return ([], d)
  | kind :: kinds => do
    let (item, d) ← d.readItem kind
    let (items, d) ← readItems d kinds
    return (item :: items, d)

end BufferDeserializer

end Serial

end Crack
