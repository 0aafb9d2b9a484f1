import Crack.Http.RequestProcessor
import Crack.Lang.AppendRoom
import Crack.Lib.Effects

/-!
# Parser of json2

The methods of the parser, over what they use of its buffer and of its handler. The bytes of
a string or a number go to an `AppendBuffer`, of which there is what it holds. A `float64` is
of any type, and so is the result of `strtod`.
-/
namespace Crack

namespace Json2

open Http (isSpace isDigit)

/-- The calls to the methods of a `Handler`. -/
inductive Call (F : Type) where
  | onBeginObject
  | onEndObject
  | onBeginList
  | onEndList
  | onBool (value : Bool)
  | onNumber (value : F)
  | onNull
  | onString (value : List UInt8)
  deriving DecidableEq, Repr

/-- What the parser throws. -/
inductive Failure where
  /-- `ParseError`; `error` adds what is left in the buffer. -/
  | parseError (message : String) (rest : Option (List UInt8))
  /-- `InvalidArgumentError` -/
  | invalidArgument (message : String)
  /-- An error of a buffer, or an `@assert`. -/
  | stop (s : Stop)
  /-- A byte appended before the memory of an `AppendBuffer`. -/
  | wildAppend
  deriving DecidableEq, Repr

def hexDec (char : UInt8) : Except Failure Nat :=
  if 48 ≤ char ∧ char ≤ 57 then .ok (char.toNat - 48)
  else if 97 ≤ char ∧ char ≤ 102 then .ok (char.toNat - 97 + 10)
  else if 65 ≤ char ∧ char ≤ 70 then .ok (char.toNat - 65 + 10)
  else .error (.invalidArgument "Illegal character value")

/-- What `appendUTF8Char` appends. -/
def utf8Char (char : Nat) : List UInt8 :=
  if char ≤ 0x7f then [UInt8.ofNat char]
  else if char ≤ 0x7ff then [(0xc0 : UInt8) ||| UInt8.ofNat (char >>> 6), (0x80 : UInt8) ||| UInt8.ofNat (char &&& 0x3f)]
  else if char ≤ 0xffff then
    [(0xe0 : UInt8) ||| UInt8.ofNat (char >>> 12), (0x80 : UInt8) ||| UInt8.ofNat ((char >>> 6) &&& 0x3f),
      (0x80 : UInt8) ||| UInt8.ofNat (char &&& 0x3f)]
  else
    [(0xf0 : UInt8) ||| UInt8.ofNat (char >>> 18), (0x80 : UInt8) ||| UInt8.ofNat ((char >>> 12) &&& 0x3f),
      (0x80 : UInt8) ||| UInt8.ofNat ((char >>> 6) &&& 0x3f), (0x80 : UInt8) ||| UInt8.ofNat (char &&& 0x3f)]

/-- The byte for the letter of an escape, other than `u`. -/
def unescape (ch : UInt8) : UInt8 :=
  if ch = 98 then 8 else if ch = 102 then 12 else if ch = 110 then 10 else if ch = 114 then 13
  else if ch = 116 then 9 else ch

/-- The buffer and the handler, as the methods of the parser use them. -/
class Input (σ : Type) (F : outParam Type) where
  /-- `__want` -/
  want (bytes : Nat) : Effect Failure σ Bool
  /-- `__buf[__pos + i]` -/
  get (i : Nat) : Effect Failure σ UInt8
  /-- The memory from `__buf.buffer + __pos` on. -/
  memory (count : Nat) : Effect Failure σ (List UInt8)
  /-- `__pos += count` -/
  skip (count : Nat) : Effect Failure σ Unit
  /-- `__pos < __buf.size` -/
  inside : Effect Failure σ Bool
  /-- The buffer from `__pos` on. -/
  rest : Effect Failure σ (List UInt8)
  call (c : Call F) : Effect Failure σ Unit

section Methods

open Input

variable {σ F : Type} [Input σ F]

def liftExcept {α : Type} (r : Except Failure α) : Effect Failure σ α := fun s => (r, s)

/-- `append` of an `AppendBuffer`, on what it holds. The index of the byte has 32 bits and a sign. -/
def append (result : List UInt8) (ch : UInt8) : Effect Failure σ (List UInt8) :=
  if result.length < 2 ^ 31 then return result ++ [ch] else .throw .wildAppend

def appendUTF8Char (result : List UInt8) (char : Nat) : Effect Failure σ (List UInt8) :=
  (utf8Char char).foldlM append result

def need (bytes : Nat) : Effect Failure σ Unit := do
  if ← want bytes then return () else .throw (.parseError "Unexpected EOF" none)

def peek : Effect Failure σ UInt8 := do
  if ← want 1 then get 0 else return 0

def next : Effect Failure σ UInt8 := do
  if ← inside then skip 1; peek else .throw (.stop .assertion)

def getch : Effect Failure σ UInt8 := do
  need 1
  let ch ← get 0
  skip 1
  return ch

def error (message : String) : Effect Failure σ Unit := do
  let rest ← rest
  .throw (.parseError message (some rest))

/-- `error`, where the buffer does not go on as expected. -/
def expect (p : Prop) [Decidable p] (message : String) : Effect Failure σ Unit :=
  if p then return () else error message

/-- `hexDec(__buf[__pos + i])` -/
def hexDigit (i : Nat) : Effect Failure σ Nat := do
  liftExcept (hexDec (← get i))

/-- The character of the four digits behind `\u`. -/
def uchar : Effect Failure σ Nat := do
  let a ← hexDigit 0
  let b ← hexDigit 1
  let c ← hexDigit 2
  let d ← hexDigit 3
  return a <<< 12 ||| b <<< 8 ||| c <<< 4 ||| d

/-- The loop of `__parseString`. -/
def stringLoop : Nat → List UInt8 → Effect Failure σ (List UInt8)
  | 0, _ => .throw (.stop .forever)
  | fuel + 1, result => do
    let ch ← getch
    if ch = 34 then return result
    else if ch = 92 then
      let ch ← getch
      if ch = 117 then
        need 4
        let uchar ← uchar
        skip 4
        stringLoop fuel (← appendUTF8Char result uchar)
      else stringLoop fuel (← append result (unescape ch))
    else stringLoop fuel (← append result ch)

def parseString (fuel : Nat) : Effect Failure σ Unit := do
  skip 1
  let result ← stringLoop fuel []
  call (.onString result)

def spaceLoop : Nat → Effect Failure σ Unit
  | 0 => .throw (.stop .forever)
  | fuel + 1 => do
    if isSpace (← get 0) then
      skip 1
      need 1
      spaceLoop fuel
    else return ()

def consumeSpace (fuel : Nat) : Effect Failure σ Unit := do
  need 1
  spaceLoop fuel

/-- One character that has to be next, and the space behind it. -/
def separator (ch : UInt8) (message : String) (fuel : Nat) : Effect Failure σ Unit := do
  expect ((← get 0) = ch) message
  skip 1
  consumeSpace fuel

/-- The loop of `__parseArray`. -/
def arrayLoop (parse : Effect Failure σ Unit) : Nat → Effect Failure σ Unit
  | 0 => .throw (.stop .forever)
  | fuel + 1 => do
    parse
    consumeSpace fuel
    if (← get 0) = 93 then return ()
    else
      separator 44 "Comma or end bracket expected" fuel
      arrayLoop parse fuel

def parseArray (parse : Effect Failure σ Unit) (fuel : Nat) : Effect Failure σ Unit := do
  skip 1
  call .onBeginList
  consumeSpace fuel
  let ch ← get 0
  (if ch ≠ 93 then arrayLoop parse fuel else return ())
  skip 1
  call .onEndList

/-- The loop of `__parseObject`. -/
def objectLoop (parse : Effect Failure σ Unit) : Nat → Effect Failure σ Unit
  | 0 => .throw (.stop .forever)
  | fuel + 1 => do
    expect ((← get 0) = 34) "String expected for object key"
    parseString fuel
    consumeSpace fuel
    separator 58 "Colon expected after object key" fuel
    parse
    consumeSpace fuel
    if (← get 0) = 125 then return ()
    else
      separator 44 "Comma or end bracket expected" fuel
      objectLoop parse fuel

def parseObject (parse : Effect Failure σ Unit) (fuel : Nat) : Effect Failure σ Unit := do
  skip 1
  call .onBeginObject
  consumeSpace fuel
  let ch ← get 0
  (if ch ≠ 125 then objectLoop parse fuel else return ())
  skip 1
  call .onEndObject

/-- `true`, `false` and `null` -/
def trueText : List UInt8 := [116, 114, 117, 101]
def falseText : List UInt8 := [102, 97, 108, 115, 101]
def nullText : List UInt8 := [110, 117, 108, 108]

/-- The text is compared with `false` only if five bytes were asked for. -/
def isFalse (count : Nat) : Effect Failure σ Bool :=
  if count ≥ 5 then do return decide ((← memory 5) = falseText) else return false

def parseKeyword (count : Nat) : Effect Failure σ Unit := do
  need count
  if (← memory 4) = trueText then
    skip 4
    call (.onBool true)
  else if ← isFalse count then
    skip 5
    call (.onBool false)
  else if (← memory 4) = nullText then
    skip 4
    call .onNull
  else error "Unexpected token"

/-- The loop of `__parseInt`. -/
def intLoop : Nat → List UInt8 → UInt8 → Effect Failure σ (List UInt8)
  | 0, _, _ => .throw (.stop .forever)
  | fuel + 1, temp, ch => do
    if isDigit ch then
      let _ ← next
      let temp ← append temp ch
      intLoop fuel temp (← peek)
    else return temp

def parseInt (fuel : Nat) (temp : List UInt8) : Effect Failure σ (List UInt8) := do
  let ch ← peek
  if ch = 45 ∨ ch = 43 then
    let temp ← append temp ch
    let ch ← next
    expect (isDigit ch) "Expected digit after sign"
    intLoop fuel temp ch
  else intLoop fuel temp ch

/-- The loop for the fraction in `__parseNumber`. -/
def fractionLoop : Nat → List UInt8 → Effect Failure σ (List UInt8 × UInt8)
  | 0, _ => .throw (.stop .forever)
  | fuel + 1, temp => do
    let ch ← peek
    if isDigit ch then
      let temp ← append temp ch
      let _ ← next
      fractionLoop fuel temp
    else return (temp, ch)

def fraction (fuel : Nat) (temp : List UInt8) : Effect Failure σ (List UInt8 × UInt8) := do
  let ch ← peek
  if ch = 46 then
    let temp ← append temp ch
    let _ ← next
    fractionLoop fuel temp
  else return (temp, ch)

def exponent (fuel : Nat) (temp : List UInt8) (ch : UInt8) : Effect Failure σ (List UInt8) := do
  if ch = 101 ∨ ch = 69 then
    let temp ← append temp ch
    let _ ← next
    parseInt fuel temp
  else return temp

def parseNumber (strtod : List UInt8 → F) (fuel : Nat) : Effect Failure σ Unit := do
  let temp ← parseInt fuel []
  let (temp, ch) ← fraction fuel temp
  let temp ← exponent fuel temp ch
  -- the end of the C string
  let _ ← append temp 0
  call (.onNumber (strtod temp))

def parse (strtod : List UInt8 → F) : Nat → Effect Failure σ Unit
  | 0 => .throw (.stop .forever)
  | fuel + 1 => do
    consumeSpace fuel
    let ch ← get 0
    if ch = 34 then parseString fuel
    else if ch = 91 then parseArray (parse strtod fuel) fuel
    else if ch = 123 then parseObject (parse strtod fuel) fuel
    else if ch = 102 then parseKeyword 5
    else if ch = 116 ∨ ch = 110 then parseKeyword 4
    else if isDigit ch ∨ ch = 45 then parseNumber strtod fuel
    else error "Unexpected token"

end Methods

/-- Only bytes behind the last index of an `int` are left. -/
def Beyond (src : Source) (far : Nat) : Prop := src.left ≠ [] ∧ src.left.length ≤ far

instance (src : Source) (far : Nat) : Decidable (Beyond src far) := inferInstanceAs (Decidable (_ ∧ _))

/-- The handler is the list of the calls to it. A read of a `StringReader` cannot begin at the last `far` bytes. -/
structure Parser (F : Type) where
  pos : Nat
  buf : ManagedBuffer
  src : Source
  far : Nat
  handler : List (Call F)

namespace Parser

variable {F : Type}

def init (src : Source) (far : Nat) : Parser F := ⟨0, .init 1024, src, far, []⟩

/-- One read of `__src`, behind what is in the buffer or into an empty one. -/
def read (buf : ManagedBuffer) (src : Source) : ManagedBuffer × Source :=
  if buf.size ≠ 0 then
    let (bytes, src) := src.read (uintzSub 1024 buf.size)
    (buf.receive buf.size bytes, src)
  else
    let (bytes, src) := src.read buf.cap
    (buf.receive 0 bytes, src)

def want (bytes : Nat) : Effect Failure (Parser F) Bool := fun p =>
  if uintzSub p.buf.size p.pos < bytes then
    match p.buf.compact p.pos with
    | .error s => (.error (.stop s), p)
    | .ok buf =>
      if Beyond p.src p.far then (.error (.stop .wildAccess), p)
      else
        let (buf, src) := read buf p.src
        (.ok (decide (bytes ≤ buf.size)), { p with pos := 0, buf, src })
  else (.ok true, p)

def ofBuffer {α : Type} (r : Except Stop α) : Except Failure α := r.mapError .stop

instance : Input (Parser F) F where
  want := want
  get i := fun p => (ofBuffer (p.buf.get (p.pos + i)), p)
  memory count := fun p => (ofBuffer (p.buf.string p.pos count), p)
  skip count := fun p => (.ok (), { p with pos := p.pos + count })
  inside := fun p => (.ok (decide (p.pos < p.buf.size)), p)
  rest := fun p => (ofBuffer (p.buf.string p.pos (uintzSub p.buf.size p.pos)), p)
  call c := fun p => (.ok (), { p with handler := p.handler ++ [c] })

end Parser

/-- Enough fuel for a text. -/
def enough (text : List UInt8) : Nat := text.length + 2

/-- The parser on a text, whose reads are split in some way. -/
def parseText {F : Type} (strtod : List UInt8 → F) (text : List UInt8) (splits : Nat → Nat) (far : Nat) :
    Except Failure Unit × Parser F :=
  parse strtod (enough text) (.init ⟨text, splits⟩ far)

end Json2

end Crack
