import Crack.Enc.Json2Handler

/-!
# JSON texts

A JSON value together with the way it is written: the white space, the escapes, the digits
of the numbers. It has its text, its value, and the calls of a handler for it.
-/
namespace Crack

namespace Json2

inductive White where
  | space
  | tab
  | lineFeed
  | carriageReturn
  deriving DecidableEq, Repr

def White.byte : White → UInt8
  | .space => 32
  | .tab => 9
  | .lineFeed => 10
  | .carriageReturn => 13

abbrev Gap := List White

def Gap.text (gap : Gap) : List UInt8 := gap.map White.byte

structure Hex where
  value : Fin 16
  upper : Bool
  deriving DecidableEq, Repr

def Hex.byte (h : Hex) : UInt8 :=
  if h.value.val < 10 then UInt8.ofNat (48 + h.value.val)
  else UInt8.ofNat ((if h.upper then 55 else 87) + h.value.val)

/-- The digits of a `\u` sequence. -/
structure CodeUnit where
  a : Hex
  b : Hex
  c : Hex
  d : Hex
  deriving DecidableEq, Repr

namespace CodeUnit

variable (u : CodeUnit)

def value : Nat := u.a.value.val * 4096 + u.b.value.val * 256 + u.c.value.val * 16 + u.d.value.val

def text : List UInt8 := [92, 117, u.a.byte, u.b.byte, u.c.byte, u.d.byte]

def High : Prop := 0xd800 ≤ u.value ∧ u.value < 0xdc00

def Low : Prop := 0xdc00 ≤ u.value ∧ u.value < 0xe000

instance : Decidable u.High := inferInstanceAs (Decidable (_ ∧ _))

instance : Decidable u.Low := inferInstanceAs (Decidable (_ ∧ _))

end CodeUnit

inductive Escape where
  | quote
  | backslash
  | slash
  | backspace
  | formFeed
  | lineFeed
  | carriageReturn
  | tab
  deriving DecidableEq, Repr

namespace Escape

def letter : Escape → UInt8
  | .quote => 34
  | .backslash => 92
  | .slash => 47
  | .backspace => 98
  | .formFeed => 102
  | .lineFeed => 110
  | .carriageReturn => 114
  | .tab => 116

def char : Escape → Char
  | .quote => '"'
  | .backslash => '\\'
  | .slash => '/'
  | .backspace => Char.ofNat 8
  | .formFeed => Char.ofNat 12
  | .lineFeed => Char.ofNat 10
  | .carriageReturn => Char.ofNat 13
  | .tab => Char.ofNat 9

end Escape

/-- A character of a string, as it is written. -/
inductive Piece where
  | raw (c : Char) (h : 32 ≤ c.toNat ∧ c.toNat ≠ 34 ∧ c.toNat ≠ 92)
  | escape (e : Escape)
  | unit (u : CodeUnit) (h : ¬ u.High ∧ ¬ u.Low)
  /-- A character behind `U+FFFF`, as two surrogates. -/
  | pair (hi lo : CodeUnit) (hhi : hi.High) (hlo : lo.Low)

namespace Piece

def char : Piece → Char
  | .raw c _ => c
  | .escape e => e.char
  | .unit u _ => Char.ofNat u.value
  | .pair hi lo _ _ => Char.ofNat (0x10000 + (hi.value - 0xd800) * 0x400 + (lo.value - 0xdc00))

def text : Piece → List UInt8
  | .raw c _ => String.utf8EncodeChar c
  | .escape e => [92, e.letter]
  | .unit u _ => u.text
  | .pair hi lo _ _ => hi.text ++ lo.text

/-- What the parser makes of it. -/
def parsed : Piece → List UInt8
  | .pair hi lo _ _ => utf8Char hi.value ++ utf8Char lo.value
  | p => String.utf8EncodeChar p.char

def IsPair : Piece → Prop
  | .pair _ _ _ _ => True
  | _ => False

end Piece

abbrev Quoted := List Piece

namespace Quoted

def text (s : Quoted) : List UInt8 := 34 :: (s.flatMap Piece.text ++ [34])

/-- The characters in UTF-8. -/
def value (s : Quoted) : List UInt8 := s.flatMap fun p => String.utf8EncodeChar p.char

def parsed (s : Quoted) : List UInt8 := s.flatMap Piece.parsed

def Paired (s : Quoted) : Prop := ∃ p ∈ s, p.IsPair

end Quoted

/-- At least one digit. -/
structure Digits where
  first : Fin 10
  more : List (Fin 10)
  deriving DecidableEq, Repr

def digit (d : Fin 10) : UInt8 := UInt8.ofNat (48 + d.val)

def Digits.text (d : Digits) : List UInt8 := digit d.first :: d.more.map digit

inductive Sign where
  | none
  | plus
  | minus
  deriving DecidableEq, Repr

def Sign.text : Sign → List UInt8
  | .none => []
  | .plus => [43]
  | .minus => [45]

structure Exponent where
  upper : Bool
  sign : Sign
  digits : Digits
  deriving DecidableEq, Repr

def Exponent.letter (e : Exponent) : UInt8 := if e.upper then 69 else 101

structure Number where
  minus : Bool
  int : Digits
  /-- There are no leading zeros. -/
  leading : int.first = 0 → int.more = []
  frac : Option Digits
  exp : Option Exponent

namespace Number

variable (n : Number)

def intText : List UInt8 := (if n.minus then [45] else []) ++ n.int.text

def fracText : List UInt8 := match n.frac with
  | none => []
  | some d => 46 :: d.text

def expText : List UInt8 := match n.exp with
  | none => []
  | some e => e.letter :: (e.sign.text ++ e.digits.text)

def text : List UInt8 := n.intText ++ n.fracText ++ n.expText

end Number

mutual

inductive Doc where
  | null
  | bool (b : Bool)
  | number (n : Number)
  | string (s : Quoted)
  | emptyArray (gap : Gap)
  | array (items : Items)
  | emptyObject (gap : Gap)
  | object (members : Members)

/-- The items of an array that is not empty. -/
inductive Items where
  | last (before : Gap) (item : Doc) (behind : Gap)
  | more (before : Gap) (item : Doc) (behind : Gap) (items : Items)

/-- The members of an object that is not empty: a key, a gap, a colon, a gap and a value. -/
inductive Members where
  | last (before : Gap) (key : Quoted) (gap gap' : Gap) (item : Doc) (behind : Gap)
  | more (before : Gap) (key : Quoted) (gap gap' : Gap) (item : Doc) (behind : Gap) (members : Members)

end

mutual

def Doc.text : Doc → List UInt8
  | .null => nullText
  | .bool true => trueText
  | .bool false => falseText
  | .number n => n.text
  | .string s => s.text
  | .emptyArray gap => 91 :: (gap.text ++ [93])
  | .array items => 91 :: (items.text ++ [93])
  | .emptyObject gap => 123 :: (gap.text ++ [125])
  | .object members => 123 :: (members.text ++ [125])

def Items.text : Items → List UInt8
  | .last before item behind => before.text ++ (item.text ++ behind.text)
  | .more before item behind items => before.text ++ (item.text ++ (behind.text ++ 44 :: items.text))

def Members.text : Members → List UInt8
  | .last before key gap gap' item behind =>
    before.text ++ (key.text ++ (gap.text ++ 58 :: (gap'.text ++ (item.text ++ behind.text))))
  | .more before key gap gap' item behind members =>
    before.text ++ (key.text ++ (gap.text ++ 58 :: (gap'.text ++ (item.text ++ (behind.text ++ 44 :: members.text)))))

end

section Objects

variable {F : Type} (strtod : List UInt8 → F) (string : Quoted → List UInt8)

-- The object for a value, where a string is some bytes.
mutual

def Doc.build : Doc → Object F
  | .null => .null
  | .bool b => .bool b
  | .number n => .number (strtod n.text)
  | .string s => .string (string s)
  | .emptyArray _ => .list []
  | .array items => .list items.build
  | .emptyObject _ => .map []
  | .object members => .map (members.entries.foldl (fun obj e => Object.put obj e.1 e.2) [])

def Items.build : Items → List (Object F)
  | .last _ item _ => [item.build]
  | .more _ item _ items => item.build :: items.build

/-- The keys with their values, as they are written. -/
def Members.entries : Members → List (List UInt8 × Object F)
  | .last _ key _ _ item _ => [(string key, item.build)]
  | .more _ key _ _ item _ members => (string key, item.build) :: members.entries

end

/-- The value, with strings in UTF-8. -/
def Doc.value (d : Doc) : Object F := d.build strtod Quoted.value

mutual

def Doc.calls : Doc → List (Call F)
  | .null => [.onNull]
  | .bool b => [.onBool b]
  | .number n => [.onNumber (strtod n.text)]
  | .string s => [.onString s.parsed]
  | .emptyArray _ => [.onBeginList, .onEndList]
  | .array items => .onBeginList :: (items.calls ++ [.onEndList])
  | .emptyObject _ => [.onBeginObject, .onEndObject]
  | .object members => .onBeginObject :: (members.calls ++ [.onEndObject])

def Items.calls : Items → List (Call F)
  | .last _ item _ => item.calls
  | .more _ item _ items => item.calls ++ items.calls

def Members.calls : Members → List (Call F)
  | .last _ key _ _ item _ => .onString key.parsed :: item.calls
  | .more _ key _ _ item _ members => .onString key.parsed :: (item.calls ++ members.calls)

end

end Objects

/-- The keys of an object. -/
def Members.keys : Members → List Quoted
  | .last _ key _ _ _ _ => [key]
  | .more _ key _ _ _ _ members => key :: members.keys

-- The keys of each object differ.
mutual

def Doc.Distinct : Doc → Prop
  | .array items => items.Distinct
  | .object members => (members.keys.map Quoted.value).Nodup ∧ members.Distinct
  | _ => True

def Items.Distinct : Items → Prop
  | .last _ item _ => item.Distinct
  | .more _ item _ items => item.Distinct ∧ items.Distinct

def Members.Distinct : Members → Prop
  | .last _ _ _ _ item _ => item.Distinct
  | .more _ _ _ _ item _ members => item.Distinct ∧ members.Distinct

end

-- No string, key or number is too long for the memory where the parser gathers it. A number has its end there too.
mutual

def Doc.Short : Doc → Prop
  | .number n => n.text.length < 2 ^ 31
  | .string s => s.parsed.length ≤ 2 ^ 31
  | .array items => items.Short
  | .object members => members.Short
  | _ => True

def Items.Short : Items → Prop
  | .last _ item _ => item.Short
  | .more _ item _ items => item.Short ∧ items.Short

def Members.Short : Members → Prop
  | .last _ key _ _ item _ => key.parsed.length ≤ 2 ^ 31 ∧ item.Short
  | .more _ key _ _ item _ members => key.parsed.length ≤ 2 ^ 31 ∧ item.Short ∧ members.Short

end

-- Somewhere in a string or a key, a character is written as two surrogates.
mutual

def Doc.Paired : Doc → Prop
  | .string s => s.Paired
  | .array items => items.Paired
  | .object members => members.Paired
  | _ => False

def Items.Paired : Items → Prop
  | .last _ item _ => item.Paired
  | .more _ item _ items => item.Paired ∨ items.Paired

def Members.Paired : Members → Prop
  | .last _ key _ _ item _ => key.Paired ∨ item.Paired
  | .more _ key _ _ item _ members => key.Paired ∨ item.Paired ∨ members.Paired

end

end Json2

end Crack
