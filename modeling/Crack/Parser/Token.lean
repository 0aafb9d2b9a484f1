import Mathlib.Tactic.Common

/-!
# Tokens

The tokens of the tokenizer and their locations. A text is a sequence of bytes;
lines and columns are `int`s.
-/
namespace Crack

/-- The bytes of an ASCII text. -/
def ascii (s : String) : List UInt8 := s.toList.map Char.toUInt8

namespace Lexer

/-- The types of tokens. A value without a name can still be stored. -/
inductive TokenType where
  | ann | bitAnd | bitLSh | bitOr | bitRSh | bitXor | aliasKw | breakKw | caseKw | catchKw | classKw | constKw
  | continueKw | dollar | enumKw | forKw | elseKw | ifKw | importKw | inKw | isKw | lambdaKw | moduleKw | nullKw
  | onKw | operKw | returnKw | switchKw | throwKw | tryKw | typeofKw | whileKw | assign | assignAnd
  | assignAsterisk | assignLSh | assignOr | assignRSh | assignXor | assignMinus | assignPercent | assignPlus
  | assignSlash | asterisk | bang | colon | comma | decr | define | dot | end | eq | ge | gt | ident | incr
  | integer | lbracket | lcurly | le | lparen | lt | minus | ne | percent | plus | quest | rbracket | rcurly
  | rparen | semi | slash | string | tilde | istrBegin | istrEnd | logicAnd | logicOr | floatLit | octalLit
  | hexLit | binLit | scoping | doKw | doc
  -- pop error context
  | popErrCtx
  -- file name and line number in cached meta-data
  | fileName | lineNumber
  | unnamed (value : Nat)
  deriving DecidableEq, Repr

namespace TokenType

def value : TokenType → Nat
  | fileName => 125
  | lineNumber => 126
  | unnamed v => v
  | t => t.ctorIdx

/-- The types that are numbered in their order. -/
def ordered : List TokenType :=
  [ann, bitAnd, bitLSh, bitOr, bitRSh, bitXor, aliasKw, breakKw, caseKw, catchKw, classKw, constKw,
   continueKw, dollar, enumKw, forKw, elseKw, ifKw, importKw, inKw, isKw, lambdaKw, moduleKw, nullKw,
   onKw, operKw, returnKw, switchKw, throwKw, tryKw, typeofKw, whileKw, assign, assignAnd,
   assignAsterisk, assignLSh, assignOr, assignRSh, assignXor, assignMinus, assignPercent, assignPlus,
   assignSlash, asterisk, bang, colon, comma, decr, define, dot, .end, eq, ge, gt, ident, incr,
   integer, lbracket, lcurly, le, lparen, lt, minus, ne, percent, plus, quest, rbracket, rcurly,
   rparen, semi, slash, string, tilde, istrBegin, istrEnd, logicAnd, logicOr, floatLit, octalLit,
   hexLit, binLit, scoping, doKw, doc, popErrCtx]

/-- The conversion of an integer. -/
def ofValue (v : Nat) : TokenType :=
  if v = 125 then fileName
  else if v = 126 then lineNumber
  else ordered.getD v (unnamed v)

theorem ofValue_value (t : TokenType) (h : ∀ v, t ≠ unnamed v) : ofValue t.value = t := by
  cases t with
  | unnamed v => exact absurd rfl (h v)
  | _ => rfl

/-- The text that the tokenizer gives to every token of a type; none where the text
depends on the source. -/
def spelling : TokenType → Option String
  | ann => "@" | bitAnd => "&" | bitLSh => "<<" | bitOr => "|" | bitRSh => ">>" | bitXor => "^"
  | aliasKw => "alias" | breakKw => "break" | caseKw => "case" | catchKw => "catch" | classKw => "class"
  | constKw => "const" | continueKw => "continue" | dollar => "$" | enumKw => "enum" | forKw => "for"
  | elseKw => "else" | ifKw => "if" | importKw => "import" | inKw => "in" | isKw => "is" | lambdaKw => "lambda"
  | moduleKw => "module" | nullKw => "null" | onKw => "on" | operKw => "oper" | returnKw => "return"
  | switchKw => "switch" | throwKw => "throw" | tryKw => "try" | typeofKw => "typeof" | whileKw => "while"
  | assign => "=" | assignAnd => "&=" | assignAsterisk => "*=" | assignLSh => "<<=" | assignOr => "|="
  | assignRSh => ">>=" | assignXor => "^=" | assignMinus => "-=" | assignPercent => "%=" | assignPlus => "+="
  | assignSlash => "/=" | asterisk => "*" | bang => "!" | colon => ":" | comma => "," | decr => "--"
  | define => ":=" | dot => "." | .end => "" | eq => "==" | ge => ">=" | gt => ">" | incr => "++"
  | lbracket => "[" | lcurly => "\x7b" | le => "<=" | lparen => "(" | lt => "<" | minus => "-" | ne => "!="
  | percent => "%" | plus => "+" | quest => "?" | rbracket => "]" | rcurly => "\x7d" | rparen => ")"
  | semi => ";" | slash => "/" | tilde => "~" | istrBegin | istrEnd => "\x60" | logicAnd => "&&"
  | logicOr => "||" | scoping => "::" | doKw => "do"
  | ident | integer | string | floatLit | octalLit | hexLit | binLit | doc => none
  | popErrCtx | fileName | lineNumber | unnamed _ => none

/-- The types that the tokenizer makes. -/
def fromSource : TokenType → Bool
  | popErrCtx | fileName | lineNumber | unnamed _ => false
  | _ => true

end TokenType

structure Location where
  name : List UInt8
  lineNumber : Int
  startCol : Int
  endCol : Int
  deriving DecidableEq, Repr

namespace Location

/-- What is returned for a location that is null. -/
def null : Location := { name := [], lineNumber := 0, startCol := 0, endCol := 0 }

/-- The name as a C string. -/
def getName (loc : Location) : List UInt8 := loc.name.takeWhile (· ≠ 0)

/-- Lines and columns are `int`s that are not negative. -/
structure Counted (loc : Location) : Prop where
  line : 0 ≤ loc.lineNumber ∧ loc.lineNumber ≤ 0x7fffffff
  col : 0 ≤ loc.startCol ∧ loc.startCol ≤ 0x7fffffff

end Location

structure Token where
  type : TokenType
  data : List UInt8
  loc : Location
  deriving DecidableEq, Repr

/-- A token of the tokenizer: where its type has a spelling, that is its text. -/
structure Token.Lexed (tok : Token) : Prop where
  fromSource : tok.type.fromSource
  data : ∀ txt, tok.type.spelling = some txt → tok.data = ascii txt

end Lexer

end Crack
