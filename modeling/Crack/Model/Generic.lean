import Crack.Model.Sections
import Crack.Parser.Token

/-!
# Generics

A generic is stored with the tokens of its body. File names and line numbers are
stored as tokens of their own where they change; columns are not part of the digest.
-/
namespace Crack

open Decoding DeserializationError
open Lexer (TokenType Location)

structure ImportedDef where
  localName : List UInt8
  source : List UInt8
  deriving DecidableEq, Repr

namespace ImportedDef

def serialize (i : ImportedDef) (s : Serializer) : Serializer :=
  let s := s.writeBlob i.source
  if i.localName ≠ i.source then
    s.writeSub fun ser => (ser.writeUInt (pbKey 1 pbString)).writeBlob i.localName
  else s.writeUInt 0

def deserialize : Reader ImportedDef := do
  let source ← readString
  let localName ← optionalFields
    (fun header localName => if header = pbKey 1 pbString then readString else pure localName) []
  if localName.length ≠ 0 then pure ⟨localName, source⟩ else pure ⟨source, source⟩

end ImportedDef

structure Import where
  moduleName : List (List UInt8)
  syms : List ImportedDef
  deriving DecidableEq, Repr

namespace Import

def serialize (i : Import) (s : Serializer) : Serializer :=
  let s := s.writeUInt (i.moduleName.length % uintSize)
  let s := i.moduleName.foldl Serializer.writeBlob s
  let s := s.writeUInt (i.syms.length % uintSize)
  let s := i.syms.foldl (fun s sym => sym.serialize s) s
  s.writeUInt 0

def deserialize : Reader Import := do
  let count ← readUInt
  reserve (toInt count)
  let moduleName ← readTimes readString count
  let count ← readUInt
  let syms ← readTimes ImportedDef.deserialize count
  let _ ← readString
  pure ⟨moduleName, syms⟩

/-- The contents of the object that `ImportReader` creates. -/
def contents (i : Import) : List Val :=
  i.moduleName.map .str ++ i.syms.flatMap fun sym => [.str sym.localName, .str sym.source]

def read : Reader (List Val) := do return (← deserialize).contents

end Import

structure Generic where
  /-- The names of the parameters. -/
  parms : List (List UInt8)
  body : List Lexer.Token
  /-- The imports, by address. -/
  compileNSImports : List Nat
  deriving DecidableEq, Repr

namespace Generic

/-- The conversion of an `int` to `unsigned int`. -/
def toUInt (i : Int) : Nat := (i % uintSize).toNat

/-- The types whose text is stored. -/
def hasData : TokenType → Bool
  | .integer | .string | .ident | .floatLit | .octalLit | .hexLit | .binLit => true
  | _ => false

def serializeToken (out : Serializer) (tok : Lexer.Token) : Serializer :=
  let out := out.writeUInt (tok.type.value % uintSize)
  -- only write data for token types where it matters
  let out := if hasData tok.type then out.writeBlob tok.data else out
  -- the column is not part of the digest
  out.digestOff fun out => out.writeUInt (toUInt tok.loc.startCol)

/-- The texts of `TOKTXT`. -/
def tokTxt : TokenType → String
  | .ann => "@" | .bitAnd => "&" | .bitLSh => "<<" | .bitOr => "|" | .bitRSh => ">>" | .bitXor => "^"
  | .dollar => "$" | .assign => "=" | .assignAnd => "&=" | .assignAsterisk => "*=" | .assignLSh => "<<="
  | .assignOr => "|=" | .assignRSh => ">>=" | .assignXor => "^=" | .assignMinus => "-=" | .assignPercent => "%="
  | .assignPlus => "+=" | .assignSlash => "/=" | .asterisk => "*" | .bang => "!" | .colon => ":" | .comma => ","
  | .decr => "--" | .define => ":=" | .dot => "." | .eq => "==" | .ge => ">=" | .gt => ">" | .incr => "++"
  | .lbracket => "[" | .lcurly => "\x7b" | .le => "<=" | .lparen => "(" | .lt => "<" | .minus => "-"
  | .ne => "!=" | .percent => "%" | .plus => "+" | .quest => "?" | .rbracket => "]" | .rcurly => "\x7d"
  | .rparen => ")" | .semi => ";" | .slash => "/" | .tilde => "~" | .logicAnd => "&&" | .logicOr => "||"
  | .scoping => "::" | .isKw => "is"
  | _ => ""

/-- The text of a token whose type was read. -/
def readText (tokType : TokenType) : Reader (List UInt8) :=
  if hasData tokType then readString else pure (ascii (tokTxt tokType))

/-- The last file name and line number are passed on. -/
def deserializeToken (fileName : List UInt8) (lineNum : Int) : Reader (Lexer.Token × List UInt8 × Int) := do
  let tokType := TokenType.ofValue (← readUInt)
  if tokType = .fileName then
    let fileName ← readString
    pure (⟨tokType, [], .null⟩, fileName, lineNum)
  else if tokType = .lineNumber then
    let lineNum ← readUInt
    pure (⟨tokType, [], .null⟩, fileName, toInt lineNum)
  else
    let tokText ← readText tokType
    let column ← digestOff readUInt
    let endCol := toInt ((column + tokText.length) % uintSize)
    let loc : Location :=
      { name := fileName.takeWhile (· ≠ 0), lineNumber := lineNum, startCol := toInt column, endCol := endCol }
    pure (⟨tokType, tokText, loc⟩, fileName, lineNum)

/-- The number of tokens that were written, the file name and the line number. -/
def serializeFullToken (out : Serializer) (fileName : List UInt8) (lineNum : Int) (tok : Lexer.Token) :
    Nat × List UInt8 × Int × Serializer :=
  let loc := tok.loc
  let (recount, fileName, out) :=
    if loc.getName ≠ fileName then
      (1, loc.getName, (out.writeUInt TokenType.fileName.value).writeBlob loc.getName)
    else (0, fileName, out)
  let (recount, lineNum, out) :=
    if loc.lineNumber ≠ lineNum then
      (recount + 1, loc.lineNumber, (out.writeUInt TokenType.lineNumber.value).writeUInt (toUInt loc.lineNumber))
    else (recount, lineNum, out)
  (recount + 1, fileName, lineNum, serializeToken out tok)

/-- The loop that counts the tokens, with those for changes of the file name or line. -/
def countTokens : List Lexer.Token → List UInt8 → Int → Nat → Nat
  | [], _, _, numTokens => numTokens
  | tok :: body, fileName, lineNum, numTokens =>
    let loc := tok.loc
    let (numTokens, fileName) :=
      if loc.getName ≠ fileName then (numTokens + 1, loc.getName) else (numTokens, fileName)
    let (numTokens, lineNum) :=
      if loc.lineNumber ≠ lineNum then (numTokens + 1, loc.lineNumber) else (numTokens, lineNum)
    countTokens body fileName lineNum numTokens

/-- The loop that writes the tokens and counts them again. -/
def serializeTokens : List Lexer.Token → Serializer → List UInt8 → Int → Nat → Nat × Serializer
  | [], out, _, _, recount => (recount, out)
  | tok :: body, out, fileName, lineNum, recount =>
    let (n, fileName, lineNum, out) := serializeFullToken out fileName lineNum tok
    serializeTokens body out fileName lineNum (recount + n)

/-- Imports are looked up by their address. -/
def serialize (g : Generic) (imports : Nat → Import) (out : Serializer) : Except String Serializer :=
  let out := out.writeUInt (g.compileNSImports.length % uintSize)
  let out := g.compileNSImports.foldl (fun out i => out.writeRef i (imports i).serialize) out
  let out := out.writeUInt (g.parms.length % uintSize)
  let out := g.parms.foldl Serializer.writeBlob out
  let numTokens := countTokens g.body [] (-1) g.body.length
  let out := out.writeUInt (numTokens % uintSize)
  let (recount, out) := serializeTokens g.body out [] (-1) 0
  if recount = numTokens then .ok (out.writeUInt 0)
  else .error s!"Token count mismatch: expected = {numTokens} recount ={recount}"

/-- The loop that reads the tokens. -/
def readTokens : Nat → List UInt8 → Int → Reader (List Lexer.Token)
  | 0, _, _ => pure []
  | n + 1, fileName, lineNum => do
    let (tok, fileName, lineNum) ← deserializeToken fileName lineNum
    let body ← readTokens n fileName lineNum
    pure (if tok.type.value < TokenType.fileName.value then tok :: body else body)

/-- `lineNum` is the value of a variable before it is set. -/
def deserialize (lineNum : Int) : Reader Generic := do
  let impCount ← readUInt
  let imports ← readTimes (readObject (Import.read >>= create)) (toInt impCount).toNat
  let parmCount ← readUInt
  reserve (toInt parmCount)
  let parms ← readTimes readString (toInt parmCount).toNat
  let tokCount ← readUInt
  reserve (toInt tokCount)
  let body ← readTokens (toInt tokCount).toNat [] lineNum
  let _ ← readString
  pure { parms := parms, body := body, compileNSImports := imports.map Prod.fst }

end Generic

end Crack
