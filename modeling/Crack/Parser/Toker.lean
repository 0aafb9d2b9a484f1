import Crack.Parser.Token

/-!
# The tokenizer

`transition` is the switch of `readToken`: what is done with a character in a state.
The source stream is passed to the functions that read from it. A `char` is signed,
the character classes are those of the C locale.
-/
namespace Crack

namespace Lexer

inductive State where
  | stNone | stInterpNone | stIdent | stSlash | stMinus | stPlus | stDigram | stComment | stCcomment | stCcomment2
  | stString | stStrEscapeChar | stIstrEscapeChar | stStrOctal | stIstrOctal | stStrHex | stIstrHex | stNumber
  | stIntdot | stPeriod | stZero | stFloat | stExponent | stExponent2 | stExponent3 | stAmp | stIstr | stPipe
  | stLtgt | stPostaug | stHex | stOctal | stBinary | stStrint | stRawStr | stRawStrBody | stRawStrEscape
  | stStrEscapedIndentedNewline | stIstrEscapedIndentedNewline | stIndentStr
  deriving DecidableEq, Repr

def chr (c : Char) : UInt8 := c.toUInt8

def isSpace (ch : UInt8) : Bool := ch = 32 || (9 ≤ ch && ch ≤ 13)
def isBlank (ch : UInt8) : Bool := ch = 32 || ch = 9
def isDigit (ch : UInt8) : Bool := chr '0' ≤ ch && ch ≤ chr '9'
def isAlpha (ch : UInt8) : Bool := (chr 'a' ≤ ch && ch ≤ chr 'z') || (chr 'A' ≤ ch && ch ≤ chr 'Z')
def isAlnum (ch : UInt8) : Bool := isAlpha ch || isDigit ch
def isXDigit (ch : UInt8) : Bool :=
  isDigit ch || (chr 'a' ≤ ch && ch ≤ chr 'f') || (chr 'A' ≤ ch && ch ≤ chr 'F')

/-- `ch < 0`. -/
def negative (ch : UInt8) : Bool := 0x80 ≤ ch

def isQuote (ch : UInt8) : Bool := ch = chr '"' || ch = chr '\''

def tabWidth := 8

/-- The members for indented strings. The levels are ints, for lines of less than 2 ^ 28 characters. -/
structure Indent where
  indentedString : Bool
  indentLevel : Nat
  minIndentLevel : Nat
  deriving DecidableEq, Repr

def Indent.init (indented : Bool) (i : Indent) : Indent :=
  if indented then { indentedString := true, indentLevel := 0, minIndentLevel := 0x7fffffff }
  else { i with indentedString := false }

/-- A line that starts after a newline, or none; its indentation so far. -/
def evaluateLoop : List UInt8 → Option Nat → Nat → Option Nat × Nat
  | [], line, min => (line, min)
  | c :: val, line, min =>
    if c = chr '\n' then evaluateLoop val (some 0) min
    else
      match line with
      | none => evaluateLoop val none min
      | some indent =>
        if c = chr ' ' then evaluateLoop val (some (indent + 1)) min
        else if c = chr '\t' then evaluateLoop val (some ((indent / tabWidth + 1) * tabWidth)) min
        else evaluateLoop val none (if indent < min then indent else min)

def evaluateIndentation (val : List UInt8) (i : Indent) : Indent :=
  match evaluateLoop val none i.minIndentLevel with
  | (some indent, min) => { i with minIndentLevel := if indent ≠ 0 ∧ indent < min then indent else min }
  | (none, min) => { i with minIndentLevel := min }

def dedent (indent min : Nat) : Nat := if min ≤ indent then indent - min else indent

def fixLoop (min : Nat) : List UInt8 → Option Nat → List UInt8
  | [], none => []
  | [], some indent => chr '\n' :: List.replicate (dedent indent min) (chr ' ')
  | c :: val, line =>
    if c = chr '\n' then (if line.isSome then [chr '\n'] else []) ++ fixLoop min val (some 0)
    else
      match line with
      | none => c :: fixLoop min val none
      | some indent =>
        if c = chr ' ' then fixLoop min val (some (indent + 1))
        else if c = chr '\t' then fixLoop min val (some ((indent / tabWidth + 1) * tabWidth))
        else chr '\n' :: List.replicate (dedent indent min) (chr ' ') ++ c :: fixLoop min val none

def fixIndentation (val : List UInt8) (i : Indent) : List UInt8 := fixLoop i.minIndentLevel val none

/-- The variables of `readToken`; `symchars` up to its terminator. -/
structure Locals where
  terminator : UInt8
  symchars : List UInt8
  t1 : TokenType
  t2 : TokenType
  t3 : TokenType
  codeChar : UInt8
  codeLen : Nat
  buf : List UInt8
  deriving DecidableEq, Repr

/-- `t3` is compared where it may not have been set: `junk` is what it holds then. -/
def Locals.start (junk : TokenType) : Locals :=
  { terminator := 0, symchars := [], t1 := junk, t2 := junk, t3 := junk, codeChar := 0, codeLen := 0, buf := [] }

def Locals.put (l : Locals) (chars : List UInt8) : Locals := { l with buf := l.buf ++ chars }

/-- What is done with a character. -/
inductive Move where
  /-- White space between tokens. -/
  | space
  | go (state : State) (i : Indent) (l : Locals)
  /-- Put back, to be read again in another state. -/
  | again (state : State) (i : Indent) (l : Locals)
  /-- The last character of a token. -/
  | done (state : State) (i : Indent) (type : TokenType) (data : List UInt8)
  /-- Put back after the end of a token. -/
  | peek (state : State) (type : TokenType) (data : List UInt8)
  /-- Put back, with the period before it. -/
  | peekDot (data : List UInt8)
  /-- Put back after an identifier or keyword. -/
  | ident (data : List UInt8)
  | abort (type : TokenType) (data : List UInt8) (msg : String)
  deriving DecidableEq, Repr

section Transitions

open Move State

variable (i : Indent) (l : Locals) (ch : UInt8)

/-- The states after `&`, `|`, `+` and `-`: twice the character, with `=`, or alone. -/
def twice (c : Char) (tw aug one : TokenType) : Move :=
  if ch = chr c then done stNone i tw [chr c, chr c]
  else if ch = chr '=' then done stNone i aug [chr c, chr '=']
  else peek stNone one [chr c]

/-- `st_interpNone`, into which `st_none` falls through. -/
def base : Move :=
  if isSpace ch then space
  else if isAlpha ch || ch = chr '_' || negative ch then go stIdent i (l.put [ch])
  else if ch = chr '#' then go stComment i { l with symchars := [ch] }
  else if ch = chr ';' then done stNone i .semi (ascii ";")
  else if ch = chr ',' then done stNone i .comma (ascii ",")
  else if ch = chr '=' then go stDigram i { l with symchars := [ch], t1 := .assign, t2 := .eq }
  else if ch = chr '!' then go stDigram i { l with symchars := [ch], t1 := .bang, t2 := .ne }
  else if ch = chr '>' then
    go stLtgt i { l with symchars := [ch], t1 := .gt, t2 := .ge, t3 := .bitRSh }
  else if ch = chr '<' then
    go stLtgt i { l with symchars := [ch], t1 := .lt, t2 := .le, t3 := .bitLSh }
  else if ch = chr '(' then done stNone i .lparen (ascii "(")
  else if ch = chr ')' then done stNone i .rparen (ascii ")")
  else if ch = chr '\x7b' then done stNone i .lcurly (ascii "\x7b")
  else if ch = chr '\x7d' then done stNone i .rcurly (ascii "\x7d")
  else if ch = chr '[' then done stNone i .lbracket (ascii "[")
  else if ch = chr ']' then done stNone i .rbracket (ascii "]")
  else if ch = chr '$' then done stNone i .dollar (ascii "$")
  else if ch = chr '+' then go stPlus i l
  else if ch = chr '-' then go stMinus i l
  else if ch = chr '&' then go stAmp i l
  else if ch = chr '|' then go stPipe i l
  else if ch = chr '*' then
    go stPostaug i { l with symchars := [ch], t1 := .asterisk, t2 := .assignAsterisk }
  else if ch = chr '%' then
    go stPostaug i { l with symchars := [ch], t1 := .percent, t2 := .assignPercent }
  else if ch = chr '/' then go stSlash i l
  else if ch = chr '^' then
    go stPostaug i { l with symchars := [ch], t1 := .bitXor, t2 := .assignXor }
  else if isQuote ch then go stString (i.init false) { l with terminator := ch, t1 := .string }
  else if ch = chr ':' then
    go stDigram i { l with symchars := [ch], t1 := .colon, t2 := .define, t3 := .scoping }
  else if ch = chr '.' then go stPeriod i l
  else if ch = chr '@' then done stNone i .ann (ascii "@")
  else if isDigit ch then
    if ch = chr '0' then go stZero i l else go stNumber i (l.put [ch])
  else if ch = chr '~' then done stNone i .tilde (ascii "~")
  else if ch = chr '\x60' then done stIstr (i.init false) .istrBegin (ascii "\x60")
  else if ch = chr '?' then done stNone i .quest (ascii "?")
  else abort .dot [] "unknown token"

/-- `st_ident`, into which the states after a letter fall through. -/
def inIdent : Move :=
  if !isAlnum ch && ch ≠ chr '_' && !negative ch && ch ≠ 0 then Move.ident l.buf else go stIdent i (l.put [ch])

/-- `st_digram`, into which `st_ltgt` falls through. -/
def digram : Move :=
  if ch = chr '=' then done stNone i l.t2 (l.symchars ++ [ch])
  else if ch = chr ':' ∧ l.t3 = .scoping then done stNone i l.t3 (ascii "::")
  else peek stNone l.t1 (l.symchars.take 1)

/-- The end of a character in a string, or in an i-string. -/
def escapeChar (str octal hex newline : State) : Move :=
  let back := fun c => go str i (l.put [c])
  if ch = chr 't' then back 9
  else if ch = chr 'n' then back 10
  else if ch = chr 'a' then back 7
  else if ch = chr 'r' then back 13
  else if ch = chr 'b' then back 8
  else if ch = chr 'x' then go hex i { l with codeChar := 0, codeLen := 0 }
  else if ch = chr '\n' then
    if i.indentedString then go newline { i with indentLevel := 0 } l else go str i l
  else if isDigit ch && ch < chr '8' then go octal i { l with codeChar := ch - chr '0', codeLen := 1 }
  else back ch

def escapedNewline (state str : State) : Move :=
  if ch = chr ' ' then go state { i with indentLevel := i.indentLevel + 1 } l
  else if ch = chr '\t' then go state { i with indentLevel := (i.indentLevel / tabWidth + 1) * tabWidth } l
  else
    again str
      { i with minIndentLevel := if i.indentLevel < i.minIndentLevel then i.indentLevel else i.minIndentLevel } l

def octalCode (state str : State) : Move :=
  if isDigit ch && ch < chr '8' && l.codeLen < 3 then
    go state i { l with codeChar := l.codeChar <<< 3 ||| (ch - chr '0'), codeLen := l.codeLen + 1 }
  else again str i (l.put [l.codeChar])

def hexValue : Option UInt8 :=
  if isDigit ch then some (ch - chr '0')
  else if chr 'a' ≤ ch && ch ≤ chr 'f' then some (ch - chr 'a' + 10)
  else if chr 'A' ≤ ch && ch ≤ chr 'F' then some (ch - chr 'A' + 10)
  else none

def hexCode (state str : State) : Move :=
  match hexValue ch with
  | none => abort .string l.buf "invalid hex code escape sequence (must be two hex digits)"
  | some v =>
    let codeChar := l.codeChar <<< 4 ||| v
    let l := { l with codeChar := codeChar, codeLen := l.codeLen + 1 }
    if l.codeLen = 2 then go str i (l.put [codeChar]) else go state i l

/-- The digits of a binary, octal or hex constant. -/
def digits (digit : UInt8 → Bool) (state : State) (type : TokenType) (msg : String) : Move :=
  if digit ch then go state i (l.put [ch])
  else if l.buf = [] then abort .string l.buf msg
  else peek stNone type l.buf

/-- The switch of `readToken`. -/
def transition (state : State) : Move :=
  match state with
  | stNone =>
    if ch = chr 'i' || ch = chr 'b' then go stStrint i (l.put [ch])
    else if ch = chr 'r' then go stRawStr i (l.put [ch])
    else if ch = chr 'I' then go stIndentStr i (l.put [ch])
    else base i l ch
  | stInterpNone => base i l ch
  | stAmp => twice i ch '&' .logicAnd .assignAnd .bitAnd
  | stPipe => twice i ch '|' .logicOr .assignOr .bitOr
  | stMinus => twice i ch '-' .decr .assignMinus .minus
  | stPlus => twice i ch '+' .incr .assignPlus .plus
  | stLtgt =>
    if l.symchars.head? = some ch then
      go stPostaug i
        { l with
          symchars := l.symchars ++ [ch]
          t1 := l.t3
          t2 := if ch = chr '<' then .assignLSh else .assignRSh }
    else digram i l ch
  | stDigram => digram i l ch
  | stPeriod => if isDigit ch then go stFloat i (l.put [chr '.', ch]) else peek stNone .dot (ascii ".")
  | stStrint =>
    -- a slash disambiguates this from a hex value with a leading 'b'
    if isQuote ch then go stString i { l.put [chr '/'] with t1 := .integer, terminator := ch }
    else inIdent i l ch
  | stRawStr =>
    if isQuote ch then go stRawStrBody i { l with terminator := ch, buf := [] } else inIdent i l ch
  | stIndentStr =>
    if isQuote ch then go stString (i.init true) { l with terminator := ch, buf := [], t1 := .string }
    else if ch = chr '\x60' then done stIstr (i.init true) .istrBegin (ascii "\x60")
    else inIdent i l ch
  | stIdent => inIdent i l ch
  | stSlash =>
    if ch = chr '/' then go stComment i { l with symchars := [ch] }
    else if ch = chr '=' then done stNone i .assignSlash (ascii "/=")
    else if ch = chr '*' then go stCcomment i l
    else peek stNone .slash (ascii "/")
  | stComment =>
    let val := l.buf ++ [ch]
    if ch = chr '\n' then
      if val.head? = l.symchars.head? then done stNone i .doc (val.drop 1) else go stNone i { l with buf := [] }
    else go stComment i { l with buf := val }
  | stCcomment => if ch = chr '*' then go stCcomment2 i l else go stCcomment i (l.put [ch])
  | stCcomment2 =>
    if ch = chr '/' then
      if l.buf.head? = some (chr '*') then done stNone i .doc (l.buf.drop 1) else go stNone i { l with buf := [] }
    else if ch ≠ chr '*' then go stCcomment i (l.put [chr '*', ch])
    else go stCcomment2 i (l.put (ascii "**"))
  | stString =>
    if ch = l.terminator then
      if i.indentedString then
        let i := evaluateIndentation l.buf i
        done stNone i l.t1 (fixIndentation l.buf i)
      else done stNone i l.t1 l.buf
    else if ch = chr '\\' then go stStrEscapeChar i l
    else go stString i (l.put [ch])
  | stStrEscapeChar => escapeChar i l ch stString stStrOctal stStrHex stStrEscapedIndentedNewline
  | stIstrEscapeChar => escapeChar i l ch stIstr stIstrOctal stIstrHex stIstrEscapedIndentedNewline
  | stStrEscapedIndentedNewline => escapedNewline i l ch stStrEscapedIndentedNewline stString
  | stIstrEscapedIndentedNewline => escapedNewline i l ch stIstrEscapedIndentedNewline stIstr
  | stStrOctal => octalCode i l ch stStrOctal stString
  | stIstrOctal => octalCode i l ch stIstrOctal stIstr
  | stStrHex => hexCode i l ch stStrHex stString
  | stIstrHex => hexCode i l ch stIstrHex stIstr
  | stBinary => digits i l ch (fun c => c = chr '0' || c = chr '1') stBinary .binLit "invalid binary constant"
  | stRawStrBody =>
    if ch = l.terminator then done stNone i .string l.buf
    else if ch = chr '\\' then go stRawStrEscape i (l.put [ch])
    else go stRawStrBody i (l.put [ch])
  | stRawStrEscape => go stRawStrBody i (l.put [ch])
  | stOctal => digits i l ch (fun c => chr '0' ≤ c && c ≤ chr '7') stOctal .octalLit "invalid octal constant"
  | stHex => digits i l ch isXDigit stHex .hexLit "invalid hex constant"
  | stZero =>
    if ch = chr 'x' || ch = chr 'X' then go stHex i l
    else if ch = chr 'o' || ch = chr 'O' then go stOctal i (l.put [chr '0'])
    else if ch = chr 'b' then go stBinary i l
    else if ch = chr '.' then go stFloat i (l.put [ch])
    else if isDigit ch then again stOctal i l
    else peek stNone .integer (ascii "0")
  | stNumber =>
    if isDigit ch then go stNumber i (l.put [ch])
    else if ch = chr '.' then go stIntdot i l
    else if ch = chr 'e' || ch = chr 'E' then go stExponent i (l.put [ch])
    else peek stNone .integer l.buf
  | stIntdot => if isDigit ch then go stFloat i (l.put [chr '.', ch]) else peekDot l.buf
  | stFloat =>
    if isDigit ch then go stFloat i (l.put [ch])
    else if ch = chr 'e' || ch = chr 'E' then go stExponent i (l.put [ch])
    else peek stNone .floatLit l.buf
  | stExponent =>
    if ch = chr '+' || ch = chr '-' then go stExponent2 i (l.put [ch])
    else if isDigit ch then go stExponent3 i (l.put [ch])
    else abort .string l.buf "invalid float specification"
  | stExponent2 =>
    if isDigit ch then go stExponent3 i (l.put [ch]) else abort .string l.buf "invalid float specification"
  | stExponent3 => if isDigit ch then go stExponent3 i (l.put [ch]) else peek stNone .floatLit l.buf
  | stIstr =>
    -- no reindenting here: that is done at the next level up
    if ch = chr '\x60' then
      if l.buf ≠ [] then peek stIstr .string l.buf else done stNone i .istrEnd (ascii "\x60")
    else if ch = chr '$' then done stInterpNone i .string l.buf
    else if ch = chr '\\' then go stIstrEscapeChar i l
    else go stIstr i (l.put [ch])
  | stPostaug =>
    if ch = chr '=' then done stNone i l.t2 (l.symchars ++ [ch]) else peek stNone l.t1 l.symchars

end Transitions

/-- The tokenizer, but for its source stream. -/
structure Toker where
  /-- The tokens that were put back, the last one first. -/
  tokens : List Token := []
  currentName : List UInt8
  currentLine : Int
  currentStartCol : Int
  currentEndCol : Int
  saveEndCol : Int
  lastLoc : Location
  state : State
  /-- The characters that were put back, the last one first. -/
  putbackBuf : List UInt8 := []
  indent : Indent
  deriving DecidableEq, Repr

namespace Toker

/-- `saveEndCol`, `indentLevel` and `minIndentLevel` are not read before they are set. -/
def new (sourceName : List UInt8) (lineNumber : Int) : Toker where
  currentName := sourceName
  currentLine := lineNumber
  currentStartCol := 1
  currentEndCol := 1
  saveEndCol := 0
  lastLoc := { name := sourceName, lineNumber := 1, startCol := 1, endCol := 0 }
  state := .stNone
  indent := { indentedString := false, indentLevel := 0, minIndentLevel := 0 }

def getLocation (t : Toker) : Location × Toker :=
  if t.currentName = t.lastLoc.getName ∧ t.currentLine = t.lastLoc.lineNumber ∧
      t.currentStartCol = t.lastLoc.startCol ∧ t.currentEndCol = t.lastLoc.endCol then
    (t.lastLoc, t)
  else
    let loc : Location :=
      { name := t.currentName, lineNumber := t.currentLine, startCol := t.currentStartCol,
        endCol := t.currentEndCol - 1 }
    (loc, { t with lastLoc := loc })

/-- The next character and the rest of the stream; none at its end. -/
def getChar (t : Toker) (src : List UInt8) : Option (UInt8 × List UInt8) × Toker :=
  let count := fun (t : Toker) (ch : UInt8) =>
    let t := { t with currentEndCol := t.currentEndCol + 1 }
    if ch = chr '\n' then
      { t with
        currentLine := t.currentLine + 1
        saveEndCol := t.currentEndCol - 1
        currentStartCol := 1
        currentEndCol := 1 }
    else t
  match t.putbackBuf, src with
  | ch :: putbackBuf, src => (some (ch, src), count { t with putbackBuf := putbackBuf } ch)
  | [], ch :: src => (some (ch, src), count t ch)
  | [], [] => (none, { t with currentEndCol := t.currentEndCol + 1 })

def ungetChar (t : Toker) (ch : UInt8) : Toker :=
  let t := { t with putbackBuf := ch :: t.putbackBuf }
  if ch = chr '\n' then { t with currentLine := t.currentLine - 1, currentEndCol := t.saveEndCol }
  else { t with currentEndCol := t.currentEndCol - 1 }

/-- The keywords of `fixIdent`. -/
def keywords : List TokenType :=
  [.breakKw, .catchKw, .classKw, .continueKw, .elseKw, .ifKw, .importKw, .inKw, .isKw, .nullKw, .returnKw, .throwKw,
   .tryKw, .whileKw, .onKw, .operKw, .forKw, .typeofKw, .constKw, .moduleKw, .lambdaKw, .enumKw, .aliasKw, .caseKw,
   .switchKw, .doKw]

def keyword (data : List UInt8) : Option TokenType :=
  keywords.find? fun k => k.spelling.map ascii = some data

def fixIdent (t : Toker) (data : List UInt8) (loc : Location) : Token × Toker :=
  match keyword data with
  | some k => (⟨k, data, loc⟩, t)
  | none => (⟨.ident, data, t.getLocation.1⟩, t.getLocation.2)

/-- A token, an exception or an assertion that failed. -/
inductive Result where
  | token (tok : Token) (t : Toker) (src : List UInt8)
  | abort (tok : Token) (msg : String)
  | assertion (msg : String)
  deriving DecidableEq, Repr

/-- The end of its loop: it can also meet the end of the stream. -/
inductive Loop where
  | result (r : Result)
  | eof (t : Toker) (l : Locals)
  deriving DecidableEq, Repr

/-- `return Token(type, data, getLocation())`. -/
def give (t : Toker) (type : TokenType) (data : List UInt8) (src : List UInt8) : Result :=
  .token ⟨type, data, t.getLocation.1⟩ t.getLocation.2 src

def enter (t : Toker) (state : State) (i : Indent) : Toker := { t with state := state, indent := i }

/-- What a move does: read on, or the result. -/
def perform (t : Toker) (l : Locals) (ch : UInt8) (src : List UInt8) (move : Move) : Toker × Locals ⊕ Result :=
  match move with
  | .space =>
    let t := { t with state := .stNone }
    .inl (if isBlank ch then { t with currentStartCol := t.currentStartCol + 1 } else t, l)
  | .go state i l => .inl (t.enter state i, l)
  | .again state i l => .inl ((t.ungetChar ch).enter state i, l)
  | .done state i type data => .inr ((t.enter state i).give type data src)
  | .peek state type data => .inr (((t.ungetChar ch).enter state t.indent).give type data src)
  | .peekDot data => .inr ((((t.ungetChar ch).ungetChar (chr '.')).enter .stNone t.indent).give .integer data src)
  | .ident data =>
    let t := (t.ungetChar ch).enter .stNone t.indent
    let r := t.getLocation.2.fixIdent data t.getLocation.1
    .inr (.token r.1 r.2 src)
  | .abort type data msg => .inr (.abort ⟨type, data, t.getLocation.1⟩ msg)

/-- What is left to read. -/
def rest (t : Toker) (src : List UInt8) : List UInt8 := t.putbackBuf ++ src

end Toker

/-- The states that put a character back without the end of a token. -/
def State.rank : State → Nat
  | .stZero | .stStrOctal | .stIstrOctal | .stStrEscapedIndentedNewline | .stIstrEscapedIndentedNewline => 1
  | _ => 0

/-- What a move does to the rank. -/
def Move.Ranked (state : State) : Move → Prop
  | .again state' _ _ => state.rank = 1 ∧ state'.rank = 0
  | _ => True

/-- A property of both branches. -/
theorem of_ite (P : Move → Prop) {c : Prop} [Decidable c] {m m' : Move} (h : c → P m) (h' : ¬ c → P m') :
    P (if c then m else m') := by
  by_cases hc : c
  · rw [if_pos hc]
    exact h hc
  · rw [if_neg hc]
    exact h' hc

section Ranks

variable (i : Indent) (l : Locals) (ch : UInt8) (state : State)

theorem ranked_hexCode (str : State) : (hexCode i l ch state str).Ranked state := by
  unfold hexCode
  split
  · trivial
  · exact of_ite (Move.Ranked state) (fun _ => trivial) (fun _ => trivial)

theorem ranked_transition : (transition i l ch state).Ranked state := by
  cases state
  case stStrHex | stIstrHex => exact ranked_hexCode i l ch _ _
  all_goals
    simp only [transition, base, inIdent, twice, digram, escapeChar, escapedNewline, octalCode, digits]
    repeat' refine of_ite (Move.Ranked _) (fun _ => ?_) (fun _ => ?_)
  all_goals trivial

end Ranks

namespace Toker

@[simp] theorem state_getLocation (t : Toker) : t.getLocation.2.state = t.state := by
  unfold getLocation
  split <;> rfl

@[simp] theorem putbackBuf_getLocation (t : Toker) : t.getLocation.2.putbackBuf = t.putbackBuf := by
  unfold getLocation
  split <;> rfl

theorem getChar_eof {t t' : Toker} {src : List UInt8} (h : t.getChar src = (none, t')) :
    t.rest src = [] ∧ t' = { t with currentEndCol := t.currentEndCol + 1 } := by
  unfold getChar at h
  cases hp : t.putbackBuf with
  | cons c p => rw [hp] at h; cases h
  | nil =>
    cases src with
    | cons c src => rw [hp] at h; cases h
    | nil =>
      rw [hp] at h
      cases h
      exact ⟨by rw [rest, hp, List.nil_append], rfl⟩

variable {src src' : List UInt8}

/-- A character that was read was the first one left; putting it back does no more
than to leave it again. -/
theorem getChar_some {t t' : Toker} {ch : UInt8} (h : t.getChar src = (some (ch, src'), t')) :
    t.rest src = ch :: t'.rest src' ∧ t'.state = t.state ∧ t'.indent = t.indent := by
  unfold getChar at h
  cases hp : t.putbackBuf with
  | cons c p =>
    rw [hp] at h
    cases h
    rw [rest, hp]
    dsimp only
    split <;> exact ⟨rfl, rfl, rfl⟩
  | nil =>
    cases src with
    | nil => rw [hp] at h; cases h
    | cons c src =>
      rw [hp] at h
      cases h
      rw [rest, hp]
      dsimp only
      split <;> exact ⟨by simp [rest, hp], rfl, rfl⟩

@[simp] theorem state_enter (t : Toker) (state : State) (i : Indent) : (t.enter state i).state = state := rfl
@[simp] theorem rest_enter (t : Toker) (state : State) (i : Indent) (src : List UInt8) :
    (t.enter state i).rest src = t.rest src := rfl

theorem rest_ungetChar (t : Toker) (ch : UInt8) (src : List UInt8) : (t.ungetChar ch).rest src = ch :: t.rest src := by
  unfold ungetChar rest
  dsimp only
  split <;> rfl

/-- How often the loop can still be run. -/
def left (t : Toker) (src : List UInt8) : Nat := 2 * (t.rest src).length + t.state.rank

theorem rank_le (state : State) : state.rank ≤ 1 := by
  cases state <;> decide

theorem left_perform {t t' t'' : Toker} {ch : UInt8} {l l' : Locals} (h : t.getChar src = (some (ch, src'), t'))
    (hp : t'.perform l ch src' (transition t'.indent l ch t'.state) = .inl (t'', l')) :
    t''.left src' < t.left src := by
  obtain ⟨hrest, hstate, -⟩ := getChar_some h
  have hlen : (t.rest src).length = (t'.rest src').length + 1 := congrArg List.length hrest
  have hrank := ranked_transition t'.indent l ch t'.state
  cases hm : transition t'.indent l ch t'.state with
  | space =>
    rw [hm] at hp
    obtain ⟨rfl, rfl⟩ := Prod.mk.inj (Sum.inl.inj hp)
    have hz := rank_le t.state
    simp only [left, hlen]
    split <;> simp only [rest, State.rank, List.length_append] <;> omega
  | go state i l'' =>
    rw [hm] at hp
    obtain ⟨rfl, rfl⟩ := Prod.mk.inj (Sum.inl.inj hp)
    have hz := rank_le state
    simp only [left, hlen, rest_enter, state_enter]
    omega
  | again state i l'' =>
    rw [hm] at hp hrank
    obtain ⟨rfl, rfl⟩ := Prod.mk.inj (Sum.inl.inj hp)
    obtain ⟨h1, h0⟩ := hrank
    rw [hstate] at h1
    simp only [left, hlen, rest_enter, state_enter, rest_ungetChar, List.length_cons, h1, h0]
    omega
  | done | peek | peekDot | ident | abort => rw [hm] at hp; cases hp

/-- The loop of `readToken`. -/
def readLoop (t : Toker) (l : Locals) (src : List UInt8) : Loop :=
  match _ : t.getChar src with
  | (none, t) => .eof t l
  | (some (ch, src), t') =>
    match _ : t'.perform l ch src (transition t'.indent l ch t'.state) with
    | .inl (t'', l) => readLoop t'' l src
    | .inr r => .result r
termination_by t.left src
decreasing_by exact left_perform ‹_› ‹_›

/-- The end of the stream, where it is expected. -/
def endOfStream (t : Toker) (l : Locals) : Result :=
  match t.state with
  | .stNone | .stComment => (t.enter .stNone t.indent).give .end [] []
  | .stIdent =>
    -- it's ok for identifiers to be up against the end of the stream
    (t.enter .stNone t.indent).give .ident l.buf []
  | _ => .abort ⟨.end, [], t.getLocation.1⟩ "End of stream in the middle of a token"

def readToken (junk : TokenType) (t : Toker) (src : List UInt8) : Result :=
  -- start col is where the last location ended, plus one
  let t := { t with currentStartCol := t.lastLoc.endCol + 1 }
  match t.readLoop (Locals.start junk) src with
  | .result r => r
  | .eof t l => t.endOfStream l

/-- None if the assertion fails. -/
def continueIString (t : Toker) : Option Toker := if t.state = .stNone then some { t with state := .stIstr } else none

def invalidState : Result := .assertion "continueIString in invalid state"

/-- The tokens of an indented i-string after the first one. -/
inductive Batch where
  | tokens (toks : List Token) (t : Toker) (src : List UInt8)
  | failed (r : Result)
  deriving DecidableEq, Repr

def Batch.cons (tok : Token) : Batch → Batch
  | .tokens toks t src => .tokens (tok :: toks) t src
  | .failed r => .failed r

/-- What the parser would do about the last token: the parentheses that are open, and
whether scanning of the string goes on; none for a nested i-string. -/
def approximate (type : TokenType) (parens : Nat) : Option (Nat × Bool) :=
  if parens ≠ 0 then
    if type = .lparen then some (parens + 1, false)
    else if type = .rparen then some (parens - 1, parens - 1 = 0)
    else if type = .istrBegin then none
    else some (parens, false)
  else if type = .lparen then some (1, false)
  else some (0, type = .ident)

/-- `continueIString` if `b`. -/
def continueIf (t : Toker) (b : Bool) : Option Toker := if b then t.continueIString else some t

/-- The loop of `getToken`. Every token that is not the last one takes a character. -/
def readBatch (junk : TokenType) (t : Toker) (src : List UInt8) (last : Token) (parens : Nat) : Batch :=
  if last.type = .istrEnd ∨ last.type = .end then .tokens [] t src
  else
    match approximate last.type parens with
    | none => .failed (.abort last "Nested i-strings are not currently supported.")
    | some (parens, continued) =>
      match t.continueIf continued with
      | none => .failed invalidState
      | some t' =>
        match t'.readToken junk src with
        | .token tok t' src' =>
          if tok.type = .end then .tokens [tok] t' src'
          -- always true: see `rest_readToken`
          else if _ : (t'.rest src').length < (t.rest src).length then
            (readBatch junk t' src' tok parens).cons tok
          else .failed (.assertion "no progress")
        | r => .failed r
termination_by (t.rest src).length

def isString (tok : Token) : Bool := tok.type = .string

/-- Reindent the strings of an i-string together. -/
def reindentAll (toks : List Token) (i : Indent) : List Token × Indent :=
  let i := toks.foldl (fun i tok => if isString tok then evaluateIndentation tok.data i else i) i
  (toks.map fun tok => if isString tok then { tok with data := fixIndentation tok.data i } else tok, i)

def getToken (junk : TokenType) (t : Toker) (src : List UInt8) : Result :=
  match t.tokens with
  | temp :: tokens =>
    -- leave the i-string unless a string is passed on, and enter it at its start
    let state :=
      if t.state = .stIstr ∧ temp.type ≠ .string ∧ temp.type ≠ .istrBegin then .stNone
      else if temp.type = .istrBegin then .stIstr
      else t.state
    .token temp { t with tokens := tokens, state := state } src
  | [] =>
    match t.readToken junk src with
    | .token tok t src =>
      if t.indent.indentedString ∧ tok.type = .istrBegin then
        match readBatch junk t src tok 0 with
        | .failed r => r
        | .tokens toks t src =>
          let (toks, i) := reindentAll (tok :: toks) t.indent
          .token (toks.headD tok) { t with tokens := toks.tail, indent := i } src
      else .token tok t src
    | r => r

/-- What is left to read and to hand out. -/
def size (t : Toker) (src : List UInt8) : Nat := 2 * (t.rest src).length + t.tokens.length

/-- The type and the text of a token. -/
def item (tok : Token) : TokenType × List UInt8 := (tok.type, tok.data)

/-- The tokens up to the end of the stream, and whether it was reached. Between two
tokens the client may let the scanning of an i-string go on. -/
def run (junk : TokenType) (client : List (TokenType × List UInt8) → Bool) (t : Toker) (src : List UInt8)
    (seen : List (TokenType × List UInt8)) : List Token × Bool :=
  match t.getToken junk src with
  | .token tok t' src' =>
    if tok.type = .end then ([tok], true)
    else
      match t'.continueIf (client (seen ++ [item tok])) with
      | none => ([tok], false)
      | some t'' =>
        -- always true: see `size_getToken`
        if _ : t''.size src' < t.size src then
          let r := run junk client t'' src' (seen ++ [item tok])
          (tok :: r.1, r.2)
        else ([tok], false)
  | _ => ([], false)
termination_by t.size src

end Toker

end Lexer

end Crack
