import Crack.Lib.Loops
import Crack.Lib.Precedence

/-!
# Expressions

`parseExpression` and `parseSecondary` over the tokens of expressions. An operand
of one token stands for everything `parsePrimary` reads; the look-up of the
operators' functions, which only rejects more, and constant folding are left out.
Tokens that were put back are the first of the tokens left.
-/
namespace Crack

namespace Parser

/-- The token types of `Token::isBinOp`. -/
inductive BinOp where
  | plus | minus | asterisk | slash | percent | eq | ne | lt | gt | le | ge | isKw
  | logicAnd | logicOr | bitAnd | bitOr | bitXor | bitLSh | bitRSh
  deriving DecidableEq, Repr

/-- The text of the token. -/
def BinOp.data : BinOp → String
  | plus => "+" | minus => "-" | asterisk => "*" | slash => "/" | percent => "%"
  | eq => "==" | ne => "!=" | lt => "<" | gt => ">" | le => "<=" | ge => ">=" | isKw => "is"
  | logicAnd => "&&" | logicOr => "||" | bitAnd => "&" | bitOr => "|" | bitXor => "^"
  | bitLSh => "<<" | bitRSh => ">>"

inductive Token where
  | ident (n : Nat)
  /-- An integer, octal, hex, binary or float constant. -/
  | number (n : Nat)
  | lparen | rparen
  | binOp (op : BinOp)
  | bang | tilde | incr | decr | quest | colon
  /-- A token that no expression goes on with. -/
  | other (n : Nat)
  deriving DecidableEq, Repr

inductive Expr where
  | ident (n : Nat)
  | number (n : Nat)
  /-- The call of an operator's function with one operand. -/
  | unary (symbol : String) (operand : Expr)
  | binary (symbol : String) (lhs rhs : Expr)
  | ternary (cond trueVal falseVal : Expr)
  deriving DecidableEq, Repr

inductive Error where
  | outOfFuel
  /-- An argument list after an operand: calls are operands here. -/
  | call
  | text (msg : String)
  deriving DecidableEq, Repr

abbrev Result (α : Type) := Except Error α

section Precedences

def noPrec := 0
def logOrPrec := 1
def logAndPrec := 2
def bitOrPrec := 3
def bitXorPrec := 4
def bitAndPrec := 5
def cmpPrec := 6
def shiftPrec := 7
def addPrec := 8
def multPrec := 9
def unaryPrec := 10

/-- Unary operators have an "x" appended. -/
def opPrecMap : List (String × Nat) :=
  [("!x", unaryPrec), ("-x", unaryPrec), ("--x", unaryPrec), ("++x", unaryPrec), ("~x", unaryPrec),
   ("*", multPrec), ("/", multPrec), ("%", multPrec), ("+", addPrec), ("<<", shiftPrec), (">>", shiftPrec),
   ("-", addPrec), ("==", cmpPrec), ("!=", cmpPrec), ("<", cmpPrec), (">", cmpPrec), ("<=", cmpPrec),
   (">=", cmpPrec), ("is", cmpPrec), ("&", bitAndPrec), ("^", bitXorPrec), ("|", bitOrPrec),
   ("&&", logAndPrec), ("||", logOrPrec)]

def getPrecedence (op : String) : Result Nat :=
  match opPrecMap.lookup op with
  | some prec => .ok prec
  | none => .error (.text ("got operator with no precedence: '" ++ op ++ "'"))

end Precedences

/-- The unary operators that stand before their operand. -/
inductive UnaryOp where
  | bang | minus | tilde | decr | incr
  deriving DecidableEq, Repr

def UnaryOp.data : UnaryOp → String
  | bang => "!" | minus => "-" | tilde => "~" | decr => "--" | incr => "++"

/-- The name of the operator's function. -/
def UnaryOp.symbol (op : UnaryOp) : String :=
  if op = incr ∨ op = decr then "oper " ++ op.data ++ "x" else "oper " ++ op.data

def Token.unaryOp : Token → Option UnaryOp
  | bang => some .bang
  | binOp .minus => some .minus
  | tilde => some .tilde
  | decr => some .decr
  | incr => some .incr
  | _ => none

/-- The right operand of `op` and the call of its function. -/
def parseBinOp (parseExpression : Nat → List Token → Result (Expr × List Token)) (expr : Expr) (op : BinOp)
    (precedence : Nat) (toks : List Token) : Result (Expr × List Token) := do
  let (rhs, toks) ← parseExpression precedence toks
  .ok (.binary ("oper " ++ op.data) expr rhs, toks)

/-- What follows the `?` of a conditional. -/
def parseTernary (parseExpression : Nat → List Token → Result (Expr × List Token)) (cond : Expr)
    (toks : List Token) : Result (Expr × List Token) := do
  let (trueVal, toks) ← parseExpression noPrec toks
  match toks with
  | .colon :: toks =>
    let (falseVal, toks) ← parseExpression noPrec toks
    .ok (.ternary cond trueVal falseVal, toks)
  | _ => .error (.text "expected colon.")

variable (isType : Expr → Bool)

mutual

def parseExpression : Nat → Nat → List Token → Result (Expr × List Token)
  | 0, _, _ => .error .outOfFuel
  | fuel + 1, precedence, toks =>
    match toks with
    | .lparen :: toks => do
      let (expr, toks) ← parseExpression fuel noPrec toks
      match toks with
      | .rparen :: toks => parseSecondary fuel precedence expr toks
      | _ => .error (.text "expected a right paren")
    | .ident n :: toks => parseSecondary fuel precedence (.ident n) toks
    | .number n :: toks => parseSecondary fuel precedence (.number n) toks
    | .binOp .plus :: toks =>
      match toks with
      | .number n :: toks => parseSecondary fuel precedence (.number n) toks
      | _ => .error (.text "unexpected unary +")
    | tok :: toks =>
      match tok.unaryOp with
      | some op => do
        let operandPrec ← getPrecedence (op.data ++ "x")
        let (operand, toks) ← parseExpression fuel operandPrec toks
        parseSecondary fuel precedence (.unary op.symbol operand) toks
      | none => .error (.text "expected an expression")
    | [] => .error (.text "expected an expression")

def parseSecondary : Nat → Nat → Expr → List Token → Result (Expr × List Token)
  | 0, _, _, _ => .error .outOfFuel
  | fuel + 1, precedence, expr, toks =>
    match toks with
    | .incr :: toks => parseSecondary fuel precedence (.unary "oper x++" expr) toks
    | .decr :: toks => parseSecondary fuel precedence (.unary "oper x--" expr) toks
    | .binOp op :: rest => do
      let newPrec ← getPrecedence op.data
      if newPrec ≤ precedence then
        .ok (expr, toks)
      else
        let (expr, toks) ← parseBinOp (parseExpression fuel) expr op newPrec rest
        parseSecondary fuel precedence expr toks
    | .quest :: rest => do
      if logOrPrec ≤ precedence then
        .ok (expr, toks)
      else
        let (expr, toks) ← parseTernary (parseExpression fuel) expr rest
        parseSecondary fuel precedence expr toks
    | .bang :: .binOp .isKw :: rest => do
      let newPrec ← getPrecedence BinOp.isKw.data
      if newPrec ≤ precedence then
        -- only the `!` is put back
        .ok (expr, .bang :: rest)
      else
        let (expr, toks) ← parseBinOp (parseExpression fuel) expr .isKw newPrec rest
        parseSecondary fuel precedence (.unary UnaryOp.bang.symbol expr) toks
    | .bang :: _ =>
      if isType expr then .error (.text "Sequence initializer ('[ ... ]') expected after 'type!'")
      else .error (.text "Exclamation point can not follow a non-type expression")
    | .lparen :: _ => .error .call
    | _ => .ok (expr, toks)

end

variable {isType} (fuel p : Nat) (e : Expr) (op : BinOp) (toks : List Token)

theorem parseExpression_lparen : parseExpression isType (fuel + 1) p (.lparen :: toks) = (do
    let (expr, toks) ← parseExpression isType fuel noPrec toks
    match toks with
    | .rparen :: toks => parseSecondary isType fuel p expr toks
    | _ => .error (.text "expected a right paren")) := rfl

theorem parseSecondary_binOp : parseSecondary isType (fuel + 1) p e (.binOp op :: toks) = (do
    let newPrec ← getPrecedence op.data
    if newPrec ≤ p then .ok (e, .binOp op :: toks)
    else
      let (expr, toks) ← parseBinOp (parseExpression isType fuel) e op newPrec toks
      parseSecondary isType fuel p expr toks) := rfl

theorem parseSecondary_ternary : parseSecondary isType (fuel + 1) p e (.quest :: toks) = (do
    if logOrPrec ≤ p then .ok (e, .quest :: toks)
    else
      let (expr, toks) ← parseTernary (parseExpression isType fuel) e toks
      parseSecondary isType fuel p expr toks) := rfl

theorem parseSecondary_notIs : parseSecondary isType (fuel + 1) p e (.bang :: .binOp .isKw :: toks) = (do
    let newPrec ← getPrecedence BinOp.isKw.data
    if newPrec ≤ p then .ok (e, .bang :: toks)
    else
      let (expr, toks) ← parseBinOp (parseExpression isType fuel) e .isKw newPrec toks
      parseSecondary isType fuel p (.unary UnaryOp.bang.symbol expr) toks) := rfl

end Parser

end Crack
