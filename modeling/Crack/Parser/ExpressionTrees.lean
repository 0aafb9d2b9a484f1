import Crack.Parser.Expressions

/-!
# Expression trees

The sequences that the precedence table is for, with the tree it gives them. The
parser builds this tree unless a `!is` is met while the operand of an operator
of the same or a higher precedence is parsed.
-/
namespace Crack

namespace Parser

open Precedence Fuel

/-- What joins two operands. -/
inductive Link where
  | op (op : BinOp)
  | notIs
  deriving DecidableEq, Repr

inductive SuffixOp where
  | incr | decr
  deriving DecidableEq, Repr

mutual

inductive Primary where
  | ident (n : Nat)
  | number (n : Nat)
  | plusNumber (n : Nat)
  | paren (e : Source)

/-- The unary operators after an operand bind tighter than those before it. -/
inductive Operand where
  | bare (a : Primary) (suffixes : List SuffixOp)
  | unary (op : UnaryOp) (x : Operand)

inductive Chain where
  | last (x : Operand)
  | cons (x : Operand) (o : Link) (c : Chain)

/-- A chain of operands, as the condition of a conditional or alone. -/
inductive Source where
  | chain (c : Chain)
  | ternary (cond : Chain) (trueVal falseVal : Source)

end

section Tokens

def UnaryOp.token : UnaryOp → Token
  | bang => .bang | minus => .binOp .minus | tilde => .tilde | decr => .decr | incr => .incr

def SuffixOp.token : SuffixOp → Token
  | incr => .incr | decr => .decr

def Link.tokens : Link → List Token
  | op o => [.binOp o]
  | notIs => [.bang, .binOp .isKw]

mutual

def Primary.tokens : Primary → List Token
  | .ident n => [.ident n]
  | .number n => [.number n]
  | .plusNumber n => [.binOp .plus, .number n]
  | .paren e => .lparen :: (e.tokens ++ [.rparen])

def Operand.tokens : Operand → List Token
  | .bare a suffixes => a.tokens ++ suffixes.map SuffixOp.token
  | .unary op x => op.token :: x.tokens

def Chain.tokens : Chain → List Token
  | .last x => x.tokens
  | .cons x o c => x.tokens ++ (o.tokens ++ c.tokens)

def Source.tokens : Source → List Token
  | .chain c => c.tokens
  | .ternary c t f => c.tokens ++ .quest :: (t.tokens ++ .colon :: f.tokens)

end

end Tokens

section Trees

def BinOp.prec (op : BinOp) : Nat := (opPrecMap.lookup op.data).getD noPrec

/-- `!is` has the precedence of `is`. -/
def Link.prec : Link → Nat
  | op o => o.prec
  | notIs => BinOp.isKw.prec

def SuffixOp.symbol : SuffixOp → String
  | incr => "oper x++" | decr => "oper x--"

/-- `a !is b` is the negation of `a is b`. -/
def Link.call : Link → Expr → Expr → Expr
  | op o, a, b => .binary ("oper " ++ o.data) a b
  | notIs, a, b => .unary UnaryOp.bang.symbol (.binary ("oper " ++ BinOp.isKw.data) a b)

def Expr.ofTree : Tree Link Expr → Expr
  | .leaf e => e
  | .node l o r => o.call (ofTree l) (ofTree r)

mutual

def Primary.tree : Primary → Expr
  | .ident n => .ident n
  | .number n => .number n
  | .plusNumber n => .number n
  | .paren e => e.tree

def Operand.tree : Operand → Expr
  | .bare a suffixes => suffixes.foldl (fun e op => .unary op.symbol e) a.tree
  | .unary op x => .unary op.symbol x.tree

def Chain.firstTree : Chain → Expr
  | .last x => x.tree
  | .cons x _ _ => x.tree

/-- The operators of a chain, each with the tree of the operand after it. -/
def Chain.itemTrees : Chain → List (Link × Expr)
  | .last _ => []
  | .cons _ o c => (o, c.firstTree) :: c.itemTrees

/-- The tree that the precedence table gives. -/
def Source.tree : Source → Expr
  | .chain c => .ofTree (build Link.prec c.firstTree c.itemTrees)
  | .ternary c t f => .ternary (.ofTree (build Link.prec c.firstTree c.itemTrees)) t.tree f.tree

end

end Trees

section Placement

def Operand.isBare : Operand → Bool
  | .bare _ _ => true
  | .unary _ _ => false

/-- `!is` may stand after this operand: no unary operator is before the operand,
and the operator left of it, if any, has a lower precedence. -/
def NotIsAfter (prev : Option Link) (x : Operand) : Prop :=
  x.isBare = true ∧ ∀ o ∈ prev, o.prec < Link.notIs.prec

mutual

def Primary.Placed : Primary → Prop
  | .paren e => e.Placed
  | .ident _ | .number _ | .plusNumber _ => True

def Operand.Placed : Operand → Prop
  | .bare a _ => a.Placed
  | .unary _ x => x.Placed

def Chain.Placed : Chain → Option Link → Prop
  | .last x, _ => x.Placed
  | .cons x o c, prev => x.Placed ∧ (o = .notIs → NotIsAfter prev x) ∧ c.Placed (some o)

/-- Every `!is` stands where it may. -/
def Source.Placed : Source → Prop
  | .chain c => c.Placed none
  | .ternary c t f => c.Placed none ∧ t.Placed ∧ f.Placed

end

end Placement

end Parser

end Crack
