import Crack.Lib.HostInt

/-!
# Integer constants

An integer constant is a pattern of 64 bits with two marks. Folding runs the
operator of the host on the pattern, as a signed or as an unsigned value. The
types of constants and the reversed operators, which only swap the operands, are
left out.
-/
namespace Crack

inductive FoldError where
  /-- The exception `DivZeroError`. -/
  | divZero
  /-- The host operation is undefined for its operands. -/
  | undefined
  deriving DecidableEq, Repr

structure IntConst where
  /-- Both members of the union. -/
  val : BitVec 64
  /-- Requires unsigned 64. -/
  reqUnsigned : Bool
  /-- "Unsigned negative". -/
  uneg : Bool
  deriving DecidableEq, Repr

namespace IntConst

def int64Max : Nat := 0x7FFFFFFFFFFFFFFF

/-- `create(int64_t)`. -/
def createSigned (v : BitVec 64) : IntConst := { val := v, reqUnsigned := false, uneg := false }

/-- `create(uint64_t)`. -/
def createUnsigned (v : BitVec 64) : IntConst :=
  { val := v, reqUnsigned := decide (int64Max < v.toNat), uneg := false }

def hibit (c : IntConst) : Bool := c.val.msb

/-- The value of a host operation. -/
def run (r : Option (BitVec 64)) : Except FoldError (BitVec 64) :=
  match r with
  | some v => .ok v
  | none => .error .undefined

section Macros

variable (c o : IntConst)

/-- Bitwise operations use the operation to determine `uneg`. -/
def foldB (sym : BitVec 64 → BitVec 64 → BitVec 64) (unegSym : Bool → Bool → Bool) : Except FoldError IntConst :=
  let r := createUnsigned (sym c.val o.val)
  .ok { r with uneg := unegSym c.uneg o.uneg, reqUnsigned := r.hibit }

def foldA (sym : BitVec 64 → BitVec 64 → Option (BitVec 64)) : Except FoldError IntConst := do
  .ok (createSigned (← run (sym c.val o.val)))

/-- Division checks for a zero divisor. -/
def foldDiv (create : BitVec 64 → IntConst) (sym : BitVec 64 → BitVec 64 → Option (BitVec 64)) :
    Except FoldError IntConst :=
  if o.val = 0 then .error .divZero else do .ok (create (← run (sym c.val o.val)))

end Macros

section Folds

variable (c o : IntConst)

def foldAdd := foldA c o HostInt.add
def foldSub := foldA c o HostInt.sub
def foldMul := foldA c o HostInt.mul
def foldSDiv := foldDiv c o createSigned HostInt.sdiv
def foldUDiv := foldDiv c o createUnsigned HostInt.udiv
def foldSRem := foldDiv c o createSigned HostInt.srem
def foldURem := foldDiv c o createUnsigned HostInt.urem
def foldOr := foldB c o (· ||| ·) (· || ·)
def foldAnd := foldB c o (· &&& ·) (· && ·)
def foldXor := foldB c o (· ^^^ ·) (· ^^ ·)

def foldNeg : Except FoldError IntConst := do
  .ok (createSigned (← run (HostInt.neg c.val)))

def foldBitNot : Except FoldError IntConst :=
  .ok { createSigned (~~~c.val) with uneg := !c.uneg, reqUnsigned := c.reqUnsigned }

/-- A logical shift if the constant must be an unsigned. -/
def foldAShr : Except FoldError IntConst := do
  let r ← if c.reqUnsigned then createUnsigned <$> run (HostInt.lshr c.val o.val.toInt)
    else createSigned <$> run (HostInt.ashr c.val o.val.toInt)
  .ok { r with uneg := c.uneg, reqUnsigned := false }

def foldLShr : Except FoldError IntConst := do
  let r ← createUnsigned <$> run (HostInt.lshr c.val o.val.toInt)
  .ok { r with uneg := c.uneg, reqUnsigned := false }

def hiset : BitVec 64 := 0x8000000000000000

/-- Unsigned is required if a bit shifted away differs from the sign. -/
def foldShl : Except FoldError IntConst := do
  let r ← createSigned <$> run (HostInt.shl c.val o.val.toInt)
  let negative := c.uneg || (c.reqUnsigned && c.hibit)
  -- the source assigns the result to `o`, so the count here is the result plus one
  let count ← run (HostInt.add r.val 1)
  let lost ← run (HostInt.lshr hiset count.toInt)
  .ok { r with
    uneg := c.uneg
    reqUnsigned := if negative then lost &&& ~~~c.val != 0 else lost &&& c.val != 0 }

end Folds

end IntConst

/-- The operators with two operands. -/
inductive BinFold where
  | add | sub | mul | sdiv | udiv | srem | urem | or | and | xor | shl | lshr | ashr
  deriving DecidableEq, Repr

inductive UnFold where
  | neg | bitNot
  deriving DecidableEq, Repr

def BinFold.fold : BinFold → IntConst → IntConst → Except FoldError IntConst
  | add => IntConst.foldAdd | sub => IntConst.foldSub | mul => IntConst.foldMul
  | sdiv => IntConst.foldSDiv | udiv => IntConst.foldUDiv
  | srem => IntConst.foldSRem | urem => IntConst.foldURem
  | or => IntConst.foldOr | and => IntConst.foldAnd | xor => IntConst.foldXor
  | shl => IntConst.foldShl | lshr => IntConst.foldLShr | ashr => IntConst.foldAShr

def UnFold.fold : UnFold → IntConst → Except FoldError IntConst
  | neg => IntConst.foldNeg | bitNot => IntConst.foldBitNot

/-- An expression over constants: a constant or the call of an operator. -/
inductive ConstExpr (C : Type) where
  | const (c : C)
  | unary (op : UnFold) (e : ConstExpr C)
  | binary (op : BinFold) (lhs rhs : ConstExpr C)
  deriving DecidableEq, Repr

namespace ConstExpr

/-- `foldConstants` of the call of a unary operator. -/
def foldUnary (op : UnFold) (e : ConstExpr IntConst) : Except FoldError (ConstExpr IntConst) :=
  match e with
  | const c => do .ok (const (← op.fold c))
  | _ => .ok (unary op e)

/-- `foldConstants` of the call of a binary operator. -/
def foldBinary (op : BinFold) (lhs rhs : ConstExpr IntConst) : Except FoldError (ConstExpr IntConst) :=
  match lhs, rhs with
  | const c, const o => do .ok (const (← op.fold c o))
  | _, _ => .ok (binary op lhs rhs)

/-- A division by zero is still the call. -/
def parseBinOp (op : BinFold) (lhs rhs : ConstExpr IntConst) : Except FoldError (ConstExpr IntConst) :=
  match foldBinary op lhs rhs with
  | .error .divZero => .ok (binary op lhs rhs)
  | r => r

/-- Expressions are folded as they are parsed, operands first. -/
def parse : ConstExpr IntConst → Except FoldError (ConstExpr IntConst)
  | const c => .ok (const c)
  | unary op e => do foldUnary op (← e.parse)
  | binary op lhs rhs => do
    let lhs ← lhs.parse
    let rhs ← rhs.parse
    parseBinOp op lhs rhs

end ConstExpr

end Crack
