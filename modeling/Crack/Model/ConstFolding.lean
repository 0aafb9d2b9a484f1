import Crack.Model.IntConst

/-!
# Constant folding

Folding against arithmetic of 64 bits in two's complement. They agree as long as
the host operations are defined and no arithmetic shift of a negative value is
taken for a logical one.
-/
namespace Crack

/-- Two's complement arithmetic. -/
def BinFold.eval : BinFold → BitVec 64 → BitVec 64 → BitVec 64
  | add, x, y => x + y
  | sub, x, y => x - y
  | mul, x, y => x * y
  | sdiv, x, y => x.sdiv y
  | udiv, x, y => x / y
  | srem, x, y => x.srem y
  | urem, x, y => x % y
  | or, x, y => x ||| y
  | and, x, y => x &&& y
  | xor, x, y => x ^^^ y
  | shl, x, y => x <<< y
  | lshr, x, y => x >>> y
  | ashr, x, y => x.sshiftRight' y

def UnFold.eval : UnFold → BitVec 64 → BitVec 64
  | neg, x => -x
  | bitNot, x => ~~~x

def BinFold.isDivision (op : BinFold) : Bool := op = sdiv || op = udiv || op = srem || op = urem

namespace ConstExpr

variable {C D : Type}

def map (f : C → D) : ConstExpr C → ConstExpr D
  | const c => const (f c)
  | unary op e => unary op (e.map f)
  | binary op l r => binary op (l.map f) (r.map f)

/-- The pattern of a constant. -/
abbrev pattern (e : ConstExpr IntConst) : ConstExpr (BitVec 64) := e.map IntConst.val

/-- Replace an operator with constant operands, unless it divides by zero. -/
def evalUnary (op : UnFold) : ConstExpr (BitVec 64) → ConstExpr (BitVec 64)
  | const x => const (op.eval x)
  | e => unary op e

def evalBinary (op : BinFold) : ConstExpr (BitVec 64) → ConstExpr (BitVec 64) → ConstExpr (BitVec 64)
  | const x, const y => if op.isDivision ∧ y = 0 then binary op (const x) (const y) else const (op.eval x y)
  | l, r => binary op l r

def eval : ConstExpr (BitVec 64) → ConstExpr (BitVec 64)
  | const x => const x
  | unary op e => evalUnary op e.eval
  | binary op l r => evalBinary op l.eval r.eval

end ConstExpr

/-- The host operations that folding runs are defined. A shift to the left also
shifts by its own result plus one. -/
def BinFold.defined : BinFold → BitVec 64 → BitVec 64 → Bool
  | add, x, y => !x.saddOverflow y
  | sub, x, y => !x.ssubOverflow y
  | mul, x, y => !x.smulOverflow y
  | sdiv, x, y | srem, x, y => !x.sdivOverflow y
  | shl, x, y => decide (HostInt.IsCount 64 y.toInt ∧ HostInt.IsCount 64 ((x <<< y).toInt + 1))
  | lshr, _, y | ashr, _, y => decide (HostInt.IsCount 64 y.toInt)
  | udiv, _, _ | urem, _, _ | or, _, _ | and, _, _ | xor, _, _ => true

def UnFold.defined : UnFold → BitVec 64 → Bool
  | neg, x => !x.negOverflow
  | bitNot, _ => true

section Marks

variable (c o : IntConst)

/-- Whether the result is marked as one that requires unsigned 64. -/
def BinFold.reqUnsigned : BinFold → Bool
  | add | sub | mul | sdiv | srem | lshr | ashr => false
  | udiv => decide (IntConst.int64Max < (c.val / o.val).toNat)
  | urem => decide (IntConst.int64Max < (c.val % o.val).toNat)
  | or => (c.val ||| o.val).msb
  | and => (c.val &&& o.val).msb
  | xor => (c.val ^^^ o.val).msb
  | shl =>
    let lost := IntConst.hiset >>> ((c.val <<< o.val) + 1)
    if c.uneg || (c.reqUnsigned && c.val.msb) then lost &&& ~~~c.val != 0 else lost &&& c.val != 0

def BinFold.uneg : BinFold → Bool
  | add | sub | mul | sdiv | srem | udiv | urem => false
  | or => c.uneg || o.uneg
  | and => c.uneg && o.uneg
  | xor => c.uneg ^^ o.uneg
  | shl | lshr | ashr => c.uneg

/-- The constant with the pattern of two's complement arithmetic. -/
def BinFold.ideal (op : BinFold) : IntConst := ⟨op.eval c.val o.val, op.reqUnsigned c o, op.uneg c o⟩

def UnFold.ideal : UnFold → IntConst
  | neg => ⟨-c.val, false, false⟩
  | bitNot => ⟨~~~c.val, c.reqUnsigned, !c.uneg⟩

end Marks

/-- What a fold that is defined returns. -/
def BinFold.result (op : BinFold) (c o : IntConst) : IntConst :=
  if op = ashr ∧ c.reqUnsigned = true then { op.ideal c o with val := c.val >>> o.val } else op.ideal c o

section Steps

open HostInt

variable {c o : IntConst} {overflow : Bool} {v : BitVec 64}

theorem foldA_eq (sym : BitVec 64 → BitVec 64 → Option (BitVec 64))
    (h : sym c.val o.val = if overflow then none else some v) :
    c.foldA o sym = if (!overflow) = true then .ok (.createSigned v) else .error .undefined := by
  rw [IntConst.foldA, h]
  cases overflow <;> rfl

theorem foldDiv_eq (create : BitVec 64 → IntConst) (sym : BitVec 64 → BitVec 64 → Option (BitVec 64))
    (overflow : Bool) (h : o.val ≠ 0 → sym c.val o.val = if overflow then none else some v) :
    c.foldDiv o create sym =
      if true = true ∧ o.val = 0 then .error .divZero
      else if (!overflow) = true then .ok (create v) else .error .undefined := by
  rw [IntConst.foldDiv]
  by_cases hz : o.val = 0
  · rw [if_pos hz, if_pos ⟨rfl, hz⟩]
  · have hno : ¬ (true = true ∧ o.val = 0) := fun h => hz h.2
    rw [if_neg hz, h hz, if_neg hno]
    cases overflow <;> rfl

/-- Division overflows only apart from a zero divisor. -/
theorem div_eq_of_ne {y v : BitVec 64} (hz : y ≠ 0) :
    (if y = 0 ∨ overflow = true then none else some v) = if overflow then none else some v := by
  simp only [hz, false_or]

theorem foldLShr_eq : c.foldLShr o =
    if IsCount 64 o.val.toInt then .ok ⟨c.val >>> o.val, false, c.uneg⟩ else .error .undefined := by
  by_cases h : IsCount 64 o.val.toInt
  · rw [IntConst.foldLShr, lshr_count h, if_pos h]
    rfl
  · rw [IntConst.foldLShr, lshr, if_neg h, if_neg h]
    rfl

theorem foldAShr_eq : c.foldAShr o =
    if IsCount 64 o.val.toInt then
      .ok ⟨if c.reqUnsigned then c.val >>> o.val else c.val.sshiftRight' o.val, false, c.uneg⟩
    else .error .undefined := by
  by_cases h : IsCount 64 o.val.toInt
  · rw [IntConst.foldAShr, lshr_count h, ashr_count h, if_pos h]
    cases c.reqUnsigned <;> rfl
  · rw [IntConst.foldAShr, lshr, ashr, if_neg h, if_neg h, if_neg h]
    cases c.reqUnsigned <;> rfl

theorem foldShl_eq : c.foldShl o =
    if IsCount 64 o.val.toInt ∧ IsCount 64 ((c.val <<< o.val).toInt + 1) then .ok (BinFold.shl.ideal c o)
    else .error .undefined := by
  by_cases h : IsCount 64 o.val.toInt
  · rw [IntConst.foldShl, shl_count h]
    change (IntConst.run (add (c.val <<< o.val) 1) >>= _) = _
    by_cases ho : (c.val <<< o.val).saddOverflow 1 = true
    · have hc : ¬ IsCount 64 ((c.val <<< o.val).toInt + 1) := fun hc => not_saddOverflow_of_isCount hc ho
      rw [add, if_pos ho, if_neg (fun h => hc h.2)]
      rfl
    · have hsum : ((c.val <<< o.val) + 1).toInt = (c.val <<< o.val).toInt + 1 :=
        BitVec.toInt_add_of_not_saddOverflow ho
      rw [add, if_neg ho, ← hsum]
      by_cases hc : IsCount 64 ((c.val <<< o.val) + 1).toInt
      · rw [if_pos ⟨h, hc⟩]
        change (IntConst.run (lshr IntConst.hiset ((c.val <<< o.val) + 1).toInt) >>= _) = _
        rw [lshr_count hc]
        rfl
      · rw [if_neg (fun h => hc h.2)]
        change (IntConst.run (lshr IntConst.hiset ((c.val <<< o.val) + 1).toInt) >>= _) = _
        rw [lshr, if_neg hc]
        rfl
  · rw [IntConst.foldShl, shl, if_neg h, if_neg (fun hc => h hc.1)]
    rfl

theorem fold_eq (op : BinFold) (c o : IntConst) :
    op.fold c o =
      if op.isDivision = true ∧ o.val = 0 then .error .divZero
      else if op.defined c.val o.val = true then .ok (op.result c o)
      else .error .undefined := by
  cases op with
  | add => exact foldA_eq add rfl
  | sub => exact foldA_eq sub rfl
  | mul => exact foldA_eq mul rfl
  | sdiv => exact foldDiv_eq .createSigned sdiv (c.val.sdivOverflow o.val) div_eq_of_ne
  | srem => exact foldDiv_eq .createSigned srem (c.val.sdivOverflow o.val) div_eq_of_ne
  | udiv => exact foldDiv_eq .createUnsigned udiv false fun hz => if_neg hz
  | urem => exact foldDiv_eq .createUnsigned urem false fun hz => if_neg hz
  | or => rfl
  | and => rfl
  | xor => rfl
  | shl =>
    refine foldShl_eq.trans ?_
    simp [BinFold.isDivision, BinFold.defined, BinFold.result]
  | lshr =>
    refine foldLShr_eq.trans ?_
    simp [BinFold.isDivision, BinFold.defined, BinFold.result]
    rfl
  | ashr =>
    refine foldAShr_eq.trans ?_
    cases h : c.reqUnsigned <;> simp [BinFold.isDivision, BinFold.defined, BinFold.result, h] <;> rfl

theorem foldUnary_eq (op : UnFold) (c : IntConst) :
    op.fold c = if op.defined c.val = true then .ok (op.ideal c) else .error .undefined := by
  cases op with
  | neg =>
    change IntConst.foldNeg c = if (!c.val.negOverflow) = true then _ else _
    rw [IntConst.foldNeg, HostInt.neg]
    cases c.val.negOverflow <;> rfl
  | bitNot => rfl

end Steps

/-- An arithmetic shift is done as a logical one, and it shows. -/
def BinFold.Mistaken (op : BinFold) (c o : IntConst) : Prop :=
  op = ashr ∧ c.reqUnsigned = true ∧ c.val.msb = true ∧ o.val ≠ 0

variable {op : BinFold}

theorem result_eq_ideal_of_ne {c o : IntConst} (h : ¬ (op = .ashr ∧ c.reqUnsigned = true)) :
    op.result c o = op.ideal c o := if_neg h

theorem result_val_iff {c o : IntConst} : (op.result c o).val = op.eval c.val o.val ↔ ¬ op.Mistaken c o := by
  by_cases h : op = .ashr ∧ c.reqUnsigned = true
  · obtain ⟨rfl, hu⟩ := h
    have hres : (BinFold.ashr.result c o).val = c.val >>> o.val.toNat := by simp [BinFold.result, hu]
    rw [hres]
    change c.val >>> o.val.toNat = c.val.sshiftRight o.val.toNat ↔ _
    cases hm : c.val.msb with
    | false => simp [BinFold.Mistaken, hm, HostInt.sshiftRight_eq_ushiftRight hm]
    | true =>
      by_cases hz : o.val = 0
      · simp [BinFold.Mistaken, hz]
      · have hn : o.val.toNat ≠ 0 := fun hn => hz (BitVec.eq_of_toNat_eq hn)
        have hne := HostInt.sshiftRight_ne_ushiftRight hm hn
        exact ⟨fun he => absurd he.symm hne, fun hno => absurd ⟨rfl, hu, hm, hz⟩ hno⟩
  · rw [result_eq_ideal_of_ne h]
    exact ⟨fun _ hm => h ⟨hm.1, hm.2.1⟩, fun _ => rfl⟩

theorem result_eq_ideal {c o : IntConst} (h : ¬ op.Mistaken c o) : op.result c o = op.ideal c o := by
  by_cases hs : op = .ashr ∧ c.reqUnsigned = true
  · have hval := result_val_iff.mpr h
    obtain ⟨rfl, hu⟩ := hs
    simp only [BinFold.result, hu, and_self, if_true] at hval ⊢
    rw [hval]
    rfl
  · exact result_eq_ideal_of_ne hs

/-- A division by zero is caught before anything undefined is run. -/
theorem defined_of_divZero {c o : IntConst} (h : op.isDivision = true ∧ o.val = 0) :
    op.defined c.val o.val = true ∧ ¬ op.Mistaken c o := by
  obtain ⟨hd, hz⟩ := h
  refine ⟨?_, fun hm => hm.2.2.2 hz⟩
  cases op <;> simp_all [BinFold.isDivision, BinFold.defined, BitVec.sdivOverflow]

namespace ConstExpr

/-- The expression that folding should leave, with the marks of its constants. -/
def ideal : ConstExpr IntConst → ConstExpr IntConst
  | const c => const c
  | unary op e =>
    match e.ideal with
    | const c => const (op.ideal c)
    | e => unary op e
  | binary op l r =>
    match l.ideal, r.ideal with
    | const c, const o => if op.isDivision ∧ o.val = 0 then binary op (const c) (const o) else const (op.ideal c o)
    | l, r => binary op l r

theorem ideal_pattern (e : ConstExpr IntConst) : e.ideal.pattern = e.pattern.eval := by
  induction e with
  | const c => rfl
  | unary op e ih =>
    simp only [pattern, map, eval] at ih ⊢
    rw [← ih, ideal]
    cases e.ideal <;> try rfl
    cases op <;> rfl
  | binary op l r ihl ihr =>
    simp only [pattern, map, eval] at ihl ihr ⊢
    rw [← ihl, ← ihr, ideal]
    cases l.ideal <;> cases r.ideal <;> try rfl
    simp only [map, evalBinary]
    split <;> rfl

/-- No host operation is undefined and no shift is mistaken, in any operation on
constants. -/
def Safe : ConstExpr IntConst → Prop
  | const _ => True
  | unary op e => e.Safe ∧ ∀ c, e.ideal = const c → op.defined c.val = true
  | binary op l r => l.Safe ∧ r.Safe ∧ ∀ c o, l.ideal = const c → r.ideal = const o →
      op.defined c.val o.val = true ∧ ¬ op.Mistaken c o

/-- `P` holds of the expression and of the expressions in it. -/
def Everywhere {C : Type} (P : ConstExpr C → Prop) : ConstExpr C → Prop
  | const c => P (const c)
  | unary op e => P (unary op e) ∧ e.Everywhere P
  | binary op l r => P (binary op l r) ∧ l.Everywhere P ∧ r.Everywhere P

/-- Folding runs no undefined operation and leaves what two's complement
arithmetic makes of the expression; only a division by zero is still there. -/
def FoldsRight (e : ConstExpr IntConst) : Prop := pattern <$> e.parse = .ok e.pattern.eval

variable {e l r : ConstExpr IntConst}

theorem parse_of_safe (h : e.Safe) : e.parse = .ok e.ideal := by
  induction e with
  | const c => rfl
  | unary op e ih =>
    obtain ⟨he, hop⟩ := h
    rw [parse, ih he, ideal]
    change foldUnary op e.ideal = _
    cases hi : e.ideal with
    | const c =>
      simp only [foldUnary, foldUnary_eq, hop c hi, if_true]
      rfl
    | unary op' e' => rfl
    | binary op' l r => rfl
  | binary op l r ihl ihr =>
    obtain ⟨hl, hr, hop⟩ := h
    rw [parse, ihl hl, ihr hr, ideal]
    change parseBinOp op l.ideal r.ideal = _
    cases hi : l.ideal with
    | const c =>
      cases hj : r.ideal with
      | const o =>
        obtain ⟨hd, hm⟩ := hop c o hi hj
        simp only [parseBinOp, foldBinary, fold_eq, hd, result_eq_ideal hm, if_true]
        by_cases hz : op.isDivision = true ∧ o.val = 0
        · simp only [if_pos hz]
          rfl
        · simp only [if_neg hz]
          rfl
      | unary op' e' => rfl
      | binary op' l r => rfl
    | unary op' e' => rfl
    | binary op' l' r' => rfl

theorem foldsRight_of_safe (h : e.Safe) : e.FoldsRight := by
  rw [FoldsRight, parse_of_safe h, ← ideal_pattern]
  rfl

theorem everywhere_of_safe (h : e.Safe) : e.Everywhere FoldsRight := by
  induction e with
  | const c => rfl
  | unary op e ih => exact ⟨foldsRight_of_safe h, ih h.1⟩
  | binary op l r ihl ihr => exact ⟨foldsRight_of_safe h, ihl h.1, ihr h.2.1⟩

theorem unary_defined {op : UnFold} {c : IntConst} (h : (unary op e).FoldsRight) (he : e.Safe)
    (hc : e.ideal = const c) : op.defined c.val = true := by
  rw [FoldsRight, parse, parse_of_safe he, hc] at h
  change pattern <$> foldUnary op (const c) = _ at h
  by_contra hd
  simp [foldUnary, foldUnary_eq, hd, bind, Except.bind, Functor.map, Except.map] at h

theorem binary_defined {c o : IntConst} (h : (binary op l r).FoldsRight) (hl : l.Safe) (hr : r.Safe)
    (hc : l.ideal = const c) (ho : r.ideal = const o) : op.defined c.val o.val = true ∧ ¬ op.Mistaken c o := by
  by_cases hz : op.isDivision = true ∧ o.val = 0
  · exact defined_of_divZero hz
  · have hvalue : (binary op l r).pattern.eval = const (op.eval c.val o.val) := by
      rw [← ideal_pattern, ideal, hc, ho]
      simp only [hz, if_false]
      rfl
    rw [FoldsRight, hvalue, parse, parse_of_safe hl, parse_of_safe hr, hc, ho] at h
    change pattern <$> parseBinOp op (const c) (const o) = _ at h
    by_cases hd : op.defined c.val o.val = true
    · have hfold : op.fold c o = .ok (op.result c o) := by rw [fold_eq, if_neg hz, if_pos hd]
      simp only [parseBinOp, foldBinary, hfold] at h
      have hval : (op.result c o).val = op.eval c.val o.val := const.inj (Except.ok.inj h)
      exact ⟨hd, result_val_iff.mp hval⟩
    · have hfold : op.fold c o = .error .undefined := by rw [fold_eq, if_neg hz, if_neg hd]
      simp [parseBinOp, foldBinary, hfold, bind, Except.bind, Functor.map, Except.map] at h

theorem safe_of_everywhere (h : e.Everywhere FoldsRight) : e.Safe := by
  induction e with
  | const c => trivial
  | unary op e ih =>
    have he := ih h.2
    exact ⟨he, fun c hc => unary_defined h.1 he hc⟩
  | binary op l r ihl ihr =>
    have hl := ihl h.2.1
    have hr := ihr h.2.2
    exact ⟨hl, hr, fun c o hc ho => binary_defined h.1 hl hr hc ho⟩

end ConstExpr

/-- Only a zero divisor throws `DivZeroError`; and folding is right in a whole
expression if and only if every operation on constants is safe. -/
theorem folds_right_iff_safe (e : ConstExpr IntConst) :
    (∀ (op : BinFold) (c o : IntConst), op.fold c o = .error .divZero ↔ op.isDivision = true ∧ o.val = 0) ∧
      (e.Everywhere ConstExpr.FoldsRight ↔ e.Safe) := by
  refine ⟨fun op c o => ?_, ConstExpr.safe_of_everywhere, ConstExpr.everywhere_of_safe⟩
  constructor
  · intro h
    by_contra hz
    rw [fold_eq, if_neg hz] at h
    split at h <;> simp at h
  · intro hz
    rw [fold_eq, if_pos hz]

/-- `1 << 10` also shifts by 1025, its own result plus one. -/
theorem shl_not_folded_right :
    ¬ (ConstExpr.binary .shl (.const (.createSigned 1)) (.const (.createSigned 10))).FoldsRight := by
  have hp : (ConstExpr.binary .shl (.const (.createSigned 1)) (.const (.createSigned 10))).parse =
      .error .undefined := by decide
  rw [ConstExpr.FoldsRight, hp]
  intro h
  cases h

end Crack
