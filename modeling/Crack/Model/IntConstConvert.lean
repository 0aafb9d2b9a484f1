import Crack.Model.IntConst

/-!
# Conversion of integer constants

What `IntConst::convert` accepts against what the types can hold. The comparisons are
those of the host: where one side is unsigned both are. Types that are not numeric,
which are delegated to `Expr::convert`, are left out.
-/
namespace Crack

/-- The sizes that `int` and `intz` may have. -/
inductive Size where
  | b32 | b64
  deriving DecidableEq, Repr

/-- The sizes of the platform's types. -/
structure Sizes where
  intSize : Size
  intzSize : Size
  floatSize : Size
  deriving DecidableEq, Repr

inductive IntType where
  | byteType | int16Type | int32Type | int64Type | uint16Type | uint32Type | uint64Type
  | intType | uintType | intzType | uintzType
  deriving DecidableEq, Repr

inductive FloatType where
  | float32Type | float64Type | floatType
  deriving DecidableEq, Repr

inductive NumType where
  | int (t : IntType)
  | float (t : FloatType)
  deriving DecidableEq, Repr

/-- What `convert` returns, the null pointer apart. -/
inductive Converted where
  /-- The constant itself. -/
  | self
  | int (c : IntConst)
  /-- A double that is a whole number. -/
  | float (val : Int)
  deriving DecidableEq, Repr

namespace IntConst

open IntType FloatType NumType

variable (construct : Sizes) (type : IntType) (c : IntConst) (newType : NumType)

def uint8Max : BitVec 32 := 0xFF
def uint16Max : BitVec 32 := 0xFFFF
def uint32Max : BitVec 32 := 0xFFFFFFFF

/-- The test for 16 and 32 bits. The bound is computed in 32 bits before it is cast. -/
def outOfUnsigned (max : BitVec 32) : Bool :=
  c.uneg && (c.val < -(max + 1).setWidth 64 || 0 ≤ c.val.toInt) || !c.uneg && max.setWidth 64 < c.val

def outOfSigned (min max : Int) : Bool := c.reqUnsigned || max < c.val.toInt || c.val.toInt < min

/-- To a byte a constant that is `uneg` is compared as a signed one. -/
def outOfByte : Bool :=
  c.uneg && (c.val.toInt < -(uint8Max + 1).toInt || 0 ≤ c.val.toInt) || !c.uneg && uint8Max.setWidth 64 < c.val

/-- `createUIntConst` or `createIntConst`. -/
def recreate : Converted := .int (if c.reqUnsigned then createUnsigned c.val else createSigned c.val)

/-- The constant in its new type, if it is in range. -/
def recreateUnless (out : Bool) : Option Converted := if out then none else some c.recreate

def convert : Option Converted :=
  if newType = .int type then some .self
  else if newType = .int int64Type ∨ newType = .int intType ∧ construct.intSize = .b64 ∨
      newType = .int intzType ∧ construct.intzSize = .b64 then
    c.recreateUnless c.reqUnsigned
  else if newType = .int uint64Type ∨ newType = .int uintType ∧ construct.intSize = .b64 then
    c.recreateUnless (!(c.reqUnsigned || c.uneg) && c.val.toInt < 0)
  else if newType = .int int32Type ∨ newType = .int intType ∨ newType = .int intzType then
    c.recreateUnless (c.outOfSigned (-0x80000000) 0x7FFFFFFF)
  else if newType = .int int16Type then c.recreateUnless (c.outOfSigned (-0x8000) 0x7FFF)
  else if newType = float float32Type ∨ newType = float float64Type ∨ newType = float floatType then
    some (.float (HostFloat.ofInt 53 c.val.toInt))
  else if newType = .int uint32Type ∨ newType = .int uintType ∨ newType = .int uintzType then
    c.recreateUnless (c.outOfUnsigned uint32Max)
  else if newType = .int uint16Type then c.recreateUnless (c.outOfUnsigned uint16Max)
  else if newType = .int byteType then c.recreateUnless c.outOfByte
  else none

end IntConst

def Size.bits : Size → Nat
  | .b32 => 32
  | .b64 => 64

namespace IntType

def width (construct : Sizes) : IntType → Nat
  | byteType => 8
  | int16Type | uint16Type => 16
  | int32Type | uint32Type => 32
  | int64Type | uint64Type => 64
  | intType | uintType => construct.intSize.bits
  | intzType | uintzType => construct.intzSize.bits

def signed : IntType → Bool
  | int16Type | int32Type | int64Type | intType | intzType => true
  | byteType | uint16Type | uint32Type | uint64Type | uintType | uintzType => false

end IntType

/-- The significant bits. -/
def FloatType.precision (construct : Sizes) : FloatType → Nat
  | .float32Type => 24
  | .float64Type => 53
  | .floatType => match construct.floatSize with
    | .b32 => 24
    | .b64 => 53

namespace IntConst

variable (construct : Sizes) (c : IntConst)

/-- A constant that requires unsigned 64 is read as unsigned. -/
def value : Int := if c.reqUnsigned then c.val.toNat else c.val.toInt

/-- An "unsigned negative" constant fits into an unsigned type if only ones are cut off. -/
def Representable : NumType → Prop
  | .int t =>
    if t.signed then -2 ^ (t.width construct - 1) ≤ c.value ∧ c.value < 2 ^ (t.width construct - 1)
    else if c.uneg then ∀ i < 64, t.width construct ≤ i → c.val.getLsbD i = true
    else 0 ≤ c.value ∧ c.value < 2 ^ t.width construct
  | .float t => HostFloat.Fits (t.precision construct) c.value.natAbs

/-- The value that it has there. -/
def valueIn : NumType → Int
  | .int t => if !t.signed && c.uneg then c.val.toInt % 2 ^ t.width construct else c.value
  | .float _ => c.value

end IntConst

/-- What a type keeps of a number: the low bits, or the leading ones. -/
def NumType.kept (construct : Sizes) : NumType → Int → Int
  | .int t, v => if t.signed then v.bmod (2 ^ t.width construct) else v % 2 ^ t.width construct
  | .float t, v => HostFloat.ofInt (t.precision construct) v

/-- The number that is emitted. -/
def Converted.emitted (c : IntConst) : Converted → Int
  | .self => c.val.toInt
  | .int c' => c'.val.toInt
  | .float val => val

namespace IntConst

variable (construct : Sizes) (type : IntType) (c : IntConst) (newType : NumType)

/-- The conversion succeeds if and only if the type can hold the value, and then it
has this value there. -/
def ConvertsRight : Prop :=
  ((c.convert construct type newType).isSome ↔ c.Representable construct newType) ∧
    ∀ r ∈ c.convert construct type newType, newType.kept construct (r.emitted c) = c.valueIn construct newType

/-- When a conversion to another type is right. -/
def ConvertsIf : NumType → Prop
  | .int t =>
    if t.signed then c.reqUnsigned = true → 2 ^ (t.width construct - 1) ≤ c.val.toNat
    else if t = .uintzType ∧ construct.intzSize = .b64 then
      if c.uneg then c.val.toInt < 0 else c.value ≤ 0xFFFFFFFF
    else t.width construct = 32 → c.uneg = true → -2 ^ 32 ≤ c.val.toInt
  | .float t => HostFloat.Fits (t.precision construct) c.value.natAbs ∧ c.value = c.val.toInt

end IntConst

theorem toInt_eq_ite (x : BitVec 64) : x.toInt = if x.toNat < 2 ^ 63 then (x.toNat : Int) else x.toNat - 2 ^ 64 := by
  have := x.isLt
  rw [BitVec.toInt_eq_toNat_cond]
  split <;> split <;> omega

theorem ones_above_iff {x : BitVec 64} {w : Nat} (hw : w < 64) :
    (∀ i < 64, w ≤ i → x.getLsbD i = true) ↔ -2 ^ w ≤ x.toInt ∧ x.toInt < 0 := by
  have hx := x.isLt
  have hnot : (~~~x).toNat = 2 ^ 64 - 1 - x.toNat := BitVec.toNat_not
  have hpow : 2 ^ w < 2 ^ 64 := Nat.pow_lt_pow_right (by decide) hw
  have hhalf : 2 ^ w ≤ 2 ^ 63 := Nat.pow_le_pow_right (by decide) (by omega)
  have hcast : ((2 ^ w : Nat) : Int) = 2 ^ w := by simp
  have hbits : (∀ i < 64, w ≤ i → x.getLsbD i = true) ↔ (~~~x).toNat < 2 ^ w := by
    constructor
    · intro h
      apply Nat.lt_pow_two_of_testBit
      intro i hi
      by_cases hlt : i < 64
      · have := h i hlt hi
        rw [← BitVec.getLsbD, BitVec.getLsbD_not, this]
        simp
      · exact BitVec.getLsbD_of_ge (~~~x) i (by omega)
    · intro h i hi hwi
      have hf := Nat.testBit_lt_two_pow (Nat.lt_of_lt_of_le h (Nat.pow_le_pow_right (by decide) hwi))
      rw [← BitVec.getLsbD, BitVec.getLsbD_not] at hf
      simpa [hi] using hf
  rw [hbits, hnot, toInt_eq_ite, ← hcast]
  split <;> omega

theorem IntType.width_bounds (construct : Sizes) (t : IntType) : 0 < t.width construct ∧ t.width construct ≤ 64 := by
  have hsize (s : Size) : 0 < s.bits ∧ s.bits ≤ 64 := by cases s <;> decide
  cases t with
  | intType | uintType => exact hsize construct.intSize
  | intzType | uintzType => exact hsize construct.intzSize
  | _ => simp [width]

variable {t : IntType}

theorem IntType.width_unsigned (construct : Sizes) (ht : t.signed = false) :
    t.width construct < 32 ∨ t.width construct = 32 ∨ t.width construct = 64 := by
  have hsize (s : Size) : s.bits < 32 ∨ s.bits = 32 ∨ s.bits = 64 := by cases s <;> decide
  cases t with
  | uintType => exact hsize construct.intSize
  | uintzType => exact hsize construct.intzSize
  | _ => simp_all [width, signed]

theorem FloatType.precision_le (construct : Sizes) (t : FloatType) : t.precision construct ≤ 53 := by
  cases t with
  | floatType => cases h : construct.floatSize <;> simp [FloatType.precision, h]
  | _ => simp [FloatType.precision]

namespace IntConst

variable {construct : Sizes} {type : IntType} {c : IntConst} {r : Converted} {out : Bool}

theorem recreateUnless_emitted (h : r ∈ c.recreateUnless out) : r.emitted c = c.val.toInt ∧ out = false := by
  cases out with
  | true => simp [recreateUnless] at h
  | false =>
    obtain rfl : c.recreate = r := by simpa [recreateUnless] using h
    refine ⟨?_, rfl⟩
    simp only [recreate, Converted.emitted]
    split <;> rfl

theorem isSome_recreateUnless : (c.recreateUnless out).isSome ↔ out = false := by
  cases out <;> simp [recreateUnless]

theorem value_cases (c : IntConst) : c.value = c.val.toInt ∨ c.value = c.val.toInt + 2 ^ 64 ∧ c.val.toInt < 0 := by
  have hlt := c.val.isLt
  have hs := toInt_eq_ite c.val
  unfold value
  split <;> split at hs <;> omega

/-- A representable value survives in the bits that are kept. -/
theorem kept_eq_valueIn (h : c.Representable construct (.int t)) :
    NumType.kept construct (.int t) c.val.toInt = c.valueIn construct (.int t) := by
  obtain ⟨hpos, hle⟩ := t.width_bounds construct
  have hlt := c.val.isLt
  have hs := toInt_eq_ite c.val
  have hv := c.value_cases
  cases ht : t.signed with
  | true =>
    have hpow : (2 : Int) ^ (t.width construct - 1) ≤ 2 ^ 63 := mod_cast Nat.pow_le_pow_right (by decide) (by omega)
    have hdouble : (2 : Int) ^ t.width construct = 2 * 2 ^ (t.width construct - 1) := by
      rw [← Int.pow_succ', Nat.sub_add_cancel hpos]
    simp only [Representable, NumType.kept, valueIn, ht, if_true, Bool.not_true, Bool.false_and] at h ⊢
    have heq : c.value = c.val.toInt := by omega
    rw [← heq]
    refine (Int.bmod_eq_of_le ?_ ?_).trans (if_neg Bool.false_ne_true).symm <;> push_cast <;> omega
  | false =>
    cases hu : c.uneg with
    | true => simp [NumType.kept, valueIn, ht, hu]
    | false =>
      simp only [Representable, NumType.kept, valueIn, ht, hu, if_false, Bool.not_false, Bool.and_false,
        Bool.false_eq_true] at h ⊢
      rcases hv with heq | ⟨heq, -⟩
      · rw [← heq]
        exact Int.emod_eq_of_lt h.1 h.2
      · obtain ⟨k, hk⟩ : (2 : Int) ^ t.width construct ∣ 2 ^ 64 := mod_cast Nat.pow_dvd_pow 2 hle
        rw [← Int.emod_eq_of_lt h.1 h.2, heq, hk, Int.add_mul_emod_self_left]

theorem toInt_bounds (x : BitVec 64) : -2 ^ 63 ≤ x.toInt ∧ x.toInt < 2 ^ 63 := ⟨x.le_toInt, x.toInt_lt⟩

theorem outOfSigned_eq_false_iff {min max : Int} :
    c.outOfSigned min max = false ↔ c.reqUnsigned = false ∧ min ≤ c.val.toInt ∧ c.val.toInt ≤ max := by
  simp only [outOfSigned, Bool.or_eq_false_iff, decide_eq_false_iff_not, Int.not_lt, and_assoc]
  rw [and_comm (a := c.val.toInt ≤ max)]

theorem unsigned_value_iff {w : Nat} (hw : w < 64) : 0 ≤ c.value ∧ c.value < 2 ^ w ↔ c.val.toNat < 2 ^ w := by
  have hlt := c.val.isLt
  have hpow : 2 ^ w ≤ 2 ^ 63 := Nat.pow_le_pow_right (by decide) (by omega)
  have hcast : ((2 ^ w : Nat) : Int) = 2 ^ w := by simp
  rw [value, toInt_eq_ite, ← hcast]
  split
  · omega
  · split <;> omega

/-- The bound for negative numbers is zero in 32 bits: it cuts off nothing. -/
theorem outOfUnsigned_uint32Max : c.outOfUnsigned uint32Max = false ↔
    if c.uneg then c.val.toInt < 0 else c.val.toNat < 2 ^ 32 := by
  cases hu : c.uneg <;> simp [outOfUnsigned, uint32Max, hu, BitVec.lt_def]
  omega

theorem outOfUnsigned_uint16Max : c.outOfUnsigned uint16Max = false ↔
    if c.uneg then -2 ^ 16 ≤ c.val.toInt ∧ c.val.toInt < 0 else c.val.toNat < 2 ^ 16 := by
  have hlt := c.val.isLt
  have hs := toInt_eq_ite c.val
  cases hu : c.uneg
  · simp [outOfUnsigned, uint16Max, hu, BitVec.lt_def]
    omega
  · simp [outOfUnsigned, uint16Max, hu, BitVec.lt_def]
    split at hs <;> omega

theorem outOfByte_eq_false_iff : c.outOfByte = false ↔
    if c.uneg then -2 ^ 8 ≤ c.val.toInt ∧ c.val.toInt < 0 else c.val.toNat < 2 ^ 8 := by
  have hmin : (uint8Max + 1).toInt = 2 ^ 8 := by decide
  have hmax : (uint8Max.setWidth 64).toNat = 2 ^ 8 - 1 := by decide
  rw [outOfByte, hmin]
  cases c.uneg with
  | true => simp only [Bool.true_and, Bool.not_true, Bool.false_and, Bool.or_false, Bool.or_eq_false_iff,
      decide_eq_false_iff_not, if_true, Int.not_lt, Int.not_le]
  | false =>
    simp only [Bool.false_and, Bool.not_false, Bool.true_and, Bool.false_or, decide_eq_false_iff_not, BitVec.lt_def,
      hmax, Bool.false_eq_true, if_false]
    omega

theorem convert_emitted (h : r ∈ c.convert construct type (.int t)) : r.emitted c = c.val.toInt := by
  unfold convert at h
  repeat' split at h
  · obtain rfl : Converted.self = r := by simpa using h
    rfl
  all_goals first
    | exact (recreateUnless_emitted h).1
    | simp_all

theorem isSome_of_signed (hne : t ≠ type) (ht : t.signed = true) :
    (c.convert construct type (.int t)).isSome ↔
      c.reqUnsigned = false ∧ -2 ^ (t.width construct - 1) ≤ c.val.toInt ∧
        c.val.toInt < 2 ^ (t.width construct - 1) := by
  have hb := toInt_bounds c.val
  obtain ⟨intSize, intzSize, floatSize⟩ := construct
  cases t <;> cases ht <;> cases intSize <;> cases intzSize <;>
    simp [convert, hne, isSome_recreateUnless, IntType.width, Size.bits, outOfSigned_eq_false_iff] <;> omega

theorem isSome_of_uint64 (hne : t ≠ type) (ht : t.signed = false) (hw : t.width construct = 64)
    (hz : t ≠ .uintzType) :
    (c.convert construct type (.int t)).isSome ↔ c.reqUnsigned = true ∨ c.uneg = true ∨ 0 ≤ c.val.toInt := by
  have hout : c.convert construct type (.int t) =
      c.recreateUnless (!(c.reqUnsigned || c.uneg) && c.val.toInt < 0) := by
    obtain ⟨intSize, intzSize, floatSize⟩ := construct
    cases t <;> cases ht <;> cases intSize <;> simp_all [convert, IntType.width, Size.bits]
  rw [hout, isSome_recreateUnless]
  cases c.reqUnsigned <;> cases c.uneg <;> simp

/-- A `uintz` of 64 bits is taken for one of 32. -/
theorem isSome_of_uint32 (hne : t ≠ type) (ht : t.signed = false) (hw : t.width construct = 32 ∨ t = .uintzType) :
    (c.convert construct type (.int t)).isSome ↔ if c.uneg then c.val.toInt < 0 else c.val.toNat < 2 ^ 32 := by
  have hout : c.convert construct type (.int t) = c.recreateUnless (c.outOfUnsigned uint32Max) := by
    obtain ⟨intSize, intzSize, floatSize⟩ := construct
    cases t <;> cases ht <;> cases intSize <;> simp_all [convert, IntType.width, Size.bits]
  rw [hout, isSome_recreateUnless, outOfUnsigned_uint32Max]

theorem isSome_of_narrow (hne : t ≠ type) (ht : t.signed = false) (hw : t.width construct < 32) :
    (c.convert construct type (.int t)).isSome ↔
      if c.uneg then -2 ^ t.width construct ≤ c.val.toInt ∧ c.val.toInt < 0
      else c.val.toNat < 2 ^ t.width construct := by
  cases t with
  | byteType => simp [convert, hne, isSome_recreateUnless, outOfByte_eq_false_iff, IntType.width]
  | uint16Type => simp [convert, hne, isSome_recreateUnless, outOfUnsigned_uint16Max, IntType.width]
  | _ =>
    obtain ⟨intSize, intzSize, floatSize⟩ := construct
    cases intSize <;> cases intzSize <;> simp_all [IntType.width, IntType.signed, Size.bits]

/-- Where only the test matters: what is representable is also kept. -/
theorem convertsRight_iff_isSome : c.ConvertsRight construct type (.int t) ↔
    ((c.convert construct type (.int t)).isSome ↔ c.Representable construct (.int t)) := by
  constructor
  · exact fun h => h.1
  · intro h
    refine ⟨h, fun r hr => ?_⟩
    rw [convert_emitted hr]
    exact kept_eq_valueIn (h.mp (Option.isSome_of_mem hr))

theorem convertsRight_same : c.ConvertsRight construct type (.int type) ↔ c.Representable construct (.int type) := by
  rw [convertsRight_iff_isSome]
  simp [convert]

theorem representable_of_signed (ht : t.signed = true) : c.Representable construct (.int t) ↔
    -2 ^ (t.width construct - 1) ≤ c.value ∧ c.value < 2 ^ (t.width construct - 1) := by
  rw [Representable, if_pos ht]

theorem representable_of_unsigned (ht : t.signed = false) : c.Representable construct (.int t) ↔
    if c.uneg then t.width construct < 64 → -2 ^ t.width construct ≤ c.val.toInt ∧ c.val.toInt < 0
    else 0 ≤ c.value ∧ c.value < 2 ^ t.width construct := by
  rw [Representable, if_neg (by simp [ht])]
  cases c.uneg with
  | false => rfl
  | true =>
    by_cases hw : t.width construct < 64
    · simp [ones_above_iff hw, hw]
    · have hge : ∀ i < 64, t.width construct ≤ i → c.val.getLsbD i = true := fun i hi hle => by omega
      simpa [hw] using hge

theorem convertsRight_signed (hne : t ≠ type) (ht : t.signed = true) :
    c.ConvertsRight construct type (.int t) ↔ c.ConvertsIf construct (.int t) := by
  rw [convertsRight_iff_isSome, isSome_of_signed hne ht, representable_of_signed ht, ConvertsIf, if_pos ht, value]
  have hlt := c.val.isLt
  have hs := toInt_eq_ite c.val
  obtain ⟨hpos, hle⟩ := t.width_bounds construct
  have hcast : ((2 ^ (t.width construct - 1) : Nat) : Int) = 2 ^ (t.width construct - 1) := by simp
  rw [← hcast]
  cases c.reqUnsigned <;> simp
  omega

theorem convertsRight_unsigned (hne : t ≠ type) (ht : t.signed = false) :
    c.ConvertsRight construct type (.int t) ↔ c.ConvertsIf construct (.int t) := by
  have hv := c.value_cases
  have hb := toInt_bounds c.val
  have hsigned : ¬ t.signed = true := by simp [ht]
  rw [convertsRight_iff_isSome, representable_of_unsigned ht, ConvertsIf, if_neg hsigned]
  by_cases hz : t = .uintzType ∧ construct.intzSize = .b64
  · have hw : t.width construct = 64 := by simp [IntType.width, hz, Size.bits]
    rw [if_pos hz, isSome_of_uint32 hne ht (.inr hz.1), hw, ← unsigned_value_iff (by decide)]
    cases c.uneg <;> simp
    omega
  · rw [if_neg hz]
    rcases t.width_unsigned construct ht with hw | hw | hw
    · rw [isSome_of_narrow hne ht hw, ← unsigned_value_iff (by omega)]
      cases c.uneg <;> simp
      omega
    · rw [isSome_of_uint32 hne ht (.inl hw), hw, ← unsigned_value_iff (by decide)]
      cases c.uneg <;> simp
      omega
    · have hne' : t ≠ .uintzType := by
        rintro rfl
        refine hz ⟨rfl, ?_⟩
        cases hi : construct.intzSize with
        | b32 => simp [IntType.width, hi, Size.bits] at hw
        | b64 => rfl
      rw [isSome_of_uint64 hne ht hw hne', hw, value]
      have hs := toInt_eq_ite c.val
      cases c.uneg <;> cases c.reqUnsigned <;> simp <;> omega

theorem convertsRight_float {t : FloatType} :
    c.ConvertsRight construct type (.float t) ↔ c.ConvertsIf construct (.float t) := by
  have hconvert : c.convert construct type (.float t) = some (.float (HostFloat.ofInt 53 c.val.toInt)) := by
    cases t <;> simp [convert]
  simp only [ConvertsRight, hconvert, Option.isSome_some, true_iff, Option.mem_some_iff, forall_eq', Representable,
    NumType.kept, Converted.emitted, valueIn, ConvertsIf]
  constructor
  · rintro ⟨hfits, hkept⟩
    refine ⟨hfits, ?_⟩
    rcases c.value_cases with heq | ⟨heq, hneg⟩
    · exact heq
    · -- a large constant is converted as the negative one
      have := HostFloat.ofInt_nonpos (p := t.precision construct) (HostFloat.ofInt_nonpos (p := 53) (Int.le_of_lt hneg))
      have := toInt_bounds c.val
      omega
  · rintro ⟨hfits, heq⟩
    refine ⟨hfits, ?_⟩
    rw [heq] at hfits ⊢
    rw [HostFloat.ofInt_eq_iff.mpr (hfits.mono (FloatType.precision_le construct t)), HostFloat.ofInt_eq_iff.mpr hfits]

end IntConst

/-- Conversion is right if and only if the constant is none of those that a range test
misses: an "unsigned" mark on a small value, a "negative" below 32 bits, a `uintz` of
64 bits, a value of the own type that was never tested, or a float that is not exact. -/
theorem converts_right_iff (construct : Sizes) (type : IntType) (c : IntConst) (newType : NumType) :
    c.ConvertsRight construct type newType ↔
      if newType = .int type then c.Representable construct newType else c.ConvertsIf construct newType := by
  by_cases hsame : newType = .int type
  · rw [if_pos hsame, hsame]
    exact IntConst.convertsRight_same
  · rw [if_neg hsame]
    cases newType with
    | float t => exact IntConst.convertsRight_float
    | int t =>
      have hne : t ≠ type := fun h => hsame (congrArg NumType.int h)
      cases ht : t.signed with
      | true => exact IntConst.convertsRight_signed hne ht
      | false => exact IntConst.convertsRight_unsigned hne ht

/-- `4294967296` is refused as a `uintz` of 64 bits. -/
theorem uintz_not_converted_right :
    ¬ (IntConst.createSigned 0x100000000).ConvertsRight ⟨.b64, .b64, .b64⟩ .int64Type (.int .uintzType) := by
  intro h
  have hnone : (IntConst.createSigned 0x100000000).convert ⟨.b64, .b64, .b64⟩ .int64Type (.int .uintzType) = none := by
    decide
  have hrep : (IntConst.createSigned 0x100000000).Representable ⟨.b64, .b64, .b64⟩ (.int .uintzType) := by
    rw [IntConst.representable_of_unsigned rfl]
    decide
  have hsome := h.1.mpr hrep
  rw [hnone] at hsome
  cases hsome

end Crack
