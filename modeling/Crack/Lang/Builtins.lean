import Crack.Lang.Compare
import Crack.Lib.FloatBits
import Crack.Lib.XorAll

/-!
# Elements that are no objects

The values of the built-in types are compared and hashed by the overloads of `cmp` and
`makeHashVal`. An `int`, an `intz` and a `uintz` have no overload of their own for the hash
value, and the first that they convert to is the one for `float32`. What a float becomes
that has no conversion to a `uint` is not defined.
-/
namespace Crack

inductive Builtin where
  | scalar (t : Scalar)
  | float32
  | float64
  | float
  /-- a `byteptr`, a low-level array or a function -/
  | pointer (name : String)
  deriving DecidableEq, Repr

/-- A float of either format. -/
abbrev AnyFloat := (f : FloatFormat) × BitVec f.width

namespace Builtin

def width : Builtin → Nat
  | .scalar t => t.width
  | .float32 | .float => 32
  | .float64 | .pointer _ => 64

def floatcmp (f : FloatFormat) (a b : BitVec f.width) : BitVec 32 :=
  if f.lt b a then 1 else if f.lt a b then -1 else 0

def pointercmp (a b : BitVec 64) : BitVec 32 := if a = b then 0 else if a > b then 1 else -1

def cmp : (t : Builtin) → (a b : BitVec t.width) → BitVec 32
  | .scalar t, a, b => t.cmp a b
  | .float32, a, b => floatcmp .binary32 a b
  | .float64, a, b => floatcmp .binary64 a b
  | .float, a, b => floatcmp .binary32 a b
  | .pointer _, a, b => pointercmp a b

/-- What the overloads for floats are called with. -/
def asFloat : (t : Builtin) → (val : BitVec t.width) → Option AnyFloat
  | .scalar .int, val => some ⟨.binary32, FloatFormat.ofInt .binary32 val.toInt⟩
  | .scalar .intz, val => some ⟨.binary32, FloatFormat.ofInt .binary32 val.toInt⟩
  | .scalar .uintz, val => some ⟨.binary32, FloatFormat.ofInt .binary32 val.toNat⟩
  | .float32, val => some ⟨.binary32, val⟩
  | .float64, val => some ⟨.binary64, val⟩
  | .float, val => some ⟨.binary64, FloatFormat.extend val⟩
  | _, _ => none

/-- The other overloads; a pointer converts to `bool`. -/
def lighthash : (t : Builtin) → (val : BitVec t.width) → BitVec 32
  | .scalar .bool, val => if val = 1 then 1 else 0
  | .scalar .int64, val => (BitVec.sshiftRight val 32 ^^^ val).setWidth 32
  | .scalar .uint64, val => (val >>> 32 ^^^ val).setWidth 32
  | .pointer _, val => if val ≠ 0 then 1 else 0
  | _, val => val.setWidth 32

section

variable (fpToUI : AnyFloat → BitVec 32)

/-- The conversion of a float to a `uint`. -/
def uint (val : AnyFloat) : BitVec 32 := (val.1.toUnsigned val.2 32).getD (fpToUI val)

def makeHashVal (t : Builtin) (val : BitVec t.width) : BitVec 32 :=
  match t.asFloat val with
  | some x => uint fpToUI x
  | none => t.lighthash val

end

/-- The float without a conversion that the hash value is made of. -/
def unconverted (t : Builtin) (val : BitVec t.width) : List AnyFloat :=
  match t.asFloat val with
  | some x => if x.1.toUnsigned x.2 32 = none then [x] else []
  | none => []

/-- The value stands for no number. -/
def isNaN : (t : Builtin) → (val : BitVec t.width) → Bool
  | .float32, val => FloatFormat.isNaN .binary32 val
  | .float64, val => FloatFormat.isNaN .binary64 val
  | .float, val => FloatFormat.isNaN .binary32 val
  | _, _ => false

/-- The place of a value in the order of its type. -/
def place : (t : Builtin) → (val : BitVec t.width) → Int
  | .scalar t, val => t.val val
  | .float32, val => FloatFormat.place .binary32 val
  | .float64, val => FloatFormat.place .binary64 val
  | .float, val => FloatFormat.place .binary32 val
  | .pointer _, val => val.toNat

/-- The types of which no difference is negative. -/
def Narrow : Builtin → Prop
  | .scalar .bool | .scalar .byte | .scalar .int16 => True
  | _ => False

/-- Two values that are numbers and, where their difference is what is returned, no more
apart than it can tell. -/
def Comparable (t : Builtin) (a b : BitVec t.width) : Prop :=
  t.isNaN a = false ∧ t.isNaN b = false ∧
    (t = .scalar .int32 ∨ t = .scalar .int → t.place a - t.place b < 2 ^ 31 ∧ t.place b - t.place a < 2 ^ 31)

instance (t : Builtin) (a b : BitVec t.width) : Decidable (t.Comparable a b) := inferInstanceAs (Decidable (_ ∧ _))

/-- The result has the sign of the comparison of the places. -/
structure Signs (t : Builtin) (a b : BitVec t.width) : Prop where
  neg : (t.cmp a b).toInt < 0 ↔ t.place a < t.place b
  zero : (t.cmp a b).toInt = 0 ↔ t.place a = t.place b

variable {t : Builtin} {a b c : BitVec t.width} {f : FloatFormat}

theorem cmp_self (a : BitVec t.width) : t.cmp a a = 0 := by
  have hfloat : ∀ {f : FloatFormat} (x : BitVec f.width), floatcmp f x x = 0 := fun x => by
    have hlt : ¬ FloatFormat.lt _ x x := fun h => lt_irrefl _ (FloatFormat.lt_iff.mp h).2.2
    rw [floatcmp, if_neg hlt, if_neg hlt]
  cases t with
  | scalar t => exact Scalar.cmp_self a
  | float32 => exact hfloat (f := .binary32) a
  | float64 => exact hfloat (f := .binary64) a
  | float => exact hfloat (f := .binary32) a
  | pointer name => exact if_pos rfl

theorem floatcmp_signs {a b : BitVec f.width} (ha : f.isNaN a = false) (hb : f.isNaN b = false) :
    ((floatcmp f a b).toInt < 0 ↔ f.place a < f.place b) ∧ ((floatcmp f a b).toInt = 0 ↔ f.place a = f.place b) := by
  have hlt : ∀ {x y : BitVec f.width}, f.isNaN x = false → f.isNaN y = false → (f.lt x y ↔ f.place x < f.place y) :=
    fun hx hy => FloatFormat.lt_iff.trans ⟨fun h => h.2.2, fun h => ⟨hx, hy, h⟩⟩
  rw [floatcmp]
  by_cases hba : f.place b < f.place a
  · rw [if_pos ((hlt hb ha).mpr hba)]
    exact ⟨iff_of_false (by decide) (by omega), iff_of_false (by decide) (by omega)⟩
  · rw [if_neg (mt (hlt hb ha).mp hba)]
    by_cases hab : f.place a < f.place b
    · rw [if_pos ((hlt ha hb).mpr hab)]
      exact ⟨iff_of_true (by decide) hab, iff_of_false (by decide) (by omega)⟩
    · rw [if_neg (mt (hlt ha hb).mp hab)]
      exact ⟨iff_of_false (by decide) hab, iff_of_true (by decide) (by omega)⟩

theorem scalar_signs {t : Scalar} {a b : BitVec t.width} (h : Scalar.InRange t a b) : Signs (.scalar t) a b :=
  ⟨((Scalar.signs_iff t a b).mpr h).neg, ((Scalar.signs_iff t a b).mpr h).zero⟩

theorem pointercmp_signs (a b : BitVec 64) :
    ((pointercmp a b).toInt < 0 ↔ (a.toNat : Int) < b.toNat) ∧
      ((pointercmp a b).toInt = 0 ↔ (a.toNat : Int) = b.toNat) := by
  have heq : a = b ↔ a.toNat = b.toNat := BitVec.toNat_inj.symm
  have hlt : a > b ↔ b.toNat < a.toNat := BitVec.lt_def
  rw [pointercmp]
  by_cases h : a = b
  · rw [if_pos h, h]
    exact ⟨iff_of_false (by decide) (lt_irrefl _), iff_of_true (by decide) rfl⟩
  rw [if_neg h]
  rw [heq] at h
  by_cases h' : a > b
  · rw [if_pos h']
    rw [hlt] at h'
    exact ⟨iff_of_false (by decide) (by omega), iff_of_false (by decide) (by omega)⟩
  · rw [if_neg h']
    rw [hlt] at h'
    exact ⟨iff_of_true (by decide) (by omega), iff_of_false (by decide) (by omega)⟩

theorem signs (hnarrow : ¬t.Narrow) (h : t.Comparable a b) : t.Signs a b := by
  cases t with
  | scalar t =>
    apply scalar_signs
    cases t with
    | bool => exact absurd trivial hnarrow
    | byte => exact absurd trivial hnarrow
    | int16 => exact absurd trivial hnarrow
    | int32 =>
      have hdiff : Scalar.val .int32 a - Scalar.val .int32 b < 2 ^ 31 ∧
          Scalar.val .int32 b - Scalar.val .int32 a < 2 ^ 31 := h.2.2 (.inl rfl)
      exact ⟨by omega, hdiff.1⟩
    | int =>
      have hdiff : Scalar.val .int a - Scalar.val .int b < 2 ^ 31 ∧
          Scalar.val .int b - Scalar.val .int a < 2 ^ 31 := h.2.2 (.inr rfl)
      exact ⟨by omega, hdiff.1⟩
    | _ => trivial
  | float32 => exact ⟨(floatcmp_signs h.1 h.2.1).1, (floatcmp_signs h.1 h.2.1).2⟩
  | float64 => exact ⟨(floatcmp_signs h.1 h.2.1).1, (floatcmp_signs h.1 h.2.1).2⟩
  | float => exact ⟨(floatcmp_signs h.1 h.2.1).1, (floatcmp_signs h.1 h.2.1).2⟩
  | pointer name => exact ⟨(pointercmp_signs a b).1, (pointercmp_signs a b).2⟩

theorem cmp_nonneg (hnarrow : t.Narrow) : 0 ≤ (t.cmp a b).toInt := by
  have hsub : ∀ {w : Nat}, w < 32 → ∀ x y : BitVec w, 0 ≤ ((x - y).zeroExtend 32).toInt := by
    intro w hw x y
    rw [Scalar.toInt_narrow hw]
    exact Int.natCast_nonneg _
  cases t with
  | scalar t =>
    cases t with
    | bool =>
      revert a b
      decide
    | byte => exact hsub (by decide) a b
    | int16 => exact hsub (by decide) a b
    | _ => exact absurd hnarrow id
  | _ => exact absurd hnarrow id

theorem eq_of_narrow (hnarrow : t.Narrow) (h : (t.cmp a b).toInt = 0) : a = b := by
  cases t with
  | scalar t => exact Scalar.eq_of_cmp h
  | _ => exact absurd hnarrow id

theorem eq_or_zero_of_cmp {a b : BitVec f.width} (ha : f.isNaN a = false) (hb : f.isNaN b = false)
    (h : (floatcmp f a b).toInt = 0) : a = b ∨ f.magnitude a = 0 ∧ f.magnitude b = 0 :=
  FloatFormat.eq_of_place ((floatcmp_signs ha hb).2.mp h)

theorem cmp_trans (hab : t.Comparable a b) (hbc : t.Comparable b c) (hac : t.Comparable a c)
    (hle : (t.cmp a b).toInt ≤ 0) (hle' : (t.cmp b c).toInt ≤ 0) :
    (t.cmp a c).toInt ≤ 0 ∧ ((t.cmp a c).toInt = 0 ↔ (t.cmp a b).toInt = 0 ∧ (t.cmp b c).toInt = 0) := by
  by_cases hnarrow : t.Narrow
  · have hzero : ∀ {x y : BitVec t.width}, (t.cmp x y).toInt ≤ 0 → (t.cmp x y).toInt = 0 ∧ x = y := fun h =>
      have heq := le_antisymm h (cmp_nonneg hnarrow)
      ⟨heq, eq_of_narrow hnarrow heq⟩
    obtain ⟨h, rfl⟩ := hzero hle
    obtain ⟨h', rfl⟩ := hzero hle'
    exact ⟨hle, by rw [h]; simp⟩
  · obtain ⟨hneg, heq⟩ := signs hnarrow hab
    obtain ⟨hneg', heq'⟩ := signs hnarrow hbc
    obtain ⟨hneg'', heq''⟩ := signs hnarrow hac
    omega

/-- Values that compare equal are equal, but for the two zeros of a float. -/
theorem eq_of_cmp (ha : t.isNaN a = false) (hb : t.isNaN b = false) (h : (t.cmp a b).toInt = 0) :
    a = b ∨ ∃ x y, t.asFloat a = some x ∧ t.asFloat b = some y ∧
      x.1.toUnsigned x.2 32 = some 0 ∧ y.1.toUnsigned y.2 32 = some 0 := by
  cases t with
  | scalar t => exact .inl (Scalar.eq_of_cmp h)
  | float32 =>
    refine (eq_or_zero_of_cmp ha hb h).imp_right fun ⟨hx, hy⟩ => ⟨_, _, rfl, rfl, ?_, ?_⟩
    · exact FloatFormat.toUnsigned_of_zero hx
    · exact FloatFormat.toUnsigned_of_zero hy
  | float64 =>
    refine (eq_or_zero_of_cmp ha hb h).imp_right fun ⟨hx, hy⟩ => ⟨_, _, rfl, rfl, ?_, ?_⟩
    · exact FloatFormat.toUnsigned_of_zero hx
    · exact FloatFormat.toUnsigned_of_zero hy
  | float =>
    refine (eq_or_zero_of_cmp ha hb h).imp_right fun ⟨hx, hy⟩ => ⟨_, _, rfl, rfl, ?_, ?_⟩
    · exact FloatFormat.toUnsigned_of_zero (FloatFormat.magnitude_extend_of_zero hx)
    · exact FloatFormat.toUnsigned_of_zero (FloatFormat.magnitude_extend_of_zero hy)
  | pointer name => exact .inl (BitVec.toNat_inj.mp (Int.natCast_inj.mp ((pointercmp_signs a b).2.mp h)))

/-- Equal values have equal hash values, but for what is no number. -/
theorem makeHashVal_of_cmp (ha : t.isNaN a = false) (hb : t.isNaN b = false) (h : (t.cmp a b).toInt = 0) :
    (∀ fpToUI, makeHashVal fpToUI t a = makeHashVal fpToUI t b) ∧ t.unconverted a = t.unconverted b := by
  rcases eq_of_cmp ha hb h with rfl | ⟨x, y, hx, hy, hzero, hzero'⟩
  · exact ⟨fun _ => rfl, rfl⟩
  · simp [makeHashVal, unconverted, uint, hx, hy, hzero, hzero']

/-- What such a float becomes joins the rest. -/
theorem makeHashVal_eq (fpToUI : AnyFloat → BitVec 32) (a : BitVec t.width) :
    makeHashVal fpToUI t a = xorAll fpToUI (t.unconverted a) ^^^ makeHashVal (fun _ => 0) t a := by
  rw [makeHashVal, makeHashVal, unconverted]
  cases t.asFloat a with
  | none => simp
  | some x =>
    cases h : x.1.toUnsigned x.2 32 with
    | none => simp [uint, h]
    | some n => simp [uint, h]

end Builtin

end Crack
