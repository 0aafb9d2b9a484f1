import Crack.Lang.Buffers
import Crack.Lib.Loops
import Crack.Lib.Positional

/-!
# Formatting and parsing integers

A number is formatted into the end of a buffer that is as large as the numbers of its type need, and
`parseInteger` makes a pair of functions that read one back.
-/
namespace Crack

namespace Integers

open Positional

def decimalDigit (d : Nat) : UInt8 := 48 + UInt8.ofNat d

/-- `_format(uint64 val, byteptr buf, uint size)` returns where the number begins. -/
def formatUint64 (val : BitVec 64) (buf : List UInt8) (size : Nat) : Except Stop (Nat × List UInt8) :=
  if val = 0 then
    match size with
    | 0 => .error .wildAccess
    | i + 1 => .ok (i, buf.set i 48)
  else
    match writeDown decimalDigit 10 size val.toNat buf with
    | none => .error .wildAccess
    | some start => .ok start

/-- `_format(int64 val, byteptr buf, uint size)` -/
def formatInt64 (val : BitVec 64) (buf : List UInt8) (size : Nat) : Except Stop (Nat × List UInt8) :=
  if val.toInt < 0 then do
    match ← formatUint64 (-val) buf size with
    | (0, _) => .error .wildAccess
    | (i + 1, buf) => return (i, buf.set i 45)
  else formatUint64 val buf size

namespace StandardFormatter

/-- What each `format` method does with its buffer. -/
def writeNumber (format : List UInt8 → Nat → Except Stop (Nat × List UInt8)) (cap : Nat) :
    Except Stop (List UInt8) := do
  let (start, buffer) ← format (List.replicate cap 0) cap
  return (buffer.drop start).take (cap - start)

/-- `format(int16 val)`; the implicit conversion of an `int16` to an `int64` extends it with zeros. -/
def formatInt16 (val : BitVec 16) : Except Stop (List UInt8) := writeNumber (formatInt64 (val.setWidth 64)) 6

/-- `format(uint16 val)` -/
def formatUint16 (val : BitVec 16) : Except Stop (List UInt8) := writeNumber (formatUint64 (val.setWidth 64)) 5

/-- `format(int32 val)` -/
def formatInt32 (val : BitVec 32) : Except Stop (List UInt8) := writeNumber (formatInt64 (val.signExtend 64)) 11

/-- `format(uint32 val)` -/
def formatUint32 (val : BitVec 32) : Except Stop (List UInt8) := writeNumber (formatUint64 (val.setWidth 64)) 10

/-- `format(int64 val)` -/
def formatInt64 (val : BitVec 64) : Except Stop (List UInt8) := writeNumber (Integers.formatInt64 val) 21

/-- `format(uint64 val)` -/
def formatUint64 (val : BitVec 64) : Except Stop (List UInt8) := writeNumber (Integers.formatUint64 val) 20

end StandardFormatter

/-- The loop of `parseU$$suffix`. -/
def parseDigits {w : Nat} (val : BitVec w) : List UInt8 → BitVec w
  | [] => val
  | c :: b => if c ≤ 57 ∧ c ≥ 48 then parseDigits (val * 10 + c.toBitVec.setWidth w - 48) b else val

/-- `parseU$$suffix` for an unsigned type of `w` bits. -/
def parseU (w : Nat) (b : List UInt8) : Except Stop (BitVec w) := .ok (parseDigits 0 b)

/-- `parse$$suffix` for a signed type of `w` bits. -/
def parse (w : Nat) : List UInt8 → Except Stop (BitVec w)
  | [] => .error (.indexError "string index out of bounds")
  | c :: rest => do
    if c = 45 then
      let val ← parseU w (rest.take (uint rest.length))
      return -val
    else parseU w (c :: rest)

inductive IntType where
  | byte | int16 | uint16 | int32 | uint32 | int64 | uint64 | int | uint | intz | uintz
  deriving DecidableEq, Repr

namespace IntType

def width : IntType → Nat
  | byte => 8
  | int16 | uint16 => 16
  | int32 | uint32 | int | uint => 32
  | int64 | uint64 | intz | uintz => 64

def signed : IntType → Bool
  | int16 | int32 | int64 | int | intz => true
  | byte | uint16 | uint32 | uint64 | uint | uintz => false

/-- The method that `format` is for a type, after the conversion to the type of its parameter. -/
def format : (t : IntType) → BitVec t.width → Except Stop (List UInt8)
  | byte, v => StandardFormatter.formatInt16 (BitVec.setWidth 16 v)
  | int16, v => StandardFormatter.formatInt16 v
  | uint16, v => StandardFormatter.formatUint16 v
  | int32, v => StandardFormatter.formatInt32 v
  | uint32, v => StandardFormatter.formatUint32 v
  | int64, v => StandardFormatter.formatInt64 v
  | uint64, v => StandardFormatter.formatUint64 v
  | int, v => StandardFormatter.formatInt64 (BitVec.signExtend 64 v)
  | uint, v => StandardFormatter.formatUint64 (BitVec.setWidth 64 v)
  | intz, v => StandardFormatter.formatInt64 v
  | uintz, v => StandardFormatter.formatUint64 v

/-- The types that `parseInteger` is used for. -/
def parsed : IntType → Bool
  | byte | int16 | uint16 => false
  | _ => true

def parser (t : IntType) (b : List UInt8) : Except Stop (BitVec t.width) :=
  if t.signed then parse t.width b else parseU t.width b

/-- The number that a value stands for. -/
def number (t : IntType) (v : BitVec t.width) : Int := if t.signed then v.toInt else v.toNat

end IntType

/-- The decimal numeral of a number, with a minus for a negative one. -/
def IsDecimal (n : Int) (text : List UInt8) : Prop :=
  ∃ ds, IsNumeral 10 n.natAbs ds ∧ text = (if n < 0 then [45] else []) ++ ds.map decimalDigit

/-- The text is the numeral of the value, nothing is written outside of the buffer, and parsing gives the value back. -/
def FormatRight (t : IntType) (v : BitVec t.width) : Prop :=
  ∃ text, t.format v = .ok text ∧ IsDecimal (t.number v) text ∧ (t.parsed = true → t.parser text = .ok v)

def decimal (n : Int) : List UInt8 := (if n < 0 then [45] else []) ++ (numeral 10 n.natAbs).map decimalDigit

variable {val : BitVec 64} {cap w : Nat} {n : Int} {t : IntType}

theorem isDecimal (n : Int) : IsDecimal n (decimal n) := ⟨_, isNumeral (by decide) _, rfl⟩

/-- What is left in the buffer by `_format(uint64)`. -/
theorem formatUint64_eq {buf : List UInt8} (hlen : buf.length = cap) (hcap : 0 < cap) (h : val.toNat < 10 ^ cap) :
    formatUint64 val buf cap = .ok (cap - (numeral 10 val.toNat).length,
      buf.take (cap - (numeral 10 val.toNat).length) ++ (numeral 10 val.toNat).map decimalDigit) := by
  have hfits := (length_numeral_le_iff (b := 10) (by decide) hcap).mpr h
  unfold formatUint64
  by_cases h0 : val = 0
  · subst h0
    obtain ⟨i, rfl⟩ := Nat.exists_eq_succ_of_ne_zero (Nat.ne_of_gt hcap)
    have hset : buf.set i 48 = buf.take i ++ [48] := by
      rw [List.set_eq_take_append_cons_drop, if_pos (by omega), List.drop_eq_nil_of_le (by omega)]
    rw [if_pos rfl]
    exact congrArg (fun buf => Except.ok (i, buf)) hset
  · have hval : val.toNat ≠ 0 := fun hc => h0 (BitVec.toNat_inj.mp hc)
    have hdown := writeDown_eq decimalDigit (b := 10) (by decide) (Nat.le_of_eq hlen.symm) val.toNat
    rw [numeral_of_pos hval, List.length_reverse] at hfits ⊢
    rw [if_pos hfits, List.drop_eq_nil_of_le (Nat.le_of_eq hlen), List.append_nil] at hdown
    rw [if_neg h0, hdown]

namespace StandardFormatter

theorem written_number {start : Nat} {text buffer : List UInt8}
    {format : List UInt8 → Nat → Except Stop (Nat × List UInt8)}
    (hformat : format (List.replicate cap 0) cap = .ok (start, buffer)) (hdrop : buffer.drop start = text)
    (hlen : text.length = cap - start) : writeNumber format cap = .ok text := by
  rw [writeNumber, hformat]
  change Except.ok ((buffer.drop start).take (cap - start)) = _
  rw [hdrop, ← hlen, List.take_length]

theorem writeNumber_unsigned (hcap : 0 < cap) (h : val.toNat < 10 ^ cap) :
    writeNumber (Integers.formatUint64 val) cap = .ok (decimal val.toNat) := by
  have hfits := (length_numeral_le_iff (b := 10) (by decide) hcap).mpr h
  refine written_number (formatUint64_eq List.length_replicate hcap h) ?_ ?_
  · rw [List.drop_left' (List.length_take_of_le (by rw [List.length_replicate]; omega))]
    rfl
  · rw [decimal, if_neg (by omega), List.nil_append, List.length_map, Int.natAbs_natCast]
    omega

theorem writeNumber_signed (hcap : 1 < cap) (h : val.toInt.natAbs < 10 ^ (cap - 1)) :
    writeNumber (Integers.formatInt64 val) cap = .ok (decimal val.toInt) := by
  have hpow : 10 ^ (cap - 1) ≤ 10 ^ cap := Nat.pow_le_pow_right (by decide) (Nat.sub_le _ _)
  by_cases hneg : val.toInt < 0
  · have habs : (-val).toNat = val.toInt.natAbs := by
      have hlt := val.isLt
      rw [BitVec.toInt_eq_toNat_cond] at hneg ⊢
      rw [BitVec.toNat_neg]
      split at hneg <;> split <;> omega
    have hshort := (length_numeral_le_iff (b := 10) (by decide) (by omega)).mpr h
    -- there is room for the sign
    obtain ⟨i, hi⟩ : ∃ i, cap - (numeral 10 val.toInt.natAbs).length = i + 1 :=
      Nat.exists_eq_succ_of_ne_zero (by omega)
    have hdigits := @formatUint64_eq (-val) cap (List.replicate cap 0) List.length_replicate (by omega)
      (by rw [habs]; exact Nat.lt_of_lt_of_le h hpow)
    rw [habs, hi] at hdigits
    have hlen : ((List.replicate cap (0 : UInt8)).take (i + 1)).length = i + 1 :=
      List.length_take_of_le (by rw [List.length_replicate]; omega)
    have hformat : Integers.formatInt64 val (List.replicate cap 0) cap = .ok (i, ((List.replicate cap 0).take (i + 1) ++
        (numeral 10 val.toInt.natAbs).map decimalDigit).set i 45) := by
      rw [Integers.formatInt64, if_pos hneg, hdigits]
      rfl
    refine written_number hformat ?_ ?_
    · rw [drop_set_self (by rw [List.length_append, hlen]; omega), List.drop_left' hlen, decimal, if_pos hneg]
      rfl
    · rw [decimal, if_pos hneg, List.length_append, List.length_map, List.length_singleton]
      omega
  · have hval : val.toInt = val.toNat := by
      rw [BitVec.toInt_eq_toNat_cond] at hneg ⊢
      split <;> omega
    have hrun : writeNumber (Integers.formatInt64 val) cap = writeNumber (Integers.formatUint64 val) cap := by
      rw [writeNumber, writeNumber, Integers.formatInt64, if_neg hneg]
    rw [hrun, hval]
    exact writeNumber_unsigned (by omega) (by omega)

end StandardFormatter

theorem decimalDigit_toNat : ∀ d < 10, (decimalDigit d).toNat = 48 + d := by decide

theorem parseDigits_map {ds : List Nat} (hds : ∀ d ∈ ds, d < 10) (a : Nat) :
    parseDigits (BitVec.ofNat w a) (ds.map decimalDigit) = BitVec.ofNat w (ds.foldl (fun v d => v * 10 + d) a) := by
  induction ds generalizing a with
  | nil => rfl
  | cons d ds ih =>
    have hd := hds d List.mem_cons_self
    have hchar := decimalDigit_toNat d hd
    have hdigit : decimalDigit d ≤ 57 ∧ decimalDigit d ≥ 48 := by
      rw [ge_iff_le, UInt8.le_iff_toNat_le, UInt8.le_iff_toNat_le, hchar]
      exact ⟨by change 48 + d ≤ 57; omega, Nat.le_add_right 48 d⟩
    have hnext : BitVec.ofNat w a * 10 + (decimalDigit d).toBitVec.setWidth w - 48 = BitVec.ofNat w (a * 10 + d) := by
      have hext : (decimalDigit d).toBitVec.setWidth w = BitVec.ofNat w (48 + d) := by
        apply BitVec.eq_of_toNat_eq
        rw [← hchar, BitVec.toNat_setWidth, BitVec.toNat_ofNat, UInt8.toNat_toBitVec]
      have hsum : BitVec.ofNat w a * 10 + BitVec.ofNat w (48 + d) = BitVec.ofNat w (a * 10 + d) + 48 := by
        change BitVec.ofNat w a * BitVec.ofNat w 10 + _ = _ + BitVec.ofNat w 48
        rw [← BitVec.ofNat_mul, ← BitVec.ofNat_add, ← BitVec.ofNat_add, Nat.add_comm 48, Nat.add_assoc]
      rw [hext, hsum, BitVec.add_sub_cancel]
    rw [List.map_cons, parseDigits, if_pos hdigit, hnext]
    exact ih (fun e he => hds e (List.mem_cons_of_mem _ he)) _

theorem parseU_decimal (n : Nat) : parseU w (decimal n) = .ok (BitVec.ofNat w n) := by
  rw [parseU, decimal, if_neg (by omega), List.nil_append, Int.natAbs_natCast]
  refine congrArg Except.ok ?_
  refine (parseDigits_map (numeral_lt (by decide) n) 0).trans ?_
  exact congrArg (BitVec.ofNat w) (value_numeral 10 n)

theorem head_decimal (n : Nat) : ∃ c rest, decimal n = c :: rest ∧ c ≠ 45 := by
  obtain ⟨d, ds, hcons⟩ := List.exists_cons_of_ne_nil (isNumeral (b := 10) (by decide) n).nonempty
  refine ⟨decimalDigit d, ds.map decimalDigit, ?_, ?_⟩
  · rw [decimal, if_neg (by omega), List.nil_append, Int.natAbs_natCast, hcons, List.map_cons]
  · intro heq
    have hchar := decimalDigit_toNat d (numeral_lt (by decide) n d (hcons ▸ List.mem_cons_self))
    rw [heq] at hchar
    exact absurd hchar (by change ¬ 45 = 48 + d; omega)

theorem parse_decimal (hn : n.natAbs < 10 ^ 20) : parse w (decimal n) = .ok (BitVec.ofInt w n) := by
  by_cases hneg : n < 0
  · have hshort := (length_numeral_le_iff (b := 10) (i := 20) (by decide) (by decide)).mpr hn
    have hdigits : decimal n = 45 :: decimal n.natAbs := by
      rw [decimal, decimal, if_pos hneg, if_neg (by omega), Int.natAbs_natCast]
      rfl
    have hlen : (decimal n.natAbs).length < 2 ^ 32 := by
      rw [decimal, if_neg (by omega), List.nil_append, List.length_map, Int.natAbs_natCast]
      omega
    have hneg' : -(n.natAbs : Int) = n := by omega
    have hint : BitVec.ofInt w n = -BitVec.ofNat w n.natAbs := by
      rw [← BitVec.ofInt_natCast, ← BitVec.ofInt_neg, hneg']
    rw [hdigits, parse, uint, Nat.mod_eq_of_lt hlen, List.take_length, parseU_decimal, if_pos rfl, hint]
    rfl
  · obtain ⟨m, rfl⟩ := Int.eq_ofNat_of_zero_le (Int.not_lt.mp hneg)
    obtain ⟨c, rest, hcons, hc⟩ := head_decimal m
    rw [hcons, parse, if_neg hc, ← hcons, parseU_decimal, BitVec.ofInt_natCast]

theorem IntType.parser_decimal (t : IntType) (v : BitVec t.width) : t.parser (decimal (t.number v)) = .ok v := by
  have hwidth : t.width ≤ 64 := by cases t <;> decide
  rw [parser, number]
  split
  next =>
    have hpow : 2 ^ t.width ≤ 2 ^ 64 := Nat.pow_le_pow_right (by decide) hwidth
    have habs : v.toInt.natAbs < 10 ^ 20 := by
      have hlt := v.isLt
      rw [BitVec.toInt_eq_toNat_cond]
      split <;> omega
    rw [parse_decimal habs, BitVec.ofInt_toInt]
  next => rw [parseU_decimal, BitVec.ofNat_toNat, BitVec.setWidth_eq]

/-- Where the text that is written is the numeral of the value. -/
theorem FormatRight.of_decimal {v : BitVec t.width} (h : t.format v = .ok (decimal (t.number v))) :
    FormatRight t v :=
  ⟨_, h, isDecimal _, fun _ => t.parser_decimal v⟩

theorem natAbs_lt {k : Nat} (v : BitVec w) (h : 2 ^ w ≤ 10 ^ k) : v.toInt.natAbs < 10 ^ k := by
  have hlt := v.isLt
  rw [BitVec.toInt_eq_toNat_cond]
  split <;> omega

/-- The text of an `int16` is that of the `uint16` with the same bits. -/
theorem formatInt16_eq (v : BitVec 16) : StandardFormatter.formatInt16 v = .ok (decimal v.toNat) := by
  have hlt := v.isLt
  have hint : (v.setWidth 64).toInt = v.toNat := by
    rw [BitVec.toInt_eq_toNat_cond, BitVec.toNat_setWidth]
    split <;> omega
  rw [StandardFormatter.formatInt16, StandardFormatter.writeNumber_signed (by decide) (by rw [hint]; omega), hint]

theorem formatUnsigned_eq {cap : Nat} (v : BitVec w) (hw : w ≤ 64) (hcap : 0 < cap) (h : 2 ^ w ≤ 10 ^ cap) :
    StandardFormatter.writeNumber (formatUint64 (v.setWidth 64)) cap = .ok (decimal v.toNat) := by
  have hlt := v.isLt
  have hnat : (v.setWidth 64).toNat = v.toNat := by
    rw [BitVec.toNat_setWidth]
    exact Nat.mod_eq_of_lt (Nat.lt_of_lt_of_le hlt (Nat.pow_le_pow_right (by decide) hw))
  rw [StandardFormatter.writeNumber_unsigned hcap (by omega), hnat]

theorem formatSigned_eq {cap : Nat} (v : BitVec w) (hw : w ≤ 64) (hcap : 1 < cap) (h : 2 ^ w ≤ 10 ^ (cap - 1)) :
    StandardFormatter.writeNumber (formatInt64 (v.signExtend 64)) cap = .ok (decimal v.toInt) := by
  have hint : (v.signExtend 64).toInt = v.toInt := BitVec.toInt_signExtend_of_le hw
  rw [StandardFormatter.writeNumber_signed hcap (by rw [hint]; exact natAbs_lt v h), hint]

/-- The text of a negative number begins with a minus. -/
theorem not_isDecimal {n : Int} (h : n < 0) (m : Nat) : ¬ IsDecimal n (decimal m) := by
  rintro ⟨ds, -, htext⟩
  obtain ⟨c, rest, hcons, hc⟩ := head_decimal m
  rw [hcons, if_pos h] at htext
  exact hc (List.cons.inj htext).1

theorem formatInt64_eq (v : BitVec 64) : StandardFormatter.formatInt64 v = .ok (decimal v.toInt) :=
  StandardFormatter.writeNumber_signed (by decide) (natAbs_lt v (by decide))

theorem formatUint64_decimal (v : BitVec 64) : StandardFormatter.formatUint64 v = .ok (decimal v.toNat) :=
  StandardFormatter.writeNumber_unsigned (by decide) (Nat.lt_trans v.isLt (by decide))

theorem IntType.format_decimal (h : t ≠ .int16) (v : BitVec t.width) : t.format v = .ok (decimal (t.number v)) := by
  cases t with
  | byte =>
    have hlt := BitVec.isLt v
    have hnat : (BitVec.setWidth 16 v).toNat = v.toNat := by
      rw [BitVec.toNat_setWidth]
      exact Nat.mod_eq_of_lt (Nat.lt_trans hlt (by decide))
    exact (formatInt16_eq _).trans (congrArg (fun n : Nat => Except.ok (decimal n)) hnat)
  | int16 => exact absurd rfl h
  | uint16 => exact formatUnsigned_eq v (by decide) (by decide) (by decide)
  | int32 => exact formatSigned_eq v (by decide) (by decide) (by decide)
  | uint32 => exact formatUnsigned_eq v (by decide) (by decide) (by decide)
  | int64 => exact formatInt64_eq v
  | uint64 => exact formatUint64_decimal v
  | int => exact formatSigned_eq v (by decide) (by decide) (by decide)
  | uint => exact formatUnsigned_eq v (by decide) (by decide) (by decide)
  | intz => exact formatInt64_eq v
  | uintz => exact formatUint64_decimal v

/-- When an integer is formatted as its numeral. -/
theorem format_iff (t : IntType) (v : BitVec t.width) : FormatRight t v ↔ (t = .int16 → 0 ≤ t.number v) := by
  by_cases ht : t = .int16
  · subst ht
    change BitVec 16 at v
    by_cases hneg : v.toInt < 0
    · refine iff_of_false ?_ (fun h => absurd (h rfl) (Int.not_le.mpr hneg))
      rintro ⟨text, hformat, hdecimal, -⟩
      have heq := (formatInt16_eq v).symm.trans hformat
      exact not_isDecimal hneg _ (Except.ok.inj heq ▸ hdecimal)
    · refine iff_of_true (.of_decimal ?_) (fun _ => Int.not_lt.mp hneg)
      have hint : v.toInt = v.toNat := by
        rw [BitVec.toInt_eq_toNat_cond] at hneg ⊢
        split <;> omega
      exact (formatInt16_eq v).trans (congrArg (fun n : Int => Except.ok (decimal n)) hint.symm)
  · exact iff_of_true (.of_decimal (IntType.format_decimal ht v)) (fun h => absurd h ht)

/-- The text of -1 is 65535. -/
theorem minus_one_wrong : ¬ FormatRight .int16 (BitVec.ofInt 16 (-1)) := by
  rintro ⟨text, hformat, hdecimal, -⟩
  have heq := (formatInt16_eq (BitVec.ofInt 16 (-1))).symm.trans hformat
  exact not_isDecimal (by decide) _ (Except.ok.inj heq ▸ hdecimal)

end Integers

end Crack
