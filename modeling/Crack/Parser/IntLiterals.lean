import Crack.Parser.StringLiterals
import Crack.Parser.Indentation
import Crack.Model.IntConstConvert
import Mathlib.Data.List.Induction
import Mathlib.Data.Nat.Digits.Defs

/-!
# Integer literals

The constant that an integer token stands for, and what a literal of bytes should stand for.
-/
namespace Crack

namespace Lexer

/-- The value of a digit or a letter. -/
def digitValue (ch : UInt8) : Option Nat :=
  if isDigit ch then some (ch - chr '0').toNat
  else if chr 'a' ≤ ch && ch ≤ chr 'z' then some ((ch - chr 'a').toNat + 10)
  else if chr 'A' ≤ ch && ch ≤ chr 'Z' then some ((ch - chr 'A').toNat + 10)
  else none

/-- The digits of a base, up to the first other character. -/
def digitRun (base : Nat) : List UInt8 → List Nat
  | [] => []
  | ch :: val =>
    match digitValue ch with
    | some d => if d < base then d :: digitRun base val else []
    | none => []

def ofDigits (base : Nat) (digits : List Nat) : Nat := Nat.ofDigits base digits.reverse

/-- The text after white space, a sign and the prefix of its base, and whether the sign is a minus. -/
def subject (val : List UInt8) (base : Nat) : Bool × List UInt8 :=
  let (negative, val) :=
    match val.dropWhile isSpace with
    | [] => (false, [])
    | ch :: val => if ch = chr '-' then (true, val) else if ch = chr '+' then (false, val) else (false, ch :: val)
  match val with
  | zero :: x :: digit :: val' =>
    if base = 16 ∧ zero = chr '0' ∧ (x = chr 'x' ∨ x = chr 'X') ∧ isXDigit digit then (negative, digit :: val')
    else (negative, val)
  | _ => (negative, val)

/-- Too large a value becomes the largest one. -/
def strtoull (val : List UInt8) (base : Nat) : Nat :=
  let (negative, val) := subject val base
  let n := ofDigits base (digitRun base val)
  if 2 ^ 64 ≤ n then 2 ^ 64 - 1 else if negative then (2 ^ 64 - n) % 2 ^ 64 else n

def strtoll (val : List UInt8) (base : Nat) : Int :=
  let (negative, val) := subject val base
  let n := ofDigits base (digitRun base val)
  if negative then if 2 ^ 63 < n then -2 ^ 63 else -n else if 2 ^ 63 ≤ n then 2 ^ 63 - 1 else n

def selectType (val : Int) : IntType := if 0x7FFFFFFF < val ∨ val < -0x80000000 then .int64Type else .intType

/-- A `char` as a part of an `int64_t`. -/
def ofChar (ch : UInt8) : BitVec 64 := ch.toBitVec.signExtend 64

/-- The constant of the bytes of a string. -/
def ofChars (val : List UInt8) : BitVec 64 := val.foldl (fun n ch => n <<< 8 ||| ofChar ch) 0

/-- The constant and its type, or an error. -/
def parseConstInt (val : List UInt8) (base : Nat) : Except String (IntConst × IntType) :=
  match val with
  | letter :: slash :: chars =>
    if letter = chr 'b' ∧ slash = chr '/' then
      match chars with
      | [ch] => .ok (IntConst.createSigned (ofChar ch), .byteType)
      | _ => .error "Byte constants from strings must be exactly one byte long."
    else if letter = chr 'i' ∧ slash = chr '/' then
      if val.length < 3 ∨ 10 < val.length then
        .error "Integer constants from strings must be between one and 8 bytes long"
      else .ok (IntConst.createSigned (ofChars chars), selectType (ofChars chars).toInt)
    else ofNumeral
  | _ => ofNumeral
where
  ofNumeral : Except String (IntConst × IntType) :=
    let bigcval := strtoull val base
    if bigcval ≤ IntConst.int64Max then
      .ok (IntConst.createSigned (BitVec.ofInt 64 (strtoll val base)), selectType (strtoll val base))
    else .ok (IntConst.createUnsigned (BitVec.ofNat 64 bigcval), .uint64Type)

section Bytes

variable {bytes bytes' : List UInt8} {ch : UInt8}

def notBlank (ch : UInt8) : Bool := !isBlank ch

def bigEndian (bytes : List UInt8) : Nat := ofDigits 256 (bytes.map UInt8.toNat)

/-- What is made of the bytes: one above 127 is negative, and covers those before it. -/
def signedBytes (bytes : List UInt8) : Int :=
  bytes.foldl (fun v ch => if ch < 128 then v * 256 + ch.toNat else ch.toNat - 256) 0

theorem ofDigits_concat (base d : Nat) (digits : List Nat) :
    ofDigits base (digits ++ [d]) = ofDigits base digits * base + d := by
  rw [ofDigits, List.reverse_append, List.reverse_singleton, List.singleton_append, Nat.ofDigits_cons, ofDigits,
    Nat.mul_comm, Nat.add_comm]

theorem bigEndian_concat (bytes : List UInt8) (ch : UInt8) :
    bigEndian (bytes ++ [ch]) = bigEndian bytes * 256 + ch.toNat := by
  rw [bigEndian, List.map_append, List.map_singleton, ofDigits_concat, bigEndian]

theorem signedBytes_concat (bytes : List UInt8) (ch : UInt8) : signedBytes (bytes ++ [ch]) =
    if ch < 128 then signedBytes bytes * 256 + ch.toNat else ch.toNat - 256 := by
  rw [signedBytes, List.foldl_append]
  rfl

theorem ofChars_concat (bytes : List UInt8) (ch : UInt8) :
    ofChars (bytes ++ [ch]) = ofChars bytes <<< 8 ||| ofChar ch := by
  rw [ofChars, List.foldl_append]
  rfl

theorem msb_toBitVec (ch : UInt8) : ch.toBitVec.msb = !decide (ch < 128) := by
  rw [BitVec.msb_eq_decide]
  have : ch.toBitVec.toNat = ch.toNat := rfl
  simp only [this, UInt8.lt_iff_toNat_lt]
  simp only [← decide_not, decide_eq_decide]
  change _ ↔ ¬ ch.toNat < 128
  omega

theorem toInt_toBitVec (ch : UInt8) : ch.toBitVec.toInt = if ch < 128 then (ch.toNat : Int) else ch.toNat - 256 := by
  rw [BitVec.toInt_eq_msb_cond, msb_toBitVec]
  by_cases h : ch < 128 <;> simp [h]

theorem ofChar_eq (ch : UInt8) :
    ofChar ch = BitVec.ofInt 64 (if ch < 128 then (ch.toNat : Int) else ch.toNat - 256) := by
  rw [ofChar, BitVec.signExtend, toInt_toBitVec]

theorem shl_or_low (n : BitVec 64) (h : ch < 128) : n <<< 8 ||| ofChar ch = n * 256 + BitVec.ofInt 64 ch.toNat := by
  have hand : n <<< 8 &&& ofChar ch = 0#64 := by
    ext i hi
    by_cases h8 : i < 8
    · simp [h8]
    · simp only [BitVec.getElem_and, ofChar, BitVec.getElem_signExtend, msb_toBitVec, h]
      simp
      omega
  rw [← BitVec.add_eq_or_of_and_eq_zero _ _ hand, ofChar_eq, if_pos h, BitVec.shiftLeft_eq_mul_twoPow]
  rfl

theorem shl_or_high (n : BitVec 64) (h : ¬ ch < 128) : n <<< 8 ||| ofChar ch = ofChar ch := by
  ext i hi
  by_cases h8 : i < 8
  · simp [h8]
  · simp [BitVec.getElem_or, ofChar, BitVec.getElem_signExtend, msb_toBitVec, h, h8]

theorem ofChars_eq (bytes : List UInt8) : ofChars bytes = BitVec.ofInt 64 (signedBytes bytes) := by
  induction bytes using List.reverseRecOn with
  | nil => rfl
  | append_singleton bytes ch ih =>
    rw [ofChars_concat, signedBytes_concat]
    by_cases h : ch < 128
    · rw [shl_or_low _ h, if_pos h, ih, BitVec.ofInt_add, BitVec.ofInt_mul]
      rfl
    · rw [shl_or_high _ h, if_neg h, ofChar_eq, if_neg h]

theorem toNat_low (h : ch < 128) : ch.toNat < 128 := UInt8.lt_iff_toNat_lt.mp h

theorem toNat_high (h : ¬ ch < 128) : 128 ≤ ch.toNat := Nat.not_lt.mp fun hlt => h (UInt8.lt_iff_toNat_lt.mpr hlt)

/-- It fits into as many bytes. -/
theorem signedBytes_bounds (bytes : List UInt8) :
    -256 ^ bytes.length ≤ 2 * signedBytes bytes ∧ 2 * signedBytes bytes < 256 ^ bytes.length := by
  induction bytes using List.reverseRecOn with
  | nil => decide
  | append_singleton bytes ch ih =>
    obtain ⟨hlow, hhigh⟩ := ih
    have hlt := ch.toNat_lt
    have hpow : (0 : Int) < 256 ^ bytes.length := by positivity
    rw [signedBytes_concat, List.length_append, List.length_singleton, pow_succ]
    split
    · next h =>
      have := toNat_low h
      omega
    · next h =>
      have := toNat_high h
      omega

theorem toInt_ofChars (h : bytes.length ≤ 8) : (ofChars bytes).toInt = signedBytes bytes := by
  obtain ⟨hlow, hhigh⟩ := signedBytes_bounds bytes
  have hpow : (256 : Int) ^ bytes.length ≤ 256 ^ 8 := pow_le_pow_right₀ (by decide) h
  rw [ofChars_eq, BitVec.toInt_ofInt]
  exact Int.bmod_eq_of_le (by omega) (by omega)

theorem signedBytes_low (h : ∀ ch ∈ bytes, ch < 128) : signedBytes bytes = bigEndian bytes := by
  induction bytes using List.reverseRecOn with
  | nil => rfl
  | append_singleton bytes ch ih =>
    rw [signedBytes_concat, bigEndian_concat, if_pos (h ch (List.mem_append_right _ List.mem_cons_self)),
      ih fun c hc => h c (List.mem_append_left _ hc)]
    norm_cast

theorem signedBytes_high (h : ¬ ∀ ch ∈ bytes, ch < 128) : signedBytes bytes < 0 := by
  induction bytes using List.reverseRecOn with
  | nil => exact absurd (fun _ hc => nomatch hc) h
  | append_singleton bytes ch ih =>
    have hlt := ch.toNat_lt
    rw [signedBytes_concat]
    split
    · next hch =>
      have hlow := toNat_low hch
      have := ih fun hall => h fun c hc =>
        (List.mem_append.mp hc).elim (hall c) fun hc => List.mem_singleton.mp hc ▸ hch
      omega
    · omega

theorem low_of_signedBytes {n : Nat} (h : signedBytes bytes = n) : ∀ ch ∈ bytes, ch < 128 := by
  refine Classical.byContradiction fun hall => ?_
  have := signedBytes_high hall
  omega

theorem bigEndian_replicate (k : Nat) (bytes : List UInt8) :
    bigEndian (List.replicate k 0 ++ bytes) = bigEndian bytes := by
  rw [bigEndian, List.map_append, List.map_replicate, ofDigits, List.reverse_append, List.reverse_replicate]
  exact Nat.ofDigits_append_replicate_zero _

theorem eq_of_bigEndian (hlen : bytes.length = bytes'.length) (h : bigEndian bytes = bigEndian bytes') :
    bytes = bytes' := by
  have hdigit (bytes : List UInt8) : ∀ d ∈ (bytes.map UInt8.toNat).reverse, d < 256 := by
    intro d hd
    obtain ⟨ch, -, rfl⟩ := List.mem_map.mp (List.mem_reverse.mp hd)
    exact ch.toNat_lt
  have hdigits := Nat.ofDigits_inj_of_len_eq (by decide)
    (by rw [List.length_reverse, List.length_reverse, List.length_map, List.length_map, hlen]) (hdigit bytes)
    (hdigit bytes') h
  exact (List.map_inj_right fun _ _ => UInt8.toNat_inj.mp).mp (List.reverse_inj.mp hdigits)

/-- Bytes with the same value differ in zeros at the start. -/
theorem eq_replicate_of_bigEndian (hlen : bytes.length ≤ bytes'.length) (h : bigEndian bytes' = bigEndian bytes) :
    bytes' = List.replicate (bytes'.length - bytes.length) 0 ++ bytes := by
  refine eq_of_bigEndian ?_ (h.trans (bigEndian_replicate _ bytes).symm)
  rw [List.length_append, List.length_replicate]
  omega

/-- They are the same if they are the same but for blanks. -/
theorem eq_of_bigEndian_filter (hfilter : bytes'.filter notBlank = bytes.filter notBlank)
    (h : bigEndian bytes' = bigEndian bytes) : bytes' = bytes := by
  have hlonger {xs ys : List UInt8} (hlen : xs.length ≤ ys.length) (hval : bigEndian ys = bigEndian xs)
      (hfil : ys.filter notBlank = xs.filter notBlank) : ys = xs := by
    have hys := eq_replicate_of_bigEndian hlen hval
    generalize ys.length - xs.length = k at hys
    rw [hys, List.filter_append, List.filter_replicate_of_pos (by decide)] at hfil
    have hk := congrArg List.length hfil
    rw [List.length_append, List.length_replicate] at hk
    obtain rfl : k = 0 := by omega
    exact hys
  rcases Nat.le_total bytes.length bytes'.length with hlen | hlen
  · exact hlonger hlen h hfilter
  · exact (hlonger hlen h.symm hfilter.symm).symm

end Bytes

section Literals

open State

variable {t : Toker} {src text bytes rest : List UInt8} {junk : TokenType} {letter quote : UInt8} {i : Indent}

/-- A string of as many bytes as a letter allows. -/
def Sized (letter : UInt8) (bytes : List UInt8) : Prop :=
  letter = chr 'i' ∧ 1 ≤ bytes.length ∧ bytes.length ≤ 8 ∨ letter = chr 'b' ∧ bytes.length = 1

/-- The next token is read from the literal only, and its constant has the value `value`. -/
def Denotes (t : Toker) (src : List UInt8) (junk : TokenType) (rest : List UInt8) (value : Nat) : Prop :=
  ∃ tok t' src' c type, t.getToken junk src = .token tok t' src' ∧ tok.type = .integer ∧ t'.rest src' = rest ∧
    parseConstInt tok.data 10 = .ok (c, type) ∧ c.value = value

/-- Only blanks are stripped and added. -/
theorem filter_fixLoop (m : Nat) (val : List UInt8) (line : Option Nat) :
    (fixLoop m val line).filter notBlank = (if line.isSome then [chr '\n'] else []) ++ val.filter notBlank := by
  have hspaces (n : Nat) : (List.replicate n (chr ' ')).filter notBlank = [] :=
    List.filter_replicate_of_neg (by decide)
  have hnewline : notBlank (chr '\n') = true := rfl
  fun_induction fixLoop m val line with
  | case1 => rfl
  | case2 indent =>
    rw [List.filter_cons_of_pos hnewline, hspaces]
    rfl
  | case3 line val ih =>
    rw [List.filter_append, ih, List.filter_cons_of_pos hnewline]
    split <;> rfl
  | case4 c val hc ih =>
    rw [List.filter_cons, List.filter_cons, ih]
    rfl
  | case5 val indent hc ih =>
    rw [ih, List.filter_cons_of_neg (a := chr ' ') (by decide)]
    rfl
  | case6 val indent hc hspace ih =>
    rw [ih, List.filter_cons_of_neg (a := chr '\t') (by decide)]
    rfl
  | case7 c val hc indent hspace htab ih =>
    rw [List.cons_append, List.filter_cons_of_pos hnewline, List.filter_append, hspaces, List.filter_cons,
      List.filter_cons, ih]
    rfl

theorem scan_close (i : Indent) (l : Locals) (rest : List UInt8) :
    ∃ i', scan stString i l (l.terminator :: rest) = .token l.t1 (closed i l.buf) stNone i' rest := by
  by_cases h : i.indentedString = true
  · refine ⟨evaluateIndentation l.buf i, scan_done ?_⟩
    simp only [transition, closed, h, if_true]
  · refine ⟨i, scan_done ?_⟩
    simp only [transition, closed, h, if_true, if_false, Bool.false_eq_true]

theorem letter_of_sized (h : Sized letter bytes) : letter = chr 'i' ∨ letter = chr 'b' := h.imp And.left And.left

/-- A literal is read as its letter, a slash and the bytes. -/
theorem scan_bytes (rest : List UInt8) (junk : TokenType) (hletter : letter = chr 'i' ∨ letter = chr 'b') (hquote : isQuote quote = true)
    (h : Spells quote i.indentedString text bytes) :
    ∃ i', scan stNone i (Locals.start junk) (letter :: quote :: (text ++ quote :: rest)) =
      .token .integer (closed i (letter :: chr '/' :: bytes)) stNone i' rest := by
  let l : Locals := { Locals.start junk with buf := [letter, chr '/'], terminator := quote, t1 := .integer }
  have hopen : scan stNone i (Locals.start junk) (letter :: quote :: (text ++ quote :: rest)) =
      scan stString i l (text ++ quote :: rest) := by
    have hstart : scan stNone i (Locals.start junk) (letter :: quote :: (text ++ quote :: rest)) =
        scan stStrint i ((Locals.start junk).put [letter]) (quote :: (text ++ quote :: rest)) := by
      apply scan_go
      rcases hletter with rfl | rfl <;> rfl
    refine hstart.trans (scan_go ?_)
    simp only [transition, hquote, if_true]
    rfl
  obtain ⟨l', ⟨hbuf, hterm, ht1⟩, hscan⟩ := scan_spells rest h (quote_ne_backslash hquote) rfl l rfl
  obtain ⟨i', hclose⟩ := scan_close i l' rest
  rw [show l'.terminator = quote from hterm, show l'.t1 = .integer from ht1,
    show l'.buf = letter :: chr '/' :: bytes from hbuf] at hclose
  exact ⟨i', by rw [hopen, hscan, hclose]⟩

/-- The letter and the slash stay at the start. -/
theorem closed_bytes (i : Indent) (hletter : letter = chr 'i' ∨ letter = chr 'b') (bytes : List UInt8) :
    ∃ bytes', closed i (letter :: chr '/' :: bytes) = letter :: chr '/' :: bytes' ∧
      bytes'.filter notBlank = bytes.filter notBlank := by
  unfold closed
  split
  · refine ⟨fixLoop (evaluateIndentation (letter :: chr '/' :: bytes) i).minIndentLevel bytes none, ?_,
      filter_fixLoop _ bytes none⟩
    have hslash : chr '\n' ∉ [letter, chr '/'] := by rcases hletter with rfl | rfl <;> decide
    exact fixLoop_text hslash
  · exact ⟨bytes, rfl, rfl⟩

theorem toInt_ofChar (ch : UInt8) : (ofChar ch).toInt = signedBytes [ch] := by
  have h := toInt_ofChars (show [ch].length ≤ 8 from Nat.le_add_left 1 7)
  rwa [show ofChars [ch] = ofChar ch from BitVec.zero_or] at h

theorem parseConstInt_i (bytes : List UInt8) (base : Nat) : parseConstInt (chr 'i' :: chr '/' :: bytes) base =
    if bytes.length + 2 < 3 ∨ 10 < bytes.length + 2 then
      .error "Integer constants from strings must be between one and 8 bytes long"
    else .ok (IntConst.createSigned (ofChars bytes), selectType (ofChars bytes).toInt) := rfl

/-- The bytes that are left are read as `char`s. -/
theorem parseConstInt_bytes (hletter : letter = chr 'i' ∨ letter = chr 'b') (h : Sized letter bytes) :
    ∃ c type, parseConstInt (letter :: chr '/' :: bytes) 10 = .ok (c, type) ∧ c.value = signedBytes bytes := by
  rcases h with ⟨rfl, hlow, hhigh⟩ | ⟨rfl, hlen⟩
  · refine ⟨IntConst.createSigned (ofChars bytes), selectType (ofChars bytes).toInt, ?_, toInt_ofChars hhigh⟩
    rw [parseConstInt_i, if_neg (by omega)]
  · obtain ⟨ch, rfl⟩ := List.length_eq_one_iff.mp hlen
    exact ⟨IntConst.createSigned (ofChar ch), .byteType, rfl, toInt_ofChar ch⟩

theorem sized_of_parseConstInt {c : IntConst} {type : IntType} (hletter : letter = chr 'i' ∨ letter = chr 'b')
    (h : parseConstInt (letter :: chr '/' :: bytes) 10 = .ok (c, type)) : Sized letter bytes := by
  rcases hletter with rfl | rfl
  · rw [parseConstInt_i] at h
    split at h
    · cases h
    · exact .inl ⟨rfl, by omega, by omega⟩
  · match bytes, h with
    | [_], _ => exact .inr ⟨rfl, rfl⟩
    | [], h => cases h
    | _ :: _ :: _, h => cases h

/-- A literal stands for what the constant of its bytes is, as they are at its end. -/
theorem denotes_iff_parseConstInt (htokens : t.tokens = []) (hstate : t.state = stNone)
    (hletter : letter = chr 'i' ∨ letter = chr 'b') (hquote : isQuote quote = true)
    (hspells : Spells quote t.indent.indentedString text bytes)
    (hrest : t.rest src = letter :: quote :: (text ++ quote :: rest)) (value : Nat) :
    Denotes t src junk rest value ↔
      ∃ c type, parseConstInt (closed t.indent (letter :: chr '/' :: bytes)) 10 = .ok (c, type) ∧ c.value = value := by
  obtain ⟨i', hscan⟩ := scan_bytes rest junk hletter hquote hspells
  rw [← hrest, ← hstate] at hscan
  obtain ⟨tok, t', src', hget, htype, hdata, hrest', -⟩ := Toker.getToken_scan htokens (by decide) hscan
  rw [← hdata]
  constructor
  · rintro ⟨tok₁, t₁, src₁, c, type, hget₁, -, -, hparse, hvalue⟩
    obtain ⟨rfl, -, -⟩ := Toker.Result.token.inj (hget.symm.trans hget₁)
    exact ⟨c, type, hparse, hvalue⟩
  · rintro ⟨c, type, hparse, hvalue⟩
    exact ⟨tok, t', src', c, type, hget, htype, hrest', hparse, hvalue⟩

/-- A literal of bytes stands for their value if and only if none of them is above 127 and they stay as they
are at the end of an indented string, if the last string was one. -/
theorem denotes_bytes_iff (t : Toker) (src : List UInt8) (junk : TokenType) (letter quote : UInt8)
    (text bytes rest : List UInt8) (htokens : t.tokens = []) (hstate : t.state = stNone) (hquote : isQuote quote = true)
    (hsized : Sized letter bytes) (hspells : Spells quote t.indent.indentedString text bytes)
    (hrest : t.rest src = letter :: quote :: (text ++ quote :: rest)) :
    Denotes t src junk rest (bigEndian bytes) ↔
      (∀ ch ∈ bytes, ch < 128) ∧ closed t.indent (letter :: chr '/' :: bytes) = letter :: chr '/' :: bytes := by
  have hletter := letter_of_sized hsized
  rw [denotes_iff_parseConstInt htokens hstate hletter hquote hspells hrest]
  obtain ⟨bytes', hclosed, hfilter⟩ := closed_bytes t.indent hletter bytes
  rw [hclosed]
  constructor
  · rintro ⟨c, type, hparse, hvalue⟩
    obtain ⟨c', type', hparse', hvalue'⟩ := parseConstInt_bytes hletter (sized_of_parseConstInt hletter hparse)
    obtain ⟨rfl, rfl⟩ := Prod.mk.inj (Except.ok.inj (hparse.symm.trans hparse'))
    have hsigned : signedBytes bytes' = bigEndian bytes := hvalue'.symm.trans hvalue
    have hlow := low_of_signedBytes hsigned
    rw [signedBytes_low hlow] at hsigned
    obtain rfl := eq_of_bigEndian_filter hfilter (by exact_mod_cast hsigned)
    exact ⟨hlow, rfl⟩
  · rintro ⟨hlow, hsame⟩
    obtain rfl : bytes' = bytes := by simpa using hsame
    obtain ⟨c, type, hparse, hvalue⟩ := parseConstInt_bytes hletter hsized
    exact ⟨c, type, hparse, hvalue.trans (signedBytes_low hlow)⟩

theorem denotes_bytes_ab :
    Denotes (Toker.new (ascii "a.crk") 1) (ascii "i'a\\x62';") .end (ascii ";") (bigEndian [97, 98]) :=
  (denotes_bytes_iff _ _ _ (chr 'i') (chr '\'') (ascii "a\\x62") _ _ rfl rfl rfl (.inl ⟨rfl, by decide, by decide⟩)
    (.plain (by decide) (by decide)
      (.hex (rfl : hexValue (chr '6') = some 6) (rfl : hexValue (chr '2') = some 2) .nil)) rfl).mpr ⟨by decide +kernel, rfl⟩

/-- A byte above 127 is read as a negative number. -/
theorem high_byte_not_denoted :
    ¬ Denotes (Toker.new (ascii "a.crk") 1) (ascii "i'\\xC8';") .end (ascii ";") (bigEndian [200]) := by
  have hspells : Spells (chr '\'') false (ascii "\\xC8") [200] :=
    .hex (rfl : hexValue (chr 'C') = some 12) (rfl : hexValue (chr '8') = some 8) .nil
  rw [denotes_iff_parseConstInt rfl rfl (.inl (rfl : chr 'i' = chr 'i')) rfl hspells rfl]
  rintro ⟨c, type, hparse, hvalue⟩
  obtain ⟨rfl, -⟩ := Prod.mk.inj (Except.ok.inj hparse)
  exact absurd hvalue (by decide)

end Literals

end Lexer

end Crack
