import Crack.Parser.IntLiterals

/-!
# Numerals

The numerals of the language, the tokens that the tokenizer makes of them, and what their
texts denote: integers as `strtoull` reads them and floats as `atof` does.
-/
namespace Crack

namespace Lexer

def isE (ch : UInt8) : Bool := ch = chr 'e' || ch = chr 'E'

def digitNat (ch : UInt8) : Nat := (digitValue ch).getD 0

/-- The bases with a letter. -/
inductive Radix where
  | octal | hex | binary
  deriving DecidableEq, Repr

namespace Radix

def letters : Radix → List UInt8
  | octal => [chr 'o', chr 'O']
  | hex => [chr 'x', chr 'X']
  | binary => [chr 'b', chr 'B']

def base : Radix → Nat
  | octal => 8
  | hex => 16
  | binary => 2

def digit : Radix → UInt8 → Bool
  | octal => fun c => chr '0' ≤ c && c ≤ chr '7'
  | hex => isXDigit
  | binary => fun c => c = chr '0' || c = chr '1'

def type : Radix → TokenType
  | octal => .octalLit
  | hex => .hexLit
  | binary => .binLit

def state : Radix → State
  | octal => .stOctal
  | hex => .stHex
  | binary => .stBinary

end Radix

structure Exponent where
  letter : UInt8
  sign : Option UInt8
  digits : List UInt8
  deriving DecidableEq, Repr

namespace Exponent

variable (e : Exponent)

def text : List UInt8 := e.letter :: (e.sign.toList ++ e.digits)

def value : Int :=
  if e.sign = some (chr '-') then -(ofDigits 10 (e.digits.map digitNat) : Int)
  else (ofDigits 10 (e.digits.map digitNat) : Int)

structure Wf : Prop where
  letter : isE e.letter = true
  sign : ∀ c ∈ e.sign, c = chr '+' ∨ c = chr '-'
  nonempty : e.digits ≠ []
  digits : ∀ c ∈ e.digits, isDigit c = true

end Exponent

inductive Numeral where
  | decimal (whole : List UInt8)
  | radix (r : Radix) (letter : UInt8) (digits : List UInt8)
  /-- A zero and octal digits. -/
  | oldOctal (digits : List UInt8)
  | float (whole frac : List UInt8) (exp : Option Exponent)
  deriving DecidableEq, Repr

/-- An integer, or a number and the power of ten it is multiplied with. -/
inductive NumberValue where
  | int (n : Nat)
  | float (mantissa : Nat) (exponent : Int)
  deriving DecidableEq, Repr

/-- Decimal digits; the first one is not zero unless it is the only one. -/
def IsWhole (whole : List UInt8) : Prop :=
  whole = [chr '0'] ∨ ∃ d ds, whole = d :: ds ∧ d ≠ chr '0' ∧ ∀ c ∈ whole, isDigit c = true

def fracText (frac : List UInt8) : List UInt8 := if frac = [] then [] else chr '.' :: frac

def expText (exp : Option Exponent) : List UInt8 := (exp.map Exponent.text).getD []

namespace Numeral

def text : Numeral → List UInt8
  | decimal whole => whole
  | radix _ letter digits => chr '0' :: letter :: digits
  | oldOctal digits => chr '0' :: digits
  | float whole frac exp => whole ++ (fracText frac ++ expText exp)

def Wf : Numeral → Prop
  | decimal whole => IsWhole whole
  | radix r letter digits => letter ∈ r.letters ∧ digits ≠ [] ∧ ∀ c ∈ digits, r.digit c = true
  | oldOctal digits => digits ≠ [] ∧ ∀ c ∈ digits, Radix.octal.digit c = true
  | float whole frac exp =>
    (whole = [] ∨ IsWhole whole) ∧ (∀ c ∈ frac, isDigit c = true) ∧ (∀ e ∈ exp, e.Wf) ∧
      (frac ≠ [] ∨ whole ≠ [] ∧ exp ≠ none)

def type : Numeral → TokenType
  | decimal _ => .integer
  | radix r _ _ => r.type
  | oldOctal _ => .octalLit
  | float _ _ _ => .floatLit

/-- The text of its token. A zero before a point is left out. -/
def tokenText : Numeral → List UInt8
  | decimal whole => whole
  | radix r _ digits => if r = .octal then chr '0' :: digits else digits
  | oldOctal digits => digits
  | float whole frac exp => (if whole = [chr '0'] then [] else whole) ++ (fracText frac ++ expText exp)

def value : Numeral → NumberValue
  | decimal whole => .int (ofDigits 10 (whole.map digitNat))
  | radix r _ digits => .int (ofDigits r.base (digits.map digitNat))
  | oldOctal digits => .int (ofDigits 8 (digits.map digitNat))
  | float whole frac exp =>
    .float (ofDigits 10 ((whole ++ frac).map digitNat)) ((exp.map Exponent.value).getD 0 - frac.length)

/-- The characters that can continue a numeral. A digit continues every decimal, a letter a zero. -/
def continues (ch : UInt8) : Numeral → Bool
  | decimal whole =>
    isDigit ch || ch = chr '.' || isE ch || whole = [chr '0'] && ch ∈ Radix.octal.letters ++ Radix.hex.letters ++
      Radix.binary.letters
  | radix r _ _ => r.digit ch
  | oldOctal _ => Radix.octal.digit ch
  | float _ _ exp => isDigit ch || exp.isNone && isE ch

/-- What follows does not continue the numeral: it starts with another character, or it is a dot after an integer
without a digit after it. -/
inductive Ends : Numeral → List UInt8 → Prop where
  | other {n : Numeral} {ch : UInt8} {rest : List UInt8} (h : n.continues ch = false) : Ends n (ch :: rest)
  | dot {whole : List UInt8} {ch : UInt8} {rest : List UInt8} (h : isDigit ch = false) :
      Ends (decimal whole) (chr '.' :: ch :: rest)

end Numeral

/-- The value that `strtoull` reads, if it is not too large. -/
def intText (base : Nat) (data : List UInt8) : Nat := ofDigits base (digitRun base data)

/-- The digits after a point, and the rest. -/
def afterPoint : List UInt8 → List UInt8 × List UInt8
  | [] => ([], [])
  | ch :: data => if ch = chr '.' then (data.takeWhile isDigit, data.dropWhile isDigit) else ([], ch :: data)

def signedText : List UInt8 → Int
  | [] => 0
  | ch :: data =>
    if ch = chr '-' then -(intText 10 data : Int)
    else if ch = chr '+' then intText 10 data
    else intText 10 (ch :: data)

def exponentText : List UInt8 → Int
  | [] => 0
  | ch :: data => if isE ch then signedText data else 0

/-- The value that `atof` reads: a number and the power of ten it is multiplied with. -/
def atof (data : List UInt8) : Nat × Int :=
  let (frac, rest) := afterPoint (data.dropWhile isDigit)
  (ofDigits 10 ((data.takeWhile isDigit ++ frac).map digitNat), exponentText rest - frac.length)

/-- What the parser makes of a number token. -/
def denoted (type : TokenType) (data : List UInt8) : Option NumberValue :=
  match type with
  | .integer => some (.int (intText 10 data))
  | .octalLit => some (.int (intText 8 data))
  | .hexLit => some (.int (intText 16 data))
  | .binLit => some (.int (intText 2 data))
  | .floatLit => some (.float (atof data).1 (atof data).2)
  | _ => none

/-- The numeral is the next token, of its kind and with its value; and a dot after it is the one after that. -/
def ReadRight (t : Toker) (src : List UInt8) (junk : TokenType) (n : Numeral) (rest : List UInt8) : Prop :=
  ∃ tok t' src', t.getToken junk src = .token tok t' src' ∧ tok.type = n.type ∧
    denoted tok.type tok.data = some n.value ∧ t'.rest src' = rest ∧
    ∀ ch more, rest = chr '.' :: ch :: more → isDigit ch = false →
      ∃ tok₂ t₂ src₂, t'.getToken junk src' = .token tok₂ t₂ src₂ ∧ tok₂.type = .dot ∧ tok₂.data = ascii "." ∧
        t₂.rest src₂ = ch :: more

/-- The numeral has no letter `B`, and no zero without a fraction before an exponent or a dot. -/
def ReadIf : Numeral → List UInt8 → Prop
  | .decimal whole, rest => ¬ (whole = [chr '0'] ∧ rest.head? = some (chr '.'))
  | .radix _ letter _, _ => letter ≠ chr 'B'
  | .oldOctal _, _ => True
  | .float whole frac _, _ => ¬ (whole = [chr '0'] ∧ frac = [])

section Scans

open State

variable {i : Indent} {l : Locals} {ch : UInt8} {ds rest : List UInt8} {state : State}

theorem digit_cases (h : isDigit ch = true) : ch ∈ [48, 49, 50, 51, 52, 53, 54, 55, 56, 57] := by
  rw [isDigit, Bool.and_eq_true, decide_eq_true_eq, decide_eq_true_eq] at h
  have hlow : 48 ≤ ch.toNat := h.1
  have hhigh : ch.toNat ≤ 57 := h.2
  have hall : ∀ n < 58, 48 ≤ n → UInt8.ofNat n ∈ [48, 49, 50, 51, 52, 53, 54, 55, 56, 57] := by decide
  have hch := hall ch.toNat (by omega) hlow
  rwa [UInt8.ofNat_toNat] at hch

/-- A numeral starts with a digit in both states. -/
theorem transition_digit (hstate : state = stNone ∨ state = stInterpNone) (h : isDigit ch = true) :
    transition i l ch state = if ch = chr '0' then .go stZero i l else .go stNumber i (l.put [ch]) := by
  have hdigit := digit_cases h
  simp only [List.mem_cons, List.not_mem_nil, or_false] at hdigit
  rcases hstate with rfl | rfl <;>
    rcases hdigit with rfl | rfl | rfl | rfl | rfl | rfl | rfl | rfl | rfl | rfl <;> rfl

theorem scan_zero (hstate : state = stNone ∨ state = stInterpNone) :
    scan state i l (chr '0' :: rest) = scan stZero i l rest :=
  scan_go ((transition_digit hstate rfl).trans (if_pos rfl))

theorem scan_firstDigit (hstate : state = stNone ∨ state = stInterpNone) (h : isDigit ch = true)
    (hne : ch ≠ chr '0') : scan state i l (ch :: rest) = scan stNumber i (l.put [ch]) rest :=
  scan_go ((transition_digit hstate h).trans (if_neg hne))

/-- A state that keeps the characters of a class takes them all. -/
theorem scan_run {p : UInt8 → Bool} (hgo : ∀ (l : Locals) c, p c = true → transition i l c state = .go state i (l.put [c]))
    (hds : ∀ c ∈ ds, p c = true) (l : Locals) : scan state i l (ds ++ rest) = scan state i (l.put ds) rest := by
  induction ds generalizing l with
  | nil => rw [List.nil_append, Locals.put, List.append_nil]
  | cons c ds ih =>
    obtain ⟨hc, hds⟩ := List.forall_mem_cons.mp hds
    rw [List.cons_append, scan_go (hgo l c hc), ih hds, put_put, List.singleton_append]

theorem scan_number (hds : ∀ c ∈ ds, isDigit c = true) (l : Locals) :
    scan stNumber i l (ds ++ rest) = scan stNumber i (l.put ds) rest :=
  scan_run (fun _ _ h => by simp only [transition, h, if_true]) hds l

theorem scan_float (hds : ∀ c ∈ ds, isDigit c = true) (l : Locals) :
    scan stFloat i l (ds ++ rest) = scan stFloat i (l.put ds) rest :=
  scan_run (fun _ _ h => by simp only [transition, h, if_true]) hds l

theorem scan_exponent3 (hds : ∀ c ∈ ds, isDigit c = true) (l : Locals) :
    scan stExponent3 i l (ds ++ rest) = scan stExponent3 i (l.put ds) rest :=
  scan_run (fun _ _ h => by simp only [transition, h, if_true]) hds l

theorem transition_radix (r : Radix) (h : r.digit ch = true) :
    transition i l ch r.state = .go r.state i (l.put [ch]) := by
  cases r <;> exact if_pos h

theorem transition_radix_end (r : Radix) (h : r.digit ch = false) (hbuf : l.buf ≠ []) :
    transition i l ch r.state = .peek stNone r.type l.buf := by
  cases r <;> exact (if_neg (Bool.eq_false_iff.mp h)).trans (if_neg hbuf)

/-- The digits of a base and another character. -/
theorem scan_radix (r : Radix) (hne : ds ≠ []) (hds : ∀ c ∈ ds, r.digit c = true) (hend : r.digit ch = false)
    (l : Locals) :
    scan r.state i l (ds ++ ch :: rest) = .token r.type (l.buf ++ ds) stNone i (ch :: rest) := by
  rw [scan_run (fun l c h => transition_radix r h) hds]
  exact scan_peek (transition_radix_end r hend (List.append_ne_nil_of_right_ne_nil _ hne))

/-- The end of a number with an exponent. -/
theorem scan_expDigits (hne : ds ≠ []) (hds : ∀ c ∈ ds, isDigit c = true) (hend : isDigit ch = false)
    (hstate : state = stExponent ∨ state = stExponent2) (l : Locals) :
    scan state i l (ds ++ ch :: rest) = .token .floatLit (l.buf ++ ds) stNone i (ch :: rest) := by
  obtain ⟨d, ds, rfl⟩ := List.exists_cons_of_ne_nil hne
  obtain ⟨hd, hds⟩ := List.forall_mem_cons.mp hds
  have hsign : (d = chr '+' || d = chr '-') = false := by
    rw [Bool.or_eq_false_iff, decide_eq_false_iff_not, decide_eq_false_iff_not]
    constructor <;> rintro rfl <;> cases hd
  have hfirst : transition i l d state = .go stExponent3 i (l.put [d]) := by
    rcases hstate with rfl | rfl <;> simp only [transition, hsign, hd, Bool.false_eq_true, if_false, if_true]
  rw [List.cons_append, scan_go hfirst, scan_exponent3 hds, put_put, List.singleton_append]
  apply scan_peek
  simp only [transition, hend, Bool.false_eq_true, if_false]
  rfl

/-- An exponent and another character. -/
theorem scan_exponent {e : Exponent} (he : e.Wf) (hend : isDigit ch = false) (hstate : state = stNumber ∨ state = stFloat)
    (l : Locals) : scan state i l (e.text ++ ch :: rest) = .token .floatLit (l.buf ++ e.text) stNone i (ch :: rest) := by
  obtain ⟨letter, sign, digits⟩ := e
  obtain ⟨hletter, hsign, hne, hdigits⟩ := he
  have hnot : isDigit letter = false ∧ letter ≠ chr '.' := by
    rw [isE, Bool.or_eq_true, decide_eq_true_eq, decide_eq_true_eq] at hletter
    rcases hletter with rfl | rfl <;> decide
  have hfirst : transition i l letter state = .go stExponent i (l.put [letter]) := by
    have hletter' : (letter = chr 'e' || letter = chr 'E') = true := hletter
    rcases hstate with rfl | rfl <;>
      simp only [transition, hnot.1, hnot.2, hletter', Bool.false_eq_true, if_false, if_true]
  rw [Exponent.text, List.cons_append, scan_go hfirst, List.append_assoc]
  cases sign with
  | none =>
    rw [Option.toList_none, List.nil_append, scan_expDigits hne hdigits hend (.inl rfl)]
    simp only [Locals.put, List.append_assoc, List.singleton_append, List.nil_append]
  | some c =>
    have hplus : transition i (l.put [letter]) c stExponent = .go stExponent2 i ((l.put [letter]).put [c]) := by
      rcases hsign c rfl with rfl | rfl <;> rfl
    rw [Option.toList_some, List.singleton_append, scan_go hplus, scan_expDigits hne hdigits hend (.inr rfl)]
    simp only [Locals.put, List.append_assoc, List.cons_append, List.nil_append]

theorem not_isE (h : isE ch = false) : (ch = chr 'e' || ch = chr 'E') = false := h

variable {junk : TokenType} {exp : Option Exponent} {whole : List UInt8}

/-- The end of an integer that does not start with zero. -/
theorem scan_numberEnd (hend : (Numeral.decimal whole).Ends rest) (l : Locals) :
    scan stNumber i l rest = .token .integer l.buf stNone i rest := by
  cases hend with
  | @other _ ch rest h =>
    simp only [Numeral.continues, Bool.or_eq_false_iff, decide_eq_false_iff_not] at h
    obtain ⟨⟨⟨hdigit, hdot⟩, hE⟩, -⟩ := h
    apply scan_peek
    simp only [transition, hdigit, hdot, not_isE hE, Bool.false_eq_true, if_false]
  | @dot _ ch rest h =>
    have hpoint : scan stNumber i l (chr '.' :: ch :: rest) = scan stIntdot i l (ch :: rest) := scan_go rfl
    rw [hpoint]
    apply scan_peekDot
    simp only [transition, h, Bool.false_eq_true, if_false]

theorem scan_zeroEnd (h : (Numeral.decimal [chr '0']).continues ch = false) :
    scan stZero i l (ch :: rest) = .token .integer [chr '0'] stNone i (ch :: rest) := by
  simp only [Numeral.continues, Bool.or_eq_false_iff, decide_eq_false_iff_not, decide_true, Bool.true_and,
    Radix.letters, List.mem_append, List.mem_cons, List.not_mem_nil, or_false, not_or] at h
  obtain ⟨⟨⟨hdigit, hdot⟩, -⟩, ⟨⟨ho, hO⟩, hx, hX⟩, hb, -⟩ := h
  apply scan_peek
  simp only [transition, hdigit, hdot, ho, hO, hx, hX, hb, decide_false, Bool.or_self, Bool.false_eq_true, if_false]
  rfl

section

variable (hstate : state = stNone ∨ state = stInterpNone)

include hstate

theorem scan_decimal (h : IsWhole whole) (hend : (Numeral.decimal whole).Ends rest)
    (hif : ReadIf (.decimal whole) rest) :
    scan state i (Locals.start junk) (whole ++ rest) = .token .integer whole stNone i rest := by
  rcases h with rfl | ⟨d, ds, rfl, hne, hds⟩
  · rw [List.singleton_append, scan_zero hstate]
    cases hend with
    | other h => exact scan_zeroEnd h
    | dot h => exact absurd ⟨rfl, rfl⟩ hif
  · obtain ⟨hd, hds⟩ := List.forall_mem_cons.mp hds
    rw [List.cons_append, scan_firstDigit hstate hd hne, scan_number hds,
      scan_numberEnd hend]
    rfl

theorem scan_radixNumeral {r : Radix} {letter : UInt8} (hletter : letter ∈ r.letters) (hB : letter ≠ chr 'B')
    (hne : ds ≠ []) (hds : ∀ c ∈ ds, r.digit c = true) (hend : r.digit ch = false) :
    scan state i (Locals.start junk) (chr '0' :: letter :: (ds ++ ch :: rest)) =
      .token r.type (if r = .octal then chr '0' :: ds else ds) stNone i (ch :: rest) := by
  let l : Locals := (Locals.start junk).put (if r = .octal then [chr '0'] else [])
  have hopen : scan stZero i (Locals.start junk) (letter :: (ds ++ ch :: rest)) = scan r.state i l (ds ++ ch :: rest) := by
    apply scan_go
    cases r with
    | octal => simp only [Radix.letters, List.mem_cons, List.not_mem_nil, or_false] at hletter
               rcases hletter with rfl | rfl <;> rfl
    | hex => simp only [Radix.letters, List.mem_cons, List.not_mem_nil, or_false] at hletter
             rcases hletter with rfl | rfl <;> rfl
    | binary => simp only [Radix.letters, List.mem_cons, List.not_mem_nil, or_false, hB] at hletter
                subst hletter
                rfl
  rw [scan_zero hstate, hopen, scan_radix r hne hds hend]
  cases r <;> rfl

theorem scan_oldOctal (hne : ds ≠ []) (hds : ∀ c ∈ ds, Radix.octal.digit c = true)
    (hend : Radix.octal.digit ch = false) :
    scan state i (Locals.start junk) (chr '0' :: (ds ++ ch :: rest)) = .token .octalLit ds stNone i (ch :: rest) := by
  have hagain : scan stZero i (Locals.start junk) (ds ++ ch :: rest) =
      scan stOctal i (Locals.start junk) (ds ++ ch :: rest) := by
    obtain ⟨d, ds, rfl⟩ := List.exists_cons_of_ne_nil hne
    have hd : Radix.octal.digit d = true := hds d List.mem_cons_self
    have hdigit : isDigit d = true := by
      obtain ⟨hlow, hhigh⟩ := Bool.and_eq_true_iff.mp hd
      exact Bool.and_eq_true_iff.mpr ⟨hlow, decide_eq_true (UInt8.le_trans (of_decide_eq_true hhigh) (by decide))⟩
    apply scan_again
    have hcases := digit_cases hdigit
    simp only [List.mem_cons, List.not_mem_nil, or_false] at hcases
    rcases hcases with rfl | rfl | rfl | rfl | rfl | rfl | rfl | rfl | rfl | rfl <;> rfl
  rw [scan_zero hstate, hagain]
  exact scan_radix .octal hne hds hend (Locals.start junk)

omit hstate in
/-- The end of a float after its fraction. -/
theorem scan_floatEnd (hexp : ∀ e ∈ exp, e.Wf) (hdigit : isDigit ch = false) (hE : exp = none → isE ch = false)
    (l : Locals) :
    scan stFloat i l (expText exp ++ ch :: rest) = .token .floatLit (l.buf ++ expText exp) stNone i (ch :: rest) := by
  cases exp with
  | none =>
    rw [show expText none = [] from rfl, List.append_nil]
    apply scan_peek
    simp only [transition, hdigit, not_isE (hE rfl), Bool.false_eq_true, if_false]
  | some e => exact scan_exponent (hexp e rfl) hdigit (.inr rfl) l

omit hstate in
/-- A fraction and what comes after it. -/
theorem scan_fraction {f : UInt8} (hfrac : ∀ c ∈ f :: ds, isDigit c = true) (hexp : ∀ e ∈ exp, e.Wf)
    (hdigit : isDigit ch = false) (hE : exp = none → isE ch = false) (hstate : state = stPeriod ∨ state = stIntdot)
    (l : Locals) :
    scan state i l (f :: ds ++ (expText exp ++ ch :: rest)) =
      .token .floatLit (l.buf ++ (fracText (f :: ds) ++ expText exp)) stNone i (ch :: rest) := by
  obtain ⟨hf, hds⟩ := List.forall_mem_cons.mp hfrac
  have hfirst : transition i l f state = .go stFloat i (l.put [chr '.', f]) := by
    rcases hstate with rfl | rfl <;> exact if_pos hf
  rw [List.cons_append, scan_go hfirst, scan_float hds, put_put, scan_floatEnd hexp hdigit hE]
  simp only [Locals.put, fracText, reduceCtorEq, if_false, List.append_assoc, List.cons_append, List.nil_append]

theorem scan_point : scan state i l (chr '.' :: rest) = scan stPeriod i l rest := by
  apply scan_go
  rcases hstate with rfl | rfl <;> rfl

theorem scan_floatNumeral {whole frac : List UInt8} (h : (Numeral.float whole frac exp).Wf)
    (hdigit : isDigit ch = false) (hE : exp = none → isE ch = false) (hif : ¬ (whole = [chr '0'] ∧ frac = [])) :
    scan state i (Locals.start junk) (whole ++ (fracText frac ++ expText exp) ++ ch :: rest) =
      .token .floatLit (Numeral.float whole frac exp).tokenText stNone i (ch :: rest) := by
  obtain ⟨hwhole, hfrac, hexp, hsome⟩ := h
  rw [List.append_assoc, List.append_assoc]
  rcases hwhole with rfl | rfl | ⟨d, ds, rfl, hne, hds⟩
  · obtain ⟨f, fs, rfl⟩ := List.exists_cons_of_ne_nil (hsome.resolve_right fun h => h.1 rfl)
    rw [List.nil_append, show fracText (f :: fs) = chr '.' :: f :: fs from rfl, List.cons_append, scan_point hstate,
      scan_fraction hfrac hexp hdigit hE (.inl rfl)]
    rfl
  · obtain ⟨f, fs, rfl⟩ := List.exists_cons_of_ne_nil fun h => hif ⟨rfl, h⟩
    have hpoint : scan stZero i (Locals.start junk) (chr '.' :: (f :: fs ++ (expText exp ++ ch :: rest))) =
        scan stFloat i ((Locals.start junk).put [chr '.']) (f :: fs ++ (expText exp ++ ch :: rest)) := scan_go rfl
    rw [List.singleton_append, scan_zero hstate, show fracText (f :: fs) = chr '.' :: f :: fs from rfl,
      List.cons_append, hpoint, scan_float hfrac, scan_floatEnd hexp hdigit hE]
    rfl
  · obtain ⟨hd, hds⟩ := List.forall_mem_cons.mp hds
    have hkept : (Numeral.float (d :: ds) frac exp).tokenText = d :: ds ++ (fracText frac ++ expText exp) := by
      rw [Numeral.tokenText, if_neg fun h => hne (List.cons.inj h).1]
    rw [List.cons_append, scan_firstDigit hstate hd hne, scan_number hds, put_put, List.singleton_append, hkept]
    cases frac with
    | nil =>
      obtain ⟨-, hexp'⟩ := hsome.resolve_left fun h => h rfl
      obtain ⟨e, rfl⟩ := Option.ne_none_iff_exists'.mp hexp'
      exact scan_exponent (hexp e rfl) hdigit (.inl rfl) _
    | cons f fs =>
      have hpoint (l : Locals) : scan stNumber i l (chr '.' :: (f :: fs ++ (expText exp ++ ch :: rest))) =
          scan stIntdot i l (f :: fs ++ (expText exp ++ ch :: rest)) := scan_go rfl
      rw [show fracText (f :: fs) = chr '.' :: f :: fs from rfl, List.cons_append, hpoint,
        scan_fraction hfrac hexp hdigit hE (.inr rfl)]
      rfl

end

/-- A numeral is one token. -/
theorem scan_numeral {n : Numeral} (i : Indent) (junk : TokenType) (hstate : state = stNone ∨ state = stInterpNone) (h : n.Wf) (hend : n.Ends rest)
    (hif : ReadIf n rest) :
    scan state i (Locals.start junk) (n.text ++ rest) = .token n.type n.tokenText stNone i rest := by
  cases n with
  | decimal whole => exact scan_decimal hstate h hend hif
  | radix r letter digits =>
    obtain ⟨hletter, hne, hdigits⟩ := h
    cases hend with
    | other hend => exact scan_radixNumeral hstate hletter hif hne hdigits hend
  | oldOctal digits =>
    cases hend with
    | other hend => exact scan_oldOctal hstate h.1 h.2 hend
  | float whole frac exp =>
    cases hend with
    | other hend =>
      simp only [Numeral.continues, Bool.or_eq_false_iff] at hend
      refine scan_floatNumeral hstate h hend.1 (fun hnone => ?_) hif
      subst hnone
      exact hend.2

end Scans

section Denoting

variable {ds rest : List UInt8} {ch : UInt8}

theorem digitRun_digits {base : Nat} (h : ∀ c ∈ ds, ∃ d, digitValue c = some d ∧ d < base) :
    digitRun base ds = ds.map digitNat := by
  induction ds with
  | nil => rfl
  | cons c ds ih =>
    obtain ⟨⟨d, hd, hlt⟩, hds⟩ := List.forall_mem_cons.mp h
    rw [digitRun, List.map_cons, hd, digitNat, hd, ← ih hds]
    exact if_pos hlt

theorem digitValue_digit (h : isDigit ch = true) : ∃ d, digitValue ch = some d ∧ d < 10 := by
  refine ⟨(ch - chr '0').toNat, if_pos h, ?_⟩
  have hcases := digit_cases h
  simp only [List.mem_cons, List.not_mem_nil, or_false] at hcases
  rcases hcases with rfl | rfl | rfl | rfl | rfl | rfl | rfl | rfl | rfl | rfl <;> decide

theorem Radix.digitValue_digit (r : Radix) (h : r.digit ch = true) : ∃ d, digitValue ch = some d ∧ d < r.base := by
  have hall : ∀ n < 256, r.digit (UInt8.ofNat n) = true → (digitValue (UInt8.ofNat n)).any (· < r.base) = true := by
    cases r <;> decide +kernel
  have hch := hall ch.toNat ch.toNat_lt
  rw [UInt8.ofNat_toNat] at hch
  have hany := hch h
  cases hd : digitValue ch with
  | none => rw [hd] at hany; cases hany
  | some d => rw [hd] at hany; exact ⟨d, rfl, of_decide_eq_true hany⟩

theorem intText_digits (h : ∀ c ∈ ds, isDigit c = true) : intText 10 ds = ofDigits 10 (ds.map digitNat) := by
  rw [intText, digitRun_digits fun c hc => digitValue_digit (h c hc)]

theorem intText_radix (r : Radix) (h : ∀ c ∈ ds, r.digit c = true) :
    intText r.base ds = ofDigits r.base (ds.map digitNat) := by
  rw [intText, digitRun_digits fun c hc => r.digitValue_digit (h c hc)]

theorem ofDigits_zero_cons (base : Nat) (digits : List Nat) : ofDigits base (0 :: digits) = ofDigits base digits := by
  rw [ofDigits, List.reverse_cons]
  exact Nat.ofDigits_append_zero _

theorem isDigit_whole {whole : List UInt8} (h : IsWhole whole) : ∀ c ∈ whole, isDigit c = true := by
  rcases h with rfl | ⟨d, ds, -, -, hds⟩
  · exact List.forall_mem_singleton.mpr rfl
  · exact hds

/-- Digits are taken up to another character. -/
theorem span_digits (hds : ∀ c ∈ ds, isDigit c = true) (hrest : ∀ c ∈ rest.head?, isDigit c = false) :
    (ds ++ rest).takeWhile isDigit = ds ∧ (ds ++ rest).dropWhile isDigit = rest := by
  rw [List.takeWhile_append_of_pos hds, List.dropWhile_append_of_pos hds]
  cases rest with
  | nil => exact ⟨List.append_nil ds, rfl⟩
  | cons c rest =>
    have hc : ¬ isDigit c = true := Bool.eq_false_iff.mp (hrest c rfl)
    rw [List.takeWhile_cons_of_neg hc, List.dropWhile_cons_of_neg hc, List.append_nil]
    exact ⟨rfl, rfl⟩

theorem signedText_digits (hne : ds ≠ []) (hds : ∀ c ∈ ds, isDigit c = true) :
    signedText ds = ofDigits 10 (ds.map digitNat) := by
  obtain ⟨d, ds, rfl⟩ := List.exists_cons_of_ne_nil hne
  have hd := hds d List.mem_cons_self
  have hminus : d ≠ chr '-' := by rintro rfl; cases hd
  have hplus : d ≠ chr '+' := by rintro rfl; cases hd
  rw [signedText, if_neg hminus, if_neg hplus, intText_digits hds]

theorem exponentText_text {e : Exponent} (h : e.Wf) : exponentText e.text = e.value := by
  obtain ⟨letter, sign, digits⟩ := e
  obtain ⟨hletter, hsign, hne, hdigits⟩ := h
  rw [Exponent.text, exponentText, if_pos hletter, Exponent.value]
  cases sign with
  | none => rw [Option.toList_none, List.nil_append, signedText_digits hne hdigits, if_neg (by simp)]
  | some c =>
    rw [Option.toList_some, List.singleton_append, signedText, intText_digits hdigits]
    rcases hsign c rfl with rfl | rfl <;> rfl

theorem exponentText_expText {exp : Option Exponent} (h : ∀ e ∈ exp, e.Wf) :
    exponentText (expText exp) = (exp.map Exponent.value).getD 0 := by
  cases exp with
  | none => rfl
  | some e => exact exponentText_text (h e rfl)

theorem head_expText {exp : Option Exponent} (h : ∀ e ∈ exp, e.Wf) :
    ∀ c ∈ (expText exp).head?, isDigit c = false ∧ c ≠ chr '.' := by
  intro c hc
  cases exp with
  | none => cases hc
  | some e =>
    obtain rfl := Option.some.inj hc
    have hletter := (h e rfl).letter
    rw [isE, Bool.or_eq_true, decide_eq_true_eq, decide_eq_true_eq] at hletter
    rcases hletter with hl | hl <;> rw [hl] <;> decide

theorem afterPoint_text {frac : List UInt8} {exp : Option Exponent} (hfrac : ∀ c ∈ frac, isDigit c = true)
    (h : ∀ e ∈ exp, e.Wf) : afterPoint (fracText frac ++ expText exp) = (frac, expText exp) := by
  have hhead := head_expText h
  cases frac with
  | nil =>
    rw [fracText, if_pos rfl, List.nil_append]
    cases hexp : expText exp with
    | nil => rfl
    | cons c rest => exact if_neg (hhead c (by rw [hexp]; rfl)).2
  | cons f fs =>
    obtain ⟨htake, hdrop⟩ := span_digits hfrac fun c hc => (hhead c hc).1
    rw [fracText, if_neg (List.cons_ne_nil f fs), List.cons_append, afterPoint, if_pos rfl, htake, hdrop]

theorem atof_text {whole frac : List UInt8} {exp : Option Exponent} (hwhole : ∀ c ∈ whole, isDigit c = true)
    (hfrac : ∀ c ∈ frac, isDigit c = true) (hexp : ∀ e ∈ exp, e.Wf) :
    atof (whole ++ (fracText frac ++ expText exp)) =
      (ofDigits 10 ((whole ++ frac).map digitNat), (exp.map Exponent.value).getD 0 - frac.length) := by
  have hhead : ∀ c ∈ (fracText frac ++ expText exp).head?, isDigit c = false := by
    intro c hc
    cases frac with
    | nil => exact (head_expText hexp c hc).1
    | cons => obtain rfl := Option.some.inj hc; rfl
  obtain ⟨htake, hdrop⟩ := span_digits hwhole hhead
  rw [atof, htake, hdrop, afterPoint_text hfrac hexp]
  dsimp only
  rw [exponentText_expText hexp]

/-- The text of the token denotes the value of the numeral. -/
theorem denoted_tokenText {n : Numeral} (h : n.Wf) : denoted n.type n.tokenText = some n.value := by
  cases n with
  | decimal whole => exact congrArg (some ∘ NumberValue.int) (intText_digits (isDigit_whole h))
  | radix r letter digits =>
    have hvalue := intText_radix r h.2.2
    cases r with
    | octal =>
      have hzero : intText 8 (chr '0' :: digits) = ofDigits 8 (digits.map digitNat) := by
        have hall : ∀ c ∈ chr '0' :: digits, Radix.octal.digit c = true := List.forall_mem_cons.mpr ⟨rfl, h.2.2⟩
        exact (intText_radix .octal hall).trans (ofDigits_zero_cons 8 _)
      exact congrArg (some ∘ NumberValue.int) hzero
    | hex => exact congrArg (some ∘ NumberValue.int) hvalue
    | binary => exact congrArg (some ∘ NumberValue.int) hvalue
  | oldOctal digits => exact congrArg (some ∘ NumberValue.int) (intText_radix .octal h.2)
  | float whole frac exp =>
    obtain ⟨hwhole, hfrac, hexp, -⟩ := h
    rw [Numeral.tokenText, Numeral.type, denoted, Numeral.value]
    split
    · next hzero =>
      subst hzero
      rw [atof_text (fun _ hc => absurd hc List.not_mem_nil) hfrac hexp, List.nil_append, List.singleton_append, List.map_cons]
      dsimp only
      rw [show digitNat (chr '0') = 0 from rfl, ofDigits_zero_cons]
    · rw [atof_text (hwhole.elim (fun h => h ▸ fun _ hc => absurd hc List.not_mem_nil) isDigit_whole) hfrac hexp]

end Denoting

section Tokens

open State

variable {t : Toker} {src rest : List UInt8} {junk : TokenType} {i : Indent} {l : Locals} {state : State} {n : Numeral}

theorem type_ne_istrBegin (n : Numeral) : n.type ≠ .istrBegin := by
  cases n with
  | radix r => cases r <;> exact fun h => nomatch h
  | decimal | oldOctal | float => exact fun h => nomatch h

/-- The states after the point of a float. -/
def inFloat (state : State) : Bool :=
  state = stFloat || state = stExponent || state = stExponent2 || state = stExponent3

/-- What a float can end as. -/
def FloatOrError : Scanned → Prop
  | .token type _ _ _ _ => type = .floatLit
  | .abort _ _ _ => True
  | .eof state _ _ => inFloat state = true

/-- One character after a point. -/
theorem transition_inFloat (ch : UInt8) (hstate : inFloat state = true) :
    (∃ state' l', transition i l ch state = .go state' i l' ∧ inFloat state' = true) ∨
      (∃ data, transition i l ch state = .peek stNone .floatLit data) ∨
      ∃ type data msg, transition i l ch state = .abort type data msg := by
  cases state <;> first | exact absurd hstate (by decide) | skip
  all_goals
    simp only [transition]
    repeat' split
  all_goals first
    | exact .inl ⟨_, _, rfl, rfl⟩
    | exact .inr (.inl ⟨_, rfl⟩)
    | exact .inr (.inr ⟨_, _, _, rfl⟩)

/-- After a point there is no integer. -/
theorem scan_inFloat (text : List UInt8) (state : State) (l : Locals) (hstate : inFloat state = true) :
    FloatOrError (scan state i l text) := by
  induction text generalizing state l with
  | nil => rw [scan_nil]; exact hstate
  | cons ch text ih =>
    rcases transition_inFloat ch hstate with ⟨state', l', h, hstate'⟩ | ⟨data, h⟩ | ⟨type, data, msg, h⟩
    · rw [scan_go h]
      exact ih state' l' hstate'
    · rw [scan_peek h]
      rfl
    · rw [scan_abort h]
      trivial

theorem finish_floatOrError {s : Scanned} (h : FloatOrError s) {type : TokenType} {data : List UInt8} {state : State}
    (hs : s.finish = .token type data state i rest) : type = .floatLit := by
  cases s with
  | token => exact (Scanned.token.inj hs).1 ▸ h
  | abort => cases hs
  | eof state' =>
    have hfloat : inFloat state' = true := h
    cases state' <;> first | exact absurd hfloat (by decide) | cases hs

/-- Where the tokenizer goes wrong, the token is of another type. -/
theorem readIf_of_type {tok : Token} {t' : Toker} {src' : List UInt8} (htokens : t.tokens = [])
    (hstate : t.state = stNone ∨ t.state = stInterpNone) (hwf : n.Wf) (hends : n.Ends rest)
    (hrest : t.rest src = n.text ++ rest) (h : t.getToken junk src = .token tok t' src') (htype : tok.type = n.type) :
    ReadIf n rest := by
  have hscan := Toker.scan_of_getToken htokens h (htype ▸ type_ne_istrBegin n)
  rw [hrest, htype] at hscan
  cases n with
  | decimal whole =>
    rintro ⟨rfl, hdot⟩
    cases hends with
    | other hcont =>
      obtain rfl := Option.some.inj hdot
      exact absurd hcont (by decide)
    | @dot _ ch more hdigit =>
      have hfloat : scan t.state t.indent (Locals.start junk) ([chr '0'] ++ chr '.' :: ch :: more) =
          scan stFloat t.indent ((Locals.start junk).put [chr '.']) (ch :: more) := by
        rw [List.singleton_append, scan_zero hstate]
        exact scan_go rfl
      rw [Numeral.text, hfloat] at hscan
      exact absurd (finish_floatOrError (scan_inFloat _ _ _ rfl) hscan) (by decide)
  | radix r letter digits =>
    rintro rfl
    have hzero : scan t.state t.indent (Locals.start junk) (chr '0' :: chr 'B' :: digits ++ rest) =
        .token .integer (ascii "0") stNone t.indent (chr 'B' :: (digits ++ rest)) := by
      rw [List.cons_append, scan_zero hstate]
      exact scan_peek rfl
    rw [Numeral.text, hzero] at hscan
    have htype := (Scanned.token.inj hscan).1
    cases r <;> nomatch htype
  | oldOctal => trivial
  | float whole frac exp =>
    rintro ⟨rfl, rfl⟩
    obtain ⟨-, -, hexp, hsome⟩ := hwf
    obtain ⟨-, hexp'⟩ := hsome.resolve_left fun h => h rfl
    obtain ⟨e, rfl⟩ := Option.ne_none_iff_exists'.mp hexp'
    have hletter := (hexp e rfl).letter
    have hzero : scan t.state t.indent (Locals.start junk) (chr '0' :: (e.text ++ rest)) =
        .token .integer (ascii "0") stNone t.indent (e.text ++ rest) := by
      rw [scan_zero hstate, Exponent.text, List.cons_append]
      apply scan_peek
      rw [isE, Bool.or_eq_true, decide_eq_true_eq, decide_eq_true_eq] at hletter
      rcases hletter with hl | hl <;> rw [hl] <;> rfl
    have htext : (Numeral.float [chr '0'] [] (some e)).text ++ rest = chr '0' :: (e.text ++ rest) := rfl
    rw [htext, hzero] at hscan
    nomatch (Scanned.token.inj hscan).1

/-- A dot that does not start a float is a token. -/
theorem getToken_dot {t' : Toker} {src' more : List UInt8} {ch : UInt8} (htokens : t'.tokens = [])
    (hstate : t'.state = stNone) (hrest : t'.rest src' = chr '.' :: ch :: more) (hdigit : isDigit ch = false) :
    ∃ tok₂ t₂ src₂, t'.getToken junk src' = .token tok₂ t₂ src₂ ∧ tok₂.type = .dot ∧ tok₂.data = ascii "." ∧
      t₂.rest src₂ = ch :: more := by
  have hscan : scan t'.state t'.indent (Locals.start junk) (t'.rest src') =
      .token .dot (ascii ".") stNone t'.indent (ch :: more) := by
    rw [hrest, hstate, scan_point (.inl rfl)]
    apply scan_peek
    simp only [transition, hdigit, Bool.false_eq_true, if_false]
  obtain ⟨tok₂, t₂, src₂, hget, htype, hdata, hrest₂, -⟩ := Toker.getToken_scan htokens (by decide) hscan
  exact ⟨tok₂, t₂, src₂, hget, htype, hdata, hrest₂⟩

/-- A numeral is read as it stands, and the dot after it, if and only if it has no letter `B`, and no zero without a
fraction before an exponent or a dot. -/
theorem readRight_iff (t : Toker) (src : List UInt8) (junk : TokenType) (n : Numeral) (rest : List UInt8)
    (htokens : t.tokens = []) (hstate : t.state = stNone ∨ t.state = stInterpNone) (hwf : n.Wf) (hends : n.Ends rest)
    (hrest : t.rest src = n.text ++ rest) : ReadRight t src junk n rest ↔ ReadIf n rest := by
  constructor
  · rintro ⟨tok, t', src', hget, htype, -⟩
    exact readIf_of_type htokens hstate hwf hends hrest hget htype
  · intro hif
    have hscan := scan_numeral t.indent junk hstate hwf hends hif
    rw [← hrest] at hscan
    obtain ⟨tok, t', src', hget, htype, hdata, hrest', hstate'⟩ :=
      Toker.getToken_scan htokens (type_ne_istrBegin n) hscan
    have htokens' := (Toker.readToken_of_getToken htokens hget (htype ▸ type_ne_istrBegin n)).2
    refine ⟨tok, t', src', hget, htype, by rw [htype, hdata, denoted_tokenText hwf], hrest', ?_⟩
    rintro ch more rfl hdigit
    exact getToken_dot htokens' hstate' hrest' hdigit

/-- A float with an exponent, and a dot. -/
theorem readRight_float : ReadRight (Toker.new (ascii "a.crk") 1) (ascii "0.25e-3.x") .end
    (.float (ascii "0") (ascii "25") (some ⟨chr 'e', some (chr '-'), ascii "3"⟩)) (ascii ".x") := by
  have hexp : (Exponent.mk (chr 'e') (some (chr '-')) (ascii "3")).Wf :=
    ⟨rfl, fun c hc => .inr (Option.some.inj hc).symm, by decide, List.all_eq_true.mp rfl⟩
  have hwf : (Numeral.float (ascii "0") (ascii "25") (some ⟨chr 'e', some (chr '-'), ascii "3"⟩)).Wf :=
    ⟨.inr (.inl rfl), List.all_eq_true.mp rfl, fun e he => Option.some.inj he ▸ hexp, .inl (by decide)⟩
  exact (readRight_iff _ _ _ _ _ rfl (.inl rfl) hwf (.other rfl) rfl).mpr fun h => absurd h.2 (by decide)

/-- The letter `B` is not compared. -/
theorem upper_B_not_read : ¬ ReadRight (Toker.new (ascii "a.crk") 1) (ascii "0B1;") .end
    (.radix .binary (chr 'B') (ascii "1")) (ascii ";") := by
  have hwf : (Numeral.radix .binary (chr 'B') (ascii "1")).Wf :=
    ⟨List.mem_cons_of_mem _ List.mem_cons_self, by decide, List.all_eq_true.mp rfl⟩
  rintro ⟨tok, t', src', hget, htype, -⟩
  exact readIf_of_type rfl (.inl rfl) hwf (.other rfl) rfl hget htype rfl

end Tokens

end Lexer

end Crack
