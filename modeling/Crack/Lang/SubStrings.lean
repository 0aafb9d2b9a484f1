import Crack.Lang.Buffers

/-!
# Substrings

A `SubString` is a part of the memory of a string. The methods take positions that are an
`int`, the functions positions that are an `intz`, and the macros between them count in 32
bits. A buffer is created with a size that is a `uint`.
-/
namespace Crack

namespace SubStrings

def asInt (x : Int) : Int := (x + 2 ^ 31) % 2 ^ 32 - 2 ^ 31

def asUint (x : Int) : Nat := (x % 2 ^ 32).toNat

def asUintz (x : Int) : Nat := (x % 2 ^ 64).toNat

/-- A pointer relative to the memory of a string, and a size. -/
structure View where
  rep : List UInt8
  off : Int
  size : Nat
  deriving DecidableEq, Repr

namespace View

def Inside (v : View) : Prop := 0 ≤ v.off ∧ v.off + v.size ≤ v.rep.length

/-- What is in a part that is inside. -/
def bytes (v : View) : List UInt8 := (v.rep.drop v.off.toNat).take v.size

end View

/-- A `String` with its bytes, or a `SubString`. No memory is larger than an `intz`. -/
inductive Target where
  | string (bytes : List UInt8) (small : bytes.length < 2 ^ 63)
  | subString (view : View) (inside : view.Inside) (small : view.rep.length < 2 ^ 63)

namespace Target

/-- What the string refers to; `_rep` is the string itself unless it is a `SubString`. -/
def view : Target → View
  | string bytes _ => ⟨bytes, 0, bytes.length⟩
  | subString view _ _ => view

def size (t : Target) : Nat := t.view.size

end Target

/-- What is asked for, with positions of `w` bits. -/
inductive Request (w : Nat) where
  | substr2 (pos : BitVec w) (len : BitVec 64)
  | substr1 (pos : BitVec w)
  | slice2 (start stop : BitVec w)
  | slice1 (start : BitVec w)

/-- `_substr` of a `String` or a `SubString`. What is added to a pointer has 32 bits and a sign. -/
def substr (target : Target) (pos len : Nat) : Except Stop View :=
  if pos > target.size ∨ asUintz (pos + len) > target.size then .error (.indexError "Substring out of bounds")
  else .ok ⟨target.view.rep, target.view.off + asInt pos, uint len⟩

/-- A negative position in the macros. -/
def adjust (target : Target) (pos : Int) : Int := if pos < 0 then asInt (asInt target.size + asInt pos) else pos

/-- The macros `substr2`, `substr1`, `slice2` and `slice1` -/
def macros {w : Nat} (target : Target) : Request w → Except Stop View
  | .substr2 pos len => substr target (asUint (adjust target pos.toInt)) len.toNat
  | .substr1 pos =>
    let pos := asUint (adjust target pos.toInt)
    substr target pos (asUintz (target.size - pos))
  | .slice2 start stop =>
    let start := adjust target start.toInt
    let stop := adjust target stop.toInt
    if stop < start then .error (.indexError "Start of slice is after end.")
    else substr target (asUint start) (asUint (stop - start))
  | .slice1 start =>
    let start := asUint (adjust target start.toInt)
    if start > asUint target.size then .error (.indexError "Start of slice is after end.")
    else substr target start (asUintz (target.size - start))

/-- A negative position in the functions `substr` of a `String`. -/
def adjustSubstr (target : Target) (pos : Int) : Int :=
  if pos < 0 then asInt (asInt target.size - asInt pos) else pos

/-- The functions of a `String`, which are written out. -/
def functions (target : Target) : Request 64 → Except Stop View
  | .substr2 pos len => substr target (asUintz (adjustSubstr target pos.toInt)) len.toNat
  | .substr1 pos =>
    let pos := asUintz (adjustSubstr target pos.toInt)
    substr target pos (asUintz (target.size - pos))
  | .slice2 start stop =>
    let start := adjust target start.toInt
    let stop := adjust target stop.toInt
    if stop < start then .error (.indexError "Start of slice is after end.")
    else substr target (asUintz start) (asUintz (stop - start))
  | .slice1 start =>
    let start := asUintz (adjust target start.toInt)
    if start > target.size then .error (.indexError "Start of slice is after end.")
    else substr target start (asUintz (target.size - start))

/-- A method of a string, or a function for one whose static type is `SubString` or `String`. -/
inductive Call where
  | method (request : Request 32)
  | subStringFunction (request : Request 64)
  | stringFunction (request : Request 64)

def Call.run (target : Target) : Call → Except Stop View
  | method request => macros target request
  | subStringFunction request => macros target request
  | stringFunction request => functions target request

/-- A position, counted from the end if it is negative. -/
def place (size : Nat) (pos : Int) : Int := if pos < 0 then size + pos else pos

/-- A place and a length, if they are in the string. -/
def inRange (size : Nat) (start stop : Int) : Option (Nat × Nat) :=
  if 0 ≤ start ∧ start ≤ stop ∧ stop ≤ size then some (start.toNat, (stop - start).toNat) else none

def Request.range {w : Nat} (size : Nat) : Request w → Option (Nat × Nat)
  | substr2 pos len => inRange size (place size pos.toInt) (place size pos.toInt + len.toNat)
  | substr1 pos => inRange size (place size pos.toInt) size
  | slice2 start stop => inRange size (place size start.toInt) (place size stop.toInt)
  | slice1 start => inRange size (place size start.toInt) size

def Call.range (size : Nat) : Call → Option (Nat × Nat)
  | method request => request.range size
  | subStringFunction request => request.range size
  | stringFunction request => request.range size

/-- The result is the part of the string that is asked for, or an `IndexError` if it isn't in
the string. -/
def Meets (target : Target) (call : Call) : Prop :=
  match call.range target.size with
  | some (pos, len) => call.run target = .ok ⟨target.view.rep, target.view.off + pos, len⟩
  | none => ∃ text, call.run target = .error (.indexError text)

theorem Target.inside : (t : Target) → t.view.Inside
  | .string bytes _ => ⟨Int.le_refl 0, Int.le_of_eq (Int.zero_add bytes.length)⟩
  | .subString _ inside _ => inside

theorem Target.size_lt (t : Target) : t.size < 2 ^ 63 := by
  have hinside := t.inside
  unfold View.Inside at hinside
  have hsmall : t.view.rep.length < 2 ^ 63 := by
    cases t with
    | string bytes small => exact small
    | subString view inside small => exact small
  unfold Target.size
  omega

/-- The bytes of a part of the string, which is not outside of its bytes. -/
theorem Target.bytes_part (t : Target) {pos len : Nat} (h : pos + len ≤ t.size) :
    View.Inside ⟨t.view.rep, t.view.off + pos, len⟩ ∧
      View.bytes ⟨t.view.rep, t.view.off + pos, len⟩ = (t.view.bytes.drop pos).take len := by
  have hinside := t.inside
  unfold View.Inside at hinside ⊢
  unfold Target.size at h
  have hoff : (t.view.off + pos).toNat = t.view.off.toNat + pos := by omega
  refine ⟨⟨by dsimp only; omega, by dsimp only; omega⟩, ?_⟩
  rw [View.bytes, View.bytes, hoff, List.drop_take, List.take_take, List.drop_drop, Nat.min_eq_left (by omega)]

/-- Where the functions of a `String` begin. -/
def substrPlace (size : Nat) (pos : Int) : Int := if pos < 0 then asInt (size - pos) else pos

/-- A place that is counted in an `int` if it is counted from the end. -/
def intPlace (size : Nat) (pos : Int) : Int := if pos < 0 then asInt (size + pos) else pos

/-- The place that is asked for is counted modulo 2 ^ 32, and added as an `int`. -/
def MacrosHold {w : Nat} (size : Nat) : Request w → Prop
  | .substr2 pos len =>
    let p := place size pos.toInt
    if 0 ≤ p ∧ p + len.toNat ≤ size then p < 2 ^ 31 ∧ len.toNat < 2 ^ 32
    else size < asUint p ∨ size < (asUint p + len.toNat) % 2 ^ 64
  | .substr1 pos =>
    let p := place size pos.toInt
    if 0 ≤ p ∧ p ≤ size then p < 2 ^ 31 ∧ size - p < 2 ^ 32 else size < asUint p
  | .slice2 start stop =>
    let p := place size start.toInt
    let q := place size stop.toInt
    if 0 ≤ p ∧ p ≤ q ∧ q ≤ size then
      p < 2 ^ 31 ∧ q - p < 2 ^ 32 ∧ intPlace size start.toInt ≤ intPlace size stop.toInt
    else intPlace size stop.toInt < intPlace size start.toInt ∨ size < asUint p ∨ size < asUint p + asUint (q - p)
  | .slice1 start =>
    let p := place size start.toInt
    if 0 ≤ p ∧ p ≤ size then p < 2 ^ 31 ∧ size < 2 ^ 32 else size % 2 ^ 32 < asUint p

def FunctionsHold (size : Nat) : Request 64 → Prop
  | .substr2 pos len =>
    let p := place size pos.toInt
    let c := substrPlace size pos.toInt
    if 0 ≤ p ∧ p + len.toNat ≤ size then c = p ∧ p < 2 ^ 31 ∧ len.toNat < 2 ^ 32
    else c < 0 ∨ size < c ∨ size < (c + len.toNat) % 2 ^ 64
  | .substr1 pos =>
    let p := place size pos.toInt
    let c := substrPlace size pos.toInt
    if 0 ≤ p ∧ p ≤ size then c = p ∧ p < 2 ^ 31 ∧ size - p < 2 ^ 32 else c < 0 ∨ size < c
  | .slice2 start stop =>
    let p := place size start.toInt
    let q := place size stop.toInt
    let c := intPlace size start.toInt
    let d := intPlace size stop.toInt
    if 0 ≤ p ∧ p ≤ q ∧ q ≤ size then c = p ∧ c ≤ d ∧ p < 2 ^ 31 ∧ q - p < 2 ^ 32 else d < c ∨ c < 0 ∨ size < d
  | .slice1 start =>
    let p := place size start.toInt
    let c := intPlace size start.toInt
    if 0 ≤ p ∧ p ≤ size then c = p ∧ p < 2 ^ 31 ∧ size - p < 2 ^ 32 else c < 0 ∨ size < c

def Holds (size : Nat) : Call → Prop
  | .method request => MacrosHold size request
  | .subStringFunction request => MacrosHold size request
  | .stringFunction request => FunctionsHold size request

variable {target : Target} {start stop : Int} {c l : Nat} {size : Nat} {x : Int} {p : Int}

/-- The part between two places, or an `IndexError`. -/
def Gives (target : Target) (start stop : Int) (result : Except Stop View) : Prop :=
  match inRange target.size start stop with
  | some (pos, len) => result = .ok ⟨target.view.rep, target.view.off + pos, len⟩
  | none => ∃ text, result = .error (.indexError text)

theorem gives_error (text : String) :
    Gives target start stop (.error (.indexError text)) ↔ ¬(0 ≤ start ∧ start ≤ stop ∧ stop ≤ target.size) := by
  unfold Gives inRange
  split
  · next h =>
    split at h
    · next hin =>
      refine ⟨fun heq => ?_, fun hnot => absurd hin hnot⟩
      cases heq
    · cases h
  · next h =>
    split at h
    · cases h
    · next hout => exact ⟨fun _ => hout, fun _ => ⟨text, rfl⟩⟩

/-- The tests of `_substr` against the part that is asked for. -/
theorem gives_substr : Gives target start stop (substr target c l) ↔
    if 0 ≤ start ∧ start ≤ stop ∧ stop ≤ target.size then
      c ≤ target.size ∧ asInt c = start ∧ (uint l : Nat) = stop - start ∧ asUintz (c + l) ≤ target.size
    else target.size < c ∨ target.size < asUintz (c + l) := by
  unfold Gives inRange substr
  by_cases hin : 0 ≤ start ∧ start ≤ stop ∧ stop ≤ target.size
  · rw [if_pos hin, if_pos hin]
    dsimp only
    constructor
    · intro h
      split at h
      · cases h
      · next htests =>
        injection h with h
        injection h with _ hoff hsize
        omega
    · rintro ⟨hle, hc, hl, hsum⟩
      have hpos : asInt c = start.toNat := by omega
      have hlen : uint l = (stop - start).toNat := by omega
      rw [if_neg (by omega), hpos, hlen]
  · rw [if_neg hin, if_neg hin]
    dsimp only
    constructor
    · rintro ⟨text, h⟩
      split at h
      · next htests => omega
      · cases h
    · intro h
      exact ⟨_, if_pos (by omega)⟩

theorem asUint_eq_self (h : 0 ≤ x) : (asUint x : Int) = x ↔ x < 2 ^ 32 := by
  unfold asUint
  omega

theorem asInt_eq_self (h : 0 ≤ x) : asInt x = x ↔ x < 2 ^ 31 := by
  unfold asInt
  omega

/-- What comes to the place that is asked for as an `int` is that place. -/
theorem asUint_of_asInt (h0 : 0 ≤ p) (h : asInt (asUint p) = p) : (asUint p : Int) = p := by
  unfold asInt asUint at *
  omega

theorem asUintz_of_nonneg (h0 : 0 ≤ x) (hlt : x < 2 ^ 64) : asUintz x = x.toNat := by
  rw [asUintz, Int.emod_eq_of_lt h0 hlt]

theorem asUintz_add (c l : Nat) : asUintz (c + l) = (c + l) % 2 ^ 64 := by
  unfold asUintz
  omega

/-- The rest of the string ends where the string does. -/
theorem asUintz_add_sub (hsize : size < 2 ^ 63) (c : Nat) : asUintz (c + asUintz (size - c)) = size := by
  unfold asUintz
  omega

theorem asUintz_sub {size c : Nat} (hsize : size < 2 ^ 63) (hc : c ≤ size) : asUintz (size - c) = size - c := by
  unfold asUintz
  omega

/-- A place that is an `intz` is taken as it is, if it is not before the string. -/
theorem asUintz_eq_iff {c p : Int} (hlow : -2 ^ 63 ≤ c) (h0 : 0 ≤ p) (hp : p < 2 ^ 63) (hhigh : c < 2 ^ 63) :
    (asUintz c : Int) = p ↔ c = p := by
  unfold asUintz
  omega

theorem lt_asUintz_iff {c : Int} (hlow : -2 ^ 63 ≤ c) (hhigh : c < 2 ^ 63) (hsize : size < 2 ^ 63) :
    size < asUintz c ↔ c < 0 ∨ size < c := by
  unfold asUintz
  omega

theorem asUintz_add_right (c x : Int) : asUintz (asUintz c + x) = (c + x) % 2 ^ 64 := by
  unfold asUintz
  omega

/-- The macros count the place that is asked for in 32 bits. -/
theorem asUint_adjust (target : Target) (pos : Int) :
    asUint (adjust target pos) = asUint (place target.size pos) := by
  unfold asUint adjust place asInt
  split <;> omega

theorem adjust_eq (target : Target) (pos : Int) : adjust target pos = intPlace target.size pos := by
  unfold adjust intPlace asInt
  split <;> omega

theorem adjustSubstr_eq (target : Target) (pos : Int) : adjustSubstr target pos = substrPlace target.size pos := by
  unfold adjustSubstr substrPlace asInt
  split <;> omega

theorem intPlace_sub (size : Nat) (pos : Int) : (intPlace size pos - place size pos) % 2 ^ 32 = 0 := by
  unfold intPlace place asInt
  split <;> omega

theorem asUint_sub (target : Target) (start stop : Int) :
    asUint (intPlace target.size stop - intPlace target.size start) =
      asUint (place target.size stop - place target.size start) := by
  have hstart := intPlace_sub target.size start
  have hstop := intPlace_sub target.size stop
  generalize intPlace target.size start = c at hstart ⊢
  generalize intPlace target.size stop = d at hstop ⊢
  unfold asUint
  omega

theorem intPlace_le {pos : Int} (h : 0 ≤ place size pos) : intPlace size pos ≤ place size pos := by
  unfold intPlace
  split
  · next hneg =>
    rw [place, if_pos hneg] at h ⊢
    unfold asInt
    omega
  · next hpos =>
    exact Int.le_of_eq (if_neg hpos).symm

theorem gives_inside (hin : 0 ≤ start ∧ start ≤ stop ∧ stop ≤ target.size)
    (hplace : c ≤ target.size → asInt c = start → (c : Int) = start)
    (hlen : (c : Int) = start → stop - start < 2 ^ 32 → (l : Int) = stop - start) :
    Gives target start stop (substr target c l) ↔ (c : Int) = start ∧ start < 2 ^ 31 ∧ stop - start < 2 ^ 32 := by
  have hsmall := target.size_lt
  rw [gives_substr, if_pos hin]
  constructor
  · rintro ⟨hle, hint, hl, -⟩
    have hlt : uint l < 2 ^ 32 := Nat.mod_lt l (by decide)
    have hc := hplace hle hint
    exact ⟨hc, (asInt_eq_self hin.1).mp (hc ▸ hint), by omega⟩
  · rintro ⟨hc, hint, hlt⟩
    have hl := hlen hc hlt
    have hword : uint l = l := Nat.mod_eq_of_lt (by omega)
    refine ⟨by omega, ?_, by rw [hword, hl], ?_⟩
    · rw [hc]
      exact (asInt_eq_self hin.1).mpr hint
    · rw [asUintz_add, Nat.mod_eq_of_lt (by omega)]
      omega

theorem gives_outside (hout : ¬(0 ≤ start ∧ start ≤ stop ∧ stop ≤ target.size)) :
    Gives target start stop (substr target c l) ↔ target.size < c ∨ target.size < asUintz (c + l) := by
  rw [gives_substr, if_neg hout]

/-- The part from a place to the end of the string. -/
theorem gives_rest (hplace : 0 ≤ p → c ≤ target.size → asInt c = p → (c : Int) = p) :
    Gives target p target.size (substr target c (asUintz (target.size - c))) ↔
      if 0 ≤ p ∧ p ≤ target.size then (c : Int) = p ∧ p < 2 ^ 31 ∧ target.size - p < 2 ^ 32 else target.size < c := by
  have hsmall := target.size_lt
  by_cases hin : 0 ≤ p ∧ p ≤ target.size
  · rw [if_pos hin]
    refine gives_inside ⟨hin.1, hin.2, Int.le_refl _⟩ (hplace hin.1) fun hc _ => ?_
    have hle : c ≤ target.size := by omega
    rw [asUintz_sub hsmall hle, ← hc, Int.ofNat_sub hle]
  · rw [if_neg hin, gives_outside fun h => hin ⟨h.1, h.2.1⟩, asUintz_add_sub hsmall]
    exact or_iff_left (Nat.lt_irrefl _)

theorem macros_iff {w : Nat} (target : Target) (request : Request w) :
    (match request.range target.size with
      | some (pos, len) => macros target request = .ok ⟨target.view.rep, target.view.off + pos, len⟩
      | none => ∃ text, macros target request = .error (.indexError text)) ↔ MacrosHold target.size request := by
  have hsmall := target.size_lt
  cases request with
  | substr2 pos len =>
    change Gives target _ _ _ ↔ _
    rw [macros, MacrosHold, asUint_adjust]
    generalize place target.size pos.toInt = p
    by_cases hin : 0 ≤ p ∧ p + len.toNat ≤ target.size
    · rw [if_pos hin, gives_inside ⟨hin.1, by omega, hin.2⟩ (fun _ => asUint_of_asInt hin.1) (fun _ _ => by omega),
        asUint_eq_self hin.1]
      omega
    · rw [if_neg hin, gives_outside (fun h => hin ⟨h.1, h.2.2⟩), asUintz_add]
  | substr1 pos =>
    change Gives target _ _ _ ↔ _
    rw [macros, MacrosHold]
    rw [asUint_adjust, gives_rest fun h0 _ => asUint_of_asInt h0]
    generalize place target.size pos.toInt = p
    by_cases hin : 0 ≤ p ∧ p ≤ target.size
    · rw [if_pos hin, if_pos hin, asUint_eq_self hin.1]
      omega
    · rw [if_neg hin, if_neg hin]
  | slice2 start stop =>
    change Gives target _ _ _ ↔ _
    rw [macros, MacrosHold]
    rw [asUint_adjust, adjust_eq, adjust_eq, asUint_sub]
    generalize place target.size start.toInt = p
    generalize place target.size stop.toInt = q
    generalize intPlace target.size start.toInt = c
    generalize intPlace target.size stop.toInt = d
    by_cases hin : 0 ≤ p ∧ p ≤ q ∧ q ≤ target.size
    · rw [if_pos hin]
      by_cases hlt : d < c
      · rw [if_pos hlt, gives_error]
        exact iff_of_false (not_not.mpr hin) fun h => Int.not_lt.mpr h.2.2 hlt
      · have hlen : q - p < 2 ^ 32 → (asUint (q - p) : Int) = q - p := (asUint_eq_self (by omega)).mpr
        rw [if_neg hlt, gives_inside hin (fun _ => asUint_of_asInt hin.1) (fun _ => hlen), asUint_eq_self hin.1,
          and_iff_left (Int.not_lt.mp hlt)]
        omega
    · rw [if_neg hin]
      by_cases hlt : d < c
      · rw [if_pos hlt, gives_error]
        exact iff_of_true hin (.inl hlt)
      · have hsum : asUint p + asUint (q - p) < 2 ^ 64 := by
          unfold asUint
          omega
        rw [if_neg hlt, gives_outside hin, asUintz_add, Nat.mod_eq_of_lt hsum, or_iff_right hlt]
  | slice1 start =>
    change Gives target _ _ _ ↔ _
    rw [macros, MacrosHold]
    rw [asUint_adjust]
    generalize place target.size start.toInt = p
    have hsize : asUint target.size = target.size % 2 ^ 32 := by
      unfold asUint
      omega
    rw [hsize]
    by_cases hgt : asUint p > target.size % 2 ^ 32
    · rw [if_pos hgt, gives_error]
      by_cases hin : 0 ≤ p ∧ p ≤ target.size
      · rw [if_pos hin]
        refine iff_of_false (not_not.mpr ⟨hin.1, hin.2, Int.le_refl _⟩) fun ⟨_, hword⟩ => ?_
        have hp := (asUint_eq_self hin.1).mpr (by omega)
        omega
      · rw [if_neg hin]
        exact iff_of_true (fun h => hin ⟨h.1, h.2.1⟩) hgt
    · rw [if_neg hgt, gives_rest fun h0 _ => asUint_of_asInt h0]
      by_cases hin : 0 ≤ p ∧ p ≤ target.size
      · rw [if_pos hin, if_pos hin]
        constructor
        · rintro ⟨hp, hint, hlt⟩
          omega
        · rintro ⟨hint, hword⟩
          exact ⟨(asUint_eq_self hin.1).mpr (by omega), hint, by omega⟩
      · rw [if_neg hin, if_neg hin]
        exact iff_of_false (by omega) hgt

/-- A position that is taken as it is, or counted in an `int`, is an `intz`. -/
theorem counted_bounds (pos : BitVec 64) (x : Int) :
    -2 ^ 63 ≤ (if pos.toInt < 0 then asInt x else pos.toInt) ∧
      (if pos.toInt < 0 then asInt x else pos.toInt) < 2 ^ 63 := by
  have hle : -2 ^ 63 ≤ pos.toInt := pos.le_toInt
  have hlt : pos.toInt < 2 ^ 63 := pos.toInt_lt
  split
  · unfold asInt
    omega
  · exact ⟨hle, hlt⟩

/-- A place that is counted in an `int`, or is the one that is asked for, is that one if it comes to it as an `int`. -/
theorem counted_place {pos x p : Int} (hpos : 0 ≤ pos → pos = p)
    (h0 : 0 ≤ if pos < 0 then asInt x else pos) (h : asInt (if pos < 0 then asInt x else pos) = p) :
    (if pos < 0 then asInt x else pos) = p := by
  split at h0
  next hneg =>
    rw [if_pos hneg] at h ⊢
    unfold asInt at *
    omega
  next hneg => rw [if_neg hneg, hpos h0]

/-- A place that a function counts is taken as it is, if it is in the string. -/
theorem asUintz_place {p c : Int} (hlow : -2 ^ 63 ≤ c) (hhigh : c < 2 ^ 63)
    (hplace : 0 ≤ c → asInt c = p → c = p) (hle : asUintz c ≤ target.size) (h : asInt (asUintz c) = p) :
    (asUintz c : Int) = p := by
  have hsmall := target.size_lt
  have h0 : 0 ≤ c := by
    unfold asUintz at hle
    omega
  have hc : (asUintz c : Int) = c := by
    rw [asUintz_of_nonneg h0 (by omega)]
    exact Int.toNat_of_nonneg h0
  rw [hc] at h ⊢
  exact hplace h0 h

/-- The part from the place that a function counts. -/
theorem gives_rest_at {p c : Int} (hlow : -2 ^ 63 ≤ c) (hhigh : c < 2 ^ 63) (hplace : 0 ≤ c → asInt c = p → c = p) :
    Gives target p target.size (substr target (asUintz c) (asUintz (target.size - asUintz c))) ↔
      if 0 ≤ p ∧ p ≤ target.size then c = p ∧ p < 2 ^ 31 ∧ target.size - p < 2 ^ 32 else c < 0 ∨ target.size < c := by
  have hsmall := target.size_lt
  rw [gives_rest fun _ => asUintz_place hlow hhigh hplace]
  by_cases hin : 0 ≤ p ∧ p ≤ target.size
  · rw [if_pos hin, if_pos hin, asUintz_eq_iff hlow hin.1 (by omega) hhigh]
  · rw [if_neg hin, if_neg hin, lt_asUintz_iff hlow hhigh hsmall]

theorem functions_iff (target : Target) (request : Request 64) :
    (match request.range target.size with
      | some (pos, len) => functions target request = .ok ⟨target.view.rep, target.view.off + pos, len⟩
      | none => ∃ text, functions target request = .error (.indexError text)) ↔
      FunctionsHold target.size request := by
  have hsmall := target.size_lt
  have hint : ∀ pos : BitVec 64, -2 ^ 63 ≤ intPlace target.size pos.toInt ∧
      intPlace target.size pos.toInt < 2 ^ 63 := fun pos => counted_bounds pos _
  have hsubstr : ∀ pos : BitVec 64, -2 ^ 63 ≤ substrPlace target.size pos.toInt ∧
      substrPlace target.size pos.toInt < 2 ^ 63 := fun pos => counted_bounds pos _
  have hat : ∀ pos : BitVec 64, 0 ≤ intPlace target.size pos.toInt →
      asInt (intPlace target.size pos.toInt) = place target.size pos.toInt →
      intPlace target.size pos.toInt = place target.size pos.toInt :=
    fun pos => counted_place fun h0 => (if_neg (Int.not_lt.mpr h0)).symm
  have hat' : ∀ pos : BitVec 64, 0 ≤ substrPlace target.size pos.toInt →
      asInt (substrPlace target.size pos.toInt) = place target.size pos.toInt →
      substrPlace target.size pos.toInt = place target.size pos.toInt :=
    fun pos => counted_place fun h0 => (if_neg (Int.not_lt.mpr h0)).symm
  cases request with
  | substr2 pos len =>
    obtain ⟨hlow, hhigh⟩ := hsubstr pos
    change Gives target _ _ _ ↔ _
    have hplace := hat' pos
    rw [functions, FunctionsHold, adjustSubstr_eq]
    generalize place target.size pos.toInt = p at hplace ⊢
    generalize substrPlace target.size pos.toInt = c at hlow hhigh hplace ⊢
    by_cases hin : 0 ≤ p ∧ p + len.toNat ≤ target.size
    · rw [if_pos hin, gives_inside ⟨hin.1, by omega, hin.2⟩ (asUintz_place hlow hhigh hplace) (fun _ _ => by omega),
        asUintz_eq_iff hlow hin.1 (by omega) hhigh]
      omega
    · have hsum : (target.size < asUintz (asUintz c + len.toNat)) =
          ((target.size : Int) < (c + len.toNat) % 2 ^ 64) := by
        rw [← asUintz_add_right, Int.ofNat_lt]
      rw [if_neg hin, gives_outside (fun h => hin ⟨h.1, h.2.2⟩), lt_asUintz_iff hlow hhigh hsmall, hsum, or_assoc]
  | substr1 pos =>
    obtain ⟨hlow, hhigh⟩ := hsubstr pos
    change Gives target _ _ _ ↔ _
    rw [functions, FunctionsHold]
    rw [adjustSubstr_eq]
    exact gives_rest_at hlow hhigh (hat' pos)
  | slice2 start stop =>
    obtain ⟨hlow, hhigh⟩ := hint start
    obtain ⟨hlow', hhigh'⟩ := hint stop
    have hstop := intPlace_sub target.size stop.toInt
    have hle : 0 ≤ place target.size stop.toInt → _ := intPlace_le
    have hplaceStart := hat start
    change Gives target _ _ _ ↔ _
    rw [functions, FunctionsHold]
    rw [adjust_eq, adjust_eq]
    generalize place target.size start.toInt = p at hplaceStart ⊢
    generalize place target.size stop.toInt = q at hstop hle ⊢
    generalize intPlace target.size start.toInt = c at hlow hhigh hplaceStart ⊢
    generalize intPlace target.size stop.toInt = d at hlow' hhigh' hstop hle ⊢
    by_cases hlt : d < c
    · rw [if_pos hlt, gives_error]
      by_cases hin : 0 ≤ p ∧ p ≤ q ∧ q ≤ target.size
      · rw [if_pos hin]
        exact iff_of_false (not_not.mpr hin) fun h => Int.not_lt.mpr h.2.1 hlt
      · rw [if_neg hin]
        exact iff_of_true hin (.inl hlt)
    · have hlen : asUintz (d - c) = (d - c).toNat := asUintz_of_nonneg (by omega) (by omega)
      rw [if_neg hlt]
      by_cases hin : 0 ≤ p ∧ p ≤ q ∧ q ≤ target.size
      · have hplace : (asUintz c : Int) = p ↔ c = p := asUintz_eq_iff hlow hin.1 (by omega) hhigh
        rw [if_pos hin, and_iff_right (Int.not_lt.mp hlt), ← hplace]
        refine gives_inside hin (asUintz_place hlow hhigh hplaceStart) fun hc hword => ?_
        have hcp := hplace.mp hc
        have hdq := hle (by omega)
        rw [hlen]
        omega
      · rw [if_neg hin, gives_outside hin, lt_asUintz_iff hlow hhigh hsmall, or_iff_right hlt]
        by_cases hneg : c < 0
        · exact iff_of_true (.inl (.inl hneg)) (.inl hneg)
        · have hstart : asUintz c = c.toNat := asUintz_of_nonneg (Int.not_lt.mp hneg) (by omega)
          have hsum : asUintz (asUintz c + asUintz (d - c)) = d.toNat := by
            rw [hlen, hstart, asUintz_of_nonneg (by omega) (by omega)]
            omega
          rw [hsum]
          omega
  | slice1 start =>
    obtain ⟨hlow, hhigh⟩ := hint start
    change Gives target _ _ _ ↔ _
    rw [functions, FunctionsHold]
    have hplace := hat start
    rw [adjust_eq]
    generalize place target.size start.toInt = p at hplace ⊢
    generalize intPlace target.size start.toInt = c at hlow hhigh hplace ⊢
    by_cases hgt : asUintz c > target.size
    · have hout := (lt_asUintz_iff hlow hhigh hsmall).mp hgt
      rw [if_pos hgt, gives_error]
      by_cases hin : 0 ≤ p ∧ p ≤ target.size
      · rw [if_pos hin]
        exact iff_of_false (not_not.mpr ⟨hin.1, hin.2, Int.le_refl _⟩) fun h => by omega
      · rw [if_neg hin]
        exact iff_of_true (fun h => hin ⟨h.1, h.2.1⟩) hout
    · rw [if_neg hgt]
      exact gives_rest_at hlow hhigh hplace

/-- Each call gives what is asked for if and only if the place that it counts is the one that is
asked for, or neither is in the string. -/
theorem meets_iff (target : Target) (call : Call) : Meets target call ↔ Holds target.size call := by
  cases call with
  | method request => exact macros_iff target request
  | subStringFunction request => exact macros_iff target request
  | stringFunction request => exact functions_iff target request

theorem abc_small : [97, 98, 99].length < 2 ^ 63 := by decide

def abc : Target := .string [97, 98, 99] abc_small

/-- The last byte of a string, by the method and by the function. -/
theorem substr_last : (Call.method (.substr2 (-1) 1)).run abc = .ok ⟨[97, 98, 99], 2, 1⟩ ∧
    ¬ Meets abc (.stringFunction (.substr2 (-1) 1)) := by
  refine ⟨by decide, fun h => ?_⟩
  have hsame : (Call.stringFunction (.substr2 (-1) 1)).run abc = .ok ⟨[97, 98, 99], 2, 1⟩ := h
  exact absurd hsame (by decide)

end SubStrings

end Crack
