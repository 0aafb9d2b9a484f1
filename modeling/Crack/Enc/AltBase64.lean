import Crack.Lang.Appending
import Crack.Lib.Sextets

/-!
# altEncode and altDecode

Base 64 with `.` and `_` in the alphabet and nothing behind the last group.
-/
namespace Crack

namespace AltBase64

/-- The `encode` of `Result`, for a value below 64 -/
def encodeChar (val : Nat) : UInt8 :=
  let b := UInt8.ofNat val
  if b < 26 then 65 + b
  else if b < 52 then 97 + (b - 26)
  else if b < 62 then 48 + (b - 52)
  else if b &&& 1 ≠ 0 then 95 else 46

def encode (result : ManagedBuffer) (val : Nat) : Except Stop ManagedBuffer := result.append (encodeChar val)

/-- Writes the word, 6 bits at a time. -/
def writeWord (accum numChars : Nat) (result : ManagedBuffer) : Except Stop ManagedBuffer := do
  let result ← encode result (accum >>> 18)
  let result ← encode result (accum >>> 12 &&& 0x3f)
  let result ← (if numChars ≥ 3 then encode result (accum >>> 6 &&& 0x3f) else .ok result)
  if numChars = 4 then encode result (accum &&& 0x3f) else .ok result

/-- The loop of `altEncode`, which goes on with up to three bytes. -/
def encodeLoop : List UInt8 → ManagedBuffer → Except Stop ManagedBuffer
  | [], result => .ok result
  | [x], result => writeWord (x.toNat <<< 16) 2 result
  | [x, y], result => writeWord (x.toNat <<< 16 ||| y.toNat <<< 8) 3 result
  | x :: y :: z :: data, result => do
    let result ← writeWord (x.toNat <<< 16 ||| y.toNat <<< 8 ||| z.toNat) 4 result
    encodeLoop data result

def altEncode (data : List UInt8) : Except Stop (List UInt8) := do
  let result ← encodeLoop (data.take (intSize data.length)) (.init (data.length * 4 / 3))
  return result.data

def letter (b : UInt8) : Option UInt8 :=
  if b ≥ 48 ∧ b ≤ 57 then some (b - 48 + 52)
  else if b ≥ 97 ∧ b ≤ 122 then some (b - 97 + 26)
  else if b ≥ 65 ∧ b ≤ 90 then some (b - 65)
  else if b = 46 then some 62
  else if b = 95 then some 63
  else none

/-- Every 4th byte the word is written. -/
def flush (accum : Nat) (result : ManagedBuffer) : Except Stop ManagedBuffer := do
  let result ← result.append (UInt8.ofNat (accum >>> 16))
  let result ← result.append (UInt8.ofNat (accum >>> 8))
  result.append (UInt8.ofNat accum)

def decodeLoop : List UInt8 → Nat → Nat → ManagedBuffer → Except Stop (Nat × Nat × ManagedBuffer)
  | [], i, accum, result => .ok (i, accum, result)
  | b :: encoded, i, accum, result =>
    match letter b with
    | none => .error (.thrown s!"{b.toNat} at index {i} is not a legal base64 alt character.")
    | some val =>
      let accum := uint (accum <<< 6 ||| val.toNat)
      if (i + 1) % 4 = 0 then do
        let result ← flush accum result
        decodeLoop encoded (i + 1) 0 result
      else decodeLoop encoded (i + 1) accum result

/-- What is left after the last whole word. -/
def finish : Nat × Nat × ManagedBuffer → Except Stop ManagedBuffer
  | (i, accum, result) =>
    if i % 4 = 2 then result.append (UInt8.ofNat (accum >>> 4))
    else if i % 4 = 3 then do
      let result ← result.append (UInt8.ofNat (accum >>> 10))
      result.append (UInt8.ofNat (accum >>> 2))
    else .ok result

def altDecode (encoded : List UInt8) : Except Stop (List UInt8) := do
  let state ← decodeLoop (encoded.take (intSize encoded.length)) 0 0 (.init (encoded.length * 3 / 4))
  let result ← finish state
  return result.data

/-- Letters, digits, `.` and `_`. -/
def InAlphabet (c : UInt8) : Prop :=
  65 ≤ c ∧ c ≤ 90 ∨ 97 ≤ c ∧ c ≤ 122 ∨ 48 ≤ c ∧ c ≤ 57 ∨ c = 46 ∨ c = 95

instance (c : UInt8) : Decidable (InAlphabet c) := inferInstanceAs (Decidable (_ ∨ _))

/-- The encoding is made of the alphabet, and decodes to what was encoded. -/
def Kept (x : List UInt8) : Prop :=
  ∃ text, altEncode x = .ok text ∧ altDecode text = .ok x ∧ ∀ c ∈ text, InAlphabet c

open ManagedBuffer Sextets
open Loops (bind_ok)
open Bytes (ofNat_eq)

variable {x y text : List UInt8} {ns : List Nat} {accum i n : Nat} {result result' : ManagedBuffer}

theorem letter_encodeChar (h : n < 64) : letter (encodeChar n) = some (UInt8.ofNat n) ∧ InAlphabet (encodeChar n) := by
  have hall : ∀ i : Fin 64, letter (encodeChar i) = some (UInt8.ofNat i) ∧ InAlphabet (encodeChar i) := by
    decide +kernel
  exact hall ⟨n, h⟩

theorem low_six (n : Nat) : n &&& 0x3f = n % 64 := Nat.and_two_pow_sub_one_eq_mod n 6

theorem shift_or_byte (x y : UInt8) : x.toNat <<< 16 ||| y.toNat <<< 8 = x.toNat * 65536 + y.toNat * 256 := by
  have hy := y.toNat_lt
  have hlt : y.toNat * 256 < 2 ^ 16 := by omega
  rw [Nat.shiftLeft_eq, Nat.shiftLeft_eq, Nat.mul_comm x.toNat, ← Nat.two_pow_add_eq_or_of_lt hlt]

theorem shift_or_word (x y z : UInt8) :
    x.toNat <<< 16 ||| y.toNat <<< 8 ||| z.toNat = x.toNat * 65536 + y.toNat * 256 + z.toNat := by
  have hz : z.toNat < 2 ^ 8 := z.toNat_lt
  have hmul : x.toNat * 65536 + y.toNat * 256 = 2 ^ 8 * (x.toNat * 256 + y.toNat) := by omega
  rw [shift_or_byte, hmul, ← Nat.two_pow_add_eq_or_of_lt hz]

theorem appends_encode (val : Nat) : Appends (fun b => encode b val) [encodeChar val] := appends_append _

theorem appends_word (accum numChars : Nat) :
    Appends (writeWord accum numChars)
      ([encodeChar (accum / 2 ^ 18)] ++ ([encodeChar (accum / 2 ^ 12 % 64)] ++
        ((if numChars ≥ 3 then [encodeChar (accum / 2 ^ 6 % 64)] else []) ++
          if numChars = 4 then [encodeChar (accum % 64)] else []))) := by
  have h := (appends_encode (accum >>> 18)).bind <| (appends_encode (accum >>> 12 &&& 0x3f)).bind <|
    (appends_encode (accum >>> 6 &&& 0x3f)).when (p := numChars ≥ 3) |>.bind <|
      (appends_encode (accum &&& 0x3f)).when (p := numChars = 4)
  simp only [low_six, Nat.shiftRight_eq_div_pow] at h
  refine h.of_fun ?_
  intro b
  simp only [writeWord, low_six, Nat.shiftRight_eq_div_pow]

theorem appends_loop (data : List UInt8) : Appends (encodeLoop data) ((groups data).map encodeChar) := by
  fun_induction groups data with
  | case1 => exact appends_nil
  | case2 a =>
    have ha := a.toNat_lt
    have hshift : a.toNat <<< 16 = a.toNat * 65536 := Nat.shiftLeft_eq _ _
    have hp : a.toNat * 65536 / 2 ^ 18 = a.toNat / 4 := by omega
    have hq : a.toNat * 65536 / 2 ^ 12 % 64 = a.toNat % 4 * 16 := by omega
    refine (appends_word _ 2).of_eq ?_
    rw [hshift, hp, hq]
    rfl
  | case3 a b =>
    have ha := a.toNat_lt
    have hb := b.toNat_lt
    have hp : (a.toNat * 65536 + b.toNat * 256) / 2 ^ 18 = a.toNat / 4 := by omega
    have hq : (a.toNat * 65536 + b.toNat * 256) / 2 ^ 12 % 64 = a.toNat % 4 * 16 + b.toNat / 16 := by omega
    have hr : (a.toNat * 65536 + b.toNat * 256) / 2 ^ 6 % 64 = b.toNat % 16 * 4 := by omega
    refine (appends_word _ 3).of_eq ?_
    rw [shift_or_byte, hp, hq, hr]
    rfl
  | case4 a b c bs ih =>
    have ha := a.toNat_lt
    have hb := b.toNat_lt
    have hc := c.toNat_lt
    have hp : (a.toNat * 65536 + b.toNat * 256 + c.toNat) / 2 ^ 18 = a.toNat / 4 := by omega
    have hq : (a.toNat * 65536 + b.toNat * 256 + c.toNat) / 2 ^ 12 % 64 = a.toNat % 4 * 16 + b.toNat / 16 := by omega
    have hr : (a.toNat * 65536 + b.toNat * 256 + c.toNat) / 2 ^ 6 % 64 = b.toNat % 16 * 4 + c.toNat / 64 := by omega
    have hs : (a.toNat * 65536 + b.toNat * 256 + c.toNat) % 64 = c.toNat % 64 := by omega
    refine ((appends_word _ 4).bind ih).of_eq ?_
    rw [shift_or_word, hp, hq, hr, hs]
    rfl

/-- The next letter of a word. -/
theorem decodeLoop_cons (hn : n < 64) (haccum : accum < 2 ^ 26) (result : ManagedBuffer) :
    decodeLoop (encodeChar n :: text) i accum result =
      if (i + 1) % 4 = 0 then flush (accum * 64 + n) result >>= decodeLoop text (i + 1) 0
      else decodeLoop text (i + 1) (accum * 64 + n) result := by
  have hval : (UInt8.ofNat n).toNat = n := Bytes.toNat_ofNat_of_lt (by omega)
  have hlt : n < 2 ^ 6 := hn
  have hor : uint (accum <<< 6 ||| n) = accum * 64 + n := by
    rw [Nat.shiftLeft_eq, Nat.mul_comm, ← Nat.two_pow_add_eq_or_of_lt hlt, Nat.mul_comm]
    exact Nat.mod_eq_of_lt (by omega)
  rw [decodeLoop, (letter_encodeChar hn).1]
  dsimp only
  rw [hval, hor]

theorem appends_flush (accum : Nat) :
    Appends (flush accum) [UInt8.ofNat (accum / 2 ^ 16), UInt8.ofNat (accum / 2 ^ 8), UInt8.ofNat accum] := by
  have h := (appends_append (UInt8.ofNat (accum >>> 16))).bind <| (appends_append (UInt8.ofNat (accum >>> 8))).bind <|
    appends_append (UInt8.ofNat accum)
  refine (h.of_eq ?_).of_fun fun b => rfl
  simp only [Nat.shiftRight_eq_div_pow, List.singleton_append]

theorem size_flush (he : flush accum result = .ok result') : result'.size = result.size + 3 := by
  obtain ⟨b₁, h₁, he⟩ := bind_ok he
  obtain ⟨b₂, h₂, h₃⟩ := bind_ok he
  rw [size_append h₃, size_append h₂, size_append h₁]

/-- The bytes of a whole word. -/
theorem word_bytes {p q r s : Nat} (hr : r < 64) (hs : s < 64) :
    [UInt8.ofNat ((((p * 64 + q) * 64 + r) * 64 + s) / 2 ^ 16),
      UInt8.ofNat ((((p * 64 + q) * 64 + r) * 64 + s) / 2 ^ 8),
      UInt8.ofNat (((p * 64 + q) * 64 + r) * 64 + s)] =
      [UInt8.ofNat (p * 4 + q / 16), UInt8.ofNat (q * 16 + r / 4), UInt8.ofNat (r * 64 + s)] := by
  have hfirst : (((p * 64 + q) * 64 + r) * 64 + s) / 2 ^ 16 = p * 4 + q / 16 := by omega
  have hsecond : (((p * 64 + q) * 64 + r) * 64 + s) / 2 ^ 8 % 256 = (q * 16 + r / 4) % 256 := by omega
  have hthird : (((p * 64 + q) * 64 + r) * 64 + s) % 256 = (r * 64 + s) % 256 := by omega
  rw [hfirst, ofNat_eq hsecond, ofNat_eq hthird]

/-- Both stages of `altDecode`, from the start of a word on. -/
theorem appends_decode (hns : ∀ n ∈ ns, n < 64) (hi : i % 4 = 0) :
    Appends (fun result => decodeLoop (ns.map encodeChar) i 0 result >>= finish) (bytes ns) := by
  induction ns using four_at_a_time generalizing i with
  | four p q r s ns ih =>
    simp only [List.mem_cons, forall_eq_or_imp] at hns
    obtain ⟨hp, hq, hr, hs, hns⟩ := hns
    have hword := (appends_flush (((p * 64 + q) * 64 + r) * 64 + s)).bind (ih hns (show (i + 4) % 4 = 0 by omega))
    rw [word_bytes hr hs] at hword
    refine hword.of_fun fun result => ?_
    simp only [List.map_cons]
    rw [decodeLoop_cons hp (by decide), if_neg (by omega), Nat.zero_mul, Nat.zero_add,
      decodeLoop_cons hq (by omega), if_neg (by omega), decodeLoop_cons hr (by omega), if_neg (by omega),
      decodeLoop_cons hs (by omega), if_pos (by omega), bind_assoc]
  | three p q r =>
    simp only [List.mem_cons, List.not_mem_nil, or_false, forall_eq_or_imp, forall_eq] at hns
    obtain ⟨hp, hq, hr⟩ := hns
    have hfirst : ((p * 64 + q) * 64 + r) >>> 10 = p * 4 + q / 16 := by
      rw [Nat.shiftRight_eq_div_pow]
      omega
    have hsecond : ((p * 64 + q) * 64 + r) >>> 2 % 256 = (q * 16 + r / 4) % 256 := by
      rw [Nat.shiftRight_eq_div_pow]
      omega
    refine ((appends_append _).bind (appends_append _)).of_fun fun result => ?_
    simp only [List.map_cons, List.map_nil]
    rw [decodeLoop_cons hp (by decide), if_neg (by omega), Nat.zero_mul, Nat.zero_add,
      decodeLoop_cons hq (by omega), if_neg (by omega), decodeLoop_cons hr (by omega), if_neg (by omega), decodeLoop]
    change finish (_, _, result) = _
    rw [finish, if_neg (by omega), if_pos (by omega), hfirst, ofNat_eq hsecond]
  | two p q =>
    simp only [List.mem_cons, List.not_mem_nil, or_false, forall_eq_or_imp, forall_eq] at hns
    obtain ⟨hp, hq⟩ := hns
    have hfirst : (p * 64 + q) >>> 4 = p * 4 + q / 16 := by
      rw [Nat.shiftRight_eq_div_pow]
      omega
    refine (appends_append _).of_fun fun result => ?_
    simp only [List.map_cons, List.map_nil]
    rw [decodeLoop_cons hp (by decide), if_neg (by omega), Nat.zero_mul, Nat.zero_add,
      decodeLoop_cons hq (by omega), if_neg (by omega), decodeLoop]
    change finish (_, _, result) = _
    rw [finish, if_pos (by omega), hfirst]
  | nil =>
    refine appends_nil.of_fun fun result => ?_
    change finish (i, 0, result) = _
    rw [finish, if_neg (by omega), if_neg (by omega)]
  | one p =>
    have hp : p < 64 := hns p List.mem_cons_self
    refine appends_nil.of_fun fun result => ?_
    simp only [List.map_cons, List.map_nil]
    rw [decodeLoop_cons hp (by decide), if_neg (by omega), decodeLoop]
    change finish (_, _, result) = _
    rw [finish, if_neg (by omega), if_neg (by omega)]

/-- No more bytes come out than letters went in. -/
theorem decodeLoop_size {j accum' : Nat} (he : decodeLoop text i accum result = .ok (j, accum', result')) :
    result'.size + j % 4 ≤ result.size + i % 4 + text.length := by
  induction text generalizing i accum result with
  | nil =>
    cases he
    exact Nat.le_refl _
  | cons c text ih =>
    rw [List.length_cons]
    rw [decodeLoop] at he
    cases hletter : letter c with
    | none =>
      rw [hletter] at he
      cases he
    | some val =>
      rw [hletter] at he
      dsimp only at he
      split at he
      next hword =>
        obtain ⟨result₁, hflush, he⟩ := bind_ok he
        have hsize := size_flush hflush
        have hle := ih he
        omega
      next hword =>
        have hle := ih he
        omega

theorem length_data_le (b : ManagedBuffer) : b.data.length ≤ b.size := List.length_take_le _ _

theorem altDecode_length (he : altDecode text = .ok y) : y.length ≤ intSize text.length := by
  obtain ⟨⟨i, accum, result⟩, hloop, he⟩ := bind_ok he
  obtain ⟨result', hfinish, he⟩ := bind_ok he
  cases he
  have hle := decodeLoop_size hloop
  have hcount : (text.take (intSize text.length)).length ≤ intSize text.length := List.length_take_le _ _
  have hempty : (ManagedBuffer.init (text.length * 3 / 4)).size = 0 := rfl
  have hdata := length_data_le result'
  rw [finish] at hfinish
  split at hfinish
  next =>
    have hsize := size_append hfinish
    omega
  next =>
    split at hfinish
    next =>
      obtain ⟨b₁, h₁, h₂⟩ := bind_ok hfinish
      have hsize₁ := size_append h₁
      have hsize₂ := size_append h₂
      omega
    next =>
      cases hfinish
      omega

/-- What `altEncode` makes of a string that is not too long to be looped over. -/
theorem altEncode_spec (hx : x.length < 2 ^ 31) :
    (((groups x).map encodeChar).length ≤ 2 ^ 31 → altEncode x = .ok ((groups x).map encodeChar)) ∧
      ∀ text, altEncode x = .ok text → text = (groups x).map encodeChar ∧ text.length < 2 ^ 32 := by
  have hloop := (appends_loop x).of_init (x.length * 4 / 3) (by omega)
  rw [altEncode, take_intSize hx]
  constructor
  · intro hlen
    obtain ⟨b, he, hdata⟩ := hloop.1 hlen
    rw [he, ← hdata]
    rfl
  · intro text he
    obtain ⟨b, hb, hend⟩ := bind_ok he
    cases hend
    obtain ⟨hdata, hlt⟩ := hloop.2 b hb
    rw [hdata]
    exact ⟨rfl, hlt⟩

theorem altDecode_groups (h : ((groups x).map encodeChar).length < 2 ^ 31) :
    altDecode ((groups x).map encodeChar) = .ok x := by
  have hx := length_groups x
  rw [List.length_map] at h
  have hdecode := appends_decode (groups_lt x) (Nat.zero_mod 4)
  rw [bytes_groups] at hdecode
  have hcap : ((groups x).map encodeChar).length * 3 / 4 < 2 ^ 32 := by
    rw [List.length_map]
    omega
  obtain ⟨b, he, hdata⟩ := (hdecode.of_init _ hcap).1 (by omega)
  obtain ⟨state, hloop, hfinish⟩ := bind_ok he
  rw [altDecode, take_intSize (by rwa [List.length_map]), hloop]
  change (finish state >>= fun result => pure result.data) = .ok x
  rw [hfinish, ← hdata]
  rfl

theorem kept_iff (x : List UInt8) : Kept x ↔ (4 * x.length + 2) / 3 < 2 ^ 31 := by
  have hlen : ((groups x).map encodeChar).length = (4 * x.length + 2) / 3 := by
    rw [List.length_map, length_groups]
  constructor
  · rintro ⟨text, hencode, hdecode, -⟩
    have hle := altDecode_length hdecode
    have hlt := intSize_lt text.length
    obtain ⟨-, honly⟩ := altEncode_spec (show x.length < 2 ^ 31 by omega)
    obtain ⟨htext, hsmall⟩ := honly text hencode
    rw [← htext] at hlen
    by_contra hge
    -- the size of the text is below zero as an int
    rw [intSize_of_ge (by omega) hsmall] at hle
    omega
  · intro h
    refine ⟨(groups x).map encodeChar, (altEncode_spec (by omega)).1 (by omega), altDecode_groups (by omega), ?_⟩
    intro c hc
    obtain ⟨n, hn, rfl⟩ := List.mem_map.mp hc
    exact (letter_encodeChar (groups_lt x n hn)).2

/-- Strings are kept, in letters, digits, `.` and `_`, and tell apart, exactly when there are less than 2 ^ 31
letters of each. -/
theorem alt_kept_apart_iff (x y : List UInt8) :
    (Kept x ∧ Kept y ∧ (altEncode x = altEncode y → x = y)) ↔
      (4 * x.length + 2) / 3 < 2 ^ 31 ∧ (4 * y.length + 2) / 3 < 2 ^ 31 := by
  rw [← kept_iff, ← kept_iff]
  constructor
  · rintro ⟨hx, hy, -⟩
    exact ⟨hx, hy⟩
  · rintro ⟨hx, hy⟩
    refine ⟨hx, hy, fun heq => ?_⟩
    obtain ⟨text, hencode, hdecode, -⟩ := hx
    obtain ⟨text', hencode', hdecode', -⟩ := hy
    rw [heq, hencode'] at hencode
    cases hencode
    rw [hdecode] at hdecode'
    exact Except.ok.inj hdecode'

/-- A string of 2 ^ 31 bytes is not looped over at all, like an empty one. -/
theorem alt_large_lost :
    ¬ Kept (List.replicate (2 ^ 31) 0) ∧ altEncode (List.replicate (2 ^ 31) 0) = .ok [] ∧ altEncode [] = .ok [] := by
  have hlen : (List.replicate (2 ^ 31) (0 : UInt8)).length = 2 ^ 31 := List.length_replicate
  refine ⟨?_, ?_, rfl⟩
  · rw [kept_iff, hlen]
    decide
  · rw [altEncode, hlen, intSize_of_ge (Nat.le_refl _) (by decide), List.take_zero]
    rfl

end AltBase64

end Crack
