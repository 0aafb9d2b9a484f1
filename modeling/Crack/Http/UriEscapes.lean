import Crack.Lang.Appending
import Crack.Lib.Words

/-!
# Escapes in URIs

`encodeForURI`, which escapes the bytes that a part of a URI must not contain, and `decode`.
-/
namespace Crack

namespace Uri

/-- The value of a digit of an escape sequence. -/
def hexValue (ch : UInt8) : Option UInt8 :=
  if ch ≥ 48 ∧ ch ≤ 57 then some (ch - 48)
  else if ch ≥ 97 ∧ ch ≤ 102 then some (ch - 97 + 10)
  else if ch ≥ 65 ∧ ch ≤ 70 then some (ch - 65 + 10)
  else none

/-- A character in the unescaped state: the next state, and what is appended. -/
def unescaped (convertPlus : Bool) (ch escape : UInt8) (result : ManagedBuffer) :
    Except Stop (Nat × UInt8 × ManagedBuffer) :=
  if ch = 37 then .ok (1, 0, result)
  else do
    let result ← result.append (if convertPlus ∧ ch = 43 then 32 else ch)
    return (0, escape, result)

/-- The loop of `decode`. State 0 is unescaped, 1 and 2 are the first and second character of an escape sequence. -/
def decodeLoop (permissive convertPlus : Bool) : List UInt8 → Nat → Nat → UInt8 → ManagedBuffer →
    Except Stop (Nat × UInt8 × ManagedBuffer)
  | [], _, state, escape, result => .ok (state, escape, result)
  | ch :: data, i, state, escape, result =>
    if state = 0 then do
      let (state, escape, result) ← unescaped convertPlus ch escape result
      decodeLoop permissive convertPlus data (i + 1) state escape result
    else match hexValue ch with
      | some digit =>
        let escape := (escape <<< 4) ||| digit
        if state = 2 then do
          let result ← result.append escape
          decodeLoop permissive convertPlus data (i + 1) 0 escape result
        else decodeLoop permissive convertPlus data (i + 1) (state + 1) escape result
      | none =>
        if permissive then do
          let result ← result.append escape
          -- `--i`: the character comes again, in the unescaped state
          let (state, escape, result) ← unescaped convertPlus ch escape result
          decodeLoop permissive convertPlus data (i + 1) state escape result
        else .error (.thrown s!"Invalid escape sequence at {i - state}")

/-- What is left of an escape sequence. -/
def finish (permissive : Bool) (size : Nat) : Nat × UInt8 × ManagedBuffer → Except Stop ManagedBuffer
  | (state, escape, result) =>
    if state ≠ 0 then
      if permissive then result.append escape else .error (.thrown s!"Invalid escape sequence at {size - state}")
    else .ok result

def decode (data : List UInt8) (permissive convertPlus : Bool) : Except Stop (List UInt8) := do
  let state ← decodeLoop permissive convertPlus (data.take (intSize data.length)) 0 0 0
    (.init (data.length + data.length / 10))
  let result ← finish permissive data.length state
  return result.data

def uriUserinfo : Int := 0
def uriHost : Int := 1
def uriPort : Int := 2
def uriPathWithScheme : Int := 3
def uriPath : Int := 4
def uriQuery : Int := 5
def uriQueryVal : Int := 6
def uriFragment : Int := 7

def isSubdelim (b : UInt8) : Prop :=
  b = 33 ∨ b = 36 ∨ b = 38 ∨ b = 39 ∨ b = 40 ∨ b = 41 ∨ b = 42 ∨ b = 43 ∨ b = 44 ∨ b = 59 ∨ b = 61

instance (b : UInt8) : Decidable (isSubdelim b) := inferInstanceAs (Decidable (_ ∨ _))

def hexChar (val : UInt8) : UInt8 := if val < 10 then 48 + val else 65 + val - 10

/-- Characters that are allowed unescaped everywhere. -/
def isUnreserved (b : UInt8) : Prop :=
  b ≥ 97 ∧ b ≤ 122 ∨ b ≥ 65 ∧ b ≤ 90 ∨ b ≥ 48 ∧ b ≤ 57 ∨ b = 45 ∨ b = 95 ∨ b = 46 ∨ b = 126

instance (b : UInt8) : Decidable (isUnreserved b) := inferInstanceAs (Decidable (_ ∨ _))

/-- The condition under which a byte is not escaped. -/
def allowed (context : Int) (gotSlash : Bool) (b : UInt8) : Prop :=
  isUnreserved b ∨
    context = uriUserinfo ∧ (isSubdelim b ∨ b = 58) ∨
    context = uriHost ∧ (isSubdelim b ∨ b = 58 ∨ b = 91 ∨ b = 93) ∨
    context = uriPort ∨
    context = uriPath ∧ (isSubdelim b ∨ b = 47 ∨ b = 64 ∨ gotSlash = true ∧ b = 58) ∨
    context = uriPathWithScheme ∧ (isSubdelim b ∨ b = 47 ∨ b = 64 ∨ b = 58) ∨
    context = uriQuery ∧ (isSubdelim b ∨ b = 58 ∨ b = 64) ∨
    context = uriQueryVal ∧ (isSubdelim b ∧ b ≠ 38 ∧ b ≠ 43 ∨ b = 58 ∨ b = 64) ∨
    context = uriFragment ∧ (isSubdelim b ∨ b = 58 ∨ b = 64 ∨ b = 47 ∨ b = 63)

instance (context : Int) (gotSlash : Bool) (b : UInt8) : Decidable (allowed context gotSlash b) :=
  inferInstanceAs (Decidable (_ ∨ _))

def encodeLoop (context : Int) : List UInt8 → Bool → ManagedBuffer → Except Stop ManagedBuffer
  | [], _, buf => .ok buf
  | b :: value, gotSlash, buf => do
    let gotSlash := gotSlash || b == 47
    if allowed context gotSlash b then do
      let buf ← buf.append b
      encodeLoop context value gotSlash buf
    else do
      let buf ← buf.append 37
      let buf ← buf.append (hexChar (b >>> 4))
      let buf ← buf.append (hexChar (b &&& 0xf))
      encodeLoop context value gotSlash buf

def encodeForURI (value : List UInt8) (context : Int) : Except Stop (List UInt8) := do
  let buf ← encodeLoop context (value.take (intSize value.length)) false (.init (value.length * 2))
  return buf.data

/-- How many bytes of a string are escaped. -/
def escapes (context : Int) : List UInt8 → Bool → Nat
  | [], _ => 0
  | b :: value, gotSlash =>
    (if allowed context (gotSlash || b == 47) b then 0 else 1) + escapes context value (gotSlash || b == 47)

/-- Every `%` starts an escape sequence with two digits. -/
inductive Escaped : List UInt8 → Prop
  | nil : Escaped []
  | plain {c : UInt8} {text : List UInt8} : c ≠ 37 → Escaped text → Escaped (c :: text)
  | escape {c d : UInt8} {text : List UInt8} : (hexValue c).isSome → (hexValue d).isSome → Escaped text →
    Escaped (37 :: c :: d :: text)

/-- An encoded value comes back, and a query value has no character that ends it or stands for another one. -/
def Kept (value : List UInt8) (context : Int) : Prop :=
  ∃ text, encodeForURI value context = .ok text ∧ decode text false (context == uriQueryVal) = .ok value ∧
    (context = uriQueryVal → Escaped text ∧ ∀ c ∈ text, c ≠ 38 ∧ c ≠ 43 ∧ c ≠ 35 ∧ c ≠ 47 ∧ c ≠ 63)

open ManagedBuffer
open Loops (bind_ok)
open Bytes (forall_byte)

variable {value data text y : List UInt8} {context : Int} {gotSlash convertPlus : Bool} {b escape : UInt8}
  {i state : Nat}

/-- Where a byte may be left as it is, it does not start an escape sequence. -/
theorem not_percent (hport : context ≠ uriPort) (h : allowed context gotSlash b) : b ≠ 37 := by
  rintro rfl
  have hplain : ¬ isUnreserved 37 := by decide
  have hsub : ¬ isSubdelim 37 := by decide
  simp [allowed, hplain, hsub, hport] at h

/-- None of the bytes with a meaning in a query value has the property. -/
theorem ne_of_not {p : UInt8 → Prop} (h₁ : ¬p 38) (h₂ : ¬p 43) (h₃ : ¬p 35) (h₄ : ¬p 47) (h₅ : ¬p 63) (h : p b) :
    b ≠ 38 ∧ b ≠ 43 ∧ b ≠ 35 ∧ b ≠ 47 ∧ b ≠ 63 :=
  ⟨fun heq => h₁ (heq ▸ h), fun heq => h₂ (heq ▸ h), fun heq => h₃ (heq ▸ h), fun heq => h₄ (heq ▸ h),
    fun heq => h₅ (heq ▸ h)⟩

theorem query_byte (h : allowed uriQueryVal gotSlash b) : b ≠ 38 ∧ b ≠ 43 ∧ b ≠ 35 ∧ b ≠ 47 ∧ b ≠ 63 := by
  refine ne_of_not (p := allowed uriQueryVal gotSlash) ?_ ?_ ?_ ?_ ?_ h
  all_goals cases gotSlash <;> decide

/-- The two digits of a byte make it up again. -/
theorem hex_digits (b : UInt8) : hexValue (hexChar (b >>> 4)) = some (b >>> 4) ∧
    hexValue (hexChar (b &&& 0xf)) = some (b &&& 0xf) ∧
    ((0 : UInt8) <<< 4 ||| b >>> 4) <<< 4 ||| b &&& 0xf = b := by
  refine forall_byte (p := fun b => hexValue (hexChar (b >>> 4)) = some (b >>> 4) ∧
    hexValue (hexChar (b &&& 0xf)) = some (b &&& 0xf) ∧ ((0 : UInt8) <<< 4 ||| b >>> 4) <<< 4 ||| b &&& 0xf = b) ?_ b
  decide +kernel

theorem digit_byte (b : UInt8) (h : (hexValue b).isSome) : b ≠ 38 ∧ b ≠ 43 ∧ b ≠ 35 ∧ b ≠ 47 ∧ b ≠ 63 := by
  refine ne_of_not (p := fun b => (hexValue b).isSome) ?_ ?_ ?_ ?_ ?_ h
  all_goals decide

/-- What a byte becomes. -/
def encoded (context : Int) (gotSlash : Bool) (b : UInt8) : List UInt8 :=
  if allowed context gotSlash b then [b] else [37, hexChar (b >>> 4), hexChar (b &&& 0xf)]

def encodedAll (context : Int) : List UInt8 → Bool → List UInt8
  | [], _ => []
  | b :: value, gotSlash => encoded context (gotSlash || b == 47) b ++ encodedAll context value (gotSlash || b == 47)

theorem appends_encode (context : Int) (value : List UInt8) (gotSlash : Bool) :
    Appends (encodeLoop context value gotSlash) (encodedAll context value gotSlash) := by
  induction value generalizing gotSlash with
  | nil => exact appends_nil
  | cons b value ih =>
    by_cases h : allowed context (gotSlash || b == 47) b
    · refine (((appends_append b).bind (ih (gotSlash || b == 47))).of_eq ?_).of_fun fun buf => ?_
      · rw [encodedAll, encoded, if_pos h]
      · rw [encodeLoop]
        exact if_pos h
    · have hbytes := (appends_append 37).bind <| (appends_append (hexChar (b >>> 4))).bind <|
        (appends_append (hexChar (b &&& 0xf))).bind (ih (gotSlash || b == 47))
      refine (hbytes.of_eq ?_).of_fun fun buf => ?_
      · rw [encodedAll, encoded, if_neg h]
        rfl
      · rw [encodeLoop]
        exact if_neg h

theorem length_encodedAll (context : Int) (value : List UInt8) (gotSlash : Bool) :
    (encodedAll context value gotSlash).length = value.length + 2 * escapes context value gotSlash := by
  induction value generalizing gotSlash with
  | nil => rfl
  | cons b value ih =>
    rw [encodedAll, List.length_append, ih, List.length_cons, escapes, encoded]
    split
    · rw [List.length_singleton]
      omega
    · change 3 + _ = _
      omega

theorem escaped_encodedAll (value : List UInt8) (gotSlash : Bool) :
    Escaped (encodedAll uriQueryVal value gotSlash) ∧
      ∀ c ∈ encodedAll uriQueryVal value gotSlash, c ≠ 38 ∧ c ≠ 43 ∧ c ≠ 35 ∧ c ≠ 47 ∧ c ≠ 63 := by
  induction value generalizing gotSlash with
  | nil => exact ⟨.nil, fun c hc => absurd hc List.not_mem_nil⟩
  | cons b value ih =>
    obtain ⟨hrest, hbytes⟩ := ih (gotSlash || b == 47)
    rw [encodedAll, encoded]
    by_cases h : allowed uriQueryVal (gotSlash || b == 47) b
    · rw [if_pos h]
      exact ⟨.plain (not_percent (by decide) h) hrest, List.forall_mem_cons.mpr ⟨query_byte h, hbytes⟩⟩
    · obtain ⟨hhigh, hlow, -⟩ := hex_digits b
      have hhigh : (hexValue (hexChar (b >>> 4))).isSome := by rw [hhigh]; rfl
      have hlow : (hexValue (hexChar (b &&& 0xf))).isSome := by rw [hlow]; rfl
      rw [if_neg h]
      refine ⟨.escape hhigh hlow hrest, List.forall_mem_cons.mpr ⟨by decide, ?_⟩⟩
      exact List.forall_mem_cons.mpr ⟨digit_byte _ hhigh, List.forall_mem_cons.mpr ⟨digit_byte _ hlow, hbytes⟩⟩

theorem decodeLoop_plain (hpercent : b ≠ 37) (hplus : convertPlus = true → b ≠ 43) (result : ManagedBuffer) :
    decodeLoop false convertPlus (b :: data) i 0 escape result =
      result.append b >>= decodeLoop false convertPlus data (i + 1) 0 escape := by
  have hchar : (if convertPlus = true ∧ b = 43 then 32 else b) = b := if_neg fun h => hplus h.1 h.2
  rw [decodeLoop, if_pos rfl, unescaped, if_neg hpercent, hchar, bind_assoc]
  rfl

theorem decodeLoop_escape (b : UInt8) (result : ManagedBuffer) :
    decodeLoop false convertPlus (37 :: hexChar (b >>> 4) :: hexChar (b &&& 0xf) :: data) i 0 escape result =
      result.append b >>= decodeLoop false convertPlus data (i + 3) 0 b := by
  obtain ⟨hhigh, hlow, hbyte⟩ := hex_digits b
  rw [decodeLoop, if_pos rfl, unescaped, if_pos rfl]
  change decodeLoop false convertPlus (hexChar (b >>> 4) :: hexChar (b &&& 0xf) :: data) (i + 1) 1 0 result = _
  rw [decodeLoop, if_neg (by decide), hhigh]
  dsimp only
  rw [if_neg (by decide), decodeLoop, if_neg (by decide), hlow]
  dsimp only
  rw [if_pos rfl, hbyte]

/-- Text and the bytes that it stands for. -/
inductive Decoded (convertPlus : Bool) : List UInt8 → List UInt8 → Prop
  | nil : Decoded convertPlus [] []
  | plain {c : UInt8} {text bytes : List UInt8} : c ≠ 37 → (convertPlus = true → c ≠ 43) →
    Decoded convertPlus text bytes → Decoded convertPlus (c :: text) (c :: bytes)
  | escape (b : UInt8) {text bytes : List UInt8} : Decoded convertPlus text bytes →
    Decoded convertPlus (37 :: hexChar (b >>> 4) :: hexChar (b &&& 0xf) :: text) (b :: bytes)

/-- Both stages of `decode`, from the unescaped state on. -/
theorem Decoded.appends (h : Decoded convertPlus text y) (size i : Nat) (escape : UInt8) :
    Appends (fun result => decodeLoop false convertPlus text i 0 escape result >>= finish false size) y := by
  induction h generalizing i escape with
  | nil => exact appends_nil
  | @plain c text bytes hpercent hplus _ ih =>
    refine ((appends_append c).bind (ih (i + 1) escape)).of_fun fun result => ?_
    rw [decodeLoop_plain hpercent hplus, bind_assoc]
  | @escape b text bytes _ ih =>
    refine ((appends_append b).bind (ih (i + 3) b)).of_fun fun result => ?_
    rw [decodeLoop_escape, bind_assoc]

theorem Decoded.append {text' y' : List UInt8} (h : Decoded convertPlus text y) (h' : Decoded convertPlus text' y') :
    Decoded convertPlus (text ++ text') (y ++ y') := by
  induction h with
  | nil => exact h'
  | plain hpercent hplus _ ih => exact .plain hpercent hplus ih
  | escape b _ ih => exact .escape b ih

theorem Decoded.length_le (h : Decoded convertPlus text y) : y.length ≤ text.length := by
  induction h with
  | nil => exact Nat.le_refl _
  | plain _ _ _ ih => exact Nat.succ_le_succ ih
  | escape _ _ ih => exact Nat.succ_le_succ (Nat.le_add_right_of_le (Nat.le_add_right_of_le ih))

theorem decoded_encodedAll (hport : context ≠ uriPort) (hplus : convertPlus = true → context = uriQueryVal)
    (value : List UInt8) (gotSlash : Bool) : Decoded convertPlus (encodedAll context value gotSlash) value := by
  induction value generalizing gotSlash with
  | nil => exact .nil
  | cons b value ih =>
    rw [encodedAll, encoded]
    by_cases h : allowed context (gotSlash || b == 47) b
    · rw [if_pos h]
      exact .plain (not_percent hport h) (fun hp => (query_byte (hplus hp ▸ h)).2.1) (ih _)
    · rw [if_neg h]
      exact .escape b (ih _)

/-- What is decoded when there is room for it. -/
theorem Decoded.decode_eq (h : Decoded convertPlus text y) (htext : text.length < 2 ^ 31) (hle : y.length ≤ 2 ^ 31) :
    decode text false convertPlus = .ok y := by
  have hcap : text.length + text.length / 10 < 2 ^ 32 := by omega
  obtain ⟨b, he, hdata⟩ := ((h.appends text.length 0 0).of_init _ hcap).1 hle
  obtain ⟨state, hloop, hfinish⟩ := bind_ok he
  rw [decode, take_intSize htext, hloop]
  change (finish false _ state >>= fun result => pure result.data) = .ok y
  rw [hfinish, ← hdata]
  rfl

variable {result result' : ManagedBuffer} {state' : Nat}

theorem unescaped_size {ch escape' : UInt8}
    (he : unescaped convertPlus ch escape result = .ok (state', escape', result')) :
    result'.size ≤ result.size + 1 := by
  rw [unescaped] at he
  split at he
  · cases he
    exact Nat.le_succ _
  · obtain ⟨result₁, happend, he⟩ := bind_ok he
    cases he
    exact Nat.le_of_eq (size_append happend)

/-- No more bytes come out than characters went in. -/
theorem decodeLoop_size {escape' : UInt8}
    (he : decodeLoop false convertPlus data i state escape result = .ok (state', escape', result')) :
    result'.size ≤ result.size + data.length := by
  induction data generalizing i state escape result with
  | nil =>
    cases he
    exact Nat.le_refl _
  | cons ch data ih =>
    rw [List.length_cons]
    rw [decodeLoop] at he
    split at he
    · obtain ⟨⟨state₁, escape₁, result₁⟩, hstep, he⟩ := bind_ok he
      have hsize := unescaped_size hstep
      have hle := ih he
      omega
    · cases hdigit : hexValue ch with
      | none =>
        rw [hdigit] at he
        cases he
      | some digit =>
        rw [hdigit] at he
        dsimp only at he
        split at he
        · obtain ⟨result₁, happend, he⟩ := bind_ok he
          have hsize := size_append happend
          have hle := ih he
          omega
        · have hle := ih he
          omega

theorem decode_length (he : decode text false convertPlus = .ok y) : y.length ≤ intSize text.length := by
  obtain ⟨⟨state, escape, result⟩, hloop, he⟩ := bind_ok he
  obtain ⟨result', hfinish, he⟩ := bind_ok he
  cases he
  have hle := decodeLoop_size hloop
  have hcount : (text.take (intSize text.length)).length ≤ intSize text.length := List.length_take_le _ _
  have hempty : (ManagedBuffer.init (text.length + text.length / 10)).size = 0 := rfl
  have hdata : result'.data.length ≤ result'.size := List.length_take_le _ _
  rw [finish] at hfinish
  split at hfinish
  · cases hfinish
  · cases hfinish
    omega

/-- What `encodeForURI` makes of a string that is not too long to be looped over. -/
theorem encodeForURI_spec (context : Int) (hlt : value.length < 2 ^ 31) :
    ((encodedAll context value false).length ≤ 2 ^ 31 →
        encodeForURI value context = .ok (encodedAll context value false)) ∧
      ∀ text, encodeForURI value context = .ok text → text = encodedAll context value false ∧ text.length < 2 ^ 32 := by
  have hloop := (appends_encode context value false).of_init (value.length * 2) (by omega)
  rw [encodeForURI, take_intSize hlt]
  constructor
  · intro hlen
    obtain ⟨b, he, hdata⟩ := hloop.1 hlen
    rw [he, ← hdata]
    rfl
  · intro text he
    obtain ⟨b, hb, hend⟩ := bind_ok he
    cases hend
    obtain ⟨hdata, hsmall⟩ := hloop.2 b hb
    rw [hdata]
    exact ⟨rfl, hsmall⟩

theorem decode_encoded (hport : context ≠ uriPort) (h : (encodedAll context value false).length < 2 ^ 31) :
    decode (encodedAll context value false) false (context == uriQueryVal) = .ok value := by
  have hlen := length_encodedAll context value false
  have hplus : (context == uriQueryVal) = true → context = uriQueryVal := beq_iff_eq.mp
  exact (decoded_encodedAll hport hplus value false).decode_eq h (by omega)

/-- A string comes back exactly when there are fewer than 2 ^ 31 bytes in its encoding. -/
theorem decode_encodeForURI_iff (value : List UInt8) (hport : context ≠ uriPort) :
    Kept value context ↔ value.length + 2 * escapes context value false < 2 ^ 31 := by
  have hlen := length_encodedAll context value false
  constructor
  · rintro ⟨text, hencode, hdecode, -⟩
    have hle := decode_length hdecode
    have hlt : value.length < 2 ^ 31 := Nat.lt_of_le_of_lt hle (intSize_lt _)
    obtain ⟨htext, hsmall⟩ := (encodeForURI_spec context hlt).2 text hencode
    rw [← htext] at hlen
    by_contra hge
    -- the size of the text is below zero as an int
    rw [intSize_of_ge (by omega) hsmall] at hle
    have hnil : value = [] := List.length_eq_zero_iff.mp (Nat.le_zero.mp hle)
    subst hnil
    exact hge (Nat.two_pow_pos 31)
  · intro h
    refine ⟨_, (encodeForURI_spec context (by omega)).1 (by omega), decode_encoded hport (by omega), ?_⟩
    rintro rfl
    exact escaped_encodedAll value false

/-- `a+b/c` as a query value. -/
theorem small_value_kept : Kept [97, 43, 98, 47, 99] uriQueryVal :=
  (decode_encodeForURI_iff [97, 43, 98, 47, 99] (by decide)).mpr (by decide)

/-- A string of 2 ^ 31 bytes is not looped over at all. -/
theorem large_value_lost : ¬ Kept (List.replicate (2 ^ 31) 97) uriQueryVal := by
  have hlen : (List.replicate (2 ^ 31) (97 : UInt8)).length = 2 ^ 31 := List.length_replicate
  rintro ⟨text, -, hdecode, -⟩
  have hle := decode_length hdecode
  have hlt := intSize_lt text.length
  omega

end Uri

end Crack
