import Crack.Lang.Appending
import Crack.Lib.Sextets

/-!
# Base 64

`encode` with line breaks after every so many letters, and `decode`, which skips them. A division by
zero ends the program.
-/
namespace Crack

namespace Base64

/-- The characters of `base64`. -/
def base64Chars : List UInt8 :=
  (List.range 26).map (fun i => UInt8.ofNat (65 + i)) ++ (List.range 26).map (fun i => UInt8.ofNat (97 + i)) ++
    (List.range 10).map (fun i => UInt8.ofNat (48 + i)) ++ [43, 47]

/-- `base64_chars[i]` -/
def base64Char (i : UInt8) : UInt8 := base64Chars.getD i.toNat 0

def eol : List UInt8 := [13, 10]

/-- The inverse lookup buffer. -/
def decodeB64 (i : UInt8) : UInt8 :=
  if i ≥ 65 ∧ i ≤ 90 then i - 65
  else if i ≥ 97 ∧ i ≤ 122 then 26 + i - 97
  else if i ≥ 48 ∧ i ≤ 57 then 52 + i - 48
  else if i = 43 then 62
  else if i = 47 then 63
  else 0

def isBase64 (c : UInt8) : Prop :=
  c ≥ 65 ∧ c ≤ 90 ∨ c ≥ 97 ∧ c ≤ 122 ∨ c ≥ 48 ∧ c ≤ 57 ∨ c = 43 ∨ c = 47 ∨ c = 10 ∨ c = 13

instance (c : UInt8) : Decidable (isBase64 c) := inferInstanceAs (Decidable (_ ∨ _))

def isEol (c : UInt8) : Prop := c = 10 ∨ c = 13

instance (c : UInt8) : Decidable (isEol c) := inferInstanceAs (Decidable (_ ∨ _))

def divide (m n : Nat) : Except Stop Nat := if n = 0 then .error .abort else .ok (m / n)

/-- `char_array_4`, of the bytes in `char_array_3` -/
def fourOf (x y z : UInt8) : List UInt8 :=
  [(x &&& 0xfc) >>> 2, ((x &&& 0x03) <<< 4) + ((y &&& 0xf0) >>> 4), ((y &&& 0x0f) <<< 2) + ((z &&& 0xc0) >>> 6),
    z &&& 0x3f]

/-- A letter is appended, and a line break behind it if it is the last one of a line. -/
def put (lineLength lc : Nat) (c : UInt8) (ret : ManagedBuffer) : Except Stop ManagedBuffer := do
  let ret ← ret.append c
  if lineLength > 0 ∧ lc % lineLength = 0 then ret.extend eol else .ok ret

def putAll (lineLength : Nat) : List UInt8 → Nat → ManagedBuffer → Except Stop ManagedBuffer
  | [], _, ret => .ok ret
  | c :: cs, lc, ret => do
    let ret ← put lineLength lc c ret
    putAll lineLength cs (uint (lc + 1)) ret

/-- The loop of `encode` and what is left behind it. -/
def encodeLoop (lineLength : Nat) : List UInt8 → Nat → ManagedBuffer → Except Stop ManagedBuffer
  | [], _, ret => .ok ret
  | [x], lc, ret => putAll lineLength (((fourOf x 0 0).take 2).map base64Char ++ [61, 61]) lc ret
  | [x, y], lc, ret => putAll lineLength (((fourOf x y 0).take 3).map base64Char ++ [61]) lc ret
  | x :: y :: z :: data, lc, ret => do
    let ret ← putAll lineLength ((fourOf x y z).map base64Char) lc ret
    encodeLoop lineLength data (uint (lc + 4)) ret

def encode (inbuf : List UInt8) (lineLength : Nat) : Except Stop (List UInt8) := do
  let ratio ← divide (inbuf.length * 4) inbuf.length
  let lines ← (if lineLength > 0 then divide (ratio / 3) lineLength else .ok 0)
  let ret ← encodeLoop lineLength (inbuf.take (intSize inbuf.length)) 1 (.init (ratio / 3 + 4 + lines))
  return ret.data

/-- `char_array_3`, of the values in `char_array_4` -/
def threeOf (p q r s : UInt8) : List UInt8 :=
  [(p <<< 2) + ((q &&& 0x30) >>> 4), ((q &&& 0xf) <<< 4) + ((r &&& 0x3c) >>> 2), ((r &&& 0x3) <<< 6) + s]

/-- The values of the characters that are there, and zeros for the others -/
def threeOfChars (group : List UInt8) : List UInt8 :=
  threeOf (decodeB64 (group.getD 0 0)) (decodeB64 (group.getD 1 0)) (decodeB64 (group.getD 2 0))
    (decodeB64 (group.getD 3 0))

/-- The loop of `decode`, with the characters of a group that are there. What it reads at the end of the text
does not matter. -/
def decodeLoop : List UInt8 → List UInt8 → ManagedBuffer → Except Stop (List UInt8 × ManagedBuffer)
  | [], group, ret => .ok (group, ret)
  | c :: text, group, ret =>
    if c ≠ 61 ∧ isBase64 c then
      if isEol c then decodeLoop text group ret
      else if group.length + 1 = 4 then do
        let ret ← ret.extend (threeOfChars (group ++ [c]))
        decodeLoop text [] ret
      else decodeLoop text (group ++ [c]) ret
    else .ok (group, ret)

def appendAll : List UInt8 → ManagedBuffer → Except Stop ManagedBuffer
  | [], ret => .ok ret
  | c :: cs, ret => do
    let ret ← ret.append c
    appendAll cs ret

/-- What is left after the last whole group. -/
def finish : List UInt8 × ManagedBuffer → Except Stop ManagedBuffer
  | (group, ret) =>
    if group.length > 0 then appendAll ((threeOfChars group).take (group.length - 1)) ret else .ok ret

def decode (inbuf : List UInt8) : Except Stop (List UInt8) := do
  let ratio ← divide (inbuf.length * 3) (inbuf.length / 4)
  let state ← decodeLoop (inbuf.take (intSize inbuf.length)) [] (.init (ratio + 4))
  let ret ← finish state
  return ret.data

open ManagedBuffer Sextets
open Loops (bind_ok)
open Bytes (bits_left bits_right ofNat_eq toNat_ofNat_of_lt)

variable {x y text group : List UInt8} {ns : List Nat} {lineLength lc k n : Nat} {ret ret' : ManagedBuffer}

/-- The letter of a number below 64. -/
def letter (n : Nat) : UInt8 := base64Char (UInt8.ofNat n)

theorem letter_spec (h : n < 64) :
    decodeB64 (letter n) = UInt8.ofNat n ∧ letter n ≠ 61 ∧ isBase64 (letter n) ∧ ¬ isEol (letter n) := by
  have hall : ∀ i : Fin 64, decodeB64 (letter i) = UInt8.ofNat i ∧ letter i ≠ 61 ∧ isBase64 (letter i) ∧
      ¬ isEol (letter i) := by decide +kernel
  exact hall ⟨n, h⟩

theorem high_bits (b : UInt8) : (b &&& 0xfc) >>> 2 = UInt8.ofNat (b.toNat / 4) ∧
    (b &&& 0xf0) >>> 4 = UInt8.ofNat (b.toNat / 16) ∧ (b &&& 0xc0) >>> 6 = UInt8.ofNat (b.toNat / 64) := by
  have hb := b.toNat_lt
  refine ⟨(bits_right (w := 6) rfl b).trans ?_, (bits_right (w := 4) rfl b).trans ?_, (bits_right (w := 2) rfl b).trans ?_⟩
  · exact congrArg UInt8.ofNat (Nat.mod_eq_of_lt (Nat.div_lt_of_lt_mul hb))
  · exact congrArg UInt8.ofNat (Nat.mod_eq_of_lt (Nat.div_lt_of_lt_mul hb))
  · exact congrArg UInt8.ofNat (Nat.mod_eq_of_lt (Nat.div_lt_of_lt_mul hb))

theorem low_bits (b : UInt8) : (b &&& 0x03) <<< 4 = UInt8.ofNat (b.toNat % 4 * 16) ∧
    (b &&& 0x0f) <<< 2 = UInt8.ofNat (b.toNat % 16 * 4) ∧ b &&& 0x3f = UInt8.ofNat (b.toNat % 64) := by
  refine ⟨bits_left (w := 2) rfl b, bits_left (w := 4) rfl b, ?_⟩
  rw [← Nat.and_two_pow_sub_one_eq_mod b.toNat 6]
  exact (UInt8.ofNat_toNat (x := b &&& 0x3f)).symm

theorem fourOf_eq (x y z : UInt8) : (fourOf x y z).map base64Char =
    [letter (x.toNat / 4), letter (x.toNat % 4 * 16 + y.toNat / 16), letter (y.toNat % 16 * 4 + z.toNat / 64),
      letter (z.toNat % 64)] := by
  rw [fourOf, (high_bits x).1, (high_bits y).2.1, (high_bits z).2.2, (low_bits x).1, (low_bits y).2.1, (low_bits z).2.2,
    ← UInt8.ofNat_add, ← UInt8.ofNat_add]
  rfl

theorem value_bits (h : n < 64) : UInt8.ofNat n <<< 2 = UInt8.ofNat (n * 4) ∧
    (UInt8.ofNat n &&& 0x30) >>> 4 = UInt8.ofNat (n / 16) ∧ (UInt8.ofNat n &&& 0xf) <<< 4 = UInt8.ofNat (n * 16) ∧
    (UInt8.ofNat n &&& 0x3c) >>> 2 = UInt8.ofNat (n / 4) ∧ (UInt8.ofNat n &&& 0x3) <<< 6 = UInt8.ofNat (n * 64) := by
  have hn : (UInt8.ofNat n).toNat = n := toNat_ofNat_of_lt (by omega)
  refine ⟨?_, (bits_right (w := 2) rfl _).trans (ofNat_eq ?_), (bits_left (w := 4) rfl _).trans (ofNat_eq ?_),
    (bits_right (w := 4) rfl _).trans (ofNat_eq ?_), (bits_left (w := 2) rfl _).trans (ofNat_eq ?_)⟩
  · rw [← UInt8.toNat_inj, UInt8.toNat_shiftLeft, hn, UInt8.toNat_ofNat', Nat.shiftLeft_eq]
    rfl
  · rw [hn]
    change n / 16 % 4 % 256 = n / 16 % 256
    omega
  · rw [hn]
    change n % 16 * 16 % 256 = n * 16 % 256
    omega
  · rw [hn]
    change n / 4 % 16 % 256 = n / 4 % 256
    omega
  · rw [hn]
    change n % 4 * 64 % 256 = n * 64 % 256
    omega

theorem threeOf_eq {p q r s : Nat} (hp : p < 64) (hq : q < 64) (hr : r < 64) :
    threeOf (UInt8.ofNat p) (UInt8.ofNat q) (UInt8.ofNat r) (UInt8.ofNat s) =
      [UInt8.ofNat (p * 4 + q / 16), UInt8.ofNat (q * 16 + r / 4), UInt8.ofNat (r * 64 + s)] := by
  rw [threeOf, (value_bits hp).1, (value_bits hq).2.1, (value_bits hq).2.2.1, (value_bits hr).2.2.2.1,
    (value_bits hr).2.2.2.2, ← UInt8.ofNat_add, ← UInt8.ofNat_add, ← UInt8.ofNat_add]

/-- The letters of an encoding, with what fills up the last group. -/
def letters (x : List UInt8) : List UInt8 := (groups x).map letter ++ List.replicate ((3 - x.length % 3) % 3) 61

/-- Letters with the line breaks behind them. -/
def broken (lineLength : Nat) : List UInt8 → Nat → List UInt8
  | [], _ => []
  | c :: cs, lc =>
    c :: ((if lineLength > 0 ∧ lc % lineLength = 0 then eol else []) ++ broken lineLength cs (uint (lc + 1)))

theorem uint_uint_add (m n : Nat) : uint (uint m + n) = uint (m + n) := Nat.mod_add_mod m (2 ^ 32) n

theorem broken_four (a b c d : UInt8) (cs : List UInt8) (lc : Nat) :
    broken lineLength (a :: b :: c :: d :: cs) lc =
      broken lineLength [a, b, c, d] lc ++ broken lineLength cs (uint (lc + 4)) := by
  simp only [broken, uint_uint_add, List.cons_append, List.append_assoc, List.nil_append]

theorem appends_put (c : UInt8) :
    Appends (put lineLength lc c) ([c] ++ if lineLength > 0 ∧ lc % lineLength = 0 then eol else []) :=
  (appends_append c).bind (appends_extend eol).when

theorem appends_putAll (cs : List UInt8) (lc : Nat) : Appends (putAll lineLength cs lc) (broken lineLength cs lc) := by
  induction cs generalizing lc with
  | nil => exact appends_nil
  | cons c cs ih =>
    refine ((appends_put c).bind (ih (uint (lc + 1)))).of_eq ?_
    rw [broken, List.append_assoc]
    rfl

theorem letters_cons (a b c : UInt8) (bs : List UInt8) :
    letters (a :: b :: c :: bs) = (fourOf a b c).map base64Char ++ letters bs := by
  rw [fourOf_eq, letters, letters, groups]
  simp only [List.length_cons, List.map_cons, List.cons_append, List.nil_append]
  rw [show bs.length + 1 + 1 + 1 = bs.length + 3 from rfl, Nat.add_mod_right]

theorem appends_encode (lineLength : Nat) (x : List UInt8) (lc : Nat) :
    Appends (encodeLoop lineLength x lc) (broken lineLength (letters x) lc) := by
  fun_induction groups x generalizing lc with
  | case1 => exact appends_nil
  | case2 a =>
    have hletters : letters [a] = ((fourOf a 0 0).take 2).map base64Char ++ [61, 61] := by
      rw [List.map_take, fourOf_eq]
      rfl
    rw [hletters]
    exact appends_putAll _ lc
  | case3 a b =>
    have hletters : letters [a, b] = ((fourOf a b 0).take 3).map base64Char ++ [61] := by
      rw [List.map_take, fourOf_eq]
      rfl
    rw [hletters]
    exact appends_putAll _ lc
  | case4 a b c bs ih =>
    refine ((appends_putAll ((fourOf a b c).map base64Char) lc).bind (ih (uint (lc + 4)))).of_eq ?_
    rw [letters_cons, fourOf_eq]
    exact (broken_four ..).symm

theorem decodeLoop_eol {p : Prop} [Decidable p] (text group : List UInt8) (ret : ManagedBuffer) :
    decodeLoop ((if p then eol else []) ++ text) group ret = decodeLoop text group ret := by
  have hreturn : (13 : UInt8) ≠ 61 ∧ isBase64 13 := by decide
  have hnewline : (10 : UInt8) ≠ 61 ∧ isBase64 10 := by decide
  by_cases hp : p
  · have hends : isEol 13 ∧ isEol 10 := by decide
    rw [if_pos hp, eol]
    simp only [List.cons_append, List.nil_append]
    rw [decodeLoop, if_pos hreturn, if_pos hends.1, decodeLoop, if_pos hnewline, if_pos hends.2]
  · rw [if_neg hp, List.nil_append]

/-- The next letter, with or without a line break behind it. -/
theorem decodeLoop_letter (hn : n < 64) (hgroup : group.length < 3) (cs : List UInt8) (ret : ManagedBuffer) :
    decodeLoop (broken lineLength (letter n :: cs) lc) group ret =
      decodeLoop (broken lineLength cs (uint (lc + 1))) (group ++ [letter n]) ret := by
  obtain ⟨-, hpad, hletter, hend⟩ := letter_spec hn
  rw [broken, decodeLoop, if_pos ⟨hpad, hletter⟩, if_neg hend, if_neg (by omega), decodeLoop_eol]

theorem decodeLoop_fourth (hn : n < 64) (hgroup : group.length = 3) (cs : List UInt8) (ret : ManagedBuffer) :
    decodeLoop (broken lineLength (letter n :: cs) lc) group ret =
      ret.extend (threeOfChars (group ++ [letter n])) >>= decodeLoop (broken lineLength cs (uint (lc + 1))) [] := by
  obtain ⟨-, hpad, hletter, hend⟩ := letter_spec hn
  rw [broken, decodeLoop, if_pos ⟨hpad, hletter⟩, if_neg hend, if_pos (by omega)]
  refine congrArg _ (funext fun ret => ?_)
  exact decodeLoop_eol ..

theorem decodeLoop_pads (k lc : Nat) (ret : ManagedBuffer) :
    decodeLoop (broken lineLength (List.replicate k 61) lc) group ret = .ok (group, ret) := by
  cases k with
  | zero => rfl
  | succ k =>
    rw [List.replicate_succ, broken, decodeLoop]
    exact if_neg fun h => h.1 rfl

theorem appends_appendAll (cs : List UInt8) : Appends (appendAll cs) cs := by
  induction cs with
  | nil => exact appends_nil
  | cons c cs ih => exact (appends_append c).bind ih

/-- Both stages of `decode`, from the start of a group on. -/
theorem appends_decode (lineLength : Nat) (hns : ∀ n ∈ ns, n < 64) (k lc : Nat) :
    Appends (fun ret => decodeLoop (broken lineLength (ns.map letter ++ List.replicate k 61) lc) [] ret >>= finish)
      (bytes ns) := by
  have hzero : decodeB64 0 = UInt8.ofNat 0 := by decide
  induction ns using four_at_a_time generalizing lc with
  | four p q r s ns ih =>
    simp only [List.mem_cons, forall_eq_or_imp] at hns
    obtain ⟨hp, hq, hr, hs, hns⟩ := hns
    have hthree : threeOfChars ([] ++ [letter p] ++ [letter q] ++ [letter r] ++ [letter s]) =
        [UInt8.ofNat (p * 4 + q / 16), UInt8.ofNat (q * 16 + r / 4), UInt8.ofNat (r * 64 + s)] := by
      rw [← threeOf_eq hp hq hr, ← (letter_spec hp).1, ← (letter_spec hq).1, ← (letter_spec hr).1, ← (letter_spec hs).1]
      rfl
    have hgroup := (appends_extend [UInt8.ofNat (p * 4 + q / 16), UInt8.ofNat (q * 16 + r / 4),
      UInt8.ofNat (r * 64 + s)]).bind (ih hns (uint (uint (uint (uint (lc + 1) + 1) + 1) + 1)))
    refine hgroup.of_fun fun ret => ?_
    simp only [List.map_cons, List.cons_append]
    rw [decodeLoop_letter hp (by simp), decodeLoop_letter hq (by simp), decodeLoop_letter hr (by simp),
      decodeLoop_fourth hs (by simp), hthree, bind_assoc]
  | three p q r =>
    simp only [List.mem_cons, List.not_mem_nil, or_false, forall_eq_or_imp, forall_eq] at hns
    obtain ⟨hp, hq, hr⟩ := hns
    have hthree : threeOfChars ([] ++ [letter p] ++ [letter q] ++ [letter r]) =
        [UInt8.ofNat (p * 4 + q / 16), UInt8.ofNat (q * 16 + r / 4), UInt8.ofNat (r * 64 + 0)] := by
      rw [← threeOf_eq hp hq hr, ← hzero, ← (letter_spec hp).1, ← (letter_spec hq).1, ← (letter_spec hr).1]
      rfl
    refine (appends_appendAll _).of_fun fun ret => ?_
    simp only [List.map_cons, List.map_nil, List.cons_append]
    rw [decodeLoop_letter hp (by simp), decodeLoop_letter hq (by simp), decodeLoop_letter hr (by simp),
      List.nil_append, decodeLoop_pads]
    change finish ([] ++ [letter p] ++ [letter q] ++ [letter r], ret) = _
    rw [finish, hthree]
    rfl
  | two p q =>
    simp only [List.mem_cons, List.not_mem_nil, or_false, forall_eq_or_imp, forall_eq] at hns
    obtain ⟨hp, hq⟩ := hns
    have hthree : threeOfChars ([] ++ [letter p] ++ [letter q]) =
        [UInt8.ofNat (p * 4 + q / 16), UInt8.ofNat (q * 16 + 0 / 4), UInt8.ofNat (0 * 64 + 0)] := by
      rw [← threeOf_eq hp hq (by decide), ← hzero, ← (letter_spec hp).1, ← (letter_spec hq).1]
      rfl
    refine (appends_appendAll _).of_fun fun ret => ?_
    simp only [List.map_cons, List.map_nil, List.cons_append]
    rw [decodeLoop_letter hp (by simp), decodeLoop_letter hq (by simp), List.nil_append, decodeLoop_pads]
    change finish ([] ++ [letter p] ++ [letter q], ret) = _
    rw [finish, hthree]
    rfl
  | nil =>
    refine appends_nil.of_fun fun ret => ?_
    rw [List.map_nil, List.nil_append, decodeLoop_pads]
    rfl
  | one p =>
    have hp : p < 64 := hns p List.mem_cons_self
    refine appends_nil.of_fun fun ret => ?_
    simp only [List.map_cons, List.map_nil, List.cons_append]
    rw [decodeLoop_letter hp (by simp), List.nil_append, decodeLoop_pads]
    rfl

/-- No more bytes come out than characters went in. -/
theorem decodeLoop_size {group' : List UInt8} (he : decodeLoop text group ret = .ok (group', ret')) :
    ret'.size + group'.length ≤ ret.size + group.length + text.length := by
  induction text generalizing group ret with
  | nil =>
    cases he
    exact Nat.le_refl _
  | cons c text ih =>
    rw [List.length_cons]
    rw [decodeLoop] at he
    split at he
    next =>
      split at he
      next =>
        have hle := ih he
        omega
      next =>
        split at he
        next hfour =>
          obtain ⟨ret₁, hextend, he⟩ := bind_ok he
          have hsize : ret₁.size ≤ ret.size + 3 := size_extend_le hextend
          have hle := ih he
          rw [List.length_nil] at hle
          omega
        next =>
          have hle := ih he
          rw [List.length_append, List.length_singleton] at hle
          omega
    next =>
      cases he
      omega

theorem appendAll_size {cs : List UInt8} (he : appendAll cs ret = .ok ret') : ret'.size = ret.size + cs.length := by
  induction cs generalizing ret with
  | nil =>
    cases he
    rfl
  | cons c cs ih =>
    obtain ⟨ret₁, happend, he⟩ := bind_ok he
    rw [ih he, size_append happend, List.length_cons]
    omega

theorem decode_length (he : decode text = .ok y) : y.length ≤ intSize text.length := by
  obtain ⟨ratio, -, he⟩ := bind_ok he
  obtain ⟨⟨group, ret⟩, hloop, he⟩ := bind_ok he
  obtain ⟨ret', hfinish, he⟩ := bind_ok he
  cases he
  have hle := decodeLoop_size hloop
  have hcount : (text.take (intSize text.length)).length ≤ intSize text.length := List.length_take_le _ _
  have hempty : (ManagedBuffer.init (ratio + 4)).size = 0 := rfl
  have hdata : ret'.data.length ≤ ret'.size := List.length_take_le _ _
  rw [List.length_nil] at hle
  rw [finish] at hfinish
  split at hfinish
  next =>
    have hsize := appendAll_size hfinish
    rw [List.length_take] at hsize
    omega
  next =>
    cases hfinish
    omega

/-- How long an encoding is, with its line breaks. Without a length for the lines there are none. -/
def textLength (size lineLength : Nat) : Nat := (size + 2) / 3 * 4 + 2 * ((size + 2) / 3 * 4 / lineLength)

theorem length_broken (lineLength : Nat) (cs : List UInt8) (m : Nat) (h : m + cs.length + 1 < 2 ^ 32) :
    (broken lineLength cs (m + 1)).length + 2 * (m / lineLength) =
      cs.length + 2 * ((m + cs.length) / lineLength) := by
  induction cs generalizing m with
  | nil => rfl
  | cons c cs ih =>
    rw [List.length_cons] at h ⊢
    have hnext : uint (m + 1 + 1) = m + 1 + 1 := Nat.mod_eq_of_lt (by omega)
    have hih := ih (m + 1) (by omega)
    have hsum : m + (cs.length + 1) = m + 1 + cs.length := by omega
    have hdiv : (m + 1) / lineLength = m / lineLength + if lineLength ∣ m + 1 then 1 else 0 := Nat.succ_div
    have hlen : (if lineLength > 0 ∧ (m + 1) % lineLength = 0 then eol else []).length =
        2 * (if lineLength ∣ m + 1 then 1 else 0) := by
      by_cases hends : lineLength ∣ m + 1
      · have hpos : lineLength > 0 := Nat.pos_of_dvd_of_pos hends (Nat.succ_pos m)
        rw [if_pos ⟨hpos, Nat.mod_eq_zero_of_dvd hends⟩, if_pos hends]
        rfl
      · rw [if_neg fun h => hends (Nat.dvd_of_mod_eq_zero h.2), if_neg hends]
        rfl
    rw [broken, List.length_cons, List.length_append, hlen, hnext, hsum]
    rw [hdiv] at hih
    omega

theorem length_letters (x : List UInt8) : (letters x).length = (x.length + 2) / 3 * 4 := by
  rw [letters, List.length_append, List.length_map, List.length_replicate, length_groups]
  omega

theorem length_text (lineLength : Nat) (hx : x.length < 2 ^ 31) :
    (broken lineLength (letters x) 1).length = textLength x.length lineLength := by
  have hlen := length_letters x
  have hbroken := length_broken lineLength (letters x) 0 (by omega)
  rw [Nat.zero_div, Nat.zero_add, Nat.mul_zero, Nat.add_zero, Nat.zero_add, hlen] at hbroken
  exact hbroken

/-- What `encode` makes of a string that is not empty and not too long to be looped over. -/
theorem encode_spec (lineLength : Nat) (hx : x ≠ []) (hlt : x.length < 2 ^ 31) :
    (textLength x.length lineLength ≤ 2 ^ 31 → encode x lineLength = .ok (broken lineLength (letters x) 1)) ∧
      ∀ text, encode x lineLength = .ok text → text = broken lineLength (letters x) 1 ∧ text.length < 2 ^ 32 := by
  have hpos := List.length_pos_of_ne_nil hx
  have hratio : divide (x.length * 4) x.length = .ok 4 := by
    rw [divide, if_neg (Nat.ne_of_gt hpos), Nat.mul_div_cancel_left 4 hpos]
  obtain ⟨lines, hlines, hle⟩ : ∃ lines,
      (if lineLength > 0 then divide (4 / 3) lineLength else .ok 0) = .ok lines ∧ lines ≤ 1 := by
    by_cases hsplit : lineLength > 0
    · refine ⟨4 / 3 / lineLength, ?_, Nat.div_le_self _ _⟩
      rw [if_pos hsplit, divide, if_neg (Nat.ne_of_gt hsplit)]
    · exact ⟨0, if_neg hsplit, Nat.zero_le 1⟩
  have hloop := (appends_encode lineLength x 1).of_init (4 / 3 + 4 + lines) (by omega)
  have hencode : encode x lineLength =
      encodeLoop lineLength x 1 (.init (4 / 3 + 4 + lines)) >>= fun ret => .ok ret.data := by
    rw [encode, hratio, take_intSize hlt]
    change (if lineLength > 0 then divide (4 / 3) lineLength else .ok 0) >>= _ = _
    rw [hlines]
    rfl
  rw [length_text lineLength hlt] at hloop
  rw [hencode]
  constructor
  · intro hlen
    obtain ⟨b, he, hdata⟩ := hloop.1 hlen
    rw [he, ← hdata]
    rfl
  · intro text he
    obtain ⟨b, hb, hend⟩ := bind_ok he
    cases hend
    obtain ⟨hdata, hsmall⟩ := hloop.2 b hb
    rw [hdata, length_text lineLength hlt]
    exact ⟨rfl, hsmall⟩

theorem decode_broken (hx : x ≠ []) (h : textLength x.length lineLength < 2 ^ 31) :
    decode (broken lineLength (letters x) 1) = .ok x := by
  have hpos := List.length_pos_of_ne_nil hx
  have hlen := length_text lineLength (x := x) (by rw [textLength] at h; omega)
  have hfour : 4 ≤ textLength x.length lineLength := by
    rw [textLength]
    omega
  have hdecode := appends_decode lineLength (groups_lt x) ((3 - x.length % 3) % 3) 1
  rw [bytes_groups] at hdecode
  generalize hsize : textLength x.length lineLength = size at h hlen hfour
  have hratio : divide (size * 3) (size / 4) = .ok (size * 3 / (size / 4)) := if_neg (by omega)
  have hcap : size * 3 / (size / 4) ≤ 24 := Nat.div_le_of_le_mul (by omega)
  obtain ⟨b, he, hdata⟩ := (hdecode.of_init (size * 3 / (size / 4) + 4) (by omega)).1 (by
    rw [textLength] at hsize
    omega)
  obtain ⟨state, hloop, hfinish⟩ := bind_ok he
  rw [decode, take_intSize (by rwa [hlen]), hlen, hratio]
  change (decodeLoop (broken lineLength (letters x) 1) [] (.init (size * 3 / (size / 4) + 4)) >>= _) = _
  rw [letters, hloop]
  change (finish state >>= fun result => pure result.data) = .ok x
  rw [hfinish, ← hdata]
  rfl

/-- A string comes back exactly when it is not empty and the text is shorter than 2 ^ 31. -/
theorem decode_encode_iff (x : List UInt8) (lineLength : Nat) :
    (∃ text, encode x lineLength = .ok text ∧ decode text = .ok x) ↔
      0 < x.length ∧ textLength x.length lineLength < 2 ^ 31 := by
  constructor
  · rintro ⟨text, hencode, hdecode⟩
    have hx : x ≠ [] := by
      rintro rfl
      cases hencode
    have hpos := List.length_pos_of_ne_nil hx
    have hle := decode_length hdecode
    have hlt : x.length < 2 ^ 31 := Nat.lt_of_le_of_lt hle (intSize_lt _)
    obtain ⟨htext, hsmall⟩ := (encode_spec lineLength hx hlt).2 text hencode
    refine ⟨hpos, ?_⟩
    by_contra hge
    -- the size of the text is below zero as an int
    have hlarge : 2 ^ 31 ≤ text.length := by
      rw [htext, length_text lineLength hlt]
      exact Nat.le_of_not_lt hge
    rw [intSize_of_ge hlarge hsmall] at hle
    omega
  · rintro ⟨hpos, h⟩
    have hx := List.ne_nil_of_length_pos hpos
    have hlt : x.length < 2 ^ 31 := by
      rw [textLength] at h
      omega
    exact ⟨_, (encode_spec lineLength hx hlt).1 (Nat.le_of_lt h), decode_broken hx h⟩

/-- The size of an empty string is divided by. -/
theorem encode_empty (lineLength : Nat) : encode [] lineLength = .error .abort := rfl

theorem empty_not_kept : ¬ ∃ text, encode [] 0 = .ok text ∧ decode text = .ok [] := by
  rintro ⟨text, hencode, -⟩
  rw [encode_empty] at hencode
  cases hencode

end Base64

end Crack
