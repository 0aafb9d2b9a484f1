import Crack.Enc.Json2Values

/-!
# String literals

Every string literal that the parser accepts, with any escapes, and the code points that it denotes. Two surrogates
next to each other denote one code point; a surrogate by itself denotes itself, and no encoding of it is legal.
-/
namespace Crack

namespace Json2

open Effect Input

/-- The characters in UTF-8. -/
def utf8 (chars : List Char) : List UInt8 := chars.flatMap String.utf8EncodeChar

/-- The character for the letter of an escape, other than `u`. -/
def escaped (c : Char) : Char :=
  if c = 'b' then Char.ofNat 8 else if c = 'f' then Char.ofNat 12 else if c = 'n' then Char.ofNat 10
  else if c = 'r' then Char.ofNat 13 else if c = 't' then Char.ofNat 9 else c

/-- Something in a literal, as it is written. -/
inductive Part where
  | raw (c : Char) (h : c ≠ '"' ∧ c ≠ '\\')
  | escape (c : Char) (h : c ≠ 'u')
  | unit (u : CodeUnit)

namespace Part

def text : Part → List UInt8
  | .raw c _ => String.utf8EncodeChar c
  | .escape c _ => 92 :: String.utf8EncodeChar c
  | .unit u => u.text

/-- What the parser makes of it. -/
def parsed : Part → List UInt8
  | .raw c _ => String.utf8EncodeChar c
  | .escape c _ => String.utf8EncodeChar (escaped c)
  | .unit u => utf8Char u.value

def value : Part → Nat
  | .raw c _ => c.toNat
  | .escape c _ => (escaped c).toNat
  | .unit u => u.value

/-- The character that it stands for by itself. -/
def char : Part → Char
  | .raw c _ => c
  | .escape c _ => escaped c
  | .unit u => Char.ofNat u.value

end Part

abbrev Literal := List Part

/-- The code point for two surrogates -/
def combined (hi lo : CodeUnit) : Nat := 0x10000 + (hi.value - 0xd800) * 0x400 + (lo.value - 0xdc00)

namespace Literal

def text (s : Literal) : List UInt8 := 34 :: (s.flatMap Part.text ++ [34])

def parsed (s : Literal) : List UInt8 := s.flatMap Part.parsed

/-- The code points that the literal denotes. -/
def points : Literal → List Nat
  | [] => []
  | .unit hi :: .unit lo :: s =>
    if hi.High ∧ lo.Low then combined hi lo :: points s else hi.value :: points (.unit lo :: s)
  | p :: s => p.value :: points s

/-- How many of the code points are written as two surrogates. -/
def pairs : Literal → Nat
  | [] => 0
  | .unit hi :: .unit lo :: s => if hi.High ∧ lo.Low then pairs s + 1 else pairs (.unit lo :: s)
  | _ :: s => pairs s

/-- No `\u` sequence is a surrogate. -/
def Scalar (s : Literal) : Prop := ∀ u, .unit u ∈ s → ¬u.High ∧ ¬u.Low

end Literal

/-- The bytes are the encoding of the code points, none of which is a surrogate. -/
def Legal (points : List Nat) (bytes : List UInt8) : Prop :=
  ∃ chars : List Char, chars.map Char.toNat = points ∧ utf8 chars = bytes

section

variable {s : Literal} {points : List Nat} {bytes : List UInt8} {n : Nat}

theorem utf8Char_toNat (c : Char) : utf8Char c.toNat = String.utf8EncodeChar c := utf8Char_eq c

theorem Legal.bytes_eq (h : Legal points bytes) : bytes = points.flatMap utf8Char := by
  obtain ⟨chars, rfl, rfl⟩ := h
  rw [List.flatMap_map, utf8]
  exact List.flatMap_congr fun c _ => (utf8Char_toNat c).symm

theorem Legal.scalar (h : Legal points bytes) (hn : n ∈ points) : ¬(0xd800 ≤ n ∧ n < 0xe000) := by
  obtain ⟨chars, rfl, -⟩ := h
  obtain ⟨c, -, rfl⟩ := List.mem_map.mp hn
  have hvalid : c.toNat.isValidChar := c.valid
  rw [Nat.isValidChar] at hvalid
  omega

theorem length_utf8Char_three (h₁ : 0x7ff < n) (h₂ : n ≤ 0xffff) : (utf8Char n).length = 3 := by
  rw [utf8Char, if_neg (by omega), if_neg (by omega), if_pos h₂]
  rfl

theorem length_utf8Char_four (h : 0xffff < n) : (utf8Char n).length = 4 := by
  have h₁ : ¬n ≤ 0x7f := by omega
  have h₂ : ¬n ≤ 0x7ff := by omega
  rw [utf8Char, if_neg h₁, if_neg h₂, if_neg (Nat.not_le_of_lt h)]
  simp

theorem lt_combined (hi lo : CodeUnit) : 0xffff < combined hi lo := by
  unfold combined
  omega

theorem length_utf8Char_combined {hi lo : CodeUnit} (hhi : hi.High) (hlo : lo.Low) :
    (utf8Char hi.value).length + (utf8Char lo.value).length = (utf8Char (combined hi lo)).length + 2 := by
  obtain ⟨hhi₁, hhi₂⟩ := hhi
  obtain ⟨hlo₁, hlo₂⟩ := hlo
  rw [length_utf8Char_three (by omega) (by omega), length_utf8Char_three (by omega) (by omega),
    length_utf8Char_four (lt_combined hi lo)]

/-- The parser makes of each part what it denotes by itself. -/
theorem Part.parsed_eq (p : Part) : p.parsed = utf8Char p.value := by
  cases p with
  | raw c hc => exact (utf8Char_toNat c).symm
  | escape c hc => exact (utf8Char_toNat (escaped c)).symm
  | unit u => rfl

/-- Two bytes too many are delivered for each pair. -/
theorem Literal.length_parsed (s : Literal) :
    s.parsed.length = (s.points.flatMap utf8Char).length + 2 * s.pairs := by
  induction s using Literal.points.induct with
  | case1 => rfl
  | case2 hi lo s h ih =>
    have hlen := length_utf8Char_combined h.1 h.2
    rw [points, pairs, if_pos h, if_pos h, List.flatMap_cons, List.length_append, Nat.mul_succ]
    rw [parsed] at ih ⊢
    rw [List.flatMap_cons, List.flatMap_cons, List.length_append, List.length_append, ih, Part.parsed_eq,
      Part.parsed_eq]
    change (utf8Char hi.value).length + ((utf8Char lo.value).length + _) = _
    omega
  | case3 hi lo s h ih =>
    rw [points, pairs, if_neg h, if_neg h, List.flatMap_cons, List.length_append]
    rw [parsed] at ih ⊢
    rw [List.flatMap_cons, List.length_append, ih, Part.parsed_eq, Nat.add_assoc]
    rfl
  | case4 p s h ih =>
    rw [points, pairs, List.flatMap_cons, List.length_append]
    rw [parsed] at ih ⊢
    rw [List.flatMap_cons, List.length_append, ih, Part.parsed_eq, Nat.add_assoc]
    all_goals exact h

/-- Without pairs everything denotes what it is by itself. -/
theorem Literal.points_eq {s : Literal} (h : s.pairs = 0) : s.points = s.map Part.value := by
  induction s using Literal.points.induct with
  | case1 => rfl
  | case2 hi lo s hsurrogates ih =>
    rw [Literal.pairs, if_pos hsurrogates] at h
    exact absurd h (Nat.succ_ne_zero _)
  | case3 hi lo s hsurrogates ih =>
    rw [Literal.pairs, if_neg hsurrogates] at h
    rw [points, if_neg hsurrogates, ih h]
    rfl
  | case4 p s hp ih =>
    rw [Literal.pairs] at h
    · rw [points, ih h]
      · rfl
      · exact hp
    · exact hp

theorem Part.char_toNat {p : Part} (h : ∀ u, p = .unit u → ¬u.High ∧ ¬u.Low) : p.char.toNat = p.value := by
  cases p with
  | raw c hc => rfl
  | escape c hc => rfl
  | unit u => exact toNat_ofNat (CodeUnit.valid (h u rfl))

theorem Literal.Scalar.pairs {s : Literal} (h : s.Scalar) : s.pairs = 0 := by
  induction s using Literal.points.induct with
  | case1 => rfl
  | case2 hi lo s hsurrogates ih => exact absurd hsurrogates.1 (h hi List.mem_cons_self).1
  | case3 hi lo s hsurrogates ih =>
    rw [Literal.pairs, if_neg hsurrogates]
    exact ih fun u hu => h u (List.mem_cons_of_mem _ hu)
  | case4 p s hp ih =>
    rw [Literal.pairs]
    · exact ih fun u hu => h u (List.mem_cons_of_mem _ hu)
    · exact hp

theorem legal_iff (s : Literal) : Legal s.points s.parsed ↔ s.Scalar := by
  constructor
  · intro h u hu
    have hlen := s.length_parsed
    rw [h.bytes_eq] at hlen
    have hpairs : s.pairs = 0 := by omega
    have hmem : u.value ∈ s.points := by
      rw [Literal.points_eq hpairs]
      exact List.mem_map_of_mem hu
    have hscalar := h.scalar hmem
    rw [CodeUnit.High, CodeUnit.Low]
    omega
  · intro h
    have hchar : ∀ p ∈ s, p.char.toNat = p.value := fun p hp =>
      Part.char_toNat fun u hu => h u (hu ▸ hp)
    refine ⟨s.map Part.char, ?_, ?_⟩
    · rw [Literal.points_eq h.pairs, List.map_map]
      exact List.map_congr_left hchar
    · rw [utf8, List.flatMap_map]
      refine List.flatMap_congr fun p hp => ?_
      rw [p.parsed_eq, ← hchar p hp]
      exact (utf8Char_toNat p.char).symm

end

section

variable {F : Type} {t t' : Text F} {l : List UInt8} {cs : List (Call F)} {k : Nat} {result : List UInt8}

/-- A triple for runs that end without an error. -/
def Returns {α : Type} (m : Effect Failure (Text F) α) (t : Text F) (Q : α → Text F → Prop) : Prop :=
  Runs m t Q fun _ _ => True

theorem returns_need (h : At l cs t) : Returns (need k) t fun _ t' => k ≤ l.length ∧ At l cs t' ∧ k ≤ t'.seen := by
  by_cases hk : k ≤ l.length
  · exact (gives_need h hk).mono (fun _ t' hat => ⟨hk, hat⟩) (fun _ _ he => he.elim)
  · have hleft : ¬k ≤ t.left.length := h.left ▸ hk
    exact .of_error ((need_text k t).trans (if_neg hleft)) trivial

theorem returns_getch (h : At l cs t) : Returns getch t fun ch t' => ∃ l', l = ch :: l' ∧ At l' cs t' := by
  refine (returns_need h).bind fun _ t₁ ⟨hlen, h₁, hseen⟩ => ?_
  obtain ⟨c, l, rfl⟩ := List.exists_cons_of_length_pos hlen
  refine Runs.bind (Q := fun ch t' => t' = t₁ ∧ ch = c) ?_ fun ch t₂ ⟨ht, hch⟩ => ?_
  · exact (gives_head h₁ hseen).mono (fun _ _ hat => hat) (fun _ _ he => he.elim)
  subst ht hch
  refine Runs.bind (Q := fun _ t' => At l cs t') ?_ fun _ t₃ h₃ => ?_
  · exact (gives_skip h₁ hseen).mono (fun _ _ hat => hat) (fun _ _ he => he.elim)
  exact .pure ⟨l, rfl, h₃⟩

theorem hexDec_ok {b : UInt8} {n : Nat} (h : hexDec b = .ok n) : ∃ d : Hex, d.byte = b ∧ d.value.val = n := by
  have hbyte {m : Nat} (hm : m = b.toNat) : UInt8.ofNat m = b := by
    rw [hm]
    exact UInt8.ofNat_toNat
  rw [hexDec] at h
  simp only [UInt8.le_iff_toNat_le] at h
  split at h
  next hdigit =>
    cases h
    have hlow : 48 ≤ b.toNat := hdigit.1
    have hhigh : b.toNat ≤ 57 := hdigit.2
    refine ⟨⟨⟨b.toNat - 48, by omega⟩, false⟩, ?_, rfl⟩
    rw [Hex.byte, if_pos (show b.toNat - 48 < 10 by omega)]
    exact hbyte (Nat.add_sub_of_le hlow)
  next =>
    split at h
    next hletter =>
      cases h
      have hlow : 97 ≤ b.toNat := hletter.1
      have hhigh : b.toNat ≤ 102 := hletter.2
      refine ⟨⟨⟨b.toNat - 97 + 10, by omega⟩, false⟩, ?_, rfl⟩
      rw [Hex.byte, if_neg (show ¬b.toNat - 97 + 10 < 10 by omega)]
      exact hbyte (by simp; omega)
    next =>
      split at h
      next hletter =>
        cases h
        have hlow : 65 ≤ b.toNat := hletter.1
        have hhigh : b.toNat ≤ 70 := hletter.2
        refine ⟨⟨⟨b.toNat - 65 + 10, by omega⟩, true⟩, ?_, rfl⟩
        rw [Hex.byte, if_neg (show ¬b.toNat - 65 + 10 < 10 by omega)]
        exact hbyte (by simp; omega)
      next => cases h

theorem returns_hexDigit {i : Nat} {b : UInt8} (h : i < t.seen) (hb : t.left.getD i 0 = b) :
    Returns (hexDigit i) t fun n t' => t' = t ∧ ∃ d : Hex, d.byte = b ∧ d.value.val = n := by
  refine (runs_hexDigit h).mono (fun n t' ⟨ht, hdec⟩ => ⟨ht, ?_⟩) (fun _ _ _ => trivial)
  rw [hb] at hdec
  exact hexDec_ok hdec

theorem returns_uchar {a b c d : UInt8} (h : At (a :: b :: c :: d :: l) cs t) (hseen : 4 ≤ t.seen) :
    Returns uchar t fun n t' => t' = t ∧ ∃ u : CodeUnit, u.text = [92, 117, a, b, c, d] ∧ n = u.value := by
  refine (returns_hexDigit (b := a) (by omega) (by rw [h.left]; rfl)).bind fun n₁ t₁ ⟨ht, d₁, hd₁, hn₁⟩ => ?_
  subst ht hd₁ hn₁
  refine (returns_hexDigit (b := b) (by omega) (by rw [h.left]; rfl)).bind fun n₂ t₁ ⟨ht, d₂, hd₂, hn₂⟩ => ?_
  subst ht hd₂ hn₂
  refine (returns_hexDigit (b := c) (by omega) (by rw [h.left]; rfl)).bind fun n₃ t₁ ⟨ht, d₃, hd₃, hn₃⟩ => ?_
  subst ht hd₃ hn₃
  refine (returns_hexDigit (b := d) (by omega) (by rw [h.left]; rfl)).bind fun n₄ t₁ ⟨ht, d₄, hd₄, hn₄⟩ => ?_
  subst ht hd₄ hn₄
  exact .pure ⟨rfl, ⟨d₁, d₂, d₃, d₄⟩, rfl, CodeUnit.value_eq ⟨d₁, d₂, d₃, d₄⟩⟩

theorem exists_four {l : List UInt8} (h : 4 ≤ l.length) : ∃ a b c d l', l = a :: b :: c :: d :: l' := by
  obtain ⟨a, l, rfl⟩ := List.exists_cons_of_length_pos (Nat.lt_of_lt_of_le (by decide) h)
  obtain ⟨b, l, rfl⟩ := List.exists_cons_of_length_pos (Nat.lt_of_lt_of_le (by decide) (Nat.le_of_succ_le_succ h))
  obtain ⟨c, l, rfl⟩ := List.exists_cons_of_length_pos (l := l) (by simp only [List.length_cons] at h; omega)
  obtain ⟨d, l, rfl⟩ := List.exists_cons_of_length_pos (l := l) (by simp only [List.length_cons] at h; omega)
  exact ⟨a, b, c, d, l, rfl⟩

theorem returns_append {ch : UInt8} : Returns (append result ch) t fun r t' => r = result ++ [ch] ∧ t' = t := by
  rw [append]
  split
  · exact .pure ⟨rfl, rfl⟩
  · exact .throw trivial

theorem returns_appendUTF8Char {char : Nat} :
    Returns (appendUTF8Char result char) t fun r t' => r = result ++ utf8Char char ∧ t' = t := by
  rw [appendUTF8Char]
  generalize utf8Char char = bytes
  induction bytes generalizing result with
  | nil => exact .pure ⟨(List.append_nil result).symm, rfl⟩
  | cons ch bytes ih =>
    refine (returns_append).bind fun r t₁ hr => ?_
    obtain ⟨rfl, rfl⟩ := hr
    rw [List.append_cons result ch bytes]
    exact ih

/-- What is read up to the quote are tokens, and nothing is called. -/
theorem returns_stringLoop (fuel : Nat) (result : List UInt8) (h : At l cs t) :
    Returns (stringLoop fuel result) t fun r t' => ∃ ts : List Token, (∀ k ∈ ts, k.Fits) ∧
      l = ts.flatMap Token.text ++ 34 :: t'.left ∧ r = result ++ ts.flatMap Token.parsed ∧ calls t'.log = cs := by
  induction fuel generalizing t l result with
  | zero => exact .throw trivial
  | succ fuel ih =>
    have hmore (k : Token) (hk : k.Fits) {t₁ : Text F} {l₁ : List UInt8} (hl : l = k.text ++ l₁) (h₁ : At l₁ cs t₁) :
        Returns (stringLoop fuel (result ++ k.parsed)) t₁ fun r t' => ∃ ts : List Token, (∀ k ∈ ts, k.Fits) ∧
          l = ts.flatMap Token.text ++ 34 :: t'.left ∧ r = result ++ ts.flatMap Token.parsed ∧ calls t'.log = cs := by
      refine (ih _ h₁).mono (fun r t' hread => ?_) (fun _ _ he => he)
      obtain ⟨ts, hts, hl', hr, hcalls⟩ := hread
      refine ⟨k :: ts, List.forall_mem_cons.mpr ⟨hk, hts⟩, ?_, ?_, hcalls⟩
      · rw [hl, hl', List.flatMap_cons, List.append_assoc]
      · rw [hr, List.flatMap_cons, List.append_assoc]
    rw [stringLoop]
    refine (returns_getch h).bind fun ch t₁ hch => ?_
    obtain ⟨l₁, hl₁, h₁⟩ := hch
    split
    next hquote =>
      refine .pure ⟨[], List.forall_mem_nil _, ?_, (List.append_nil _).symm, h₁.calls⟩
      rw [hl₁, hquote, h₁.left]
      rfl
    next hquote =>
      split
      next hslash =>
        refine (returns_getch h₁).bind fun e t₂ he => ?_
        obtain ⟨l₂, hl₂, h₂⟩ := he
        split
        next hu =>
          refine (returns_need h₂).bind fun _ t₃ hneed => ?_
          obtain ⟨hlen, h₃, hseen₃⟩ := hneed
          obtain ⟨a, b, c, d, l₃, rfl⟩ := exists_four hlen
          refine (returns_uchar h₃ hseen₃).bind fun n t₄ hunit => ?_
          obtain ⟨ht, u, htext, hn⟩ := hunit
          subst ht
          refine Runs.bind (Q := fun _ t' => At l₃ cs t') ?_ fun _ t₅ h₅ => ?_
          · exact (gives_skip h₃ hseen₃).mono (fun _ _ hat => hat) (fun _ _ he => he.elim)
          refine (returns_appendUTF8Char).bind fun r t₆ hr => ?_
          obtain ⟨hr, ht⟩ := hr
          subst hr ht hn
          refine hmore (.unit u) trivial ?_ h₅
          rw [hl₁, hl₂, hslash, hu, Token.text, htext]
          rfl
        next hu =>
          refine (returns_append).bind fun r t₃ hr => ?_
          obtain ⟨hr, ht⟩ := hr
          subst hr ht
          refine hmore (.escape e) hu ?_ h₂
          rw [hl₁, hl₂, hslash]
          rfl
      next hslash =>
        refine (returns_append).bind fun r t₂ hr => ?_
        obtain ⟨hr, ht⟩ := hr
        subst hr ht
        refine hmore (.raw ch) ⟨hquote, hslash⟩ ?_ h₁
        rw [hl₁]
        rfl

end

/-- A character below 128 is one byte; the bytes of any other one are 128 or more. -/
theorem encode_cons (c : Char) : ∃ b bs, String.utf8EncodeChar c = b :: bs ∧ (∀ x ∈ bs, 128 ≤ x.toNat) ∧
    (b.toNat < 128 → bs = [] ∧ c.toNat = b.toNat) := by
  have hhigh (n : Nat) (h₁ : 128 ≤ n) (h₂ : n < 256) : 128 ≤ (UInt8.ofNat n).toNat := by
    rw [UInt8.toNat_ofNat', Nat.mod_eq_of_lt h₂]
    exact h₁
  change ∃ b bs, String.utf8EncodeChar c = b :: bs ∧ _ ∧ (_ → _ ∧ c.val.toNat = b.toNat)
  rw [String.utf8EncodeChar]
  generalize c.val.toNat = v
  split
  next hlow =>
    refine ⟨_, _, rfl, List.forall_mem_nil _, fun _ => ⟨rfl, ?_⟩⟩
    rw [UInt8.toNat_ofNat', Nat.mod_eq_of_lt (by omega)]
  next =>
    split
    · refine ⟨_, _, rfl, ?_, fun hlt => absurd hlt (Nat.not_lt_of_le (hhigh _ (by omega) (by omega)))⟩
      intro x hx
      cases List.mem_singleton.mp hx
      exact hhigh _ (by omega) (by omega)
    · split
      · refine ⟨_, _, rfl, ?_, fun hlt => absurd hlt (Nat.not_lt_of_le (hhigh _ (by omega) (by omega)))⟩
        intro x hx
        simp only [List.mem_cons, List.not_mem_nil, or_false] at hx
        rcases hx with rfl | rfl
        · exact hhigh _ (by omega) (by omega)
        · exact hhigh _ (by omega) (by omega)
      · refine ⟨_, _, rfl, ?_, fun hlt => absurd hlt (Nat.not_lt_of_le (hhigh _ (by omega) (by omega)))⟩
        intro x hx
        simp only [List.mem_cons, List.not_mem_nil, or_false] at hx
        rcases hx with rfl | rfl | rfl
        · exact hhigh _ (by omega) (by omega)
        · exact hhigh _ (by omega) (by omega)
        · exact hhigh _ (by omega) (by omega)

section

variable {ts : List Token} {chars : List Char} {bytes rest bs : List UInt8} {b : UInt8} {c : Char}

/-- The first byte of a text belongs to its first character. -/
theorem utf8_cons (h : b :: rest = utf8 chars) :
    ∃ c chars' bs, chars = c :: chars' ∧ rest = bs ++ utf8 chars' ∧ String.utf8EncodeChar c = b :: bs ∧
      (∀ x ∈ bs, 128 ≤ x.toNat) ∧ (b.toNat < 128 → bs = [] ∧ c.toNat = b.toNat) := by
  cases chars with
  | nil => cases h
  | cons c chars =>
    obtain ⟨b', bs, hbytes, hbs, hone⟩ := encode_cons c
    rw [utf8, List.flatMap_cons, hbytes] at h
    cases h
    exact ⟨c, chars, bs, rfl, rfl, hbytes, hbs, hone⟩

/-- Bytes below 128 are characters. -/
theorem utf8_append (hbytes : ∀ x ∈ bytes, x.toNat < 128) (h : bytes ++ rest = utf8 chars) :
    ∃ chars', rest = utf8 chars' := by
  induction bytes generalizing chars with
  | nil => exact ⟨chars, h⟩
  | cons b bytes ih =>
    obtain ⟨hb, hbytes'⟩ := List.forall_mem_cons.mp hbytes
    obtain ⟨c, chars', bs, rfl, hrest, -, -, hone⟩ := utf8_cons h
    rw [(hone hb).1] at hrest
    exact ih hbytes' hrest

/-- Bytes from 128 on are tokens of their own. -/
theorem tokens_split (hbs : ∀ x ∈ bs, 128 ≤ x.toNat) (h : ts.flatMap Token.text ++ [34] = bs ++ rest) :
    ∃ ts', ts = bs.map Token.raw ++ ts' ∧ ts'.flatMap Token.text ++ [34] = rest := by
  induction bs generalizing ts with
  | nil => exact ⟨ts, rfl, h⟩
  | cons b bs ih =>
    obtain ⟨hb, hbs'⟩ := List.forall_mem_cons.mp hbs
    cases ts with
    | nil =>
      obtain ⟨hb', -⟩ := List.cons.inj h
      rw [← hb'] at hb
      exact absurd hb (by decide)
    | cons k ts =>
      cases k with
      | raw b' =>
        obtain ⟨hb', htext⟩ := List.cons.inj h
        obtain ⟨ts', rfl, hrest⟩ := ih hbs' htext
        exact ⟨ts', by rw [hb']; rfl, hrest⟩
      | escape e =>
        obtain ⟨hb', -⟩ := List.cons.inj h
        rw [← hb'] at hb
        exact absurd hb (by decide)
      | unit u =>
        obtain ⟨hb', -⟩ := List.cons.inj h
        rw [← hb'] at hb
        exact absurd hb (by decide)

theorem Hex.byte_lt (d : Hex) : d.byte.toNat < 128 := by
  obtain ⟨value, upper⟩ := d
  revert value upper
  decide

theorem CodeUnit.text_lt (u : CodeUnit) : ∀ x ∈ u.text, x.toNat < 128 := by
  simp [CodeUnit.text, Hex.byte_lt]

/-- The letter of an escape, as a character and as a byte. -/
theorem letter_iff {c' : Char} {b' : UInt8} (h : String.utf8EncodeChar c = b :: bs)
    (hone : b.toNat < 128 → bs = [] ∧ c.toNat = b.toNat) (hlt : b'.toNat < 128) (hc' : c'.toNat = b'.toNat)
    (hencode : String.utf8EncodeChar c' = [b']) : c = c' ↔ b = b' := by
  constructor
  · rintro rfl
    rw [hencode] at h
    exact (List.cons.inj h).1.symm
  · rintro rfl
    exact Char.toNat_inj.mp ((hone hlt).2.trans hc'.symm)

/-- An escape of a character, by its first byte. -/
theorem encode_escaped (h : String.utf8EncodeChar c = b :: bs) (hone : b.toNat < 128 → bs = [] ∧ c.toNat = b.toNat) :
    String.utf8EncodeChar (escaped c) = unescape b :: bs := by
  have hplain {c' : Char} {b' : UInt8} (hb : b.toNat < 128) (hencode : String.utf8EncodeChar c' = [b']) :
      String.utf8EncodeChar c' = b' :: bs := by
    rw [hencode, (hone hb).1]
  have h₁ : c = 'b' ↔ b = 98 := letter_iff h hone (by decide) rfl (by decide)
  have h₂ : c = 'f' ↔ b = 102 := letter_iff h hone (by decide) rfl (by decide)
  have h₃ : c = 'n' ↔ b = 110 := letter_iff h hone (by decide) rfl (by decide)
  have h₄ : c = 'r' ↔ b = 114 := letter_iff h hone (by decide) rfl (by decide)
  have h₅ : c = 't' ↔ b = 116 := letter_iff h hone (by decide) rfl (by decide)
  simp only [escaped, unescape, h₁, h₂, h₃, h₄, h₅]
  split
  next hb => exact hplain (hb ▸ by decide) (by decide)
  next =>
    split
    next hb => exact hplain (hb ▸ by decide) (by decide)
    next =>
      split
      next hb => exact hplain (hb ▸ by decide) (by decide)
      next =>
        split
        next hb => exact hplain (hb ▸ by decide) (by decide)
        next =>
          split
          next hb => exact hplain (hb ▸ by decide) (by decide)
          next => exact h

/-- The tokens of a text in UTF-8 are those of a literal. -/
theorem exists_literal (hts : ∀ k ∈ ts, k.Fits) (h : ts.flatMap Token.text ++ [34] = utf8 chars) :
    ∃ s : Literal, s.flatMap Part.text = ts.flatMap Token.text ∧ s.parsed = ts.flatMap Token.parsed := by
  induction hn : ts.length using Nat.strongRecOn generalizing ts chars with
  | ind n ih =>
    cases ts with
    | nil => exact ⟨[], rfl, rfl⟩
    | cons k ts =>
      obtain ⟨hk, hts'⟩ := List.forall_mem_cons.mp hts
      -- the bytes behind the first one of a character are tokens, and the rest is a literal
      have hmore {p : Part} {bs : List UInt8} {chars' : List Char} (hbs : ∀ x ∈ bs, 128 ≤ x.toNat)
          (hrest : ts.flatMap Token.text ++ [34] = bs ++ utf8 chars') (hptext : p.text = k.text ++ bs)
          (hparsed : p.parsed = k.parsed ++ bs) :
          ∃ s : Literal, s.flatMap Part.text = (k :: ts).flatMap Token.text ∧
            s.parsed = (k :: ts).flatMap Token.parsed := by
        obtain ⟨ts', rfl, hrest'⟩ := tokens_split hbs hrest
        rw [List.length_cons, List.length_append] at hn
        obtain ⟨s, hs, hs'⟩ :=
          ih ts'.length (by omega) (fun k hk => hts' k (List.mem_append_right _ hk)) hrest' rfl
        obtain ⟨hraw, hraw'⟩ := flatMap_raw bs
        refine ⟨p :: s, ?_, ?_⟩
        · rw [List.flatMap_cons, List.flatMap_cons, List.flatMap_append, hraw, hs, hptext, List.append_assoc]
        · rw [Literal.parsed] at hs' ⊢
          rw [List.flatMap_cons, List.flatMap_cons, List.flatMap_append, hraw', hs', hparsed, List.append_assoc]
      cases k with
      | raw b =>
        obtain ⟨c, chars', bs, rfl, hrest, hc, hbs, hone⟩ := utf8_cons h
        have hquote : c ≠ '"' := mt (letter_iff hc hone (by decide) rfl (by decide)).mp hk.1
        have hslash : c ≠ '\\' := mt (letter_iff hc hone (by decide) rfl (by decide)).mp hk.2
        exact hmore (p := .raw c ⟨hquote, hslash⟩) hbs hrest hc hc
      | escape e =>
        obtain ⟨slash, chars', bs, rfl, hrest, -, -, hone⟩ := utf8_cons h
        rw [(hone (by decide)).1] at hrest
        obtain ⟨c, chars', bs, rfl, hrest, hc, hbs, hone⟩ := utf8_cons hrest
        have hu : c ≠ 'u' := mt (letter_iff hc hone (by decide) rfl (by decide)).mp hk
        exact hmore (p := .escape c hu) hbs hrest (congrArg (92 :: ·) hc) (encode_escaped hc hone)
      | unit u =>
        rw [List.flatMap_cons, List.append_assoc] at h
        obtain ⟨chars', hrest⟩ := utf8_append u.text_lt h
        exact hmore (p := .unit u) (List.forall_mem_nil _) hrest (List.append_nil _).symm
          (List.append_nil _).symm

end

section

variable {F : Type} {t t' : Text F} {l : List UInt8} {cs : List (Call F)} {s : Literal} {chars : List Char}

theorem plain_of_high {bs : List UInt8} (h : ∀ x ∈ bs, 128 ≤ x.toNat) : ∀ x ∈ bs, x ≠ 34 ∧ x ≠ 92 := by
  intro x hx
  have hge := h x hx
  constructor
  · rintro rfl
    exact absurd hge (by decide)
  · rintro rfl
    exact absurd hge (by decide)

theorem Part.spells (p : Part) : Spells p.text p.parsed := by
  cases p with
  | raw c hc =>
    have hne (q : Char) (h : c ≠ q) : c.toNat ≠ q.toNat := mt Char.toNat_inj.mp h
    exact spells_raw (encode_plain ⟨hne '"' hc.1, hne '\\' hc.2⟩)
  | escape c hc =>
    obtain ⟨b, bs, hbytes, hbs, hone⟩ := encode_cons c
    have hu : b ≠ 117 := mt (letter_iff hbytes hone (by decide) rfl (by decide)).mpr hc
    rw [text, parsed, hbytes, encode_escaped hbytes hone]
    exact (spells_one (.escape b) hu).append (spells_raw (plain_of_high hbs))
  | unit u => exact spells_one (.unit u) trivial

/-- What is accepted up to some place is a literal, if it is in UTF-8. -/
theorem literal_of_returns {fuel : Nat} (h : At (34 :: (utf8 chars ++ l)) cs t) (hseen : 1 ≤ t.seen)
    (hrun : parseString fuel t = (.ok (), t')) (hleft : t'.left = l) : ∃ s : Literal, s.text = 34 :: utf8 chars := by
  have hreturns : Returns (parseString fuel) t fun _ t' => ∃ ts : List Token, (∀ k ∈ ts, k.Fits) ∧
      utf8 chars ++ l = ts.flatMap Token.text ++ 34 :: t'.left := by
    refine Runs.bind (Q := fun _ t' => At (utf8 chars ++ l) cs t') ?_ fun _ t₁ h₁ => ?_
    · exact (gives_skip h hseen).mono (fun _ _ hat => hat) (fun _ _ he => he.elim)
    refine (returns_stringLoop fuel [] h₁).bind fun r t₂ ⟨ts, hts, htext, _⟩ => ?_
    exact .of_ok rfl ⟨ts, hts, htext⟩
  obtain ⟨ts, hts, htext⟩ := hreturns.ok hrun
  rw [hleft, List.append_cons] at htext
  obtain ⟨s, hs, -⟩ := exists_literal hts (List.append_cancel_right htext).symm
  refine ⟨s, ?_⟩
  rw [Literal.text, hs, List.append_cancel_right htext]

end

namespace Parser

variable {F : Type} (p : Parser F)

/-- The bytes that were not skipped yet, in the buffer and in the source. -/
def unread : List UInt8 := p.buf.data.drop p.pos ++ p.src.left

/-- The parser has the next byte in its buffer. -/
structure AtByte : Prop where
  cap : p.buf.cap = 1024
  size : p.buf.size ≤ 1024
  pos : p.pos < p.buf.size

variable {p}

theorem AtByte.few (h : p.AtByte) : p.buf.size - p.pos ≤ p.unread.length := by
  have hdata : p.buf.data.length = p.buf.size := ManagedBuffer.length_data (by rw [h.cap]; exact h.size)
  rw [unread, List.length_append, List.length_drop, hdata]
  exact Nat.le_add_right _ _

/-- The same place in the text, from where nothing was asked for yet. -/
def AtByte.toText (h : p.AtByte) : Text F := ⟨p.unread, p.buf.size - p.pos, p.handler.map .call, h.few⟩

theorem AtByte.at_text (h : p.AtByte) : At p.unread p.handler h.toText := by
  refine ⟨rfl, ?_⟩
  change calls (p.handler.map .call) = p.handler
  induction p.handler with
  | nil => rfl
  | cons c cs ih => exact congrArg (c :: ·) ih

theorem AtByte.rel (h : p.AtByte) : Rel p.supply p h.toText := by
  have hcalls : ∀ (s : Supply) (cs : List (Call F)),
      s.firstCut (cs.map .call) = none ∧ s.run (cs.map .call) = s ∧ ¬ s.Far (cs.map .call) := by
    intro s cs
    induction cs with
    | nil => exact ⟨rfl, rfl, id⟩
    | cons c cs ih => exact ⟨congrArg (Option.map (· + 1)) ih.1, ih.2.1, fun hfar => hfar.elim nofun ih.2.2⟩
  obtain ⟨hwhole, hrun, hnear⟩ := hcalls p.supply p.handler
  exact ⟨h.cap, h.size, Nat.le_of_lt h.pos, rfl, Nat.le_refl _, h.at_text.calls.symm, hwhole, hrun, hnear⟩

/-- What returns on the buffer returns on the text, at the same place. -/
theorem AtByte.returns (h : p.AtByte) {fuel : Nat} {p' : Parser F} (hfuel : p.unread.length ≤ fuel)
    (hrun : parseString fuel p = (.ok (), p')) :
    ∃ t', parseString fuel h.toText = (.ok (), t') ∧ t'.left = p'.unread ∧ calls t'.log = p'.handler := by
  have hafter := (follows_parseString (s := p.supply) fuel).after p h.toText h.rel
  have hruns := runs_parseString (t := h.toText) (Nat.sub_pos_of_lt h.pos) hfuel
  cases hm : parseString fuel h.toText with
  | mk r t' =>
    have hwild : r ≠ .error (.stop .wildAccess) := by
      rintro rfl
      exact hruns.error hm _ rfl
    rw [hrun, hm] at hafter
    rcases hafter hwild with ⟨hsame, hrel⟩ | ⟨n, -, he, -⟩ | ⟨-, he⟩
    · cases r with
      | ok a => exact ⟨t', rfl, hrel.left, hrel.handler.symm⟩
      | error e => cases hsame
    · cases he
    · cases he

end Parser

/-- Whatever string literal is accepted, what is delivered is the encoding of the code points that it denotes exactly
if no `\u` sequence is a surrogate. -/
theorem string_legal_iff {F : Type} (p p' : Parser F) (chars : List Char) (fuel : Nat) (hp : p.AtByte)
    (hfuel : p.unread.length ≤ fuel) (hrun : parseString fuel p = (.ok (), p'))
    (htext : p.unread = 34 :: (utf8 chars ++ p'.unread)) :
    (∃ s : Literal, s.text = 34 :: utf8 chars) ∧
      ∀ s : Literal, s.text = 34 :: utf8 chars →
        ∃ value, p'.handler = p.handler ++ [.onString value] ∧ (Legal s.points value ↔ s.Scalar) := by
  obtain ⟨t', hrun', hleft, hcalls⟩ := hp.returns hfuel hrun
  have hat := hp.at_text
  rw [htext] at hat
  have hseen : 1 ≤ hp.toText.seen := Nat.sub_pos_of_lt hp.pos
  refine ⟨literal_of_returns hat hseen hrun' hleft, fun s hs => ⟨s.parsed, ?_, legal_iff s⟩⟩
  rw [← List.cons_append, ← hs] at hat
  have hlen : s.text.length ≤ fuel := by
    rw [htext, ← List.cons_append, ← hs, List.length_append] at hfuel
    omega
  rw [← hcalls]
  exact ((gives_parseString (.flatMap Part.spells s) hat hseen hlen).ok hrun').2.calls

/-- A parser at the text in its buffer, the whole of its source. -/
def bufferedParser (text : List UInt8) : Parser Unit :=
  ⟨0, ⟨text ++ List.replicate (1024 - text.length) 0, text.length⟩, ⟨[], fun _ => 0⟩, 0, []⟩

theorem bufferedParser_at_byte {text : List UInt8} (hpos : 0 < text.length) (hle : text.length ≤ 1024) :
    (bufferedParser text).AtByte where
  cap := by
    change (text ++ List.replicate (1024 - text.length) 0).length = 1024
    rw [List.length_append, List.length_replicate]
    omega
  size := hle
  pos := hpos

local instance sixteen_ne_zero : NeZero 16 := ⟨by decide⟩

/-- An escape for `/`, a `\u` sequence for the euro sign and a character of its own. -/
def euro : Literal :=
  [.escape '/' (by decide), .unit ⟨⟨2, false⟩, ⟨0, false⟩, ⟨10, true⟩, ⟨12, true⟩⟩, .raw 'a' (by decide)]

theorem euro_legal : ∃ value, (parseString 11 (bufferedParser euro.text)).2.handler = [.onString value] ∧
    Legal euro.points value := by
  obtain ⟨-, h⟩ := string_legal_iff (bufferedParser euro.text) (parseString 11 (bufferedParser euro.text)).2
    ['\\', '/', '\\', 'u', '2', '0', 'A', 'C', 'a', '"'] 11 (bufferedParser_at_byte (by decide) (by decide)) (by decide)
    rfl rfl
  obtain ⟨value, hvalue, hiff⟩ := h euro (by decide)
  refine ⟨value, hvalue, hiff.mpr fun u hu => ?_⟩
  simp only [euro, List.mem_cons, List.not_mem_nil, or_false, reduceCtorEq, false_or] at hu
  cases hu
  decide

/-- `U+1F600`, written as `\ud83d\ude00` -/
def pairLiteral : Literal := [.unit highSurrogate, .unit lowSurrogate]

/-- Both surrogates are encoded. -/
theorem pair_not_legal : pairLiteral.points = [0x1f600] ∧
    (parseString 14 (bufferedParser pairLiteral.text)).2.handler = [.onString [0xed, 0xa0, 0xbd, 0xed, 0xb8, 0x80]] ∧
    ¬Legal pairLiteral.points [0xed, 0xa0, 0xbd, 0xed, 0xb8, 0x80] := by
  have hpoints : pairLiteral.points = [0x1f600] := by decide
  refine ⟨hpoints, by decide +kernel, fun h => ?_⟩
  have hbytes := h.bytes_eq
  rw [hpoints] at hbytes
  exact absurd hbytes (by decide)

end Json2

end Crack
