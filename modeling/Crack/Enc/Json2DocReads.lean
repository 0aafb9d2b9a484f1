import Crack.Enc.Json2Docs
import Crack.Enc.Json2Reads
import Mathlib.Data.List.DropRight

/-!
# The parser on JSON texts

What the parser calls on the text of a value.
-/
namespace Crack

namespace Json2

open Effect Input

variable {F α β : Type} {t t' : Text F} {l rest : List UInt8} {cs cs' : List (Call F)} {c : UInt8} {k : Nat} {i : Nat}

/-- Nothing is thrown. -/
def Gives (m : Effect Failure (Text F) α) (t : Text F) (Q : α → Text F → Prop) : Prop := Runs m t Q fun _ _ => False

/-- Nothing is thrown where `S` holds. Elsewhere a byte is written before the memory. -/
def GivesIf (S : Prop) (m : Effect Failure (Text F) α) (t : Text F) (Q : α → Text F → Prop) : Prop :=
  Runs m t (fun a t' => S ∧ Q a t') fun e _ => ¬ S ∧ e = .wildAppend

section Rules

variable {S S' : Prop} {m : Effect Failure (Text F) α} {f : α → Effect Failure (Text F) β} {Q Q' : α → Text F → Prop}
  {R : β → Text F → Prop}

theorem Gives.always (h : Gives m t Q) : GivesIf True m t Q :=
  Runs.mono h (fun _ _ ha => ⟨trivial, ha⟩) fun _ _ he => he.elim

theorem Gives.andThen (h : Gives m t Q) (hf : ∀ a t', Q a t' → GivesIf S (f a) t' R) : GivesIf S (m >>= f) t R :=
  Runs.bind (Runs.mono h (fun _ _ ha => ha) fun _ _ he => he.elim) hf

theorem GivesIf.pure {a : α} (hS : S) (h : Q a t) : GivesIf S (pure a) t Q := ⟨hS, h⟩

theorem GivesIf.mono (h : GivesIf S m t Q) (hS : S ↔ S') (hQ : ∀ a t', Q a t' → Q' a t') : GivesIf S' m t Q' :=
  Runs.mono h (fun a t' ha => ⟨hS.mp ha.1, hQ a t' ha.2⟩) fun _ _ he => ⟨fun hS' => he.1 (hS.mpr hS'), he.2⟩

theorem GivesIf.andThen (h : GivesIf S m t Q) (hf : ∀ a t', S → Q a t' → GivesIf S' (f a) t' R) :
    GivesIf (S ∧ S') (m >>= f) t R := by
  refine Runs.bind (Runs.mono h (fun _ _ ha => ha) fun _ _ he => ⟨fun hand => he.1 hand.1, he.2⟩) fun a t' ha => ?_
  exact Runs.mono (hf a t' ha.1 ha.2) (fun _ _ hb => ⟨⟨ha.1, hb.1⟩, hb.2⟩) fun _ _ he => ⟨fun hand => he.1 hand.2, he.2⟩

theorem GivesIf.last (h : GivesIf S m t Q) (hf : ∀ a t', Q a t' → Gives (f a) t' R) : GivesIf S (m >>= f) t R :=
  (h.andThen fun a t' _ ha => (hf a t' ha).always).mono (by rw [and_true]) fun _ _ hb => hb

theorem GivesIf.ok {a : α} (h : GivesIf S m t Q) (hm : m t = (.ok a, t')) : S ∧ Q a t' :=
  Runs.ok (Q := fun a t' => S ∧ Q a t') h hm

theorem GivesIf.error {e : Failure} (h : GivesIf S m t Q) (hm : m t = (.error e, t')) : ¬ S ∧ e = .wildAppend :=
  Runs.error (E := fun e _ => ¬ S ∧ e = Failure.wildAppend) h hm

/-- A byte that fits, or for which `S` doesn't hold. -/
theorem GivesIf.byte {f : List UInt8 → Effect Failure (Text F) α} {result : List UInt8} {ch : UInt8}
    (hS : S → result.length < 2 ^ 31) (hnext : result.length < 2 ^ 31 → GivesIf S (f (result ++ [ch])) t Q) :
    GivesIf S (append result ch >>= f) t Q := by
  by_cases hfits : result.length < 2 ^ 31
  · have happend : append result ch t = (.ok (result ++ [ch]), t) := by
      rw [append, if_pos hfits]
      rfl
    rw [GivesIf, Runs, bind_ok happend]
    exact hnext hfits
  · have happend : append result ch t = (.error .wildAppend, t) := by
      rw [append, if_neg hfits]
      rfl
    rw [GivesIf, Runs, bind_error happend]
    exact ⟨fun h => hfits (hS h), rfl⟩

theorem GivesIf.bytes {f : List UInt8 → Effect Failure (Text F) α} {result bytes : List UInt8}
    (hroom : result.length ≤ 2 ^ 31) (hS : S → (result ++ bytes).length ≤ 2 ^ 31)
    (hnext : (result ++ bytes).length ≤ 2 ^ 31 → GivesIf S (f (result ++ bytes)) t Q) :
    GivesIf S (bytes.foldlM append result >>= f) t Q := by
  induction bytes generalizing result with
  | nil =>
    rw [List.append_nil] at hnext
    exact hnext hroom
  | cons b bytes ih =>
    rw [List.append_cons] at hS hnext
    have hassoc : (b :: bytes).foldlM append result >>= f =
        append result b >>= fun result => bytes.foldlM append result >>= f := by
      funext t
      rw [List.foldlM_cons, bind_apply, bind_apply, bind_apply]
      rcases append result b t with ⟨⟨e⟩ | ⟨result'⟩, t'⟩
      · rfl
      · rfl
    rw [hassoc]
    refine .byte (fun h => ?_) fun hfits => ih ?_ hS hnext
    · have hle := hS h
      simp only [List.length_append, List.length_singleton] at hle
      omega
    · rw [List.length_append, List.length_singleton]
      exact hfits

end Rules

/-- What is left of the text, and the calls so far. -/
structure At (l : List UInt8) (cs : List (Call F)) (t : Text F) : Prop where
  left : t.left = l
  calls : calls t.log = cs

theorem gives_want (h : At l cs t) (hk : k ≤ l.length) :
    Gives (want k) t fun b t' => b = true ∧ At l cs t' ∧ k ≤ t'.seen ∧ t.seen ≤ t'.seen := by
  have hleft : k ≤ t.left.length := h.left ▸ hk
  refine .of_ok (dif_pos hleft) ⟨rfl, ⟨h.left, ?_⟩, Nat.le_max_right _ _, Nat.le_max_left _ _⟩
  rw [Supply.calls_append]
  exact (List.append_nil _).trans h.calls

theorem gives_need (h : At l cs t) (hk : k ≤ l.length) :
    Gives (need k) t fun _ t' => At l cs t' ∧ k ≤ t'.seen := by
  refine (gives_want h hk).bind fun b t₁ ⟨hb, h₁, hseen, _⟩ => ?_
  subst hb
  exact .pure ⟨h₁, hseen⟩

theorem gives_get (hi : i < t.seen) : Gives (get i) t fun ch t' => t' = t ∧ ch = t.left.getD i 0 :=
  .of_ok (congrArg (·, t) (Text.ifSeen_of_le hi)) ⟨rfl, rfl⟩

theorem gives_head (h : At (c :: l) cs t) (hseen : 1 ≤ t.seen) : Gives (get 0) t fun ch t' => t' = t ∧ ch = c := by
  refine (gives_get hseen).mono (fun ch t₁ ⟨ht, hch⟩ => ⟨ht, ?_⟩) (fun _ _ h => h)
  rw [hch, h.left]
  rfl

theorem gives_memory (h : At l cs t) (hk : k ≤ t.seen) : Gives (memory k) t fun bytes t' => t' = t ∧ bytes = l.take k :=
  .of_ok (congrArg (·, t) (Text.ifSeen_of_le hk)) ⟨rfl, by rw [h.left]⟩

theorem gives_skip (h : At l cs t) (hk : k ≤ t.seen) : Gives (skip k) t fun _ t' => At (l.drop k) cs t' := by
  refine .of_ok (if_pos hk) ⟨?_, ?_⟩
  · exact congrArg (List.drop k) h.left
  · rw [Supply.calls_append]
    exact (List.append_nil _).trans h.calls

theorem gives_call {c : Call F} (h : At l cs t) : Gives (call c) t fun _ t' => At l (cs ++ [c]) t' := by
  refine .of_ok rfl ⟨h.left, ?_⟩
  rw [Supply.calls_append, h.calls]
  rfl

variable {message : String}

theorem gives_expect {p : Prop} [Decidable p] (hp : p) : Gives (expect p message) t fun _ t' => t' = t := by
  rw [expect, if_pos hp]
  exact .pure rfl

theorem gives_getch (h : At (c :: l) cs t) : Gives getch t fun ch t' => ch = c ∧ At l cs t' := by
  refine (gives_need h (Nat.le_add_left 1 _)).bind fun _ t₁ ⟨h₁, hseen₁⟩ => ?_
  refine (gives_head h₁ hseen₁).bind fun ch t₂ ⟨ht, hch⟩ => ?_
  subst ht
  refine (gives_skip h₁ hseen₁).bind fun _ t₃ h₃ => ?_
  exact .pure ⟨hch, h₃⟩

/-- The next character, zero at the end. -/
theorem gives_peek (h : At l cs t) : Gives peek t fun ch t' => ch = l.headD 0 ∧ At l cs t' ∧ (l ≠ [] → 1 ≤ t'.seen) := by
  cases l with
  | nil =>
    have hnone : ¬ 1 ≤ t.left.length := by
      rw [h.left]
      decide
    have hwant : Gives (want 1) t fun b t' => b = false ∧ At [] cs t' := by
      refine .of_ok (dif_neg hnone) ⟨rfl, h.left, ?_⟩
      rw [Supply.calls_append]
      exact (List.append_nil _).trans h.calls
    refine hwant.bind fun b t₁ ⟨hb, h₁⟩ => ?_
    subst hb
    exact .pure ⟨rfl, h₁, fun hne => absurd rfl hne⟩
  | cons c l =>
    refine (gives_want h (Nat.le_add_left 1 _)).bind fun b t₁ ⟨hb, h₁, hseen₁, _⟩ => ?_
    subst hb
    refine (gives_head h₁ hseen₁).mono (fun ch t₂ ⟨ht, hch⟩ => ?_) (fun _ _ h => h)
    subst ht
    exact ⟨hch, h₁, fun _ => hseen₁⟩

theorem gives_next (h : At (c :: l) cs t) (hseen : 1 ≤ t.seen) :
    Gives next t fun ch t' => ch = l.headD 0 ∧ At l cs t' ∧ (l ≠ [] → 1 ≤ t'.seen) := by
  have hinside : Gives inside t fun b t' => b = true ∧ t' = t :=
    .of_ok (congrArg (·, t) (Text.ifSeen_of_le hseen)) ⟨rfl, rfl⟩
  refine hinside.bind fun b t₁ ⟨hb, ht⟩ => ?_
  subst hb ht
  exact (gives_skip h hseen).bind fun _ t₂ h₂ => gives_peek h₂

theorem hexDec_byte (h : Hex) : hexDec h.byte = .ok h.value.val := by
  obtain ⟨value, upper⟩ := h
  revert value upper
  decide

theorem gives_hexDigit {h : Hex} (hseen : i < t.seen) (hbyte : t.left.getD i 0 = h.byte) :
    Gives (hexDigit i) t fun a t' => t' = t ∧ a = h.value.val := by
  refine (gives_get hseen).bind fun ch t₁ ⟨ht, hch⟩ => ?_
  subst ht
  rw [hch, hbyte]
  exact .of_ok (congrArg (·, t₁) (hexDec_byte h)) ⟨rfl, rfl⟩

/-- A number with a digit behind it. -/
theorem shiftLeft_or {n d : Nat} (i : Nat) (hd : d < 16) : (n <<< (i + 4)) ||| (d <<< i) = (n * 16 + d) <<< i := by
  rw [Nat.add_comm i 4, Nat.shiftLeft_add, ← Nat.shiftLeft_or_distrib,
    ← Nat.shiftLeft_add_eq_or_of_lt (show d < 2 ^ 4 from hd), Nat.shiftLeft_eq n]

/-- The digits of a code unit, put together bit by bit. -/
theorem CodeUnit.value_eq (u : CodeUnit) :
    u.a.value.val <<< 12 ||| u.b.value.val <<< 8 ||| u.c.value.val <<< 4 ||| u.d.value.val = u.value := by
  have hlast := shiftLeft_or (n := (u.a.value.val * 16 + u.b.value.val) * 16 + u.c.value.val) 0 u.d.value.isLt
  rw [Nat.shiftLeft_zero, Nat.shiftLeft_zero] at hlast
  rw [shiftLeft_or 8 u.b.value.isLt, shiftLeft_or 4 u.c.value.isLt, hlast, CodeUnit.value]
  omega

variable {u : CodeUnit} {temp : List UInt8} {n : Number} {d : UInt8}

theorem gives_uchar (hseen : 4 ≤ t.seen) (h : t.left = u.a.byte :: u.b.byte :: u.c.byte :: u.d.byte :: l) :
    Gives uchar t fun n t' => t' = t ∧ n = u.value := by
  refine (gives_hexDigit (h := u.a) (by omega) (by rw [h]; rfl)).bind fun a t₁ ⟨ht, ha⟩ => ?_
  subst ht
  refine (gives_hexDigit (h := u.b) (by omega) (by rw [h]; rfl)).bind fun b t₁ ⟨ht, hb⟩ => ?_
  subst ht
  refine (gives_hexDigit (h := u.c) (by omega) (by rw [h]; rfl)).bind fun c t₁ ⟨ht, hc⟩ => ?_
  subst ht
  refine (gives_hexDigit (h := u.d) (by omega) (by rw [h]; rfl)).bind fun d t₁ ⟨ht, hd⟩ => ?_
  subst ht
  refine .pure ⟨rfl, ?_⟩
  rw [ha, hb, hc, hd]
  exact u.value_eq

/-- What the loop of `__parseString` goes through at a time. -/
inductive Token where
  | raw (b : UInt8)
  | escape (e : UInt8)
  | unit (u : CodeUnit)

namespace Token

def text : Token → List UInt8
  | .raw b => [b]
  | .escape e => [92, e]
  | .unit u => u.text

def parsed : Token → List UInt8
  | .raw b => [b]
  | .escape e => [unescape e]
  | .unit u => utf8Char u.value

def Fits : Token → Prop
  | .raw b => b ≠ 34 ∧ b ≠ 92
  | .escape e => e ≠ 117
  | .unit _ => True

end Token

/-- A text is made of tokens, and so is what the parser makes of it. -/
def Spells (text parsed : List UInt8) : Prop :=
  ∃ ts : List Token, (∀ k ∈ ts, k.Fits) ∧ ts.flatMap Token.text = text ∧ ts.flatMap Token.parsed = parsed

theorem flatMap_raw (bs : List UInt8) :
    (bs.map Token.raw).flatMap Token.text = bs ∧ (bs.map Token.raw).flatMap Token.parsed = bs := by
  induction bs with
  | nil => exact ⟨rfl, rfl⟩
  | cons b bs ih => exact ⟨congrArg (b :: ·) ih.1, congrArg (b :: ·) ih.2⟩

theorem spells_raw {bs : List UInt8} (h : ∀ b ∈ bs, b ≠ 34 ∧ b ≠ 92) : Spells bs bs :=
  ⟨bs.map .raw, List.forall_mem_map.mpr h, flatMap_raw bs⟩

theorem spells_one (k : Token) (h : k.Fits) : Spells k.text k.parsed :=
  ⟨[k], List.forall_mem_singleton.mpr h, List.append_nil _, List.append_nil _⟩

theorem Spells.append {text text' parsed parsed' : List UInt8} (h : Spells text parsed) (h' : Spells text' parsed') :
    Spells (text ++ text') (parsed ++ parsed') := by
  obtain ⟨ts, hts, rfl, rfl⟩ := h
  obtain ⟨ts', hts', rfl, rfl⟩ := h'
  exact ⟨ts ++ ts', List.forall_mem_append.mpr ⟨hts, hts'⟩, List.flatMap_append, List.flatMap_append⟩

theorem Spells.flatMap {f g : α → List UInt8} (h : ∀ a, Spells (f a) (g a)) (as : List α) :
    Spells (as.flatMap f) (as.flatMap g) := by
  induction as with
  | nil => exact ⟨[], List.forall_mem_nil _, rfl, rfl⟩
  | cons a as ih => exact (h a).append ih

theorem lt_of_more {ds : List UInt8} (h : (temp ++ d :: ds).length ≤ 2 ^ 31) : temp.length < 2 ^ 31 := by
  rw [List.length_append, List.length_cons] at h
  omega

theorem length_more (h : temp.length < 2 ^ 31) : (temp ++ [d]).length ≤ 2 ^ 31 := by
  rw [List.length_append, List.length_singleton]
  exact h

section Pieces

variable {S : Prop} {fuel : Nat} {bytes result : List UInt8} {Q : List UInt8 → Text F → Prop}

/-- A byte of a string that stands for itself. -/
theorem gives_plain (h : At (c :: l) cs t) (hc : c ≠ 34 ∧ c ≠ 92) (hS : S → result.length < 2 ^ 31)
    (hnext : ∀ t', At l cs t' → result.length < 2 ^ 31 → GivesIf S (stringLoop fuel (result ++ [c])) t' Q) :
    GivesIf S (stringLoop (fuel + 1) result) t Q := by
  rw [stringLoop]
  refine (gives_getch h).andThen fun ch t₁ hat => ?_
  obtain ⟨hch, h₁⟩ := hat
  subst hch
  rw [if_neg hc.1, if_neg hc.2]
  exact .byte hS (hnext t₁ h₁)

/-- An escape of one letter. -/
theorem gives_escape {e : UInt8} (h : At (92 :: e :: l) cs t) (he : e ≠ 117) (hS : S → result.length < 2 ^ 31)
    (hnext : ∀ t', At l cs t' → result.length < 2 ^ 31 → GivesIf S (stringLoop fuel (result ++ [unescape e])) t' Q) :
    GivesIf S (stringLoop (fuel + 1) result) t Q := by
  rw [stringLoop]
  refine (gives_getch h).andThen fun ch t₁ hat => ?_
  obtain ⟨hch, h₁⟩ := hat
  subst hch
  rw [if_neg (by decide), if_pos rfl]
  refine (gives_getch h₁).andThen fun ch t₂ hat => ?_
  obtain ⟨hch, h₂⟩ := hat
  subst hch
  rw [if_neg he]
  exact .byte hS (hnext t₂ h₂)

/-- A `\u` sequence. -/
theorem gives_unit (h : At (u.text ++ l) cs t) (hroom : result.length ≤ 2 ^ 31)
    (hS : S → (result ++ utf8Char u.value).length ≤ 2 ^ 31)
    (hnext : ∀ t', At l cs t' → (result ++ utf8Char u.value).length ≤ 2 ^ 31 →
      GivesIf S (stringLoop fuel (result ++ utf8Char u.value)) t' Q) :
    GivesIf S (stringLoop (fuel + 1) result) t Q := by
  rw [stringLoop]
  refine (gives_getch h).andThen fun ch t₁ hat => ?_
  obtain ⟨hch, h₁⟩ := hat
  subst hch
  rw [if_neg (by decide), if_pos rfl]
  refine (gives_getch h₁).andThen fun ch t₂ hat => ?_
  obtain ⟨hch, h₂⟩ := hat
  subst hch
  rw [if_pos rfl]
  refine (gives_need h₂ (Nat.le_add_left 4 _)).andThen fun _ t₃ hat => ?_
  obtain ⟨h₃, hseen₃⟩ := hat
  refine (gives_uchar hseen₃ h₃.left).andThen fun n t₄ hat => ?_
  obtain ⟨ht, hn⟩ := hat
  subst ht hn
  refine (gives_skip h₃ hseen₃).andThen fun _ t₅ h₅ => ?_
  exact .bytes hroom hS (hnext t₅ h₅)

end Pieces

/-- The bits of a byte in front of others. -/
theorem or_ofNat (i k : Nat) {m x : Nat} (hm : m = 2 ^ i * k) (hx : x < 2 ^ i) (hlt : 2 ^ i * k + x < 256) :
    UInt8.ofNat m ||| UInt8.ofNat x = UInt8.ofNat (x + m) := by
  subst hm
  have hsum := Nat.two_pow_add_eq_or_of_lt hx k
  rw [← UInt8.toNat_inj, UInt8.toNat_or, UInt8.toNat_ofNat', UInt8.toNat_ofNat', UInt8.toNat_ofNat',
    Nat.mod_eq_of_lt (by omega), Nat.mod_eq_of_lt (by omega), Nat.mod_eq_of_lt (by omega), ← hsum, Nat.add_comm]

theorem utf8Char_eq (c : Char) : utf8Char c.val.toNat = String.utf8EncodeChar c := by
  have hand (x : Nat) : x &&& 0x3f = x % 64 := Nat.and_two_pow_sub_one_eq_mod x 6
  have hcont (x : Nat) : (0x80 : UInt8) ||| UInt8.ofNat (x % 64) = UInt8.ofNat (x % 0x40 + 0x80) :=
    or_ofNat 6 2 rfl (by omega) (by omega)
  have hlt : c.val.toNat < 0x110000 := by
    rcases c.valid with h | h
    · exact Nat.lt_trans h (by decide)
    · exact h.2
  rw [utf8Char, String.utf8EncodeChar]
  generalize c.val.toNat = v at hlt ⊢
  simp only [hand, hcont, Nat.shiftRight_eq_div_pow, Nat.reducePow]
  split
  · rfl
  · split
    next h =>
      rw [Nat.mod_eq_of_lt (show v / 64 < 0x20 by omega)]
      rw [show (0xc0 : UInt8) ||| UInt8.ofNat (v / 64) = _ from or_ofNat 6 3 rfl (by omega) (by omega)]
    next =>
      split
      next =>
        rw [Nat.mod_eq_of_lt (show v / 4096 < 0x10 by omega)]
        rw [show (0xe0 : UInt8) ||| UInt8.ofNat (v / 4096) = _ from or_ofNat 5 7 rfl (by omega) (by omega)]
      next =>
        rw [Nat.mod_eq_of_lt (show v / 262144 < 0x08 by omega)]
        rw [show (0xf0 : UInt8) ||| UInt8.ofNat (v / 262144) = _ from or_ofNat 4 15 rfl (by omega) (by omega)]

theorem ofNat_ne {n m : Nat} (hn : n < 256) (hm : m < 256) (h : n ≠ m) : UInt8.ofNat n ≠ UInt8.ofNat m := by
  intro he
  have hnat := congrArg UInt8.toNat he
  rw [UInt8.toNat_ofNat', UInt8.toNat_ofNat', Nat.mod_eq_of_lt hn, Nat.mod_eq_of_lt hm] at hnat
  exact h hnat

/-- No byte of another character is a quote or a backslash. -/
theorem encode_plain {c : Char} (h : c.toNat ≠ 34 ∧ c.toNat ≠ 92) :
    ∀ b ∈ String.utf8EncodeChar c, b ≠ 34 ∧ b ≠ 92 := by
  have hhigh (n : Nat) (h₁ : 128 ≤ n) (h₂ : n < 256) : UInt8.ofNat n ≠ 34 ∧ UInt8.ofNat n ≠ 92 :=
    ⟨ofNat_ne (m := 34) h₂ (by decide) (by omega), ofNat_ne (m := 92) h₂ (by decide) (by omega)⟩
  change c.val.toNat ≠ 34 ∧ c.val.toNat ≠ 92 at h
  rw [String.utf8EncodeChar]
  generalize c.val.toNat = v at h ⊢
  intro b hb
  split at hb
  next hlow =>
    cases List.mem_singleton.mp hb
    exact ⟨ofNat_ne (m := 34) (by omega) (by decide) h.1, ofNat_ne (m := 92) (by omega) (by decide) h.2⟩
  next =>
    split at hb
    · simp only [List.mem_cons, List.not_mem_nil, or_false] at hb
      rcases hb with rfl | rfl
      · exact hhigh _ (by omega) (by omega)
      · exact hhigh _ (by omega) (by omega)
    · split at hb
      · simp only [List.mem_cons, List.not_mem_nil, or_false] at hb
        rcases hb with rfl | rfl | rfl
        · exact hhigh _ (by omega) (by omega)
        · exact hhigh _ (by omega) (by omega)
        · exact hhigh _ (by omega) (by omega)
      · simp only [List.mem_cons, List.not_mem_nil, or_false] at hb
        rcases hb with rfl | rfl | rfl | rfl
        · exact hhigh _ (by omega) (by omega)
        · exact hhigh _ (by omega) (by omega)
        · exact hhigh _ (by omega) (by omega)
        · exact hhigh _ (by omega) (by omega)

theorem Escape.encode (e : Escape) : e.letter ≠ 117 ∧ [unescape e.letter] = String.utf8EncodeChar e.char := by
  cases e with
  | quote => decide
  | backslash => decide
  | slash => decide
  | backspace => decide
  | formFeed => decide
  | lineFeed => decide
  | carriageReturn => decide
  | tab => decide

theorem CodeUnit.value_lt (u : CodeUnit) : u.value < 0x10000 := by
  have ha := u.a.value.isLt
  have hb := u.b.value.isLt
  have hc := u.c.value.isLt
  have hd := u.d.value.isLt
  rw [CodeUnit.value]
  omega

theorem toNat_ofNat {n : Nat} (h : n.isValidChar) : (Char.ofNat n).val.toNat = n := by
  rw [Char.ofNat, dif_pos h]
  rfl

theorem CodeUnit.valid (h : ¬ u.High ∧ ¬ u.Low) : u.value.isValidChar := by
  have hlt := u.value_lt
  obtain ⟨hhigh, hlow⟩ := h
  rw [CodeUnit.High] at hhigh
  rw [CodeUnit.Low] at hlow
  rw [Nat.isValidChar]
  omega

theorem CodeUnit.encode (h : ¬ u.High ∧ ¬ u.Low) :
    utf8Char u.value = String.utf8EncodeChar (Char.ofNat u.value) := by
  rw [← utf8Char_eq, toNat_ofNat (CodeUnit.valid h)]

/-- The loop of a string goes through its text, up to the quote. -/
theorem gives_stringLoop {text parsed : List UInt8} {fuel : Nat} {result : List UInt8} (hs : Spells text parsed)
    (h : At (text ++ 34 :: l) cs t) (hfuel : text.length < fuel) (hroom : result.length ≤ 2 ^ 31) :
    GivesIf ((result ++ parsed).length ≤ 2 ^ 31) (stringLoop fuel result) t fun r t' =>
      r = result ++ parsed ∧ At l cs t' := by
  obtain ⟨ts, hts, rfl, rfl⟩ := hs
  induction ts generalizing t fuel result with
  | nil =>
    obtain ⟨fuel, rfl⟩ := Nat.exists_eq_add_of_lt hfuel
    rw [stringLoop]
    refine (gives_getch h).andThen fun ch t₁ hat => ?_
    obtain ⟨hch, h₁⟩ := hat
    subst hch
    rw [if_pos rfl, List.flatMap_nil, List.append_nil]
    exact .pure hroom ⟨rfl, h₁⟩
  | cons k ts ih =>
    obtain ⟨hk, htail⟩ := List.forall_mem_cons.mp hts
    rw [List.flatMap_cons, List.length_append] at hfuel
    rw [List.flatMap_cons, List.append_assoc] at h
    rw [List.flatMap_cons, ← List.append_assoc]
    have hS : (result ++ k.parsed ++ ts.flatMap Token.parsed).length ≤ 2 ^ 31 → (result ++ k.parsed).length ≤ 2 ^ 31 := by
      intro h
      rw [List.length_append] at h
      exact Nat.le_of_add_right_le h
    cases fuel with
    | zero => exact absurd hfuel (Nat.not_lt_zero _)
    | succ fuel =>
      cases k with
      | raw b =>
        change 1 + _ < fuel + 1 at hfuel
        exact gives_plain h hk (fun h => lt_of_more (hS h)) fun t' h' hfits => ih (length_more hfits) htail h' (by omega)
      | escape e =>
        change 2 + _ < fuel + 1 at hfuel
        exact gives_escape h hk (fun h => lt_of_more (hS h)) fun t' h' hfits => ih (length_more hfits) htail h' (by omega)
      | unit u =>
        change 6 + _ < fuel + 1 at hfuel
        exact gives_unit h hroom hS fun t' h' hfits => ih hfits htail h' (by omega)

/-- What is delivered for a text between quotes. -/
theorem gives_parseString {text parsed : List UInt8} {fuel : Nat} (hs : Spells text parsed)
    (h : At (34 :: (text ++ [34]) ++ l) cs t) (hseen : 1 ≤ t.seen) (hfuel : (34 :: (text ++ [34])).length ≤ fuel) :
    GivesIf (parsed.length ≤ 2 ^ 31) (parseString fuel) t fun _ t' => At l (cs ++ [.onString parsed]) t' := by
  rw [List.cons_append, List.append_assoc] at h
  rw [List.length_cons, List.length_append] at hfuel
  refine (gives_skip h hseen).andThen fun _ t₁ h₁ => ?_
  refine (gives_stringLoop hs h₁ (by omega) (show ([] : List UInt8).length ≤ _ from Nat.zero_le _)).last fun r t₂ ⟨hr, h₂⟩ => ?_
  subst hr
  exact gives_call h₂

theorem Piece.spells (p : Piece) : Spells p.text p.parsed := by
  cases p with
  | raw c hc => exact spells_raw (encode_plain hc.2)
  | escape e =>
    change Spells [92, e.letter] (String.utf8EncodeChar e.char)
    rw [← e.encode.2]
    exact spells_one (.escape e.letter) e.encode.1
  | unit u hu =>
    change Spells u.text (String.utf8EncodeChar (Char.ofNat u.value))
    rw [← CodeUnit.encode hu]
    exact spells_one (.unit u) trivial
  | pair hi lo hhi hlo => exact (spells_one (.unit hi) trivial).append (spells_one (.unit lo) trivial)

theorem Quoted.gives {fuel : Nat} {s : Quoted} (h : At (s.text ++ l) cs t) (hseen : 1 ≤ t.seen)
    (hfuel : s.text.length ≤ fuel) :
    GivesIf (s.parsed.length ≤ 2 ^ 31) (parseString fuel) t fun _ t' => At l (cs ++ [.onString s.parsed]) t' :=
  gives_parseString (.flatMap Piece.spells s) h hseen hfuel

open Http (isSpace isDigit)

theorem White.isSpace_byte (w : White) : isSpace w.byte = true := by
  cases w with
  | space => rfl
  | tab => rfl
  | lineFeed => rfl
  | carriageReturn => rfl

theorem Gap.dropWhile_text (gap : Gap) : (gap.text ++ l).dropWhile isSpace = l.dropWhile isSpace := by
  induction gap with
  | nil => rfl
  | cons w gap ih =>
    change ((w.byte :: (Gap.text gap ++ l)).dropWhile isSpace) = _
    rw [List.dropWhile_cons, if_pos w.isSpace_byte]
    exact ih

theorem Gap.dropWhile_cons (gap : Gap) (hc : isSpace c = false) : (gap.text ++ c :: l).dropWhile isSpace = c :: l := by
  rw [Gap.dropWhile_text, List.dropWhile_cons, if_neg (by rw [hc]; decide)]

theorem gives_spaceLoop {b : UInt8} (fuel : Nat) (h : At (b :: l) cs t) (hdrop : (b :: l).dropWhile isSpace = c :: rest)
    (hseen : 1 ≤ t.seen) (hfuel : l.length < fuel) :
    Gives (spaceLoop fuel) t fun _ t' => At (c :: rest) cs t' ∧ 1 ≤ t'.seen := by
  induction fuel generalizing t b l with
  | zero => exact absurd hfuel (Nat.not_lt_zero _)
  | succ fuel ih =>
    rw [spaceLoop]
    refine (gives_head h hseen).bind fun ch t₁ hat => ?_
    obtain ⟨ht, hch⟩ := hat
    subst ht hch
    rw [List.dropWhile_cons] at hdrop
    split
    next hspace =>
      rw [if_pos hspace] at hdrop
      refine (gives_skip h hseen).bind fun _ t₂ h₂ => ?_
      cases l with
      | nil => cases hdrop
      | cons b' l =>
        refine (gives_need h₂ (Nat.le_add_left 1 _)).bind fun _ t₃ hat => ?_
        obtain ⟨h₃, hseen₃⟩ := hat
        exact ih h₃ hdrop hseen₃ (Nat.lt_of_succ_lt_succ hfuel)
    next hspace =>
      rw [if_neg hspace] at hdrop
      rw [← hdrop]
      exact .pure ⟨h, hseen⟩

theorem gives_consumeSpace {fuel : Nat} (h : At l cs t) (hdrop : l.dropWhile isSpace = c :: rest) (hfuel : l.length ≤ fuel) :
    Gives (consumeSpace fuel) t fun _ t' => At (c :: rest) cs t' ∧ 1 ≤ t'.seen := by
  cases l with
  | nil => cases hdrop
  | cons b l =>
    refine (gives_need h (Nat.le_add_left 1 _)).bind fun _ t₁ ⟨h₁, hseen₁⟩ => ?_
    exact gives_spaceLoop fuel h₁ hdrop hseen₁ hfuel

theorem gives_separator {fuel : Nat} {ch : UInt8} (h : At (ch :: l) cs t) (hseen : 1 ≤ t.seen)
    (hdrop : l.dropWhile isSpace = c :: rest) (hfuel : l.length ≤ fuel) :
    Gives (separator ch message fuel) t fun _ t' => At (c :: rest) cs t' ∧ 1 ≤ t'.seen := by
  refine (gives_head h hseen).bind fun ch' t₁ ⟨ht, hch⟩ => ?_
  subst ht
  refine (gives_expect hch).bind fun _ t₂ ht => ?_
  subst ht
  refine (gives_skip h hseen).bind fun _ t₃ h₃ => ?_
  exact gives_consumeSpace h₃ hdrop hfuel

theorem gives_keyword {c : Call F} (h : At l cs t) (hseen : k ≤ t.seen) :
    Gives (do skip k; call c) t fun _ t' => At (l.drop k) (cs ++ [c]) t' :=
  (gives_skip h hseen).bind fun _ _ h₁ => gives_call h₁

theorem gives_true (h : At (trueText ++ l) cs t) :
    Gives (parseKeyword 4) t fun _ t' => At l (cs ++ [.onBool true]) t' := by
  refine (gives_need h (Nat.le_add_left 4 _)).bind fun _ t₁ ⟨h₁, hseen₁⟩ => ?_
  refine (gives_memory h₁ hseen₁).bind fun bytes t₂ ⟨ht, hbytes⟩ => ?_
  subst ht
  have htake : (trueText ++ l).take 4 = trueText := rfl
  rw [hbytes, htake, if_pos rfl]
  exact gives_keyword h₁ hseen₁

theorem gives_false (h : At (falseText ++ l) cs t) :
    Gives (parseKeyword 5) t fun _ t' => At l (cs ++ [.onBool false]) t' := by
  refine (gives_need h (Nat.le_add_left 5 _)).bind fun _ t₁ ⟨h₁, hseen₁⟩ => ?_
  refine (gives_memory h₁ (Nat.le_of_succ_le hseen₁)).bind fun bytes t₂ ⟨ht, hbytes⟩ => ?_
  subst ht
  have htake : (falseText ++ l).take 4 = [102, 97, 108, 115] := rfl
  rw [hbytes, htake, if_neg (by decide)]
  have hfalse : Gives (isFalse 5) t₂ fun b t' => b = true ∧ t' = t₂ := by
    refine (gives_memory h₁ hseen₁).bind fun bytes t₃ ⟨ht, hbytes⟩ => ?_
    exact .pure ⟨decide_eq_true hbytes, ht⟩
  refine hfalse.bind fun b t₃ ⟨hb, ht⟩ => ?_
  subst hb ht
  exact gives_keyword h₁ hseen₁

theorem gives_null (h : At (nullText ++ l) cs t) :
    Gives (parseKeyword 4) t fun _ t' => At l (cs ++ [.onNull]) t' := by
  refine (gives_need h (Nat.le_add_left 4 _)).bind fun _ t₁ ⟨h₁, hseen₁⟩ => ?_
  refine (gives_memory h₁ hseen₁).bind fun bytes t₂ ⟨ht, hbytes⟩ => ?_
  subst ht
  have htake : (nullText ++ l).take 4 = nullText := rfl
  rw [hbytes, htake, if_neg (by decide)]
  have hfalse : Gives (isFalse 4) t₂ fun b t' => b = false ∧ t' = t₂ := .of_ok rfl ⟨rfl, rfl⟩
  refine hfalse.bind fun b t₃ ⟨hb, ht⟩ => ?_
  subst hb ht
  refine (gives_memory h₁ hseen₁).bind fun bytes t₄ ⟨ht, hbytes⟩ => ?_
  subst ht
  rw [hbytes, htake]
  exact gives_keyword h₁ hseen₁

theorem isDigit_digit (d : Fin 10) : isDigit (digit d) = true := by
  revert d
  decide

theorem Digits.isDigit_text (d : Digits) : ∀ b ∈ d.text, isDigit b = true := by
  intro b hb
  rcases List.mem_cons.mp hb with rfl | hb
  · exact isDigit_digit _
  · obtain ⟨x, -, rfl⟩ := List.mem_map.mp hb
    exact isDigit_digit _

theorem gives_intLoop {ds temp : List UInt8} (fuel : Nat) (hds : ∀ b ∈ ds, isDigit b = true) (h : At (ds ++ l) cs t)
    (hl : isDigit (l.headD 0) = false) (hseen : ds ++ l ≠ [] → 1 ≤ t.seen) (hfuel : ds.length < fuel)
    (hroom : temp.length ≤ 2 ^ 31) :
    GivesIf ((temp ++ ds).length ≤ 2 ^ 31) (intLoop fuel temp ((ds ++ l).headD 0)) t fun r t' =>
      r = temp ++ ds ∧ At l cs t' := by
  induction ds generalizing t fuel temp with
  | nil =>
    obtain ⟨fuel, rfl⟩ := Nat.exists_eq_add_of_lt hfuel
    rw [intLoop, List.nil_append, if_neg (by rw [hl]; decide), List.append_nil]
    exact .pure hroom ⟨rfl, h⟩
  | cons d ds ih =>
    cases fuel with
    | zero => exact absurd hfuel (Nat.not_lt_zero _)
    | succ fuel =>
      change GivesIf _ (intLoop (fuel + 1) temp d) t _
      rw [intLoop, if_pos (hds d List.mem_cons_self)]
      refine (gives_next h (hseen (List.cons_ne_nil _ _))).andThen fun _ t₁ hat => ?_
      obtain ⟨_, h₁, _⟩ := hat
      refine .byte lt_of_more fun hfits => ?_
      refine (gives_peek h₁).andThen fun ch t₂ hat => ?_
      obtain ⟨hch, h₂, hseen₂⟩ := hat
      subst hch
      rw [List.append_cons temp d]
      exact ih fuel (fun b hb => hds b (List.mem_cons_of_mem _ hb)) h₂ hseen₂ (Nat.lt_of_succ_lt_succ hfuel)
        (length_more hfits)

/-- Digits with or without a sign. -/
theorem gives_parseInt {sign temp : List UInt8} {d : Digits} {fuel : Nat} (hsign : sign = [] ∨ sign = [45] ∨ sign = [43])
    (h : At (sign ++ (d.text ++ l)) cs t) (hl : isDigit (l.headD 0) = false) (hfuel : d.text.length < fuel)
    (hroom : temp.length ≤ 2 ^ 31) :
    GivesIf ((temp ++ (sign ++ d.text)).length ≤ 2 ^ 31) (parseInt fuel temp) t fun r t' =>
      r = temp ++ (sign ++ d.text) ∧ At l cs t' := by
  have hloop (temp : List UInt8) (t : Text F) (h : At (d.text ++ l) cs t) (hseen : 1 ≤ t.seen)
      (hroom : temp.length ≤ 2 ^ 31) :
      GivesIf ((temp ++ d.text).length ≤ 2 ^ 31) (intLoop fuel temp (digit d.first)) t fun r t' =>
        r = temp ++ d.text ∧ At l cs t' :=
    gives_intLoop fuel d.isDigit_text h hl (fun _ => hseen) hfuel hroom
  have hfirst : ¬ (digit d.first = 45 ∨ digit d.first = 43) := by
    generalize d.first = x
    revert x
    decide
  have hsigned (ch : UInt8) (hch : ch = 45 ∨ ch = 43) (h : At (ch :: (d.text ++ l)) cs t) :
      GivesIf ((temp ++ ([ch] ++ d.text)).length ≤ 2 ^ 31) (parseInt fuel temp) t fun r t' =>
        r = temp ++ ([ch] ++ d.text) ∧ At l cs t' := by
    refine (gives_peek h).andThen fun ch' t₁ ⟨hch', h₁, hseen₁⟩ => ?_
    rw [show ch' = ch from hch', if_pos hch]
    refine .byte lt_of_more fun hfits => ?_
    refine (gives_next h₁ (hseen₁ (List.cons_ne_nil _ _))).andThen fun ch' t₂ ⟨hch', h₂, hseen₂⟩ => ?_
    rw [show ch' = digit d.first from hch']
    refine (gives_expect (isDigit_digit d.first)).andThen fun _ t₃ ht => ?_
    subst ht
    rw [← List.append_assoc]
    exact hloop (temp ++ [ch]) t₃ h₂ (hseen₂ (List.cons_ne_nil _ _)) (length_more hfits)
  rcases hsign with rfl | rfl | rfl
  · refine (gives_peek h).andThen fun ch t₁ ⟨hch, h₁, hseen₁⟩ => ?_
    subst hch
    change GivesIf _ (if digit d.first = 45 ∨ digit d.first = 43 then _ else _) t₁ _
    rw [if_neg hfirst]
    exact hloop temp t₁ h₁ (hseen₁ (List.cons_ne_nil _ _)) hroom
  · exact hsigned 45 (.inl rfl) h
  · exact hsigned 43 (.inr rfl) h

theorem gives_fractionLoop {ds temp : List UInt8} (fuel : Nat) (hds : ∀ b ∈ ds, isDigit b = true) (h : At (ds ++ l) cs t)
    (hl : isDigit (l.headD 0) = false) (hfuel : ds.length < fuel) (hroom : temp.length ≤ 2 ^ 31) :
    GivesIf ((temp ++ ds).length ≤ 2 ^ 31) (fractionLoop fuel temp) t fun r t' =>
      r = (temp ++ ds, l.headD 0) ∧ At l cs t' ∧ (l ≠ [] → 1 ≤ t'.seen) := by
  induction ds generalizing t fuel temp with
  | nil =>
    obtain ⟨fuel, rfl⟩ := Nat.exists_eq_add_of_lt hfuel
    refine (gives_peek h).andThen fun ch t₁ hat => ?_
    obtain ⟨hch, h₁, hseen₁⟩ := hat
    subst hch
    rw [List.nil_append, if_neg (by rw [hl]; decide), List.append_nil]
    exact .pure hroom ⟨rfl, h₁, hseen₁⟩
  | cons d ds ih =>
    cases fuel with
    | zero => exact absurd hfuel (Nat.not_lt_zero _)
    | succ fuel =>
      refine (gives_peek h).andThen fun ch t₁ hat => ?_
      obtain ⟨hch, h₁, hseen₁⟩ := hat
      rw [show ch = d from hch, if_pos (hds d List.mem_cons_self)]
      refine .byte lt_of_more fun hfits => ?_
      refine (gives_next h₁ (hseen₁ (List.cons_ne_nil _ _))).andThen fun _ t₂ hat => ?_
      obtain ⟨_, h₂, _⟩ := hat
      rw [List.append_cons temp d]
      exact ih fuel (fun b hb => hds b (List.mem_cons_of_mem _ hb)) h₂ (Nat.lt_of_succ_lt_succ hfuel) (length_more hfits)

theorem gives_fraction {fuel : Nat} (h : At (n.fracText ++ l) cs t)
    (hl : isDigit (l.headD 0) = false ∧ l.headD 0 ≠ 46) (hfuel : n.fracText.length < fuel)
    (hroom : temp.length ≤ 2 ^ 31) :
    GivesIf ((temp ++ n.fracText).length ≤ 2 ^ 31) (fraction fuel temp) t fun r t' =>
      r = (temp ++ n.fracText, l.headD 0) ∧ At l cs t' ∧ (l ≠ [] → 1 ≤ t'.seen) := by
  cases hfrac : n.frac with
  | none =>
    have htext : n.fracText = [] := by rw [Number.fracText, hfrac]
    rw [htext] at h ⊢
    refine (gives_peek h).andThen fun ch t₁ ⟨hch, h₁, hseen₁⟩ => ?_
    subst hch
    rw [List.nil_append, if_neg hl.2, List.append_nil]
    exact .pure hroom ⟨rfl, h₁, hseen₁⟩
  | some d =>
    have htext : n.fracText = 46 :: d.text := by rw [Number.fracText, hfrac]
    rw [htext] at h hfuel ⊢
    refine (gives_peek h).andThen fun ch t₁ ⟨hch, h₁, hseen₁⟩ => ?_
    rw [show ch = 46 from hch, if_pos rfl]
    refine .byte lt_of_more fun hfits => ?_
    refine (gives_next h₁ (hseen₁ (List.cons_ne_nil _ _))).andThen fun _ t₂ ⟨_, h₂, _⟩ => ?_
    rw [List.append_cons temp 46]
    exact gives_fractionLoop fuel d.isDigit_text h₂ hl.1 (Nat.lt_of_succ_lt hfuel) (length_more hfits)

/-- What comes behind a number. -/
structure Stops (l : List UInt8) : Prop where
  digit : isDigit (l.headD 0) = false
  point : l.headD 0 ≠ 46
  exponent : ¬ (l.headD 0 = 101 ∨ l.headD 0 = 69)

theorem gives_exponent {fuel : Nat} (h : At (n.expText ++ l) cs t) (hl : Stops l)
    (hseen : n.expText ++ l ≠ [] → 1 ≤ t.seen) (hfuel : n.expText.length < fuel) (hroom : temp.length ≤ 2 ^ 31) :
    GivesIf ((temp ++ n.expText).length ≤ 2 ^ 31) (exponent fuel temp ((n.expText ++ l).headD 0)) t fun r t' =>
      r = temp ++ n.expText ∧ At l cs t' := by
  cases hexp : n.exp with
  | none =>
    have htext : n.expText = [] := by rw [Number.expText, hexp]
    rw [htext, List.nil_append] at h
    rw [htext, List.nil_append, exponent, if_neg hl.exponent, List.append_nil]
    exact .pure hroom ⟨rfl, h⟩
  | some e =>
    have htext : n.expText = e.letter :: (e.sign.text ++ e.digits.text) := by rw [Number.expText, hexp]
    have hletter : e.letter = 101 ∨ e.letter = 69 := by
      rw [Exponent.letter]
      split
      · exact .inr rfl
      · exact .inl rfl
    have hsign : e.sign.text = [] ∨ e.sign.text = [45] ∨ e.sign.text = [43] := by
      cases e.sign with
      | none => exact .inl rfl
      | plus => exact .inr (.inr rfl)
      | minus => exact .inr (.inl rfl)
    rw [htext, List.cons_append, List.append_assoc] at h hseen
    rw [htext, List.length_cons, List.length_append] at hfuel
    rw [htext, List.cons_append, List.headD_cons, exponent, if_pos hletter]
    refine .byte lt_of_more fun hfits => ?_
    refine (gives_next h (hseen (List.cons_ne_nil _ _))).andThen fun _ t₁ hat => ?_
    obtain ⟨_, h₁, _⟩ := hat
    rw [List.append_cons temp e.letter]
    exact gives_parseInt hsign h₁ hl.digit (by omega) (length_more hfits)

theorem gives_parseNumber {strtod : List UInt8 → F} {fuel : Nat} (h : At (n.text ++ l) cs t) (hl : Stops l)
    (hfuel : n.text.length < fuel) :
    GivesIf (n.text.length < 2 ^ 31) (parseNumber strtod fuel) t fun _ t' =>
      At l (cs ++ [.onNumber (strtod n.text)]) t' := by
  have hsign : (if n.minus then [45] else [] : List UInt8) = [] ∨ (if n.minus then [45] else [] : List UInt8) = [45] ∨
      (if n.minus then [45] else [] : List UInt8) = [43] := by
    split
    · exact .inr (.inl rfl)
    · exact .inl rfl
  have hexp : isDigit ((n.expText ++ l).headD 0) = false ∧ (n.expText ++ l).headD 0 ≠ 46 := by
    rw [Number.expText]
    cases n.exp with
    | none => exact ⟨hl.digit, hl.point⟩
    | some e =>
      change isDigit e.letter = false ∧ e.letter ≠ 46
      rw [Exponent.letter]
      split
      · decide
      · decide
  have hfrac : isDigit ((n.fracText ++ (n.expText ++ l)).headD 0) = false := by
    rw [Number.fracText]
    cases n.frac with
    | none => exact hexp.1
    | some d => exact (by decide : isDigit 46 = false)
  rw [Number.text, Number.intText] at hfuel
  simp only [List.length_append] at hfuel
  have htext : n.text ++ l = (if n.minus then [45] else []) ++ (n.int.text ++ (n.fracText ++ (n.expText ++ l))) := by
    simp only [Number.text, Number.intText, List.append_assoc]
  rw [htext] at h
  have hpush {temp : List UInt8} (t : Text F) (h : At l cs t) :
      GivesIf (temp.length < 2 ^ 31) (do
        let _ ← append temp 0
        call (.onNumber (strtod temp))) t fun _ t' => At l (cs ++ [.onNumber (strtod temp)]) t' :=
    .byte id fun hfits => (gives_call h).always.mono (iff_of_true trivial hfits) fun _ _ h' => h'
  have hS : n.intText.length ≤ 2 ^ 31 ∧ (n.intText ++ n.fracText).length ≤ 2 ^ 31 ∧ n.text.length ≤ 2 ^ 31 ∧
      n.text.length < 2 ^ 31 ↔ n.text.length < 2 ^ 31 := by
    simp only [Number.text, List.length_append]
    omega
  refine GivesIf.mono ?_ hS fun _ _ h' => h'
  refine (gives_parseInt hsign h hfrac (by omega) (Nat.zero_le _)).andThen fun temp t₁ hS₁ ⟨htemp, h₁⟩ => ?_
  subst htemp
  refine (gives_fraction h₁ hexp (by omega) hS₁).andThen fun r t₂ hS₂ ⟨hr, h₂, hseen₂⟩ => ?_
  subst hr
  refine (gives_exponent h₂ hl hseen₂ (by omega) hS₂).andThen fun temp' t₃ hS₃ ⟨htemp', h₃⟩ => ?_
  subst htemp'
  exact hpush t₃ h₃

/-- No value begins with white space or with a bracket that closes. -/
theorem Doc.head (d : Doc) : ∃ c l, d.text = c :: l ∧ isSpace c = false ∧ c ≠ 93 := by
  cases d with
  | null => exact ⟨_, _, rfl, by decide⟩
  | bool b =>
    cases b with
    | true => exact ⟨_, _, rfl, by decide⟩
    | false => exact ⟨_, _, rfl, by decide⟩
  | string s => exact ⟨_, _, rfl, by decide⟩
  | emptyArray gap => exact ⟨_, _, rfl, by decide⟩
  | array items => exact ⟨_, _, rfl, by decide⟩
  | emptyObject gap => exact ⟨_, _, rfl, by decide⟩
  | object members => exact ⟨_, _, rfl, by decide⟩
  | number n =>
    cases hm : n.minus with
    | true =>
      refine ⟨45, n.int.text ++ n.fracText ++ n.expText, ?_, by decide⟩
      rw [Doc.text, Number.text, Number.intText, hm]
      rfl
    | false =>
      refine ⟨digit n.int.first, n.int.more.map digit ++ n.fracText ++ n.expText, ?_, ?_⟩
      · rw [Doc.text, Number.text, Number.intText, hm]
        rfl
      · generalize n.int.first = d
        revert d
        decide

theorem Doc.dropWhile_text (d : Doc) : (d.text ++ l).dropWhile isSpace = d.text ++ l := by
  obtain ⟨c, l', htext, hspace, -⟩ := d.head
  rw [htext, List.cons_append, List.dropWhile_cons, if_neg (by rw [hspace]; decide)]

theorem Quoted.dropWhile_text (s : Quoted) : (s.text ++ l).dropWhile isSpace = s.text ++ l := by
  rw [Quoted.text, List.cons_append, List.dropWhile_cons, if_neg (by decide)]

theorem stops_cons {c : UInt8} (hc : isDigit c = false ∧ c ≠ 46 ∧ ¬ (c = 101 ∨ c = 69)) : Stops (c :: l) :=
  ⟨hc.1, hc.2.1, hc.2.2⟩

theorem stops_nil : Stops [] := ⟨by decide, by decide, by decide⟩

theorem Gap.stops (gap : Gap) (hl : Stops l) : Stops (gap.text ++ l) := by
  cases gap with
  | nil => exact hl
  | cons w gap =>
    refine stops_cons (l := Gap.text gap ++ l) ?_
    cases w with
    | space => decide
    | tab => decide
    | lineFeed => decide
    | carriageReturn => decide

/-- The text of items, without the white space in front. -/
theorem Items.dropWhile_text (items : Items) :
    ∃ c l', (items.text ++ l).dropWhile isSpace = c :: l' ∧ c ≠ 93 := by
  cases items with
  | last before item behind =>
    obtain ⟨c, l', htext, -, hc⟩ := item.head
    rw [Items.text, List.append_assoc, List.append_assoc, Gap.dropWhile_text, Doc.dropWhile_text, htext]
    exact ⟨c, _, rfl, hc⟩
  | more before item behind items =>
    obtain ⟨c, l', htext, -, hc⟩ := item.head
    rw [Items.text, List.append_assoc, List.append_assoc, Gap.dropWhile_text, Doc.dropWhile_text, htext]
    exact ⟨c, _, rfl, hc⟩

theorem Members.dropWhile_text (members : Members) :
    ∃ l', (members.text ++ l).dropWhile isSpace = 34 :: l' := by
  cases members with
  | last before key gap gap' item behind =>
    rw [Members.text, List.append_assoc, List.append_assoc, Gap.dropWhile_text, Quoted.dropWhile_text]
    exact ⟨_, rfl⟩
  | more before key gap gap' item behind members =>
    rw [Members.text, List.append_assoc, List.append_assoc, Gap.dropWhile_text, Quoted.dropWhile_text]
    exact ⟨_, rfl⟩

theorem length_dropWhile_le (l : List UInt8) : (l.dropWhile isSpace).length ≤ l.length :=
  (List.dropWhile_sublist isSpace).length_le

section Parse

variable {strtod : List UInt8 → F}

theorem Number.head (h : n.text = c :: l) :
    (c ≠ 34 ∧ c ≠ 91 ∧ c ≠ 123 ∧ c ≠ 102 ∧ ¬ (c = 116 ∨ c = 110)) ∧ (isDigit c ∨ c = 45) := by
  rw [Number.text, Number.intText] at h
  cases hm : n.minus with
  | true =>
    rw [hm] at h
    cases h
    decide
  | false =>
    rw [hm] at h
    cases h
    generalize n.int.first = d
    revert d
    decide

/-- A container: what is between its brackets is left to the loop, unless there is nothing. -/
theorem gives_container {S : Prop} {loop : Effect Failure (Text F) Unit} {first close : UInt8} {begin finish : Call F} {fuel : Nat}
    (h : At (first :: l) cs t) (hseen : 1 ≤ t.seen) (hdrop : l.dropWhile isSpace = c :: tail) (hfuel : l.length ≤ fuel)
    (hloop : ∀ t', At (c :: tail) (cs ++ [begin]) t' → 1 ≤ t'.seen →
      GivesIf S (if c ≠ close then loop else pure ()) t' fun _ t'' => At (close :: rest) cs' t'' ∧ 1 ≤ t''.seen) :
    GivesIf S (do
      skip 1
      call begin
      consumeSpace fuel
      let ch ← get 0
      (if ch ≠ close then loop else return ())
      skip 1
      call finish) t fun _ t' => At rest (cs' ++ [finish]) t' := by
  refine (gives_skip h hseen).andThen fun _ t₁ h₁ => ?_
  refine (gives_call h₁).andThen fun _ t₂ h₂ => ?_
  refine (gives_consumeSpace h₂ hdrop hfuel).andThen fun _ t₃ ⟨h₃, hseen₃⟩ => ?_
  refine (gives_head h₃ hseen₃).andThen fun ch t₄ ⟨ht, hch⟩ => ?_
  subst ht hch
  refine (hloop t₄ h₃ hseen₃).last fun _ t₅ ⟨h₅, hseen₅⟩ => ?_
  exact gives_keyword h₅ hseen₅

/-- One member of an object, up to the comma or the bracket behind it. -/
theorem gives_member {S S' : Prop} {parse next : Effect Failure (Text F) Unit} {key : Quoted} {gap gap' behind : Gap} {item : Doc}
    (ics : List (Call F)) {fuel : Nat} {Q : Unit → Text F → Prop} {m m' : String}
    (h : At (key.text ++ (gap.text ++ 58 :: (gap'.text ++ (item.text ++ (behind.text ++ c :: rest))))) cs t)
    (hseen : 1 ≤ t.seen) (hc : isSpace c = false)
    (hfuel : (key.text ++ (gap.text ++ 58 :: (gap'.text ++ (item.text ++ (behind.text ++ c :: rest))))).length ≤ fuel)
    (hitem : ∀ cs' t', At (item.text ++ (behind.text ++ c :: rest)) cs' t' →
      GivesIf S parse t' fun _ t'' => At (behind.text ++ c :: rest) (cs' ++ ics) t'')
    (hnext : ∀ t', At (c :: rest) (cs ++ .onString key.parsed :: ics) t' → 1 ≤ t'.seen → GivesIf S' next t' Q) :
    GivesIf (key.parsed.length ≤ 2 ^ 31 ∧ S ∧ S') (do
      expect ((← get 0) = 34) m
      parseString fuel
      consumeSpace fuel
      separator 58 m' fuel
      parse
      consumeSpace fuel
      next) t Q := by
  simp only [List.length_append, List.length_cons] at hfuel
  obtain ⟨c', tail, htext, -, -⟩ := item.head
  have hvalue : (gap'.text ++ (item.text ++ (behind.text ++ c :: rest))).dropWhile isSpace =
      c' :: (tail ++ (behind.text ++ c :: rest)) := by
    rw [Gap.dropWhile_text, Doc.dropWhile_text, htext]
    rfl
  have hquote : At (34 :: (key.flatMap Piece.text ++ [34] ++
      (gap.text ++ 58 :: (gap'.text ++ (item.text ++ (behind.text ++ c :: rest)))))) cs t := h
  refine (gives_head hquote hseen).andThen fun ch t₁ ⟨ht, hch⟩ => ?_
  subst ht
  refine (gives_expect hch).andThen fun _ t₂ ht => ?_
  subst ht
  refine (Quoted.gives h hseen (by omega)).andThen fun _ t₃ _ h₃ => ?_
  refine (gives_consumeSpace h₃ (gap.dropWhile_cons rfl) (by
    simp only [List.length_append, List.length_cons]
    omega)).andThen fun _ t₄ ⟨h₄, hseen₄⟩ => ?_
  refine (gives_separator h₄ hseen₄ hvalue (by
    simp only [List.length_append, List.length_cons]
    omega)).andThen fun _ t₅ ⟨h₅, _⟩ => ?_
  rw [← List.cons_append, ← htext] at h₅
  refine (hitem _ t₅ h₅).andThen fun _ t₆ _ h₆ => ?_
  rw [List.append_assoc] at h₆
  refine (gives_consumeSpace h₆ (behind.dropWhile_cons hc) (by
    simp only [List.length_append, List.length_cons]
    omega)).andThen fun _ t₇ ⟨h₇, hseen₇⟩ => ?_
  exact hnext t₇ h₇ hseen₇

mutual

/-- The parser goes through the text of a value, with white space in front, and makes its calls. -/
theorem Doc.gives (d : Doc) (fuel : Nat) {t : Text F} {lt l : List UInt8} {cs : List (Call F)} (h : At lt cs t)
    (htext : lt.dropWhile isSpace = d.text ++ l) (hl : Stops l) (hfuel : lt.length + 2 ≤ fuel) :
    GivesIf d.Short (parse strtod fuel) t fun _ t' => At l (cs ++ d.calls strtod) t' := by
  have hlen := length_dropWhile_le lt
  obtain ⟨c, tail, hhead, -, -⟩ := d.head
  have hdrop : lt.dropWhile isSpace = c :: (tail ++ l) := by
    rw [htext, hhead]
    rfl
  have hbody : (tail ++ l).length < lt.length := by
    rw [hdrop] at hlen
    exact hlen
  rw [htext, List.length_append] at hlen
  match fuel with
  | 0 => omega
  | fuel + 1 =>
    rw [parse]
    refine (gives_consumeSpace h hdrop (by omega)).andThen fun _ t₁ ⟨h₁, hseen₁⟩ => ?_
    refine (gives_head h₁ hseen₁).andThen fun ch t₂ ⟨ht, hch⟩ => ?_
    subst ht hch
    match d with
    | .null =>
      cases hhead
      exact (gives_null h₁).always
    | .bool true =>
      cases hhead
      exact (gives_true h₁).always
    | .bool false =>
      cases hhead
      exact (gives_false h₁).always
    | .number n =>
      obtain ⟨⟨h34, h91, h123, h102, hword⟩, hnumber⟩ := n.head hhead
      rw [if_neg h34, if_neg h91, if_neg h123, if_neg h102, if_neg hword, if_pos hnumber]
      rw [← List.cons_append, ← hhead] at h₁
      change n.text.length + _ ≤ _ at hlen
      exact gives_parseNumber h₁ hl (by omega)
    | .string s =>
      cases hhead
      change s.text.length + _ ≤ _ at hlen
      exact Quoted.gives h₁ hseen₁ (by omega)
    | .emptyArray gap =>
      cases hhead
      rw [List.append_assoc] at h₁ hbody
      rw [Doc.calls, List.append_cons]
      refine gives_container h₁ hseen₁ (gap.dropWhile_cons rfl) (by omega) fun t₃ h₃ hseen₃ => ?_
      rw [if_neg (by decide)]
      exact .pure trivial ⟨h₃, hseen₃⟩
    | .emptyObject gap =>
      cases hhead
      rw [List.append_assoc] at h₁ hbody
      rw [Doc.calls, List.append_cons]
      refine gives_container h₁ hseen₁ (gap.dropWhile_cons rfl) (by omega) fun t₃ h₃ hseen₃ => ?_
      rw [if_neg (by decide)]
      exact .pure trivial ⟨h₃, hseen₃⟩
    | .array items =>
      cases hhead
      have htail : items.text ++ [93] ++ l = items.text ++ 93 :: l := List.append_assoc ..
      rw [htail] at hbody h₁
      obtain ⟨c, tail, hitems, hc⟩ := items.dropWhile_text (l := 93 :: l)
      have hle := length_dropWhile_le (items.text ++ 93 :: l)
      rw [hitems] at hle
      rw [Doc.calls, List.append_cons, ← List.append_assoc]
      refine gives_container h₁ hseen₁ hitems (by omega) fun t₃ h₃ hseen₃ => ?_
      rw [if_pos hc]
      refine Items.gives items fuel fuel h₃ ?_ (by omega) (by omega)
      rw [← hitems, List.dropWhile_idempotent]
    | .object members =>
      cases hhead
      have htail : members.text ++ [125] ++ l = members.text ++ 125 :: l := List.append_assoc ..
      rw [htail] at hbody h₁
      obtain ⟨tail, hmembers⟩ := members.dropWhile_text (l := 125 :: l)
      have hle := length_dropWhile_le (members.text ++ 125 :: l)
      rw [hmembers] at hle
      rw [Doc.calls, List.append_cons, ← List.append_assoc]
      refine gives_container h₁ hseen₁ hmembers (by omega) fun t₃ h₃ hseen₃ => ?_
      rw [if_pos (by decide)]
      exact Members.gives members fuel fuel h₃ hmembers.symm hseen₃ (by omega) (by omega)

/-- The loop goes through the items. -/
theorem Items.gives (items : Items) (bound fuel : Nat) {t : Text F} {lt l : List UInt8} {cs : List (Call F)} (h : At lt cs t)
    (htext : lt.dropWhile isSpace = (items.text ++ 93 :: l).dropWhile isSpace) (hbound : lt.length + 2 ≤ bound)
    (hfuel : lt.length < fuel) :
    GivesIf items.Short (arrayLoop (parse strtod bound) fuel) t fun _ t' =>
      At (93 :: l) (cs ++ items.calls strtod) t' ∧ 1 ≤ t'.seen := by
  have hlen := length_dropWhile_le lt
  match fuel with
  | 0 => exact absurd hfuel (Nat.not_lt_zero _)
  | fuel + 1 =>
    rw [arrayLoop]
    match items with
    | .last before item behind =>
      rw [Items.text, List.append_assoc, List.append_assoc, Gap.dropWhile_text, Doc.dropWhile_text] at htext
      rw [htext, List.length_append] at hlen
      refine (Doc.gives item bound h htext (behind.stops (stops_cons (by decide))) hbound).last fun _ t₁ h₁ => ?_
      refine (gives_consumeSpace h₁ (behind.dropWhile_cons rfl) (by omega)).bind fun _ t₂ ⟨h₂, hseen₂⟩ => ?_
      refine (gives_head h₂ hseen₂).bind fun ch t₃ ⟨ht, hch⟩ => ?_
      subst ht hch
      rw [if_pos rfl]
      exact .pure ⟨h₂, hseen₂⟩
    | .more before item behind items =>
      rw [Items.text, List.append_assoc, List.append_assoc, List.append_assoc, Gap.dropWhile_text,
        Doc.dropWhile_text] at htext
      rw [htext, List.length_append] at hlen
      refine (Doc.gives item bound h htext (behind.stops (stops_cons (by decide))) hbound).andThen fun _ t₁ _ h₁ => ?_
      have hbehind : (behind.text ++ (44 :: items.text ++ 93 :: l)).dropWhile isSpace = 44 :: (items.text ++ 93 :: l) :=
        behind.dropWhile_cons rfl
      refine (gives_consumeSpace h₁ hbehind (by omega)).andThen fun _ t₂ ⟨h₂, hseen₂⟩ => ?_
      refine (gives_head h₂ hseen₂).andThen fun ch t₃ ⟨ht, hch⟩ => ?_
      subst ht hch
      rw [if_neg (by decide)]
      obtain ⟨c, tail, hitems, -⟩ := items.dropWhile_text (l := 93 :: l)
      have hle := length_dropWhile_le (items.text ++ 93 :: l)
      have hle' := length_dropWhile_le (behind.text ++ (44 :: items.text ++ 93 :: l))
      have hhead : 0 < item.text.length := by
        obtain ⟨c', tail', htext', -⟩ := item.head
        rw [htext']
        exact Nat.zero_lt_succ _
      rw [hbehind, List.length_cons] at hle'
      rw [hitems] at hle
      refine (gives_separator h₂ hseen₂ hitems (by omega)).andThen fun _ t₄ ⟨h₄, hseen₄⟩ => ?_
      rw [Items.calls, ← List.append_assoc]
      refine Items.gives items bound fuel h₄ ?_ (by omega) (by omega)
      rw [← hitems, List.dropWhile_idempotent]

theorem Members.gives (members : Members) (bound fuel : Nat) {t : Text F} {lt l : List UInt8} {cs : List (Call F)}
    (h : At lt cs t) (htext : lt = (members.text ++ 125 :: l).dropWhile isSpace) (hseen : 1 ≤ t.seen)
    (hbound : lt.length + 2 ≤ bound) (hfuel : lt.length < fuel) :
    GivesIf members.Short (objectLoop (parse strtod bound) fuel) t fun _ t' =>
      At (125 :: l) (cs ++ members.calls strtod) t' ∧ 1 ≤ t'.seen := by
  match fuel with
  | 0 => exact absurd hfuel (Nat.not_lt_zero _)
  | fuel + 1 =>
    rw [objectLoop]
    match members with
    | .last before key gap gap' item behind =>
      have hlt : lt = key.text ++ (gap.text ++ 58 :: (gap'.text ++ (item.text ++ (behind.text ++ 125 :: l)))) := by
        rw [htext, Members.text]
        simp only [List.append_assoc, List.cons_append]
        rw [Gap.dropWhile_text, Quoted.dropWhile_text]
      subst hlt
      have hS : key.parsed.length ≤ 2 ^ 31 ∧ item.Short ∧ True ↔ Members.Short (.last before key gap gap' item behind) := by
        rw [and_true, Members.Short]
      refine GivesIf.mono ?_ hS fun _ _ h' => h'
      refine gives_member (item.calls strtod) h hseen (by decide) (by omega) (fun cs' t₁ h₁ => ?_) (fun t₂ h₂ hseen₂ => ?_)
      · refine Doc.gives item bound h₁ item.dropWhile_text (behind.stops (stops_cons (by decide))) ?_
        simp only [List.length_append, List.length_cons] at hbound ⊢
        omega
      · refine (gives_head h₂ hseen₂).andThen fun ch t₃ ⟨ht, hch⟩ => ?_
        subst ht hch
        rw [if_pos rfl]
        exact .pure trivial ⟨h₂, hseen₂⟩
    | .more before key gap gap' item behind members =>
      have hlt : lt = key.text ++ (gap.text ++ 58 :: (gap'.text ++ (item.text ++ (behind.text ++
          44 :: (members.text ++ 125 :: l))))) := by
        rw [htext, Members.text]
        simp only [List.append_assoc, List.cons_append]
        rw [Gap.dropWhile_text, Quoted.dropWhile_text]
      subst hlt
      refine gives_member (item.calls strtod) h hseen (by decide) (by omega) (fun cs' t₁ h₁ => ?_) (fun t₂ h₂ hseen₂ => ?_)
      · refine Doc.gives item bound h₁ item.dropWhile_text (behind.stops (stops_cons (by decide))) ?_
        simp only [List.length_append, List.length_cons] at hbound ⊢
        omega
      · refine (gives_head h₂ hseen₂).andThen fun ch t₃ ⟨ht, hch⟩ => ?_
        subst ht hch
        rw [if_neg (by decide)]
        obtain ⟨tail, hmembers⟩ := members.dropWhile_text (l := 125 :: l)
        have hle := length_dropWhile_le (members.text ++ 125 :: l)
        rw [hmembers] at hle
        have hrest : (members.text ++ 125 :: l).length + 2 ≤ (key.text ++ (gap.text ++ 58 :: (gap'.text ++ (item.text ++
            (behind.text ++ 44 :: (members.text ++ 125 :: l)))))).length := by
          simp only [List.length_append, List.length_cons]
          omega
        refine (gives_separator h₂ hseen₂ hmembers (by omega)).andThen fun _ t₄ ⟨h₄, hseen₄⟩ => ?_
        have hloop := Members.gives members bound fuel h₄ hmembers.symm hseen₄ (by omega) (by omega)
        rw [List.append_assoc] at hloop
        exact hloop

end

end Parse

end Json2

end Crack
