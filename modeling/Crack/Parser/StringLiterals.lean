import Crack.Lang.AppendRoom
import Crack.Parser.Scanning

/-!
# String literals

What a text between quotes spells: plain characters and escapes. The representation of a
buffer as a literal is read back as the buffer.
-/
namespace Crack

namespace Lexer

open State

def isOctal (ch : UInt8) : Bool := isDigit ch && ch < chr '8'

/-- The letters after a backslash. -/
def escapeLetters : List (UInt8 × UInt8) := [(chr 't', 9), (chr 'n', 10), (chr 'a', 7), (chr 'r', 13), (chr 'b', 8)]

/-- The code of octal digits after those of `code`, in a character. -/
def octalValue : UInt8 → List UInt8 → UInt8 := List.foldl fun code d => code <<< 3 ||| (d - chr '0')

/-- `text` between two `quote`s stands for `bytes`. A line end after a backslash stands for
nothing, but not in an indented string. -/
inductive Spells (quote : UInt8) (indented : Bool) : List UInt8 → List UInt8 → Prop where
  | nil : Spells quote indented [] []
  | plain {ch : UInt8} {text bytes : List UInt8} (hquote : ch ≠ quote) (hback : ch ≠ chr '\\')
      (h : Spells quote indented text bytes) : Spells quote indented (ch :: text) (ch :: bytes)
  | letter {c b : UInt8} {text bytes : List UInt8} (hin : (c, b) ∈ escapeLetters) (h : Spells quote indented text bytes) :
      Spells quote indented (chr '\\' :: c :: text) (b :: bytes)
  | hex {c₁ c₂ v₁ v₂ : UInt8} {text bytes : List UInt8} (h₁ : hexValue c₁ = some v₁) (h₂ : hexValue c₂ = some v₂)
      (h : Spells quote indented text bytes) :
      Spells quote indented (chr '\\' :: chr 'x' :: c₁ :: c₂ :: text) ((v₁ <<< 4 ||| v₂) :: bytes)
  | octal {d : UInt8} {ds text bytes : List UInt8} (hd : isOctal d = true) (hds : ∀ c ∈ ds, isOctal c = true)
      (hlen : ds.length ≤ 2) (hend : ds.length = 2 ∨ ∀ c ∈ (text ++ [quote]).head?, isOctal c = false)
      (h : Spells quote indented text bytes) :
      Spells quote indented (chr '\\' :: d :: (ds ++ text)) (octalValue 0 (d :: ds) :: bytes)
  | itself {ch : UInt8} {text bytes : List UInt8} (hletter : ∀ b, (ch, b) ∉ escapeLetters) (hx : ch ≠ chr 'x')
      (hline : ch ≠ chr '\n') (hoctal : isOctal ch = false) (h : Spells quote indented text bytes) :
      Spells quote indented (chr '\\' :: ch :: text) (ch :: bytes)
  | continuation {text bytes : List UInt8} (hindented : indented = false) (h : Spells quote indented text bytes) :
      Spells quote indented (chr '\\' :: chr '\n' :: text) bytes

section Scans

variable {i : Indent} {l : Locals} {ch : UInt8} {rest : List UInt8}

/-- The locals after some characters of a string. -/
def Locals.spelled (l l' : Locals) (bytes : List UInt8) : Prop :=
  l'.buf = l.buf ++ bytes ∧ l'.terminator = l.terminator ∧ l'.t1 = l.t1

theorem Locals.spelled_put (l : Locals) (bytes : List UInt8) : l.spelled (l.put bytes) bytes := ⟨rfl, rfl, rfl⟩

theorem Locals.spelled.trans {l₁ l₂ l₃ : Locals} {bytes₁ bytes₂ : List UInt8} (h₁ : l₁.spelled l₂ bytes₁)
    (h₂ : l₂.spelled l₃ bytes₂) : l₁.spelled l₃ (bytes₁ ++ bytes₂) :=
  ⟨by rw [h₂.1, h₁.1, List.append_assoc], h₂.2.1.trans h₁.2.1, h₂.2.2.trans h₁.2.2⟩

theorem scan_backslash (hq : l.terminator ≠ chr '\\') :
    scan stString i l (chr '\\' :: rest) = scan stStrEscapeChar i l rest := by
  apply scan_go
  simp only [transition, if_neg (Ne.symm hq), if_true]

theorem scan_plain (hquote : ch ≠ l.terminator) (hback : ch ≠ chr '\\') :
    scan stString i l (ch :: rest) = scan stString i (l.put [ch]) rest := by
  apply scan_go
  simp only [transition, if_neg hquote, if_neg hback]

theorem scan_letter {b : UInt8} (hin : (ch, b) ∈ escapeLetters) :
    scan stStrEscapeChar i l (ch :: rest) = scan stString i (l.put [b]) rest := by
  apply scan_go
  simp only [escapeLetters, List.mem_cons, List.not_mem_nil, or_false, Prod.mk.injEq] at hin
  rcases hin with ⟨rfl, rfl⟩ | ⟨rfl, rfl⟩ | ⟨rfl, rfl⟩ | ⟨rfl, rfl⟩ | ⟨rfl, rfl⟩ <;> rfl

theorem scan_itself (hletter : ∀ b, (ch, b) ∉ escapeLetters) (hx : ch ≠ chr 'x') (hline : ch ≠ chr '\n')
    (hoctal : isOctal ch = false) : scan stStrEscapeChar i l (ch :: rest) = scan stString i (l.put [ch]) rest := by
  have hne (b c : UInt8) (hin : (c, b) ∈ escapeLetters) : ch ≠ c := fun h => hletter b (h ▸ hin)
  have ht := hne 9 (chr 't') (by decide)
  have hn := hne 10 (chr 'n') (by decide)
  have ha := hne 7 (chr 'a') (by decide)
  have hr := hne 13 (chr 'r') (by decide)
  have hb := hne 8 (chr 'b') (by decide)
  have hdigit : (isDigit ch && decide (ch < chr '8')) = false := hoctal
  apply scan_go
  simp only [transition, escapeChar, if_neg ht, if_neg hn, if_neg ha, if_neg hr, if_neg hb, if_neg hx, if_neg hline,
    hdigit, Bool.false_eq_true, if_false]

theorem scan_continuation (hindented : i.indentedString = false) :
    scan stStrEscapeChar i l (chr '\n' :: rest) = scan stString i l rest := by
  apply scan_go
  simp only [transition, escapeChar, hindented]
  rfl

theorem scan_hex {c₁ c₂ v₁ v₂ : UInt8} (h₁ : hexValue c₁ = some v₁) (h₂ : hexValue c₂ = some v₂) :
    ∃ l', l.spelled l' [v₁ <<< 4 ||| v₂] ∧
      scan stStrEscapeChar i l (chr 'x' :: c₁ :: c₂ :: rest) = scan stString i l' rest := by
  let l₁ : Locals := { l with codeChar := 0, codeLen := 0 }
  let l₂ : Locals := { l with codeChar := v₁, codeLen := 1 }
  let l₃ : Locals := { l with codeChar := v₁ <<< 4 ||| v₂, codeLen := 2 }
  have hx : scan stStrEscapeChar i l (chr 'x' :: c₁ :: c₂ :: rest) = scan stStrHex i l₁ (c₁ :: c₂ :: rest) :=
    scan_go rfl
  have hfirst : scan stStrHex i l₁ (c₁ :: c₂ :: rest) = scan stStrHex i l₂ (c₂ :: rest) := by
    apply scan_go
    have hzero : (0 : UInt8) <<< 4 ||| v₁ = v₁ := by simp
    simp only [transition, hexCode, h₁, l₁, hzero]
    rfl
  have hsecond : scan stStrHex i l₂ (c₂ :: rest) = scan stString i (l₃.put [v₁ <<< 4 ||| v₂]) rest := by
    apply scan_go
    simp only [transition, hexCode, h₂, l₂]
    rfl
  exact ⟨l₃.put [v₁ <<< 4 ||| v₂], ⟨rfl, rfl, rfl⟩, hx.trans (hfirst.trans hsecond)⟩

theorem scan_firstOctal (h : isOctal ch = true) : scan stStrEscapeChar i l (ch :: rest) =
    scan stStrOctal i { l with codeChar := ch - chr '0', codeLen := 1 } rest := by
  have hne (c : UInt8) (hc : isOctal c = false) : ch ≠ c := by
    rintro rfl
    rw [hc] at h
    exact absurd h Bool.false_ne_true
  have hdigit : (isDigit ch && decide (ch < chr '8')) = true := h
  apply scan_go
  simp only [transition, escapeChar, if_neg (hne (chr 't') rfl), if_neg (hne (chr 'n') rfl), if_neg (hne (chr 'a') rfl),
    if_neg (hne (chr 'r') rfl), if_neg (hne (chr 'b') rfl), if_neg (hne (chr 'x') rfl), if_neg (hne (chr '\n') rfl),
    hdigit, if_true]

/-- Octal digits, up to three, and then a character that is put back. -/
theorem scan_octal {ds : List UInt8} (ch : UInt8) (rest : List UInt8) : ∀ l : Locals, (∀ d ∈ ds, isOctal d = true) → l.codeLen + ds.length ≤ 3 →
    (l.codeLen + ds.length = 3 ∨ isOctal ch = false) →
    ∃ l', l.spelled l' [octalValue l.codeChar ds] ∧
      scan stStrOctal i l (ds ++ ch :: rest) = scan stString i l' (ch :: rest) := by
  induction ds with
  | nil =>
    intro l _ _ hend
    refine ⟨l.put [l.codeChar], l.spelled_put _, scan_again ?_⟩
    have hstop : ¬ ((isDigit ch && decide (ch < chr '8') && decide (l.codeLen < 3)) = true) := by
      intro h
      obtain ⟨hoctal, hlen⟩ := Bool.and_eq_true_iff.mp h
      have hlt : l.codeLen < 3 := of_decide_eq_true hlen
      rcases hend with h3 | hno
      · simp only [List.length_nil, Nat.add_zero] at h3
        omega
      · exact absurd hoctal (by rw [show (isDigit ch && decide (ch < chr '8')) = false from hno]; exact Bool.false_ne_true)
    simp only [transition, octalCode, if_neg hstop]
  | cons d ds ih =>
    intro l hds hlen hend
    have hd : (isDigit d && decide (d < chr '8')) = true := hds d List.mem_cons_self
    have hlt : l.codeLen < 3 := by
      simp only [List.length_cons] at hlen
      omega
    let l₁ : Locals := { l with codeChar := l.codeChar <<< 3 ||| (d - chr '0'), codeLen := l.codeLen + 1 }
    have hgo : scan stStrOctal i l (d :: (ds ++ ch :: rest)) = scan stStrOctal i l₁ (ds ++ ch :: rest) := by
      apply scan_go
      simp only [transition, octalCode, hd, hlt, decide_true, Bool.and_self, if_true]
      rfl
    simp only [List.length_cons] at hlen hend
    obtain ⟨l', hl', hscan⟩ := ih l₁ (fun c hc => hds c (List.mem_cons_of_mem _ hc))
      (show l.codeLen + 1 + ds.length ≤ 3 by omega)
      (hend.imp_left fun h => show l.codeLen + 1 + ds.length = 3 by omega)
    exact ⟨l', hl', hgo.trans hscan⟩

/-- A text between quotes is read as what it stands for. -/
theorem scan_spells {quote : UInt8} (rest : List UInt8) {indented : Bool} {text bytes : List UInt8} (h : Spells quote indented text bytes)
    (hback : quote ≠ chr '\\') (hindented : i.indentedString = indented) :
    ∀ l : Locals, l.terminator = quote → ∃ l', l.spelled l' bytes ∧
      scan stString i l (text ++ quote :: rest) = scan stString i l' (quote :: rest) := by
  -- every part is read into the buffer, and then the parts after it
  have hpart {l l₁ l' : Locals} {bytes₁ bytes₂ : List UInt8} {text₁ text₂ : List UInt8} (hl₁ : l.spelled l₁ bytes₁)
      (hscan : scan stString i l text₁ = scan stString i l₁ text₂)
      (hrest : l₁.spelled l' bytes₂ ∧ scan stString i l₁ text₂ = scan stString i l' (quote :: rest)) :
      l.spelled l' (bytes₁ ++ bytes₂) ∧ scan stString i l text₁ = scan stString i l' (quote :: rest) :=
    ⟨hl₁.trans hrest.1, hscan.trans hrest.2⟩
  induction h with
  | nil => exact fun l _ => ⟨l, ⟨(List.append_nil _).symm, rfl, rfl⟩, rfl⟩
  | plain hquote hplain _ ih =>
    intro l hl
    obtain ⟨l', h'⟩ := ih (l.put [_]) hl
    exact ⟨l', hpart (l.spelled_put _) (scan_plain (hl ▸ hquote) hplain) h'⟩
  | letter hin _ ih =>
    intro l hl
    obtain ⟨l', h'⟩ := ih (l.put [_]) hl
    exact ⟨l', hpart (l.spelled_put _) ((scan_backslash (hl ▸ hback)).trans (scan_letter hin)) h'⟩
  | hex h₁ h₂ _ ih =>
    intro l hl
    obtain ⟨l₁, hl₁, hscan⟩ := scan_hex h₁ h₂
    obtain ⟨l', h'⟩ := ih l₁ (hl₁.2.1.trans hl)
    exact ⟨l', hpart hl₁ ((scan_backslash (hl ▸ hback)).trans hscan) h'⟩
  | @octal d ds text bytes hd hds hlen hend _ ih =>
    intro l hl
    let l₀ : Locals := { l with codeChar := d - chr '0', codeLen := 1 }
    have hstart : scan stStrEscapeChar i l (d :: (ds ++ (text ++ quote :: rest))) =
        scan stStrOctal i l₀ (ds ++ (text ++ quote :: rest)) := scan_firstOctal hd
    have hhead : ∃ ch more, text ++ quote :: rest = ch :: more ∧ ch ∈ (text ++ [quote]).head? := by
      cases text with
      | nil => exact ⟨quote, rest, rfl, rfl⟩
      | cons ch text => exact ⟨ch, text ++ quote :: rest, rfl, rfl⟩
    obtain ⟨ch, more, htext, hch⟩ := hhead
    obtain ⟨l₁, hl₁, hscan⟩ := scan_octal (i := i) ch more l₀ hds (show 1 + ds.length ≤ 3 by omega)
      (hend.imp (fun h => show 1 + ds.length = 3 by omega) fun h => h ch hch)
    rw [← htext] at hscan
    have hfirst : (0 : UInt8) <<< 3 ||| (d - chr '0') = d - chr '0' := by simp
    have hvalue : octalValue 0 (d :: ds) = octalValue l₀.codeChar ds := congrArg (octalValue · ds) hfirst
    obtain ⟨l', h'⟩ := ih l₁ (hl₁.2.1.trans hl)
    rw [hvalue, List.cons_append, List.cons_append, List.append_assoc]
    exact ⟨l', hpart (l := l) hl₁ ((scan_backslash (hl ▸ hback)).trans (hstart.trans hscan)) h'⟩
  | itself hletter hx hline hoctal _ ih =>
    intro l hl
    obtain ⟨l', h'⟩ := ih (l.put [_]) hl
    exact ⟨l', hpart (l.spelled_put _) ((scan_backslash (hl ▸ hback)).trans (scan_itself hletter hx hline hoctal)) h'⟩
  | continuation hno _ ih =>
    intro l hl
    obtain ⟨l', h'⟩ := ih l hl
    exact ⟨l', h'.1, ((scan_backslash (hl ▸ hback)).trans (scan_continuation (hindented.trans hno))).trans h'.2⟩

end Scans

section Tokens

variable {i : Indent} {quote : UInt8} {text bytes rest : List UInt8} {junk : TokenType}

theorem scan_terminator (l : Locals) (rest : List UInt8) (h : i.indentedString = false) :
    scan stString i l (l.terminator :: rest) = .token l.t1 l.buf stNone i rest := by
  apply scan_done
  simp only [transition, if_true, h, Bool.false_eq_true, if_false]

theorem quote_cases (hquote : isQuote quote = true) : quote = chr '"' ∨ quote = chr '\'' := by
  simpa only [isQuote, Bool.or_eq_true, decide_eq_true_eq] using hquote

theorem quote_ne_backslash (hquote : isQuote quote = true) : quote ≠ chr '\\' := by
  rcases quote_cases hquote with rfl | rfl <;> decide

/-- A string literal is a token with what it stands for. -/
theorem scan_literal {state : State} (hstate : state = stNone ∨ state = stInterpNone) (hquote : isQuote quote = true)
    (h : Spells quote false text bytes) : scan state i (Locals.start junk) (quote :: (text ++ quote :: rest)) =
      .token .string bytes stNone (i.init false) rest := by
  have hopen : scan state i (Locals.start junk) (quote :: (text ++ quote :: rest)) =
      scan stString (i.init false) { Locals.start junk with terminator := quote, t1 := .string }
        (text ++ quote :: rest) := by
    apply scan_go
    rcases hstate with rfl | rfl <;> rcases quote_cases hquote with rfl | rfl <;> rfl
  obtain ⟨l, ⟨hbuf, hterm, ht1⟩, hscan⟩ := scan_spells rest h (quote_ne_backslash hquote)
    (rfl : (i.init false).indentedString = false)
    { Locals.start junk with terminator := quote, t1 := .string } rfl
  have hclose := scan_terminator l rest (rfl : (i.init false).indentedString = false)
  rw [show l.terminator = quote from hterm, show l.t1 = .string from ht1, show l.buf = bytes from hbuf] at hclose
  rw [hopen, hscan, hclose]

end Tokens

section Representations

open ManagedBuffer (Fills fills_append)

/-- A byte that `_getRepr` escapes. -/
def Escaped (ch : UInt8) : Prop := ch < 32 ∨ ch > 126 ∨ ch = 39 ∨ ch = 92

instance (ch : UInt8) : Decidable (Escaped ch) := inferInstanceAs (Decidable (_ ∨ _))

/-- What `_getRepr` appends for a byte. -/
def appendReprChar (buf : ManagedBuffer) (ch : UInt8) : Except Stop ManagedBuffer :=
  if Escaped ch then do
    let buf ← buf.append (chr '\\')
    let buf ← buf.append (chr '0' + (ch >>> 6))
    let buf ← buf.append (chr '0' + ((ch &&& 56) >>> 3))
    buf.append (chr '0' + (ch &&& 7))
  else buf.append ch

/-- `_getRepr`: a buffer as source. A byte that lies too far behind to be read, from 2 ^ 31 on, is not come to, as
there is no room for what is appended before it. -/
def getRepr (buffer : List UInt8) : Except Stop (List UInt8) := do
  let buf ← (ManagedBuffer.init (buffer.length + 2)).append (chr '\'')
  let buf ← buffer.foldlM appendReprChar buf
  let buf ← buf.append (chr '\'')
  return buf.data

/-- The escape of three octal digits. -/
def octalEscape (ch : UInt8) : List UInt8 :=
  [chr '\\', chr '0' + (ch >>> 6), chr '0' + ((ch &&& 56) >>> 3), chr '0' + (ch &&& 7)]

def reprChar (ch : UInt8) : List UInt8 := if Escaped ch then octalEscape ch else [ch]

/-- What the representation of a buffer is. -/
def reprText (buffer : List UInt8) : List UInt8 := chr '\'' :: (buffer.flatMap reprChar ++ [chr '\''])

theorem fills_reprChar (ch : UInt8) : Fills (fun buf => appendReprChar buf ch) (reprChar ch) := by
  by_cases h : Escaped ch
  · have hstep : (fun buf => appendReprChar buf ch) = fun buf : ManagedBuffer => buf.append (chr '\\') >>= fun buf =>
        buf.append (chr '0' + (ch >>> 6)) >>= fun buf => buf.append (chr '0' + ((ch &&& 56) >>> 3)) >>= fun buf =>
          buf.append (chr '0' + (ch &&& 7)) := funext fun buf => if_pos h
    rw [hstep, reprChar, if_pos h]
    exact (fills_append _).bind ((fills_append _).bind ((fills_append _).bind (fills_append _)))
  · have hstep : (fun buf => appendReprChar buf ch) = fun buf => buf.append ch := funext fun buf => if_neg h
    rw [hstep, reprChar, if_neg h]
    exact fills_append ch

/-- The buffer takes the representation exactly if it has room for it. -/
theorem getRepr_spec (buffer : List UInt8) :
    ((reprText buffer).length ≤ 2 ^ 31 → getRepr buffer = .ok (reprText buffer)) ∧
      (2 ^ 31 < (reprText buffer).length → ∀ text, getRepr buffer ≠ .ok text) := by
  have hfills : Fills (fun buf : ManagedBuffer => buf.append (chr '\'') >>= fun buf =>
      buffer.foldlM appendReprChar buf >>= fun buf => buf.append (chr '\'')) (reprText buffer) :=
    (fills_append _).bind ((Fills.foldlM fills_reprChar buffer).bind (fills_append _))
  have hrepr : getRepr buffer = ((ManagedBuffer.init (buffer.length + 2)).append (chr '\'') >>= fun buf =>
      buffer.foldlM appendReprChar buf >>= fun buf => buf.append (chr '\'')) >>= fun buf => .ok buf.data := by
    simp only [bind_assoc]
    rfl
  obtain ⟨hfits, hfails⟩ := hfills.of_init (buffer.length + 2)
  rw [hrepr]
  refine ⟨fun hle => ?_, fun hlt text he => ?_⟩
  · obtain ⟨b, hb, hdata⟩ := hfits hle
    rw [hb, ← hdata]
    rfl
  · obtain ⟨b, hb, -⟩ := Loops.bind_ok he
    exact hfails hlt b hb

/-- The quotes, and four bytes for each byte that is escaped. -/
theorem length_reprText (buffer : List UInt8) :
    (reprText buffer).length = 2 + buffer.length + 3 * buffer.countP (fun ch => Escaped ch) := by
  have hchars : (buffer.flatMap reprChar).length = buffer.length + 3 * buffer.countP (fun ch => Escaped ch) := by
    induction buffer with
    | nil => rfl
    | cons ch buffer ih =>
      have hchar : (reprChar ch).length = 1 + 3 * if Escaped ch then 1 else 0 := by
        rw [reprChar]
        split
        · rfl
        · rfl
      rw [List.flatMap_cons, List.length_append, ih, hchar, List.countP_cons, List.length_cons]
      simp only [decide_eq_true_eq]
      omega
  rw [reprText, List.length_cons, List.length_append, hchars, List.length_singleton]
  omega

theorem octalEscape_digits (ch : UInt8) : isOctal (chr '0' + (ch >>> 6)) = true ∧
    isOctal (chr '0' + ((ch &&& 56) >>> 3)) = true ∧ isOctal (chr '0' + (ch &&& 7)) = true ∧
    octalValue 0 [chr '0' + (ch >>> 6), chr '0' + ((ch &&& 56) >>> 3), chr '0' + (ch &&& 7)] = ch := by
  have hall : ∀ n < 256, let ch := UInt8.ofNat n
      isOctal (chr '0' + (ch >>> 6)) = true ∧ isOctal (chr '0' + ((ch &&& 56) >>> 3)) = true ∧
      isOctal (chr '0' + (ch &&& 7)) = true ∧
      octalValue 0 [chr '0' + (ch >>> 6), chr '0' + ((ch &&& 56) >>> 3), chr '0' + (ch &&& 7)] = ch := by
    decide +kernel
  have h := hall ch.toNat ch.toNat_lt
  rwa [UInt8.ofNat_toNat] at h

theorem spells_reprChar (ch : UInt8) {text bytes : List UInt8} (h : Spells (chr '\'') false text bytes) :
    Spells (chr '\'') false (reprChar ch ++ text) (ch :: bytes) := by
  rw [reprChar]
  split
  · obtain ⟨h₁, h₂, h₃, hvalue⟩ := octalEscape_digits ch
    have hoctal : Spells (chr '\'') false (octalEscape ch ++ text) (octalValue 0
        [chr '0' + (ch >>> 6), chr '0' + ((ch &&& 56) >>> 3), chr '0' + (ch &&& 7)] :: bytes) := .octal h₁
      (by simp only [List.forall_mem_cons, h₂, h₃, List.not_mem_nil, false_imp_iff, implies_true, and_self])
      (Nat.le_refl 2) (.inl rfl) h
    rw [hvalue] at hoctal
    exact hoctal
  · next hplain =>
    simp only [Escaped, not_or] at hplain
    exact .plain hplain.2.2.1 hplain.2.2.2 h

theorem spells_repr (buffer : List UInt8) : Spells (chr '\'') false (buffer.flatMap reprChar) buffer := by
  induction buffer with
  | nil => exact .nil
  | cons ch buffer ih => exact spells_reprChar ch ih

/-- A text is read as one string token with these bytes, by any toker that comes to it, and whatever follows it. -/
def ReadAs (text bytes : List UInt8) : Prop :=
  ∀ (t : Toker) (src : List UInt8) (junk : TokenType) (rest : List UInt8), t.tokens = [] →
    t.state = stNone ∨ t.state = stInterpNone → t.rest src = text ++ rest →
    ∃ tok t' src', t.getToken junk src = .token tok t' src' ∧ tok.type = .string ∧ tok.data = bytes ∧
      t'.rest src' = rest ∧ t'.state = stNone

theorem reprText_read (buffer : List UInt8) : ReadAs (reprText buffer) buffer := by
  intro t src junk rest htokens hstate hrest
  have hliteral : t.rest src = chr '\'' :: (buffer.flatMap reprChar ++ chr '\'' :: rest) := by
    rw [hrest, reprText, List.cons_append, List.append_assoc, List.singleton_append]
  refine Toker.getToken_scan htokens (by decide) (i := t.indent.init false) ?_
  rw [hliteral]
  exact scan_literal hstate rfl (spells_repr buffer)

/-- A buffer has a representation that is read back as its bytes exactly if there is room for it. -/
theorem repr_read_back_iff (buffer : List UInt8) : (∃ text, getRepr buffer = .ok text ∧ ReadAs text buffer) ↔
    2 + buffer.length + 3 * buffer.countP (fun ch => Escaped ch) ≤ 2 ^ 31 := by
  rw [← length_reprText]
  obtain ⟨hfits, hfails⟩ := getRepr_spec buffer
  refine ⟨fun ⟨text, he, _⟩ => ?_, fun h => ⟨_, hfits h, reprText_read buffer⟩⟩
  by_contra hlong
  exact hfails (Nat.lt_of_not_le hlong) text he

/-- Letters, as many as there is room for without the quotes. -/
theorem large_repr_fails :
    ¬∃ text, getRepr (List.replicate (2 ^ 31) 97) = .ok text ∧ ReadAs text (List.replicate (2 ^ 31) 97) := by
  rintro ⟨text, he, -⟩
  refine (getRepr_spec _).2 ?_ text he
  rw [length_reprText, List.length_replicate]
  omega

/-- The four bytes are read back from their escapes. -/
example : getRepr [200, 39, 0, 92] = .ok (ascii "'\\310\\047\\000\\134'") := by decide

end Representations

end Lexer

end Crack
