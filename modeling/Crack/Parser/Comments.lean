import Crack.Parser.Scanning
import Mathlib.Data.List.Chain

/-!
# Comments

A C-style comment ends at the first `*/`. What is kept of its text for a documentation
token, against the text between its ends.
-/
namespace Crack

namespace Lexer

open State

/-- No `x` is followed by `y`. -/
def NoPair (x y : UInt8) (text : List UInt8) : Prop := text.IsChain fun a b => ¬ (a = x ∧ b = y)

instance (x y : UInt8) (text : List UInt8) : Decidable (NoPair x y text) :=
  inferInstanceAs (Decidable (text.IsChain fun a b => ¬ (a = x ∧ b = y)))

/-- What is kept of a body, after a star that was not kept yet or not. -/
def emit : Bool → List UInt8 → List UInt8
  | false, [] => []
  | true, [] => ascii "**"
  | false, ch :: body => if ch = chr '*' then emit true body else ch :: emit false body
  | true, ch :: body =>
    if ch = chr '*' then ascii "**" ++ emit true body else chr '*' :: ch :: emit false body

def star (starred : Bool) : List UInt8 := if starred then [chr '*'] else []

section Scans

variable {i : Indent} {l : Locals} {body rest : List UInt8} {junk : TokenType} {state : State}

/-- The end of a comment. -/
def closeComment (i : Indent) (l : Locals) (rest : List UInt8) : Scanned :=
  if l.buf.head? = some (chr '*') then .token .doc (l.buf.drop 1) stNone i rest
  else scan stNone i { l with buf := [] } rest

theorem scan_close_comment : scan stCcomment2 i l (chr '/' :: rest) = closeComment i l rest := by
  unfold closeComment
  split
  · next h =>
    apply scan_done
    rw [transition, if_pos rfl, if_pos h]
  · next h =>
    apply scan_go
    rw [transition, if_pos rfl, if_neg h]

/-- The comment ends at the first `*/`. -/
theorem scan_body (starred : Bool) (hclose : NoPair (chr '*') (chr '/') (star starred ++ body ++ [chr '*'])) (l : Locals) :
    scan (if starred then stCcomment2 else stCcomment) i l (body ++ chr '*' :: chr '/' :: rest) =
      closeComment i (l.put (emit starred body)) rest := by
  induction body generalizing starred l with
  | nil =>
    cases starred with
    | false =>
      have hstar : scan stCcomment i l (chr '*' :: chr '/' :: rest) = scan stCcomment2 i l (chr '/' :: rest) := scan_go rfl
      exact hstar.trans (scan_close_comment.trans (by rw [emit, put_nil]))
    | true =>
      have hstar : scan stCcomment2 i l (chr '*' :: chr '/' :: rest) =
          scan stCcomment2 i (l.put (ascii "**")) (chr '/' :: rest) := scan_go rfl
      exact hstar.trans scan_close_comment
  | cons ch body ih =>
    cases starred with
    | false =>
      by_cases hch : ch = chr '*'
      · subst hch
        have hstar : scan stCcomment i l (chr '*' :: (body ++ chr '*' :: chr '/' :: rest)) =
            scan stCcomment2 i l (body ++ chr '*' :: chr '/' :: rest) := scan_go rfl
        exact hstar.trans (ih true hclose l)
      · have hplain : transition i l ch stCcomment = .go stCcomment i (l.put [ch]) := if_neg hch
        have hrest := ih false hclose.tail (l.put [ch])
        rw [put_put] at hrest
        rw [emit, if_neg hch]
        exact (scan_go hplain).trans hrest
    | true =>
      have hslash : ch ≠ chr '/' := fun h => hclose.rel_head? rfl ⟨rfl, h⟩
      by_cases hch : ch = chr '*'
      · subst hch
        have hstar : scan stCcomment2 i l (chr '*' :: (body ++ chr '*' :: chr '/' :: rest)) =
            scan stCcomment2 i (l.put (ascii "**")) (body ++ chr '*' :: chr '/' :: rest) := scan_go rfl
        have hrest := ih true hclose.tail (l.put (ascii "**"))
        rw [put_put] at hrest
        rw [emit, if_pos rfl]
        exact hstar.trans hrest
      · have hplain : transition i l ch stCcomment2 = .go stCcomment i (l.put [chr '*', ch]) := by
          rw [transition, if_neg hslash, if_pos hch]
        have hrest := ih false hclose.tail.tail (l.put [chr '*', ch])
        rw [put_put] at hrest
        rw [emit, if_neg hch]
        exact (scan_go hplain).trans hrest

/-- A comment from its start. -/
theorem scan_comment (hstate : state = stNone ∨ state = stInterpNone)
    (hclose : NoPair (chr '*') (chr '/') (body ++ [chr '*'])) :
    scan state i l (chr '/' :: chr '*' :: (body ++ chr '*' :: chr '/' :: rest)) =
      closeComment i (l.put (emit false body)) rest := by
  have hslash : scan state i l (chr '/' :: chr '*' :: (body ++ chr '*' :: chr '/' :: rest)) =
      scan stSlash i l (chr '*' :: (body ++ chr '*' :: chr '/' :: rest)) := by
    apply scan_go
    rcases hstate with rfl | rfl <;> rfl
  have hstar : scan stSlash i l (chr '*' :: (body ++ chr '*' :: chr '/' :: rest)) =
      scan stCcomment i l (body ++ chr '*' :: chr '/' :: rest) := scan_go rfl
  exact hslash.trans (hstar.trans (scan_body false hclose l))

end Scans

section Stars

variable {body doc : List UInt8} {text : List UInt8} {x y ch : UInt8}

/-- Nothing is left out. -/
theorem length_emit (starred : Bool) (body : List UInt8) :
    (star starred ++ body).length ≤ (emit starred body).length := by
  induction body generalizing starred with
  | nil => cases starred <;> decide
  | cons ch body ih =>
    have hfalse := ih false
    have htrue := ih true
    simp only [star, List.length_append, List.length_nil, List.length_cons, if_true, if_false, Bool.false_eq_true] at *
    cases starred with
    | false =>
      by_cases hch : ch = chr '*'
      · rw [emit, if_pos hch, if_neg Bool.false_ne_true, List.length_nil]
        omega
      · rw [emit, if_neg hch, List.length_cons, if_neg Bool.false_ne_true, List.length_nil]
        omega
    | true =>
      by_cases hch : ch = chr '*'
      · rw [emit, if_pos hch, List.length_append, if_pos rfl, List.length_singleton, show (ascii "**").length = 2 from rfl]
        omega
      · rw [emit, if_neg hch, List.length_cons, List.length_cons, if_pos rfl, List.length_singleton]
        omega

theorem noPair_cons_of_ne (h : ch ≠ x) : NoPair x y (ch :: text) ↔ NoPair x y text := by
  rw [NoPair, List.isChain_cons, NoPair]
  exact and_iff_right fun _ _ hpair => h hpair.1

theorem noPair_pair : NoPair x y (x :: ch :: text) ↔ ch ≠ y ∧ NoPair x y (ch :: text) := by
  rw [NoPair, List.isChain_cons_cons, NoPair]
  simp only [true_and, ne_eq]

/-- The body is kept as it is exactly if no two stars are next to each other in it and the star of its end. -/
theorem emit_eq_iff (starred : Bool) (body : List UInt8) :
    emit starred body = star starred ++ body ↔ NoPair (chr '*') (chr '*') (star starred ++ body ++ [chr '*']) := by
  induction body generalizing starred with
  | nil =>
    cases starred with
    | false => exact iff_of_true rfl (List.isChain_singleton _)
    | true => exact iff_of_false (by decide) fun h => (noPair_pair.mp h).1 rfl
  | cons ch body ih =>
    cases starred with
    | false =>
      by_cases hch : ch = chr '*'
      · subst hch
        exact ih true
      · have hkeep : emit false (ch :: body) = star false ++ ch :: body ↔ emit false body = body := by
          rw [emit, if_neg hch]
          exact List.cons_inj_right ch
        exact hkeep.trans ((ih false).trans (noPair_cons_of_ne hch).symm)
    | true =>
      by_cases hch : ch = chr '*'
      · subst hch
        refine iff_of_false (fun h => ?_) fun h => (noPair_pair.mp h).1 rfl
        have hlen := congrArg List.length h
        have hmore := length_emit true body
        rw [emit, if_pos rfl, List.length_append, List.length_append, List.length_cons] at hlen
        rw [List.length_append] at hmore
        have htwo : (ascii "**").length = 2 := rfl
        have hone : (star true).length = 1 := rfl
        omega
      · have hkeep : emit true (ch :: body) = star true ++ ch :: body ↔ emit false body = body := by
          rw [emit, if_neg hch]
          exact (List.cons_inj_right (chr '*')).trans (List.cons_inj_right ch)
        refine hkeep.trans ((ih false).trans ?_)
        exact (noPair_cons_of_ne hch).symm.trans ((and_iff_right hch).symm.trans noPair_pair.symm)

theorem head_emit (body : List UInt8) : (emit false body).head? = body.head? := by
  have hstar (body : List UInt8) : (emit true body).head? = some (chr '*') := by
    cases body with
    | nil => rfl
    | cons ch body =>
      rw [emit]
      split <;> rfl
  cases body with
  | nil => rfl
  | cons ch body =>
    rw [emit]
    split
    · next h => rw [hstar, h, List.head?_cons]
    · rfl

end Stars

section Tokens

variable {t : Toker} {src body doc rest : List UInt8} {junk : TokenType}

/-- A documentation comment is a token with its body after the star; after another one it is read on as from the
text that follows it. -/
structure CommentRight (t : Toker) (src : List UInt8) (junk : TokenType) (body rest : List UInt8) : Prop where
  doc : ∀ doc, body = chr '*' :: doc → ∃ tok t' src', t.getToken junk src = .token tok t' src' ∧ tok.type = .doc ∧
    tok.data = doc ∧ t'.rest src' = rest ∧ t'.state = stNone
  skipped : body.head? ≠ some (chr '*') → ∀ (t₁ : Toker) (src₁ : List UInt8), t₁.state = stNone →
    t₁.indent = t.indent → t₁.rest src₁ = rest → (t.readToken junk src).scanned = (t₁.readToken junk src₁).scanned

/-- The token of a documentation comment: it ends where the comment does, with what was kept of the body. -/
theorem getToken_doc (junk : TokenType) (htokens : t.tokens = []) (hstate : t.state = stNone ∨ t.state = stInterpNone)
    (hclose : NoPair (chr '*') (chr '/') (chr '*' :: doc ++ [chr '*']))
    (hrest : t.rest src = chr '/' :: chr '*' :: (chr '*' :: doc ++ chr '*' :: chr '/' :: rest)) :
    ∃ tok t' src', t.getToken junk src = .token tok t' src' ∧ tok.type = .doc ∧ chr '*' :: tok.data = emit true doc ∧
      t'.rest src' = rest ∧ t'.state = stNone := by
  have hhead : (emit true doc).head? = some (chr '*') := head_emit (chr '*' :: doc)
  obtain ⟨data, hdata⟩ := List.head?_eq_some_iff.mp hhead
  have hscan : scan t.state t.indent (Locals.start junk) (t.rest src) = .token .doc data stNone t.indent rest := by
    rw [hrest, scan_comment hstate hclose]
    have hbuf : ((Locals.start junk).put (emit false (chr '*' :: doc))).buf = chr '*' :: data := hdata
    rw [closeComment, hbuf]
    rfl
  obtain ⟨tok, t', src', hget, htype, htok, hrest', hstate'⟩ := Toker.getToken_scan htokens (by decide) hscan
  exact ⟨tok, t', src', hget, htype, by rw [htok, hdata], hrest', hstate'⟩

/-- Another comment is skipped. -/
theorem scanned_skipped {t₁ : Toker} {src₁ : List UInt8} (hstate : t.state = stNone ∨ t.state = stInterpNone)
    (hclose : NoPair (chr '*') (chr '/') (body ++ [chr '*'])) (hbody : body.head? ≠ some (chr '*'))
    (hrest : t.rest src = chr '/' :: chr '*' :: (body ++ chr '*' :: chr '/' :: rest)) (hstate₁ : t₁.state = stNone)
    (hindent : t₁.indent = t.indent) (hrest₁ : t₁.rest src₁ = rest) :
    (t.readToken junk src).scanned = (t₁.readToken junk src₁).scanned := by
  have hhead : ((Locals.start junk).put (emit false body)).buf.head? ≠ some (chr '*') := by
    rw [show ((Locals.start junk).put (emit false body)).buf = emit false body from rfl, head_emit]
    exact hbody
  rw [Toker.readToken_scan, Toker.readToken_scan, hrest, scan_comment hstate hclose, closeComment, if_neg hhead,
    hstate₁, hindent, hrest₁]
  rfl

/-- The text of a documentation comment is right if and only if no two stars are next to each other in it, its first
star and the star of its end included; it ends at the first `*/` in any case. -/
theorem commentRight_iff (t : Toker) (src : List UInt8) (junk : TokenType) (body rest : List UInt8)
    (htokens : t.tokens = []) (hstate : t.state = stNone ∨ t.state = stInterpNone)
    (hclose : NoPair (chr '*') (chr '/') (body ++ [chr '*']))
    (hrest : t.rest src = chr '/' :: chr '*' :: (body ++ chr '*' :: chr '/' :: rest)) :
    CommentRight t src junk body rest ↔
      (body.head? = some (chr '*') → NoPair (chr '*') (chr '*') (body ++ [chr '*'])) := by
  constructor
  · intro h hhead
    obtain ⟨doc, rfl⟩ := List.head?_eq_some_iff.mp hhead
    obtain ⟨tok, t', src', hget, -, hdata, -⟩ := getToken_doc junk htokens hstate hclose hrest
    obtain ⟨tok₁, t₁, src₁, hget₁, -, hdata₁, -⟩ := h.doc doc rfl
    obtain ⟨rfl, -, -⟩ := Toker.Result.token.inj (hget.symm.trans hget₁)
    exact (emit_eq_iff true doc).mp (hdata ▸ congrArg _ hdata₁)
  · intro h
    refine ⟨?_, fun hbody t₁ src₁ => scanned_skipped hstate hclose hbody hrest⟩
    rintro doc rfl
    obtain ⟨tok, t', src', hget, htype, hdata, hrest', hstate'⟩ := getToken_doc junk htokens hstate hclose hrest
    have hkept : emit true doc = chr '*' :: doc := (emit_eq_iff true doc).mpr (h rfl)
    exact ⟨tok, t', src', hget, htype, (List.cons.inj (hdata.trans hkept)).2, hrest', hstate'⟩

theorem commentRight_doc : CommentRight (Toker.new (ascii "a.crk") 1) (ascii "/** a*b / */x;") .end
    (ascii "* a*b / ") (ascii "x;") :=
  (commentRight_iff _ _ _ _ _ rfl (.inl rfl) (by decide) rfl).mpr fun _ => by decide

/-- Two stars become three. -/
theorem stars_not_right : ¬ CommentRight (Toker.new (ascii "a.crk") 1) (ascii "/** a**b */;") .end
    (ascii "* a**b ") (ascii ";") := by
  intro h
  have hrest : (Toker.new (ascii "a.crk") 1).rest (ascii "/** a**b */;") =
      chr '/' :: chr '*' :: (chr '*' :: ascii " a**b " ++ chr '*' :: chr '/' :: ascii ";") := rfl
  obtain ⟨tok, t', src', hget, -, hdata, -⟩ := getToken_doc .end rfl (.inl rfl) (by decide) hrest
  obtain ⟨tok₁, t₁, src₁, hget₁, -, hdata₁, -⟩ := h.doc (ascii " a**b ") rfl
  obtain ⟨rfl, -, -⟩ := Toker.Result.token.inj (hget.symm.trans hget₁)
  rw [hdata₁] at hdata
  exact absurd hdata (by decide)

end Tokens

end Lexer

end Crack
