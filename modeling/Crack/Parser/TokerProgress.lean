import Crack.Parser.Toker

/-!
# Progress of the tokenizer

Every token but the last takes a character at least: what is put back after a token
is less than what was read for it. Between tokens the tokenizer is in one of three
states.
-/
namespace Crack

namespace Lexer

open State

/-- The states between two tokens. -/
def State.ready : State → Bool
  | stNone | stInterpNone | stIstr => true
  | _ => false

/-- The number of characters that were read for a token and stay read. -/
def credit (state : State) (l : Locals) : Nat :=
  match state with
  | stNone | stInterpNone => 0
  | stIstr => if l.buf = [] then 0 else 1
  | stIntdot => 2
  | _ => 1

/-- What a move may do in a state. -/
def Move.Credited (state : State) (l : Locals) : Move → Prop
  | .space => True
  | .go state' _ l' => credit state' l' ≤ credit state l + 1
  | .again state' _ l' => credit state' l' ≤ credit state l
  | .done state' _ _ _ => state'.ready
  | .peek state' _ _ => state'.ready ∧ 1 ≤ credit state l
  | .peekDot _ => 2 ≤ credit state l
  | .ident _ => 1 ≤ credit state l
  | .abort _ _ _ => True

section Moves

variable (i : Indent) (l : Locals) (ch : UInt8) (state : State)

theorem credit_istr : credit stIstr l ≤ 1 := by
  change (if l.buf = [] then 0 else 1) ≤ 1
  split <;> decide

theorem credited_hexCode {str : State} (hstate : ∀ l, credit state l ≤ 1)
    (hstr : ∀ l, credit str l ≤ 1) : (hexCode i l ch state str).Credited state l := by
  unfold hexCode
  split
  · trivial
  · refine of_ite (Move.Credited _ _) (fun _ => ?_) (fun _ => ?_)
    · exact Nat.le_trans (hstr _) (Nat.le_add_left 1 _)
    · exact Nat.le_trans (hstate _) (Nat.le_add_left 1 _)

theorem credited_transition : (transition i l ch state).Credited state l := by
  cases state
  case stStrHex => exact credited_hexCode i l ch _ (fun _ => Nat.le_refl 1) (fun _ => Nat.le_refl 1)
  case stIstrHex => exact credited_hexCode i l ch _ (fun _ => Nat.le_refl 1) credit_istr
  all_goals
    simp only [transition, base, inIdent, twice, digram, escapeChar, escapedNewline, octalCode, digits]
    repeat' refine of_ite (Move.Credited _ _) (fun _ => ?_) (fun _ => ?_)
  -- most moves lead from one character of a token to the next
  all_goals first
    | trivial
    | exact credit_istr _
    | exact Nat.le_trans (credit_istr _) (Nat.le_add_left 1 _)
    | simp_all [Move.Credited, credit, State.ready]

end Moves

namespace Toker

variable {t t' : Toker} {l : Locals} {src src' : List UInt8} {tok : Token} {junk : TokenType} {l' : Locals}

@[simp] theorem tokens_getLocation (t : Toker) : t.getLocation.2.tokens = t.tokens := by
  unfold getLocation
  split <;> rfl

theorem fixIdent_toker (t : Toker) (data : List UInt8) (loc : Location) :
    (t.fixIdent data loc).2.state = t.state ∧ ∀ src, (t.fixIdent data loc).2.rest src = t.rest src := by
  unfold fixIdent
  split
  · exact ⟨rfl, fun _ => rfl⟩
  · exact ⟨state_getLocation t, fun src => by rw [rest, putbackBuf_getLocation, rest]⟩

/-- A move that reads on keeps the credit. -/
theorem rest_step {ch : UInt8} {t'' : Toker} (hc : t.getChar src = (some (ch, src'), t'))
    (hp : t'.perform l ch src' (transition t'.indent l ch t'.state) = .inl (t'', l')) :
    (t''.rest src').length + credit t''.state l' ≤ (t.rest src).length + credit t.state l := by
  obtain ⟨hrest, hstate, -⟩ := getChar_some hc
  have hlen : (t.rest src).length = (t'.rest src').length + 1 := congrArg List.length hrest
  have hm := credited_transition t'.indent l ch t'.state
  rw [← hstate, hlen]
  cases hmove : transition t'.indent l ch t'.state with
  | space =>
    rw [hmove] at hp
    obtain ⟨rfl, rfl⟩ := Prod.mk.inj (Sum.inl.inj hp)
    split <;> exact Nat.le_trans (Nat.le_succ _) (Nat.le_add_right _ _)
  | go state i l'' =>
    rw [hmove] at hp hm
    obtain ⟨rfl, rfl⟩ := Prod.mk.inj (Sum.inl.inj hp)
    simp only [rest_enter, state_enter]
    have hle : credit state l'' ≤ credit t'.state l + 1 := hm
    omega
  | again state i l'' =>
    rw [hmove] at hp hm
    obtain ⟨rfl, rfl⟩ := Prod.mk.inj (Sum.inl.inj hp)
    simp only [rest_enter, state_enter, rest_ungetChar, List.length_cons]
    exact Nat.add_le_add_left hm _
  | done | peek | peekDot | ident | abort => rw [hmove] at hp; cases hp

theorem rest_eof (h : t.readLoop l src = .eof t' l') :
    t'.rest [] = [] ∧ credit t'.state l' ≤ (t.rest src).length + credit t.state l := by
  fun_induction readLoop t l src with
  | case1 t l src t₁ hc =>
    obtain ⟨rfl, rfl⟩ := Loop.eof.inj h
    obtain ⟨hrest, rfl⟩ := getChar_eof hc
    have hp := (List.append_eq_nil_iff.mp hrest).1
    exact ⟨by rw [rest, hp, List.nil_append], Nat.le_add_left _ _⟩
  | case2 t l src ch src₁ t₁ hc t₂ l₂ hp ih =>
    have hstep := rest_step hc hp
    obtain ⟨hr, hle⟩ := ih h
    exact ⟨hr, by omega⟩
  | case3 => cases h

/-- What a result does to the tokens that were put back. -/
def Result.Keeps (tokens : List Token) : Result → Prop
  | .token _ t _ => t.tokens = tokens
  | _ => True

theorem give_keeps (t : Toker) (type : TokenType) (data src : List UInt8) : (t.give type data src).Keeps t.tokens :=
  tokens_getLocation t

theorem ungetChar_tokens (t : Toker) (ch : UInt8) : (t.ungetChar ch).tokens = t.tokens := by
  unfold ungetChar
  dsimp only
  split <;> rfl

theorem getChar_tokens {r : Option (UInt8 × List UInt8)} (h : t.getChar src = (r, t')) : t'.tokens = t.tokens := by
  unfold getChar at h
  split at h <;> obtain ⟨-, rfl⟩ := Prod.mk.inj h <;> dsimp only <;> first | rfl | (split <;> rfl)

theorem fixIdent_tokens (t : Toker) (data : List UInt8) (loc : Location) :
    (t.fixIdent data loc).2.tokens = t.tokens := by
  unfold fixIdent
  split
  · rfl
  · exact tokens_getLocation t

theorem perform_tokens (t : Toker) (l : Locals) (ch : UInt8) (src : List UInt8) (move : Move) :
    (t.perform l ch src move).elim (fun p => p.1.tokens = t.tokens) (Result.Keeps t.tokens) := by
  cases move with
  | space => exact apply_ite (fun t' : Toker => t'.tokens = t.tokens) _ _ _ |>.mpr (by split <;> rfl)
  | go => rfl
  | again => exact ungetChar_tokens t ch
  | done => exact tokens_getLocation _
  | peek => exact (tokens_getLocation _).trans (ungetChar_tokens t ch)
  | peekDot => exact (tokens_getLocation _).trans ((ungetChar_tokens _ _).trans (ungetChar_tokens t ch))
  | ident => exact (fixIdent_tokens _ _ _).trans ((tokens_getLocation _).trans (ungetChar_tokens t ch))
  | abort => trivial

/-- The loop leaves the tokens that were put back alone. -/
theorem readLoop_tokens (t : Toker) (l : Locals) (src : List UInt8) :
    match t.readLoop l src with
    | .result r => r.Keeps t.tokens
    | .eof t' _ => t'.tokens = t.tokens := by
  fun_induction readLoop t l src with
  | case1 t l src t₁ hc => exact getChar_tokens hc
  | case2 t l src ch src₁ t₁ hc t₂ l₂ hp ih =>
    have hstep := perform_tokens t₁ l ch src₁ (transition t₁.indent l ch t₁.state)
    rw [hp] at hstep
    rw [(show t₂.tokens = t₁.tokens from hstep).trans (getChar_tokens hc)] at ih
    exact ih
  | case3 t l src ch src₁ t₁ hc r hp =>
    have hstep := perform_tokens t₁ l ch src₁ (transition t₁.indent l ch t₁.state)
    rw [hp, getChar_tokens hc] at hstep
    exact hstep

theorem endOfStream_keeps (t : Toker) (l : Locals) : (t.endOfStream l).Keeps t.tokens := by
  unfold endOfStream
  split
  · exact give_keeps _ _ _ _
  · exact give_keeps _ _ _ _
  · exact give_keeps _ _ _ _
  · trivial

theorem readToken_keeps (t : Toker) (src : List UInt8) : (t.readToken junk src).Keeps t.tokens := by
  have hloop := readLoop_tokens { t with currentStartCol := t.lastLoc.endCol + 1 } (Locals.start junk) src
  rw [readToken]
  split
  · next hr => rw [hr] at hloop; exact hloop
  · next t' l hr =>
    rw [hr] at hloop
    exact hloop ▸ endOfStream_keeps t' l

/-- An exception or a failed assertion. -/
def Result.Fails : Result → Prop
  | .token _ _ _ => False
  | _ => True

theorem readBatch_failed {last : Token} {parens : Nat} {r : Result} (h : t.readBatch junk src last parens = .failed r) :
    r.Fails := by
  fun_induction readBatch junk t src last parens with
  | case1 | case4 => cases h
  | case2 | case3 | case6 => obtain rfl := Batch.failed.inj h; trivial
  | case5 t src last parens _ parens' continued _ t₁ hc tok t₂ src₂ hr hend hlt ih =>
    cases hb : readBatch junk t₂ src₂ tok parens' with
    | tokens toks t₃ src₃ => rw [hb] at h; cases h
    | failed r' =>
      rw [hb] at h
      obtain rfl := Batch.failed.inj h
      exact ih hb
  | case7 t src last parens _ parens' continued _ t₁ hc hr =>
    obtain rfl := Batch.failed.inj h
    cases hr' : t₁.readToken junk src with
    | token tok t₂ src₂ => exact hr tok t₂ src₂ hr'
    | abort | assertion => trivial

end Toker

end Lexer

end Crack
