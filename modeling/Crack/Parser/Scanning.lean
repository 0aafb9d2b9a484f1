import Crack.Parser.TokerProgress

/-!
# Scanning

The loop of `readToken` on the text that is left to read, without the locations and
without the buffer for the characters that are put back.
-/
namespace Crack

namespace Lexer

open State

structure Config where
  state : State
  indent : Indent
  locals : Locals
  text : List UInt8
  deriving DecidableEq, Repr

inductive Scanned where
  | token (type : TokenType) (data : List UInt8) (state : State) (i : Indent) (rest : List UInt8)
  | abort (type : TokenType) (data : List UInt8) (msg : String)
  | eof (state : State) (i : Indent) (l : Locals)
  deriving DecidableEq, Repr

/-- The type of an identifier or keyword. -/
def identType (data : List UInt8) : TokenType := (Toker.keyword data).getD .ident

/-- A move on a text that starts with `ch`. -/
def Move.act (i : Indent) (l : Locals) (ch : UInt8) (rest : List UInt8) : Move → Config ⊕ Scanned
  | .space => .inl ⟨stNone, i, l, rest⟩
  | .go state i l => .inl ⟨state, i, l, rest⟩
  | .again state i l => .inl ⟨state, i, l, ch :: rest⟩
  | .done state i type data => .inr (.token type data state i rest)
  | .peek state type data => .inr (.token type data state i (ch :: rest))
  | .peekDot data => .inr (.token .integer data stNone i (chr '.' :: ch :: rest))
  | .ident data => .inr (.token (identType data) data stNone i (ch :: rest))
  | .abort type data msg => .inr (.abort type data msg)

def Config.left (c : Config) : Nat := 2 * c.text.length + c.state.rank

theorem left_act {state : State} {i : Indent} {l : Locals} {ch : UInt8} {rest : List UInt8} {c : Config}
    (h : (transition i l ch state).act i l ch rest = .inl c) : c.left < Config.left ⟨state, i, l, ch :: rest⟩ := by
  have hrank := ranked_transition i l ch state
  cases hm : transition i l ch state with
  | space =>
    rw [hm] at h
    obtain rfl := Sum.inl.inj h
    simp only [Config.left, List.length_cons, State.rank]
    omega
  | go state' i' l' =>
    rw [hm] at h
    obtain rfl := Sum.inl.inj h
    have := Toker.rank_le state'
    simp only [Config.left, List.length_cons]
    omega
  | again state' i' l' =>
    rw [hm] at h hrank
    obtain rfl := Sum.inl.inj h
    obtain ⟨h1, h0⟩ := hrank
    simp only [Config.left, h1, h0]
    omega
  | done | peek | peekDot | ident | abort => rw [hm] at h; cases h

def scan (state : State) (i : Indent) (l : Locals) (text : List UInt8) : Scanned :=
  match text with
  | [] => .eof state i l
  | ch :: rest =>
    match _ : (transition i l ch state).act i l ch rest with
    | .inl c => scan c.state c.indent c.locals c.text
    | .inr r => r
termination_by Config.left ⟨state, i, l, text⟩
decreasing_by exact left_act ‹_›

theorem put_put (l : Locals) (a b : List UInt8) : (l.put a).put b = l.put (a ++ b) := by
  rw [Locals.put, Locals.put, Locals.put]
  simp only [List.append_assoc]

theorem put_nil (l : Locals) : l.put [] = l := by rw [Locals.put, List.append_nil]

section Steps

variable {state state' : State} {i i' : Indent} {l l' : Locals} {ch : UInt8} {rest : List UInt8} {type : TokenType}
  {data : List UInt8} {msg : String}

theorem scan_nil : scan state i l [] = .eof state i l := by rw [scan]

theorem scan_cons : scan state i l (ch :: rest) =
    ((transition i l ch state).act i l ch rest).elim (fun c => scan c.state c.indent c.locals c.text) id := by
  rw [scan]
  split <;> simp_all

theorem scan_go (h : transition i l ch state = .go state' i' l') :
    scan state i l (ch :: rest) = scan state' i' l' rest := by
  rw [scan_cons, h]
  rfl

theorem scan_again (h : transition i l ch state = .again state' i' l') :
    scan state i l (ch :: rest) = scan state' i' l' (ch :: rest) := by
  rw [scan_cons, h]
  rfl

theorem scan_done (h : transition i l ch state = .done state' i' type data) :
    scan state i l (ch :: rest) = .token type data state' i' rest := by
  rw [scan_cons, h]
  rfl

theorem scan_peek (h : transition i l ch state = .peek state' type data) :
    scan state i l (ch :: rest) = .token type data state' i (ch :: rest) := by
  rw [scan_cons, h]
  rfl

theorem scan_peekDot (h : transition i l ch state = .peekDot data) :
    scan state i l (ch :: rest) = .token .integer data stNone i (chr '.' :: ch :: rest) := by
  rw [scan_cons, h]
  rfl

theorem scan_abort (h : transition i l ch state = .abort type data msg) :
    scan state i l (ch :: rest) = .abort type data msg := by
  rw [scan_cons, h]
  rfl

end Steps

/-- What is made of the end of the text. -/
def Scanned.finish : Scanned → Scanned
  | .eof state i l =>
    match state with
    | stNone | stComment => .token .end [] stNone i []
    | stIdent => .token .ident l.buf stNone i []
    | _ => .abort .end [] "End of stream in the middle of a token"
  | r => r

namespace Toker

/-- A result without its locations; none for an assertion that failed. -/
def Result.scanned : Result → Option Scanned
  | .token tok t src => some (.token tok.type tok.data t.state t.indent (t.rest src))
  | .abort tok msg => some (.abort tok.type tok.data msg)
  | .assertion _ => none

variable {t t' : Toker} {l : Locals} {src src' : List UInt8} {junk : TokenType} {tok : Token}

@[simp] theorem indent_getLocation (t : Toker) : t.getLocation.2.indent = t.indent := by
  unfold getLocation
  split <;> rfl

@[simp] theorem rest_getLocation (t : Toker) (src : List UInt8) : t.getLocation.2.rest src = t.rest src := by
  rw [rest, putbackBuf_getLocation, rest]

theorem scanned_give (t : Toker) (type : TokenType) (data src : List UInt8) :
    (t.give type data src).scanned = some (.token type data t.state t.indent (t.rest src)) := by
  simp only [give, Result.scanned, state_getLocation, indent_getLocation, rest, putbackBuf_getLocation]

theorem scanned_fixIdent (t : Toker) (data : List UInt8) (loc : Location) (src : List UInt8) :
    (Result.token (t.fixIdent data loc).1 (t.fixIdent data loc).2 src).scanned =
      some (.token (identType data) data t.state t.indent (t.rest src)) := by
  unfold fixIdent identType
  split
  · next h => rw [h]; rfl
  · next h => simp only [h, Result.scanned, state_getLocation, indent_getLocation, rest, putbackBuf_getLocation,
      Option.getD_none]

/-- A move does on the stream what it does on the text that is left. -/
theorem perform_act (t : Toker) (l : Locals) (ch : UInt8) (src : List UInt8) (move : Move) :
    (t.perform l ch src move).elim
      (fun p => move.act t.indent l ch (t.rest src) = .inl ⟨p.1.state, p.1.indent, p.2, p.1.rest src⟩)
      (fun r => (move.act t.indent l ch (t.rest src)).map id some = .inr r.scanned) := by
  cases move with
  | space =>
    simp only [perform, Sum.elim_inl, Move.act]
    split <;> rfl
  | go state i l' => rfl
  | again state i l' =>
    simp only [perform, Sum.elim_inl, Move.act, rest_enter, rest_ungetChar]
    rfl
  | done state i type data =>
    simp only [perform, Sum.elim_inr, Move.act, scanned_give]
    rfl
  | peek state type data =>
    simp only [perform, Sum.elim_inr, Move.act, scanned_give, rest_enter, rest_ungetChar]
    rfl
  | peekDot data =>
    simp only [perform, Sum.elim_inr, Move.act, scanned_give, rest_enter, rest_ungetChar]
    rfl
  | ident data =>
    simp only [perform, Sum.elim_inr, Move.act, scanned_fixIdent, state_getLocation, indent_getLocation,
      rest_getLocation, rest_enter, rest_ungetChar]
    rfl
  | abort type data msg => rfl

def Loop.scanned : Loop → Option Scanned
  | .result r => r.scanned
  | .eof t l => some (.eof t.state t.indent l)

theorem readLoop_scan (t : Toker) (l : Locals) (src : List UInt8) :
    (t.readLoop l src).scanned = some (scan t.state t.indent l (t.rest src)) := by
  fun_induction readLoop t l src with
  | case1 t l src t₁ hc =>
    obtain ⟨hrest, rfl⟩ := getChar_eof hc
    rw [hrest, scan_nil]
    rfl
  | case2 t l src ch src₁ t₁ hc t₂ l₂ hp ih =>
    obtain ⟨hrest, hstate, hindent⟩ := getChar_some hc
    have hact := perform_act t₁ l ch src₁ (transition t₁.indent l ch t₁.state)
    rw [hp, hstate, hindent] at hact
    rw [hrest, scan_cons, show Move.act _ _ _ _ _ = _ from hact]
    exact ih
  | case3 t l src ch src₁ t₁ hc r hp =>
    obtain ⟨hrest, hstate, hindent⟩ := getChar_some hc
    have hact := perform_act t₁ l ch src₁ (transition t₁.indent l ch t₁.state)
    rw [hp, hstate, hindent] at hact
    change (Move.act t.indent l ch (t₁.rest src₁) (transition t.indent l ch t.state)).map id some = _ at hact
    rw [hrest, scan_cons]
    cases hm : Move.act t.indent l ch (t₁.rest src₁) (transition t.indent l ch t.state) with
    | inl c => rw [hm] at hact; cases hact
    | inr r' =>
      rw [hm] at hact
      exact (Sum.inr.inj hact).symm

theorem finish_scanned {r : Result} {s : Scanned} (h : r.scanned = some s) : s.finish = s := by
  cases r with
  | token | abort => obtain rfl := Option.some.inj h; rfl
  | assertion => cases h

theorem endOfStream_scanned (t : Toker) (l : Locals) (hrest : t.rest [] = []) :
    (t.endOfStream l).scanned = some (Scanned.eof t.state t.indent l).finish := by
  unfold endOfStream Scanned.finish
  cases t.state <;> simp only [scanned_give, rest_enter, hrest] <;> rfl

/-- `readToken` scans the text that is left. -/
theorem readToken_scan (t : Toker) (src : List UInt8) (junk : TokenType) :
    (t.readToken junk src).scanned = some (scan t.state t.indent (Locals.start junk) (t.rest src)).finish := by
  have hscan := readLoop_scan { t with currentStartCol := t.lastLoc.endCol + 1 } (Locals.start junk) src
  change _ = some (scan t.state t.indent (Locals.start junk) (t.rest src)) at hscan
  rw [readToken]
  generalize hloop : readLoop _ _ _ = loop at hscan ⊢
  cases loop with
  | result r =>
    rw [finish_scanned hscan]
    exact hscan
  | eof t₁ l₁ =>
    rw [← Option.some.inj hscan]
    exact endOfStream_scanned t₁ l₁ (rest_eof hloop).1

/-- The token that is scanned is handed out, but for the start of an i-string. -/
theorem getToken_scan {type : TokenType} {data rest : List UInt8} {state : State} {i : Indent}
    (htokens : t.tokens = []) (htype : type ≠ .istrBegin)
    (hscan : scan t.state t.indent (Locals.start junk) (t.rest src) = .token type data state i rest) :
    ∃ tok t' src', t.getToken junk src = .token tok t' src' ∧ tok.type = type ∧ tok.data = data ∧
      t'.rest src' = rest ∧ t'.state = state := by
  have hread := readToken_scan t src junk
  rw [hscan] at hread
  cases h : t.readToken junk src with
  | token tok t' src' =>
    rw [h] at hread
    obtain ⟨rfl, hdata, hstate, -, hrest⟩ := Scanned.token.inj (Option.some.inj hread)
    refine ⟨tok, t', src', ?_, rfl, hdata, hrest, hstate⟩
    rw [getToken, htokens]
    simp only [h, htype, and_false, if_false]
  | abort tok msg => rw [h] at hread; cases hread
  | assertion msg => rw [h] at hread; cases hread

/-- Unless an i-string starts, the token is the one that was read, and no other waits. -/
theorem readToken_of_getToken (htokens : t.tokens = []) (h : t.getToken junk src = .token tok t' src')
    (htype : tok.type ≠ .istrBegin) : t.readToken junk src = .token tok t' src' ∧ t'.tokens = [] := by
  have hkeeps : (t.readToken junk src).Keeps t.tokens := readToken_keeps t src
  rw [getToken, htokens] at h
  cases hread : t.readToken junk src with
  | token tok₁ t₁ src₁ =>
    rw [hread, htokens] at hkeeps
    rw [hread] at h
    dsimp only at h
    split at h
    · next hbatch =>
      -- the first token of the batch starts an i-string
      split at h
      · next r hfailed =>
        subst h
        exact (readBatch_failed hfailed).elim
      · next toks t₂ src₂ hread₂ =>
        obtain ⟨rfl, -, -⟩ := Result.token.inj h
        refine absurd (Eq.trans ?_ hbatch.2) htype
        simp only [reindentAll, List.map_cons, List.headD_cons]
        split <;> rfl
    · obtain ⟨rfl, rfl, rfl⟩ := Result.token.inj h
      exact ⟨rfl, hkeeps⟩
  | abort tok msg => rw [hread] at h; cases h
  | assertion msg => rw [hread] at h; cases h

theorem scan_of_getToken (htokens : t.tokens = []) (h : t.getToken junk src = .token tok t' src')
    (htype : tok.type ≠ .istrBegin) :
    (scan t.state t.indent (Locals.start junk) (t.rest src)).finish =
      .token tok.type tok.data t'.state t'.indent (t'.rest src') := by
  have hread := readToken_scan t src junk
  rw [(readToken_of_getToken htokens h htype).1] at hread
  exact (Option.some.inj hread).symm

end Toker

end Lexer

end Crack
