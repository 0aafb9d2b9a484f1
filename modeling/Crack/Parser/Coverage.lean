import Crack.Parser.TokerProgress

/-!
# What the tokenizer consumes

A log of the characters that a call of `readToken` takes from the text: blanks and
comments, which are skipped, and those of the token. Characters that are put back are
taken out of it again.
-/
namespace Crack

namespace Lexer

open State

/-- The capacity of the putback buffer. -/
def putbackSize := 2

structure Log where
  skipped : List (List UInt8) := []
  lexeme : List UInt8 := []
  /-- The assertion of `ungetChar` has failed. -/
  overflow : Bool := false
  deriving DecidableEq, Repr

namespace Log

def text (g : Log) : List UInt8 := g.skipped.flatten ++ g.lexeme

def take (g : Log) (ch : UInt8) : Log := { g with lexeme := g.lexeme ++ [ch] }

def skip (g : Log) : Log := { g with skipped := g.skipped ++ [g.lexeme], lexeme := [] }

/-- The last character is left in the text. -/
def untake (g : Log) : Log := { g with lexeme := g.lexeme.dropLast }

def checkRoom (g : Log) (inBuffer : Nat) : Log := { g with overflow := g.overflow || putbackSize ≤ inBuffer }

/-- A move after which there are `n` characters in the buffer, before it puts any back. -/
def move (g : Log) (ch : UInt8) (n : Nat) : Move → Log
  | .space => (g.take ch).skip
  | .go state _ _ => if state = stNone then (g.take ch).skip else g.take ch
  -- some errors put a character back first
  | .again _ _ _ | .peek _ _ _ | .ident _ | .abort _ _ _ => g.checkRoom n
  | .peekDot _ => ((g.checkRoom n).checkRoom (n + 1)).untake
  | .done _ _ _ _ => g.take ch

end Log

namespace Toker

/-- The log of the loop. -/
def readLog (t : Toker) (l : Locals) (src : List UInt8) (g : Log) : Log :=
  match _ : t.getChar src with
  | (none, _) => if t.state = stComment then g.skip else g
  | (some (ch, src), t') =>
    match _ : t'.perform l ch src (transition t'.indent l ch t'.state) with
    | .inl (t'', l') => readLog t'' l' src (g.move ch t'.putbackBuf.length (transition t'.indent l ch t'.state))
    | .inr _ => g.move ch t'.putbackBuf.length (transition t'.indent l ch t'.state)
termination_by t.left src
decreasing_by exact left_perform ‹_› ‹_›

/-- The log of a call of `readToken`. -/
def callLog (junk : TokenType) (t : Toker) (src : List UInt8) : Log :=
  { t with currentStartCol := t.lastLoc.endCol + 1 }.readLog (Locals.start junk) src {}

end Toker

/-- From `#` or `//` to the end of the line or of the text. -/
def LineComment (c : List UInt8) : Prop :=
  ∃ mark body, (mark = ascii "#" ∨ mark = ascii "//") ∧ chr '\n' ∉ body ∧
    (c = mark ++ body ∨ c = mark ++ body ++ [chr '\n'])

/-- From `/*` to the first `*/`. -/
def BlockComment (c : List UInt8) : Prop :=
  ∃ body, c = ascii "/*" ++ body ++ ascii "*/" ∧ ¬ ascii "*/" <:+: body ++ [chr '*']

def Skippable (c : List UInt8) : Prop := (∃ ch, isSpace ch = true ∧ c = [ch]) ∨ LineComment c ∨ BlockComment c

/-- A call has taken the text up to `rest`: first what is skipped, then a token. -/
structure Log.Covers (g : Log) (text rest : List UInt8) (type : TokenType) : Prop where
  text : text = g.skipped.flatten ++ g.lexeme ++ rest
  skipped : ∀ c ∈ g.skipped, Skippable c
  lexeme : g.lexeme ≠ [] ∨ type = .end ∧ rest = []

namespace Toker

/-- Calls of `readToken` that return a token. Between them the tokenizer only changes its
state: an i-string is gone on with or left. -/
inductive Calls (junk : TokenType) (t₀ : Toker) (src₀ : List UInt8) : List Log → Toker → List UInt8 → Prop where
  | start : Calls junk t₀ src₀ [] t₀ src₀
  | call {logs : List Log} {t t' : Toker} {src src' : List UInt8} {tok : Token} (h : Calls junk t₀ src₀ logs t src)
      (hr : t.readToken junk src = .token tok t' src') : Calls junk t₀ src₀ (logs ++ [t.callLog junk src]) t' src'
  | between {logs : List Log} {t t' : Toker} {src : List UInt8} (h : Calls junk t₀ src₀ logs t src)
      (hready : t'.state.ready) (hp : t'.putbackBuf = t.putbackBuf) : Calls junk t₀ src₀ logs t' src

end Toker

/-- What the log holds of the token or comment that is read. -/
def Shape : State → List UInt8 → Prop
  | stNone, lexeme | stInterpNone, lexeme => lexeme = []
  | stIntdot, lexeme => ∃ digits, lexeme = digits ++ [chr '.']
  | stSlash, lexeme => lexeme = ascii "/"
  | stComment, lexeme =>
    ∃ mark body, (mark = ascii "#" ∨ mark = ascii "//") ∧ chr '\n' ∉ body ∧ lexeme = mark ++ body
  | stCcomment, lexeme =>
    ∃ body, lexeme = ascii "/*" ++ body ∧ ¬ ascii "*/" <:+: body ∧ body.getLast? ≠ some (chr '*')
  | stCcomment2, lexeme => ∃ body, lexeme = ascii "/*" ++ body ++ [chr '*'] ∧ ¬ ascii "*/" <:+: body ++ [chr '*']
  | _, _ => True

/-- The same after a character: back in the first state a comment has ended. -/
def ShapeAfter : State → List UInt8 → Prop
  | stNone, lexeme => LineComment lexeme ∨ BlockComment lexeme
  | state, lexeme => Shape state lexeme

def Move.Shaped (lexeme : List UInt8) (ch : UInt8) : Move → Prop
  | .space => lexeme = [] ∧ isSpace ch = true
  | .go state _ _ => ShapeAfter state (lexeme ++ [ch])
  | .again state _ _ => state ≠ stNone ∧ state ≠ stIntdot ∧ Shape state lexeme
  | .peekDot _ => ∃ digits, lexeme = digits ++ [chr '.']
  | _ => True

section Shapes

variable (i : Indent) (l : Locals) (ch : UInt8) (state : State) {lexeme : List UInt8} {body : List UInt8}

theorem shaped_hexCode {state str : State} (hstate : ShapeAfter state (lexeme ++ [ch]))
    (hstr : ShapeAfter str (lexeme ++ [ch])) : (hexCode i l ch state str).Shaped lexeme ch := by
  unfold hexCode
  split
  · trivial
  · exact of_ite (Move.Shaped _ _) (fun _ => hstr) (fun _ => hstate)

theorem shaped_base : (base i l ch).Shaped [] ch := by
  unfold base
  repeat' refine of_ite (Move.Shaped _ _) (fun _ => ?_) (fun _ => ?_)
  all_goals try trivial
  · rename_i hch
    exact ⟨ascii "#", [], .inl rfl, List.not_mem_nil, by rw [hch]; rfl⟩
  · rename_i hch
    change [] ++ [ch] = ascii "/"
    rw [hch]
    rfl

theorem shaped_slash : (transition i l ch stSlash).Shaped (ascii "/") ch := by
  simp only [transition]
  refine of_ite (Move.Shaped _ _) (fun hch => ?_) (fun _ => of_ite (Move.Shaped _ _) (fun _ => trivial) (fun _ => ?_))
  · exact ⟨ascii "//", [], .inr rfl, List.not_mem_nil, by rw [hch]; rfl⟩
  · refine of_ite (Move.Shaped _ _) (fun hch => ?_) (fun _ => trivial)
    exact ⟨[], by rw [hch]; rfl, by decide, by simp⟩

theorem shaped_comment {mark body : List UInt8} (hmark : mark = ascii "#" ∨ mark = ascii "//")
    (hbody : chr '\n' ∉ body) : (transition i l ch stComment).Shaped (mark ++ body) ch := by
  simp only [transition]
  refine of_ite (Move.Shaped _ _) (fun hch => ?_) (fun hch => ?_)
  · refine of_ite (Move.Shaped _ _) (fun _ => trivial) (fun _ => ?_)
    exact .inl ⟨mark, body, hmark, hbody, .inr (by rw [hch])⟩
  · refine ⟨mark, body ++ [ch], hmark, ?_, List.append_assoc _ _ _⟩
    simp [hbody, Ne.symm hch]

/-- A text without `*/` goes on without it unless a slash follows an asterisk. -/
theorem not_closed_append (h : ¬ ascii "*/" <:+: body) (hch : body.getLast? ≠ some (chr '*') ∨ ch ≠ chr '/') :
    ¬ ascii "*/" <:+: body ++ [ch] := by
  intro hin
  rcases List.infix_concat_iff.mp hin with hs | hi
  · obtain ⟨before, hbefore⟩ := hs
    have hsplit : before ++ [chr '*'] ++ [chr '/'] = body ++ [ch] := by
      rw [List.append_assoc]
      exact hbefore
    obtain ⟨rfl, hlast⟩ := List.append_inj' hsplit rfl
    obtain rfl := (List.cons.inj hlast).1
    rcases hch with hch | hch
    · simp at hch
    · exact hch rfl
  · exact h hi

theorem shaped_ccomment (hbody : ¬ ascii "*/" <:+: body) (hlast : body.getLast? ≠ some (chr '*')) :
    (transition i l ch stCcomment).Shaped (ascii "/*" ++ body) ch := by
  simp only [transition]
  have hnext := not_closed_append ch hbody (.inl hlast)
  refine of_ite (Move.Shaped _ _) (fun hch => ?_) (fun hch => ?_)
  · exact ⟨body, by rw [hch], by rwa [hch] at hnext⟩
  · exact ⟨body ++ [ch], List.append_assoc _ _ _, hnext, by simpa using hch⟩

theorem shaped_ccomment2 (hbody : ¬ ascii "*/" <:+: body ++ [chr '*']) :
    (transition i l ch stCcomment2).Shaped (ascii "/*" ++ body ++ [chr '*']) ch := by
  simp only [transition]
  refine of_ite (Move.Shaped _ _) (fun hch => ?_) (fun hslash => ?_)
  · refine of_ite (Move.Shaped _ _) (fun _ => trivial) (fun _ => ?_)
    exact .inr ⟨body, by rw [hch, List.append_assoc]; rfl, hbody⟩
  · have hnext := not_closed_append ch hbody (.inr hslash)
    refine of_ite (Move.Shaped _ _) (fun hch => ?_) (fun hch => ?_)
    · exact ⟨body ++ [chr '*'] ++ [ch], by simp, hnext, by simpa using hch⟩
    · refine ⟨body ++ [chr '*'], ?_, ?_⟩
      · rw [Decidable.not_not.mp hch, List.append_assoc (ascii "/*")]
      · rwa [Decidable.not_not.mp hch] at hnext

theorem shaped_number : (transition i l ch stNumber).Shaped lexeme ch := by
  simp only [transition]
  refine of_ite (Move.Shaped _ _) (fun _ => trivial) (fun _ => ?_)
  refine of_ite (Move.Shaped _ _) (fun hch => ⟨lexeme, by rw [hch]⟩) (fun _ => ?_)
  exact of_ite (Move.Shaped _ _) (fun _ => trivial) (fun _ => trivial)

theorem shaped_transition (h : Shape state lexeme) : (transition i l ch state).Shaped lexeme ch := by
  cases state
  case stNone =>
    obtain rfl : lexeme = [] := h
    simp only [transition]
    refine of_ite (Move.Shaped _ _) (fun _ => trivial) (fun _ => ?_)
    refine of_ite (Move.Shaped _ _) (fun _ => trivial) (fun _ => ?_)
    exact of_ite (Move.Shaped _ _) (fun _ => trivial) (fun _ => shaped_base i l ch)
  case stInterpNone =>
    obtain rfl : lexeme = [] := h
    exact shaped_base i l ch
  case stSlash =>
    obtain rfl : lexeme = ascii "/" := h
    exact shaped_slash i l ch
  case stComment =>
    obtain ⟨mark, body, hmark, hbody, rfl⟩ := h
    exact shaped_comment i l ch hmark hbody
  case stCcomment =>
    obtain ⟨body, rfl, hbody, hlast⟩ := h
    exact shaped_ccomment i l ch hbody hlast
  case stCcomment2 =>
    obtain ⟨body, rfl, hbody⟩ := h
    exact shaped_ccomment2 i l ch hbody
  case stNumber => exact shaped_number i l ch
  case stIntdot =>
    simp only [transition]
    exact of_ite (Move.Shaped _ _) (fun _ => trivial) (fun _ => h)
  case stStrHex | stIstrHex => exact shaped_hexCode i l ch trivial trivial
  all_goals
    simp only [transition, inIdent, twice, digram, escapeChar, escapedNewline, octalCode, digits]
    repeat' refine of_ite (Move.Shaped _ _) (fun _ => ?_) (fun _ => ?_)
  all_goals trivial

end Shapes

namespace Toker

variable {t t' : Toker} {l l' : Locals} {src src' : List UInt8} {junk : TokenType} {g : Log} {ch : UInt8}

/-- Either the buffer is empty, or there is room in it for the characters of the token. -/
def Room (t : Toker) (l : Locals) : Prop :=
  t.putbackBuf = [] ∨ t.putbackBuf.length + credit t.state l ≤ putbackSize

/-- The invariant of the loop: the log is what was taken from the text. -/
structure Logging (text : List UInt8) (t : Toker) (l : Locals) (src : List UInt8) (g : Log) : Prop where
  text : text = g.text ++ t.rest src
  skipped : ∀ c ∈ g.skipped, Skippable c
  shape : Shape t.state g.lexeme
  credited : credit t.state l ≤ g.lexeme.length
  room : t.Room l
  overflow : g.overflow = false

theorem getChar_putback {t : Toker} (h : t.getChar src = (some (ch, src'), t')) :
    t.putbackBuf = ch :: t'.putbackBuf ∨ t.putbackBuf = [] ∧ t'.putbackBuf = [] := by
  unfold getChar at h
  cases hp : t.putbackBuf with
  | cons c p =>
    rw [hp] at h
    cases h
    dsimp only
    split <;> exact .inl rfl
  | nil =>
    cases src with
    | nil => rw [hp] at h; cases h
    | cons c src =>
      rw [hp] at h
      cases h
      dsimp only
      split <;> exact .inr ⟨rfl, hp⟩

@[simp] theorem putbackBuf_enter (t : Toker) (state : State) (i : Indent) :
    (t.enter state i).putbackBuf = t.putbackBuf := rfl

theorem putbackBuf_ungetChar (t : Toker) (ch : UInt8) : (t.ungetChar ch).putbackBuf = ch :: t.putbackBuf := by
  unfold ungetChar
  dsimp only
  split <;> rfl

/-- After a character there is room for it, and for more if the token is long enough. -/
theorem room_getChar (h : t.getChar src = (some (ch, src'), t')) (hroom : t.Room l) :
    t'.putbackBuf = [] ∨ t'.putbackBuf.length + 1 + credit t.state l ≤ putbackSize := by
  rcases hroom with hempty | hle
  · rcases getChar_putback h with hcons | ⟨-, hnil⟩
    · rw [hempty] at hcons
      cases hcons
    · exact .inl hnil
  · rcases getChar_putback h with hcons | ⟨-, hnil⟩
    · rw [hcons] at hle
      exact .inr hle
    · exact .inl hnil

theorem checkRoom_of_lt {n : Nat} (h : n < putbackSize) (hg : g.overflow = false) : g.checkRoom n = g := by
  rw [Log.checkRoom, decide_eq_false (by omega), hg]
  cases g
  cases hg
  rfl

theorem credit_le_one {state : State} (h : state ≠ stIntdot) : credit state l ≤ 1 := by
  cases state
  case stIntdot => exact absurd rfl h
  case stIstr => exact credit_istr l
  all_goals simp [credit]

theorem shape_of_after {state : State} {lexeme : List UInt8} (h : ShapeAfter state lexeme) (hne : state ≠ stNone) :
    Shape state lexeme := by
  cases state
  case stNone => exact absurd rfl hne
  all_goals exact h

variable {text : List UInt8} {src₀ : List UInt8} {data : List UInt8} {logs : List Log} {t₀ : Toker}

/-- A move that reads on. -/
theorem Logging.step {t'' : Toker} (hl : Logging text t l src g) (hc : t.getChar src = (some (ch, src'), t'))
    (hp : t'.perform l ch src' (transition t'.indent l ch t'.state) = .inl (t'', l')) :
    Logging text t'' l' src' (g.move ch t'.putbackBuf.length (transition t'.indent l ch t'.state)) := by
  obtain ⟨hrest, hstate, -⟩ := getChar_some hc
  have hroom := room_getChar hc hl.room
  have htext := hl.text
  rw [hrest] at htext
  have hshaped := shaped_transition t'.indent l ch t'.state (hstate ▸ hl.shape)
  have hcredited := credited_transition t'.indent l ch t'.state
  have hcredit := hl.credited
  rw [← hstate] at hroom hcredit
  cases hm : transition t'.indent l ch t'.state with
  | space =>
    rw [hm] at hp hshaped
    obtain ⟨ht'', rfl⟩ := Prod.mk.inj (Sum.inl.inj hp)
    have hputback : t''.state = stNone ∧ t''.putbackBuf = t'.putbackBuf := by
      rw [← ht'']
      split <;> exact ⟨rfl, rfl⟩
    have hrest' : t''.rest src' = t'.rest src' := by rw [rest, hputback.2, rest]
    obtain ⟨hempty, hspace⟩ := hshaped
    simp only [Log.move]
    refine ⟨?_, ?_, ?_, ?_, ?_, hl.overflow⟩
    · rw [hrest', htext]
      simp [Log.text, Log.skip, Log.take]
    · intro c hcin
      rcases List.mem_append.mp hcin with hcin | hcin
      · exact hl.skipped c hcin
      · obtain rfl := List.mem_singleton.mp hcin
        exact .inl ⟨ch, hspace, by rw [Log.take, hempty]; rfl⟩
    · rw [hputback.1]
      rfl
    · rw [hputback.1]
      exact Nat.zero_le _
    · refine hroom.imp (fun h => hputback.2.trans h) fun h => ?_
      rw [hputback.1, hputback.2]
      change t'.putbackBuf.length + 0 ≤ putbackSize
      omega
  | go state i l'' =>
    rw [hm] at hp hshaped hcredited
    obtain ⟨rfl, rfl⟩ := Prod.mk.inj (Sum.inl.inj hp)
    have hle : credit state l'' ≤ credit t'.state l + 1 := hcredited
    have hroom' : (t'.enter state i).Room l'' := hroom.imp_right fun h => by
      simp only [state_enter, putbackBuf_enter]
      omega
    by_cases hend : state = stNone
    · subst hend
      simp only [Log.move, if_true]
      refine ⟨?_, ?_, rfl, Nat.zero_le _, hroom', hl.overflow⟩
      · simp [htext, Log.text, Log.skip, Log.take]
      · intro c hcin
        rcases List.mem_append.mp hcin with hcin | hcin
        · exact hl.skipped c hcin
        · obtain rfl := List.mem_singleton.mp hcin
          exact .inr hshaped
    · simp only [Log.move, hend, if_false]
      refine ⟨?_, hl.skipped, shape_of_after hshaped hend, ?_, hroom', hl.overflow⟩
      · simp [htext, Log.text, Log.take]
      · simp only [Log.take, List.length_append, List.length_singleton, state_enter]
        omega
  | again state i l'' =>
    rw [hm] at hp hshaped hcredited
    obtain ⟨rfl, rfl⟩ := Prod.mk.inj (Sum.inl.inj hp)
    obtain ⟨-, hdot, hshape⟩ := hshaped
    have hle : credit state l'' ≤ credit t'.state l := hcredited
    have hone := credit_le_one (l := l'') hdot
    have hlt : t'.putbackBuf.length < putbackSize := by
      rcases hroom with hempty | hle
      · rw [hempty]
        decide
      · omega
    simp only [Log.move, checkRoom_of_lt hlt hl.overflow]
    refine ⟨?_, hl.skipped, hshape, Nat.le_trans hle hcredit, .inr ?_, hl.overflow⟩
    · rw [rest_enter, rest_ungetChar]
      exact htext
    · simp only [putbackBuf_enter, putbackBuf_ungetChar, List.length_cons, state_enter]
      rcases hroom with hempty | hle'
      · rw [hempty, putbackSize, List.length_nil]
        omega
      · omega
  | done | peek | peekDot | ident | abort => rw [hm] at hp; cases hp

/-- Between two calls the putback buffer may be full. -/
structure Between (t : Toker) : Prop where
  ready : t.state.ready = true
  putback : t.putbackBuf.length ≤ putbackSize

/-- What the end of a call has to do with the log. -/
def Result.Covered (text : List UInt8) (g : Log) : Result → Prop
  | .token tok t src => t.Between ∧ g.Covers text (t.rest src) tok.type
  | .abort _ _ => True
  | .assertion _ => False

theorem give_covered {type : TokenType} (hready : t.state.ready = true)
    (hputback : t.putbackBuf.length ≤ putbackSize) (hcovers : g.Covers text (t.rest src) type) :
    (t.give type data src).Covered text g := by
  refine ⟨⟨?_, ?_⟩, ?_⟩
  · rw [state_getLocation]
    exact hready
  · rw [putbackBuf_getLocation]
    exact hputback
  · rw [rest, putbackBuf_getLocation]
    exact hcovers

theorem fixIdent_covered {loc : Location} (hready : t.state.ready = true)
    (hputback : t.putbackBuf.length ≤ putbackSize)
    (hcovers : g.Covers text (t.rest src) (t.fixIdent data loc).1.type) :
    (Result.token (t.fixIdent data loc).1 (t.fixIdent data loc).2 src).Covered text g := by
  obtain ⟨hstate, hrest⟩ := fixIdent_toker t data loc
  refine ⟨⟨?_, ?_⟩, ?_⟩
  · rw [hstate]
    exact hready
  · unfold fixIdent
    split
    · exact hputback
    · rw [putbackBuf_getLocation]
      exact hputback
  · rw [hrest]
    exact hcovers

/-- The last move of a call. -/
theorem Logging.last {r : Result} (hl : Logging text t l src g) (hc : t.getChar src = (some (ch, src'), t'))
    (hp : t'.perform l ch src' (transition t'.indent l ch t'.state) = .inr r) :
    r.Covered text (g.move ch t'.putbackBuf.length (transition t'.indent l ch t'.state)) ∧
      (g.move ch t'.putbackBuf.length (transition t'.indent l ch t'.state)).overflow = false := by
  obtain ⟨hrest, hstate, -⟩ := getChar_some hc
  have hroom := room_getChar hc hl.room
  have htext := hl.text
  rw [hrest] at htext
  have hshaped := shaped_transition t'.indent l ch t'.state (hstate ▸ hl.shape)
  have hcredited := credited_transition t'.indent l ch t'.state
  have hcredit := hl.credited
  rw [← hstate] at hroom hcredit
  have hlt : t'.putbackBuf.length < putbackSize := by
    rcases hroom with hempty | hle
    · rw [hempty]
      decide
    · omega
  cases hm : transition t'.indent l ch t'.state with
  | space | go | again => rw [hm] at hp; cases hp
  | done state i type data =>
    rw [hm] at hp hcredited
    obtain rfl := Sum.inr.inj hp
    refine ⟨give_covered hcredited (Nat.le_of_lt hlt) ⟨?_, hl.skipped, .inl (by simp [Log.move, Log.take])⟩, hl.overflow⟩
    simp [htext, Log.text, Log.move, Log.take]
  | peek state type data =>
    rw [hm] at hp hcredited
    obtain rfl := Sum.inr.inj hp
    obtain ⟨hready, hone⟩ := hcredited
    simp only [Log.move, checkRoom_of_lt hlt hl.overflow]
    refine ⟨give_covered hready ?_ ⟨?_, hl.skipped, .inl ?_⟩, hl.overflow⟩
    · rw [putbackBuf_enter, putbackBuf_ungetChar]
      exact hlt
    · rw [rest_enter, rest_ungetChar]
      exact htext
    · exact List.length_pos_iff.mp (by omega)
  | peekDot data =>
    rw [hm] at hp hcredited hshaped
    obtain rfl := Sum.inr.inj hp
    obtain ⟨digits, hdigits⟩ := hshaped
    have htwo : 2 ≤ credit t'.state l := hcredited
    have hempty : t'.putbackBuf = [] := hroom.resolve_right fun h => by
      rw [putbackSize] at h
      omega
    rw [hdigits, List.length_append, List.length_singleton] at hcredit
    simp only [Log.move, hempty, List.length_nil, checkRoom_of_lt (show 0 < putbackSize by decide) hl.overflow,
      checkRoom_of_lt (show 0 + 1 < putbackSize by decide) hl.overflow]
    refine ⟨give_covered rfl ?_ ⟨?_, hl.skipped, .inl ?_⟩, hl.overflow⟩
    · rw [putbackBuf_enter, putbackBuf_ungetChar, putbackBuf_ungetChar, hempty]
      exact Nat.le_refl _
    · rw [rest_enter, rest_ungetChar, rest_ungetChar, htext]
      simp [Log.text, Log.untake, hdigits]
    · rw [Log.untake, hdigits, List.dropLast_concat]
      change digits ≠ []
      exact List.length_pos_iff.mp (by omega)
  | ident data =>
    rw [hm] at hp hcredited
    obtain rfl := Sum.inr.inj hp
    have hone : 1 ≤ credit t'.state l := hcredited
    simp only [Log.move, checkRoom_of_lt hlt hl.overflow]
    refine ⟨fixIdent_covered ?_ ?_ ⟨?_, hl.skipped, .inl ?_⟩, hl.overflow⟩
    · rw [state_getLocation]
      rfl
    · rw [putbackBuf_getLocation, putbackBuf_enter, putbackBuf_ungetChar]
      exact hlt
    · rw [rest, putbackBuf_getLocation, ← rest, rest_enter, rest_ungetChar]
      exact htext
    · exact List.length_pos_iff.mp (by omega)
  | abort type data msg =>
    rw [hm] at hp
    obtain rfl := Sum.inr.inj hp
    simp only [Log.move, checkRoom_of_lt hlt hl.overflow]
    exact ⟨trivial, hl.overflow⟩

/-- The end of the text. -/
theorem Logging.eof (hl : Logging text t l src g) (hc : t.getChar src = (none, t')) :
    (t'.endOfStream l).Covered text (if t.state = stComment then g.skip else g) ∧
      (if t.state = stComment then g.skip else g).overflow = false := by
  obtain ⟨hrest, rfl⟩ := getChar_eof hc
  have hempty : t.putbackBuf = [] := (List.append_eq_nil_iff.mp hrest).1
  have htext := hl.text
  rw [hrest, List.append_nil] at htext
  have hshape := hl.shape
  have hcredit := hl.credited
  have hputback : t.putbackBuf.length ≤ putbackSize := by
    rw [hempty]
    exact Nat.zero_le _
  have hleft : t.rest [] = [] := by rw [rest, hempty, List.nil_append]
  unfold endOfStream
  cases hs : t.state
  case stNone =>
    refine ⟨give_covered rfl hputback ⟨?_, hl.skipped, .inr ⟨rfl, hleft⟩⟩, hl.overflow⟩
    rw [rest_enter]
    refine htext.trans ?_
    simp [Log.text, rest, hempty]
  case stComment =>
    rw [hs] at hshape
    obtain ⟨mark, body, hmark, hbody, hlexeme⟩ := hshape
    refine ⟨give_covered rfl hputback ⟨?_, ?_, .inr ⟨rfl, hleft⟩⟩, hl.overflow⟩
    · rw [rest_enter]
      refine htext.trans ?_
      simp [Log.text, Log.skip, rest, hempty]
    · intro c hcin
      rcases List.mem_append.mp hcin with hcin | hcin
      · exact hl.skipped c hcin
      · obtain rfl := List.mem_singleton.mp hcin
        exact .inr (.inl ⟨mark, body, hmark, hbody, .inl hlexeme⟩)
  case stIdent =>
    rw [hs] at hcredit
    refine ⟨give_covered rfl hputback ⟨?_, hl.skipped, .inl (List.length_pos_iff.mp hcredit)⟩, hl.overflow⟩
    rw [rest_enter]
    refine htext.trans ?_
    simp [Log.text, rest, hempty]
  all_goals exact ⟨trivial, hl.overflow⟩

/-- The outcome of a call that has come to `t` in its loop. -/
def outcome (t : Toker) (l : Locals) (src : List UInt8) : Result :=
  match t.readLoop l src with
  | .result r => r
  | .eof t l => t.endOfStream l

theorem readLoop_eof (hc : t.getChar src = (none, t')) : t.readLoop l src = .eof t' l := by
  rw [readLoop]
  split
  · next h =>
    rw [hc] at h
    rw [(Prod.mk.inj h).2]
  · next h =>
    rw [hc] at h
    cases h

theorem readLoop_some (hc : t.getChar src = (some (ch, src'), t')) :
    t.readLoop l src = (t'.perform l ch src' (transition t'.indent l ch t'.state)).elim
      (fun p => p.1.readLoop p.2 src') .result := by
  rw [readLoop]
  split
  · next h =>
    rw [hc] at h
    cases h
  · next h =>
    rw [hc] at h
    cases h
    split <;> next hp => rw [hp]; rfl

theorem Logging.outcome (hl : Logging text t l src g) :
    (t.outcome l src).Covered text (t.readLog l src g) ∧ (t.readLog l src g).overflow = false := by
  fun_induction readLog t l src g with
  | case1 t l src g t₁ hc hs =>
    rw [Toker.outcome, readLoop_eof hc]
    have heof := hl.eof hc
    rwa [if_pos hs] at heof
  | case2 t l src g t₁ hc hs =>
    rw [Toker.outcome, readLoop_eof hc]
    have heof := hl.eof hc
    rwa [if_neg hs] at heof
  | case3 t l src g ch src₁ t₁ hc t₂ l₂ hp ih =>
    rw [Toker.outcome, readLoop_some hc, hp]
    exact ih (hl.step hc hp)
  | case4 t l src g ch src₁ t₁ hc r hp =>
    rw [Toker.outcome, readLoop_some hc, hp]
    exact hl.last hc hp

theorem credit_start (junk : TokenType) {state : State} (h : state.ready = true) : credit state (Locals.start junk) = 0 := by
  cases state <;> first | rfl | cases h

theorem Between.logging (ht : t.Between) (junk : TokenType) (src : List UInt8) :
    Logging (t.rest src) { t with currentStartCol := t.lastLoc.endCol + 1 } (Locals.start junk) src {} := by
  have hcredit := credit_start junk ht.ready
  refine ⟨rfl, fun c hc => absurd hc List.not_mem_nil, ?_, Nat.le_of_eq hcredit, .inr ?_, rfl⟩
  · have hready := ht.ready
    cases hs : t.state <;> rw [hs] at hready <;> first | rfl | trivial
  · change t.putbackBuf.length + credit t.state (Locals.start junk) ≤ putbackSize
    rw [hcredit]
    exact ht.putback

/-- A call covers a part of the text, puts back no more than there is room for, and
returns a token or throws. -/
theorem Between.covered (ht : t.Between) (junk : TokenType) (src : List UInt8) :
    (t.readToken junk src).Covered (t.rest src) (t.callLog junk src) ∧ (t.callLog junk src).overflow = false :=
  (ht.logging junk src).outcome

theorem between_new (sourceName : List UInt8) (lineNumber : Int) : (Toker.new sourceName lineNumber).Between :=
  ⟨rfl, Nat.zero_le _⟩

theorem Calls.between_of (h₀ : t₀.Between) (h : Calls junk t₀ src₀ logs t src) : t.Between := by
  induction h with
  | start => exact h₀
  | @call _ t _ src _ _ _ hr ih =>
    have hcovered := (ih.covered junk src).1
    rw [hr] at hcovered
    exact hcovered.1
  | between _ hready hp ih => exact ⟨hready, hp ▸ ih.putback⟩

/-- The calls cover the text in their order. -/
theorem Calls.text_eq (h₀ : t₀.Between) (h : Calls junk t₀ src₀ logs t src) :
    t₀.rest src₀ = (logs.map Log.text).flatten ++ t.rest src := by
  induction h with
  | start => rfl
  | @call _ t _ src _ _ h hr ih =>
    have hcovered := ((h.between_of h₀).covered junk src).1
    rw [hr] at hcovered
    rw [ih, hcovered.2.text]
    simp [Log.text]
  | between _ _ hp ih =>
    rw [ih, rest, rest, hp]

end Toker

/-- Whatever was read before, a call returns a token or throws, and its putback buffer
does not overflow. The logs of the calls follow one another in the text, a token takes a
character at least or is the end of the text, and what is skipped are blanks and
comments. -/
theorem readToken_covers (junk : TokenType) (sourceName : List UInt8) (lineNumber : Int) (text : List UInt8)
    (logs : List Log) (t : Toker) (src : List UInt8)
    (h : Toker.Calls junk (Toker.new sourceName lineNumber) text logs t src) :
    text = (logs.map Log.text).flatten ++ t.rest src ∧
      (t.callLog junk src).overflow = false ∧
      match t.readToken junk src with
      | .token tok t' src' => (t.callLog junk src).Covers (t.rest src) (t'.rest src') tok.type
      | .abort _ _ => True
      | .assertion _ => False := by
  have h₀ := Toker.between_new sourceName lineNumber
  obtain ⟨hcovered, hoverflow⟩ := (h.between_of h₀).covered junk src
  refine ⟨h.text_eq h₀, hoverflow, ?_⟩
  cases hr : t.readToken junk src with
  | token tok t' src' =>
    rw [hr] at hcovered
    exact hcovered.2
  | abort => trivial
  | assertion msg =>
    rw [hr] at hcovered
    exact hcovered

theorem readToken_covers_start :
    ascii "1. " = (([] : List Log).map Log.text).flatten ++ (Toker.new [] 1).rest (ascii "1. ") ∧
      ((Toker.new [] 1).callLog .end (ascii "1. ")).overflow = false ∧
      match (Toker.new [] 1).readToken .end (ascii "1. ") with
      | .token tok t' src' =>
        ((Toker.new [] 1).callLog .end (ascii "1. ")).Covers ((Toker.new [] 1).rest (ascii "1. ")) (t'.rest src') tok.type
      | .abort _ _ => True
      | .assertion _ => False :=
  readToken_covers .end [] 1 (ascii "1. ") [] (Toker.new [] 1) (ascii "1. ") .start

end Lexer

end Crack
