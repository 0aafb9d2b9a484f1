import Crack.Parser.ExpressionTrees

/-!
# Expression parsing

The rules of `parseExpression` and `parseSecondary`, and what they make of the
sequences of the precedence table.
-/
namespace Crack

namespace Parser

open Precedence Fuel

variable (isType : Expr → Bool)

/-- `parseExpression` returns `r`. -/
def Parses (precedence : Nat) (toks : List Token) (r : Result (Expr × List Token)) : Prop :=
  Returns (fun fuel => parseExpression isType fuel precedence toks) r

/-- `parseSecondary` returns `r` once `expr` was parsed. -/
def Continues (precedence : Nat) (expr : Expr) (toks : List Token) (r : Result (Expr × List Token)) : Prop :=
  Returns (fun fuel => parseSecondary isType fuel precedence expr toks) r

/-- Neither an operator of a higher precedence nor anything else that goes on with
the expression is next. -/
def Halts (precedence : Nat) : List Token → Prop
  | .binOp op :: _ => op.prec ≤ precedence
  | .quest :: _ => logOrPrec ≤ precedence
  | .incr :: _ | .decr :: _ | .bang :: _ | .lparen :: _ => False
  | _ => True

section Table

theorem getPrecedence_binOp (op : BinOp) : getPrecedence op.data = .ok op.prec := by
  cases op <;> rfl

theorem prec_pos (o : Link) : noPrec < o.prec := by
  cases o with
  | op o => cases o <;> decide
  | notIs => decide

theorem prec_lt_unaryPrec (o : Link) : o.prec < unaryPrec := by
  cases o with
  | op o => cases o <;> decide
  | notIs => decide

end Table

variable {isType} {p q n : Nat} {e lhs rhs : Expr} {toks rest : List Token} {r : Result (Expr × List Token)}
  {m : Error}

theorem halts_mono (h : Halts p toks) (hq : p ≤ q) : Halts q toks := by
  unfold Halts at *
  split <;> simp_all <;> omega

section Rules

theorem parses_ident (h : Continues isType p (.ident n) toks r) : Parses isType p (.ident n :: toks) r :=
  h.step fun _ hc => hc

theorem parses_number (h : Continues isType p (.number n) toks r) : Parses isType p (.number n :: toks) r :=
  h.step fun _ hc => hc

theorem parses_plusNumber (h : Continues isType p (.number n) toks r) :
    Parses isType p (.binOp .plus :: .number n :: toks) r :=
  h.step fun _ hc => hc

theorem parses_paren (h : Parses isType noPrec toks (.ok (e, .rparen :: rest)))
    (hc : Continues isType p e rest r) : Parses isType p (.lparen :: toks) r := by
  apply h.step₂ hc
  intro fuel h hc
  simp only [parseExpression_lparen, h]
  exact hc

theorem parses_paren_error (h : Parses isType noPrec toks (.error m)) :
    Parses isType p (.lparen :: toks) (.error m) := by
  apply h.step
  intro fuel h
  simp only [parseExpression_lparen, h]
  rfl

theorem parseExpression_unary (op : UnaryOp) (fuel : Nat) :
    parseExpression isType (fuel + 1) p (op.token :: toks) = (do
      let (operand, toks) ← parseExpression isType fuel unaryPrec toks
      parseSecondary isType fuel p (.unary op.symbol operand) toks) := by
  cases op <;> rfl

theorem parses_unary (op : UnaryOp) (h : Parses isType unaryPrec toks (.ok (e, rest)))
    (hc : Continues isType p (.unary op.symbol e) rest r) : Parses isType p (op.token :: toks) r := by
  apply h.step₂ hc
  intro fuel h hc
  simp only [parseExpression_unary, h]
  exact hc

theorem parses_unary_error (op : UnaryOp) (h : Parses isType unaryPrec toks (.error m)) :
    Parses isType p (op.token :: toks) (.error m) := by
  apply h.step
  intro fuel h
  simp only [parseExpression_unary, h]
  rfl

theorem continues_halt (h : Halts p toks) : Continues isType p e toks (.ok (e, toks)) := by
  apply Returns.now
  intro fuel
  unfold parseSecondary
  split
  case h_3 op rest =>
    have hle : op.prec ≤ p := h
    simp [getPrecedence_binOp, bind, Except.bind, hle]
  case h_4 rest =>
    have hle : logOrPrec ≤ p := h
    simp [hle]
  case h_8 => rfl
  all_goals exact absurd h (by simp [Halts])

theorem continues_suffix (op : SuffixOp) (h : Continues isType p (.unary op.symbol e) toks r) :
    Continues isType p e (op.token :: toks) r := by
  cases op with
  | incr => exact h.step fun _ hc => hc
  | decr => exact h.step fun _ hc => hc

/-- The loop meets an operator of a higher precedence. -/
theorem parseSecondary_link (o : Link) (fuel : Nat) (hp : p < o.prec) :
    parseSecondary isType (fuel + 1) p e (o.tokens ++ toks) = (do
      let (rhs, toks) ← parseExpression isType fuel o.prec toks
      parseSecondary isType fuel p (o.call e rhs) toks) := by
  have hp : ¬ o.prec ≤ p := Nat.not_le_of_lt hp
  cases o with
  | op o =>
    simp only [Link.prec] at hp ⊢
    simp only [Link.tokens, List.cons_append, List.nil_append, parseSecondary_binOp, getPrecedence_binOp, bind,
      Except.bind, if_neg hp, parseBinOp]
    cases parseExpression isType fuel o.prec toks <;> rfl
  | notIs =>
    simp only [Link.prec] at hp ⊢
    simp only [Link.tokens, List.cons_append, List.nil_append, parseSecondary_notIs, getPrecedence_binOp, bind,
      Except.bind, if_neg hp, parseBinOp]
    cases parseExpression isType fuel BinOp.isKw.prec toks <;> rfl

theorem continues_link (o : Link) (hp : p < o.prec) (h : Parses isType o.prec toks (.ok (rhs, rest)))
    (hc : Continues isType p (o.call e rhs) rest r) : Continues isType p e (o.tokens ++ toks) r := by
  apply h.step₂ hc
  intro fuel h hc
  simp only [parseSecondary_link o fuel hp, h]
  exact hc

theorem continues_link_error (o : Link) (hp : p < o.prec) (h : Parses isType o.prec toks (.error m)) :
    Continues isType p e (o.tokens ++ toks) (.error m) := by
  apply h.step
  intro fuel h
  simp only [parseSecondary_link o fuel hp, h]
  rfl

/-- At the precedence of `is` or a higher one, only the `!` is left of `!is`. -/
theorem continues_notIs_lost (hp : Link.notIs.prec ≤ p) :
    Continues isType p e (Link.notIs.tokens ++ toks) (.ok (e, .bang :: toks)) := by
  apply Returns.now
  intro fuel
  have hp : BinOp.isKw.prec ≤ p := hp
  simp [Link.tokens, parseSecondary_notIs, getPrecedence_binOp, bind, Except.bind, hp]

theorem continues_bang (h : ∀ rest, toks ≠ .binOp .isKw :: rest) :
    ∃ m, Continues isType p e (.bang :: toks) (.error m) := by
  refine ⟨if isType e then .text "Sequence initializer ('[ ... ]') expected after 'type!'"
    else .text "Exclamation point can not follow a non-type expression", Returns.now fun fuel => ?_⟩
  simp only [parseSecondary]
  split <;> rfl

theorem parseSecondary_quest (fuel : Nat) (hp : p < logOrPrec) :
    parseSecondary isType (fuel + 1) p e (.quest :: toks) = (do
      let (e, toks) ← parseTernary (parseExpression isType fuel) e toks
      parseSecondary isType fuel p e toks) := by
  have hp : ¬ logOrPrec ≤ p := Nat.not_le_of_lt hp
  simp only [parseSecondary_ternary, if_neg hp]

variable {trueVal falseVal : Expr} {rest' : List Token}

theorem continues_ternary (hp : p < logOrPrec) (ht : Parses isType noPrec toks (.ok (trueVal, .colon :: rest)))
    (hf : Parses isType noPrec rest (.ok (falseVal, rest')))
    (hc : Continues isType p (.ternary e trueVal falseVal) rest' r) : Continues isType p e (.quest :: toks) r := by
  apply (ht.and hf).step₂ hc
  intro fuel h hc
  obtain ⟨ht, hf⟩ := Prod.mk.inj h
  simp only [parseSecondary_quest fuel hp, parseTernary, bind, Except.bind, ht, hf]
  exact hc

theorem continues_trueVal_error (hp : p < logOrPrec) (ht : Parses isType noPrec toks (.error m)) :
    Continues isType p e (.quest :: toks) (.error m) := by
  apply ht.step
  intro fuel ht
  simp only [parseSecondary_quest fuel hp, parseTernary, bind, Except.bind, ht]

theorem continues_falseVal_error (hp : p < logOrPrec)
    (ht : Parses isType noPrec toks (.ok (trueVal, .colon :: rest))) (hf : Parses isType noPrec rest (.error m)) :
    Continues isType p e (.quest :: toks) (.error m) := by
  apply ht.step₂ hf
  intro fuel ht hf
  simp only [parseSecondary_quest fuel hp, parseTernary, bind, Except.bind, ht, hf]

end Rules

section Operands

variable (isType)

/-- What is proved of a primary. -/
structure PrimaryParses (a : Primary) : Prop where
  placed (p : Nat) (rest : List Token) (r : Result (Expr × List Token)) :
    a.Placed → Continues isType p a.tree rest r → Parses isType p (a.tokens ++ rest) r
  misplaced (p : Nat) (rest : List Token) : ¬ a.Placed → ∃ m, Parses isType p (a.tokens ++ rest) (.error m)

/-- What is proved of an operand. `!is` goes on with an operand alone only if no
unary operator is before it. -/
structure OperandParses (x : Operand) : Prop where
  placed (p : Nat) (rest : List Token) (r : Result (Expr × List Token)) :
    x.Placed → (x.isBare = true ∨ Halts unaryPrec rest) → Continues isType p x.tree rest r →
      Parses isType p (x.tokens ++ rest) r
  misplaced (p : Nat) (rest : List Token) : ¬ x.Placed → ∃ m, Parses isType p (x.tokens ++ rest) (.error m)
  notIs (p : Nat) (rest : List Token) : x.Placed → ¬ x.isBare = true → (∀ toks, rest ≠ .binOp .isKw :: toks) →
    ∃ m, Parses isType p (x.tokens ++ (Link.notIs.tokens ++ rest)) (.error m)

/-- What is proved of an expression, up to a token that ends it. -/
structure SourceParses (s : Source) : Prop where
  placed (rest : List Token) :
    s.Placed → Halts noPrec rest → Parses isType noPrec (s.tokens ++ rest) (.ok (s.tree, rest))
  misplaced (rest : List Token) :
    ¬ s.Placed → ∃ m, Parses isType noPrec (s.tokens ++ rest) (.error m)

variable {isType}

theorem continues_suffixes (suffixes : List SuffixOp)
    (h : Continues isType p (suffixes.foldl (fun e op => .unary op.symbol e) e) rest r) :
    Continues isType p e (suffixes.map SuffixOp.token ++ rest) r := by
  induction suffixes generalizing e with
  | nil => exact h
  | cons op suffixes ih => exact continues_suffix op (ih h)

theorem primaryParses_paren {s : Source} (h : SourceParses isType s) : PrimaryParses isType (.paren s) where
  placed p rest r hp hc := by
    have hs := h.placed (.rparen :: rest) hp trivial
    simp only [Primary.tokens, List.cons_append, List.append_assoc, List.nil_append]
    exact parses_paren hs hc
  misplaced p rest hp := by
    obtain ⟨m, hm⟩ := h.misplaced (.rparen :: rest) hp
    refine ⟨m, ?_⟩
    simp only [Primary.tokens, List.cons_append, List.append_assoc, List.nil_append]
    exact parses_paren_error hm

theorem operandParses_bare {a : Primary} (h : PrimaryParses isType a) (suffixes : List SuffixOp) :
    OperandParses isType (.bare a suffixes) where
  placed p rest r hp _ hc := by
    simp only [Operand.tokens, List.append_assoc]
    exact h.placed p _ r hp (continues_suffixes suffixes hc)
  misplaced p rest hp := by
    simp only [Operand.tokens, List.append_assoc]
    exact h.misplaced p _ hp
  notIs p rest hp hb := absurd rfl hb

theorem operandParses_unary {x : Operand} (h : OperandParses isType x) (op : UnaryOp) :
    OperandParses isType (.unary op x) where
  placed p rest r hp hh hc := by
    have hh : Halts unaryPrec rest := hh.resolve_left (by simp [Operand.isBare])
    exact parses_unary op (h.placed unaryPrec rest _ hp (.inr hh) (continues_halt hh)) hc
  misplaced p rest hp := by
    obtain ⟨m, hm⟩ := h.misplaced unaryPrec rest hp
    exact ⟨m, parses_unary_error op hm⟩
  notIs p rest hp _ hr := by
    by_cases hb : x.isBare = true
    · -- the operand ends before `!is`, of which `!` is left
      have hlost : Continues isType unaryPrec x.tree (Link.notIs.tokens ++ rest) (.ok (x.tree, .bang :: rest)) :=
        continues_notIs_lost (Nat.le_of_lt (prec_lt_unaryPrec .notIs))
      obtain ⟨m, hm⟩ : ∃ m, Continues isType p (.unary op.symbol x.tree) (.bang :: rest) (.error m) :=
        continues_bang hr
      exact ⟨m, parses_unary op (h.placed unaryPrec _ _ hp (.inl hb) hlost) hm⟩
    · obtain ⟨m, hm⟩ := h.notIs unaryPrec rest hp hb hr
      exact ⟨m, parses_unary_error op hm⟩

end Operands

section Trees

def treeTokens : Tree Link Operand → List Token
  | .leaf x => x.tokens
  | .node l o r => treeTokens l ++ (o.tokens ++ treeTokens r)

def treeExpr (t : Tree Link Operand) : Expr := Expr.ofTree (t.map Operand.tree)

def IsBareLeaf : Tree Link Operand → Prop
  | .leaf x => x.isBare = true
  | .node _ _ _ => False

/-- Left of every `!is` stands an operand alone. -/
def TreePlaced : Tree Link Operand → Prop
  | .leaf x => x.Placed
  | .node l o r => TreePlaced l ∧ TreePlaced r ∧ (o = .notIs → IsBareLeaf l)

/-- The parser is done with a tree where `rest` is next. -/
def Closes : Tree Link Operand → List Token → Prop
  | .leaf x, rest => x.isBare = true ∨ Halts unaryPrec rest
  | .node _ o _, rest => Halts o.prec rest

variable {t l s : Tree Link Operand} {o : Link} {prev : Option Link}

theorem operand_head (x : Operand) (rest toks : List Token) : x.tokens ++ rest ≠ .binOp .isKw :: toks := by
  cases x with
  | bare a suffixes => cases a <;> simp [Operand.tokens, Primary.tokens]
  | unary op x => cases op <;> simp [Operand.tokens, UnaryOp.token]

theorem treeTokens_head (t : Tree Link Operand) (rest toks : List Token) :
    treeTokens t ++ rest ≠ .binOp .isKw :: toks := by
  induction t generalizing rest with
  | leaf x => exact operand_head x rest toks
  | node l o r ihl ihr =>
    rw [treeTokens, List.append_assoc]
    exact ihl _

theorem closes_left (hl : l.TopGe Link.prec o.prec) (ho : o = .notIs → IsBareLeaf l) :
    Closes l (o.tokens ++ toks) := by
  cases o with
  | notIs =>
    cases l with
    | leaf x => exact .inl (ho rfl)
    | node l' o' r' => exact absurd (ho rfl) id
  | op op =>
    cases l with
    | leaf x => exact .inr (Nat.le_of_lt (prec_lt_unaryPrec (.op op)))
    | node l' o' r' => exact hl

theorem closes_right (hs : s.TopGe Link.prec (o.prec + 1)) (h : Halts o.prec rest) : Closes s rest := by
  cases s with
  | leaf x => exact .inr (halts_mono h (Nat.le_of_lt (prec_lt_unaryPrec o)))
  | node l' o' r' => exact halts_mono h (Nat.le_of_succ_le hs)

theorem parses_tree (hx : t.All (OperandParses isType)) (hw : t.WellPrec Link.prec) (hp : TreePlaced t)
    (hc : Closes t rest) (ht : t.TopGe Link.prec (p + 1)) (h : Continues isType p (treeExpr t) rest r) :
    Parses isType p (treeTokens t ++ rest) r := by
  induction t generalizing p rest r with
  | leaf x => exact hx.placed p rest r hp hc h
  | node l o s ihl ihr =>
    obtain ⟨hxl, hxs⟩ := hx
    obtain ⟨hwl, hws, hl, hs⟩ := hw
    obtain ⟨hpl, hps, ho⟩ := hp
    have ht : p + 1 ≤ o.prec := ht
    have hright : Parses isType o.prec (treeTokens s ++ rest) (.ok (treeExpr s, rest)) :=
      ihr hxs hws hps (closes_right hs hc) hs (continues_halt hc)
    have hloop : Continues isType p (treeExpr l) (o.tokens ++ (treeTokens s ++ rest)) r :=
      continues_link o ht hright h
    have hleft := ihl hxl hwl hpl (closes_left hl ho) (topGe_mono hl ht) hloop
    rwa [treeTokens, List.append_assoc, List.append_assoc]

/-- After a tree that is more than an operand alone, `!is` is an error. -/
theorem notIs_tree (hx : t.All (OperandParses isType)) (hw : t.WellPrec Link.prec) (hp : TreePlaced t)
    (hb : ¬ IsBareLeaf t) (hn : t.TopGe Link.prec Link.notIs.prec) (ht : t.TopGe Link.prec (p + 1))
    (hr : ∀ toks, rest ≠ .binOp .isKw :: toks) :
    ∃ m, Parses isType p (treeTokens t ++ (Link.notIs.tokens ++ rest)) (.error m) := by
  induction t generalizing p with
  | leaf x => exact hx.notIs p rest hp hb hr
  | node l o s ihl ihr =>
    obtain ⟨hxl, hxs⟩ := hx
    obtain ⟨hwl, hws, hl, hs⟩ := hw
    obtain ⟨hpl, hps, ho⟩ := hp
    have hn : Link.notIs.prec ≤ o.prec := hn
    have ht : p + 1 ≤ o.prec := ht
    have hloop : ∃ m, Continues isType p (treeExpr l)
        (o.tokens ++ (treeTokens s ++ (Link.notIs.tokens ++ rest))) (.error m) := by
      by_cases hbs : IsBareLeaf s
      · -- the right operand ends before `!is`, of which `!` is left
        have hright : Parses isType o.prec (treeTokens s ++ (Link.notIs.tokens ++ rest))
            (.ok (treeExpr s, .bang :: rest)) := by
          cases s with
          | leaf x => exact hxs.placed o.prec _ _ hps (.inl hbs) (continues_notIs_lost hn)
          | node l' o' r' => exact absurd hbs id
        obtain ⟨m, hm⟩ : ∃ m, Continues isType p (o.call (treeExpr l) (treeExpr s)) (.bang :: rest) (.error m) :=
          continues_bang hr
        exact ⟨m, continues_link o ht hright hm⟩
      · obtain ⟨m, hm⟩ := ihr hxs hws hps hbs (topGe_mono hs (Nat.le_succ_of_le hn)) hs
        exact ⟨m, continues_link_error o ht hm⟩
    obtain ⟨m, hm⟩ := hloop
    have hleft := parses_tree hxl hwl hpl (closes_left hl ho) (topGe_mono hl ht) hm
    exact ⟨m, by rwa [treeTokens, List.append_assoc, List.append_assoc]⟩

theorem misplaced_tree (hx : t.All (OperandParses isType)) (hw : t.WellPrec Link.prec) (hp : ¬ TreePlaced t)
    (ht : t.TopGe Link.prec (p + 1)) (rest : List Token) :
    ∃ m, Parses isType p (treeTokens t ++ rest) (.error m) := by
  induction t generalizing p rest with
  | leaf x => exact hx.misplaced p rest hp
  | node l o s ihl ihr =>
    obtain ⟨hxl, hxs⟩ := hx
    obtain ⟨hwl, hws, hl, hs⟩ := hw
    have ht : p + 1 ≤ o.prec := ht
    simp only [treeTokens, List.append_assoc]
    by_cases hpl : TreePlaced l
    · by_cases ho : o = .notIs → IsBareLeaf l
      · have hps : ¬ TreePlaced s := fun hps => hp ⟨hpl, hps, ho⟩
        obtain ⟨m, hm⟩ := ihr hxs hws hps hs rest
        have hloop : Continues isType p (treeExpr l) (o.tokens ++ (treeTokens s ++ rest)) (.error m) :=
          continues_link_error o ht hm
        exact ⟨m, parses_tree hxl hwl hpl (closes_left hl ho) (topGe_mono hl ht) hloop⟩
      · obtain ⟨rfl, hb⟩ := Classical.not_imp.mp ho
        exact notIs_tree hxl hwl hpl hb hl (topGe_mono hl ht) (treeTokens_head s rest)
    · exact ihl hxl hwl hpl (topGe_mono hl ht) _

/-- The operators after an operand `x` that has `prev` left of it. -/
def ItemsPlaced : Option Link → Operand → List (Link × Operand) → Prop
  | _, _, [] => True
  | prev, x, (o, y) :: items => (o = .notIs → NotIsAfter prev x) ∧ y.Placed ∧ ItemsPlaced (some o) y items

theorem isBareLeaf_iff (hw : (l.node .notIs s).WellPrec Link.prec)
    (hprev : ∀ q ∈ prev, (l.node .notIs s).TopGe Link.prec (q.prec + 1)) :
    NotIsAfter (l.lastOp prev) l.last ↔ IsBareLeaf l := by
  obtain ⟨hwl, -, hl, -⟩ := hw
  cases l with
  | leaf x => exact ⟨And.left, fun hb => ⟨hb, hprev⟩⟩
  | node l' o' r' =>
    obtain ⟨-, hwr, -, hr⟩ := hwl
    have hge : ∀ q ∈ r'.lastOp (some o'), Link.notIs.prec ≤ q.prec := by
      apply le_lastOp hwr (topGe_mono hr (Nat.le_succ_of_le hl))
      intro q hq
      rwa [← Option.some.inj hq]
    constructor
    · intro h
      obtain ⟨q, hq⟩ : ∃ q, r'.lastOp (some o') = some q := exists_lastOp r' o'
      exact absurd (h.2 q hq) (Nat.not_lt_of_le (hge q hq))
    · intro h
      exact absurd h id

theorem itemsPlaced_tree (hw : t.WellPrec Link.prec) (hprev : ∀ q ∈ prev, t.TopGe Link.prec (q.prec + 1))
    (tail : List (Link × Operand)) :
    t.first.Placed ∧ ItemsPlaced prev t.first (t.items ++ tail) ↔
      TreePlaced t ∧ ItemsPlaced (t.lastOp prev) t.last tail := by
  induction t generalizing prev tail with
  | leaf x => exact Iff.rfl
  | node l o s ihl ihr =>
    have hnode := hw
    obtain ⟨hwl, hws, hl, hs⟩ := hw
    have hleft : ∀ q ∈ prev, l.TopGe Link.prec (q.prec + 1) := fun q hq => topGe_mono hl (hprev q hq)
    have hright : ∀ q ∈ some o, s.TopGe Link.prec (q.prec + 1) := by
      intro q hq
      rwa [← Option.some.inj hq]
    have ho : (o = .notIs → NotIsAfter (l.lastOp prev) l.last) ↔ (o = .notIs → IsBareLeaf l) := by
      constructor
      · rintro h rfl
        exact (isBareLeaf_iff hnode hprev).mp (h rfl)
      · rintro h rfl
        exact (isBareLeaf_iff hnode hprev).mpr (h rfl)
    have hs := ihr hws hright tail
    have hall := ihl hwl hleft ((o, s.first) :: (s.items ++ tail))
    simp only [Tree.first, Tree.items, Tree.last, Tree.lastOp, TreePlaced, List.append_assoc, List.cons_append]
    rw [hall, ItemsPlaced, ho, hs]
    constructor
    · rintro ⟨hpl, hb, hps, htail⟩
      exact ⟨⟨hpl, hps, hb⟩, htail⟩
    · rintro ⟨⟨hpl, hps, hb⟩, htail⟩
      exact ⟨hpl, hb, hps, htail⟩

end Trees

section Chains

def Chain.first : Chain → Operand
  | .last x => x
  | .cons x _ _ => x

def Chain.items : Chain → List (Link × Operand)
  | .last _ => []
  | .cons _ o c => (o, c.first) :: c.items

/-- The operands of a chain in the tree of the precedence table. -/
def Chain.build (c : Chain) : Tree Link Operand := Precedence.build Link.prec c.first c.items

theorem firstTree_eq (c : Chain) : c.firstTree = c.first.tree := by
  cases c <;> rfl

theorem itemTrees_eq : (c : Chain) → c.itemTrees = c.items.map (fun i => (i.1, i.2.tree))
  | .last _ => rfl
  | .cons _ o c => congrArg₂ List.cons (congrArg (Prod.mk o) (firstTree_eq c)) (itemTrees_eq c)

theorem treeExpr_build (c : Chain) : treeExpr c.build = .ofTree (build Link.prec c.firstTree c.itemTrees) := by
  rw [treeExpr, Chain.build, map_build, firstTree_eq, itemTrees_eq]

theorem chain_tokens : (c : Chain) →
    c.tokens = c.first.tokens ++ c.items.flatMap (fun i => i.1.tokens ++ i.2.tokens)
  | .last x => (List.append_nil x.tokens).symm
  | .cons x o c => by
    simp only [Chain.tokens, Chain.first, Chain.items, List.flatMap_cons, chain_tokens c, List.append_assoc]

theorem treeTokens_eq (t : Tree Link Operand) :
    treeTokens t = t.first.tokens ++ t.items.flatMap (fun i => i.1.tokens ++ i.2.tokens) := by
  induction t with
  | leaf x => exact (List.append_nil x.tokens).symm
  | node l o s ihl ihr =>
    simp only [treeTokens, ihl, ihr, Tree.first, Tree.items, List.flatMap_append, List.flatMap_cons,
      List.append_assoc]

theorem treeTokens_build (c : Chain) : treeTokens c.build = c.tokens := by
  rw [treeTokens_eq, Chain.build, first_build, items_build, chain_tokens]

theorem chain_placed : (c : Chain) → (prev : Option Link) →
    (c.Placed prev ↔ c.first.Placed ∧ ItemsPlaced prev c.first c.items)
  | .last _, _ => (and_iff_left trivial).symm
  | .cons _ o c, _ => and_congr_right' (and_congr_right' (chain_placed c (some o)))

theorem treePlaced_build (c : Chain) : TreePlaced c.build ↔ c.Placed none := by
  have hw : c.build.WellPrec Link.prec := wellPrec_build c.items
  have hnone : ∀ q ∈ (none : Option Link), c.build.TopGe Link.prec (q.prec + 1) := by simp
  have h := itemsPlaced_tree hw hnone []
  rw [List.append_nil] at h
  have hf : c.build.first = c.first := first_build c.items
  have hi : c.build.items = c.items := items_build c.items
  rw [chain_placed, ← hf, ← hi, h]
  exact (and_iff_left trivial).symm

theorem topGe_build (c : Chain) : c.build.TopGe Link.prec (noPrec + 1) := by
  cases h : c.build with
  | leaf x => trivial
  | node l o s => exact prec_pos o

/-- What is proved of a chain of operands. -/
structure ChainParses (isType : Expr → Bool) (c : Chain) : Prop where
  placed (rest : List Token) (r : Result (Expr × List Token)) :
    c.Placed none → Halts logOrPrec rest → Continues isType noPrec (treeExpr c.build) rest r →
      Parses isType noPrec (c.tokens ++ rest) r
  misplaced (rest : List Token) : ¬ c.Placed none → ∃ m, Parses isType noPrec (c.tokens ++ rest) (.error m)

variable {c : Chain}

theorem chainParses (hf : OperandParses isType c.first) (hi : ∀ i ∈ c.items, OperandParses isType i.2) :
    ChainParses isType c := by
  have hw : c.build.WellPrec Link.prec := wellPrec_build c.items
  have hall : c.build.All (OperandParses isType) := by
    rw [all_iff, Chain.build, first_build, items_build]
    exact ⟨hf, hi⟩
  constructor
  · intro rest r hp hh hc
    have hclose : Closes c.build rest := by
      cases h : c.build with
      | leaf x => exact .inr (halts_mono hh (by decide))
      | node l o s => exact halts_mono hh (prec_pos o)
    rw [← treePlaced_build] at hp
    rw [← treeTokens_build]
    exact parses_tree hall hw hp hclose (topGe_build c) hc
  · intro rest hp
    rw [← treePlaced_build] at hp
    rw [← treeTokens_build]
    exact misplaced_tree hall hw hp (topGe_build c) rest

theorem sourceParses_chain (h : ChainParses isType c) : SourceParses isType (.chain c) where
  placed rest hp hh := by
    refine h.placed rest _ hp (halts_mono hh (Nat.zero_le _)) ?_
    rw [treeExpr_build]
    exact continues_halt hh
  misplaced rest hp := h.misplaced rest hp

theorem sourceParses_ternary {s s' : Source} (h : ChainParses isType c) (ht : SourceParses isType s)
    (hf : SourceParses isType s') : SourceParses isType (.ternary c s s') where
  placed rest hp hh := by
    obtain ⟨hpc, hpt, hpf⟩ := hp
    have htrue := ht.placed (.colon :: (s'.tokens ++ rest)) hpt trivial
    have hfalse := hf.placed rest hpf hh
    have hcont : Continues isType noPrec (treeExpr c.build)
        (.quest :: (s.tokens ++ .colon :: (s'.tokens ++ rest)))
        (.ok (.ternary (treeExpr c.build) s.tree s'.tree, rest)) :=
      continues_ternary (by decide) htrue hfalse (continues_halt hh)
    have hquest : Halts logOrPrec (.quest :: (s.tokens ++ .colon :: (s'.tokens ++ rest))) := Nat.le_refl logOrPrec
    have hall := h.placed _ _ hpc hquest hcont
    simpa [Source.tokens, Source.tree, treeExpr_build] using hall
  misplaced rest hp := by
    simp only [Source.tokens, List.append_assoc, List.cons_append]
    by_cases hpc : c.Placed none
    · have hcont : ∃ m, Continues isType noPrec (treeExpr c.build)
          (.quest :: (s.tokens ++ .colon :: (s'.tokens ++ rest))) (.error m) := by
        by_cases hpt : s.Placed
        · have hpf : ¬ s'.Placed := fun hpf => hp ⟨hpc, hpt, hpf⟩
          obtain ⟨m, hm⟩ := hf.misplaced rest hpf
          exact ⟨m, continues_falseVal_error (by decide) (ht.placed _ hpt trivial) hm⟩
        · obtain ⟨m, hm⟩ := ht.misplaced (.colon :: (s'.tokens ++ rest)) hpt
          exact ⟨m, continues_trueVal_error (by decide) hm⟩
      obtain ⟨m, hm⟩ := hcont
      exact ⟨m, h.placed _ _ hpc (Nat.le_refl logOrPrec) hm⟩
    · exact h.misplaced _ hpc

end Chains

section Sources

variable (isType)

mutual

theorem primaryParses : (a : Primary) → PrimaryParses isType a
  | .ident _ => ⟨fun _ _ _ _ => parses_ident, fun _ _ hp => absurd trivial hp⟩
  | .number _ => ⟨fun _ _ _ _ => parses_number, fun _ _ hp => absurd trivial hp⟩
  | .plusNumber _ => ⟨fun _ _ _ _ => parses_plusNumber, fun _ _ hp => absurd trivial hp⟩
  | .paren s => primaryParses_paren (sourceParses s)

theorem operandParses : (x : Operand) → OperandParses isType x
  | .bare a suffixes => operandParses_bare (primaryParses a) suffixes
  | .unary op x => operandParses_unary (operandParses x) op

theorem firstParses : (c : Chain) → OperandParses isType c.first
  | .last x => operandParses x
  | .cons x _ _ => operandParses x

theorem itemsParse : (c : Chain) → ∀ i ∈ c.items, OperandParses isType i.2
  | .last _, _, hi => absurd hi List.not_mem_nil
  | .cons _ o c, i, hi => by
    obtain rfl | hi := List.mem_cons.mp hi
    · exact firstParses c
    · exact itemsParse c i hi

theorem sourceParses : (s : Source) → SourceParses isType s
  | .chain c => sourceParses_chain (chainParses (firstParses c) (itemsParse c))
  | .ternary c s s' =>
    sourceParses_ternary (chainParses (firstParses c) (itemsParse c)) (sourceParses s) (sourceParses s')

end

variable {isType}

/-- The parser reads a whole sequence into the tree of the precedence table if and
only if every `!is` stands right of an operand without unary operators before it
that begins its chain or follows an operator of a lower precedence. -/
theorem parseExpression_source_iff (isType : Expr → Bool) (s : Source) (rest : List Token)
    (h : Halts noPrec rest) :
    Returns (fun fuel => parseExpression isType fuel noPrec (s.tokens ++ rest)) (.ok (s.tree, rest)) ↔
      s.Placed := by
  constructor
  · intro hr
    by_contra hp
    obtain ⟨m, hm⟩ := (sourceParses isType s).misplaced rest hp
    exact absurd (hr.unique hm) (by simp)
  · intro hp
    exact (sourceParses isType s).placed rest hp h

/-- `a + b ! is c` in a statement. -/
def plusNotIs : Source :=
  .chain (.cons (.bare (.ident 0) []) (.op .plus)
    (.cons (.bare (.ident 1) []) .notIs (.last (.bare (.ident 2) []))))

/-- `b` is parsed at the precedence of `+`, where the `is` of `!is` gets lost. -/
theorem plusNotIs_rejected :
    ¬ Returns (fun fuel => parseExpression (fun _ => false) fuel noPrec (plusNotIs.tokens ++ [.other 0]))
      (.ok (plusNotIs.tree, [.other 0])) := by
  intro h
  have herror : Returns
      (fun fuel => parseExpression (fun _ => false) fuel noPrec (plusNotIs.tokens ++ [.other 0]))
      (.error (.text "Exclamation point can not follow a non-type expression")) :=
    ⟨5, fun fuel hle => by
      obtain ⟨k, rfl⟩ := Nat.exists_eq_add_of_le' hle
      rfl⟩
  exact absurd (h.unique herror) (by simp)

/-- `a || - b * c ++ && d !is e ? f : g + h` is read as one conditional. -/
theorem mixed_operators_parsed :
    let s : Source := .ternary
      (.cons (.bare (.ident 0) []) (.op .logicOr)
        (.cons (.unary .minus (.bare (.ident 1) [])) (.op .asterisk)
          (.cons (.bare (.ident 2) [.incr]) (.op .logicAnd)
            (.cons (.bare (.ident 3) []) .notIs (.last (.bare (.ident 4) []))))))
      (.chain (.last (.bare (.ident 5) [])))
      (.chain (.cons (.bare (.ident 6) []) (.op .plus) (.last (.bare (.ident 7) []))))
    Returns (fun fuel => parseExpression (fun _ => false) fuel noPrec (s.tokens ++ [.other 0]))
      (.ok (s.tree, [.other 0])) := by
  intro s
  have hand : (Link.op .logicAnd).prec < Link.notIs.prec := by decide
  have hs : s.Placed := by
    simp [s, Source.Placed, Chain.Placed, Operand.Placed, Primary.Placed, NotIsAfter, Operand.isBare, hand]
  exact (parseExpression_source_iff (fun _ => false) s [.other 0] trivial).mpr hs

end Sources

end Parser

end Crack
