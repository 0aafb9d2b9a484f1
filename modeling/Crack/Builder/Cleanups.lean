import Crack.Lib.StackCode

/-!
# Cleanups on the ways out of a function

Every context keeps the cleanups of the variables that were defined in it. The parser
emits them where a block ends, where a loop is left or continued and where the
function returns, and never looks back at what was emitted. The code of a body is
followed here from its statements to the blocks of the builder. An instruction stands
for what a variable needs: it is entered where its cleanup is added and left where the
cleanup is emitted. Temporaries have cleanup frames of their own around single
expressions and are left out, and so are exceptions.
-/
namespace Crack

namespace Cleanups

open StackCode

variable {V : Type} {pos : Branchpoint} {top : Option (List V)} {gotPostBlock : Bool} {block : Option Nat}

mutual

/-- A statement. What counts of an expression is the variables that it defines with
`:=`, in order; they are defined as it is parsed. -/
inductive Stmt (V : Type) where
  | null
  | expr (defs : List V)
  /-- A definition, of its variables and of those in their initializers. -/
  | define (vars : List V)
  | «return» (defs : List V)
  | «break»
  | «continue»
  | «if» (cond : List V) (thenClause : Clause V)
  | ifElse (cond : List V) (thenClause elseClause : Clause V)
  | «while» (cond : List V) (body : Clause V)
  /-- Whatever stands in the header is defined before the loop, also by the expression
  that comes after the body. -/
  | «for» (header : List V) (afterBody : Bool) (body : Clause V)

inductive Clause (V : Type) where
  | block (b : Block V)
  | stmt (s : Stmt V)

inductive Block (V : Type) where
  | nil
  | cons (s : Stmt V) (rest : Block V)

end

/-- `BBranchpoint` of a loop: what follows it, where `continue` goes, and its condition
if that is another block. -/
structure Branchpoint where
  block : Nat
  block2 : Nat
  block3 : Option Nat
  deriving DecidableEq, Repr

/-- A context with its cleanups, the last one added first. `setBreak` and `setContinue`
are called with one branchpoint, whose context is the one that keeps it. -/
structure Context (V : Type) where
  cleanups : List V := []
  branch : Option Branchpoint := none
  terminal : Bool := false

/-- The parser in a function: its context, those around it up to the toplevel one, and the code. -/
structure State (V : Type) where
  context : Context V
  parents : List (Context V)
  code : Code V

/-- The blocks of an `if`. The false one is returned. -/
def emitIf (c : Code V) : Nat × Code V :=
  (c.size + 1, (c.newBlock.newBlock.emit [.condBr c.size (c.size + 1)]).setInsertPoint c.size)

/-- The block after the `if`, unless there is no way to it yet. -/
def emitElse (falseBlock : Nat) (terminal : Bool) (c : Code V) : Option Nat × Code V :=
  if terminal then (none, c.setInsertPoint falseBlock)
  else (some c.size, (c.newBlock.emit [.br c.size]).setInsertPoint falseBlock)

def emitEndIf (block : Option Nat) (terminal : Bool) (c : Code V) : Code V :=
  match terminal, block with
  | true, none => c
  | true, some b => c.setInsertPoint b
  | false, some b => (c.emit [.br b]).setInsertPoint b
  | false, none => (c.newBlock.emit [.br c.size]).setInsertPoint c.size

def emitBeginWhile (gotPostBlock : Bool) (c : Code V) : Branchpoint × Code V :=
  let whileEnd := c.size
  let whileCond := c.size + 1
  let c := c.newBlock.newBlock
  let pos : Branchpoint :=
    if gotPostBlock then ⟨whileEnd, c.size, some whileCond⟩ else ⟨whileEnd, whileCond, none⟩
  let c := if gotPostBlock then c.newBlock else c
  let whileBody := c.size
  let c := c.newBlock
  (pos, (((c.emit [.br whileCond]).setInsertPoint whileCond).emit [.condBr whileBody whileEnd]).setInsertPoint whileBody)

def emitEndWhile (pos : Branchpoint) (terminal : Bool) (c : Code V) : Code V :=
  (if terminal then c else c.emit [.br (pos.block3.getD pos.block2)]).setInsertPoint pos.block

def emitPostLoop (pos : Branchpoint) (terminal : Bool) (c : Code V) : Code V :=
  (if terminal then c else c.emit [.br pos.block2]).setInsertPoint pos.block2

namespace State

variable (s : State V)

/-- The contexts of the function, innermost first. -/
def chain : List (Context V) := s.context :: s.parents

theorem chain_eq : s.chain = s.context :: s.parents := rfl

def withCode (c : Code V) : State V := { s with code := c }

def emit (is : List (Instr V)) : State V := s.withCode (s.code.emit is)

def createSubContext : State V := { s with context := {}, parents := s.chain }

/-- The context of the parent again. -/
def restore : State V :=
  match s.parents with
  | [] => s
  | c :: parents => { s with context := c, parents := parents }

/-- `emitVarDef` for each variable. -/
def define (vars : List V) : State V :=
  { s.emit (vars.map .enter) with context.cleanups := vars.reverse ++ s.context.cleanups }

def closeAllCleanups : State V := s.emit (s.context.cleanups.map .leave)

def setBranch (pos : Branchpoint) : State V := { s with context.branch := some pos }

end State

/-- The innermost branchpoint of a loop, and the contexts from that of the loop on. -/
def getBranch : List (Context V) → Option (Branchpoint × List (Context V))
  | [] => none
  | c :: parents =>
    match c.branch with
    | some pos => some (pos, c :: parents)
    | none => getBranch parents

/-- The cleanups that `emitCleanupsTo` emits, up to the context `outer`, without its own. -/
def cleanupsTo (outer : List (Context V)) : List (Context V) → List V
  | [] => []
  | c :: parents =>
    if (c :: parents).length = outer.length then [] else c.cleanups ++ cleanupsTo outer parents

/-- The cleanups that `emitFunctionCleanups` emits. -/
def functionCleanups (contexts : List (Context V)) : List V := contexts.flatMap Context.cleanups

def emitBranch (target : Branchpoint → Nat) (s : State V) : Option (Option Nat × State V) :=
  match getBranch s.chain with
  | none => none
  | some (pos, outer) => some (some outer.length, s.emit ((cleanupsTo outer s.chain).map .leave ++ [.br (target pos)]))

def emitBreak (s : State V) : Option (Option Nat × State V) := emitBranch Branchpoint.block s

def emitContinue (s : State V) : Option (Option Nat × State V) := emitBranch Branchpoint.block2 s

def emitReturn (s : State V) : State V := s.emit ((functionCleanups s.chain).map .leave ++ [.ret])

/-- The innermost of the terminal contexts of both clauses of an `if`. -/
def mergeTerminals (terminalIf terminalElse : Option Nat) : Option Nat :=
  match terminalIf, terminalElse with
  | some t, some e => if t ≤ e then some e else some t
  | _, _ => none

mutual

/-- A context is known by the number of contexts from it to the toplevel one; the parent
of the toplevel one, to which a function returns, is 0. -/
def parseStatement (defsAllowed : Bool) : Stmt V → State V → Option (Option Nat × State V)
  | .null, s => some (none, s)
  | .expr defs, s => some (none, s.define defs)
  | .define vars, s => if defsAllowed then some (none, s.define vars) else none
  | .return defs, s => some (some 0, emitReturn (s.define defs))
  | .break, s => emitBreak s
  | .continue, s => emitContinue s
  | .if cond thenClause, s => do
    let s := s.createSubContext.define cond
    let (falseBlock, code) := emitIf s.code
    let (terminalIf, s) ← parseIfClause thenClause (s.withCode code)
    let s := s.withCode (emitEndIf (some falseBlock) terminalIf.isSome s.code)
    some (none, s.closeAllCleanups.restore)
  | .ifElse cond thenClause elseClause, s => do
    let s := s.createSubContext.define cond
    let (falseBlock, code) := emitIf s.code
    let (terminalIf, s) ← parseIfClause thenClause (s.withCode code)
    let (block, code) := emitElse falseBlock terminalIf.isSome s.code
    let (terminalElse, s) ← parseIfClause elseClause (s.withCode code)
    let s := s.withCode (emitEndIf block terminalElse.isSome s.code)
    match mergeTerminals terminalIf terminalElse with
    | some t => some (some t, s.restore)
    -- both returns did their own cleanups otherwise
    | none => some (none, s.closeAllCleanups.restore)
  | .while cond body, s => do
    let s := s.createSubContext.define cond
    let (pos, code) := emitBeginWhile false s.code
    let (terminal, s) ← parseIfClause body ((s.setBranch pos).withCode code)
    -- the cleanups of the condition are not emitted here
    some (none, (s.withCode (emitEndWhile pos terminal.isSome s.code)).restore)
  | .for header afterBody body, s => do
    let s := s.createSubContext.define header
    let (pos, code) := emitBeginWhile afterBody s.code
    let (terminal, s) ← parseIfClause body ((s.setBranch pos).withCode code)
    let code := if afterBody then emitPostLoop pos terminal.isSome s.code else s.code
    let terminal := if afterBody then none else terminal
    let s := s.withCode (emitEndWhile pos terminal.isSome code)
    some (none, s.closeAllCleanups.restore)

def parseIfClause : Clause V → State V → Option (Option Nat × State V)
  | .block b, s => do
    let (terminal, s) ← parseBlock b none s.createSubContext
    some (terminal, s.restore)
  | .stmt st, s => do
    -- a single statement is not the end of a block: no cleanups
    let (terminal, s) ← parseStatement false st s.createSubContext
    some (terminal, s.restore)

/-- The loop of `parseBlock`, with the terminal context of the last statement. -/
def parseBlock : Block V → Option Nat → State V → Option (Option Nat × State V)
  | .nil, terminal, s => some (terminal, if s.context.terminal then s else s.closeAllCleanups)
  | .cons st rest, _, s =>
    -- "unreachable code"
    if s.context.terminal then none
    else do
      let (terminal, s) ← parseStatement true st s
      match terminal with
      | none => parseBlock rest none s
      | some t =>
        if t ≠ s.chain.length then parseBlock rest (some t) { s with context.terminal := true }
        else parseBlock rest none s

end

theorem parseStatement_define (allowed : Bool) (vars : List V) (s : State V) :
    parseStatement allowed (.define vars) s = if allowed then some (none, s.define vars) else none := rfl

theorem parseStatement_if (allowed : Bool) (cond : List V) (thenClause : Clause V) (s : State V) :
    parseStatement allowed (.if cond thenClause) s =
      (parseIfClause thenClause
        ((s.createSubContext.define cond).withCode (emitIf (s.createSubContext.define cond).code).2)).bind fun r =>
      some (none, (r.2.withCode (emitEndIf (some (emitIf (s.createSubContext.define cond).code).1) r.1.isSome
        r.2.code)).closeAllCleanups.restore) := rfl

theorem parseStatement_ifElse (allowed : Bool) (cond : List V) (thenClause elseClause : Clause V) (s : State V) :
    parseStatement allowed (.ifElse cond thenClause elseClause) s =
      (parseIfClause thenClause
        ((s.createSubContext.define cond).withCode (emitIf (s.createSubContext.define cond).code).2)).bind fun r =>
      (parseIfClause elseClause (r.2.withCode
        (emitElse (emitIf (s.createSubContext.define cond).code).1 r.1.isSome r.2.code).2)).bind fun r' =>
      match mergeTerminals r.1 r'.1 with
      | some t => some (some t, (r'.2.withCode (emitEndIf
          (emitElse (emitIf (s.createSubContext.define cond).code).1 r.1.isSome r.2.code).1 r'.1.isSome
          r'.2.code)).restore)
      | none => some (none, (r'.2.withCode (emitEndIf
          (emitElse (emitIf (s.createSubContext.define cond).code).1 r.1.isSome r.2.code).1 r'.1.isSome
          r'.2.code)).closeAllCleanups.restore) := rfl

theorem parseStatement_while (allowed : Bool) (cond : List V) (body : Clause V) (s : State V) :
    parseStatement allowed (.while cond body) s =
      (parseIfClause body (((s.createSubContext.define cond).setBranch
        (emitBeginWhile false (s.createSubContext.define cond).code).1).withCode
        (emitBeginWhile false (s.createSubContext.define cond).code).2)).bind fun r =>
      some (none, (r.2.withCode
        (emitEndWhile (emitBeginWhile false (s.createSubContext.define cond).code).1 r.1.isSome r.2.code)).restore) := rfl

theorem parseStatement_for (allowed : Bool) (header : List V) (afterBody : Bool) (body : Clause V) (s : State V) :
    parseStatement allowed (.for header afterBody body) s =
      (parseIfClause body (((s.createSubContext.define header).setBranch
        (emitBeginWhile afterBody (s.createSubContext.define header).code).1).withCode
        (emitBeginWhile afterBody (s.createSubContext.define header).code).2)).bind fun r =>
      some (none, (r.2.withCode (emitEndWhile (emitBeginWhile afterBody (s.createSubContext.define header).code).1
        (if afterBody then none else r.1).isSome
        (if afterBody then
          emitPostLoop (emitBeginWhile afterBody (s.createSubContext.define header).code).1 r.1.isSome r.2.code
        else r.2.code))).closeAllCleanups.restore) := rfl

theorem parseIfClause_block (b : Block V) (s : State V) :
    parseIfClause (.block b) s = (parseBlock b none s.createSubContext).bind fun r => some (r.1, r.2.restore) := rfl

theorem parseIfClause_stmt (st : Stmt V) (s : State V) :
    parseIfClause (.stmt st) s =
      (parseStatement false st s.createSubContext).bind fun r => some (r.1, r.2.restore) := rfl

theorem parseBlock_nil (terminal : Option Nat) (s : State V) :
    parseBlock .nil terminal s = some (terminal, if s.context.terminal then s else s.closeAllCleanups) := rfl

theorem parseBlock_cons (st : Stmt V) (b : Block V) (terminal : Option Nat) (s : State V) :
    parseBlock (.cons st b) terminal s =
      if s.context.terminal then none
      else (parseStatement true st s).bind fun r =>
        match r.1 with
        | none => parseBlock b none r.2
        | some t =>
          if t ≠ r.2.chain.length then parseBlock b (some t) { r.2 with context.terminal := true }
          else parseBlock b none r.2 := rfl

/-- The body of a function. Of `oper del`, `members` are the base classes and members
whose cleanups are added first. -/
def parseFuncDef (isVoid : Bool) (members : List V) (body : Block V) : Option (Code V) := do
  let (terminal, s) ← parseBlock body none { context := { cleanups := members }, parents := [], code := Code.init }
  match terminal with
  | some _ => some s.code
  | none => if isVoid then some (emitReturn { s with context.cleanups := [] }).code else none

variable {types types' : Nat → Option (List V)} {waiting : Nat → Prop} {c : Code V} {st : List V} {s s' : State V}
  {terminal : Option Nat}

/-- The stack at the insert point, unless a terminal statement ended the block. -/
def rest (terminal : Bool) (st : List V) : Option (List V) := if terminal then none else some st

/-- Code in the making with more types. -/
def Grows (types : Nat → Option (List V)) (c : Code V) (waiting : Nat → Prop) (top : Option (List V)) : Prop :=
  ∃ types', Extends types types' ∧ Building types' c waiting top

theorem Grows.after (h : Grows types' c waiting top) (hext : Extends types types') : Grows types c waiting top := by
  obtain ⟨types'', hext', h⟩ := h
  exact ⟨types'', hext.trans hext', h⟩

/-- The current block goes on to `b`, or has ended. -/
theorem finish_or (h : Building types c waiting (rest terminal.isSome st)) {b : Nat} (hb : types b = some st) :
    Building types (if terminal.isSome then c else c.emit [.br b]) waiting none := by
  cases terminal with
  | none => exact h.br hb
  | some t => exact h

theorem emitIf_builds (h : Building types c waiting (some st)) :
    ∃ types', Extends types types' ∧ types' (emitIf c).1 = some st ∧ ¬ waiting (emitIf c).1 ∧
      Building types' (emitIf c).2 (fun b => b = (emitIf c).1 ∨ waiting b) (some st) := by
  have hfresh : ∀ b, waiting b → b < c.size := fun b hb => (h.waits b hb).1
  obtain ⟨types₁, hext₁, htrue, h₁⟩ := h.newBlock st
  obtain ⟨types₂, hext₂, hfalse, h₂⟩ := h₁.newBlock st
  have htrue₂ : types₂ c.size = some st := hext₂ _ _ htrue
  have h₃ := h₂.condBr htrue₂ hfalse
  have h₄ := h₃.setInsertPoint (.inr (.inl rfl)) htrue₂
  refine ⟨types₂, hext₁.trans hext₂, hfalse, fun hw => ?_, h₄.congr fun b => ?_⟩
  · have hlt : c.size + 1 < c.size := hfresh _ hw
    omega
  · change (b = c.size + 1 ∨ b = c.size ∨ waiting b) ∧ b ≠ c.size ↔ b = c.size + 1 ∨ waiting b
    constructor
    · rintro ⟨hb | hb | hb, hne⟩
      · exact .inl hb
      · exact absurd hb hne
      · exact .inr hb
    · rintro (hb | hb)
      · exact ⟨.inl hb, by omega⟩
      · have hlt := hfresh b hb
        exact ⟨.inr (.inr hb), by omega⟩

/-- The block after an `if`, if there is one, waits. -/
structure IfEnd (types : Nat → Option (List V)) (waiting : Nat → Prop) (c : Code V) (block : Option Nat) (st : List V)
    (top : Option (List V)) : Prop where
  building : Building types c (fun b => block = some b ∨ waiting b) top
  typed : ∀ b, block = some b → types b = some st
  fresh : ∀ b, block = some b → ¬ waiting b

variable {falseBlock : Nat} {members : List V} {cond : List V} {isVoid : Bool}

theorem emitElse_builds (h : Building types c (fun b => b = falseBlock ∨ waiting b) (rest terminal.isSome st))
    (htype : types falseBlock = some st) (hfresh : ¬ waiting falseBlock) :
    ∃ types', Extends types types' ∧ (emitElse falseBlock terminal.isSome c).1.isSome = terminal.isNone ∧
      IfEnd types' waiting (emitElse falseBlock terminal.isSome c).2 (emitElse falseBlock terminal.isSome c).1 st
        (some st) := by
  cases terminal with
  | some t =>
    refine ⟨types, .refl _, rfl, (h.setInsertPoint (.inl rfl) htype).congr fun b => ?_, ?_, ?_⟩
    · constructor
      · rintro ⟨hb | hb, hne⟩
        · exact absurd hb hne
        · exact .inr hb
      · rintro (hb | hb)
        · cases hb
        · refine ⟨.inr hb, ?_⟩
          rintro rfl
          exact hfresh hb
    · intro b hb
      cases hb
    · intro b hb
      cases hb
  | none =>
    obtain ⟨types₁, hext₁, hend, h₁⟩ := h.newBlock st
    have h₂ := h₁.br hend
    have h₃ := h₂.setInsertPoint (b := falseBlock) (.inr (.inl rfl)) (hext₁ _ _ htype)
    have hlt : falseBlock < c.size := (h.waits _ (.inl rfl)).1
    refine ⟨types₁, hext₁, rfl, h₃.congr fun b => ?_, ?_, ?_⟩
    · constructor
      · rintro ⟨hb | hb | hb, hne⟩
        · exact .inl (hb ▸ rfl)
        · exact absurd hb hne
        · exact .inr hb
      · rintro (hb | hb)
        · cases hb
          exact ⟨.inl rfl, by omega⟩
        · refine ⟨.inr (.inr hb), ?_⟩
          rintro rfl
          exact hfresh hb
    · intro b hb
      cases hb
      exact hend
    · intro b hb hw
      cases hb
      exact absurd (h.waits _ (.inr hw)).1 (Nat.lt_irrefl _)

theorem IfEnd.waiting_iff (h : IfEnd types waiting c block st top) {b : Nat} (hb : block = some b) (b' : Nat) :
    (block = some b' ∨ waiting b') ∧ b' ≠ b ↔ waiting b' := by
  constructor
  · rintro ⟨hb' | hb', hne⟩
    · rw [hb] at hb'
      cases hb'
      exact absurd rfl hne
    · exact hb'
  · intro hb'
    refine ⟨.inr hb', ?_⟩
    rintro rfl
    exact h.fresh _ hb hb'

theorem emitEndIf_builds (h : IfEnd types waiting c block st (rest terminal.isSome st)) :
    Grows types (emitEndIf block terminal.isSome c) waiting (rest (terminal.isSome && block.isNone) st) := by
  cases terminal with
  | some t =>
    cases block with
    | none => exact ⟨types, .refl _, h.building.congr fun b => by simp⟩
    | some b =>
      have hend : Building types c (fun b' => some b = some b' ∨ waiting b') none := h.building
      exact ⟨types, .refl _, (hend.setInsertPoint (.inl rfl) (h.typed b rfl)).congr (h.waiting_iff rfl)⟩
  | none =>
    cases block with
    | some b =>
      have hend := h.building.br (h.typed b rfl)
      exact ⟨types, .refl _, (hend.setInsertPoint (.inl rfl) (h.typed b rfl)).congr (h.waiting_iff rfl)⟩
    | none =>
      obtain ⟨types₁, hext₁, htype, h₁⟩ := h.building.newBlock st
      have hend := h₁.br htype
      refine ⟨types₁, hext₁, (hend.setInsertPoint (.inl rfl) htype).congr fun b => ?_⟩
      constructor
      · rintro ⟨hb | hb | hb, hne⟩
        · exact absurd hb hne
        · cases hb
        · exact hb
      · intro hb
        have hlt := (h.building.waits b (.inr hb)).1
        exact ⟨.inr (.inr hb), Nat.ne_of_lt hlt⟩

/-- The blocks of a loop, of which that after it and that after its body wait. -/
structure LoopPoint (types : Nat → Option (List V)) (waiting : Nat → Prop) (pos : Branchpoint) (gotPostBlock : Bool)
    (st : List V) : Prop where
  block : types pos.block = some st
  block2 : types pos.block2 = some st
  cond : types (pos.block3.getD pos.block2) = some st
  fresh : ¬ waiting pos.block
  fresh2 : gotPostBlock → ¬ waiting pos.block2 ∧ pos.block2 ≠ pos.block

theorem LoopPoint.mono (h : LoopPoint types waiting pos gotPostBlock st) (hext : Extends types types') :
    LoopPoint types' waiting pos gotPostBlock st :=
  ⟨hext _ _ h.block, hext _ _ h.block2, hext _ _ h.cond, h.fresh, h.fresh2⟩

def LoopWaits (waiting : Nat → Prop) (pos : Branchpoint) (gotPostBlock : Bool) (b : Nat) : Prop :=
  b = pos.block ∨ (gotPostBlock ∧ b = pos.block2) ∨ waiting b

theorem emitBeginWhile_builds (h : Building types c waiting (some st)) (gotPostBlock : Bool) :
    ∃ types', Extends types types' ∧ LoopPoint types' waiting (emitBeginWhile gotPostBlock c).1 gotPostBlock st ∧
      Building types' (emitBeginWhile gotPostBlock c).2
        (LoopWaits waiting (emitBeginWhile gotPostBlock c).1 gotPostBlock) (some st) := by
  have hfresh : ∀ b, waiting b → b < c.size := fun b hb => (h.waits b hb).1
  obtain ⟨types₁, hext₁, hend, h₁⟩ := h.newBlock st
  obtain ⟨types₂, hext₂, hcond, h₂⟩ := h₁.newBlock st
  cases gotPostBlock with
  | false =>
    obtain ⟨types₃, hext₃, hbody, h₃⟩ := h₂.newBlock st
    have hext := hext₂.trans hext₃
    have h₄ := h₃.br (hext₃ _ _ hcond)
    have h₅ := h₄.setInsertPoint (b := c.size + 1) (.inr (.inl rfl)) (hext₃ _ _ hcond)
    have h₆ := h₅.condBr hbody (hext _ _ hend)
    have h₇ := h₆.setInsertPoint (b := c.size + 2) ⟨.inl rfl, by omega⟩ hbody
    refine ⟨types₃, hext₁.trans hext, ⟨hext _ _ hend, hext₃ _ _ hcond, hext₃ _ _ hcond, ?_, ?_⟩, h₇.congr fun b => ?_⟩
    · exact fun hw => Nat.lt_irrefl _ (hfresh _ hw)
    · intro hfalse
      cases hfalse
    · change ((b = c.size + 2 ∨ b = c.size + 1 ∨ b = c.size ∨ waiting b) ∧ b ≠ c.size + 1) ∧ b ≠ c.size + 2 ↔
        b = c.size ∨ (false ∧ b = c.size + 1) ∨ waiting b
      have hlt := hfresh b
      grind
  | true =>
    obtain ⟨types₃, hext₃, hpost, h₃⟩ := h₂.newBlock st
    obtain ⟨types₄, hext₄, hbody, h₄⟩ := h₃.newBlock st
    have hext := hext₃.trans hext₄
    have h₅ := h₄.br (hext _ _ hcond)
    have h₆ := h₅.setInsertPoint (b := c.size + 1) (.inr (.inr (.inl rfl))) (hext _ _ hcond)
    have h₇ := h₆.condBr hbody (hext _ _ (hext₂ _ _ hend))
    have h₈ := h₇.setInsertPoint (b := c.size + 3) ⟨.inl rfl, by omega⟩ hbody
    refine ⟨types₄, (hext₁.trans hext₂).trans hext,
      ⟨hext _ _ (hext₂ _ _ hend), hext₄ _ _ hpost, hext _ _ hcond, ?_, fun _ => ⟨?_, ?_⟩⟩, h₈.congr fun b => ?_⟩
    · exact fun hw => Nat.lt_irrefl _ (hfresh _ hw)
    · intro hw
      have hlt : c.size + 2 < c.size := hfresh _ hw
      omega
    · change c.size + 2 ≠ c.size
      omega
    · change ((b = c.size + 3 ∨ b = c.size + 2 ∨ b = c.size + 1 ∨ b = c.size ∨ waiting b) ∧ b ≠ c.size + 1) ∧
        b ≠ c.size + 3 ↔ b = c.size ∨ (true ∧ b = c.size + 2) ∨ waiting b
      have hlt := hfresh b
      grind

/-- The end of a loop, with what comes after its body. -/
theorem LoopPoint.ends (h : LoopPoint types waiting pos gotPostBlock st)
    (hb : Building types c (LoopWaits waiting pos gotPostBlock) (rest terminal.isSome st)) :
    Building types (emitEndWhile pos (if gotPostBlock then none else terminal).isSome
      (if gotPostBlock then emitPostLoop pos terminal.isSome c else c)) waiting (some st) := by
  have hwait : Building types (if gotPostBlock then emitPostLoop pos terminal.isSome c else c)
      (fun b => b = pos.block ∨ waiting b) (rest (if gotPostBlock then none else terminal).isSome st) := by
    cases gotPostBlock with
    | false => exact hb.congr fun b => by simp [LoopWaits]
    | true =>
      obtain ⟨hfresh, hne⟩ := h.fresh2 rfl
      refine ((finish_or hb h.block2).setInsertPoint (.inr (.inl ⟨rfl, rfl⟩)) h.block2).congr fun b => ?_
      rw [LoopWaits]
      constructor
      · rintro ⟨hb | ⟨-, hb⟩ | hb, hne'⟩
        · exact .inl hb
        · exact absurd hb hne'
        · exact .inr hb
      · rintro (hb | hb)
        · exact ⟨.inl hb, hb ▸ hne.symm⟩
        · refine ⟨.inr (.inr hb), ?_⟩
          rintro rfl
          exact hfresh hb
  refine ((finish_or hwait h.cond).setInsertPoint (.inl rfl) h.block).congr fun b => ?_
  constructor
  · rintro ⟨hb | hb, hne⟩
    · exact absurd hb hne
    · exact hb
  · intro hb
    refine ⟨.inr hb, ?_⟩
    rintro rfl
    exact h.fresh hb

/-- The contexts that a statement can terminate to: outside of the function, or a loop. -/
def Target : List (Context V) → Nat → Prop
  | [], d => d = 0
  | c :: parents, d => (c.branch.isSome ∧ d = (c :: parents).length) ∨ Target parents d

variable {contexts : List (Context V)} {body : Clause V} {s₁ : State V} {b : Block V} {context : Context V} {d : Nat}

theorem Target.le (h : Target contexts d) : d ≤ contexts.length := by
  induction contexts with
  | nil => exact Nat.le_of_eq h
  | cons c parents ih =>
    rcases h with ⟨-, rfl⟩ | h
    · exact Nat.le_refl _
    · exact Nat.le_succ_of_le (ih h)

theorem Target.zero (contexts : List (Context V)) : Target contexts 0 := by
  induction contexts with
  | nil => rfl
  | cons c parents ih => exact .inr ih

/-- No statement terminates to a context of its own that is no loop. -/
theorem Target.parents {parents : List (Context V)} (h : Target (context :: parents) d)
    (hbranch : context.branch = none) : Target parents d := by
  rcases h with ⟨hsome, -⟩ | h
  · rw [hbranch] at hsome
    cases hsome
  · exact h

theorem Target.merge {t e : Option Nat} (ht : ∀ d, t = some d → Target contexts d)
    (he : ∀ d, e = some d → Target contexts d) : ∀ d, mergeTerminals t e = some d → Target contexts d := by
  intro d hd
  cases t with
  | none => cases hd
  | some t =>
    cases e with
    | none => cases hd
    | some e =>
      rw [mergeTerminals] at hd
      split at hd
      · exact he d hd
      · exact ht d hd

/-- The blocks to go to from within loops begin with what the contexts around them keep. -/
def Branches (types : Nat → Option (List V)) : List (Context V) → Prop
  | [] => True
  | c :: parents =>
    (∀ pos, c.branch = some pos → types pos.block = some (functionCleanups (c :: parents)) ∧
      types pos.block2 = some (functionCleanups (c :: parents))) ∧ Branches types parents

theorem Branches.mono (h : Branches types contexts) (hext : Extends types types') : Branches types' contexts := by
  induction contexts with
  | nil => trivial
  | cons c parents ih =>
    obtain ⟨hc, hparents⟩ := h
    refine ⟨fun pos hpos => ?_, ih hparents⟩
    obtain ⟨hblock, hblock2⟩ := hc pos hpos
    exact ⟨hext _ _ hblock, hext _ _ hblock2⟩

theorem getBranch_length {contexts outer : List (Context V)} (hpos : getBranch contexts = some (pos, outer)) :
    outer.length ≤ contexts.length := by
  induction contexts with
  | nil => cases hpos
  | cons c parents ih =>
    rw [getBranch] at hpos
    split at hpos
    · cases hpos
      exact Nat.le_refl _
    · exact Nat.le_succ_of_le (ih hpos)

/-- Leaving the contexts within a loop leaves what its own context keeps. -/
theorem Branches.getBranch {contexts outer : List (Context V)} (h : Branches types contexts)
    (hpos : getBranch contexts = some (pos, outer)) :
    types pos.block = some (functionCleanups outer) ∧ types pos.block2 = some (functionCleanups outer) ∧
      functionCleanups contexts = cleanupsTo outer contexts ++ functionCleanups outer ∧
        Target contexts outer.length := by
  induction contexts with
  | nil => cases hpos
  | cons c parents ih =>
    rw [Cleanups.getBranch] at hpos
    split at hpos
    · rename_i pos' hbranch
      cases hpos
      obtain ⟨hblock, hblock2⟩ := h.1 pos hbranch
      refine ⟨hblock, hblock2, ?_, .inl ⟨by rw [hbranch]; rfl, rfl⟩⟩
      rw [cleanupsTo, if_pos rfl, List.nil_append]
    · obtain ⟨hblock, hblock2, hleave, htarget⟩ := ih h.2 hpos
      refine ⟨hblock, hblock2, ?_, .inr htarget⟩
      have hlt := getBranch_length hpos
      rw [cleanupsTo, if_neg (by rw [List.length_cons]; omega), List.append_assoc, ← hleave]
      rfl

/-- What the variables of the contexts leave on the stack is what the cleanups take. -/
structure Ready (types : Nat → Option (List V)) (waiting : Nat → Prop) (s : State V) : Prop where
  building : Building types s.code waiting (some (functionCleanups s.chain))
  branches : Branches types s.chain

theorem functionCleanups_cons (context : Context V) (parents : List (Context V)) :
    functionCleanups (context :: parents) = context.cleanups ++ functionCleanups parents := List.flatMap_cons

theorem Ready.createSubContext (h : Ready types waiting s) : Ready types waiting s.createSubContext := by
  refine ⟨h.building, fun pos hpos => ?_, h.branches⟩
  cases hpos

theorem Ready.define (h : Ready types waiting s) (hbranch : s.context.branch = none) (vars : List V) :
    Ready types waiting (s.define vars) := by
  refine ⟨?_, fun pos hpos => ?_, h.branches.2⟩
  · have hstack : functionCleanups (s.define vars).chain = vars.reverse ++ functionCleanups s.chain :=
      List.append_assoc ..
    rw [hstack]
    exact h.building.emit (leads_enter vars _)
  · have hpos : s.context.branch = some pos := hpos
    rw [hbranch] at hpos
    cases hpos

theorem Ready.closeAllCleanups (h : Building types s.code waiting (some (functionCleanups s.chain))) :
    Building types s.closeAllCleanups.code waiting (some (functionCleanups s.parents)) :=
  h.emit (leads_leave s.context.cleanups _)

/-- The end of a block in a context. -/
theorem Grows.closeAllCleanups (h : Grows types s.code waiting (some (functionCleanups s.chain))) :
    Grows types s.closeAllCleanups.code waiting (some (functionCleanups s.parents)) := by
  obtain ⟨types', hext, h⟩ := h
  exact ⟨types', hext, Ready.closeAllCleanups h⟩

/-- A statement may add variables to its context. A `quiet` one adds none. -/
structure Adds (quiet : Prop) (types : Nat → Option (List V)) (waiting : Nat → Prop) (s : State V)
    (terminal : Option Nat) (s' : State V) : Prop where
  builds : Grows types s'.code waiting (rest terminal.isSome (functionCleanups s'.chain))
  context : ∃ vars, s'.context = { s.context with cleanups := vars ++ s.context.cleanups } ∧
    (quiet → terminal = none → vars = [])
  parents : s'.parents = s.parents
  target : ∀ d, terminal = some d → Target s.chain d

/-- A clause, with its own context, leaves the one around it alone. -/
structure Keeps (types : Nat → Option (List V)) (waiting : Nat → Prop) (s : State V) (terminal : Option Nat)
    (s' : State V) : Prop where
  builds : Grows types s'.code waiting (rest terminal.isSome (functionCleanups s.chain))
  context : s'.context = s.context
  parents : s'.parents = s.parents
  target : ∀ d, terminal = some d → Target s.chain d

theorem Keeps.chain (h : Keeps types waiting s terminal s') : s'.chain = s.chain := by
  rw [State.chain_eq, h.context, h.parents]
  rfl

theorem Keeps.adds (h : Keeps types waiting s terminal s') (quiet : Prop) : Adds quiet types waiting s terminal s' := by
  refine ⟨?_, ⟨[], h.context, fun _ _ => rfl⟩, h.parents, h.target⟩
  rw [h.chain]
  exact h.builds

theorem restore_eq {parents : List (Context V)} (h : s.parents = context :: parents) :
    s.restore = ⟨context, parents, s.code⟩ := by
  rw [State.restore, h]

/-- The statement defines no variable in its own context, unless it is terminal. -/
def Stmt.Quiet : Stmt V → Prop
  | .expr defs => defs = []
  | .define _ => False
  | _ => True

mutual

/-- Variables are defined where their context is closed: not in the condition of a `while`,
and not by a statement that is a clause without braces. -/
def Stmt.Tidy : Stmt V → Prop
  | .if _ thenClause => thenClause.Tidy
  | .ifElse _ thenClause elseClause => thenClause.Tidy ∧ elseClause.Tidy
  | .while cond body => cond = [] ∧ body.Tidy
  | .for _ _ body => body.Tidy
  | _ => True

def Clause.Tidy : Clause V → Prop
  | .block b => b.Tidy
  | .stmt s => s.Quiet ∧ s.Tidy

def Block.Tidy : Block V → Prop
  | .nil => True
  | .cons s rest => s.Tidy ∧ rest.Tidy

end

def Stmt.Builds (st : Stmt V) : Prop :=
  ∀ {types : Nat → Option (List V)} {waiting : Nat → Prop} {s s' : State V} {allowed : Bool} {terminal : Option Nat},
    Ready types waiting s → s.context.branch = none → parseStatement allowed st s = some (terminal, s') →
    Adds st.Quiet types waiting s terminal s'

def Clause.Builds (cl : Clause V) : Prop :=
  ∀ {types : Nat → Option (List V)} {waiting : Nat → Prop} {s s' : State V} {terminal : Option Nat},
    Ready types waiting s → parseIfClause cl s = some (terminal, s') → Keeps types waiting s terminal s'

/-- At the end of a block its context keeps nothing any more. -/
def Block.Builds (b : Block V) : Prop :=
  ∀ {types : Nat → Option (List V)} {waiting : Nat → Prop} {s s' : State V} {terminal : Option Nat},
    Ready types waiting s → s.context.branch = none → s.context.terminal = false →
    parseBlock b none s = some (terminal, s') →
    Grows types s'.code waiting (rest terminal.isSome (functionCleanups s.parents)) ∧ s'.parents = s.parents ∧
      ∀ d, terminal = some d → Target s.parents d

section

variable (h : Ready types waiting s) {quiet : Prop}

include h

theorem Ready.adds_define (hbranch : s.context.branch = none) (vars : List V) (hquiet : quiet → vars = []) :
    Adds quiet types waiting s none (s.define vars) := by
  refine ⟨⟨types, .refl _, (h.define hbranch vars).building⟩, ⟨vars.reverse, rfl, fun hq _ => ?_⟩, rfl, fun d hd => ?_⟩
  · rw [hquiet hq]
    rfl
  · cases hd

theorem Ready.emitReturn : Building types (emitReturn s).code waiting none := by
  have hret : Ends types [] [Instr.ret] := ⟨rfl, rfl⟩
  have hends := hret.leave (functionCleanups s.chain)
  rw [List.append_nil] at hends
  exact h.building.finish hends

theorem Ready.emitBranch {target : Branchpoint → Nat}
    (htarget : target = Branchpoint.block ∨ target = Branchpoint.block2)
    (hs : emitBranch target s = some (terminal, s')) : Adds quiet types waiting s terminal s' := by
  rw [Cleanups.emitBranch] at hs
  split at hs
  · cases hs
  · rename_i pos outer hpos
    cases hs
    obtain ⟨hblock, hblock2, hleave, houter⟩ := h.branches.getBranch hpos
    have htype : types (target pos) = some (functionCleanups outer) := by
      rcases htarget with rfl | rfl
      · exact hblock
      · exact hblock2
    have hbr : Ends types (functionCleanups outer) [Instr.br (target pos)] := ⟨htype, rfl⟩
    have hends := hbr.leave (cleanupsTo outer s.chain)
    rw [← hleave] at hends
    refine ⟨⟨types, .refl _, h.building.finish hends⟩,
      ⟨[], rfl, fun _ _ => rfl⟩, rfl, fun d hd => ?_⟩
    cases hd
    exact houter

/-- The context of an `if` or a loop, once its header was parsed. -/
theorem Ready.header (vars : List V) : Ready types waiting (s.createSubContext.define vars) :=
  h.createSubContext.define rfl vars

theorem Ready.withCode {waiting' : Nat → Prop} (hext : Extends types types')
    (hb : Building types' c waiting' (some (functionCleanups s.chain))) : Ready types' waiting' (s.withCode c) :=
  ⟨hb, h.branches.mono hext⟩

end

/-- The context of a statement is left, with its cleanups. -/
theorem keeps_close {vars : List V}
    (hcleanups : s₁.context.cleanups = (s.createSubContext.define vars).context.cleanups)
    (hparents : s₁.parents = s.chain)
    (h : Grows types c waiting (some (functionCleanups (s.createSubContext.define vars).chain))) :
    Keeps types waiting s none (s₁.withCode c).closeAllCleanups.restore := by
  have hparents : (s₁.withCode c).parents = s.chain := hparents
  have hrestore : (s₁.withCode c).closeAllCleanups.restore =
      ⟨s.context, s.parents, (s₁.withCode c).closeAllCleanups.code⟩ := restore_eq hparents
  have hchain : functionCleanups (s.createSubContext.define vars).chain = functionCleanups (s₁.withCode c).chain := by
    rw [State.chain_eq, State.chain_eq, functionCleanups_cons, functionCleanups_cons, ← hcleanups, hparents]
    rfl
  rw [hchain] at h
  rw [hrestore]
  refine ⟨?_, rfl, rfl, fun d hd => ?_⟩
  · have hclose := Grows.closeAllCleanups (s := s₁.withCode c) h
    rw [hparents] at hclose
    exact hclose
  · cases hd

/-- The context of a statement is left without cleanups. -/
theorem keeps_restore (hparents : s₁.parents = s.chain)
    (h : Grows types c waiting (rest terminal.isSome (functionCleanups s.chain)))
    (htarget : ∀ d, terminal = some d → Target s.chain d) :
    Keeps types waiting s terminal (s₁.withCode c).restore := by
  have hrestore : (s₁.withCode c).restore = ⟨s.context, s.parents, c⟩ := restore_eq hparents
  rw [hrestore]
  exact ⟨h, rfl, rfl, htarget⟩

theorem mergeTerminals_isSome (t e : Option Nat) : (mergeTerminals t e).isSome = (t.isSome && e.isSome) := by
  cases t with
  | none => rfl
  | some t =>
    cases e with
    | none => rfl
    | some e =>
      rw [mergeTerminals]
      split <;> rfl

/-- The first clause of an `if`, after which the false block still waits. -/
theorem Ready.thenClause (h : Ready types waiting s) {thenClause : Clause V} (ih : thenClause.Builds)
    (hs : parseIfClause thenClause (s.withCode (emitIf s.code).2) = some (terminal, s')) :
    ∃ types', Extends types types' ∧ types' (emitIf s.code).1 = some (functionCleanups s.chain) ∧
      ¬ waiting (emitIf s.code).1 ∧ Keeps types' (fun b => b = (emitIf s.code).1 ∨ waiting b) s terminal s' := by
  obtain ⟨types', hext, htype, hfresh, hbuilding⟩ := emitIf_builds h.building
  obtain ⟨hgrows, hcontext, hparents, htarget⟩ := ih (h.withCode hext hbuilding) hs
  exact ⟨types', hext, htype, hfresh, hgrows, hcontext, hparents, htarget⟩

theorem if_builds {thenClause : Clause V} (ih : thenClause.Builds) : (Stmt.if cond thenClause).Builds := by
  intro types waiting s s' allowed terminal h _ hs
  rw [parseStatement_if] at hs
  obtain ⟨⟨terminalIf, s₃⟩, hclause, hs⟩ := Option.bind_eq_some_iff.mp hs
  cases hs
  obtain ⟨types₁, hext₁, htype, hfresh, hthen⟩ := (h.header cond).thenClause ih hclause
  obtain ⟨types₂, hext₂, hbuilding⟩ := hthen.builds
  have hif : IfEnd types₂ waiting s₃.code (some (emitIf (s.createSubContext.define cond).code).1)
      (functionCleanups (s.createSubContext.define cond).chain)
      (rest terminalIf.isSome (functionCleanups (s.createSubContext.define cond).chain)) := by
    refine ⟨hbuilding.congr fun b => by rw [Option.some_inj, eq_comm], fun b hb => ?_, fun b hb => ?_⟩
    · cases hb
      exact hext₂ _ _ htype
    · cases hb
      exact hfresh
  have hend := emitEndIf_builds hif
  rw [Option.isNone_some, Bool.and_false] at hend
  exact (keeps_close (congrArg Context.cleanups hthen.context) hthen.parents (hend.after (hext₁.trans hext₂))).adds _

/-- Both clauses of an `if`. The block after it is where one of them goes on. -/
theorem Branches.elseClause (h : Branches types s.chain) {terminalElse : Option Nat}
    (htype : types falseBlock = some (functionCleanups s.chain)) (hfresh : ¬ waiting falseBlock)
    (hthen : Keeps types (fun b => b = falseBlock ∨ waiting b) s terminal s₁) {elseClause : Clause V}
    (ih : elseClause.Builds)
    (hs : parseIfClause elseClause (s₁.withCode (emitElse falseBlock terminal.isSome s₁.code).2) =
      some (terminalElse, s')) :
    Keeps types waiting s (mergeTerminals terminal terminalElse)
      (s'.withCode (emitEndIf (emitElse falseBlock terminal.isSome s₁.code).1 terminalElse.isSome s'.code)) := by
  obtain ⟨types₁, hext₁, hbuilding⟩ := hthen.builds
  obtain ⟨types₂, hext₂, hblock, hif⟩ := emitElse_builds hbuilding (hext₁ _ _ htype) hfresh
  have hchain : (s₁.withCode (emitElse falseBlock terminal.isSome s₁.code).2).chain = s.chain := hthen.chain
  have hready : Ready types₂ (fun b => (emitElse falseBlock terminal.isSome s₁.code).1 = some b ∨ waiting b)
      (s₁.withCode (emitElse falseBlock terminal.isSome s₁.code).2) := by
    refine ⟨?_, ?_⟩
    · rw [hchain]
      exact hif.building
    · rw [hchain]
      exact h.mono (hext₁.trans hext₂)
  obtain ⟨⟨types₃, hext₃, hbuilding'⟩, hcontext, hparents, htarget⟩ := ih hready hs
  rw [hchain] at hbuilding' htarget
  have hend := emitEndIf_builds ⟨hbuilding', fun b hb => hext₃ _ _ (hif.typed b hb), hif.fresh⟩
  have hnone : (emitElse falseBlock terminal.isSome s₁.code).1.isNone = terminal.isSome := by
    rw [← Option.not_isSome, hblock, Option.not_isNone]
  rw [hnone, Bool.and_comm, ← mergeTerminals_isSome] at hend
  refine ⟨hend.after ((hext₁.trans hext₂).trans hext₃), hcontext.trans hthen.context, hparents.trans hthen.parents,
    Target.merge hthen.target htarget⟩

theorem ifElse_builds {thenClause elseClause : Clause V} (ih : thenClause.Builds) (ih' : elseClause.Builds) :
    (Stmt.ifElse cond thenClause elseClause).Builds := by
  intro types waiting s s' allowed terminal h _ hs
  simp only [parseStatement_ifElse, Option.bind_eq_some_iff, Prod.exists] at hs
  obtain ⟨terminalIf, s₃, hclause, terminalElse, s₅, hclause', hs⟩ := hs
  obtain ⟨types₁, hext₁, htype, hfresh, hthen⟩ := (h.header cond).thenClause ih hclause
  have hbranches : Branches types₁ (s.createSubContext.define cond).chain := (h.header cond).branches.mono hext₁
  have helse := hbranches.elseClause htype hfresh hthen ih' hclause'
  have hbuilds := helse.builds.after hext₁
  cases hmerge : mergeTerminals terminalIf terminalElse with
  | some t =>
    rw [hmerge] at hs hbuilds
    cases hs
    refine (keeps_restore helse.parents hbuilds fun d hd => ?_).adds _
    cases hd
    exact (helse.target t hmerge).parents rfl
  | none =>
    rw [hmerge] at hs hbuilds
    cases hs
    exact (keeps_close (congrArg Context.cleanups helse.context) helse.parents hbuilds).adds _

/-- A loop: its body, what comes after the body, and the way back. -/
theorem Ready.loop (h : Ready types waiting s) (gotPostBlock : Bool) (ih : body.Builds)
    (hs : parseIfClause body ((s.setBranch (emitBeginWhile gotPostBlock s.code).1).withCode
      (emitBeginWhile gotPostBlock s.code).2) = some (terminal, s')) :
    Grows types (emitEndWhile (emitBeginWhile gotPostBlock s.code).1 (if gotPostBlock then none else terminal).isSome
      (if gotPostBlock then emitPostLoop (emitBeginWhile gotPostBlock s.code).1 terminal.isSome s'.code else s'.code))
      waiting (some (functionCleanups s.chain)) ∧ s'.context.cleanups = s.context.cleanups ∧ s'.parents = s.parents := by
  obtain ⟨types₁, hext₁, hpoint, hbuilding⟩ := emitBeginWhile_builds h.building gotPostBlock
  have hready : Ready types₁ (LoopWaits waiting (emitBeginWhile gotPostBlock s.code).1 gotPostBlock)
      ((s.setBranch (emitBeginWhile gotPostBlock s.code).1).withCode (emitBeginWhile gotPostBlock s.code).2) := by
    refine ⟨hbuilding, fun pos hpos => ?_, h.branches.2.mono hext₁⟩
    cases hpos
    exact ⟨hpoint.block, hpoint.block2⟩
  obtain ⟨⟨types₂, hext₂, hbody⟩, hcontext, hparents, -⟩ := ih hready hs
  refine ⟨⟨types₂, hext₁.trans hext₂, (hpoint.mono hext₂).ends hbody⟩, ?_, hparents⟩
  rw [hcontext]
  rfl

theorem while_builds (ih : body.Builds) : (Stmt.while [] body).Builds := by
  intro types waiting s s' allowed terminal h _ hs
  rw [parseStatement_while] at hs
  obtain ⟨⟨terminalBody, s₃⟩, hclause, hs⟩ := Option.bind_eq_some_iff.mp hs
  cases hs
  obtain ⟨hgrows, -, hparents⟩ := (h.header []).loop false ih hclause
  refine (keeps_restore hparents hgrows fun d hd => ?_).adds _
  cases hd

theorem for_builds {header : List V} {afterBody : Bool} (ih : body.Builds) :
    (Stmt.for header afterBody body).Builds := by
  intro types waiting s s' allowed terminal h _ hs
  rw [parseStatement_for] at hs
  obtain ⟨⟨terminalBody, s₃⟩, hclause, hs⟩ := Option.bind_eq_some_iff.mp hs
  cases hs
  obtain ⟨hgrows, hcleanups, hparents⟩ := (h.header header).loop afterBody ih hclause
  exact (keeps_close hcleanups hparents hgrows).adds _

theorem block_builds (ih : b.Builds) : (Clause.block b).Builds := by
  intro types waiting s s' terminal h hs
  rw [parseIfClause_block] at hs
  obtain ⟨⟨terminal, s₁⟩, hblock, hs⟩ := Option.bind_eq_some_iff.mp hs
  cases hs
  obtain ⟨hgrows, hparents, htarget⟩ := ih h.createSubContext rfl rfl hblock
  exact keeps_restore hparents hgrows htarget

/-- No cleanups follow a single statement, and none are needed. -/
theorem stmt_builds {st : Stmt V} (ih : st.Builds) (hquiet : st.Quiet) : (Clause.stmt st).Builds := by
  intro types waiting s s' terminal h hs
  rw [parseIfClause_stmt] at hs
  obtain ⟨⟨terminal, s₁⟩, hstmt, hs⟩ := Option.bind_eq_some_iff.mp hs
  cases hs
  obtain ⟨hgrows, ⟨vars, hcontext, hvars⟩, hparents, htarget⟩ := ih h.createSubContext rfl hstmt
  refine keeps_restore hparents ?_ fun d hd => (htarget d hd).parents rfl
  cases terminal with
  | some t => exact hgrows
  | none =>
    rw [State.chain_eq, hcontext, hvars hquiet rfl, hparents] at hgrows
    exact hgrows

/-- Nothing follows a terminal statement. -/
theorem parseBlock_terminal {t : Option Nat} (hterminal : s.context.terminal = true)
    (hs : parseBlock b t s = some (terminal, s')) : terminal = t ∧ s' = s := by
  cases b with
  | nil =>
    rw [parseBlock_nil, if_pos hterminal] at hs
    cases hs
    exact ⟨rfl, rfl⟩
  | cons st rest =>
    rw [parseBlock_cons, if_pos hterminal] at hs
    cases hs

theorem nil_builds : (Block.nil : Block V).Builds := by
  intro types waiting s s' terminal h _ hterminal hs
  rw [parseBlock_nil, hterminal] at hs
  cases hs
  refine ⟨⟨types, .refl _, Ready.closeAllCleanups h.building⟩, rfl, fun d hd => ?_⟩
  cases hd

theorem cons_builds {st : Stmt V} (ih : st.Builds) (ih' : b.Builds) : (Block.cons st b).Builds := by
  intro types waiting s s' terminal h hbranch hterminal hs
  rw [parseBlock_cons, hterminal] at hs
  obtain ⟨⟨terminalStmt, s₁⟩, hstmt, hs⟩ := Option.bind_eq_some_iff.mp hs
  obtain ⟨⟨types₁, hext₁, hbuilding⟩, ⟨vars, hcontext, -⟩, hparents, htarget⟩ := ih h hbranch hstmt
  have hbranch₁ : s₁.context.branch = none := by rw [hcontext]; exact hbranch
  have hterminal₁ : s₁.context.terminal = false := by rw [hcontext]; exact hterminal
  cases terminalStmt with
  | none =>
    have hbranches : Branches types₁ s₁.chain := by
      refine ⟨fun pos hpos => ?_, ?_⟩
      · rw [hbranch₁] at hpos
        cases hpos
      · rw [hparents]
        exact h.branches.2.mono hext₁
    obtain ⟨hgrows, hparents', htarget'⟩ := ih' ⟨hbuilding, hbranches⟩ hbranch₁ hterminal₁ hs
    rw [hparents] at hgrows hparents' htarget'
    exact ⟨hgrows.after hext₁, hparents', htarget'⟩
  | some t =>
    have ht : Target s.parents t := (htarget t rfl).parents hbranch
    have hne : t ≠ s₁.chain.length := by
      have hle := ht.le
      rw [← hparents] at hle
      exact Nat.ne_of_lt (Nat.lt_succ_of_le hle)
    have hs : (if t ≠ s₁.chain.length then parseBlock b (some t) { s₁ with context.terminal := true }
        else parseBlock b none s₁) = some (terminal, s') := hs
    rw [if_pos hne] at hs
    obtain ⟨rfl, rfl⟩ := parseBlock_terminal rfl hs
    refine ⟨⟨types₁, hext₁, hbuilding⟩, hparents, fun d hd => ?_⟩
    cases hd
    exact ht

mutual

theorem Stmt.builds : (st : Stmt V) → st.Tidy → st.Builds
  | .null, _ => fun h _ hs => by
    cases hs
    exact ⟨⟨_, .refl _, h.building⟩, ⟨[], rfl, fun _ _ => rfl⟩, rfl, fun d hd => by cases hd⟩
  | .expr defs, _ => fun h hbranch hs => by
    cases hs
    exact h.adds_define hbranch defs id
  | .define vars, _ => fun h hbranch hs => by
    rw [parseStatement_define] at hs
    split at hs
    · cases hs
      exact h.adds_define hbranch vars False.elim
    · cases hs
  | .return defs, _ => fun h hbranch hs => by
    cases hs
    exact ⟨⟨_, .refl _, (h.define hbranch defs).emitReturn⟩, ⟨defs.reverse, rfl, fun _ hnone => by cases hnone⟩, rfl,
      fun d hd => by cases hd; exact .zero _⟩
  | .break, _ => fun h _ hs => h.emitBranch (.inl rfl) hs
  | .continue, _ => fun h _ hs => h.emitBranch (.inr rfl) hs
  | .if _ thenClause, htidy => if_builds (thenClause.builds htidy)
  | .ifElse _ thenClause elseClause, htidy => ifElse_builds (thenClause.builds htidy.1) (elseClause.builds htidy.2)
  | .while cond body, htidy => by
    obtain ⟨rfl, htidy⟩ := htidy
    exact while_builds (body.builds htidy)
  | .for _ _ body, htidy => for_builds (body.builds htidy)

theorem Clause.builds : (cl : Clause V) → cl.Tidy → cl.Builds
  | .block b, htidy => block_builds (b.builds htidy)
  | .stmt st, htidy => stmt_builds (st.builds htidy.2) htidy.1

theorem Block.builds : (b : Block V) → b.Tidy → b.Builds
  | .nil, _ => nil_builds
  | .cons st rest, htidy => cons_builds (st.builds htidy.1) (rest.builds htidy.2)

end

/-- The function begins with the cleanups of the members, which wait to be emitted. -/
theorem parseFuncDef_typed {body : Block V} (htidy : body.Tidy) (hparse : parseFuncDef isVoid members body = some c) :
    ∃ types, types 0 = some members ∧ Typed types c.blocks := by
  obtain ⟨⟨terminal, s⟩, hblock, hs⟩ := Option.bind_eq_some_iff.mp hparse
  have hstack : functionCleanups [{ cleanups := members : Context V }] = members := List.append_nil members
  have hready : Ready (fun b => if b = 0 then some members else none) (fun _ => False)
      { context := { cleanups := members }, parents := [], code := Code.init } := by
    refine ⟨?_, fun pos hpos => ?_, trivial⟩
    · rw [State.chain_eq, hstack]
      exact building_init members
    · cases hpos
  obtain ⟨⟨types, hext, hbuilding⟩, hparents, -⟩ := body.builds htidy hready rfl rfl hblock
  refine ⟨types, hext 0 members rfl, ?_⟩
  cases terminal with
  | some t =>
    cases hs
    exact hbuilding.done
  | none =>
    cases isVoid with
    | false => cases hs
    | true =>
      have hs : some (emitReturn { s with context.cleanups := [] }).code = some c := hs
      have hparents : s.parents = [] := hparents
      rw [emitReturn, State.chain_eq, hparents] at hs
      cases hs
      have hret : Ends types [] [Instr.ret] := ⟨rfl, rfl⟩
      exact (hbuilding.finish hret).done

/-- Every execution of the body of a function leaves what it entered last, whichever of the
ends of its blocks, `break`, `continue` and `return` it takes, and it has left everything
when it returns. It never comes to the end of a block that goes nowhere. -/
theorem execution_balanced [DecidableEq V] {body : Block V} (htidy : body.Tidy)
    (hparse : parseFuncDef isVoid members body = some c) {es : List (Event V)} {l : List (Instr V)}
    (hruns : Runs c.blocks (c.blocks 0) es l) :
    l ≠ [] ∧ ∃ st, replay members es = some st ∧ (l.head? = some .ret → st = []) := by
  obtain ⟨types, htype, htyped⟩ := parseFuncDef_typed htidy hparse
  obtain ⟨st, hreplay, hends⟩ := htyped.replay (htyped 0 members htype) hruns
  cases l with
  | nil => exact hends.elim
  | cons i is =>
    refine ⟨List.cons_ne_nil i is, st, hreplay, fun hret => ?_⟩
    cases hret
    exact hends.1

/-- A break out of a loop that is in the context of a variable, from the context of another. -/
def breakBody : Block String :=
  .cons (.define ["a"]) (.cons (.while [] (.block (.cons (.define ["b"]) (.cons (.if ["c"] (.stmt .break)) .nil)))) .nil)

def breakCode : Code String := (parseFuncDef true [] breakBody).get rfl

theorem execution_balanced_break :
    ([.ret] : List (Instr String)) ≠ [] ∧
      ∃ st, replay [] [.enter "a", .enter "b", .enter "c", .leave "c", .leave "b", .leave "a"] = some st ∧
        (([.ret] : List (Instr String)).head? = some .ret → st = []) := by
  have htidy : breakBody.Tidy := ⟨trivial, ⟨rfl, trivial, ⟨trivial, trivial⟩, trivial⟩, trivial⟩
  have hparse : parseFuncDef true [] breakBody = some breakCode := (Option.some_get _).symm
  refine execution_balanced htidy hparse ?_
  exact .enter (.br (.condTrue (.enter (.enter (.condTrue (.leave (.leave (.br (.leave (.here _))))))))))

end Cleanups

end Crack
