import Crack.Lib.Outcomes

/-!
# Terminal contexts

The parser tracks reachability by contexts: a statement that never falls through
hands back the context it terminates to. The tokens of a statement are its
syntax tree here; the checks of types and names, which only reject more, are
left out. A failed check is the position of the statement and the text given to
`error`. A position is the list of child numbers on the way to the statement.
-/
namespace Crack

namespace Parser

/-- The part of a `Context` that statements depend on. The context of a loop is
its own branchpoint for `break` and `continue`. -/
structure Frame where
  id : Nat
  toplevel : Bool := false
  breakBranch : Bool := false
  continueBranch : Bool := false
  catchBranch : Bool := false
  deriving DecidableEq, Repr

/-- A context and the contexts around it, innermost first. -/
abbrev Context := List Frame

namespace Context

def id (context : Context) : Option Nat := context.head?.map Frame.id

def createSubContext (context : Context) (id : Nat) : Context := { id } :: context

/-- The context of a loop once `setBreak` and `setContinue` were called. -/
def createLoopContext (context : Context) (id : Nat) : Context :=
  { id, breakBranch := true, continueBranch := true } :: context

/-- The context of a `try` as long as its block is parsed. -/
def createTryContext (context : Context) (id : Nat) : Context := { id, catchBranch := true } :: context

/-- `context` encloses `other` if it is `other` or an ancestor of it. -/
def encloses (context other : Context) : Bool := other.any (fun f => context.id = some f.id)

def getToplevel : Context → Option Context
  | [] => none
  | f :: parent => if f.toplevel then some (f :: parent) else getToplevel parent

/-- The innermost branchpoint of a kind, within the function. -/
def getBranch (branch : Frame → Bool) : Context → Option Context
  | [] => none
  | f :: parent =>
    if branch f then some (f :: parent) else if !f.toplevel then getBranch branch parent else none

def getBreak (context : Context) : Option Context := context.getBranch Frame.breakBranch

def getContinue (context : Context) : Option Context := context.getBranch Frame.continueBranch

def getCatch : Context → Option Context
  | [] => none
  | f :: parent =>
    if f.catchBranch then some (f :: parent) else if f.toplevel then some (f :: parent) else getCatch parent

/-- The parent of a context, null for the outermost one. -/
def getParent (context : Context) : Option Context :=
  match context with
  | _ :: f :: parent => some (f :: parent)
  | _ => none

end Context

mutual

inductive Stmt where
  | null
  /-- An expression statement or a definition. -/
  | clause
  | «return» (expr : Bool)
  | «break»
  | «continue»
  | «throw» (expr : Bool)
  | «if» (thenClause : Clause)
  | ifElse (thenClause elseClause : Clause)
  | «while» (body : Clause)
  | «for» (body : Clause)
  | «try» (body : Block) (catches : Catches)

/-- What follows a condition: a block or a single statement. -/
inductive Clause where
  | block (b : Block)
  | stmt (s : Stmt)

inductive Block where
  | nil
  | cons (s : Stmt) (rest : Block)

/-- The bodies of the catch clauses of one `try`; there is at least one. -/
inductive Catches where
  | last (body : Block)
  | cons (body : Block) (rest : Catches)

end

structure ParseError where
  pos : List Nat
  text : String
  deriving DecidableEq, Repr

/-- The result of a parser function, and the next number for a context. -/
abbrev Parsed := Except ParseError (Option Context × Nat)

/-- The errors below child `i`. -/
def inside (i : Nat) : Parsed → Parsed
  | .ok r => .ok r
  | .error e => .error ⟨i :: e.pos, e.text⟩

/-- The innermost of two terminal contexts. -/
def mergeTerminals (terminalIf terminalElse : Option Context) : Option Context :=
  match terminalIf, terminalElse with
  | some t, some e => if t.encloses e then some e else some t
  | _, _ => none

/-- The terminal context of a `try` after one more catch clause. -/
def mergeCatch (terminal terminalCatch : Option Context) : Option Context :=
  match terminalCatch with
  | none => none
  | some c =>
    match terminal with
    | some t => if t.encloses c then some c else some t
    | none => none

/-- The return type of the function that is parsed. -/
structure ReturnType where
  name : String
  isVoid : Bool
  deriving DecidableEq, Repr

def parseReturnStmt (returnType : ReturnType) (context : Context) (expr : Bool) (next : Nat) : Parsed :=
  if !expr && !returnType.isVoid then
    .error ⟨[], "Missing return expression for function returning " ++ returnType.name⟩
  else .ok (context.getToplevel.bind Context.getParent, next)

/-- Outside of a function there may be no catching context, where the source has no result. -/
def parseThrowStmt (context : Context) (expr : Bool) (next : Nat) : Parsed :=
  if !expr then .error ⟨[], "Rethrowing exceptions not supported yet."⟩
  else match context.getCatch with
    | none => .error ⟨[], ""⟩
    | some [] => .error ⟨[], ""⟩
    | some (f :: parent) => .ok (if f.toplevel then Context.getParent (f :: parent) else some (f :: parent), next)

mutual

def parseStatement (returnType : ReturnType) (context : Context) : Stmt → Nat → Parsed
  | .null, next => .ok (none, next)
  | .clause, next => .ok (none, next)
  | .return expr, next => parseReturnStmt returnType context expr next
  | .break, next =>
    match context.getBreak with
    | none => .error ⟨[], "Break can only be used in the body of a while, for or switch statement."⟩
    | some branch => .ok (some branch, next)
  | .continue, next =>
    match context.getContinue with
    | none => .error ⟨[], "Continue can only be used in the body of a while or for loop."⟩
    | some branch => .ok (some branch, next)
  | .throw expr, next => parseThrowStmt context expr next
  | .if thenClause, next => do
    let context := context.createSubContext next
    let (_, next) ← inside 0 (parseIfClause returnType context thenClause (next + 1))
    return (none, next)
  | .ifElse thenClause elseClause, next => do
    let context := context.createSubContext next
    let (terminalIf, next) ← inside 0 (parseIfClause returnType context thenClause (next + 1))
    let (terminalElse, next) ← inside 1 (parseIfClause returnType context elseClause next)
    return (mergeTerminals terminalIf terminalElse, next)
  | .while body, next => do
    let context := context.createLoopContext next
    let (_, next) ← inside 0 (parseIfClause returnType context body (next + 1))
    return (none, next)
  | .for body, next => do
    let context := context.createLoopContext next
    let (_, next) ← inside 0 (parseIfClause returnType context body (next + 1))
    return (none, next)
  | .try body catches, next => do
    let tryContext := context.createTryContext next
    let (terminal, next') ←
      inside 0 (parseBlock returnType (tryContext.createSubContext (next + 1)) body 0 false none (next + 2))
    -- the branchpoint of the catches is stripped before they are parsed
    parseCatches returnType (context.createSubContext next) catches 1 terminal next'

/-- The loop over the catch clauses, from child `i` of the statement on. -/
def parseCatches (returnType : ReturnType) (context : Context) : Catches → Nat → Option Context → Nat → Parsed
  | .last body, i, terminal, next => do
    let (terminalCatch, next) ←
      inside i (parseBlock returnType (context.createSubContext next) body 0 false none (next + 1))
    return (mergeCatch terminal terminalCatch, next)
  | .cons body rest, i, terminal, next => do
    let (terminalCatch, next) ←
      inside i (parseBlock returnType (context.createSubContext next) body 0 false none (next + 1))
    parseCatches returnType context rest (i + 1) (mergeCatch terminal terminalCatch) next

def parseIfClause (returnType : ReturnType) (context : Context) : Clause → Nat → Parsed
  | .block b, next => parseBlock returnType (context.createSubContext next) b 0 false none (next + 1)
  | .stmt s, next => inside 0 (parseStatement returnType (context.createSubContext next) s (next + 1))

/-- The loop of `parseBlock` from statement `i` on, with the flag `terminal` of
the context and the terminal context of the last statement. -/
def parseBlock (returnType : ReturnType) (context : Context) :
    Block → Nat → Bool → Option Context → Nat → Parsed
  | .nil, _, _, terminal, next => .ok (terminal, next)
  | .cons s rest, i, contextTerminal, _, next =>
    if contextTerminal then .error ⟨[i], "unreachable code"⟩
    else do
      let (terminal, next) ← inside i (parseStatement returnType context s next)
      match terminal with
      | none => parseBlock returnType context rest (i + 1) contextTerminal none next
      | some t =>
        if t.id ≠ context.id then parseBlock returnType context rest (i + 1) true (some t) next
        else parseBlock returnType context rest (i + 1) contextTerminal none next

end

/-- The body of a function that is defined in the context `outer :: outers`. -/
def parseFuncBody (outer : Frame) (outers : Context) (returnType : ReturnType) (body : Block) :
    Except ParseError Unit := do
  let context := { id := outer.id + 1, toplevel := true } :: outer :: outers
  let (terminal, _) ← parseBlock returnType context body 0 false none (outer.id + 2)
  if terminal.isNone && !returnType.isVoid then
    .error ⟨[], "missing return statement for non-void function."⟩

end Parser

end Crack
