import Mathlib.Data.List.Basic
import Mathlib.Tactic.Common

/-!
# Overload definitions

An overload holds its own functions and the overloads of the enclosing or base
namespaces. Look-up walks this tree twice, first without general conversions,
then with them, and converts the caller's arguments in place.
-/
namespace Crack

structure ArgDef where
  name : String
  type : Nat
  deriving DecidableEq, Repr

structure FuncDef where
  name : String
  returnType : Nat
  args : List ArgDef
  virtualized : Bool
  abstract : Bool
  deleted : Bool
  /-- For a method, the type of the receiver. -/
  receiverType : Option Nat
  owner : Option Nat
  /-- True for the built-in `UnsafeCastDef`, which redefines `matches`. -/
  unsafeCastDef : Bool
  deriving DecidableEq, Repr

namespace FuncDef

def isVirtualOverride (f : FuncDef) : Bool := f.virtualized && f.receiverType != f.owner

inductive Convert where
  | noConvert | adapt | adaptSecondary | convert
  deriving DecidableEq, Repr

end FuncDef

/-- What look-up needs of expressions and types: the type of an expression (null
for a reference to an overload), `isAdaptive` and `convert` of the expression
classes, and `TypeDef::matches`. -/
structure Exprs (Expr : Type) where
  type : Expr → Option Nat
  isAdaptive : Expr → Bool
  convert : Expr → Nat → Option Expr
  matchesType : Nat → Nat → Bool

variable {Expr : Type} (env : Exprs Expr)

namespace FuncDef

/-- The value passed without conversion, if its type fits. -/
def passValue (val : Expr) (arg : ArgDef) : Option Expr :=
  match env.type val with
  | some t => if env.matchesType arg.type t then some val else none
  | none => none

/-- The body of the loop in `FuncDef::matches`, for argument `i`. -/
def matchArg (flag : Convert) (i : Nat) (val : Expr) (arg : ArgDef) : Option Expr :=
  match flag with
  | .adapt | .adaptSecondary =>
    if (flag = .adapt ∨ i ≠ 0) ∧ env.isAdaptive val then env.convert val arg.type
    else passValue env val arg
  | .convert => env.convert val arg.type
  | .noConvert => passValue env val arg

def matchArgs (flag : Convert) : Nat → List Expr → List ArgDef → Option (List Expr)
  | _, [], [] => some []
  | i, val :: vals, arg :: args =>
    match matchArg env flag i val arg with
    | some newVal => (matchArgs flag (i + 1) vals args).map (newVal :: ·)
    | none => none
  | _, _, _ => none

/-- `FuncDef::matches`; a match gives the converted values. -/
def «matches» (f : FuncDef) (vals : List Expr) (flag : Convert) : Option (List Expr) :=
  if f.unsafeCastDef then
    if vals.length = 1 then some vals else none
  else matchArgs env flag 0 vals f.args

/-- The look-up of an implementation compares signatures by identity of the types. -/
def matchesArgs (f : FuncDef) (args : List ArgDef) : Bool :=
  f.args.map ArgDef.type == args.map ArgDef.type

def matchesWithNames (f : FuncDef) (args : List ArgDef) : Bool := f.args == args

end FuncDef

open FuncDef (Convert)

inductive OverloadDef where
  | mk (owner : Option Nat) (funcs : List FuncDef) (parents : List OverloadDef)
  deriving Repr

def nullIfDeleted (f : FuncDef) : Option FuncDef := if f.deleted then none else some f

/-- The outcome of a look-up: the function found, the caller's argument list
afterwards, and the candidates that `matches` was called on. -/
structure Lookup (Expr : Type) where
  result : Option FuncDef
  args : List Expr
  tried : List (FuncDef × Convert)
  deriving DecidableEq, Repr

namespace OverloadDef

mutual

def flatten : OverloadDef → List FuncDef
  | mk _ funcs parents => funcs ++ flattenAll parents

def flattenAll : List OverloadDef → List FuncDef
  | [] => []
  | p :: ps => p.flatten ++ flattenAll ps

end

variable (flag : Convert) (allowOverrides : Bool)

/-- The loop over the local functions: what it tried, and the match it returns from. -/
def scanFuncs (args : List Expr) : List FuncDef → List (FuncDef × Convert) × Option (FuncDef × List Expr)
  | [] => ([], none)
  | f :: fs =>
    if !allowOverrides && f.isVirtualOverride then scanFuncs args fs
    else match f.matches env args flag with
      | some newArgs => ([(f, flag)], some (f, newArgs))
      | none => ((f, flag) :: (scanFuncs args fs).1, (scanFuncs args fs).2)

mutual

/-- `getMatch` for one pass. A deleted match returns null after the arguments
have been replaced, and the caller goes on with its next parent. -/
def getMatchIn : OverloadDef → List Expr → Lookup Expr
  | mk _ funcs parents, args =>
    match scanFuncs env flag allowOverrides args funcs with
    | (tried, some (f, newArgs)) =>
      ⟨nullIfDeleted f, if flag = .noConvert then args else newArgs, tried⟩
    | (tried, none) =>
      let r := getMatchParents parents args
      ⟨r.result, r.args, tried ++ r.tried⟩

def getMatchParents : List OverloadDef → List Expr → Lookup Expr
  | [], args => ⟨none, args, []⟩
  | p :: ps, args =>
    let r := getMatchIn p args
    match r.result with
    | some f => ⟨some f, r.args, r.tried⟩
    | none =>
      let r' := getMatchParents ps r.args
      ⟨r'.result, r'.args, r.tried ++ r'.tried⟩

end

/-- The conversion flag of the first pass. -/
def firstFlag (args : List Expr) : Convert :=
  if args.all env.isAdaptive then .adaptSecondary
  else if args.any env.isAdaptive then .adapt
  else .noConvert

def getMatch (ovl : OverloadDef) (args : List Expr) : Lookup Expr :=
  let r := getMatchIn env (firstFlag env args) allowOverrides ovl args
  match r.result with
  | some f => ⟨some f, r.args, r.tried⟩
  | none =>
    let r' := getMatchIn env .convert allowOverrides ovl r.args
    ⟨r'.result, r'.args, r.tried ++ r'.tried⟩

mutual

/-- `getSigMatch`; like a missing signature, a deleted one lets the caller go on
to its next parent. -/
def getSigMatch (args : List ArgDef) (matchNames : Bool) : OverloadDef → Option FuncDef
  | mk _ funcs parents =>
    match funcs.find? (fun f => if matchNames then f.matchesWithNames args else f.matchesArgs args) with
    | some f => nullIfDeleted f
    | none => getSigMatchParents args matchNames parents

def getSigMatchParents (args : List ArgDef) (matchNames : Bool) : List OverloadDef → Option FuncDef
  | [] => none
  | p :: ps =>
    match getSigMatch args matchNames p with
    | some f => some f
    | none => getSigMatchParents args matchNames ps

end

mutual

/-- Unless aliases are accepted, a function has to belong to the owner of its overload. -/
def getNoArgMatch (acceptAlias : Bool) : OverloadDef → Option FuncDef
  | mk owner funcs parents =>
    match funcs.find? (fun f => f.args.isEmpty && (acceptAlias || f.owner == owner)) with
    | some f => nullIfDeleted f
    | none => getNoArgMatchParents acceptAlias parents

def getNoArgMatchParents (acceptAlias : Bool) : List OverloadDef → Option FuncDef
  | [] => none
  | p :: ps =>
    match getNoArgMatch acceptAlias p with
    | some f => some f
    | none => getNoArgMatchParents acceptAlias ps

end

/-- Virtual overrides are considered only when they are allowed. -/
def considered (f : FuncDef) : Bool := allowOverrides || !f.isVirtualOverride

/-- Local functions in list order, then every parent set depth first. -/
def candidates (ovl : OverloadDef) : List FuncDef :=
  ovl.flatten.filter (considered allowOverrides)

def candidatesAll (ps : List OverloadDef) : List FuncDef :=
  (flattenAll ps).filter (considered allowOverrides)

/-- The first candidate that matches, with its converted arguments. -/
def firstMatch (args : List Expr) (cands : List FuncDef) : Option (FuncDef × List Expr) :=
  cands.findSome? (fun f => (f.matches env args flag).map (fun newArgs => (f, newArgs)))

/-- The candidates up to the first that matches, that one included. -/
def upToMatch (args : List Expr) : List FuncDef → List (FuncDef × Convert)
  | [] => []
  | f :: fs => (f, flag) :: if (f.matches env args flag).isSome then [] else upToMatch args fs

/-- The function that resolution selects: the first match of the first pass, and
only without one the first match with conversion. -/
def selected (ovl : OverloadDef) (args : List Expr) : Option FuncDef :=
  match firstMatch env (firstFlag env args) args (candidates allowOverrides ovl) with
  | some (f, _) => some f
  | none => (firstMatch env .convert args (candidates allowOverrides ovl)).map Prod.fst

/-- The candidates that resolution has to try, in both passes. -/
def resolution (ovl : OverloadDef) (args : List Expr) : List (FuncDef × Convert) :=
  let cands := candidates allowOverrides ovl
  upToMatch env (firstFlag env args) args cands ++
    if (firstMatch env (firstFlag env args) args cands).isSome then [] else upToMatch env .convert args cands

/-- Look-up follows the resolution order: its result is the selected function
unless that is deleted, nothing later is tried, and null leaves the arguments alone. -/
structure Resolves (ovl : OverloadDef) (args : List Expr) : Prop where
  result : (getMatch env allowOverrides ovl args).result =
    (selected env allowOverrides ovl args).bind nullIfDeleted
  tried : (getMatch env allowOverrides ovl args).tried = resolution env allowOverrides ovl args
  unchanged : (getMatch env allowOverrides ovl args).result = none →
    (getMatch env allowOverrides ovl args).args = args

mutual

/-- The first match with its converted arguments, and the candidates in the
sets that are still to be visited when its own set has been left. -/
def locate (args : List Expr) : OverloadDef → Option (FuncDef × List Expr × List FuncDef)
  | mk _ funcs parents =>
    match firstMatch env flag args (funcs.filter (considered allowOverrides)) with
    | some (f, newArgs) => some (f, newArgs, [])
    | none => locateAll args parents

def locateAll (args : List Expr) : List OverloadDef → Option (FuncDef × List Expr × List FuncDef)
  | [] => none
  | p :: ps =>
    match locate args p with
    | some (f, newArgs, later) => some (f, newArgs, later ++ candidatesAll allowOverrides ps)
    | none => locateAll args ps

end

/-- The selected function is not deleted; or it is selected by conversion, its
arguments are converted to themselves and no set with a candidate follows its own. -/
def Undisturbed (ovl : OverloadDef) (args : List Expr) : Prop :=
  match firstMatch env (firstFlag env args) args (candidates allowOverrides ovl) with
  | some (f, _) => f.deleted = false
  | none => ∀ f newArgs later, locate env .convert allowOverrides args ovl = some (f, newArgs, later) →
    f.deleted = true → later = [] ∧ newArgs = args

variable {env flag allowOverrides}

@[simp] theorem candidatesAll_nil : candidatesAll allowOverrides [] = [] := by
  simp [candidatesAll, flattenAll]

@[simp] theorem candidatesAll_cons (p : OverloadDef) (ps : List OverloadDef) :
    candidatesAll allowOverrides (p :: ps) =
      candidates allowOverrides p ++ candidatesAll allowOverrides ps := by
  simp [candidatesAll, candidates, flattenAll]

theorem candidates_mk (owner : Option Nat) (funcs : List FuncDef) (parents : List OverloadDef) :
    candidates allowOverrides (mk owner funcs parents) =
      funcs.filter (considered allowOverrides) ++
        candidatesAll allowOverrides parents := by
  simp [candidatesAll, candidates, flatten]

theorem firstMatch_append (args : List Expr) (l l' : List FuncDef) :
    firstMatch env flag args (l ++ l') =
      (firstMatch env flag args l).or (firstMatch env flag args l') := by
  simp [firstMatch, List.findSome?_append]

theorem upToMatch_append (args : List Expr) (l l' : List FuncDef) :
    upToMatch env flag args (l ++ l') = upToMatch env flag args l ++
      if (firstMatch env flag args l).isSome then [] else upToMatch env flag args l' := by
  induction l with
  | nil => simp [upToMatch, firstMatch]
  | cons f l ih =>
    cases hm : f.matches env args flag with
    | some newArgs => simp [upToMatch, firstMatch, hm]
    | none =>
      have hf : firstMatch env flag args (f :: l) = firstMatch env flag args l := by
        simp [firstMatch, hm]
      rw [hf]
      simp [upToMatch, hm, ih]

/-- The loop over the local functions finds their first match and stops there. -/
theorem scanFuncs_eq (args : List Expr) (funcs : List FuncDef) :
    scanFuncs env flag allowOverrides args funcs =
      (upToMatch env flag args (funcs.filter (considered allowOverrides)),
        firstMatch env flag args (funcs.filter (considered allowOverrides))) := by
  induction funcs with
  | nil => simp [scanFuncs, upToMatch, firstMatch]
  | cons f fs ih =>
    unfold scanFuncs
    by_cases hk : considered allowOverrides f = true
    · have hs : ¬ (!allowOverrides && f.isVirtualOverride) = true := by
        revert hk; cases allowOverrides <;> simp [considered]
      rw [if_neg hs, List.filter_cons_of_pos hk]
      cases hm : f.matches env args flag with
      | some newArgs => simp [upToMatch, firstMatch, hm]
      | none => simp [upToMatch, firstMatch, hm, ih]
    · have hs : (!allowOverrides && f.isVirtualOverride) = true := by
        revert hk; cases allowOverrides <;> simp [considered]
      rw [if_pos hs, List.filter_cons_of_neg hk]
      exact ih

variable (env flag allowOverrides) in
mutual

/-- Locating a match agrees with the flat order of the candidates. -/
theorem firstMatch_candidates (args : List Expr) : ∀ ovl : OverloadDef,
    firstMatch env flag args (candidates allowOverrides ovl) =
      (locate env flag allowOverrides args ovl).map (fun m => (m.1, m.2.1))
  | mk _ funcs parents => by
    rw [candidates_mk, firstMatch_append, locate]
    cases firstMatch env flag args (funcs.filter (considered allowOverrides)) with
    | some m => simp
    | none => simpa using firstMatch_candidatesAll args parents

theorem firstMatch_candidatesAll (args : List Expr) : ∀ ps : List OverloadDef,
    firstMatch env flag args (candidatesAll allowOverrides ps) =
      (locateAll env flag allowOverrides args ps).map (fun m => (m.1, m.2.1))
  | [] => by simp [firstMatch, locateAll]
  | p :: ps => by
    rw [candidatesAll_cons, firstMatch_append, firstMatch_candidates args p, locateAll]
    cases locate env flag allowOverrides args p with
    | some m => simp
    | none => simpa using firstMatch_candidatesAll args ps

end

end OverloadDef

end Crack
