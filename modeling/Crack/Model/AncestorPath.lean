import Crack.Model.TypeDef

/-!
# Searching a class for its ancestors

`isDerivedFrom`, `matches`, `getPathToAncestor` and the narrowing of an instance
pointer each search the bases on their own, depth first. All of them follow the
leftmost path. The searches only read the parents of a class.
-/
namespace Crack

open Acyclic (Path Reaches Ranked Leads firstPath)

namespace TypeDef

/-- What ends a search other than its result: an access outside of the path
vector, or the assertion of `emitGEP`. -/
inductive SearchFault where
  | outOfRange
  | narrowingToNonAncestor
  deriving DecidableEq, Repr

structure AncestorReference where
  index : Nat
  ancestor : Option Nat
  deriving DecidableEq, Repr

abbrev AncestorPath := List AncestorReference

/-- `path.resize(n)`. -/
def resize (path : AncestorPath) (n : Nat) : AncestorPath :=
  path.take n ++ List.replicate (n - path.length) ⟨0, none⟩

/-- The assignments to the members of `path[depth]`. -/
def setEntry (path : AncestorPath) (depth : Nat) (e : AncestorReference) : Except SearchFault AncestorPath :=
  if depth < path.length then .ok (path.set depth e) else .error .outOfRange

variable (parents : Nat → List Nat)

def isDerivedFrom (other : Nat) : Nat → Bool :=
  Acyclic.fix false (fun isDerivedFrom this => this = other || (parents this).any isDerivedFrom)

def «matches» (this : Nat) : Nat → Bool :=
  Acyclic.fix false (fun «matches» other => other = this || (parents other).any «matches»)

abbrev PathSearch := AncestorPath → Nat → Except SearchFault (Bool × AncestorPath)

/-- The loop of `getPathToAncestor` over the bases from index `i` on. -/
def searchBases (getPathToAncestor : Nat → PathSearch) (depth : Nat) :
    List Nat → Nat → AncestorPath → Except SearchFault (Bool × AncestorPath)
  | [], _, path => .ok (false, path)
  | base :: bases, i, path => do
    let (found, path) ← getPathToAncestor base path (depth + 1)
    if found then
      return (true, ← setEntry path depth ⟨i, some base⟩)
    else searchBases getPathToAncestor depth bases (i + 1) path

def getPathToAncestorStep (ancestor : Nat) (getPathToAncestor : Nat → PathSearch) (this : Nat) : PathSearch :=
  fun path depth =>
    if this = ancestor then .ok (true, resize path depth)
    else searchBases getPathToAncestor depth (parents this) 0 path

def getPathToAncestor (ancestor : Nat) : Nat → PathSearch :=
  Acyclic.fix (fun path _ => .ok (false, path)) (getPathToAncestorStep parents ancestor)

section

variable {Value : Type} (createStructGEP : Value → Nat → Value)

def emitGEPStep (ancestor : Nat) (emitGEP : Nat → Value → Except SearchFault Value) (type : Nat) (inst : Value) :
    Except SearchFault Value :=
  if type = ancestor then .ok inst
  else match (parents type).zipIdx.find? (fun base => isDerivedFrom parents ancestor base.1) with
    | some (base, i) => emitGEP base (createStructGEP inst i)
    | none => .error .narrowingToNonAncestor

/-- `IncompleteNarrower::emitGEP`, with `CreateStructGEP` of the IR builder. -/
def emitGEP (ancestor : Nat) : Nat → Value → Except SearchFault Value :=
  Acyclic.fix (fun _ => .error .narrowingToNonAncestor) (emitGEPStep parents createStructGEP ancestor)

end

variable {parents} {a c : Nat}

theorem isDerivedFrom_eq (hr : Ranked parents) (a c : Nat) :
    isDerivedFrom parents a c = (decide (c = a) || (parents c).any (isDerivedFrom parents a)) :=
  Acyclic.fix_eq hr (Acyclic.local_any _) c

theorem isDerivedFrom_iff (hr : Ranked parents) : isDerivedFrom parents a c ↔ Reaches parents c a := by
  induction c using hr.induction with
  | step c ih =>
    rw [isDerivedFrom_eq hr, Bool.or_eq_true, decide_eq_true_eq, List.any_eq_true, Acyclic.reaches_iff]
    have hbase : (∃ p ∈ parents c, isDerivedFrom parents a p) ↔ ∃ p ∈ parents c, Reaches parents p a := by
      constructor
      · intro ⟨p, hp, h⟩; exact ⟨p, hp, (ih p hp).mp h⟩
      · intro ⟨p, hp, h⟩; exact ⟨p, hp, (ih p hp).mpr h⟩
    rw [hbase]

theorem matches_eq (this : Nat) : «matches» parents this = isDerivedFrom parents this := rfl

/-- Writing the entry of the current depth behind the recursive call for the next depth. -/
theorem setEntry_resize (path rest : AncestorPath) (depth : Nat) (e : AncestorReference) :
    setEntry (resize path (depth + 1) ++ rest) depth e = .ok (resize path depth ++ e :: rest) := by
  have hlen : (resize path (depth + 1)).length = depth + 1 := by
    simp only [resize, List.length_append, List.length_take, List.length_replicate]
    omega
  have hset : (resize path (depth + 1)).set depth e = resize path depth ++ [e] := by
    refine List.ext_getElem? (fun k => ?_)
    simp only [resize, List.getElem?_set, List.getElem?_append, List.length_take, List.length_replicate,
      List.getElem?_take, List.getElem?_replicate, List.length_append]
    grind
  rw [setEntry, if_pos (by rw [List.length_append]; omega), List.set_append_left _ _ (by omega), hset,
    List.append_assoc, List.singleton_append]

/-- The entries of the path with the given steps. -/
def entries (es : List (Nat × Nat)) : AncestorPath := es.map (fun e => ⟨e.1, some e.2⟩)

/-- What a search reports and leaves in the path vector, by the steps of the path found. -/
def outcome (path : AncestorPath) (depth : Nat) : Option (List (Nat × Nat)) → Bool × AncestorPath
  | none => (false, path)
  | some es => (true, resize path depth ++ entries es)

theorem searchBases_eq {get : Nat → PathSearch} {steps : Nat → Option (List (Nat × Nat))} (depth : Nat)
    (bases : List Nat) (i : Nat) (path : AncestorPath)
    (hget : ∀ b ∈ bases, get b path (depth + 1) = .ok (outcome path (depth + 1) (steps b))) :
    searchBases get depth bases i path = .ok (outcome path depth
      ((bases.zipIdx i).findSome? (fun p => (steps p.1).map (fun es => (p.2, p.1) :: es)))) := by
  induction bases generalizing i with
  | nil => rfl
  | cons b bases ih =>
    rw [searchBases, hget b (by simp), List.zipIdx_cons, List.findSome?_cons]
    cases hb : steps b with
    | none => exact ih (i + 1) (fun b' hb' => hget b' (by simp [hb']))
    | some es =>
      simp only [outcome, bind, Except.bind, if_true, setEntry_resize, Option.map_some]
      rfl

theorem getPathToAncestorStep_local : Acyclic.Local parents (getPathToAncestorStep parents a) := by
  intro c r r' h
  have hbases : ∀ depth (bases : List Nat), (∀ b ∈ bases, r b = r' b) → ∀ i path,
      searchBases r depth bases i path = searchBases r' depth bases i path := by
    intro depth bases
    induction bases with
    | nil => intro _ i path; rfl
    | cons b bases ih =>
      intro hb i path
      rw [searchBases, searchBases, hb b (by simp)]
      simp only [ih (fun b' hb' => hb b' (by simp [hb']))]
  funext path depth
  rw [getPathToAncestorStep, getPathToAncestorStep, hbases depth (parents c) h]

/-- The search leaves the steps of the leftmost path in the vector, behind its first `depth` entries. -/
theorem getPathToAncestor_eq (hr : Ranked parents) (a c : Nat) (path : AncestorPath) (depth : Nat) :
    getPathToAncestor parents a c path depth = .ok (outcome path depth (firstPath parents a c)) := by
  induction c using hr.induction generalizing depth with
  | step c ih =>
    have heq : getPathToAncestor parents a c = getPathToAncestorStep parents a (getPathToAncestor parents a) c :=
      Acyclic.fix_eq hr getPathToAncestorStep_local c
    rw [heq, getPathToAncestorStep, Acyclic.firstPath_eq hr, Acyclic.firstPathStep]
    split
    · simp [outcome, entries]
    · exact searchBases_eq depth (parents c) 0 path (fun b hb => ih b hb (depth + 1))

section

variable {Value : Type} {createStructGEP : Value → Nat → Value}

theorem emitGEPStep_local : Acyclic.Local parents (emitGEPStep parents createStructGEP a) := by
  intro c r r' h
  funext inst
  unfold emitGEPStep
  cases hf : (parents c).zipIdx.find? (fun base => isDerivedFrom parents a base.1) with
  | none => rfl
  | some p => simp only [h p.1 (List.fst_mem_of_mem_zipIdx (List.mem_of_find?_eq_some hf))]

/-- A test that tells where a search will succeed leads to the result of that search. -/
theorem findSome?_of_find? {α β : Type} {f : α → Option β} {t : α → Bool} (h : ∀ x, t x = (f x).isSome) (l : List α) :
    l.findSome? f = (l.find? t).bind f := by
  induction l with
  | nil => rfl
  | cons x l ih =>
    rw [List.findSome?_cons, List.find?_cons, h x]
    cases hx : f x with
    | none => exact ih
    | some y => exact hx.symm

theorem isDerivedFrom_isSome (hr : Ranked parents) (a c : Nat) :
    isDerivedFrom parents a c = (firstPath parents a c).isSome := by
  rw [Bool.eq_iff_iff, isDerivedFrom_iff hr, Acyclic.firstPath_isSome_iff hr]

/-- The narrowing takes the steps of the leftmost path. -/
theorem emitGEP_eq (hr : Ranked parents) (a c : Nat) (inst : Value) :
    emitGEP parents createStructGEP a c inst = match firstPath parents a c with
      | some es => .ok ((es.map Prod.fst).foldl createStructGEP inst)
      | none => .error .narrowingToNonAncestor := by
  induction c using hr.induction generalizing inst with
  | step c ih =>
    have heq : emitGEP parents createStructGEP a c =
        emitGEPStep parents createStructGEP a (emitGEP parents createStructGEP a) c :=
      Acyclic.fix_eq hr emitGEPStep_local c
    have htest : ∀ p : Nat × Nat, isDerivedFrom parents a p.1 =
        ((firstPath parents a p.1).map (fun es => (p.2, p.1) :: es)).isSome := by
      intro p
      rw [Option.isSome_map, isDerivedFrom_isSome hr]
    rw [heq, emitGEPStep, Acyclic.firstPath_eq hr, Acyclic.firstPathStep]
    split
    · rfl
    · rw [findSome?_of_find? htest]
      cases hf : (parents c).zipIdx.find? (fun base => isDerivedFrom parents a base.1) with
      | none => rfl
      | some p =>
        have hp := List.fst_mem_of_mem_zipIdx (List.mem_of_find?_eq_some hf)
        have hsome := List.find?_some hf
        rw [isDerivedFrom_isSome hr] at hsome
        obtain ⟨es, hes⟩ := Option.isSome_iff_exists.mp hsome
        simp only [Option.bind_some, ih p.1 hp, hes, Option.map_some, List.map_cons, List.foldl_cons]

end

/-- The four searches agree: the tests hold exactly when the path search
succeeds, its entries are then the steps of a path to the ancestor, and the
narrowing follows their indexes; otherwise only the narrowing fails. -/
theorem searches_agree (hr : Ranked parents) (c a : Nat) (path : AncestorPath) :
    ∃ found es, getPathToAncestor parents a c path 0 = .ok (found, if found then entries es else path) ∧
      isDerivedFrom parents a c = found ∧ «matches» parents a c = found ∧
      (found = true ↔ Reaches parents c a) ∧ (found = true → Leads parents a c es) ∧
      ∀ (Value : Type) (createStructGEP : Value → Nat → Value) (inst : Value),
        emitGEP parents createStructGEP a c inst =
          if found then .ok (es.foldl (fun v e => createStructGEP v e.1) inst)
          else .error .narrowingToNonAncestor := by
  have htest := isDerivedFrom_isSome hr a c
  have hpath := getPathToAncestor_eq hr a c path 0
  have hreach := Acyclic.firstPath_isSome_iff (c := c) (d := a) hr
  rw [← htest] at hreach
  cases hf : firstPath parents a c with
  | none =>
    rw [hf] at htest hpath
    rw [htest] at hreach
    exact ⟨false, [], hpath, htest, by rw [matches_eq, htest]; rfl, hreach, by simp,
      fun Value createStructGEP inst => by rw [emitGEP_eq hr, hf]; rfl⟩
  | some es =>
    rw [hf] at htest hpath
    rw [htest] at hreach
    refine ⟨true, es, ?_, htest, by rw [matches_eq, htest]; rfl, hreach, fun _ => Acyclic.firstPath_leads hr hf,
      fun Value createStructGEP inst => ?_⟩
    · simpa [outcome, resize] using hpath
    · rw [emitGEP_eq hr, hf]
      simp [List.foldl_map]

/-- A class 3 that reaches its ancestor 0 through either of its bases. -/
def diamond : Nat → List Nat
  | 1 => [0]
  | 2 => [0]
  | 3 => [2, 1]
  | _ => []

theorem diamond_ranked : Ranked diamond := by
  intro c p hp
  match c, hp with
  | 1, hp => simp [diamond] at hp; omega
  | 2, hp => simp [diamond] at hp; omega
  | 3, hp => simp [diamond] at hp; omega

theorem diamond_searches_agree :
    ∃ found es, getPathToAncestor diamond 0 3 [] 0 = .ok (found, if found then entries es else []) ∧
      isDerivedFrom diamond 0 3 = found ∧ «matches» diamond 0 3 = found ∧
      (found = true ↔ Reaches diamond 3 0) ∧ (found = true → Leads diamond 0 3 es) ∧
      ∀ (Value : Type) (createStructGEP : Value → Nat → Value) (inst : Value),
        emitGEP diamond createStructGEP 0 3 inst =
          if found then .ok (es.foldl (fun v e => createStructGEP v e.1) inst)
          else .error .narrowingToNonAncestor :=
  searches_agree diamond_ranked 3 0 []

end TypeDef

end Crack
