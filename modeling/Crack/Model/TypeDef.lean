import Crack.Lib.Acyclic

/-!
# Class definitions and the base class checks of the parser

Classes are numbered in the order of their creation, so a base has a smaller
number than a class derived from it. The checks are those of `parseClassDef`
and `TypeDef::addToAncestors`; an error is the text given to `error`.
-/
namespace Crack

open Acyclic (Path PathFrom Reaches)

structure TypeDef where
  name : String
  displayName : String
  /-- False for the primitive classes. -/
  pointer : Bool
  forward : Bool
  final : Bool
  appendage : Bool
  parents : List Nat
  deriving DecidableEq, Repr

/-- The classes of a compilation. `VTableBase` has no bases, and `Object`, once
it is defined, is a class with no other base. Neither is an appendage. -/
structure Hierarchy where
  types : Nat → TypeDef
  vtableBaseType : Nat
  objectType : Option Nat
  acyclic : Acyclic.Ranked (fun c => (types c).parents)
  vtableBase_parents : (types vtableBaseType).parents = []
  object_parents : ∀ o, objectType = some o → (types o).parents = [vtableBaseType]
  object_pointer : ∀ o, objectType = some o → (types o).pointer = true
  vtableBase_appendage : (types vtableBaseType).appendage = false
  object_appendage : ∀ o, objectType = some o → (types o).appendage = false

namespace Hierarchy

/-- The first class is `VTableBase`, and there is no `Object`. -/
def ofTypes (types : Nat → TypeDef) (acyclic : Acyclic.Ranked fun c => (types c).parents) (hparents : (types 0).parents = [])
    (happendage : (types 0).appendage = false) : Hierarchy where
  types := types
  vtableBaseType := 0
  objectType := none
  acyclic := acyclic
  vtableBase_parents := hparents
  object_parents := by simp
  object_pointer := by simp
  vtableBase_appendage := happendage
  object_appendage := by simp

variable (h : Hierarchy)

def parents (c : Nat) : List Nat := (h.types c).parents

theorem ranked : Acyclic.Ranked h.parents := h.acyclic

def isVTableBase (c : Nat) : Bool := c = h.vtableBaseType

@[simp] theorem isVTableBase_iff (c : Nat) : h.isVTableBase c ↔ c = h.vtableBaseType := by
  simp [isVTableBase]

theorem object_ne_vtableBase (o : Nat) (ho : h.objectType = some o) : o ≠ h.vtableBaseType := by
  intro he
  have h₁ := h.object_parents o ho
  have h₂ := h.vtableBase_parents
  rw [← he, h₁] at h₂
  cases h₂

theorem cutRoots : Acyclic.CutRoots h.parents h.isVTableBase := by
  intro c hc
  rw [isVTableBase_iff] at hc
  subst hc
  exact h.vtableBase_parents

/-- One step of `TypeDef::addToAncestors`; every call of `error` throws. -/
def addToAncestorsStep (addToAncestors : Nat → List Nat → Except String (List Nat)) (this : Nat)
    (ancestors : List Nat) : Except String (List Nat) :=
  if this = h.vtableBaseType then .ok ancestors else do
    if !(h.types this).pointer then
      .error ("You may not inherit from " ++ (h.types this).displayName ++
        " because it's a primitive class.")
    let initAncSize := ancestors.length
    if initAncSize ≠ 0 ∧ h.objectType = some this then
      .error ("If you directly or indirectly inherit from Object, " ++
        "Object (or its derivative) must come first in the ancestor list.")
    let ancestors ← (h.parents this).foldlM (fun ancestors base => addToAncestors base ancestors) ancestors
    if this ∈ ancestors.take initAncSize then
      .error ("Class " ++ (h.types this).displayName ++ " is already an ancestor.")
    return ancestors ++ [this]

def addToAncestors : Nat → List Nat → Except String (List Nat) :=
  Acyclic.fix (fun _ => .error "") h.addToAncestorsStep

/-- The first class up the first bases that is not an appendage. -/
def getAnchorType : Nat → Nat :=
  Acyclic.fix 0 (fun getAnchorType this =>
    if !(h.types this).appendage then this else
      match h.parents this with
      | [] => this
      | base :: _ => getAnchorType base)

/-- What `parseClassDef` has gathered while it reads the base class list. -/
structure BaseList where
  bases : List Nat
  ancestors : List Nat
  anchorType : Option Nat
  deriving DecidableEq, Repr

def BaseList.empty : BaseList := ⟨[], [], none⟩

/-- The checks of `parseClassDef` on one entry of the base class list. -/
def parseBase (isAppendage : Bool) (st : BaseList) (base : Nat) : Except String BaseList := do
  let baseClass := h.types base
  if baseClass.forward then
    .error ("you may not derive from forward declared class " ++ baseClass.name)
  if baseClass.final && !isAppendage then
    .error ("You may not derive from final class " ++ baseClass.name)
  if base = h.vtableBaseType ∧ st.ancestors.length ≠ 0 then
    .error ("If you directly inherit from VTableBase, it must be the " ++
      "first class specified in the base class list.")
  if isAppendage then
    match st.anchorType with
    | none => return { st with bases := st.bases ++ [base], anchorType := some (h.getAnchorType base) }
    | some anchorType =>
      if h.getAnchorType base ≠ anchorType then
        .error ("Base class " ++ baseClass.displayName ++ " has a different anchor type (" ++
          (h.types (h.getAnchorType anchorType)).displayName ++
          ") than the established anchor type (" ++ (h.types anchorType).displayName ++ ")")
      return { st with bases := st.bases ++ [base] }
  else
    if baseClass.appendage then
      .error ("You may not derive a non-appendage class from appendage class " ++
        baseClass.displayName)
    let ancestors ← h.addToAncestors base st.ancestors
    return { st with bases := st.bases ++ [base], ancestors := ancestors }

def parseBases (isAppendage : Bool) (bases : List Nat) : Except String BaseList :=
  bases.foldlM (h.parseBase isAppendage) .empty

/-- The calls of `addToAncestors` that `parseClassDef` makes, one for each base in turn. -/
def addAllToAncestors (bases ancestors : List Nat) : Except String (List Nat) :=
  bases.foldlM (fun ancestors base => h.addToAncestors base ancestors) ancestors

/-- A class that came out of `parseClassDef`. A class written without bases
gets `Object` for its base once `Object` exists. -/
structure Accepted (c : Nat) : Prop where
  pointer : (h.types c).pointer = true
  bases : ∃ given, (h.parents c = given ∨ given = [] ∧ h.parents c = h.objectType.toList) ∧
    ∃ st, h.parseBases (h.types c).appendage given = .ok st

/-- Left-to-right depth-first order of the classes above `bases`, a class after
its own bases, `VTableBase` left out. -/
def depthFirst (bases : List Nat) : List Nat := Acyclic.orderFrom h.parents h.isVTableBase bases

/-- No class but `VTableBase` is reached along two paths out of `bases`. -/
def UniquePaths (bases : List Nat) : Prop :=
  ∀ d, d ≠ h.vtableBaseType → ∀ is js,
    PathFrom h.parents bases is d → PathFrom h.parents bases js d → is = js

/-- `Object`, where it is an ancestor, precedes all others. -/
def ObjectFirst (bases : List Nat) : Prop :=
  ∀ o, h.objectType = some o → o ∈ h.depthFirst bases → (h.depthFirst bases).head? = some o

/-- The classes `l` can be added one after the other to the ancestors `anc`. -/
structure Admits (anc l : List Nat) : Prop where
  nodup : l.Nodup
  fresh : ∀ x ∈ l, x ∉ anc
  object : ∀ o, h.objectType = some o → o ∈ l → (anc ++ l).head? = some o
  pointer : ∀ x ∈ l, (h.types x).pointer = true

theorem admits_nil (anc : List Nat) : h.Admits anc [] := by
  constructor <;> simp

theorem admits_append (anc l₁ l₂ : List Nat) :
    h.Admits anc (l₁ ++ l₂) ↔ h.Admits anc l₁ ∧ h.Admits (anc ++ l₁) l₂ := by
  constructor
  · intro ⟨hn, hf, ho, hp⟩
    rw [List.nodup_append'] at hn
    refine ⟨⟨hn.1, fun x hx => hf x (by simp [hx]), ?_, fun x hx => hp x (by simp [hx])⟩,
      ⟨hn.2.1, ?_, ?_, fun x hx => hp x (by simp [hx])⟩⟩
    · intro o he hm
      have hh := ho o he (by simp [hm])
      have hne : anc ++ l₁ ≠ [] := by intro h; simp_all
      rwa [← List.append_assoc, List.head?_append_of_ne_nil _ hne] at hh
    · intro x hx hm
      rcases List.mem_append.mp hm with hm | hm
      · exact hf x (by simp [hx]) hm
      · exact hn.2.2 hm hx
    · intro o he hm
      simpa using ho o he (by simp [hm])
  · intro ⟨⟨hn₁, hf₁, ho₁, hp₁⟩, ⟨hn₂, hf₂, ho₂, hp₂⟩⟩
    refine ⟨List.nodup_append'.mpr ⟨hn₁, hn₂, ?_⟩, ?_, ?_, ?_⟩
    · intro x hx hm
      exact hf₂ x hm (by simp [hx])
    · intro x hx hm
      rcases List.mem_append.mp hx with hx | hx
      · exact hf₁ x hx hm
      · exact hf₂ x hx (by simp [hm])
    · intro o he hm
      rcases List.mem_append.mp hm with hm | hm
      · have hne : anc ++ l₁ ≠ [] := by intro h; simp_all
        rw [← List.append_assoc, List.head?_append_of_ne_nil _ hne]
        exact ho₁ o he hm
      · simpa using ho₂ o he hm
    · intro x hx
      rcases List.mem_append.mp hx with hx | hx
      · exact hp₁ x hx
      · exact hp₂ x hx

theorem addToAncestorsStep_local : Acyclic.Local h.parents h.addToAncestorsStep := by
  intro c r r' hr
  funext anc
  unfold addToAncestorsStep
  have he : ∀ ps : List Nat, (∀ p ∈ ps, r p = r' p) → ∀ anc : List Nat,
      ps.foldlM (fun ancestors base => r base ancestors) anc =
        ps.foldlM (fun ancestors base => r' base ancestors) anc := by
    intro ps
    induction ps with
    | nil => intro _ _; rfl
    | cons p ps ih =>
      intro hp anc
      simp only [List.foldlM_cons, hp p (by simp)]
      congr 1
      funext a
      exact ih (fun q hq => hp q (by simp [hq])) a
  simp only [he (h.parents c) hr]

theorem addToAncestors_eq (c : Nat) :
    h.addToAncestors c = h.addToAncestorsStep h.addToAncestors c :=
  Acyclic.fix_eq h.ranked h.addToAncestorsStep_local c

/-- No class is among its own ancestors. -/
theorem not_mem_own_order (c : Nat) : c ∉ h.depthFirst (h.parents c) := by
  intro hm
  obtain ⟨p, hp, hm⟩ := List.mem_flatMap.mp hm
  have hlt := h.ranked c p hp
  have hle := ((Acyclic.mem_order h.ranked h.cutRoots).mp hm).1.le h.ranked
  omega

/-- The class itself can be added after its ancestors exactly when the checks
that the code makes for it pass. -/
theorem admits_self (anc : List Nat) (c : Nat) (hc : c ≠ h.vtableBaseType) :
    h.Admits (anc ++ h.depthFirst (h.parents c)) [c] ↔
      (h.types c).pointer = true ∧ ¬ (anc.length ≠ 0 ∧ h.objectType = some c) ∧ c ∉ anc := by
  have hown := h.not_mem_own_order c
  constructor
  · intro ⟨_, hf, ho, hp⟩
    have hanc : c ∉ anc := fun hm => hf c (by simp) (by simp [hm])
    refine ⟨hp c (by simp), ?_, hanc⟩
    rintro ⟨hlen, he⟩
    have hpar := h.object_parents c he
    have hh := ho c he (by simp)
    cases anc with
    | nil => simp at hlen
    | cons a anc =>
      simp only [List.cons_append, List.head?_cons, Option.some.injEq] at hh
      subst hh
      simp at hanc
  · intro ⟨hp, ho, hf⟩
    refine ⟨by simp, by simp [hf, hown], ?_, by simpa using hp⟩
    intro o he hm
    rw [List.mem_singleton] at hm
    subst hm
    have hpar := h.object_parents o he
    have hnil : anc = [] := by
      by_contra hne
      exact ho ⟨by simpa using hne, he⟩
    have hdf : h.depthFirst (h.parents o) = [] := by
      have : h.parents o = [h.vtableBaseType] := hpar
      rw [this]
      simp [depthFirst, Acyclic.order_eq h.ranked, isVTableBase]
    simp [hnil, hdf]

/-- A fold of `addToAncestors` over classes that each behave as specified. -/
theorem fold_ok_iff (ps : List Nat) (anc r : List Nat)
    (ih : ∀ p ∈ ps, ∀ anc r, h.addToAncestors p anc = .ok r ↔
      h.Admits anc (h.depthFirst [p]) ∧ r = anc ++ h.depthFirst [p]) :
    h.addAllToAncestors ps anc = .ok r ↔
      h.Admits anc (h.depthFirst ps) ∧ r = anc ++ h.depthFirst ps := by
  unfold addAllToAncestors
  induction ps generalizing anc with
  | nil =>
    simp only [List.foldlM_nil, depthFirst, Acyclic.orderFrom_nil, List.append_nil]
    constructor
    · intro he; cases he; exact ⟨h.admits_nil _, rfl⟩
    · intro ⟨_, he⟩; rw [he]; rfl
  | cons p ps ihps =>
    have hsplit : h.depthFirst (p :: ps) = h.depthFirst [p] ++ h.depthFirst ps := by
      simp [depthFirst]
    rw [List.foldlM_cons, hsplit, admits_append, ← List.append_assoc]
    have hps := fun anc => ihps anc (fun q hq => ih q (by simp [hq]))
    cases hb : h.addToAncestors p anc with
    | error e =>
      constructor
      · intro he; cases he
      · intro ⟨⟨ha, _⟩, _⟩
        have := (ih p (by simp) anc _).mpr ⟨ha, rfl⟩
        rw [hb] at this; cases this
    | ok anc' =>
      obtain ⟨ha, he⟩ := (ih p (by simp) anc anc').mp hb
      subst he
      change List.foldlM _ (anc ++ h.depthFirst [p]) ps = Except.ok r ↔ _
      rw [hps]
      simp [ha]

/-- `addToAncestors` succeeds exactly when all classes it visits are admitted,
and then it has appended them in depth-first order. -/
theorem addToAncestors_ok_iff (c : Nat) (anc r : List Nat) :
    h.addToAncestors c anc = .ok r ↔
      h.Admits anc (h.depthFirst [c]) ∧ r = anc ++ h.depthFirst [c] := by
  induction c using h.ranked.induction generalizing anc r with
  | step c ih =>
    have hdf : h.depthFirst [c] =
        if c = h.vtableBaseType then [] else h.depthFirst (h.parents c) ++ [c] := by
      simp [depthFirst, Acyclic.order_eq h.ranked, isVTableBase]
    rw [addToAncestors_eq, addToAncestorsStep, hdf]
    by_cases hc : c = h.vtableBaseType
    · simp only [hc, if_true, List.append_nil, Except.ok.injEq]
      constructor
      · intro he; exact ⟨h.admits_nil anc, he.symm⟩
      · intro ⟨_, he⟩; exact he.symm
    · have hfold := fun r => h.fold_ok_iff (h.parents c) anc r ih
      unfold addAllToAncestors at hfold
      simp only [hc, if_false, admits_append, h.admits_self anc c hc, ← List.append_assoc]
      by_cases hp : (h.types c).pointer = true
      · by_cases ho : anc.length ≠ 0 ∧ h.objectType = some c
        · constructor
          · intro he; simp [hp, ho.1, ho.2, bind, Except.bind] at he
          · intro ⟨⟨_, _, hno, _⟩, _⟩; exact absurd ho hno
        · simp only [hp, ho, Bool.not_true, Bool.false_eq_true, if_false]
          cases hb : List.foldlM (fun ancestors base => h.addToAncestors base ancestors) anc (h.parents c) with
          | error e =>
            constructor
            · intro he; cases he
            · intro ⟨⟨ha, _⟩, _⟩
              have := (hfold _).mpr ⟨ha, rfl⟩
              rw [hb] at this; cases this
          | ok anc' =>
            obtain ⟨ha, he⟩ := (hfold anc').mp hb
            subst he
            have htake : (anc ++ h.depthFirst (h.parents c)).take anc.length = anc := by simp
            change (do if c ∈ (anc ++ h.depthFirst (h.parents c)).take anc.length then _
                       return _) = Except.ok r ↔ _
            rw [htake]
            by_cases hm : c ∈ anc
            · simp [hm, bind, Except.bind]
            · simp only [hm, if_false, ha, true_and, not_false_eq_true, and_self]
              constructor
              · intro he; cases he; rfl
              · intro he; rw [he]; rfl
      · constructor
        · intro he; simp [hp, bind, Except.bind] at he
        · intro ⟨⟨_, hp', _⟩, _⟩; exact absurd hp' hp

theorem addAllToAncestors_ok_iff (bases anc r : List Nat) :
    h.addAllToAncestors bases anc = .ok r ↔
      h.Admits anc (h.depthFirst bases) ∧ r = anc ++ h.depthFirst bases :=
  h.fold_ok_iff bases anc r (fun p _ => h.addToAncestors_ok_iff p)

/-- From an empty ancestor list, the admitted lists are the global property. -/
theorem admits_depthFirst_iff (bases : List Nat)
    (hp : ∀ x ∈ h.depthFirst bases, (h.types x).pointer = true) :
    h.Admits [] (h.depthFirst bases) ↔ h.UniquePaths bases ∧ h.ObjectFirst bases := by
  have hu : (h.depthFirst bases).Nodup ↔ h.UniquePaths bases := by
    unfold depthFirst UniquePaths
    rw [Acyclic.orderFrom_nodup_iff h.ranked h.cutRoots]
    simp only [isVTableBase_iff, ne_eq]
  rw [← hu]
  constructor
  · intro ⟨hn, _, ho, _⟩; exact ⟨hn, ho⟩
  · intro ⟨hn, ho⟩; exact ⟨hn, by simp, ho, hp⟩

end Hierarchy

end Crack
