import Crack.Lib.DepthFirst
import Mathlib.Data.Finset.Basic
import Mathlib.Data.Finset.Dedup
import Mathlib.Data.Fintype.EquivFin

/-!
The types of a module and its slaves in the order in which they are written to the cache:
a type behind its base classes and behind the generic it instantiates.
-/
namespace Crack
namespace Copersistence
open DepthFirst Relation

inductive Kind
  | module | type | other
  deriving DecidableEq

/-- The modules and definitions of a program. -/
structure Program (N : Type) where
  kind : N → Kind
  name : N → List Char
  isMeta : N → Bool
  parents : N → List N
  templateType : N → Option N
  owner : N → Option N
  /-- The symbol table of a namespace, in the order of the names. -/
  defs : N → List (List Char × N)
  getModule : N → N
  master : N → Option N
  slaves : N → List N
  getModule_module : ∀ m, kind m = .module → getModule m = m
  getModule_owner : ∀ t ns, kind t = .type → owner t = some ns → getModule t = getModule ns
  slaves_master : ∀ m, ∀ s ∈ slaves m, kind s = .module ∧ master s = some m
  owners : ∀ ns, ¬ TransGen (fun t ns => owner t = some ns) ns ns

/-- A collection of types: a vector that keeps the order and a set to look them up. -/
structure OrderedTypes (N : Type) [DecidableEq N] where
  ordered : List N
  indexed : Finset N
  same : indexed = ordered.toFinset

variable {N : Type} [DecidableEq N]

namespace OrderedTypes

def ofList (ordered : List N) : OrderedTypes N := ⟨ordered, ordered.toFinset, rfl⟩

def contains (types : OrderedTypes N) (type : N) : Bool := type ∈ types.indexed

def push (types : OrderedTypes N) (type : N) : OrderedTypes N where
  ordered := types.ordered ++ [type]
  indexed := insert type types.indexed
  same := by rw [types.same, List.toFinset_append, Finset.union_comm]; rfl

theorem ofList_ordered (types : OrderedTypes N) : ofList types.ordered = types := by
  obtain ⟨ordered, indexed, rfl⟩ := types
  rfl

theorem push_eq (types : OrderedTypes N) (type : N) : types.push type = ofList (types.ordered ++ [type]) :=
  (ofList_ordered (types.push type)).symm

theorem contains_iff {types : OrderedTypes N} {type : N} : types.contains type = true ↔ type ∈ types.ordered := by
  rw [contains, decide_eq_true_eq, types.same, List.mem_toFinset]

end OrderedTypes

namespace Program
variable (p : Program N)

def getMaster (m : N) : N := (p.master m).getD m

/-- `TypeDef::isSerializable`. -/
def isSerializable (type : N) : Bool :=
  if p.isMeta type then false
  else if (p.name type).take 6 = [':', 'a', 'n', 'o', 'n', 'c'] then true
  else (p.name type).head? ≠ some ':'

def isAlias (ns d : N) (name : List Char) : Bool := p.owner d ≠ some ns ∨ name ≠ p.name d

/-- `OrderedTypes::add`. -/
def add (master : N) : Nat → OrderedTypes N → N → Option (OrderedTypes N)
  | 0, _, _ => none
  | fuel + 1, types, type =>
    if types.contains type ∨ p.getMaster (p.getModule type) ≠ master ∨ ¬ p.isSerializable type then some types
    else do
      let types ← (p.parents type).foldlM (add master fuel) types
      let types ← match p.templateType type with
        | some generic => add master fuel types generic
        | none => some types
      some (types.push type)

/-- The body of the loop of `getOrderedTypes`. The call for the type itself is `nested`. -/
def addEntry (master : N) (fuel : Nat) (nested : OrderedTypes N → N → Option (OrderedTypes N)) (ns : N)
    (types : OrderedTypes N) (entry : List Char × N) : Option (OrderedTypes N) :=
  if p.kind entry.2 ≠ .type then some types
  else if p.isAlias ns entry.2 entry.1 then some types
  else do
    let types ← p.add master fuel types entry.2
    nested types entry.2

def getOrderedTypes (master : N) : Nat → OrderedTypes N → N → Option (OrderedTypes N)
  | 0, _, _ => none
  | fuel + 1, types, ns => (p.defs ns).foldlM (p.addEntry master fuel (getOrderedTypes master fuel) ns) types

/-- The array that `ModuleDef::serialize` builds for a master module. -/
def orderedTypes (fuel : Nat) (master : N) : Option (OrderedTypes N) := do
  let types ← (p.slaves master).foldlM (p.getOrderedTypes master fuel) (OrderedTypes.ofList [])
  p.getOrderedTypes master fuel types master

/-- The base classes of a type, and the generic it instantiates. -/
def deps (type : N) : List N := p.parents type ++ (p.templateType type).toList

/-- A type that belongs to the master and is written. -/
def allowed (master type : N) : Bool := p.getMaster (p.getModule type) = master ∧ p.isSerializable type

/-- A type that the namespace owns, or a type in it does. -/
inductive Owned (p : Program N) : N → N → Prop
  | own {ns t : N} : (p.name t, t) ∈ p.defs ns → p.kind t = .type → p.owner t = some ns → Owned p ns t
  | nested {ns t u : N} : (p.name t, t) ∈ p.defs ns → p.kind t = .type → p.owner t = some ns → Owned p t u →
      Owned p ns u

variable {p} {master ns t : N} {types : OrderedTypes N} {fuel : Nat}

omit [DecidableEq N] in
theorem mem_deps {d : N} : d ∈ p.deps t ↔ d ∈ p.parents t ∨ p.templateType t = some d := by
  rw [deps, List.mem_append, Option.mem_toList]

omit [DecidableEq N] in
theorem Owned.getModule_eq (h : p.Owned ns t) : p.getModule t = p.getModule ns := by
  induction h with
  | own _ hkind howner => exact p.getModule_owner _ _ hkind howner
  | nested _ hkind howner _ ih => exact ih.trans (p.getModule_owner _ _ hkind howner)

theorem foldlM_ofList {f : OrderedTypes N → N → Option (OrderedTypes N)} {g : List N → N → Option (List N)}
    (h : ∀ types t, f types t = (g types.ordered t).map .ofList) (l : List N) :
    l.foldlM f types = (l.foldlM g types.ordered).map .ofList := by
  induction l generalizing types with
  | nil => exact congrArg some types.ofList_ordered.symm
  | cons t l ih =>
    rw [List.foldlM_cons, List.foldlM_cons, h]
    cases g types.ordered t with
    | none => rfl
    | some next => exact ih

/-- `add` is the depth first visit along the dependencies. -/
theorem add_eq (fuel : Nat) (types : OrderedTypes N) (t : N) :
    p.add master fuel types t = (visit p.deps (p.allowed master) fuel types.ordered t).map .ofList := by
  induction fuel generalizing types t with
  | zero => rfl
  | succ fuel ih =>
    have hskip : (types.contains t ∨ p.getMaster (p.getModule t) ≠ master ∨ ¬ p.isSerializable t) ↔
        (t ∈ types.ordered ∨ p.allowed master t = false) := by
      rw [OrderedTypes.contains_iff, allowed, decide_eq_false_iff_not, not_and_or]
    rw [add, visit]
    by_cases h : t ∈ types.ordered ∨ p.allowed master t = false
    · rw [if_pos (hskip.mpr h), if_pos h]
      exact congrArg some types.ofList_ordered.symm
    · rw [if_neg (fun hc => h (hskip.mp hc)), if_neg h, deps, List.foldlM_append, foldlM_ofList ih]
      cases (p.parents t).foldlM (visit p.deps (p.allowed master) fuel) types.ordered with
      | none => rfl
      | some l =>
        cases htemplate : p.templateType t with
        | none =>
          change some ((OrderedTypes.ofList l).push t) = _
          rw [OrderedTypes.push_eq]
          rfl
        | some generic =>
          change ((p.add master fuel (.ofList l) generic).bind fun types => some (types.push t)) = _
          rw [ih]
          change _ = Option.map OrderedTypes.ofList (Option.map (· ++ [t])
            ((visit p.deps (p.allowed master) fuel l generic).bind some))
          rw [OrderedTypes.ofList]
          cases visit p.deps (p.allowed master) fuel l generic with
          | none => rfl
          | some l' =>
            change some ((OrderedTypes.ofList l').push t) = _
            rw [OrderedTypes.push_eq]
            rfl

/-- What is in the list before stays, and the order is kept. -/
structure Grows (p : Program N) (master : N) (before after : List N) : Prop where
  keeps : before <+: after
  ordered : Ordered p.deps (p.allowed master) after

/-- The list grows, and the types that the namespace owns are in it after. -/
structure Collects (p : Program N) (master ns : N) (before after : List N) : Prop extends p.Grows master before after where
  owned : ∀ t, p.Owned ns t → p.allowed master t = true → t ∈ after

/-- The types among the entries that the namespace owns are in the list, with the types in them. -/
def Gathered (p : Program N) (master ns : N) (entries : List (List Char × N)) (after : List N) : Prop :=
  ∀ t, (p.name t, t) ∈ entries → p.kind t = .type → p.owner t = some ns →
    (p.allowed master t = true → t ∈ after) ∧ ∀ u, p.Owned t u → p.allowed master u = true → u ∈ after

theorem Grows.trans {l l' l'' : List N} (h : p.Grows master l l') (h' : p.Grows master l' l'') : p.Grows master l l'' :=
  ⟨h.keeps.trans h'.keeps, h'.ordered⟩

theorem Gathered.mono {entries : List (List Char × N)} {l l' : List N} (h : p.Gathered master ns entries l)
    (hgrows : p.Grows master l l') : p.Gathered master ns entries l' := by
  intro t ht hkind howner
  obtain ⟨hself, hinner⟩ := h t ht hkind howner
  exact ⟨fun ha => hgrows.keeps.subset (hself ha), fun u hu ha => hgrows.keeps.subset (hinner u hu ha)⟩

/-- Enough fuel for the entry of a symbol table. -/
def Returns (p : Program N) (master : N) (fuel : Nat) (t : N) : Prop :=
  ∀ types : OrderedTypes N, Ordered p.deps (p.allowed master) types.ordered →
    ∃ added types' : OrderedTypes N, p.add master fuel types t = some added ∧
      Extends p.deps (p.allowed master) types.ordered [t] added.ordered ∧
      p.getOrderedTypes master fuel added t = some types' ∧ p.Collects master t added.ordered types'.ordered

theorem addEntry_gathers {entry : List Char × N}
    (h : p.kind entry.2 = .type → p.owner entry.2 = some ns → p.Returns master fuel entry.2)
    (htypes : Ordered p.deps (p.allowed master) types.ordered) :
    ∃ types' : OrderedTypes N, p.addEntry master fuel (p.getOrderedTypes master fuel) ns types entry = some types' ∧
      p.Grows master types.ordered types'.ordered ∧ p.Gathered master ns [entry] types'.ordered := by
  have hgrows : p.Grows master types.ordered types.ordered := ⟨List.prefix_refl _, htypes⟩
  by_cases hkind : p.kind entry.2 ≠ .type
  · refine ⟨types, if_pos hkind, hgrows, fun t ht htype _ => ?_⟩
    obtain rfl := List.mem_singleton.mp ht
    exact absurd htype hkind
  by_cases halias : p.isAlias ns entry.2 entry.1 = true
  · refine ⟨types, by rw [addEntry, if_neg hkind, if_pos halias], hgrows, fun t ht _ howner => ?_⟩
    obtain rfl := List.mem_singleton.mp ht
    rw [isAlias, decide_eq_true_eq] at halias
    exact absurd halias (by simp [howner])
  have howner : p.owner entry.2 = some ns := by
    by_contra hne
    exact halias (by rw [isAlias, decide_eq_true_eq]; exact .inl hne)
  obtain ⟨added, types', hadd, hext, hrun, hcollects⟩ := h (of_not_not hkind) howner types htypes
  refine ⟨types', ?_, ⟨hext.keeps.trans hcollects.keeps, hcollects.ordered⟩, fun t ht _ _ => ?_⟩
  · rw [addEntry, if_neg hkind, if_neg halias, hadd]
    exact hrun
  · obtain rfl := List.mem_singleton.mp ht
    exact ⟨fun ha => hcollects.keeps.subset (hext.visited _ (List.mem_singleton_self _) ha), hcollects.owned⟩

theorem getOrderedTypes_loop (entries : List (List Char × N))
    (h : ∀ entry ∈ entries, p.kind entry.2 = .type → p.owner entry.2 = some ns → p.Returns master fuel entry.2)
    (htypes : Ordered p.deps (p.allowed master) types.ordered) :
    ∃ types' : OrderedTypes N,
      entries.foldlM (p.addEntry master fuel (p.getOrderedTypes master fuel) ns) types = some types' ∧
      p.Grows master types.ordered types'.ordered ∧ p.Gathered master ns entries types'.ordered := by
  induction entries generalizing types with
  | nil => exact ⟨types, rfl, ⟨List.prefix_refl _, htypes⟩, fun _ ht => nomatch ht⟩
  | cons entry entries ih =>
    obtain ⟨next, hstep, hgrows, hentry⟩ := addEntry_gathers (h entry List.mem_cons_self) htypes
    obtain ⟨types', hrun, hgrows', hentries⟩ := ih (fun e he => h e (List.mem_cons_of_mem _ he)) hgrows.ordered
    refine ⟨types', ?_, hgrows.trans hgrows', fun t ht => ?_⟩
    · rw [List.foldlM_cons, hstep]
      exact hrun
    · rcases List.mem_cons.mp ht with ht | ht
      · exact hentry.mono hgrows' t (List.mem_singleton.mpr ht)
      · exact hentries t ht

theorem modules_collect (types : OrderedTypes N) (modules : List N)
    (h : ∀ ns ∈ modules, ∀ types : OrderedTypes N, Ordered p.deps (p.allowed master) types.ordered →
      ∃ types' : OrderedTypes N, p.getOrderedTypes master fuel types ns = some types' ∧
        p.Collects master ns types.ordered types'.ordered)
    (htypes : Ordered p.deps (p.allowed master) types.ordered) :
    ∃ types' : OrderedTypes N, modules.foldlM (p.getOrderedTypes master fuel) types = some types' ∧
      p.Grows master types.ordered types'.ordered ∧
      ∀ ns ∈ modules, ∀ t, p.Owned ns t → p.allowed master t = true → t ∈ types'.ordered := by
  induction modules generalizing types with
  | nil => exact ⟨types, rfl, ⟨List.prefix_refl _, htypes⟩, fun _ hns => nomatch hns⟩
  | cons ns modules ih =>
    obtain ⟨next, hstep, hcollects⟩ := h ns List.mem_cons_self types htypes
    obtain ⟨types', hrun, hgrows, howned⟩ := ih _ (fun m hm => h m (List.mem_cons_of_mem _ hm)) hcollects.ordered
    refine ⟨types', ?_, hcollects.toGrows.trans hgrows, ?_⟩
    · rw [List.foldlM_cons, hstep]
      exact hrun
    · intro m hm t ht hallowed
      rcases List.mem_cons.mp hm with rfl | hm
      · exact hgrows.keeps.subset (hcollects.owned t ht hallowed)
      · exact howned m hm t ht hallowed

theorem orderedTypes_eq (fuel : Nat) (master : N) :
    p.orderedTypes fuel master = (p.slaves master ++ [master]).foldlM (p.getOrderedTypes master fuel) (.ofList []) := by
  rw [orderedTypes, List.foldlM_append]
  cases (p.slaves master).foldlM (p.getOrderedTypes master fuel) (.ofList []) with
  | none => rfl
  | some types => exact (bind_pure _).symm

omit [DecidableEq N] in
theorem getMaster_getModule (hmodule : p.kind master = .module) (hmaster : p.master master = none)
    (hns : ns ∈ p.slaves master ++ [master]) : p.getMaster (p.getModule ns) = master := by
  rcases List.mem_append.mp hns with hns | hns
  · obtain ⟨hkind, hslave⟩ := p.slaves_master master ns hns
    rw [p.getModule_module ns hkind, getMaster, hslave, Option.getD_some]
  · rw [List.mem_singleton.mp hns, p.getModule_module master hmodule, getMaster, hmaster, Option.getD_none]

variable [Finite N]

theorem add_extends (master : N) (hdeps : Acyclic p.deps) (t : N) :
    ∃ n, ∀ fuel, n ≤ fuel → ∀ types : OrderedTypes N, Ordered p.deps (p.allowed master) types.ordered →
      ∃ types' : OrderedTypes N, p.add master fuel types t = some types' ∧
        Extends p.deps (p.allowed master) types.ordered [t] types'.ordered := by
  obtain ⟨n, hn⟩ := visit_extends (p.allowed master) hdeps t
  refine ⟨n, fun fuel hle types htypes => ?_⟩
  obtain ⟨done', hrun, hext⟩ := hn fuel hle types.ordered htypes
  refine ⟨.ofList done', ?_, hext⟩
  rw [add_eq, hrun]
  rfl

/-- The types of a namespace are collected, by induction on the nesting. -/
theorem getOrderedTypes_collects (master : N) (hdeps : Acyclic p.deps) (ns : N) :
    ∃ n, ∀ fuel, n ≤ fuel → ∀ types : OrderedTypes N, Ordered p.deps (p.allowed master) types.ordered →
      ∃ types' : OrderedTypes N, p.getOrderedTypes master fuel types ns = some types' ∧
        p.Collects master ns types.ordered types'.ordered := by
  have hwf : WellFounded (TransGen fun t ns => p.owner t = some ns) := by
    have : Std.Irrefl (TransGen fun t ns => p.owner t = some ns) := ⟨p.owners⟩
    exact Finite.wellFounded_of_trans_of_irrefl _
  induction ns using hwf.induction with
  | _ ns ih =>
    have hentry : ∀ entry ∈ p.defs ns, ∃ n, ∀ fuel, n ≤ fuel →
        p.kind entry.2 = .type → p.owner entry.2 = some ns → p.Returns master fuel entry.2 := by
      intro entry _
      by_cases howner : p.owner entry.2 = some ns
      · obtain ⟨n, hn⟩ := add_extends master hdeps entry.2
        obtain ⟨m, hm⟩ := ih entry.2 (.single howner)
        refine ⟨n + m, fun fuel hle _ _ types htypes => ?_⟩
        obtain ⟨added, hadd, hext⟩ := hn fuel (by omega) types htypes
        obtain ⟨types', hrun, hcollects⟩ := hm fuel (by omega) added hext.ordered
        exact ⟨added, types', hadd, hext, hrun, hcollects⟩
      · exact ⟨0, fun _ _ _ ho => absurd ho howner⟩
    obtain ⟨n, hn⟩ := Fuel.forall_mem (p.defs ns) hentry
    refine ⟨n + 1, fun fuel hle types htypes => ?_⟩
    obtain ⟨fuel, rfl⟩ := Nat.exists_eq_add_of_le' (Nat.le_trans (Nat.le_add_left 1 n) hle)
    obtain ⟨types', hrun, hgrows, hgathered⟩ :=
      getOrderedTypes_loop (p.defs ns) (hn fuel (Nat.le_of_succ_le_succ hle)) htypes
    refine ⟨types', hrun, hgrows, ?_⟩
    intro t ht hallowed
    cases ht with
    | own hbound hkind howner => exact (hgathered t hbound hkind howner).1 hallowed
    | nested hbound hkind howner hinner => exact (hgathered _ hbound hkind howner).2 t hinner hallowed

/-- The array of a master module holds the types that the module and its slaves own, each
once, and behind its base classes and its generic. -/
theorem ordered_types (p : Program N) (hdeps : Acyclic p.deps) (master : N) (hmodule : p.kind master = .module)
    (hmaster : p.master master = none) :
    ∃ n, ∀ fuel, n ≤ fuel → ∃ types : OrderedTypes N, p.orderedTypes fuel master = some types ∧
      types.ordered.Nodup ∧
      (∀ ns ∈ p.slaves master ++ [master], ∀ t, p.Owned ns t → p.isSerializable t → t ∈ types.ordered) ∧
      ∀ pre t suf, types.ordered = pre ++ t :: suf → ∀ d, d ∈ p.parents t ∨ p.templateType t = some d →
        p.getMaster (p.getModule d) = master → p.isSerializable d → d ∈ pre := by
  obtain ⟨n, hn⟩ := Fuel.forall_mem (p.slaves master ++ [master])
    (fun ns _ => getOrderedTypes_collects master hdeps ns)
  refine ⟨n, fun fuel hle => ?_⟩
  obtain ⟨types, hrun, hgrows, howned⟩ :=
    modules_collect (.ofList []) (p.slaves master ++ [master]) (hn fuel hle) Ordered.nil
  refine ⟨types, (orderedTypes_eq fuel master).trans hrun, hgrows.ordered.nodup, ?_, ?_⟩
  · intro ns hns t ht hserializable
    refine howned ns hns t ht ?_
    rw [allowed, decide_eq_true_eq, ht.getModule_eq]
    exact ⟨getMaster_getModule hmodule hmaster hns, hserializable⟩
  · intro pre t suf hsplit d hd hsame hserializable
    refine hgrows.ordered.closed pre t suf hsplit d (mem_deps.mpr hd) ?_
    rw [allowed, decide_eq_true_eq]
    exact ⟨hsame, hserializable⟩

/-- The owners in `slaveModule`. -/
def slaveOwner (n : Fin 6) : Option (Fin 6) :=
  if n = 2 ∨ n = 3 then some 0 else if n = 4 then some 1 else if n = 5 then some 2 else none

/-- A module `0` with the classes `2` and `3`, and its slave `1` with the class `4`. `2` is
derived from `4`, which instantiates `3`, and `5`, nested in `2`, is derived from `2`. The
module has an alias of `4`. -/
def slaveModule : Program (Fin 6) where
  kind n := if n = 0 ∨ n = 1 then .module else .type
  name n := match n with
    | 0 => ['m']
    | 1 => ['s']
    | 2 => ['A']
    | 3 => ['B']
    | 4 => ['D']
    | 5 => ['E']
  isMeta _ := false
  parents n := if n = 2 then [4] else if n = 5 then [2] else []
  templateType n := if n = 4 then some 3 else none
  owner := slaveOwner
  defs n := if n = 0 then [(['A'], 2), (['B'], 3), (['C'], 4)] else if n = 1 then [(['D'], 4)]
    else if n = 2 then [(['E'], 5)] else []
  getModule n := if n = 1 ∨ n = 4 then 1 else 0
  master n := if n = 1 then some 0 else none
  slaves n := if n = 0 then [1] else []
  getModule_module := by decide
  getModule_owner := by decide
  slaves_master := by decide
  owners n h := by
    have hstep : ∀ t ns : Fin 6, slaveOwner t = some ns → ns < t := by decide
    have hlt : ∀ t ns : Fin 6, TransGen (fun t ns => slaveOwner t = some ns) t ns → ns < t := by
      intro t ns h
      induction h with
      | single h => exact hstep _ _ h
      | tail _ h ih => exact Nat.lt_trans (hstep _ _ h) ih
    exact absurd (hlt n n h) (Nat.lt_irrefl _)

theorem slaveModule_ordered :
    ∃ n, ∀ fuel, n ≤ fuel → ∃ types : OrderedTypes (Fin 6), slaveModule.orderedTypes fuel 0 = some types ∧
      types.ordered.Nodup ∧
      (∀ ns ∈ slaveModule.slaves 0 ++ [0], ∀ t, slaveModule.Owned ns t → slaveModule.isSerializable t →
        t ∈ types.ordered) ∧
      ∀ pre t suf, types.ordered = pre ++ t :: suf → ∀ d, d ∈ slaveModule.parents t ∨ slaveModule.templateType t = some d →
        slaveModule.getMaster (slaveModule.getModule d) = 0 → slaveModule.isSerializable d → d ∈ pre := by
  let rank : Fin 6 → Nat := fun n => if n = 3 then 0 else if n = 4 then 1 else if n = 2 then 2 else 3
  have hstep : ∀ d t : Fin 6, d ∈ slaveModule.deps t → rank d < rank t := by decide
  have hlt : ∀ d t : Fin 6, TransGen (Dep slaveModule.deps) d t → rank d < rank t := by
    intro d t h
    induction h with
    | single h => exact hstep _ _ h
    | tail _ h ih => exact Nat.lt_trans ih (hstep _ _ h)
  exact ordered_types slaveModule (fun a h => absurd (hlt a a h) (Nat.lt_irrefl _)) 0 rfl rfl

example : (slaveModule.orderedTypes 5 0).map (·.ordered) = some [3, 4, 2, 5] := by decide

end Program
end Copersistence
end Crack
