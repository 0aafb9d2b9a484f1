import Crack.Builder.VTableRuns
import Crack.Model.AncestorPath

/-!
# Storing the vtable pointers of an instance

`emitVTableInit` walks the bases of a class on its own, with the map of tables
that `createAllVTables` and `emit` have left in the class. An instance contains
each base at the index it has in the base list, so a sub-object is the path of
indexes that leads to it.
-/
namespace Crack

open Acyclic (Path Reaches)

/-- A store of a table through the indexes `path`, given to `CreateStructGEP` one after the other. -/
structure VTableStore (Constant : Type) where
  path : List Nat
  vtable : Constant
  deriving DecidableEq, Repr

namespace Hierarchy

variable (h : Hierarchy) {Constant : Type} (vtables : Nat → Option Constant)

def emitInitOfFirstVTable (btype : Nat) (inst : List Nat) (vtable : Constant) :
    Except String (List (VTableStore Constant)) :=
  match (h.parents btype).zipIdx.find? (fun base => base.1 = h.vtableBaseType) with
  | some (_, i) => .ok [⟨inst ++ [i], vtable⟩]
  | none => .error "no vtable base class"

/-- The body of the loop over the bases, for the base `base.1` and the counter `base.2`. -/
def emitBaseInit (emitVTableInit : Nat → List Nat → Except String (List (VTableStore Constant))) (inst : List Nat)
    (base : Nat × Nat) : Except String (List (VTableStore Constant)) :=
  match vtables base.1 with
  | some vtable => h.emitInitOfFirstVTable base.1 (inst ++ [base.2]) vtable
  | none => if h.hasVTable base.1 then emitVTableInit base.1 (inst ++ [base.2]) else .ok []

/-- The loop starts at `startClass`, but its counter starts at 0. -/
def emitVTableInitStep (emitVTableInit : Nat → List Nat → Except String (List (VTableStore Constant)))
    (btype : Nat) (inst : List Nat) : Except String (List (VTableStore Constant)) := do
  let (first, startClass) ← match vtables btype with
    | some vtable => (h.emitInitOfFirstVTable btype inst vtable).map (fun stores => (stores, 1))
    | none => .ok ([], 0)
  let others ← ((h.parents btype).drop startClass).zipIdx.mapM (h.emitBaseInit vtables emitVTableInit inst)
  return first ++ others.flatten

def emitVTableInit : Nat → List Nat → Except String (List (VTableStore Constant)) :=
  Acyclic.fix (fun _ => .ok []) (h.emitVTableInitStep vtables)

end Hierarchy

/-- The map of tables that `emit` stores in the class: `constant` is the global variable of each root. -/
def VTableBuilder.constants {Constant : Type} (vtb : VTableBuilder) (constant : Nat → Constant) (root : Nat) :
    Option Constant :=
  if root ∈ vtb.roots then some (constant root) else none

/-- What a loop in `Except` preserves at each element it holds after the loop. -/
theorem foldlM_preserves {α β ε : Type} {f : β → α → Except ε β} {P : β → Prop} {l : List α} {b b' : β}
    (hf : ∀ a ∈ l, ∀ b b', f b a = .ok b' → P b → P b') (h : l.foldlM f b = .ok b') (hb : P b) : P b' := by
  induction l generalizing b with
  | nil => cases h; exact hb
  | cons a l ih =>
    rw [List.foldlM_cons] at h
    cases ha : f b a with
    | error e => rw [ha] at h; cases h
    | ok b₁ =>
      rw [ha] at h
      exact ih (fun a' ha' => hf a' (by simp [ha'])) h (hf a (by simp) b b₁ ha hb)

namespace BuilderState

variable {h : Hierarchy} {s : BuilderState}

theorem add_roots {vtb vtb' : VTableBuilder} {func : Nat} (ha : s.add h vtb func = .ok vtb') :
    vtb'.roots = vtb.roots := by
  unfold add at ha
  split at ha
  · cases ha
  · split at ha
    · cases ha; rfl
    · unfold VTableBuilder.addToAncestor at ha
      split at ha
      · cases ha; rfl
      · split at ha
        · cases ha
        · cases ha; rfl

theorem extendVTables_roots {this : Nat} {vtb vtb' : VTableBuilder} (he : s.extendVTables h this vtb = .ok vtb') :
    vtb'.roots = vtb.roots := by
  refine foldlM_preserves (P := fun b => b.roots = vtb.roots) ?_ he rfl
  intro overload _ b b' hb hroots
  refine foldlM_preserves (P := fun b => b.roots = vtb.roots) ?_ hb hroots
  intro func _ b b' hb hroots
  split at hb
  · rw [add_roots hb, hroots]
  · cases hb; exact hroots

end BuilderState

namespace Hierarchy

variable (h : Hierarchy)

def rootsVia (roots : Nat → List Nat) (c p : Nat) : List Nat :=
  if p = h.vtableBaseType then [c] else if h.hasVTable p then roots p else []

/-- The roots in the order in which `createAllVTables` comes to them. -/
def rootsStep (roots : Nat → List Nat) (c : Nat) : List Nat := (h.parents c).flatMap (h.rootsVia roots c)

def roots : Nat → List Nat := Acyclic.fix [] h.rootsStep

theorem roots_eq (c : Nat) : h.roots c = h.rootsStep h.roots c := by
  refine Acyclic.fix_eq h.ranked ?_ c
  intro c r r' hr
  refine List.flatMap_congr (fun p hp => ?_)
  rw [rootsVia, rootsVia, hr p hp]

theorem mem_roots {c root : Nat} : root ∈ h.roots c ↔ h.RootOf c root := by
  induction c using h.ranked.induction with
  | step c ih =>
    rw [roots_eq, rootsStep, rootOf_iff]
    simp only [List.mem_flatMap, rootsVia]
    constructor
    · intro ⟨p, hp, hm⟩
      split at hm
      next hv =>
        rw [List.mem_singleton] at hm
        exact .inl ⟨hm, hv ▸ hp⟩
      next hv =>
        split at hm
        · exact .inr ⟨p, hp, (ih p hp).mp hm⟩
        · cases hm
    · rintro (⟨he, hv⟩ | ⟨p, hp, hr⟩)
      · exact ⟨h.vtableBaseType, hv, by simp [he]⟩
      · have hpv : p ≠ h.vtableBaseType := by
          intro hpv
          rw [hpv] at hr
          exact not_rootOf_vtableBase root hr
        refine ⟨p, hp, ?_⟩
        rw [if_neg hpv, if_pos hr.hasVTable]
        exact (ih p hp).mpr hr

end Hierarchy

namespace BuilderState

variable {h : Hierarchy} {s : BuilderState} {st st' : VTableBuilder × Bool} {name : String} {first : Bool}

/-- A builder that gets the tables of `roots`, and none twice. -/
structure GetsRoots (roots : List Nat) (vtb vtb' : VTableBuilder) : Prop where
  roots : vtb'.roots = vtb.roots ++ roots
  nodup : vtb.roots.Nodup → vtb'.roots.Nodup

theorem createVTable_roots {vtb vtb' : VTableBuilder} {type : Nat}
    (hc : vtb.createVTable type name first = .ok vtb') : GetsRoots [type] vtb vtb' := by
  unfold VTableBuilder.createVTable at hc
  split at hc
  · cases hc
  next hn =>
    cases hc
    refine ⟨rfl, fun hd => ?_⟩
    rw [List.nodup_append']
    exact ⟨hd, by simp, by simpa using hn⟩

theorem GetsRoots.refl (vtb : VTableBuilder) : GetsRoots [] vtb vtb := ⟨by simp, id⟩

theorem GetsRoots.trans {l₁ l₂ : List Nat} {vtb vtb₁ vtb₂ : VTableBuilder} (h₁ : GetsRoots l₁ vtb vtb₁)
    (h₂ : GetsRoots l₂ vtb₁ vtb₂) : GetsRoots (l₁ ++ l₂) vtb vtb₂ :=
  ⟨by rw [h₂.roots, h₁.roots, List.append_assoc], fun hd => h₂.nodup (h₁.nodup hd)⟩

theorem createBaseVTables_roots {c p : Nat}
    (ih : p ≠ h.vtableBaseType → ∀ vtb vtb' name first, s.createAllVTables h p vtb name first = .ok vtb' →
      GetsRoots (h.roots p) vtb vtb')
    (hst : createBaseVTables h (s.createAllVTables h) c name st p = .ok st') :
    GetsRoots (h.rootsVia h.roots c p) st.1 st'.1 := by
  unfold createBaseVTables at hst
  unfold Hierarchy.rootsVia
  by_cases hpv : p = h.vtableBaseType
  · simp only [hpv, if_true] at hst ⊢
    cases hcr : st.1.createVTable c name st.2 with
    | error e => rw [hcr] at hst; cases hst
    | ok vtb₁ => rw [hcr] at hst; cases hst; exact createVTable_roots hcr
  · simp only [hpv, if_false] at hst ⊢
    cases hv : h.hasVTable p with
    | true =>
      simp only [hv, if_true] at hst ⊢
      cases hcr : s.createAllVTables h p st.1
          (if st.2 = true then name else name ++ ":" ++ (h.types p).displayName) st.2 with
      | error e => rw [hcr] at hst; cases hst
      | ok vtb₁ => rw [hcr] at hst; cases hst; exact ih hpv _ _ _ _ hcr
    | false =>
      simp only [hv, Bool.false_eq_true, if_false] at hst ⊢
      cases hst
      exact .refl _

theorem foldlM_roots {f : VTableBuilder × Bool → Nat → Except String (VTableBuilder × Bool)} {roots : Nat → List Nat}
    {ps : List Nat}
    (hf : ∀ p ∈ ps, ∀ st st', f st p = .ok st' → GetsRoots (roots p) st.1 st'.1)
    (hst : ps.foldlM f st = .ok st') : GetsRoots (ps.flatMap roots) st.1 st'.1 := by
  induction ps generalizing st with
  | nil => cases hst; exact .refl _
  | cons p ps ih =>
    rw [List.foldlM_cons] at hst
    cases hb : f st p with
    | error e => rw [hb] at hst; cases hst
    | ok st₁ =>
      rw [hb] at hst
      exact (hf p (by simp) st st₁ hb).trans (ih (fun q hq => hf q (by simp [hq])) hst)

/-- `createAllVTables` creates one table for each place where a root is reached, or fails. -/
theorem createAllVTables_roots {c : Nat} (hc : c ≠ h.vtableBaseType) {vtb vtb' : VTableBuilder}
    (he : s.createAllVTables h c vtb name first = .ok vtb') : GetsRoots (h.roots c) vtb vtb' := by
  induction c using h.ranked.induction generalizing vtb vtb' name first with
  | step c ih =>
    rw [createAllVTables_eq, createAllVTablesStep, if_neg hc] at he
    cases hl : (h.parents c).foldlM (createBaseVTables h (s.createAllVTables h) c name) (vtb, first) with
    | error e => simp only [hl, bind, Except.bind] at he; cases he
    | ok st' =>
      simp only [hl, bind, Except.bind] at he
      have hroots := foldlM_roots (fun p hp st st' hst =>
        createBaseVTables_roots (fun hpv _ _ _ _ hcr => ih p hp hpv hcr) hst) hl
      rw [Hierarchy.roots_eq, Hierarchy.rootsStep]
      split at he
      · cases he
      · have hext := extendVTables_roots he
        exact ⟨by rw [hext, hroots.roots], fun hd => by rw [hext]; exact hroots.nodup hd⟩

/-- The map of tables has exactly the roots, and every root is reached in one place. -/
theorem emitVTables_roots {c : Nat} (hc : c ≠ h.vtableBaseType) {vtb : VTableBuilder}
    (he : s.emitVTables h c = .ok vtb) : (∀ root, root ∈ vtb.roots ↔ h.RootOf c root) ∧ (h.roots c).Nodup := by
  unfold emitVTables at he
  cases hcr : s.createAllVTables h c .empty (".vtable." ++ (h.types c).displayName) true with
  | error e => rw [hcr] at he; cases he
  | ok vtb' =>
    have hemit : vtb'.emit = .ok vtb := by rw [hcr] at he; exact he
    have hroots := createAllVTables_roots hc hcr
    have heq : vtb' = vtb := by
      unfold VTableBuilder.emit at hemit
      split_ifs at hemit
      cases hemit
      rfl
    rw [heq] at hroots
    have hr : vtb.roots = h.roots c := hroots.roots
    refine ⟨fun root => by rw [hr, Hierarchy.mem_roots], ?_⟩
    rw [← hr]
    exact hroots.nodup List.nodup_nil

end BuilderState

namespace Hierarchy

variable {h : Hierarchy}

/-- Nothing but itself comes before `VTableBase` in an accepted base list. -/
theorem Accepted.before_vtableBase {c : Nat} (hc : h.Accepted c) (ha : (h.types c).appendage = false)
    {l₁ l₂ : List Nat} (hp : h.parents c = l₁ ++ h.vtableBaseType :: l₂) : ∀ x ∈ l₁, x = h.vtableBaseType := by
  obtain ⟨given, hgiven, st, hst⟩ := hc.bases
  rw [ha] at hst
  have he : h.parents c = given := by
    rcases hgiven with he | ⟨-, hobj⟩
    · exact he
    · exfalso
      have hm : h.vtableBaseType ∈ h.objectType.toList := by rw [← hobj, hp]; simp
      rw [Option.mem_toList] at hm
      exact h.object_ne_vtableBase _ hm rfl
  rw [← he, hp, parseBases, List.foldlM_append] at hst
  cases hf : l₁.foldlM (h.parseBase false) .empty with
  | error e => rw [hf] at hst; cases hst
  | ok st₁ =>
    have hanc := ((h.addAllToAncestors_ok_iff l₁ [] _).mp (h.parseBases_ancestors hf)).2
    rw [hf] at hst
    have hnil : st₁.ancestors = [] := by
      by_contra hne
      have hlen : st₁.ancestors.length ≠ 0 := by simpa using hne
      change (h.vtableBaseType :: l₂).foldlM (h.parseBase false) st₁ = .ok st at hst
      rw [List.foldlM_cons] at hst
      cases hb : h.parseBase false st₁ h.vtableBaseType with
      | error e => rw [hb] at hst; cases hst
      | ok st₂ =>
        unfold parseBase at hb
        simp only [hlen, bind, Except.bind, Bool.false_eq_true, if_false, and_self, if_true, ne_eq,
          not_false_eq_true] at hb
        split_ifs at hb
    rw [hnil, List.nil_append] at hanc
    intro x hx
    by_contra hne
    have hm : x ∈ h.depthFirst l₁ := by
      refine List.mem_flatMap.mpr ⟨x, hx, ?_⟩
      rw [Acyclic.mem_order h.ranked h.cutRoots]
      exact ⟨.refl x, by simpa using hne⟩
    rw [← hanc] at hm
    cases hm

/-- `VTableBase` is the first base and is listed once. -/
def Rooted (h : Hierarchy) (c : Nat) : Prop := ∃ rest, h.parents c = h.vtableBaseType :: rest ∧ h.vtableBaseType ∉ rest

theorem roots_nodup_of_rootOf {c root : Nat} (hn : (h.roots c).Nodup) (hr : h.RootOf c root) :
    (h.roots root).Nodup := by
  induction c using h.ranked.induction with
  | step c ih =>
    rcases rootOf_iff.mp hr with ⟨he, -⟩ | ⟨p, hp, hrp⟩
    · rw [he]; exact hn
    · have hpv : p ≠ h.vtableBaseType := by
        intro hpv
        rw [hpv] at hrp
        exact not_rootOf_vtableBase root hrp
      rw [roots_eq, rootsStep, List.nodup_flatMap] at hn
      have hnp := hn.1 p hp
      rw [rootsVia, if_neg hpv, if_pos hrp.hasVTable] at hnp
      exact ih p hp hnp hrp

theorem Accepted.rooted {c : Nat} (hc : h.Accepted c) (ha : (h.types c).appendage = false)
    (hn : (h.roots c).Nodup) (hv : h.vtableBaseType ∈ h.parents c) : h.Rooted c := by
  obtain ⟨l₁, l₂, hp⟩ := List.append_of_mem hv
  have hbefore := hc.before_vtableBase ha hp
  have hvia : h.rootsVia h.roots c h.vtableBaseType = [c] := by rw [rootsVia, if_pos rfl]
  rw [roots_eq, rootsStep, hp, List.flatMap_append, List.flatMap_cons, hvia] at hn
  have hnil : l₁ = [] := by
    cases l₁ with
    | nil => rfl
    | cons x l₁ =>
      rw [hbefore x (by simp), List.flatMap_cons, hvia] at hn
      simp at hn
  rw [hnil, List.nil_append] at hp
  refine ⟨l₂, hp, fun hm => ?_⟩
  have hmem : c ∈ l₂.flatMap (h.rootsVia h.roots c) := List.mem_flatMap.mpr ⟨_, hm, by rw [hvia]; simp⟩
  rw [hnil] at hn
  simp only [List.flatMap_nil, List.nil_append, List.singleton_append, List.nodup_cons] at hn
  exact hn.1 hmem

variable (h) in
/-- A place is a path of indexes and the root whose table is stored there. -/
def placesVia (places : Nat → List (List Nat × Nat)) (base : Nat × Nat) : List (List Nat × Nat) :=
  if h.vtableBaseType ∈ h.parents base.1 then [([base.2, 0], base.1)]
  else if h.hasVTable base.1 then (places base.1).map (fun place => (base.2 :: place.1, place.2))
  else []

variable (h) in
def placesStep (places : Nat → List (List Nat × Nat)) (c : Nat) : List (List Nat × Nat) :=
  if h.vtableBaseType ∈ h.parents c then ([0], c) :: (h.parents c).tail.zipIdx.flatMap (h.placesVia places)
  else (h.parents c).zipIdx.flatMap (h.placesVia places)

variable (h) in
/-- The places of the walk from a class, in order. -/
def places : Nat → List (List Nat × Nat) := Acyclic.fix [] h.placesStep

variable (h) in
theorem places_eq (c : Nat) : h.places c = h.placesStep h.places c := by
  refine Acyclic.fix_eq h.ranked ?_ c
  intro c r r' hr
  have hvia : ∀ p : Nat × Nat, p.1 ∈ h.parents c → h.placesVia r p = h.placesVia r' p := by
    intro p hp
    rw [placesVia, placesVia, hr p.1 hp]
  unfold placesStep
  split
  · congr 1
    exact List.flatMap_congr (fun p hp => hvia p (List.mem_of_mem_tail (List.fst_mem_of_mem_zipIdx hp)))
  · exact List.flatMap_congr (fun p hp => hvia p (List.fst_mem_of_mem_zipIdx hp))

theorem mapM_ok {α β ε : Type} {f : α → Except ε β} {g : α → β} {l : List α} (hf : ∀ a ∈ l, f a = .ok (g a)) :
    l.mapM f = .ok (l.map g) := by
  induction l with
  | nil => rfl
  | cons a l ih =>
    rw [List.mapM_cons, hf a (by simp), ih (fun b hb => hf b (by simp [hb]))]
    rfl

theorem Rooted.emitInit {c : Nat} (hr : h.Rooted c) {Constant : Type} (inst : List Nat) (vtable : Constant) :
    h.emitInitOfFirstVTable c inst vtable = .ok [⟨inst ++ [0], vtable⟩] := by
  obtain ⟨rest, hp, -⟩ := hr
  rw [emitInitOfFirstVTable, hp]
  simp

section

variable {Constant : Type} {vtables : Nat → Option Constant}

theorem emitVTableInitStep_local : Acyclic.Local h.parents (h.emitVTableInitStep vtables) := by
  intro c r r' hr
  funext inst
  have hbase : ∀ p : Nat × Nat, p.1 ∈ h.parents c → h.emitBaseInit vtables r inst p = h.emitBaseInit vtables r' inst p := by
    intro p hp
    rw [emitBaseInit, emitBaseInit, hr p.1 hp]
  have hloop : ∀ l : List (Nat × Nat), (∀ p ∈ l, p.1 ∈ h.parents c) →
      l.mapM (h.emitBaseInit vtables r inst) = l.mapM (h.emitBaseInit vtables r' inst) := by
    intro l
    induction l with
    | nil => intro _; rfl
    | cons p l ih =>
      intro hl
      rw [List.mapM_cons, List.mapM_cons, hbase p (hl p (by simp)), ih (fun q hq => hl q (by simp [hq]))]
  have hdrop := fun n => hloop ((h.parents c).drop n).zipIdx (fun p hp =>
    List.mem_of_mem_drop (List.fst_mem_of_mem_zipIdx hp))
  unfold emitVTableInitStep
  simp only [hdrop]

/-- With a table for each root, and for no other class, the walk stores the
table of the root at each of its places. -/
theorem emitVTableInit_places {c : Nat} (constant : Nat → Constant)
    (hmap : ∀ d, Reaches h.parents c d →
      vtables d = if h.vtableBaseType ∈ h.parents d then some (constant d) else none)
    (hrooted : ∀ root, h.RootOf c root → h.Rooted root) (inst : List Nat) :
    h.emitVTableInit vtables c inst =
      .ok ((h.places c).map (fun place => ⟨inst ++ place.1, constant place.2⟩)) := by
  induction c using h.ranked.induction generalizing inst with
  | step c ih =>
    have hbase : ∀ p : Nat × Nat, p.1 ∈ h.parents c →
        h.emitBaseInit vtables (h.emitVTableInit vtables) inst p =
          .ok ((h.placesVia h.places p).map (fun place => ⟨inst ++ place.1, constant place.2⟩)) := by
      intro p hp
      have hreach := Acyclic.Reaches.of_parent hp
      rw [emitBaseInit, placesVia, hmap p.1 hreach]
      by_cases hv : h.vtableBaseType ∈ h.parents p.1
      · simp only [if_pos hv]
        rw [(hrooted p.1 ⟨hreach, hv⟩).emitInit]
        simp
      · simp only [if_neg hv]
        split
        · rw [ih p.1 hp (fun d hd => hmap d (hreach.trans hd)) (fun root hr => hrooted root (hr.of_parent hp))]
          simp [List.map_map, Function.comp_def]
        · rfl
    have heq : h.emitVTableInit vtables c = h.emitVTableInitStep vtables (h.emitVTableInit vtables) c :=
      Acyclic.fix_eq h.ranked emitVTableInitStep_local c
    rw [heq, places_eq, emitVTableInitStep, placesStep, hmap c (.refl c)]
    by_cases hv : h.vtableBaseType ∈ h.parents c
    · simp only [if_pos hv, (hrooted c ⟨.refl c, hv⟩).emitInit]
      have hloop := mapM_ok (l := ((h.parents c).drop 1).zipIdx) (fun p hp =>
        hbase p (List.mem_of_mem_drop (List.fst_mem_of_mem_zipIdx hp)))
      simp only [Except.map, bind, Except.bind, pure, Except.pure, hloop]
      simp [List.flatMap_def, List.map_flatten, Function.comp_def]
    · simp only [if_neg hv]
      have hloop := mapM_ok (l := ((h.parents c).drop 0).zipIdx) (fun p hp =>
        hbase p (List.mem_of_mem_drop (List.fst_mem_of_mem_zipIdx hp)))
      simp only [bind, Except.bind, pure, Except.pure, hloop]
      simp [List.flatMap_def, List.map_flatten, Function.comp_def]

end

variable (h) in
/-- The roots as the depth-first traversal of all bases comes to them. -/
def rootPlaces (c : Nat) : List (List Nat × Nat) :=
  ((Acyclic.visits h.parents h.isVTableBase c).filter (fun v => h.vtableBaseType ∈ h.parents v.2)).map
    (fun v => (v.1 ++ [0], v.2))

theorem mem_rootPlaces {c root : Nat} {is : List Nat} :
    (is, root) ∈ h.rootPlaces c ↔
      ∃ js, is = js ++ [0] ∧ Path h.parents c js root ∧ h.vtableBaseType ∈ h.parents root := by
  unfold rootPlaces
  simp only [List.mem_map, List.mem_filter, Prod.exists, Acyclic.mem_visits h.ranked h.cutRoots, decide_eq_true_eq,
    Prod.mk.injEq]
  constructor
  · rintro ⟨js, d, ⟨⟨hp, -⟩, hv⟩, he, rfl⟩
    exact ⟨js, he.symm, hp, hv⟩
  · rintro ⟨js, he, hp, hv⟩
    exact ⟨js, root, ⟨⟨hp, by simpa using h.ne_vtableBase_of_mem hv⟩, hv⟩, he.symm, rfl⟩

theorem rootPlaces_of_no_root {c : Nat} (hn : ∀ root, ¬ h.RootOf c root) : h.rootPlaces c = [] := by
  rw [List.eq_nil_iff_forall_not_mem]
  rintro ⟨is, root⟩ hm
  obtain ⟨js, -, hp, hv⟩ := mem_rootPlaces.mp hm
  exact hn root ⟨⟨js, hp⟩, hv⟩

theorem rootPlaces_eq {c : Nat} (hc : c ≠ h.vtableBaseType) :
    h.rootPlaces c =
      (h.parents c).zipIdx.flatMap (fun p => (h.rootPlaces p.1).map (fun place => (p.2 :: place.1, place.2))) ++
        if h.vtableBaseType ∈ h.parents c then [([0], c)] else [] := by
  have hcut : ¬ h.isVTableBase c = true := by simpa using hc
  unfold rootPlaces
  rw [Acyclic.visits_eq h.ranked, if_neg hcut, List.filter_append, List.map_append, Acyclic.visitsFrom,
    List.filter_flatMap, List.map_flatMap]
  congr 1
  · refine List.flatMap_congr (fun p _ => ?_)
    simp [List.filter_map, List.map_map, Function.comp_def]
  · by_cases hv : h.vtableBaseType ∈ h.parents c <;> simp [hv]

variable (h) in
/-- `VTableBase` is the only base with a vtable of every root at or above `c`. -/
def PlainRoots (c : Nat) : Prop :=
  ∀ root, h.RootOf c root → ∀ p ∈ h.parents root, h.hasVTable p = true → p = h.vtableBaseType

theorem not_rootOf_of_hasVTable {c : Nat} (hv : h.hasVTable c = false) (root : Nat) : ¬ h.RootOf c root := by
  intro hr
  rw [hr.hasVTable] at hv
  cases hv

/-- The walk stores one table in a root that has no second base with a vtable. -/
theorem places_of_root {c : Nat} (hr : h.Rooted c)
    (hp : ∀ p ∈ h.parents c, h.hasVTable p = true → p = h.vtableBaseType) : h.places c = [([0], c)] := by
  obtain ⟨rest, hpar, hnot⟩ := hr
  rw [places_eq, placesStep, if_pos (by rw [hpar]; simp), hpar, List.tail_cons]
  have hvia : rest.zipIdx.flatMap (h.placesVia h.places) = [] := by
    rw [List.flatMap_eq_nil_iff]
    intro p hpm
    have hpr : p.1 ∈ rest := List.fst_mem_of_mem_zipIdx hpm
    have hv : h.hasVTable p.1 = false := by
      rw [← Bool.not_eq_true]
      intro hv
      have he := hp p.1 (by rw [hpar]; simp [hpr]) hv
      exact hnot (he ▸ hpr)
    have hroot : h.vtableBaseType ∉ h.parents p.1 :=
      fun hm => not_rootOf_of_hasVTable hv p.1 ⟨.refl p.1, hm⟩
    rw [placesVia, if_neg hroot, hv]
    rfl
  rw [hvia]

theorem rootPlaces_of_root {c : Nat} (hv : h.vtableBaseType ∈ h.parents c)
    (hp : ∀ p ∈ h.parents c, h.hasVTable p = true → p = h.vtableBaseType) : h.rootPlaces c = [([0], c)] := by
  rw [rootPlaces_eq (h.ne_vtableBase_of_mem hv), if_pos hv]
  have hnone : (h.parents c).zipIdx.flatMap
      (fun p => (h.rootPlaces p.1).map (fun place => (p.2 :: place.1, place.2))) = [] := by
    rw [List.flatMap_eq_nil_iff]
    intro p hpm
    have hpr : p.1 ∈ h.parents c := List.fst_mem_of_mem_zipIdx hpm
    have hno : ∀ root, ¬ h.RootOf p.1 root := by
      intro root hroot
      have he := hp p.1 hpr hroot.hasVTable
      rw [he] at hroot
      exact not_rootOf_vtableBase root hroot
    rw [rootPlaces_of_no_root hno, List.map_nil]
  rw [hnone, List.nil_append]

/-- Without second bases, the walk comes to every root. -/
theorem places_eq_rootPlaces {c : Nat} (hc : c ≠ h.vtableBaseType)
    (hrooted : ∀ root, h.RootOf c root → h.Rooted root) (hplain : h.PlainRoots c) :
    h.places c = h.rootPlaces c := by
  induction c using h.ranked.induction with
  | step c ih =>
    by_cases hv : h.vtableBaseType ∈ h.parents c
    · have hself : h.RootOf c c := ⟨.refl c, hv⟩
      rw [places_of_root (hrooted c hself) (hplain c hself), rootPlaces_of_root hv (hplain c hself)]
    · rw [rootPlaces_eq hc, places_eq, placesStep, if_neg hv, if_neg hv, List.append_nil]
      refine List.flatMap_congr (fun p hpm => ?_)
      have hp : p.1 ∈ h.parents c := List.fst_mem_of_mem_zipIdx hpm
      have hpv : p.1 ≠ h.vtableBaseType := fun he => hv (he ▸ hp)
      have hrec := ih p.1 hp hpv (fun root hr => hrooted root (hr.of_parent hp))
        (fun root hr => hplain root (hr.of_parent hp))
      rw [placesVia]
      by_cases hroot : h.vtableBaseType ∈ h.parents p.1
      · have hself : h.RootOf c p.1 := ⟨Acyclic.Reaches.of_parent hp, hroot⟩
        rw [if_pos hroot, rootPlaces_of_root hroot (hplain p.1 hself)]
        rfl
      · rw [if_neg hroot]
        split
        · rw [hrec]
        next hno =>
          rw [rootPlaces_of_no_root (not_rootOf_of_hasVTable (by simpa using hno)), List.map_nil]

theorem rootPlaces_paths_nodup (c : Nat) : ((h.rootPlaces c).map Prod.fst).Nodup := by
  unfold rootPlaces
  have hn : ((Acyclic.visits h.parents h.isVTableBase c).map Prod.fst).Nodup := Acyclic.visits_paths_nodup h.ranked c
  have hsub := hn.sublist ((List.filter_sublist (p := fun v => decide (h.vtableBaseType ∈ h.parents v.2))).map Prod.fst)
  have hmap := hsub.map (f := fun is => is ++ [0]) (fun is js he => List.append_cancel_right he)
  simpa [List.map_map, Function.comp_def] using hmap

theorem reaches_vtableBase {c : Nat} (hv : h.hasVTable c = true) : Reaches h.parents c h.vtableBaseType := by
  induction c using h.ranked.induction with
  | step c ih =>
    by_cases hc : c = h.vtableBaseType
    · rw [hc]; exact .refl _
    · obtain ⟨p, hp, hvp⟩ := h.exists_parent_of_hasVTable hc hv
      exact (Acyclic.Reaches.of_parent hp).trans (ih p hp hvp)

/-- A path to `VTableBase` ends with the step from a root. -/
theorem path_vtableBase {c : Nat} {is : List Nat} (hc : c ≠ h.vtableBaseType) (hp : Path h.parents c is h.vtableBaseType) :
    ∃ js root i, is = js ++ [i] ∧ Path h.parents c js root ∧ (h.parents root)[i]? = some h.vtableBaseType := by
  induction is generalizing c with
  | nil => exact absurd (Acyclic.path_nil.mp hp) hc
  | cons i is ih =>
    obtain ⟨p, hi, ht⟩ := Acyclic.path_cons.mp hp
    by_cases hpv : p = h.vtableBaseType
    · rw [hpv] at hi ht
      have hnil : is = [] := by
        cases ht with
        | here => rfl
        | step hs _ => exact absurd rfl (h.ne_vtableBase_of_mem (List.mem_of_getElem? hs))
      exact ⟨[], c, i, by rw [hnil]; rfl, .here c, hi⟩
    · obtain ⟨js, root, k, he, hjs, hk⟩ := ih hpv ht
      exact ⟨i :: js, root, k, by rw [he]; rfl, .step hi hjs, hk⟩

/-- The last element of a list with a property. -/
theorem exists_last {α : Type} {P : α → Prop} {l : List α} (hl : ∃ x ∈ l, P x) :
    ∃ l₁ x l₂, l = l₁ ++ x :: l₂ ∧ P x ∧ ∀ y ∈ l₂, ¬ P y := by
  induction l with
  | nil => simp at hl
  | cons a l ih =>
    by_cases ht : ∃ x ∈ l, P x
    · obtain ⟨l₁, x, l₂, he, hx, hafter⟩ := ih ht
      exact ⟨a :: l₁, x, l₂, by rw [he]; rfl, hx, hafter⟩
    · obtain ⟨x, hx, hP⟩ := hl
      rcases List.mem_cons.mp hx with rfl | hx
      · exact ⟨[], x, l, rfl, hP, fun y hy hPy => ht ⟨y, hy, hPy⟩⟩
      · exact absurd ⟨x, hx, hP⟩ ht

/-- The places found below a base start with the counter of the base. -/
theorem mem_placesVia {q i root : Nat} {is : List Nat} (hm : (is, root) ∈ h.placesVia h.places (q, i)) :
    h.hasVTable q = true ∧ ∃ js, is = i :: js ∧ (js, root) ∈ h.places q := by
  unfold placesVia at hm
  split at hm
  next hv =>
    have hroot : h.RootOf q q := ⟨.refl q, hv⟩
    rw [List.mem_singleton, Prod.mk.injEq] at hm
    obtain ⟨rfl, rfl⟩ := hm
    refine ⟨hroot.hasVTable, [0], rfl, ?_⟩
    rw [places_eq, placesStep, if_pos hv]
    exact List.mem_cons_self
  · split at hm
    next hv =>
      obtain ⟨⟨js, root'⟩, hjs, he⟩ := List.mem_map.mp hm
      cases he
      exact ⟨hv, js, rfl, hjs⟩
    · cases hm

/-- A root with a second base with a vtable leaves a `VTableBase` without a store. -/
theorem exists_missing_of_root {c p : Nat} (hr : h.Rooted c) (hp : p ∈ h.parents c) (hv : h.hasVTable p = true)
    (hne : p ≠ h.vtableBaseType) :
    ∃ is, Path h.parents c is h.vtableBaseType ∧ ∀ place ∈ h.places c, place.1 ≠ is := by
  obtain ⟨rest, hpar, -⟩ := hr
  have hrest : ∃ q ∈ rest, h.hasVTable q = true := by
    refine ⟨p, ?_, hv⟩
    rw [hpar] at hp
    exact (List.mem_cons.mp hp).resolve_left hne
  -- the counter lags one behind, so nothing is stored below the last of these bases
  obtain ⟨l₁, q, l₂, he, hq, hafter⟩ := exists_last hrest
  obtain ⟨js, hjs⟩ := reaches_vtableBase hq
  have hindex : (h.parents c)[l₁.length + 1]? = some q := by rw [hpar, he]; simp
  refine ⟨(l₁.length + 1) :: js, .step hindex hjs, ?_⟩
  rintro ⟨is, root⟩ hm rfl
  rw [places_eq, placesStep, if_pos (by rw [hpar]; simp), hpar, List.tail_cons, List.mem_cons, List.mem_flatMap] at hm
  rcases hm with hm | ⟨⟨q', k⟩, hk, hm⟩
  · simp at hm
  · obtain ⟨hq', js', hcons, -⟩ := mem_placesVia hm
    rw [List.cons.injEq] at hcons
    have hk := List.mem_zipIdx_iff_getElem?.mp hk
    rw [he, ← hcons.1, List.getElem?_append_right (by omega)] at hk
    have hk₁ : l₁.length + 1 - l₁.length = 1 := by omega
    simp only [hk₁, List.getElem?_cons_succ] at hk
    exact hafter q' (List.mem_of_getElem? hk) hq'

theorem exists_missing {c : Nat} (hrooted : ∀ root, h.RootOf c root → h.Rooted root) (hnot : ¬ h.PlainRoots c) :
    ∃ is, Path h.parents c is h.vtableBaseType ∧ ∀ place ∈ h.places c, place.1 ≠ is := by
  induction c using h.ranked.induction with
  | step c ih =>
    unfold PlainRoots at hnot
    push Not at hnot
    obtain ⟨root, hroot, p, hp, hv, hne⟩ := hnot
    by_cases hself : h.vtableBaseType ∈ h.parents c
    · rcases rootOf_iff.mp hroot with ⟨rfl, -⟩ | ⟨q, hq, hrq⟩
      · exact exists_missing_of_root (hrooted root hroot) hp hv hne
      · refine exists_missing_of_root (hrooted c ⟨.refl c, hself⟩) hq hrq.hasVTable ?_
        intro hqv
        rw [hqv] at hrq
        exact not_rootOf_vtableBase root hrq
    · rcases rootOf_iff.mp hroot with ⟨-, hvc⟩ | ⟨q, hq, hrq⟩
      · exact absurd hvc hself
      · obtain ⟨js, hjs, hmiss⟩ := ih q hq (fun r hr => hrooted r (hr.of_parent hq))
          (fun hplain => hne (hplain root hrq p hp hv))
        obtain ⟨i, hi⟩ := List.mem_iff_getElem?.mp hq
        refine ⟨i :: js, .step hi hjs, ?_⟩
        rintro ⟨is, r⟩ hm rfl
        rw [places_eq, placesStep, if_neg hself, List.mem_flatMap] at hm
        obtain ⟨⟨q', k⟩, hk, hm⟩ := hm
        obtain ⟨-, js', hcons, hjs'⟩ := mem_placesVia hm
        rw [List.cons.injEq] at hcons
        obtain ⟨rfl, rfl⟩ := hcons
        have hk := List.mem_zipIdx_iff_getElem?.mp hk
        rw [hi] at hk
        cases hk
        exact hmiss _ hjs' rfl

variable (h) in
/-- Each `VTableBase` of an instance of `c` gets one store, of the table of the
root it belongs to, through the indexes that lead to the root and on to `VTableBase`. -/
structure Initialises {Constant : Type} (constant : Nat → Constant) (c : Nat)
    (stores : List (VTableStore Constant)) : Prop where
  once : ∀ is, Path h.parents c is h.vtableBaseType → ((stores.map VTableStore.path).countP (· = is)) = 1
  root : ∀ st ∈ stores, ∃ root es es',
    TypeDef.getPathToAncestor h.parents root c [] 0 = .ok (true, TypeDef.entries es) ∧
    TypeDef.getPathToAncestor h.parents h.vtableBaseType root [] 0 = .ok (true, TypeDef.entries es') ∧
    h.vtableBaseType ∈ h.parents root ∧ st.path = (es ++ es').map Prod.fst ∧ st.vtable = constant root

/-- A class of accepted classes whose tables have been built. -/
structure Tabled (h : Hierarchy) (s : BuilderState) (c : Nat) (vtb : VTableBuilder) : Prop where
  accepted : ∀ d, Reaches h.parents c d → d ≠ h.vtableBaseType → h.Accepted d
  appendage : (h.types c).appendage = false
  parsed : c ≠ h.vtableBaseType
  built : s.emitVTables h c = .ok vtb

variable {s : BuilderState} {c : Nat} {vtb : VTableBuilder} {root : Nat} {d : Nat}

theorem Tabled.appendage_of_reaches (ht : Tabled h s c vtb) (hd : Reaches h.parents c d) :
    (h.types d).appendage = false := by
  obtain ⟨is, hd⟩ := hd
  have hacc := ht.accepted
  have happ := ht.appendage
  clear ht
  induction hd with
  | here c => exact happ
  | @step c p d i is hp t ih =>
    have hpm := List.mem_of_getElem? hp
    have hreach := Acyclic.Reaches.of_parent hpm
    exact ih (fun e he => hacc e (hreach.trans he))
      ((hacc c (.refl c) (h.ne_vtableBase_of_mem hpm)).parent_appendage happ hpm)

theorem Tabled.rooted (ht : Tabled h s c vtb) (hr : h.RootOf c root) : h.Rooted root :=
  (ht.accepted root hr.1 hr.ne_vtableBase).rooted (ht.appendage_of_reaches hr.1)
    (roots_nodup_of_rootOf (BuilderState.emitVTables_roots ht.parsed ht.built).2 hr) hr.2

theorem Tabled.stores (ht : Tabled h s c vtb) {Constant : Type} (constant : Nat → Constant) :
    h.emitVTableInit (vtb.constants constant) c [] =
      .ok ((h.places c).map (fun place => ⟨place.1, constant place.2⟩)) := by
  have hmap : ∀ d, Reaches h.parents c d → vtb.constants constant d =
      if h.vtableBaseType ∈ h.parents d then some (constant d) else none := by
    intro d hd
    have hiff : d ∈ vtb.roots ↔ h.vtableBaseType ∈ h.parents d := by
      rw [(BuilderState.emitVTables_roots ht.parsed ht.built).1 d]
      exact ⟨fun hr => hr.2, fun hv => ⟨hd, hv⟩⟩
    unfold VTableBuilder.constants
    simp only [hiff]
  simpa using emitVTableInit_places constant hmap (fun _ hr => ht.rooted hr) []

/-- The path search finds the only path to an ancestor. -/
theorem Accepted.path_search (hc : h.Accepted c) (ha : (h.types c).appendage = false) (hd : d ≠ h.vtableBaseType)
    {is : List Nat} (hp : Path h.parents c is d) :
    ∃ es, TypeDef.getPathToAncestor h.parents d c [] 0 = .ok (true, TypeDef.entries es) ∧ es.map Prod.fst = is := by
  have hsome := (Acyclic.firstPath_isSome_iff h.ranked).mpr ⟨is, hp⟩
  obtain ⟨es, hes⟩ := Option.isSome_iff_exists.mp hsome
  have hpath := (Acyclic.firstPath_leads h.ranked hes).path
  refine ⟨es, ?_, hc.unique_path ha hd hpath hp⟩
  rw [TypeDef.getPathToAncestor_eq h.ranked, hes]
  rfl

theorem Rooted.path_search (hr : h.Rooted root) :
    TypeDef.getPathToAncestor h.parents h.vtableBaseType root [] 0 =
      .ok (true, TypeDef.entries [(0, h.vtableBaseType)]) := by
  obtain ⟨rest, hp, -⟩ := hr
  have hne : root ≠ h.vtableBaseType := h.ne_vtableBase_of_mem (p := h.vtableBaseType) (by rw [hp]; simp)
  have hself : Acyclic.firstPath h.parents h.vtableBaseType h.vtableBaseType = some [] := by
    rw [Acyclic.firstPath_eq h.ranked, Acyclic.firstPathStep, if_pos rfl]
  have hfirst : Acyclic.firstPath h.parents h.vtableBaseType root = some [(0, h.vtableBaseType)] := by
    rw [Acyclic.firstPath_eq h.ranked, Acyclic.firstPathStep, if_neg hne, hp, List.zipIdx_cons, List.findSome?_cons,
      hself]
    rfl
  rw [TypeDef.getPathToAncestor_eq h.ranked, hfirst]
  rfl

theorem Tabled.initialises (ht : Tabled h s c vtb) {Constant : Type} (constant : Nat → Constant)
    (hplain : h.PlainRoots c) :
    h.Initialises constant c ((h.places c).map (fun place => ⟨place.1, constant place.2⟩)) := by
  rw [places_eq_rootPlaces ht.parsed (fun _ hr => ht.rooted hr) hplain]
  constructor
  · intro is his
    obtain ⟨js, root, i, rfl, hjs, hi⟩ := path_vtableBase ht.parsed his
    have hv := List.mem_of_getElem? hi
    obtain ⟨rest, hp, hnot⟩ := ht.rooted ⟨⟨js, hjs⟩, hv⟩
    have hzero : i = 0 := by
      cases i with
      | zero => rfl
      | succ i =>
        rw [hp, List.getElem?_cons_succ] at hi
        exact absurd (List.mem_of_getElem? hi) hnot
    have hmem : js ++ [i] ∈ (h.rootPlaces c).map Prod.fst := by
      rw [hzero]
      exact List.mem_map.mpr ⟨_, mem_rootPlaces.mpr ⟨js, rfl, hjs, hv⟩, rfl⟩
    have hcount := List.count_eq_one_of_mem (rootPlaces_paths_nodup c) hmem
    rw [List.count] at hcount
    rw [List.map_map, ← hcount]
    exact List.countP_congr (fun x _ => by simp)
  · intro st hst
    obtain ⟨⟨is, root⟩, hm, rfl⟩ := List.mem_map.mp hst
    obtain ⟨js, rfl, hjs, hv⟩ := mem_rootPlaces.mp hm
    have hroot : h.RootOf c root := ⟨⟨js, hjs⟩, hv⟩
    obtain ⟨es, hes, hfst⟩ := (ht.accepted c (.refl c) ht.parsed).path_search ht.appendage hroot.ne_vtableBase hjs
    exact ⟨root, es, [(0, h.vtableBaseType)], hes, (ht.rooted hroot).path_search, hv,
      by rw [List.map_append, hfst]; rfl, rfl⟩

/-- `emitVTableInit` initialises every `VTableBase` of an instance as it should
exactly when no class that lists `VTableBase` has another base with a vtable. -/
theorem emitVTableInit_initialises_iff (h : Hierarchy) (s : BuilderState) (c : Nat) (vtb : VTableBuilder)
    (ht : Tabled h s c vtb) {Constant : Type} (constant : Nat → Constant) :
    (∃ stores, h.emitVTableInit (vtb.constants constant) c [] = .ok stores ∧ h.Initialises constant c stores) ↔
      h.PlainRoots c := by
  rw [ht.stores constant]
  constructor
  · rintro ⟨stores, he, hi⟩
    cases he
    by_contra hnot
    obtain ⟨is, his, hmiss⟩ := exists_missing (fun _ hr => ht.rooted hr) hnot
    have hcount := hi.once is his
    have hpos : 0 < List.countP (fun x => decide (x = is))
        (((h.places c).map (fun place => (⟨place.1, constant place.2⟩ : VTableStore Constant))).map VTableStore.path) := by
      omega
    obtain ⟨x, hx, hxe⟩ := List.countP_pos_iff.mp hpos
    rw [decide_eq_true_eq] at hxe
    simp only [List.map_map, List.mem_map, Function.comp_apply] at hx
    obtain ⟨place, hplace, he⟩ := hx
    exact hmiss place hplace (he.trans hxe)
  · intro hplain
    exact ⟨_, rfl, ht.initialises constant hplain⟩

/-- `C` and `X` are roots, `X` has the second base `C`, and `D` has the base `C` alone. -/
def secondBase : Hierarchy :=
  .ofTypes (fun c =>
    if c = 0 then ⟨"VTableBase", "VTableBase", true, false, false, false, []⟩
    else if c = 1 then ⟨"C", "C", true, false, false, false, [0]⟩
    else if c = 2 then ⟨"X", "X", true, false, false, false, [0, 1]⟩
    else if c = 3 then ⟨"D", "D", true, false, false, false, [1]⟩
    else ⟨"", "", false, false, false, false, []⟩) (by intro c p hp; grind) rfl rfl

/-- The classes of `secondBase` begin and end one after the other. -/
def secondBaseState : BuilderState :=
  [.beginClass, .beginClass, .endClass, .beginClass, .endClass, .beginClass, .endClass].foldl
    (BuilderState.next secondBase) BuilderState.initial

theorem secondBase_accepted : ∀ d ≤ 3, d ≠ 0 → secondBase.Accepted d := by
  intro d hd hne
  match d, hd, hne with
  | 1, _, _ => exact ⟨rfl, [0], .inl rfl, ⟨[0], [], none⟩, by decide⟩
  | 2, _, _ => exact ⟨rfl, [0, 1], .inl rfl, ⟨[0, 1], [1], none⟩, by decide⟩
  | 3, _, _ => exact ⟨rfl, [1], .inl rfl, ⟨[1], [1], none⟩, by decide⟩

theorem secondBase_tabled {c : Nat} (hc : c ≤ 3) (hne : c ≠ 0) (ha : (secondBase.types c).appendage = false)
    (hok : (secondBaseState.emitVTables secondBase c).toBool = true) :
    ∃ vtb, Tabled secondBase secondBaseState c vtb := by
  cases he : secondBaseState.emitVTables secondBase c with
  | error e => rw [he] at hok; cases hok
  | ok vtb =>
    refine ⟨vtb, fun d hd hdne => secondBase_accepted d ?_ hdne, ha, hne, he⟩
    have hle : d ≤ c := hd.le secondBase.ranked
    omega

theorem secondBase_initialised : ∃ vtb, secondBaseState.emitVTables secondBase 3 = .ok vtb ∧
    ((∃ stores, secondBase.emitVTableInit (vtb.constants id) 3 [] = .ok stores ∧ secondBase.Initialises id 3 stores) ↔
      secondBase.PlainRoots 3) := by
  obtain ⟨vtb, ht⟩ := secondBase_tabled (c := 3) (by decide) (by decide) (by decide) (by decide +kernel)
  exact ⟨vtb, ht.built, emitVTableInit_initialises_iff secondBase secondBaseState 3 vtb ht id⟩

/-- The table of `C` in an `X` is stored through the index 0 of the counter, where `X` has its own `VTableBase`. -/
theorem second_base_not_initialised :
    ¬ ∀ (h : Hierarchy) (s : BuilderState) (c : Nat) (vtb : VTableBuilder), Tabled h s c vtb →
      ∀ constant : Nat → Nat, ∃ stores, h.emitVTableInit (vtb.constants constant) c [] = .ok stores ∧
        h.Initialises constant c stores := by
  intro hall
  obtain ⟨vtb, ht⟩ := secondBase_tabled (c := 2) (by decide) (by decide) (by decide) (by decide +kernel)
  obtain ⟨stores, he, hi⟩ := hall _ _ _ _ ht id
  have hplaces : secondBase.places 2 = [([0], 2), ([0, 0], 1)] := by decide +kernel
  rw [ht.stores, hplaces] at he
  cases he
  have hcount := hi.once [1, 0] (.step rfl (.step rfl (.here 0)))
  revert hcount
  decide

end Hierarchy

end Crack
