import Mathlib.Algebra.GroupWithZero.Nat
import Mathlib.Data.List.Perm.Subperm
import Crack.Builder.VTableInit

/-!
# The array of tables of a class

Each class that has tables gets an array of pairs: the table that an instance
holds at a sub-object, and the offset of the sub-object. `countRootAncestors`
sizes the array and `fillVTablesVar` fills it, each with its own walk over the
bases. A run of the fill is the list of what it writes, in order.
-/
namespace Crack

open Acyclic (Path Reaches)

/-- Two elements of the array; a null pointer is `none`. -/
structure VTablesEntry (Constant : Type) where
  vtable : Option Constant
  offset : Nat
  deriving DecidableEq, Repr

namespace Hierarchy

variable (h : Hierarchy) {Constant : Type} (vtabMap : Nat → Option Constant) (layout : Nat → Nat → Nat)

def getInstanceBases (this : Nat) : List Nat :=
  if (h.types this).appendage then [h.getAnchorType this] else h.parents this

def countRootAncestorsStep (countRootAncestors : Nat → Bool → Nat) (this : Nat) (skipFirst : Bool) : Nat :=
  if (h.types this).appendage then countRootAncestors (h.getAnchorType this) skipFirst
  else (((h.parents this).drop skipFirst.toNat).map (fun parent => 1 + countRootAncestors parent true)).sum

def countRootAncestors : Nat → Bool → Nat := Acyclic.fix (fun _ => 0) h.countRootAncestorsStep

/-- `layout type i` is the offset that LLVM gives to the field `i` of the structure of `type`. -/
def getParentOffset (type parentIndex : Nat) : Nat :=
  if (h.types type).appendage then 0 else layout type parentIndex

/-- The table for the base `base.1` at the index `base.2`. -/
def baseVTable (type : Nat) (base : Nat × Nat) : Except String (Option Constant) :=
  if base.1 = h.vtableBaseType then
    if base.2 = 0 then
      match vtabMap type with
      | some vtable => .ok (some vtable)
      | none => .error ""
    else .error ("VTableBase ancestor is not the first parent of " ++ (h.types type).displayName)
  else if h.hasVTable base.1 then
    match h.findFirstVTable base.1 with
    | none => .error ""
    | some root =>
      match vtabMap root with
      | some vtable => .ok (some vtable)
      | none => .error ("VTable base " ++ (h.types root).displayName ++ " of type " ++ (h.types type).displayName ++
          " does not have a vtable entry.")
  else .ok none

/-- What has been written, and the place of the next entry. -/
abbrev VTablesArray (Constant : Type) := Nat × List (Nat × VTablesEntry Constant)

/-- The body of the first loop. -/
def writeBase (type instOffset : Nat) (st : VTablesArray Constant) (base : Nat × Nat) :
    Except String (VTablesArray Constant) := do
  let vtable ← h.baseVTable vtabMap type base
  return (st.1 + 1, st.2 ++ [(st.1, ⟨vtable, instOffset + h.getParentOffset layout type base.2⟩)])

/-- The body of the second loop. -/
def fillBase (fillVTablesVar : Nat → Nat → Nat → Nat → Except String (VTablesArray Constant)) (type instOffset : Nat)
    (st : VTablesArray Constant) (base : Nat × Nat) : Except String (VTablesArray Constant) :=
  if base.1 = h.vtableBaseType then .ok st else do
    let filled ← fillVTablesVar base.1 st.1 1 (instOffset + h.getParentOffset layout type base.2)
    return (filled.1, st.2 ++ filled.2)

def fillVTablesVarStep (fillVTablesVar : Nat → Nat → Nat → Nat → Except String (VTablesArray Constant))
    (type outputStart start instOffset : Nat) : Except String (VTablesArray Constant) :=
  if type = h.vtableBaseType then
    match vtabMap type with
    | some vtable => .ok (outputStart + 1, [(outputStart, ⟨some vtable, instOffset⟩)])
    | none => .error ""
  else do
    let bases := ((h.getInstanceBases type).drop start).zipIdx start
    let st ← bases.foldlM (h.writeBase vtabMap layout type instOffset) (outputStart, [])
    bases.foldlM (h.fillBase layout fillVTablesVar type instOffset) st

def fillVTablesVar : Nat → Nat → Nat → Nat → Except String (VTablesArray Constant) :=
  Acyclic.fix (fun _ _ _ => .error "") (h.fillVTablesVarStep vtabMap layout)

/-- The array of `emit`: its number of pairs, and what is written into it. -/
def emitVTablesArray (type : Nat) : Except String (VTablesArray Constant) := do
  let size := if type = h.vtableBaseType then 1 else h.countRootAncestors type false
  let filled ← h.fillVTablesVar vtabMap layout type 0 0 0
  if filled.1 = size then return (size, filled.2)
  else .error ("VTable fill mismatch for type " ++ (h.types type).displayName)

/-- The offset of the sub-object that the path `is` leads to. -/
def offsetAt : Nat → List Nat → Nat
  | _, [] => 0
  | c, i :: is =>
    match (h.parents c)[i]? with
    | none => 0
    | some p => layout c i + offsetAt p is

/-- A sub-object below the first level that is the first base of its class lies where the class lies. -/
def OwnOffset (is : List Nat) : Prop := is.length = 1 ∨ is ≠ [] ∧ is.getLast? ≠ some 0

/-- The entry for the sub-object at `is`: `VTableBase` has the table of the class it is
listed in, other classes have that of their first root. -/
structure EntryFor (constant : Nat → Constant) (c : Nat) (is : List Nat) (entry : VTablesEntry Constant) : Prop where
  offset : entry.offset = h.offsetAt layout c is
  vtable : ∀ d, Path h.parents c is d → d ≠ h.vtableBaseType → entry.vtable = (h.findFirstVTable d).map constant
  vtableBase : ∀ js i root, is = js ++ [i] → Path h.parents c js root →
    (h.parents root)[i]? = some h.vtableBaseType → entry.vtable = some (constant root)

/-- The array has one entry for each sub-object with an offset of its own, and no other. -/
structure ListsSubobjects (constant : Nat → Constant) (c : Nat) (array : VTablesArray Constant) : Prop where
  size : array.1 = h.countRootAncestors c false
  indexes : array.2.map Prod.fst = List.range (h.countRootAncestors c false)
  entries : ∃ subobjects : List (List Nat × VTablesEntry Constant),
    array.2.map Prod.snd = subobjects.map Prod.snd ∧ (subobjects.map Prod.fst).Nodup ∧
    (∀ is, is ∈ subobjects.map Prod.fst ↔ (∃ d, Path h.parents c is d) ∧ OwnOffset is) ∧
    ∀ sub ∈ subobjects, h.EntryFor layout constant c sub.1 sub.2

-- The sub-objects are listed as the fill comes to them, each with its entry.
section Listed

variable (constant : Nat → Constant)

def vtableFor (c p : Nat) : Option Constant :=
  if p = h.vtableBaseType then some (constant c) else (h.findFirstVTable p).map constant

def listedBase (listed : Nat → Nat → Nat → List (List Nat × VTablesEntry Constant)) (c inst : Nat) (base : Nat × Nat) :
    List (List Nat × VTablesEntry Constant) :=
  (listed base.1 1 (inst + layout c base.2)).map (fun sub => (base.2 :: sub.1, sub.2))

def listedStep (listed : Nat → Nat → Nat → List (List Nat × VTablesEntry Constant)) (c start inst : Nat) :
    List (List Nat × VTablesEntry Constant) :=
  (((h.parents c).drop start).zipIdx start).map
      (fun base => ([base.2], ⟨h.vtableFor constant c base.1, inst + layout c base.2⟩)) ++
    (((h.parents c).drop start).zipIdx start).flatMap (listedBase layout listed c inst)

def listed : Nat → Nat → Nat → List (List Nat × VTablesEntry Constant) :=
  Acyclic.fix (fun _ _ => []) (h.listedStep layout constant)

variable {h layout constant} {sub : List Nat × VTablesEntry Constant}

/-- The bases that the walk comes to, with their indexes. -/
theorem mem_basesFrom {c p i start : Nat} :
    (p, i) ∈ ((h.parents c).drop start).zipIdx start ↔ start ≤ i ∧ (h.parents c)[i]? = some p := by
  rw [List.mem_zipIdx_iff_le_and_getElem?_sub, List.getElem?_drop]
  constructor
  · intro ⟨hle, hp⟩
    rw [show start + (i - start) = i by omega] at hp
    exact ⟨hle, hp⟩
  · intro ⟨hle, hp⟩
    rw [show start + (i - start) = i by omega]
    exact ⟨hle, hp⟩

theorem mem_parents_of_mem_basesFrom {c start : Nat} {base : Nat × Nat}
    (hb : base ∈ ((h.parents c).drop start).zipIdx start) : base.1 ∈ h.parents c :=
  List.mem_of_getElem? (mem_basesFrom.mp hb).2

theorem listed_eq (c start inst : Nat) :
    h.listed layout constant c start inst = h.listedStep layout constant (h.listed layout constant) c start inst := by
  have hlocal : Acyclic.Local h.parents (h.listedStep layout constant) := by
    intro c r r' hr
    funext start inst
    unfold listedStep
    congr 1
    refine List.flatMap_congr (fun base hb => ?_)
    rw [listedBase, listedBase, hr base.1 (mem_parents_of_mem_basesFrom hb)]
  have hfix : h.listed layout constant c = h.listedStep layout constant (h.listed layout constant) c :=
    Acyclic.fix_eq h.ranked hlocal c
  exact congrFun (congrFun hfix start) inst

theorem listed_paths (c start inst : Nat) :
    (h.listed layout constant c start inst).map Prod.fst =
      (((h.parents c).drop start).zipIdx start).map (fun base => [base.2]) ++
        (((h.parents c).drop start).zipIdx start).flatMap (fun base =>
          ((h.listed layout constant base.1 1 (inst + layout c base.2)).map Prod.fst).map (base.2 :: ·)) := by
  rw [listed_eq, listedStep, List.map_append, List.map_map, List.map_flatMap]
  congr 1
  refine List.flatMap_congr (fun base _ => ?_)
  simp [listedBase, Function.comp_def]

/-- Below the first level the walk enters no first base. -/
theorem mem_listed {c start inst : Nat} {is : List Nat} :
    is ∈ (h.listed layout constant c start inst).map Prod.fst ↔
      ∃ i js, is = i :: js ∧ start ≤ i ∧ 0 ∉ js ∧ ∃ d, Path h.parents c is d := by
  induction c using h.ranked.induction generalizing start inst is with
  | step c ih =>
    rw [listed_paths, List.mem_append, List.mem_map, List.mem_flatMap]
    constructor
    · rintro (⟨⟨p, i⟩, hb, rfl⟩ | ⟨⟨p, i⟩, hb, hm⟩)
      · obtain ⟨hle, hp⟩ := mem_basesFrom.mp hb
        exact ⟨i, [], rfl, hle, by simp, p, .step hp (.here p)⟩
      · obtain ⟨hle, hp⟩ := mem_basesFrom.mp hb
        obtain ⟨js, hjs, rfl⟩ := List.mem_map.mp hm
        obtain ⟨k, ks, rfl, hk, hks, d, hd⟩ := (ih p (List.mem_of_getElem? hp)).mp hjs
        refine ⟨i, k :: ks, rfl, hle, ?_, d, .step hp hd⟩
        rw [List.mem_cons, not_or]
        exact ⟨by omega, hks⟩
    · rintro ⟨i, js, rfl, hle, hjs, d, hd⟩
      obtain ⟨p, hp, ht⟩ := Acyclic.path_cons.mp hd
      have hb : (p, i) ∈ ((h.parents c).drop start).zipIdx start := mem_basesFrom.mpr ⟨hle, hp⟩
      cases js with
      | nil => exact .inl ⟨(p, i), hb, rfl⟩
      | cons k ks =>
        rw [List.mem_cons, not_or] at hjs
        refine .inr ⟨(p, i), hb, List.mem_map.mpr ⟨k :: ks, ?_, rfl⟩⟩
        exact (ih p (List.mem_of_getElem? hp)).mpr ⟨k, ks, rfl, by omega, hjs.2, d, ht⟩

/-- No sub-object is listed twice. -/
theorem listed_nodup (c start inst : Nat) : ((h.listed layout constant c start inst).map Prod.fst).Nodup := by
  induction c using h.ranked.induction generalizing start inst with
  | step c ih =>
    rw [listed_paths, List.nodup_append']
    have hindex : ((((h.parents c).drop start).zipIdx start).map Prod.snd).Nodup := by
      rw [List.zipIdx_map_snd]
      exact List.nodup_range'
    refine ⟨?_, ?_, ?_⟩
    · have hmap := hindex.map (f := fun i => [i]) (fun i j he => by simpa using he)
      rw [List.map_map] at hmap
      exact hmap
    · rw [List.nodup_flatMap]
      refine ⟨fun base hb => ?_, ?_⟩
      · exact (ih base.1 (mem_parents_of_mem_basesFrom hb) 1 _).map (fun is js he => by simpa using he)
      · have hpair := List.pairwise_map.mp hindex
        refine hpair.imp (fun hne => ?_)
        intro is h₁ h₂
        obtain ⟨js, -, rfl⟩ := List.mem_map.mp h₁
        obtain ⟨js', -, he⟩ := List.mem_map.mp h₂
        rw [List.cons.injEq] at he
        exact hne he.1.symm
    · intro is h₁ h₂
      obtain ⟨base, -, rfl⟩ := List.mem_map.mp h₁
      obtain ⟨base', -, hm⟩ := List.mem_flatMap.mp h₂
      obtain ⟨js, hjs, he⟩ := List.mem_map.mp hm
      obtain ⟨k, ks, rfl, -⟩ := mem_listed.mp hjs
      simp at he

theorem length_listedBases {c start inst : Nat} {l : List Nat}
    (hl : ∀ p ∈ l, ∀ inst, (h.listed layout constant p 1 inst).length = h.countRootAncestors p true) :
    (l.zipIdx start).length + ((l.zipIdx start).flatMap (listedBase layout (h.listed layout constant) c inst)).length =
      (l.map (fun p => 1 + h.countRootAncestors p true)).sum := by
  induction l generalizing start with
  | nil => rfl
  | cons p l ih =>
    have hrest := @ih (start + 1) (fun q hq => hl q (by simp [hq]))
    have hp : (listedBase layout (h.listed layout constant) c inst (p, start)).length = h.countRootAncestors p true := by
      rw [listedBase, List.length_map]
      exact hl p (by simp) _
    rw [List.zipIdx_cons, List.flatMap_cons, List.length_cons, List.length_append, hp, List.map_cons, List.sum_cons,
      ← hrest]
    omega

theorem countRootAncestors_eq {c : Nat} (happ : ∀ d, Reaches h.parents c d → (h.types d).appendage = false)
    (skipFirst : Bool) :
    h.countRootAncestors c skipFirst =
      (((h.parents c).drop skipFirst.toNat).map (fun p => 1 + h.countRootAncestors p true)).sum := by
  have hlocal : Acyclic.LocalOn h.parents (Reaches h.parents c) h.countRootAncestorsStep := by
    intro d hd r r' hr
    funext skipFirst
    unfold countRootAncestorsStep
    rw [happ d hd, if_neg Bool.false_ne_true, if_neg Bool.false_ne_true]
    congr 1
    refine List.map_congr_left (fun p hp => ?_)
    rw [hr p (List.mem_of_mem_drop hp)]
  have hfix : h.countRootAncestors c = h.countRootAncestorsStep h.countRootAncestors c :=
    Acyclic.fix_eq_on h.ranked (Reaches.closed c) hlocal (Reaches.refl c)
  have hstep := congrFun hfix skipFirst
  rw [countRootAncestorsStep, happ c (.refl c), if_neg Bool.false_ne_true] at hstep
  exact hstep

/-- The count is the number of sub-objects that the walk lists. -/
theorem length_listed {c : Nat} (happ : ∀ d, Reaches h.parents c d → (h.types d).appendage = false)
    (skipFirst : Bool) (inst : Nat) :
    (h.listed layout constant c skipFirst.toNat inst).length = h.countRootAncestors c skipFirst := by
  induction c using h.ranked.induction generalizing skipFirst inst with
  | step c ih =>
    rw [listed_eq, listedStep, List.length_append, List.length_map, countRootAncestors_eq happ]
    refine length_listedBases (fun p hp inst => ?_)
    have hp := List.mem_of_mem_drop hp
    exact ih p hp (fun d hd => happ d ((Reaches.of_parent hp).trans hd)) true inst

theorem offset_of_mem_listed {c start inst : Nat} (hm : sub ∈ h.listed layout constant c start inst) :
    sub.2.offset = inst + h.offsetAt layout c sub.1 := by
  induction c using h.ranked.induction generalizing start inst sub with
  | step c ih =>
    rw [listed_eq, listedStep, List.mem_append, List.mem_map, List.mem_flatMap] at hm
    rcases hm with ⟨⟨p, i⟩, hb, rfl⟩ | ⟨⟨p, i⟩, hb, hm⟩
    · rw [offsetAt, (mem_basesFrom.mp hb).2]
      rfl
    · obtain ⟨below, hbelow, rfl⟩ := List.mem_map.mp hm
      have hp := (mem_basesFrom.mp hb).2
      rw [ih p (List.mem_of_getElem? hp) hbelow, offsetAt, hp, Nat.add_assoc]

theorem vtable_of_mem_listed {c start inst : Nat} (hm : sub ∈ h.listed layout constant c start inst) :
    ∃ js i root d, sub.1 = js ++ [i] ∧ Path h.parents c js root ∧ (h.parents root)[i]? = some d ∧
      sub.2.vtable = h.vtableFor constant root d := by
  induction c using h.ranked.induction generalizing start inst sub with
  | step c ih =>
    rw [listed_eq, listedStep, List.mem_append, List.mem_map, List.mem_flatMap] at hm
    rcases hm with ⟨⟨p, i⟩, hb, rfl⟩ | ⟨⟨p, i⟩, hb, hm⟩
    · exact ⟨[], i, c, p, rfl, .here c, (mem_basesFrom.mp hb).2, rfl⟩
    · obtain ⟨below, hbelow, rfl⟩ := List.mem_map.mp hm
      have hp := (mem_basesFrom.mp hb).2
      obtain ⟨js, k, root, d, he, hpath, hd, hv⟩ := ih p (List.mem_of_getElem? hp) hbelow
      exact ⟨i :: js, k, root, d, by rw [he]; rfl, .step hp hpath, hd, hv⟩

/-- Each entry is right for its sub-object. -/
theorem entryFor_of_mem_listed {c start : Nat} (hm : sub ∈ h.listed layout constant c start 0) :
    h.EntryFor layout constant c sub.1 sub.2 := by
  obtain ⟨js, i, root, d, he, hpath, hd, hv⟩ := vtable_of_mem_listed hm
  have hend : Path h.parents c sub.1 d := by
    rw [he]
    exact hpath.trans (.step hd (.here d))
  refine ⟨by rw [offset_of_mem_listed hm, Nat.zero_add], ?_, ?_⟩
  · intro d' hd' hne
    rw [hend.unique hd'] at hv
    rw [hv, vtableFor, if_neg hne]
  · intro js' i' root' he' hpath' hi'
    rw [he] at he'
    obtain ⟨rfl, hlast⟩ := List.append_inj' he' rfl
    cases hlast
    rw [← hpath.unique hpath'] at hi' ⊢
    rw [hd, Option.some.injEq] at hi'
    rw [hv, vtableFor, if_pos hi']

/-- Entries at places that follow one another. -/
def numbered (outputStart : Nat) (entries : List (VTablesEntry Constant)) : List (Nat × VTablesEntry Constant) :=
  (entries.zipIdx outputStart).map Prod.swap

theorem numbered_append (outputStart : Nat) (l₁ l₂ : List (VTablesEntry Constant)) :
    numbered outputStart (l₁ ++ l₂) = numbered outputStart l₁ ++ numbered (outputStart + l₁.length) l₂ := by
  rw [numbered, List.zipIdx_append, List.map_append]
  rfl

theorem numbered_fst (outputStart : Nat) (l : List (VTablesEntry Constant)) :
    (numbered outputStart l).map Prod.fst = List.range' outputStart l.length := by
  rw [numbered, List.map_map, ← List.zipIdx_map_snd]
  rfl

theorem numbered_snd (outputStart : Nat) (l : List (VTablesEntry Constant)) :
    (numbered outputStart l).map Prod.snd = l := by
  rw [numbered, List.map_map]
  exact List.zipIdx_map_fst outputStart l

/-- A loop whose body writes `g base` writes them one after the other. -/
theorem foldlM_writes {f : VTablesArray Constant → Nat × Nat → Except String (VTablesArray Constant)}
    {g : Nat × Nat → List (VTablesEntry Constant)} {l : List (Nat × Nat)}
    (hf : ∀ base ∈ l, ∀ st, f st base = .ok (st.1 + (g base).length, st.2 ++ numbered st.1 (g base)))
    (st : VTablesArray Constant) :
    l.foldlM f st = .ok (st.1 + (l.flatMap g).length, st.2 ++ numbered st.1 (l.flatMap g)) := by
  induction l generalizing st with
  | nil => simp [numbered, pure, Except.pure]
  | cons base l ih =>
    rw [List.foldlM_cons, hf base (by simp)]
    change l.foldlM f _ = _
    rw [ih (fun b hb => hf b (by simp [hb])), List.flatMap_cons, numbered_append, List.length_append,
      List.append_assoc, Nat.add_assoc]

theorem findFirstVTable_of_not_hasVTable {c : Nat} (hv : h.hasVTable c = false) : h.findFirstVTable c = none := by
  have hc : c ≠ h.vtableBaseType := by
    rintro rfl
    rw [hasVTable_vtableBase] at hv
    cases hv
  rw [findFirstVTable_eq, if_neg hc]
  have hnone : (h.parents c).find? (fun parent => parent = h.vtableBaseType || h.hasVTable parent) = none := by
    rw [List.find?_eq_none]
    intro p hp hpv
    have hpt : h.hasVTable p = true := by
      simp only [Bool.or_eq_true, decide_eq_true_eq] at hpv
      rcases hpv with rfl | hpv
      · exact h.hasVTable_vtableBase
      · exact hpv
    rw [h.hasVTable_of_parent hp hpt] at hv
    cases hv
  rw [hnone]

/-- The map of tables of a class serves every class above it. -/
structure Serves (h : Hierarchy) (vtabMap : Nat → Option Constant) (constant : Nat → Constant) (c : Nat) : Prop where
  table : ∀ root, h.RootOf c root → vtabMap root = some (constant root)
  rooted : ∀ root, h.RootOf c root → h.Rooted root
  appendage : ∀ d, Reaches h.parents c d → (h.types d).appendage = false

variable {vtabMap : Nat → Option Constant} {c : Nat}

theorem Serves.of_parent (hs : h.Serves vtabMap constant c) {p : Nat} (hp : p ∈ h.parents c) :
    h.Serves vtabMap constant p :=
  ⟨fun root hr => hs.table root (hr.of_parent hp), fun root hr => hs.rooted root (hr.of_parent hp),
    fun d hd => hs.appendage d ((Reaches.of_parent hp).trans hd)⟩

theorem Serves.baseVTable (hs : h.Serves vtabMap constant c) {p i : Nat} (hp : (h.parents c)[i]? = some p) :
    h.baseVTable vtabMap c (p, i) = .ok (h.vtableFor constant c p) := by
  have hm := List.mem_of_getElem? hp
  unfold Hierarchy.baseVTable vtableFor
  by_cases hpv : p = h.vtableBaseType
  · have hroot : h.RootOf c c := ⟨.refl c, hpv ▸ hm⟩
    obtain ⟨rest, hpar, hnot⟩ := hs.rooted c hroot
    have hzero : i = 0 := by
      cases i with
      | zero => rfl
      | succ i =>
        rw [hpar, List.getElem?_cons_succ, hpv] at hp
        exact absurd (List.mem_of_getElem? hp) hnot
    simp only [hpv, hzero, if_true, hs.table c hroot]
  · simp only [if_neg hpv]
    by_cases hv : h.hasVTable p = true
    · obtain ⟨root, hfirst, hroot⟩ := findFirstVTable_rootOf hpv hv
      simp only [hv, if_true, hfirst, hs.table root (hroot.of_parent hm), Option.map_some]
    · rw [Bool.not_eq_true] at hv
      simp only [hv, Bool.false_eq_true, if_false, findFirstVTable_of_not_hasVTable hv, Option.map_none]

theorem foldlM_congr {α β ε : Type} {f g : β → α → Except ε β} {l : List α} (hfg : ∀ a ∈ l, ∀ b, f b a = g b a) (b : β) :
    l.foldlM f b = l.foldlM g b := by
  induction l generalizing b with
  | nil => rfl
  | cons a l ih =>
    rw [List.foldlM_cons, List.foldlM_cons, hfg a (by simp)]
    congr 1
    funext b'
    exact ih (fun a' ha' => hfg a' (by simp [ha'])) b'

theorem Serves.fillVTablesVar_eq (hs : h.Serves vtabMap constant c) (out start inst : Nat) :
    h.fillVTablesVar vtabMap layout c out start inst =
      h.fillVTablesVarStep vtabMap layout (h.fillVTablesVar vtabMap layout) c out start inst := by
  have hlocal : Acyclic.LocalOn h.parents (Reaches h.parents c) (h.fillVTablesVarStep vtabMap layout) := by
    intro d hd r r' hr
    funext out start inst
    unfold fillVTablesVarStep getInstanceBases
    split
    · rfl
    · rw [hs.appendage d hd, if_neg Bool.false_ne_true]
      dsimp only
      congr 1
      funext st
      refine foldlM_congr (fun base hb st => ?_) st
      rw [fillBase, fillBase, hr base.1 (mem_parents_of_mem_basesFrom hb)]
  have hfix : h.fillVTablesVar vtabMap layout c =
      h.fillVTablesVarStep vtabMap layout (h.fillVTablesVar vtabMap layout) c :=
    Acyclic.fix_eq_on h.ranked (Reaches.closed c) hlocal (Reaches.refl c)
  exact congrFun (congrFun (congrFun hfix out) start) inst

theorem listed_vtableBase (start inst : Nat) : h.listed layout constant h.vtableBaseType start inst = [] := by
  have hnil : h.parents h.vtableBaseType = [] := h.vtableBase_parents
  rw [listed_eq, listedStep, hnil, List.drop_nil]
  rfl

/-- The fill writes the listed entries from `out` on, and returns the place after them. -/
theorem Serves.fillVTablesVar (hs : h.Serves vtabMap constant c) (hc : c ≠ h.vtableBaseType) (out start inst : Nat) :
    h.fillVTablesVar vtabMap layout c out start inst =
      .ok (out + (h.listed layout constant c start inst).length,
        numbered out ((h.listed layout constant c start inst).map Prod.snd)) := by
  induction c using h.ranked.induction generalizing out start inst with
  | step c ih =>
    have happ : (h.types c).appendage = false := hs.appendage c (.refl c)
    have hoffset : ∀ i, h.getParentOffset layout c i = layout c i := by
      intro i
      rw [getParentOffset, happ, if_neg Bool.false_ne_true]
    have hbases : h.getInstanceBases c = h.parents c := by
      rw [getInstanceBases, happ, if_neg Bool.false_ne_true]
    have hfirst : ∀ base ∈ ((h.parents c).drop start).zipIdx start, ∀ st,
        h.writeBase vtabMap layout c inst st base =
          .ok (st.1 + 1, st.2 ++ numbered st.1 [⟨h.vtableFor constant c base.1, inst + layout c base.2⟩]) := by
      rintro ⟨p, i⟩ hb st
      rw [writeBase, hs.baseVTable (mem_basesFrom.mp hb).2, hoffset]
      rfl
    have hsecond : ∀ base ∈ ((h.parents c).drop start).zipIdx start, ∀ st,
        h.fillBase layout (h.fillVTablesVar vtabMap layout) c inst st base =
          .ok (st.1 + ((listedBase layout (h.listed layout constant) c inst base).map Prod.snd).length,
            st.2 ++ numbered st.1 ((listedBase layout (h.listed layout constant) c inst base).map Prod.snd)) := by
      rintro ⟨p, i⟩ hb st
      have hp := mem_parents_of_mem_basesFrom hb
      rw [fillBase, listedBase, List.map_map]
      by_cases hpv : p = h.vtableBaseType
      · rw [if_pos hpv, hpv, listed_vtableBase]
        simp [numbered]
      · rw [if_neg hpv, hoffset, ih p hp (hs.of_parent hp) hpv]
        simp only [bind, Except.bind, pure, Except.pure, List.length_map]
        rfl
    rw [hs.fillVTablesVar_eq, fillVTablesVarStep, if_neg hc, hbases]
    dsimp only
    have hloop := foldlM_writes (g := fun base => [⟨h.vtableFor constant c base.1, inst + layout c base.2⟩])
      hfirst (out, [])
    rw [hloop]
    change List.foldlM _ _ _ = _
    have hsplit : (h.listed layout constant c start inst).map Prod.snd =
        (((h.parents c).drop start).zipIdx start).flatMap
            (fun base => [⟨h.vtableFor constant c base.1, inst + layout c base.2⟩]) ++
          (((h.parents c).drop start).zipIdx start).flatMap
            (fun base => (listedBase layout (h.listed layout constant) c inst base).map Prod.snd) := by
      rw [listed_eq, listedStep, List.map_append, List.map_map, List.map_flatMap, ← List.map_eq_flatMap]
      rfl
    have hlength : (h.listed layout constant c start inst).length =
        ((h.listed layout constant c start inst).map Prod.snd).length := by rw [List.length_map]
    rw [foldlM_writes hsecond, hlength, hsplit, numbered_append, List.length_append, List.nil_append, Nat.add_assoc]

end Listed

section

variable {h layout} {s : BuilderState} {c : Nat} {vtb : VTableBuilder} (constant : Nat → Constant)

theorem Tabled.serves (ht : Tabled h s c vtb) : Serves h (vtb.constants constant) constant c := by
  refine ⟨fun root hr => ?_, fun root hr => ht.rooted hr, fun d hd => ht.appendage_of_reaches hd⟩
  rw [VTableBuilder.constants, if_pos (((BuilderState.emitVTables_roots ht.parsed ht.built).1 root).mpr hr)]

/-- The check on the size passes, and the places are filled in order. -/
theorem Tabled.emitVTablesArray (ht : Tabled h s c vtb) :
    h.emitVTablesArray (vtb.constants constant) layout c =
      .ok (h.countRootAncestors c false, numbered 0 ((h.listed layout constant c 0 0).map Prod.snd)) := by
  have hserves := ht.serves constant
  have hlength : 0 + (h.listed layout constant c 0 0).length = h.countRootAncestors c false := by
    rw [Nat.zero_add]
    exact length_listed hserves.appendage false 0
  rw [Hierarchy.emitVTablesArray, hserves.fillVTablesVar ht.parsed, if_neg ht.parsed, hlength]
  simp only [bind, Except.bind, if_true]
  rfl

variable (h) in
/-- No class with several bases lies above the first level at the end of a path that takes a first base there. -/
def NoBasesHidden (c : Nat) : Prop :=
  ∀ i js d, Path h.parents c (i :: js) d → 2 ≤ (h.parents d).length → 0 ∉ js

theorem NoBasesHidden.listed (hn : h.NoBasesHidden c) {i d : Nat} {js : List Nat} (hp : Path h.parents c (i :: js) d)
    (ho : OwnOffset (i :: js)) : 0 ∉ js := by
  rcases List.eq_nil_or_concat js with rfl | ⟨ks, k, rfl⟩
  · simp
  · rw [List.concat_eq_append] at hp ho ⊢
    have hk : k ≠ 0 := by
      rcases ho with ho | ⟨-, ho⟩
      · simp at ho
      · rw [← List.cons_append, List.getLast?_append] at ho
        simpa using ho
    rw [← List.cons_append] at hp
    obtain ⟨root, hroot, hlast⟩ := hp.split
    obtain ⟨p, hk', -⟩ := Acyclic.path_cons.mp hlast
    have hlen := (List.getElem?_eq_some_iff.mp hk').1
    have hks := hn i ks root hroot (by omega)
    simp only [List.mem_append, List.mem_singleton, not_or]
    exact ⟨hks, fun he => hk he.symm⟩

/-- A listed path has an offset of its own. -/
theorem ownOffset_of_listed {i : Nat} {js : List Nat} (hjs : 0 ∉ js) : OwnOffset (i :: js) := by
  rcases List.eq_nil_or_concat js with rfl | ⟨ks, k, rfl⟩
  · exact .inl rfl
  · rw [List.concat_eq_append] at hjs ⊢
    refine .inr ⟨by simp, ?_⟩
    rw [← List.cons_append, List.getLast?_append]
    simp only [List.mem_append, List.mem_singleton, not_or] at hjs
    simpa using fun he => hjs.2 he.symm

theorem listsSubobjects_of_noBasesHidden (hn : h.NoBasesHidden c)
    (happ : ∀ d, Reaches h.parents c d → (h.types d).appendage = false) :
    h.ListsSubobjects layout constant c
      (h.countRootAncestors c false, numbered 0 ((h.listed layout constant c 0 0).map Prod.snd)) := by
  have hlength : (h.listed layout constant c 0 0).length = h.countRootAncestors c false := length_listed happ false 0
  refine ⟨rfl, ?_, h.listed layout constant c 0 0, numbered_snd 0 _, listed_nodup c 0 0, ?_, ?_⟩
  · rw [numbered_fst, List.length_map, hlength, List.range_eq_range']
  · intro is
    rw [mem_listed]
    constructor
    · rintro ⟨i, js, rfl, -, hjs, d, hd⟩
      exact ⟨⟨d, hd⟩, ownOffset_of_listed hjs⟩
    · rintro ⟨⟨d, hd⟩, ho⟩
      cases is with
      | nil => rcases ho with ho | ⟨ho, -⟩ <;> simp at ho
      | cons i js => exact ⟨i, js, rfl, by omega, hn.listed hd ho, d, hd⟩
  · exact fun sub hm => entryFor_of_mem_listed hm

/-- A class with a second base that is hidden has more sub-objects than the array has entries. -/
theorem noBasesHidden_of_listsSubobjects
    (hl : h.ListsSubobjects layout constant c
      (h.countRootAncestors c false, numbered 0 ((h.listed layout constant c 0 0).map Prod.snd))) :
    h.NoBasesHidden c := by
  intro i js d hp hlen hzero
  obtain ⟨subobjects, hsnd, hnodup, hmem, -⟩ := hl.entries
  have hlengths : (h.listed layout constant c 0 0).length = subobjects.length := by
    have hmap := congrArg List.length hsnd
    simpa [numbered_snd] using hmap
  -- the second base of `d` has its own offset, and no listed path goes through `js`
  obtain ⟨p, hp₁⟩ : ∃ p, (h.parents d)[1]? = some p := ⟨_, List.getElem?_eq_getElem (by omega)⟩
  have hsecond : Path h.parents c (i :: js ++ [1]) p := hp.trans (.step hp₁ (.here p))
  have hin : i :: js ++ [1] ∈ subobjects.map Prod.fst := by
    refine (hmem _).mpr ⟨⟨p, hsecond⟩, .inr ⟨by simp, ?_⟩⟩
    rw [List.getLast?_append]
    simp
  have hnot : i :: js ++ [1] ∉ (h.listed layout constant c 0 0).map Prod.fst := by
    intro hm
    obtain ⟨k, ks, he, -, hks, -⟩ := mem_listed.mp hm
    rw [List.cons_append, List.cons.injEq] at he
    rw [← he.2] at hks
    exact hks (List.mem_append_left _ hzero)
  have hsub : (i :: js ++ [1]) :: (h.listed layout constant c 0 0).map Prod.fst ⊆ subobjects.map Prod.fst := by
    intro is his
    rcases List.mem_cons.mp his with rfl | his
    · exact hin
    · obtain ⟨k, ks, rfl, -, hks, d', hd'⟩ := mem_listed.mp his
      exact (hmem _).mpr ⟨⟨d', hd'⟩, ownOffset_of_listed hks⟩
  have hnodup' : ((i :: js ++ [1]) :: (h.listed layout constant c 0 0).map Prod.fst).Nodup :=
    List.nodup_cons.mpr ⟨hnot, listed_nodup c 0 0⟩
  have hle := (hnodup'.subperm hsub).length_le
  simp only [List.length_cons, List.length_map] at hle
  omega

end

/-- The array of a class lists every sub-object with an offset of its own exactly
when no class with several bases is hidden above a first base. -/
theorem emitVTablesArray_lists_iff (h : Hierarchy) (s : BuilderState) (c : Nat) (vtb : VTableBuilder)
    (ht : Tabled h s c vtb) {Constant : Type} (constant : Nat → Constant) (layout : Nat → Nat → Nat) :
    (∃ array, h.emitVTablesArray (vtb.constants constant) layout c = .ok array ∧
      h.ListsSubobjects layout constant c array) ↔ h.NoBasesHidden c := by
  have happ : ∀ d, Reaches h.parents c d → (h.types d).appendage = false := fun d hd => ht.appendage_of_reaches hd
  rw [ht.emitVTablesArray constant]
  constructor
  · rintro ⟨array, he, hl⟩
    cases he
    exact noBasesHidden_of_listsSubobjects constant hl
  · intro hn
    exact ⟨_, rfl, listsSubobjects_of_noBasesHidden constant hn happ⟩

/-- `X` and `Y` are roots, `D` has both for its bases, `E` has the base `D`, and `F` has the base `E`. -/
def hiddenBases : Hierarchy :=
  .ofTypes (fun c =>
    if c = 0 then ⟨"VTableBase", "VTableBase", true, false, false, false, []⟩
    else if c = 1 then ⟨"X", "X", true, false, false, false, [0]⟩
    else if c = 2 then ⟨"Y", "Y", true, false, false, false, [0]⟩
    else if c = 3 then ⟨"D", "D", true, false, false, false, [1, 2]⟩
    else if c = 4 then ⟨"E", "E", true, false, false, false, [3]⟩
    else if c = 5 then ⟨"F", "F", true, false, false, false, [4]⟩
    else ⟨"", "", false, false, false, false, []⟩) (by intro c p hp; grind) rfl rfl

def hiddenBasesState : BuilderState :=
  [.beginClass, .beginClass, .endClass, .beginClass, .endClass, .beginClass, .endClass, .beginClass, .endClass,
    .beginClass, .endClass].foldl (BuilderState.next hiddenBases) BuilderState.initial

theorem hiddenBases_accepted : ∀ d ≤ 5, d ≠ 0 → hiddenBases.Accepted d := by
  intro d hd hne
  match d, hd, hne with
  | 1, _, _ => exact ⟨rfl, [0], .inl rfl, ⟨[0], [], none⟩, by decide⟩
  | 2, _, _ => exact ⟨rfl, [0], .inl rfl, ⟨[0], [], none⟩, by decide⟩
  | 3, _, _ => exact ⟨rfl, [1, 2], .inl rfl, ⟨[1, 2], [1, 2], none⟩, by decide⟩
  | 4, _, _ => exact ⟨rfl, [3], .inl rfl, ⟨[3], [1, 2, 3], none⟩, by decide⟩
  | 5, _, _ => exact ⟨rfl, [4], .inl rfl, ⟨[4], [1, 2, 3, 4], none⟩, by decide⟩

theorem hiddenBases_tabled {c : Nat} (hc : c ≤ 5) (hne : c ≠ 0) (ha : (hiddenBases.types c).appendage = false)
    (hok : (hiddenBasesState.emitVTables hiddenBases c).toBool = true) :
    ∃ vtb, Tabled hiddenBases hiddenBasesState c vtb := by
  cases he : hiddenBasesState.emitVTables hiddenBases c with
  | error e => rw [he] at hok; cases hok
  | ok vtb =>
    refine ⟨vtb, fun d hd hdne => hiddenBases_accepted d ?_ hdne, ha, hne, he⟩
    have hle : d ≤ c := hd.le hiddenBases.ranked
    omega

theorem hiddenBases_listed : ∃ vtb, hiddenBasesState.emitVTables hiddenBases 4 = .ok vtb ∧
    ((∃ array, hiddenBases.emitVTablesArray (vtb.constants id) (fun _ i => 8 * i) 4 = .ok array ∧
      hiddenBases.ListsSubobjects (fun _ i => 8 * i) id 4 array) ↔ hiddenBases.NoBasesHidden 4) := by
  obtain ⟨vtb, ht⟩ := hiddenBases_tabled (c := 4) (by decide) (by decide) (by decide) (by decide +kernel)
  exact ⟨vtb, ht.built, emitVTablesArray_lists_iff hiddenBases hiddenBasesState 4 vtb ht id (fun _ i => 8 * i)⟩

/-- The `Y` in an `F` has a table and an offset of its own, and the array of `F` has one entry, for `E`. -/
theorem hidden_base_not_listed :
    ¬ ∀ (h : Hierarchy) (s : BuilderState) (c : Nat) (vtb : VTableBuilder), Tabled h s c vtb →
      ∀ (constant : Nat → Nat) (layout : Nat → Nat → Nat), ∃ array,
        h.emitVTablesArray (vtb.constants constant) layout c = .ok array ∧ h.ListsSubobjects layout constant c array := by
  intro hall
  obtain ⟨vtb, ht⟩ := hiddenBases_tabled (c := 5) (by decide) (by decide) (by decide) (by decide +kernel)
  obtain ⟨array, he, hl⟩ := hall _ _ _ _ ht id (fun _ i => 8 * i)
  rw [ht.emitVTablesArray id] at he
  cases he
  have hn := noBasesHidden_of_listsSubobjects id hl
  exact hn 0 [0] 3 (.step rfl (.step rfl (.here 3))) (by decide) (by simp)

end Hierarchy

end Crack
