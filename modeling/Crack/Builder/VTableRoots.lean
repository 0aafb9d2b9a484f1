import Crack.Builder.VTables
import Crack.Model.Inheritance

/-!
# Roots

A root is a class that lists `VTableBase` among its bases; each vtable belongs
to one root. Below an accepted class every root is reached through one base, and
the first vtable of a class is the first vtable of its first base.
-/
namespace Crack

open Acyclic (Path Reaches)

namespace Hierarchy

variable (h : Hierarchy)

theorem hasVTable_eq (c : Nat) :
    h.hasVTable c = (decide (c = h.vtableBaseType) || (h.parents c).any h.hasVTable) :=
  Acyclic.fix_eq h.ranked (Acyclic.local_any _) c

@[simp] theorem hasVTable_vtableBase : h.hasVTable h.vtableBaseType = true := by
  rw [hasVTable_eq]
  simp

theorem hasVTable_of_parent {c p : Nat} (hp : p ∈ h.parents c) (hv : h.hasVTable p = true) :
    h.hasVTable c = true := by
  rw [hasVTable_eq]
  simp only [Bool.or_eq_true, List.any_eq_true]
  exact .inr ⟨p, hp, hv⟩

theorem hasVTable_of_reaches {c d : Nat} (hd : Reaches h.parents c d) (hv : h.hasVTable d = true) :
    h.hasVTable c = true := by
  obtain ⟨is, hd⟩ := hd
  induction hd with
  | here => exact hv
  | step hp _ ih => exact h.hasVTable_of_parent (List.mem_of_getElem? hp) (ih hv)

theorem exists_parent_of_hasVTable {c : Nat} (hc : c ≠ h.vtableBaseType) (hv : h.hasVTable c = true) :
    ∃ p ∈ h.parents c, h.hasVTable p = true := by
  rw [hasVTable_eq] at hv
  simpa [hc] using hv

theorem ne_vtableBase_of_mem {c p : Nat} (hp : p ∈ h.parents c) : c ≠ h.vtableBaseType := by
  intro hc
  have hnil : h.parents c = [] := by rw [hc]; exact h.vtableBase_parents
  rw [hnil] at hp
  cases hp

theorem eq_vtableBase_of_reaches {d : Nat} (hd : Reaches h.parents h.vtableBaseType d) :
    d = h.vtableBaseType := by
  obtain ⟨is, hd⟩ := hd
  cases hd with
  | here => rfl
  | step hp _ => exact absurd rfl (h.ne_vtableBase_of_mem (List.mem_of_getElem? hp))

theorem findFirstVTable_eq (c : Nat) :
    h.findFirstVTable c =
      if c = h.vtableBaseType then some c else
        match (h.parents c).find? (fun parent => parent = h.vtableBaseType || h.hasVTable parent) with
        | none => none
        | some parent => if parent = h.vtableBaseType then some c else h.findFirstVTable parent := by
  refine Acyclic.fix_eq h.ranked ?_ c
  intro c r r' hr
  dsimp only
  split
  · rfl
  · split
    · rfl
    · rename_i p hp
      rw [hr p (List.mem_of_find?_eq_some hp)]

@[simp] theorem findFirstVTable_vtableBase : h.findFirstVTable h.vtableBaseType = some h.vtableBaseType := by
  rw [findFirstVTable_eq]
  simp

/-- `root` is `c` or an ancestor of it, and derives directly from `VTableBase`. -/
def RootOf (c root : Nat) : Prop := Reaches h.parents c root ∧ h.vtableBaseType ∈ h.parents root

variable {h} {c root : Nat}

theorem RootOf.of_parent {c p root : Nat} (hp : p ∈ h.parents c) (hr : h.RootOf p root) : h.RootOf c root :=
  ⟨(Acyclic.Reaches.of_parent hp).trans hr.1, hr.2⟩

theorem RootOf.ne_vtableBase (hr : h.RootOf c root) : root ≠ h.vtableBaseType :=
  h.ne_vtableBase_of_mem hr.2

theorem RootOf.hasVTable (hr : h.RootOf c root) : h.hasVTable c = true :=
  h.hasVTable_of_reaches hr.1 (h.hasVTable_of_parent hr.2 h.hasVTable_vtableBase)

theorem not_rootOf_vtableBase (root : Nat) : ¬ h.RootOf h.vtableBaseType root := by
  intro hr
  exact hr.ne_vtableBase (h.eq_vtableBase_of_reaches hr.1)

theorem rootOf_iff :
    h.RootOf c root ↔ (root = c ∧ h.vtableBaseType ∈ h.parents c) ∨ ∃ p ∈ h.parents c, h.RootOf p root := by
  constructor
  · rintro ⟨hr, hv⟩
    rcases Acyclic.reaches_iff.mp hr with he | ⟨p, hp, hr⟩
    · subst he; exact .inl ⟨rfl, hv⟩
    · exact .inr ⟨p, hp, hr, hv⟩
  · rintro (⟨he, hv⟩ | ⟨p, hp, hr⟩)
    · subst he; exact ⟨.refl root, hv⟩
    · exact hr.of_parent hp

/-- The first vtable of a class other than `VTableBase` is that of a root above it. -/
theorem findFirstVTable_rootOf {c : Nat} (hc : c ≠ h.vtableBaseType) (hv : h.hasVTable c = true) :
    ∃ root, h.findFirstVTable c = some root ∧ h.RootOf c root := by
  induction c using h.ranked.induction with
  | step c ih =>
    rw [findFirstVTable_eq, if_neg hc]
    cases hf : (h.parents c).find? (fun parent => parent = h.vtableBaseType || h.hasVTable parent) with
    | none =>
      obtain ⟨p, hp, hvp⟩ := h.exists_parent_of_hasVTable hc hv
      simp only [List.find?_eq_none, Bool.or_eq_true, not_or] at hf
      exact absurd hvp (hf p hp).2
    | some p =>
      have hp := List.mem_of_find?_eq_some hf
      by_cases hpv : p = h.vtableBaseType
      · simp only [hpv, if_true]
        exact ⟨c, rfl, rootOf_iff.mpr (.inl ⟨rfl, hpv ▸ hp⟩)⟩
      · have hvp : h.hasVTable p = true := by simpa [hpv] using List.find?_some hf
        obtain ⟨root, he, hr⟩ := ih p hp hpv hvp
        exact ⟨root, by simp [hpv, he], hr.of_parent hp⟩

theorem findFirstVTable_eq_vtableBase {c : Nat} (hv : h.hasVTable c = true) :
    h.findFirstVTable c = some h.vtableBaseType ↔ c = h.vtableBaseType := by
  constructor
  · intro he
    by_contra hc
    obtain ⟨root, he', hr⟩ := findFirstVTable_rootOf hc hv
    rw [he, Option.some.injEq] at he'
    exact hr.ne_vtableBase he'.symm
  · intro hc
    subst hc
    simp

theorem rootOf_of_findFirstVTable (hv : h.hasVTable c = true) (he : h.findFirstVTable c = some root)
    (hne : root ≠ h.vtableBaseType) : h.RootOf c root := by
  have hc : c ≠ h.vtableBaseType := by
    intro hc
    rw [hc, findFirstVTable_vtableBase, Option.some.injEq] at he
    exact hne he.symm
  obtain ⟨root', he', hr⟩ := findFirstVTable_rootOf hc hv
  rw [he, Option.some.injEq] at he'
  subst he'
  exact hr

variable (h)

/-- The first base has a vtable, and `VTableBase` is listed once. -/
def WellBased (c : Nat) : Prop :=
  ∃ base bases, h.parents c = base :: bases ∧ h.hasVTable base = true ∧ h.vtableBaseType ∉ bases

/-- Two different bases have no ancestor in common but `VTableBase`. -/
def Apart (p q : Nat) : Prop := ∀ d, Reaches h.parents p d → Reaches h.parents q d → d = h.vtableBaseType

variable {h}

theorem WellBased.findFirstVTable {c base : Nat} {bases : List Nat} (hp : h.parents c = base :: bases)
    (hv : h.hasVTable base = true) :
    h.findFirstVTable c = if base = h.vtableBaseType then some c else h.findFirstVTable base := by
  have hc : c ≠ h.vtableBaseType := h.ne_vtableBase_of_mem (p := base) (by simp [hp])
  rw [h.findFirstVTable_eq c, if_neg hc, hp]
  simp [hv]

/-- The bases of an accepted class that is no appendage are pairwise apart. -/
theorem Accepted.apart {c : Nat} (hc : h.Accepted c) (ha : (h.types c).appendage = false) :
    (h.parents c).Pairwise h.Apart := by
  rw [List.pairwise_iff_getElem]
  intro i j hi hj hij d ⟨is, h₁⟩ ⟨js, h₂⟩
  by_contra hd
  have := hc.unique_path ha hd (.step (List.getElem?_eq_getElem hi) h₁) (.step (List.getElem?_eq_getElem hj) h₂)
  simp only [List.cons.injEq] at this
  omega

/-- Reading a base that is not rejected: it is an appendage only below an appendage. -/
theorem parseBase_appendage {st st' : BaseList} {b : Nat} (hb : h.parseBase false st b = .ok st') :
    (h.types b).appendage = false := by
  by_contra hb'
  rw [Bool.not_eq_false] at hb'
  unfold parseBase at hb
  simp only [hb', bind, Except.bind, pure, Except.pure, Bool.false_eq_true, if_false, if_true] at hb
  split_ifs at hb

theorem Accepted.parent_appendage {c : Nat} (hc : h.Accepted c) (ha : (h.types c).appendage = false)
    {p : Nat} (hp : p ∈ h.parents c) : (h.types p).appendage = false := by
  obtain ⟨given, hgiven, st, hst⟩ := hc.bases
  rw [ha] at hst
  have key : ∀ (bases : List Nat) (st₀ : BaseList), bases.foldlM (h.parseBase false) st₀ = .ok st →
      ∀ b ∈ bases, (h.types b).appendage = false := by
    intro bases
    induction bases with
    | nil => simp
    | cons b bases ih =>
      intro st₀ he
      rw [List.foldlM_cons] at he
      cases hb : h.parseBase false st₀ b with
      | error e => rw [hb] at he; cases he
      | ok st₁ =>
        rw [hb] at he
        intro q hq
        rcases List.mem_cons.mp hq with hq | hq
        · subst hq; exact parseBase_appendage hb
        · exact ih st₁ he q hq
  rcases hgiven with he | ⟨he, hpar⟩
  · exact key given .empty hst p (he ▸ hp)
  · rw [hpar, Option.mem_toList] at hp
    exact h.object_appendage p hp

end Hierarchy

end Crack
