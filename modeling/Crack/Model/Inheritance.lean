import Crack.Model.TypeDef

/-!
# Which base class lists are accepted

The incremental check of `addToAncestors` decides a property of the whole
hierarchy. Appendages go through a different check, on anchor types, and may
reach a class along two paths.
-/
namespace Crack

open Acyclic (Path PathFrom Reaches)

namespace Hierarchy

variable (h : Hierarchy) {c : Nat}

/-- Reading one base of a class that is not an appendage calls `addToAncestors` once. -/
theorem parseBase_ancestors {st st' : BaseList} {b : Nat} (hb : h.parseBase false st b = .ok st') :
    h.addToAncestors b st.ancestors = .ok st'.ancestors := by
  unfold parseBase at hb
  cases ha : h.addToAncestors b st.ancestors with
  | error e =>
    simp only [ha, bind, Except.bind, pure, Except.pure, Bool.false_eq_true, if_false] at hb
    split_ifs at hb
  | ok anc =>
    simp only [ha, bind, Except.bind, pure, Except.pure, Bool.false_eq_true, if_false] at hb
    split_ifs at hb
    cases hb
    rfl

/-- For a class that is not an appendage, reading the base list is the sequence
of calls of `addToAncestors`. -/
theorem parseBases_ancestors {bases : List Nat} {st : BaseList}
    (hp : h.parseBases false bases = .ok st) : h.addAllToAncestors bases [] = .ok st.ancestors := by
  have key : ∀ (bases : List Nat) (st₀ : BaseList),
      bases.foldlM (h.parseBase false) st₀ = .ok st →
      h.addAllToAncestors bases st₀.ancestors = .ok st.ancestors := by
    intro bases
    induction bases with
    | nil => intro st₀ he; cases he; rfl
    | cons b bases ih =>
      intro st₀ he
      rw [List.foldlM_cons] at he
      unfold addAllToAncestors
      rw [List.foldlM_cons]
      cases hb : h.parseBase false st₀ b with
      | error e => rw [hb] at he; cases he
      | ok st₁ =>
        rw [hb] at he
        rw [h.parseBase_ancestors hb]
        exact ih st₁ he
  exact key bases .empty hp

theorem depthFirst_singleton (c : Nat) :
    h.depthFirst [c] = if c = h.vtableBaseType then [] else h.depthFirst (h.parents c) ++ [c] := by
  simp [depthFirst, Acyclic.order_eq h.ranked, isVTableBase]

/-- `Object` can always start an ancestor list. -/
theorem admits_object (o : Nat) (ho : h.objectType = some o) : h.Admits [] (h.depthFirst [o]) := by
  have hv := h.object_ne_vtableBase o ho
  have hpar : h.parents o = [h.vtableBaseType] := h.object_parents o ho
  have hnil : h.depthFirst (h.parents o) = [] := by simp [hpar, depthFirst_singleton]
  rw [depthFirst_singleton, if_neg hv, hnil]
  simpa [hnil] using (h.admits_self [] o hv).mpr ⟨h.object_pointer o ho, by simp, by simp⟩

/-- The ancestors of an accepted class were admitted one after the other. -/
theorem Accepted.admits {h : Hierarchy} (hc : h.Accepted c) (ha : (h.types c).appendage = false) :
    h.Admits [] (h.depthFirst (h.parents c)) := by
  obtain ⟨given, hgiven, st, hst⟩ := hc.bases
  rw [ha] at hst
  have hadm := ((h.addAllToAncestors_ok_iff given [] _).mp (h.parseBases_ancestors hst)).1
  rcases hgiven with he | ⟨he, hpar⟩
  · rw [he]; exact hadm
  · rw [hpar]
    cases hobj : h.objectType with
    | none => exact h.admits_nil []
    | some o => exact h.admits_object o hobj

/-- No primitive class is above an accepted one. -/
theorem Accepted.depthFirst_pointer {h : Hierarchy} (hc : h.Accepted c) (ha : (h.types c).appendage = false) :
    ∀ x ∈ h.depthFirst [c], (h.types x).pointer = true := by
  intro x hx
  rw [depthFirst_singleton] at hx
  split_ifs at hx with hv
  · simp at hx
  · rcases List.mem_append.mp hx with hx | hx
    · exact (hc.admits ha).pointer x hx
    · rw [List.mem_singleton] at hx
      rw [hx]; exact hc.pointer

/-- An accepted class that is no appendage reaches each ancestor along one path. -/
theorem Accepted.unique_path {h : Hierarchy} (hc : h.Accepted c) (ha : (h.types c).appendage = false) {d : Nat}
    (hd : d ≠ h.vtableBaseType) {is js : List Nat} (h₁ : Path h.parents c is d) (h₂ : Path h.parents c js d) :
    is = js := by
  have hn : (h.depthFirst (h.parents c) ++ [c]).Nodup := by
    rw [List.nodup_append']
    refine ⟨(hc.admits ha).nodup, by simp, ?_⟩
    intro x hx hxc
    rw [List.mem_singleton] at hxc
    rw [hxc] at hx
    exact h.not_mem_own_order c hx
  have ho : (Acyclic.order h.parents h.isVTableBase c).Nodup := by
    rw [Acyclic.order_eq h.ranked]
    split
    · exact List.nodup_nil
    · exact hn
  exact (Acyclic.order_nodup_iff h.ranked h.cutRoots c).mp ho d (by simpa using hd) is js h₁ h₂

/-- Adding the bases in turn succeeds exactly when no class but `VTableBase` is
reached twice and `Object` comes first; so accepted classes that are no
appendages have unique inheritance paths. -/
theorem base_list_accepted_iff (h : Hierarchy) :
    (∀ bases : List Nat, (∀ b ∈ bases, h.Accepted b ∧ (h.types b).appendage = false) →
      ((∃ ancestors, h.addAllToAncestors bases [] = .ok ancestors) ↔
        h.UniquePaths bases ∧ h.ObjectFirst bases)) ∧
    ∀ c, h.Accepted c → (h.types c).appendage = false → ∀ d, d ≠ h.vtableBaseType → ∀ is js,
      Path h.parents c is d → Path h.parents c js d → is = js := by
  constructor
  · intro bases hb
    have hp : ∀ x ∈ h.depthFirst bases, (h.types x).pointer = true := by
      intro x hx
      obtain ⟨b, hbm, hx⟩ := List.mem_flatMap.mp hx
      exact (hb b hbm).1.depthFirst_pointer (hb b hbm).2 x (by simpa [depthFirst] using hx)
    rw [← h.admits_depthFirst_iff bases hp]
    simp [h.addAllToAncestors_ok_iff]
  · intro c hc ha d hd is js h₁ h₂
    exact hc.unique_path ha hd h₁ h₂

/-- `Object`, a class derived from it, and a class that has only `VTableBase`. -/
def objectPair : Hierarchy where
  types c :=
    if c = 0 then ⟨"VTableBase", "VTableBase", true, false, false, false, []⟩
    else if c = 1 then ⟨"Object", "Object", true, false, false, false, [0]⟩
    else if c = 2 then ⟨"P", "P", true, false, false, false, [1]⟩
    else if c = 3 then ⟨"Q", "Q", true, false, false, false, [0]⟩
    else ⟨"", "", false, false, false, false, []⟩
  vtableBaseType := 0
  objectType := some 1
  acyclic := by intro c p hp; grind
  vtableBase_parents := rfl
  object_parents := by intro o ho; cases ho; rfl
  object_pointer := by intro o ho; cases ho; rfl
  vtableBase_appendage := rfl
  object_appendage := by intro o ho; cases ho; rfl

theorem objectPair_accepted : ∀ b ∈ [2, 3], objectPair.Accepted b ∧ (objectPair.types b).appendage = false := by
  intro b hb
  rcases List.mem_cons.mp hb with hb | hb
  · subst hb
    exact ⟨⟨rfl, [1], .inl rfl, ⟨[1], [1], none⟩, by decide⟩, rfl⟩
  · rw [List.mem_singleton] at hb
    subst hb
    exact ⟨⟨rfl, [0], .inl rfl, ⟨[0], [], none⟩, by decide⟩, rfl⟩

theorem objectPair_base_list :
    (objectPair.UniquePaths [2, 3] ∧ objectPair.ObjectFirst [2, 3]) ∧
      ∀ is js, Path objectPair.parents 2 is 1 → Path objectPair.parents 2 js 1 → is = js :=
  ⟨((base_list_accepted_iff objectPair).1 [2, 3] objectPair_accepted).mp ⟨[1, 2, 3], by decide⟩,
    (base_list_accepted_iff objectPair).2 2 (objectPair_accepted 2 (by decide)).1 rfl 1 (by decide)⟩

/-- `X`, two appendages anchored on it, and an appendage of both. -/
def appendagePair : Hierarchy :=
  .ofTypes (fun c =>
    if c = 0 then ⟨"VTableBase", "VTableBase", true, false, false, false, []⟩
    else if c = 1 then ⟨"X", "X", true, false, false, false, []⟩
    else if c = 2 then ⟨"B", "B", true, false, false, true, [1]⟩
    else if c = 3 then ⟨"C", "C", true, false, false, true, [1]⟩
    else if c = 4 then ⟨"A", "A", true, false, false, true, [2, 3]⟩
    else ⟨"", "", false, false, false, false, []⟩) (by intro c p hp; grind) rfl rfl

/-- An appendage is accepted on its anchor type alone, so it may reach its
anchor along two paths. -/
theorem appendage_two_paths :
    (∀ c < 5, appendagePair.Accepted c) ∧ 1 ≠ appendagePair.vtableBaseType ∧
      ¬ ∀ is js, Path appendagePair.parents 4 is 1 → Path appendagePair.parents 4 js 1 → is = js := by
  refine ⟨?_, by decide, ?_⟩
  · intro c hc
    match c, hc with
    | 0, _ => exact ⟨rfl, [], .inl rfl, ⟨[], [], none⟩, by decide⟩
    | 1, _ => exact ⟨rfl, [], .inl rfl, ⟨[], [], none⟩, by decide⟩
    | 2, _ => exact ⟨rfl, [1], .inl rfl, ⟨[1], [], some 1⟩, by decide⟩
    | 3, _ => exact ⟨rfl, [1], .inl rfl, ⟨[1], [], some 1⟩, by decide⟩
    | 4, _ => exact ⟨rfl, [2, 3], .inl rfl, ⟨[2, 3], [], some 1⟩, by decide⟩
  · intro h
    have := h [0, 0] [1, 0] (.step rfl (.step rfl (.here 1))) (.step rfl (.step rfl (.here 1)))
    cases this

end Hierarchy

end Crack
