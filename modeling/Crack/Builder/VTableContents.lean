import Crack.Builder.VTableFill

/-!
# The tables of a class are right

What a reader of the tables relies on: each root has one table, each slot of a
table belongs to one new method and holds its most derived override, and the
first vtable has as many slots as `nextVTableSlot` says.
-/
namespace Crack

open Acyclic (Reaches)

namespace BuilderState

variable (h : Hierarchy) (s : BuilderState)

/-- `m` takes the slot `n` of the table of `root` in an object of the class `c`. -/
structure OwnsSlot (c root n m : Nat) : Prop where
  method : s.MethodOf h c m
  new : (s.funcs m).existing = none
  table : s.InTable h root m
  slot : (s.funcs m).vtableSlot = n

structure RightVTables (c : Nat) (vtb : VTableBuilder) : Prop where
  /-- No table is created twice, and the tables are those of the roots. -/
  roots_nodup : vtb.roots.Nodup
  roots : ∀ root, root ∈ vtb.roots ↔ h.RootOf c root
  /-- No slot below the size is empty. -/
  full : ∀ root ∈ vtb.roots, ∀ n, n < (vtb.vtables root).entries.length →
    ∃ f, (vtb.vtables root).entries[n]? = some (some f)
  mostDerived : ∀ root ∈ vtb.roots, ∀ n f, (vtb.vtables root).entries[n]? = some (some f) →
    s.MethodOf h c f ∧ ∃ m, s.OwnsSlot h c root n m ∧ s.Overrides f m ∧
      ∀ g, s.MethodOf h c g → s.Overrides g m → Reaches h.parents (s.funcs f).owner (s.funcs g).owner
  /-- Every virtual method has its slot in the table. -/
  complete : ∀ root ∈ vtb.roots, ∀ n m, s.OwnsSlot h c root n m → n < (vtb.vtables root).entries.length
  distinct : ∀ root ∈ vtb.roots, ∀ n m m', s.OwnsSlot h c root n m → s.OwnsSlot h c root n m' → m = m'
  first : ∃ root ∈ vtb.roots, vtb.firstVTable = some root ∧ h.findFirstVTable c = some root ∧
    (vtb.vtables root).entries.length = (s.types c).nextVTableSlot

variable {h s} {c f m : Nat}

theorem Overrides.unique {f m m' : Nat} (h₁ : s.Overrides f m) (h₂ : s.Overrides f m') : m = m' := by
  induction h₁ with
  | new hm =>
    cases h₂ with
    | new => rfl
    | step he => rw [hm] at he; cases he
  | step he _ ih =>
    cases h₂ with
    | new hm => rw [he] at hm; cases hm
    | step he' h₂ =>
      rw [he, Option.some.injEq] at he'
      subst he'
      exact ih h₂

theorem Origin.receiver (hs : s.SoundFrom h c) (hf : s.MethodOf h c f) (ho : Origin h s f m) :
    (s.funcs m).receiverType = (s.funcs f).receiverType := by
  have hr := hs _ (hs.reaches_receiver hf)
  exact ((hr.numbered (hr.hasVTable ho.mem)).new m ho.mem ho.new).1

/-- What overrides a new method has its receiver type and its slot. -/
theorem SoundFrom.same_slot (hs : s.SoundFrom h c) (hf : s.MethodOf h c f) (ho : s.Overrides f m) :
    (s.funcs f).receiverType = (s.funcs m).receiverType ∧ (s.funcs f).vtableSlot = (s.funcs m).vtableSlot := by
  obtain ⟨m', ho'⟩ := hs.origin hf
  have he := ho.unique ho'.overrides
  subst he
  exact ⟨(ho'.receiver hs hf).symm, ho'.slot.symm⟩

/-- A new method is declared by its receiver type. -/
theorem SoundFrom.mem_of_new {c m : Nat} (hs : s.SoundFrom h c) (hm : s.MethodOf h c m)
    (hnew : (s.funcs m).existing = none) : m ∈ s.virtuals (s.funcs m).receiverType := by
  obtain ⟨d, hd, hmem⟩ := hm
  have hsd := hs d hd
  rw [((hsd.numbered (hsd.hasVTable hmem)).new m hmem hnew).1]
  exact hmem

/-- Classes with the same first vtable give out different slots. -/
theorem SoundFrom.new_distinct {c root m m' : Nat} (hs : s.SoundFrom h c) (hne : root ≠ h.vtableBaseType)
    (hm : s.MethodOf h c m) (hm' : s.MethodOf h c m') (hnew : (s.funcs m).existing = none)
    (hnew' : (s.funcs m').existing = none) (ht : h.findFirstVTable (s.funcs m).receiverType = some root)
    (ht' : h.findFirstVTable (s.funcs m').receiverType = some root)
    (hslot : (s.funcs m).vtableSlot = (s.funcs m').vtableSlot) : m = m' := by
  -- a new method of the class has a larger slot than any method of a base in that table
  have hbelow : ∀ c, s.SoundFrom h c → ∀ m m', s.MethodOf h c m' → m ∈ s.virtuals c →
      (s.funcs m).existing = none → (s.funcs m').existing = none → m' ∉ s.virtuals c →
      h.findFirstVTable (s.funcs m).receiverType = some root →
      h.findFirstVTable (s.funcs m').receiverType = some root →
      (s.funcs m').vtableSlot < (s.funcs m).vtableSlot := by
    intro c hs m m' hm' hmem hnew hnew' hmem' ht ht'
    have hv := hs.self.hasVTable hmem
    obtain ⟨hrec, hle, -⟩ := (hs.self.numbered hv).new m hmem hnew
    rw [hrec] at ht
    rcases methodOf_iff.mp hm' with hown | ⟨p, hp, hm'⟩
    · exact absurd hown hmem'
    · have hc := h.ne_vtableBase_of_mem hp
      have hrp := (hs.of_parent hp).rootOf hm' ht' hne
      obtain ⟨base, hb, hvb, hfirst, hcases⟩ := hs.first_base hc hv
      rcases hcases with ⟨-, hself⟩ | ⟨hbv, hfb, -⟩
      · rw [hself, Option.some.injEq] at ht
        subst ht
        have := hrp.1.le h.ranked
        have := h.ranked _ p hp
        omega
      · rw [hfb] at ht
        have hrb := Hierarchy.rootOf_of_findFirstVTable hvb ht hne
        have he := hs.self.parent_unique hp hb hrp hrb
        subst he
        have := (hs.of_parent hp).slot_lt_next hbv hvb hm' (by rw [ht', ht])
        omega
  induction c using h.ranked.induction with
  | step c ih =>
    by_cases h₁ : m ∈ s.virtuals c <;> by_cases h₂ : m' ∈ s.virtuals c
    · exact (hs.self.numbered (hs.self.hasVTable h₁)).distinct m h₁ m' h₂ hnew hnew' hslot
    · have := hbelow c hs m m' hm' h₁ hnew hnew' h₂ ht ht'
      omega
    · have := hbelow c hs m' m hm h₂ hnew' hnew h₁ ht' ht
      omega
    · obtain ⟨p, hp, hmp⟩ := (methodOf_iff.mp hm).resolve_left h₁
      obtain ⟨q, hq, hmq⟩ := (methodOf_iff.mp hm').resolve_left h₂
      have he := hs.self.parent_unique hp hq ((hs.of_parent hp).rootOf hmp ht hne)
        ((hs.of_parent hq).rootOf hmq ht' hne)
      subst he
      exact ih p hp (hs.of_parent hp) hmp hmq

/-- A method in a table has slot 0 and comes from `VTableBase`, or has a larger slot and comes from the root. -/
theorem OwnsSlot.cases {c root n m : Nat} (hs : s.SoundFrom h c) (ho : s.OwnsSlot h c root n m) :
    n = 0 ∧ (s.funcs m).receiverType = h.vtableBaseType ∨
      1 ≤ n ∧ h.findFirstVTable (s.funcs m).receiverType = some root := by
  have hz := hs.slot_eq_zero_iff ho.method
  rw [ho.slot] at hz
  by_cases hn : n = 0
  · exact .inl ⟨hn, hz.mp hn⟩
  · refine .inr ⟨by omega, ?_⟩
    rcases (hs.inTable_iff ho.method).mp ho.table with hr | hr
    · exact absurd (hz.mpr hr) hn
    · exact hr

/-- The tables that a new builder gets for a class are right. -/
theorem SoundFrom.rightVTables {c : Nat} {name : String} (hs : s.SoundFrom h c) (hc : c ≠ h.vtableBaseType)
    (hv : h.hasVTable c = true) :
    ∃ vtb, s.createAllVTables h c .empty name true = .ok vtb ∧ s.RightVTables h c vtb := by
  obtain ⟨vtb, he, hb, hf, hzero⟩ := hs.creates hc hv .empty name true (fun root _ => List.not_mem_nil)
  have hroots : ∀ root, root ∈ vtb.roots ↔ h.RootOf c root := by
    intro root
    rw [hb.roots]
    simp [VTableBuilder.empty]
  have hfilled : ∀ root ∈ vtb.roots, ∀ n, 1 ≤ n → s.FilledAt h vtb c root n :=
    fun root hr n hn => hb.filled c (by simp) root ((hroots root).mp hr) n hn
  have hcomplete : ∀ root ∈ vtb.roots, ∀ n m, s.OwnsSlot h c root n m → n < (vtb.vtables root).entries.length := by
    intro root hr n m ho
    rcases ho.cases hs with ⟨hn, -⟩ | ⟨hn, ht⟩
    · obtain ⟨f, -, -, hf⟩ := hzero root hr
      subst hn
      exact (List.getElem?_eq_some_iff.mp hf).1
    · rcases hfilled root hr n hn with ⟨f, hf, -⟩ | ⟨-, hno⟩
      · exact (List.getElem?_eq_some_iff.mp hf).1
      · exact absurd ho.slot (hno m ho.method ht)
  refine ⟨vtb, he, hb.nodup List.nodup_nil, hroots, ?_, ?_, hcomplete, ?_, ?_⟩
  · intro root hr n hn
    cases n with
    | zero =>
      obtain ⟨f, -, -, hf⟩ := hzero root hr
      exact ⟨f, hf⟩
    | succ n =>
      rcases hfilled root hr (n + 1) (by omega) with ⟨f, hf, -⟩ | ⟨hnone, -⟩
      · exact ⟨f, hf⟩
      · rw [List.getElem?_eq_none_iff] at hnone
        omega
  · intro root hr n f hf
    have hmethod : s.MethodOf h c f ∧ (s.funcs f).vtableSlot = n ∧ s.InTable h root f ∧
        ∀ g, s.MethodOf h c g → (s.funcs g).receiverType = (s.funcs f).receiverType →
          (s.funcs g).vtableSlot = n → Reaches h.parents (s.funcs f).owner (s.funcs g).owner := by
      cases n with
      | zero =>
        obtain ⟨f', hmem, hrec, hf'⟩ := hzero root hr
        rw [hf] at hf'
        cases hf'
        have hm : s.MethodOf h c f := methodOf_iff.mpr (.inl hmem)
        refine ⟨hm, (hs.slot_eq_zero_iff hm).mpr hrec, (hs.inTable_iff hm).mpr (.inl hrec), ?_⟩
        rintro g ⟨d, hd, hg⟩ _ _
        rw [hs.self.owner f hmem, (hs d hd).owner g hg]
        exact hd
      | succ n =>
        rcases hfilled root hr (n + 1) (by omega) with ⟨f', hf', hbest⟩ | ⟨hnone, -⟩
        · rw [hf] at hf'
          cases hf'
          refine ⟨hbest.method, hbest.slot, .inr hbest.table, ?_⟩
          intro g hg hrec hslot
          exact hbest.derived g hg (by rw [hrec]; exact hbest.table) hslot
        · rw [hnone] at hf
          cases hf
    obtain ⟨hm, hslot, htable, hder⟩ := hmethod
    obtain ⟨m, ho⟩ := hs.origin hm
    have hrec := ho.receiver hs hm
    refine ⟨hm, m, ⟨⟨_, hs.reaches_receiver hm, ho.mem⟩, ho.new, ?_, by rw [ho.slot, hslot]⟩, ho.overrides, ?_⟩
    · unfold InTable at htable ⊢
      rwa [hrec]
    · intro g hg hgm
      obtain ⟨hgr, hgs⟩ := hs.same_slot hg hgm
      exact hder g hg (by rw [hgr, hrec]) (by rw [hgs, ho.slot, hslot])
  · intro root hr n m m' ho ho'
    rcases ho.cases hs with ⟨hn, hrec⟩ | ⟨hn, ht⟩
    · rcases ho'.cases hs with ⟨-, hrec'⟩ | ⟨hn', -⟩
      · have hmem := hs.mem_of_new ho.method ho.new
        have hmem' := hs.mem_of_new ho'.method ho'.new
        rw [hrec] at hmem
        rw [hrec'] at hmem'
        have hvb := hs h.vtableBaseType (by rw [← hrec]; exact hs.reaches_receiver ho.method)
        exact (hvb.numbered h.hasVTable_vtableBase).distinct m hmem m' hmem' ho.new ho'.new
          (by rw [ho.slot, ho'.slot])
      · omega
    · rcases ho'.cases hs with ⟨hn', -⟩ | ⟨-, ht'⟩
      · omega
      · exact hs.new_distinct ((hroots root).mp hr).ne_vtableBase ho.method ho'.method ho.new ho'.new ht ht'
          (by rw [ho.slot, ho'.slot])
  · obtain ⟨root, hfr, hroot⟩ := Hierarchy.findFirstVTable_rootOf hc hv
    have hr := (hroots root).mpr hroot
    refine ⟨root, hr, by simpa [hfr] using hf, hfr, ?_⟩
    have hnext : 1 ≤ (s.types c).nextVTableSlot := by
      have := hs.one_le_first hc hv
      have := (hs.self.numbered hv).le
      omega
    have hle : (s.types c).nextVTableSlot ≤ (vtb.vtables root).entries.length := by
      obtain ⟨f, -, -, hf⟩ := hzero root hr
      have hz := (List.getElem?_eq_some_iff.mp hf).1
      by_contra hlt
      obtain ⟨g, hg, hgt, hslot⟩ := hs.exists_method hc hv (n := (vtb.vtables root).entries.length)
        (by omega) (by omega)
      rcases hfilled root hr (vtb.vtables root).entries.length (by omega) with ⟨f', hf', -⟩ | ⟨-, hno⟩
      · have := (List.getElem?_eq_some_iff.mp hf').1
        omega
      · exact hno g hg (by rw [hgt, hfr]) hslot
    have hge : (vtb.vtables root).entries.length ≤ (s.types c).nextVTableSlot := by
      rcases hfilled root hr (s.types c).nextVTableSlot hnext with ⟨f, -, hbest⟩ | ⟨hnone, -⟩
      · have := hs.slot_lt_next hc hv hbest.method (by rw [hbest.table, hfr])
        rw [hbest.slot] at this
        omega
      · exact List.getElem?_eq_none_iff.mp hnone
    omega

end BuilderState

/-- `emit` accepts tables that have no empty entry and a first one among them. -/
theorem VTableBuilder.emit_eq {vtb : VTableBuilder} {root : Nat} (hf : vtb.firstVTable = some root)
    (hfull : ∀ root ∈ vtb.roots, ∀ n, n < (vtb.vtables root).entries.length →
      ∃ f, (vtb.vtables root).entries[n]? = some (some f)) : vtb.emit = .ok vtb := by
  have hany : vtb.roots.any (fun root => (vtb.vtables root).entries.any Option.isNone) = false := by
    rw [List.any_eq_false]
    intro root hr
    rw [Bool.not_eq_true, List.any_eq_false]
    intro x hx
    obtain ⟨n, hn⟩ := List.mem_iff_getElem?.mp hx
    obtain ⟨f, hf⟩ := hfull root hr n (List.getElem?_eq_some_iff.mp hn).1
    rw [hn, Option.some.injEq] at hf
    simp [hf]
  unfold emit
  simp [hany, hf]

namespace BuilderState

variable {h : Hierarchy} {s : BuilderState}

theorem SoundFrom.emitVTables {c : Nat} (hs : s.SoundFrom h c) (hc : c ≠ h.vtableBaseType)
    (hv : h.hasVTable c = true) : ∃ vtb, s.emitVTables h c = .ok vtb ∧ s.RightVTables h c vtb := by
  obtain ⟨vtb, he, hr⟩ := @SoundFrom.rightVTables h s c (".vtable." ++ (h.types c).displayName) hs hc hv
  obtain ⟨root, -, hf, -, -⟩ := hr.first
  refine ⟨vtb, ?_, hr⟩
  unfold BuilderState.emitVTables
  rw [he]
  exact VTableBuilder.emit_eq hf hr.full

/-- The table of `VTableBase` itself has `oper class` alone. -/
theorem SoundFrom.emitVTables_vtableBase (hs : s.SoundFrom h h.vtableBaseType) :
    ∃ vtb, s.emitVTables h h.vtableBaseType = .ok vtb := by
  have hnum := hs.self.numbered h.hasVTable_vtableBase
  have hslots := hnum.vtableBase rfl
  have hrec : ∀ f ∈ s.virtuals h.vtableBaseType, (s.funcs f).receiverType = h.vtableBaseType ∧ s.slotOf f = 0 := by
    intro f hf
    have hm : s.MethodOf h h.vtableBaseType f := methodOf_iff.mpr (.inl hf)
    have hr := h.eq_vtableBase_of_reaches (hs.reaches_receiver hm)
    exact ⟨hr, (hs.slot_eq_zero_iff hm).mpr hr⟩
  let vtb : VTableBuilder := ⟨[h.vtableBaseType], Function.update (fun _ => ⟨"", []⟩) h.vtableBaseType
    ⟨".vtable." ++ (h.types h.vtableBaseType).displayName, []⟩, some h.vtableBaseType⟩
  have hext : s.extendVTables h h.vtableBaseType vtb = .ok (s.added h vtb (s.virtuals h.vtableBaseType)) := by
    rw [extendVTables_eq]
    refine foldlM_add ?_
    intro f hf
    exact ⟨h.vtableBaseType, by rw [(hrec f hf).1]; simp, .inl rfl⟩
  have hcreate : s.createAllVTables h h.vtableBaseType .empty
      (".vtable." ++ (h.types h.vtableBaseType).displayName) true =
      .ok (s.added h vtb (s.virtuals h.vtableBaseType)) := by
    rw [createAllVTables_eq]
    unfold createAllVTablesStep
    have hnil : h.parents h.vtableBaseType = [] := h.vtableBase_parents
    simp only [if_true, hnil, List.foldlM_nil, VTableBuilder.createVTable, VTableBuilder.empty, List.not_mem_nil,
      if_false, bind, Except.bind, pure, Except.pure, ne_eq, not_true_eq_false, and_false]
    exact hext
  refine ⟨s.added h vtb (s.virtuals h.vtableBaseType), ?_⟩
  unfold BuilderState.emitVTables
  rw [hcreate]
  refine @VTableBuilder.emit_eq _ h.vtableBaseType rfl ?_
  intro root hr n hn
  have hre : root = h.vtableBaseType := by simpa [vtb] using hr
  subst hre
  have hmem : h.vtableBaseType ∈ vtb.roots := by simp [vtb]
  rw [added_vtables hmem] at hn ⊢
  have hle : ((vtb.vtables h.vtableBaseType).writes s.slotOf
      ((s.virtuals h.vtableBaseType).filter (s.InTable h h.vtableBaseType))).entries.length ≤ 1 := by
    rw [VTableInfo.length_writes_le_iff]
    refine ⟨by simp [vtb], ?_⟩
    intro f hf
    have := (hrec f (List.mem_of_mem_filter hf)).2
    omega
  obtain ⟨f, hf, -, -⟩ := hnum.filled 0 (by omega) (by omega)
  have hfs : f ∈ (s.virtuals h.vtableBaseType).filter (s.InTable h h.vtableBaseType) := by
    rw [List.mem_filter]
    exact ⟨hf, by simp [InTable, (hrec f hf).1]⟩
  obtain ⟨g, -, -, he⟩ := @VTableInfo.getElem?_writes_of_mem s.slotOf _ (vtb.vtables h.vtableBaseType) _ hfs
  rw [(hrec f hf).2] at he
  have hn0 : n = 0 := by omega
  subst hn0
  exact ⟨g, he⟩

end BuilderState

end Crack
