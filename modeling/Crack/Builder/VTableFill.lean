import Crack.Builder.VTableEntries

/-!
# What `createAllVTables` builds

For a class whose ancestors are soundly numbered, one table is created for each
of its roots, and a slot above 0 holds the most derived method of the class that
has the slot. Slot 0 is the one that all tables share: the methods of each class
that is added overwrite it in every table, so it is right once the class itself
has been added.
-/
namespace Crack

open Acyclic (Reaches)

namespace BuilderState

variable (h : Hierarchy) (s : BuilderState)

/-- `f` is the most derived method of `c` with slot `n` in the table of `root`. -/
structure Best (c root n f : Nat) : Prop where
  method : s.MethodOf h c f
  table : h.findFirstVTable (s.funcs f).receiverType = some root
  slot : (s.funcs f).vtableSlot = n
  derived : ∀ g, s.MethodOf h c g → h.findFirstVTable (s.funcs g).receiverType = some root →
    (s.funcs g).vtableSlot = n → Reaches h.parents (s.funcs f).owner (s.funcs g).owner

/-- The slot holds the method that `c` has for it, or lies above the table where there is none. -/
def FilledAt (vtb : VTableBuilder) (c root n : Nat) : Prop :=
  (∃ f, (vtb.vtables root).entries[n]? = some (some f) ∧ s.Best h c root n f) ∨
    ((vtb.vtables root).entries[n]? = none ∧
      ∀ g, s.MethodOf h c g → h.findFirstVTable (s.funcs g).receiverType = some root → (s.funcs g).vtableSlot ≠ n)

/-- The tables of the classes `ps` have been added to `vtb`, and the tables that
it had are as they were, above slot 0. -/
structure Built (ps : List Nat) (vtb vtb' : VTableBuilder) : Prop where
  roots : ∀ root, root ∈ vtb'.roots ↔ root ∈ vtb.roots ∨ ∃ p ∈ ps, h.RootOf p root
  nodup : vtb.roots.Nodup → vtb'.roots.Nodup
  frame : ∀ root ∈ vtb.roots, ∀ n, 1 ≤ n →
    (vtb'.vtables root).entries[n]? = (vtb.vtables root).entries[n]?
  filled : ∀ p ∈ ps, ∀ root, h.RootOf p root → ∀ n, 1 ≤ n → s.FilledAt h vtb' p root n

variable {h s}

theorem FilledAt.congr {vtb vtb' : VTableBuilder} {c root n : Nat} (hf : s.FilledAt h vtb c root n)
    (he : (vtb'.vtables root).entries[n]? = (vtb.vtables root).entries[n]?) : s.FilledAt h vtb' c root n := by
  unfold FilledAt at hf ⊢
  rwa [he]

theorem Built.nil (vtb : VTableBuilder) : s.Built h [] vtb vtb := by
  constructor <;> simp

/-- Adding the tables of a class and then those of other classes. -/
theorem Built.cons {p : Nat} {ps : List Nat} {vtb vtb₁ vtb₂ : VTableBuilder} (h₁ : s.Built h [p] vtb vtb₁)
    (h₂ : s.Built h ps vtb₁ vtb₂) : s.Built h (p :: ps) vtb vtb₂ := by
  have hroots₁ : ∀ root, root ∈ vtb₁.roots ↔ root ∈ vtb.roots ∨ h.RootOf p root := by
    intro root
    simpa using h₁.roots root
  constructor
  · intro root
    rw [h₂.roots, hroots₁]
    simp only [List.mem_cons, exists_eq_or_imp]
    tauto
  · exact fun hn => h₂.nodup (h₁.nodup hn)
  · intro root hr n hn
    rw [h₂.frame root ((hroots₁ root).mpr (.inl hr)) n hn, h₁.frame root hr n hn]
  · intro q hq root hr n hn
    rcases List.mem_cons.mp hq with he | hq
    · subst he
      exact (h₁.filled q (by simp) root hr n hn).congr (h₂.frame root ((hroots₁ root).mpr (.inr hr)) n hn)
    · exact h₂.filled q hq root hr n hn

/-- The tables of the bases of `c` are there, and its methods can be added. -/
structure Ready (h : Hierarchy) (s : BuilderState) (c : Nat) (vtb vtb' : VTableBuilder) : Prop where
  roots : ∀ root, root ∈ vtb'.roots ↔ root ∈ vtb.roots ∨ h.RootOf c root
  nodup : vtb.roots.Nodup → vtb'.roots.Nodup
  frame : ∀ root ∈ vtb.roots, ∀ n, 1 ≤ n →
    (vtb'.vtables root).entries[n]? = (vtb.vtables root).entries[n]?
  filled : ∀ p ∈ h.parents c, ∀ root, h.RootOf p root → ∀ n, 1 ≤ n → s.FilledAt h vtb' p root n
  own : h.vtableBaseType ∈ h.parents c → ∀ n, 1 ≤ n → (vtb'.vtables c).entries[n]? = none

section Extend

variable {c : Nat} {vtb vtb' : VTableBuilder}

section

variable (hs : s.SoundFrom h c) {n : Nat}

include hs

/-- A new method of the class, or one with the slot of a method of some base. -/
theorem SoundFrom.own_slot {f : Nat} (hf : f ∈ s.virtuals c) :
    ((s.funcs f).receiverType = c ∧ (s.types c).firstVTableSlot ≤ (s.funcs f).vtableSlot ∧
      (s.funcs f).vtableSlot < (s.types c).nextVTableSlot) ∨
    ∃ p ∈ h.parents c, ∃ g, s.MethodOf h p g ∧ (s.funcs g).receiverType = (s.funcs f).receiverType ∧
      (s.funcs g).vtableSlot = (s.funcs f).vtableSlot := by
  induction f using Nat.strongRecOn with
  | ind f ih =>
    have hn := hs.self.numbered (hs.self.hasVTable hf)
    cases he : (s.funcs f).existing with
    | none => exact .inl (hn.new f hf he)
    | some e =>
      obtain ⟨hlt, hme, hrec, hslot⟩ := hn.override f hf e he
      rw [hrec, hslot]
      rcases methodOf_iff.mp hme with hown | ⟨p, hp, hme⟩
      · exact ih e hlt hown
      · exact .inr ⟨p, hp, e, hme, rfl, rfl⟩

theorem SoundFrom.inTable_iff {f root : Nat} (hf : s.MethodOf h c f) :
    s.InTable h root f ↔ (s.funcs f).receiverType = h.vtableBaseType ∨
      h.findFirstVTable (s.funcs f).receiverType = some root := by
  unfold InTable
  rw [Hierarchy.findFirstVTable_eq_vtableBase (hs.hasVTable_receiver hf)]

/-- The methods of the class with a slot above 0 in a table. -/
theorem SoundFrom.mem_filter_inTable {f root : Nat} :
    f ∈ (s.virtuals c).filter (s.InTable h root) ∧ 1 ≤ s.slotOf f ↔
      f ∈ s.virtuals c ∧ h.findFirstVTable (s.funcs f).receiverType = some root ∧ 1 ≤ s.slotOf f := by
  simp only [List.mem_filter, decide_eq_true_eq, and_assoc]
  constructor
  · rintro ⟨hf, hin, hslot⟩
    refine ⟨hf, ?_, hslot⟩
    have hm : s.MethodOf h c f := methodOf_iff.mpr (.inl hf)
    rcases (hs.inTable_iff hm).mp hin with hr | hr
    · have := (hs.slot_eq_zero_iff hm).mpr hr
      unfold slotOf at hslot
      omega
    · exact hr
  · rintro ⟨hf, hr, hslot⟩
    exact ⟨hf, .inr hr, hslot⟩

theorem Ready.extend_ok (hr : Ready h s c vtb vtb') :
    s.extendVTables h c vtb' = .ok (s.added h vtb' (s.virtuals c)) := by
  rw [extendVTables_eq]
  refine foldlM_add ?_
  intro f hf
  have hm : s.MethodOf h c f := methodOf_iff.mpr (.inl hf)
  by_cases hrec : (s.funcs f).receiverType = h.vtableBaseType
  · exact ⟨h.vtableBaseType, by rw [hrec]; simp, .inl rfl⟩
  · obtain ⟨root, he, hroot⟩ := hs.exists_root hm hrec
    exact ⟨root, he, .inr ((hr.roots root).mpr (.inr hroot))⟩

/-- A method of `c` in a table of the base `p` is a method of `c` itself or of `p`. -/
theorem SoundFrom.method_of_root {p root g : Nat} (hp : p ∈ h.parents c) (hr : h.RootOf p root)
    (hg : s.MethodOf h c g) (ht : h.findFirstVTable (s.funcs g).receiverType = some root) :
    g ∈ s.virtuals c ∨ s.MethodOf h p g := by
  rcases methodOf_iff.mp hg with hown | ⟨q, hq, hg⟩
  · exact .inl hown
  · have hrq := (hs.of_parent hq).rootOf hg ht hr.ne_vtableBase
    have he := hs.self.parent_unique hq hp hrq hr
    subst he
    exact .inr hg

/-- Where the class is a root itself, its table has methods of the class alone. -/
theorem SoundFrom.own_of_root_self (hv : h.vtableBaseType ∈ h.parents c) {g : Nat} (hg : s.MethodOf h c g)
    (ht : h.findFirstVTable (s.funcs g).receiverType = some c) :
    (s.funcs g).receiverType = c ∧ g ∈ s.virtuals c := by
  have hc := h.ne_vtableBase_of_mem hv
  have h₁ := (Hierarchy.rootOf_of_findFirstVTable (hs.hasVTable_receiver hg) ht hc).1.le h.ranked
  have h₂ := (hs.reaches_receiver hg).le h.ranked
  have hrec : (s.funcs g).receiverType = c := by omega
  obtain ⟨m, ho⟩ := hs.origin hg
  obtain ⟨d, hd, hmem⟩ := hg
  have h₃ := ho.reaches.le h.ranked
  rw [(hs d hd).owner g hmem] at h₃
  have h₄ := hd.le h.ranked
  have hde : d = c := by omega
  exact ⟨hrec, hde ▸ hmem⟩

/-- The first base of a class, where it has the same first vtable. -/
theorem SoundFrom.first_base (hc : c ≠ h.vtableBaseType) (hv : h.hasVTable c = true) :
    ∃ base ∈ h.parents c, h.hasVTable base = true ∧
      (s.types c).firstVTableSlot = (s.types base).nextVTableSlot ∧
      (base = h.vtableBaseType ∧ h.findFirstVTable c = some c ∨
        base ≠ h.vtableBaseType ∧ h.findFirstVTable c = h.findFirstVTable base ∧
          h.vtableBaseType ∉ h.parents c) := by
  obtain ⟨base, bases, hp, hvb, hnot⟩ := hs.self.wellBased hv hc
  have hfirst := Hierarchy.WellBased.findFirstVTable hp hvb
  refine ⟨base, by simp [hp], hvb, (hs.self.numbered hv).first base bases hp, ?_⟩
  by_cases hb : base = h.vtableBaseType
  · exact .inl ⟨hb, by rw [hfirst, if_pos hb]⟩
  · exact .inr ⟨hb, by rw [hfirst, if_neg hb], by rw [hp, List.mem_cons, not_or]; exact ⟨fun he => hb he.symm, hnot⟩⟩

/-- Every slot below the next one belongs to a method of the class. -/
theorem SoundFrom.exists_method (hc : c ≠ h.vtableBaseType) (hv : h.hasVTable c = true) (h₁ : 1 ≤ n)
    (h₂ : n < (s.types c).nextVTableSlot) :
    ∃ g, s.MethodOf h c g ∧ h.findFirstVTable (s.funcs g).receiverType = h.findFirstVTable c ∧
      (s.funcs g).vtableSlot = n := by
  induction c using h.ranked.induction with
  | step c ih =>
    have hn := hs.self.numbered hv
    by_cases hlt : (s.types c).firstVTableSlot ≤ n
    · obtain ⟨g, hg, hnew, hslot⟩ := hn.filled n hlt h₂
      exact ⟨g, methodOf_iff.mpr (.inl hg), by rw [(hn.new g hg hnew).1], hslot⟩
    · obtain ⟨base, hb, hvb, hfirst, hcases⟩ := hs.first_base hc hv
      rcases hcases with ⟨hbv, -⟩ | ⟨hbv, hroot, -⟩
      · have := (((hs.of_parent hb).self.numbered hvb).vtableBase hbv).2
        omega
      · obtain ⟨g, hg, ht, hslot⟩ := ih base hb (hs.of_parent hb) hbv hvb (by omega)
        exact ⟨g, hg.of_reaches (.of_parent hb), by rw [hroot]; exact ht, hslot⟩

/-- No method with a slot in the first vtable has the next slot or a larger one. -/
theorem SoundFrom.slot_lt_next (hc : c ≠ h.vtableBaseType) (hv : h.hasVTable c = true) {g : Nat}
    (hg : s.MethodOf h c g) (ht : h.findFirstVTable (s.funcs g).receiverType = h.findFirstVTable c) :
    (s.funcs g).vtableSlot < (s.types c).nextVTableSlot := by
  induction c using h.ranked.induction generalizing g with
  | step c ih =>
    have hn := hs.self.numbered hv
    have hle := hn.le
    obtain ⟨root, hfr, hroot⟩ := Hierarchy.findFirstVTable_rootOf hc hv
    obtain ⟨base, hb, hvb, hfirst, hcases⟩ := hs.first_base hc hv
    have hbase : ∀ p ∈ h.parents c, ∀ g, s.MethodOf h p g →
        h.findFirstVTable (s.funcs g).receiverType = h.findFirstVTable c →
        (s.funcs g).vtableSlot < (s.types c).firstVTableSlot := by
      intro p hp g hg ht
      have hrp := (hs.of_parent hp).rootOf hg (by rw [ht, hfr]) hroot.ne_vtableBase
      rcases hcases with ⟨-, hself⟩ | ⟨hbv, hfb, -⟩
      · rw [hself, Option.some.injEq] at hfr
        subst hfr
        have := hrp.1.le h.ranked
        have := h.ranked _ p hp
        omega
      · have hrb := Hierarchy.rootOf_of_findFirstVTable hvb (by rw [← hfb, hfr]) hroot.ne_vtableBase
        have he := hs.self.parent_unique hp hb hrp hrb
        subst he
        rw [hfirst]
        exact ih p hp (hs.of_parent hp) hbv hvb hg (by rw [ht, hfb])
    rcases methodOf_iff.mp hg with hown | ⟨p, hp, hg⟩
    · rcases hs.own_slot hown with ⟨-, -, hlt⟩ | ⟨p, hp, e, he, hrec, hslot⟩
      · exact hlt
      · have := hbase p hp e he (by rw [hrec]; exact ht)
        omega
    · have := hbase p hp g hg ht
      omega

/-- Once the methods of the class are added, its own table is filled without a gap. -/
theorem Ready.filled_self (hr : Ready h s c vtb vtb') (hv : h.vtableBaseType ∈ h.parents c) (hn : 1 ≤ n)
    (hno : ∀ f ∈ s.virtuals c, h.findFirstVTable (s.funcs f).receiverType = some c → (s.funcs f).vtableSlot ≠ n) :
    s.FilledAt h (s.added h vtb' (s.virtuals c)) c c n := by
  have hroot : h.RootOf c c := ⟨.refl c, hv⟩
  have hmem : c ∈ vtb'.roots := (hr.roots c).mpr (.inr hroot)
  refine .inr ⟨?_, fun g hg ht => hno g (hs.own_of_root_self hv hg ht).2 ht⟩
  rw [added_vtables hmem, List.getElem?_eq_none_iff, VTableInfo.length_writes_le_iff]
  refine ⟨List.getElem?_eq_none_iff.mp (hr.own hv n hn), ?_⟩
  intro f hf
  by_contra hle
  obtain ⟨hf, ht, -⟩ := hs.mem_filter_inTable.mp ⟨hf, by omega⟩
  have hne := hno f hf ht
  -- a larger slot belongs to a new method of the class, and then so does `n`
  have hrec := (hs.own_of_root_self hv (methodOf_iff.mpr (.inl hf)) ht).1
  have hb := hs.slot_bounds (methodOf_iff.mpr (.inl hf))
  rw [hrec] at hb
  have hvt := h.hasVTable_of_parent hv h.hasVTable_vtableBase
  have hc := h.ne_vtableBase_of_mem hv
  obtain ⟨base, hbase, hvb, hfirst, hcases⟩ := hs.first_base hc hvt
  have hbv : base = h.vtableBaseType := by
    rcases hcases with ⟨hbv, -⟩ | ⟨-, -, hnot⟩
    · exact hbv
    · exact absurd hv hnot
  have hone := (((hs.of_parent hbase).self.numbered hvb).vtableBase hbv).2
  have hnum := hs.self.numbered hvt
  unfold slotOf at hle
  obtain ⟨g, hg, hnew, hslot⟩ := hnum.filled n (by omega) (by omega)
  rw [hrec] at ht
  exact hno g hg (by rw [(hnum.new g hg hnew).1]; exact ht) hslot

/-- Once the methods of the class are added, the table of a root of a base is
filled for the class, where the class has no method for the slot itself. -/
theorem Ready.filled_base (hr : Ready h s c vtb vtb') {p root : Nat} (hp : p ∈ h.parents c)
    (hroot : h.RootOf p root) (hn : 1 ≤ n)
    (hno : ∀ f ∈ s.virtuals c, h.findFirstVTable (s.funcs f).receiverType = some root → (s.funcs f).vtableSlot ≠ n) :
    s.FilledAt h (s.added h vtb' (s.virtuals c)) c root n := by
  have hmem : root ∈ vtb'.roots := (hr.roots root).mpr (.inr (hroot.of_parent hp))
  have hfs : ∀ f ∈ (s.virtuals c).filter (s.InTable h root), s.slotOf f ≠ n := by
    intro f hf he
    obtain ⟨hf, ht, -⟩ := hs.mem_filter_inTable.mp ⟨hf, by omega⟩
    exact hno f hf ht he
  unfold FilledAt
  rw [added_vtables hmem]
  rcases hr.filled p hp root hroot n hn with ⟨f, he, hbest⟩ | ⟨he, hnone⟩
  · refine .inl ⟨f, ?_, hbest.method.of_reaches (.of_parent hp), hbest.table, hbest.slot, ?_⟩
    · rw [VTableInfo.getElem?_writes_of_ne _ hfs (List.getElem?_eq_some_iff.mp he).1]
      exact he
    · intro g hg ht hslot
      rcases hs.method_of_root hp hroot hg ht with hown | hg
      · exact absurd hslot (hno g hown ht)
      · exact hbest.derived g hg ht hslot
  · refine .inr ⟨?_, ?_⟩
    · rw [List.getElem?_eq_none_iff, VTableInfo.length_writes_le_iff]
      refine ⟨List.getElem?_eq_none_iff.mp he, ?_⟩
      intro f hf
      by_contra hle
      obtain ⟨hf', ht, -⟩ := hs.mem_filter_inTable.mp ⟨hf, by omega⟩
      have hne : n < (s.funcs f).vtableSlot := by
        have := hfs f hf
        unfold slotOf at this hle
        omega
      rcases hs.own_slot hf' with ⟨hrec, -, hlt⟩ | ⟨q, hq, g, hg, hrec, hslot⟩
      · -- a new method continues the slots of the first base, all of which are taken
        have hv := hs.self.hasVTable hf'
        have hc := h.ne_vtableBase_of_mem hp
        have hnum := hs.self.numbered hv
        rw [hrec] at ht
        by_cases hfirst : (s.types c).firstVTableSlot ≤ n
        · obtain ⟨g, hg, hnew, hslot⟩ := hnum.filled n hfirst (by omega)
          exact hno g hg (by rw [(hnum.new g hg hnew).1]; exact ht) hslot
        · obtain ⟨base, hb, hvb, hfb, hcases⟩ := hs.first_base hc hv
          rcases hcases with ⟨-, hself⟩ | ⟨hbv, hfbase, -⟩
          · rw [hself, Option.some.injEq] at ht
            have := hroot.1.le h.ranked
            have := h.ranked c p hp
            omega
          · have hrb := Hierarchy.rootOf_of_findFirstVTable hvb (by rw [← hfbase, ht]) hroot.ne_vtableBase
            have hpb := hs.self.parent_unique hp hb hroot hrb
            subst hpb
            obtain ⟨g, hg, htg, hslot⟩ := (hs.of_parent hp).exists_method hbv hvb hn (by omega)
            exact hnone g hg (by rw [htg, ← hfbase, ht]) hslot
      · have hrq := (hs.of_parent hq).rootOf hg (by rw [hrec]; exact ht) hroot.ne_vtableBase
        have hqp := hs.self.parent_unique hq hp hrq hroot
        subst hqp
        have hlen := List.getElem?_eq_none_iff.mp he
        rcases hr.filled q hq root hroot (s.funcs f).vtableSlot (by omega) with ⟨f', he', -⟩ | ⟨-, hnone'⟩
        · have := (List.getElem?_eq_some_iff.mp he').1
          omega
        · exact hnone' g hg (by rw [hrec]; exact ht) hslot
    · intro g hg ht hslot
      rcases hs.method_of_root hp hroot hg ht with hown | hg
      · exact hno g hown ht hslot
      · exact hnone g hg ht hslot

theorem Ready.filled_all (hr : Ready h s c vtb vtb') {root : Nat} (hroot : h.RootOf c root) (hn : 1 ≤ n) :
    s.FilledAt h (s.added h vtb' (s.virtuals c)) c root n := by
  by_cases hex : ∃ f ∈ s.virtuals c, h.findFirstVTable (s.funcs f).receiverType = some root ∧
      (s.funcs f).vtableSlot = n
  · obtain ⟨f, hf, ht, hslot⟩ := hex
    have hmem := (hr.roots root).mpr (.inr hroot)
    have hfs := (hs.mem_filter_inTable.mpr ⟨hf, ht, by unfold slotOf; omega⟩).1
    obtain ⟨g, hg, hgs, he⟩ := @VTableInfo.getElem?_writes_of_mem s.slotOf _ (vtb'.vtables root) _ hfs
    have hgn : s.slotOf g = n := by unfold slotOf at hgs ⊢; omega
    obtain ⟨hg, htg, -⟩ := hs.mem_filter_inTable.mp ⟨hg, by omega⟩
    refine .inl ⟨g, ?_, methodOf_iff.mpr (.inl hg), htg, hgn, ?_⟩
    · rw [added_vtables hmem]
      rw [← hgs, hgn] at he
      exact he
    · intro e he _ _
      obtain ⟨d, hd, he⟩ := he
      rw [hs.self.owner g hg, (hs d hd).owner e he]
      exact hd
  · have hno : ∀ f ∈ s.virtuals c, h.findFirstVTable (s.funcs f).receiverType = some root →
        (s.funcs f).vtableSlot ≠ n := fun f hf ht hslot => hex ⟨f, hf, ht, hslot⟩
    rcases Hierarchy.rootOf_iff.mp hroot with ⟨he, hv⟩ | ⟨p, hp, hrp⟩
    · subst he
      exact hr.filled_self hs hv hn hno
    · exact hr.filled_base hs hp hrp hn hno

/-- Slot 0 of every table holds the `oper class` of the class, or an override of it there. -/
theorem added_slot_zero (hc : c ≠ h.vtableBaseType) (hv : h.hasVTable c = true) {root : Nat}
    (hmem : root ∈ vtb'.roots) :
    ∃ f ∈ s.virtuals c, (s.funcs f).receiverType = h.vtableBaseType ∧
      ((s.added h vtb' (s.virtuals c)).vtables root).entries[0]? = some (some f) := by
  obtain ⟨f, hf, hrec⟩ := hs.self.operClass hv hc
  have hm : s.MethodOf h c f := methodOf_iff.mpr (.inl hf)
  have hz := (hs.slot_eq_zero_iff hm).mpr hrec
  have hfs : f ∈ (s.virtuals c).filter (s.InTable h root) := by
    rw [List.mem_filter]
    exact ⟨hf, by simpa using (hs.inTable_iff hm).mpr (.inl hrec)⟩
  obtain ⟨g, hg, hgs, he⟩ := @VTableInfo.getElem?_writes_of_mem s.slotOf _ (vtb'.vtables root) _ hfs
  have hgm := List.mem_of_mem_filter hg
  unfold slotOf at hgs he
  rw [hz] at hgs he
  exact ⟨g, hgm, (hs.slot_eq_zero_iff (methodOf_iff.mpr (.inl hgm))).mp hgs, by rw [added_vtables hmem]; exact he⟩

theorem Ready.built (hr : Ready h s c vtb vtb') (hfresh : ∀ root, h.RootOf c root → root ∉ vtb.roots) :
    s.Built h [c] vtb (s.added h vtb' (s.virtuals c)) := by
  constructor
  · intro root
    simpa using hr.roots root
  · exact hr.nodup
  · intro root hmem n hn
    have hmem' := (hr.roots root).mpr (.inl hmem)
    have hfs : ∀ f ∈ (s.virtuals c).filter (s.InTable h root), s.slotOf f = 0 := by
      intro f hf
      by_contra hne
      obtain ⟨hf, ht, -⟩ := hs.mem_filter_inTable.mp ⟨hf, by omega⟩
      have hm : s.MethodOf h c f := methodOf_iff.mpr (.inl hf)
      have hrv : root ≠ h.vtableBaseType := by
        intro he
        subst he
        have := (hs.slot_eq_zero_iff hm).mpr ((Hierarchy.findFirstVTable_eq_vtableBase (hs.hasVTable_receiver hm)).mp ht)
        exact hne this
      exact hfresh root (hs.rootOf hm ht hrv) hmem
    rw [← hr.frame root hmem n hn, added_vtables hmem']
    by_cases hlt : n < (vtb'.vtables root).entries.length
    · exact VTableInfo.getElem?_writes_of_ne _ (fun f hf => by have := hfs f hf; omega) hlt
    · have hnone : (vtb'.vtables root).entries[n]? = none := List.getElem?_eq_none_iff.mpr (by omega)
      rw [hnone, List.getElem?_eq_none_iff, VTableInfo.length_writes_le_iff]
      exact ⟨by omega, fun f hf => by have := hfs f hf; omega⟩
  · intro p hp root hroot n hn
    rw [List.mem_singleton] at hp
    subst hp
    exact hr.filled_all hs hroot hn

end

end Extend

theorem foldlM_createBaseVTables_congr {r r' : Nat → VTableBuilder → String → Bool → Except String VTableBuilder}
    {this : Nat} {name : String} {ps : List Nat} (hp : ∀ p ∈ ps, r p = r' p) (st : VTableBuilder × Bool) :
    ps.foldlM (createBaseVTables h r this name) st = ps.foldlM (createBaseVTables h r' this name) st := by
  induction ps generalizing st with
  | nil => rfl
  | cons p ps ih =>
    rw [List.foldlM_cons, List.foldlM_cons]
    have he : createBaseVTables h r this name st p = createBaseVTables h r' this name st p := by
      unfold createBaseVTables
      rw [hp p (by simp)]
    rw [he]
    congr 1
    funext st'
    exact ih (fun q hq => hp q (by simp [hq])) st'

theorem createAllVTables_eq (c : Nat) :
    s.createAllVTables h c = s.createAllVTablesStep h (s.createAllVTables h) c := by
  refine Acyclic.fix_eq h.ranked ?_ c
  intro c r r' hr
  funext vtb name first
  unfold createAllVTablesStep
  simp only [foldlM_createBaseVTables_congr hr]

/-- `createAllVTables` adds the tables of the class to any builder that has none of them yet. -/
def Creates (h : Hierarchy) (s : BuilderState) (c : Nat) : Prop :=
  ∀ vtb name first, (∀ root, h.RootOf c root → root ∉ vtb.roots) →
    ∃ vtb', s.createAllVTables h c vtb name first = .ok vtb' ∧ s.Built h [c] vtb vtb' ∧
      vtb'.firstVTable = (if first then h.findFirstVTable c else vtb.firstVTable) ∧
      ∀ root ∈ vtb'.roots, ∃ f ∈ s.virtuals c, (s.funcs f).receiverType = h.vtableBaseType ∧
        (vtb'.vtables root).entries[0]? = some (some f)

/-- A base without a vtable is passed over. -/
theorem createBaseVTables_plain {c p : Nat} {name : String} {vtb : VTableBuilder} {first : Bool}
    (hv : h.hasVTable p = false) :
    createBaseVTables h (s.createAllVTables h) c name (vtb, first) p = .ok (vtb, false) ∧ s.Built h [p] vtb vtb := by
  have hp : p ≠ h.vtableBaseType := by
    intro hp
    rw [hp, Hierarchy.hasVTable_vtableBase] at hv
    cases hv
  constructor
  · simp [createBaseVTables, hp, hv, bind, Except.bind, pure, Except.pure]
  · have hno : ∀ root, ¬ h.RootOf p root := by
      intro root hr
      rw [hr.hasVTable] at hv
      cases hv
    constructor
    · simp [hno]
    · exact id
    · exact fun _ _ _ _ => rfl
    · intro q hq root hr
      rw [List.mem_singleton] at hq
      subst hq
      exact absurd hr (hno root)

theorem createBaseVTables_virtual {c p : Nat} {name : String} {vtb : VTableBuilder} {first : Bool}
    (hp : p ≠ h.vtableBaseType) (hv : h.hasVTable p = true) (hc : Creates h s p)
    (hfresh : ∀ root, h.RootOf p root → root ∉ vtb.roots) :
    ∃ vtb', createBaseVTables h (s.createAllVTables h) c name (vtb, first) p = .ok (vtb', false) ∧
      s.Built h [p] vtb vtb' ∧ vtb'.firstVTable = if first then h.findFirstVTable p else vtb.firstVTable := by
  obtain ⟨vtb', he, hb, hf, -⟩ :=
    hc vtb (if first then name else name ++ ":" ++ (h.types p).displayName) first hfresh
  refine ⟨vtb', ?_, hb, hf⟩
  simp only [createBaseVTables, hp, hv, if_false, if_true, bind, Except.bind, pure, Except.pure, he]

/-- The bases after the first one are added in turn; the first vtable stays. -/
theorem foldlM_createBaseVTables {c : Nat} {name : String} {ps : List Nat} {vtb : VTableBuilder}
    (hps : ∀ p ∈ ps, p ≠ h.vtableBaseType ∧ (h.hasVTable p = true → Creates h s p))
    (hapart : ps.Pairwise h.Apart) (hfresh : ∀ p ∈ ps, ∀ root, h.RootOf p root → root ∉ vtb.roots) :
    ∃ vtb', ps.foldlM (createBaseVTables h (s.createAllVTables h) c name) (vtb, false) = .ok (vtb', false) ∧
      s.Built h ps vtb vtb' ∧ vtb'.firstVTable = vtb.firstVTable := by
  induction ps generalizing vtb with
  | nil => exact ⟨vtb, rfl, .nil vtb, rfl⟩
  | cons p ps ih =>
    have hone : ∃ vtb₁, createBaseVTables h (s.createAllVTables h) c name (vtb, false) p = .ok (vtb₁, false) ∧
        s.Built h [p] vtb vtb₁ ∧ vtb₁.firstVTable = vtb.firstVTable := by
      cases hv : h.hasVTable p with
      | false =>
        obtain ⟨he, hb⟩ := createBaseVTables_plain hv
        exact ⟨vtb, he, hb, rfl⟩
      | true =>
        obtain ⟨vtb₁, he, hb, hf⟩ :=
          createBaseVTables_virtual (hps p (by simp)).1 hv ((hps p (by simp)).2 hv) (hfresh p (by simp))
        exact ⟨vtb₁, he, hb, by simpa using hf⟩
    obtain ⟨vtb₁, he₁, hb₁, hf₁⟩ := hone
    rw [List.pairwise_cons] at hapart
    obtain ⟨vtb₂, he₂, hb₂, hf₂⟩ := @ih vtb₁ (fun q hq => hps q (by simp [hq])) hapart.2 (by
      intro q hq root hr hmem
      rcases (hb₁.roots root).mp hmem with hmem | ⟨p', hp', hr'⟩
      · exact hfresh q (by simp [hq]) root hr hmem
      · rw [List.mem_singleton] at hp'
        subst hp'
        exact hr.ne_vtableBase (hapart.1 q hq root hr'.1 hr.1))
    refine ⟨vtb₂, ?_, hb₁.cons hb₂, by rw [hf₂, hf₁]⟩
    rw [List.foldlM_cons, he₁]
    exact he₂

/-- The bases of a class that has `VTableBase` as its first base. -/
theorem ready_of_root {c : Nat} {bases : List Nat} {name : String} {vtb : VTableBuilder} {first : Bool}
    (hp : h.parents c = h.vtableBaseType :: bases) (hnot : h.vtableBaseType ∉ bases)
    (hps : ∀ p ∈ bases, h.hasVTable p = true → Creates h s p) (hapart : bases.Pairwise h.Apart)
    (hfresh : ∀ root, h.RootOf c root → root ∉ vtb.roots) :
    ∃ vtb', (h.parents c).foldlM (createBaseVTables h (s.createAllVTables h) c name) (vtb, first) =
        .ok (vtb', false) ∧ Ready h s c vtb vtb' ∧
      vtb'.firstVTable = if first then some c else vtb.firstVTable := by
  have hroot : h.RootOf c c := ⟨.refl c, by simp [hp]⟩
  have hcv := hfresh c hroot
  have hmem : ∀ p ∈ bases, p ∈ h.parents c := fun p hpb => by simp [hp, hpb]
  let vtb₁ : VTableBuilder := ⟨vtb.roots ++ [c], Function.update vtb.vtables c ⟨name, []⟩,
    if first then some c else vtb.firstVTable⟩
  have he₁ : createBaseVTables h (s.createAllVTables h) c name (vtb, first) h.vtableBaseType =
      .ok (vtb₁, false) := by
    simp [createBaseVTables, VTableBuilder.createVTable, hcv, bind, Except.bind, pure, Except.pure, vtb₁]
  obtain ⟨vtb₂, he₂, hb, hf⟩ := @foldlM_createBaseVTables h s c name bases vtb₁
    (fun p hpb => ⟨fun he => hnot (he ▸ hpb), hps p hpb⟩) hapart (by
      intro p hpb root hr hm
      rcases List.mem_append.mp hm with hm | hm
      · exact hfresh root (hr.of_parent (hmem p hpb)) hm
      · rw [List.mem_singleton] at hm
        subst hm
        have := hr.1.le h.ranked
        have := h.ranked _ p (hmem p hpb)
        omega)
  have hroots : ∀ root, root ∈ vtb₁.roots ↔ root ∈ vtb.roots ∨ root = c := by simp [vtb₁]
  refine ⟨vtb₂, ?_, ?_, hf⟩
  · rw [hp, List.foldlM_cons, he₁]
    exact he₂
  · constructor
    · intro root
      rw [hb.roots, hroots, Hierarchy.rootOf_iff, hp]
      simp only [List.mem_cons, true_or, and_true, exists_eq_or_imp, Hierarchy.not_rootOf_vtableBase, false_or]
      tauto
    · intro hn
      refine hb.nodup ?_
      change (vtb.roots ++ [c]).Nodup
      rw [List.nodup_append']
      exact ⟨hn, by simp, by simpa using hcv⟩
    · intro root hm n hn
      rw [hb.frame root ((hroots root).mpr (.inl hm)) n hn]
      have hne : root ≠ c := fun he => hcv (he ▸ hm)
      simp [vtb₁, Function.update_of_ne hne]
    · intro p hpc root hr n hn
      rw [hp, List.mem_cons] at hpc
      rcases hpc with he | hpb
      · subst he
        exact absurd hr (Hierarchy.not_rootOf_vtableBase root)
      · exact hb.filled p hpb root hr n hn
    · intro _ n hn
      rw [hb.frame c ((hroots c).mpr (.inr rfl)) n hn]
      simp [vtb₁]

/-- The bases of a class that is not a root. -/
theorem ready_of_base {c base : Nat} {bases : List Nat} {name : String} {vtb : VTableBuilder} {first : Bool}
    (hp : h.parents c = base :: bases) (hvb : h.hasVTable base = true) (hnot : h.vtableBaseType ∉ h.parents c)
    (hps : ∀ p ∈ h.parents c, h.hasVTable p = true → Creates h s p) (hapart : (h.parents c).Pairwise h.Apart)
    (hfresh : ∀ root, h.RootOf c root → root ∉ vtb.roots) :
    ∃ vtb', (h.parents c).foldlM (createBaseVTables h (s.createAllVTables h) c name) (vtb, first) =
        .ok (vtb', false) ∧ Ready h s c vtb vtb' ∧
      vtb'.firstVTable = if first then h.findFirstVTable base else vtb.firstVTable := by
  have hmem : base ∈ h.parents c := by simp [hp]
  have hbv : base ≠ h.vtableBaseType := fun he => hnot (he ▸ hmem)
  obtain ⟨vtb₁, he₁, hb₁, hf₁⟩ := @createBaseVTables_virtual h s c base name vtb first hbv hvb (hps base hmem hvb)
    (fun root hr => hfresh root (hr.of_parent hmem))
  have hpw := hapart
  rw [hp, List.pairwise_cons] at hpw
  obtain ⟨vtb₂, he₂, hb₂, hf₂⟩ := @foldlM_createBaseVTables h s c name bases vtb₁
    (fun p hpb => ⟨fun he => hnot (by simp [hp, ← he, hpb]), hps p (by simp [hp, hpb])⟩) hpw.2 (by
      intro p hpb root hr hm
      rcases (hb₁.roots root).mp hm with hm | ⟨q, hq, hrq⟩
      · exact hfresh root (hr.of_parent (by simp [hp, hpb])) hm
      · rw [List.mem_singleton] at hq
        subst hq
        exact hr.ne_vtableBase (hpw.1 p hpb root hrq.1 hr.1))
  have hb := hb₁.cons hb₂
  refine ⟨vtb₂, ?_, ?_, by rw [hf₂, hf₁]⟩
  · rw [hp, List.foldlM_cons, he₁]
    exact he₂
  · constructor
    · intro root
      rw [hb.roots, Hierarchy.rootOf_iff, ← hp]
      simp only [hnot, and_false, false_or]
    · exact hb.nodup
    · exact hb.frame
    · rw [hp]
      exact hb.filled
    · exact fun hv => absurd hv hnot

/-- The tables of a class are created and filled, whatever tables the builder has for other roots. -/
theorem SoundFrom.creates {c : Nat} (hs : s.SoundFrom h c) (hc : c ≠ h.vtableBaseType) (hv : h.hasVTable c = true) :
    Creates h s c := by
  induction c using h.ranked.induction with
  | step c ih =>
    intro vtb name first hfresh
    obtain ⟨base, bases, hp, hvb, hnot⟩ := hs.self.wellBased hv hc
    have hps : ∀ p ∈ h.parents c, p ≠ h.vtableBaseType → h.hasVTable p = true → Creates h s p :=
      fun p hpc hpv hvp => ih p hpc (hs.of_parent hpc) hpv hvp
    have hfirst := Hierarchy.WellBased.findFirstVTable hp hvb
    have hready : ∃ vtb', (h.parents c).foldlM (createBaseVTables h (s.createAllVTables h) c name) (vtb, first) =
        .ok (vtb', false) ∧ Ready h s c vtb vtb' ∧
        vtb'.firstVTable = if first then h.findFirstVTable c else vtb.firstVTable := by
      by_cases hb : base = h.vtableBaseType
      · rw [hb] at hp
        rw [if_pos hb] at hfirst
        have hapart := hs.self.apart
        rw [hp, List.pairwise_cons] at hapart
        rw [hfirst]
        exact ready_of_root hp hnot
          (fun p hpb => hps p (by simp [hp, hpb]) (fun he => hnot (he ▸ hpb))) hapart.2 hfresh
      · rw [if_neg hb] at hfirst
        have hnotc : h.vtableBaseType ∉ h.parents c := by
          rw [hp, List.mem_cons, not_or]
          exact ⟨fun he => hb he.symm, hnot⟩
        rw [hfirst]
        exact ready_of_base hp hvb hnotc (fun p hpc => hps p hpc (fun he => hnotc (he ▸ hpc)))
          hs.self.apart hfresh
    obtain ⟨vtb', he, hr, hf⟩ := hready
    refine ⟨s.added h vtb' (s.virtuals c), ?_, hr.built hs hfresh, hf, ?_⟩
    · rw [createAllVTables_eq]
      unfold createAllVTablesStep
      simp only [hc, if_false, bind, Except.bind, he, Bool.false_eq_true, false_and]
      exact hr.extend_ok hs
    · exact fun root hmem => added_slot_zero hs hc hv hmem

end BuilderState

end Crack
