import Crack.Builder.VTableInvariant

/-!
# Runs

Every orderly call goes through and keeps the invariant. So along an orderly run
no assertion fails, and each class has right tables as soon as it is complete.
The calls that are not orderly are those where the numbering and the filling of
the tables disagree.
-/
namespace Crack

open Acyclic (Reaches)

namespace BuilderState

variable (h : Hierarchy) (s : BuilderState)

/-- A class with a vtable begins with a base that has one, and lists `VTableBase`
once. No new virtual method is declared in a class after another class has begun
with it as the first base. No virtual method is aliased under its own name. At
the end of a class at most one of its bases is incomplete. -/
def Orderly : Event → Prop
  | .beginClass => h.virtual s.nextClass = true → s.nextClass ≠ h.vtableBaseType → h.WellBased s.nextClass
  | .method _ virtualized existing => virtualized = true → existing = none →
      ∀ this ∈ s.stack.head?, ∀ c, c < s.nextClass → h.virtual c = true → (h.parents c).head? ≠ some this
  | .aliasDef name funcs => ∀ f ∈ funcs, (s.funcs f).virtualized = true → (s.funcs f).name ≠ name
  | .endClass => ∀ this ∈ s.stack.head?,
      ((h.parents this).filter (fun base => !(s.types base).complete)).length ≤ 1

/-- The states that the parser reaches by calls that satisfy `P`. -/
inductive Run (P : BuilderState → Event → Prop) : BuilderState → Prop where
  | initial : Run P initial
  | step {s s' : BuilderState} {e : Event} (hr : Run P s) (ha : s.Accepts h e) (hp : P s e)
      (hs : s.step h e = .ok s') : Run P s'

structure Inv : Prop where
  declared : s.Declared h
  completed : s.Completed h []

variable {h s} {s' s'' : BuilderState} {P : BuilderState → Event → Prop} {e : Event} {c : Nat}

theorem inv_initial : initial.Inv h := by
  refine ⟨⟨⟨?_, ?_, ?_, ?_, ?_⟩, ?_, ?_, ?_, ?_, ?_, ?_, ?_⟩, ?_, ?_, ?_, ?_, ?_, ?_⟩ <;>
    simp [initial, BTypeDef.new, virtuals]

theorem Grows.trans (h₁ : Grows s s') (h₂ : Grows s' s'') : Grows s s'' := by
  refine ⟨Nat.le_trans h₁.nextFunc h₂.nextFunc, ?_, fun c f hf => h₂.virtuals c f (h₁.virtuals c f hf)⟩
  intro f hf
  rw [h₂.funcs f (by have := h₁.nextFunc; omega), h₁.funcs f hf]

theorem SameClass.trans (h₁ : SameClass s s' c) (h₂ : SameClass s' s'' c) : SameClass s s'' c :=
  ⟨fun f => (h₂.virtuals f).trans (h₁.virtuals f), h₂.first.trans h₁.first, h₂.next.trans h₁.next⟩

/-- A declaration in an open class leaves completion as it is. -/
theorem Completed.of_declaration (hi : s.Completed h []) (hd : Defined s) (hg : Grows s s')
    (hcomp : ∀ c, (s'.types c).complete = (s.types c).complete)
    (hchild : ∀ c, (s'.types c).incompleteChildren = (s.types c).incompleteChildren)
    (hvt : ∀ c, (s.types c).complete = true → (s'.types c).vtables = (s.types c).vtables)
    (hn : s.nextClass ≤ s'.nextClass) (hstack : ∀ c, c ∈ s.stack → c ∈ s'.stack)
    (hopen : ∀ c, c ∈ s'.stack → c ∈ s.stack ∨ s.nextClass ≤ c)
    (hnew : ∀ c, c < s'.nextClass → c < s.nextClass ∨ c ∈ s'.stack)
    (hsame : ∀ c, c < s.nextClass → c ∉ s.stack → SameClass s s' c) : s'.Completed h [] := by
  have hout : ∀ c, c < s.nextClass → c ∉ s.stack → c ∉ s'.stack := by
    intro c hc hns hs
    rcases hopen c hs with hs | hge
    · exact hns hs
    · omega
  constructor
  · intro c hc
    rw [hcomp] at hc
    obtain ⟨hlt, hns⟩ := hi.complete_lt c hc
    exact ⟨by omega, hout c hlt hns⟩
  · intro c hc p hp
    rw [hcomp] at hc ⊢
    exact hi.complete_parents c hc p hp
  · intro c hc
    rw [hcomp] at hc
    rw [hchild]
    exact hi.complete_children c hc
  · intro d c hc
    rw [hchild] at hc
    obtain ⟨hlt, hns, hdp, hp⟩ := hi.children d c hc
    simp only [hcomp]
    exact ⟨by omega, hout c hlt hns, hdp, hp⟩
  · intro c hc
    rw [hcomp]
    simp only [hchild]
    rcases hnew c hc with hlt | hs
    · exact (hi.pending c hlt).imp_left (hstack c)
    · exact .inl hs
  · intro c hc hv hne
    rw [hcomp] at hc
    obtain ⟨vtb, he, hr⟩ := hi.tables c hc hv hne
    refine ⟨vtb, (hvt c hc).trans he, hr.transfer hd hg ?_⟩
    intro d hdr
    obtain ⟨hlt, hns⟩ := hi.complete_lt d (hi.reaches hdr hc)
    exact hsame d hlt hns

section Open

variable {this : Nat} {stack : List Nat} {name : String}

theorem Inv.method (hi : s.Inv h) (hst : s.stack = this :: stack) {virtualized : Bool} {existing : Option Nat}
    (ha : s.Accepts h (.method name virtualized existing)) (ho : s.Orderly h (.method name virtualized existing)) :
    (s.emitMethod this name virtualized existing).Inv h := by
  obtain ⟨hname, this', stack', hst', hvirt, hex⟩ := ha
  rw [hst, List.cons.injEq] at hst'
  obtain ⟨he, -⟩ := hst'
  subst he
  have hd := hi.declared.defined
  have hg := @grows_emitMethod s this name virtualized existing hd
  have hmem : this ∈ s.stack := by simp [hst]
  have hthis := hi.declared.stack_lt this hmem
  have hdef := @Defined.emitMethod s this name virtualized existing hd hthis (fun e he => (hex e he).1)
  have hsame : ∀ c, c ≠ this → SameClass s (s.emitMethod this name virtualized existing) c :=
    fun c hc => sameClass_emitMethod hd hc
  refine ⟨⟨hdef, ?_, ?_, ?_, ?_, ?_, ?_, ?_⟩, ?_⟩
  · exact hi.declared.stack_lt
  · exact hi.declared.stack_nodup
  · exact hi.declared.vtableBase_not_mem
  · exact hi.declared.accepted
  · intro c hc happ
    have hsound := hi.declared.sound c hc happ
    by_cases hct : c = this
    · subst hct
      have hne : c ≠ h.vtableBaseType := fun he => hi.declared.vtableBase_not_mem (he ▸ hmem)
      refine ⟨hsound.apart, hdef.owner c, ?_, hsound.wellBased, ?_, ?_⟩
      · intro hv
        rw [List.eq_nil_iff_forall_not_mem]
        intro f hf
        rcases (mem_virtuals_emitMethod hd).mp hf with hf | ⟨-, hvf⟩
        · rw [hsound.plain hv] at hf
          cases hf
        · rw [hvirt hvf] at hv
          cases hv
      · intro hv
        refine ⟨(hsound.numbered hv).toSlots.emitMethod hd ?_, fun he => absurd he hne⟩
        intro e he
        obtain ⟨hlt, hve, hr⟩ := hex e he
        exact ⟨hlt, _, hr, hd.mem e hlt hve⟩
      · intro hv hne
        obtain ⟨f, hf, hrec⟩ := hsound.operClass hv hne
        exact ⟨f, hg.virtuals c f hf, by rw [hg.funcs f (hd.lt hf)]; exact hrec⟩
    · refine hsound.transfer hd hg (hsame c hct) ?_
      intro hv base hbase
      by_cases hb : base = this
      · subst hb
        rw [emitMethod_types_self]
        simp only
        rw [if_neg]
        rintro ⟨hvf, hnone⟩
        exact ho hvf hnone base (by simp [hst]) c hc (virtual_iff.mpr ⟨hv, happ⟩) hbase
      · rw [emitMethod_types_of_ne hb]
  · intro c hc hv
    by_cases hct : c = this
    · subst hct
      rw [emitMethod_types_self]
      simp only
      rw [lookup_addFunc_ne hname.symm]
      exact hi.declared.operClass c hc hv
    · rw [emitMethod_types_of_ne hct]
      exact hi.declared.operClass c hc hv
  · intro c fs hfs
    have hlook : (s.types c).defs.lookup "oper class" = some fs := by
      by_cases hct : c = this
      · subst hct
        rw [emitMethod_types_self] at hfs
        simp only at hfs
        rwa [lookup_addFunc_ne hname.symm] at hfs
      · rwa [emitMethod_types_of_ne hct] at hfs
    obtain ⟨f, hf, hmemf, hrec⟩ := hi.declared.operClass_receiver c fs hlook
    exact ⟨f, hf, hg.virtuals c f hmemf, by rw [hg.funcs f (hd.lt hmemf)]; exact hrec⟩
  · refine hi.completed.of_declaration hd hg ?_ ?_ ?_ (Nat.le_refl _) (fun c hc => hc) (fun c hc => .inl hc)
      (fun c hc => .inl hc) ?_
    · intro c
      by_cases hct : c = this
      · subst hct; simp
      · rw [emitMethod_types_of_ne hct]
    · intro c
      by_cases hct : c = this
      · subst hct; simp
      · rw [emitMethod_types_of_ne hct]
    · intro c _
      by_cases hct : c = this
      · subst hct; simp
      · rw [emitMethod_types_of_ne hct]
    · exact fun c _ hns => hsame c (fun he => hns (he ▸ hmem))

theorem Inv.aliasDef (hi : s.Inv h) (hst : s.stack = this :: stack) {funcs : List Nat}
    (ha : s.Accepts h (.aliasDef name funcs)) (ho : s.Orderly h (.aliasDef name funcs)) :
    (s.emitAlias this name funcs).Inv h := by
  obtain ⟨hname, -, ha⟩ := ha
  obtain ⟨hlook, hfs⟩ := ha this (by simp [hst])
  have hd := hi.declared.defined
  have hmem : this ∈ s.stack := by simp [hst]
  -- the aliased functions are no methods of the class
  have hsame : ∀ c f,
      f ∈ (s.emitAlias this name funcs).virtuals c ↔
        f ∈ s.virtuals c := by
    intro c f
    unfold emitAlias
    rw [mem_virtuals, mem_virtuals]
    by_cases hc : c = this
    · subst hc
      rw [setType_types_self, setType_funcs]
      simp only
      rw [exists_mem_addAlias hlook (fun o => (s.funcs f).virtualized = true ∧ (s.funcs f).name = o)]
      constructor
      · rintro (hf | ⟨hf, hv, hn⟩)
        · exact hf
        · exact absurd hn (ho f hf hv)
      · exact .inl
    · rw [setType_types_of_ne hc, setType_funcs]
  have hfield : ∀ c, ((s.emitAlias this name funcs).types c).firstVTableSlot = (s.types c).firstVTableSlot ∧
      ((s.emitAlias this name funcs).types c).nextVTableSlot = (s.types c).nextVTableSlot ∧
      ((s.emitAlias this name funcs).types c).complete = (s.types c).complete ∧
      ((s.emitAlias this name funcs).types c).incompleteChildren = (s.types c).incompleteChildren ∧
      ((s.emitAlias this name funcs).types c).vtables = (s.types c).vtables ∧
      ((s.emitAlias this name funcs).types c).defs.lookup "oper class" =
        (s.types c).defs.lookup "oper class" := by
    intro c
    unfold emitAlias
    by_cases hc : c = this
    · subst hc
      simp [lookup_addAlias_ne hname.symm]
    · rw [setType_types_of_ne hc]
      simp
  have hclass : ∀ c, SameClass s (s.emitAlias this name funcs) c :=
    fun c => ⟨hsame c, (hfield c).1, (hfield c).2.1⟩
  have hg : Grows s (s.emitAlias this name funcs) :=
    ⟨Nat.le_refl _, fun _ _ => rfl, fun c f hf => (hsame c f).mpr hf⟩
  refine ⟨⟨⟨?_, hd.existing, ?_, hd.owner_lt, ?_⟩, hi.declared.stack_lt, hi.declared.stack_nodup,
    hi.declared.vtableBase_not_mem, hi.declared.accepted, ?_, ?_, ?_⟩, ?_⟩
  · intro c o hoc f hf
    unfold emitAlias at hoc
    by_cases hc : c = this
    · subst hc
      have hex : ∃ o ∈ addAlias name funcs (s.types c).defs, f ∈ o.2 ∧ True := by
        rw [setType_types_self] at hoc
        exact ⟨o, hoc, hf, trivial⟩
      rcases (exists_mem_addAlias hlook (fun _ => True)).mp hex with ⟨o, ho, hf, -⟩ | ⟨hf, -⟩
      · exact hd.defs c o ho f hf
      · exact hfs f hf
    · rw [setType_types_of_ne hc] at hoc
      exact hd.defs c o hoc f hf
  · exact fun c f hf => hd.owner c f ((hsame c f).mp hf)
  · exact fun f hf hv => (hsame _ f).mpr (hd.mem f hf hv)
  · intro c hc happ
    exact (hi.declared.sound c hc happ).transfer hd hg (hclass c) (fun _ base _ => (hfield base).2.1)
  · intro c hc hv
    rw [(hfield c).2.2.2.2.2]
    exact hi.declared.operClass c hc hv
  · intro c fs hfs
    rw [(hfield c).2.2.2.2.2] at hfs
    obtain ⟨f, hf, hmemf, hrec⟩ := hi.declared.operClass_receiver c fs hfs
    exact ⟨f, hf, (hsame c f).mpr hmemf, hrec⟩
  · exact hi.completed.of_declaration hd hg (fun c => (hfield c).2.2.1) (fun c => (hfield c).2.2.2.1)
      (fun c _ => (hfield c).2.2.2.2.1) (Nat.le_refl _) (fun c hc => hc) (fun c hc => .inl hc)
      (fun c hc => .inl hc) (fun c _ _ => hclass c)

end Open

theorem lookUpNoArgs_eq (name : String) (c : Nat) :
    s.lookUpNoArgs h name c =
      match (s.types c).defs.lookup name with
      | some funcs => funcs.head?
      | none => (h.parents c).findSome? (s.lookUpNoArgs h name) := by
  refine Acyclic.fix_eq h.ranked ?_ c
  intro c r r' hr
  dsimp only
  split
  · rfl
  · generalize h.parents c = ps at hr
    induction ps with
    | nil => rfl
    | cons p ps ih => rw [List.findSome?_cons, List.findSome?_cons, hr p (by simp), ih (fun q hq => hr q (by simp [hq]))]

theorem lookUpNoArgs_spec {name : String} {c e : Nat} (he : s.lookUpNoArgs h name c = some e) :
    ∃ d fs, Reaches h.parents c d ∧ (s.types d).defs.lookup name = some fs ∧ fs.head? = some e := by
  induction c using h.ranked.induction with
  | step c ih =>
    rw [lookUpNoArgs_eq] at he
    split at he
    · rename_i fs hfs
      exact ⟨c, fs, .refl c, hfs, he⟩
    · obtain ⟨p, hp, he⟩ := List.exists_of_findSome?_eq_some he
      obtain ⟨d, fs, hd, hfs, hh⟩ := ih p hp he
      exact ⟨d, fs, (Acyclic.Reaches.of_parent hp).trans hd, hfs, hh⟩

section Begin

theorem emitBeginClass_types_of_ne {n c : Nat} (hc : c ≠ n) : (s.emitBeginClass h n).types c = s.types c := by
  unfold emitBeginClass
  exact Function.update_of_ne hc _ _

variable {n : Nat}

@[simp] theorem emitBeginClass_types_self :
    (s.emitBeginClass h n).types n = .new (match (h.parents n).find? h.hasVTable with
      | some baseWithVTable => (s.types baseWithVTable).nextVTableSlot
      | none => 0) := by
  unfold emitBeginClass
  exact Function.update_self _ _ _

@[simp] theorem emitBeginClass_funcs : (s.emitBeginClass h n).funcs = s.funcs := rfl
@[simp] theorem emitBeginClass_nextFunc : (s.emitBeginClass h n).nextFunc = s.nextFunc := rfl
@[simp] theorem emitBeginClass_stack : (s.emitBeginClass h n).stack = n :: s.stack := rfl
@[simp] theorem emitBeginClass_nextClass : (s.emitBeginClass h n).nextClass = s.nextClass + 1 := rfl

theorem virtuals_emitBeginClass_self : (s.emitBeginClass h n).virtuals n = [] := by
  simp [virtuals, BTypeDef.new]

theorem virtuals_emitBeginClass_of_ne {n c : Nat} (hc : c ≠ n) :
    (s.emitBeginClass h n).virtuals c = s.virtuals c :=
  virtuals_congr rfl (by rw [emitBeginClass_types_of_ne hc])

theorem sameClass_emitBeginClass {n c : Nat} (hc : c ≠ n) : SameClass s (s.emitBeginClass h n) c := by
  refine ⟨fun f => by rw [virtuals_emitBeginClass_of_ne hc], ?_, ?_⟩ <;> rw [emitBeginClass_types_of_ne hc]

/-- The class that begins is a new one. -/
theorem Defined.virtuals_nextClass (hd : Defined s) : s.virtuals s.nextClass = [] := by
  rw [List.eq_nil_iff_forall_not_mem]
  intro f hf
  have h₁ := hd.owner _ f hf
  have h₂ := hd.owner_lt f (hd.lt hf)
  omega

theorem grows_emitBeginClass (hd : Defined s) : Grows s (s.emitBeginClass h s.nextClass) := by
  refine ⟨Nat.le_refl _, fun _ _ => rfl, ?_⟩
  intro c f hf
  by_cases hc : c = s.nextClass
  · subst hc
    rw [hd.virtuals_nextClass] at hf
    cases hf
  · rwa [virtuals_emitBeginClass_of_ne hc]

theorem Defined.emitBeginClass (hd : Defined s) : Defined (s.emitBeginClass h s.nextClass) := by
  constructor
  · intro c o ho f hf
    by_cases hc : c = s.nextClass
    · subst hc
      rw [emitBeginClass_types_self] at ho
      cases ho
    · rw [emitBeginClass_types_of_ne hc] at ho
      exact hd.defs c o ho f hf
  · exact hd.existing
  · intro c f hf
    by_cases hc : c = s.nextClass
    · subst hc
      rw [virtuals_emitBeginClass_self] at hf
      cases hf
    · rw [virtuals_emitBeginClass_of_ne hc] at hf
      exact hd.owner c f hf
  · intro f hf
    have := hd.owner_lt f hf
    simp only [emitBeginClass_funcs, emitBeginClass_nextClass]
    omega
  · exact fun f hf hv => (grows_emitBeginClass hd).virtuals _ f (hd.mem f hf hv)

/-- A class that has begun is incomplete and waits for nothing. -/
theorem Inv.begin_completed (hi : s.Inv h) (hg : Grows s s')
    (hother : ∀ c, c ≠ s.nextClass → (s'.types c).complete = (s.types c).complete ∧
      (s'.types c).incompleteChildren = (s.types c).incompleteChildren ∧
      (s'.types c).vtables = (s.types c).vtables ∧ SameClass s s' c)
    (hself : (s'.types s.nextClass).complete = false ∧ (s'.types s.nextClass).incompleteChildren = [])
    (hn : s'.nextClass = s.nextClass + 1) (hst : s'.stack = s.nextClass :: s.stack) : s'.Completed h [] := by
  have hnc : (s.types s.nextClass).complete = false := by
    by_contra hc
    rw [Bool.not_eq_false] at hc
    have := (hi.completed.complete_lt _ hc).1
    omega
  have hnk : (s.types s.nextClass).incompleteChildren = [] := by
    rw [List.eq_nil_iff_forall_not_mem]
    intro k hk
    obtain ⟨hlt, -, hp, -⟩ := hi.completed.children _ k hk
    have := h.ranked k _ hp
    omega
  refine hi.completed.of_declaration hi.declared.defined hg ?_ ?_ ?_ (by omega) ?_ ?_ ?_ ?_
  · intro c
    by_cases hc : c = s.nextClass
    · subst hc; rw [hself.1, hnc]
    · exact (hother c hc).1
  · intro c
    by_cases hc : c = s.nextClass
    · subst hc; rw [hself.2, hnk]
    · exact (hother c hc).2.1
  · intro c hcc
    have := (hi.completed.complete_lt c hcc).1
    exact (hother c (by omega)).2.2.1
  · intro c hc
    rw [hst]
    exact List.mem_cons_of_mem _ hc
  · intro c hc
    rw [hst] at hc
    rcases List.mem_cons.mp hc with hc | hc
    · subst hc; exact .inr (Nat.le_refl _)
    · exact .inl hc
  · intro c hc
    rw [hst]
    by_cases hcn : c = s.nextClass
    · subst hcn; exact .inr List.mem_cons_self
    · exact .inl (by omega)
  · exact fun c hc _ => (hother c (by omega)).2.2.2

/-- A class without vtables begins. -/
theorem Inv.begin_plain (hi : s.Inv h) (hne : s.nextClass ≠ h.vtableBaseType) (hacc : h.Accepted s.nextClass)
    (hv : h.virtual s.nextClass = false) : (s.emitBeginClass h s.nextClass).Inv h := by
  have hd := hi.declared.defined
  have hdef : Defined (s.emitBeginClass h s.nextClass) := hd.emitBeginClass
  have hg : Grows s (s.emitBeginClass h s.nextClass) := grows_emitBeginClass hd
  refine ⟨⟨hdef, ?_, ?_, ?_, ?_, ?_, ?_, ?_⟩, ?_⟩
  · intro c hc
    rcases List.mem_cons.mp hc with hc | hc
    · subst hc; exact Nat.lt_succ_self _
    · exact Nat.lt_succ_of_lt (hi.declared.stack_lt c hc)
  · refine List.nodup_cons.mpr ⟨?_, hi.declared.stack_nodup⟩
    intro hm
    have := hi.declared.stack_lt _ hm
    omega
  · intro hm
    rcases List.mem_cons.mp hm with hm | hm
    · exact hne hm.symm
    · exact hi.declared.vtableBase_not_mem hm
  · intro c hc hcv
    rw [emitBeginClass_nextClass] at hc
    by_cases hcn : c = s.nextClass
    · subst hcn; exact hacc
    · exact hi.declared.accepted c (by omega) hcv
  · intro c hc ha
    rw [emitBeginClass_nextClass] at hc
    by_cases hcn : c = s.nextClass
    · subst hcn
      have hnv : h.hasVTable s.nextClass = false := by
        simpa [Hierarchy.virtual, ha] using hv
      refine ⟨hacc.apart ha, hdef.owner _, fun _ => virtuals_emitBeginClass_self, ?_, ?_, ?_⟩ <;>
        · intro hv'
          rw [hnv] at hv'
          cases hv'
    · refine (hi.declared.sound c (by omega) ha).transfer hd hg (sameClass_emitBeginClass hcn) ?_
      intro _ base hb
      have := h.ranked c base (List.mem_of_mem_head? hb)
      rw [emitBeginClass_types_of_ne (by omega)]
  · intro c hc hcv
    rw [emitBeginClass_nextClass] at hc
    by_cases hcn : c = s.nextClass
    · subst hcn
      rw [hv] at hcv
      cases hcv
    · rw [emitBeginClass_types_of_ne hcn]
      exact hi.declared.operClass c (by omega) hcv
  · intro c fs hfs
    by_cases hcn : c = s.nextClass
    · subst hcn
      rw [emitBeginClass_types_self] at hfs
      cases hfs
    · rw [emitBeginClass_types_of_ne hcn] at hfs
      rw [virtuals_emitBeginClass_of_ne hcn]
      exact hi.declared.operClass_receiver c fs hfs
  · refine hi.begin_completed hg ?_ (by simp [BTypeDef.new]) rfl rfl
    intro c hc
    refine ⟨?_, ?_, ?_, sameClass_emitBeginClass hc⟩ <;> rw [emitBeginClass_types_of_ne hc]

/-- The `oper class` that a new class overrides is the one of its first base. -/
theorem Inv.exists_operClass (hi : s.Inv h) {n base : Nat} {bases : List Nat} (hn : n = s.nextClass)
    (hp : h.parents n = base :: bases) (hv : h.virtual base = true) :
    ∃ e, (s.emitBeginClass h n).lookUpNoArgs h "oper class" n = some e ∧ e < s.nextFunc ∧
      (s.emitBeginClass h n).MethodOf h n e ∧ (s.funcs e).receiverType = h.vtableBaseType := by
  have hnil : ((s.emitBeginClass h n).types n).defs.lookup "oper class" = none := by simp [BTypeDef.new]
  have hbn := h.ranked n base (by simp [hp])
  have hsome : ∃ e, (s.emitBeginClass h n).lookUpNoArgs h "oper class" n = some e := by
    rw [lookUpNoArgs_eq, hnil]
    have hb : ∃ e, (s.emitBeginClass h n).lookUpNoArgs h "oper class" base = some e := by
      rw [lookUpNoArgs_eq, emitBeginClass_types_of_ne (by omega)]
      cases hl : (s.types base).defs.lookup "oper class" with
      | none => exact absurd hl (hi.declared.operClass base (by omega) hv)
      | some fs =>
        obtain ⟨f, hf, -⟩ := hi.declared.operClass_receiver base fs hl
        exact ⟨f, by simp [hf]⟩
    obtain ⟨e, he⟩ := hb
    refine ⟨e, ?_⟩
    rw [hp]
    simp [he]
  obtain ⟨e, he⟩ := hsome
  obtain ⟨d, fs, hd, hfs, hh⟩ := lookUpNoArgs_spec he
  have hdn : d ≠ n := by
    intro hdn
    subst hdn
    rw [hnil] at hfs
    cases hfs
  rw [emitBeginClass_types_of_ne hdn] at hfs
  obtain ⟨f, hf, hmem, hrec⟩ := hi.declared.operClass_receiver d fs hfs
  have hfe : f = e := by simpa [hf] using hh
  subst hfe
  exact ⟨f, he, hi.declared.defined.lt hmem, ⟨d, hd, by rwa [virtuals_emitBeginClass_of_ne hdn]⟩, hrec⟩

/-- A class that begins with its `oper class`. -/
abbrev begun (s : BuilderState) (h : Hierarchy) (n : Nat) (override : Option Nat) : BuilderState :=
  (s.emitBeginClass h n).emitMethod n "oper class" true override

/-- The other classes are left as they are. -/
theorem types_begun_of_ne {n c : Nat} {override : Option Nat} (hc : c ≠ n) :
    (s.begun h n override).types c = s.types c := by
  rw [emitMethod_types_of_ne hc, emitBeginClass_types_of_ne hc]

/-- The state of a class that has begun with its `oper class`. -/
structure Begins (h : Hierarchy) (s : BuilderState) (n : Nat) (override : Option Nat) : Prop where
  defined : (s.begun h n override).Defined
  grows : Grows s (s.begun h n override)
  same : ∀ c, c ≠ n → SameClass s (s.begun h n override) c
  mem : s.nextFunc ∈ (s.begun h n override).virtuals n
  slots : (s.begun h n override).Slots h n
  operClass : ∀ c, c < n + 1 → h.virtual c = true → ((s.begun h n override).types c).defs.lookup "oper class" ≠ none
  operClass_receiver : ∀ c fs, ((s.begun h n override).types c).defs.lookup "oper class" = some fs →
    ∃ f, fs = [f] ∧ f ∈ (s.begun h n override).virtuals c ∧
      ((s.begun h n override).funcs f).receiverType = h.vtableBaseType
  completed : (s.begun h n override).Completed h []

theorem Inv.begins (hi : s.Inv h) {override : Option Nat} (hn : n = s.nextClass)
    (hfirst : ∀ base ∈ (h.parents n).head?, h.hasVTable base = true)
    (hov : ∀ e, override = some e → e < s.nextFunc ∧ (s.emitBeginClass h n).MethodOf h n e)
    (hrec : ((s.begun h n override).funcs s.nextFunc).receiverType = h.vtableBaseType) : Begins h s n override := by
  subst hn
  have hd := hi.declared.defined
  have hd₁ : Defined (s.emitBeginClass h s.nextClass) := hd.emitBeginClass
  have hd₂ : Defined (s.begun h s.nextClass override) :=
    hd₁.emitMethod (by rw [emitBeginClass_nextClass]; omega) fun e he => (hov e he).1
  have hg : Grows s (s.begun h s.nextClass override) := (grows_emitBeginClass hd).trans (grows_emitMethod hd₁)
  have hsame : ∀ c, c ≠ s.nextClass → SameClass s (s.begun h s.nextClass override) c :=
    fun c hc => (sameClass_emitBeginClass hc).trans (sameClass_emitMethod hd₁ hc)
  have hslots : (s.emitBeginClass h s.nextClass).Slots h s.nextClass := by
    constructor
    · intro base bases hp
      have hbn := h.ranked s.nextClass base (by simp [hp])
      have hvb := hfirst base (by simp [hp])
      rw [emitBeginClass_types_self, emitBeginClass_types_of_ne (by omega), hp]
      simp [BTypeDef.new, hvb]
    · simp [BTypeDef.new]
    · simp [virtuals_emitBeginClass_self]
    · simp [virtuals_emitBeginClass_self]
    · simp [virtuals_emitBeginClass_self]
    · intro k h₁ h₂
      simp only [emitBeginClass_types_self, BTypeDef.new] at h₁ h₂
      omega
  have hmem : s.nextFunc ∈ (s.begun h s.nextClass override).virtuals s.nextClass :=
    (mem_virtuals_emitMethod hd₁).mpr (.inr ⟨rfl, rfl⟩)
  have hlook : ((s.begun h s.nextClass override).types s.nextClass).defs.lookup "oper class" = some [s.nextFunc] := by
    rw [emitMethod_types_self]
    exact lookup_addFunc_same (by simp [BTypeDef.new])
  refine ⟨hd₂, hg, hsame, hmem, hslots.emitMethod hd₁ hov, fun c hc hcv => ?_, fun c fs hfs => ?_, ?_⟩
  · by_cases hcn : c = s.nextClass
    · subst hcn
      rw [hlook]
      simp
    · rw [types_begun_of_ne hcn]
      exact hi.declared.operClass c (by omega) hcv
  · by_cases hcn : c = s.nextClass
    · subst hcn
      rw [hlook, Option.some.injEq] at hfs
      exact ⟨s.nextFunc, hfs.symm, hmem, hrec⟩
    · rw [types_begun_of_ne hcn] at hfs
      obtain ⟨f, hf, hmemf, hrecf⟩ := hi.declared.operClass_receiver c fs hfs
      exact ⟨f, hf, hg.virtuals c f hmemf, by rw [hg.funcs f (hd.lt hmemf)]; exact hrecf⟩
  · refine hi.begin_completed hg ?_ (by simp [BTypeDef.new]) rfl rfl
    intro c hc
    refine ⟨?_, ?_, ?_, hsame c hc⟩ <;> rw [types_begun_of_ne hc]

/-- A class with vtables begins. -/
theorem Inv.begin_virtual (hi : s.Inv h) (hn : n = s.nextClass) (hne : n ≠ h.vtableBaseType) (hacc : h.Accepted n)
    (hv : h.virtual n = true) (hw : h.WellBased n) : ((s.emitBeginClass h n).createOperClass h n).Inv h := by
  obtain ⟨hvt, ha⟩ := virtual_iff.mp hv
  obtain ⟨base, bases, hp, hvb, hnot⟩ := hw
  have hbase : h.virtual base = true := virtual_iff.mpr ⟨hvb, hacc.parent_appendage ha (by simp [hp])⟩
  obtain ⟨e, he, hlt, hme, hrec⟩ := hi.exists_operClass hn hp hbase
  unfold createOperClass
  rw [he]
  have hrec₂ : ((s.begun h n (some e)).funcs s.nextFunc).receiverType = h.vtableBaseType := by
    have := @emitMethod_funcs_nextFunc (s.emitBeginClass h n) n "oper class" true (some e)
    rw [emitBeginClass_nextFunc] at this
    rw [this]
    exact hrec
  have hb : Begins h s n (some e) := by
    refine hi.begins hn (fun base' hb' => ?_) (fun e' he' => ?_) hrec₂
    · rw [hp] at hb'
      cases hb'
      exact hvb
    · cases he'
      exact ⟨hlt, hme⟩
  refine ⟨⟨hb.defined, ?_, ?_, ?_, ?_, ?_, ?_, hb.operClass_receiver⟩, hn ▸ hb.completed⟩
  · intro c hc
    rw [emitMethod_stack, emitBeginClass_stack, List.mem_cons] at hc
    rw [emitMethod_nextClass, emitBeginClass_nextClass]
    rcases hc with hc | hc
    · omega
    · have := hi.declared.stack_lt c hc
      omega
  · rw [emitMethod_stack, emitBeginClass_stack]
    refine List.nodup_cons.mpr ⟨?_, hi.declared.stack_nodup⟩
    intro hm
    have := hi.declared.stack_lt _ hm
    omega
  · rw [emitMethod_stack, emitBeginClass_stack, List.mem_cons, not_or]
    exact ⟨fun he => hne he.symm, hi.declared.vtableBase_not_mem⟩
  · intro c hc hcv
    rw [emitMethod_nextClass, emitBeginClass_nextClass] at hc
    by_cases hcn : c = n
    · rw [hcn]; exact hacc
    · exact hi.declared.accepted c (by omega) hcv
  · intro c hc hac
    rw [emitMethod_nextClass, emitBeginClass_nextClass] at hc
    by_cases hcn : c = n
    · subst hcn
      refine ⟨hacc.apart ha, hb.defined.owner _, ?_, fun _ _ => ⟨base, bases, hp, hvb, hnot⟩,
        fun _ => ⟨hb.slots, fun he => absurd he hne⟩, fun _ _ => ⟨s.nextFunc, hb.mem, hrec₂⟩⟩
      intro hv'
      rw [hvt] at hv'
      cases hv'
    · refine (hi.declared.sound c (by omega) hac).transfer hi.declared.defined hb.grows (hb.same c hcn) ?_
      intro _ b hb
      have := h.ranked c b (List.mem_of_mem_head? hb)
      rw [types_begun_of_ne (by omega)]
  · intro c hc hcv
    rw [emitMethod_nextClass, emitBeginClass_nextClass] at hc
    exact hb.operClass c (by omega) hcv

/-- When a body ends, its class is the one that is being completed. -/
theorem Completed.leave (hc : s.Completed h []) (hd : s.Defined) {this : Nat} {stack : List Nat}
    (hst : s.stack = this :: stack) : ({ s with stack := stack } : BuilderState).Completed h [this] := by
  have hm : SameMethods s { s with stack := stack } := ⟨rfl, rfl, fun _ => rfl, fun _ => rfl, fun _ => rfl⟩
  have hsub : ∀ c, c ∈ stack → c ∈ s.stack := fun c hc => by simp [hst, hc]
  refine ⟨?_, fun c hcc p hpc => (hc.complete_parents c hcc p hpc).imp_right (fun h => by cases h),
    hc.complete_children, ?_, ?_, ?_⟩
  · intro c hcc
    obtain ⟨hlt, hns⟩ := hc.complete_lt c hcc
    exact ⟨hlt, fun hcs => hns (hsub c hcs)⟩
  · intro d c hcd
    obtain ⟨hlt, hns, hdp, hps⟩ := hc.children d c hcd
    exact ⟨hlt, fun hcs => hns (hsub c hcs), hdp,
      fun p hpc => (hps p hpc).imp_right (fun h => h.imp_right (fun h => by cases h))⟩
  · intro c hlt
    rcases hc.pending c hlt with h₁ | h₂ | h₃ | h₄
    · rw [hst, List.mem_cons] at h₁
      rcases h₁ with h₁ | h₁
      · exact .inr (.inr (.inl (by simp [h₁])))
      · exact .inl h₁
    · exact .inr (.inl h₂)
    · cases h₃
    · exact .inr (.inr (.inr h₄))
  · exact fun c hcc hcv hne => hm.hasTables hd rfl (hc.tables c hcc hcv hne)

/-- The builtin module defines `VTableBase`. -/
theorem Inv.begin_vtableBase (hi : s.Inv h) (hn : s.nextClass = h.vtableBaseType) :
    ∃ s', s.beginClass h = .ok s' ∧ s'.Inv h := by
  have hd := hi.declared.defined
  have hp : h.parents s.nextClass = [] := by rw [hn]; exact h.vtableBase_parents
  have hv : h.hasVTable s.nextClass = true := by rw [hn]; exact h.hasVTable_vtableBase
  have hlook : (s.emitBeginClass h s.nextClass).lookUpNoArgs h "oper class" s.nextClass = none := by
    rw [lookUpNoArgs_eq, hp]
    simp [BTypeDef.new]
  have hb : Begins h s s.nextClass none := by
    refine hi.begins rfl (fun base hb => ?_) (fun e he => by cases he) ?_
    · rw [hp] at hb
      cases hb
    · have := @emitMethod_funcs_nextFunc (s.emitBeginClass h s.nextClass) s.nextClass "oper class" true none
      rw [emitBeginClass_nextFunc] at this
      rw [this]
      exact hn
  have hnext : ((s.begun h s.nextClass none).types s.nextClass).firstVTableSlot = 0 ∧
      ((s.begun h s.nextClass none).types s.nextClass).nextVTableSlot = 1 := by
    rw [emitMethod_types_self, emitBeginClass_types_self, hp]
    simp [BTypeDef.new]
  have hm : SameMethods (s.begun h s.nextClass none) { s.begun h s.nextClass none with stack := s.stack } :=
    ⟨rfl, rfl, fun _ => rfl, fun _ => rfl, fun _ => rfl⟩
  -- the declarations, before the table is built
  have hdecl : ({ s.begun h s.nextClass none with stack := s.stack } : BuilderState).Declared h := by
    refine ⟨hm.defined rfl hb.defined, ?_, hi.declared.stack_nodup, hi.declared.vtableBase_not_mem, ?_, ?_, hb.operClass,
      hb.operClass_receiver⟩
    · intro c hc
      exact Nat.lt_succ_of_lt (hi.declared.stack_lt c hc)
    · intro c hc hcv
      have hlt : c < s.nextClass + 1 := hc
      exact hi.declared.accepted c (by omega) hcv
    · intro c hc hac
      have hlt : c < s.nextClass + 1 := hc
      by_cases hcn : c = s.nextClass
      · subst hcn
        refine ⟨by rw [hp]; exact .nil, hb.defined.owner _, ?_, fun _ hne => absurd hn hne,
          fun _ => ⟨hb.slots.transfer hb.defined hm.grows (hm.sameClass _) (fun _ _ => rfl), fun _ => hnext⟩,
          fun _ hne => absurd hn hne⟩
        intro hv'
        rw [hv] at hv'
        cases hv'
      · refine (hi.declared.sound c (by omega) hac).transfer hd ⟨hb.grows.nextFunc, hb.grows.funcs, hb.grows.virtuals⟩
          ⟨(hb.same c hcn).virtuals, (hb.same c hcn).first, (hb.same c hcn).next⟩ ?_
        intro _ b hb
        have := h.ranked c b (List.mem_of_mem_head? hb)
        change ((s.begun h s.nextClass none).types b).nextVTableSlot = _
        rw [types_begun_of_ne (by omega)]
  have hcomp : ({ s.begun h s.nextClass none with stack := s.stack } : BuilderState).Completed h [s.nextClass] :=
    hb.completed.leave hb.defined rfl
  obtain ⟨s', he, hk, hi', -⟩ := fixIncompletes_ok (s.nextClass + 1 - s.nextClass) hdecl hcomp (Nat.lt_succ_self _)
    (fun hm => by have := hi.declared.stack_lt _ hm; omega) (by rw [hp]; simp)
    (by change s.nextClass + 1 ≤ _; omega)
  refine ⟨s', ?_, hk.declared hdecl, hi'⟩
  unfold beginClass createOperClass
  rw [if_pos hn, hlook]
  exact he

end Begin

theorem Inv.end_class (hi : s.Inv h) {this : Nat} {stack : List Nat} (hst : s.stack = this :: stack)
    (ho : s.Orderly h .endClass) :
    ∃ s', emitEndClass h { s with stack := stack } this = .ok s' ∧ s'.Inv h := by
  have hnd := hi.declared.stack_nodup
  rw [hst, List.nodup_cons] at hnd
  have hthis := hi.declared.stack_lt this (by simp [hst])
  have hm : SameMethods s { s with stack := stack } := ⟨rfl, rfl, fun _ => rfl, fun _ => rfl, fun _ => rfl⟩
  have hsub : ∀ c, c ∈ stack → c ∈ s.stack := fun c hc => by simp [hst, hc]
  have hdecl : ({ s with stack := stack } : BuilderState).Declared h :=
    hi.declared.of_sameMethods hm rfl hsub hnd.2
  have hnc : (s.types this).complete = false := by
    by_contra hc
    rw [Bool.not_eq_false] at hc
    exact (hi.completed.complete_lt this hc).2 (by simp [hst])
  have hcomp : ({ s with stack := stack } : BuilderState).Completed h [this] :=
    hi.completed.leave hi.declared.defined hst
  have hlen := ho this (by simp [hst])
  have hfilter : ∀ p, p ∈ (h.parents this).filter (fun base => !(s.types base).complete) ↔
      p ∈ h.parents this ∧ (s.types p).complete = false := by
    intro p
    simp [List.mem_filter]
  unfold emitEndClass
  simp only
  cases hf : (h.parents this).filter (fun base => !(s.types base).complete) with
  | nil =>
    have hps : ∀ p ∈ h.parents this, (s.types p).complete = true ∨ p ∈ ([] : List Nat) := by
      intro p hp
      by_contra hc
      rw [not_or, Bool.not_eq_true] at hc
      have := (hfilter p).mpr ⟨hp, hc.1⟩
      rw [hf] at this
      cases this
    obtain ⟨s', he, hk, hi', -⟩ := fixIncompletes_ok (s.nextClass - this) hdecl hcomp hthis hnd.1 hps
      (by change s.nextClass ≤ _; omega)
    exact ⟨s', he, hk.declared hdecl, hi'⟩
  | cons b bs =>
    cases bs with
    | cons b' bs =>
      rw [hf] at hlen
      simp at hlen
    | nil =>
      refine ⟨_, rfl, ?_⟩
      obtain ⟨hb, hbc⟩ := (hfilter b).mp (by rw [hf]; simp)
      have hother : ∀ p ∈ h.parents this, p = b ∨ (s.types p).complete = true := by
        intro p hp
        by_contra hc
        rw [not_or, Bool.not_eq_true] at hc
        have := (hfilter p).mpr ⟨hp, hc.2⟩
        rw [hf, List.mem_singleton] at this
        exact hc.1 this
      have hm' : SameMethods { s with stack := stack } (({ s with stack := stack } : BuilderState).addDependent b this) :=
        sameMethods_setType rfl rfl rfl
      have htypes : ∀ c, c ≠ b →
          (({ s with stack := stack } : BuilderState).addDependent b this).types c = s.types c :=
        fun c hc => setType_types_of_ne hc
      have hself : (({ s with stack := stack } : BuilderState).addDependent b this).types b =
          { s.types b with incompleteChildren := (s.types b).incompleteChildren ++ [this] } := setType_types_self
      have hcc : ∀ c, ((({ s with stack := stack } : BuilderState).addDependent b this).types c).complete =
          (s.types c).complete := by
        intro c
        by_cases hc : c = b
        · subst hc; rw [hself]
        · rw [htypes c hc]
      have hkids : ∀ c k, k ∈ ((({ s with stack := stack } : BuilderState).addDependent b this).types c).incompleteChildren ↔
          k ∈ (s.types c).incompleteChildren ∨ c = b ∧ k = this := by
        intro c k
        by_cases hc : c = b
        · subst hc; rw [hself]; simp
        · rw [htypes c hc]; simp [hc]
      have hdecl' := hdecl.of_sameMethods hm' rfl (fun c hc => hc) hnd.2
      refine ⟨hdecl', ?_⟩
      constructor
      · intro c hc
        rw [hcc] at hc
        exact hcomp.complete_lt c hc
      · intro c hc p hp
        rw [hcc] at hc ⊢
        exact hi.completed.complete_parents c hc p hp
      · intro c hc
        rw [hcc] at hc
        have hcb : c ≠ b := by
          intro hcb
          rw [hcb, hbc] at hc
          cases hc
        rw [htypes c hcb]
        exact hi.completed.complete_children c hc
      · intro d c hc
        simp only [hcc]
        rcases (hkids d c).mp hc with hk | ⟨hd, hk⟩
        · obtain ⟨hlt, hns, hdp, hps⟩ := hi.completed.children d c hk
          exact ⟨hlt, fun hcs => hns (hsub c hcs), hdp, hps⟩
        · subst hd
          subst hk
          exact ⟨hthis, hnd.1, hb, fun p hp => (hother p hp).imp_right .inl⟩
      · intro c hc
        rw [hcc]
        rcases hcomp.pending c hc with h₁ | h₂ | h₃ | ⟨d, hd, hcd⟩
        · exact .inl h₁
        · exact .inr (.inl h₂)
        · rw [List.mem_singleton] at h₃
          subst h₃
          exact .inr (.inr (.inr ⟨b, hb, (hkids b c).mpr (.inr ⟨rfl, rfl⟩)⟩))
        · exact .inr (.inr (.inr ⟨d, hd, (hkids d c).mpr (.inl hcd)⟩))
      · intro c hc hcv hne
        rw [hcc] at hc
        refine hm'.hasTables hdecl.defined ?_ (hcomp.tables c hc hcv hne)
        by_cases hcb : c = b
        · subst hcb; rw [hself]
        · rw [htypes c hcb]

/-- An orderly call goes through and keeps the invariant. -/
theorem Inv.step (hi : s.Inv h) (ha : s.Accepts h e) (ho : s.Orderly h e) :
    ∃ s', s.step h e = .ok s' ∧ s'.Inv h := by
  cases e with
  | beginClass =>
    by_cases hn : s.nextClass = h.vtableBaseType
    · exact hi.begin_vtableBase hn
    · have hacc := ha.resolve_left hn
      have he : s.step h .beginClass = .ok (if h.virtual s.nextClass then
          (s.emitBeginClass h s.nextClass).createOperClass h s.nextClass
          else s.emitBeginClass h s.nextClass) := if_neg hn
      refine ⟨_, he, ?_⟩
      cases hv : h.virtual s.nextClass with
      | true => exact hi.begin_virtual rfl hn hacc hv (ho hv hn)
      | false => exact hi.begin_plain hn hacc hv
  | method name virtualized existing =>
    obtain ⟨this, stack, hst, -⟩ := ha.2
    refine ⟨s.emitMethod this name virtualized existing, ?_, hi.method hst ha ho⟩
    unfold BuilderState.step
    rw [hst]
  | aliasDef name funcs =>
    have hne := ha.2.1
    obtain ⟨this, stack, hst⟩ := List.exists_cons_of_ne_nil hne
    refine ⟨s.emitAlias this name funcs, ?_, hi.aliasDef hst ha ho⟩
    unfold BuilderState.step
    rw [hst]
  | endClass =>
    obtain ⟨this, stack, hst⟩ := List.exists_cons_of_ne_nil (show s.stack ≠ [] from ha)
    obtain ⟨s', he, hi'⟩ := hi.end_class hst ho
    refine ⟨s', ?_, hi'⟩
    unfold BuilderState.step
    rw [hst]
    exact he

theorem Run.inv (hr : Run h (fun s e => s.Orderly h e) s) : s.Inv h := by
  induction hr with
  | initial => exact inv_initial
  | step _ ha hp hs ih =>
    obtain ⟨s', he, hi⟩ := ih.step ha hp
    rw [hs, Except.ok.injEq] at he
    subst he
    exact hi

/-- When no class body is open, every class that has begun is complete. -/
theorem Inv.complete_of_stack_nil (hi : s.Inv h) (hst : s.stack = []) (hc : c < s.nextClass) :
    (s.types c).complete = true := by
  induction c using h.ranked.induction with
  | step c ih =>
    rcases hi.completed.pending c hc with h₁ | h₂ | h₃ | ⟨d, hd, hcd⟩
    · rw [hst] at h₁
      cases h₁
    · exact h₂
    · cases h₃
    · have hdc := h.ranked c d hd
      have := hi.completed.complete_children d (ih d hd (by omega))
      rw [this] at hcd
      cases hcd

/-- Along an orderly run no call fails, every class whose tables are built has
right tables, and all classes have been completed when no body is open. -/
theorem orderly_run_vtables (h : Hierarchy) (s : BuilderState) (hr : Run h (fun s e => s.Orderly h e) s) :
    (∀ e, s.Accepts h e → s.Orderly h e → ∃ s', s.step h e = .ok s') ∧
    (∀ c, (s.types c).complete = true → h.virtual c = true → c ≠ h.vtableBaseType →
      ∃ vtb, (s.types c).vtables = some vtb ∧ s.RightVTables h c vtb) ∧
    (s.stack = [] → ∀ c, c < s.nextClass → (s.types c).complete = true) := by
  have hi := hr.inv
  refine ⟨?_, hi.completed.tables, fun hst c hc => hi.complete_of_stack_nil hst hc⟩
  intro e ha ho
  obtain ⟨s', he, -⟩ := hi.step ha ho
  exact ⟨s', he⟩

/-- The class `A`, `B` derived from it and `C` derived from `B`. -/
def nestedChain : Hierarchy :=
  .ofTypes (fun c =>
    if c = 0 then ⟨"VTableBase", "VTableBase", true, false, false, false, []⟩
    else if c = 1 then ⟨"A", "A", true, false, false, false, [0]⟩
    else if c = 2 then ⟨"B", "B", true, false, false, false, [1]⟩
    else if c = 3 then ⟨"C", "C", true, false, false, false, [2]⟩
    else ⟨"", "", false, false, false, false, []⟩) (by intro c p hp; grind) rfl rfl

theorem nestedChain_accepted : ∀ c, 1 ≤ c → c ≤ 3 → nestedChain.Accepted c := by
  intro c h₁ h₂
  match c, h₁, h₂ with
  | 1, _, _ => exact ⟨rfl, [0], .inl rfl, ⟨[0], [], none⟩, by decide⟩
  | 2, _, _ => exact ⟨rfl, [1], .inl rfl, ⟨[1], [1], none⟩, by decide⟩
  | 3, _, _ => exact ⟨rfl, [2], .inl rfl, ⟨[2], [1, 2], none⟩, by decide⟩

theorem nestedChain_wellBased : ∀ c, 1 ≤ c → c ≤ 3 → nestedChain.WellBased c := by
  intro c h₁ h₂
  match c, h₁, h₂ with
  | 1, _, _ => exact ⟨0, [], rfl, by decide, by decide⟩
  | 2, _, _ => exact ⟨1, [], rfl, by decide, by decide⟩
  | 3, _, _ => exact ⟨2, [], rfl, by decide, by decide⟩

/-- The state after a call; a call that fails changes nothing. -/
def next (h : Hierarchy) (s : BuilderState) (e : Event) : BuilderState :=
  match s.step h e with
  | .ok s' => s'
  | .error _ => s

theorem Run.next (hr : Run h P s) (ha : s.Accepts h e) (hp : P s e) (hok : (s.step h e).toBool = true) :
    Run h P (s.next h e) := by
  unfold BuilderState.next
  cases hs : s.step h e with
  | ok s' => exact hr.step ha hp hs
  | error e => rw [hs] at hok; cases hok

def after (events : List Event) : BuilderState := events.foldl (next nestedChain) initial

section After

variable {events : List Event} (hr : Run nestedChain P (after events))

include hr

theorem Run.next_after (ha : (after events).Accepts nestedChain e) (hp : P (after events) e)
    (hok : ((after events).step nestedChain e).toBool = true) : Run nestedChain P (after (events ++ [e])) := by
  rw [after, List.foldl_append]
  exact hr.next ha hp hok

/-- The next class of `nestedChain` begins. -/
theorem Run.next_begin
    (hok : (after events).nextClass ≤ 3 ∧ ((after events).step nestedChain .beginClass).toBool = true)
    (hp : P (after events) .beginClass) : Run nestedChain P (after (events ++ [.beginClass])) := by
  refine hr.next_after ?_ hp hok.2
  by_cases h₀ : (after events).nextClass = 0
  · exact .inl h₀
  · exact .inr (nestedChain_accepted _ (by omega) hok.1)

/-- A class declares a virtual method, which may override one of its base. -/
theorem Run.next_method (this : Nat) (stack : List Nat) (name : String)
    (existing : Option Nat)
    (hok : (name ≠ "oper class" ∧ (after events).stack = this :: stack ∧ nestedChain.hasVTable this = true) ∧
      (∀ e ∈ existing, e < (after events).nextFunc ∧ ((after events).funcs e).virtualized = true ∧
        ((after events).funcs e).owner ∈ nestedChain.parents this) ∧
      ((after events).step nestedChain (.method name true existing)).toBool = true)
    (hp : P (after events) (.method name true existing)) :
    Run nestedChain P (after (events ++ [.method name true existing])) := by
  obtain ⟨⟨hname, hst, hv⟩, hex, hok⟩ := hok
  refine hr.next_after ⟨hname, this, stack, hst, fun _ => hv, fun e he => ?_⟩ hp hok
  obtain ⟨hlt, hvirtual, howner⟩ := hex e he
  exact ⟨hlt, hvirtual, .of_parent howner⟩

theorem Run.next_end (hok : (after events).stack ≠ [] ∧ ((after events).step nestedChain .endClass).toBool = true)
    (hp : P (after events) .endClass) : Run nestedChain P (after (events ++ [.endClass])) :=
  hr.next_after hok.1 hp hok.2

end After

theorem orderly_begin {s : BuilderState} (hn : s.nextClass ≤ 3) : s.Orderly nestedChain .beginClass := by
  intro _ hne
  have h₀ : s.nextClass ≠ 0 := hne
  exact nestedChain_wellBased _ (by omega) hn

/-- `A` declares `oper del` and `m`, and `B`, which is nested in `A`, overrides them. -/
def orderlyEvents : List Event :=
  [.beginClass, .beginClass, .method "oper del" true none, .method "m" true none, .beginClass, .method "m" true (some 3),
    .method "oper del" true (some 2), .endClass, .endClass]

theorem orderlyEvents_run : Run nestedChain (fun s e => s.Orderly nestedChain e) (after orderlyEvents) := by
  have h₀ : Run nestedChain (fun s e => s.Orderly nestedChain e) (after []) := .initial
  have h₁ := h₀.next_begin (by decide +kernel) (orderly_begin (by decide +kernel))
  have h₂ := h₁.next_begin (by decide +kernel) (orderly_begin (by decide +kernel))
  have h₃ := h₂.next_method 1 [] "oper del" none (by decide +kernel) (show _ → _ → _ by decide +kernel)
  have h₄ := h₃.next_method 1 [] "m" none (by decide +kernel) (show _ → _ → _ by decide +kernel)
  have h₅ := h₄.next_begin (by decide +kernel) (orderly_begin (by decide +kernel))
  have h₆ := h₅.next_method 2 [1] "m" (some 3) (by decide +kernel) (fun _ he => nomatch he)
  have h₇ := h₆.next_method 2 [1] "oper del" (some 2) (by decide +kernel) (fun _ he => nomatch he)
  have h₈ := h₇.next_end (by decide +kernel) (show ∀ _, _ → _ by decide +kernel)
  exact h₈.next_end (by decide +kernel) (show ∀ _, _ → _ by decide +kernel)

/-- The tables of `B` in that run. -/
theorem orderly_nested_vtables :
    ∃ vtb, ((after orderlyEvents).types 2).vtables = some vtb ∧ (after orderlyEvents).RightVTables nestedChain 2 vtb :=
  (orderly_run_vtables nestedChain (after orderlyEvents) orderlyEvents_run).2.1 2 (by decide +kernel) (by decide) (by decide)

/-- `A` declares `m` after `B` has begun, and each class gets its `oper del` when it ends. The next slot
of `B` is one of `A` then, and `C` gives it to `n` as well. -/
def disorderlyEvents : List Event :=
  [.beginClass, .beginClass, .beginClass, .method "oper del" true none, .endClass, .method "m" true none,
    .method "oper del" true none, .endClass, .beginClass, .method "n" true none, .method "oper del" true (some 3), .endClass]

theorem disorderlyEvents_run : Run nestedChain (fun _ _ => True) (after disorderlyEvents) := by
  have h₀ : Run nestedChain (fun _ _ => True) (after []) := .initial
  have h₁ := h₀.next_begin (by decide +kernel) trivial
  have h₂ := h₁.next_begin (by decide +kernel) trivial
  have h₃ := h₂.next_begin (by decide +kernel) trivial
  have h₄ := h₃.next_method 2 [1] "oper del" none (by decide +kernel) trivial
  have h₅ := h₄.next_end (by decide +kernel) trivial
  have h₆ := h₅.next_method 1 [] "m" none (by decide +kernel) trivial
  have h₇ := h₆.next_method 1 [] "oper del" none (by decide +kernel) trivial
  have h₈ := h₇.next_end (by decide +kernel) trivial
  have h₉ := h₈.next_begin (by decide +kernel) trivial
  have h₁₀ := h₉.next_method 3 [] "n" none (by decide +kernel) trivial
  have h₁₁ := h₁₀.next_method 3 [] "oper del" (some 3) (by decide +kernel) trivial
  exact h₁₁.next_end (by decide +kernel) trivial

/-- Two new methods of one table have the same slot after that run. -/
theorem nested_slots_clash :
    ¬ ∀ (h : Hierarchy) (s : BuilderState), Run h (fun _ _ => True) s →
      ∀ c, (s.types c).complete = true → h.virtual c = true → c ≠ h.vtableBaseType →
        ∃ vtb, (s.types c).vtables = some vtb ∧ s.RightVTables h c vtb := by
  intro hall
  obtain ⟨vtb, -, hr⟩ := hall nestedChain (after disorderlyEvents) disorderlyEvents_run 3 (by decide +kernel) (by decide) (by decide)
  have hm : (after disorderlyEvents).OwnsSlot nestedChain 3 1 2 5 :=
    ⟨⟨1, ⟨[0, 0], .step rfl (.step rfl (.here 1))⟩, by decide +kernel⟩, by decide +kernel, by decide +kernel, by decide +kernel⟩
  have hn : (after disorderlyEvents).OwnsSlot nestedChain 3 1 2 7 :=
    ⟨⟨3, .refl 3, by decide +kernel⟩, by decide +kernel, by decide +kernel, by decide +kernel⟩
  have hroot : 1 ∈ vtb.roots := (hr.roots 1).mpr ⟨⟨[0, 0], .step rfl (.step rfl (.here 1))⟩, by decide⟩
  have := hr.distinct 1 hroot 2 5 7 hm hn
  omega

end BuilderState

end Crack
