import Crack.Builder.VTableContents

/-!
# What one call changes

Methods are never changed after they are defined, and a call that defines a
method touches the slots of one class. So what is known of the other classes
stays, as long as none of them continues the slots of that class.
-/
namespace Crack

open Acyclic (Reaches)

section Defs

variable {name : String} {func f : Nat} {funcs : List Nat} {defs : List (String × List Nat)} {name' : String}

theorem exists_mem_addFunc (Q : String → Prop) :
    (∃ o ∈ addFunc name func defs, f ∈ o.2 ∧ Q o.1) ↔ (∃ o ∈ defs, f ∈ o.2 ∧ Q o.1) ∨ (f = func ∧ Q name) := by
  induction defs with
  | nil => simp [addFunc]
  | cons e defs ih =>
    unfold addFunc
    split
    · rename_i he
      simp only [List.mem_cons, exists_eq_or_imp, List.mem_append, List.not_mem_nil, or_false, he]
      rw [or_and_right]
      exact or_right_comm
    · split
      · simp only [List.mem_cons, exists_eq_or_imp, List.not_mem_nil, or_false]
        exact or_comm
      · simp only [List.mem_cons, exists_eq_or_imp, ih]
        exact or_assoc.symm

theorem lookup_addFunc_ne (hne : name' ≠ name) : (addFunc name func defs).lookup name' = defs.lookup name' := by
  have hb : (name' == name) = false := by simpa using hne
  induction defs with
  | nil => simp [addFunc, hne]
  | cons e defs ih =>
    obtain ⟨k, fs⟩ := e
    unfold addFunc
    split
    · rename_i he
      simp only at he
      subst he
      simp only [List.lookup_cons, hb]
    · split
      · simp only [List.lookup_cons, hb]
      · simp only [List.lookup_cons, ih]

theorem ne_of_lookup_cons {k : String} {fs : List Nat} (hn : ((k, fs) :: defs).lookup name = none) :
    k ≠ name ∧ defs.lookup name = none := by
  rw [List.lookup_cons] at hn
  split at hn
  · cases hn
  · rename_i hb
    exact ⟨fun he => by simp [he] at hb, hn⟩

theorem lookup_addFunc_same (hn : defs.lookup name = none) :
    (addFunc name func defs).lookup name = some [func] := by
  induction defs with
  | nil => simp [addFunc]
  | cons e defs ih =>
    obtain ⟨k, fs⟩ := e
    obtain ⟨hne, hn⟩ := ne_of_lookup_cons hn
    have hb : (name == k) = false := by simpa using hne.symm
    unfold addFunc
    rw [if_neg hne]
    split
    · simp
    · rw [List.lookup_cons, hb]
      exact ih hn

theorem exists_mem_addAlias (hn : defs.lookup name = none) (Q : String → Prop) :
    (∃ o ∈ addAlias name funcs defs, f ∈ o.2 ∧ Q o.1) ↔ (∃ o ∈ defs, f ∈ o.2 ∧ Q o.1) ∨ (f ∈ funcs ∧ Q name) := by
  induction defs with
  | nil => simp [addAlias]
  | cons e defs ih =>
    obtain ⟨k, fs⟩ := e
    obtain ⟨hne, hn⟩ := ne_of_lookup_cons hn
    unfold addAlias
    rw [if_neg hne]
    split
    · simp only [List.mem_cons, exists_eq_or_imp]
      exact or_comm
    · simp only [List.mem_cons, exists_eq_or_imp, ih hn]
      exact or_assoc.symm

theorem lookup_addAlias_ne (hne : name' ≠ name) : (addAlias name funcs defs).lookup name' = defs.lookup name' := by
  have hb : (name' == name) = false := by simpa using hne
  induction defs with
  | nil => simp [addAlias, hne]
  | cons e defs ih =>
    obtain ⟨k, fs⟩ := e
    unfold addAlias
    split
    · rename_i he
      simp only at he
      subst he
      simp only [List.lookup_cons, hb]
    · split
      · simp only [List.lookup_cons, hb]
      · simp only [List.lookup_cons, ih]

end Defs

namespace BuilderState

variable {h : Hierarchy} {s s' : BuilderState} {c : Nat}

theorem mem_virtuals {c f : Nat} :
    f ∈ s.virtuals c ↔
      ∃ o ∈ (s.types c).defs, f ∈ o.2 ∧ (s.funcs f).virtualized = true ∧ (s.funcs f).name = o.1 := by
  unfold virtuals
  simp only [List.mem_flatMap, List.mem_filter, decide_eq_true_eq]

/-- Functions stand where they were defined, and what they override was defined before. -/
structure Defined (s : BuilderState) : Prop where
  defs : ∀ c, ∀ o ∈ (s.types c).defs, ∀ f ∈ o.2, f < s.nextFunc
  existing : ∀ f, f < s.nextFunc → ∀ e, (s.funcs f).existing = some e → e < f
  owner : ∀ c, ∀ f ∈ s.virtuals c, (s.funcs f).owner = c
  owner_lt : ∀ f, f < s.nextFunc → (s.funcs f).owner < s.nextClass
  mem : ∀ f, f < s.nextFunc → (s.funcs f).virtualized = true → f ∈ s.virtuals (s.funcs f).owner

theorem Defined.lt (hd : Defined s) {c f : Nat} (hf : f ∈ s.virtuals c) : f < s.nextFunc := by
  obtain ⟨o, ho, hf, -⟩ := mem_virtuals.mp hf
  exact hd.defs c o ho f hf

/-- The functions of `s` are among those of `s'`, unchanged. -/
structure Grows (s s' : BuilderState) : Prop where
  nextFunc : s.nextFunc ≤ s'.nextFunc
  funcs : ∀ f, f < s.nextFunc → s'.funcs f = s.funcs f
  virtuals : ∀ c f, f ∈ s.virtuals c → f ∈ s'.virtuals c

/-- The class has the same methods and slots. -/
structure SameClass (s s' : BuilderState) (c : Nat) : Prop where
  virtuals : ∀ f, f ∈ s'.virtuals c ↔ f ∈ s.virtuals c
  first : (s'.types c).firstVTableSlot = (s.types c).firstVTableSlot
  next : (s'.types c).nextVTableSlot = (s.types c).nextVTableSlot

theorem MethodOf.mono (hg : Grows s s') {c f : Nat} (hf : s.MethodOf h c f) : s'.MethodOf h c f := by
  obtain ⟨d, hd, hf⟩ := hf
  exact ⟨d, hd, hg.virtuals d f hf⟩

theorem Slots.transfer (hd : Defined s) (hg : Grows s s') (hc : SameClass s s' c)
    (hb : ∀ base ∈ (h.parents c).head?, (s'.types base).nextVTableSlot = (s.types base).nextVTableSlot)
    (hs : s.Slots h c) : s'.Slots h c := by
  have hfun : ∀ f ∈ s.virtuals c, s'.funcs f = s.funcs f := fun f hf => hg.funcs f (hd.lt hf)
  constructor
  · intro base bases hp
    rw [hc.first, hb base (by simp [hp]), hs.first base bases hp]
  · rw [hc.first, hc.next]
    exact hs.le
  · intro f hf hnew
    rw [hc.virtuals] at hf
    rw [hfun f hf] at hnew ⊢
    rw [hc.first, hc.next]
    exact hs.new f hf hnew
  · intro f hf e he
    rw [hc.virtuals] at hf
    rw [hfun f hf] at he ⊢
    obtain ⟨hlt, hm, hrec, hslot⟩ := hs.override f hf e he
    have hef := hg.funcs e (by have := hd.lt hf; omega)
    rw [hef]
    exact ⟨hlt, hm.mono hg, hrec, hslot⟩
  · intro f hf g hg' hnf hng hslot
    rw [hc.virtuals] at hf hg'
    rw [hfun f hf] at hnf hslot
    rw [hfun g hg'] at hng hslot
    exact hs.distinct f hf g hg' hnf hng hslot
  · intro n h₁ h₂
    rw [hc.first] at h₁
    rw [hc.next] at h₂
    obtain ⟨f, hf, hnew, hslot⟩ := hs.filled n h₁ h₂
    refine ⟨f, (hc.virtuals f).mpr hf, ?_⟩
    rw [hfun f hf]
    exact ⟨hnew, hslot⟩

theorem Sound.transfer (hd : Defined s) (hg : Grows s s') (hc : SameClass s s' c)
    (hb : h.hasVTable c = true →
      ∀ base ∈ (h.parents c).head?, (s'.types base).nextVTableSlot = (s.types base).nextVTableSlot)
    (hs : s.Sound h c) : s'.Sound h c := by
  have hfun : ∀ f ∈ s.virtuals c, s'.funcs f = s.funcs f := fun f hf => hg.funcs f (hd.lt hf)
  constructor
  · exact hs.apart
  · intro f hf
    rw [hc.virtuals] at hf
    rw [hfun f hf]
    exact hs.owner f hf
  · intro hv
    rw [List.eq_nil_iff_forall_not_mem]
    intro f hf
    rw [hc.virtuals, hs.plain hv] at hf
    cases hf
  · exact hs.wellBased
  · intro hv
    refine ⟨(hs.numbered hv).toSlots.transfer hd hg hc (hb hv), ?_⟩
    rw [hc.first, hc.next]
    exact (hs.numbered hv).vtableBase
  · intro hv hne
    obtain ⟨f, hf, hrec⟩ := hs.operClass hv hne
    exact ⟨f, (hc.virtuals f).mpr hf, by rw [hfun f hf]; exact hrec⟩

theorem Overrides.transfer (hd : Defined s) (hg : Grows s s') {f m : Nat} (hf : f < s.nextFunc) :
    s'.Overrides f m ↔ s.Overrides f m := by
  induction f using Nat.strongRecOn generalizing m with
  | ind f ih =>
    have hfun := hg.funcs f hf
    constructor
    · intro ho
      cases ho with
      | new hm => exact .new (by rw [← hfun]; exact hm)
      | step he ho =>
        rw [hfun] at he
        have hlt := hd.existing f hf _ he
        exact .step he ((ih _ hlt (by omega)).mp ho)
    · intro ho
      cases ho with
      | new hm => exact .new (by rw [hfun]; exact hm)
      | step he ho =>
        have hlt := hd.existing f hf _ he
        exact .step (by rw [hfun]; exact he) ((ih _ hlt (by omega)).mpr ho)

/-- The tables of a class stay right while the class and its ancestors keep their methods. -/
theorem RightVTables.transfer {vtb : VTableBuilder} (hd : Defined s) (hg : Grows s s')
    (hc : ∀ d, Reaches h.parents c d → SameClass s s' d) (hr : s.RightVTables h c vtb) :
    s'.RightVTables h c vtb := by
  have hmethod : ∀ f, s'.MethodOf h c f ↔ s.MethodOf h c f := by
    intro f
    constructor
    · rintro ⟨d, hd', hf⟩
      exact ⟨d, hd', ((hc d hd').virtuals f).mp hf⟩
    · exact fun hf => hf.mono hg
  have hlt : ∀ f, s.MethodOf h c f → f < s.nextFunc := fun f ⟨d, _, hf⟩ => hd.lt hf
  have howns : ∀ root n m, s'.OwnsSlot h c root n m ↔ s.OwnsSlot h c root n m := by
    intro root n m
    constructor
    · rintro ⟨hm, hnew, ht, hslot⟩
      have hm := (hmethod m).mp hm
      unfold InTable at ht
      rw [hg.funcs m (hlt m hm)] at hnew ht hslot
      exact ⟨hm, hnew, ht, hslot⟩
    · rintro ⟨hm, hnew, ht, hslot⟩
      have hfun := hg.funcs m (hlt m hm)
      exact ⟨hm.mono hg, by rw [hfun]; exact hnew, by unfold InTable; rw [hfun]; exact ht, by rw [hfun]; exact hslot⟩
  refine ⟨hr.roots_nodup, hr.roots, hr.full, ?_, ?_, ?_, ?_⟩
  · intro root hroot n f hf
    obtain ⟨hm, m, ho, hov, hder⟩ := hr.mostDerived root hroot n f hf
    refine ⟨hm.mono hg, m, (howns root n m).mpr ho, (Overrides.transfer hd hg (hlt f hm)).mpr hov, ?_⟩
    intro g hgm hgo
    have hgm := (hmethod g).mp hgm
    rw [hg.funcs f (hlt f hm), hg.funcs g (hlt g hgm)]
    exact hder g hgm ((Overrides.transfer hd hg (hlt g hgm)).mp hgo)
  · exact fun root hroot n m ho => hr.complete root hroot n m ((howns root n m).mp ho)
  · exact fun root hroot n m m' ho ho' =>
      hr.distinct root hroot n m m' ((howns root n m).mp ho) ((howns root n m').mp ho')
  · obtain ⟨root, hroot, hf, hfr, hlen⟩ := hr.first
    exact ⟨root, hroot, hf, hfr, by rw [hlen, (hc c (.refl c)).next]⟩

section Method

variable {this : Nat} {name : String} {virtualized : Bool} {existing : Option Nat}

theorem emitMethod_funcs_of_lt {f : Nat} (hf : f < s.nextFunc) :
    (s.emitMethod this name virtualized existing).funcs f = s.funcs f := by
  unfold emitMethod
  exact Function.update_of_ne (by omega) _ _

@[simp] theorem emitMethod_funcs_nextFunc :
    (s.emitMethod this name virtualized existing).funcs s.nextFunc =
      s.initializeMethodInfo this name virtualized existing := by
  simp [emitMethod]

theorem emitMethod_types_of_ne (hc : c ≠ this) :
    (s.emitMethod this name virtualized existing).types c = s.types c := by
  unfold emitMethod
  exact Function.update_of_ne hc _ _

@[simp] theorem emitMethod_types_self :
    (s.emitMethod this name virtualized existing).types this =
      ⟨(s.types this).firstVTableSlot,
        if virtualized ∧ existing = none then (s.types this).nextVTableSlot + 1 else (s.types this).nextVTableSlot,
        addFunc name s.nextFunc (s.types this).defs, (s.types this).complete,
        (s.types this).incompleteChildren, (s.types this).vtables⟩ := by
  simp [emitMethod]

@[simp] theorem emitMethod_nextFunc : (s.emitMethod this name virtualized existing).nextFunc = s.nextFunc + 1 := rfl
@[simp] theorem emitMethod_nextClass : (s.emitMethod this name virtualized existing).nextClass = s.nextClass := rfl
@[simp] theorem emitMethod_stack : (s.emitMethod this name virtualized existing).stack = s.stack := rfl

@[simp] theorem initializeMethodInfo_name :
    (s.initializeMethodInfo this name virtualized existing).name = name := by
  unfold initializeMethodInfo
  split <;> rfl

@[simp] theorem initializeMethodInfo_owner :
    (s.initializeMethodInfo this name virtualized existing).owner = this := by
  unfold initializeMethodInfo
  split <;> rfl

@[simp] theorem initializeMethodInfo_virtualized :
    (s.initializeMethodInfo this name virtualized existing).virtualized = virtualized := by
  unfold initializeMethodInfo
  split <;> rfl

@[simp] theorem initializeMethodInfo_existing :
    (s.initializeMethodInfo this name virtualized existing).existing = if virtualized then existing else none := by
  unfold initializeMethodInfo
  split <;> rfl

theorem mem_virtuals_emitMethod (hd : Defined s) {f : Nat} :
    f ∈ (s.emitMethod this name virtualized existing).virtuals this ↔
      f ∈ s.virtuals this ∨ f = s.nextFunc ∧ virtualized = true := by
  rw [mem_virtuals, mem_virtuals, emitMethod_types_self]
  simp only
  rw [exists_mem_addFunc (fun o => ((s.emitMethod this name virtualized existing).funcs f).virtualized = true ∧
    ((s.emitMethod this name virtualized existing).funcs f).name = o)]
  constructor
  · rintro (⟨o, ho, hf, hv⟩ | ⟨he, hv⟩)
    · rw [emitMethod_funcs_of_lt (hd.defs this o ho f hf)] at hv
      exact .inl ⟨o, ho, hf, hv⟩
    · subst he
      exact .inr ⟨rfl, by simpa using hv.1⟩
  · rintro (⟨o, ho, hf, hv⟩ | ⟨he, hv⟩)
    · refine .inl ⟨o, ho, hf, ?_⟩
      rw [emitMethod_funcs_of_lt (hd.defs this o ho f hf)]
      exact hv
    · subst he
      exact .inr ⟨rfl, by simpa using hv⟩

theorem mem_virtuals_emitMethod_of_ne (hd : Defined s) (hc : c ≠ this) {f : Nat} :
    f ∈ (s.emitMethod this name virtualized existing).virtuals c ↔ f ∈ s.virtuals c := by
  rw [mem_virtuals, mem_virtuals, emitMethod_types_of_ne hc]
  constructor
  · rintro ⟨o, ho, hf, hv⟩
    rw [emitMethod_funcs_of_lt (hd.defs c o ho f hf)] at hv
    exact ⟨o, ho, hf, hv⟩
  · rintro ⟨o, ho, hf, hv⟩
    refine ⟨o, ho, hf, ?_⟩
    rw [emitMethod_funcs_of_lt (hd.defs c o ho f hf)]
    exact hv

theorem grows_emitMethod (hd : Defined s) : Grows s (s.emitMethod this name virtualized existing) := by
  refine ⟨by simp, fun f hf => emitMethod_funcs_of_lt hf, ?_⟩
  intro c f hf
  by_cases hc : c = this
  · subst hc
    exact (mem_virtuals_emitMethod hd).mpr (.inl hf)
  · exact (mem_virtuals_emitMethod_of_ne hd hc).mpr hf

theorem sameClass_emitMethod (hd : Defined s) (hc : c ≠ this) :
    SameClass s (s.emitMethod this name virtualized existing) c := by
  refine ⟨fun f => mem_virtuals_emitMethod_of_ne hd hc, ?_, ?_⟩ <;> rw [emitMethod_types_of_ne hc]

theorem Defined.emitMethod (hd : Defined s) (hthis : this < s.nextClass)
    (hex : ∀ e, existing = some e → e < s.nextFunc) : Defined (s.emitMethod this name virtualized existing) := by
  constructor
  · intro c o ho f hf
    by_cases hc : c = this
    · subst hc
      have hex : ∃ o ∈ addFunc name s.nextFunc (s.types c).defs, f ∈ o.2 ∧ True := by
        rw [emitMethod_types_self] at ho
        exact ⟨o, ho, hf, trivial⟩
      rcases (exists_mem_addFunc (fun _ => True)).mp hex with ⟨o, ho, hf, -⟩ | ⟨he, -⟩
      · have := hd.defs c o ho f hf
        simp only [emitMethod_nextFunc]
        omega
      · simp [he]
    · rw [emitMethod_types_of_ne hc] at ho
      have := hd.defs c o ho f hf
      simp only [emitMethod_nextFunc]
      omega
  · intro f hf e he
    by_cases hlt : f < s.nextFunc
    · rw [emitMethod_funcs_of_lt hlt] at he
      exact hd.existing f hlt e he
    · have hfe : f = s.nextFunc := by
        simp only [emitMethod_nextFunc] at hf
        omega
      subst hfe
      rw [emitMethod_funcs_nextFunc, initializeMethodInfo_existing] at he
      split at he
      · exact hex e he
      · cases he
  · intro c f hf
    by_cases hc : c = this
    · subst hc
      rcases (mem_virtuals_emitMethod hd).mp hf with hf | ⟨he, -⟩
      · rw [emitMethod_funcs_of_lt (hd.lt hf)]
        exact hd.owner c f hf
      · subst he
        simp
    · rw [mem_virtuals_emitMethod_of_ne hd hc] at hf
      rw [emitMethod_funcs_of_lt (hd.lt hf)]
      exact hd.owner c f hf
  · intro f hf
    by_cases hlt : f < s.nextFunc
    · rw [emitMethod_funcs_of_lt hlt]
      exact hd.owner_lt f hlt
    · have hfe : f = s.nextFunc := by
        simp only [emitMethod_nextFunc] at hf
        omega
      subst hfe
      simpa using hthis
  · intro f hf hv
    by_cases hlt : f < s.nextFunc
    · rw [emitMethod_funcs_of_lt hlt] at hv ⊢
      exact (grows_emitMethod hd).virtuals _ f (hd.mem f hlt hv)
    · have hfe : f = s.nextFunc := by
        simp only [emitMethod_nextFunc] at hf
        omega
      subst hfe
      rw [emitMethod_funcs_nextFunc] at hv ⊢
      rw [initializeMethodInfo_owner]
      exact (mem_virtuals_emitMethod hd).mpr (.inr ⟨rfl, by simpa using hv⟩)

/-- Defining a method keeps the slots of its class in order. -/
theorem Slots.emitMethod (hd : Defined s) (hs : s.Slots h this)
    (hex : ∀ e, existing = some e → e < s.nextFunc ∧ s.MethodOf h this e) :
    (s.emitMethod this name virtualized existing).Slots h this := by
  have hg : Grows s (s.emitMethod this name virtualized existing) := grows_emitMethod hd
  have hnew_iff : virtualized = true → ((s.initializeMethodInfo this name virtualized existing).existing = none ↔
      existing = none) := by
    intro hv
    rw [initializeMethodInfo_existing, if_pos hv]
  have hinfo : virtualized = true → existing = none →
      (s.initializeMethodInfo this name virtualized existing).receiverType = this ∧
      (s.initializeMethodInfo this name virtualized existing).vtableSlot = (s.types this).nextVTableSlot := by
    intro hv he
    subst hv he
    exact ⟨rfl, rfl⟩
  have hle := hs.le
  constructor
  · intro base bases hp
    have hlt := h.ranked this base (by simp [hp])
    rw [emitMethod_types_self, emitMethod_types_of_ne (by omega)]
    exact hs.first base bases hp
  · rw [emitMethod_types_self]
    simp only
    split <;> omega
  · intro f hf hnone
    rw [emitMethod_types_self]
    rcases (mem_virtuals_emitMethod hd).mp hf with hf | ⟨he, hv⟩
    · rw [hg.funcs f (hd.lt hf)] at hnone ⊢
      obtain ⟨h₁, h₂, h₃⟩ := hs.new f hf hnone
      refine ⟨h₁, h₂, ?_⟩
      simp only
      split <;> omega
    · subst he
      rw [emitMethod_funcs_nextFunc] at hnone ⊢
      have hen := (hnew_iff hv).mp hnone
      obtain ⟨h₁, h₂⟩ := hinfo hv hen
      rw [if_pos ⟨hv, hen⟩]
      simp only
      exact ⟨h₁, by omega, by omega⟩
  · intro f hf e he
    rcases (mem_virtuals_emitMethod hd).mp hf with hf | ⟨hfe, hv⟩
    · rw [hg.funcs f (hd.lt hf)] at he ⊢
      obtain ⟨hlt, hm, hrec, hslot⟩ := hs.override f hf e he
      rw [hg.funcs e (by have := hd.lt hf; omega)]
      exact ⟨hlt, hm.mono hg, hrec, hslot⟩
    · subst hfe
      rw [emitMethod_funcs_nextFunc, initializeMethodInfo_existing, if_pos hv] at he
      obtain ⟨hlt, hm⟩ := hex e he
      subst hv he
      rw [hg.funcs e hlt, emitMethod_funcs_nextFunc]
      exact ⟨hlt, hm.mono hg, rfl, rfl⟩
  · -- a new method has the slot that was the next one
    have hold : ∀ f ∈ s.virtuals this, virtualized = true → existing = none →
        ((s.emitMethod this name virtualized existing).funcs f).existing = none →
        ((s.emitMethod this name virtualized existing).funcs f).vtableSlot ≠ (s.types this).nextVTableSlot := by
      intro f hf _ _ hnone
      rw [hg.funcs f (hd.lt hf)] at hnone ⊢
      have := (hs.new f hf hnone).2.2
      omega
    intro f hf g hgm hnf hng hslot
    rcases (mem_virtuals_emitMethod hd).mp hf with hf | ⟨hfe, hv⟩ <;>
      rcases (mem_virtuals_emitMethod hd).mp hgm with hgm | ⟨hge, hv'⟩
    · rw [hg.funcs f (hd.lt hf)] at hnf hslot
      rw [hg.funcs g (hd.lt hgm)] at hng hslot
      exact hs.distinct f hf g hgm hnf hng hslot
    · subst hge
      rw [emitMethod_funcs_nextFunc] at hng hslot
      have hen := (hnew_iff hv').mp hng
      rw [(hinfo hv' hen).2] at hslot
      exact absurd hslot (hold f hf hv' hen hnf)
    · subst hfe
      rw [emitMethod_funcs_nextFunc] at hnf hslot
      have hen := (hnew_iff hv).mp hnf
      rw [(hinfo hv hen).2] at hslot
      exact absurd hslot.symm (hold g hgm hv hen hng)
    · rw [hfe, hge]
  · intro n h₁ h₂
    rw [emitMethod_types_self] at h₁ h₂
    simp only at h₁ h₂
    by_cases hlt : n < (s.types this).nextVTableSlot
    · obtain ⟨f, hf, hnone, hslot⟩ := hs.filled n h₁ hlt
      refine ⟨f, (mem_virtuals_emitMethod hd).mpr (.inl hf), ?_⟩
      rw [hg.funcs f (hd.lt hf)]
      exact ⟨hnone, hslot⟩
    · split at h₂
      · rename_i hve
        refine ⟨s.nextFunc, (mem_virtuals_emitMethod hd).mpr (.inr ⟨rfl, by simpa using hve.1⟩), ?_⟩
        have hv : virtualized = true := by simpa using hve.1
        rw [emitMethod_funcs_nextFunc]
        exact ⟨(hnew_iff hv).mpr hve.2, by rw [(hinfo hv hve.2).2]; omega⟩
      · omega

end Method

end BuilderState

end Crack
