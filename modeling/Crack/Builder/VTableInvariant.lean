import Crack.Builder.VTableSteps

/-!
# The invariant of a run

The first half is about declarations: every class that has begun is soundly
numbered. The second half is about completion: a class is complete once its
bases are and its tables have been recorded; until then it waits in the list of
one incomplete base. `active` are the classes that `fixIncompletes` is working on.
-/
namespace Crack

open Acyclic (Reaches)

namespace BuilderState

variable (h : Hierarchy) (s : BuilderState)

structure Declared : Prop where
  defined : Defined s
  stack_lt : ∀ c ∈ s.stack, c < s.nextClass
  stack_nodup : s.stack.Nodup
  vtableBase_not_mem : h.vtableBaseType ∉ s.stack
  accepted : ∀ c, c < s.nextClass → c ≠ h.vtableBaseType → h.Accepted c
  sound : ∀ c, c < s.nextClass → (h.types c).appendage = false → s.Sound h c
  operClass : ∀ c, c < s.nextClass → h.virtual c = true → (s.types c).defs.lookup "oper class" ≠ none
  operClass_receiver : ∀ c fs, (s.types c).defs.lookup "oper class" = some fs →
    ∃ f, fs = [f] ∧ f ∈ s.virtuals c ∧ (s.funcs f).receiverType = h.vtableBaseType

/-- The recorded tables of the class are right. -/
def HasTables (c : Nat) : Prop := ∃ vtb, (s.types c).vtables = some vtb ∧ s.RightVTables h c vtb

structure Completed (active : List Nat) : Prop where
  complete_lt : ∀ c, (s.types c).complete = true → c < s.nextClass ∧ c ∉ s.stack
  complete_parents : ∀ c, (s.types c).complete = true → ∀ p ∈ h.parents c, (s.types p).complete = true ∨ p ∈ active
  complete_children : ∀ c, (s.types c).complete = true → (s.types c).incompleteChildren = []
  children : ∀ d, ∀ c ∈ (s.types d).incompleteChildren, c < s.nextClass ∧ c ∉ s.stack ∧ d ∈ h.parents c ∧
    ∀ p ∈ h.parents c, p = d ∨ (s.types p).complete = true ∨ p ∈ active
  pending : ∀ c, c < s.nextClass → c ∈ s.stack ∨ (s.types c).complete = true ∨ c ∈ active ∨
    ∃ d ∈ h.parents c, c ∈ (s.types d).incompleteChildren
  tables : ∀ c, (s.types c).complete = true → h.virtual c = true → c ≠ h.vtableBaseType → s.HasTables h c

variable {h s} {s' s'' : BuilderState} {active : List Nat}

theorem Declared.appendage_of_reaches (hi : s.Declared h) {c d : Nat} (hd : Reaches h.parents c d)
    (hc : c < s.nextClass) (ha : (h.types c).appendage = false) : (h.types d).appendage = false := by
  obtain ⟨is, hd⟩ := hd
  induction hd with
  | here => exact ha
  | step hp t ih =>
    have hmem := List.mem_of_getElem? hp
    have hlt := h.ranked _ _ hmem
    exact ih (by omega) ((hi.accepted _ hc (h.ne_vtableBase_of_mem hmem)).parent_appendage ha hmem)

theorem Declared.soundFrom (hi : s.Declared h) {c : Nat} (hc : c < s.nextClass)
    (ha : (h.types c).appendage = false) : s.SoundFrom h c := by
  intro d hd
  have := hd.le h.ranked
  exact hi.sound d (by omega) (hi.appendage_of_reaches hd hc ha)

theorem virtual_iff {c : Nat} : h.virtual c = true ↔ h.hasVTable c = true ∧ (h.types c).appendage = false := by
  simp [Hierarchy.virtual]

theorem Completed.weaken {active' : List Nat} (hi : s.Completed h active) (hs : ∀ c ∈ active, c ∈ active') :
    s.Completed h active' := by
  refine ⟨hi.complete_lt, ?_, hi.complete_children, ?_, ?_, hi.tables⟩
  · intro c hc p hp
    exact (hi.complete_parents c hc p hp).imp_right (hs p)
  · intro d c hc
    obtain ⟨h₁, h₂, h₃, h₄⟩ := hi.children d c hc
    exact ⟨h₁, h₂, h₃, fun p hp => (h₄ p hp).imp_right (fun h => h.imp_right (hs p))⟩
  · intro c hc
    rcases hi.pending c hc with h₁ | h₂ | h₃ | h₄
    · exact .inl h₁
    · exact .inr (.inl h₂)
    · exact .inr (.inr (.inl (hs c h₃)))
    · exact .inr (.inr (.inr h₄))

/-- Where nothing is active, all ancestors of a complete class are complete. -/
theorem Completed.reaches (hi : s.Completed h []) {c d : Nat} (hd : Reaches h.parents c d)
    (hc : (s.types c).complete = true) : (s.types d).complete = true := by
  obtain ⟨is, hd⟩ := hd
  induction hd with
  | here => exact hc
  | step hp t ih => exact ih (by simpa using hi.complete_parents _ hc _ (List.mem_of_getElem? hp))

/-- The declarations are the same, and what was complete or waiting only became complete. -/
structure Keeps (h : Hierarchy) (s s' : BuilderState) : Prop where
  funcs : s'.funcs = s.funcs
  nextFunc : s'.nextFunc = s.nextFunc
  stack : s'.stack = s.stack
  nextClass : s'.nextClass = s.nextClass
  defs : ∀ c, (s'.types c).defs = (s.types c).defs
  first : ∀ c, (s'.types c).firstVTableSlot = (s.types c).firstVTableSlot
  next : ∀ c, (s'.types c).nextVTableSlot = (s.types c).nextVTableSlot
  complete : ∀ c, (s.types c).complete = true → (s'.types c).complete = true
  children : ∀ c, ∀ k ∈ (s'.types c).incompleteChildren, k ∈ (s.types c).incompleteChildren
  tables : ∀ c, s.HasTables h c → s'.HasTables h c

theorem Keeps.refl (s : BuilderState) : Keeps h s s := by
  constructor <;> simp

theorem Keeps.trans (h₁ : Keeps h s s') (h₂ : Keeps h s' s'') : Keeps h s s'' where
  funcs := h₂.funcs.trans h₁.funcs
  nextFunc := h₂.nextFunc.trans h₁.nextFunc
  stack := h₂.stack.trans h₁.stack
  nextClass := h₂.nextClass.trans h₁.nextClass
  defs c := (h₂.defs c).trans (h₁.defs c)
  first c := (h₂.first c).trans (h₁.first c)
  next c := (h₂.next c).trans (h₁.next c)
  complete c hc := h₂.complete c (h₁.complete c hc)
  children c k hk := h₁.children c k (h₂.children c k hk)
  tables c hc := h₂.tables c (h₁.tables c hc)

theorem virtuals_congr {c : Nat} (hf : s'.funcs = s.funcs) (hd : (s'.types c).defs = (s.types c).defs) :
    s'.virtuals c = s.virtuals c := by
  unfold virtuals
  rw [hf, hd]

/-- A change of one class that leaves its methods and slots alone. -/
structure SameMethods (s s' : BuilderState) : Prop where
  funcs : s'.funcs = s.funcs
  nextFunc : s'.nextFunc = s.nextFunc
  defs : ∀ c, (s'.types c).defs = (s.types c).defs
  first : ∀ c, (s'.types c).firstVTableSlot = (s.types c).firstVTableSlot
  next : ∀ c, (s'.types c).nextVTableSlot = (s.types c).nextVTableSlot

theorem SameMethods.sameClass (hm : SameMethods s s') (c : Nat) : SameClass s s' c :=
  ⟨fun f => by rw [virtuals_congr hm.funcs (hm.defs c)], hm.first c, hm.next c⟩

theorem SameMethods.grows (hm : SameMethods s s') : Grows s s' :=
  ⟨Nat.le_of_eq hm.nextFunc.symm, fun f _ => by rw [hm.funcs], fun c f hf => ((hm.sameClass c).virtuals f).mpr hf⟩

theorem SameMethods.defined (hm : SameMethods s s') (hn : s'.nextClass = s.nextClass) (hd : Defined s) :
    Defined s' := by
  constructor
  · intro c o ho f hf
    rw [hm.defs] at ho
    rw [hm.nextFunc]
    exact hd.defs c o ho f hf
  · rw [hm.nextFunc, hm.funcs]
    exact hd.existing
  · intro c f hf
    rw [hm.funcs]
    exact hd.owner c f (((hm.sameClass c).virtuals f).mp hf)
  · rw [hm.nextFunc, hm.funcs, hn]
    exact hd.owner_lt
  · intro f hf hv
    rw [hm.nextFunc] at hf
    rw [hm.funcs] at hv ⊢
    exact ((hm.sameClass _).virtuals f).mpr (hd.mem f hf hv)

theorem SameMethods.hasTables (hm : SameMethods s s') (hd : Defined s) {c : Nat}
    (hv : (s'.types c).vtables = (s.types c).vtables) (ht : s.HasTables h c) : s'.HasTables h c := by
  obtain ⟨vtb, he, hr⟩ := ht
  exact ⟨vtb, hv.trans he, hr.transfer hd hm.grows (fun d _ => hm.sameClass d)⟩

theorem Keeps.sameMethods (hk : Keeps h s s') : SameMethods s s' :=
  ⟨hk.funcs, hk.nextFunc, hk.defs, hk.first, hk.next⟩

/-- Declarations that stay the same stay sound, whatever happens to the stack and to completion. -/
theorem Declared.of_sameMethods (hi : s.Declared h) (hm : SameMethods s s') (hn : s'.nextClass = s.nextClass)
    (hlt : ∀ c ∈ s'.stack, c ∈ s.stack) (hnd : s'.stack.Nodup) : s'.Declared h := by
  have hv : ∀ c, s'.virtuals c = s.virtuals c := fun c => virtuals_congr hm.funcs (hm.defs c)
  constructor
  · exact hm.defined hn hi.defined
  · rw [hn]
    exact fun c hc => hi.stack_lt c (hlt c hc)
  · exact hnd
  · exact fun hc => hi.vtableBase_not_mem (hlt _ hc)
  · rw [hn]
    exact hi.accepted
  · intro c hc ha
    rw [hn] at hc
    exact (hi.sound c hc ha).transfer hi.defined hm.grows (hm.sameClass c) (fun _ base _ => hm.next base)
  · intro c hc
    rw [hn] at hc
    rw [hm.defs]
    exact hi.operClass c hc
  · intro c fs
    rw [hm.defs, hv, hm.funcs]
    exact hi.operClass_receiver c fs

theorem Keeps.declared (hk : Keeps h s s') (hi : s.Declared h) : s'.Declared h :=
  hi.of_sameMethods hk.sameMethods hk.nextClass (by rw [hk.stack]; exact fun c hc => hc)
    (by rw [hk.stack]; exact hi.stack_nodup)

section Types

variable {c : Nat} {t : BTypeDef}

@[simp] theorem setType_types_self : (s.setType c t).types c = t := by simp [setType]

theorem setType_types_of_ne {d : Nat} (hd : d ≠ c) : (s.setType c t).types d = s.types d := by
  simp [setType, Function.update_of_ne hd]

@[simp] theorem setType_funcs : (s.setType c t).funcs = s.funcs := rfl

theorem sameMethods_setType (hd : t.defs = (s.types c).defs)
    (h₁ : t.firstVTableSlot = (s.types c).firstVTableSlot) (h₂ : t.nextVTableSlot = (s.types c).nextVTableSlot) :
    SameMethods s (s.setType c t) := by
  refine ⟨rfl, rfl, ?_, ?_, ?_⟩ <;> intro d <;> by_cases hdc : d = c
  · subst hdc; simpa using hd
  · rw [setType_types_of_ne hdc]
  · subst hdc; simpa using h₁
  · rw [setType_types_of_ne hdc]
  · subst hdc; simpa using h₂
  · rw [setType_types_of_ne hdc]

end Types

/-- `VTableBase` has no root, so the notion does not apply to it. -/
theorem not_hasTables_vtableBase : ¬ s.HasTables h h.vtableBaseType := by
  rintro ⟨vtb, -, hr⟩
  obtain ⟨root, hroot, -⟩ := hr.first
  exact Hierarchy.not_rootOf_vtableBase root ((hr.roots root).mp hroot)

/-- The tables of a class are recorded. -/
theorem Completed.record (hi : s.Completed h active) (hdef : Defined s) {c : Nat} {vtb : VTableBuilder}
    (hr : c ≠ h.vtableBaseType → s.RightVTables h c vtb) :
    Keeps h s (s.setType c { s.types c with vtables := some vtb }) ∧
      (s.setType c { s.types c with vtables := some vtb }).Completed h active ∧
      (c ≠ h.vtableBaseType → (s.setType c { s.types c with vtables := some vtb }).HasTables h c) := by
  have hm : SameMethods s (s.setType c { s.types c with vtables := some vtb }) := sameMethods_setType rfl rfl rfl
  have hcomp : ∀ d, ((s.setType c { s.types c with vtables := some vtb }).types d).complete =
      (s.types d).complete := by
    intro d
    by_cases hd : d = c
    · subst hd; simp
    · rw [setType_types_of_ne hd]
  have hchild : ∀ d, ((s.setType c { s.types c with vtables := some vtb }).types d).incompleteChildren =
      (s.types d).incompleteChildren := by
    intro d
    by_cases hd : d = c
    · subst hd; simp
    · rw [setType_types_of_ne hd]
  have hself : c ≠ h.vtableBaseType → (s.setType c { s.types c with vtables := some vtb }).HasTables h c :=
    fun hne => ⟨vtb, by simp, (hr hne).transfer hdef hm.grows (fun d _ => hm.sameClass d)⟩
  have htab : ∀ d, s.HasTables h d → (s.setType c { s.types c with vtables := some vtb }).HasTables h d := by
    intro d ht
    by_cases hd : d = c
    · subst hd
      exact hself (fun he => not_hasTables_vtableBase (he ▸ ht))
    · exact hm.hasTables hdef (by rw [setType_types_of_ne hd]) ht
  refine ⟨⟨rfl, rfl, rfl, rfl, hm.defs, hm.first, hm.next, ?_, ?_, htab⟩, ?_, hself⟩
  · exact fun d hd => by rw [hcomp]; exact hd
  · exact fun d k hk => by rw [hchild] at hk; exact hk
  · constructor
    · intro d hd
      rw [hcomp] at hd
      exact hi.complete_lt d hd
    · intro d hd p hp
      rw [hcomp] at hd ⊢
      exact hi.complete_parents d hd p hp
    · intro d hd
      rw [hcomp] at hd
      rw [hchild]
      exact hi.complete_children d hd
    · intro d k hk
      rw [hchild] at hk
      simp only [hcomp]
      exact hi.children d k hk
    · intro d hd
      rw [hcomp]
      simp only [hchild]
      exact hi.pending d hd
    · intro d hd hv hne
      rw [hcomp] at hd
      exact htab d (hi.tables d hd hv hne)

/-- A class is marked complete when its bases are and its dependents have been. -/
theorem Completed.finish {c : Nat} (hi : s.Completed h (c :: active)) (hdef : Defined s) (hc : c < s.nextClass)
    (hstack : c ∉ s.stack) (hp : ∀ p ∈ h.parents c, (s.types p).complete = true ∨ p ∈ active)
    (ht : h.virtual c = true → c ≠ h.vtableBaseType → s.HasTables h c)
    (hk : ∀ k ∈ (s.types c).incompleteChildren, (s.types k).complete = true) :
    Keeps h s (s.setType c { s.types c with incompleteChildren := [], complete := true }) ∧
      (s.setType c { s.types c with incompleteChildren := [], complete := true }).Completed h active := by
  have hm : SameMethods s (s.setType c { s.types c with incompleteChildren := [], complete := true }) :=
    sameMethods_setType rfl rfl rfl
  have hcomp : ∀ d, (((s.setType c { s.types c with incompleteChildren := [], complete := true }).types d).complete =
      true ↔ (s.types d).complete = true ∨ d = c) := by
    intro d
    by_cases hd : d = c
    · subst hd; simp
    · rw [setType_types_of_ne hd]
      simp [hd]
  have hchild : ∀ d, ((s.setType c { s.types c with incompleteChildren := [], complete := true }).types d).incompleteChildren =
      if d = c then [] else (s.types d).incompleteChildren := by
    intro d
    by_cases hd : d = c
    · subst hd; simp
    · rw [setType_types_of_ne hd, if_neg hd]
  have htab : ∀ d, s.HasTables h d →
      (s.setType c { s.types c with incompleteChildren := [], complete := true }).HasTables h d := by
    intro d htd
    refine hm.hasTables hdef ?_ htd
    by_cases hd : d = c
    · subst hd; simp
    · rw [setType_types_of_ne hd]
  -- a class that was waited for as active is complete now
  have hactive : ∀ p, (s.types p).complete = true ∨ p ∈ c :: active →
      ((s.types p).complete = true ∨ p = c) ∨ p ∈ active := by
    rintro p (hp | hp)
    · exact .inl (.inl hp)
    · rcases List.mem_cons.mp hp with hp | hp
      · exact .inl (.inr hp)
      · exact .inr hp
  refine ⟨⟨rfl, rfl, rfl, rfl, hm.defs, hm.first, hm.next, ?_, ?_, htab⟩, ?_⟩
  · exact fun d hd => (hcomp d).mpr (.inl hd)
  · intro d k hkd
    rw [hchild] at hkd
    split at hkd
    · cases hkd
    · exact hkd
  · constructor
    · intro d hd
      rcases (hcomp d).mp hd with hd | hd
      · exact hi.complete_lt d hd
      · subst hd; exact ⟨hc, hstack⟩
    · intro d hd p hpd
      rw [hcomp]
      rcases (hcomp d).mp hd with hd | hd
      · exact hactive p (hi.complete_parents d hd p hpd)
      · subst hd
        exact (hp p hpd).imp_left .inl
    · intro d hd
      rw [hchild]
      split
      · rfl
      · rename_i hne
        exact hi.complete_children d (((hcomp d).mp hd).resolve_right hne)
    · intro d k hkd
      rw [hchild] at hkd
      split at hkd
      · cases hkd
      · obtain ⟨h₁, h₂, h₃, h₄⟩ := hi.children d k hkd
        refine ⟨h₁, h₂, h₃, ?_⟩
        intro p hpk
        rw [hcomp]
        rcases h₄ p hpk with h₄ | h₄
        · exact .inl h₄
        · exact .inr (hactive p h₄)
    · intro d hd
      rw [hcomp]
      rcases hi.pending d hd with h₁ | h₂ | h₃ | ⟨e, he, hde⟩
      · exact .inl h₁
      · exact .inr (.inl (.inl h₂))
      · rcases List.mem_cons.mp h₃ with h₃ | h₃
        · exact .inr (.inl (.inr h₃))
        · exact .inr (.inr (.inl h₃))
      · by_cases hec : e = c
        · subst hec
          exact .inr (.inl (.inl (hk d hde)))
        · refine .inr (.inr (.inr ⟨e, he, ?_⟩))
          rw [hchild, if_neg hec]
          exact hde
    · intro d hd hv hne
      rcases (hcomp d).mp hd with hd | hd
      · exact htab d (hi.tables d hd hv hne)
      · subst hd
        exact htab d (ht hv hne)

/-- No slot moves when the class is completed, and the tables are recorded. -/
theorem fixVTables_ok (hd : s.Declared h) (hi : s.Completed h active) {c : Nat} (hc : c < s.nextClass) :
    ∃ s₁, s.fixVTables h c = .ok s₁ ∧ Keeps h s s₁ ∧ s₁.Completed h active ∧
      (h.virtual c = true → c ≠ h.vtableBaseType → s₁.HasTables h c) := by
  unfold fixVTables
  by_cases hv : h.virtual c = true
  · obtain ⟨hvt, ha⟩ := virtual_iff.mp hv
    have hs := hd.soundFrom hc ha
    have hvtb : ∃ vtb, s.emitVTables h c = .ok vtb ∧ (c ≠ h.vtableBaseType → s.RightVTables h c vtb) := by
      by_cases hcv : c = h.vtableBaseType
      · subst hcv
        obtain ⟨vtb, he⟩ := hs.emitVTables_vtableBase
        exact ⟨vtb, he, fun hne => absurd rfl hne⟩
      · obtain ⟨vtb, he, hr⟩ := hs.emitVTables hcv hvt
        exact ⟨vtb, he, fun _ => hr⟩
    obtain ⟨vtb, he, hr⟩ := hvtb
    obtain ⟨hk, hi', ht⟩ := hi.record hd.defined hr
    refine ⟨_, ?_, hk, hi', fun _ => ht⟩
    rw [if_pos hv]
    cases hp : h.parents c with
    | nil =>
      simp only [bind, Except.bind, he]
      rfl
    | cons base bases =>
      have hfirst := (hs.self.numbered hvt).first base bases hp
      simp only [hfirst, Nat.lt_irrefl, if_false, bind, Except.bind, he]
      rfl
  · rw [if_neg hv]
    exact ⟨s, rfl, .refl s, hi, fun hv' => absurd hv' hv⟩

/-- `fixIncompletes` on a class whose bases are complete or being completed. -/
theorem fixIncompletes_ok (fuel : Nat) {s : BuilderState} {active : List Nat} {c : Nat} (hd : s.Declared h)
    (hi : s.Completed h (c :: active)) (hc : c < s.nextClass) (hstack : c ∉ s.stack)
    (hp : ∀ p ∈ h.parents c, (s.types p).complete = true ∨ p ∈ active) (hfuel : s.nextClass ≤ c + fuel) :
    ∃ s', fixIncompletes h fuel s c = .ok s' ∧ Keeps h s s' ∧ s'.Completed h active ∧
      (s'.types c).complete = true := by
  induction fuel generalizing s active c with
  | zero => omega
  | succ fuel ih =>
    obtain ⟨s₁, he₁, hk₁, hi₁, ht₁⟩ := fixVTables_ok hd hi hc
    have hloop : ∀ (ks : List Nat) (s₁ : BuilderState), s₁.Declared h → s₁.Completed h (c :: active) →
        s₁.nextClass = s.nextClass → (∀ k ∈ ks, k < s₁.nextClass ∧ k ∉ s₁.stack ∧ c ∈ h.parents k ∧
          ∀ p ∈ h.parents k, (s₁.types p).complete = true ∨ p ∈ c :: active) →
        ∃ s₂, ks.foldlM (fun s child => fixIncompletes h fuel s child) s₁ = .ok s₂ ∧ Keeps h s₁ s₂ ∧
          s₂.Completed h (c :: active) ∧ ∀ k ∈ ks, (s₂.types k).complete = true := by
      intro ks
      induction ks with
      | nil => exact fun s₁ _ hi₁ _ _ => ⟨s₁, rfl, .refl s₁, hi₁, by simp⟩
      | cons k ks ihk =>
        intro s₁ hd₁ hi₁ hn₁ hks
        obtain ⟨hlt, hns, hck, hpk⟩ := hks k (by simp)
        have hgt := h.ranked k c hck
        obtain ⟨s₂, he₂, hk₂, hi₂, hc₂⟩ := ih hd₁ (hi₁.weaken (fun d hd => by simp [List.mem_cons.mp hd]))
          hlt hns hpk (by omega)
        obtain ⟨s₃, he₃, hk₃, hi₃, hc₃⟩ := ihk s₂ (hk₂.declared hd₁) hi₂ (by rw [hk₂.nextClass, hn₁]) (by
          intro k' hk'
          obtain ⟨h₁, h₂, h₃, h₄⟩ := hks k' (by simp [hk'])
          rw [hk₂.nextClass, hk₂.stack]
          exact ⟨h₁, h₂, h₃, fun p hp => (h₄ p hp).imp_left (hk₂.complete p)⟩)
        refine ⟨s₃, ?_, hk₂.trans hk₃, hi₃, ?_⟩
        · rw [List.foldlM_cons, he₂]
          exact he₃
        · intro k' hk'
          rcases List.mem_cons.mp hk' with he | hk'
          · subst he
            exact hk₃.complete k' hc₂
          · exact hc₃ k' hk'
    have hd₁ := hk₁.declared hd
    obtain ⟨s₂, he₂, hk₂, hi₂, hc₂⟩ := hloop (s₁.types c).incompleteChildren s₁ hd₁ hi₁ hk₁.nextClass (by
      intro k hk
      obtain ⟨h₁, h₂, h₃, h₄⟩ := hi₁.children c k hk
      refine ⟨h₁, h₂, h₃, ?_⟩
      intro p hpk
      rcases h₄ p hpk with h₄ | h₄
      · exact .inr (by simp [h₄])
      · exact h₄)
    have hk₁₂ := hk₁.trans hk₂
    obtain ⟨hk₃, hi₃⟩ := hi₂.finish (hk₁₂.declared hd).defined (by rw [hk₁₂.nextClass]; exact hc)
      (by rw [hk₁₂.stack]; exact hstack) (fun p hpc => (hp p hpc).imp_left (hk₁₂.complete p))
      (fun hv hne => hk₂.tables c (ht₁ hv hne)) (fun k hk => hc₂ k (hk₂.children c k hk))
    refine ⟨_, ?_, hk₁₂.trans hk₃, hi₃, by simp⟩
    unfold fixIncompletes
    simp only [bind, Except.bind, he₁, he₂]
    rfl

end BuilderState

end Crack
