import Crack.Model.Rectify

/-!
# What the check for abstract methods decides

Each loop of the check computes a filter of the methods it walks over, as long
as look-up finds a function for the abstract ones. It dereferences null or
fails an assertion at the first method for which look-up finds none.
-/
namespace Crack

namespace ClassTable

open Acyclic (Reaches)

variable (h : ClassTable)

/-- What the signature look-up from `this` finds for a method of an ancestor. -/
def implementation (this : Nat) (f : FuncDef) : Option FuncDef :=
  match h.lookUp this f.name with
  | some (.overload overloads) => overloads.getSigMatch f.args false
  | _ => none

/-- `f` is declared by `this` or by an ancestor. -/
def HasMethod (this : Nat) (f : FuncDef) : Prop :=
  ∃ d, Reaches h.parents this d ∧ ∃ e ∈ (h.members d).defs, f ∈ topFuncs e.2

/-- An abstract method without a non-abstract override of the same receiver type
where look-up from `this` ends. -/
structure Unimplemented (this : Nat) (f : FuncDef) : Prop where
  method : h.HasMethod this f
  abstract : f.abstract = true
  override : ∀ g, h.implementation this f = some g → g.abstract = true ∨ g.receiverType ≠ f.receiverType

def unimplemented (this : Nat) (f : FuncDef) : Bool :=
  f.abstract && (h.implementation this f).all (fun g => g.abstract || f.receiverType != g.receiverType)

/-- All methods in the order of `gotAbstractFuncs`, a class before its bases. -/
def methods : Nat → List FuncDef :=
  Acyclic.fix [] (fun methods c =>
    (h.members c).defs.flatMap (fun e => topFuncs e.2) ++ (h.parents c).flatMap methods)

/-- The look-up finds a function for every abstract method among `fs`. -/
def LooksUp (this : Nat) (fs : List FuncDef) : Prop :=
  ∀ f ∈ fs, f.abstract = true → (h.implementation this f).isSome = true

variable {h} {this : Nat} {e : Halt} {f : FuncDef}

/-- A check that has no errors of its own. -/
def CrashOrOk (r : Except Halt (Bool × List FuncDef)) : Prop := (∃ e, e.Crash ∧ r = .error e) ∨ ∃ v, r = .ok v

section Loops

variable {α : Type} {visit : α → List FuncDef → Except Halt (Bool × List FuncDef)} {m : α → List FuncDef}

/-- A loop whose body adds `m x` adds all of these in order. -/
theorem anyAbstract_ok (collect : Bool) (xs : List α)
    (hv : ∀ x ∈ xs, ∀ fs, visit x fs = .ok (!(m x).isEmpty, if collect then fs ++ m x else fs)) :
    ∀ fs, anyAbstract collect visit xs fs =
      .ok (!(xs.flatMap m).isEmpty, if collect then fs ++ xs.flatMap m else fs) := by
  induction xs with
  | nil => intro fs; cases collect <;> simp [anyAbstract]
  | cons x xs ih =>
    intro fs
    have ih := ih (fun y hy => hv y (by simp [hy]))
    rw [anyAbstract, hv x (by simp) fs]
    simp only [bind, Except.bind, ih, pure, Except.pure]
    cases collect <;> cases hm : m x <;> simp [hm]

theorem anyAbstract_crashOrOk (collect : Bool) (xs : List α) (hv : ∀ x ∈ xs, ∀ fs, CrashOrOk (visit x fs)) :
    ∀ fs, CrashOrOk (anyAbstract collect visit xs fs) := by
  induction xs with
  | nil => intro fs; exact .inr ⟨_, rfl⟩
  | cons x xs ih =>
    intro fs
    rw [anyAbstract]
    rcases hv x (by simp) fs with ⟨e, he, hx⟩ | ⟨⟨got, fs'⟩, hx⟩
    · exact .inl ⟨e, he, by rw [hx]; rfl⟩
    · simp only [hx, bind, Except.bind]
      split
      · exact .inr ⟨_, rfl⟩
      · rcases ih (fun y hy => hv y (by simp [hy])) fs' with ⟨e, he, hr⟩ | ⟨v, hr⟩
        · exact .inl ⟨e, he, by rw [hr]⟩
        · exact .inr ⟨_, by rw [hr]; rfl⟩

/-- A loop that collects meets the crash of any of its elements. -/
theorem anyAbstract_crash (xs : List α) (hv : ∀ x ∈ xs, ∀ fs, CrashOrOk (visit x fs))
    {x : α} (hx : x ∈ xs) (hc : ∀ fs, ∃ e, e.Crash ∧ visit x fs = .error e) :
    ∀ fs, ∃ e, e.Crash ∧ anyAbstract true visit xs fs = .error e := by
  induction xs with
  | nil => cases hx
  | cons y ys ih =>
    intro fs
    rw [anyAbstract]
    rcases hv y (by simp) fs with ⟨e, he, hy⟩ | ⟨⟨got, fs'⟩, hy⟩
    · exact ⟨e, he, by rw [hy]; rfl⟩
    · rcases List.mem_cons.mp hx with hx | hx
      · subst hx
        obtain ⟨e, he, hc⟩ := hc fs
        rw [hy] at hc
        cases hc
      · obtain ⟨e, he, hr⟩ := ih (fun z hz => hv z (by simp [hz])) hx fs'
        exact ⟨e, he, by simp [hy, hr, bind, Except.bind]⟩

end Loops

theorem anyAbstract_congr {α : Type} {visit visit' : α → List FuncDef → Except Halt (Bool × List FuncDef)}
    (collect : Bool) (xs : List α) (hv : ∀ x ∈ xs, visit x = visit' x) :
    anyAbstract collect visit xs = anyAbstract collect visit' xs := by
  induction xs with
  | nil => rfl
  | cons x xs ih =>
    funext fs
    rw [anyAbstract, anyAbstract, hv x (by simp), ih (fun y hy => hv y (by simp [hy]))]

theorem methods_eq (c : Nat) :
    h.methods c = (h.members c).defs.flatMap (fun e => topFuncs e.2) ++ (h.parents c).flatMap h.methods := by
  unfold methods
  rw [Acyclic.fix_eq h.ranked]
  intro c r r' hr
  simp only [List.flatMap_congr hr]

theorem gotAbstractFuncs_eq (this : Nat) (collect : Bool) (c : Nat) :
    h.gotAbstractFuncs this collect c = fun abstractFuncs => do
      let (got, abstractFuncs) ←
        anyAbstract collect (fun d => h.hasAbstractFuncs this collect d.2) (h.members c).defs abstractFuncs
      if got && !collect then return (true, abstractFuncs)
      let (gotAbove, abstractFuncs) ←
        anyAbstract collect (h.gotAbstractFuncs this collect) (h.parents c) abstractFuncs
      return (got || gotAbove, abstractFuncs) := by
  unfold gotAbstractFuncs
  rw [Acyclic.fix_eq h.ranked]
  intro c r r' hr
  simp only [anyAbstract_congr collect (h.parents c) hr]

theorem mem_methods (c : Nat) (f : FuncDef) : f ∈ h.methods c ↔ h.HasMethod c f := by
  induction c using h.ranked.induction with
  | step c ih =>
    rw [methods_eq, List.mem_append, List.mem_flatMap, List.mem_flatMap]
    constructor
    · rintro (hf | ⟨p, hp, hf⟩)
      · exact ⟨c, .refl c, hf⟩
      · obtain ⟨d, hd, he⟩ := (ih p hp).mp hf
        exact ⟨d, (Reaches.of_parent hp).trans hd, he⟩
    · rintro ⟨d, hd, he⟩
      rcases Acyclic.reaches_iff.mp hd with hd | ⟨p, hp, hd⟩
      · subst hd; exact .inl he
      · exact .inr ⟨p, hp, (ih p hp).mpr ⟨d, hd, he⟩⟩

theorem isAbstract_eq (this : Nat) (f : FuncDef) (ha : f.abstract = true) :
    (∃ e, e.Crash ∧ h.implementation this f = none ∧ h.isAbstract this f = .error e) ∨
      ∃ g, h.implementation this f = some g ∧
        h.isAbstract this f = .ok (g.abstract || f.receiverType != g.receiverType) := by
  unfold isAbstract implementation
  rw [if_pos ha]
  cases h.lookUp this f.name with
  | none => exact .inl ⟨_, .inl rfl, rfl, rfl⟩
  | some d =>
    cases d with
    | other => exact .inl ⟨_, .inl rfl, rfl, rfl⟩
    | overload overloads =>
      cases hg : overloads.getSigMatch f.args false with
      | none => exact .inl ⟨_, .inr rfl, hg, by simp only [hg]⟩
      | some g => exact .inr ⟨g, hg, by simp only [hg]⟩

theorem isAbstract_ok (this : Nat) (f : FuncDef)
    (hf : f.abstract = true → (h.implementation this f).isSome = true) :
    h.isAbstract this f = .ok (h.unimplemented this f) := by
  by_cases ha : f.abstract = true
  · have hs := hf ha
    rcases isAbstract_eq (h := h) this f ha with ⟨e, _, hn, _⟩ | ⟨g, hg, he⟩
    · rw [hn] at hs; cases hs
    · simp [he, unimplemented, ha, hg]
  · simp [isAbstract, unimplemented, ha]

theorem hasAbstractFuncs_ok (this : Nat) (collect : Bool) (d : VarDef) (hl : h.LooksUp this (topFuncs d))
    (fs : List FuncDef) : h.hasAbstractFuncs this collect d fs =
      .ok (!((topFuncs d).filter (h.unimplemented this)).isEmpty,
        if collect then fs ++ (topFuncs d).filter (h.unimplemented this) else fs) := by
  have hm : (topFuncs d).filter (h.unimplemented this) =
      (topFuncs d).flatMap (fun f => [f].filter (h.unimplemented this)) := by
    rw [← List.filter_flatMap, List.flatMap_singleton']
  rw [hasAbstractFuncs, hm]
  refine anyAbstract_ok collect _ (fun f hf fs => ?_) fs
  rw [isAbstract_ok this f (hl f hf)]
  cases collect <;> cases hu : h.unimplemented this f <;> simp [hu, bind, Except.bind, pure, Except.pure]

theorem isAbstract_crashOrOk (this : Nat) (f : FuncDef) (k : Bool → Bool × List FuncDef) :
    CrashOrOk (do let abs ← h.isAbstract this f; return k abs) := by
  by_cases ha : f.abstract = true
  · rcases isAbstract_eq (h := h) this f ha with ⟨e, he, _, hr⟩ | ⟨g, _, hr⟩
    · exact .inl ⟨e, he, by rw [hr]; rfl⟩
    · exact .inr ⟨_, by rw [hr]; rfl⟩
  · exact .inr ⟨_, by rw [isAbstract, if_neg ha]; rfl⟩

theorem hasAbstractFuncs_crashOrOk (this : Nat) (collect : Bool) (d : VarDef) (fs : List FuncDef) :
    CrashOrOk (h.hasAbstractFuncs this collect d fs) :=
  anyAbstract_crashOrOk collect _ (fun f _ _ => isAbstract_crashOrOk this f _) fs

theorem hasAbstractFuncs_crash (this : Nat) (d : VarDef) (hf : f ∈ topFuncs d) (ha : f.abstract = true)
    (hn : h.implementation this f = none) (fs : List FuncDef) :
    ∃ e, e.Crash ∧ h.hasAbstractFuncs this true d fs = .error e := by
  refine anyAbstract_crash _ (fun f _ _ => isAbstract_crashOrOk this f _) hf (fun fs => ?_) fs
  rcases isAbstract_eq (h := h) this f ha with ⟨e, he, _, hr⟩ | ⟨g, hg, _⟩
  · exact ⟨e, he, by rw [hr]; rfl⟩
  · rw [hn] at hg; cases hg

theorem LooksUp.append {fs fs' : List FuncDef} :
    h.LooksUp this (fs ++ fs') ↔ h.LooksUp this fs ∧ h.LooksUp this fs' := by
  simp only [LooksUp, List.mem_append]
  constructor
  · intro hl; exact ⟨fun f hf => hl f (.inl hf), fun f hf => hl f (.inr hf)⟩
  · rintro ⟨h₁, h₂⟩ f (hf | hf)
    · exact h₁ f hf
    · exact h₂ f hf

theorem LooksUp.of_flatMap {α : Type} {xs : List α} {m : α → List FuncDef} (hl : h.LooksUp this (xs.flatMap m)) :
    ∀ x ∈ xs, h.LooksUp this (m x) :=
  fun x hx f hf => hl f (List.mem_flatMap.mpr ⟨x, hx, hf⟩)

/-- With a function for every abstract method, the check finds the unimplemented ones in order. -/
theorem gotAbstractFuncs_ok (this : Nat) (collect : Bool) (c : Nat) (hl : h.LooksUp this (h.methods c))
    (fs : List FuncDef) : h.gotAbstractFuncs this collect c fs =
      .ok (!((h.methods c).filter (h.unimplemented this)).isEmpty,
        if collect then fs ++ (h.methods c).filter (h.unimplemented this) else fs) := by
  induction c using h.ranked.induction generalizing fs with
  | step c ih =>
    rw [methods_eq, LooksUp.append] at hl
    have hdefs := anyAbstract_ok collect (h.members c).defs (fun d hd fs =>
      hasAbstractFuncs_ok this collect d.2 (hl.1.of_flatMap d hd) fs)
    have hparents := anyAbstract_ok collect (h.parents c) (fun p hp fs => ih p hp (hl.2.of_flatMap p hp) fs)
    rw [gotAbstractFuncs_eq, methods_eq, List.filter_append, List.filter_flatMap, List.filter_flatMap]
    simp only [hdefs, bind, Except.bind, hparents, pure, Except.pure]
    generalize (h.members c).defs.flatMap _ = own
    generalize (h.parents c).flatMap _ = above
    cases collect <;> cases own <;> simp

theorem gotAbstractFuncs_crashOrOk (this : Nat) (collect : Bool) (c : Nat) (fs : List FuncDef) :
    CrashOrOk (h.gotAbstractFuncs this collect c fs) := by
  induction c using h.ranked.induction generalizing fs with
  | step c ih =>
    have hdefs := anyAbstract_crashOrOk collect (h.members c).defs (fun d _ fs =>
      hasAbstractFuncs_crashOrOk (h := h) this collect d.2 fs)
    have hparents := anyAbstract_crashOrOk collect (h.parents c) ih
    rw [gotAbstractFuncs_eq]
    rcases hdefs fs with ⟨e, he, hr⟩ | ⟨⟨got, fs'⟩, hr⟩
    · exact .inl ⟨e, he, by simp only [hr, bind, Except.bind]⟩
    · simp only [hr, bind, Except.bind]
      split
      · exact .inr ⟨_, rfl⟩
      · rcases hparents fs' with ⟨e, he, hr⟩ | ⟨v, hr⟩
        · exact .inl ⟨e, he, by rw [hr]⟩
        · exact .inr ⟨_, by rw [hr]; rfl⟩

theorem gotAbstractFuncs_crash (this c : Nat) (hf : f ∈ h.methods c) (ha : f.abstract = true)
    (hn : h.implementation this f = none) (fs : List FuncDef) :
    ∃ e, e.Crash ∧ h.gotAbstractFuncs this true c fs = .error e := by
  induction c using h.ranked.induction generalizing fs with
  | step c ih =>
    rw [gotAbstractFuncs_eq]
    have hdefs := fun d (_ : d ∈ (h.members c).defs) fs => hasAbstractFuncs_crashOrOk (h := h) this true d.2 fs
    rw [methods_eq, List.mem_append, List.mem_flatMap, List.mem_flatMap] at hf
    rcases hf with ⟨d, hd, hf⟩ | ⟨p, hp, hf⟩
    · obtain ⟨e, he, hr⟩ := anyAbstract_crash _ hdefs hd (hasAbstractFuncs_crash this d.2 hf ha hn) fs
      exact ⟨e, he, by simp only [hr, bind, Except.bind]⟩
    · rcases anyAbstract_crashOrOk true _ hdefs fs with ⟨e, he, hr⟩ | ⟨⟨got, fs'⟩, hr⟩
      · exact ⟨e, he, by simp only [hr, bind, Except.bind]⟩
      · obtain ⟨e, he, hr'⟩ := anyAbstract_crash _
          (fun p _ fs => gotAbstractFuncs_crashOrOk (h := h) this true p fs) hp (ih p hp hf) fs'
        exact ⟨e, he, by simp [hr, hr', bind, Except.bind]⟩

theorem mem_filter_unimplemented (this : Nat) (f : FuncDef) :
    f ∈ (h.methods this).filter (h.unimplemented this) ↔ h.Unimplemented this f := by
  rw [List.mem_filter, mem_methods]
  unfold unimplemented
  constructor
  · rintro ⟨hm, hu⟩
    rw [Bool.and_eq_true, Option.all_eq_true] at hu
    refine ⟨hm, hu.1, fun g hg => ?_⟩
    have := hu.2 g hg
    simp only [Bool.or_eq_true, bne_iff_ne, ne_eq] at this
    exact this.imp_right (fun hne he => hne he.symm)
  · rintro ⟨hm, ha, ho⟩
    refine ⟨hm, ?_⟩
    rw [Bool.and_eq_true, Option.all_eq_true]
    refine ⟨ha, fun g hg => ?_⟩
    simp only [Bool.or_eq_true, bne_iff_ne, ne_eq]
    exact (ho g hg).imp_right (fun hne he => hne he.symm)

theorem forM_error {α : Type} {f : α → Except Halt Unit} {xs : List α} (he : xs.forM f = .error e) :
    ∃ x ∈ xs, f x = .error e := by
  induction xs with
  | nil => cases he
  | cons x xs ih =>
    change (f x >>= fun _ => xs.forM f) = _ at he
    cases hx : f x with
    | error e' =>
      rw [hx] at he
      cases he
      exact ⟨x, by simp, hx⟩
    | ok u =>
      rw [hx] at he
      obtain ⟨y, hy, hr⟩ := ih he
      exact ⟨y, by simp [hy], hr⟩

theorem initBase_error {base : Nat} (he : h.initBase base = .error e) : e = .noDefaultConstructor base := by
  unfold initBase at he
  split at he
  · rename_i overloads _
    have hd : ∀ e, baseInit.defaultInit base overloads = .error e → e = .noDefaultConstructor base := by
      intro e he
      unfold baseInit.defaultInit at he
      split at he
      · split at he <;> cases he; rfl
      · cases he; rfl
    cases hb : baseInit base overloads with
    | ok f => rw [hb] at he; cases he
    | error e' =>
      rw [hb] at he
      cases he
      unfold baseInit at hb
      split at hb
      · split at hb
        · cases hb
        · exact hd _ hb
      · exact hd _ hb
  · cases he

/-- The generated methods bring no error about abstract methods and no crash. -/
theorem createDefaults_error (this : Nat) (e : Halt) (he : h.createDefaults this = .error e) :
    (∃ base, e = .noDefaultConstructor base) ∨ ∃ ivar, e = .noInitializer ivar := by
  have hi : h.createDefaultInit this = .error e := by
    cases hc : h.createInits this with
    | ok inits => rw [createDefaults, hc] at he; cases he
    | error e' =>
      rw [createDefaults, hc] at he
      cases he
      unfold createInits at hc
      split at hc
      · cases hi : h.createDefaultInit this with
        | error e' => rw [hi] at hc; cases hc; rfl
        | ok u => rw [hi] at hc; cases hc
      · cases hc
  unfold createDefaultInit at hi
  cases hb : (h.parents this).forM h.initBase with
  | error e' =>
    rw [hb] at hi
    cases hi
    obtain ⟨base, _, hb⟩ := forM_error hb
    exact .inl ⟨base, initBase_error hb⟩
  | ok u =>
    rw [hb] at hi
    obtain ⟨ivar, _, hv⟩ := forM_error (f := initVar) hi
    unfold initVar at hv
    split at hv
    · cases hv
    · cases hv; exact .inr ⟨ivar, rfl⟩

/-- Where the check for abstract methods passes, the rest of `rectify` does not go back on it. -/
theorem rectify_of_check {warnings : List String} (hc : h.checkAbstract this = .ok warnings) (e : Halt)
    (he : h.rectify this = .error e) :
    (∃ base, e = .noDefaultConstructor base) ∨ ∃ ivar, e = .noInitializer ivar := by
  unfold rectify at he
  rw [hc] at he
  simp only [bind, Except.bind] at he
  split at he
  · cases he
  · cases hd : h.createDefaults this with
    | error e' => rw [hd] at he; cases he; exact createDefaults_error this _ hd
    | ok generated => rw [hd] at he; cases he

theorem rectify_of_check_error (hc : h.checkAbstract this = .error e) : h.rectify this = .error e := by
  unfold rectify
  rw [hc]; rfl

/-- The check in terms of the list of unimplemented methods. -/
theorem checkAbstract_eq (this : Nat) (hl : h.LooksUp this (h.methods this)) :
    h.checkAbstract this =
      let funcs := (h.methods this).filter (h.unimplemented this)
      if (h.members this).abstract = true then .ok (if funcs.isEmpty then
        ["Abstract class " ++ (h.types this).name ++ " has no abstract functions."] else [])
      else if !funcs.isEmpty && !(h.types this).appendage then .error (.abstractMethods this funcs)
      else .ok [] := by
  unfold checkAbstract
  simp only [gotAbstractFuncs_ok this _ this hl, bind, Except.bind, pure, Except.pure]
  split
  · cases (h.methods this).filter (h.unimplemented this) <;> simp
  · simp

/-- Where look-up finds a function for every abstract method, `rectify` rejects a
class that is neither abstract nor an appendage exactly for its unimplemented methods. -/
theorem rectify_decides (h : ClassTable) (this : Nat)
    (hl : ∀ f, h.HasMethod this f → f.abstract = true → (h.implementation this f).isSome = true) :
    (∀ e, h.rectify this = .error e → ¬ e.Crash) ∧
    ((∃ funcs, h.rectify this = .error (.abstractMethods this funcs)) ↔
      (h.members this).abstract = false ∧ (h.types this).appendage = false ∧ ∃ f, h.Unimplemented this f) ∧
    (∀ c funcs, h.rectify this = .error (.abstractMethods c funcs) →
      c = this ∧ ∀ f, f ∈ funcs ↔ h.Unimplemented this f) := by
  have hc := checkAbstract_eq this (fun f hf => hl f ((mem_methods this f).mp hf))
  have hmem := mem_filter_unimplemented (h := h) this
  simp only at hc
  generalize (h.methods this).filter (h.unimplemented this) = missing at hc hmem
  have hex : (∃ f, h.Unimplemented this f) ↔ missing ≠ [] := by
    simp only [← hmem]
    exact ⟨fun ⟨f, hf⟩ => List.ne_nil_of_mem hf, List.exists_mem_of_ne_nil missing⟩
  rw [hex]
  by_cases hr : (h.members this).abstract = false ∧ (h.types this).appendage = false ∧ missing ≠ []
  · have he : h.checkAbstract this = .error (.abstractMethods this missing) := by
      rw [hc, hr.1, hr.2.1]
      simp [hr.2.2]
    have he := rectify_of_check_error he
    refine ⟨fun e h' => ?_, ⟨fun _ => hr, fun _ => ⟨missing, he⟩⟩, fun c funcs h' => ?_⟩
    · rw [he] at h'
      cases h'
      rintro (h' | h') <;> cases h'
    · rw [he] at h'
      cases h'
      exact ⟨rfl, hmem⟩
  · have hok : ∃ warnings, h.checkAbstract this = .ok warnings := by
      rw [hc]
      split
      · exact ⟨_, rfl⟩
      · rename_i ha
        rw [Bool.not_eq_true] at ha
        cases hap : (h.types this).appendage with
        | true => exact ⟨[], by simp⟩
        | false =>
          have : missing = [] := by
            by_contra hne
            exact hr ⟨ha, hap, hne⟩
          exact ⟨[], by simp [this]⟩
    obtain ⟨warnings, hok⟩ := hok
    have hother := rectify_of_check hok
    refine ⟨fun e he => ?_, ⟨fun ⟨funcs, he⟩ => ?_, fun h' => absurd h' hr⟩, fun c funcs he => ?_⟩
    · rcases hother e he with ⟨base, rfl⟩ | ⟨ivar, rfl⟩ <;> rintro (h' | h') <;> cases h'
    · rcases hother _ he with ⟨base, h'⟩ | ⟨ivar, h'⟩ <;> cases h'
    · rcases hother _ he with ⟨base, h'⟩ | ⟨ivar, h'⟩ <;> cases h'

/-- A class that is not abstract is checked without a crash exactly when look-up
finds a function for every abstract method. -/
theorem rectify_completes_iff (this : Nat) (ha : (h.members this).abstract = false) :
    (∀ e, h.rectify this = .error e → ¬ e.Crash) ↔
      ∀ f, h.HasMethod this f → f.abstract = true → (h.implementation this f).isSome = true := by
  constructor
  · intro hr f hf hab
    by_contra hn
    rw [Option.not_isSome_iff_eq_none] at hn
    obtain ⟨e, he, hg⟩ := gotAbstractFuncs_crash this this ((mem_methods this f).mpr hf) hab hn []
    have hc : h.checkAbstract this = .error e := by
      simp only [checkAbstract, ha, hg, Bool.false_eq_true, if_false, bind, Except.bind]
    exact hr e (rectify_of_check_error hc) he
  · intro hl e he hcrash
    have hc := checkAbstract_eq this (fun f hf => hl f ((mem_methods this f).mp hf))
    cases hcheck : h.checkAbstract this with
    | ok warnings =>
      rcases rectify_of_check hcheck e he with ⟨base, rfl⟩ | ⟨ivar, rfl⟩ <;> rcases hcrash with h' | h' <;> cases h'
    | error e' =>
      rw [rectify_of_check_error hcheck] at he
      simp only [hcheck, ha, Bool.false_eq_true, if_false] at hc
      split at hc <;> cases hc
      cases he
      rcases hcrash with h' | h' <;> cases h'

/-- The abstract method of `shapes`, and the function that deletes it. -/
def area : FuncDef := ⟨"area", 0, [], true, true, false, some 1, some 1, false⟩

def deletedArea : FuncDef := ⟨"area", 0, [], true, false, true, some 4, some 4, false⟩

/-- An abstract class, an appendage of it, a class that leaves its method
unimplemented and a class that deletes it. -/
def shapes : ClassTable where
  toHierarchy := .ofTypes (fun c =>
    if c = 0 then ⟨"VTableBase", "VTableBase", true, false, false, false, []⟩
    else if c = 1 then ⟨"Shape", "Shape", true, false, false, false, [0]⟩
    else if c = 2 then ⟨"Printer", "Printer", true, false, false, true, [1]⟩
    else if c = 3 then ⟨"Circle", "Circle", true, false, false, false, [1]⟩
    else if c = 4 then ⟨"Point", "Point", true, false, false, false, [1]⟩
    else ⟨"", "", false, false, false, false, []⟩) (by intro c p hp; grind) rfl rfl
  members c :=
    if c = 1 then ⟨"m.Shape", true, [("area", .overload (.mk (some 1) [area] []))], [], by decide⟩
    else if c = 4 then
      ⟨"m.Point", false, [("area", .overload (.mk (some 4) [deletedArea] [.mk (some 1) [area] []]))], [], by decide⟩
    else ⟨"m.Other", false, [], [], by decide⟩

theorem circle_looks_up (f : FuncDef) (hf : shapes.HasMethod 3 f) (ha : f.abstract = true) :
    (shapes.implementation 3 f).isSome = true := by
  have h : ∀ f ∈ shapes.methods 3, f.abstract = true → (shapes.implementation 3 f).isSome = true := by decide
  exact h f ((mem_methods 3 f).mpr hf) ha

theorem circle_rejected :
    ((∃ funcs, shapes.rectify 3 = .error (.abstractMethods 3 funcs)) ↔
      (shapes.members 3).abstract = false ∧ (shapes.types 3).appendage = false ∧ ∃ f, shapes.Unimplemented 3 f) ∧
    ∃ funcs, shapes.rectify 3 = .error (.abstractMethods 3 funcs) :=
  ⟨(rectify_decides shapes 3 circle_looks_up).2.1, [area], by decide⟩

theorem circle_completes : (∀ e, shapes.rectify 3 = .error e → ¬ e.Crash) ↔
    ∀ f, shapes.HasMethod 3 f → f.abstract = true → (shapes.implementation 3 f).isSome = true :=
  shapes.rectify_completes_iff 3 rfl

/-- An appendage is not abstract and is never rejected. -/
theorem printer_not_rejected :
    shapes.Accepted 1 ∧ shapes.Accepted 2 ∧ shapes.Unimplemented 2 area ∧
      ¬ ((∃ funcs, shapes.rectify 2 = .error (.abstractMethods 2 funcs)) ↔
        (shapes.members 2).abstract = false ∧ ∃ f, shapes.Unimplemented 2 f) := by
  have hu : shapes.Unimplemented 2 area := (mem_filter_unimplemented 2 area).mp (by decide)
  have hr : ∀ funcs, shapes.rectify 2 ≠ .error (.abstractMethods 2 funcs) := by
    intro funcs
    have hok : shapes.rectify 2 = .ok ⟨[], []⟩ := by decide
    rw [hok]
    nofun
  refine ⟨⟨rfl, [0], .inl rfl, ⟨[0], [], none⟩, by decide⟩, ⟨rfl, [1], .inl rfl, ⟨[1], [], some 1⟩, by decide⟩,
    hu, fun he => ?_⟩
  obtain ⟨funcs, hf⟩ := he.mpr ⟨rfl, area, hu⟩
  exact hr funcs hf

/-- A deleted override is the function that look-up finds, and comes back as null. -/
example : shapes.rectify 4 = .error .nullDereference := by decide

end ClassTable

end Crack
