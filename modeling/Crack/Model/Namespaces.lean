import Mathlib.Logic.Function.Basic
import Mathlib.Data.List.Basic
import Mathlib.Data.List.Induction
import Mathlib.Tactic.Common

/-!
The symbol table of a namespace and the two vectors beside it: `ordered`, with the
variables of an instance, and `orderedForCache`, with all definitions.
-/
namespace Crack
namespace SymbolTable

/-- `FuncDef`, `OverloadDef`, `StubDef` and any other definition. -/
inductive Kind
  | func | overload | stub | other
  deriving DecidableEq

structure VarDef where
  name : List Char
  kind : Kind
  hasInstSlot : Bool
  /-- The namespace that owns the definition. -/
  owner : Option Nat

/-- A namespace and the definitions of the program. `isType` selects `TypeDef::storeDef`. -/
structure Namespace where
  this : Nat
  isType : Bool
  vars : Nat → VarDef
  fresh : Nat
  defs : List Char → Option Nat
  ordered : List Nat
  orderedForCache : List Nat

namespace Namespace

def init (this : Nat) (isType : Bool) (vars : Nat → VarDef) (fresh : Nat) : Namespace :=
  ⟨this, isType, vars, fresh, fun _ => none, [], []⟩

variable (s : Namespace)

/-- A definition that the program creates. -/
def newDef (v : VarDef) : Namespace :=
  { s with vars := Function.update s.vars s.fresh v, fresh := s.fresh + 1 }

/-- `new OverloadDef(name)`. -/
def newOverload (name : List Char) : Namespace := s.newDef ⟨name, .overload, false, none⟩

def setOwner (d : Nat) : Namespace :=
  { s with vars := Function.update s.vars d { s.vars d with owner := some s.this } }

/-- `defs[name] = def`. -/
def bind (name : List Char) (d : Nat) : Namespace :=
  { s with defs := Function.update s.defs name (some d) }

def storeDef (d : Nat) : Except String Namespace :=
  if (s.vars d).kind = .func then .error "it is illegal to store a FuncDef directly (should be wrapped in an OverloadDef)"
  else
    .ok { s.bind (s.vars d).name d with
      orderedForCache := s.orderedForCache ++ [d]
      ordered := if s.isType ∧ (s.vars d).hasInstSlot then s.ordered ++ [d] else s.ordered }

def addDef (d : Nat) : Except String Namespace :=
  if (s.vars d).owner ≠ none then .error "!def->getOwner()"
  else
    match s.storeDef d with
    | .ok s => .ok (s.setOwner d)
    | .error e => .error e

def removeDef (d : Nat) : Except String Namespace :=
  if (s.vars d).kind = .overload then .error "!OverloadDefPtr::cast(def)"
  else
    match s.defs (s.vars d).name with
    | none => .error "iter != defs.end()"
    -- both loops erase where they start and leave
    | some _ =>
      .ok { s with
        defs := Function.update s.defs (s.vars d).name none
        ordered := s.ordered.tail
        orderedForCache := s.orderedForCache.tail }

/-- `addAlias(VarDef *def)`. -/
def addAlias (d : Nat) : Except String Namespace :=
  if (s.vars d).owner = none then .error "def->getOwner()"
  else if (s.vars d).kind = .overload then
    match (s.newOverload (s.vars d).name).storeDef s.fresh with
    | .ok s' => .ok (s'.setOwner s.fresh)
    | .error e => .error e
  else s.storeDef d

/-- `addAlias(const string &name, VarDef *def)`. -/
def addAliasAs (name : List Char) (d : Nat) : Except String Namespace :=
  if (s.vars d).owner = none then .error "owner"
  else if (s.vars d).kind = .overload then .ok (((s.newOverload name).bind name s.fresh).setOwner s.fresh)
  else .ok (s.bind name d)

def replaceDef (d : Nat) : Except String Namespace :=
  if (s.vars d).owner ≠ none then .error "Namespace::replaceDef() called on a definition which already has an owner."
  else
    match s.defs (s.vars d).name with
    | none => .error "Namespace::replaceDef() called on a definition which is not a stub"
    | some existing =>
      if (s.vars existing).kind ≠ .stub then .error "Namespace::replaceDef() called on a definition which is not a stub"
      else if (s.vars d).kind = .overload then .ok ((s.setOwner d).bind (s.vars d).name d)
      else if (s.vars d).kind ≠ .func then .error "Replacing a definition with a non function."
      else .ok ((((s.newOverload (s.vars d).name).setOwner d).setOwner s.fresh).bind (s.vars d).name s.fresh)

end Namespace

inductive Action
  | newDef (v : VarDef)
  | addDef (d : Nat)
  | addAlias (d : Nat)
  | addAliasAs (name : List Char) (d : Nat)
  | removeDef (d : Nat)
  | replaceDef (d : Nat)

namespace Namespace

def step (s : Namespace) : Action → Except String Namespace
  | .newDef v => .ok (s.newDef v)
  | .addDef d => s.addDef d
  | .addAlias d => s.addAlias d
  | .addAliasAs name d => s.addAliasAs name d
  | .removeDef d => s.removeDef d
  | .replaceDef d => s.replaceDef d

def run (s : Namespace) : List Action → Except String Namespace
  | [] => .ok s
  | act :: acts =>
    match s.step act with
    | .ok s => s.run acts
    | .error e => .error e

variable {s s' : Namespace} {d : Nat} {name : List Char} {act : Action} {acts : List Action} {l : List Nat}

/-- What `removeDef` is for. -/
def RemovesExactly (s : Namespace) (d : Nat) : Prop :=
  ∃ s', s.removeDef d = .ok s' ∧ (∀ name, s'.defs name = if s.defs name = some d then none else s.defs name) ∧
    s'.ordered = s.ordered.filter (· ≠ d) ∧ s'.orderedForCache = s.orderedForCache.filter (· ≠ d)

/-- The definition is nowhere but at the start of a list that is not empty. -/
def Leads (d : Nat) (l : List Nat) : Prop := l = [] ∨ ∃ rest, l = d :: rest ∧ d ∉ rest

/-- Not an overload, bound under its own name alone, and the first entry of each list. -/
structure Removable (s : Namespace) (d : Nat) : Prop where
  kind : (s.vars d).kind ≠ .overload
  bound : ∀ name, s.defs name = some d ↔ name = (s.vars d).name
  ordered : Leads d s.ordered
  orderedForCache : Leads d s.orderedForCache

theorem filter_ne_self (h : d ∉ l) : l.filter (· ≠ d) = l :=
  List.filter_eq_self.mpr fun b hb => by simpa using fun hbd : b = d => h (hbd ▸ hb)

theorem tail_eq_filter : l.tail = l.filter (· ≠ d) ↔ Leads d l := by
  cases l with
  | nil => exact iff_of_true rfl (.inl rfl)
  | cons a l =>
    rw [List.tail_cons]
    by_cases ha : a = d
    · subst ha
      rw [List.filter_cons_of_neg (by simp)]
      constructor
      · intro h
        refine .inr ⟨l, rfl, fun hm => ?_⟩
        rw [h] at hm
        simp at hm
      · rintro (h | ⟨rest, h, hrest⟩)
        · exact absurd h (List.cons_ne_nil _ _)
        · rw [← (List.cons.inj h).2] at hrest
          exact (filter_ne_self hrest).symm
    · rw [List.filter_cons_of_pos (by simpa using ha)]
      constructor
      · intro h
        have hd : d ∉ l := by
          rw [h, List.mem_cons, not_or]
          exact ⟨fun hda => ha hda.symm, fun hm => by simp at hm⟩
        have hself : l.filter (· ≠ d) = l := filter_ne_self hd
        rw [hself] at h
        exact absurd (congrArg List.length h) (by simp)
      · rintro (h | ⟨rest, h, -⟩)
        · exact absurd h (List.cons_ne_nil _ _)
        · exact absurd (List.cons.inj h).1 ha

/-- The table loses the name of the definition. That is the definition, if it is bound
there and nowhere else. -/
theorem update_eq_filter {e : Nat} (he : s.defs name = some e) :
    (∀ name', Function.update s.defs name none name' = if s.defs name' = some d then none else s.defs name') ↔
      ∀ name', s.defs name' = some d ↔ name' = name := by
  constructor
  · intro h name'
    have hname' := h name'
    by_cases heq : name' = name
    · refine iff_of_true ?_ heq
      by_contra hd
      rw [heq, Function.update_self] at hname'
      rw [heq] at hd
      rw [if_neg hd, he] at hname'
      cases hname'
    · refine iff_of_false (fun hd => ?_) heq
      rw [Function.update_of_ne heq, if_pos hd, hd] at hname'
      cases hname'
  · intro h name'
    by_cases heq : name' = name
    · rw [heq, Function.update_self, if_pos ((h name).mpr rfl)]
    · rw [Function.update_of_ne heq, if_neg (fun hd => heq ((h name').mp hd))]

theorem removesExactly_iff : s.RemovesExactly d ↔ s.Removable d := by
  by_cases hkind : (s.vars d).kind = .overload
  · refine iff_of_false ?_ (fun h => h.kind hkind)
    rintro ⟨s', hs', -⟩
    rw [removeDef, if_pos hkind] at hs'
    cases hs'
  cases hdefs : s.defs (s.vars d).name with
  | none =>
    refine iff_of_false ?_ (fun h => ?_)
    · rintro ⟨s', hs', -⟩
      rw [removeDef, if_neg hkind, hdefs] at hs'
      cases hs'
    · have := (h.bound (s.vars d).name).mpr rfl
      rw [hdefs] at this
      cases this
  | some e =>
    have hremove : s.removeDef d = .ok { s with
        defs := Function.update s.defs (s.vars d).name none
        ordered := s.ordered.tail
        orderedForCache := s.orderedForCache.tail } := by
      rw [removeDef, if_neg hkind, hdefs]
    constructor
    · rintro ⟨s', hs', htable, hordered, hcache⟩
      cases hremove.symm.trans hs'
      exact ⟨hkind, (update_eq_filter hdefs).mp htable, tail_eq_filter.mp hordered, tail_eq_filter.mp hcache⟩
    · intro h
      exact ⟨_, hremove, (update_eq_filter hdefs).mpr h.bound, tail_eq_filter.mpr h.ordered,
        tail_eq_filter.mpr h.orderedForCache⟩

/-- Every definition that is listed for the cache is bound. -/
def Bound (s : Namespace) : Prop := ∀ e ∈ s.orderedForCache, ∃ name, s.defs name = some e

/-- What the name is bound to can give way to `d`: it is not listed, or it is `d`, or it
has another name. -/
def Yields (s : Namespace) (name : List Char) (d : Nat) : Prop :=
  ∀ e ∈ s.orderedForCache, s.defs name = some e → e = d ∨ ∃ name', name' ≠ name ∧ s.defs name' = some e

/-- The condition on a step, in the state before it. -/
def Safe (s : Namespace) : Action → Prop
  | .newDef _ => True
  | .addDef d => s.Yields (s.vars d).name d
  | .addAlias d => s.Yields (s.vars d).name (if (s.vars d).kind = .overload then s.fresh else d)
  | .addAliasAs name d => s.Yields name (if (s.vars d).kind = .overload then s.fresh else d)
  | .removeDef d => ∀ e ∈ s.orderedForCache.tail, s.defs (s.vars d).name = some e →
      ∃ name, name ≠ (s.vars d).name ∧ s.defs name = some e
  | .replaceDef d => s.Yields (s.vars d).name (if (s.vars d).kind = .overload then d else s.fresh)

/-- The step binds the name to the definition, and it may list it. -/
structure Binds (s : Namespace) (name : List Char) (d : Nat) (s' : Namespace) : Prop where
  defs : s'.defs = Function.update s.defs name (some d)
  orderedForCache : s'.orderedForCache = s.orderedForCache ∨ s'.orderedForCache = s.orderedForCache ++ [d]

theorem storeDef_ok (h : s.storeDef d = .ok s') : s.Binds (s.vars d).name d s' := by
  rw [storeDef] at h
  split at h
  · cases h
  · cases h
    exact ⟨rfl, .inr rfl⟩

theorem addDef_ok (h : s.addDef d = .ok s') : s.Binds (s.vars d).name d s' := by
  rw [addDef] at h
  split at h
  · cases h
  · split at h
    · cases h
      have hstore := storeDef_ok ‹_›
      exact ⟨hstore.defs, hstore.orderedForCache⟩
    · cases h

theorem addAlias_ok (h : s.addAlias d = .ok s') :
    s.Binds (s.vars d).name (if (s.vars d).kind = .overload then s.fresh else d) s' := by
  rw [addAlias] at h
  split at h
  · cases h
  · by_cases hkind : (s.vars d).kind = .overload
    · rw [if_pos hkind] at h ⊢
      split at h
      · cases h
        have hstore := storeDef_ok ‹_›
        have hname : ((s.newOverload (s.vars d).name).vars s.fresh).name = (s.vars d).name := by
          simp [newOverload, newDef]
        rw [hname] at hstore
        exact ⟨hstore.defs, hstore.orderedForCache⟩
      · cases h
    · rw [if_neg hkind] at h ⊢
      exact storeDef_ok h

theorem addAliasAs_ok (h : s.addAliasAs name d = .ok s') :
    s.Binds name (if (s.vars d).kind = .overload then s.fresh else d) s' := by
  rw [addAliasAs] at h
  split at h
  · cases h
  · by_cases hkind : (s.vars d).kind = .overload
    · rw [if_pos hkind] at h ⊢
      cases h
      exact ⟨rfl, .inl rfl⟩
    · rw [if_neg hkind] at h ⊢
      cases h
      exact ⟨rfl, .inl rfl⟩

theorem replaceDef_ok (h : s.replaceDef d = .ok s') :
    s.Binds (s.vars d).name (if (s.vars d).kind = .overload then d else s.fresh) s' := by
  rw [replaceDef] at h
  split at h
  · cases h
  · split at h
    · cases h
    · split at h
      · cases h
      · by_cases hkind : (s.vars d).kind = .overload
        · rw [if_pos hkind] at h ⊢
          cases h
          exact ⟨rfl, .inl rfl⟩
        · rw [if_neg hkind] at h ⊢
          split at h
          · cases h
          · cases h
            exact ⟨rfl, .inl rfl⟩

theorem removeDef_ok (h : s.removeDef d = .ok s') :
    s'.defs = Function.update s.defs (s.vars d).name none ∧ s'.orderedForCache = s.orderedForCache.tail := by
  rw [removeDef] at h
  split at h
  · cases h
  · split at h
    · cases h
    · cases h
      exact ⟨rfl, rfl⟩

/-- A name is bound anew. -/
theorem Binds.bound_iff (hb : s.Binds name d s') (h : s.Bound) : s'.Bound ↔ s.Yields name d := by
  have hd : s'.defs name = some d := by rw [hb.defs, Function.update_self]
  have hother : ∀ name', name' ≠ name → s'.defs name' = s.defs name' := by
    intro name' hne
    rw [hb.defs, Function.update_of_ne hne]
  constructor
  · intro h' e he _
    have hmem : e ∈ s'.orderedForCache := by
      rcases hb.orderedForCache with hc | hc
      · rwa [hc]
      · rw [hc]
        exact List.mem_append_left _ he
    obtain ⟨name', hname'⟩ := h' e hmem
    by_cases hne : name' = name
    · rw [hne, hd] at hname'
      exact .inl (Option.some.inj hname').symm
    · exact .inr ⟨name', hne, (hother name' hne).symm.trans hname'⟩
  · intro hyields e he
    have hmem : e ∈ s.orderedForCache ∨ e = d := by
      rcases hb.orderedForCache with hc | hc
      · exact .inl (hc ▸ he)
      · rw [hc] at he
        exact (List.mem_append.mp he).imp id List.mem_singleton.mp
    rcases hmem with hmem | rfl
    · obtain ⟨name', hname'⟩ := h e hmem
      by_cases hne : name' = name
      · rcases hyields e hmem (hne ▸ hname') with rfl | ⟨other, hother', hbound⟩
        · exact ⟨name, hd⟩
        · exact ⟨other, (hother other hother').trans hbound⟩
      · exact ⟨name', (hother name' hne).trans hname'⟩
    · exact ⟨name, hd⟩

/-- A name is no longer bound, and the first entry is off the list. -/
theorem unbind_bound_iff (h : s.Bound) (hdefs : s'.defs = Function.update s.defs name none)
    (hcache : s'.orderedForCache = s.orderedForCache.tail) :
    s'.Bound ↔ ∀ e ∈ s.orderedForCache.tail, s.defs name = some e →
      ∃ name', name' ≠ name ∧ s.defs name' = some e := by
  have hother : ∀ name', name' ≠ name → s'.defs name' = s.defs name' := by
    intro name' hne
    rw [hdefs, Function.update_of_ne hne]
  constructor
  · intro h' e he _
    obtain ⟨name', hname'⟩ := h' e (hcache ▸ he)
    have hne : name' ≠ name := by
      rintro rfl
      rw [hdefs, Function.update_self] at hname'
      cases hname'
    exact ⟨name', hne, (hother name' hne).symm.trans hname'⟩
  · intro hkeeps e he
    rw [hcache] at he
    obtain ⟨name', hname'⟩ := h e (List.mem_of_mem_tail he)
    by_cases hne : name' = name
    · obtain ⟨other, hother', hbound⟩ := hkeeps e he (hne ▸ hname')
      exact ⟨other, (hother other hother').trans hbound⟩
    · exact ⟨name', (hother name' hne).trans hname'⟩

/-- A step keeps every listed definition bound just when it is safe. -/
theorem step_bound (h : s.Bound) (hs : s.step act = .ok s') : s'.Bound ↔ s.Safe act := by
  cases act with
  | newDef v =>
    cases hs
    exact iff_of_true h trivial
  | addDef d => exact (addDef_ok hs).bound_iff h
  | addAlias d => exact (addAlias_ok hs).bound_iff h
  | addAliasAs name d => exact (addAliasAs_ok hs).bound_iff h
  | replaceDef d => exact (replaceDef_ok hs).bound_iff h
  | removeDef d =>
    obtain ⟨hdefs, hcache⟩ := removeDef_ok hs
    exact unbind_bound_iff h hdefs hcache

/-- In every state of a run the listed definitions are bound. -/
def AlwaysBound (s : Namespace) (acts : List Action) : Prop :=
  ∀ pre s', pre <+: acts → s.run pre = .ok s' → s'.Bound

/-- Every step that a run takes is safe. -/
def AlwaysSafe (s : Namespace) (acts : List Action) : Prop :=
  ∀ pre act s' s'', pre ++ [act] <+: acts → s.run pre = .ok s' → s'.step act = .ok s'' → s'.Safe act

theorem run_concat (pre : List Action) : s.run (pre ++ [act]) =
    match s.run pre with
    | .ok s' => s'.step act
    | .error e => .error e := by
  induction pre generalizing s with
  | nil =>
    change (match s.step act with
      | .ok s => s.run []
      | .error e => .error e) = s.step act
    cases s.step act <;> rfl
  | cons first pre ih =>
    rw [List.cons_append, run, run]
    cases s.step first with
    | ok s' => exact ih
    | error e => rfl

theorem run_bound (h : s.Bound) : s.AlwaysBound acts ↔ s.AlwaysSafe acts := by
  constructor
  · intro hall pre act s' s'' hpre hrun hstep
    have hs' := hall pre s' ((List.prefix_append pre [act]).trans hpre) hrun
    have hs'' := hall (pre ++ [act]) s'' hpre (by rw [run_concat, hrun]; exact hstep)
    exact (step_bound hs' hstep).mp hs''
  · intro hsafe pre
    induction pre using List.reverseRecOn with
    | nil =>
      intro s' _ hrun
      cases hrun
      exact h
    | append_singleton pre act ih =>
      intro s'' hpre hrun
      rw [run_concat] at hrun
      cases hpre' : s.run pre with
      | error e => rw [hpre'] at hrun; cases hrun
      | ok s' =>
        rw [hpre'] at hrun
        have hs' := ih s' ((List.prefix_append pre [act]).trans hpre) hpre'
        exact (step_bound hs' hrun).mpr (hsafe pre act s' s'' hpre hpre' hrun)

theorem init_bound (this : Nat) (isType : Bool) (vars : Nat → VarDef) (fresh : Nat) :
    (init this isType vars fresh).Bound := fun _ he => nomatch he

/-- `removeDef` removes its definition just when it is first in the lists and bound once,
and the listed definitions stay bound in a run just when its steps are safe. -/
theorem lists_follow_table (s : Namespace) (d this : Nat) (isType : Bool) (vars : Nat → VarDef) (fresh : Nat)
    (acts : List Action) :
    (s.RemovesExactly d ↔ s.Removable d) ∧
      ((init this isType vars fresh).AlwaysBound acts ↔ (init this isType vars fresh).AlwaysSafe acts) :=
  ⟨removesExactly_iff, run_bound (init_bound this isType vars fresh)⟩

/-- The second of two definitions is removed. The first one leaves the lists. -/
theorem wrong_definition_removed :
    ∃ s s' : Namespace,
      (init 0 true (fun d => ⟨if d = 0 then ['a'] else ['b'], .other, true, none⟩) 2).run [.addDef 0, .addDef 1] = .ok s ∧
        s.defs ['b'] = some 1 ∧ ¬ s.RemovesExactly 1 ∧ s.step (.removeDef 1) = .ok s' ∧ s'.ordered = [1] ∧ ¬ s'.Bound := by
  refine ⟨_, _, rfl, rfl, ?_, rfl, rfl, ?_⟩
  · rw [removesExactly_iff]
    intro h
    rcases h.ordered with h | ⟨rest, h, -⟩
    · exact absurd h (by decide)
    · exact absurd (List.cons.inj h).1 (by decide)
  · intro h
    obtain ⟨name, hname⟩ := h 1 (by decide)
    by_cases hb : name = ['b']
    · subst hb
      exact absurd hname (by decide)
    · by_cases ha : name = ['a']
      · subst ha
        exact absurd hname (by decide)
      · simp [init, setOwner, bind, hb, ha] at hname

end Namespace
end SymbolTable
end Crack
