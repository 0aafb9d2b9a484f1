import Crack.Model.CanonicalName

/-!
# Loading modules

`Construct::getModule` with the stack of builders. What the rest of the program says in the
course of a call (what is on the library path and in the persistent cache, which definitions
a module has, which calls are made while it is read or parsed) is data that the model is
given; a call that throws has no result.
-/
namespace Crack

/-- Modules, definitions and builders are known by their addresses. -/
structure Construct where
  cacheMode : Bool
  moduleCache : List UInt8 → Option Nat := fun _ => none
  builderStack : List Nat := [0]
  /-- The number of builders so far. -/
  builders : Nat := 1
  loadedModules : List Nat := []
  finished : List Nat := []

namespace Construct

abbrev Loader := StateT Construct Option

/-- What `searchPath` says. -/
structure ModulePath where
  found : Bool
  isDir : Bool

/-- Where a generic instantiation comes from, as its file in the cache says. -/
structure GenericModuleInfo where
  present : Bool
  module : List UInt8
  name : List (List UInt8)

structure Definitions where
  lookUp : Nat → List UInt8 → Option Nat
  isType : Nat → Bool
  genericInfo : Nat → Bool

/-- The loop that looks up the generic. -/
def Definitions.lookUpPath (defs : Definitions) : List (List UInt8) → Nat → Option Nat
  | [], ns => some ns
  | n :: name, ns =>
    match defs.lookUp ns n with
    | some ns => defs.lookUpPath name ns
    | none => none

mutual

/-- What is said in the course of a call of `getModule`. -/
inductive Answers where
  | inMemory
  /-- The module is a shared library. -/
  | sharedLib (load : Asked) (mod : Nat)
  /-- There is none. `materialize` are the calls made while the persistent cache is read, with
  `cached` and `genModInfo` as its results, `specialize` those made for a specialization and
  `build` those made for a source file or directory. -/
  | noLib (materialize : Asked) (cached : Option Nat) (genModInfo : GenericModuleInfo) (origin : Answers)
    (defs : Definitions) (specialize : Asked) (specialization : Nat) (modPath : ModulePath) (build : Asked)
    (created : Nat)

/-- The same for `getCachedModule`. -/
inductive CachedAnswers where
  | inMemory
  | notInMemory (materialize : Asked) (cached : Option Nat)

/-- Calls that are made one after the other. -/
inductive Asked where
  | done
  | throws
  | getModule (moduleName : List (List UInt8)) (answers : Answers) (rest : Asked)
  | getCachedModule (canonicalName : List UInt8) (answers : CachedAnswers) (rest : Asked)
  | registerModule (fullName : List UInt8) (mod : Nat) (rest : Asked)

end

/-- `builderStack.push(rootBuilder->createChildBuilder())`. -/
def pushBuilder (c : Construct) : Construct :=
  { c with builderStack := c.builders :: c.builderStack, builders := c.builders + 1 }

def popBuilder (c : Construct) : Construct := { c with builderStack := c.builderStack.tail }

/-- `moduleCache[canonicalName] = modDef`. -/
def setModule (canonicalName : List UInt8) (mod : Nat) (c : Construct) : Construct :=
  { c with moduleCache := Function.update c.moduleCache canonicalName (some mod) }

/-- The end of `getModule`. -/
def load (mod : Nat) (c : Construct) : Construct :=
  { c with finished := mod :: c.finished, loadedModules := c.loadedModules ++ [mod] }

/-- The module was found in the persistent cache, or nothing was. -/
def setFound (canonicalName : List UInt8) (found : Option Nat) (c : Construct) : Construct :=
  match found with
  | some mod => setModule canonicalName mod c
  | none => c

def registerModule (fullName : List UInt8) (mod : Nat) (c : Construct) : Construct :=
  { setModule fullName mod c with loadedModules := c.loadedModules ++ [mod] }

/-- Go on if the module is not in memory, as the answers say. -/
def notInMemory (canonicalName : List UInt8) : Loader Unit := do
  if ((← get).moduleCache canonicalName).isSome then failure

/-- `getModule` of a canonical name. -/
def parsed (canonicalName : List UInt8) (getModule : List (List UInt8) → Loader (Option Nat)) : Loader (Option Nat) :=
  match ModuleDef.parseCanonicalName canonicalName with
  | .error _ => failure
  | .ok name => do
    let m ← getModule name
    if ModuleDef.joinName name = canonicalName then pure m else failure

/-- Look into the persistent cache. -/
def materializeModule (calls : Loader Unit) (cached : Option Nat) : Loader (Option Nat) := do
  if (← get).cacheMode then do
    calls
    pure cached
  else pure none

/-- A generic instantiation is built again from the module that defines the generic. -/
def rebuild (getOrigin : Loader (Option Nat)) (defs : Definitions) (name : List (List UInt8)) (specialize : Loader Unit)
    (specialization : Nat) : Loader (Option Nat) := do
  match ← getOrigin with
  | none => pure none
  | some ns =>
    match defs.lookUpPath name ns with
    | none => pure none
    | some ns =>
      if !defs.isType ns then pure none
      else if !defs.genericInfo ns then pure none
      else do
        specialize
        pure (some specialization)

mutual

def getModule (moduleName : List (List UInt8)) : Answers → Loader (Option Nat)
  | .inMemory => do
    match (← get).moduleCache (ModuleDef.joinName moduleName) with
    | some mod => pure (some mod)
    | none => failure
  | .sharedLib calls mod => do
    let canonicalName := ModuleDef.joinName moduleName
    notInMemory canonicalName
    -- `initExtensionModule`
    modify pushBuilder
    run calls
    modify popBuilder
    modify (setModule canonicalName mod)
    modify (load mod)
    pure (some mod)
  | .noLib materialize cached genModInfo origin defs specialize specialization modPath build created => do
    let canonicalName := ModuleDef.joinName moduleName
    notInMemory canonicalName
    modify pushBuilder
    match ← materializeModule (run materialize) cached with
    | some mod => do
      modify (setModule canonicalName mod)
      modify popBuilder
      modify (load mod)
      pure (some mod)
    | none =>
      -- what is known of a generic was read from the cache
      if (← get).cacheMode ∧ ModuleDef.lbrack ∈ canonicalName ∧ genModInfo.present then
        rebuild (parsed genModInfo.module fun name => getModule name origin) defs genModInfo.name (run specialize) specialization
      else if !modPath.found then pure none
      else do
        modify (setModule canonicalName created)
        run build
        modify popBuilder
        modify (load created)
        pure (some created)

def getCachedModule (canonicalName : List UInt8) : CachedAnswers → Loader (Option Nat)
  | .inMemory => do
    match (← get).moduleCache canonicalName with
    | some mod => pure (some mod)
    | none => failure
  | .notInMemory materialize cached => do
    notInMemory canonicalName
    if (← get).cacheMode then do
      modify pushBuilder
      run materialize
      modify (setFound canonicalName cached)
      modify popBuilder
      pure cached
    else pure none

def run : Asked → Loader Unit
  | .done => pure ()
  | .throws => failure
  | .getModule moduleName answers rest => do
    let _ ← getModule moduleName answers
    run rest
  | .getCachedModule canonicalName answers rest => do
    let _ ← getCachedModule canonicalName answers
    run rest
  | .registerModule fullName mod rest => do
    modify (registerModule fullName mod)
    run rest

end

mutual

/-- Every call is for a module that is in memory, a shared library or in the persistent cache, or
for one that is not a generic instantiation to be rebuilt and whose source is found. -/
def Answers.Loaded (cacheMode : Bool) (canonicalName : List UInt8) : Answers → Prop
  | .inMemory => True
  | .sharedLib calls _ => calls.Loaded cacheMode
  | .noLib materialize cached genModInfo _ _ _ _ modPath build _ =>
    (cacheMode → materialize.Loaded cacheMode) ∧
      ((cacheMode ∧ cached.isSome) ∨
        ((cacheMode → ModuleDef.lbrack ∈ canonicalName → ¬ genModInfo.present) ∧ modPath.found ∧ build.Loaded cacheMode))

def CachedAnswers.Loaded (cacheMode : Bool) : CachedAnswers → Prop
  | .inMemory => True
  | .notInMemory materialize _ => cacheMode → materialize.Loaded cacheMode

def Asked.Loaded (cacheMode : Bool) : Asked → Prop
  | .done => True
  | .throws => True
  | .getModule moduleName answers rest => answers.Loaded cacheMode (ModuleDef.joinName moduleName) ∧ rest.Loaded cacheMode
  | .getCachedModule _ answers rest => answers.Loaded cacheMode ∧ rest.Loaded cacheMode
  | .registerModule _ _ rest => rest.Loaded cacheMode

end

section Stack

variable {c c' c₁ : Construct} {P Q : Prop} {α β : Type} {canonicalName : List UInt8} {r : Option Nat}

/-- Builders that were pushed are still there if and only if `P` does not hold. -/
structure Adds (c c' : Construct) (P : Prop) : Prop where
  cacheMode : c'.cacheMode = c.cacheMode
  stack : ∃ extra, c'.builderStack = extra ++ c.builderStack ∧ (extra = [] ↔ P)

namespace Adds

theorem none (hmode : c'.cacheMode = c.cacheMode) (hstack : c'.builderStack = c.builderStack) (hP : P) : Adds c c' P :=
  ⟨hmode, [], hstack, iff_of_true rfl hP⟩

theorem trans (h : Adds c c₁ P) (h' : Adds c₁ c' Q) : Adds c c' (P ∧ Q) := by
  obtain ⟨extra, hstack, hP⟩ := h.stack
  obtain ⟨extra', hstack', hQ⟩ := h'.stack
  refine ⟨h'.cacheMode.trans h.cacheMode, extra' ++ extra, ?_, ?_⟩
  · rw [hstack', hstack, List.append_assoc]
  · rw [List.append_eq_nil_iff, hP, hQ, and_comm]

theorem congr (h : Adds c c' P) (hPQ : P ↔ Q) : Adds c c' Q := by
  obtain ⟨extra, hstack, hP⟩ := h.stack
  exact ⟨h.cacheMode, extra, hstack, hP.trans hPQ⟩

/-- What is popped is the builder that was pushed, if there are no others on it. -/
theorem pop (h : Adds c.pushBuilder c' P) : Adds c c'.popBuilder P := by
  obtain ⟨extra, hstack, hP⟩ := h.stack
  cases extra with
  | nil =>
    refine ⟨h.cacheMode, [], ?_, hP⟩
    rw [popBuilder, hstack]
    rfl
  | cons top extra =>
    refine ⟨h.cacheMode, extra ++ [c.builders], ?_, ?_⟩
    · rw [popBuilder, hstack, List.append_assoc]
      rfl
    · have hne : ¬ P := fun hp => List.cons_ne_nil _ _ (hP.mpr hp)
      exact iff_of_false (by simp) hne

/-- The builder is not popped. -/
theorem noPop (h : Adds c.pushBuilder c' P) (hQ : ¬ Q) : Adds c c' Q := by
  obtain ⟨extra, hstack, -⟩ := h.stack
  refine ⟨h.cacheMode, extra ++ [c.builders], ?_, iff_of_false (by simp) hQ⟩
  rw [hstack, List.append_assoc]
  rfl

end Adds

theorem bind_some {x : Loader α} {f : α → Loader β} {b : β} (h : (x >>= f) c = some (b, c')) :
    ∃ a c₁, x c = some (a, c₁) ∧ f a c₁ = some (b, c') := by
  obtain ⟨⟨a, c₁⟩, hx, hf⟩ := Option.bind_eq_some_iff.mp h
  exact ⟨a, c₁, hx, hf⟩

theorem notInMemory_some {u : Unit} (h : notInMemory canonicalName c = some (u, c')) : c' = c := by
  obtain ⟨c₁, c₂, hget, hif⟩ := bind_some h
  cases hget
  split at hif
  · cases hif
  · cases hif
    rfl

theorem parsed_some {f : List (List UInt8) → Loader (Option Nat)} (h : parsed canonicalName f c = some (r, c')) :
    ∃ name, f name c = some (r, c') := by
  rw [parsed] at h
  cases hparse : ModuleDef.parseCanonicalName canonicalName with
  | error e =>
    rw [hparse] at h
    cases h
  | ok name =>
    rw [hparse] at h
    obtain ⟨m, c₁, hf, hif⟩ := bind_some h
    split at hif
    · cases hif
      exact ⟨name, hf⟩
    · cases hif

theorem inMemory_some
    (h : (do match (← get).moduleCache canonicalName with
             | some mod => pure (some mod)
             | none => failure : Loader (Option Nat)) c = some (r, c')) :
    c'.cacheMode = c.cacheMode ∧ c'.builderStack = c.builderStack := by
  obtain ⟨c₁, c₂, hget, hmatch⟩ := bind_some h
  cases hget
  cases hmem : c.moduleCache canonicalName with
  | some mod =>
    rw [hmem] at hmatch
    cases hmatch
    exact ⟨rfl, rfl⟩
  | none =>
    rw [hmem] at hmatch
    cases hmatch

/-- The result and the stack after a look into the persistent cache. -/
theorem materializeModule_adds {calls : Loader Unit} {cached found : Option Nat}
    (hcalls : ∀ c', calls c = some ((), c') → Adds c c' P) (h : materializeModule calls cached c = some (found, c')) :
    Adds c c' (c.cacheMode → P) ∧ found = if c.cacheMode then cached else none := by
  obtain ⟨_, c₁, hget, hif⟩ := bind_some h
  cases hget
  by_cases hon : c.cacheMode = true
  · rw [if_pos hon] at hif
    obtain ⟨_, c₂, hrun, hend⟩ := bind_some hif
    cases hend
    exact ⟨(hcalls _ hrun).congr (by simp [hon]), (if_pos hon).symm⟩
  · rw [if_neg hon] at hif
    cases hif
    exact ⟨.none rfl rfl fun h => absurd h hon, (if_neg hon).symm⟩

/-- Whatever the outcome, nothing is popped. -/
theorem rebuild_adds {getOrigin : Loader (Option Nat)} {defs : Definitions} {name : List (List UInt8)}
    {specialize : Loader Unit} {specialization : Nat}
    (horigin : ∀ r c', getOrigin c = some (r, c') → ∃ P, Adds c c' P)
    (hspecialize : ∀ c₁ c', specialize c₁ = some ((), c') → ∃ P, Adds c₁ c' P)
    (h : rebuild getOrigin defs name specialize specialization c = some (r, c')) : ∃ P, Adds c c' P := by
  obtain ⟨origin, c₁, hget, hmatch⟩ := bind_some h
  obtain ⟨P, hadds⟩ := horigin _ _ hget
  have hnone : (pure none : Loader (Option Nat)) c₁ = some (r, c') → ∃ P, Adds c c' P := by
    intro h
    cases h
    exact ⟨P, hadds⟩
  cases origin with
  | none => exact hnone hmatch
  | some ns =>
    cases hpath : defs.lookUpPath name ns with
    | none =>
      simp only [hpath] at hmatch
      exact hnone hmatch
    | some ns =>
      simp only [hpath] at hmatch
      by_cases htype : defs.isType ns = true
      · by_cases hgeneric : defs.genericInfo ns = true
        · simp only [htype, hgeneric, Bool.not_true, Bool.false_eq_true, if_false] at hmatch
          obtain ⟨_, c₂, hrun, hend⟩ := bind_some hmatch
          cases hend
          obtain ⟨Q, hthen⟩ := hspecialize _ _ hrun
          exact ⟨P ∧ Q, hadds.trans hthen⟩
        · simp only [htype, hgeneric, Bool.not_true, Bool.not_false, Bool.false_eq_true, if_false, if_true] at hmatch
          exact hnone hmatch
      · simp only [htype, Bool.not_false, if_true] at hmatch
        exact hnone hmatch

mutual

theorem getModule_adds : ∀ (answers : Answers) (moduleName : List (List UInt8)) (c c' : Construct) (r : Option Nat),
    getModule moduleName answers c = some (r, c') →
      Adds c c' (answers.Loaded c.cacheMode (ModuleDef.joinName moduleName))
  | .inMemory, moduleName, c, c', r, h => by
    rw [getModule] at h
    exact .none (inMemory_some h).1 (inMemory_some h).2 trivial
  | .sharedLib calls mod, moduleName, c, c', r, h => by
    rw [getModule] at h
    obtain ⟨_, c₁, hguard, hbody⟩ := bind_some h
    cases notInMemory_some hguard
    obtain ⟨_, c₂, hpush, hloading⟩ := bind_some hbody
    cases hpush
    obtain ⟨_, c₃, hcalls, hend⟩ := bind_some hloading
    cases hend
    have hadds := (run_adds calls _ _ hcalls).pop
    exact ⟨hadds.cacheMode, hadds.stack⟩
  | .noLib materialize cached genModInfo origin defs specialize specialization modPath build created, moduleName, c, c', r, h => by
    rw [getModule] at h
    obtain ⟨_, c₁, hguard, hbody⟩ := bind_some h
    cases notInMemory_some hguard
    obtain ⟨_, c₂, hpush, hloading⟩ := bind_some hbody
    cases hpush
    obtain ⟨found, c₃, hcache, hfound⟩ := bind_some hloading
    obtain ⟨hread, hcached⟩ := materializeModule_adds (run_adds materialize _) hcache
    have hmode : c₃.cacheMode = c.cacheMode := hread.cacheMode
    rw [Answers.Loaded]
    cases found with
    | some mod =>
      cases hfound
      have hadds := hread.pop
      refine ⟨hadds.cacheMode, (hadds.congr (and_iff_left (.inl ?_)).symm).stack⟩
      split at hcached
      · rename_i hon
        exact ⟨hon, hcached ▸ rfl⟩
      · cases hcached
    | none =>
      have hnothing : ¬ (c.cacheMode = true ∧ cached.isSome = true) := by
        rintro ⟨hon, hsome⟩
        rw [if_pos (show c.pushBuilder.cacheMode = true from hon)] at hcached
        rw [← hcached] at hsome
        cases hsome
      obtain ⟨_, c₄, hget, hgeneric⟩ := bind_some hfound
      cases hget
      by_cases hrebuild : c₃.cacheMode = true ∧ ModuleDef.lbrack ∈ ModuleDef.joinName moduleName ∧ genModInfo.present = true
      · rw [if_pos hrebuild] at hgeneric
        obtain ⟨Q, hadds⟩ := rebuild_adds
          (fun r c' hc => by
            obtain ⟨name, hname⟩ := parsed_some hc
            exact ⟨_, getModule_adds origin name _ _ _ hname⟩)
          (fun c₁ c' hc => ⟨_, run_adds specialize _ _ hc⟩) hgeneric
        refine (hread.trans hadds).noPop ?_
        rintro ⟨-, hfound | ⟨hno, -, -⟩⟩
        · exact hnothing hfound
        · exact hno (hmode ▸ hrebuild.1) hrebuild.2.1 hrebuild.2.2
      · rw [if_neg hrebuild] at hgeneric
        have hnot : c.cacheMode = true → ModuleDef.lbrack ∈ ModuleDef.joinName moduleName → ¬ genModInfo.present = true :=
          fun hon hname hpresent => hrebuild ⟨hmode ▸ hon, hname, hpresent⟩
        by_cases hpath : modPath.found = true
        · simp only [hpath, Bool.not_true, Bool.false_eq_true, if_false] at hgeneric
          obtain ⟨_, c₅, hset, hbuild⟩ := bind_some hgeneric
          cases hset
          obtain ⟨_, c₆, hrun, hend⟩ := bind_some hbuild
          cases hend
          have hthen := run_adds build _ _ hrun
          rw [show (setModule (ModuleDef.joinName moduleName) created c₃).cacheMode = c.cacheMode from hmode] at hthen
          have hadds := (hread.trans ⟨hthen.cacheMode, hthen.stack⟩).pop
          refine ⟨hadds.cacheMode, (hadds.congr (and_congr_right fun _ => ?_)).stack⟩
          rw [or_iff_right hnothing]
          exact ⟨fun hbuild => ⟨hnot, hpath, hbuild⟩, fun h => h.2.2⟩
        · simp only [hpath, Bool.not_false, if_true] at hgeneric
          cases hgeneric
          refine hread.noPop ?_
          rintro ⟨-, hfound | ⟨-, hsource, -⟩⟩
          · exact hnothing hfound
          · exact hpath hsource

theorem getCachedModule_adds : ∀ (answers : CachedAnswers) (canonicalName : List UInt8) (c c' : Construct) (r : Option Nat),
    getCachedModule canonicalName answers c = some (r, c') → Adds c c' (answers.Loaded c.cacheMode)
  | .inMemory, canonicalName, c, c', r, h => by
    rw [getCachedModule] at h
    exact .none (inMemory_some h).1 (inMemory_some h).2 trivial
  | .notInMemory materialize cached, canonicalName, c, c', r, h => by
    rw [getCachedModule] at h
    obtain ⟨_, c₁, hguard, hbody⟩ := bind_some h
    cases notInMemory_some hguard
    obtain ⟨_, c₂, hget, hmode⟩ := bind_some hbody
    cases hget
    rw [CachedAnswers.Loaded]
    split at hmode
    · rename_i hon
      obtain ⟨_, c₂, hpush, hreading⟩ := bind_some hmode
      cases hpush
      obtain ⟨_, c₃, hcalls, hend⟩ := bind_some hreading
      cases hend
      have hadds := (run_adds materialize _ _ hcalls).pop
      refine ⟨?_, ?_⟩
      · cases cached <;> exact hadds.cacheMode
      · have hstack : (popBuilder (setFound canonicalName cached c₃)).builderStack = (popBuilder c₃).builderStack := by
          cases cached <;> rfl
        rw [hstack]
        exact (hadds.congr (by simp [hon, pushBuilder])).stack
    · rename_i hoff
      cases hmode
      exact .none rfl rfl fun hon => absurd hon hoff

theorem run_adds : ∀ (calls : Asked) (c c' : Construct), run calls c = some ((), c') → Adds c c' (calls.Loaded c.cacheMode)
  | .done, c, c', h => by
    cases h
    exact .none rfl rfl trivial
  | .throws, c, c', h => by
    cases h
  | .getModule moduleName answers rest, c, c', h => by
    rw [run] at h
    obtain ⟨r, c₁, hcall, hrest⟩ := bind_some h
    have hadds := getModule_adds answers moduleName c c₁ r hcall
    have hthen := run_adds rest c₁ c' hrest
    rw [hadds.cacheMode] at hthen
    exact hadds.trans hthen
  | .getCachedModule canonicalName answers rest, c, c', h => by
    rw [run] at h
    obtain ⟨r, c₁, hcall, hrest⟩ := bind_some h
    have hadds := getCachedModule_adds answers canonicalName c c₁ r hcall
    have hthen := run_adds rest c₁ c' hrest
    rw [hadds.cacheMode] at hthen
    exact hadds.trans hthen
  | .registerModule fullName mod rest, c, c', h => by
    rw [run] at h
    obtain ⟨_, c₁, hcall, hrest⟩ := bind_some h
    cases hcall
    have hthen := run_adds rest _ c' hrest
    exact ⟨hthen.cacheMode, hthen.stack⟩

end

/-- A call of `getModule` leaves the stack as it was if and only if no call in its course is for a generic
instantiation that has to be rebuilt or for a module without a source. -/
theorem builderStack_kept_iff (moduleName : List (List UInt8)) (answers : Answers) (r : Option Nat)
    (h : getModule moduleName answers c = some (r, c')) :
    c'.builderStack = c.builderStack ↔ answers.Loaded c.cacheMode (ModuleDef.joinName moduleName) := by
  obtain ⟨extra, hstack, hextra⟩ := (getModule_adds answers moduleName c c' r h).stack
  rw [hstack, List.append_left_eq_self]
  exact hextra

/-- Nothing is known of a module but that its source is there or not. -/
def uncached (materialize : Asked) (source : Bool) (created : Nat) : Answers :=
  .noLib materialize none ⟨false, [], []⟩ .inMemory ⟨fun _ _ => none, fun _ => false, fun _ => false⟩ .done 0 ⟨source, false⟩
    .done created

/-- The module `[97]` is compiled and all is as before. -/
theorem source_found :
    (load 7 (setModule [97] 7 { cacheMode := true, builders := 2 })).builderStack = [0] ↔
      (uncached .done true 7).Loaded true [97] :=
  builderStack_kept_iff (c := { cacheMode := true }) [[97]] (uncached .done true 7) (some 7) rfl

/-- The module `[97]` is in the cache and depends on `[98]`, which has no source any more: it is compiled
again, and its builder stays on the stack. -/
theorem dependency_lost :
    ∃ c', getModule [[97]] (uncached (.getModule [[98]] (uncached .done false 0) .done) true 7) { cacheMode := true } =
      some (some 7, c') ∧ c'.builderStack = [1, 0] :=
  ⟨_, rfl, rfl⟩

end Stack

end Construct
end Crack
