import Crack.Lib.SortedMap
import Crack.Model.CanonicalName
import Crack.Model.Generic
import Mathlib.Data.List.Lex
import Mathlib.Data.Prod.Lex
import Mathlib.Order.BoundedOrder.Basic

/-!
Lazy imports: what a module would import on demand, by module and by local name, and how
it is stored with the module.
-/
namespace Crack

open DeserializationError

/-- The symbols that are imported from a module. -/
structure ModuleImports where
  moduleName : List (List UInt8) := []
  rawSharedLib : Bool := false
  imports : List ImportedDef := []
  deriving DecidableEq, Repr

/-- `pair<string, bool>`. -/
abbrev ModuleId := List UInt8 × Bool

/-- The order of the pairs: names as strings of bytes, and modules before shared libraries. -/
def ModuleId.order : ModuleId ↪ List Nat ×ₗ Bool where
  toFun id := toLex (id.1.map UInt8.toNat, id.2)
  inj' := by
    intro id id' h
    obtain ⟨hname, hraw⟩ := Prod.mk.inj (toLex.injective h)
    exact Prod.ext ((List.map_injective_iff.mpr fun _ _ => UInt8.toNat_inj.mp) hname) hraw

/-- The objects for the modules are on a heap; both maps hold their addresses. -/
structure LazyImports where
  heap : Nat → ModuleImports
  fresh : Nat
  byModule : SortedMap ModuleId Nat ModuleId.order
  byLocalName : List UInt8 → Option Nat

namespace LazyImports

def empty : LazyImports := ⟨fun _ => {}, 0, .empty, fun _ => none⟩

/-- `new ModuleImports` under a key of `byModule`. -/
def newModule (li : LazyImports) (id : ModuleId) (m : ModuleImports) : LazyImports :=
  { li with
    heap := Function.update li.heap li.fresh m
    fresh := li.fresh + 1
    byModule := li.byModule.set id li.fresh }

/-- A local name that is there stays with its module. -/
def addImportTo (li : LazyImports) (a : Nat) (i : ImportedDef) : LazyImports :=
  { li with
    heap := Function.update li.heap a { li.heap a with imports := (li.heap a).imports ++ [i] }
    byLocalName := if li.byLocalName i.localName = none then Function.update li.byLocalName i.localName (some a)
      else li.byLocalName }

def addImport (li : LazyImports) (moduleName : List UInt8) (rawSharedLib : Bool) (i : ImportedDef) :
    Except String LazyImports :=
  match li.byModule.find (moduleName, rawSharedLib) with
  | some a => .ok (li.addImportTo a i)
  | none =>
    match ModuleDef.parseCanonicalName moduleName with
    | .ok parsedModName =>
      .ok ((li.newModule (moduleName, rawSharedLib) ⟨parsedModName, rawSharedLib, []⟩).addImportTo li.fresh i)
    | .error e => .error e

def getImport (li : LazyImports) (localName : List UInt8) : Except String ModuleImports :=
  match li.byLocalName localName with
  | none => .ok {}
  | some a =>
    match (li.heap a).imports.find? (·.localName = localName) with
    | some i => .ok ⟨(li.heap a).moduleName, (li.heap a).rawSharedLib, [i]⟩
    | none => .error "lazy import not found under registered name!"

end LazyImports

/-- The fields of a symbol. The local name is left out where it is the source name. -/
def ImportedDef.writeLazy (i : ImportedDef) (s : Serializer) : Serializer :=
  let s := (s.writeUInt (pbKey 1 pbString)).writeBlob i.source
  if i.localName ≠ i.source then (s.writeUInt (pbKey 2 pbString)).writeBlob i.localName else s

/-- The fields of a module: the components of its name and its symbols. -/
def ModuleImports.write (m : ModuleImports) (s : Serializer) : Serializer :=
  let s := m.moduleName.foldl (fun s name => (s.writeUInt (pbKey 1 pbString)).writeBlob name) s
  m.imports.foldl (fun s i => (s.writeUInt (pbKey 2 pbString)).writeSub i.writeLazy) s

namespace LazyImports

def serialize (li : LazyImports) (s : Serializer) : Serializer :=
  li.byModule.entries.foldl (fun s e => (s.writeUInt (pbKey 2 pbString)).writeSub (li.heap e.2).write) s

/-- The block of `ModuleDef::serializeOptional`, without an alias tree. -/
def serializeOptional (li : LazyImports) (s : Serializer) : Serializer := s.writeSub li.serialize

section Reading

/-- The switch of `deserializeImportSymbol`, with the source name and the local name, if it came. -/
def symbolField (key : Int) (acc : List UInt8 × Option (List UInt8)) : Reader (List UInt8 × Option (List UInt8)) :=
  if key = pbKey 1 pbString then do
    let source ← readString
    pure (source, acc.2)
  else if key = pbKey 2 pbString then do
    let localName ← readString
    pure (acc.1, some localName)
  else pure acc

def deserializeImportSymbol : Reader ImportedDef := do
  let (source, localName) ← optionalFields symbolField ([], none)
  pure ⟨localName.getD source, source⟩

/-- What `deserializeModuleImports` has: the imports, the name so far and the object. -/
structure ModuleState where
  li : LazyImports
  moduleName : List (List UInt8)
  imports : Option Nat

/-- The object of the module, which is created for the first symbol. -/
def ModuleState.getImports (st : ModuleState) : LazyImports × Nat :=
  match st.imports with
  | some a => (st.li, a)
  | none => (st.li.newModule (ModuleDef.joinName st.moduleName, false) ⟨st.moduleName, false, []⟩, st.li.fresh)

/-- A symbol was read. -/
def ModuleState.add (st : ModuleState) (i : ImportedDef) : ModuleState :=
  ⟨st.getImports.1.addImportTo st.getImports.2 i, st.moduleName, some st.getImports.2⟩

def moduleField (key : Int) (st : ModuleState) : Reader ModuleState :=
  if key = pbKey 1 pbString then
    if st.imports.isSome then
      throw (check "bad serialization format: module name elements after import symbols.")
    else do
      let name ← readString
      pure { st with moduleName := st.moduleName ++ [name] }
  else if key = pbKey 2 pbString then do
    let i ← deserializeImportSymbol
    pure (st.add i)
  else pure st

def deserializeModuleImports (li : LazyImports) : Reader LazyImports := do
  let st ← optionalFields moduleField ⟨li, [], none⟩
  pure st.li

/-- The switch of `deserializeOptional`, for the field with lazy imports. -/
def optionalField (key : Int) (li : LazyImports) : Reader LazyImports :=
  if key = pbKey 2 pbString then deserializeModuleImports li else pure li

def deserializeOptional : Reader LazyImports := optionalFields optionalField empty

end Reading

/-- A call of `addImport`. -/
structure Call where
  moduleName : List UInt8
  rawSharedLib : Bool
  i : ImportedDef

namespace Call

def id (c : Call) : ModuleId := (c.moduleName, c.rawSharedLib)

/-- What is imported under a name, by the first of the calls with it. -/
def first (calls : List Call) (localName : List UInt8) : Option Call := calls.find? (·.i.localName = localName)

/-- The symbols that the calls add to a module. -/
def imports (calls : List Call) (id : ModuleId) : List ImportedDef := (calls.filter (·.id = id)).map (·.i)

end Call

def addAll (li : LazyImports) : List Call → Except String LazyImports
  | [] => .ok li
  | c :: calls =>
    match li.addImport c.moduleName c.rawSharedLib c.i with
    | .ok li => li.addAll calls
    | .error e => .error e

/-- What the imports are after a number of calls. -/
structure Holds (li : LazyImports) (calls : List Call) : Prop where
  old : ∀ e ∈ li.byModule.entries, e.2 < li.fresh
  apart : ∀ e ∈ li.byModule.entries, ∀ e' ∈ li.byModule.entries, e.2 = e'.2 → e.1 = e'.1
  object : ∀ e ∈ li.byModule.entries, ∃ parsed, ModuleDef.parseCanonicalName e.1.1 = .ok parsed ∧
    li.heap e.2 = ⟨parsed, e.1.2, Call.imports calls e.1⟩
  added : ∀ c ∈ calls, ∃ a, (c.id, a) ∈ li.byModule.entries
  localName : ∀ name, li.byLocalName name = (Call.first calls name).bind fun c => li.byModule.find c.id

variable {li li' : LazyImports} {calls : List Call} {c : Call} {name : List UInt8}

theorem holds_empty : Holds empty [] :=
  ⟨(fun _ he => nomatch he), (fun _ he => nomatch he), (fun _ he => nomatch he), (fun _ hc => nomatch hc), fun _ => rfl⟩

theorem imports_append (calls : List Call) (c : Call) (id : ModuleId) :
    Call.imports (calls ++ [c]) id = Call.imports calls id ++ if c.id = id then [c.i] else [] := by
  rw [Call.imports, List.filter_append, List.map_append]
  congr 1
  by_cases h : c.id = id <;> simp [h]

theorem first_append (calls : List Call) (c : Call) (name : List UInt8) :
    Call.first (calls ++ [c]) name = (Call.first calls name).or (if c.i.localName = name then some c else none) := by
  rw [Call.first, List.find?_append]
  congr 1
  by_cases h : c.i.localName = name <;> simp [h]

section

variable (h : Holds li calls)

include h

/-- A name that the calls have is found. -/
theorem Holds.first_found (hc : Call.first calls name = some c) :
    ∃ a, li.byModule.find c.id = some a ∧ (c.id, a) ∈ li.byModule.entries := by
  obtain ⟨a, ha⟩ := h.added c (List.mem_of_find?_eq_some hc)
  exact ⟨a, SortedMap.find_of_mem ha, ha⟩

theorem Holds.newModule {id : ModuleId} {parsed : List (List UInt8)} (hnew : li.byModule.find id = none)
    (hparse : ModuleDef.parseCanonicalName id.1 = .ok parsed) :
    Holds (li.newModule id ⟨parsed, id.2, []⟩) calls := by
  have hid : ∀ e ∈ li.byModule.entries, e.1 ≠ id := by
    rintro ⟨k, a⟩ he rfl
    rw [SortedMap.find_of_mem he] at hnew
    cases hnew
  have hnone : Call.imports calls id = [] := by
    rw [Call.imports, List.filter_eq_nil_iff.mpr, List.map_nil]
    intro c hc
    obtain ⟨a, ha⟩ := h.added c hc
    simpa using hid _ ha
  have hcases : ∀ e ∈ (li.byModule.set id li.fresh).entries, e = (id, li.fresh) ∨ e ∈ li.byModule.entries :=
    fun e he => SortedMap.mem_place he
  refine ⟨?_, ?_, ?_, ?_, ?_⟩
  · intro e he
    rcases hcases e he with rfl | he
    · exact Nat.lt_succ_self _
    · exact Nat.lt_succ_of_lt (h.old e he)
  · intro e he e' he' heq
    rcases hcases e he with rfl | he
    · rcases hcases e' he' with rfl | he'
      · rfl
      · exact absurd heq (Nat.ne_of_gt (h.old e' he'))
    · rcases hcases e' he' with rfl | he'
      · exact absurd heq (Nat.ne_of_lt (h.old e he))
      · exact h.apart e he e' he' heq
  · intro e he
    rcases hcases e he with rfl | he
    · exact ⟨parsed, hparse, by simp [LazyImports.newModule, hnone]⟩
    · obtain ⟨parsed', hparse', hobj⟩ := h.object e he
      refine ⟨parsed', hparse', ?_⟩
      change Function.update li.heap li.fresh _ e.2 = _
      rw [Function.update_of_ne (Nat.ne_of_lt (h.old e he)), hobj]
  · intro c hc
    obtain ⟨a, ha⟩ := h.added c hc
    refine ⟨a, SortedMap.mem_of_find ?_⟩
    rw [LazyImports.newModule, SortedMap.find_set, if_neg (hid _ ha), SortedMap.find_of_mem ha]
  · intro name
    change li.byLocalName name = _
    rw [h.localName]
    cases hc : Call.first calls name with
    | none => rfl
    | some c =>
      obtain ⟨a, -, ha⟩ := h.first_found hc
      rw [Option.bind_some, Option.bind_some, LazyImports.newModule, SortedMap.find_set, if_neg (hid _ ha)]

theorem Holds.addImportTo {a : Nat} (ha : li.byModule.find c.id = some a) :
    Holds (li.addImportTo a c.i) (calls ++ [c]) := by
  have hmem := SortedMap.mem_of_find ha
  refine ⟨h.old, h.apart, ?_, ?_, ?_⟩
  · change ∀ e ∈ li.byModule.entries, _
    intro e he
    obtain ⟨parsed, hparse, hobj⟩ := h.object e he
    refine ⟨parsed, hparse, ?_⟩
    rw [imports_append]
    by_cases hea : e.2 = a
    · have hid : c.id = e.1 := h.apart _ hmem e he hea.symm
      change Function.update li.heap a _ e.2 = _
      rw [hea, Function.update_self, ← hea, hobj, if_pos hid]
    · have hid : c.id ≠ e.1 := by
        intro hid
        rw [hid, SortedMap.find_of_mem he] at ha
        exact hea (Option.some.inj ha)
      change Function.update li.heap a _ e.2 = _
      rw [Function.update_of_ne hea, hobj, if_neg hid, List.append_nil]
  · intro c' hc'
    rcases List.mem_append.mp hc' with hc' | hc'
    · exact h.added c' hc'
    · rw [List.mem_singleton.mp hc']
      exact ⟨a, hmem⟩
  · intro name
    rw [first_append]
    change (if li.byLocalName c.i.localName = none then Function.update li.byLocalName c.i.localName (some a)
      else li.byLocalName) name =
      Option.bind _ fun c : Call => li.byModule.find c.id
    cases hc : Call.first calls name with
    | some c' =>
      obtain ⟨a', hfind, -⟩ := h.first_found hc
      have hlocal : li.byLocalName name = some a' := by rw [h.localName, hc, Option.bind_some, hfind]
      rw [Option.some_or, Option.bind_some, hfind]
      split
      · rename_i hnone
        have hne : name ≠ c.i.localName := by
          rintro rfl
          rw [hlocal] at hnone
          cases hnone
        rw [Function.update_of_ne hne, hlocal]
      · exact hlocal
    | none =>
      have hlocal : li.byLocalName name = none := by rw [h.localName, hc, Option.bind_none]
      rw [Option.none_or]
      by_cases hname : c.i.localName = name
      · rw [if_pos hname, Option.bind_some, ha, hname, if_pos hlocal, Function.update_self]
      · rw [if_neg hname, Option.bind_none]
        split
        · rw [Function.update_of_ne (Ne.symm hname), hlocal]
        · exact hlocal

theorem Holds.addImport (hadd : li.addImport c.moduleName c.rawSharedLib c.i = .ok li') :
    Holds li' (calls ++ [c]) := by
  rw [LazyImports.addImport] at hadd
  split at hadd
  · rename_i a ha
    cases hadd
    exact h.addImportTo ha
  · rename_i hnew
    split at hadd
    · rename_i parsed hparse
      cases hadd
      refine (h.newModule hnew hparse).addImportTo ?_
      rw [LazyImports.newModule, SortedMap.find_set]
      exact if_pos rfl
    · cases hadd

theorem Holds.addAll {added : List Call} (hadd : li.addAll added = .ok li') : Holds li' (calls ++ added) := by
  induction added generalizing li calls with
  | nil =>
    cases hadd
    rwa [List.append_nil]
  | cons c added ih =>
    rw [LazyImports.addAll] at hadd
    split at hadd
    · rw [List.append_cons]
      exact ih (h.addImport ‹_›) hadd
    · cases hadd

omit h in
/-- Among the symbols of its module the first call with a name has the first symbol with it. -/
theorem find_imports (hc : Call.first calls name = some c) :
    (Call.imports calls c.id).find? (·.localName = name) = some c.i := by
  obtain ⟨hp, l, l', rfl, hbefore⟩ := List.find?_eq_some_iff_append.mp hc
  have hnone : (Call.imports l c.id).find? (fun i => decide (i.localName = name)) = none := by
    refine List.find?_eq_none.mpr fun i hi => ?_
    obtain ⟨c', hc', rfl⟩ := List.mem_map.mp hi
    simpa using hbefore c' (List.mem_of_mem_filter hc')
  rw [Call.imports, List.filter_append, List.map_append, List.find?_append]
  change ((Call.imports l c.id).find? (fun i => decide (i.localName = name))).or _ = _
  rw [hnone, Option.none_or, List.filter_cons_of_pos (by simp), List.map_cons]
  exact List.find?_cons_of_pos hp

/-- `getImport` finds what was added first. -/
theorem Holds.getImport (name : List UInt8) :
    match Call.first calls name with
    | none => li.getImport name = .ok {}
    | some c => ∃ moduleName, ModuleDef.parseCanonicalName c.moduleName = .ok moduleName ∧
        li.getImport name = .ok ⟨moduleName, c.rawSharedLib, [c.i]⟩ := by
  have hlocal := h.localName name
  cases hc : Call.first calls name with
  | none =>
    rw [hc, Option.bind_none] at hlocal
    simp only [LazyImports.getImport, hlocal]
  | some c =>
    obtain ⟨a, hfind, hmem⟩ := h.first_found hc
    obtain ⟨parsed, hparse, hobj⟩ := h.object _ hmem
    rw [hc, Option.bind_some, hfind] at hlocal
    refine ⟨parsed, hparse, ?_⟩
    simp only [LazyImports.getImport, hlocal, hobj, find_imports hc]
    rfl

end

end LazyImports

end Crack
