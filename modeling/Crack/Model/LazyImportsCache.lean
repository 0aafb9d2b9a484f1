import Crack.Model.GenericRoundTrip
import Crack.Model.LazyImports

/-!
Lazy imports after a round trip. A section has no field for the kind of its module, and the
sections come in the order of the keys, so what is found under a local name may change.
-/
namespace Crack

open Decoding DeserializationError

/-- Every string that is stored has a length that is an `unsigned int`. -/
structure ImportedDef.ShortLazy (i : ImportedDef) : Prop where
  source : i.source.length < uintSize
  localName : i.localName.length < uintSize
  whole : ∀ s : Serializer, (i.writeLazy s.sub).dst.length < uintSize

structure ModuleImports.Short (m : ModuleImports) : Prop where
  names : ∀ name ∈ m.moduleName, name.length < uintSize
  imports : ∀ i ∈ m.imports, i.ShortLazy
  whole : ∀ s : Serializer, (m.write s.sub).dst.length < uintSize

structure LazyImports.Short (li : LazyImports) : Prop where
  modules : ∀ e ∈ li.byModule.entries, (li.heap e.2).Short
  whole : ∀ s : Serializer, (li.serialize s.sub).dst.length < uintSize

namespace LazyImports

/-- The objects in the order in which they are stored. -/
def sections (li : LazyImports) : List ModuleImports := li.byModule.entries.map fun e => li.heap e.2

/-- A field of a section is read. -/
def readItem (st : ModuleState) : List UInt8 ⊕ ImportedDef → ModuleState
  | .inl name => { st with moduleName := st.moduleName ++ [name] }
  | .inr i => st.add i

/-- The fields of a section. -/
def items (m : ModuleImports) : List (List UInt8 ⊕ ImportedDef) := m.moduleName.map .inl ++ m.imports.map .inr

/-- A section is read. -/
def readSection (li : LazyImports) (m : ModuleImports) : LazyImports := ((items m).foldl readItem ⟨li, [], none⟩).li

/-- The imports that are read from the stored ones. -/
def rebuilt (li : LazyImports) : LazyImports := li.sections.foldl readSection empty

section Reading

variable {c : Scope} {s : Serializer} {li : LazyImports} {m : ModuleImports} {i : ImportedDef}

def symbolKey : Bool × List UInt8 → Nat
  | (false, _) => pbKey 1 pbString
  | (true, _) => pbKey 2 pbString

/-- The source name and the local name, which is not stored if they are the same. -/
def symbolItems (i : ImportedDef) : List (Bool × List UInt8) :=
  (false, i.source) :: if i.localName ≠ i.source then [(true, i.localName)] else []

theorem writeLazy_eq (i : ImportedDef) (s : Serializer) :
    i.writeLazy s = (symbolItems i).foldl (fun s item => (s.writeUInt (symbolKey item)).writeBlob item.2) s := by
  rw [ImportedDef.writeLazy, symbolItems]
  split <;> rfl

/-- What the fields of a symbol say. -/
def readSymbol (acc : List UInt8 × Option (List UInt8)) : Bool × List UInt8 → List UInt8 × Option (List UInt8)
  | (false, source) => (source, acc.2)
  | (true, localName) => (acc.1, some localName)

theorem mirrors_symbol (h : i.ShortLazy) :
    Mirrors (stream c) s (s.writeSub i.writeLazy) deserializeImportSymbol (· = i) := by
  have hfields : Mirrors (stream c) s (s.writeSub i.writeLazy) (optionalFields symbolField ([], none))
      (· = (symbolItems i).foldl readSymbol ([], none)) := by
    rw [show i.writeLazy = _ from funext (writeLazy_eq i)]
    apply mirrors_orderedFields (k := symbolKey) (b := fun item s => s.writeBlob item.2)
      (R := fun done acc => acc = done.foldl readSymbol ([], none)) (symbolItems i)
    · rintro ⟨isLocal, name⟩ -
      cases isLocal with
      | false => exact (show 0 < 10 ∧ 10 ≤ intMax by decide)
      | true => exact (show 0 < 18 ∧ 18 ≤ intMax by decide)
    · rintro pre ⟨isLocal, name⟩ post hsplit s acc rfl
      have hmem : (isLocal, name) ∈ symbolItems i := by simp [hsplit]
      rw [List.foldl_append]
      cases isLocal with
      | false =>
        have hlen : name.length < uintSize := by
          simp only [symbolItems, List.mem_cons, Prod.mk.injEq, true_and] at hmem
          rcases hmem with rfl | hmem
          · exact h.source
          · split at hmem <;> simp at hmem
        refine (mirrors_string hlen).map _ fun name' hname => ?_
        rw [hname]
        rfl
      | true =>
        have hlen : name.length < uintSize := by
          simp only [symbolItems, List.mem_cons, Prod.mk.injEq, Bool.true_eq_false, false_and, false_or] at hmem
          split at hmem
          · simp only [List.mem_singleton, Prod.mk.injEq, true_and] at hmem
            exact hmem ▸ h.localName
          · cases hmem
        refine (mirrors_string hlen).map _ fun name' hname => ?_
        rw [hname]
        rfl
    · have hlen := h.whole s
      rwa [writeLazy_eq] at hlen
    · rfl
  refine hfields.map _ fun acc hacc => ?_
  subst hacc
  rw [symbolItems]
  obtain ⟨localName, source⟩ := i
  split
  · rfl
  · rename_i heq
    exact congrArg (ImportedDef.mk · source) (not_not.mp heq).symm

def itemKey : List UInt8 ⊕ ImportedDef → Nat
  | .inl _ => pbKey 1 pbString
  | .inr _ => pbKey 2 pbString

def writeItem (s : Serializer) : List UInt8 ⊕ ImportedDef → Serializer
  | .inl name => s.writeBlob name
  | .inr i => s.writeSub i.writeLazy

theorem write_eq (m : ModuleImports) (s : Serializer) :
    m.write s = (items m).foldl (fun s item => writeItem (s.writeUInt (itemKey item)) item) s := by
  rw [ModuleImports.write, items, List.foldl_append, List.foldl_map, List.foldl_map]
  rfl

/-- The names come first. -/
theorem names_before {pre post : List (List UInt8 ⊕ ImportedDef)} {name : List UInt8} {names : List (List UInt8)}
    {imports : List ImportedDef} (h : names.map .inl ++ imports.map .inr = pre ++ .inl name :: post) :
    ∃ before : List (List UInt8), pre = before.map Sum.inl := by
  induction names generalizing pre with
  | nil =>
    have hmem : Sum.inl name ∈ imports.map (Sum.inr (α := List UInt8)) := by
      rw [List.map_nil, List.nil_append] at h
      simp [h]
    simp at hmem
  | cons first names ih =>
    cases pre with
    | nil => exact ⟨[], rfl⟩
    | cons item pre =>
      rw [List.map_cons, List.cons_append, List.cons_append] at h
      obtain ⟨hitem, hrest⟩ := List.cons.inj h
      obtain ⟨before, hbefore⟩ := ih hrest
      exact ⟨first :: before, by rw [← hitem, hbefore, List.map_cons]⟩

theorem foldl_names (st : ModuleState) (names : List (List UInt8)) :
    (names.map Sum.inl).foldl readItem st = { st with moduleName := st.moduleName ++ names } := by
  induction names generalizing st with
  | nil => simp
  | cons name names ih =>
    rw [List.map_cons, List.foldl_cons, ih]
    simp [readItem]

theorem mirrors_section (h : m.Short) (li : LazyImports) :
    Mirrors (stream c) s (s.writeSub m.write) (deserializeModuleImports li) (· = readSection li m) := by
  have hfields : Mirrors (stream c) s (s.writeSub m.write) (optionalFields moduleField ⟨li, [], none⟩)
      (· = (items m).foldl readItem ⟨li, [], none⟩) := by
    rw [show m.write = _ from funext (write_eq m)]
    apply mirrors_orderedFields (k := itemKey) (b := fun item s => writeItem s item)
      (R := fun done st => st = done.foldl readItem ⟨li, [], none⟩) (items m)
    · rintro (name | i) -
      · exact (show 0 < 10 ∧ 10 ≤ intMax by decide)
      · exact (show 0 < 18 ∧ 18 ≤ intMax by decide)
    · rintro pre (name | i) post hsplit s st rfl
      · have hlen : name.length < uintSize := by
          apply h.names
          have hmem : Sum.inl name ∈ items m := by simp [hsplit]
          simpa [items] using hmem
        obtain ⟨before, rfl⟩ := names_before hsplit
        rw [List.foldl_append, foldl_names]
        refine (mirrors_string hlen).map _ fun name' hname => ?_
        rw [hname]
        rfl
      · have hshort : i.ShortLazy := by
          apply h.imports
          have hmem : Sum.inr i ∈ items m := by simp [hsplit]
          simpa [items] using hmem
        rw [List.foldl_append]
        refine (mirrors_symbol hshort).map _ fun i' hi => ?_
        rw [hi]
        rfl
    · have hlen := h.whole s
      rwa [write_eq] at hlen
    · rfl
  refine hfields.map _ fun st hst => ?_
  rw [hst]
  rfl

/-- What is read after `serializeOptional`. -/
theorem mirrors_optionalBlock (h : li.Short) :
    Mirrors (stream c) s (li.serializeOptional s) deserializeOptional (· = li.rebuilt) := by
  apply mirrors_orderedFields (k := fun _ => pbKey 2 pbString) (b := fun e s => s.writeSub (li.heap e.2).write)
    (R := fun done acc => acc = (done.map fun e => li.heap e.2).foldl readSection empty) li.byModule.entries
  · exact fun _ _ => by decide
  · rintro pre e post hsplit s acc rfl
    have hshort : (li.heap e.2).Short := h.modules e (by simp [hsplit])
    rw [List.map_append, List.foldl_append]
    exact mirrors_section hshort _
  · exact h.whole s
  · rfl

end Reading

section Lookup

variable {li : LazyImports} {m : ModuleImports} {ms : List ModuleImports} {name : List UInt8} {calls : List Call}

/-- Symbols are added to the object at an address. -/
theorem foldl_addImportTo (li : LazyImports) (a : Nat) (l : List ImportedDef) :
    (l.foldl (fun li i => li.addImportTo a i) li).heap =
        Function.update li.heap a { li.heap a with imports := (li.heap a).imports ++ l } ∧
      (l.foldl (fun li i => li.addImportTo a i) li).fresh = li.fresh ∧
      ∀ name, (l.foldl (fun li i => li.addImportTo a i) li).byLocalName name =
        (li.byLocalName name).or (if ∃ i ∈ l, i.localName = name then some a else none) := by
  induction l generalizing li with
  | nil => simp
  | cons i l ih =>
    obtain ⟨hheap, hfresh, hlocal⟩ := ih (li.addImportTo a i)
    rw [List.foldl_cons]
    refine ⟨?_, hfresh, fun name => ?_⟩
    · rw [hheap]
      simp [LazyImports.addImportTo]
    · rw [hlocal]
      by_cases hname : i.localName = name
      · subst hname
        cases hold : li.byLocalName i.localName <;> simp [LazyImports.addImportTo, hold]
      · have hsame : (li.addImportTo a i).byLocalName name = li.byLocalName name := by
          rw [LazyImports.addImportTo]
          dsimp only
          split
          · exact Function.update_of_ne (Ne.symm hname) _ _
          · rfl
        simp [hsame, hname]

theorem foldl_add_some (li : LazyImports) (names : List (List UInt8)) (a : Nat) (l : List ImportedDef) :
    (l.map Sum.inr).foldl readItem ⟨li, names, some a⟩ =
      ⟨l.foldl (fun li i => li.addImportTo a i) li, names, some a⟩ := by
  induction l generalizing li with
  | nil => rfl
  | cons i l ih =>
    rw [List.map_cons, List.foldl_cons, List.foldl_cons]
    exact ih (li.addImportTo a i)

/-- A section with symbols makes an object without the flag and adds the symbols to it. -/
theorem readSection_eq (li : LazyImports) (h : m.imports ≠ []) :
    readSection li m = m.imports.foldl (fun l i => l.addImportTo li.fresh i)
      (li.newModule (ModuleDef.joinName m.moduleName, false) ⟨m.moduleName, false, []⟩) := by
  rw [readSection, items, List.foldl_append, foldl_names]
  cases himports : m.imports with
  | nil => exact absurd himports h
  | cons i l =>
    rw [List.map_cons, List.foldl_cons, List.foldl_cons, List.nil_append]
    change ((l.map Sum.inr).foldl readItem ⟨_, _, some li.fresh⟩).li = _
    rw [foldl_add_some]
    rfl

theorem readSection_nil (li : LazyImports) (h : m.imports = []) : readSection li m = li := by
  rw [readSection, items, h, List.map_nil, List.append_nil, foldl_names]

/-- A module has a symbol of that name. -/
def Has (name : List UInt8) (m : ModuleImports) : Prop := ∃ i ∈ m.imports, i.localName = name

instance : DecidablePred (Has name) := fun m => inferInstanceAs (Decidable (∃ i ∈ m.imports, i.localName = name))

/-- After some sections a name leads to the first of them that has it. -/
def Finds (li : LazyImports) (ms : List ModuleImports) : Prop :=
  ∀ name, match ms.find? (fun m => Has name m) with
    | none => li.byLocalName name = none
    | some m => ∃ a < li.fresh, li.byLocalName name = some a ∧ li.heap a = { m with rawSharedLib := false }

theorem Finds.next (h : li.Finds ms) (m : ModuleImports) : (readSection li m).Finds (ms ++ [m]) := by
  intro name
  have hold := h name
  rw [List.find?_append]
  by_cases himports : m.imports = []
  · have hnot : ¬ Has name m := by simp [Has, himports]
    rw [readSection_nil li himports]
    simpa [hnot] using hold
  · obtain ⟨hheap, hfresh, hlocal⟩ := foldl_addImportTo
      (li.newModule (ModuleDef.joinName m.moduleName, false) ⟨m.moduleName, false, []⟩) li.fresh m.imports
    rw [← readSection_eq li himports] at hheap hfresh hlocal
    have hobj : (readSection li m).heap li.fresh = { m with rawSharedLib := false } := by
      rw [hheap, Function.update_self]
      simp [newModule]
    have hlocal' : (readSection li m).byLocalName name = (li.byLocalName name).or (if Has name m then some li.fresh else none) :=
      hlocal name
    cases hfind : ms.find? (fun m => Has name m) with
    | some m' =>
      rw [hfind] at hold
      obtain ⟨a, ha, hname, hm⟩ := hold
      refine ⟨a, ?_, ?_, ?_⟩
      · rw [hfresh]
        exact Nat.lt_succ_of_lt ha
      · rw [hlocal', hname, Option.some_or]
      · rw [hheap, Function.update_of_ne (Nat.ne_of_lt ha)]
        change Function.update li.heap li.fresh _ a = _
        rw [Function.update_of_ne (Nat.ne_of_lt ha), hm]
    | none =>
      rw [hfind] at hold
      rw [hold, Option.none_or] at hlocal'
      by_cases hhas : Has name m
      · rw [if_pos hhas] at hlocal'
        simp only [List.find?_cons, hhas, decide_true, Option.none_or]
        exact ⟨li.fresh, hfresh ▸ Nat.lt_succ_self _, hlocal', hobj⟩
      · rw [if_neg hhas] at hlocal'
        simpa [hhas] using hlocal'

theorem rebuilt_finds (li : LazyImports) : li.rebuilt.Finds li.sections := by
  have hrun : ∀ (ms done : List ModuleImports) (l : LazyImports), l.Finds done → (ms.foldl readSection l).Finds (done ++ ms) := by
    intro ms
    induction ms with
    | nil =>
      intro done l h
      rwa [List.append_nil]
    | cons m ms ih =>
      intro done l h
      rw [List.append_cons]
      exact ih _ _ (h.next m)
  exact hrun li.sections [] empty fun _ => rfl

/-- The first entry with a name has the section in which it is found. -/
theorem find_sections (li : LazyImports) (name : List UInt8) :
    li.sections.find? (fun m => Has name m) =
      (li.byModule.entries.find? fun e => Has name (li.heap e.2)).map fun e => li.heap e.2 := by
  rw [sections, List.find?_map]
  rfl

theorem Holds.has_iff (h : Holds li calls) {e : ModuleId × Nat} (he : e ∈ li.byModule.entries) :
    Has name (li.heap e.2) ↔ ∃ c ∈ calls, c.id = e.1 ∧ c.i.localName = name := by
  obtain ⟨parsed, -, hobj⟩ := h.object e he
  simp only [Has, hobj, Call.imports, List.mem_map, List.mem_filter, decide_eq_true_eq]
  constructor
  · rintro ⟨_, ⟨c, ⟨hc, hid⟩, rfl⟩, hname⟩
    exact ⟨c, hc, hid, hname⟩
  · rintro ⟨c, hc, hid, hname⟩
    exact ⟨c.i, ⟨c, ⟨hc, hid⟩, rfl⟩, hname⟩

/-- The rebuilt imports find a name in the module with the least key, as a module. -/
theorem Holds.rebuilt_getImport (h : Holds li calls) (name : List UInt8) :
    match Call.first calls name with
    | none => li.rebuilt.getImport name = .ok {}
    | some _ => ∃ id moduleName i, (∃ c ∈ calls, c.id = id ∧ c.i.localName = name) ∧
        (∀ c ∈ calls, c.i.localName = name → ModuleId.order id ≤ ModuleId.order c.id) ∧
        ModuleDef.parseCanonicalName id.1 = .ok moduleName ∧
        (Call.imports calls id).find? (·.localName = name) = some i ∧
        li.rebuilt.getImport name = .ok ⟨moduleName, false, [i]⟩ := by
  have hfinds := rebuilt_finds li name
  rw [find_sections] at hfinds
  cases hentry : li.byModule.entries.find? (fun e => Has name (li.heap e.2)) with
  | none =>
    have hnone : Call.first calls name = none := by
      refine List.find?_eq_none.mpr fun c hc hname => ?_
      obtain ⟨a, ha⟩ := h.added c hc
      have hno := List.find?_eq_none.mp hentry _ ha
      rw [decide_eq_true_eq, h.has_iff ha] at hno
      exact hno ⟨c, hc, rfl, of_decide_eq_true hname⟩
    rw [hnone]
    rw [hentry, Option.map_none] at hfinds
    simp only [LazyImports.getImport, hfinds]
  | some e =>
    have he := List.mem_of_find?_eq_some hentry
    have hhas := List.find?_some hentry
    rw [decide_eq_true_eq] at hhas
    obtain ⟨c, hc, hid, hname⟩ := (h.has_iff he).mp hhas
    obtain ⟨first, hfirst⟩ : ∃ first, Call.first calls name = some first := by
      cases hf : Call.first calls name with
      | some first => exact ⟨first, rfl⟩
      | none => exact absurd (decide_eq_true hname) (List.find?_eq_none.mp hf c hc)
    obtain ⟨moduleName, hparse, hobj⟩ := h.object e he
    obtain ⟨i, hi⟩ : ∃ i, (Call.imports calls e.1).find? (·.localName = name) = some i := by
      rw [Has, hobj] at hhas
      obtain ⟨i, hmem, hlocal⟩ := hhas
      rw [← Option.isSome_iff_exists, List.find?_isSome]
      exact ⟨i, hmem, decide_eq_true hlocal⟩
    rw [hfirst]
    rw [hentry, Option.map_some] at hfinds
    obtain ⟨a, -, hlocal, ha⟩ := hfinds
    refine ⟨e.1, moduleName, i, ⟨c, hc, hid, hname⟩, fun c' hc' hname' => ?_, hparse, hi, ?_⟩
    · obtain ⟨a', ha'⟩ := h.added c' hc'
      exact SortedMap.find_least hentry ha' (decide_eq_true ((h.has_iff ha').mpr ⟨c', hc', rfl, hname'⟩))
    · simp only [LazyImports.getImport, hlocal, ha, hobj, hi]

theorem order_false_lt (name : List UInt8) : ModuleId.order (name, false) < ModuleId.order (name, true) :=
  Prod.Lex.toLex_lt_toLex.mpr (.inr ⟨rfl, rfl⟩)

/-- A name leads to the same import if the first call with it was for a module and no later
one has a lesser key. -/
theorem Holds.same_iff (h : Holds li calls) (name : List UInt8) :
    li.rebuilt.getImport name = li.getImport name ↔
      ∀ c, Call.first calls name = some c →
        c.rawSharedLib = false ∧ ∀ c' ∈ calls, c'.i.localName = name → ModuleId.order c.id ≤ ModuleId.order c'.id := by
  have hnew := h.rebuilt_getImport name
  have hold := h.getImport name
  cases hfirst : Call.first calls name with
  | none =>
    rw [hfirst] at hnew hold
    exact ⟨fun _ c hc => (nomatch hc), fun _ => hnew.trans hold.symm⟩
  | some c =>
    rw [hfirst] at hnew hold
    obtain ⟨id, moduleName, i, ⟨c₀, hc₀, hid, hname₀⟩, hleast, hparse, hi, hnew⟩ := hnew
    obtain ⟨moduleName', hparse', hold⟩ := hold
    have hc : c ∈ calls := List.mem_of_find?_eq_some hfirst
    have hname := List.find?_some hfirst
    rw [decide_eq_true_eq] at hname
    rw [hnew, hold]
    constructor
    · rintro heq c' hc'
      cases hc'
      obtain ⟨hmods, hraw, -⟩ := ModuleImports.mk.inj (Except.ok.inj heq)
      have hsame : id.1 = c.moduleName := by
        rw [← ModuleDef.joinName_of_parse hparse, ← ModuleDef.joinName_of_parse hparse', hmods]
      have hkind : id.2 = false := by
        by_contra htrue
        have hle := hleast c hc hname
        have hids : id = (c.moduleName, true) := Prod.ext hsame (Bool.not_eq_false _ ▸ htrue)
        have hcid : c.id = (c.moduleName, false) := Prod.ext rfl hraw.symm
        rw [hids, hcid] at hle
        exact absurd (order_false_lt c.moduleName) (not_lt.mpr hle)
      have hcid : id = c.id := Prod.ext hsame (hkind.trans hraw)
      exact ⟨hraw.symm, fun c' hc' hname' => hcid ▸ hleast c' hc' hname'⟩
    · intro hcond
      obtain ⟨hraw, hle⟩ := hcond c rfl
      have hcid : id = c.id :=
        ModuleId.order.injective (le_antisymm (hleast c hc hname) (hid ▸ hle c₀ hc₀ hname₀))
      subst hcid
      have hmods := Except.ok.inj (hparse.symm.trans hparse')
      have himport := Option.some.inj ((find_imports hfirst).symm.trans hi)
      rw [hmods, himport, hraw]

end Lookup

section RoundTrip

variable {c : Scope} {li : LazyImports} {s : Serializer} {d : Deserializer}

/-- What is read of the stored imports, wherever they are in the stream. -/
theorem reads_rebuilt (hshort : li.Short) (hs : InStep c s d)
    (hf : (li.serializeOptional s).overflow = false) :
    ∃ bytes d', (li.serializeOptional s).dst = s.dst ++ bytes ∧
      (∀ rest, deserializeOptional (d.feed (bytes ++ rest)) = .ok (li.rebuilt, d'.feed rest)) ∧
      InStep c (li.serializeOptional s) d' := by
  have hm := mirrors_optionalBlock (c := c) (s := s) hshort
  obtain ⟨bytes, hbytes⟩ := hm.grows
  have hdst : (li.serializeOptional s).dst = s.dst ++ bytes := hbytes.symm
  obtain ⟨li', d', rfl, hr, hd'⟩ := hm.reads hf d hs
  rw [show ((stream c).out (li.serializeOptional s)).drop ((stream c).out s).length = bytes from
    drop_of_grows (L := stream c) hdst] at hr
  exact ⟨bytes, d', hdst, hr.whole, hd'⟩

/-- Imports that were stored and read again give the same import for every name if and only if
the first call with the name was for a module, and no later one for a module with a lesser key. -/
theorem imports_restored_iff (calls : List Call) (hadd : addAll empty calls = .ok li) (hshort : li.Short)
    (hs : InStep c s d) (hf : (li.serializeOptional s).overflow = false) :
    ∃ bytes li' d', (li.serializeOptional s).dst = s.dst ++ bytes ∧
      (∀ rest, deserializeOptional (d.feed (bytes ++ rest)) = .ok (li', d'.feed rest)) ∧
      InStep c (li.serializeOptional s) d' ∧
      ((∀ name, li'.getImport name = li.getImport name) ↔
        ∀ name c, Call.first calls name = some c →
          c.rawSharedLib = false ∧ ∀ c' ∈ calls, c'.i.localName = name → ModuleId.order c.id ≤ ModuleId.order c'.id) := by
  have hholds : Holds li calls := holds_empty.addAll hadd
  obtain ⟨bytes, d', hdst, hr, hd'⟩ := reads_rebuilt hshort hs hf
  exact ⟨bytes, li.rebuilt, d', hdst, hr, hd', forall_congr' fun name => hholds.same_iff name⟩

/-- A writer whose bytes do not depend on what was written before. -/
def Emits (w : Serializer → Serializer) : Prop := ∃ bytes, ∀ s, w s = s.emit bytes

theorem emits_id : Emits id := ⟨[], fun s => by simp [Serializer.emit]⟩

theorem Emits.comp {w w' : Serializer → Serializer} (h : Emits w) (h' : Emits w') : Emits fun s => w' (w s) := by
  obtain ⟨bytes, h⟩ := h
  obtain ⟨bytes', h'⟩ := h'
  refine ⟨bytes ++ bytes', fun s => ?_⟩
  change w' (w s) = _
  rw [h, h', emit_emit]

theorem Emits.foldl {α : Type} {f : Serializer → α → Serializer} (h : ∀ x, Emits (f · x)) :
    ∀ xs : List α, Emits fun s => xs.foldl f s
  | [] => emits_id
  | x :: xs => (h x).comp (Emits.foldl h xs)

theorem emits_blob (data : List UInt8) : Emits (·.writeBlob data) := ⟨_, fun s => writeBlob_eq s data⟩

theorem Emits.field {w : Serializer → Serializer} (h : Emits w) (key : Nat) : Emits fun s => w (s.writeUInt key) :=
  .comp ⟨_, fun s => writeUInt_eq s key⟩ h

theorem Emits.sub {w : Serializer → Serializer} (h : Emits w) : Emits (·.writeSub w) := by
  obtain ⟨bytes, h⟩ := h
  refine ⟨uintBytes (bytes.length % uintSize) ++ bytes, fun s => ?_⟩
  change (s.join (w s.sub)).writeBlob (w s.sub).dst = _
  rw [h s.sub, writeBlob_eq]
  rfl

theorem emits_writeLazy (i : ImportedDef) : Emits i.writeLazy := by
  rw [funext (writeLazy_eq i)]
  exact .foldl (fun item => (emits_blob item.2).field (symbolKey item)) _

theorem emits_write (m : ModuleImports) : Emits m.write := by
  rw [funext (write_eq m)]
  refine .foldl (fun item => ?_) _
  cases item with
  | inl name => exact (emits_blob name).field _
  | inr i => exact (emits_writeLazy i).sub.field _

theorem emits_serialize (li : LazyImports) : Emits li.serialize :=
  .foldl (fun e : ModuleId × Nat => (emits_write (li.heap e.2)).sub.field (pbKey 2 pbString)) li.byModule.entries

/-- The length of a nested part is the same in every stream. -/
theorem Emits.length {w : Serializer → Serializer} (h : Emits w) (hlen : (w {}).dst.length < uintSize) (s : Serializer) :
    (w s.sub).dst.length < uintSize := by
  obtain ⟨bytes, h⟩ := h
  rw [h] at hlen ⊢
  exact hlen

/-- What is stored is short if each part is. -/
theorem short_of_lengths (hwhole : (li.serialize {}).dst.length < uintSize)
    (h : ∀ e ∈ li.byModule.entries, ((li.heap e.2).write {}).dst.length < uintSize ∧
      (∀ name ∈ (li.heap e.2).moduleName, name.length < uintSize) ∧
      ∀ i ∈ (li.heap e.2).imports, i.source.length < uintSize ∧ i.localName.length < uintSize ∧
        (i.writeLazy {}).dst.length < uintSize) : li.Short := by
  refine ⟨fun e he => ?_, (emits_serialize li).length hwhole⟩
  obtain ⟨hmodule, hnames, himports⟩ := h e he
  refine ⟨hnames, fun i hi => ?_, (emits_write _).length hmodule⟩
  obtain ⟨hsource, hlocal, hsymbol⟩ := himports i hi
  exact ⟨hsource, hlocal, (emits_writeLazy i).length hsymbol⟩

/-- The imports after a number of calls, where none fails. -/
def added (calls : List Call) : LazyImports := (addAll empty calls).toOption.getD empty

theorem addAll_added {calls : List Call} (h : (addAll empty calls).isOk = true) : addAll empty calls = .ok (added calls) := by
  rw [added]
  cases hadd : addAll empty calls with
  | ok li => rfl
  | error e =>
    rw [hadd] at h
    cases h

/-- Two modules, an import under another name, and a local name that two of them have. -/
def mathCalls : List Call :=
  [⟨ascii "libc.io", false, ⟨ascii "write", ascii "puts"⟩⟩, ⟨ascii "libc.io", false, ⟨ascii "sin", ascii "sinf"⟩⟩,
    ⟨ascii "libm", false, ⟨ascii "sin", ascii "sin"⟩⟩]

theorem math_restored :
    ∃ bytes li' d', ((added mathCalls).serializeOptional { digestEnabled := true }).dst = bytes ∧
      deserializeOptional { src := { data := bytes }, digestEnabled := true } = .ok (li', d') ∧
      ∀ name, li'.getImport name = (added mathCalls).getImport name := by
  obtain ⟨bytes, li', d', hdst, hr, -, hsame⟩ := imports_restored_iff mathCalls (addAll_added (by decide +kernel))
    (short_of_lengths (by decide +kernel) (by decide +kernel)) (Generic.inStep_start true) (by decide +kernel)
  have hread := hr []
  rw [List.append_nil] at hread
  refine ⟨bytes, li', _, hdst, hread, hsame.mpr fun name c hc => ?_⟩
  have hmem := List.mem_of_find?_eq_some hc
  have hname := List.find?_some hc
  rw [decide_eq_true_eq] at hname
  subst hname
  rw [mathCalls, List.mem_cons, List.mem_cons, List.mem_singleton] at hmem
  obtain rfl | rfl | rfl := hmem
  · exact ⟨rfl, by decide +kernel⟩
  · exact ⟨rfl, by decide +kernel⟩
  · exact absurd (congrArg (Option.map Call.id) hc) (by decide +kernel)

/-- A function of a shared library is looked for in a module afterwards. -/
theorem shared_library_lost :
    ∃ li bytes li' d', addAll empty [⟨ascii "libm", true, ⟨ascii "sin", ascii "sin"⟩⟩] = .ok li ∧
      (li.serializeOptional {}).dst = bytes ∧ deserializeOptional { src := { data := bytes } } = .ok (li', d') ∧
      li.getImport (ascii "sin") = .ok ⟨[ascii "libm"], true, [⟨ascii "sin", ascii "sin"⟩]⟩ ∧
      li'.getImport (ascii "sin") = .ok ⟨[ascii "libm"], false, [⟨ascii "sin", ascii "sin"⟩]⟩ := by
  have hshort : (added [⟨ascii "libm", true, ⟨ascii "sin", ascii "sin"⟩⟩]).Short :=
    short_of_lengths (by decide +kernel) (by decide +kernel)
  obtain ⟨bytes, d', hdst, hr, -⟩ := reads_rebuilt hshort (Generic.inStep_start false) (by decide +kernel)
  have hread := hr []
  rw [List.append_nil] at hread
  exact ⟨_, bytes, _, _, addAll_added (by decide +kernel), hdst, hread, rfl, rfl⟩

end RoundTrip

end LazyImports

end Crack
