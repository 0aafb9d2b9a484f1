import Crack.Model.CanonicalName

/-!
The way back from an instantiation to its generic: `getSpecialization` records the path of
the generic's name in its module, and a stale instantiation is rebuilt by looking that path
up from the module.
-/
namespace Crack
namespace Generics
open ModuleDef (dot substr joinName joinName_cons joinName_concat joinName_ne_nil)

/-- A module, or a type in the namespace that owns it. -/
inductive Namespace
  | module (name : List UInt8)
  | type (owner : Namespace) (name : List UInt8)
  deriving DecidableEq

namespace Namespace

/-- The name that `setOwner` gives to the namespace of a type. -/
def canonicalName : Namespace → List UInt8
  | module name => name
  | type owner name => if owner.canonicalName ≠ [] then owner.canonicalName ++ dot :: name else name

def getFullName : Namespace → List UInt8
  | module name => name
  | type owner name => if owner.canonicalName ≠ [] then owner.canonicalName ++ dot :: name else name

/-- The name of the module around the namespace. -/
def getModule : Namespace → List UInt8
  | module name => name
  | type owner _ => owner.getModule

/-- The names from the module down to the type. -/
def path : Namespace → List (List UInt8)
  | module _ => []
  | type owner name => owner.path ++ [name]

/-- The loop over the positions of the full name, behind the module's name. -/
def wordLoop (typeFullName : List UInt8) : List UInt8 → Nat → Nat → List (List UInt8) → List (List UInt8)
  | [], _, startOfLastWord, genericName => genericName ++ [typeFullName.drop startOfLastWord]
  | c :: rest, i, startOfLastWord, genericName =>
    if c = dot then wordLoop typeFullName rest (i + 1) (i + 1) (genericName ++ [substr typeFullName startOfLastWord i])
    else wordLoop typeFullName rest (i + 1) startOfLastWord genericName

/-- What `getSpecialization` records of a generic as `genericName`. -/
def genericName (type : Namespace) : Except String (List (List UInt8)) :=
  let sourceModFullName := type.getModule
  let typeFullName := type.getFullName
  if substr typeFullName 0 (sourceModFullName.length + 1) ≠ sourceModFullName ++ [dot] then
    .error "Type is not qualified by its module"
  else
    let typeFullName := typeFullName.drop (sourceModFullName.length + 1)
    .ok (wordLoop typeFullName typeFullName 0 0 [])

section Words
variable {s word rest : List UInt8} {i start : Nat} {acc : List (List UInt8)}

theorem wordLoop_skip (h : dot ∉ word) :
    wordLoop s (word ++ rest) i start acc = wordLoop s rest (i + word.length) start acc := by
  induction word generalizing i with
  | nil => rfl
  | cons c word ih =>
    have hc : c ≠ dot := fun hc => h (hc ▸ List.mem_cons_self)
    rw [List.cons_append, wordLoop, if_neg hc, ih (fun hw => h (List.mem_cons_of_mem _ hw)), List.length_cons,
      Nat.add_right_comm, Nat.add_assoc]

theorem wordLoop_dot : wordLoop s (dot :: rest) i start acc = wordLoop s rest (i + 1) (i + 1) (acc ++ [substr s start i]) := by
  rw [wordLoop, if_pos rfl]

theorem prefix_wordLoop (s rest : List UInt8) (i start : Nat) (acc : List (List UInt8)) :
    acc <+: wordLoop s rest i start acc := by
  induction rest generalizing i start acc with
  | nil => exact List.prefix_append acc _
  | cons c rest ih =>
    by_cases hc : c = dot
    · rw [wordLoop, if_pos hc]
      exact (List.prefix_append acc _).trans (ih _ _ _)
    · rw [wordLoop, if_neg hc]
      exact ih _ _ _

/-- The words of a path of two names at most are its names. -/
theorem wordLoop_short {words : List (List UInt8)} (hne : words ≠ []) (hlen : words.length ≤ 2) (h : ∀ word ∈ words, dot ∉ word) :
    wordLoop (joinName words) (joinName words) 0 0 [] = words := by
  match words with
  | [] => exact absurd rfl hne
  | [first] =>
    have hskip : wordLoop first (first ++ []) 0 0 [] = wordLoop first [] (0 + first.length) 0 [] :=
      wordLoop_skip (h first List.mem_cons_self)
    rw [List.append_nil] at hskip
    exact hskip
  | [first, second] =>
    have hfirst := h first List.mem_cons_self
    have hsecond := h second (by simp)
    have hskip (s : List UInt8) (i start : Nat) (acc : List (List UInt8)) :
        wordLoop s (second ++ []) i start acc = wordLoop s [] (i + second.length) start acc := wordLoop_skip hsecond
    simp only [List.append_nil] at hskip
    have hcut : substr (first ++ dot :: second) 0 first.length = first := by
      rw [substr, List.drop_zero, List.take_left]
    have hlast : (first ++ dot :: second).drop (first.length + 1) = second := by
      rw [← List.drop_drop, List.drop_left, List.drop_one, List.tail_cons]
    rw [joinName_cons first (List.cons_ne_nil _ _), joinName, wordLoop_skip hfirst, wordLoop_dot, hskip, wordLoop, Nat.zero_add, hcut, hlast]
    rfl
  | _ :: _ :: _ :: _ => simp at hlen

/-- From the second word on a word is cut too long: the length asked for counts from the
start of the path. -/
theorem wordLoop_long {first second : List UInt8} (third : List UInt8) (words : List (List UInt8)) (hfirst : dot ∉ first)
    (hsecond : dot ∉ second) :
    ∃ word words', wordLoop (joinName (first :: second :: third :: words)) (joinName (first :: second :: third :: words)) 0 0 [] =
        first :: word :: words' ∧ dot ∈ word := by
  let s := first ++ dot :: (second ++ dot :: joinName (third :: words))
  have hs : joinName (first :: second :: third :: words) = s := rfl
  have hcut : substr s 0 first.length = first := by
    rw [substr, List.drop_zero, List.take_left]
  have hrun : wordLoop s s 0 0 [] =
      wordLoop s (joinName (third :: words)) (first.length + 1 + second.length + 1) (first.length + 1 + second.length + 1)
        [first, substr s (first.length + 1) (first.length + 1 + second.length)] := by
    change wordLoop s (first ++ dot :: (second ++ dot :: joinName (third :: words))) 0 0 [] = _
    rw [wordLoop_skip hfirst, wordLoop_dot, wordLoop_skip hsecond, wordLoop_dot, Nat.zero_add, hcut]
    rfl
  have hdrop : s.drop (first.length + 1) = second ++ dot :: joinName (third :: words) := by
    rw [← List.drop_drop, List.drop_left, List.drop_one, List.tail_cons]
  have hword : dot ∈ substr s (first.length + 1) (first.length + 1 + second.length) := by
    have hlen : first.length + 1 + second.length = second.length + (first.length + 1) := Nat.add_comm _ _
    rw [substr, hdrop, hlen, List.take_length_add_append, List.take_succ_cons]
    simp
  obtain ⟨words', hwords'⟩ := prefix_wordLoop s (joinName (third :: words)) (first.length + 1 + second.length + 1)
    (first.length + 1 + second.length + 1) [first, substr s (first.length + 1) (first.length + 1 + second.length)]
  rw [hs, hrun, ← hwords']
  exact ⟨_, words', rfl, hword⟩

end Words

end Namespace

/-- The modules by name and the types in each symbol table. The names of types are identifiers. -/
structure Construct where
  modules : List UInt8 → Option Namespace
  defs : Namespace → List UInt8 → Option Namespace
  generic : Namespace → Bool
  ident : ∀ ns name, defs ns name ≠ none → dot ∉ name

namespace Construct

def lookUpLoop (c : Construct) (ns : Namespace) : List (List UInt8) → Option Namespace
  | [] => some ns
  | name :: names =>
    match c.defs ns name with
    | none => none
    | some ns => c.lookUpLoop ns names

/-- The generic that `getModule` instantiates again for a stale instantiation. -/
def sourceType (c : Construct) (genericModule : List UInt8) (genericName : List (List UInt8)) : Option Namespace :=
  match c.modules genericModule with
  | none => none
  | some ns =>
    match c.lookUpLoop ns genericName with
    | none => none
    | some (.module _) => none
    | some (.type owner name) => if c.generic (.type owner name) then some (.type owner name) else none

/-- A namespace that can be reached from a loaded module under its names. -/
inductive Declared (c : Construct) : Namespace → Prop
  | module {name : List UInt8} : name ≠ [] → c.modules name = some (.module name) → Declared c (.module name)
  | type {owner : Namespace} {name : List UInt8} : Declared c owner → c.defs owner name = some (.type owner name) →
      Declared c (.type owner name)

variable {c : Construct} {ns : Namespace} {owner : Namespace} {name : List UInt8} {names : List (List UInt8)}

theorem lookUpLoop_append (names names' : List (List UInt8)) :
    c.lookUpLoop ns (names ++ names') = (c.lookUpLoop ns names).bind (c.lookUpLoop · names') := by
  induction names generalizing ns with
  | nil => rfl
  | cons name names ih =>
    rw [List.cons_append, lookUpLoop, lookUpLoop]
    cases c.defs ns name with
    | none => rfl
    | some next => exact ih

/-- The path of a declared type leads to it. -/
theorem Declared.lookUp_path (h : c.Declared ns) : c.lookUpLoop (.module ns.getModule) ns.path = some ns := by
  induction h with
  | module _ _ => rfl
  | type _ hbound ih =>
    rw [Namespace.path, Namespace.getModule, lookUpLoop_append, ih, Option.bind_some, lookUpLoop, hbound]
    rfl

theorem Declared.modules_getModule (h : c.Declared ns) : c.modules ns.getModule = some (.module ns.getModule) := by
  induction h with
  | module _ hloaded => exact hloaded
  | type _ _ ih => exact ih

theorem Declared.getModule_ne_nil (h : c.Declared ns) : ns.getModule ≠ [] := by
  induction h with
  | module hne _ => exact hne
  | type _ _ ih => exact ih

theorem Declared.ident_path (h : c.Declared ns) : ∀ word ∈ ns.path, dot ∉ word := by
  induction h with
  | module _ _ => exact fun _ hword => nomatch hword
  | @type owner name _ hbound ih =>
    intro word hword
    rcases List.mem_append.mp hword with hword | hword
    · exact ih word hword
    · rw [List.mem_singleton.mp hword]
      exact c.ident owner name (by simp [hbound])

/-- The full name of a type is the module's name and the path, with dots between. -/
theorem Declared.canonicalName_eq (h : c.Declared ns) : ns.canonicalName = joinName (ns.getModule :: ns.path) := by
  induction h with
  | module _ _ => rfl
  | @type owner name howner hbound ih =>
    have hne : owner.canonicalName ≠ [] := by
      rw [ih]
      exact joinName_ne_nil howner.getModule_ne_nil
    rw [Namespace.canonicalName, if_pos hne, ih, Namespace.getModule, Namespace.path, ← List.cons_append, joinName_concat _ (List.cons_ne_nil _ _)]

theorem Declared.getFullName_eq (h : c.Declared (.type owner name)) :
    (Namespace.type owner name).getFullName =
      owner.getModule ++ dot :: joinName (Namespace.type owner name).path := by
  have hname := h.canonicalName_eq
  rw [joinName_cons _ (by simp [Namespace.path])] at hname
  exact hname

/-- What is recorded are the words that the loop cuts out of the path. -/
theorem Declared.genericName_eq (h : c.Declared (.type owner name)) :
    (Namespace.type owner name).genericName =
      .ok (Namespace.wordLoop (joinName (Namespace.type owner name).path) (joinName (Namespace.type owner name).path) 0 0 []) := by
  have hsplit : owner.getModule ++ dot :: joinName (Namespace.type owner name).path =
      (owner.getModule ++ [dot]) ++ joinName (Namespace.type owner name).path := by simp
  have hlen : (owner.getModule ++ [dot]).length = owner.getModule.length + 1 := List.length_append
  simp only [Namespace.genericName, h.getFullName_eq, hsplit, Namespace.getModule, substr, List.drop_zero, ← hlen,
    List.take_left, List.drop_left, ne_eq, not_true_eq_false, if_false]

theorem lookUpLoop_dotted {word : List UInt8} (hword : dot ∈ word) (hnames : word ∈ names) :
    c.lookUpLoop ns names = none := by
  induction names generalizing ns with
  | nil => exact nomatch hnames
  | cons name names ih =>
    rw [lookUpLoop]
    cases hbound : c.defs ns name with
    | none => rfl
    | some next =>
      rcases List.mem_cons.mp hnames with rfl | hnames
      · exact absurd hword (c.ident ns word (by simp [hbound]))
      · exact ih hnames

theorem Declared.sourceType_path (h : c.Declared (.type owner name)) (hgeneric : c.generic (.type owner name)) :
    c.sourceType (Namespace.type owner name).getModule (Namespace.type owner name).path = some (.type owner name) := by
  simp only [sourceType, h.modules_getModule, h.lookUp_path, hgeneric, if_true]

theorem sourceType_dotted {genericModule word : List UInt8} (hword : dot ∈ word) (hnames : word ∈ names) :
    c.sourceType genericModule names = none := by
  rw [sourceType]
  cases c.modules genericModule with
  | none => rfl
  | some ns => simp only [lookUpLoop_dotted hword hnames]

/-- A path of three names or more is recorded with a word that no definition is bound to. -/
theorem Declared.deep_genericName (h : c.Declared (.type owner name))
    (hdeep : 2 < (Namespace.type owner name).path.length) :
    ∃ word words, (Namespace.type owner name).genericName = .ok words ∧ word ∈ words ∧ dot ∈ word := by
  have hident := h.ident_path
  rw [h.genericName_eq]
  match hpath : (Namespace.type owner name).path with
  | [] | [_] | [_, _] => simp [hpath] at hdeep
  | first :: second :: third :: names =>
    rw [hpath] at hident
    obtain ⟨word, words, hwords, hword⟩ := Namespace.wordLoop_long third names
      (hident first List.mem_cons_self) (hident second (by simp))
    exact ⟨word, _, congrArg Except.ok hwords, by simp, hword⟩

/-- The generic of an instantiation is recorded by its path, and found again by what is
recorded, just when it is at most one class deep in its module. -/
theorem generic_found_again (c : Construct) (h : c.Declared (.type owner name))
    (hgeneric : c.generic (.type owner name)) :
    ((Namespace.type owner name).genericName = .ok (Namespace.type owner name).path ↔
        (Namespace.type owner name).path.length ≤ 2) ∧
      ((Namespace.type owner name).genericName.toOption.bind (c.sourceType (Namespace.type owner name).getModule) =
          some (.type owner name) ↔ (Namespace.type owner name).path.length ≤ 2) := by
  by_cases hlen : (Namespace.type owner name).path.length ≤ 2
  · have hname : (Namespace.type owner name).genericName = .ok (Namespace.type owner name).path := by
      rw [h.genericName_eq, Namespace.wordLoop_short (by simp [Namespace.path]) hlen h.ident_path]
    refine ⟨iff_of_true hname hlen, iff_of_true ?_ hlen⟩
    rw [hname]
    exact h.sourceType_path hgeneric
  · obtain ⟨word, words, hname, hmem, hword⟩ := h.deep_genericName (Nat.lt_of_not_le hlen)
    rw [hname]
    refine ⟨iff_of_false ?_ hlen, iff_of_false ?_ hlen⟩
    · intro he
      rw [Except.ok.inj he] at hmem
      exact h.ident_path word hmem hword
    · change c.sourceType _ words ≠ _
      rw [sourceType_dotted hword hmem]
      exact nofun

/-- A module `m` with the generic `A.B.C` and the classes around it. -/
def nestedClasses : Construct where
  modules name := if name = [109] then some (.module [109]) else none
  defs ns name :=
    if ns = .module [109] ∧ name = [65] ∨ ns = .type (.module [109]) [65] ∧ name = [66] ∨
        ns = .type (.type (.module [109]) [65]) [66] ∧ name = [67] then some (.type ns name)
    else none
  generic ns := ns = .type (.module [109]) [65] ∨ ns = .type (.type (.module [109]) [65]) [66] ∨
    ns = .type (.type (.type (.module [109]) [65]) [66]) [67]
  ident ns name h := by
    have hbound := of_not_not (fun hn => h (if_neg hn))
    rcases hbound with ⟨-, rfl⟩ | ⟨-, rfl⟩ | ⟨-, rfl⟩ <;> decide

theorem nestedClasses_declared : nestedClasses.Declared (.type (.type (.module [109]) [65]) [66]) :=
  .type (.type (.module (by decide) rfl) (by decide)) (by decide)

/-- `A.B` is recorded as it is, `A.B.C` as `A`, `B.C`, `C`. -/
theorem nested_generic_found :
    (Namespace.type (.type (.module [109]) [65]) [66]).genericName = .ok [[65], [66]] ↔ [[65], [66]].length ≤ 2 :=
  (generic_found_again nestedClasses nestedClasses_declared (by decide)).1

theorem deep_generic_lost :
    (Namespace.type (.type (.type (.module [109]) [65]) [66]) [67]).genericName = .ok [[65], [66, dot, 67], [67]] ∧
      ¬ ∀ (c : Construct) (owner : Namespace) (name : List UInt8), c.Declared (.type owner name) →
        c.generic (.type owner name) →
        (Namespace.type owner name).genericName = .ok (Namespace.type owner name).path ∧
          (Namespace.type owner name).genericName.toOption.bind (c.sourceType (Namespace.type owner name).getModule) =
            some (.type owner name) := by
  have hname : (Namespace.type (.type (.type (.module [109]) [65]) [66]) [67]).genericName =
      .ok [[65], [66, dot, 67], [67]] := by decide
  refine ⟨hname, fun hall => ?_⟩
  have h := hall nestedClasses (.type (.type (.module [109]) [65]) [66]) [67]
    (.type nestedClasses_declared (by decide)) (by decide)
  exact absurd (Except.ok.inj (hname.symm.trans h.1)) (by decide)

end Construct
end Generics
end Crack
