import Crack.Cmdline.CmdOptions
import Mathlib.Algebra.Group.Nat.Defs
import Mathlib.Data.List.Basic
import Mathlib.Data.List.Induction

/-!
# Forms of arguments

The arguments that set declared options, and what they set. A name stands for the first option that is declared with it.
-/
namespace Crack

namespace Cmdline

inductive Item where
  /-- `--name=value` -/
  | valued (name value : List UInt8)
  /-- `--name` -/
  | flag (name : List UInt8)
  /-- `--enable-name` -/
  | enable (name : List UInt8)
  /-- `--disable-name` -/
  | disable (name : List UInt8)
  /-- `--name=true` and `--name=false` -/
  | truth (name : List UInt8) (b : Bool)
  /-- `-n value` -/
  | shortValued (c : UInt8) (value : List UInt8)
  /-- `-nvalue` -/
  | shortJoined (c : UInt8) (value : List UInt8)
  /-- `-abc` -/
  | flags (c : UInt8) (cs : List UInt8)
  | plain (arg : List UInt8)
  deriving DecidableEq, Repr

/-- What an option is set to. -/
inductive Setting where
  | text (value : List UInt8)
  | truth (b : Bool)
  deriving DecidableEq, Repr

def longIndex (decls : List Decl) (name : List UInt8) : Option Nat := decls.findIdx? fun d => name = d.long

def shortIndex (decls : List Decl) (c : UInt8) : Option Nat := decls.findIdx? fun d => d.short.head? = some c

/-- An option, if it is a boolean or if it is not. -/
def ofType (decls : List Decl) (bool : Bool) (index : Option Nat) : Option Nat :=
  index.filter fun k => decls[k]?.any fun d => decide (d.type = .bool) = bool

namespace Item

def args : Item → List (List UInt8)
  | valued name value => [45 :: 45 :: (name ++ 61 :: value)]
  | flag name => [45 :: 45 :: name]
  | enable name => [45 :: 45 :: (ascii "enable-" ++ name)]
  | disable name => [45 :: 45 :: (ascii "disable-" ++ name)]
  | truth name b => [45 :: 45 :: (name ++ 61 :: if b then ascii "true" else ascii "false")]
  | shortValued c value => [[45, c], value]
  | shortJoined c value => [45 :: c :: value]
  | flags c cs => [45 :: c :: cs]
  | plain arg => [arg]

/-- The options that are set, one after the other, or `none` if the item is not one of the forms for declared options. -/
def settings (decls : List Decl) : Item → Option (List (Nat × Setting))
  | valued name value =>
    if name = [] then none else (ofType decls false (longIndex decls name)).map fun k => [(k, .text value)]
  | flag name | enable name =>
    if name = [] then none else (ofType decls true (longIndex decls name)).map fun k => [(k, .truth true)]
  | disable name => if name = [] then none else (ofType decls true (longIndex decls name)).map fun k => [(k, .truth false)]
  | truth name b => if name = [] then none else (ofType decls true (longIndex decls name)).map fun k => [(k, .truth b)]
  | shortValued c value => (ofType decls false (shortIndex decls c)).map fun k => [(k, .text value)]
  | shortJoined c value =>
    if value = [] then none else (ofType decls false (shortIndex decls c)).map fun k => [(k, .text value)]
  | flags c cs => (c :: cs).mapM fun c => (ofType decls true (shortIndex decls c)).map fun k => (k, .truth true)
  | plain arg => if arg.head? = some 45 ∧ arg ≠ [45] then none else some []

def plains : Item → List (List UInt8)
  | plain arg => [arg]
  | _ => []

end Item

/-- The last setting of an option. -/
def last (k : Nat) (sets : List (Nat × Setting)) : Option Setting := (sets.reverse.find? fun s => s.1 = k).map (·.2)

/-- An option as it was declared and as it is in the end. -/
def Shows (o o' : CmdOption) : Option Setting → Prop
  | some (.text value) => o' = { o with value }
  | some (.truth b) => o'.toDecl = o.toDecl ∧ stringAsBool o'.value = b
  | none => o' = o

/-- All arguments, those behind a `--` included. -/
def allArgs (items : List Item) (behind : Option (List (List UInt8))) : List (List UInt8) :=
  items.flatMap Item.args ++ match behind with
    | some args => [45, 45] :: args
    | none => []

/-- All settings of the items. -/
def allSettings (decls : List Decl) (items : List Item) : List (Nat × Setting) :=
  items.flatMap fun item => (item.settings decls).getD []

/-- Each option has the value of its last occurrence or its default, and the plain arguments are returned in order. -/
def Parses (decls : List Decl) (options : List CmdOption) (items : List Item) (behind : Option (List (List UInt8))) :
    Prop :=
  ∃ options', parse false false (allArgs items behind) options [] =
      .ok (options', items.flatMap Item.plains ++ behind.getD []) ∧ options'.length = options.length ∧
    ∀ k o o', options[k]? = some o → options'[k]? = some o' →
      Shows o o' (last k (allSettings decls items))

/-- The name behind two dashes goes up to a `=` that is not its first character, and `enable-` is left out. -/
def shown (s : List UInt8) : List UInt8 :=
  match s.tail.findIdx? (· == 61) with
  | some i => s.take (i + 1)
  | none => if (ascii "enable-").isPrefixOf s then s.drop 7 else s

/-- Names of one character are short names. -/
def lookup (decls : List Decl) : List UInt8 → Option Nat
  | [c] => shortIndex decls c
  | name => longIndex decls name

/-- The item is read as what it is. -/
def Item.Ok (decls : List Decl) : Item → Prop
  | valued name value => value ≠ [] ∧ 61 ∉ name.tail ∧ lookup decls name = longIndex decls name
  | flag name => lookup decls (shown name) = longIndex decls name
  | enable name => lookup decls (shown (ascii "enable-" ++ name)) = longIndex decls name
  | disable _ => False
  | truth name b => b = true ∧ lookup decls (shown (name ++ 61 :: ascii "true")) = longIndex decls name
  | shortValued c value => c ≠ 45 ∧ value ≠ [] ∧ value ≠ [45]
  | shortJoined c _ => c ≠ 45
  | flags c cs => c = 45 → cs ≠ [] ∧ (∀ c' ∈ cs, c' = 45) ∧ lookup decls cs = shortIndex decls 45
  | plain arg => arg ≠ []

instance (decls : List Decl) : DecidablePred (Item.Ok decls)
  | .valued _ _ | .shortValued _ _ => inferInstanceAs (Decidable (_ ∧ _ ∧ _))
  | .flag _ | .enable _ => inferInstanceAs (Decidable (_ = _))
  | .disable _ => inferInstanceAs (Decidable False)
  | .truth _ _ => inferInstanceAs (Decidable (_ ∧ _))
  | .shortJoined _ _ | .plain _ => inferInstanceAs (Decidable (_ ≠ _))
  | .flags _ _ => inferInstanceAs (Decidable (_ = _ → _ ∧ _ ∧ _))

/-- The positions in the arguments are `int`s. -/
def Item.Small (item : Item) : Prop := ∀ arg ∈ item.args, arg.length < 2 ^ 31

instance : DecidablePred Item.Small := fun item => inferInstanceAs (Decidable (∀ arg ∈ item.args, arg.length < 2 ^ 31))

section

variable {options : List CmdOption} {decls : List Decl} {name : List UInt8} {k : Nat} {d : Decl} {c : UInt8}

section

variable (hdecls : options.map CmdOption.toDecl = decls)

include hdecls

theorem findLongIndex_eq (name : List UInt8) : findLongIndex options name = longIndex decls name := by
  rw [← hdecls, longIndex, List.findIdx?_map]
  rfl

theorem findShortIndex_eq (c : UInt8) : findShortIndex options c = shortIndex decls c := by
  rw [← hdecls, shortIndex, List.findIdx?_map]
  rfl

omit hdecls in
theorem lookup_lt (h : lookup decls name = some k) : k < decls.length := by
  unfold lookup at h
  split at h
  · exact (List.findIdx?_eq_some_iff_getElem.mp h).1
  · exact (List.findIdx?_eq_some_iff_getElem.mp h).1

theorem findIndex_eq (name : List UInt8) : findIndex options name = lookup decls name :=
  match name with
  | [] => findLongIndex_eq hdecls []
  | [c] => findShortIndex_eq hdecls c
  | c :: c' :: s => findLongIndex_eq hdecls (c :: c' :: s)

theorem getOption_some (h : lookup decls name = some k) (throwException : Bool) :
    ∃ o, options[k]? = some o ∧ decls[k]? = some o.toDecl ∧
      getOption options name throwException = .ok (some (k, o)) := by
  have hk : k < options.length := by
    have hlt := lookup_lt h
    rwa [← hdecls, List.length_map] at hlt
  have ho : options[k]? = some options[k] := List.getElem?_eq_getElem hk
  refine ⟨options[k], ho, ?_, ?_⟩
  · rw [← hdecls, List.getElem?_map, ho]
    rfl
  · rw [getOption, findIndex_eq hdecls, h, Option.bind_some, ho]
    rfl

theorem getOption_none (h : lookup decls name = none) :
    getOption options name false = .ok none ∧
      getOption options name true = .error (.keyError (ascii "Option '" ++ name ++ ascii "' not found")) := by
  rw [getOption, getOption, findIndex_eq hdecls, h]
  exact ⟨rfl, rfl⟩

end

/-- Only the value is set. -/
theorem map_setString (options : List CmdOption) (k : Nat) (value : List UInt8) :
    (setString options k value).map CmdOption.toDecl = options.map CmdOption.toDecl := by
  refine List.ext_getElem? fun i => ?_
  rw [List.getElem?_map, List.getElem?_map, setString, List.getElem?_modify]
  cases options[i]? with
  | none => rfl
  | some o => by_cases hi : k = i <;> simp [hi]

variable {bool : Bool}

theorem ofType_some {index : Option Nat} (h : ofType decls bool index = some k) :
    index = some k ∧ ∃ d, decls[k]? = some d ∧ decide (d.type = .bool) = bool := by
  obtain ⟨hindex, htype⟩ := Option.filter_eq_some_iff.mp h
  obtain ⟨d, hd, heq⟩ := (Option.any_eq_true _ _).mp htype
  exact ⟨hindex, d, hd, of_decide_eq_true heq⟩

/-- A boolean is set to true. -/
theorem setOption_bool (hdecls : options.map CmdOption.toDecl = decls) {parseInfo : ParseInfo}
    (hname : parseInfo.name ≠ []) (h : lookup decls parseInfo.name = some k) (hd : decls[k]? = some d) (htype : d.type = .bool) (arg : List UInt8) :
    setOption false arg options parseInfo = .ok (setString options k (ascii "1")) := by
  obtain ⟨o, -, hdecl, hget⟩ := getOption_some hdecls h true
  obtain rfl := Option.some.inj (hd.symm.trans hdecl)
  rw [setOption, if_neg hname, Bool.not_false, hget]
  exact if_pos htype

theorem setOption_text (hdecls : options.map CmdOption.toDecl = decls) {parseInfo : ParseInfo}
    (hname : parseInfo.name ≠ []) (h : lookup decls parseInfo.name = some k) (hd : decls[k]? = some d) (htype : d.type ≠ .bool) (arg : List UInt8) :
    setOption false arg options parseInfo =
      if isTrue parseInfo.value then .ok (setString options k (parseInfo.value.getD []))
      else .error (.invalidArgumentError (ascii "Option " ++ arg ++ ascii " given without a value")) := by
  obtain ⟨o, -, hdecl, hget⟩ := getOption_some hdecls h true
  obtain rfl := Option.some.inj (hd.symm.trans hdecl)
  rw [setOption, if_neg hname, Bool.not_false, hget]
  dsimp only [bind, Except.bind]
  rw [if_neg htype]
  rfl

theorem setOption_none (hdecls : options.map CmdOption.toDecl = decls) {parseInfo : ParseInfo}
    (hname : parseInfo.name ≠ []) (h : lookup decls parseInfo.name = none) (arg : List UInt8) :
    ∃ failure, setOption false arg options parseInfo = .error failure := by
  refine ⟨.keyError (ascii "Option '" ++ parseInfo.name ++ ascii "' not found"), ?_⟩
  rw [setOption, if_neg hname, Bool.not_false, (getOption_none hdecls h).2]
  rfl

variable {args unparsed : List (List UInt8)} {s value arg : List UInt8} {sets : List (Nat × Setting)}
  {parseInfo : ParseInfo}

/-- A word with two dashes, up to what is behind them. -/
theorem longInfo_eq (s : List UInt8) :
    longInfo (45 :: 45 :: s) =
      match s.tail.findIdx? (· == 61) with
      | some i => ⟨s.take (i + 1), some (s.drop (i + 2)), true⟩
      | none =>
        if (ascii "enable-").isPrefixOf s then ⟨s.drop 7, some (ascii "b/1"), true⟩ else ⟨s, none, true⟩ := by
  have hfind : lfind (45 :: 45 :: s) 61 3 = (s.tail.findIdx? (· == 61)).map (3 + ·) := by
    rw [lfind, ← List.drop_one]
    rfl
  have henable : getSuffix (45 :: 45 :: s) (ascii "--enable-") =
      if (ascii "enable-").isPrefixOf s then some (s.drop 7) else none := rfl
  have hdisable : getSuffix (45 :: 45 :: s) (ascii "disable-") = none := rfl
  rw [longInfo, hfind, henable, hdisable]
  cases s.tail.findIdx? (· == 61) with
  | some i =>
    have htake : 3 + i - 2 = i + 1 := by omega
    have hdrop : 3 + i + 1 = i + 2 + 1 + 1 := by omega
    dsimp only [Option.map]
    rw [slice, htake, hdrop]
    rfl
  | none =>
    dsimp only [Option.map]
    by_cases hbefore : (ascii "enable-").isPrefixOf s
    · rw [if_pos hbefore, if_pos hbefore]
    · rw [if_neg hbefore, if_neg hbefore]
      rfl

theorem longInfo_name (s : List UInt8) : (longInfo (45 :: 45 :: s)).name = shown s := by
  rw [longInfo_eq, shown]
  split
  · rfl
  · split <;> rfl

theorem longInfo_nadv (s : List UInt8) : (longInfo (45 :: 45 :: s)).nadv = true := by
  rw [longInfo_eq]
  split
  · rfl
  · split <;> rfl

/-- The first `=` is the one behind the name. -/
theorem longInfo_valued (hname : name ≠ []) (h : 61 ∉ name.tail) (value : List UInt8) :
    longInfo (45 :: 45 :: (name ++ 61 :: value)) = ⟨name, some value, true⟩ := by
  obtain ⟨c, name, rfl⟩ := List.exists_cons_of_ne_nil hname
  rw [List.tail_cons] at h
  have hfind : (name ++ 61 :: value).findIdx? (· == 61) = some name.length := by
    have hnone : name.findIdx? (· == 61) = none :=
      List.findIdx?_eq_none_iff.mpr fun x hx => beq_eq_false_iff_ne.mpr fun heq => h (by rwa [heq] at hx)
    rw [List.findIdx?_append, hnone, List.findIdx?_cons]
    simp
  rw [longInfo_eq, List.cons_append, List.tail_cons, hfind]
  simp

/-- A word with two dashes sets one option, and it is not the last one of two words. -/
theorem parse_long (hs : s ≠ []) :
    parse false false ((45 :: 45 :: s) :: args) options unparsed =
      setOption false (45 :: 45 :: s) options (longInfo (45 :: 45 :: s)) >>= fun options =>
        if shown s = [] then parse false false args options (unparsed ++ [45 :: 45 :: s])
        else parse false false args options unparsed := by
  have hsep : (45 :: 45 :: s : List UInt8) ≠ [45, 45] := fun h => hs (List.cons.inj (List.cons.inj h).2).2
  have hinfos : getParseInfo options (45 :: 45 :: s) args.head? = .ok [longInfo (45 :: 45 :: s)] := by
    have hlen : (45 :: 45 :: s).length > 2 := by
      rw [List.length_cons, List.length_cons]
      exact Nat.lt_add_of_pos_left (List.length_pos_of_ne_nil hs)
    have hfirst : (45 :: 45 :: s)[0]? = some 45 := rfl
    rw [getParseInfo, if_neg (by omega), if_neg (List.cons_ne_nil _ _), if_pos hfirst, if_pos ⟨hlen, rfl⟩]
  rw [parse, if_neg hsep, if_neg Bool.false_ne_true, hinfos]
  dsimp only [bind, Except.bind, List.foldlM, List.getLast?_singleton]
  cases setOption false (45 :: 45 :: s) options (longInfo (45 :: 45 :: s)) with
  | error failure => rfl
  | ok options' =>
    dsimp only [pure, Except.pure]
    rw [longInfo_name, longInfo_nadv]
    by_cases hshown : shown s = []
    · rw [if_pos hshown, if_pos hshown]
    · rw [if_neg hshown, if_neg hshown, if_neg fun h => absurd h.2 (by decide)]

theorem parse_infos {parseValues : List ParseInfo} (hsep : arg ≠ [45, 45])
    (h : getParseInfo options arg args.head? = .ok parseValues) :
    parse false false (arg :: args) options unparsed =
      parseValues.foldlM (setOption false arg) options >>= fun options =>
        match parseValues.getLast? with
        | some parseInfo =>
          if parseInfo.name = [] then parse false false args options (unparsed ++ [arg])
          else if isTrue parseInfo.value ∧ !parseInfo.nadv then parse false false args.tail options unparsed
          else parse false false args options unparsed
        | none => parse false false args options (unparsed ++ [arg]) := by
  rw [parse, if_neg hsep, if_neg Bool.false_ne_true, h]
  rfl

variable {options' : List CmdOption} {item : Item} {x : Setting}

/-- The last result tells whether the next word is the value. -/
theorem parse_last {before : List ParseInfo} (hsep : arg ≠ [45, 45])
    (h : getParseInfo options arg args.head? = .ok (before ++ [parseInfo]))
    (hset : (before ++ [parseInfo]).foldlM (setOption false arg) options = .ok options') (hname : parseInfo.name ≠ []) :
    parse false false (arg :: args) options unparsed =
      parse false false (if isTrue parseInfo.value ∧ !parseInfo.nadv then args.tail else args) options' unparsed := by
  rw [parse_infos hsep h, hset, List.getLast?_concat]
  dsimp only [bind, Except.bind]
  rw [if_neg hname]
  split <;> rfl

/-- A word with one dash. -/
theorem getParseInfo_short (hc : c ≠ 45) (cs : List UInt8) (next : Option (List UInt8)) :
    getParseInfo options (45 :: c :: cs) next = shortLoop options next [] (c :: cs) := by
  have hlen : (45 :: c :: cs).length ≠ 1 := by
    rw [List.length_cons, List.length_cons]
    omega
  have hfirst : (45 :: c :: cs)[0]? = some 45 := rfl
  have hsecond : ¬((45 :: c :: cs).length > 2 ∧ (45 :: c :: cs)[1]? = some 45) := fun h => hc (Option.some.inj h.2)
  rw [getParseInfo, if_neg hlen, if_neg (List.cons_ne_nil _ _), if_pos hfirst, if_neg hsecond]
  rfl

theorem short_ne_sep (hc : c ≠ 45) (cs : List UInt8) : (45 :: c :: cs) ≠ [45, 45] := fun h =>
  hc (List.cons.inj (List.cons.inj h).2).1

/-- An option that takes the rest of the word. -/
theorem shortLoop_joined (hdecls : options.map CmdOption.toDecl = decls) (h : shortIndex decls c = some k)
    (hd : decls[k]? = some d) (htype : d.type ≠ .bool) (hvalue : value ≠ []) (next : Option (List UInt8)) :
    shortLoop options next [] (c :: value) = .ok [⟨[c], some value, true⟩] := by
  obtain ⟨o, -, hdecl, hget⟩ := getOption_some hdecls (show lookup decls [c] = some k from h) false
  obtain rfl := Option.some.inj (hd.symm.trans hdecl)
  rw [shortLoop, hget]
  exact if_pos ⟨htype, hvalue⟩

/-- An option that takes the next word. -/
theorem shortLoop_valued (hdecls : options.map CmdOption.toDecl = decls) (h : shortIndex decls c = some k)
    (hd : decls[k]? = some d) (htype : d.type ≠ .bool) (next : Option (List UInt8)) :
    shortLoop options next [] [c] = .ok [⟨[c], nextValue next, false⟩] := by
  obtain ⟨o, -, hdecl, hget⟩ := getOption_some hdecls (show lookup decls [c] = some k from h) false
  obtain rfl := Option.some.inj (hd.symm.trans hdecl)
  rw [shortLoop, hget]
  dsimp only [bind, Except.bind]
  rw [if_neg (fun h => h.2 rfl), shortLoop, decide_eq_false htype]
  rfl

/-- Booleans only, of which each has a result of its own. -/
theorem shortLoop_flags (hdecls : options.map CmdOption.toDecl = decls) (next : Option (List UInt8)) (cs : List UInt8)
    (h : ∀ c ∈ cs, ∃ k d, shortIndex decls c = some k ∧ decls[k]? = some d ∧ d.type = .bool)
    (parseInfo : List ParseInfo) :
    shortLoop options next parseInfo cs = .ok (parseInfo ++ cs.map fun c => ⟨[c], nextValue next, true⟩) := by
  induction cs generalizing parseInfo with
  | nil => rw [shortLoop, List.map_nil, List.append_nil]
  | cons c cs ih =>
    obtain ⟨k, d, hindex, hd, htype⟩ := h c List.mem_cons_self
    obtain ⟨o, -, hdecl, hget⟩ := getOption_some hdecls (show lookup decls [c] = some k from hindex) false
    obtain rfl := Option.some.inj (hd.symm.trans hdecl)
    rw [shortLoop, hget]
    dsimp only [bind, Except.bind]
    rw [if_neg (fun h => h.1 htype), ih fun c' hc' => h c' (List.mem_cons_of_mem c hc'), decide_eq_true htype,
      List.append_assoc]
    rfl

def Setting.written : Setting → List UInt8
  | .text value => value
  | .truth _ => ascii "1"

/-- The options are set one after the other. -/
def assign (options : List CmdOption) (sets : List (Nat × Setting)) : List CmdOption :=
  sets.foldl (fun options s => setString options s.1 s.2.written) options

theorem map_assign (options : List CmdOption) (sets : List (Nat × Setting)) :
    (assign options sets).map CmdOption.toDecl = options.map CmdOption.toDecl := by
  induction sets generalizing options with
  | nil => rfl
  | cons s sets ih => exact (ih _).trans (map_setString _ _ _)

theorem assign_append (options : List CmdOption) (sets sets' : List (Nat × Setting)) :
    assign options (sets ++ sets') = assign (assign options sets) sets' := List.foldl_append

/-- The settings of a group of booleans. -/
theorem flags_settings {cs : List UInt8}
    (h : (cs.mapM fun c => (ofType decls true (shortIndex decls c)).map fun k => (k, Setting.truth true)) = some sets) :
    (∀ c ∈ cs, ∃ k d, shortIndex decls c = some k ∧ decls[k]? = some d ∧ d.type = .bool) ∧
      List.Forall₂ (fun c s => shortIndex decls c = some s.1 ∧ s.2 = .truth true) cs sets := by
  induction cs generalizing sets with
  | nil =>
    cases h
    exact ⟨fun c hc => absurd hc List.not_mem_nil, .nil⟩
  | cons c cs ih =>
    rw [List.mapM_cons] at h
    obtain ⟨s, hs, h⟩ := Option.bind_eq_some_iff.mp h
    obtain ⟨sets', hsets, h⟩ := Option.bind_eq_some_iff.mp h
    obtain ⟨k, hk, rfl⟩ := Option.map_eq_some_iff.mp hs
    cases h
    obtain ⟨hindex, d, hd, htype⟩ := ofType_some hk
    obtain ⟨hall, hboth⟩ := ih hsets
    refine ⟨fun c' hc' => ?_, .cons ⟨hindex, rfl⟩ hboth⟩
    rcases List.mem_cons.mp hc' with rfl | hc'
    · exact ⟨k, d, hindex, hd, of_decide_eq_true htype⟩
    · exact hall c' hc'

/-- Each setting of a group is that of one of its characters. -/
theorem setting_of_flag {cs : List UInt8}
    (hsets : List.Forall₂ (fun c s => shortIndex decls c = some s.1 ∧ s.2 = .truth true) cs sets) :
    ∀ x ∈ sets, ∃ c ∈ cs, shortIndex decls c = some x.1 ∧ x.2 = .truth true := by
  induction hsets with
  | nil => exact fun x hx => absurd hx List.not_mem_nil
  | @cons c s cs sets hs hsets ih =>
    intro x hx
    rcases List.mem_cons.mp hx with rfl | hx
    · exact ⟨c, List.mem_cons_self, hs⟩
    · obtain ⟨c', hc', h⟩ := ih x hx
      exact ⟨c', List.mem_cons_of_mem c hc', h⟩

theorem foldlM_flags (hdecls : options.map CmdOption.toDecl = decls) {cs : List UInt8} {next : Option (List UInt8)}
    (hall : ∀ c ∈ cs, ∃ k d, shortIndex decls c = some k ∧ decls[k]? = some d ∧ d.type = .bool)
    (hsets : List.Forall₂ (fun c s => shortIndex decls c = some s.1 ∧ s.2 = .truth true) cs sets) :
    (cs.map fun c => (⟨[c], nextValue next, true⟩ : ParseInfo)).foldlM (setOption false arg) options =
      .ok (assign options sets) := by
  induction hsets generalizing options with
  | nil => rfl
  | @cons c s cs sets hs hsets ih =>
    obtain ⟨k, d, hindex, hd, htype⟩ := hall c List.mem_cons_self
    obtain rfl := Option.some.inj (hindex.symm.trans hs.1)
    rw [List.map_cons, List.foldlM_cons, @setOption_bool _ _ _ _ hdecls ⟨[c], nextValue next, true⟩
      (List.cons_ne_nil _ _) hindex hd htype]
    have hnext := @ih (setString options s.1 (ascii "1")) ((map_setString _ _ _).trans hdecls)
      fun c' hc' => hall c' (List.mem_cons_of_mem c hc')
    rw [assign, List.foldl_cons, hs.2]
    exact hnext

/-- A long option for a boolean sets it to true, whatever is behind it. -/
theorem parse_long_bool (hdecls : options.map CmdOption.toDecl = decls) (hs : s ≠ []) (hshown : shown s ≠ [])
    (h : lookup decls (shown s) = some k) (hd : decls[k]? = some d) (htype : d.type = .bool) :
    parse false false ((45 :: 45 :: s) :: args) options unparsed =
      parse false false args (setString options k (ascii "1")) unparsed := by
  rw [parse_long hs, setOption_bool hdecls (by rwa [longInfo_name]) (by rwa [longInfo_name]) hd htype]
  exact if_neg hshown

theorem long_of_longIndex (h : longIndex decls name = some k) : (decls[k]?.map Decl.long) = some name := by
  obtain ⟨hk, hlong, -⟩ := List.findIdx?_eq_some_iff_getElem.mp h
  rw [List.getElem?_eq_getElem hk]
  exact congrArg some (of_decide_eq_true hlong).symm

/-- What is looked up like a name is not empty. -/
theorem ne_nil_of_lookup (hname : name ≠ []) (h : lookup decls s = longIndex decls name)
    (hindex : longIndex decls name = some k) : s ≠ [] := by
  rintro rfl
  have hnil : longIndex decls [] = some k := h.trans hindex
  exact hname (Option.some.inj ((long_of_longIndex hindex).symm.trans (long_of_longIndex hnil)))

/-- A long form sets one option. -/
theorem long_settings
    (h : (if name = [] then none else (ofType decls bool (longIndex decls name)).map fun k => [(k, x)]) = some sets) :
    name ≠ [] ∧ ∃ k d, longIndex decls name = some k ∧ decls[k]? = some d ∧ decide (d.type = .bool) = bool ∧
      sets = [(k, x)] := by
  by_cases hname : name = []
  · rw [if_pos hname] at h
    cases h
  · rw [if_neg hname] at h
    obtain ⟨k, hk, rfl⟩ := Option.map_eq_some_iff.mp h
    obtain ⟨hindex, d, hd, htype⟩ := ofType_some hk
    exact ⟨hname, k, d, hindex, hd, htype, rfl⟩

theorem short_settings (h : (ofType decls bool (shortIndex decls c)).map (fun k => [(k, x)]) = some sets) :
    ∃ k d, shortIndex decls c = some k ∧ decls[k]? = some d ∧ decide (d.type = .bool) = bool ∧ sets = [(k, x)] := by
  obtain ⟨k, hk, rfl⟩ := Option.map_eq_some_iff.mp h
  obtain ⟨hindex, d, hd, htype⟩ := ofType_some hk
  exact ⟨k, d, hindex, hd, htype, rfl⟩

/-- A long form for a boolean, if it is read as the name. -/
theorem step_long_bool (hdecls : options.map CmdOption.toDecl = decls) (hs : s ≠ [])
    (hsets : (if name = [] then none
      else (ofType decls true (longIndex decls name)).map fun k => [(k, Setting.truth true)]) = some sets) (hok : lookup decls (shown s) = longIndex decls name) :
    parse false false ((45 :: 45 :: s) :: args) options unparsed =
      parse false false args (assign options sets) (unparsed ++ []) := by
  obtain ⟨hname, k, d, hindex, hd, htype, rfl⟩ := long_settings hsets
  rw [parse_long_bool hdecls hs (ne_nil_of_lookup hname hok hindex) (hok.trans hindex) hd (of_decide_eq_true htype),
    List.append_nil]
  rfl

/-- Dashes are read as they are. -/
theorem shown_dashes {cs : List UInt8} (hne : cs ≠ []) (h : ∀ c ∈ cs, c = 45) : shown cs = cs := by
  obtain ⟨c, cs, rfl⟩ := List.exists_cons_of_ne_nil hne
  obtain rfl := h c List.mem_cons_self
  have hnone : cs.findIdx? (· == 61) = none := List.findIdx?_eq_none_iff.mpr fun x hx => by
    rw [h x (List.mem_cons_of_mem _ hx)]
    rfl
  rw [shown, List.tail_cons, hnone]
  rfl

/-- Several settings of one boolean are one. -/
theorem assign_same (hne : sets ≠ []) (h : ∀ x ∈ sets, x = (k, Setting.truth true)) :
    assign options sets = setString options k (ascii "1") := by
  obtain ⟨x, sets, rfl⟩ := List.exists_cons_of_ne_nil hne
  obtain rfl := h x List.mem_cons_self
  have hagain : setString (setString options k (ascii "1")) k (ascii "1") = setString options k (ascii "1") := by
    rw [setString, setString, List.modify_modify_eq]
    rfl
  have hrest : ∀ x ∈ sets, x = (k, Setting.truth true) := fun x hx => h x (List.mem_cons_of_mem _ hx)
  rw [assign, List.foldl_cons]
  clear hne h
  induction sets with
  | nil => rfl
  | cons x sets ih =>
    obtain rfl := hrest x List.mem_cons_self
    rw [List.foldl_cons]
    refine Eq.trans (congrArg (List.foldl _ · sets) hagain) (ih fun x hx => hrest x (List.mem_cons_of_mem _ hx))

theorem step_of_ok (hdecls : options.map CmdOption.toDecl = decls) (hsets : item.settings decls = some sets)
    (hok : item.Ok decls) :
    parse false false (item.args ++ args) options unparsed =
      parse false false args (assign options sets) (unparsed ++ item.plains) := by
  cases item with
  | valued name value =>
    obtain ⟨hvalue, heq, hlookup⟩ := hok
    obtain ⟨hname, k, d, hindex, hd, htype, rfl⟩ := long_settings hsets
    have hinfo := longInfo_valued hname heq value
    have hshown : shown (name ++ 61 :: value) = name := by rw [← longInfo_name, hinfo]
    have hset := @setOption_text _ _ _ _ hdecls ⟨name, some value, true⟩ hname (hlookup.trans hindex) hd
      (of_decide_eq_false htype) (45 :: 45 :: (name ++ 61 :: value))
    rw [if_pos (show isTrue (some value) from hvalue)] at hset
    rw [Item.args, List.singleton_append, parse_long (List.append_ne_nil_of_left_ne_nil hname _), hinfo, hset, hshown]
    refine (if_neg hname).trans ?_
    exact congrArg (parse false false args _) (List.append_nil unparsed).symm
  | flag name =>
    obtain ⟨hname, -⟩ := long_settings hsets
    exact step_long_bool hdecls hname hsets hok
  | enable name =>
    exact step_long_bool hdecls (List.append_ne_nil_of_left_ne_nil (by decide) _) hsets hok
  | disable name => exact absurd hok id
  | truth name b =>
    obtain ⟨rfl, hok⟩ := hok
    obtain ⟨hname, -⟩ := long_settings hsets
    exact step_long_bool hdecls (List.append_ne_nil_of_left_ne_nil hname _) hsets hok
  | shortValued c value =>
    obtain ⟨hc, hvalue, hdash⟩ := hok
    obtain ⟨k, d, hindex, hd, htype, rfl⟩ := short_settings hsets
    have hnext : nextValue (some value) = some value := if_pos hdash
    have hset := @setOption_text _ _ _ _ hdecls ⟨[c], some value, false⟩ (List.cons_ne_nil _ _) hindex hd
      (of_decide_eq_false htype) [45, c]
    rw [if_pos (show isTrue (some value) from hvalue)] at hset
    have hinfos : getParseInfo options [45, c] (value :: args).head? = .ok [⟨[c], some value, false⟩] := by
      rw [getParseInfo_short hc, shortLoop_valued hdecls hindex hd (of_decide_eq_false htype), List.head?_cons, hnext]
    have hlast := @parse_last _ _ unparsed _ _ _ [] (short_ne_sep hc []) hinfos
      (by rw [List.nil_append, List.foldlM_cons, hset]; rfl) (List.cons_ne_nil _ _)
    rw [Item.args, List.cons_append, List.singleton_append, hlast, if_pos ⟨hvalue, rfl⟩]
    exact congrArg (parse false false args _) (List.append_nil unparsed).symm
  | shortJoined c value =>
    have hvalue : value ≠ [] := fun hnil => by
      rw [Item.settings, if_pos hnil] at hsets
      cases hsets
    rw [Item.settings, if_neg hvalue] at hsets
    obtain ⟨k, d, hindex, hd, htype, rfl⟩ := short_settings hsets
    have hset := @setOption_text _ _ _ _ hdecls ⟨[c], some value, true⟩ (List.cons_ne_nil _ _) hindex hd
      (of_decide_eq_false htype) (45 :: c :: value)
    rw [if_pos (show isTrue (some value) from hvalue)] at hset
    have hinfos : getParseInfo options (45 :: c :: value) args.head? = .ok [⟨[c], some value, true⟩] := by
      rw [getParseInfo_short hok, shortLoop_joined hdecls hindex hd (of_decide_eq_false htype) hvalue]
    have hlast := @parse_last _ _ unparsed _ _ _ [] (short_ne_sep hok value) hinfos
      (by rw [List.nil_append, List.foldlM_cons, hset]; rfl) (List.cons_ne_nil _ _)
    rw [Item.args, List.singleton_append, hlast, if_neg fun h => Bool.false_ne_true h.2]
    exact congrArg (parse false false args _) (List.append_nil unparsed).symm
  | flags c cs =>
    obtain ⟨hall, hboth⟩ := flags_settings hsets
    rw [Item.args, List.singleton_append]
    refine Eq.trans ?_ (congrArg (parse false false args _) (List.append_nil unparsed).symm)
    by_cases hc : c = 45
    · obtain ⟨hne, hdashes, hlookup⟩ := hok hc
      subst hc
      obtain ⟨k, d, hindex, hd, htype⟩ := hall 45 List.mem_cons_self
      have hshown := shown_dashes hne hdashes
      have hsets : ∀ x ∈ sets, x = (k, Setting.truth true) := by
        intro x hx
        obtain ⟨c, hc, hindex', htruth⟩ := setting_of_flag hboth x hx
        have hc45 : c = 45 := (List.mem_cons.mp hc).elim id (hdashes c)
        rw [hc45, hindex] at hindex'
        exact Prod.ext (Option.some.inj hindex').symm htruth
      have hnonempty : sets ≠ [] := by
        rintro rfl
        cases hboth
      rw [parse_long_bool hdecls hne (by rwa [hshown]) (by rw [hshown, hlookup, hindex]) hd htype,
        assign_same hnonempty hsets]
    · have hinfos : getParseInfo options (45 :: c :: cs) args.head? =
          .ok ((c :: cs).map fun c => ⟨[c], nextValue args.head?, true⟩) := by
        rw [getParseInfo_short hc, shortLoop_flags hdecls _ _ hall, List.nil_append]
      have hfold := @foldlM_flags _ _ (45 :: c :: cs) _ hdecls _ args.head? hall hboth
      obtain ⟨before, last, hlast⟩ : ∃ before last, c :: cs = before ++ [last] :=
        ⟨_, _, (List.dropLast_append_getLast (List.cons_ne_nil c cs)).symm⟩
      have hmap : (c :: cs).map (fun c => (⟨[c], nextValue args.head?, true⟩ : ParseInfo)) =
          before.map (fun c => ⟨[c], nextValue args.head?, true⟩) ++ [⟨[last], nextValue args.head?, true⟩] := by
        rw [hlast, List.map_append, List.map_singleton]
      rw [hmap] at hinfos hfold
      rw [parse_last (short_ne_sep hc cs) hinfos hfold (List.cons_ne_nil _ _), if_neg fun h => Bool.false_ne_true h.2]
  | plain arg =>
    by_cases hdash : arg.head? = some 45 ∧ arg ≠ [45]
    · rw [Item.settings, if_pos hdash] at hsets
      cases hsets
    rw [Item.settings, if_neg hdash] at hsets
    cases hsets
    have hinfos : getParseInfo options arg args.head? = .ok [] := by
      rw [getParseInfo]
      by_cases hlen : arg.length = 1
      · exact if_pos hlen
      · have hfirst : arg[0]? ≠ some 45 := fun h => hdash ⟨by rwa [List.head?_eq_getElem?], fun heq => hlen (heq ▸ rfl)⟩
        rw [if_neg hlen, if_neg hok, if_neg hfirst]
    have hsep : arg ≠ [45, 45] := fun h => hdash (by
      rw [h]
      decide)
    rw [Item.args, List.singleton_append, parse_infos hsep hinfos]
    rfl

variable {items : List Item} {b : Bool} {setting : Setting}

/-- Item by item, the options are set and the plain arguments are left over. -/
theorem run_of_ok (hdecls : options.map CmdOption.toDecl = decls) (hitems : ∀ item ∈ items, item.settings decls ≠ none)
    (hok : ∀ item ∈ items, item.Ok decls) :
    parse false false (items.flatMap Item.args ++ args) options unparsed =
      parse false false args (assign options (allSettings decls items)) (unparsed ++ items.flatMap Item.plains) := by
  induction items generalizing options unparsed with
  | nil =>
    rw [List.flatMap_nil, List.flatMap_nil, List.append_nil]
    rfl
  | cons item items ih =>
    obtain ⟨sets, hsets⟩ := Option.ne_none_iff_exists'.mp (hitems item List.mem_cons_self)
    have hrest := @ih _ (unparsed ++ item.plains)
      ((map_assign options sets).trans hdecls) (fun item' h => hitems item' (List.mem_cons_of_mem item h))
      fun item' h => hok item' (List.mem_cons_of_mem item h)
    have hall : allSettings decls (item :: items) = sets ++ allSettings decls items := by
      rw [allSettings, List.flatMap_cons, hsets]
      rfl
    rw [List.flatMap_cons, List.append_assoc, step_of_ok hdecls hsets (hok item List.mem_cons_self), hrest, hall,
      assign_append, List.flatMap_cons, List.append_assoc]

/-- What is behind a `--` is left over, but for another one. -/
theorem parse_skipping (args : List (List UInt8)) (options : List CmdOption) (unparsed : List (List UInt8)) :
    parse false true args options unparsed = .ok (options, unparsed ++ args.filter (· ≠ [45, 45])) := by
  induction args generalizing unparsed with
  | nil => rw [parse, List.filter_nil, List.append_nil]
  | cons arg args ih =>
    rw [parse]
    by_cases hsep : arg = [45, 45]
    · rw [if_pos hsep, ih, List.filter_cons_of_neg (by rw [hsep]; decide)]
    · rw [if_neg hsep, if_pos rfl, ih, List.filter_cons_of_pos (by simpa using hsep), List.append_assoc]
      rfl

theorem last_append (k : Nat) (sets : List (Nat × Setting)) (x : Nat × Setting) :
    last k (sets ++ [x]) = if x.1 = k then some x.2 else last k sets := by
  rw [last, List.reverse_append, List.reverse_singleton, List.singleton_append, List.find?_cons]
  by_cases hk : x.1 = k
  · rw [decide_eq_true hk, if_pos hk]
    rfl
  · rw [decide_eq_false hk, if_neg hk, last]

/-- The last setting of an option is its value. -/
theorem getElem?_assign {o : CmdOption} (ho : options[k]? = some o) (sets : List (Nat × Setting)) :
    (assign options sets)[k]? = some (match last k sets with
      | some x => { o with value := x.written }
      | none => o) := by
  induction sets using List.reverseRecOn with
  | nil => exact ho
  | append_singleton sets x ih =>
    rw [assign_append, last_append]
    change (setString (assign options sets) x.1 x.2.written)[k]? = _
    rw [setString, List.getElem?_modify, ih]
    by_cases hk : x.1 = k
    · simp only [hk, if_true, Option.map_eq_map, Option.map_some]
      split <;> rfl
    · simp only [hk, if_false, Option.map_eq_map, Option.map_some]

theorem last_mem (h : last k sets = some x) : (k, x) ∈ sets := by
  obtain ⟨y, hfind, rfl⟩ := Option.map_eq_some_iff.mp h
  have hp := List.find?_some hfind
  have hk : y.1 = k := of_decide_eq_true hp
  rw [← hk]
  exact List.mem_reverse.mp (List.mem_of_find?_eq_some hfind)

/-- No item that is read as what it is sets a boolean to false. -/
theorem truth_of_ok (hsets : item.settings decls = some sets) (hok : item.Ok decls)
    (h : (k, Setting.truth b) ∈ sets) : b = true := by
  cases item with
  | valued name value =>
    obtain ⟨-, k, d, -, -, -, rfl⟩ := long_settings hsets
    cases List.mem_singleton.mp h
  | flag name | enable name =>
    obtain ⟨-, k, d, -, -, -, rfl⟩ := long_settings hsets
    cases List.mem_singleton.mp h
    rfl
  | disable name => exact absurd hok id
  | truth name b' =>
    obtain ⟨-, k, d, -, -, -, rfl⟩ := long_settings hsets
    cases List.mem_singleton.mp h
    exact hok.1
  | shortValued c value =>
    obtain ⟨k, d, -, -, -, rfl⟩ := short_settings hsets
    cases List.mem_singleton.mp h
  | shortJoined c value =>
    rw [Item.settings] at hsets
    split at hsets
    · cases hsets
    · obtain ⟨k, d, -, -, -, rfl⟩ := short_settings hsets
      cases List.mem_singleton.mp h
  | flags c cs =>
    obtain ⟨c', -, -, htruth⟩ := setting_of_flag (flags_settings hsets).2 _ h
    cases htruth
    rfl
  | plain arg =>
    rw [Item.settings] at hsets
    split at hsets
    · cases hsets
    · cases hsets
      cases h

theorem parses_of_ok (hdecls : options.map CmdOption.toDecl = decls) {behind : Option (List (List UInt8))}
    (hitems : ∀ item ∈ items, item.settings decls ≠ none) (hok : ∀ item ∈ items, item.Ok decls)
    (hbehind : ∀ args ∈ behind, [45, 45] ∉ args) : Parses decls options items behind := by
  refine ⟨assign options (allSettings decls items), ?_, ?_, ?_⟩
  · unfold allArgs
    rw [run_of_ok hdecls hitems hok, List.nil_append]
    cases behind with
    | none =>
      rw [parse, Option.getD_none, List.append_nil]
    | some args =>
      have hkept : args.filter (fun arg => decide (arg ≠ [45, 45])) = args := by
        refine List.filter_eq_self.mpr fun arg harg => decide_eq_true fun heq => hbehind args rfl ?_
        rwa [heq] at harg
      rw [parse, if_pos rfl, parse_skipping, hkept]
      rfl
  · have hlen := congrArg List.length (map_assign options (allSettings decls items))
    rwa [List.length_map, List.length_map] at hlen
  · intro k o o' ho ho'
    rw [getElem?_assign ho] at ho'
    obtain rfl := Option.some.inj ho'
    cases hlast : last k (allSettings decls items) with
    | none => rfl
    | some x =>
      cases x with
      | text value => rfl
      | truth b =>
        obtain ⟨item, hitem, hmem⟩ := List.mem_flatMap.mp (last_mem hlast)
        obtain ⟨sets, hsets⟩ := Option.ne_none_iff_exists'.mp (hitems item hitem)
        rw [hsets] at hmem
        obtain rfl := truth_of_ok hsets (hok item hitem) hmem
        exact ⟨rfl, rfl⟩

/-- All options with one default. -/
def defaults (decls : List Decl) (value : List UInt8) : List CmdOption := decls.map fun d => ⟨d, value⟩

theorem map_defaults (decls : List Decl) (value : List UInt8) :
    (defaults decls value).map CmdOption.toDecl = decls := by
  rw [defaults, List.map_map]
  exact List.map_id decls

theorem getElem?_setString_defaults (hd : decls[k]? = some d) (x : List UInt8) (k' : Nat) (value : List UInt8) :
    (setString (defaults decls x) k' value)[k]? = some ⟨d, if k' = k then value else x⟩ := by
  rw [setString, List.getElem?_modify, defaults, List.getElem?_map, hd]
  by_cases hk : k' = k <;> simp [hk]

/-- The item alone is read whatever the defaults are. -/
def Reads (decls : List Decl) (item : Item) : Prop :=
  ∀ options : List CmdOption, options.map CmdOption.toDecl = decls → Parses decls options [item] none

theorem Reads.result (hread : Reads decls item) (hsets : item.settings decls = some sets) (value : List UInt8) :
    ∃ options', parse false false item.args (defaults decls value) [] = .ok (options', item.plains) ∧
      ∀ k d x, decls[k]? = some d → last k sets = some x →
        ∃ o', options'[k]? = some o' ∧ Shows ⟨d, value⟩ o' (some x) := by
  obtain ⟨options', hparse, hlen, hshows⟩ := hread _ (map_defaults decls value)
  refine ⟨options', ?_, fun k d x hd hlast => ?_⟩
  · simpa [allArgs] using hparse
  · have ho : (defaults decls value)[k]? = some ⟨d, value⟩ := by
      rw [defaults, List.getElem?_map, hd]
      rfl
    have hk : k < options'.length := by
      rw [hlen]
      exact (List.getElem?_eq_some_iff.mp ho).1
    have ho' : options'[k]? = some options'[k] := List.getElem?_eq_getElem hk
    have hshow := hshows k _ _ ho ho'
    rw [allSettings, List.flatMap_singleton, hsets, Option.getD_some, hlast] at hshow
    exact ⟨_, ho', hshow⟩

theorem last_singleton (k : Nat) (x : Setting) : last k [(k, x)] = some x := by
  rw [last, List.reverse_singleton, List.find?_singleton]
  simp

/-- What a word with two dashes has set when it is read. -/
theorem long_result (hdecls : options.map CmdOption.toDecl = decls) (hs : s ≠ [])
    (h : parse false false [45 :: 45 :: s] options [] = .ok (options', [])) :
    ∃ k d, lookup decls (shown s) = some k ∧ decls[k]? = some d ∧
      (d.type = .bool ∧ options' = setString options k (ascii "1") ∨
        d.type ≠ .bool ∧ isTrue (longInfo (45 :: 45 :: s)).value ∧
          options' = setString options k ((longInfo (45 :: 45 :: s)).value.getD [])) := by
  rw [parse_long hs] at h
  obtain ⟨options'', hset, h⟩ := Loops.bind_ok h
  have hshown : shown s ≠ [] := by
    intro hnil
    rw [if_pos hnil, parse] at h
    cases h
  rw [if_neg hshown, parse] at h
  cases h
  have hname : (longInfo (45 :: 45 :: s)).name ≠ [] := by rwa [longInfo_name]
  cases hlookup : lookup decls (shown s) with
  | none =>
    obtain ⟨failure, hfail⟩ := setOption_none hdecls hname (by rwa [longInfo_name]) (45 :: 45 :: s)
    rw [hfail] at hset
    cases hset
  | some k =>
    obtain ⟨o, -, hd, -⟩ := getOption_some hdecls hlookup true
    refine ⟨k, o.toDecl, rfl, hd, ?_⟩
    by_cases htype : o.type = .bool
    · rw [setOption_bool hdecls hname (by rwa [longInfo_name]) hd htype] at hset
      exact .inl ⟨htype, (Except.ok.inj hset).symm⟩
    · rw [setOption_text hdecls hname (by rwa [longInfo_name]) hd htype] at hset
      split at hset
      · exact .inr ⟨htype, ‹_›, (Except.ok.inj hset).symm⟩
      · cases hset

/-- A long form that is read sets the option it is for. -/
theorem lookup_of_shows {x : List UInt8} (hs : s ≠ [])
    (hparse : parse false false [45 :: 45 :: s] (defaults decls x) [] = .ok (options', [])) (hd : decls[k]? = some d)
    (hshows : ∃ o', options'[k]? = some o' ∧ Shows ⟨d, x⟩ o' (some setting)) (hnot : ¬Shows ⟨d, x⟩ ⟨d, x⟩ (some setting)) :
    lookup decls (shown s) = some k ∧
      (d.type = .bool ∧ Shows ⟨d, x⟩ ⟨d, ascii "1"⟩ (some setting) ∨
        d.type ≠ .bool ∧ isTrue (longInfo (45 :: 45 :: s)).value ∧
          Shows ⟨d, x⟩ ⟨d, (longInfo (45 :: 45 :: s)).value.getD []⟩ (some setting)) := by
  obtain ⟨k', d', hlookup, hd', hset⟩ := long_result (map_defaults decls x) hs hparse
  obtain ⟨o', ho', hshow⟩ := hshows
  have hk : k' = k := by
    by_contra hk
    have hsame : o' = ⟨d, x⟩ := by
      rcases hset with ⟨-, rfl⟩ | ⟨-, -, rfl⟩ <;>
        rw [getElem?_setString_defaults hd, if_neg hk] at ho' <;> exact (Option.some.inj ho').symm
    exact hnot (by rwa [hsame] at hshow)
  subst hk
  obtain rfl := Option.some.inj (hd.symm.trans hd')
  refine ⟨hlookup, ?_⟩
  rcases hset with ⟨htype, rfl⟩ | ⟨htype, htrue, rfl⟩
  · rw [getElem?_setString_defaults hd, if_pos rfl] at ho'
    obtain rfl := Option.some.inj ho'
    exact .inl ⟨htype, hshow⟩
  · rw [getElem?_setString_defaults hd, if_pos rfl] at ho'
    obtain rfl := Option.some.inj ho'
    exact .inr ⟨htype, htrue, hshow⟩

theorem opposite_default : ∀ b : Bool, stringAsBool (if b then ascii "0" else ascii "1") ≠ b := by
  decide

/-- A boolean is only ever set to true. -/
theorem lookup_of_truth (hs : s ≠ []) (hd : decls[k]? = some d) (htype : d.type = .bool)
    (h : ∀ x, ∃ options', parse false false [45 :: 45 :: s] (defaults decls x) [] = .ok (options', []) ∧
      ∃ o', options'[k]? = some o' ∧ Shows ⟨d, x⟩ o' (some (.truth b))) :
    b = true ∧ lookup decls (shown s) = some k := by
  obtain ⟨options', hparse, hshows⟩ := h (if b then ascii "0" else ascii "1")
  have hnot : ¬Shows ⟨d, if b then ascii "0" else ascii "1"⟩ ⟨d, if b then ascii "0" else ascii "1"⟩
      (some (.truth b)) := fun h => opposite_default b h.2
  obtain ⟨hlookup, ⟨-, -, htrue⟩ | ⟨hother, -⟩⟩ := lookup_of_shows hs hparse hd hshows hnot
  · exact ⟨htrue.symm, hlookup⟩
  · exact absurd htype hother

/-- A text is never the default that is the text and one byte more. -/
theorem not_shows_longer (d : Decl) (value : List UInt8) :
    ¬Shows ⟨d, value ++ [0]⟩ ⟨d, value ++ [0]⟩ (some (.text value)) := by
  intro h
  have hvalue : value ++ [0] = value := congrArg CmdOption.value h
  exact absurd (congrArg List.length hvalue) (by simp)

/-- The value begins at the first `=`, so that there is none in the name. -/
theorem not_mem_of_value (hname : name ≠ []) (h : (longInfo (45 :: 45 :: (name ++ 61 :: value))).value.getD [] = value) :
    61 ∉ name.tail := by
  obtain ⟨c, name, rfl⟩ := List.exists_cons_of_ne_nil hname
  rw [List.tail_cons]
  intro hmem
  obtain ⟨i, hi⟩ : ∃ i, name.findIdx? (· == 61) = some i :=
    Option.ne_none_iff_exists'.mp fun hnone => absurd (List.findIdx?_eq_none_iff.mp hnone 61 hmem) (by decide)
  have hlt : i < name.length := (List.findIdx?_eq_some_iff_getElem.mp hi).1
  have hfind : (name ++ 61 :: value).findIdx? (· == 61) = some i := by
    rw [List.findIdx?_append, hi]
    rfl
  rw [longInfo_eq, List.cons_append, List.tail_cons, hfind] at h
  have hlen := congrArg List.length h
  simp only [Option.getD_some, List.length_drop, List.length_cons, List.length_append] at hlen
  omega

/-- The value of a word is never the whole word behind the dashes. -/
theorem value_ne_self (hs : s ≠ []) : (longInfo (45 :: 45 :: s)).value.getD [] ≠ s := by
  have hpos := List.length_pos_of_ne_nil hs
  rw [longInfo_eq]
  split
  · intro h
    have hlen := congrArg List.length h
    simp only [Option.getD_some, List.length_drop] at hlen
    omega
  · by_cases hbefore : (ascii "enable-").isPrefixOf s
    · rw [if_pos hbefore]
      intro h
      have hs' : ascii "b/1" = s := h
      rw [← hs'] at hbefore
      exact absurd hbefore (by decide)
    · rw [if_neg hbefore]
      exact fun h => hs h.symm

/-- A separator sets nothing. -/
theorem parse_separator (args : List (List UInt8)) (options : List CmdOption) :
    parse false false ([45, 45] :: args) options [] = .ok (options, args.filter (· ≠ [45, 45])) := by
  rw [parse, if_pos rfl, parse_skipping, List.nil_append]

theorem not_shows_of_parsed {plains : List (List UInt8)} {x : List UInt8}
    (hparse : parse false false ([45, 45] :: args) (defaults decls x) [] = .ok (options', plains)) (hd : decls[k]? = some d)
    (hshows : ∃ o', options'[k]? = some o' ∧ Shows ⟨d, x⟩ o' (some setting)) : Shows ⟨d, x⟩ ⟨d, x⟩ (some setting) := by
  rw [parse_separator] at hparse
  cases hparse
  obtain ⟨o', ho', hshow⟩ := hshows
  rw [defaults, List.getElem?_map, hd] at ho'
  obtain rfl := Option.some.inj ho'
  exact hshow

theorem ok_of_valued {value : List UInt8} (hread : Reads decls (.valued name value))
    (hsets : (Item.valued name value).settings decls = some sets) : (Item.valued name value).Ok decls := by
  obtain ⟨options', hparse, hshows⟩ := hread.result hsets (value ++ [0])
  obtain ⟨hname, k, d, hindex, hd, htype, rfl⟩ := long_settings hsets
  have hshow := hshows k d _ hd (last_singleton k _)
  obtain ⟨hlookup, ⟨hbool, -⟩ | ⟨-, htrue, hvalue⟩⟩ := lookup_of_shows (List.append_ne_nil_of_left_ne_nil hname _)
    hparse hd hshow (not_shows_longer d value)
  · exact absurd hbool (of_decide_eq_false htype)
  · have hvalue : (longInfo (45 :: 45 :: (name ++ 61 :: value))).value.getD [] = value := congrArg CmdOption.value hvalue
    have heq := not_mem_of_value hname hvalue
    have hshown : shown (name ++ 61 :: value) = name := by rw [← longInfo_name, longInfo_valued hname heq]
    refine ⟨fun hnil => htrue (hvalue.trans hnil), heq, ?_⟩
    rw [← hshown, hlookup, hshown, hindex]

/-- A long form for a boolean. -/
theorem ok_of_bool (hread : Reads decls item) (hsets : item.settings decls = some sets)
    (hargs : item.args = [45 :: 45 :: s]) (hplains : item.plains = []) (hs : s ≠ [])
    (hform : (if name = [] then none else (ofType decls true (longIndex decls name)).map fun k => [(k, Setting.truth b)]) =
      some sets) : b = true ∧ lookup decls (shown s) = longIndex decls name := by
  obtain ⟨-, k, d, hindex, hd, htype, rfl⟩ := long_settings hform
  rw [hindex]
  refine lookup_of_truth hs hd (of_decide_eq_true htype) fun x => ?_
  obtain ⟨options', hparse, hshows⟩ := hread.result hsets x
  rw [hargs, hplains] at hparse
  exact ⟨options', hparse, hshows k d _ hd (last_singleton k _)⟩

theorem ok_of_shortValued {value : List UInt8} (hread : Reads decls (.shortValued c value))
    (hsets : (Item.shortValued c value).settings decls = some sets) : (Item.shortValued c value).Ok decls := by
  obtain ⟨options', hparse, hshows⟩ := hread.result hsets (value ++ [0])
  obtain ⟨k, d, hindex, hd, htype, rfl⟩ := short_settings hsets
  have hshow := hshows k d _ hd (last_singleton k _)
  have hc : c ≠ 45 := by
    rintro rfl
    exact not_shows_longer d value (not_shows_of_parsed hparse hd hshow)
  have hset := @setOption_text _ _ _ _ (map_defaults decls (value ++ [0])) ⟨[c], nextValue (some value), false⟩
    (List.cons_ne_nil _ _) hindex hd (of_decide_eq_false htype) [45, c]
  have hinfos : getParseInfo (defaults decls (value ++ [0])) [45, c] [value].head? =
      .ok [⟨[c], nextValue (some value), false⟩] := by
    rw [getParseInfo_short hc, shortLoop_valued (map_defaults decls _) hindex hd (of_decide_eq_false htype)]
    rfl
  have htrue : isTrue (nextValue (some value)) := by
    by_contra hfalse
    rw [if_neg hfalse] at hset
    rw [Item.args, parse_infos (short_ne_sep hc []) hinfos, List.foldlM_cons, hset] at hparse
    cases hparse
  refine ⟨hc, ?_, ?_⟩
  · rintro rfl
    exact htrue rfl
  · rintro rfl
    exact htrue rfl

theorem ok_of_shortJoined {value : List UInt8} (hread : Reads decls (.shortJoined c value))
    (hsets : (Item.shortJoined c value).settings decls = some sets) : (Item.shortJoined c value).Ok decls := by
  obtain ⟨options', hparse, hshows⟩ := hread.result hsets (value ++ [0])
  have hvalue : value ≠ [] := fun hnil => by
    rw [Item.settings, if_pos hnil] at hsets
    cases hsets
  rw [Item.settings, if_neg hvalue] at hsets
  obtain ⟨k, d, hindex, hd, htype, rfl⟩ := short_settings hsets
  have hshow := hshows k d _ hd (last_singleton k _)
  rintro rfl
  -- The word is read as a long option.
  obtain ⟨-, ⟨hbool, -⟩ | ⟨-, -, hself⟩⟩ := lookup_of_shows hvalue hparse hd hshow (not_shows_longer d value)
  · exact of_decide_eq_false htype hbool
  · exact value_ne_self hvalue (congrArg CmdOption.value hself)

/-- All settings of a group are true, so that the last one of an option is. -/
theorem last_of_flag {cs : List UInt8}
    (hboth : List.Forall₂ (fun c s => shortIndex decls c = some s.1 ∧ s.2 = .truth true) cs sets) (hc : c ∈ cs)
    (hindex : shortIndex decls c = some k) : last k sets = some (.truth true) := by
  have hmem : (k, Setting.truth true) ∈ sets := by
    induction hboth with
    | nil => exact absurd hc List.not_mem_nil
    | @cons c' s cs sets hs hboth ih =>
      rcases List.mem_cons.mp hc with rfl | hc
      · have hk : s.1 = k := Option.some.inj (hs.1.symm.trans hindex)
        have hset : s = (k, Setting.truth true) := Prod.ext hk hs.2
        exact hset ▸ List.mem_cons_self
      · exact List.mem_cons_of_mem _ (ih hc)
  cases hlast : last k sets with
  | none =>
    rw [last, Option.map_eq_none_iff, List.find?_eq_none] at hlast
    exact absurd (decide_eq_true rfl) (hlast _ (List.mem_reverse.mpr hmem))
  | some x =>
    obtain ⟨c', -, -, htruth⟩ := setting_of_flag hboth _ (last_mem hlast)
    exact congrArg some htruth

theorem short_of_shortIndex (h : shortIndex decls c = some k) :
    (decls[k]?.map fun d => d.short.head?) = some (some c) := by
  obtain ⟨hk, hshort, -⟩ := List.findIdx?_eq_some_iff_getElem.mp h
  rw [List.getElem?_eq_getElem hk]
  exact congrArg some (of_decide_eq_true hshort)

theorem ok_of_flags {cs : List UInt8} (hread : Reads decls (.flags c cs))
    (hsets : (Item.flags c cs).settings decls = some sets) : (Item.flags c cs).Ok decls := by
  rintro rfl
  obtain ⟨options', hparse, hshows⟩ := hread.result hsets (ascii "0")
  obtain ⟨hall, hboth⟩ := flags_settings hsets
  have hnot : ∀ d : Decl, ¬Shows ⟨d, ascii "0"⟩ ⟨d, ascii "0"⟩ (some (.truth true)) := fun d h =>
    absurd h.2 (show stringAsBool (ascii "0") ≠ true by decide)
  have hshow : ∀ c ∈ 45 :: cs, ∃ k d, shortIndex decls c = some k ∧ decls[k]? = some d ∧
      ∃ o', options'[k]? = some o' ∧ Shows ⟨d, ascii "0"⟩ o' (some (.truth true)) := by
    intro c hc
    obtain ⟨k, d, hindex, hd, -⟩ := hall c hc
    exact ⟨k, d, hindex, hd, hshows k d _ hd (last_of_flag hboth hc hindex)⟩
  have hne : cs ≠ [] := by
    rintro rfl
    obtain ⟨k, d, -, hd, ho'⟩ := hshow 45 List.mem_cons_self
    exact hnot d (not_shows_of_parsed hparse hd ho')
  -- Only one option is set, so that all characters stand for it.
  have hlookup : ∀ c ∈ 45 :: cs, shortIndex decls c = lookup decls (shown cs) := by
    intro c hc
    obtain ⟨k, d, hindex, hd, ho'⟩ := hshow c hc
    rw [hindex, (lookup_of_shows hne hparse hd ho' (hnot d)).1]
  have hdashes : ∀ c ∈ cs, c = 45 := by
    intro c hc
    obtain ⟨k, d, hindex, hd, -⟩ := hshow 45 List.mem_cons_self
    have hindex' : shortIndex decls c = some k := by
      rw [hlookup c (List.mem_cons_of_mem _ hc), ← hlookup 45 List.mem_cons_self, hindex]
    exact Option.some.inj (Option.some.inj ((short_of_shortIndex hindex').symm.trans (short_of_shortIndex hindex)))
  refine ⟨hne, hdashes, ?_⟩
  rw [hlookup 45 List.mem_cons_self, shown_dashes hne hdashes]

theorem ok_of_plain {arg : List UInt8} (hread : Reads decls (.plain arg))
    (hsets : (Item.plain arg).settings decls = some sets) : (Item.plain arg).Ok decls := by
  obtain ⟨options', hparse, -⟩ := hread.result hsets []
  rintro rfl
  have hinfos : getParseInfo (defaults decls []) [] none = .error (.indexError "Substring out of bounds") := rfl
  rw [Item.args, parse, if_neg (by decide), if_neg Bool.false_ne_true, List.head?_nil, hinfos] at hparse
  cases hparse

theorem read_iff_ok (hitem : item.settings decls ≠ none) : Reads decls item ↔ item.Ok decls := by
  obtain ⟨sets, hsets⟩ := Option.ne_none_iff_exists'.mp hitem
  constructor
  · intro hread
    cases item with
    | valued name value => exact ok_of_valued hread hsets
    | flag name =>
      obtain ⟨hname, -⟩ := long_settings hsets
      exact (ok_of_bool hread hsets rfl rfl hname hsets).2
    | enable name => exact (ok_of_bool hread hsets rfl rfl (List.append_ne_nil_of_left_ne_nil (by decide) _) hsets).2
    | disable name =>
      have hs : ascii "disable-" ++ name ≠ [] := List.append_ne_nil_of_left_ne_nil (by decide) _
      exact Bool.false_ne_true (ok_of_bool hread hsets rfl rfl hs hsets).1
    | truth name b =>
      obtain ⟨hname, -⟩ := long_settings hsets
      obtain ⟨rfl, hlookup⟩ := ok_of_bool hread hsets rfl rfl (List.append_ne_nil_of_left_ne_nil hname _) hsets
      exact ⟨rfl, hlookup⟩
    | shortValued c value => exact ok_of_shortValued hread hsets
    | shortJoined c value => exact ok_of_shortJoined hread hsets
    | flags c cs => exact ok_of_flags hread hsets
    | plain arg => exact ok_of_plain hread hsets
  · intro hok options hdecls
    refine parses_of_ok hdecls ?_ ?_ fun args hargs => by cases hargs
    · intro item' hitem'
      rwa [List.mem_singleton.mp hitem']
    · intro item' hitem'
      rwa [List.mem_singleton.mp hitem']

/-- A further separator is lost. -/
theorem not_mem_of_parses (hread : Parses decls options [] (some args)) : [45, 45] ∉ args := by
  obtain ⟨options', hparse, -⟩ := hread
  change parse false false ([45, 45] :: args) options [] = .ok (options', args) at hparse
  rw [parse_separator] at hparse
  have hargs : args.filter (fun arg => decide (arg ≠ [45, 45])) = args := congrArg Prod.snd (Except.ok.inj hparse)
  exact fun hmem => of_decide_eq_true (List.filter_eq_self.mp hargs _ hmem) rfl

end

/-- Items that are left out, or what is behind the `--`. -/
def IsPart (items' : List Item) (behind' : Option (List (List UInt8))) (items : List Item)
    (behind : Option (List (List UInt8))) : Prop :=
  items'.Sublist items ∧ (behind' = none ∨ behind' = behind)

/-- Every item is read as what it is, and there is one `--`. -/
theorem arguments_parsed_iff (decls : List Decl) (items : List Item) (behind : Option (List (List UInt8)))
    (hitems : ∀ item ∈ items, item.settings decls ≠ none ∧ item.Small) :
    (∀ items' behind', IsPart items' behind' items behind →
        ∀ options : List CmdOption, options.map CmdOption.toDecl = decls → Parses decls options items' behind') ↔
      (∀ item ∈ items, item.Ok decls) ∧ ∀ args ∈ behind, [45, 45] ∉ args := by
  constructor
  · intro hparses
    constructor
    · intro item hitem
      exact (read_iff_ok (hitems item hitem).1).mp fun options hdecls =>
        hparses [item] none ⟨List.singleton_sublist.mpr hitem, .inl rfl⟩ options hdecls
    · intro args hargs
      have hpart : IsPart [] (some args) items behind := ⟨List.nil_sublist _, .inr hargs.symm⟩
      exact not_mem_of_parses (hparses [] (some args) hpart (defaults decls []) (map_defaults decls []))
  · intro ⟨hok, hbehind⟩ items' behind' hpart options hdecls
    refine parses_of_ok hdecls (fun item hitem => (hitems item (hpart.1.subset hitem)).1)
      (fun item hitem => hok item (hpart.1.subset hitem)) fun args hargs => ?_
    rcases hpart.2 with rfl | rfl
    · cases hargs
    · exact hbehind args hargs

/-- `--filename=a -v x -f b -- --verbose` -/
theorem few_arguments_parsed :
    Parses [⟨ascii "filename", ascii "f", .str⟩, ⟨ascii "verbose", ascii "v", .bool⟩]
      [⟨⟨ascii "filename", ascii "f", .str⟩, ascii "default.txt"⟩, ⟨⟨ascii "verbose", ascii "v", .bool⟩, ascii "false"⟩]
      [.valued (ascii "filename") (ascii "a"), .flags 118 [], .plain (ascii "x"), .shortValued 102 (ascii "b")]
      (some [ascii "--verbose"]) :=
  (arguments_parsed_iff _ [.valued (ascii "filename") (ascii "a"), .flags 118 [], .plain (ascii "x"),
    .shortValued 102 (ascii "b")] (some [ascii "--verbose"]) (by decide)).mpr ⟨by decide, by decide⟩ _ _
    ⟨List.Sublist.refl _, .inr rfl⟩ _ rfl

/-- `--verbose=false` leaves a boolean true. -/
theorem false_value_ignored :
    (Item.truth (ascii "verbose") false).settings [⟨ascii "verbose", ascii "v", .bool⟩] = some [(0, .truth false)] ∧
      ¬Parses [⟨ascii "verbose", ascii "v", .bool⟩] [⟨⟨ascii "verbose", ascii "v", .bool⟩, ascii "true"⟩]
        [.truth (ascii "verbose") false] none := by
  refine ⟨by decide, fun ⟨options', hparse, _, hshows⟩ => ?_⟩
  obtain ⟨k, d, hlookup, hd, ⟨-, rfl⟩ | ⟨htype, -⟩⟩ := @long_result _ [⟨ascii "verbose", ascii "v", .bool⟩]
    (ascii "verbose=false") _ rfl (by decide) hparse
  · have hk : k = 0 := Option.some.inj (hlookup.symm.trans (by decide))
    subst hk
    have hfalse : stringAsBool (ascii "1") = false := (hshows 0 _ _ rfl rfl).2
    exact absurd hfalse (by decide)
  · have hk : k = 0 := Option.some.inj (hlookup.symm.trans (by decide))
    subst hk
    cases hd
    exact htype rfl

end Cmdline

end Crack
