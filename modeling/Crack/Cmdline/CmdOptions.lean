import Crack.Lib.Loops
import Crack.Parser.Token

/-!
# Command line options

The options that are declared, and how arguments set them. An argument is shorter than 2 ^ 31 bytes, so that all
positions in it are `int`s.
-/
namespace Crack

namespace Cmdline

inductive OptionType where
  | str
  | int
  | float
  | bool
  deriving DecidableEq, Repr

/-- An `Option` without its value. The description plays no part here. -/
structure Decl where
  long : List UInt8
  short : List UInt8
  type : OptionType
  deriving DecidableEq, Repr

structure CmdOption extends Decl where
  value : List UInt8
  deriving DecidableEq, Repr

inductive Failure where
  | keyError (text : List UInt8)
  | invalidArgumentError (text : List UInt8)
  | exception (text : List UInt8)
  | indexError (text : String)
  deriving DecidableEq, Repr

/-- A string that is not there or is empty is false. -/
def isTrue (s : Option (List UInt8)) : Prop := s.getD [] ≠ []

instance (s : Option (List UInt8)) : Decidable (isTrue s) := inferInstanceAs (Decidable (_ ≠ _))

def slice (s : List UInt8) (start stop : Nat) : List UInt8 := (s.drop start).take (stop - start)

def lfind (s : List UInt8) (c : UInt8) (pos : Nat) : Option Nat := ((s.drop pos).findIdx? (· == c)).map (pos + ·)

def getSuffix (s before : List UInt8) : Option (List UInt8) :=
  if before.isPrefixOf s then some (s.drop before.length) else none

/-- `__stringAsBool` -/
def stringAsBool (value : List UInt8) : Bool := value = ascii "1" ∨ value = ascii "t" ∨ value = ascii "true"

section

variable (options : List CmdOption)

/-- `none` stands for `NOINDEX`. -/
def findLongIndex (optName : List UInt8) : Option Nat := options.findIdx? fun o => optName = o.long

def findShortIndex (optName : UInt8) : Option Nat := options.findIdx? fun o => o.short.head? = some optName

/-- A name of one character is a short name. -/
def findIndex : List UInt8 → Option Nat
  | [c] => findShortIndex options c
  | optName => findLongIndex options optName

/-- The index of an option and the option. -/
def getOption (optName : List UInt8) (throwException : Bool) : Except Failure (Option (Nat × CmdOption)) :=
  match (findIndex options optName).bind fun k => options[k]?.map fun o => (k, o) with
  | some found => .ok (some found)
  | none => if throwException then .error (.keyError (ascii "Option '" ++ optName ++ ascii "' not found")) else .ok none

def setString (k : Nat) (value : List UInt8) : List CmdOption := options.modify k fun o => { o with value }

end

/-- `_addNewOption`, without adding the option -/
def newOption (name : List UInt8) (value : Option (List UInt8)) : Except Failure CmdOption :=
  let text := value.getD []
  if name = [] then .error (.invalidArgumentError (ascii "Error: trying to create new option with null name"))
  else if text = [] then .ok ⟨⟨name, name.take 1, .bool⟩, ascii "1"⟩
  else if text.length > 2 ∧ text[1]? = some 47 then
    let newType : Option OptionType :=
      if text[0]? = some 66 ∨ text[0]? = some 98 then some .bool
      else if text[0]? = some 73 ∨ text[0]? = some 105 then some .int
      else if text[0]? = some 70 ∨ text[0]? = some 102 then some .float
      else if text[0]? = some 83 ∨ text[0]? = some 115 then some .str
      else none
    match newType with
    | some type => .ok ⟨⟨name, name.take 1, type⟩, text.drop 2⟩
    | none => .error (.exception (ascii "Unrecoverable error in creating new option"))
  else .ok ⟨⟨name, name.take 1, .str⟩, text⟩

structure ParseInfo where
  name : List UInt8
  value : Option (List UInt8)
  nadv : Bool
  deriving DecidableEq, Repr

/-- A long option -/
def longInfo (arg : List UInt8) : ParseInfo :=
  match lfind arg 61 3 with
  | some eqi => ⟨slice arg 2 eqi, some (arg.drop (eqi + 1)), true⟩
  | none =>
    match getSuffix arg (ascii "--enable-") with
    | some argVal => ⟨argVal, some (ascii "b/1"), true⟩
    | none =>
      match getSuffix arg (ascii "disable-") with
      | some argVal => ⟨argVal, some (ascii "b/0"), true⟩
      | none => ⟨arg.drop 2, none, true⟩

/-- The next argument, if it can be a value. -/
def nextValue : Option (List UInt8) → Option (List UInt8)
  | some next => if next ≠ [45] then some next else none
  | none => none

/-- The loop over the short options of an argument, from some place on. It is at the first one as long as there is no
result. -/
def shortLoop (options : List CmdOption) (next : Option (List UInt8)) :
    List ParseInfo → List UInt8 → Except Failure (List ParseInfo)
  | parseInfo, [] => .ok parseInfo
  | parseInfo, c :: cs => do
    match ← getOption options [c] false with
    | some (_, opt) =>
      if opt.type ≠ .bool ∧ cs ≠ [] then return parseInfo ++ [⟨[c], some cs, decide (parseInfo = [])⟩]
      else shortLoop options next (parseInfo ++ [⟨[c], nextValue next, decide (opt.type = .bool)⟩]) cs
    | none =>
      if parseInfo = [] then shortLoop options next [⟨[c], nextValue next, false⟩] cs
      else return parseInfo.modifyLast fun result => { result with value := some (c :: cs), nadv := true }

/-- `_getParseInfo`, for an argument and the next one -/
def getParseInfo (options : List CmdOption) (arg : List UInt8) (next : Option (List UInt8)) :
    Except Failure (List ParseInfo) :=
  if arg.length = 1 then .ok []
  else if arg = [] then .error (.indexError "Substring out of bounds")
  else if arg[0]? = some 45 then
    if arg.length > 2 ∧ arg[1]? = some 45 then .ok [longInfo arg] else shortLoop options next [] (arg.drop 1)
  else .ok []

/-- The inner loop of `parse`. -/
def setOption (createUnknown : Bool) (arg : List UInt8) (options : List CmdOption) (parseInfo : ParseInfo) :
    Except Failure (List CmdOption) :=
  if parseInfo.name = [] then .ok options
  else do
    match ← getOption options parseInfo.name (!createUnknown) with
    | some (k, opt) =>
      if opt.type = .bool then return setString options k (ascii "1")
      else if isTrue parseInfo.value then return setString options k (parseInfo.value.getD [])
      else throw (.invalidArgumentError (ascii "Option " ++ arg ++ ascii " given without a value"))
    | none =>
      let opt ← newOption parseInfo.name parseInfo.value
      return options ++ [opt]

/-- The loop of `parse`, with the options and the arguments that are not parsed. -/
def parse (createUnknown skipping : Bool) (args : List (List UInt8)) (options : List CmdOption)
    (unparsed : List (List UInt8)) : Except Failure (List CmdOption × List (List UInt8)) :=
  match args with
  | [] => .ok (options, unparsed)
  | arg :: rest =>
    if arg = [45, 45] then parse createUnknown true rest options unparsed
    else if skipping then parse createUnknown skipping rest options (unparsed ++ [arg])
    else do
      let parseValues ← getParseInfo options arg rest.head?
      let options ← parseValues.foldlM (setOption createUnknown arg) options
      match parseValues.getLast? with
      | some parseInfo =>
        if parseInfo.name = [] then parse createUnknown skipping rest options (unparsed ++ [arg])
        else if isTrue parseInfo.value ∧ !parseInfo.nadv then
          parse createUnknown skipping rest.tail options unparsed
        else parse createUnknown skipping rest options unparsed
      | none => parse createUnknown skipping rest options (unparsed ++ [arg])
termination_by args.length
decreasing_by
  all_goals
    simp only [List.length_cons, List.length_tail]
    omega

end Cmdline

end Crack
