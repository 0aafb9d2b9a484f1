import Crack.Lang.Appending

/-!
# csv

Rows are written as lines, and lines are parsed by a machine of three states, that goes on with the last
field of an incomplete row.
-/
namespace Crack

namespace Csv

structure CSVStringArray where
  fields : List (List UInt8)
  /-- True if the last column is incomplete. -/
  incomplete : Bool
  deriving DecidableEq, Repr

def needsEscaping (value : List UInt8) : Bool :=
  (value.take (intSize value.length)).any fun ch => ch = 44 || ch = 10 || ch = 34

/-- One round of the loop of `writeEscaped`. -/
def writeByte (out : ManagedBuffer) (ch : UInt8) : Except Stop ManagedBuffer :=
  if ch = 34 then do
    let out ← out.append 34
    out.append ch
  else if ch = 10 then out.extend [92, 110]
  else out.append ch

def writeEscaped (value : List UInt8) (out : ManagedBuffer) : Except Stop ManagedBuffer :=
  (value.take (intSize value.length)).foldlM writeByte out

def writeValue (value : List UInt8) : Except Stop (List UInt8) :=
  if needsEscaping value then do
    let result ← (ManagedBuffer.init (value.length + 2 + value.length / 10)).append 34
    let result ← writeEscaped value result
    let result ← result.append 34
    return result.data
  else .ok value

/-- The loop of `encodeRow`, from an index on. -/
def encodeFields : List (List UInt8) → Nat → ManagedBuffer → Except Stop ManagedBuffer
  | [], _, buf => .ok buf
  | elem :: row, index, buf => do
    let buf ← (if index ≠ 0 then buf.append 44 else .ok buf)
    let value ← writeValue elem
    let buf ← buf.extend value
    encodeFields row (index + 1) buf

def encodeRow (row : List (List UInt8)) : Except Stop (List UInt8) := do
  let buf ← encodeFields row 0 (.init 256)
  return buf.data

inductive State where
  | base | quoted | escaped
  deriving DecidableEq, Repr

/-- The variables of `parseLine`. -/
structure Scan where
  state : State
  result : List (List UInt8)
  col : ManagedBuffer

namespace Scan

/-- A field ends at a comma. -/
def pushed (s : Scan) : Scan := ⟨.base, s.result ++ [s.col.data], .init 1024⟩

def append (s : Scan) (ch : UInt8) (state : State) : Except Stop Scan := do
  let col ← s.col.append ch
  return ⟨state, s.result, col⟩

/-- One round of the loop. -/
def parseByte (s : Scan) (ch : UInt8) : Except Stop Scan :=
  match s.state with
  | .base =>
    if ch = 34 then .ok { s with state := .quoted }
    else if ch = 44 then .ok s.pushed
    else s.append ch .base
  | .quoted => if ch = 34 then .ok { s with state := .escaped } else s.append ch .quoted
  | .escaped =>
    if ch = 34 then s.append 34 .quoted
    else if ch = 44 then .ok s.pushed
    else s.append ch .base

def finish (s : Scan) : Except Stop CSVStringArray := do
  -- a paired double quote closes the field
  let state := if s.state = .escaped then .base else s.state
  if state = .quoted then
    let col ← s.col.append 10
    return ⟨s.result ++ [col.data], true⟩
  else return ⟨s.result ++ [s.col.data], false⟩

end Scan

namespace CSVStringArray

/-- Where `parseLine` begins: the last field of an incomplete row is taken up again. -/
def resume (existing : CSVStringArray) : Except Stop Scan :=
  match existing.fields.getLast? with
  | some last =>
    if existing.incomplete then do
      let col ← (ManagedBuffer.init 1024).extend last
      return ⟨.quoted, existing.fields.dropLast, col⟩
    else .error .assertion
  | none => .ok ⟨.base, existing.fields, .init 1024⟩

/-- `parseLine(CSVStringArray existing, String line)` -/
def parseLine (existing : CSVStringArray) (line : List UInt8) : Except Stop CSVStringArray := do
  let s ← existing.resume
  let s ← (line.take (intSize line.length)).foldlM Scan.parseByte s
  s.finish

end CSVStringArray

/-- `parseLine(String line)` -/
def parseLine (line : List UInt8) : Except Stop CSVStringArray := do
  let result ← CSVStringArray.parseLine ⟨[], false⟩ line
  if result.incomplete then .error (.thrown "Badly formed row.") else return result

/-- The machine with the bytes of its column. -/
structure Cursor where
  state : State
  fields : List (List UInt8)
  col : List UInt8
  deriving DecidableEq, Repr

namespace Cursor

def push (c : Cursor) : Cursor := ⟨.base, c.fields ++ [c.col], []⟩

def append (c : Cursor) (ch : UInt8) (state : State) : Cursor := ⟨state, c.fields, c.col ++ [ch]⟩

def step (c : Cursor) (ch : UInt8) : Cursor :=
  match c.state with
  | .base => if ch = 34 then { c with state := .quoted } else if ch = 44 then c.push else c.append ch .base
  | .quoted => if ch = 34 then { c with state := .escaped } else c.append ch .quoted
  | .escaped => if ch = 34 then c.append 34 .quoted else if ch = 44 then c.push else c.append ch .base

def read (c : Cursor) (text : List UInt8) : Cursor := text.foldl step c

/-- The row at the end of a line. -/
def row (c : Cursor) : CSVStringArray :=
  if c.state = .quoted then ⟨c.fields ++ [c.col ++ [10]], true⟩ else ⟨c.fields ++ [c.col], false⟩

end Cursor

/-- The machine at the beginning of the next line of a row. -/
def CSVStringArray.cursor (existing : CSVStringArray) : Cursor :=
  match existing.fields.getLast? with
  | some last => ⟨.quoted, existing.fields.dropLast, last⟩
  | none => ⟨.base, existing.fields, []⟩

/-- A row that may be gone on with: it has no column, or an incomplete one. -/
def CSVStringArray.Open (existing : CSVStringArray) : Prop := existing.fields = [] ∨ existing.incomplete = true

def Scan.cursor (s : Scan) : Cursor := ⟨s.state, s.result, s.col.data⟩

open ManagedBuffer
open Loops (bind_ok)

variable {s s' : Scan} {c : Cursor} {ch : UInt8} {row row' : CSVStringArray} {text line : List UInt8}

theorem Cursor.read_append (c : Cursor) (xs ys : List UInt8) : c.read (xs ++ ys) = (c.read xs).read ys :=
  List.foldl_append

/-- A quote may only change the state, a comma may end the column, and any other byte is appended. -/
theorem Cursor.step_cases (c : Cursor) (ch : UInt8) :
    (ch = 34 ∧ ∃ state, c.step ch = { c with state }) ∨ (ch = 44 ∧ c.step ch = c.push) ∨
      ∃ state, c.step ch = c.append ch state := by
  obtain ⟨state, fields, col⟩ := c
  by_cases hquote : ch = 34
  · subst hquote
    cases state with
    | base => exact .inl ⟨rfl, .quoted, rfl⟩
    | quoted => exact .inl ⟨rfl, .escaped, rfl⟩
    | escaped => exact .inr (.inr ⟨.quoted, rfl⟩)
  · by_cases hcomma : ch = 44
    · subst hcomma
      cases state with
      | base | escaped => exact .inr (.inl ⟨rfl, rfl⟩)
      | quoted => exact .inr (.inr ⟨.quoted, rfl⟩)
    · refine .inr (.inr ?_)
      cases state with
      | base | escaped => exact ⟨.base, (if_neg hquote).trans (if_neg hcomma)⟩
      | quoted => exact ⟨.quoted, if_neg hquote⟩

theorem Cursor.step_length (c : Cursor) (ch : UInt8) : (c.step ch).col.length ≤ c.col.length + 1 := by
  obtain ⟨-, state, hstep⟩ | ⟨-, hstep⟩ | ⟨state, hstep⟩ := c.step_cases ch
  · rw [hstep]
    exact Nat.le_succ _
  · rw [hstep]
    exact Nat.zero_le _
  · rw [hstep]
    exact Nat.le_of_eq List.length_append

theorem sound_first : (ManagedBuffer.init 1024).Sound := sound_init (by decide)

/-- What comes of a byte is the machine, as long as there is room for one more byte. -/
structure StepsTo (s : Scan) (x : Except Stop Scan) (c : Cursor) : Prop where
  total : s.col.size + 1 ≤ 2 ^ 31 → ∃ s', x = .ok s'
  only : ∀ s', x = .ok s' → s'.col.Sound ∧ s'.cursor = c

theorem StepsTo.of_ok (s' : Scan) (h : s'.col.Sound) : StepsTo s (.ok s') s'.cursor := by
  refine ⟨fun _ => ⟨s', rfl⟩, fun t ht => ?_⟩
  cases ht
  exact ⟨h, rfl⟩

theorem StepsTo.of_append (h : s.col.Sound) (ch : UInt8) (state : State) :
    StepsTo s (s.append ch state) (s.cursor.append ch state) := by
  constructor
  · intro hroom
    obtain ⟨col, hcol⟩ := (appends_append ch).total _ h hroom
    refine ⟨⟨state, s.result, col⟩, ?_⟩
    rw [Scan.append, hcol]
    rfl
  · intro s' he
    obtain ⟨col, hcol, he⟩ := bind_ok he
    cases he
    obtain ⟨hsound, hdata⟩ := (appends_append ch).only _ _ h hcol
    exact ⟨hsound, congrArg (Cursor.mk state s.result) hdata⟩

theorem StepsTo.ite {p : Prop} [Decidable p] {x y : Except Stop Scan} {c c' : Cursor} (hx : StepsTo s x c)
    (hy : StepsTo s y c') : StepsTo s (if p then x else y) (if p then c else c') := by
  by_cases hp : p
  · rwa [if_pos hp, if_pos hp]
  · rwa [if_neg hp, if_neg hp]

theorem parseByte_steps (h : s.col.Sound) (ch : UInt8) : StepsTo s (s.parseByte ch) (s.cursor.step ch) := by
  have happend := StepsTo.of_append h
  have hpush : StepsTo s (.ok s.pushed) s.cursor.push := .of_ok s.pushed sound_first
  obtain ⟨state, result, col⟩ := s
  cases state with
  | base => exact .ite (.of_ok ⟨.quoted, result, col⟩ h) (.ite hpush (happend ch .base))
  | quoted => exact .ite (.of_ok ⟨.escaped, result, col⟩ h) (happend ch .quoted)
  | escaped => exact .ite (happend 34 .quoted) (.ite hpush (happend ch .base))

/-- The size of a column is that of its bytes. -/
theorem size_col (h : s.col.Sound) : s.col.size = s.cursor.col.length := (length_data h.1).symm

theorem parseByte_follows : Simulation.Follows Scan.parseByte Cursor.step (fun s c => s.col.Sound ∧ s.cursor = c)
    (fun c => c.col.length) (2 ^ 31) := by
  constructor
  · rintro s c ch s' ⟨h, rfl⟩ he
    exact (parseByte_steps h ch).only s' he
  · rintro s c ch ⟨h, rfl⟩ hroom
    refine (parseByte_steps h ch).total ?_
    rw [size_col h]
    exact hroom
  · exact Cursor.step_length

theorem parseBytes_only (h : s.col.Sound) (he : text.foldlM Scan.parseByte s = .ok s') :
    s'.col.Sound ∧ s'.cursor = s.cursor.read text := parseByte_follows.foldlM_only ⟨h, rfl⟩ he

theorem parseBytes_total (text : List UInt8) (h : s.col.Sound) (hroom : s.col.size + text.length ≤ 2 ^ 31) :
    ∃ s', text.foldlM Scan.parseByte s = .ok s' ∧ s'.col.size ≤ s.col.size + text.length := by
  rw [size_col h] at hroom ⊢
  obtain ⟨s', he⟩ := parseByte_follows.foldlM_total ⟨h, rfl⟩ text hroom
  obtain ⟨h', hcursor⟩ := parseBytes_only h he
  refine ⟨s', he, ?_⟩
  rw [size_col h', hcursor]
  exact parseByte_follows.size_foldl_le s.cursor text

theorem finish_only (h : s.col.Sound) (he : s.finish = .ok row) : row = s.cursor.row := by
  obtain ⟨state, result, col⟩ := s
  cases state with
  | quoted =>
    obtain ⟨col', hcol, he⟩ := bind_ok he
    cases he
    obtain ⟨-, hdata⟩ := (appends_append 10).only _ _ h hcol
    rw [hdata]
    rfl
  | base | escaped =>
    cases he
    rfl

theorem finish_total (h : s.col.Sound) (hroom : s.col.size + 1 ≤ 2 ^ 31) : ∃ row, s.finish = .ok row := by
  obtain ⟨state, result, col⟩ := s
  cases state with
  | quoted =>
    obtain ⟨col', hcol⟩ := (appends_append 10).total _ h hroom
    refine ⟨⟨result ++ [col'.data], true⟩, ?_⟩
    change (col.append 10 >>= _) = _
    rw [hcol]
    rfl
  | base | escaped => exact ⟨_, rfl⟩

theorem resume_only (he : row.resume = .ok s) : s.col.Sound ∧ s.cursor = row.cursor ∧ row.Open := by
  rw [CSVStringArray.resume] at he
  rw [CSVStringArray.cursor]
  split at he
  next last hlast =>
    split at he
    next hincomplete =>
      obtain ⟨col, hcol, he⟩ := bind_ok he
      cases he
      obtain ⟨hsound, hdata⟩ := (appends_extend last).only _ _ sound_first hcol
      exact ⟨hsound, congrArg (Cursor.mk .quoted row.fields.dropLast) hdata, .inr hincomplete⟩
    next => cases he
  next hnone =>
    cases he
    exact ⟨sound_first, rfl, .inl (List.getLast?_eq_none_iff.mp hnone)⟩

theorem resume_total (hopen : row.Open) (hroom : row.cursor.col.length ≤ 2 ^ 31) : ∃ s, row.resume = .ok s := by
  rw [CSVStringArray.resume]
  rw [CSVStringArray.cursor] at hroom
  split
  next last hlast =>
    have hincomplete : row.incomplete = true := by
      refine hopen.resolve_left fun hnil => ?_
      rw [hnil] at hlast
      cases hlast
    rw [hlast] at hroom
    obtain ⟨col, hcol⟩ := (appends_extend last).total _ sound_first (by
      change 0 + last.length ≤ 2 ^ 31
      rwa [Nat.zero_add])
    refine ⟨⟨.quoted, row.fields.dropLast, col⟩, ?_⟩
    rw [if_pos hincomplete, hcol]
    rfl
  next => exact ⟨_, rfl⟩

/-- A line that is parsed leaves the row of the machine. -/
theorem parseLine_only (he : row.parseLine line = .ok row') :
    row.Open ∧ row' = (row.cursor.read (line.take (intSize line.length))).row := by
  obtain ⟨s, hresume, he⟩ := bind_ok he
  obtain ⟨s', hloop, hfinish⟩ := bind_ok he
  obtain ⟨h, hcursor, hopen⟩ := resume_only hresume
  obtain ⟨h', hcursor'⟩ := parseBytes_only h hloop
  refine ⟨hopen, ?_⟩
  rw [← hcursor, ← hcursor']
  exact finish_only h' hfinish

theorem parseLine_total (row : CSVStringArray) (line : List UInt8) (hopen : row.Open)
    (hroom : row.cursor.col.length + intSize line.length < 2 ^ 31) :
    row.parseLine line = .ok (row.cursor.read (line.take (intSize line.length))).row := by
  have hseen : (line.take (intSize line.length)).length ≤ intSize line.length := List.length_take_le _ _
  obtain ⟨s, hresume⟩ := resume_total hopen (by omega)
  obtain ⟨h, hcursor, -⟩ := resume_only hresume
  have hsize : s.col.size = row.cursor.col.length := by rw [size_col h, hcursor]
  obtain ⟨s', hloop, hle⟩ := parseBytes_total (line.take (intSize line.length)) h (by omega)
  obtain ⟨row', hfinish⟩ := finish_total (parseBytes_only h hloop).1 (by omega)
  have he : row.parseLine line = .ok row' := by
    rw [CSVStringArray.parseLine, hresume]
    change (List.foldlM Scan.parseByte s _ >>= Scan.finish) = _
    rw [hloop]
    exact hfinish
  rw [he, ← (parseLine_only he).2]

end Csv

end Crack
