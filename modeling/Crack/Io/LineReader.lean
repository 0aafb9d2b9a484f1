import Crack.Lang.Appending

/-!
# Line readers

A `LineReader` keeps what it has read beyond a line in its buffer, and a `FullReader` reads all that is left.
-/
namespace Crack

/-- A `LineReader` or a `FullReader`. -/
structure LineReader where
  r : Source
  buffer : ManagedBuffer
  start : Nat

namespace LineReader

open Fuel (Returns)
open Loops (bind_ok)

inductive Op where
  | readLine
  /-- a read into a buffer with some capacity -/
  | read (cap : Nat)
  | readAll

def init (reader : Source) : LineReader := ⟨reader, .init 1024, 0⟩

variable (r : LineReader) {result : Option (List UInt8)} {buffer : ManagedBuffer} {op : Op}

/-- Less than 1K of space is made more. -/
def growBuffer (buffer : ManagedBuffer) : Except Stop ManagedBuffer :=
  if buffer.size + 1024 > buffer.cap then buffer.grow (uint (buffer.cap + 1024)) else .ok buffer

/-- What is left of a line moves to the front. -/
def compacted : Except Stop ManagedBuffer := if r.start ≠ 0 then r.buffer.compact r.start else .ok r.buffer

/-- The next block is read behind it. -/
def readBlock : Except Stop (List UInt8 × LineReader) := do
  let buffer ← r.compacted
  let buffer ← growBuffer buffer
  let (bytes, source) := r.r.read 1024
  return (bytes, ⟨source, ← buffer.deliver buffer.size bytes, 0⟩)

/-- The loop over the buffer. An index from 2 ^ 31 on is negative. -/
def findNewline : Except Stop (Option Nat) :=
  match r.buffer.lfind 10 r.start with
  | some i => if i < 2 ^ 31 then .ok (some i) else .error .wildAccess
  | none => if r.start < r.buffer.size ∧ 2 ^ 31 < r.buffer.size then .error .wildAccess else .ok none

def readLine : Nat → LineReader → Except Stop (Option (List UInt8) × LineReader)
  | 0, _ => .error .forever
  | fuel + 1, r => do
    match ← r.findNewline with
    | some i =>
      let line ← r.buffer.string r.start (i + 1 - r.start)
      return (some line, { r with start := uint (i + 1) })
    | none =>
      let (bytes, r) ← r.readBlock
      if bytes = [] then
        if r.start = r.buffer.size then return (none, r)
        else
          let line ← r.buffer.string r.start (r.buffer.size - r.start)
          return (some line, { r with start := uint r.buffer.size })
      else readLine fuel r

/-- `read(WriteBuffer buffer)`, which moves what is left of a line or else asks the underlying reader. -/
def read (cap : Nat) : Except Stop (List UInt8 × LineReader) := do
  if r.start < r.buffer.size then
    let size := r.buffer.size - r.start
    let size := if cap ≤ size then cap else size
    let bytes ← r.buffer.string r.start size
    return (bytes, { r with start := uint (r.start + size) })
  else
    let (bytes, source) := r.r.read cap
    return (bytes, { r with r := source })

/-- The loop of `readAll`. -/
def readRest : Nat → Source → ManagedBuffer → Except Stop (ManagedBuffer × Source)
  | 0, _, _ => .error .forever
  | fuel + 1, source, result => do
    let (bytes, source) := source.read 1024
    if bytes = [] then return (result, source)
    else
      let result ← result.extend bytes
      readRest fuel source result

/-- `readAll()`; the first 1024 bytes of the memory are what it reads into. -/
def readAll (fuel : Nat) : Except Stop (List UInt8 × LineReader) := do
  let left ← r.buffer.string r.start (r.buffer.size - r.start)
  let result ← (ManagedBuffer.init (r.buffer.size - r.start)).extend left
  if r.buffer.cap < 1024 then .error .wildAccess
  else
    let (result, source) ← readRest fuel r.r result
    return (result.data, ⟨source, { r.buffer with size := 0 }, 0⟩)

def step (fuel : Nat) : Op → Except Stop (Option (List UInt8) × LineReader)
  | .readLine => r.readLine fuel
  | .read cap => do
    let (bytes, r) ← r.read cap
    return (some bytes, r)
  | .readAll => do
    let (bytes, r) ← r.readAll fuel
    return (some bytes, r)

def run (fuel : Nat) (r : LineReader) : List Op → Except Stop (List (Option (List UInt8)) × LineReader)
  | [] => .ok ([], r)
  | op :: ops => do
    let (result, r) ← r.step fuel op
    let (results, r) ← run fuel r ops
    return (result :: results, r)

/-- What is read but not returned. -/
def kept : List UInt8 := r.buffer.data.drop r.start

/-- What is left of the stream. -/
def rest : List UInt8 := r.kept ++ r.r.left

/-- A line has its newline at the end, and the last one may have none. -/
def IsLine (line after : List UInt8) : Prop :=
  (∃ text, line = text ++ [10] ∧ 10 ∉ text) ∨ line ≠ [] ∧ 10 ∉ line ∧ after = []

/-- What an operation returns and what it leaves of a stream. -/
def Delivers (op : Op) (before : List UInt8) (result : Option (List UInt8)) (after : List UInt8) : Prop :=
  before = result.getD [] ++ after ∧
    match op, result with
    | .readLine, none => before = []
    | .readLine, some line => IsLine line after
    | .read cap, some bytes => bytes.length ≤ cap ∧ (bytes = [] → cap = 0 ∨ before = [])
    | .readAll, some _ => after = []
    | _, none => False

inductive Delivered : List Op → List UInt8 → List (Option (List UInt8)) → List UInt8 → Prop
  | nil (bytes : List UInt8) : Delivered [] bytes [] bytes
  | cons {op : Op} {ops : List Op} {before after last : List UInt8} {result : Option (List UInt8)}
    {results : List (Option (List UInt8))} :
    Delivers op before result after → Delivered ops after results last →
      Delivered (op :: ops) before (result :: results) last

/-- What some reads of 1024 bytes return. -/
def gathered : Nat → Source → List UInt8
  | 0, _ => []
  | k + 1, s => (s.read 1024).1 ++ gathered k (s.read 1024).2

/-- The first line, with its newline if it has one. -/
def lineOf (bytes : List UInt8) : List UInt8 :=
  match bytes.findIdx? (· == 10) with
  | some i => bytes.take (i + 1)
  | none => bytes

/-- What is used of the buffer starts at an index that is not negative, and what is looked at ends there. A line has
at most 2 ^ 31 bytes, and a block that comes to a whole rest is added to less than that. -/
def OpOk (r : LineReader) : Op → Prop
  | .readLine => (lineOf r.rest).length ≤ 2 ^ 31 ∧ (r.kept = [] ∨ r.start + (lineOf r.kept).length ≤ 2 ^ 31)
  | .read cap => cap = 0 ∨ r.kept = [] ∨ r.start < 2 ^ 31
  | .readAll => (r.kept = [] ∨ r.start < 2 ^ 31) ∧
    ∀ k, (gathered k r.r).length < r.r.left.length → r.kept.length + (gathered k r.r).length < 2 ^ 31

/-- The condition in every state of a run. -/
def RunOk (r : LineReader) : List Op → Prop
  | [] => True
  | op :: ops => OpOk r op ∧ ∀ result r', Returns (fun fuel => r.step fuel op) (.ok (result, r')) → RunOk r' ops

/-- The buffer of a reader, with the place in it. -/
structure Good (r : LineReader) : Prop where
  sound : r.buffer.Sound
  roomy : 1024 ≤ r.buffer.cap
  inside : r.start ≤ r.buffer.size

variable {r : LineReader} {r' : LineReader} {xs : List UInt8} {text : List UInt8} {fuel : Nat} {reader : Source}

theorem good_init (reader : Source) : Good (init reader) := by
  have hcap : (ManagedBuffer.init 1024).cap = 1024 := List.length_replicate
  exact ⟨ManagedBuffer.sound_init (by omega), Nat.le_of_eq hcap.symm, Nat.le_refl 0⟩

theorem rest_init (reader : Source) : (init reader).rest = reader.left := rfl

theorem Good.length_kept (h : Good r) : r.kept.length = r.buffer.size - r.start := by
  rw [kept, List.length_drop, ManagedBuffer.length_data h.sound.1]

theorem find_none (h : 10 ∉ xs) : xs.findIdx? (· == 10) = none :=
  List.findIdx?_eq_none_iff.mpr fun _ hc => beq_eq_false_iff_ne.mpr (ne_of_mem_of_not_mem hc h)

theorem find_some (h : 10 ∉ text) (after : List UInt8) :
    (text ++ 10 :: after).findIdx? (· == 10) = some text.length := by
  have hhere : (10 :: after).findIdx? (· == 10) = some 0 := by rw [List.findIdx?_cons]; rfl
  rw [List.findIdx?_append, find_none h, hhere]
  exact congrArg some (Nat.zero_add _)

theorem lineOf_none (h : 10 ∉ xs) : lineOf xs = xs := by rw [lineOf, find_none h]

theorem lineOf_some (h : 10 ∉ text) (after : List UInt8) : lineOf (text ++ 10 :: after) = text ++ [10] := by
  rw [lineOf, find_some h]
  exact List.take_length_add_append 1

theorem newline_cases (bytes : List UInt8) : 10 ∉ bytes ∨ ∃ text after, bytes = text ++ 10 :: after ∧ 10 ∉ text := by
  by_cases hmem : 10 ∈ bytes
  · obtain ⟨text, after, hsplit, htext⟩ := List.eq_append_cons_of_mem hmem
    exact .inr ⟨text, after, hsplit, htext⟩
  · exact .inl hmem

theorem lineOf_append (h : 10 ∉ xs) (ys : List UInt8) : lineOf (xs ++ ys) = xs ++ lineOf ys := by
  rcases newline_cases ys with hnot | ⟨text, after, rfl, htext⟩
  · rw [lineOf_none hnot, lineOf_none (List.not_mem_append h hnot)]
  · rw [← List.append_assoc, lineOf_some (List.not_mem_append h htext), lineOf_some htext, List.append_assoc]

/-- With more behind it the first line is not shorter. -/
theorem length_lineOf_le (xs ys : List UInt8) : (lineOf xs).length ≤ (lineOf (xs ++ ys)).length := by
  rcases newline_cases xs with hnot | ⟨text, after, rfl, htext⟩
  · rw [lineOf_none hnot, lineOf_append hnot, List.length_append]
    exact Nat.le_add_right _ _
  · refine Nat.le_of_eq ?_
    rw [List.append_assoc, List.cons_append, lineOf_some htext, lineOf_some htext]

theorem lineOf_ne_nil (h : xs ≠ []) : lineOf xs ≠ [] := by
  rcases newline_cases xs with hnot | ⟨text, after, rfl, htext⟩
  · rwa [lineOf_none hnot]
  · rw [lineOf_some htext]
    exact List.append_ne_nil_of_right_ne_nil _ (List.cons_ne_nil _ _)

theorem growBuffer_ok (h : buffer.Sound) (hroomy : 1024 ≤ buffer.cap) (hsize : buffer.size ≤ 2 ^ 32 - 2048) :
    ∃ buffer', growBuffer buffer = .ok buffer' ∧ buffer'.Sound ∧ buffer'.size = buffer.size ∧
      buffer'.size + 1024 ≤ buffer'.cap ∧
      buffer'.data = buffer.data := by
  obtain ⟨hle, hcap⟩ := h
  by_cases hfull : buffer.size + 1024 > buffer.cap
  · have huint : uint (buffer.cap + 1024) = buffer.cap + 1024 := Nat.mod_eq_of_lt (by omega)
    have hmore : uint buffer.cap < buffer.cap + 1024 := Nat.lt_of_le_of_lt (ManagedBuffer.uint_le _) (by omega)
    obtain ⟨buffer', he, hsize', hcap', hdata'⟩ := ManagedBuffer.grow_ok hmore (by omega) hle
    refine ⟨buffer', ?_, ⟨by omega, by omega⟩, hsize', by omega, hdata'⟩
    rw [growBuffer, if_pos hfull, huint, he]
  · exact ⟨buffer, if_neg hfull, ⟨hle, hcap⟩, rfl, by omega, rfl⟩

/-- A line that is in the buffer. -/
theorem readLine_found (h : Good r) {text after : List UInt8} (hkept : r.kept = text ++ 10 :: after)
    (htext : 10 ∉ text) (hplace : r.start + text.length < 2 ^ 31) :
    ∃ r', (∀ fuel, r.readLine (fuel + 1) = .ok (some (text ++ [10]), r')) ∧ Good r' ∧
      Delivers .readLine r.rest (some (text ++ [10])) r'.rest := by
  have hlength := h.length_kept
  rw [hkept, List.length_append, List.length_cons] at hlength
  obtain ⟨hsound, hroomy, hinside⟩ := h
  have hfind : r.findNewline = .ok (some (r.start + text.length)) := by
    have hind : r.buffer.lfind 10 r.start = some (r.start + text.length) := by
      change (r.kept.findIdx? (· == 10)).map (r.start + ·) = _
      rw [hkept, find_some htext]
      rfl
    rw [findNewline, hind]
    exact if_pos hplace
  have hend : uint (r.start + text.length + 1) = r.start + text.length + 1 :=
    Nat.mod_eq_of_lt (Nat.lt_of_le_of_lt (by omega) (Nat.lt_of_le_of_lt hsound.1 hsound.2))
  have hamount : r.start + text.length + 1 - r.start = (text ++ [(10 : UInt8)]).length := by
    rw [List.length_append]
    exact Nat.sub_eq_of_eq_add (by simp; omega)
  have hsplit : r.kept = (text ++ [10]) ++ after := by rw [hkept, List.append_assoc]; rfl
  have hline : r.buffer.string r.start (r.start + text.length + 1 - r.start) = .ok (text ++ [10]) := by
    rw [ManagedBuffer.string_ok (.inl (by omega)) (by omega) hsound.1, hamount]
    change Except.ok (r.kept.take _) = _
    rw [hsplit, List.take_left]
  have hafter : r.buffer.data.drop (r.start + text.length + 1) = after := by
    have hplace : r.start + text.length + 1 = r.start + (text ++ [(10 : UInt8)]).length := by omega
    rw [hplace, ← List.drop_drop]
    change r.kept.drop _ = after
    rw [hsplit, List.drop_left]
  refine ⟨{ r with start := uint (r.start + text.length + 1) }, fun fuel => ?_, ⟨hsound, hroomy, ?_⟩, ?_,
    .inl ⟨text, rfl, htext⟩⟩
  · rw [readLine, hfind]
    change (do let line ← r.buffer.string r.start _; _) = _
    rw [hline]
    rfl
  · dsimp only
    omega
  · change r.kept ++ r.r.left = (text ++ [10]) ++ (r.buffer.data.drop (uint _) ++ r.r.left)
    rw [hend, hafter, hsplit, List.append_assoc]

/-- A block is added to what is kept. -/
theorem readBlock_ok (h : Good r) (hplace : r.start < 2 ^ 31 ∨ r.start = r.buffer.size) (hsize : r.kept.length ≤ 2 ^ 31)
    (hmore : (r.r.read 1024).1 = [] ∨ r.kept.length < 2 ^ 31) :
    ∃ r', r.readBlock = .ok ((r.r.read 1024).1, r') ∧ Good r' ∧ r'.r = (r.r.read 1024).2 ∧ r'.start = 0 ∧
      r'.buffer.data = r.kept ++ (r.r.read 1024).1 := by
  have hlength := h.length_kept
  obtain ⟨hsound, hroomy, hinside⟩ := h
  obtain ⟨buffer, hcompact, hsize', hcap, hdata⟩ : ∃ buffer, r.compacted = .ok buffer ∧
      buffer.size = r.buffer.size - r.start ∧ buffer.cap = r.buffer.cap ∧ buffer.data = r.kept := by
    by_cases hstart : r.start = 0
    · refine ⟨r.buffer, if_neg (not_not_intro hstart), ?_, rfl, ?_⟩
      · rw [hstart, Nat.sub_zero]
      · rw [kept, hstart, List.drop_zero]
    · rw [compacted, if_pos hstart]
      exact ManagedBuffer.compact_ok hinside hsound.1 hplace (Nat.lt_of_le_of_lt hsound.1 hsound.2)
  have hkept : buffer.size = r.kept.length := by rw [hsize', hlength]
  have hsound' : buffer.Sound := by
    obtain ⟨hle, hlt⟩ := hsound
    exact ⟨by omega, by omega⟩
  obtain ⟨buffer', hgrow, hsound'', hsame, hroom, hdata'⟩ := growBuffer_ok hsound' (by omega) (by omega)
  have hread : (r.r.read 1024).1.length ≤ 1024 := Source.length_read_le
  have hroom' : buffer'.size + (r.r.read 1024).1.length ≤ buffer'.cap := by omega
  obtain ⟨hsound₃, hdata₃⟩ := ManagedBuffer.sound_receive hsound'' hroom'
  have hdeliver : buffer'.deliver buffer'.size (r.r.read 1024).1 =
      .ok (buffer'.receive buffer'.size (r.r.read 1024).1) := by
    refine ManagedBuffer.deliver_ok (hmore.symm.imp_left fun hlt => ?_) hroom'
    rwa [hsame, hkept]
  refine ⟨⟨(r.r.read 1024).2, buffer'.receive buffer'.size (r.r.read 1024).1, 0⟩, ?_, ⟨hsound₃, ?_, Nat.zero_le _⟩, rfl,
    rfl, ?_⟩
  · rw [readBlock, hcompact]
    simp only [bind, Except.bind, hgrow, hdeliver]
    rfl
  · rw [ManagedBuffer.cap_receive hroom']
    omega
  · rw [hdata₃, hdata', hdata]

/-- The last line, at the end of the stream. -/
theorem lastLine_ok (h : Good r) (hstart : r.start = 0) (hleft : r.r.left = []) (hkept : 10 ∉ r.kept) :
    ∃ result r', (if r.start = r.buffer.size then return (none, r)
      else do
        let line ← r.buffer.string r.start (r.buffer.size - r.start)
        return (some line, { r with start := uint r.buffer.size })) = Except.ok (ε := Stop) (result, r') ∧
      Good r' ∧ Delivers .readLine r.rest result r'.rest := by
  have hlength := h.length_kept
  have hinside := h.inside
  have hrest : r.rest = r.kept := by rw [rest, hleft, List.append_nil]
  by_cases hempty : r.start = r.buffer.size
  · have hnil : r.kept = [] := List.eq_nil_of_length_eq_zero (by omega)
    exact ⟨none, r, if_pos hempty, h, rfl, hrest.trans hnil⟩
  · have hne : r.kept ≠ [] := by
      intro hnil
      rw [hnil] at hlength
      exact hempty (by simp only [List.length_nil] at hlength; omega)
    have hline : r.buffer.string r.start (r.buffer.size - r.start) = .ok r.kept := by
      rw [ManagedBuffer.string_ok (.inl (by omega)) (by omega) h.sound.1, ← hlength]
      exact congrArg Except.ok List.take_length
    have hsize : uint r.buffer.size = r.buffer.size := Nat.mod_eq_of_lt (Nat.lt_of_le_of_lt h.sound.1 h.sound.2)
    have hafter : rest { r with start := uint r.buffer.size } = [] := by
      change r.buffer.data.drop (uint r.buffer.size) ++ r.r.left = []
      rw [hsize, hleft, List.append_nil]
      exact List.drop_eq_nil_of_le (Nat.le_of_eq (ManagedBuffer.length_data h.sound.1))
    refine ⟨some r.kept, { r with start := uint r.buffer.size }, ?_, ⟨h.sound, h.roomy, Nat.le_of_eq hsize⟩, ?_,
      .inr ⟨hne, hkept, hafter⟩⟩
    · rw [if_neg hempty, hline]
      rfl
    · rw [hafter, hrest]
      exact (List.append_nil _).symm

theorem readLine_ok (h : Good r) (hline : (lineOf r.rest).length ≤ 2 ^ 31)
    (hplace : r.kept = [] ∨ r.start + (lineOf r.kept).length ≤ 2 ^ 31) :
    ∃ result r', Returns (fun fuel => r.readLine fuel) (.ok (result, r')) ∧ Good r' ∧
      Delivers .readLine r.rest result r'.rest := by
  induction hn : r.r.left.length using Nat.strongRecOn generalizing r with
  | ind n ih =>
    rcases newline_cases r.kept with hkept | ⟨text, after, hsplit, htext⟩
    · have hlength := h.length_kept
      have hinside := h.inside
      rw [lineOf_none hkept] at hplace
      rw [rest, lineOf_append hkept, List.length_append] at hline
      have hempty : r.kept = [] → r.start = r.buffer.size := by
        intro hnil
        rw [hnil, List.length_nil] at hlength
        omega
      have hfind : r.findNewline = .ok none := by
        have hind : r.buffer.lfind 10 r.start = none := by
          change (r.kept.findIdx? (· == 10)).map (r.start + ·) = none
          rw [find_none hkept]
          rfl
        rw [findNewline, hind]
        refine if_neg fun hnot => ?_
        rcases hplace with hnil | hle
        · exact Nat.ne_of_lt hnot.1 (hempty hnil)
        · omega
      have hmore : (r.r.read 1024).1 = [] ∨ r.kept.length < 2 ^ 31 := by
        by_cases hleft : r.r.left = []
        · rw [Source.read, hleft, List.take_nil]
          exact .inl rfl
        · have hpos := List.length_pos_of_ne_nil (lineOf_ne_nil hleft)
          exact .inr (by omega)
      have hstart₀ : r.start < 2 ^ 31 ∨ r.start = r.buffer.size := by
        rcases hplace with hnil | hle
        · exact .inr (hempty hnil)
        · omega
      obtain ⟨r₁, hblock, hgood₁, hsource, hstart, hdata⟩ := readBlock_ok h hstart₀ (by omega) hmore
      have hkept₁ : r₁.kept = r.kept ++ (r.r.read 1024).1 := by rw [LineReader.kept, hstart, List.drop_zero, hdata]
      have hleft : (r.r.read 1024).1 ++ (r.r.read 1024).2.left = r.r.left := Source.read_append
      have hrest : r₁.rest = r.rest := by rw [rest, rest, hkept₁, hsource, List.append_assoc, hleft]
      by_cases hread : (r.r.read 1024).1 = []
      · have hnil : r.r.left = [] := by
          by_contra hne
          exact Nat.ne_of_gt (Source.read_pos (by omega) hne) (congrArg List.length hread)
        have hleft₁ : r₁.r.left = [] := by
          rw [hread, List.nil_append] at hleft
          rw [hsource, hleft, hnil]
        have hkept₂ : 10 ∉ r₁.kept := by rwa [hkept₁, hread, List.append_nil]
        obtain ⟨result, r', he, hgood, hdelivers⟩ := lastLine_ok hgood₁ hstart hleft₁ hkept₂
        refine ⟨result, r', .now fun fuel => ?_, hgood, hrest ▸ hdelivers⟩
        rw [readLine, hfind]
        change (do let (bytes, r) ← r.readBlock; _) = _
        rw [hblock]
        exact (if_pos hread).trans he
      · have hshort : r₁.r.left.length < n := by
          have hpos := List.length_pos_of_ne_nil hread
          have hlength := congrArg List.length hleft
          rw [List.length_append] at hlength
          rw [hsource]
          omega
        have hline₁ : (lineOf r₁.rest).length ≤ 2 ^ 31 := by
          rwa [hrest, rest, lineOf_append hkept, List.length_append]
        have hplace₁ : r₁.start + (lineOf r₁.kept).length ≤ 2 ^ 31 := by
          rw [hstart, Nat.zero_add]
          exact Nat.le_trans (length_lineOf_le _ _) hline₁
        obtain ⟨result, r', hreturns, hgood, hdelivers⟩ := ih _ hshort hgood₁ hline₁ (.inr hplace₁) rfl
        refine ⟨result, r', hreturns.step fun fuel he => ?_, hgood, hrest ▸ hdelivers⟩
        rw [readLine, hfind]
        change (do let (bytes, r) ← r.readBlock; _) = _
        rw [hblock]
        exact (if_neg hread).trans he
    · have hle : r.start + (text.length + 1) ≤ 2 ^ 31 := by
        rcases hplace with hnil | hle
        · rw [hnil] at hsplit
          exact absurd hsplit.symm (List.append_ne_nil_of_right_ne_nil _ (List.cons_ne_nil _ _))
        · rwa [hsplit, lineOf_some htext, List.length_append] at hle
      obtain ⟨r', he, hgood, hdelivers⟩ := readLine_found h hsplit htext (by omega)
      exact ⟨_, r', .now he, hgood, hdelivers⟩

theorem read_ok (h : Good r) {cap : Nat} (hok : cap = 0 ∨ r.kept = [] ∨ r.start < 2 ^ 31) :
    ∃ bytes r', r.read cap = .ok (bytes, r') ∧ Good r' ∧ Delivers (.read cap) r.rest (some bytes) r'.rest := by
  have hlength := h.length_kept
  by_cases hmore : r.start < r.buffer.size
  · have hamount :
        (if cap ≤ r.buffer.size - r.start then cap else r.buffer.size - r.start) = min cap r.kept.length := by
      rw [← hlength, Nat.min_def]
    have hinside : r.start + min cap r.kept.length ≤ r.buffer.size := by omega
    have hplace₀ : r.start < 2 ^ 31 ∨ min cap r.kept.length = 0 := by
      rcases hok with rfl | hnil | hlt
      · exact .inr (Nat.zero_min _)
      · rw [hnil]
        exact .inr (Nat.min_zero _)
      · exact .inl hlt
    have hplace : uint (r.start + min cap r.kept.length) = r.start + min cap r.kept.length :=
      Nat.mod_eq_of_lt (Nat.lt_of_le_of_lt hinside (Nat.lt_of_le_of_lt h.sound.1 h.sound.2))
    have hafter : r.buffer.data.drop (r.start + min cap r.kept.length) = r.kept.drop (min cap r.kept.length) :=
      List.drop_drop.symm
    refine ⟨r.kept.take (min cap r.kept.length), { r with start := uint (r.start + min cap r.kept.length) }, ?_,
      ⟨h.sound, h.roomy, by dsimp only; omega⟩, ?_, ?_, fun hnone => ?_⟩
    · rw [read, if_pos hmore]
      dsimp only
      rw [hamount, ManagedBuffer.string_ok hplace₀ hinside h.sound.1]
      rfl
    · change r.kept ++ r.r.left = r.kept.take _ ++ (r.buffer.data.drop (uint _) ++ r.r.left)
      rw [hplace, hafter, ← List.append_assoc, List.take_append_drop]
    · rw [List.length_take]
      omega
    · have hzero := congrArg List.length hnone
      rw [List.length_take, List.length_nil] at hzero
      omega
  · have hkept : r.kept = [] := List.eq_nil_of_length_eq_zero (by omega)
    refine ⟨(r.r.read cap).1, { r with r := (r.r.read cap).2 }, ?_, ⟨h.sound, h.roomy, h.inside⟩, ?_,
      Source.length_read_le, fun hnone => ?_⟩
    · rw [read, if_neg hmore]
      rfl
    · change r.kept ++ r.r.left = (r.r.read cap).1 ++ (r.kept ++ (r.r.read cap).2.left)
      rw [hkept, List.nil_append, List.nil_append, Source.read_append]
    · by_contra hnot
      rw [rest, hkept, List.nil_append] at hnot
      push Not at hnot
      exact Nat.ne_of_gt (Source.read_pos (Nat.pos_of_ne_zero hnot.1) hnot.2) (congrArg List.length hnone)

theorem readRest_ok {source : Source} {result : ManagedBuffer} (h : result.size ≤ result.cap)
    (hsmall : ∀ k, (gathered k source).length < source.left.length →
      result.size + (gathered k source).length < 2 ^ 31) :
    ∃ result' source', Returns (fun fuel => readRest fuel source result) (.ok (result', source')) ∧
      result'.data = result.data ++ source.left ∧ source'.left = [] := by
  induction hn : source.left.length using Nat.strongRecOn generalizing source result with
  | ind n ih =>
    have hleft : (source.read 1024).1 ++ (source.read 1024).2.left = source.left := Source.read_append
    have hlength := congrArg List.length hleft
    rw [List.length_append] at hlength
    by_cases hread : (source.read 1024).1 = []
    · have hnil : source.left = [] := by
        by_contra hne
        exact Nat.ne_of_gt (Source.read_pos (by omega) hne) (congrArg List.length hread)
      refine ⟨result, (source.read 1024).2, .now fun fuel => if_pos hread, by rw [hnil, List.append_nil], ?_⟩
      rwa [hread, List.nil_append, hnil] at hleft
    · have hpos := List.length_pos_of_ne_nil hread
      have hplace : result.size < 2 ^ 31 := hsmall 0 (show 0 < source.left.length by omega)
      have hblock : (source.read 1024).1.length ≤ 1024 := Source.length_read_le
      obtain ⟨result₁, hextend, hsize₁, hle₁, hdata₁⟩ :=
        @ManagedBuffer.extend_ok result (source.read 1024).1 h (.inl hplace) (by omega)
      have hsmall₁ : ∀ k, (gathered k (source.read 1024).2).length < (source.read 1024).2.left.length →
          result₁.size + (gathered k (source.read 1024).2).length < 2 ^ 31 := by
        intro k hk
        have hmore := hsmall (k + 1)
        rw [gathered, List.length_append] at hmore
        omega
      obtain ⟨result', source', hreturns, hdata, hdone⟩ :=
        ih (source.read 1024).2.left.length (by omega) hle₁ hsmall₁ rfl
      refine ⟨result', source', hreturns.step fun fuel he => ?_, ?_, hdone⟩
      · rw [readRest]
        dsimp only
        rw [if_neg hread, hextend]
        exact he
      · rw [hdata, hdata₁, List.append_assoc, hleft]

theorem readAll_ok (h : Good r) (hplace : r.kept = [] ∨ r.start < 2 ^ 31)
    (hsmall : ∀ k, (gathered k r.r).length < r.r.left.length →
      r.kept.length + (gathered k r.r).length < 2 ^ 31) :
    ∃ bytes r', Returns (fun fuel => r.readAll fuel) (.ok (bytes, r')) ∧ Good r' ∧
      Delivers .readAll r.rest (some bytes) r'.rest := by
  have hlength := h.length_kept
  have hinside := h.inside
  have hkept : r.kept.length < 2 ^ 32 := by
    obtain ⟨hle, hlt⟩ := h.sound
    omega
  have hleft : r.buffer.string r.start (r.buffer.size - r.start) = .ok r.kept := by
    rw [← hlength, ManagedBuffer.string_ok (hplace.symm.imp_right fun hnil => congrArg List.length hnil) (by omega)
      h.sound.1]
    exact congrArg Except.ok List.take_length
  have hempty : (ManagedBuffer.init (r.buffer.size - r.start)).size = 0 := rfl
  obtain ⟨result, hextend, hsize, hle, hdata⟩ := @ManagedBuffer.extend_ok
    (.init (r.buffer.size - r.start)) r.kept (Nat.zero_le _) (.inl (by rw [hempty]; decide)) (by omega)
  obtain ⟨result', source', hreturns, hdata', hdone⟩ := @readRest_ok r.r result hle (by rwa [hsize, hempty, Nat.zero_add])
  refine ⟨result'.data, ⟨source', { r.buffer with size := 0 }, 0⟩, hreturns.imp fun fuel hrest => ?_,
    ⟨⟨Nat.zero_le _, h.sound.2⟩, h.roomy, Nat.le_refl 0⟩, ?_, hdone⟩
  · rw [readAll, hleft]
    change (do let result ← (ManagedBuffer.init _).extend r.kept; _) = _
    rw [hextend]
    change (if r.buffer.cap < 1024 then _ else _) = _
    rw [if_neg (Nat.not_lt_of_le h.roomy), hrest]
    rfl
  · change r.kept ++ r.r.left = result'.data ++ ([] ++ source'.left)
    rw [hdata', hdata, hdone, List.append_nil, List.append_nil]
    rfl

theorem step_ok (h : Good r) (hok : OpOk r op) :
    ∃ result r', Returns (fun fuel => r.step fuel op) (.ok (result, r')) ∧ Good r' ∧
      Delivers op r.rest result r'.rest := by
  cases op with
  | readLine => exact readLine_ok h hok.1 hok.2
  | read cap =>
    obtain ⟨bytes, r', he, hgood, hdelivers⟩ := read_ok h hok
    refine ⟨some bytes, r', ⟨0, fun fuel _ => ?_⟩, hgood, hdelivers⟩
    dsimp only [step]
    rw [he]
    rfl
  | readAll =>
    obtain ⟨bytes, r', hreturns, hgood, hdelivers⟩ := readAll_ok h hok.1 hok.2
    refine ⟨some bytes, r', hreturns.imp fun fuel he => ?_, hgood, hdelivers⟩
    dsimp only [step]
    rw [he]
    rfl

theorem run_ok {ops : List Op} (h : Good r) (hok : RunOk r ops) :
    ∃ results r', Returns (fun fuel => run fuel r ops) (.ok (results, r')) ∧ Delivered ops r.rest results r'.rest := by
  induction ops generalizing r with
  | nil => exact ⟨[], r, ⟨0, fun _ _ => rfl⟩, .nil _⟩
  | cons op ops ih =>
    obtain ⟨result, r₁, hstep, hgood, hdelivers⟩ := step_ok h hok.1
    obtain ⟨results, r₂, hrun, hdelivered⟩ := ih hgood (hok.2 result r₁ hstep)
    refine ⟨result :: results, r₂, (hstep.and hrun).imp fun fuel he => ?_, .cons hdelivers hdelivered⟩
    have hfirst : r.step fuel op = .ok (result, r₁) := congrArg Prod.fst he
    have hmore : run fuel r₁ ops = .ok (results, r₂) := congrArg Prod.snd he
    rw [run, hfirst]
    change (do let (results, r) ← run fuel r₁ ops; return (result :: results, r)) = _
    rw [hmore]
    rfl

theorem length_string {start len : Nat} (he : buffer.string start len = .ok text) : text.length = len := by
  rw [ManagedBuffer.string] at he
  split at he
  next hle =>
    cases he
    rw [List.length_take, List.length_drop]
    rw [ManagedBuffer.InMemory, ManagedBuffer.cap] at hle
    omega
  next => cases he

theorem of_findNewline {found : Option Nat} (he : r.findNewline = .ok found) :
    match found with
    | some i => i < 2 ^ 31
    | none => r.buffer.size ≤ r.start ∨ r.buffer.size ≤ 2 ^ 31 := by
  rw [findNewline] at he
  split at he
  next =>
    split at he <;> cases he
    assumption
  next =>
    split at he <;> cases he
    dsimp only
    omega

/-- What a block adds to the buffer it takes from the source. -/
theorem of_readBlock {bytes : List UInt8} (he : r.readBlock = .ok (bytes, r')) :
    r'.start = 0 ∧ r'.buffer.size = r.buffer.size - r.start + bytes.length ∧ bytes ++ r'.r.left = r.r.left := by
  obtain ⟨buffer, hcompact, he⟩ := bind_ok he
  have hsize : buffer.size = r.buffer.size - r.start := by
    rw [compacted] at hcompact
    by_cases hstart : r.start ≠ 0
    · rw [if_pos hstart, ManagedBuffer.compact] at hcompact
      split at hcompact
      next => cases hcompact
      next =>
        obtain ⟨buffer', -, hcompact⟩ := bind_ok hcompact
        cases hcompact
        rfl
    · rw [if_neg hstart] at hcompact
      cases hcompact
      omega
  obtain ⟨buffer', hgrow, he⟩ := bind_ok he
  have hsize' : buffer'.size = buffer.size := by
    rw [growBuffer] at hgrow
    split at hgrow
    next => exact ManagedBuffer.size_grow hgrow
    next =>
      cases hgrow
      rfl
  obtain ⟨buffer'', hdeliver, he⟩ := bind_ok he
  rw [ManagedBuffer.deliver] at hdeliver
  split at hdeliver <;> cases hdeliver
  cases he
  refine ⟨rfl, ?_, Source.read_append⟩
  rw [ManagedBuffer.size_receive, hsize', hsize]

theorem left_readRest {source source' : Source} {result result' : ManagedBuffer}
    (he : readRest fuel source result = .ok (result', source')) : source'.left.length ≤ source.left.length := by
  induction fuel generalizing source result with
  | zero => cases he
  | succ fuel ih =>
    have hleft : (source.read 1024).2.left.length ≤ source.left.length := by
      rw [Source.read, List.length_drop]
      exact Nat.sub_le _ _
    rw [readRest] at he
    dsimp only at he
    split at he
    next =>
      cases he
      exact hleft
    next =>
      obtain ⟨result₁, -, he⟩ := bind_ok he
      exact Nat.le_trans (ih he) hleft

/-- What is in the buffer and to come does not become more. -/
theorem total_readLine (he : r.readLine fuel = .ok (result, r')) :
    r'.buffer.size + r'.r.left.length ≤ r.buffer.size + r.r.left.length := by
  induction fuel generalizing r with
  | zero => cases he
  | succ fuel ih =>
    obtain ⟨found, -, he⟩ := bind_ok he
    cases found with
    | some i =>
      obtain ⟨text, -, he⟩ := bind_ok he
      cases he
      exact Nat.le_refl _
    | none =>
      obtain ⟨⟨bytes, r₁⟩, hblock, he⟩ := bind_ok he
      obtain ⟨-, hsize, hleft⟩ := of_readBlock hblock
      have hlength := congrArg List.length hleft
      rw [List.length_append] at hlength
      have hle : r₁.buffer.size + r₁.r.left.length ≤ r.buffer.size + r.r.left.length := by omega
      dsimp only at he
      split at he
      next =>
        split at he
        next =>
          cases he
          exact hle
        next =>
          obtain ⟨text, -, he⟩ := bind_ok he
          cases he
          exact hle
      next => exact Nat.le_trans (ih he) hle

theorem total_step (he : r.step fuel op = .ok (result, r')) :
    r'.buffer.size + r'.r.left.length ≤ r.buffer.size + r.r.left.length := by
  cases op with
  | readLine => exact total_readLine he
  | read cap =>
    obtain ⟨⟨bytes, r₁⟩, hread, he⟩ := bind_ok he
    cases he
    rw [read] at hread
    split at hread
    next =>
      obtain ⟨text, -, hread⟩ := bind_ok hread
      cases hread
      exact Nat.le_refl _
    next =>
      cases hread
      dsimp only [Source.read]
      rw [List.length_drop]
      exact Nat.add_le_add_left (Nat.sub_le _ _) _
  | readAll =>
    obtain ⟨⟨bytes, r₁⟩, hread, he⟩ := bind_ok he
    cases he
    obtain ⟨left, -, hread⟩ := bind_ok hread
    obtain ⟨result, -, hread⟩ := bind_ok hread
    split at hread
    next => cases hread
    next =>
      obtain ⟨⟨result', source'⟩, hrest, hread⟩ := bind_ok hread
      cases hread
      have hleft := left_readRest hrest
      change 0 + source'.left.length ≤ _
      omega

theorem length_lineOf (xs : List UInt8) : (lineOf xs).length ≤ xs.length := by
  rw [lineOf]
  split
  next => exact List.length_take_le' _ _
  next => exact Nat.le_refl _

/-- A stream that fits into the indexes is read without limits. -/
theorem runOk_of_short {ops : List Op} (h : Good r) (hshort : r.buffer.size + r.r.left.length ≤ 2 ^ 31) :
    RunOk r ops := by
  induction ops generalizing r with
  | nil => trivial
  | cons op ops ih =>
    have hlength := h.length_kept
    have hinside := h.inside
    have hplace : r.kept = [] ∨ r.start < 2 ^ 31 := by
      by_cases hlt : r.start < 2 ^ 31
      · exact .inr hlt
      · exact .inl (List.eq_nil_of_length_eq_zero (by omega))
    have hok : OpOk r op := by
      cases op with
      | readLine =>
        have hline := length_lineOf r.rest
        have hkept := length_lineOf r.kept
        have hrest : r.rest.length = r.kept.length + r.r.left.length := List.length_append
        exact ⟨by omega, .inr (by omega)⟩
      | read cap => exact .inr hplace
      | readAll => exact ⟨hplace, fun k hk => by omega⟩
    refine ⟨hok, fun result r' hreturns => ?_⟩
    obtain ⟨result₁, r₁, hstep, hgood, -⟩ := step_ok h hok
    cases hreturns.unique hstep
    obtain ⟨n, hn⟩ := hstep
    exact ih hgood (Nat.le_trans (total_step (hn n (Nat.le_refl n))) hshort)

/-- What is returned, one after the other, and what is left are the whole stream. -/
theorem Delivered.append_eq {ops : List Op} {before after : List UInt8} {results : List (Option (List UInt8))}
    (h : Delivered ops before results after) : before = results.flatMap (·.getD []) ++ after := by
  induction h with
  | nil bytes => rfl
  | cons hdelivers _ ih => rw [hdelivers.1, List.flatMap_cons, List.append_assoc, ← ih]

/-- A run of reads, lines and all that is left, each as it was in the stream. -/
theorem run_delivers {ops : List Op} (hok : RunOk (init reader) ops) :
    ∃ results r', Returns (fun fuel => run fuel (init reader) ops) (.ok (results, r')) ∧
      Delivered ops reader.left results r'.rest ∧ reader.left = results.flatMap (·.getD []) ++ r'.rest := by
  obtain ⟨results, r', hreturns, hdelivered⟩ := run_ok (good_init reader) hok
  rw [rest_init] at hdelivered
  exact ⟨results, r', hreturns, hdelivered, hdelivered.append_eq⟩

/-- Two lines, in reads of two bytes: the first line, a byte of the second and then the rest of it. -/
theorem line_byte_and_rest_delivered : ∃ results r',
    Returns (fun fuel => run fuel (init ⟨[97, 10, 98, 99], fun _ => 1⟩) [.readLine, .read 1, .readAll])
      (.ok (results, r')) ∧
      Delivered [.readLine, .read 1, .readAll] [97, 10, 98, 99] results r'.rest ∧
      [97, 10, 98, 99] = results.flatMap (·.getD []) ++ r'.rest :=
  @run_delivers ⟨[97, 10, 98, 99], fun _ => 1⟩ _ (runOk_of_short (good_init _) (by decide))

/-- A line that is returned has at most 2 ^ 31 bytes. -/
theorem length_readLine {line : List UInt8} (he : r.readLine fuel = .ok (some line, r')) :
    line.length ≤ 2 ^ 31 := by
  induction fuel generalizing r with
  | zero => cases he
  | succ fuel ih =>
    obtain ⟨found, hfind, he⟩ := bind_ok he
    cases found with
    | some i =>
      obtain ⟨text, hstring, he⟩ := bind_ok he
      cases he
      have hlt := of_findNewline hfind
      rw [length_string hstring]
      omega
    | none =>
      obtain ⟨⟨bytes, r₁⟩, hblock, he⟩ := bind_ok he
      obtain ⟨hstart, hsize, -⟩ := of_readBlock hblock
      dsimp only at he
      split at he
      next hnone =>
        split at he
        next => cases he
        next =>
          obtain ⟨text, hstring, he⟩ := bind_ok he
          cases he
          have hscanned := of_findNewline hfind
          rw [hnone, List.length_nil] at hsize
          rw [length_string hstring]
          omega
      next => exact ih he

/-- A longer line is not returned. -/
theorem long_line_fails (hlong : 2 ^ 31 < reader.left.length) (hno : 10 ∉ reader.left)
    {results : List (Option (List UInt8))}
    (hreturns : Returns (fun fuel => run fuel (init reader) [.readLine]) (.ok (results, r'))) :
    ¬Delivered [.readLine] reader.left results r'.rest := by
  intro hdelivered
  obtain ⟨n, hn⟩ := hreturns
  obtain ⟨⟨result, r₁⟩, hline, hrun⟩ := bind_ok (hn n (Nat.le_refl n))
  cases hrun
  obtain - | ⟨hdelivers, hrest⟩ := hdelivered
  cases result with
  | none =>
    rw [hdelivers.2] at hlong
    exact absurd hlong (by decide)
  | some line =>
    have hshort := length_readLine hline
    rcases hdelivers.2 with ⟨text, hends, -⟩ | ⟨-, -, hafter⟩
    · have hmem : (10 : UInt8) ∈ reader.left := by
        rw [hdelivers.1]
        simp [hends]
      exact hno hmem
    · have hall := congrArg List.length hdelivers.1
      rw [hafter, List.append_nil] at hall
      exact absurd hshort (Nat.not_le_of_lt (Nat.lt_of_lt_of_eq hlong hall))

theorem endless_line_not_delivered : ¬ ∀ (reader : Source) (ops : List Op), ∃ results r',
    Returns (fun fuel => run fuel (init reader) ops) (.ok (results, r')) ∧
      Delivered ops reader.left results r'.rest := by
  intro hall
  obtain ⟨results, r', hreturns, hdelivered⟩ := hall ⟨List.replicate (2 ^ 31 + 1) 97, fun _ => 1023⟩ [.readLine]
  refine long_line_fails (Nat.lt_of_lt_of_eq (by decide) List.length_replicate.symm) (fun hmem => ?_) hreturns hdelivered
  exact absurd (List.eq_of_mem_replicate hmem) (by decide)

end LineReader

end Crack
