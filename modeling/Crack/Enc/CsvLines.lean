import Crack.Enc.Csv

/-!
# Rows of several lines

A row that goes on over the ends of lines, line by line and in one piece.
-/
namespace Crack

namespace Csv

open Loops (bind_ok)

/-- A row is given to `parseLine` with one line after the other. -/
def feed (row : CSVStringArray) (lines : List (List UInt8)) : Except Stop CSVStringArray :=
  lines.foldlM CSVStringArray.parseLine row

/-- Every line end in a text lies inside a quoted field. -/
def EndsQuoted (row : CSVStringArray) (text : List UInt8) : Prop :=
  ∀ line rest, text = line ++ 10 :: rest → (row.cursor.read line).state = .quoted

/-- The lines of a text give the same row as the text. -/
def Same (row : CSVStringArray) (text : List UInt8) : Prop :=
  ∃ row', feed row (text.splitOn 10) = .ok row' ∧ row.parseLine text = .ok row'

variable {c : Cursor} {row row' : CSVStringArray} {text line rest : List UInt8} {lines : List (List UInt8)}

theorem endsQuoted_iff (row : CSVStringArray) (text : List UInt8) :
    EndsQuoted row text ↔
      ∀ k < text.length, text[k]? = some 10 → (row.cursor.read (text.take k)).state = .quoted := by
  constructor
  · intro hends k hk hnewline
    refine hends (text.take k) (text.drop (k + 1)) ?_
    obtain ⟨hlt, hbyte⟩ := List.getElem?_eq_some_iff.mp hnewline
    rw [← hbyte, ← List.drop_eq_getElem_cons, List.take_append_drop]
  · rintro hends line rest rfl
    have hlt : line.length < (line ++ 10 :: rest).length := by
      rw [List.length_append, List.length_cons]
      omega
    have hnewline : (line ++ 10 :: rest)[line.length]? = some 10 := by
      rw [List.getElem?_append_right (Nat.le_refl _), Nat.sub_self]
      rfl
    have hquoted := hends line.length hlt hnewline
    rwa [List.take_left] at hquoted

instance (row : CSVStringArray) (text : List UInt8) : Decidable (EndsQuoted row text) :=
  decidable_of_iff _ (endsQuoted_iff row text).symm

/-- The next line goes on behind the newline. -/
theorem Cursor.cursor_row (h : c.state = .quoted) : c.row.cursor = c.step 10 ∧ c.row.Open := by
  obtain ⟨state, fields, col⟩ := c
  cases h
  refine ⟨?_, .inr rfl⟩
  change CSVStringArray.cursor ⟨fields ++ [col ++ [10]], true⟩ = _
  rw [CSVStringArray.cursor]
  dsimp only
  rw [List.getLast?_concat, List.dropLast_concat]
  rfl

theorem Cursor.row_fields (c : Cursor) : c.row.fields ≠ [] := by
  rw [row]
  split
  · exact List.concat_ne_nil _ _
  · exact List.concat_ne_nil _ _

theorem Cursor.read_length (c : Cursor) (text : List UInt8) :
    (c.read text).col.length ≤ c.col.length + text.length := by
  induction text generalizing c with
  | nil => exact Nat.le_refl _
  | cons ch text ih =>
    have hstep := c.step_length ch
    have hrest := ih (c.step ch)
    rw [List.length_cons, Cursor.read, List.foldl_cons]
    rw [Cursor.read] at hrest
    omega

/-- The end of a line that is looped over, and what is looped over behind it. -/
theorem intSize_add {m n : Nat} (h : m ≤ intSize (m + n)) : intSize (m + n) = m + intSize n := by
  rw [intSize] at h ⊢
  by_cases hlt : uint (m + n) < 2 ^ 31
  · rw [if_pos hlt] at h ⊢
    have hsum : uint (m + n) = m + uint n := by
      unfold uint at h hlt ⊢
      omega
    rw [hsum, intSize, if_pos (by omega)]
  · rw [if_neg hlt] at h ⊢
    have hzero : m = 0 := Nat.le_zero.mp h
    rw [hzero, Nat.zero_add] at hlt ⊢
    rw [intSize, if_neg hlt]

theorem feed_cons (he : row.parseLine line = .ok row') : feed row (line :: lines) = feed row' lines := by
  rw [feed, List.foldlM_cons, he]
  rfl

theorem feed_singleton (row : CSVStringArray) (line : List UInt8) : feed row [line] = row.parseLine line := by
  rw [feed, List.foldlM_cons]
  exact bind_pure _

/-- The first line of a text that has a line end. -/
theorem first_line (h : 10 ∈ text) :
    ∃ line rest, text = line ++ 10 :: rest ∧ 10 ∉ line ∧ text.splitOn 10 = line :: rest.splitOn 10 := by
  obtain ⟨line, rest, rfl, hline⟩ := List.eq_append_cons_of_mem h
  exact ⟨line, rest, rfl, hline, List.splitOn_append_cons_self_of_not_mem hline rest⟩

/-- All the lines are read as the text is, if no line end is beyond what is looped over. -/
theorem feed_lines (hopen : row.Open) (hends : EndsQuoted row text)
    (hroom : row.cursor.col.length + intSize text.length < 2 ^ 31) (hlast : 10 ∉ text.drop (intSize text.length)) :
    feed row (text.splitOn 10) = .ok (row.cursor.read (text.take (intSize text.length))).row := by
  induction hn : text.length using Nat.strongRecOn generalizing row text with
  | ind n ih =>
    subst hn
    by_cases hnewline : 10 ∈ text
    · obtain ⟨line, rest, rfl, hline, hsplit⟩ := first_line hnewline
      have hlength : (line ++ 10 :: rest).length = line.length + 1 + rest.length := by
        rw [List.length_append, List.length_cons]
        omega
      have hseen : line.length + 1 ≤ intSize (line ++ 10 :: rest).length := by
        by_contra hlt
        refine hlast ?_
        rw [List.drop_append_of_le_length (by omega)]
        exact List.mem_append_right _ List.mem_cons_self
      rw [hlength] at hseen
      have hsize := intSize_add hseen
      rw [hlength, hsize] at hroom hlast ⊢
      have hsmall := intSize_lt (line.length + 1 + rest.length)
      have hend : line ++ 10 :: rest = line ++ [10] ++ rest := List.append_cons ..
      have hlen : (line ++ [10]).length = line.length + 1 := by rw [List.length_append, List.length_singleton]
      have hparse := parseLine_total row line hopen (by
        rw [intSize_of_lt (by omega)]
        omega)
      rw [take_intSize (by omega)] at hparse
      obtain ⟨hcursor, hopen'⟩ := Cursor.cursor_row (hends line rest rfl)
      have hnext : (row.cursor.read line).row.cursor = row.cursor.read (line ++ [10]) := by
        rw [hcursor, Cursor.read_append]
        rfl
      have hcol := row.cursor.read_length (line ++ [10])
      rw [hlen] at hcol
      rw [hend, ← hlen, List.drop_append, List.drop_of_length_le (by omega), List.nil_append, Nat.add_sub_cancel_left]
        at hlast
      have hrest := ih rest.length (by omega) hopen' (by
        intro line' rest' heq
        rw [hnext, ← Cursor.read_append]
        refine hends _ rest' ?_
        rw [heq, List.append_assoc, List.append_assoc]
        rfl) (by
        rw [hnext]
        omega) hlast rfl
      rw [hsplit, feed_cons hparse, hrest, hnext, ← Cursor.read_append, hend, ← hlen, List.take_length_add_append]
    · rw [List.splitOn_eq_singleton hnewline, feed_singleton]
      exact parseLine_total row text hopen hroom

/-- The number of newlines in the fields of a row. -/
def CSVStringArray.newlines (row : CSVStringArray) : Nat := row.fields.flatten.count 10

def Cursor.newlines (c : Cursor) : Nat := c.fields.flatten.count 10 + c.col.count 10

theorem Cursor.push_newlines (c : Cursor) : c.push.newlines = c.newlines := by
  rw [newlines, push, List.flatten_append, List.count_append, List.flatten_singleton]
  rfl

theorem Cursor.append_newlines (c : Cursor) (ch : UInt8) (state : State) :
    (c.append ch state).newlines = c.newlines + [ch].count 10 := by
  rw [newlines, append, List.count_append, newlines, Nat.add_assoc]

theorem Cursor.step_newlines (c : Cursor) (ch : UInt8) : (c.step ch).newlines = c.newlines + [ch].count 10 := by
  obtain ⟨rfl, state, hstep⟩ | ⟨rfl, hstep⟩ | ⟨state, hstep⟩ := c.step_cases ch
  · rw [hstep]
    rfl
  · rw [hstep, push_newlines]
    rfl
  · rw [hstep, append_newlines]

theorem Cursor.read_newlines (c : Cursor) (text : List UInt8) :
    (c.read text).newlines = c.newlines + text.count 10 := by
  induction text generalizing c with
  | nil => rfl
  | cons ch text ih =>
    have hcount : ([ch] ++ text).count 10 = [ch].count 10 + text.count 10 := List.count_append
    change ((c.step ch).read text).newlines = _
    rw [ih, step_newlines, Nat.add_assoc, ← hcount]
    rfl

theorem Cursor.row_newlines (c : Cursor) : c.row.newlines = c.newlines + c.row.incomplete.toNat := by
  rw [row]
  split
  · rw [CSVStringArray.newlines, newlines, List.flatten_append, List.count_append, List.flatten_singleton,
      List.count_append]
    rfl
  · rw [CSVStringArray.newlines, newlines, List.flatten_append, List.count_append, List.flatten_singleton]
    rfl

theorem CSVStringArray.cursor_newlines (row : CSVStringArray) : row.cursor.newlines = row.newlines := by
  rw [cursor]
  split
  next last hlast =>
    have hfields : row.fields.dropLast ++ [last] = row.fields := List.dropLast_append_getLast? last hlast
    calc row.fields.dropLast.flatten.count 10 + last.count 10
        = (row.fields.dropLast ++ [last]).flatten.count 10 := by
          rw [List.flatten_append, List.count_append, List.flatten_singleton]
      _ = row.newlines := by
          rw [hfields]
          rfl
  next hnone => rfl

/-- Every newline that is read is in a field, and one more if the row is incomplete. -/
theorem parseLine_newlines (he : row.parseLine line = .ok row') :
    row'.newlines = row.newlines + (line.take (intSize line.length)).count 10 + row'.incomplete.toNat := by
  obtain ⟨-, hrow⟩ := parseLine_only he
  rw [hrow, Cursor.row_newlines, Cursor.read_newlines, CSVStringArray.cursor_newlines]

theorem feed_newlines (he : feed row (text.splitOn 10) = .ok row') :
    row.Open ∧ row'.newlines = row.newlines + text.count 10 + row'.incomplete.toNat := by
  have hnone : ∀ {xs : List UInt8} (n : Nat), 10 ∉ xs → (xs.take n).count 10 = 0 := by
    intro xs n h
    exact List.count_eq_zero.mpr fun hmem => h (List.mem_of_mem_take hmem)
  induction hn : text.length using Nat.strongRecOn generalizing row text with
  | ind n ih =>
    subst hn
    by_cases hnewline : 10 ∈ text
    · obtain ⟨line, rest, rfl, hline, hsplit⟩ := first_line hnewline
      rw [hsplit] at he
      obtain ⟨row₁, hparse, he⟩ := bind_ok he
      obtain ⟨hopen₁, hrest⟩ := ih rest.length (by
        rw [List.length_append, List.length_cons]
        omega) he rfl
      have hcount := parseLine_newlines hparse
      obtain ⟨hopen, hrow⟩ := parseLine_only hparse
      have hincomplete : row₁.incomplete = true := by
        refine hopen₁.resolve_left ?_
        rw [hrow]
        exact Cursor.row_fields _
      rw [hnone _ hline, hincomplete, Bool.toNat_true] at hcount
      refine ⟨hopen, ?_⟩
      rw [hrest, hcount, List.count_append, List.count_cons_self, List.count_eq_zero.mpr hline]
      omega
    · rw [List.splitOn_eq_singleton hnewline, feed_singleton] at he
      have hcount := parseLine_newlines he
      rw [hnone _ hnewline] at hcount
      rw [List.count_eq_zero.mpr hnewline]
      exact ⟨(parseLine_only he).1, hcount⟩

/-- A line end beyond what is looped over is only found line by line. -/
theorem not_beyond (h : Same row text) : 10 ∉ text.drop (intSize text.length) := by
  obtain ⟨row', hlines, htext⟩ := h
  obtain ⟨-, hcount⟩ := feed_newlines hlines
  have hcount' := parseLine_newlines htext
  have hsplit : text.count 10 =
      (text.take (intSize text.length)).count 10 + (text.drop (intSize text.length)).count 10 := by
    rw [← List.count_append, List.take_append_drop]
  exact List.count_eq_zero.mp (by omega)

/-- The lines give the same row as the text exactly when no line end is beyond what is looped over. -/
theorem feed_iff (row : CSVStringArray) (text : List UInt8) (hopen : row.Open) (hends : EndsQuoted row text)
    (hroom : row.cursor.col.length + intSize text.length < 2 ^ 31) :
    Same row text ↔ 10 ∉ text.drop (intSize text.length) := by
  refine ⟨not_beyond, fun hlast => ?_⟩
  exact ⟨_, feed_lines hopen hends hroom hlast, parseLine_total row text hopen hroom⟩

/-- A quoted field with an empty line in it and a doubled quote before a line end. -/
theorem three_lines_same :
    Same ⟨[], false⟩ [97, 44, 34, 34, 34, 10, 10, 44, 34, 44, 98] ↔
      10 ∉ ([97, 44, 34, 34, 34, 10, 10, 44, 34, 44, 98] : List UInt8).drop
        (intSize ([97, 44, 34, 34, 34, 10, 10, 44, 34, 44, 98] : List UInt8).length) :=
  feed_iff ⟨[], false⟩ _ (.inl rfl) (by decide) (by decide)

/-- The end of the first line, beyond what is looped over in 2 ^ 31 bytes. -/
theorem long_line_lost :
    ¬ Same ⟨[], false⟩ (34 :: 10 :: List.replicate (2 ^ 31) 97) ∧
      EndsQuoted ⟨[], false⟩ (34 :: 10 :: List.replicate (2 ^ 31) 97) := by
  generalize hbytes : List.replicate (2 ^ 31) (97 : UInt8) = bytes
  have hends : EndsQuoted ⟨[], false⟩ (34 :: 10 :: bytes) := by
    intro line rest heq
    match line with
    | [] => cases heq
    | [ch] =>
      cases heq
      rfl
    | ch :: ch' :: line =>
      injection heq with _ heq
      injection heq with _ heq
      have hmem : 10 ∈ bytes := by
        rw [heq]
        exact List.mem_append_right _ List.mem_cons_self
      rw [← hbytes] at hmem
      exact absurd (List.eq_of_mem_replicate hmem) (by decide)
  refine ⟨?_, hends⟩
  have hzero : intSize (34 :: 10 :: bytes).length = 0 := by
    rw [List.length_cons, List.length_cons, ← hbytes, List.length_replicate]
    exact intSize_of_ge (by decide) (by decide)
  intro hsame
  refine not_beyond hsame ?_
  rw [hzero]
  exact List.mem_cons_of_mem _ List.mem_cons_self

end Csv

end Crack
