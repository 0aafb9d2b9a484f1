import Crack.Parser.TokerProgress
import Mathlib.Order.Bounds.Basic
import Mathlib.Order.Lattice
import Mathlib.Data.List.Forall2

/-!
# Indented strings

The two loops over an indented string, by its lines: what is measured, what is stripped,
and when all lines are moved by the width of the smallest one.
-/
namespace Crack

namespace Lexer

section Lines

variable {first line val : List UInt8} {ls : List (List UInt8)} {ch : UInt8}

def lines (val : List UInt8) : List (List UInt8) := val.splitOn (chr '\n')

/-- The text after the leading blanks. -/
def body (line : List UInt8) : List UInt8 := line.dropWhile isBlank

def advance (column : Nat) (ch : UInt8) : Nat :=
  if ch = chr '\t' then (column / tabWidth + 1) * tabWidth else column + 1

/-- The width of the leading blanks. -/
def width (line : List UInt8) : Nat := (line.takeWhile isBlank).foldl advance 0

def unlines : List (List UInt8) → List UInt8
  | [] => []
  | line :: ls => chr '\n' :: (line ++ unlines ls)

theorem lines_unlines (hfirst : chr '\n' ∉ first) (hls : ∀ line ∈ ls, chr '\n' ∉ line) :
    lines (first ++ unlines ls) = first :: ls := by
  induction ls generalizing first with
  | nil => rw [unlines, List.append_nil, lines, List.splitOn_eq_singleton hfirst]
  | cons line ls ih =>
    rw [unlines, lines, List.splitOn_append_cons_self_of_not_mem hfirst]
    exact congrArg _ (ih (hls line List.mem_cons_self) fun l hl => hls l (List.mem_cons_of_mem _ hl))

/-- Every text is its lines. -/
theorem exists_lines (val : List UInt8) : ∃ first ls, lines val = first :: ls ∧ val = first ++ unlines ls ∧
    chr '\n' ∉ first ∧ ∀ line ∈ ls, chr '\n' ∉ line := by
  induction val with
  | nil => exact ⟨[], [], rfl, rfl, List.not_mem_nil, fun _ h => nomatch h⟩
  | cons ch val ih =>
    obtain ⟨first, ls, -, hval, hfirst, hls⟩ := ih
    by_cases hch : ch = chr '\n'
    · have hls' : ∀ line ∈ first :: ls, chr '\n' ∉ line := List.forall_mem_cons.mpr ⟨hfirst, hls⟩
      have heq : ch :: val = [] ++ unlines (first :: ls) := by rw [hch, hval, unlines, List.nil_append]
      exact ⟨[], first :: ls, by rw [heq, lines_unlines List.not_mem_nil hls'], heq, List.not_mem_nil, hls'⟩
    · have hfirst' : chr '\n' ∉ ch :: first := by
        simp only [List.mem_cons, hfirst, or_false]
        exact fun h => hch h.symm
      have heq : ch :: val = (ch :: first) ++ unlines ls := by rw [hval, List.cons_append]
      exact ⟨ch :: first, ls, by rw [heq, lines_unlines hfirst' hls], heq, hfirst', hls⟩

theorem body_cons_blank (h : isBlank ch = true) : body (ch :: line) = body line := by
  rw [body, List.dropWhile_cons_of_pos h, body]

theorem body_cons (h : isBlank ch = false) : body (ch :: line) = ch :: line :=
  List.dropWhile_cons_of_neg (Bool.eq_false_iff.mp h)

theorem takeWhile_append_body (line : List UInt8) : line.takeWhile isBlank ++ body line = line :=
  List.takeWhile_append_dropWhile

end Lines

section Loops

variable {first line val : List UInt8} {ls : List (List UInt8)} {column m : Nat}

/-- The widths that are compared: those of lines with text, and that of the blanks at the end. -/
def counted : List (List UInt8) → List Nat
  | [] => []
  | line :: ls => (if body line ≠ [] ∨ ls = [] ∧ width line ≠ 0 then [width line] else []) ++ counted ls

def spaces (n : Nat) : List UInt8 := List.replicate n (chr ' ')

/-- The lines without their indentation. Blank lines become empty, but for the last one. -/
def fixLines (m : Nat) : List (List UInt8) → List (List UInt8)
  | [] => []
  | line :: ls =>
    (if body line ≠ [] ∨ ls = [] then spaces (dedent (width line) m) ++ body line else []) :: fixLines m ls

theorem not_newline {ch : UInt8} (h : chr '\n' ∉ ch :: line) : ch ≠ chr '\n' ∧ chr '\n' ∉ line :=
  (List.ne_and_not_mem_of_not_mem_cons h).imp_left Ne.symm

/-- A loop goes over the blanks of a line and then over its text. -/
theorem blank_cases (ch : UInt8) : ch = chr ' ' ∨ ch = chr '\t' ∨ isBlank ch = false := by
  by_cases hspace : ch = chr ' '
  · exact .inl hspace
  by_cases htab : ch = chr '\t'
  · exact .inr (.inl htab)
  · refine .inr (.inr ?_)
    rw [isBlank, Bool.or_eq_false_iff, decide_eq_false_iff_not, decide_eq_false_iff_not]
    exact ⟨hspace, htab⟩

theorem not_blank {ch : UInt8} (h : isBlank ch = false) : ch ≠ chr ' ' ∧ ch ≠ chr '\t' := by
  constructor <;> rintro rfl <;> cases h

/-- What comes before a line does not matter to it. -/
theorem evaluateLoop_newline (pending : Option Nat) :
    evaluateLoop (chr '\n' :: val) pending m = evaluateLoop val (some 0) m := by
  cases pending <;> rfl

theorem fixLoop_newline (pending : Option Nat) : fixLoop m (chr '\n' :: val) pending =
    (if pending.isSome then [chr '\n'] else []) ++ fixLoop m val (some 0) := by
  cases pending <;> rfl

theorem evaluateLoop_text (h : chr '\n' ∉ first) :
    evaluateLoop (first ++ val) none m = evaluateLoop val none m := by
  induction first with
  | nil => rfl
  | cons ch first ih =>
    obtain ⟨hch, hfirst⟩ := not_newline h
    rw [List.cons_append, evaluateLoop, if_neg hch]
    exact ih hfirst

theorem evaluateLoop_line (h : chr '\n' ∉ line) : evaluateLoop (line ++ val) (some column) m =
    if body line = [] then evaluateLoop val (some ((line.takeWhile isBlank).foldl advance column)) m
    else evaluateLoop val none (min ((line.takeWhile isBlank).foldl advance column) m) := by
  induction line generalizing column with
  | nil => rfl
  | cons ch line ih =>
    obtain ⟨hch, hline⟩ := not_newline h
    rw [List.cons_append, evaluateLoop, if_neg hch]
    rcases blank_cases ch with rfl | rfl | hblank
    · exact ih hline
    · exact ih hline
    · obtain ⟨hspace, htab⟩ := not_blank hblank
      rw [if_neg hspace, if_neg htab, body_cons hblank, if_neg (List.cons_ne_nil _ _),
        List.takeWhile_cons_of_neg (Bool.eq_false_iff.mp hblank), evaluateLoop_text hline, List.foldl_nil]
      congr 1
      split <;> omega

/-- What is made of the end of the loop. -/
def settled : Option Nat × Nat → Nat
  | (some indent, m) => if indent ≠ 0 ∧ indent < m then indent else m
  | (none, m) => m

theorem evaluateIndentation_eq (val : List UInt8) (i : Indent) :
    evaluateIndentation val i = { i with minIndentLevel := settled (evaluateLoop val none i.minIndentLevel) } := by
  unfold evaluateIndentation settled
  split <;> simp only [*]

theorem evaluateLoop_unlines_cons (pending : Option Nat) (hline : chr '\n' ∉ line) :
    evaluateLoop (unlines (line :: ls)) pending m =
      if body line = [] then evaluateLoop (unlines ls) (some (width line)) m
      else evaluateLoop (unlines ls) none (min (width line) m) := by
  rw [unlines, evaluateLoop_newline, evaluateLoop_line hline]
  rfl

/-- The minimum of the widths that count is left. -/
theorem settled_unlines {pending : Option Nat} (hls : ∀ l ∈ line :: ls, chr '\n' ∉ l) :
    settled (evaluateLoop (unlines (line :: ls)) pending m) = (counted (line :: ls)).foldl min m := by
  induction ls generalizing line pending m with
  | nil =>
    rw [evaluateLoop_unlines_cons _ (hls line List.mem_cons_self), counted]
    by_cases hbody : body line = []
    · by_cases hwidth : width line = 0 <;>
        simp only [hbody, hwidth, unlines, evaluateLoop, settled, counted, ne_eq, not_true_eq_false, false_or, true_and,
          if_true, if_false, List.append_nil, List.foldl_nil, List.foldl_cons, false_and, and_false, not_false_eq_true]
      split <;> omega
    · simp only [hbody, unlines, evaluateLoop, settled, counted, ne_eq, not_false_eq_true, true_or, if_true, if_false,
        List.append_nil, List.foldl_nil, List.foldl_cons]
      exact Nat.min_comm _ _
  | cons next ls ih =>
    obtain ⟨hline, hrest⟩ := List.forall_mem_cons.mp hls
    rw [evaluateLoop_unlines_cons _ hline, counted]
    by_cases hbody : body line = []
    · rw [if_pos hbody, ih hrest, if_neg (by simp [hbody]), List.nil_append]
    · rw [if_neg hbody, ih hrest, if_pos (.inl hbody), List.singleton_append, List.foldl_cons, Nat.min_comm]

theorem fixLoop_text (h : chr '\n' ∉ first) : fixLoop m (first ++ val) none = first ++ fixLoop m val none := by
  induction first with
  | nil => rfl
  | cons ch first ih =>
    obtain ⟨hch, hfirst⟩ := not_newline h
    rw [List.cons_append, fixLoop, if_neg hch]
    exact congrArg _ (ih hfirst)

theorem fixLoop_line (h : chr '\n' ∉ line) : fixLoop m (line ++ val) (some column) =
    if body line = [] then fixLoop m val (some ((line.takeWhile isBlank).foldl advance column))
    else chr '\n' :: (spaces (dedent ((line.takeWhile isBlank).foldl advance column) m) ++ body line) ++
      fixLoop m val none := by
  induction line generalizing column with
  | nil => rfl
  | cons ch line ih =>
    obtain ⟨hch, hline⟩ := not_newline h
    rw [List.cons_append, fixLoop, if_neg hch]
    rcases blank_cases ch with rfl | rfl | hblank
    · exact ih hline
    · exact ih hline
    · obtain ⟨hspace, htab⟩ := not_blank hblank
      rw [if_neg hspace, if_neg htab, body_cons hblank, if_neg (List.cons_ne_nil _ _),
        List.takeWhile_cons_of_neg (Bool.eq_false_iff.mp hblank), fixLoop_text hline, List.foldl_nil]
      simp only [spaces, List.cons_append, List.append_assoc]

theorem fixLines_text (h : body line ≠ []) :
    fixLines m (line :: ls) = (spaces (dedent (width line) m) ++ body line) :: fixLines m ls := by
  rw [fixLines, if_pos (Or.inl h)]

theorem fixLines_blank {next : List UInt8} (h : body line = []) :
    fixLines m (line :: next :: ls) = [] :: fixLines m (next :: ls) := by
  rw [fixLines, if_neg (by simp [h])]

theorem fixLines_last : fixLines m [line] = [spaces (dedent (width line) m) ++ body line] := by
  rw [fixLines, if_pos (Or.inr rfl), fixLines]

theorem fixLoop_unlines (hls : ∀ l ∈ line :: ls, chr '\n' ∉ l) :
    fixLoop m (line ++ unlines ls) (some 0) = unlines (fixLines m (line :: ls)) := by
  induction ls generalizing line with
  | nil =>
    rw [fixLoop_line (hls line List.mem_cons_self), fixLines_last]
    by_cases hbody : body line = []
    · rw [if_pos hbody, hbody]
      simp only [unlines, List.append_nil]
      rfl
    · rw [if_neg hbody, unlines, unlines]
      rfl
  | cons next ls ih =>
    obtain ⟨hline, hrest⟩ := List.forall_mem_cons.mp hls
    rw [fixLoop_line hline, unlines, fixLoop_newline, fixLoop_newline, ih hrest]
    by_cases hbody : body line = []
    · rw [fixLines_blank hbody]
      exact if_pos hbody
    · rw [fixLines_text hbody]
      exact if_neg hbody

theorem fixIndentation_unlines (i : Indent) (hfirst : chr '\n' ∉ first) (hls : ∀ l ∈ ls, chr '\n' ∉ l) :
    fixIndentation (first ++ unlines ls) i = first ++ unlines (fixLines i.minIndentLevel ls) := by
  rw [fixIndentation, fixLoop_text hfirst]
  cases ls with
  | nil => rfl
  | cons line ls =>
    rw [unlines, fixLoop_newline, fixLoop_unlines hls]
    rfl

theorem evaluateIndentation_unlines (i : Indent) (hfirst : chr '\n' ∉ first) (hls : ∀ l ∈ ls, chr '\n' ∉ l) :
    evaluateIndentation (first ++ unlines ls) i =
      { i with minIndentLevel := (counted ls).foldl min i.minIndentLevel } := by
  rw [evaluateIndentation_eq, evaluateLoop_text hfirst]
  cases ls with
  | nil => rfl
  | cons line ls => rw [settled_unlines hls]

end Loops

section Fixed

variable {line : List UInt8} {ls : List (List UInt8)} {m : Nat} {followed : Bool} {n : Nat}

/-- The widths of the lines that are not blank. At the end a line may be `followed` by an
interpolation. -/
def widths (followed : Bool) : List (List UInt8) → List Nat
  | [] => []
  | line :: ls => (if body line ≠ [] ∨ ls = [] ∧ followed then [width line] else []) ++ widths followed ls

theorem mem_spaces {ch : UInt8} (h : ch ∈ spaces n) : ch = chr ' ' := List.eq_of_mem_replicate h

theorem isBlank_spaces : ∀ ch ∈ spaces n, isBlank ch = true := by
  intro ch h
  rw [mem_spaces h]
  rfl

theorem body_body (line : List UInt8) : body (body line) = body line := by
  induction line with
  | nil => rfl
  | cons ch line ih =>
    cases hblank : isBlank ch with
    | true => rw [body_cons_blank hblank, ih]
    | false => rw [body_cons hblank, body_cons hblank]

theorem takeWhile_body (line : List UInt8) : (body line).takeWhile isBlank = [] := by
  have h := takeWhile_append_body (body line)
  rw [body_body] at h
  simpa using h

theorem body_fixed (n : Nat) (line : List UInt8) : body (spaces n ++ body line) = body line := by
  rw [body, List.dropWhile_append_of_pos isBlank_spaces]
  exact body_body line

theorem foldl_advance_spaces (n column : Nat) : (spaces n).foldl advance column = column + n := by
  induction n generalizing column with
  | zero => rfl
  | succ n ih =>
    rw [spaces, List.replicate_succ, List.foldl_cons]
    exact (ih (column + 1)).trans (by omega)

theorem width_fixed (n : Nat) (line : List UInt8) : width (spaces n ++ body line) = n := by
  rw [width, List.takeWhile_append_of_pos isBlank_spaces, takeWhile_body, List.append_nil, foldl_advance_spaces,
    Nat.zero_add]

/-- A line becomes blank, or what it was after other blanks. -/
theorem mem_fixLines {l : List UInt8} (h : l ∈ fixLines m ls) : l = [] ∨ ∃ line ∈ ls, ∃ n, l = spaces n ++ body line := by
  induction ls with
  | nil => cases h
  | cons line ls ih =>
    rcases List.mem_cons.mp h with rfl | h
    · split
      · exact .inr ⟨line, List.mem_cons_self, _, rfl⟩
      · exact .inl rfl
    · exact (ih h).imp_right fun ⟨line', hline', hl⟩ => ⟨line', List.mem_cons_of_mem _ hline', hl⟩

theorem newline_not_mem_fixLines (hls : ∀ l ∈ ls, chr '\n' ∉ l) : ∀ l ∈ fixLines m ls, chr '\n' ∉ l := by
  intro l hl
  obtain rfl | ⟨line, hline, n, rfl⟩ := mem_fixLines hl
  · exact List.not_mem_nil
  · intro h
    rcases List.mem_append.mp h with h | h
    · exact absurd (mem_spaces h) (by decide)
    · exact hls line hline ((List.dropWhile_sublist isBlank).mem h)

theorem body_fixLines (m : Nat) (ls : List (List UInt8)) : (fixLines m ls).map body = ls.map body := by
  induction ls with
  | nil => rfl
  | cons line ls ih =>
    rw [fixLines, List.map_cons, List.map_cons, ih]
    split
    · rw [body_fixed]
    · next h => rw [not_or, not_ne_iff] at h; rw [h.1]; rfl

theorem fixLines_eq_nil : fixLines m ls = [] ↔ ls = [] := by
  cases ls <;> simp [fixLines]

/-- The lines that are not blank are those that were not; each of them is moved alone. -/
theorem widths_fixLines (followed : Bool) (m : Nat) (ls : List (List UInt8)) :
    widths followed (fixLines m ls) = (widths followed ls).map (dedent · m) := by
  induction ls with
  | nil => rfl
  | cons line ls ih =>
    rw [fixLines, widths, widths, ih, List.map_append]
    simp only [fixLines_eq_nil]
    by_cases h : body line ≠ [] ∨ ls = []
    · rw [if_pos h, body_fixed, width_fixed]
      split <;> rfl
    · rw [if_neg h]
      rw [not_or, not_ne_iff] at h
      simp [h.1, h.2, show body [] = [] from rfl]

end Fixed

section Strings

variable {i : Indent} {strs : List (List UInt8)} {val : List UInt8} {a : Nat} {w : Nat}

def evaluateAll (strs : List (List UInt8)) (i : Indent) : Indent := strs.foldl (fun i val => evaluateIndentation val i) i

/-- The strings of an i-string, or the only one of another string, are evaluated together. -/
def reindentStrings (strs : List (List UInt8)) (i : Indent) : List (List UInt8) :=
  strs.map (fixIndentation · (evaluateAll strs i))

/-- The text at the end of a string. -/
def closed (i : Indent) (val : List UInt8) : List UInt8 :=
  if i.indentedString then fixIndentation val (evaluateIndentation val i) else val

/-- The widths of the lines that are not blank; all strings but the last one are followed by an
interpolation. -/
def stringWidths : List (List UInt8) → List Nat
  | [] => []
  | val :: strs => widths (!strs.isEmpty) (lines val).tail ++ stringWidths strs

/-- Those of the lines that start with text. -/
def textWidths (strs : List (List UInt8)) : List Nat := strs.flatMap fun val => widths false (lines val).tail

/-- The last line if it is blank. -/
def trailing : List (List UInt8) → List UInt8
  | [] => []
  | [line] => if body line = [] then line else []
  | _ :: line :: ls => trailing (line :: ls)

/-- The width of the blanks after the last line end. -/
def trailingWidth (val : List UInt8) : Nat := width (trailing (lines val).tail)

/-- The first line and the text of the others. -/
structure KeepsText (val val' : List UInt8) : Prop where
  first : (lines val').head? = (lines val).head?
  length : (lines val').length = (lines val).length
  texts : (lines val').tail.map body = (lines val).tail.map body

/-- The widths to be compared: those of the lines that are not blank, and that of the smallest line
after an escaped newline. -/
def Compared (i : Indent) (strs : List (List UInt8)) : Set Nat :=
  {w | w ∈ stringWidths strs ∨ w = i.minIndentLevel ∧ w ≠ 0x7fffffff}

/-- Every line is moved by the smallest width. -/
def ReindentsRight (i : Indent) (strs : List (List UInt8)) : Prop :=
  List.Forall₂ KeepsText strs (reindentStrings strs i) ∧
    ∀ a, IsLeast (Compared i strs) a → (stringWidths (reindentStrings strs i)).map (· + a) = stringWidths strs

/-- The smallest width is that of a line with text, or of an escaped newline, unless it is positive; and
that of the blanks at the end is not less. -/
def ReindentsIf (i : Indent) (strs : List (List UInt8)) : Prop :=
  (∀ w ∈ stringWidths strs, w = 0) ∨
    ∀ a, IsLeast (Compared i strs) a →
      (a = 0 → a ∈ textWidths strs ∨ a = i.minIndentLevel) ∧
        (∀ val ∈ strs.getLast?, trailingWidth val = 0 ∨ a ≤ trailingWidth val) ∧ a ≤ i.minIndentLevel

theorem mem_counted (ls : List (List UInt8)) (w : Nat) :
    w ∈ counted ls ↔ w ∈ widths false ls ∨ w = width (trailing ls) ∧ w ≠ 0 := by
  induction ls with
  | nil =>
    simp only [counted, widths, trailing, List.not_mem_nil, false_or, false_iff, not_and, not_not]
    exact id
  | cons line ls ih =>
    cases ls with
    | nil =>
      by_cases hbody : body line = [] <;> by_cases hwidth : width line = 0 <;>
        simp [counted, widths, trailing, hbody, hwidth, show width [] = 0 from rfl]
      omega
    | cons next ls =>
      rw [counted, widths, List.mem_append, List.mem_append, ih]
      simp only [reduceCtorEq, false_and, or_false, trailing, or_assoc]

theorem mem_widths (ls : List (List UInt8)) (w : Nat) (h : w ∈ widths true ls) :
    w ∈ widths false ls ∨ w = width (trailing ls) := by
  induction ls with
  | nil => cases h
  | cons line ls ih =>
    cases ls with
    | nil =>
      by_cases hbody : body line = [] <;> simp_all [widths, trailing]
    | cons next ls =>
      rw [widths, List.mem_append] at h ⊢
      simp only [reduceCtorEq, false_and, or_false] at h ⊢
      rw [trailing, or_assoc]
      exact h.imp_right ih

theorem widths_subset (followed : Bool) (ls : List (List UInt8)) : widths false ls ⊆ widths followed ls := by
  induction ls with
  | nil => exact List.Subset.refl _
  | cons line ls ih =>
    refine List.append_subset.mpr ⟨fun w hw => List.mem_append_left _ ?_, fun w hw => List.mem_append_right _ (ih hw)⟩
    split at hw
    · next h =>
      rw [if_pos (h.imp_right fun h => absurd h.2 Bool.false_ne_true)]
      exact hw
    · cases hw

theorem trailing_mem_widths (ls : List (List UInt8)) (h : width (trailing ls) ≠ 0) :
    width (trailing ls) ∈ widths true ls := by
  induction ls with
  | nil => exact absurd rfl h
  | cons line ls ih =>
    cases ls with
    | nil =>
      by_cases hbody : body line = []
      · simp [widths, trailing, hbody]
      · exact absurd (by rw [trailing, if_neg hbody]; rfl) h
    | cons next ls => exact List.mem_append_right _ (ih h)

/-- The loops go over the lines of a string. -/
theorem fixIndentation_lines (val : List UInt8) (i : Indent) : ∃ first, (lines val).head? = some first ∧
    lines (fixIndentation val i) = first :: fixLines i.minIndentLevel (lines val).tail := by
  obtain ⟨first, ls, hlines, hval, hfirst, hls⟩ := exists_lines val
  refine ⟨first, by rw [hlines, List.head?_cons], ?_⟩
  rw [hlines, List.tail_cons, hval, fixIndentation_unlines i hfirst hls,
    lines_unlines hfirst (newline_not_mem_fixLines hls)]

theorem evaluateIndentation_lines (val : List UInt8) (i : Indent) : evaluateIndentation val i =
    { i with minIndentLevel := (counted (lines val).tail).foldl min i.minIndentLevel } := by
  obtain ⟨first, ls, hlines, hval, hfirst, hls⟩ := exists_lines val
  rw [hlines, List.tail_cons, hval, evaluateIndentation_unlines i hfirst hls]

theorem keepsText_fix (val : List UInt8) (i : Indent) : KeepsText val (fixIndentation val i) := by
  obtain ⟨first, hfirst, hlines⟩ := fixIndentation_lines val i
  have hbody := body_fixLines i.minIndentLevel (lines val).tail
  have hlen := congrArg List.length hbody
  rw [List.length_map, List.length_map, List.length_tail] at hlen
  refine ⟨by rw [hlines, hfirst, List.head?_cons], ?_, by rw [hlines]; exact hbody⟩
  have hpos : 0 < (lines val).length := by
    cases hl : lines val with
    | nil => rw [hl] at hfirst; cases hfirst
    | cons => exact Nat.succ_pos _
  rw [hlines, List.length_cons, hlen]
  omega

theorem stringWidths_map (i : Indent) (strs : List (List UInt8)) :
    stringWidths (strs.map (fixIndentation · i)) = (stringWidths strs).map (dedent · i.minIndentLevel) := by
  induction strs with
  | nil => rfl
  | cons val strs ih =>
    obtain ⟨first, -, hlines⟩ := fixIndentation_lines val i
    rw [List.map_cons, stringWidths, stringWidths, hlines, List.tail_cons, widths_fixLines, ih, List.map_append,
      List.isEmpty_map]

/-- What was compared with the smallest width so far. -/
def countedAll (strs : List (List UInt8)) : List Nat := strs.flatMap fun val => counted (lines val).tail

theorem evaluateAll_min (strs : List (List UInt8)) (i : Indent) :
    (evaluateAll strs i).minIndentLevel = (countedAll strs).foldl min i.minIndentLevel := by
  induction strs generalizing i with
  | nil => rfl
  | cons val strs ih =>
    rw [evaluateAll, List.foldl_cons, evaluateIndentation_lines, countedAll, List.flatMap_cons, List.foldl_append]
    exact ih _

/-- The width that is stripped is the smallest that was compared. -/
theorem isLeast_foldl_min (l : List Nat) (m : Nat) : IsLeast {w | w = m ∨ w ∈ l} (l.foldl min m) := by
  induction l generalizing m with
  | nil => simp
  | cons x l ih =>
    obtain ⟨hmem, hle⟩ := ih (min m x)
    rw [List.foldl_cons]
    have hleast := hle (.inl rfl)
    refine ⟨?_, ?_⟩
    · rcases hmem with h | h
      · rw [h]
        rcases Nat.le_total m x with hmx | hmx
        · exact .inl (Nat.min_eq_left hmx)
        · exact .inr (by rw [Nat.min_eq_right hmx]; exact List.mem_cons_self)
      · exact .inr (List.mem_cons_of_mem _ h)
    · rintro w (rfl | h)
      · omega
      · rcases List.mem_cons.mp h with rfl | h
        · omega
        · exact hle (.inr h)

theorem textWidths_subset (strs : List (List UInt8)) : textWidths strs ⊆ countedAll strs := by
  intro w hw
  obtain ⟨val, hval, hw⟩ := List.mem_flatMap.mp hw
  exact List.mem_flatMap.mpr ⟨val, hval, (mem_counted _ _).mpr (.inl hw)⟩

theorem zero_mem_countedAll (h : 0 ∈ countedAll strs) : 0 ∈ textWidths strs := by
  obtain ⟨val, hval, hw⟩ := List.mem_flatMap.mp h
  exact List.mem_flatMap.mpr ⟨val, hval, ((mem_counted _ _).mp hw).resolve_right fun h => h.2 rfl⟩

theorem trailing_mem_countedAll (hval : val ∈ strs) (h : trailingWidth val ≠ 0) :
    trailingWidth val ∈ countedAll strs :=
  List.mem_flatMap.mpr ⟨val, hval, (mem_counted _ _).mpr (.inr ⟨rfl, h⟩)⟩

/-- A width that is not compared is that of an interpolation at the start of a line. -/
theorem mem_countedAll_of_stringWidths (h : w ∈ stringWidths strs) (hw : w ≠ 0) : w ∈ countedAll strs := by
  induction strs with
  | nil => cases h
  | cons val strs ih =>
    rw [countedAll, List.flatMap_cons]
    rcases List.mem_append.mp h with h | h
    · refine List.mem_append_left _ ((mem_counted _ _).mpr ?_)
      cases strs with
      | nil => exact .inl h
      | cons => exact (mem_widths _ _ h).imp_right fun h => ⟨h, hw⟩
    · exact List.mem_append_right _ (ih h)

/-- A width that is compared without a line is that of the blanks at the end. -/
theorem mem_stringWidths_of_countedAll (h : w ∈ countedAll strs) :
    w ∈ stringWidths strs ∨ ∃ val ∈ strs.getLast?, w = trailingWidth val ∧ w ≠ 0 := by
  induction strs with
  | nil => cases h
  | cons val strs ih =>
    rw [countedAll, List.flatMap_cons] at h
    rcases List.mem_append.mp h with h | h
    · rcases (mem_counted _ _).mp h with h | ⟨rfl, hne⟩
      · exact .inl (List.mem_append_left _ (widths_subset _ _ h))
      · cases strs with
        | nil => exact .inr ⟨val, rfl, rfl, hne⟩
        | cons => exact .inl (List.mem_append_left _ (trailing_mem_widths _ hne))
    · refine (ih h).imp (List.mem_append_right _) ?_
      rintro ⟨last, hlast, hw⟩
      cases strs with
      | nil => cases hlast
      | cons => exact ⟨last, by rwa [List.getLast?_cons_cons], hw⟩

/-- All widths are reduced by the same amount if each of them is. -/
theorem reduced_iff (m a : Nat) (l : List Nat) :
    (l.map (dedent · m)).map (· + a) = l ↔ ∀ w ∈ l, dedent w m + a = w := by
  induction l with
  | nil => simp
  | cons w l ih => simp only [List.map_cons, List.cons.injEq, ih, List.forall_mem_cons]

theorem dedent_iff {w m a : Nat} : dedent w m + a = w ↔ (m ≤ w → a = m) ∧ (w < m → a = 0) := by
  unfold dedent
  split <;> omega

theorem reindentsIf_of_reduced (h : ∀ a, IsLeast (Compared i strs) a → ∀ w ∈ stringWidths strs,
    dedent w ((countedAll strs).foldl min i.minIndentLevel) + a = w) : ReindentsIf i strs := by
  obtain ⟨hmem, hle⟩ := isLeast_foldl_min (countedAll strs) i.minIndentLevel
  generalize (countedAll strs).foldl min i.minIndentLevel = m at h hmem hle
  refine Classical.or_iff_not_imp_left.mpr fun hzero a ha => ?_
  simp only [not_forall] at hzero
  obtain ⟨w, hw, hne⟩ := hzero
  -- a line that is not at column zero was compared, so the amount is what is stripped from it
  have ham : a = m := (dedent_iff.mp (h a ha w hw)).1 (hle (.inr (mem_countedAll_of_stringWidths hw hne)))
  subst ham
  refine ⟨fun h0 => ?_, fun val hval => ?_, hle (.inl rfl)⟩
  · subst h0
    exact hmem.symm.imp_left zero_mem_countedAll
  · by_cases htrail : trailingWidth val = 0
    · exact .inl htrail
    · exact .inr (hle (.inr (trailing_mem_countedAll (List.mem_of_getLast? hval) htrail)))

theorem reduced_of_reindentsIf (h : ReindentsIf i strs) {a w : Nat} (ha : IsLeast (Compared i strs) a)
    (hw : w ∈ stringWidths strs) : dedent w ((countedAll strs).foldl min i.minIndentLevel) + a = w := by
  obtain ⟨hmem, hle⟩ := isLeast_foldl_min (countedAll strs) i.minIndentLevel
  generalize (countedAll strs).foldl min i.minIndentLevel = m at hmem hle
  have haw : a ≤ w := ha.2 (.inl hw)
  rcases h with hzero | h
  · have := hzero w hw
    exact dedent_iff.mpr ⟨by omega, by omega⟩
  obtain ⟨hcol, htrail, hbound⟩ := h a ha
  -- what is stripped is not less than the amount
  have ham : a ≤ m := by
    rcases hmem with h | h
    · exact h ▸ hbound
    · rcases mem_stringWidths_of_countedAll h with h | ⟨val, hval, rfl, hne⟩
      · exact ha.2 (.inl h)
      · exact (htrail val hval).resolve_left hne
  have hma : m ≤ a := by
    rcases ha.1 with h | ⟨h, -⟩
    · by_cases h0 : a = 0
      · exact hle ((hcol h0).symm.imp_right fun h => textWidths_subset strs h)
      · exact hle (.inr (mem_countedAll_of_stringWidths h h0))
    · exact hle (.inl h)
  exact dedent_iff.mpr ⟨by omega, by omega⟩

end Strings

end Lexer

end Crack
