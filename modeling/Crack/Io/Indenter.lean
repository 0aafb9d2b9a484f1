import Crack.Lang.Buffers
import Crack.Lib.Loops
import Crack.Parser.Indentation

/-!
# Indenter

A formatter that puts an indentation in front of each line, however the text is cut into writes.
-/
namespace Crack

open Lexer (lines unlines exists_lines lines_unlines)
open Loops (bind_ok)

/-- The state in the wrapped formatter, and what has been sent to the underlying writer. -/
structure Indenter where
  level : BitVec 32
  indentAmount : BitVec 32
  /-- at the beginning of a line -/
  bol : Bool
  out : List UInt8
  deriving DecidableEq, Repr

namespace Indenter

def new (level indentAmount : BitVec 32) : Indenter := ⟨level, indentAmount, false, []⟩

variable (t : Indenter) {fuel start : Nat}

def send (bytes : List UInt8) : Indenter := { t with out := t.out ++ bytes }

/-- `String(indentAmount * level, b' ')`, a product of `uint`s -/
def indentation : List UInt8 := List.replicate (t.indentAmount * t.level).toNat 32

/-- The `Buffer` with these bytes. -/
def buffer (data : List UInt8) : ManagedBuffer := ⟨data, data.length⟩

/-- The inner loop, with the size compared as a `uint`: `pos` behind it, and whether there was a newline. It has
as many rounds as bytes are left. -/
def nextLine (data : List UInt8) (start : Nat) : Nat → Nat → Except Stop (Nat × Bool)
  | 0, pos => .ok (pos, false)
  | fuel + 1, pos =>
    if start + pos < uint data.length then do
      if (← (buffer data).get (start + pos)) = 10 then return (pos + 1, true) else nextLine data start fuel (pos + 1)
    else .ok (pos, false)

/-- The indentation at the beginning of a line that is not empty. -/
def beginLine (data : List UInt8) (start : Nat) : Except Stop Indenter :=
  if t.bol then do
    if (← (buffer data).get start) = 10 then return t else return { t.send t.indentation with bol := false }
  else .ok t

/-- A round of the outer loop, with `pos` behind it. -/
def writeLine (data : List UInt8) (start : Nat) : Except Stop (Indenter × Nat) := do
  let t ← t.beginLine data start
  let (pos, newline) ← nextLine data start (uint data.length - start) 0
  let part ← (buffer data).string start pos
  let t := if newline then { t.send part with bol := true } else t
  return (if t.bol then t else t.send part, pos)

def writeFrom (data : List UInt8) : Nat → Nat → Indenter → Except Stop Indenter
  | 0, _, _ => .error .forever
  | fuel + 1, start, t =>
    if start < uint data.length then do
      let (t, pos) ← t.writeLine data start
      writeFrom data fuel (start + pos) t
    else .ok t

def write (data : List UInt8) : Except Stop Indenter := writeFrom data (uint data.length + 1) 0 t

def run (t : Indenter) (writes : List (List UInt8)) : Except Stop Indenter := writes.foldlM write t

/-- A line behind a line end; an empty one is not indented. -/
def indentLine (blanks line : List UInt8) : List UInt8 := if line = [] then [] else blanks ++ line

def mapLater (f : List UInt8 → List UInt8) (text : List UInt8) : List UInt8 :=
  match lines text with
  | [] => []
  | first :: ls => first ++ unlines (ls.map f)

def indented (blanks text : List UInt8) : List UInt8 := mapLater (indentLine blanks) text

/-- An indentation of some width is deleted from each line behind a line end. -/
def unindented (width : Nat) (text : List UInt8) : List UInt8 := mapLater (List.drop width) text

/-- One indentation of a level, without a bound on the product. -/
def blanks (level indentAmount : BitVec 32) : List UInt8 := List.replicate (indentAmount.toNat * level.toNat) 32

/-- Two ways to write a text send the same bytes, the text with its lines indented. -/
def Agree (level indentAmount : BitVec 32) (text : List UInt8) (ps qs : List (List UInt8)) : Prop :=
  ∃ t u, run (new level indentAmount) ps = .ok t ∧ run (new level indentAmount) qs = .ok u ∧ t.out = u.out ∧
    t.out = indented (blanks level indentAmount) text ∧
    unindented (blanks level indentAmount).length t.out = text

/-- Each write has at most 2 ^ 31 bytes, and the product is a `uint` if there is something to indent. -/
def WritesOk (level indentAmount : BitVec 32) (ps : List (List UInt8)) : Prop :=
  (∀ data ∈ ps, data.length ≤ 2 ^ 31) ∧
    (indentAmount.toNat * level.toNat < 2 ^ 32 ∨ ∀ line ∈ (lines ps.flatten).tail, line = [])

/-- What a text is turned into, from the beginning of a line or not. -/
def emit (blanks : List UInt8) : Bool → List UInt8 → List UInt8
  | _, [] => []
  | bol, c :: text =>
    if c = 10 then c :: emit blanks true text else (if bol then blanks else []) ++ c :: emit blanks false text

def bolAfter : Bool → List UInt8 → Bool
  | bol, [] => bol
  | _, c :: text => bolAfter (decide (c = 10)) text

/-- How often there is an indentation. -/
def count : Bool → List UInt8 → Nat
  | _, [] => 0
  | bol, c :: text => if c = 10 then count true text else (if bol then 1 else 0) + count false text

variable {t} {ind text xs ys d data : List UInt8} {bol : Bool} {ls : List (List UInt8)} {first : List UInt8}

theorem emit_append : emit ind bol (xs ++ ys) = emit ind bol xs ++ emit ind (bolAfter bol xs) ys := by
  induction xs generalizing bol with
  | nil => rfl
  | cons c xs ih =>
    simp only [List.cons_append, emit, bolAfter]
    split
    next hc => rw [ih, decide_eq_true hc, List.cons_append]
    next hc => rw [ih, decide_eq_false hc, List.append_assoc, List.cons_append]

theorem bolAfter_append : bolAfter bol (xs ++ ys) = bolAfter (bolAfter bol xs) ys := by
  induction xs generalizing bol with
  | nil => rfl
  | cons c xs ih => exact ih

theorem count_append : count bol (xs ++ ys) = count bol xs + count (bolAfter bol xs) ys := by
  induction xs generalizing bol with
  | nil => rw [List.nil_append, count, Nat.zero_add, bolAfter]
  | cons c xs ih =>
    simp only [List.cons_append, count, bolAfter]
    split
    next hc => rw [ih, decide_eq_true hc]
    next hc => rw [ih, decide_eq_false hc, Nat.add_assoc]

theorem length_emit : (emit ind bol text).length = text.length + ind.length * count bol text := by
  induction text generalizing bol with
  | nil => rfl
  | cons c text ih =>
    simp only [emit, count]
    split
    · rw [List.length_cons, ih, List.length_cons]
      omega
    · rw [List.length_append, List.length_cons, ih, List.length_cons, Nat.mul_add]
      cases bol <;> simp <;> omega

/-- A text without a newline. -/
theorem emit_plain (h : 10 ∉ text) : emit ind bol text = (if bol then indentLine ind text else text) := by
  induction text generalizing bol with
  | nil => cases bol <;> rfl
  | cons c text ih =>
    obtain ⟨hc, htext⟩ := not_or.mp (mt List.mem_cons.mpr h)
    rw [emit, if_neg (Ne.symm hc), ih htext]
    cases bol
    · rfl
    · rw [if_pos rfl, if_pos rfl, if_neg Bool.false_ne_true, indentLine, if_neg (List.cons_ne_nil c text)]

theorem bolAfter_newline : bolAfter bol (xs ++ [10]) = true := by rw [bolAfter_append]; rfl

theorem bolAfter_plain (h : 10 ∉ text) (hne : text ≠ []) : bolAfter bol text = false := by
  induction text generalizing bol with
  | nil => exact absurd rfl hne
  | cons c text ih =>
    obtain ⟨hc, htext⟩ := not_or.mp (mt List.mem_cons.mpr h)
    rw [bolAfter, decide_eq_false (Ne.symm hc)]
    by_cases h0 : text = []
    · rw [h0, bolAfter]
    · exact ih htext h0

theorem get_eq {i : Nat} (hi : i < data.length) (hsmall : i < 2 ^ 31) : (buffer data).get i = .ok data[i] := by
  have hdrop : (buffer data).data.drop i = data[i] :: data.drop (i + 1) := by
    rw [ManagedBuffer.data, buffer, List.take_length, List.drop_eq_getElem_cons hi]
  exact ManagedBuffer.get_ok hdrop hsmall

theorem nextLine_spec {start pos fuel : Nat} (hsmall : uint data.length ≤ 2 ^ 31)
    (hfuel : start + pos + fuel = uint data.length)
    (hd : (data.take (uint data.length)).drop (start + pos) = d) :
    (∃ line rest, 10 ∉ line ∧ d = line ++ 10 :: rest ∧
        nextLine data start fuel pos = .ok (pos + (line.length + 1), true)) ∨
      10 ∉ d ∧ nextLine data start fuel pos = .ok (pos + d.length, false) := by
  have hle := ManagedBuffer.uint_le data.length
  induction fuel generalizing pos d with
  | zero =>
    refine .inr ?_
    have hempty : d = [] := by
      rw [← hd]
      exact List.drop_eq_nil_of_le (by rw [List.length_take]; omega)
    rw [hempty]
    exact ⟨List.not_mem_nil, rfl⟩
  | succ fuel ih =>
    have hlt : start + pos < (data.take (uint data.length)).length := by
      rw [List.length_take]
      omega
    rw [List.drop_eq_getElem_cons hlt, List.getElem_take] at hd
    rw [nextLine, if_pos (by omega), get_eq (by omega) (by omega)]
    simp only [bind, Except.bind]
    by_cases hc : data[start + pos] = 10
    · rw [hc] at hd
      rw [if_pos hc]
      exact .inl ⟨[], _, List.not_mem_nil, hd.symm, rfl⟩
    · rw [if_neg hc]
      rcases @ih _ (pos + 1) (by omega) rfl with ⟨line, rest, hline, heq, hnext⟩ | ⟨hnone, hnext⟩
      · refine .inl ⟨data[start + pos] :: line, rest, ?_, ?_, ?_⟩
        · exact fun h => (List.mem_cons.mp h).elim (fun h => hc h.symm) hline
        · rw [← hd]
          exact congrArg _ heq
        · have hsum : pos + 1 + (line.length + 1) = pos + (line.length + 1 + 1) := by omega
          rw [hnext, List.length_cons, hsum]
      · refine .inr ⟨?_, ?_⟩
        · rw [← hd]
          exact fun h => (List.mem_cons.mp h).elim (fun h => hc h.symm) hnone
        · rw [hnext, ← hd, List.length_cons, Nat.add_right_comm pos 1]
          rfl

/-- The state behind some bytes. -/
def after (t : Indenter) (xs : List UInt8) : Indenter :=
  { t with bol := bolAfter t.bol xs, out := t.out ++ emit t.indentation t.bol xs }

theorem after_nil : t.after [] = t := by
  rw [after, emit, List.append_nil]
  rfl

theorem after_append : t.after (xs ++ ys) = (t.after xs).after ys := by
  rw [after, emit_append, bolAfter_append, ← List.append_assoc]
  rfl

/-- The indentation in front of a line that is not empty. -/
def begun (t : Indenter) (line : List UInt8) : Indenter :=
  if t.bol ∧ line ≠ [] then { t.send t.indentation with bol := false } else t

theorem begun_send (h : 10 ∉ xs) : (t.begun xs).out ++ xs = t.out ++ emit t.indentation t.bol xs := by
  rw [emit_plain h, begun]
  by_cases hbol : t.bol
  · by_cases hne : xs = []
    · rw [if_neg (fun hboth => hboth.2 hne), if_pos hbol, hne]
      rfl
    · rw [if_pos ⟨hbol, hne⟩, if_pos hbol, indentLine, if_neg hne, ← List.append_assoc]
      rfl
  · rw [if_neg (fun hboth => hbol hboth.1), if_neg hbol]

theorem begun_fields : (t.begun xs).level = t.level ∧ (t.begun xs).indentAmount = t.indentAmount := by
  rw [begun]
  split <;> exact ⟨rfl, rfl⟩

theorem begun_bol (hne : xs ≠ []) : (t.begun xs).bol = false := by
  rw [begun]
  by_cases hbol : t.bol
  · rw [if_pos ⟨hbol, hne⟩]
  · rw [if_neg (fun hboth => hbol hboth.1)]
    exact Bool.eq_false_iff.mpr hbol

/-- A line with its newline. -/
theorem after_line (h : 10 ∉ xs) : { (t.begun xs).send (xs ++ [10]) with bol := true } = t.after (xs ++ [10]) := by
  obtain ⟨hlevel, hamount⟩ := @begun_fields t xs
  have hout : (t.begun xs).out ++ (xs ++ [10]) = t.out ++ emit t.indentation t.bol (xs ++ [10]) := by
    rw [emit_append, ← List.append_assoc, begun_send h, List.append_assoc]
    rfl
  simp only [send, after, hlevel, hamount, hout, bolAfter_newline]

/-- A line that goes on in the next write. -/
theorem after_part (h : 10 ∉ xs) (hne : xs ≠ []) : (t.begun xs).send xs = t.after xs := by
  obtain ⟨hlevel, hamount⟩ := @begun_fields t xs
  simp only [send, after, hlevel, hamount, begun_send h, begun_bol hne, bolAfter_plain h hne]

theorem writeLine_spec {start : Nat} (hsmall : uint data.length ≤ 2 ^ 31)
    (hd : (data.take (uint data.length)).drop start = d) (hne : d ≠ []) :
    ∃ xs rest, d = xs ++ rest ∧ xs ≠ [] ∧ t.writeLine data start = .ok (t.after xs, xs.length) := by
  have hle := ManagedBuffer.uint_le data.length
  have hpos := List.length_pos_of_ne_nil hne
  rw [← hd, List.length_drop, List.length_take] at hpos
  have hslice : ∀ {xs rest : List UInt8}, d = xs ++ rest → (buffer data).string start xs.length = .ok xs := by
    intro xs rest heq
    have hlen := congrArg List.length (hd.trans heq)
    rw [List.length_drop, List.length_take, List.length_append] at hlen
    rw [List.drop_take] at hd
    have htake := congrArg (List.take xs.length) (hd.trans heq)
    rw [List.take_take, Nat.min_eq_left (by omega), List.take_left] at htake
    rw [ManagedBuffer.string_eq (.inl (by omega)) (show start + xs.length ≤ data.length by omega)]
    exact congrArg _ htake
  have hhead : ∀ {c : UInt8} {rest : List UInt8}, d = c :: rest → (buffer data).get start = .ok c := by
    intro c rest heq
    rw [get_eq (by omega) (by omega)]
    have htake := (List.drop_eq_getElem_cons (by rw [List.length_take]; omega)).symm.trans (hd.trans heq)
    rw [List.getElem_take] at htake
    rw [(List.cons.inj htake).1]
  -- the first byte decides about the indentation
  have hbegun : ∀ {line rest : List UInt8}, 10 ∉ line → d = line ++ rest → (line = [] → rest.head? = some 10) →
      t.beginLine data start = .ok (t.begun line) := by
    intro line rest hline heq hempty
    rw [beginLine, begun]
    by_cases hbol : t.bol
    · rw [if_pos hbol]
      cases line with
      | nil =>
        obtain ⟨tail, hrest⟩ := List.head?_eq_some_iff.mp (hempty rfl)
        rw [hhead (heq.trans hrest), if_neg (fun h => h.2 rfl)]
        rfl
      | cons c line =>
        have hc : c ≠ 10 := fun h => hline (h ▸ List.mem_cons_self)
        rw [hhead heq, if_pos ⟨hbol, List.cons_ne_nil c line⟩]
        exact if_neg hc
    · rw [if_neg hbol, if_neg (fun h => hbol h.1)]
  rcases nextLine_spec hsmall (show start + 0 + (uint data.length - start) = uint data.length by omega) hd with
    ⟨line, rest, hline, heq, hnext⟩ | ⟨hnone, hnext⟩
  · have heq' : d = (line ++ [10]) ++ rest := by rw [heq, List.append_assoc]; rfl
    refine ⟨line ++ [10], rest, heq', List.concat_ne_nil _ _, ?_⟩
    have hlen : 0 + (line.length + 1) = (line ++ [10]).length := by rw [List.length_append, Nat.zero_add]; rfl
    rw [writeLine, hbegun hline heq (fun _ => rfl), hnext, hlen]
    simp only [bind, Except.bind, pure, Except.pure, hslice heq', if_true]
    rw [after_line hline]
  · refine ⟨d, [], (List.append_nil d).symm, hne, ?_⟩
    rw [writeLine, hbegun hnone (List.append_nil d).symm (fun h => absurd h hne), hnext, Nat.zero_add]
    simp only [bind, Except.bind, pure, Except.pure, hslice (List.append_nil d).symm, if_neg Bool.false_ne_true,
      begun_bol hne]
    rw [after_part hnone hne]

/-- A write comes to its end. -/
theorem writeFrom_spec (hsmall : uint data.length ≤ 2 ^ 31) (hfuel : d.length < fuel)
    (hd : (data.take (uint data.length)).drop start = d) : writeFrom data fuel start t = .ok (t.after d) := by
  have hle := ManagedBuffer.uint_le data.length
  have hlen : d.length = uint data.length - start := by
    rw [← hd, List.length_drop, List.length_take]
    omega
  induction fuel generalizing start d t with
  | zero => exact absurd hfuel (Nat.not_lt_zero _)
  | succ fuel ih =>
    rw [writeFrom]
    by_cases hempty : d = []
    · have hge : ¬start < uint data.length := by
        rw [hempty, List.length_nil] at hlen
        omega
      rw [if_neg hge, hempty, after_nil]
    · obtain ⟨xs, rest, hsplit, hne, hline⟩ := @writeLine_spec t _ _ start hsmall hd hempty
      have hpos := List.length_pos_of_ne_nil hne
      have hsum := congrArg List.length hsplit
      rw [List.length_append] at hsum
      have hrest : (data.take (uint data.length)).drop (start + xs.length) = rest := by
        rw [← List.drop_drop, hd, hsplit, List.drop_left]
      rw [if_pos (by omega), hline]
      simp only [bind, Except.bind]
      rw [ih (by omega) hrest (by omega), hsplit, after_append]

/-- Nothing gets past an index of 2 ^ 31. -/
theorem nextLine_far {start pos fuel pos' : Nat} {newline : Bool} (hlarge : 2 ^ 31 < uint data.length)
    (hfuel : start + pos + fuel = uint data.length) (hplace : start + pos ≤ 2 ^ 31)
    (h : nextLine data start fuel pos = .ok (pos', newline)) : start + pos' ≤ 2 ^ 31 := by
  induction fuel generalizing pos with
  | zero => exact absurd (hfuel ▸ hlarge) (Nat.not_lt_of_le hplace)
  | succ fuel ih =>
    rw [nextLine, if_pos (by omega)] at h
    obtain ⟨c, hget, h⟩ := bind_ok h
    have hlt : start + pos < 2 ^ 31 := by
      rw [ManagedBuffer.get] at hget
      split at hget
      next => cases hget
      next =>
        split at hget
        next => cases hget
        next hsmall => exact Nat.lt_of_not_le hsmall
    split at h
    next =>
      cases h
      exact hlt
    next => exact ih (by omega) hlt h

theorem writeFrom_far (hlarge : 2 ^ 31 < uint data.length) (hplace : start ≤ 2 ^ 31) (u : Indenter) :
    writeFrom data fuel start t ≠ .ok u := by
  induction fuel generalizing start t with
  | zero => exact fun h => nomatch h
  | succ fuel ih =>
    intro h
    rw [writeFrom, if_pos (by omega)] at h
    obtain ⟨⟨t', pos⟩, hline, h⟩ := bind_ok h
    obtain ⟨begun, -, hline⟩ := bind_ok hline
    obtain ⟨⟨pos', newline⟩, hnext, hline⟩ := bind_ok hline
    obtain ⟨part, -, hline⟩ := bind_ok hline
    cases hline
    exact ih (nextLine_far hlarge (by omega) hplace hnext) h

/-- What of the writes is sent on. -/
def kept (ps : List (List UInt8)) : List UInt8 := ps.flatMap fun data => data.take (uint data.length)

theorem run_eq {ps : List (List UInt8)} (hsmall : ∀ data ∈ ps, uint data.length ≤ 2 ^ 31) :
    run t ps = .ok (t.after (kept ps)) := by
  induction ps generalizing t with
  | nil => rw [kept, List.flatMap_nil, after_nil]; rfl
  | cons data ps ih =>
    have hwrite : write t data = .ok (t.after (data.take (uint data.length))) := by
      refine writeFrom_spec (hsmall data List.mem_cons_self) (Nat.lt_succ_of_le ?_) rfl
      rw [List.length_take]
      exact Nat.min_le_left _ _
    rw [run, List.foldlM_cons, hwrite]
    change run _ ps = _
    rw [ih fun d hd => hsmall d (List.mem_cons_of_mem _ hd), ← after_append]
    rfl

/-- A run that comes to its end has no write that is too long. -/
theorem of_run {ps : List (List UInt8)} {u : Indenter} (h : run t ps = .ok u) :
    ∀ data ∈ ps, uint data.length ≤ 2 ^ 31 := by
  induction ps generalizing t with
  | nil => exact fun _ h => nomatch h
  | cons data ps ih =>
    rw [run, List.foldlM_cons] at h
    obtain ⟨t', hwrite, hrest⟩ := bind_ok h
    refine List.forall_mem_cons.mpr ⟨Nat.le_of_not_lt fun hlarge => ?_, ih hrest⟩
    exact writeFrom_far hlarge (Nat.zero_le _) t' hwrite

theorem emit_lines (hfirst : 10 ∉ first) (hls : ∀ line ∈ ls, 10 ∉ line) :
    emit ind bol (first ++ unlines ls) =
      (if bol then indentLine ind first else first) ++ unlines (ls.map (indentLine ind)) := by
  induction ls generalizing bol first with
  | nil => rw [unlines, List.append_nil, emit_plain hfirst, List.map_nil, unlines, List.append_nil]
  | cons line ls ih =>
    rw [emit_append, emit_plain hfirst, unlines]
    have hline := @ih true line (hls line List.mem_cons_self) fun l hl => hls l (List.mem_cons_of_mem _ hl)
    rw [if_pos rfl] at hline
    exact congrArg _ (congrArg (List.cons 10) hline)

theorem emit_eq_indented (text : List UInt8) : emit ind false text = indented ind text := by
  obtain ⟨first, ls, hlines, htext, hfirst, hls⟩ := exists_lines text
  rw [indented, mapLater, hlines]
  dsimp only
  rw [htext, emit_lines hfirst hls]
  rfl

/-- Without the indentations it is the same text. -/
theorem unindented_indented (hind : 10 ∉ ind) (text : List UInt8) :
    unindented ind.length (indented ind text) = text := by
  obtain ⟨first, ls, hlines, htext, hfirst, hls⟩ := exists_lines text
  have hindented : ∀ line ∈ ls.map (indentLine ind), 10 ∉ line := by
    intro line hline
    obtain ⟨l, hl, rfl⟩ := List.mem_map.mp hline
    rw [indentLine]
    split
    · exact List.not_mem_nil
    · exact fun h => (List.mem_append.mp h).elim hind (hls l hl)
  have hdrop : (ls.map (indentLine ind)).map (List.drop ind.length) = ls := by
    rw [List.map_map]
    refine List.map_id'' (fun l => ?_) ls
    rw [Function.comp, indentLine]
    split
    next h => rw [h, List.drop_nil]
    next => exact List.drop_left
  have hind : indented ind text = first ++ unlines (ls.map (indentLine ind)) := by
    rw [indented, mapLater, hlines]
  rw [hind, unindented, mapLater, lines_unlines hfirst hindented]
  dsimp only
  rw [hdrop, ← htext]

theorem count_lines (hfirst : 10 ∉ first) (hls : ∀ line ∈ ls, 10 ∉ line) :
    count bol (first ++ unlines ls) = 0 ↔ (bol → first = []) ∧ ∀ line ∈ ls, line = [] := by
  have hplain : ∀ {bol : Bool} {text : List UInt8}, 10 ∉ text → (count bol text = 0 ↔ (bol → text = [])) := by
    intro bol text htext
    induction text generalizing bol with
    | nil => exact iff_of_true rfl fun _ => rfl
    | cons c text ih =>
      obtain ⟨hc, htext⟩ := not_or.mp (mt List.mem_cons.mpr htext)
      rw [count, if_neg (Ne.symm hc), Nat.add_eq_zero_iff, ih htext]
      cases bol <;> simp
  induction ls generalizing bol first with
  | nil => simp [unlines, hplain hfirst]
  | cons line ls ih =>
    have hcount : count (bolAfter bol first) (unlines (line :: ls)) = count true (line ++ unlines ls) := rfl
    have hrest : count true (line ++ unlines ls) = 0 ↔ line = [] ∧ ∀ l ∈ ls, l = [] := by
      have h := @ih true line (hls line List.mem_cons_self) fun l hl => hls l (List.mem_cons_of_mem _ hl)
      simpa using h
    rw [count_append, Nat.add_eq_zero_iff, hplain hfirst, hcount, hrest, List.forall_mem_cons]

theorem count_eq_zero_iff (text : List UInt8) : count false text = 0 ↔ ∀ line ∈ (lines text).tail, line = [] := by
  obtain ⟨first, ls, hlines, htext, hfirst, hls⟩ := exists_lines text
  rw [hlines, htext, count_lines hfirst hls]
  simp

theorem count_true_le : count true ys ≤ count false ys + 1 := by
  cases ys with
  | nil => exact Nat.zero_le _
  | cons c ys =>
    rw [count, count]
    split
    · exact Nat.le_succ _
    · simp only [if_true, Bool.false_eq_true, if_false]
      omega

theorem count_false_le : count false ys ≤ count bol ys := by
  cases ys with
  | nil => exact Nat.zero_le _
  | cons c ys =>
    rw [count, count]
    split
    · exact Nat.le_refl _
    · simp

/-- Text that is left out does not make more lines. -/
theorem count_le : count bol ys ≤ count bol xs + count (bolAfter bol xs) ys := by
  induction xs generalizing bol with
  | nil => rw [count, bolAfter, Nat.zero_add]
  | cons c xs ih =>
    rw [count, bolAfter]
    by_cases hc : c = 10
    · rw [if_pos hc, decide_eq_true hc]
      refine Nat.le_trans ?_ ih
      cases bol
      · exact count_false_le
      · exact Nat.le_refl _
    · rw [if_neg hc, decide_eq_false hc]
      have hrest := @ih false
      cases bol
      · simpa using hrest
      · have hle := @count_true_le ys
        simp only [if_true]
        omega

theorem count_kept_le (ps : List (List UInt8)) : count bol (kept ps) ≤ count bol ps.flatten := by
  induction ps generalizing bol with
  | nil => exact Nat.le_refl _
  | cons data ps ih =>
    have hdata : data.take (uint data.length) ++ data.drop (uint data.length) = data := List.take_append_drop _ _
    rw [List.flatten_cons, ← hdata, kept, List.flatMap_cons, List.append_assoc, count_append, count_append,
      count_append, hdata]
    have hle := @ih (bolAfter bol (data.take (uint data.length)))
    have hlost := @count_le (data.drop (uint data.length)) ps.flatten (bolAfter bol (data.take (uint data.length)))
    rw [kept] at hle
    omega

theorem length_kept_le (ps : List (List UInt8)) :
    (kept ps).length ≤ ps.flatten.length ∧
      ((kept ps).length = ps.flatten.length ↔ ∀ data ∈ ps, data.length < 2 ^ 32) := by
  induction ps with
  | nil => exact ⟨Nat.le_refl _, iff_of_true rfl fun _ h => nomatch h⟩
  | cons data ps ih =>
    have hle := ManagedBuffer.uint_le data.length
    have heq : uint data.length = data.length ↔ data.length < 2 ^ 32 := by
      rw [uint]
      omega
    have hcons : (kept (data :: ps)).length = uint data.length + (kept ps).length := by
      rw [kept, List.flatMap_cons, List.length_append, List.length_take, Nat.min_eq_left hle]
      rfl
    rw [hcons, List.flatten_cons, List.length_append, List.forall_mem_cons, ← ih.2, ← heq]
    omega

theorem kept_eq {ps : List (List UInt8)} (h : ∀ data ∈ ps, data.length < 2 ^ 32) : kept ps = ps.flatten := by
  induction ps with
  | nil => rfl
  | cons data ps ih =>
    have hall : data.take (uint data.length) = data := by
      rw [uint, Nat.mod_eq_of_lt (h data List.mem_cons_self), List.take_length]
    have hrest := ih fun d hd => h d (List.mem_cons_of_mem _ hd)
    rw [kept] at hrest
    rw [kept, List.flatMap_cons, hall, hrest, List.flatten_cons]

variable {level indentAmount : BitVec 32} {ps qs : List (List UInt8)}

theorem newline_not_mem_blanks : 10 ∉ blanks level indentAmount := fun h => absurd (List.eq_of_mem_replicate h) (by decide)

/-- What is sent is as long as the indented text only if nothing is lost and no indentation is too short. -/
theorem sent_iff {ps : List (List UInt8)} (hsmall : ∀ data ∈ ps, uint data.length ≤ 2 ^ 31) :
    ((new level indentAmount).after (kept ps)).out = indented (blanks level indentAmount) ps.flatten ↔
      WritesOk level indentAmount ps := by
  have hout : ((new level indentAmount).after (kept ps)).out =
      emit (List.replicate (indentAmount * level).toNat 32) false (kept ps) := rfl
  have hfits : (∀ data ∈ ps, data.length ≤ 2 ^ 31) ↔ ∀ data ∈ ps, data.length < 2 ^ 32 := by
    refine forall₂_congr fun data hd => ⟨fun hle => by omega, fun hlt => ?_⟩
    exact (ManagedBuffer.uint_of_lt hlt).symm.trans_le (hsmall data hd)
  rw [hout, ← emit_eq_indented, blanks, WritesOk, ← count_eq_zero_iff, hfits]
  have hmul : (indentAmount * level).toNat = indentAmount.toNat * level.toNat % 2 ^ 32 := BitVec.toNat_mul _ _
  generalize (indentAmount * level).toNat = width at hmul
  generalize indentAmount.toNat * level.toNat = full at hmul ⊢
  have hwidth : width ≤ full := hmul ▸ Nat.mod_le _ _
  constructor
  · intro h
    have hlength := congrArg List.length h
    rw [length_emit, length_emit, List.length_replicate, List.length_replicate] at hlength
    obtain ⟨hle, hshort⟩ := length_kept_le ps
    have hcount := Nat.mul_le_mul hwidth (@count_kept_le false ps)
    have hall := hshort.mp (by omega)
    refine ⟨hall, ?_⟩
    rw [kept_eq hall] at hlength
    have hsame := Nat.add_left_cancel hlength
    rcases Nat.eq_zero_or_pos (count false ps.flatten) with h0 | hpos
    · exact .inr h0
    · have heq := Nat.eq_of_mul_eq_mul_right hpos hsame
      exact .inl (by omega)
  · rintro ⟨hshort, hfits | hnone⟩
    · rw [kept_eq hshort, hmul, Nat.mod_eq_of_lt hfits]
    · rw [kept_eq hshort]
      have hplain : ∀ {ind text : List UInt8} {bol : Bool}, count bol text = 0 → emit ind bol text = text := by
        intro ind text bol h
        induction text generalizing bol with
        | nil => rfl
        | cons c text ih =>
          rw [count] at h
          rw [emit]
          split at h
          next hc => rw [if_pos hc, ih h]
          next hc =>
            obtain ⟨hbol, hrest⟩ := Nat.add_eq_zero_iff.mp h
            rw [if_neg hc, ih hrest]
            cases bol
            · rfl
            · cases hbol
      rw [hplain hnone, hplain hnone]

/-- Both ways to write a text send the indented text if and only if their writes are short enough. -/
theorem indenter_agrees_iff (level indentAmount : BitVec 32) (ps qs : List (List UInt8)) (h : ps.flatten = qs.flatten) :
    Agree level indentAmount ps.flatten ps qs ↔ WritesOk level indentAmount ps ∧ WritesOk level indentAmount qs := by
  constructor
  · rintro ⟨t, u, ht, hu, hsame, hout, -⟩
    have hps := of_run ht
    have hqs := of_run hu
    rw [run_eq hps] at ht
    rw [run_eq hqs] at hu
    cases ht
    cases hu
    exact ⟨(sent_iff hps).mp hout, (sent_iff hqs).mp (h ▸ hsame ▸ hout)⟩
  · rintro ⟨hp, hq⟩
    have hps : ∀ data ∈ ps, uint data.length ≤ 2 ^ 31 := fun d hd =>
      Nat.le_trans (ManagedBuffer.uint_le _) (hp.1 d hd)
    have hqs : ∀ data ∈ qs, uint data.length ≤ 2 ^ 31 := fun d hd =>
      Nat.le_trans (ManagedBuffer.uint_le _) (hq.1 d hd)
    have hout := (sent_iff hps).mpr hp
    refine ⟨_, _, run_eq hps, run_eq hqs, hout.trans (h ▸ (sent_iff hqs).mpr hq).symm, hout, ?_⟩
    rw [hout, unindented_indented newline_not_mem_blanks]

/-- Two lines with an empty one between them, cut before, at and behind their ends. -/
theorem three_lines_agree :
    Agree 1 4 [97, 10, 10, 98, 10] [[97, 10, 10, 98, 10]] [[97], [10], [], [10, 98], [10]] :=
  (indenter_agrees_iff 1 4 [[97, 10, 10, 98, 10]] [[97], [10], [], [10, 98], [10]] rfl).mpr
    ⟨⟨by decide, .inl (by decide)⟩, ⟨by decide, .inl (by decide)⟩⟩

/-- The index of the last byte is 2 ^ 31. -/
theorem large_write_fails : ¬∀ (level indentAmount : BitVec 32) (ps qs : List (List UInt8)), ps.flatten = qs.flatten →
    Agree level indentAmount ps.flatten ps qs := by
  intro hall
  obtain ⟨t, -, ht, -⟩ := hall 0 4 [List.replicate (2 ^ 31 + 1) 97] [List.replicate (2 ^ 31 + 1) 97] rfl
  have hle := of_run ht (List.replicate (2 ^ 31 + 1) 97) List.mem_cons_self
  rw [List.length_replicate] at hle
  exact absurd hle (by decide)

end Indenter

end Crack
