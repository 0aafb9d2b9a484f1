import Crack.Enc.Csv

/-!
# Rows of csv

A row is encoded into a line and parsed again. A newline becomes a backslash and an `n`, and stays so.
-/
namespace Crack

namespace Csv

open ManagedBuffer
open Loops (bind_ok)

/-- A byte that makes a field be quoted. -/
def Special (ch : UInt8) : Prop := ch = 44 ∨ ch = 10 ∨ ch = 34

instance (ch : UInt8) : Decidable (Special ch) := inferInstanceAs (Decidable (_ ∨ _))

def escapedByte (ch : UInt8) : List UInt8 := if ch = 34 then [34, 34] else if ch = 10 then [92, 110] else [ch]

def encodedField (f : List UInt8) : List UInt8 :=
  if ∃ ch ∈ f, Special ch then 34 :: (f.flatMap escapedByte ++ [34]) else f

def joined : List (List UInt8) → Nat → List UInt8
  | [], _ => []
  | f :: row, index => (if index ≠ 0 then [44] else []) ++ (encodedField f ++ joined row (index + 1))

/-- How long an encoded field is. -/
def fieldLength (f : List UInt8) : Nat :=
  if ∃ ch ∈ f, Special ch then f.length + f.count 34 + f.count 10 + 2 else f.length

def fieldsLength : List (List UInt8) → Nat
  | [] => 0
  | f :: row => fieldLength f + fieldsLength row

/-- How long the line of a row is. -/
def lineLength (row : List (List UInt8)) : Nat := fieldsLength row + (row.length - 1)

/-- A newline is a backslash and an `n` from then on. -/
def spelled (f : List UInt8) : List UInt8 := f.flatMap fun ch => if ch = 10 then [92, 110] else [ch]

/-- A row is read as it was written. -/
def Kept (row : List (List UInt8)) : Prop :=
  ∃ line, encodeRow row = .ok line ∧ parseLine line = .ok ⟨row, false⟩

variable {f : List UInt8} {row : List (List UInt8)}

theorem length_escaped (f : List UInt8) : (f.flatMap escapedByte).length = f.length + f.count 34 + f.count 10 := by
  induction f with
  | nil => rfl
  | cons ch f ih =>
    rw [List.flatMap_cons, List.length_append, ih, List.count_cons, List.count_cons, List.length_cons, escapedByte]
    by_cases hquote : ch = 34
    · subst hquote
      simp only [if_pos, List.length_cons, List.length_nil, beq_self_eq_true,
        show ((34 : UInt8) == 10) = false from rfl]
      simp only [Bool.false_eq_true, if_false]
      omega
    · by_cases hnewline : ch = 10
      · subst hnewline
        simp only [if_neg hquote, if_pos, List.length_cons, List.length_nil, beq_self_eq_true,
          show ((10 : UInt8) == 34) = false from rfl]
        simp only [Bool.false_eq_true, if_false]
        omega
      · rw [if_neg hquote, if_neg hnewline, if_neg (by simpa using hquote), if_neg (by simpa using hnewline)]
        simp only [List.length_singleton]
        omega

theorem length_encodedField (f : List UInt8) : (encodedField f).length = fieldLength f := by
  rw [encodedField, fieldLength]
  split
  next =>
    rw [List.length_cons, List.length_append, List.length_singleton, length_escaped]
  next => rfl

theorem length_le_fieldLength (f : List UInt8) : f.length ≤ fieldLength f := by
  rw [fieldLength]
  split
  next => omega
  next => exact Nat.le_refl _

theorem length_le_fieldsLength (hf : f ∈ row) : f.length ≤ fieldsLength row := by
  induction row with
  | nil => cases hf
  | cons g row ih =>
    rw [fieldsLength]
    rcases List.mem_cons.mp hf with rfl | hmem
    · exact Nat.le_trans (length_le_fieldLength f) (Nat.le_add_right _ _)
    · exact Nat.le_trans (ih hmem) (Nat.le_add_left _ _)

theorem length_joined (row : List (List UInt8)) (index : Nat) :
    (joined row index).length = fieldsLength row + (row.length - if index = 0 then 1 else 0) := by
  induction row generalizing index with
  | nil =>
    rw [List.length_nil, Nat.zero_sub]
    rfl
  | cons f row ih =>
    rw [joined, List.length_append, List.length_append, length_encodedField, ih, fieldsLength,
      List.length_cons, if_neg (Nat.succ_ne_zero index)]
    by_cases hzero : index = 0
    · rw [if_neg (not_not.mpr hzero), if_pos hzero, List.length_nil]
      omega
    · rw [if_pos hzero, if_neg hzero, List.length_singleton]
      omega

theorem length_line (row : List (List UInt8)) : (joined row 0).length = lineLength row := length_joined row 0

theorem needsEscaping_iff (hf : f.length < 2 ^ 31) : needsEscaping f = true ↔ ∃ ch ∈ f, Special ch := by
  rw [needsEscaping, take_intSize hf, List.any_eq_true]
  simp only [Bool.or_eq_true, decide_eq_true_eq, or_assoc]
  rfl

theorem appends_byte (ch : UInt8) : Appends (fun out => writeByte out ch) (escapedByte ch) := by
  simp only [writeByte, escapedByte]
  by_cases hquote : ch = 34
  · simp only [if_pos hquote]
    subst hquote
    exact (appends_append 34).bind (appends_append 34)
  · simp only [if_neg hquote]
    by_cases hnewline : ch = 10
    · simp only [if_pos hnewline]
      exact appends_extend _
    · simp only [if_neg hnewline]
      exact appends_append ch

theorem appends_bytes (f : List UInt8) : Appends (fun out => f.foldlM writeByte out) (f.flatMap escapedByte) := by
  induction f with
  | nil => exact appends_nil
  | cons ch f ih => exact (appends_byte ch).bind ih

theorem appends_escaped (hf : f.length < 2 ^ 31) : Appends (writeEscaped f) (f.flatMap escapedByte) := by
  refine (appends_bytes f).of_fun fun out => ?_
  rw [writeEscaped, take_intSize hf]

/-- A field between quotes. -/
theorem appends_quoted (hf : f.length < 2 ^ 31) :
    Appends (fun out => out.append 34 >>= fun out => writeEscaped f out >>= fun out => out.append 34)
      (34 :: (f.flatMap escapedByte ++ [34])) :=
  (appends_append 34).bind ((appends_escaped hf).bind (appends_append 34))

theorem writeValue_spec (hf : f.length < 2 ^ 31) :
    (fieldLength f ≤ 2 ^ 31 → writeValue f = .ok (encodedField f)) ∧
      ∀ value, writeValue f = .ok value → value = encodedField f := by
  rw [← length_encodedField, encodedField]
  by_cases hspecial : ∃ ch ∈ f, Special ch
  · have hwrite := (appends_quoted hf).of_init (f.length + 2 + f.length / 10) (by omega)
    generalize hx : (init (f.length + 2 + f.length / 10)).append 34 >>=
      (fun out => writeEscaped f out >>= fun out => out.append 34) = x at hwrite
    have hvalue : writeValue f = x >>= fun result => .ok result.data := by
      rw [← hx, writeValue, if_pos ((needsEscaping_iff hf).mpr hspecial), bind_assoc]
      simp only [bind_assoc]
      rfl
    rw [hvalue, if_pos hspecial]
    constructor
    · intro hlt
      obtain ⟨b, he, hdata⟩ := hwrite.1 hlt
      rw [he, ← hdata]
      rfl
    · intro value he
      obtain ⟨b, hb, he⟩ := bind_ok he
      cases he
      exact (hwrite.2 b hb).1
  · rw [writeValue, if_neg (fun h => hspecial ((needsEscaping_iff hf).mp h)), if_neg hspecial]
    refine ⟨fun _ => rfl, fun value he => ?_⟩
    cases he
    rfl

theorem appends_value (hf : f.length < 2 ^ 31) :
    Appends (fun buf => writeValue f >>= fun value => buf.extend value) (encodedField f) := by
  obtain ⟨htotal, honly⟩ := writeValue_spec hf
  constructor
  · intro b h hroom
    rw [length_encodedField] at hroom
    obtain ⟨b', he⟩ := (appends_extend (encodedField f)).total b h (by rwa [length_encodedField])
    refine ⟨b', ?_⟩
    rw [htotal (by omega)]
    exact he
  · intro b b' h he
    obtain ⟨value, hvalue, he⟩ := bind_ok he
    rw [honly value hvalue] at he
    exact (appends_extend (encodedField f)).only b b' h he

theorem appends_fields (hrow : ∀ f ∈ row, f.length < 2 ^ 31) (index : Nat) :
    Appends (encodeFields row index) (joined row index) := by
  induction row generalizing index with
  | nil => exact appends_nil
  | cons f row ih =>
    have hf := hrow f List.mem_cons_self
    have hrest := ih (fun f hf => hrow f (List.mem_cons_of_mem _ hf)) (index + 1)
    refine ((appends_append 44).when.bind ((appends_value hf).bind hrest)).of_fun fun buf => ?_
    rw [encodeFields]
    simp only [bind_assoc]

/-- The line of a row is not too long, so no field is. -/
theorem encodeRow_ok (h : lineLength row < 2 ^ 31) : encodeRow row = .ok (joined row 0) := by
  have hrow : ∀ f ∈ row, f.length < 2 ^ 31 := by
    intro f hf
    exact Nat.lt_of_le_of_lt (Nat.le_trans (length_le_fieldsLength hf) (Nat.le_add_right _ _)) h
  obtain ⟨buf, he, hdata⟩ := ((appends_fields hrow 0).of_init 256 (by decide)).1 (by
    rw [length_line]
    exact Nat.le_of_lt h)
  rw [encodeRow, he, ← hdata]
  rfl

/-- The machine behind a field, before the comma or the end of the line. -/
def Ended (c : Cursor) (fields : List (List UInt8)) (f : List UInt8) : Prop :=
  c.state ≠ .quoted ∧ c.fields = fields ∧ c.col = f

variable {c : Cursor} {fields : List (List UInt8)} {col : List UInt8}

theorem spelled_cons (ch : UInt8) (f : List UInt8) : spelled (ch :: f) = spelled [ch] ++ spelled f := by
  rw [spelled, spelled, spelled, List.flatMap_cons, List.flatMap_singleton]

theorem spelled_byte {ch : UInt8} (h : ch ≠ 10) : spelled [ch] = [ch] := by
  rw [spelled, List.flatMap_singleton, if_neg h]

theorem length_spelled (f : List UInt8) : (spelled f).length = f.length + f.count 10 := by
  induction f with
  | nil => rfl
  | cons ch f ih =>
    rw [spelled_cons, List.length_append, ih, List.length_cons, List.count_cons]
    by_cases hnewline : ch = 10
    · subst hnewline
      rw [show (10 == (10 : UInt8)) = true from rfl, if_pos rfl]
      change 2 + _ = _
      omega
    · rw [spelled_byte hnewline, if_neg (by simpa using hnewline), List.length_singleton]
      omega

/-- Only a field without newlines is read as it was written. -/
theorem spelled_eq_iff (f : List UInt8) : spelled f = f ↔ 10 ∉ f := by
  constructor
  · intro heq
    have hlen := length_spelled f
    rw [heq] at hlen
    exact List.count_eq_zero.mp (by omega)
  · intro h
    induction f with
    | nil => rfl
    | cons ch f ih =>
      obtain ⟨hch, hf⟩ := not_or.mp (fun hmem => h (List.mem_cons.mpr hmem))
      rw [spelled_cons, spelled_byte (Ne.symm hch), ih hf, List.singleton_append]

theorem read_plain (hf : ¬ ∃ ch ∈ f, Special ch) :
    Cursor.read ⟨.base, fields, col⟩ f = ⟨.base, fields, col ++ f⟩ := by
  induction f generalizing col with
  | nil => rw [List.append_nil, Cursor.read, List.foldl_nil]
  | cons ch f ih =>
    have hch : ¬ Special ch := fun h => hf ⟨ch, List.mem_cons_self, h⟩
    have hrest : ¬ ∃ ch ∈ f, Special ch := by
      rintro ⟨x, hx, h⟩
      exact hf ⟨x, List.mem_cons_of_mem _ hx, h⟩
    have hstep : Cursor.step ⟨.base, fields, col⟩ ch = ⟨.base, fields, col ++ [ch]⟩ := by
      rw [Cursor.step]
      dsimp only
      rw [if_neg (fun h => hch (.inr (.inr h))), if_neg (fun h => hch (.inl h))]
      rfl
    rw [Cursor.read, List.foldl_cons, hstep]
    refine (ih hrest).trans ?_
    rw [List.append_assoc, List.singleton_append]

/-- A byte behind the first quote of a field. -/
theorem read_escapedByte (ch : UInt8) :
    Cursor.read ⟨.quoted, fields, col⟩ (escapedByte ch) = ⟨.quoted, fields, col ++ spelled [ch]⟩ := by
  by_cases hquote : ch = 34
  · subst hquote
    rfl
  by_cases hnewline : ch = 10
  · subst hnewline
    have hstep : Cursor.read ⟨.quoted, fields, col⟩ [92, 110] = ⟨.quoted, fields, col ++ [92] ++ [110]⟩ := rfl
    rw [List.append_assoc] at hstep
    exact hstep
  · rw [escapedByte, if_neg hquote, if_neg hnewline, spelled_byte hnewline, Cursor.read, List.foldl_cons,
      List.foldl_nil]
    exact if_neg hquote

theorem read_escaped (f : List UInt8) :
    Cursor.read ⟨.quoted, fields, col⟩ (f.flatMap escapedByte) = ⟨.quoted, fields, col ++ spelled f⟩ := by
  induction f generalizing col with
  | nil => rw [spelled, List.flatMap_nil, List.flatMap_nil, List.append_nil, Cursor.read, List.foldl_nil]
  | cons ch f ih =>
    rw [List.flatMap_cons, Cursor.read_append, read_escapedByte, ih, spelled_cons ch f, List.append_assoc]

theorem read_field (f : List UInt8) :
    Ended (Cursor.read ⟨.base, fields, []⟩ (encodedField f)) fields (spelled f) := by
  rw [encodedField]
  split
  next =>
    have hquoted : Cursor.read ⟨.base, fields, []⟩ (34 :: (f.flatMap escapedByte ++ [34])) =
        ⟨.escaped, fields, spelled f⟩ := by
      rw [← List.singleton_append, Cursor.read_append, Cursor.read_append]
      change Cursor.read (Cursor.read ⟨.quoted, fields, []⟩ _) [34] = _
      rw [read_escaped]
      rfl
    rw [hquoted]
    exact ⟨State.noConfusion, rfl, rfl⟩
  next hplain =>
    have hnewline : 10 ∉ f := fun h => hplain ⟨10, h, .inr (.inl rfl)⟩
    rw [read_plain hplain, (spelled_eq_iff f).mpr hnewline]
    exact ⟨State.noConfusion, rfl, rfl⟩

theorem Ended.comma (h : Ended c fields f) : c.step 44 = ⟨.base, fields ++ [f], []⟩ := by
  obtain ⟨state, fields', col⟩ := c
  obtain ⟨hstate, rfl, rfl⟩ := h
  cases state with
  | base | escaped => rfl
  | quoted => exact absurd rfl hstate

theorem Ended.finished (h : Ended c fields f) : c.row = ⟨fields ++ [f], false⟩ := by
  obtain ⟨hstate, rfl, rfl⟩ := h
  exact if_neg hstate

/-- Behind a field, up to the end of the line. -/
theorem Ended.joined (h : Ended c fields f) {index : Nat} (hindex : index ≠ 0) :
    (c.read (joined row index)).row = ⟨fields ++ f :: row.map spelled, false⟩ := by
  induction row generalizing c fields f index with
  | nil => exact h.finished
  | cons g row ih =>
    rw [Csv.joined, if_pos hindex, Cursor.read_append, Cursor.read_append]
    change ((Cursor.read (c.step 44) (encodedField g)).read _).row = _
    rw [h.comma, ih (read_field g) (Nat.succ_ne_zero index), List.append_assoc]
    rfl

theorem parseLine_line (hrow : row ≠ []) (h : lineLength row < 2 ^ 31) :
    parseLine (joined row 0) = .ok ⟨row.map spelled, false⟩ := by
  have hseen : (joined row 0).length < 2 ^ 31 := by rwa [length_line]
  obtain ⟨f, rest, rfl⟩ := List.exists_cons_of_ne_nil hrow
  have hread : (Cursor.read ⟨.base, [], []⟩ (joined (f :: rest) 0)).row = ⟨(f :: rest).map spelled, false⟩ := by
    rw [joined, if_neg (not_not.mpr rfl), List.nil_append, Cursor.read_append,
      (read_field f).joined (Nat.succ_ne_zero 0)]
    rfl
  have hparse := parseLine_total ⟨[], false⟩ (joined (f :: rest) 0) (.inl rfl) (by
    rw [intSize_of_lt hseen]
    exact Nat.lt_of_le_of_lt (Nat.le_of_eq (Nat.zero_add _)) hseen)
  rw [take_intSize hseen] at hparse
  rw [parseLine, hparse]
  change (Except.ok (Cursor.read ⟨.base, [], []⟩ _).row >>= _) = _
  rw [hread]
  rfl

/-- A row of which the line is shorter than 2 ^ 31 comes back with its newlines spelled out, so it is kept
exactly when it has none. -/
theorem parseLine_encodeRow (row : List (List UInt8)) (hrow : row ≠ []) (h : lineLength row < 2 ^ 31) :
    (∃ line, encodeRow row = .ok line ∧ parseLine line = .ok ⟨row.map spelled, false⟩) ∧
      (Kept row ↔ ∀ f ∈ row, 10 ∉ f) := by
  have hparse := parseLine_line hrow h
  have hmap : row.map spelled = row.map id ↔ ∀ f ∈ row, spelled f = id f := List.map_inj_left
  rw [List.map_id] at hmap
  refine ⟨⟨_, encodeRow_ok h, hparse⟩, ?_⟩
  rw [← forall₂_congr fun f _ => spelled_eq_iff f]
  constructor
  · rintro ⟨line, hencode, hkept⟩
    rw [encodeRow_ok h] at hencode
    cases hencode
    rw [hparse] at hkept
    injection hkept with heq
    injection heq with heq
    exact hmap.mp heq
  · intro hsame
    rw [hmap.mpr hsame] at hparse
    exact ⟨_, encodeRow_ok h, hparse⟩

/-- Quotes, commas, a backslash and empty fields. -/
theorem special_row_kept :
    (∃ line, encodeRow [[], [34, 44, 92, 110], [44], []] = .ok line ∧
      parseLine line = .ok ⟨[[], [34, 44, 92, 110], [44], []].map spelled, false⟩) ∧
      (Kept [[], [34, 44, 92, 110], [44], []] ↔
        ∀ f ∈ ([[], [34, 44, 92, 110], [44], []] : List (List UInt8)), 10 ∉ f) :=
  parseLine_encodeRow [[], [34, 44, 92, 110], [44], []] (List.cons_ne_nil _ _) (by decide)

/-- A newline is not kept, and of 2 ^ 31 bytes none is. -/
theorem newline_not_kept : ¬ Kept [[97, 10, 98]] ∧ ¬ Kept [List.replicate (2 ^ 31) 97] := by
  constructor
  · have hshort : lineLength [[97, 10, 98]] < 2 ^ 31 := by decide
    rintro ⟨line, hencode, hparse⟩
    rw [encodeRow_ok hshort] at hencode
    cases hencode
    rw [parseLine_line (List.cons_ne_nil _ _) hshort] at hparse
    exact absurd hparse (by decide)
  · generalize hf : List.replicate (2 ^ 31) (97 : UInt8) = f
    have hlen : f.length = 2 ^ 31 := by rw [← hf, List.length_replicate]
    have hzero : intSize f.length = 0 := by
      rw [hlen]
      exact intSize_of_ge (Nat.le_refl _) (by decide)
    have hvalue : writeValue f = .ok f := by
      rw [writeValue, needsEscaping, hzero, List.take_zero]
      rfl
    rintro ⟨line, hencode, hparse⟩
    obtain ⟨buf, hfields, he⟩ := bind_ok hencode
    cases he
    obtain ⟨first, hfirst, hfields⟩ := bind_ok hfields
    cases hfirst
    obtain ⟨value, hv, hfields⟩ := bind_ok hfields
    rw [hvalue] at hv
    cases hv
    obtain ⟨last, hextend, hlast⟩ := bind_ok hfields
    cases hlast
    have hdata : buf.data = f := ((appends_extend f).only _ buf (sound_init (by decide)) hextend).2
    -- the size of the line is below zero as an int
    obtain ⟨row, hline, hrow⟩ := bind_ok hparse
    obtain ⟨-, hread⟩ := parseLine_only hline
    rw [hdata, hzero, List.take_zero] at hread
    rw [hread] at hrow
    injection hrow with heq
    injection heq with heq
    injection heq with heq
    rw [← heq] at hlen
    cases hlen

end Csv

end Crack
