import Mathlib.Data.List.Forall2
import Mathlib.Data.List.TakeWhile
import Crack.Model.Generic

/-!
# Reading the tokens of a generic

What `deserialize` makes of the output of `serialize`. The file name of the reader
is always that of the writer; its line number is from the first token on.
-/
namespace Crack

open Decoding DeserializationError
open Lexer (TokenType Location)

section Imports

variable {c : Scope} {s : Serializer}

theorem mirrors_strings (items : List (List UInt8)) (h : ∀ x ∈ items, x.length < uintSize) :
    Mirrors (stream c) s (items.foldl Serializer.writeBlob s) (readTimes readString items.length) (· = items) := by
  have ht := Mirrors.times (L := stream c) (R := Eq) items
    (fun x hx w => (mirrors_string (s := w) (h x hx)).mono fun _ => Eq.symm) s
  rw [List.forall₂_eq_eq_eq] at ht
  exact ht.mono fun _ => Eq.symm

namespace ImportedDef

/-- The strings are short enough to be stored. -/
structure Short (i : ImportedDef) : Prop where
  source : i.source.length < uintSize
  section_ : (uintBytes (pbKey 1 pbString) ++ (uintBytes i.localName.length ++ i.localName)).length < uintSize

theorem Short.localName {i : ImportedDef} (h : i.Short) : i.localName.length < uintSize := by
  have hlt := h.section_
  simp only [List.length_append] at hlt
  omega

theorem mirrors (i : ImportedDef) (h : i.Short) :
    Mirrors (stream c) s (i.serialize s) deserialize (fun _ => True) := by
  rw [serialize, deserialize]
  refine (mirrors_string h.source).bind ?_
  rintro _ rfl
  have hkey : 0 < pbKey 1 pbString ∧ pbKey 1 pbString ≤ intMax := by decide
  have hread : Mirrors (stream c) (s.writeBlob i.source)
      (if i.localName ≠ i.source then
        (s.writeBlob i.source).writeSub fun ser => (ser.writeUInt (pbKey 1 pbString)).writeBlob i.localName
      else (s.writeBlob i.source).writeUInt 0)
      (optionalFields (fun header localName => if header = pbKey 1 pbString then readString else pure localName) [])
      (fun _ => True) := by
    split
    · refine mirrors_optionalFields (ι := Unit) (k := fun _ => pbKey 1 pbString)
        (b := fun _ ser => ser.writeBlob i.localName) [()] (fun _ _ => hkey) ?_ ?_ [] trivial
      · intro _ _ s acc _
        rw [if_pos rfl]
        exact (mirrors_string h.localName).mono fun _ _ => trivial
      · have hlt := h.section_
        simp only [List.foldl_cons, List.foldl_nil]
        rw [writeUInt_eq, writeBlob_eq, Nat.mod_eq_of_lt h.localName, emit_emit]
        exact hlt
    · exact mirrors_noFields [] trivial
  refine hread.bind fun localName _ => ?_
  by_cases hl : localName.length ≠ 0
  · rw [if_pos hl]
    exact Mirrors.pure (Q := fun _ => True) trivial
  · rw [if_neg hl]
    exact Mirrors.pure (Q := fun _ => True) trivial

end ImportedDef

namespace Import

structure Short (i : Import) : Prop where
  modules : i.moduleName.length ≤ intMax
  names : ∀ x ∈ i.moduleName, x.length < uintSize
  count : i.syms.length < uintSize
  syms : ∀ x ∈ i.syms, x.Short

theorem le_intMax_mod {n : Nat} (h : n ≤ intMax) : n % uintSize = n ∧ toInt n = n :=
  ⟨Nat.mod_eq_of_lt (Nat.lt_of_le_of_lt h (by decide)), if_pos h⟩

theorem mirrors (i : Import) (h : i.Short) : Mirrors (stream c) s (i.serialize s) read (fun _ => True) := by
  have hm := (le_intMax_mod h.modules).1
  have hi := (le_intMax_mod h.modules).2
  have hd : Mirrors (stream c) s (i.serialize s) deserialize (fun _ => True) := by
    rw [serialize, deserialize, hm, Nat.mod_eq_of_lt h.count]
    refine (mirrors_uint (Nat.lt_of_le_of_lt h.modules (by decide))).bind ?_
    rintro _ rfl
    rw [hi, reserve, if_neg (by omega)]
    refine (Mirrors.pure (Q := fun _ => True) trivial).bind fun _ _ => ?_
    refine (mirrors_strings i.moduleName h.names).bind ?_
    rintro _ rfl
    refine (mirrors_uint h.count).bind ?_
    rintro _ rfl
    refine (Mirrors.times (R := fun _ _ => True) i.syms (fun x hx w => x.mirrors (h.syms x hx)) _).bind fun _ _ => ?_
    exact mirrors_optional.map _ fun _ _ => trivial
  exact hd.map _ fun _ _ => trivial

end Import

end Imports

namespace Generic

section Tokens

variable {c : Scope} {s : Serializer} {tok : Lexer.Token} {t : TokenType}

/-- A token can be stored: the tokenizer made it, and its strings are short enough. -/
structure Stored (tok : Lexer.Token) : Prop where
  lexed : tok.Lexed
  counted : tok.loc.Counted
  data : hasData tok.type → tok.data.length < uintSize
  name : tok.loc.getName.length < uintSize

/-- The types whose text is stored or found in the table. -/
def keepsText (t : TokenType) : Bool := hasData t || tokTxt t != "" || t = .end

/-- What is restored of a token. -/
structure Same (tok tok' : Lexer.Token) : Prop where
  type : tok'.type = tok.type
  data : keepsText tok.type → tok'.data = tok.data
  name : tok'.loc.getName = tok.loc.getName
  line : tok'.loc.lineNumber = tok.loc.lineNumber
  col : tok'.loc.startCol = tok.loc.startCol

/-- The table has the spelling of a token or nothing. -/
theorem tokTxt_spelling (t : TokenType) (hd : hasData t = false) (hk : keepsText t) : t.spelling = some (tokTxt t) := by
  cases t with
  | unnamed v => exact absurd hk Bool.false_ne_true
  | _ => first | rfl | exact absurd hk (by decide) | exact absurd hd (by decide)

theorem toInt_toUInt {i : Int} (h : 0 ≤ i ∧ i ≤ 0x7fffffff) : toInt (toUInt i) = i ∧ toUInt i < uintSize := by
  obtain ⟨n, rfl⟩ := Int.eq_ofNat_of_zero_le h.1
  have hn : n ≤ intMax := by
    have hle : n ≤ 0x7fffffff := by omega
    exact hle
  have hu : toUInt n = n := by
    rw [toUInt, Int.toNat_emod (by omega) (by decide)]
    exact Nat.mod_eq_of_lt (Nat.lt_of_le_of_lt hn (by decide))
  rw [hu]
  exact ⟨if_pos hn, Nat.lt_of_le_of_lt hn (by decide)⟩

theorem value_lt (h : t.fromSource) : t.value < TokenType.fileName.value := by
  cases t <;> first | decide | cases h

theorem ofValue_mod (h : t.fromSource) : TokenType.ofValue (t.value % uintSize) = t := by
  have hlt : t.value < uintSize := Nat.lt_trans (value_lt h) (by decide)
  rw [Nat.mod_eq_of_lt hlt]
  refine TokenType.ofValue_value t ?_
  rintro v rfl
  cases h

/-- The text that is read. -/
theorem mirrors_text (h : Stored tok) :
    Mirrors (stream c) s (if hasData tok.type then s.writeBlob tok.data else s) (readText tok.type)
      (fun txt => keepsText tok.type → txt = tok.data) := by
  rw [readText]
  by_cases hd : hasData tok.type
  · rw [if_pos hd, if_pos hd]
    exact (mirrors_string (h.data hd)).mono fun _ he _ => he
  · rw [if_neg hd, if_neg hd]
    refine .pure fun hk => ?_
    exact (h.lexed.data _ (tokTxt_spelling tok.type (by simpa using hd) hk)).symm

theorem mirrors_token (h : Stored tok) {fileName : List UInt8} {lineNum : Int} (hn : tok.loc.getName = fileName)
    (hl : tok.loc.lineNumber = lineNum) :
    Mirrors (stream c) s (serializeToken s tok) (deserializeToken fileName lineNum)
      (fun r => Same tok r.1 ∧ r.1.type.value < TokenType.fileName.value ∧ r.2 = (fileName, lineNum)) := by
  have hsrc := h.lexed.fromSource
  have hcol := toInt_toUInt h.counted.col
  rw [serializeToken, deserializeToken]
  refine (mirrors_uint (v := tok.type.value % uintSize) (Nat.mod_lt _ (by decide))).bind ?_
  rintro _ rfl
  have hf : ¬ tok.type = .fileName := by
    intro he
    rw [he] at hsrc
    cases hsrc
  have hln : ¬ tok.type = .lineNumber := by
    intro he
    rw [he] at hsrc
    cases hsrc
  simp only [ofValue_mod hsrc, hf, hln, if_false]
  refine (mirrors_text h).bind fun txt htxt => ?_
  refine (mirrors_digestOff (mirrors_uint hcol.2)).map _ ?_
  rintro _ rfl
  refine ⟨⟨rfl, htxt, ?_, hl.symm, hcol.1⟩, value_lt hsrc, rfl⟩
  rw [← hn, Location.getName, Location.getName, List.takeWhile_idem, List.takeWhile_idem]

/-- The token for another file name. -/
theorem mirrors_fileName {name : List UInt8} (h : name.length < uintSize) (fileName : List UInt8) (lineNum : Int) :
    Mirrors (stream c) s ((s.writeUInt TokenType.fileName.value).writeBlob name) (deserializeToken fileName lineNum)
      (fun r => r.1.type = .fileName ∧ r.2 = (name, lineNum)) := by
  rw [deserializeToken]
  refine (mirrors_uint (v := TokenType.fileName.value) (by decide)).bind ?_
  rintro _ rfl
  exact (mirrors_string h).map _ fun _ he => ⟨rfl, by rw [he]⟩

/-- The token for another line. -/
theorem mirrors_lineNumber {line : Int} (h : 0 ≤ line ∧ line ≤ 0x7fffffff) (fileName : List UInt8) (lineNum : Int) :
    Mirrors (stream c) s ((s.writeUInt TokenType.lineNumber.value).writeUInt (toUInt line))
      (deserializeToken fileName lineNum) (fun r => r.1.type = .lineNumber ∧ r.2 = (fileName, line)) := by
  have hline := toInt_toUInt h
  rw [deserializeToken]
  refine (mirrors_uint (v := TokenType.lineNumber.value) (by decide)).bind ?_
  rintro _ rfl
  refine (mirrors_uint hline.2).map _ ?_
  rintro _ rfl
  exact ⟨rfl, by rw [hline.1]⟩

variable {s₁ s₂ : Serializer} {fileName fileName' : List UInt8} {lineNum lineNum' : Int} {n : Nat}

/-- A file name or line number is not part of the body. -/
theorem mirrors_skip {P : List Lexer.Token → Prop} {Q : Lexer.Token → Prop}
    (h : Mirrors (stream c) s s₁ (deserializeToken fileName lineNum) (fun r => Q r.1 ∧ r.2 = (fileName', lineNum')))
    (hQ : ∀ tok, Q tok → ¬ tok.type.value < TokenType.fileName.value)
    (hr : Mirrors (stream c) s₁ s₂ (readTokens n fileName' lineNum') P) :
    Mirrors (stream c) s s₂ (readTokens (n + 1) fileName lineNum) P := by
  rw [readTokens]
  refine h.bind ?_
  rintro ⟨tok, file, line⟩ ⟨hq, he⟩
  cases he
  refine hr.map _ fun body hb => ?_
  rw [if_neg (hQ tok hq)]
  exact hb

theorem mirrors_cons {body : List Lexer.Token} (h : Stored tok) (hn : tok.loc.getName = fileName)
    (hl : tok.loc.lineNumber = lineNum)
    (hr : Mirrors (stream c) (serializeToken s tok) s₂ (readTokens n fileName lineNum) (List.Forall₂ Same body)) :
    Mirrors (stream c) s s₂ (readTokens (n + 1) fileName lineNum) (List.Forall₂ Same (tok :: body)) := by
  rw [readTokens]
  refine (mirrors_token h hn hl).bind ?_
  rintro ⟨tok', file, line⟩ ⟨hs, hv, he⟩
  cases he
  refine hr.map _ fun body' hb => ?_
  rw [if_pos hv]
  exact .cons hs hb

theorem countTokens_add (body : List Lexer.Token) (fileName : List UInt8) (lineNum : Int) (n m : Nat) :
    countTokens body fileName lineNum (n + m) = countTokens body fileName lineNum n + m := by
  induction body generalizing fileName lineNum n with
  | nil => rfl
  | cons tok body ih =>
    simp only [countTokens]
    split <;> split
    · rw [Nat.add_right_comm n, Nat.add_right_comm (n + 1), ih]
    · rw [Nat.add_right_comm, ih]
    · rw [Nat.add_right_comm, ih]
    · exact ih _ _ n

theorem file_skipped (tok : Lexer.Token) (h : tok.type = .fileName) :
    ¬ tok.type.value < TokenType.fileName.value := by
  rw [h]
  exact Nat.lt_irrefl _

theorem line_skipped (tok : Lexer.Token) (h : tok.type = .lineNumber) :
    ¬ tok.type.value < TokenType.fileName.value := by
  rw [h]
  decide

/-- The tokens of a body. The line number of the writer is that of the reader or no
line. -/
theorem mirrors_tokens (body : List Lexer.Token) (hb : ∀ tok ∈ body, Stored tok) (s : Serializer)
    (fileName : List UInt8) (lineNum lineNum' : Int) (recount : Nat) (hw : lineNum = lineNum' ∨ lineNum < 0) :
    Mirrors (stream c) s (serializeTokens body s fileName lineNum recount).2
      (readTokens (countTokens body fileName lineNum body.length) fileName lineNum') (List.Forall₂ Same body) := by
  induction body generalizing s fileName lineNum lineNum' recount with
  | nil => exact .pure .nil
  | cons tok body ih =>
    have h := hb tok List.mem_cons_self
    have hrest := fun s recount => ih (fun t ht => hb t (List.mem_cons_of_mem _ ht)) s tok.loc.getName
      tok.loc.lineNumber tok.loc.lineNumber recount (.inl rfl)
    have hline : ¬ tok.loc.lineNumber ≠ lineNum → tok.loc.lineNumber = lineNum' := by
      intro hl
      have hz := h.counted.line.1
      omega
    simp only [serializeTokens, serializeFullToken, countTokens, List.length_cons]
    by_cases hn : tok.loc.getName ≠ fileName
    · by_cases hl : tok.loc.lineNumber ≠ lineNum
      · simp only [if_pos hn, if_pos hl, Nat.add_assoc, countTokens_add]
        refine mirrors_skip (mirrors_fileName h.name fileName lineNum') file_skipped ?_
        refine mirrors_skip (mirrors_lineNumber h.counted.line _ _) line_skipped ?_
        exact mirrors_cons h rfl rfl (hrest _ _)
      · obtain rfl := hline hl
        obtain rfl := not_not.mp hl
        simp only [if_pos hn, if_neg hl, Nat.add_assoc, countTokens_add]
        refine mirrors_skip (mirrors_fileName h.name _ _) file_skipped ?_
        exact mirrors_cons h rfl rfl (hrest _ _)
    · obtain rfl := not_not.mp hn
      by_cases hl : tok.loc.lineNumber ≠ lineNum
      · simp only [if_neg hn, if_pos hl, countTokens_add]
        refine mirrors_skip (mirrors_lineNumber h.counted.line _ _) line_skipped ?_
        exact mirrors_cons h rfl rfl (hrest _ _)
      · obtain rfl := hline hl
        obtain rfl := not_not.mp hl
        simp only [if_neg hn, if_neg hl, countTokens_add]
        exact mirrors_cons h rfl rfl (hrest _ _)

/-- Both loops count the same. -/
theorem serializeTokens_count (body : List Lexer.Token) (s : Serializer) (fileName : List UInt8) (lineNum : Int)
    (recount : Nat) :
    (serializeTokens body s fileName lineNum recount).1 = countTokens body fileName lineNum body.length + recount := by
  induction body generalizing s fileName lineNum recount with
  | nil => exact (Nat.zero_add _).symm
  | cons tok body ih =>
    simp only [serializeTokens, serializeFullToken, countTokens, List.length_cons]
    by_cases hn : tok.loc.getName ≠ fileName
    · by_cases hl : tok.loc.lineNumber ≠ lineNum
      · simp only [if_pos hn, if_pos hl, countTokens_add, ih]
        omega
      · simp only [if_pos hn, if_neg hl, countTokens_add, ih]
        omega
    · by_cases hl : tok.loc.lineNumber ≠ lineNum
      · simp only [if_neg hn, if_pos hl, countTokens_add, ih]
        omega
      · simp only [if_neg hn, if_neg hl, countTokens_add, ih]
        omega

end Tokens

section Generics

variable {c : Scope} {s : Serializer} {d : Deserializer} {imports : Nat → Import} {g : Generic}

/-- The check of `serialize` never fails. -/
theorem serialize_ok (g : Generic) (imports : Nat → Import) (s : Serializer) : ∃ s', g.serialize imports s = .ok s' := by
  simp only [serialize, serializeTokens_count, Nat.add_zero, if_true]
  exact ⟨_, rfl⟩

/-- A generic whose counts are `int`s and whose strings and tokens can be stored. -/
structure Storable (imports : Nat → Import) (g : Generic) : Prop where
  imports : ∀ i ∈ g.compileNSImports, (imports i).Short
  impCount : g.compileNSImports.length ≤ intMax
  parms : ∀ x ∈ g.parms, x.length < uintSize
  parmCount : g.parms.length ≤ intMax
  body : ∀ tok ∈ g.body, Stored tok
  count : countTokens g.body [] (-1) g.body.length ≤ intMax

theorem mirrors_imports (items : List Nat) (h : ∀ i ∈ items, (imports i).Short)
    (hc : ∀ i ∈ items, i ∉ c.opened.map Prod.fst ∧ ∀ vals, c.Obj i vals) :
    Mirrors (stream c) s (items.foldl (fun out i => out.writeRef i (imports i).serialize) s)
      (readTimes (readObject (Import.read >>= create)) items.length) (fun _ => True) := by
  have ht := Mirrors.times (L := stream c) (R := fun _ _ => True) items
    (fun i hi w => mirrors_object (s := w) (b := (imports i).serialize) (hc i hi).1
      fun s id => ((imports i).mirrors (h i hi)).mono fun vals _ => (hc i hi).2 vals) s
  exact ht.mono fun _ _ => trivial

theorem mirrors {s' : Serializer} (h : g.Storable imports)
    (hc : ∀ i ∈ g.compileNSImports, i ∉ c.opened.map Prod.fst ∧ ∀ vals, c.Obj i vals) (lineNum : Int)
    (hs : g.serialize imports s = .ok s') :
    Mirrors (stream c) s s' (deserialize lineNum) (fun g' => List.Forall₂ Same g.body g'.body) := by
  obtain ⟨hmi, hii⟩ := Import.le_intMax_mod h.impCount
  obtain ⟨hmp, hip⟩ := Import.le_intMax_mod h.parmCount
  obtain ⟨hmt, hit⟩ := Import.le_intMax_mod h.count
  have hlt : ∀ {n}, n ≤ intMax → n < uintSize := fun hn => Nat.lt_of_le_of_lt hn (by decide)
  simp only [serialize, serializeTokens_count, Nat.add_zero, if_true, hmi, hmp, hmt] at hs
  obtain rfl := Except.ok.inj hs
  rw [deserialize]
  refine (mirrors_uint (hlt h.impCount)).bind ?_
  rintro _ rfl
  rw [hii, Int.toNat_natCast]
  refine (mirrors_imports g.compileNSImports h.imports hc).bind fun _ _ => ?_
  refine (mirrors_uint (hlt h.parmCount)).bind ?_
  rintro _ rfl
  rw [hip, reserve, if_neg (by omega), Int.toNat_natCast]
  refine (Mirrors.pure (Q := fun _ => True) trivial).bind fun _ _ => ?_
  refine (mirrors_strings g.parms h.parms).bind ?_
  rintro _ rfl
  refine (mirrors_uint (hlt h.count)).bind ?_
  rintro _ rfl
  rw [hit, reserve, if_neg (by omega), Int.toNat_natCast]
  refine (Mirrors.pure (Q := fun _ => True) trivial).bind fun _ _ => ?_
  refine (mirrors_tokens g.body h.body _ [] (-1) lineNum 0 (.inr (by decide))).bind fun body hbody => ?_
  exact mirrors_optional.map _ fun _ _ => hbody

end Generics

end Generic

end Crack
