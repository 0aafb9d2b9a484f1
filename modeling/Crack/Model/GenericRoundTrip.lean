import Crack.Model.GenericTokens

/-!
# Round trips of generics

A generic that was stored and read again has the tokens that it had, but for the
texts of keywords, documentation and i-string delimiters.
-/
namespace Crack

namespace Generic

open Decoding
open Lexer (TokenType Location)

/-- A stream with nothing to say about its objects. -/
def plain (digest : Bool) : Scope := { Obj := fun _ _ => True, digest }

section RoundTrip

variable {s : Serializer} {d : Deserializer} {imports : Nat → Import} {g : Generic}

/-- `deserialize` after `serialize`, for a deserializer that is where the serializer
was; `lineNum` is the value of the variable that the reader does not initialize. -/
theorem deserialize_serialize (h : g.Storable imports) (digest : Bool) (hs : InStep (plain digest) s d)
    (hf : ∀ s', g.serialize imports s = .ok s' → s'.overflow = false) (lineNum : Int) :
    ∃ s' bytes g' d', g.serialize imports s = .ok s' ∧ s'.dst = s.dst ++ bytes ∧
      (∀ rest, deserialize lineNum (d.feed (bytes ++ rest)) = .ok (g', d'.feed rest)) ∧
      List.Forall₂ Same g.body g'.body ∧ InStep (plain digest) s' d' := by
  obtain ⟨s', hs'⟩ := serialize_ok g imports s
  have hm := mirrors (c := plain digest) h (fun _ _ => ⟨List.not_mem_nil, fun _ => trivial⟩) lineNum hs'
  obtain ⟨bytes, hbytes⟩ := hm.grows
  have hdst : s'.dst = s.dst ++ bytes := hbytes.symm
  obtain ⟨g', d', hsame, hr, hd'⟩ := hm.reads (hf s' hs') d hs
  rw [drop_of_grows (L := stream (plain digest)) hdst] at hr
  exact ⟨s', bytes, g', d', hs', hdst, hr.whole, hsame, hd'⟩

/-- The first serializer and the first deserializer. -/
theorem inStep_start (digest : Bool) :
    InStep (plain digest) { digestEnabled := digest } { src := { data := [] }, digestEnabled := digest } where
  enabled := rfl
  enabled' := rfl
  hashed := rfl
  ids _ := Nat.zero_le _
  lt p id h := by cases h
  inj p q id h := by cases h
  opens p id h := by cases h
  known p id h := by cases h

def sampleLoc (line col : Int) : Location :=
  { name := ascii "list.crk", lineNumber := line, startCol := col, endCol := col }

def sample : Generic where
  parms := [ascii "T"]
  body := [⟨.lcurly, ascii "\x7b", sampleLoc 1 8⟩, ⟨.ident, ascii "T", sampleLoc 2 3⟩, ⟨.ident, ascii "val", sampleLoc 2 5⟩,
    ⟨.semi, ascii ";", sampleLoc 2 8⟩, ⟨.rcurly, ascii "\x7d", sampleLoc 3 1⟩]
  compileNSImports := [4, 4]

def sampleImport : Import := { moduleName := [ascii "ann"], syms := [⟨ascii "implement", ascii "impl"⟩] }

theorem sampleImport_short : sampleImport.Short where
  modules := by decide
  names := by decide
  count := by decide
  syms x hx := by
    obtain rfl := List.mem_singleton.mp hx
    exact ⟨by decide, by decide +kernel⟩

theorem sample_storable : sample.Storable (fun _ => sampleImport) where
  imports _ _ := sampleImport_short
  impCount := by decide
  parms := by decide
  parmCount := by decide
  body := by
    have hloc : ∀ line col, 0 ≤ line ∧ line ≤ 9 → 0 ≤ col ∧ col ≤ 9 →
        (sampleLoc line col).Counted ∧ (sampleLoc line col).getName.length < uintSize := by
      intro line col hl hc
      have hname : ((ascii "list.crk").takeWhile (· ≠ 0)).length < uintSize := by decide
      refine ⟨⟨?_, ?_⟩, hname⟩
      · exact ⟨hl.1, Int.le_trans hl.2 (by decide)⟩
      · exact ⟨hc.1, Int.le_trans hc.2 (by decide)⟩
    have htok : ∀ type data line col, TokenType.fromSource type → (∀ txt, type.spelling = some txt → data = ascii txt) →
        data.length < uintSize → 0 ≤ line ∧ line ≤ 9 → 0 ≤ col ∧ col ≤ 9 → Stored ⟨type, data, sampleLoc line col⟩ :=
      fun type data line col hf ht hd hl hc =>
        ⟨⟨hf, ht⟩, (hloc line col hl hc).1, fun _ => hd, (hloc line col hl hc).2⟩
    simp only [sample, List.forall_mem_cons]
    refine ⟨htok _ _ _ _ rfl ?_ (by decide) (by decide) (by decide), htok _ _ _ _ rfl ?_ (by decide) (by decide) (by decide),
      htok _ _ _ _ rfl ?_ (by decide) (by decide) (by decide), htok _ _ _ _ rfl ?_ (by decide) (by decide) (by decide),
      htok _ _ _ _ rfl ?_ (by decide) (by decide) (by decide), fun _ hm => absurd hm List.not_mem_nil⟩
    all_goals
      rintro txt ht
      cases ht
    all_goals rfl
  count := by decide

theorem sample_restored :
    ∃ s' bytes g' d', sample.serialize (fun _ => sampleImport) { digestEnabled := true } = .ok s' ∧
      s'.dst = [] ++ bytes ∧
      (∀ rest, deserialize 0 (({ src := { data := [] }, digestEnabled := true } : Deserializer).feed (bytes ++ rest)) =
        .ok (g', d'.feed rest)) ∧
      List.Forall₂ Same sample.body g'.body ∧ InStep (plain true) s' d' :=
  deserialize_serialize sample_storable true (inStep_start true)
    (fun s' hs => by
      have hv : (sample.serialize (fun _ => sampleImport) { digestEnabled := true }).map (·.overflow) = .ok false := by
        decide +kernel
      rw [hs] at hv
      exact Except.ok.inj hv) 0

end RoundTrip

section Limits

/-- The tokens of a generic that was stored by itself and read again. -/
def replayed (g : Generic) : Option (List Lexer.Token) :=
  match g.serialize (fun _ => sampleImport) {} with
  | .error _ => none
  | .ok s =>
    match deserialize 0 (({ src := { data := [] } } : Deserializer).feed s.dst) with
    | .error _ => none
    | .ok (g', _) => some g'.body

/-- Every token is as it was, its text included. -/
def Restored (g : Generic) : Prop :=
  ∃ body, replayed g = some body ∧ List.Forall₂ (fun tok tok' => Same tok tok' ∧ tok'.data = tok.data) g.body body

def ofBody (body : List Lexer.Token) : Generic := { parms := [], body := body, compileNSImports := [] }

def token (type : TokenType) (data : List UInt8) (col : Int) : Lexer.Token :=
  { type, data, loc := { name := [], lineNumber := 1, startCol := col, endCol := col } }

/-- The keyword `if` comes back without its text. -/
theorem keyword_lost : ¬ Restored (ofBody [token .ifKw (ascii "if") 1]) := by
  rintro ⟨body, hr, hb⟩
  have hv : (replayed (ofBody [token .ifKw (ascii "if") 1])).map (·.map (·.data)) = some [[]] := by decide +kernel
  rw [hr] at hv
  cases hb with
  | cons h hb =>
    cases hb
    have hd := h.2
    simp only [Option.map_some, List.map_cons, List.map_nil, Option.some.injEq, List.cons.injEq, and_true] at hv
    rw [hv] at hd
    exact absurd hd (by decide)

/-- How a string token is stored. -/
theorem serialize_string : ∃ head, ∀ data col, ∃ s, (ofBody [token .string data col]).serialize (fun _ => sampleImport) {} = .ok s ∧
    s.dst = head ++ (uintBytes (data.length % uintSize) ++ (data ++ (uintBytes (toUInt col) ++ uintBytes 0))) := by
  refine ⟨uintBytes (0 % uintSize) ++ (uintBytes (0 % uintSize) ++ (uintBytes (2 % uintSize) ++
    (uintBytes TokenType.lineNumber.value ++ (uintBytes (toUInt 1) ++ uintBytes (TokenType.string.value % uintSize))))),
    fun data col => ⟨_, rfl, ?_⟩⟩
  simp only [ofBody, token, serializeTokens, serializeFullToken, serializeToken, hasData, countTokens, Location.getName,
    List.takeWhile_nil, List.foldl_nil, List.length_nil, List.length_singleton, ne_eq, not_true, if_false,
    writeUInt_eq, writeBlob_eq, emit_emit, Serializer.digestOff]
  simp [Serializer.emit]

theorem emptyString_storable : (ofBody [token .string [] 0]).Storable (fun _ => sampleImport) where
  imports _ hi := absurd hi List.not_mem_nil
  impCount := by decide
  parms _ hx := absurd hx List.not_mem_nil
  parmCount := by decide
  body tok ht := by
    obtain rfl := List.mem_singleton.mp ht
    exact ⟨⟨rfl, fun txt h => by cases h⟩, ⟨by decide, by decide⟩, fun _ => by decide, by decide⟩
  count := by decide

/-- A string whose length is no `unsigned int` comes back as the empty string. -/
theorem string_lost {n : Nat} (hk : n % uintSize = 0) (hn : 2 ≤ n) :
    ¬ Restored (ofBody [token .string (List.replicate n 0) 1]) := by
  obtain ⟨k, rfl⟩ := Nat.exists_eq_add_of_le' hn
  rintro ⟨body, hr, hb⟩
  obtain ⟨head, hhead⟩ := serialize_string
  obtain ⟨s, hs, hdst⟩ := hhead (List.replicate (k + 2) 0) 1
  obtain ⟨t, ht, htdst⟩ := hhead [] 0
  have hf : ∀ s', (ofBody [token .string [] 0]).serialize (fun _ => sampleImport) {} = .ok s' → s'.overflow = false := by
    intro s' hs'
    have hv : ((ofBody [token .string [] 0]).serialize (fun _ => sampleImport) {}).map (·.overflow) = .ok false := by
      decide +kernel
    rw [hs'] at hv
    exact Except.ok.inj hv
  obtain ⟨t', bytes, g', d', ht', hbytes, hread, hsame, -⟩ :=
    deserialize_serialize emptyString_storable false (inStep_start false) hf 0
  obtain rfl := Except.ok.inj (ht.symm.trans ht')
  have hz : uintBytes 0 = [0] := by rw [uintBytes, if_pos (by decide)]; rfl
  have hcol : toUInt 0 = 0 := by decide
  have hlong : s.dst = bytes ++ (List.replicate k 0 ++ (uintBytes (toUInt 1) ++ uintBytes 0)) := by
    rw [htdst] at hbytes
    simp only [List.length_nil, Nat.zero_mod, List.nil_append, hcol, hz] at hbytes
    rw [hdst, ← hbytes, List.length_replicate, hk, hz, List.replicate_succ, List.replicate_succ]
    simp
  have hg : replayed (ofBody [token .string (List.replicate (k + 2) 0) 1]) = some g'.body := by
    simp only [replayed, hs]
    rw [hlong, hread]
  rw [hg] at hr
  obtain rfl := Option.some.inj hr
  generalize g'.body = restored at hsame hb
  cases hb with
  | cons h hb =>
    cases hsame with
    | cons h' _ =>
      have hnil := h'.data rfl
      rw [h.2] at hnil
      exact absurd hnil (by simp [token])

theorem countTokens_replicate (tok : Lexer.Token) (n m : Nat) :
    countTokens (List.replicate n tok) tok.loc.getName tok.loc.lineNumber m = m := by
  induction n with
  | zero => rfl
  | succ n ih =>
    rw [List.replicate_succ, countTokens]
    simp only [ne_eq, not_true, if_false]
    exact ih

theorem semi_stored : Stored (token .semi (ascii ";") 1) where
  lexed := ⟨rfl, fun txt h => by cases h; rfl⟩
  counted := ⟨by decide, by decide⟩
  data := by decide
  name := by decide

theorem serialize_semis (n : Nat) : ∃ s rest,
    (ofBody (List.replicate (n + 1) (token .semi (ascii ";") 1))).serialize (fun _ => sampleImport) {} = .ok s ∧
      s.dst = uintBytes 0 ++ (uintBytes 0 ++ (uintBytes ((n + 2) % uintSize) ++ rest)) := by
  have hcount : countTokens (List.replicate (n + 1) (token .semi (ascii ";") 1)) [] (-1) (n + 1) = n + 2 :=
    countTokens_replicate (token .semi (ascii ";") 1) n (n + 2)
  obtain ⟨s, hs⟩ := serialize_ok (ofBody (List.replicate (n + 1) (token .semi (ascii ";") 1))) (fun _ => sampleImport) {}
  have hs' := hs
  simp only [serialize, serializeTokens_count, Nat.add_zero, if_true, ofBody, List.length_replicate, hcount,
    List.foldl_nil, List.length_nil, Nat.zero_mod] at hs'
  have hm := mirrors_tokens (c := plain false) (List.replicate (n + 1) (token .semi (ascii ";") 1))
    (fun tok ht => List.eq_of_mem_replicate ht ▸ semi_stored)
    (((({} : Serializer).writeUInt 0).writeUInt 0).writeUInt ((n + 2) % uintSize)) [] (-1) 0 0 (.inr (by decide))
  obtain ⟨toks, htoks⟩ := hm.grows
  refine ⟨s, toks ++ uintBytes 0, hs, ?_⟩
  obtain rfl := Except.ok.inj hs'
  rw [writeUInt_eq, Serializer.dst_emit]
  change Serializer.dst _ ++ toks = Serializer.dst _ at htoks
  rw [← htoks]
  simp [writeUInt_eq, Serializer.emit]

theorem deserialize_many (d : Deserializer) (rest : List UInt8) {v : Nat} (hv : v < uintSize) (hneg : toInt v < 0) :
    deserialize 0 (d.feed (uintBytes 0 ++ (uintBytes 0 ++ (uintBytes v ++ rest)))) =
      .error (.check "vector::reserve") := by
  have hz : toInt 0 = 0 := by decide
  have hnone : reserve 0 = pure () := if_neg (by decide)
  rw [deserialize, (reads_uint d (v := 0) (by decide)).then, hz, Int.toNat_zero, readTimes, pure_bind,
    (reads_uint _ (v := 0) (by decide)).then, hz, hnone, Int.toNat_zero, readTimes, pure_bind, pure_bind,
    (reads_uint _ hv).then, reserve, if_pos hneg]
  rfl

/-- A body with more tokens than an `int` counts is not read at all. -/
theorem tokens_lost {n : Nat} (hn : intMax < (n + 1) % uintSize) (hpos : 1 ≤ n) :
    ¬ Restored (ofBody (List.replicate n (token .semi (ascii ";") 1))) := by
  obtain ⟨n, rfl⟩ := Nat.exists_eq_add_of_le' hpos
  have hn' : intMax < (n + 2) % uintSize := hn
  rintro ⟨body, hr, -⟩
  obtain ⟨s, rest, hs, hdst⟩ := serialize_semis n
  have hneg : toInt ((n + 2) % uintSize) < 0 := by
    have hlt : (n + 2) % uintSize < uintSize := Nat.mod_lt _ (by decide)
    rw [toInt, if_neg (by omega)]
    omega
  have hnone : replayed (ofBody (List.replicate (n + 1) (token .semi (ascii ";") 1))) = none := by
    simp only [replayed, hs]
    rw [hdst, deserialize_many _ rest (Nat.mod_lt _ (by decide)) hneg]
  rw [hnone] at hr
  cases hr

/-- The texts of keywords, texts that are too long and bodies that are too long are
lost. -/
theorem not_restored :
    (token .ifKw (ascii "if") 1).Lexed ∧ ¬ Restored (ofBody [token .ifKw (ascii "if") 1]) ∧
      ¬ Restored (ofBody [token .string (List.replicate (2 ^ 32) 0) 1]) ∧
      ¬ Restored (ofBody (List.replicate (2 ^ 31) (token .semi (ascii ";") 1))) :=
  ⟨⟨rfl, fun txt h => by cases h; rfl⟩, keyword_lost, string_lost (by decide) (by decide),
    tokens_lost (by decide) (by decide)⟩

end Limits

end Generic

end Crack
