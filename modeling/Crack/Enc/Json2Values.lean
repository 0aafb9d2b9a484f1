import Crack.Enc.Json2DocReads
import Mathlib.Algebra.GroupWithZero.Nat

/-!
# Values that are parsed

What the default handler makes of the calls for a value, and when it is the value.
-/
namespace Crack

namespace Json2

open Effect Input

variable {F : Type} {strtod : List UInt8 → F} {stack : DefaultHandler F} {d : Doc}

theorem run_append (calls calls' : List (Call F)) :
    stack.run (calls ++ calls') = stack.run calls >>= fun stack' => DefaultHandler.run stack' calls' :=
  List.foldlM_append ..

theorem run_cons (c : Call F) (calls : List (Call F)) :
    stack.run (c :: calls) = stack.handle c >>= fun stack' => DefaultHandler.run stack' calls :=
  List.foldlM_cons ..

theorem run_one (c : Call F) : stack.run [c] = stack.handle c := by
  rw [run_cons]
  cases stack.handle c with
  | ok stack' => rfl
  | error e => rfl

mutual

/-- The calls for a value put its object into the last frame, and leave the others. -/
theorem Doc.run (d : Doc) (frame : Frame F) (stack : DefaultHandler F) :
    DefaultHandler.run (frame :: stack) (d.calls strtod) =
      (frame.add (d.build strtod Quoted.parsed)).map (· :: stack) := by
  match d with
  | .null => exact run_one _
  | .bool b => exact run_one _
  | .number n => exact run_one _
  | .string s => exact run_one _
  | .emptyArray gap =>
    rw [Doc.calls, run_cons]
    exact run_one _
  | .emptyObject gap =>
    rw [Doc.calls, run_cons]
    exact run_one _
  | .array items =>
    rw [Doc.calls, run_cons]
    change DefaultHandler.run (.list [] :: frame :: stack) _ = _
    rw [run_append, items.run]
    exact run_one _
  | .object members =>
    rw [Doc.calls, run_cons]
    change DefaultHandler.run (.object [] none :: frame :: stack) _ = _
    rw [run_append, members.run]
    exact run_one _

theorem Items.run (items : Items) (arr : List (Object F)) (stack : DefaultHandler F) :
    DefaultHandler.run (.list arr :: stack) (items.calls strtod) =
      .ok (.list (arr ++ items.build strtod Quoted.parsed) :: stack) := by
  match items with
  | .last before item behind => exact item.run _ _
  | .more before item behind items =>
    rw [Items.calls, run_append, item.run]
    change DefaultHandler.run (.list (arr ++ [item.build strtod Quoted.parsed]) :: stack) _ = _
    rw [items.run, Items.build, List.append_assoc]
    rfl

theorem Members.run (members : Members) (obj : List (List UInt8 × Object F)) (stack : DefaultHandler F) :
    DefaultHandler.run (.object obj none :: stack) (members.calls strtod) =
      .ok (.object ((members.entries strtod Quoted.parsed).foldl (fun obj e => Object.put obj e.1 e.2) obj) none :: stack) := by
  match members with
  | .last before key gap gap' item behind =>
    rw [Members.calls, run_cons]
    exact item.run (.object obj (some key.parsed)) stack
  | .more before key gap gap' item behind members =>
    rw [Members.calls, run_cons, Members.entries]
    change DefaultHandler.run (.object obj (some key.parsed) :: stack) _ = _
    rw [run_append, item.run]
    exact members.run _ stack

end

/-- The text of a value, with white space before and behind it. -/
def Doc.wholeText (before : Gap) (d : Doc) (behind : Gap) : List UInt8 := before.text ++ (d.text ++ behind.text)

/-- The text is parsed to its end if nothing in it is too long, and only then. -/
theorem reference_eq (before : Gap) (d : Doc) (behind : Gap) :
    (d.Short → reference strtod (d.wholeText before behind) = (d.calls strtod, .value)) ∧
      (¬ d.Short → (reference strtod (d.wholeText before behind)).2 = .wild) := by
  have hdrop : (before.text ++ (d.text ++ behind.text)).dropWhile Http.isSpace = d.text ++ behind.text := by
    rw [Gap.dropWhile_text, Doc.dropWhile_text]
  have hstops := behind.stops stops_nil
  rw [List.append_nil] at hstops
  have hgives : GivesIf d.Short (parse strtod (enough (d.wholeText before behind)))
      (Text.init (d.wholeText before behind) : Text F) fun _ t' => At behind.text ([] ++ d.calls strtod) t' :=
    d.gives _ ⟨rfl, rfl⟩ hdrop hstops (Nat.le_refl _)
  rw [reference, log]
  cases hm : parse strtod (enough (d.wholeText before behind)) (Text.init (d.wholeText before behind) : Text F) with
  | mk r t =>
    cases r with
    | ok a =>
      obtain ⟨hshort, hat⟩ := hgives.ok hm
      refine ⟨fun _ => ?_, fun hlong => absurd hshort hlong⟩
      rw [hat.calls]
      rfl
    | error e =>
      obtain ⟨hlong, rfl⟩ := hgives.error hm
      exact ⟨fun hshort => absurd hshort hlong, fun _ => rfl⟩

theorem ending_value {r : Except Failure Unit} (h : ending r = .value) : r = .ok () := by
  cases r with
  | ok a => rfl
  | error e =>
    cases e with
    | stop s => cases s <;> cases h
    | _ => cases h

/-- What the parser asks for makes the reader begin a read from 2 ^ 31 on. -/
def ReadsFar (strtod : List UInt8 → F) (text : List UInt8) : Prop :=
  Supply.Far ⟨0, ⟨text, stringReader⟩, farBytes text⟩ (log strtod text)

/-- The parser does what the text makes it do, or reads too far. -/
theorem parse_reader (strtod : List UInt8 → F) (text : List UInt8) :
    ¬ ReadsFar strtod text ∧ (parseText strtod text stringReader (farBytes text)).2.handler = (reference strtod text).1 ∧
        ending (parseText strtod text stringReader (farBytes text)).1 = (reference strtod text).2 ∨
      ReadsFar strtod text ∧ (parseText strtod text stringReader (farBytes text)).1 = .error (.stop .wildAccess) := by
  rcases after_parse strtod text stringReader (farBytes text) with ⟨hsame, hrel⟩ | ⟨n, hcut, -⟩ | hfar
  · exact .inl ⟨hrel.near, hrel.handler, ending_same hsame⟩
  · have hwide : ∀ i, 4 ≤ stringReader i := fun i => by
      rw [stringReader]
      decide
    cases (firstCut_log hwide).symm.trans hcut
  · exact .inr hfar

/-- What the parser and the handler make of a text. -/
theorem drive_eq (before : Gap) (behind : Gap) (h : d.Short) (hnear : ¬ ReadsFar strtod (d.wholeText before behind)) :
    drive strtod (d.wholeText before behind) = .ok [.top (d.build strtod Quoted.parsed)] := by
  rcases parse_reader strtod (d.wholeText before behind) with ⟨-, hcalls, hend⟩ | ⟨hfar, -⟩
  · rw [(reference_eq before d behind).1 h] at hcalls hend
    rw [drive, handled, hcalls, ending_value hend, DefaultHandler.init, d.run]
    rfl
  · exact absurd hfar hnear

theorem drive_far (before : Gap) (behind : Gap) (h : ¬ (d.Short ∧ ¬ ReadsFar strtod (d.wholeText before behind)))
    (stack : DefaultHandler F) : drive strtod (d.wholeText before behind) ≠ .ok stack := by
  rw [drive, handled]
  cases hr : (parseText strtod (d.wholeText before behind) stringReader (farBytes (d.wholeText before behind))).1 with
  | ok a =>
    rcases parse_reader strtod (d.wholeText before behind) with ⟨hnear, -, hend⟩ | ⟨-, he⟩
    · rw [hr, (reference_eq before d behind).2 fun hshort => h ⟨hshort, hnear⟩] at hend
      cases hend
    · cases hr.symm.trans he
  | error e =>
    split
    · exact fun he => nomatch he
    · exact fun he => nomatch he

theorem Piece.parsed_eq {p : Piece} (h : ¬ p.IsPair) : p.parsed = String.utf8EncodeChar p.char := by
  cases p with
  | raw c hc => rfl
  | escape e => rfl
  | unit u hu => rfl
  | pair hi lo hhi hlo => exact absurd trivial h

theorem length_encode_le (c : Char) : (String.utf8EncodeChar c).length ≤ 4 := by
  rw [String.utf8EncodeChar]
  split
  · exact Nat.le_add_left 1 3
  · split
    · exact Nat.le_add_left 2 2
    · split
      · exact Nat.le_add_left 3 1
      · exact Nat.le_refl 4

theorem length_utf8Char {n : Nat} (h : 0xd800 ≤ n ∧ n < 0xe000) : (utf8Char n).length = 3 := by
  rw [utf8Char, if_neg (by omega), if_neg (by omega), if_pos (by omega)]
  rfl

/-- Two surrogates take six bytes, the character at most four. -/
theorem Piece.length_parsed (p : Piece) : (String.utf8EncodeChar p.char).length ≤ p.parsed.length ∧
    (p.IsPair → (String.utf8EncodeChar p.char).length < p.parsed.length) := by
  cases p with
  | raw c hc => exact ⟨Nat.le_refl _, False.elim⟩
  | escape e => exact ⟨Nat.le_refl _, False.elim⟩
  | unit u hu => exact ⟨Nat.le_refl _, False.elim⟩
  | pair hi lo hhi hlo =>
    have hlen : (Piece.pair hi lo hhi hlo).parsed.length = 6 := by
      rw [Piece.parsed, List.length_append, length_utf8Char ⟨hhi.1, Nat.lt_trans hhi.2 (by decide)⟩,
        length_utf8Char ⟨Nat.le_trans (by decide) hlo.1, hlo.2⟩]
    have hle := length_encode_le (Piece.pair hi lo hhi hlo).char
    exact ⟨by omega, fun _ => by omega⟩

theorem Quoted.length_parsed (s : Quoted) :
    s.value.length ≤ s.parsed.length ∧ (s.Paired → s.value.length < s.parsed.length) := by
  induction s with
  | nil => exact ⟨Nat.le_refl _, fun ⟨_, hp, _⟩ => absurd hp List.not_mem_nil⟩
  | cons p s ih =>
    obtain ⟨hle, hlt⟩ := p.length_parsed
    obtain ⟨hles, hlts⟩ := ih
    change ((String.utf8EncodeChar p.char) ++ Quoted.value s).length ≤ (p.parsed ++ Quoted.parsed s).length ∧
      (_ → ((String.utf8EncodeChar p.char) ++ Quoted.value s).length < (p.parsed ++ Quoted.parsed s).length)
    rw [List.length_append, List.length_append]
    refine ⟨by omega, fun ⟨p', hp', hpair⟩ => ?_⟩
    rcases List.mem_cons.mp hp' with rfl | hp'
    · have hlt' := hlt hpair
      omega
    · have hlt' := hlts ⟨p', hp', hpair⟩
      omega

theorem Quoted.parsed_eq {s : Quoted} (h : ¬ s.Paired) : s.parsed = s.value := by
  induction s with
  | nil => rfl
  | cons p s ih =>
    change p.parsed ++ Quoted.parsed s = String.utf8EncodeChar p.char ++ Quoted.value s
    rw [Piece.parsed_eq fun hp => h ⟨p, List.mem_cons_self, hp⟩,
      ih fun ⟨p', hp', hpair⟩ => h ⟨p', List.mem_cons_of_mem _ hp', hpair⟩]

theorem Quoted.parsed_eq_iff (s : Quoted) : s.parsed = s.value ↔ ¬ s.Paired := by
  refine ⟨fun he hp => ?_, Quoted.parsed_eq⟩
  have hlt := s.length_parsed.2 hp
  rw [he] at hlt
  exact Nat.lt_irrefl _ hlt

/-- Keys of the same total length are all right. -/
theorem keys_unpaired {keys : List Quoted}
    (h : (keys.map fun s => s.parsed.length).sum = (keys.map fun s => s.value.length).sum) :
    ∀ s ∈ keys, ¬ s.Paired := by
  have hle (keys : List Quoted) :
      (keys.map fun s => s.value.length).sum ≤ (keys.map fun s => s.parsed.length).sum := by
    induction keys with
    | nil => exact Nat.le_refl _
    | cons s keys ih => exact Nat.add_le_add s.length_parsed.1 ih
  induction keys with
  | nil => exact fun s hs => absurd hs List.not_mem_nil
  | cons s keys ih =>
    have hone := s.length_parsed
    have hrest := hle keys
    change s.parsed.length + (keys.map fun s => s.parsed.length).sum =
      s.value.length + (keys.map fun s => s.value.length).sum at h
    intro s' hs' hpair
    rcases List.mem_cons.mp hs' with rfl | hs'
    · have hlt := hone.2 hpair
      omega
    · exact ih (by omega) s' hs' hpair

theorem Members.entries_keys (string : Quoted → List UInt8) (members : Members) :
    (members.entries strtod string).map Prod.fst = members.keys.map string := by
  match members with
  | .last before key gap gap' item behind => rfl
  | .more before key gap gap' item behind members =>
    rw [Members.entries, List.map_cons, Members.entries_keys string members]
    rfl

/-- Maps of the entries are equal only if the entries are. -/
theorem Members.entries_eq {members : Members} (hnodup : (members.keys.map Quoted.value).Nodup)
    (h : SortedMap.placeAll keyOrder [] (members.entries strtod Quoted.parsed) =
      SortedMap.placeAll keyOrder [] (members.entries strtod Quoted.value)) :
    members.entries strtod Quoted.parsed = members.entries strtod Quoted.value := by
  have hkeys : (members.entries strtod Quoted.value).map Prod.fst = members.keys.map Quoted.value :=
    members.entries_keys Quoted.value
  have hkeys' : (members.entries strtod Quoted.parsed).map Prod.fst = members.keys.map Quoted.parsed :=
    members.entries_keys Quoted.parsed
  have hlen : (members.entries strtod Quoted.parsed).length = (members.entries strtod Quoted.value).length := by
    have hvalues := congrArg List.length hkeys
    have hparsed := congrArg List.length hkeys'
    rw [List.length_map, List.length_map] at hvalues hparsed
    rw [hvalues, hparsed]
  have hnone (es : List (List UInt8 × Object F)) : ∀ e ∈ es, ∀ e' ∈ ([] : List (List UInt8 × Object F)), e'.1 ≠ e.1 :=
    fun _ _ _ he' => absurd he' List.not_mem_nil
  have hperm : (SortedMap.placeAll keyOrder [] (members.entries strtod Quoted.value)).Perm
      ([] ++ members.entries strtod Quoted.value) := SortedMap.perm_placeAll (hkeys ▸ hnodup) (hnone _)
  have hwhole : ([] : List (List UInt8 × Object F)).length + (members.entries strtod Quoted.parsed).length ≤
      (SortedMap.placeAll keyOrder [] (members.entries strtod Quoted.parsed)).length := by
    rw [h, hperm.length_eq, List.nil_append, List.length_nil, hlen]
    omega
  obtain ⟨hnodup', -⟩ := SortedMap.nodup_of_length .nil hwhole
  have hperm' : (SortedMap.placeAll keyOrder [] (members.entries strtod Quoted.parsed)).Perm
      ([] ++ members.entries strtod Quoted.parsed) := SortedMap.perm_placeAll hnodup' (hnone _)
  rw [List.nil_append] at hperm hperm'
  have hsame : (members.entries strtod Quoted.parsed).Perm (members.entries strtod Quoted.value) :=
    hperm'.symm.trans (h ▸ hperm)
  have hsum := ((hsame.map Prod.fst).map List.length).sum_nat
  rw [hkeys, hkeys', List.map_map, List.map_map] at hsum
  have hright := keys_unpaired hsum
  refine SortedMap.eq_of_perm hsame ?_ (hkeys ▸ hnodup)
  rw [hkeys, hkeys']
  exact List.map_congr_left fun s hs => Quoted.parsed_eq (hright s hs)

mutual

theorem Doc.build_eq_iff (d : Doc) (h : d.Distinct) :
    d.build strtod Quoted.parsed = d.build strtod Quoted.value ↔ ¬ d.Paired := by
  match d with
  | .null => exact ⟨fun _ => id, fun _ => rfl⟩
  | .bool b => exact ⟨fun _ => id, fun _ => rfl⟩
  | .number n => exact ⟨fun _ => id, fun _ => rfl⟩
  | .emptyArray gap => exact ⟨fun _ => id, fun _ => rfl⟩
  | .emptyObject gap => exact ⟨fun _ => id, fun _ => rfl⟩
  | .string s =>
    rw [Doc.build, Doc.build, Object.string.injEq]
    exact s.parsed_eq_iff
  | .array items =>
    rw [Doc.build, Doc.build, Object.list.injEq]
    exact items.build_eq_iff h
  | .object members =>
    rw [Doc.build, Doc.build, Object.map.injEq]
    refine Iff.trans ⟨Members.entries_eq h.1, fun he => ?_⟩ (members.entries_eq_iff h.2)
    rw [he]

theorem Items.build_eq_iff (items : Items) (h : items.Distinct) :
    items.build strtod Quoted.parsed = items.build strtod Quoted.value ↔ ¬ items.Paired := by
  match items with
  | .last before item behind =>
    rw [Items.build, Items.build, List.cons.injEq, and_iff_left rfl]
    exact item.build_eq_iff h
  | .more before item behind items =>
    rw [Items.build, Items.build, List.cons.injEq, item.build_eq_iff h.1, items.build_eq_iff h.2]
    exact not_or.symm

theorem Members.entries_eq_iff (members : Members) (h : members.Distinct) :
    members.entries strtod Quoted.parsed = members.entries strtod Quoted.value ↔ ¬ members.Paired := by
  match members with
  | .last before key gap gap' item behind =>
    rw [Members.entries, Members.entries, List.cons.injEq, and_iff_left rfl, Prod.mk.injEq, key.parsed_eq_iff,
      item.build_eq_iff h]
    exact not_or.symm
  | .more before key gap gap' item behind members =>
    rw [Members.entries, Members.entries, List.cons.injEq, Prod.mk.injEq, key.parsed_eq_iff, item.build_eq_iff h.1,
      members.entries_eq_iff h.2, and_assoc, ← not_or, ← not_or]
    exact Iff.rfl

end

/-- A text yields its value, with the stack back to the top frame, exactly if no character is written as two
surrogates, nothing is too long, and no read begins too far on. -/
theorem value_yielded_iff (strtod : List UInt8 → F) (before : Gap) (d : Doc) (behind : Gap) (h : d.Distinct) :
    drive strtod (d.wholeText before behind) = .ok [.top (d.value strtod)] ∧
        parseJson strtod (d.wholeText before behind) = .ok (d.value strtod) ↔
      ¬ d.Paired ∧ d.Short ∧ ¬ ReadsFar strtod (d.wholeText before behind) := by
  have hiff : d.build strtod Quoted.parsed = d.build strtod Quoted.value ↔ ¬ d.Paired := d.build_eq_iff h
  rw [← hiff]
  refine ⟨fun ⟨hstack, _⟩ => ?_, fun ⟨he, hshort, hnear⟩ => ?_⟩
  · have hsmall : d.Short ∧ ¬ ReadsFar strtod (d.wholeText before behind) := by
      by_contra hlong
      exact drive_far before behind hlong _ hstack
    rw [drive_eq before behind hsmall.1 hsmall.2] at hstack
    have htop := (List.cons.inj (Except.ok.inj hstack)).1
    exact ⟨Frame.top.inj htop, hsmall⟩
  · rw [parseJson, drive_eq before behind hshort hnear, he]
    exact ⟨rfl, rfl⟩

/-- A text that an `int` counts is read to its end. -/
theorem not_readsFar {text : List UInt8} (h : text.length ≤ 2 ^ 31) : ¬ ReadsFar strtod text :=
  Supply.not_far (Nat.sub_eq_zero_of_le h)

/-- `{"a" : null,"n":[ "\n"]}` -/
def sampleMembers : Doc := .object (.more [] [.raw 'a' (by decide)] [.space] [.space] .null []
  (.last [] [.raw 'n' (by decide)] [] [] (.array (.last [.space] (.string [.escape .lineFeed]) [])) []))

theorem sample_yielded : drive (fun _ => ()) (sampleMembers.wholeText [] []) =
      .ok [.top (sampleMembers.value fun _ => ())] ∧
    parseJson (fun _ => ()) (sampleMembers.wholeText [] []) = .ok (sampleMembers.value fun _ => ()) := by
  have hitem : (Doc.string [.escape .lineFeed]).Short := by
    rw [Doc.Short]
    decide
  refine (value_yielded_iff (fun _ => ()) [] sampleMembers [] ⟨by decide, trivial, trivial⟩).mpr
    ⟨?_, ⟨by decide, trivial, by decide, hitem⟩, not_readsFar (by decide)⟩
  rintro (⟨p, hp, hpair⟩ | h | ⟨p, hp, hpair⟩ | ⟨p, hp, hpair⟩)
  · cases List.mem_singleton.mp hp
    exact hpair
  · exact h
  · cases List.mem_singleton.mp hp
    exact hpair
  · cases List.mem_singleton.mp hp
    exact hpair

def highSurrogate : CodeUnit := ⟨⟨13, false⟩, ⟨8, false⟩, ⟨3, false⟩, ⟨13, false⟩⟩

def lowSurrogate : CodeUnit := ⟨⟨13, false⟩, ⟨14, false⟩, ⟨0, false⟩, ⟨0, false⟩⟩

/-- A string of one character, `U+1F600`, that is written as `\ud83d\ude00`. -/
def pairString : Doc := .string [.pair highSurrogate lowSurrogate (by decide) (by decide)]

/-- The string that the parser makes of it is not UTF-8. -/
theorem pair_garbled : drive (fun _ => ()) (pairString.wholeText [] []) ≠
    .ok [.top (pairString.value fun _ => ())] := by
  have hshort : pairString.Short := by
    rw [pairString, Doc.Short]
    decide
  rw [drive_eq [] [] hshort (not_readsFar (by decide))]
  intro h
  have htop := Frame.top.inj (List.cons.inj (Except.ok.inj h)).1
  have hbytes := Object.string.inj htop
  exact absurd hbytes (by decide)

end Json2

end Crack
