import Crack.Http.UriEscapes

/-!
# Queries

`parseQuery` undoes the escapes of a query before it splits it, and adds what is found to a map.
-/
namespace Crack

namespace Uri

abbrev Pairs := List (List UInt8 × List UInt8)

/-- What `parseUnescapedQuery` has between two characters, with the pairs that are added. State 0 is before
`=`, 1 behind it. -/
structure QueryScan where
  state : Nat
  var : ManagedBuffer
  value : ManagedBuffer
  result : Pairs

def QueryScan.parseByte (s : QueryScan) (ch : UInt8) : Except Stop QueryScan :=
  if s.state = 0 then
    if ch = 61 then .ok { s with state := 1 }
    else do
      let var ← s.var.append ch
      return { s with var }
  else if ch = 38 then
    .ok ⟨0, { s.var with size := 0 }, { s.value with size := 0 }, s.result ++ [(s.var.data, s.value.data)]⟩
  else do
    let value ← s.value.append ch
    return { s with value }

def QueryScan.finish (s : QueryScan) (permissive : Bool) : Except Stop Pairs :=
  if s.state = 1 then .ok (s.result ++ [(s.var.data, s.value.data)])
  else if s.var.size ≠ 0 ∧ permissive = false then
    .error (.thrown "Trailing name at the end of a query string.")
  else .ok s.result

def parseUnescapedQuery (contents : List UInt8) (permissive : Bool) : Except Stop Pairs := do
  let s ← (contents.take (intSize contents.length)).foldlM QueryScan.parseByte ⟨0, .init 32, .init 32, []⟩
  s.finish permissive

/-- `parseQuery(Buffer contents)` -/
def parseQuery (contents : List UInt8) : Except Stop Pairs := do
  let contents ← decode contents false true
  parseUnescapedQuery contents false

/-- A name and its value, encoded. -/
def encodePair (p : List UInt8 × List UInt8) : Except Stop (List UInt8) := do
  let name ← encodeForURI p.1 uriQueryVal
  let value ← encodeForURI p.2 uriQueryVal
  return name ++ 61 :: value

/-- Encoded pairs, joined with `&`. -/
def encodeQuery : Pairs → Except Stop (List UInt8)
  | [] => .ok []
  | [p] => encodePair p
  | p :: q :: pairs => do
    let pair ← encodePair p
    let query ← encodeQuery (q :: pairs)
    return pair ++ 38 :: query

/-- Pairs are found again in the query that is made of them. -/
def QueryKept (pairs : Pairs) : Prop := ∃ query, encodeQuery pairs = .ok query ∧ parseQuery query = .ok pairs

/-- How long a part of a query is. -/
def partLength (bs : List UInt8) : Nat := bs.length + 2 * escapes uriQueryVal bs false

def queryLength : Pairs → Nat
  | [] => 0
  | [p] => partLength p.1 + partLength p.2 + 1
  | p :: q :: pairs => partLength p.1 + partLength p.2 + 2 + queryLength (q :: pairs)

structure QueryCursor where
  state : Nat
  var : List UInt8
  value : List UInt8
  pairs : Pairs
  deriving DecidableEq, Repr

namespace QueryCursor

def step (c : QueryCursor) (ch : UInt8) : QueryCursor :=
  if c.state = 0 then if ch = 61 then { c with state := 1 } else { c with var := c.var ++ [ch] }
  else if ch = 38 then ⟨0, [], [], c.pairs ++ [(c.var, c.value)]⟩
  else { c with value := c.value ++ [ch] }

def read (c : QueryCursor) (text : List UInt8) : QueryCursor := text.foldl step c

def finish (c : QueryCursor) : Option Pairs :=
  if c.state = 1 then some (c.pairs ++ [(c.var, c.value)]) else if c.var = [] then some c.pairs else none

end QueryCursor

def QueryScan.cursor (s : QueryScan) : QueryCursor := ⟨s.state, s.var.data, s.value.data, s.result⟩

open ManagedBuffer
open Loops (bind_ok)
open Simulation (Follows)

variable {pairs : Pairs} {s s' : QueryScan} {c : QueryCursor} {p : List UInt8 × List UInt8} {n : Nat}

/-- The buffers hold what they should. -/
def Tracks (s : QueryScan) (c : QueryCursor) : Prop := s.var.Sound ∧ s.value.Sound ∧ s.cursor = c

theorem parseByte_follows :
    Follows QueryScan.parseByte QueryCursor.step Tracks (fun c => c.var.length + c.value.length) (2 ^ 31) := by
  constructor
  · rintro s c ch s' ⟨hvar, hvalue, rfl⟩ he
    rw [QueryScan.parseByte] at he
    rw [QueryCursor.step]
    change Tracks s' (if s.state = 0 then _ else _)
    split at he
    next h0 =>
      rw [if_pos h0]
      split at he
      next heq =>
        cases he
        rw [if_pos heq]
        exact ⟨hvar, hvalue, rfl⟩
      next heq =>
        obtain ⟨var, happend, he⟩ := bind_ok he
        cases he
        obtain ⟨hsound, hdata⟩ := (appends_append ch).only _ _ hvar happend
        rw [if_neg heq]
        refine ⟨hsound, hvalue, ?_⟩
        rw [QueryScan.cursor, hdata]
        rfl
    next h0 =>
      rw [if_neg h0]
      split at he
      next hamp =>
        cases he
        rw [if_pos hamp]
        exact ⟨⟨Nat.zero_le _, hvar.2⟩, ⟨Nat.zero_le _, hvalue.2⟩, rfl⟩
      next hamp =>
        obtain ⟨value, happend, he⟩ := bind_ok he
        cases he
        obtain ⟨hsound, hdata⟩ := (appends_append ch).only _ _ hvalue happend
        rw [if_neg hamp]
        refine ⟨hvar, hsound, ?_⟩
        rw [QueryScan.cursor, hdata]
        rfl
  · rintro s c ch ⟨hvar, hvalue, rfl⟩ hroom
    have hsizes : s.var.data.length + s.value.data.length < 2 ^ 31 := hroom
    rw [length_data hvar.1, length_data hvalue.1] at hsizes
    obtain ⟨var, hvar'⟩ := (appends_append ch).total _ hvar (by rw [List.length_singleton]; omega)
    obtain ⟨value, hvalue'⟩ := (appends_append ch).total _ hvalue (by rw [List.length_singleton]; omega)
    rw [QueryScan.parseByte, hvar', hvalue']
    split
    · split
      · exact ⟨_, rfl⟩
      · exact ⟨_, rfl⟩
    · split
      · exact ⟨_, rfl⟩
      · exact ⟨_, rfl⟩
  · intro c ch
    rw [QueryCursor.step]
    split
    · split
      · exact Nat.le_succ _
      · simp only [List.length_append, List.length_singleton]
        omega
    · split
      · exact Nat.zero_le _
      · simp only [List.length_append, List.length_singleton]
        omega

theorem finish_iff (h : Tracks s c) : s.finish false = .ok pairs ↔ c.finish = some pairs := by
  obtain ⟨hvar, hvalue, rfl⟩ := h
  have hempty : s.cursor.var = [] ↔ s.var.size = 0 := by
    rw [← length_data hvar.1]
    exact List.length_eq_zero_iff.symm
  rw [QueryScan.finish, QueryCursor.finish]
  change _ ↔ (if s.state = 1 then _ else _) = _
  by_cases h1 : s.state = 1
  · rw [if_pos h1, if_pos h1, Except.ok.injEq, Option.some.injEq]
    exact Iff.rfl
  rw [if_neg h1, if_neg h1]
  by_cases h0 : s.var.size = 0
  · rw [if_neg (fun h => h.1 h0), if_pos (hempty.mpr h0), Except.ok.injEq, Option.some.injEq]
    exact Iff.rfl
  · rw [if_pos ⟨h0, rfl⟩, if_neg (fun h => h0 (hempty.mp h))]
    exact ⟨fun h => (by cases h), fun h => (by cases h)⟩

/-- Where a query begins. -/
def QueryCursor.init : QueryCursor := ⟨0, [], [], []⟩

theorem tracks_init : Tracks ⟨0, .init 32, .init 32, []⟩ .init :=
  ⟨sound_init (by decide), sound_init (by decide), rfl⟩

theorem parseUnescapedQuery_iff (contents : List UInt8) :
    parseUnescapedQuery contents false = .ok pairs ↔
      (QueryCursor.init.read (contents.take (intSize contents.length))).finish = some pairs := by
  have hlen := length_take_intSize contents
  obtain ⟨s, he⟩ := parseByte_follows.foldlM_total tracks_init (contents.take (intSize contents.length)) (by
    rw [show QueryCursor.init.var.length + QueryCursor.init.value.length = 0 from rfl]
    omega)
  have htracks := parseByte_follows.foldlM_only tracks_init he
  rw [parseUnescapedQuery, he]
  exact finish_iff htracks

def encodedPair (p : List UInt8 × List UInt8) : List UInt8 :=
  encodedAll uriQueryVal p.1 false ++ 61 :: encodedAll uriQueryVal p.2 false

def encodedQuery : Pairs → List UInt8
  | [] => []
  | [p] => encodedPair p
  | p :: q :: pairs => encodedPair p ++ 38 :: encodedQuery (q :: pairs)

/-- The query without escapes. -/
def plainQuery : Pairs → List UInt8
  | [] => []
  | [p] => p.1 ++ 61 :: p.2
  | p :: q :: pairs => p.1 ++ 61 :: p.2 ++ 38 :: plainQuery (q :: pairs)

theorem decoded_pair (p : List UInt8 × List UInt8) : Decoded true (encodedPair p) (p.1 ++ 61 :: p.2) := by
  have hpart : ∀ bs, Decoded true (encodedAll uriQueryVal bs false) bs := fun bs =>
    decoded_encodedAll (by decide) (fun _ => rfl) bs false
  exact (hpart p.1).append (.plain (by decide) (fun _ => by decide) (hpart p.2))

theorem decoded_query (pairs : Pairs) : Decoded true (encodedQuery pairs) (plainQuery pairs) := by
  fun_induction encodedQuery pairs with
  | case1 => exact .nil
  | case2 p => exact decoded_pair p
  | case3 p q pairs ih => exact (decoded_pair p).append (.plain (by decide) (fun _ => by decide) ih)

theorem length_encodedPair (p : List UInt8 × List UInt8) :
    (encodedPair p).length = partLength p.1 + partLength p.2 + 1 := by
  rw [encodedPair, List.length_append, List.length_cons, length_encodedAll, length_encodedAll]
  rfl

theorem length_encodedQuery (pairs : Pairs) : (encodedQuery pairs).length = queryLength pairs := by
  fun_induction encodedQuery pairs with
  | case1 => rfl
  | case2 p => exact length_encodedPair p
  | case3 p q pairs ih =>
    rw [List.length_append, List.length_cons, ih, length_encodedPair, queryLength]
    omega

/-- What the pairs take, each with two separators. -/
def pairsSize : Pairs → Nat
  | [] => 0
  | p :: pairs => p.1.length + p.2.length + 2 + pairsSize pairs

theorem escapes_le (bs : List UInt8) (gotSlash : Bool) : escapes uriQueryVal bs gotSlash ≤ bs.length := by
  induction bs generalizing gotSlash with
  | nil => exact Nat.le_refl _
  | cons b bs ih =>
    have hrest := ih (gotSlash || b == 47)
    rw [escapes, List.length_cons]
    split <;> omega

theorem partLength_le (bs : List UInt8) : partLength bs ≤ 3 * bs.length := by
  have hle := escapes_le bs false
  rw [partLength]
  omega

/-- A query is less than three times as long as what it stands for. -/
theorem queryLength_le (h : pairs ≠ []) : queryLength pairs + 4 ≤ 3 * pairsSize pairs := by
  fun_induction queryLength pairs with
  | case1 => exact absurd rfl h
  | case2 p =>
    have hname := partLength_le p.1
    have hvalue := partLength_le p.2
    rw [pairsSize]
    omega
  | case3 p q pairs ih =>
    have hname := partLength_le p.1
    have hvalue := partLength_le p.2
    have hrest := ih (List.cons_ne_nil q pairs)
    rw [pairsSize]
    omega

theorem partLength_le_queryLength (hp : p ∈ pairs) : partLength p.1 + partLength p.2 + 1 ≤ queryLength pairs := by
  fun_induction queryLength pairs with
  | case1 => cases hp
  | case2 q =>
    obtain rfl := List.mem_singleton.mp hp
    exact Nat.le_refl _
  | case3 q r pairs ih =>
    rcases List.mem_cons.mp hp with rfl | hmem
    · omega
    · have hle := ih hmem
      omega

theorem length_le_pairsSize (hp : p ∈ pairs) : p.1.length + p.2.length + 2 ≤ pairsSize pairs := by
  induction pairs with
  | nil => cases hp
  | cons q pairs ih =>
    rw [pairsSize]
    rcases List.mem_cons.mp hp with rfl | hmem
    · omega
    · have hle := ih hmem
      omega

/-- Names and values that are not too long to be looped over. -/
def Short (pairs : Pairs) : Prop := ∀ p ∈ pairs, p.1.length < 2 ^ 31 ∧ p.2.length < 2 ^ 31

theorem encodePair_spec (h : p.1.length < 2 ^ 31 ∧ p.2.length < 2 ^ 31) :
    (partLength p.1 + partLength p.2 ≤ 2 ^ 31 → encodePair p = .ok (encodedPair p)) ∧
      ∀ pair, encodePair p = .ok pair → pair = encodedPair p := by
  obtain ⟨hname, hname'⟩ := encodeForURI_spec uriQueryVal h.1
  obtain ⟨hvalue, hvalue'⟩ := encodeForURI_spec uriQueryVal h.2
  rw [length_encodedAll] at hname hvalue
  constructor
  · intro hle
    rw [partLength, partLength] at hle
    rw [encodePair, hname (by omega), hvalue (by omega)]
    rfl
  · intro pair he
    obtain ⟨name, hencode, he⟩ := bind_ok he
    obtain ⟨value, hencode', he⟩ := bind_ok he
    cases he
    rw [(hname' name hencode).1, (hvalue' value hencode').1, encodedPair]

theorem encodeQuery_ok (h : queryLength pairs ≤ 2 ^ 31) : encodeQuery pairs = .ok (encodedQuery pairs) := by
  have hpair : ∀ p ∈ pairs, encodePair p = .ok (encodedPair p) := by
    intro p hp
    have hle := partLength_le_queryLength hp
    rw [partLength, partLength] at hle
    refine (encodePair_spec ⟨by omega, by omega⟩).1 ?_
    rw [partLength, partLength]
    omega
  clear h
  fun_induction encodeQuery pairs with
  | case1 => rfl
  | case2 p => exact hpair p List.mem_cons_self
  | case3 p q pairs ih =>
    rw [hpair p List.mem_cons_self, ih fun r hr => hpair r (List.mem_cons_of_mem _ hr)]
    rfl

theorem encodeQuery_only {query : List UInt8} (h : Short pairs) (he : encodeQuery pairs = .ok query) :
    query = encodedQuery pairs := by
  fun_induction encodeQuery pairs generalizing query with
  | case1 =>
    cases he
    rfl
  | case2 p => exact (encodePair_spec (h p List.mem_cons_self)).2 query he
  | case3 p q pairs ih =>
    obtain ⟨pair, hpair, he⟩ := bind_ok he
    obtain ⟨rest, hrest, he⟩ := bind_ok he
    cases he
    rw [(encodePair_spec (h p List.mem_cons_self)).2 pair hpair,
      ih (fun r hr => h r (List.mem_cons_of_mem _ hr)) hrest, encodedQuery]

theorem QueryCursor.read_append (c : QueryCursor) (xs ys : List UInt8) : c.read (xs ++ ys) = (c.read xs).read ys :=
  List.foldl_append

theorem QueryCursor.read_cons (c : QueryCursor) (ch : UInt8) (xs : List UInt8) :
    c.read (ch :: xs) = (c.step ch).read xs := rfl

/-- A name up to its end. -/
theorem read_name {name var value : List UInt8} (h : 61 ∉ name) :
    QueryCursor.read ⟨0, var, value, pairs⟩ name = ⟨0, var ++ name, value, pairs⟩ := by
  induction name generalizing var with
  | nil =>
    rw [List.append_nil]
    rfl
  | cons ch name ih =>
    have hch : ch ≠ 61 := fun heq => h (heq ▸ List.mem_cons_self)
    have hstep : QueryCursor.step ⟨0, var, value, pairs⟩ ch = ⟨0, var ++ [ch], value, pairs⟩ := if_neg hch
    rw [QueryCursor.read_cons, hstep, ih fun hmem => h (List.mem_cons_of_mem _ hmem), List.append_assoc]
    rfl

theorem read_value {var value text : List UInt8} (h : 38 ∉ text) :
    QueryCursor.read ⟨1, var, value, pairs⟩ text = ⟨1, var, value ++ text, pairs⟩ := by
  induction text generalizing value with
  | nil =>
    rw [List.append_nil]
    rfl
  | cons ch text ih =>
    have hch : ch ≠ 38 := fun heq => h (heq ▸ List.mem_cons_self)
    have hstep : QueryCursor.step ⟨1, var, value, pairs⟩ ch = ⟨1, var, value ++ [ch], pairs⟩ := if_neg hch
    rw [QueryCursor.read_cons, hstep, ih fun hmem => h (List.mem_cons_of_mem _ hmem), List.append_assoc]
    rfl

theorem read_pair (hname : 61 ∉ p.1) (hvalue : 38 ∉ p.2) :
    QueryCursor.read ⟨0, [], [], pairs⟩ (p.1 ++ 61 :: p.2) = ⟨1, p.1, p.2, pairs⟩ := by
  rw [QueryCursor.read_append, read_name hname, QueryCursor.read_cons]
  exact read_value hvalue

theorem read_query {before : Pairs} (hnames : ∀ p ∈ pairs, 61 ∉ p.1) (hvalues : ∀ p ∈ pairs, 38 ∉ p.2) :
    (QueryCursor.read ⟨0, [], [], before⟩ (plainQuery pairs)).finish = some (before ++ pairs) := by
  fun_induction plainQuery pairs generalizing before with
  | case1 =>
    rw [List.append_nil]
    rfl
  | case2 p =>
    rw [read_pair (hnames p List.mem_cons_self) (hvalues p List.mem_cons_self)]
    rfl
  | case3 p q pairs ih =>
    have hnext : QueryCursor.step ⟨1, p.1, p.2, before⟩ 38 = ⟨0, [], [], before ++ [p]⟩ := rfl
    rw [QueryCursor.read_append, read_pair (hnames p List.mem_cons_self) (hvalues p List.mem_cons_self),
      QueryCursor.read_cons, hnext, ih (fun r hr => hnames r (List.mem_cons_of_mem _ hr))
        (fun r hr => hvalues r (List.mem_cons_of_mem _ hr)), List.append_assoc]
    rfl

/-- What the machine has taken up, and the values, which have no `&`. -/
structure QueryCursor.Within (c : QueryCursor) (n : Nat) : Prop where
  state : c.state ≤ 1
  size : pairsSize c.pairs + c.var.length + c.value.length + c.state ≤ n
  value : 38 ∉ c.value
  values : ∀ p ∈ c.pairs, 38 ∉ p.2

theorem pairsSize_append (xs ys : Pairs) : pairsSize (xs ++ ys) = pairsSize xs + pairsSize ys := by
  induction xs with
  | nil => exact (Nat.zero_add _).symm
  | cons p xs ih =>
    rw [List.cons_append, pairsSize, ih, pairsSize, Nat.add_assoc _ (pairsSize xs)]

theorem pairsSize_concat (xs : Pairs) (p : List UInt8 × List UInt8) :
    pairsSize (xs ++ [p]) = pairsSize xs + (p.1.length + p.2.length + 2) := pairsSize_append xs [p]

theorem QueryCursor.Within.step (h : c.Within n) (ch : UInt8) : (c.step ch).Within (n + 1) := by
  obtain ⟨hstate, hsize, hvalue, hvalues⟩ := h
  rw [QueryCursor.step]
  split
  next h0 =>
    split
    next heq => exact ⟨Nat.le_refl 1, by dsimp only; omega, hvalue, hvalues⟩
    next heq =>
      refine ⟨hstate, ?_, hvalue, hvalues⟩
      dsimp only
      rw [List.length_append, List.length_singleton]
      omega
  next h0 =>
    split
    next hamp =>
      refine ⟨Nat.zero_le 1, ?_, List.not_mem_nil, ?_⟩
      · rw [pairsSize_concat, List.length_nil]
        dsimp only
        omega
      · intro p hp
        rcases List.mem_append.mp hp with hmem | hmem
        · exact hvalues p hmem
        · rw [List.mem_singleton.mp hmem]
          exact hvalue
    next hamp =>
      refine ⟨hstate, ?_, ?_, hvalues⟩
      · dsimp only
        rw [List.length_append, List.length_singleton]
        omega
      · intro hmem
        rcases List.mem_append.mp hmem with hmem | hmem
        · exact hvalue hmem
        · exact hamp (List.mem_singleton.mp hmem).symm

theorem QueryCursor.Within.read (h : c.Within n) (text : List UInt8) : (c.read text).Within (n + text.length) := by
  induction text generalizing c n with
  | nil => exact h
  | cons ch text ih =>
    rw [QueryCursor.read_cons, List.length_cons, Nat.add_comm text.length, ← Nat.add_assoc]
    exact ih (h.step ch)

/-- Pairs that are found in a text. -/
theorem found_in {text : List UInt8} (h : (QueryCursor.init.read text).finish = some pairs) :
    pairsSize pairs ≤ text.length + 1 ∧ ∀ p ∈ pairs, 38 ∉ p.2 := by
  have hinit : QueryCursor.init.Within 0 := ⟨Nat.zero_le 1, Nat.le_refl 0, List.not_mem_nil, fun p hp => by cases hp⟩
  obtain ⟨hstate, hsize, hvalue, hvalues⟩ := hinit.read text
  rw [QueryCursor.finish] at h
  split at h
  next h1 =>
    cases h
    refine ⟨?_, fun p hp => ?_⟩
    · rw [pairsSize_concat]
      dsimp only
      omega
    · rcases List.mem_append.mp hp with hmem | hmem
      · exact hvalues p hmem
      · rw [List.mem_singleton.mp hmem]
        exact hvalue
  next =>
    split at h
    next =>
      cases h
      exact ⟨by omega, hvalues⟩
    next => cases h

/-- Pairs are found again exactly when no value has an `&` and the query is shorter than 2 ^ 31. -/
theorem query_kept_iff (pairs : Pairs) (hnames : ∀ p ∈ pairs, p.1 ≠ [] ∧ 61 ∉ p.1) :
    QueryKept pairs ↔ (∀ p ∈ pairs, 38 ∉ p.2) ∧ queryLength pairs < 2 ^ 31 := by
  constructor
  · rintro ⟨query, hencode, hparse⟩
    obtain ⟨contents, hdecode, hparse⟩ := bind_ok hparse
    obtain ⟨hsize, hvalues⟩ := found_in ((parseUnescapedQuery_iff contents).mp hparse)
    refine ⟨hvalues, ?_⟩
    have hcontents := decode_length hdecode
    have hseen : (contents.take (intSize contents.length)).length ≤ contents.length := List.length_take_le' _ _
    have hlt := intSize_lt query.length
    have hshort : Short pairs := by
      intro p hp
      have hle := length_le_pairsSize hp
      exact ⟨by omega, by omega⟩
    have hlen : query.length = queryLength pairs := by
      rw [encodeQuery_only hshort hencode, length_encodedQuery]
    by_cases hnil : pairs = []
    · subst hnil
      exact Nat.two_pow_pos 31
    have hle := queryLength_le hnil
    by_contra hge
    rw [← hlen] at hle hge
    -- the size of the query is an int below zero, or the int of another size
    rw [intSize] at hcontents
    split at hcontents
    next hsmall =>
      rw [uint] at hcontents hsmall
      omega
    next => omega
  · rintro ⟨hvalues, hlt⟩
    refine ⟨encodedQuery pairs, encodeQuery_ok (Nat.le_of_lt hlt), ?_⟩
    have hlen : (encodedQuery pairs).length < 2 ^ 31 := by rwa [length_encodedQuery]
    have hplain : (plainQuery pairs).length ≤ (encodedQuery pairs).length := (decoded_query pairs).length_le
    have hread : (QueryCursor.init.read (plainQuery pairs)).finish = some ([] ++ pairs) :=
      read_query (fun p hp => (hnames p hp).2) hvalues
    rw [parseQuery, (decoded_query pairs).decode_eq hlen (by omega)]
    change parseUnescapedQuery (plainQuery pairs) false = _
    rw [parseUnescapedQuery_iff, take_intSize (by omega)]
    exact hread

/-- Names and values with an `&`, an `=`, a `+` and a `%`; an `&` in a name only. -/
theorem special_query_kept :
    QueryKept [([97, 38], [61, 43, 37]), ([98], [])] ↔
      (∀ p ∈ [([97, 38], [61, 43, 37]), (([98], []) : List UInt8 × List UInt8)], 38 ∉ p.2) ∧
        queryLength [([97, 38], [61, 43, 37]), ([98], [])] < 2 ^ 31 :=
  query_kept_iff [([97, 38], [61, 43, 37]), ([98], [])] (by decide)

/-- An `&` in a value ends the value. -/
theorem ampersand_lost : ¬ QueryKept [([97], [38])] := by
  rintro ⟨query, -, hparse⟩
  obtain ⟨contents, -, hparse⟩ := bind_ok hparse
  exact (found_in ((parseUnescapedQuery_iff contents).mp hparse)).2 _ List.mem_cons_self List.mem_cons_self

end Uri

end Crack
