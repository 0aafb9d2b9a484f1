import Mathlib.Data.List.Basic

/-!
Canonical names of modules. A name is split at its outer dots: dots inside the brackets of
generic parameters belong to a component.
-/
namespace Crack
namespace ModuleDef

abbrev dot : UInt8 := 46
abbrev lbrack : UInt8 := 91
abbrev rbrack : UInt8 := 93

/-- `string::substr`. -/
def substr (s : List UInt8) (pos len : Nat) : List UInt8 := (s.drop pos).take len

/-- The loop of `parseCanonicalName` from the index `i` on, with the characters that are left. The counters are
ints, for names of less than 2 ^ 31 characters. -/
def parseLoop (name : List UInt8) : List UInt8 → Nat → Nat → Nat → List (List UInt8) → Except String (List (List UInt8))
  | [], i, _, last, result => .ok (result ++ [substr name last (i - last)])
  | c :: rest, i, nested, last, result =>
    if nested = 0 then
      if c = dot then parseLoop name rest (i + 1) nested (i + 1) (result ++ [substr name last (i - last)])
      else if c = lbrack then parseLoop name rest (i + 1) (nested + 1) last result
      else if c = rbrack then .error "Invalid canonical name"
      else parseLoop name rest (i + 1) nested last result
    else
      if c = lbrack then parseLoop name rest (i + 1) (nested + 1) last result
      else if c = rbrack then parseLoop name rest (i + 1) (nested - 1) last result
      else parseLoop name rest (i + 1) nested last result

def parseCanonicalName (name : List UInt8) : Except String (List (List UInt8)) := parseLoop name name 0 0 0 []

def joinName : List (List UInt8) → List UInt8
  | [] => []
  | [part] => part
  | part :: parts => part ++ dot :: joinName parts

variable {parts : List (List UInt8)}

theorem joinName_cons (part : List UInt8) (h : parts ≠ []) :
    joinName (part :: parts) = part ++ dot :: joinName parts := by
  cases parts with
  | nil => exact absurd rfl h
  | cons next parts => rfl

theorem joinName_concat (part : List UInt8) (h : parts ≠ []) :
    joinName (parts ++ [part]) = joinName parts ++ dot :: part := by
  induction parts with
  | nil => exact absurd rfl h
  | cons first parts ih =>
    cases parts with
    | nil => rfl
    | cons second parts =>
      rw [List.cons_append, joinName_cons first (by simp), ih (List.cons_ne_nil _ _), joinName_cons first (List.cons_ne_nil _ _),
        List.append_assoc, List.cons_append]

theorem joinName_ne_nil {part : List UInt8} (h : part ≠ []) : joinName (part :: parts) ≠ [] := by
  cases parts with
  | nil => exact h
  | cons next parts => exact fun he => h (List.append_eq_nil_iff.mp he).1

/-- Every bracket has its partner. -/
inductive Balanced : List UInt8 → Prop
  | nil : Balanced []
  | char {c : UInt8} {w : List UInt8} : c ≠ lbrack → c ≠ rbrack → Balanced w → Balanced (c :: w)
  | brackets {w w' : List UInt8} : Balanced w → Balanced w' → Balanced (lbrack :: (w ++ rbrack :: w'))

/-- A balanced name with its dots inside brackets. -/
inductive Component : List UInt8 → Prop
  | nil : Component []
  | char {c : UInt8} {w : List UInt8} : c ≠ lbrack → c ≠ rbrack → c ≠ dot → Component w → Component (c :: w)
  | brackets {w w' : List UInt8} : Balanced w → Component w' → Component (lbrack :: (w ++ rbrack :: w'))

section Parsing
variable {name w rest : List UInt8} {i nested last : Nat} {result : List (List UInt8)}

theorem parseLoop_bracket (name rest : List UInt8) (i nested last : Nat) (result : List (List UInt8)) :
    parseLoop name (lbrack :: rest) i nested last result = parseLoop name rest (i + 1) (nested + 1) last result := by
  cases nested with
  | zero => rw [parseLoop, if_pos rfl, if_neg (by decide), if_pos rfl]
  | succ nested => rw [parseLoop, if_neg (Nat.succ_ne_zero nested), if_pos rfl]

theorem parseLoop_close (name rest : List UInt8) (i nested last : Nat) (result : List (List UInt8)) :
    parseLoop name (rbrack :: rest) i (nested + 1) last result = parseLoop name rest (i + 1) nested last result := by
  rw [parseLoop, if_neg (Nat.succ_ne_zero nested), if_neg (by decide), if_pos rfl, Nat.add_sub_cancel]

/-- Inside brackets the loop walks over a balanced text. -/
theorem Balanced.parse (h : Balanced w) :
    parseLoop name (w ++ rest) i (nested + 1) last result = parseLoop name rest (i + w.length) (nested + 1) last result := by
  induction h generalizing i nested rest with
  | nil => rfl
  | @char c w hopen hclose _ ih =>
    rw [List.cons_append, parseLoop, if_neg (Nat.succ_ne_zero nested), if_neg hopen, if_neg hclose, ih, List.length_cons,
      Nat.add_right_comm, Nat.add_assoc]
  | @brackets w w' _ _ ih ih' =>
    rw [List.cons_append, List.append_assoc, List.cons_append, parseLoop_bracket, ih, parseLoop_close, ih']
    congr 1
    simp only [List.length_cons, List.length_append]
    omega

/-- Outside brackets the loop walks over a component. -/
theorem Component.parse (h : Component w) :
    parseLoop name (w ++ rest) i 0 last result = parseLoop name rest (i + w.length) 0 last result := by
  induction h generalizing i rest with
  | nil => rfl
  | @char c w hopen hclose hdot _ ih =>
    rw [List.cons_append, parseLoop, if_pos rfl, if_neg hdot, if_neg hopen, if_neg hclose, ih, List.length_cons,
      Nat.add_right_comm, Nat.add_assoc]
  | @brackets w w' hw _ ih =>
    rw [List.cons_append, List.append_assoc, List.cons_append, parseLoop_bracket, hw.parse, parseLoop_close, ih]
    congr 1
    simp only [List.length_cons, List.length_append]
    omega

theorem substr_middle {pre part suf : List UInt8} : substr (pre ++ (part ++ suf)) pre.length part.length = part := by
  rw [substr, List.drop_left, List.take_left]

/-- The parse of the last components of a name, from the start of the first of them. -/
theorem parseLoop_joinName (hne : parts ≠ []) (hparts : ∀ part ∈ parts, Component part) (pre : List UInt8)
    (result : List (List UInt8)) :
    parseLoop (pre ++ joinName parts) (joinName parts) pre.length 0 pre.length result = .ok (result ++ parts) := by
  induction parts generalizing pre result with
  | nil => exact absurd rfl hne
  | cons part parts ih =>
    have hpart := hparts part List.mem_cons_self
    rcases List.eq_nil_or_concat parts with rfl | hlast
    · have hparse : parseLoop (pre ++ part) (part ++ []) pre.length 0 pre.length result =
          parseLoop (pre ++ part) [] (pre.length + part.length) 0 pre.length result := hpart.parse
      have hsub : substr (pre ++ (part ++ [])) pre.length part.length = part := substr_middle
      rw [List.append_nil] at hparse hsub
      rw [joinName, hparse, parseLoop, Nat.add_sub_cancel_left, hsub]
    · have hcons : parts ≠ [] := by
        obtain ⟨l, b, rfl⟩ := hlast
        simp
      have hname : pre ++ (part ++ dot :: joinName parts) = (pre ++ part ++ [dot]) ++ joinName parts := by simp
      have hrec := ih hcons (fun p hp => hparts p (List.mem_cons_of_mem _ hp)) (pre ++ part ++ [dot]) (result ++ [part])
      rw [joinName_cons part hcons, hpart.parse, parseLoop, if_pos rfl, if_pos rfl, Nat.add_sub_cancel_left, substr_middle]
      rw [hname]
      simpa [Nat.add_assoc] using hrec

end Parsing

theorem Balanced.components {w : List UInt8} (h : Balanced w) :
    ∃ part parts, Component part ∧ (∀ p ∈ parts, Component p) ∧ joinName (part :: parts) = w := by
  induction h with
  | nil => exact ⟨[], [], .nil, by simp, rfl⟩
  | @char c w hopen hclose _ ih =>
    obtain ⟨part, parts, hpart, hparts, rfl⟩ := ih
    by_cases hdot : c = dot
    · refine ⟨[], part :: parts, .nil, ?_, ?_⟩
      · simpa using ⟨hpart, hparts⟩
      · rw [joinName_cons [] (List.cons_ne_nil _ _), hdot, List.nil_append]
    · refine ⟨c :: part, parts, .char hopen hclose hdot hpart, hparts, ?_⟩
      cases parts <;> rfl
  | @brackets w w' hw _ _ ih =>
    obtain ⟨part, parts, hpart, hparts, rfl⟩ := ih
    refine ⟨lbrack :: (w ++ rbrack :: part), parts, .brackets hw hpart, hparts, ?_⟩
    cases parts with
    | nil => rfl
    | cons next parts =>
      rw [joinName_cons _ (List.cons_ne_nil _ _), joinName_cons _ (List.cons_ne_nil _ _)]
      simp

theorem joinName_append (parts : List (List UInt8)) (part : List UInt8) :
    joinName (parts ++ [part]) = parts.flatMap (· ++ [dot]) ++ part := by
  induction parts with
  | nil => rfl
  | cons first parts ih =>
    rw [List.cons_append, joinName_cons first (by simp), ih, List.flatMap_cons, List.append_assoc, List.append_assoc]
    rfl

/-- The segments that have been cut off, with the dots behind them, are the name up to `last`. -/
theorem parseLoop_ok {name rest : List UInt8} {i nested last : Nat} {result parts : List (List UInt8)}
    (hrest : name.drop i = rest) (hlast : last ≤ i) (hresult : result.flatMap (· ++ [dot]) = name.take last)
    (h : parseLoop name rest i nested last result = .ok parts) : joinName parts = name := by
  induction rest generalizing i nested last result with
  | nil =>
    cases h
    have hlen : name.length ≤ i := List.drop_eq_nil_iff.mp hrest
    have hseg : substr name last (i - last) = name.drop last :=
      List.take_of_length_le (by rw [List.length_drop]; omega)
    rw [joinName_append, hresult, hseg, List.take_append_drop]
  | cons c rest ih =>
    have hnext : name.drop (i + 1) = rest := by
      rw [← List.drop_drop, hrest]
      rfl
    have hgo (nested : Nat) (h : parseLoop name rest (i + 1) nested last result = .ok parts) : joinName parts = name :=
      ih hnext (Nat.le_succ_of_le hlast) hresult h
    rw [parseLoop] at h
    split at h
    · split at h
      · rename_i hc
        refine ih hnext (Nat.le_refl _) ?_ h
        have hi : name.take (i + 1) = name.take i ++ [c] := by
          have hlen := congrArg List.length hrest
          rw [List.length_drop, List.length_cons] at hlen
          rw [List.take_succ_eq_append_getElem (by omega)]
          congr 2
          have hpos : 0 < (name.drop i).length := by
            rw [hrest]
            exact Nat.succ_pos _
          have hget : (name.drop i)[0] = name[i + 0] := List.getElem_drop
          simp only [hrest, Nat.add_zero] at hget
          exact hget.symm
        have hseg : name.take last ++ substr name last (i - last) = name.take i := by
          rw [substr, ← List.take_add, Nat.add_sub_cancel' hlast]
        rw [List.flatMap_append, hresult, List.flatMap_singleton, ← List.append_assoc, hseg, hi, hc]
      · split at h
        · exact hgo _ h
        · split at h
          · cases h
          · exact hgo _ h
    · split at h
      · exact hgo _ h
      · split at h
        · exact hgo _ h
        · exact hgo _ h

/-- No name gets lost, balanced or not. -/
theorem joinName_of_parse {name : List UInt8} (h : parseCanonicalName name = .ok parts) :
    joinName parts = name := parseLoop_ok (i := 0) rfl (Nat.le_refl 0) rfl h

end ModuleDef
end Crack
