import Mathlib.Tactic.Common

/-!
# Escape codes

A text in which each special symbol is spelled as a mark and some plain symbols. The mark is a plain symbol
too, so that a word that has the spelling of a special symbol in it is spelled as if it had the symbol. Two words
are spelled alike exactly if they are equal once each such spelling is read.
-/
namespace EscapeCodes

variable {β : Type}

/-- What follows the mark in the spelling of each special symbol. -/
structure Code (β : Type) where
  mark : β
  tail : β → Option (List β)
  specials : List β
  complete : ∀ b, (tail b).isSome = true → b ∈ specials
  mark_plain : tail mark = none
  plain : ∀ b t, tail b = some t → ∀ d ∈ t, tail d = none ∧ d ≠ mark
  /-- no spelling is a part of another one -/
  free : ∀ b c s t, tail b = some s → tail c = some t → s <+: t → b = c

namespace Code

variable (code : Code β) {b c : β} {t xs ys : List β}

def spell (b : β) : List β :=
  match code.tail b with
  | some t => code.mark :: t
  | none => [b]

def spellAll : List β → List β
  | [] => []
  | b :: xs => code.spell b ++ spellAll xs

variable {code}

theorem spell_plain (h : code.tail b = none) : code.spell b = [b] := by rw [spell, h]

theorem spell_special (h : code.tail b = some t) : code.spell b = code.mark :: t := by rw [spell, h]

theorem spellAll_plain_cons (h : code.tail b = none) (xs : List β) :
    code.spellAll (b :: xs) = b :: code.spellAll xs := by
  rw [spellAll, spell_plain h]
  rfl

theorem spellAll_plain (ht : ∀ d ∈ t, code.tail d = none) (xs : List β) :
    code.spellAll (t ++ xs) = t ++ code.spellAll xs := by
  induction t with
  | nil => rfl
  | cons d t ih =>
    rw [List.cons_append, spellAll, spell_plain (ht d List.mem_cons_self),
      ih fun e he => ht e (List.mem_cons_of_mem d he)]
    rfl

/-- Plain symbols that are in front of the spelled word are in front of the word. -/
theorem plain_prefix_iff (ht : ∀ d ∈ t, code.tail d = none ∧ d ≠ code.mark) : t <+: code.spellAll xs ↔ t <+: xs := by
  induction t generalizing xs with
  | nil => exact iff_of_true (List.nil_prefix) (List.nil_prefix)
  | cons d t ih =>
    obtain ⟨hd, hmark⟩ := ht d List.mem_cons_self
    cases xs with
    | nil => exact Iff.rfl
    | cons x xs =>
      rw [spellAll, List.cons_prefix_cons]
      cases hx : code.tail x with
      | none =>
        rw [spell_plain hx, List.singleton_append, List.cons_prefix_cons,
          ih fun e he => ht e (List.mem_cons_of_mem d he)]
      | some s =>
        rw [spell_special hx, List.cons_append, List.cons_prefix_cons]
        refine iff_of_false (fun h => hmark h.1) (fun h => ?_)
        rw [h.1, hx] at hd
        cases hd

variable [DecidableEq β]

variable (code) in
/-- Whether the spelling of `b` goes on like this behind its mark. -/
def spells (xs : List β) (b : β) : Bool :=
  match code.tail b with
  | some t => t.isPrefixOf xs
  | none => false

variable (code) in
/-- The special symbol whose spelling goes on like this. -/
def marked (xs : List β) : Option β := code.specials.find? (code.spells xs)

variable (code) in
/-- Every spelling of a special symbol is read as the symbol. -/
def readAll : List β → List β
  | [] => []
  | b :: xs =>
    if b = code.mark then
      match code.marked xs with
      | some c => c :: readAll (xs.drop ((code.tail c).getD []).length)
      | none => b :: readAll xs
    else b :: readAll xs
termination_by xs => xs.length
decreasing_by
  all_goals simp only [List.length_cons, List.length_drop]
  all_goals omega

theorem spells_iff : code.spells xs b = true ↔ ∃ t, code.tail b = some t ∧ t <+: xs := by
  rw [spells]
  cases code.tail b with
  | none =>
    refine iff_of_false Bool.false_ne_true ?_
    rintro ⟨t, h, -⟩
    cases h
  | some t =>
    refine List.isPrefixOf_iff_prefix.trans ⟨fun h => ⟨t, rfl, h⟩, ?_⟩
    rintro ⟨s, heq, h⟩
    rwa [Option.some.inj heq]

theorem marked_spelled (h : code.marked xs = some b) : ∃ t, code.tail b = some t ∧ t <+: xs :=
  spells_iff.mp (List.find?_some h)

/-- A spelling is read as its symbol, whatever follows it. -/
theorem marked_tail (h : code.tail b = some t) (hxs : t <+: xs) : code.marked xs = some b := by
  have hmem : b ∈ code.specials := code.complete b (by rw [h]; rfl)
  have hspells : code.spells xs b = true := spells_iff.mpr ⟨t, h, hxs⟩
  cases hfound : code.marked xs with
  | none => exact absurd hspells (List.find?_eq_none.mp hfound b hmem)
  | some c =>
    obtain ⟨s, hs, hsxs⟩ := marked_spelled hfound
    rcases List.prefix_or_prefix_of_prefix hsxs hxs with hst | hts
    · rw [code.free c b s t hs h hst]
    · rw [code.free b c t s h hs hts]

theorem marked_spellAll (xs : List β) : code.marked (code.spellAll xs) = code.marked xs := by
  have hspells : code.spells (code.spellAll xs) = code.spells xs := by
    funext b
    rw [Bool.eq_iff_iff, spells_iff, spells_iff]
    refine exists_congr fun t => and_congr_right fun ht => ?_
    exact plain_prefix_iff (code.plain b t ht)
  rw [marked, hspells, marked]

theorem readAll_plain (h : b ≠ code.mark) (xs : List β) : code.readAll (b :: xs) = b :: code.readAll xs := by
  rw [readAll, if_neg h]

theorem readAll_unmarked (h : code.marked xs = none) :
    code.readAll (code.mark :: xs) = code.mark :: code.readAll xs := by
  rw [readAll, if_pos rfl, h]

/-- A spelling is read. -/
theorem readAll_spell (h : code.tail b = some t) (xs : List β) :
    code.readAll (code.spell b ++ xs) = b :: code.readAll xs := by
  rw [spell_special h, List.cons_append, readAll, if_pos rfl, marked_tail h (List.prefix_append t xs)]
  change b :: code.readAll ((t ++ xs).drop ((code.tail b).getD []).length) = _
  rw [h, Option.getD_some, List.drop_left]

/-- A word that has a spelling in it is spelled as with the symbol. -/
theorem spellAll_marked (h : code.marked xs = some b) :
    ∃ t ys, code.tail b = some t ∧ xs = t ++ ys ∧
      code.spellAll (code.mark :: xs) = code.spell b ++ code.spellAll ys := by
  obtain ⟨t, ht, ys, rfl⟩ := marked_spelled h
  refine ⟨t, ys, ht, rfl, ?_⟩
  rw [spellAll, spell_plain code.mark_plain, spellAll_plain fun d hd => (code.plain b t ht d hd).1, spell_special ht]
  rfl

theorem readAll_spellAll (xs : List β) : code.readAll (code.spellAll xs) = code.readAll xs := by
  fun_induction readAll code xs with
  | case1 => rw [spellAll, readAll]
  | case2 xs c hmarked ih =>
    obtain ⟨t, ys, ht, rfl, hspell⟩ := spellAll_marked hmarked
    rw [ht, Option.getD_some, List.drop_left] at ih ⊢
    rw [hspell, readAll_spell ht, ih]
  | case3 xs hnone ih =>
    rw [spellAll_plain_cons code.mark_plain, readAll_unmarked ((marked_spellAll xs).trans hnone), ih]
  | case4 b xs hb ih =>
    cases hplain : code.tail b with
    | none => rw [spellAll_plain_cons hplain, readAll_plain hb, ih]
    | some t => rw [spellAll, readAll_spell hplain, ih]

theorem spellAll_readAll (xs : List β) : code.spellAll (code.readAll xs) = code.spellAll xs := by
  fun_induction readAll code xs with
  | case1 => rfl
  | case2 xs c hmarked ih =>
    obtain ⟨t, ys, ht, rfl, hspell⟩ := spellAll_marked hmarked
    rw [ht, Option.getD_some, List.drop_left] at ih ⊢
    rw [hspell, spellAll, ih]
  | case3 xs hnone ih => rw [spellAll, ih, spellAll]
  | case4 b xs hb ih => rw [spellAll, ih, spellAll]

/-- Two words are spelled alike exactly if they read alike. -/
theorem spellAll_eq_iff : code.spellAll xs = code.spellAll ys ↔ code.readAll xs = code.readAll ys := by
  constructor
  · intro h
    rw [← readAll_spellAll xs, h, readAll_spellAll]
  · intro h
    rw [← spellAll_readAll xs, h, spellAll_readAll]

end Code

end EscapeCodes
