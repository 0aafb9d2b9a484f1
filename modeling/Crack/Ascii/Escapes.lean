import Crack.Lang.AppendRoom
import Crack.Lib.Words
import Crack.Lib.EscapeCodes

/-!
# Escapes

`escape` writes the bytes of a range as they are, and the default range has the quote and the backslash in it.
-/
namespace Crack

namespace Ascii

open EscapeCodes (Code)
open ManagedBuffer
open Bytes (forall_byte)
open Loops (bind_ok)

/-- What `escape` appends for a byte. -/
def escapeByte (min max : UInt8) (buf : ManagedBuffer) (ch : UInt8) : Except Stop ManagedBuffer :=
  if ch ≥ min ∧ ch ≤ max then buf.append ch
  else if ch = 34 ∨ ch = 92 then do
    let buf ← buf.append 92
    buf.append ch
  else if ch = 10 then do
    let buf ← buf.append 92
    buf.append 110
  else if ch = 9 then do
    let buf ← buf.append 92
    buf.append 116
  else if ch = 12 then do
    let buf ← buf.append 92
    buf.append 102
  else if ch = 13 then do
    let buf ← buf.append 92
    buf.append 114
  else if ch = 47 then do
    let buf ← buf.append 92
    buf.append 47
  else if ch = 8 then do
    let buf ← buf.append 92
    buf.append 98
  else do
    let buf ← buf.append 92
    let buf ← buf.append ((48 : UInt8) + ch >>> 6)
    let buf ← buf.append ((48 : UInt8) + (ch &&& 56) >>> 3)
    buf.append (48 + (ch &&& 7))

/-- `escape(Buffer data, byte min, byte max)`. A byte that lies too far behind to be read, from 2 ^ 31 on, is not
come to, as there is no room for what is appended before it. -/
def escapeRange (data : List UInt8) (min max : UInt8) : Except Stop (List UInt8) := do
  let buf ← (data.take (uint data.length)).foldlM (escapeByte min max) (.init (data.length + 2))
  return buf.data

/-- `escape(Buffer data)` -/
def escape (data : List UInt8) : Except Stop (List UInt8) := escapeRange data 32 127

/-- Two byte strings are escaped, and to different texts. -/
def EscapedApart (x y : List UInt8) : Prop := ∃ s t, escape x = .ok s ∧ escape y = .ok t ∧ s ≠ t

/-- What follows the backslash. -/
def escapeTail (ch : UInt8) : Option (List UInt8) :=
  if 32 ≤ ch ∧ ch ≤ 127 then none
  else if ch = 10 then some [110]
  else if ch = 9 then some [116]
  else if ch = 12 then some [102]
  else if ch = 13 then some [114]
  else if ch = 8 then some [98]
  else some [(48 : UInt8) + ch >>> 6, (48 : UInt8) + (ch &&& 56) >>> 3, 48 + (ch &&& 7)]

/-- The byte that an escape stands for. -/
def tailByte : List UInt8 → UInt8
  | [110] => 10
  | [116] => 9
  | [102] => 12
  | [114] => 13
  | [98] => 8
  | [a, b, c] => (a - 48) <<< 6 + (b - 48) <<< 3 + (c - 48)
  | _ => 0

/-- A letter, or three digits. -/
def isTail : List UInt8 → Bool
  | [a] => 57 < a
  | [a, _, _] => a ≤ 57
  | _ => false

theorem escapeTail_spec (b : UInt8) :
    ∀ t ∈ escapeTail b, isTail t = true ∧ tailByte t = b ∧ ∀ d ∈ t, escapeTail d = none ∧ d ≠ 92 := by
  have hall : (escapeTail b).all (fun t => isTail t && tailByte t == b &&
      t.all fun d => (escapeTail d).isNone && d != 92) = true := by
    refine forall_byte (p := fun b => (escapeTail b).all (fun t => isTail t && tailByte t == b &&
      t.all fun d => (escapeTail d).isNone && d != 92) = true) ?_ b
    decide +kernel
  simpa [Option.all_eq_true, and_assoc] using hall

theorem isTail_prefix {s t : List UInt8} (hs : isTail s = true) (ht : isTail t = true) (h : s <+: t) : s = t := by
  match s, t, hs, ht with
  | [a], [b], _, _ => rw [(List.cons_prefix_cons.mp h).1]
  | [a], [b, _, _], hs, ht =>
    rw [(List.cons_prefix_cons.mp h).1, isTail, decide_eq_true_iff] at hs
    rw [isTail, decide_eq_true_iff] at ht
    exact absurd hs (UInt8.not_lt.mpr ht)
  | [a, b, c], [d, e, f], _, _ => exact h.eq_of_length rfl

def escapes : Code UInt8 where
  mark := 92
  tail := escapeTail
  specials := (List.range 256).map UInt8.ofNat
  complete b _ := List.mem_map.mpr ⟨b.toNat, List.mem_range.mpr b.toNat_lt, UInt8.ofNat_toNat⟩
  mark_plain := by decide
  plain b t h := (escapeTail_spec b t h).2.2
  free b c s t hs ht h := by
    obtain ⟨htail, hbyte, -⟩ := escapeTail_spec b s hs
    obtain ⟨htail', hbyte', -⟩ := escapeTail_spec c t ht
    rw [← hbyte, ← hbyte', isTail_prefix htail htail' h]

/-- The bytes that a loop with a `uint` goes over. -/
def seen (x : List UInt8) : List UInt8 := x.take (uint x.length)

theorem fills_escapeByte (ch : UInt8) : Fills (fun b => escapeByte 32 127 b ch) (escapes.spell ch) := by
  have htwo : ∀ c, Fills (fun b : ManagedBuffer => b.append 92 >>= fun b => b.append c) [92, c] := fun c =>
    (fills_append 92).bind (fills_append c)
  have hfour : ∀ c d e, Fills (fun b : ManagedBuffer => b.append 92 >>= fun b => b.append c >>= fun b =>
      b.append d >>= fun b => b.append e) [92, c, d, e] := fun c d e =>
    (fills_append 92).bind ((fills_append c).bind ((fills_append d).bind (fills_append e)))
  by_cases hrange : 32 ≤ ch ∧ ch ≤ 127
  · have hbyte : (fun b => escapeByte 32 127 b ch) = fun b => b.append ch := funext fun b => if_pos hrange
    rw [hbyte, Code.spell_plain (if_pos hrange)]
    exact fills_append ch
  by_cases h10 : ch = 10
  · subst h10
    exact htwo 110
  by_cases h9 : ch = 9
  · subst h9
    exact htwo 116
  by_cases h12 : ch = 12
  · subst h12
    exact htwo 102
  by_cases h13 : ch = 13
  · subst h13
    exact htwo 114
  by_cases h8 : ch = 8
  · subst h8
    exact htwo 98
  -- the quote, the backslash and the slash are in the range
  have hplain : ∀ c : UInt8, 32 ≤ c ∧ c ≤ 127 → ch ≠ c := fun c hc heq => hrange (heq ▸ hc)
  have htail : escapes.tail ch =
      some [(48 : UInt8) + ch >>> 6, (48 : UInt8) + (ch &&& 56) >>> 3, 48 + (ch &&& 7)] := by
    change escapeTail ch = _
    rw [escapeTail, if_neg hrange, if_neg h10, if_neg h9, if_neg h12, if_neg h13, if_neg h8]
  have hbyte : (fun b => escapeByte 32 127 b ch) = fun b : ManagedBuffer => b.append 92 >>= fun b =>
      b.append ((48 : UInt8) + ch >>> 6) >>= fun b => b.append ((48 : UInt8) + (ch &&& 56) >>> 3) >>= fun b =>
        b.append (48 + (ch &&& 7)) := by
    funext b
    rw [escapeByte, if_neg hrange, if_neg (not_or.mpr ⟨hplain 34 (by decide), hplain 92 (by decide)⟩), if_neg h10,
      if_neg h9, if_neg h12, if_neg h13, if_neg (hplain 47 (by decide)), if_neg h8]
  rw [hbyte, Code.spell_special htail]
  exact hfour _ _ _

theorem fills_escapeAll (x : List UInt8) :
    Fills (fun b => x.foldlM (escapeByte 32 127) b) (escapes.spellAll x) := by
  induction x with
  | nil => exact fills_nil
  | cons ch x ih => exact (fills_escapeByte ch).bind ih

/-- How many bytes the text has for a byte. -/
def escapedSize (ch : UInt8) : Nat :=
  if 32 ≤ ch ∧ ch ≤ 127 then 1 else if ch = 8 ∨ ch = 9 ∨ ch = 10 ∨ ch = 12 ∨ ch = 13 then 2 else 4

def escapedSizes : List UInt8 → Nat
  | [] => 0
  | ch :: x => escapedSize ch + escapedSizes x

theorem length_spell (ch : UInt8) : (escapes.spell ch).length = escapedSize ch := by
  refine forall_byte (p := fun ch => (escapes.spell ch).length = escapedSize ch) ?_ ch
  decide +kernel

theorem length_spellAll (x : List UInt8) : (escapes.spellAll x).length = escapedSizes x := by
  induction x with
  | nil => rfl
  | cons ch x ih => rw [Code.spellAll, List.length_append, length_spell, ih, escapedSizes]

/-- The buffer has room for the text. -/
def EscapeFits (x : List UInt8) : Prop := escapedSizes (seen x) ≤ 2 ^ 31

theorem escape_ok {x : List UInt8} (h : EscapeFits x) : escape x = .ok (escapes.spellAll (seen x)) := by
  rw [EscapeFits, ← length_spellAll] at h
  obtain ⟨b, he, hdata⟩ := ((fills_escapeAll (seen x)).of_init (x.length + 2)).1 h
  rw [escape, escapeRange]
  change (do let buf ← (seen x).foldlM (escapeByte 32 127) (.init (x.length + 2)); return buf.data) = _
  rw [he, ← hdata]
  rfl

theorem escape_fails {x : List UInt8} (h : ¬ EscapeFits x) : ∀ s, escape x ≠ .ok s := by
  intro s he
  rw [EscapeFits, ← length_spellAll] at h
  obtain ⟨b, hrun, -⟩ := bind_ok he
  exact ((fills_escapeAll (seen x)).of_init (x.length + 2)).2 (Nat.lt_of_not_le h) b hrun

/-- When two byte strings have different texts. -/
theorem escaped_apart_iff (x y : List UInt8) :
    EscapedApart x y ↔
      EscapeFits x ∧ EscapeFits y ∧ escapes.readAll (seen x) ≠ escapes.readAll (seen y) := by
  constructor
  · rintro ⟨s, t, hs, ht, hne⟩
    have hx : EscapeFits x := by
      by_contra hfits
      exact escape_fails hfits s hs
    have hy : EscapeFits y := by
      by_contra hfits
      exact escape_fails hfits t ht
    rw [escape_ok hx] at hs
    rw [escape_ok hy] at ht
    refine ⟨hx, hy, fun heq => hne ?_⟩
    rw [← Except.ok.inj hs, ← Except.ok.inj ht]
    exact Code.spellAll_eq_iff.mpr heq
  · rintro ⟨hx, hy, hne⟩
    exact ⟨_, _, escape_ok hx, escape_ok hy, fun heq => hne (Code.spellAll_eq_iff.mp heq)⟩

/-- A newline, and a backslash with an n. -/
theorem newline_escaped_alike : ¬ EscapedApart [10] [92, 110] := by
  rintro ⟨s, t, hs, ht, hne⟩
  have hx : escape [10] = .ok [92, 110] := escape_ok (show escapedSizes [10] ≤ 2 ^ 31 by decide)
  have hy : escape [92, 110] = .ok [92, 110] := escape_ok (show escapedSizes [92, 110] ≤ 2 ^ 31 by decide)
  rw [hx] at hs
  rw [hy] at ht
  exact hne ((Except.ok.inj hs).symm.trans (Except.ok.inj ht))

end Ascii

end Crack
