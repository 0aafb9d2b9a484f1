import Crack.Lang.BufferFind
import Crack.Lang.SubStrings
import Mathlib.Data.List.Infix

/-!
# Splitting

`split` searches from behind the start of the last delimiter, and a piece begins behind its end.
-/
namespace Crack

namespace Splitting

open BufferFind SubStrings
open Fuel (Returns)
open Loops (bind_ok)

inductive Delimiter where
  | string (text : List UInt8) (nonempty : text ≠ [])
  | byte (c : UInt8)

def Delimiter.text : Delimiter → List UInt8
  | string text _ => text
  | byte c => [c]

/-- The loop of both functions. `width` is what is added to the place of a delimiter for the start of a piece. -/
def splitLoop (val : Target) (find : BitVec 32 → Except Stop (BitVec 32)) (width : BitVec 32) :
    Nat → BitVec 32 → BitVec 32 → Except Stop (List View)
  | 0, _, _ => .error .forever
  | fuel + 1, pos, last => do
    let pos ← find pos
    if pos = -1 then return [← macros val (.slice1 last)]
    else
      let piece ← macros val (.slice2 last pos)
      return piece :: (← splitLoop val find width fuel (pos + 1) (pos + width))

/-- `split(String val, String delim)` -/
def splitString (val : Target) (delim : List UInt8) (fuel : Nat) : Except Stop (List View) :=
  splitLoop val (lfindAt val.view.bytes delim fuel) (BufferFind.intSize delim) fuel 0 0

/-- `split(String val, byte delim)` -/
def splitByte (val : Target) (delim : UInt8) (fuel : Nat) : Except Stop (List View) :=
  splitLoop val (lfindByteAt val.view.bytes delim fuel) 1 fuel 0 0

def split (val : Target) : Delimiter → Nat → Except Stop (List View)
  | .string text _, fuel => splitString val text fuel
  | .byte c, fuel => splitByte val c fuel

/-- The pieces, joined again, are the value, and none has the delimiter. -/
def Splits (val : Target) (delim : Delimiter) : Prop :=
  ∃ pieces, Returns (split val delim) (.ok pieces) ∧ delim.text.intercalate (pieces.map View.bytes) = val.view.bytes ∧
    ∀ piece ∈ pieces, ¬ delim.text <:+: piece.bytes

/-- No two delimiters overlap. -/
def Apart (buf delim : List UInt8) : Prop :=
  ∀ i j, Occurs buf delim i → Occurs buf delim j → i < j → i + delim.length ≤ j

/-- The size of a delimiter that would go beyond the end does not wrap around. -/
def NoneWraps (buf delim : List UInt8) (p : Int) : Prop :=
  ∀ c ∈ delim.head?, ∀ i, p ≤ i → Occurs buf [c] i → PassedOver buf delim i

def SplitsOk (buf delim : List UInt8) : Prop :=
  buf.length < 2 ^ 31 ∧ Apart buf delim ∧ NoneWraps buf delim 0 ∨
    2 ^ 31 ≤ buf.length ∧ buf.length < 2 ^ 32 ∧ ∀ i, ¬ Occurs buf delim i

variable {val : Target} {buf delim : List UInt8} {find : BitVec 32 → Except Stop (BitVec 32)} {p l : Int} {fuel : Nat}

theorem length_bytes (val : Target) : val.view.bytes.length = val.size := by
  have hinside := val.inside
  unfold View.Inside at hinside
  rw [View.bytes, List.length_take, List.length_drop]
  exact Nat.min_eq_left (by omega)

theorem place_of_nonneg (h : 0 ≤ p) (size : Nat) : place size p = p := if_neg (by omega)

theorem intPlace_of_nonneg (h : 0 ≤ p) (size : Nat) : intPlace size p = p := if_neg (by omega)

theorem slice2_ok (hlen : val.view.bytes.length < 2 ^ 31) {q : Int} (h0 : 0 ≤ p) (hpq : p ≤ q)
    (hq : q ≤ val.view.bytes.length) :
    ∃ piece, macros val (.slice2 (BitVec.ofInt 32 p) (BitVec.ofInt 32 q)) = .ok piece ∧
      piece.bytes = (val.view.bytes.drop p.toNat).take (q - p).toNat := by
  have hp' := toInt_ofInt (i := p) (by omega) (by omega)
  have hq' := toInt_ofInt (i := q) (by omega) (by omega)
  have h0q : 0 ≤ q := by omega
  rw [length_bytes val] at hlen hq
  have hiff := macros_iff val (.slice2 (BitVec.ofInt 32 p) (BitVec.ofInt 32 q))
  rw [Request.range, hp', hq', place_of_nonneg h0, place_of_nonneg h0q, inRange, if_pos ⟨h0, hpq, hq⟩] at hiff
  refine ⟨_, hiff.mpr ?_, (val.bytes_part (by omega)).2⟩
  rw [MacrosHold, hp', hq', place_of_nonneg h0, place_of_nonneg h0q, intPlace_of_nonneg h0, intPlace_of_nonneg h0q,
    if_pos ⟨h0, hpq, hq⟩]
  omega

theorem slice2_error (hlen : val.view.bytes.length < 2 ^ 31) {q : Int} (h0 : 0 ≤ q) (hqp : q < p)
    (hp : p ≤ val.view.bytes.length) :
    ∀ piece, macros val (.slice2 (BitVec.ofInt 32 p) (BitVec.ofInt 32 q)) ≠ .ok piece := by
  intro piece he
  have h0p : 0 ≤ p := by omega
  rw [macros, toInt_ofInt (by omega) (by omega), toInt_ofInt (by omega) (by omega), adjust_eq, adjust_eq,
    intPlace_of_nonneg h0p, intPlace_of_nonneg h0, if_pos hqp] at he
  cases he

theorem slice1_ok (hfits : val.view.bytes.length < 2 ^ 32) (h0 : 0 ≤ p) (hp : p ≤ val.view.bytes.length)
    (hint : p < 2 ^ 31) :
    ∃ piece, macros val (.slice1 (BitVec.ofInt 32 p)) = .ok piece ∧ piece.bytes = val.view.bytes.drop p.toNat := by
  have hp' := toInt_ofInt (i := p) (by omega) (by omega)
  have hlen := length_bytes val
  have hin : 0 ≤ p ∧ p ≤ (val.size : Int) ∧ (val.size : Int) ≤ val.size := by omega
  have hiff := macros_iff val (.slice1 (BitVec.ofInt 32 p))
  rw [Request.range, hp', place_of_nonneg h0, inRange, if_pos hin] at hiff
  refine ⟨_, hiff.mpr ?_, ?_⟩
  · rw [MacrosHold, hp', place_of_nonneg h0, if_pos ⟨h0, hin.2.1⟩]
    exact ⟨hint, hlen ▸ hfits⟩
  · rw [(val.bytes_part (by omega)).2]
    exact List.take_of_length_le (by rw [List.length_drop]; omega)

theorem occurs_part {k : Nat} (h0 : 0 ≤ l) (h : delim <:+: (buf.drop l.toNat).take k) :
    ∃ i, l ≤ i ∧ i + delim.length ≤ l + k ∧ Occurs buf delim i := by
  obtain ⟨xs, ys, heq⟩ := h
  have hsize := congrArg List.length heq
  rw [List.length_append, List.length_append, List.length_take] at hsize
  refine ⟨l + xs.length, by omega, by omega, by omega, ?_⟩
  rw [List.isPrefixOf_iff_prefix, show (l + xs.length).toNat = l.toNat + xs.length by omega, ← List.drop_drop]
  have hrest : delim ++ ys <+: (buf.drop l.toNat).drop xs.length := by
    have hprefix := List.IsPrefix.drop (List.take_prefix k (buf.drop l.toNat)) xs.length
    rwa [← heq, List.append_assoc, List.drop_left] at hprefix
  exact (List.prefix_append delim ys).trans hrest

theorem occurs_iff_infix : (∃ i, Occurs buf delim i) ↔ delim <:+: buf := by
  constructor
  · rintro ⟨i, -, h⟩
    exact (List.isPrefixOf_iff_prefix.mp h).isInfix.trans (List.drop_suffix _ _).isInfix
  · intro h
    rw [← List.drop_zero (l := buf), ← List.take_length (l := buf.drop 0)] at h
    obtain ⟨i, -, -, hi⟩ := occurs_part (Int.le_refl 0) h
    exact ⟨i, hi⟩

/-- The pieces from `l` on, when the next delimiter is searched for from `p` on. -/
theorem splitLoop_ok {search : Nat → BitVec 32 → Except Stop (BitVec 32)} {bound : Int}
    (hlen : val.view.bytes.length < 2 ^ 31) (hne : delim ≠ [])
    (hfind : ∀ p : Int, 0 ≤ p → p ≤ val.view.bytes.length → ∃ r, First val.view.bytes delim p r.toInt ∧
      ∀ n : Nat, bound < n → search n (BitVec.ofInt 32 p) = .ok r)
    (hapart : Apart val.view.bytes delim) (h0 : 0 ≤ p) (hpl : p ≤ l) (hl : l ≤ val.view.bytes.length)
    (hnext : ∀ i, p ≤ i → Occurs val.view.bytes delim i → l ≤ i) :
    ∃ pieces, (∀ n fuel : Nat, bound < n → val.view.bytes.length - p < fuel →
        splitLoop val (search n) (BufferFind.intSize delim) fuel (BitVec.ofInt 32 p) (BitVec.ofInt 32 l) = .ok pieces) ∧
      pieces ≠ [] ∧ delim.intercalate (pieces.map View.bytes) = val.view.bytes.drop l.toNat ∧
      ∀ piece ∈ pieces, ¬ delim <:+: piece.bytes := by
  induction hk : (val.view.bytes.length - p).toNat using Nat.strongRecOn generalizing p l with
  | ind k ih =>
    obtain ⟨r, hfirst, hr⟩ := hfind p h0 (by omega)
    rcases hfirst with ⟨hat, hpr, hleast⟩ | ⟨hminus, hnone⟩
    · -- the piece ends where the delimiter starts
      obtain ⟨hr0, hrn⟩ := hat.bounds hne
      have hpos := List.length_pos_iff.mpr hne
      have hrne : r ≠ -1 := by
        rintro rfl
        exact absurd hr0 (by decide)
      have hlr := hnext r.toInt hpr hat
      have hrof : r = BitVec.ofInt 32 r.toInt := BitVec.ofInt_toInt.symm
      obtain ⟨piece, hpiece, hbytes⟩ := slice2_ok hlen (p := l) (by omega) hlr (by omega)
      rw [← hrof] at hpiece
      have hstep : r + 1 = BitVec.ofInt 32 (r.toInt + 1) := by rw [BitVec.ofInt_add, ← hrof]; rfl
      have hend : r + BufferFind.intSize delim = BitVec.ofInt 32 (r.toInt + delim.length) := by
        rw [BitVec.ofInt_add, ← hrof, intSize_eq]
      obtain ⟨pieces, hrest, hsome, hjoin, hnot⟩ := ih (val.view.bytes.length - (r.toInt + 1)).toNat (by omega)
        (p := r.toInt + 1) (l := r.toInt + delim.length) (by omega) (by omega) hrn
        (fun i hi hocc => hapart _ i hat hocc (by omega)) rfl
      refine ⟨piece :: pieces, fun n fuel hn hfuel => ?_, List.cons_ne_nil _ _, ?_, ?_⟩
      · obtain ⟨fuel, rfl⟩ := Nat.exists_eq_succ_of_ne_zero (by omega : fuel ≠ 0)
        rw [splitLoop, hr n hn]
        change (if r = -1 then _ else _) = _
        rw [if_neg hrne, hpiece]
        change Functor.map _ (splitLoop _ _ _ _ _ _) = _
        rw [hstep, hend, hrest n fuel hn (by omega)]
        rfl
      · have hmap : pieces.map View.bytes ≠ [] := fun h => hsome (List.map_eq_nil_iff.mp h)
        rw [List.map_cons, List.intercalate_cons_of_ne_nil hmap, hjoin, hbytes]
        obtain ⟨rest, hdrop⟩ := List.isPrefixOf_iff_prefix.mp hat.2
        have hrest' : rest = val.view.bytes.drop (r.toInt + delim.length).toNat := by
          rw [show (r.toInt + delim.length).toNat = r.toInt.toNat + delim.length by omega, ← List.drop_drop, ← hdrop,
            List.drop_left]
        have hat' : (val.view.bytes.drop l.toNat).drop (r.toInt - l).toNat = delim ++ rest := by
          rw [List.drop_drop, hdrop, show l.toNat + (r.toInt - l).toNat = r.toInt.toNat by omega]
        rw [← hrest', List.append_assoc, ← hat', List.take_append_drop]
      · intro q hq
        rcases List.mem_cons.mp hq with rfl | hmem
        · rw [hbytes]
          intro hin
          obtain ⟨i, hli, hir, hocc⟩ := occurs_part (by omega) hin
          have hge := hleast i (by omega) hocc
          omega
        · exact hnot q hmem
    · have hr1 : r = -1 := BitVec.eq_of_toInt_eq (hminus.trans (by decide))
      obtain ⟨piece, hpiece, hbytes⟩ := @slice1_ok val l (by omega) (by omega) hl (by omega)
      refine ⟨[piece], fun n fuel hn hfuel => ?_, List.cons_ne_nil _ _, ?_, ?_⟩
      · obtain ⟨fuel, rfl⟩ := Nat.exists_eq_succ_of_ne_zero (by omega : fuel ≠ 0)
        rw [splitLoop, hr n hn]
        change (if r = -1 then _ else _) = _
        rw [if_pos hr1, hpiece]
        rfl
      · rw [List.map_singleton, List.intercalate_singleton, hbytes]
      · intro q hq hin
        rw [List.mem_singleton.mp hq, hbytes, ← List.take_length (l := val.view.bytes.drop l.toNat)] at hin
        obtain ⟨i, hli, -, hocc⟩ := occurs_part (by omega) hin
        exact hnone i (by omega) hocc

/-- When there are pieces, no delimiter starts within the one before it, and none is read beyond the end. -/
theorem splitLoop_only (hlen : val.view.bytes.length < 2 ^ 31) (hne : delim ≠ [])
    (hfind : ∀ (p : Int) r, 0 ≤ p → p ≤ val.view.bytes.length → find (BitVec.ofInt 32 p) = .ok r →
      First val.view.bytes delim p r.toInt ∧ ∀ c ∈ delim.head?, LfindReads val.view.bytes delim c p)
    (h0 : 0 ≤ p) (hp : p ≤ val.view.bytes.length) (h0l : 0 ≤ l) (hl : l ≤ val.view.bytes.length) {pieces : List View}
    (he : splitLoop val find (BufferFind.intSize delim) fuel (BitVec.ofInt 32 p) (BitVec.ofInt 32 l) = .ok pieces) :
    (∀ i, p ≤ i → Occurs val.view.bytes delim i → l ≤ i) ∧
      (∀ i j, p ≤ i → Occurs val.view.bytes delim i → Occurs val.view.bytes delim j → i < j → i + delim.length ≤ j) ∧
      NoneWraps val.view.bytes delim p := by
  induction fuel generalizing p l pieces with
  | zero => cases he
  | succ fuel ih =>
    rw [splitLoop] at he
    obtain ⟨r, hr, he⟩ := bind_ok he
    obtain ⟨hfirst, hreads⟩ := hfind p r h0 hp hr
    rcases hfirst with ⟨hat, hpr, hleast⟩ | ⟨-, hnone⟩
    · obtain ⟨hr0, hrn⟩ := hat.bounds hne
      have hpos := List.length_pos_iff.mpr hne
      have hrne : r ≠ -1 := by
        rintro rfl
        exact absurd hr0 (by decide)
      have hrof : r = BitVec.ofInt 32 r.toInt := BitVec.ofInt_toInt.symm
      have hstep : r + 1 = BitVec.ofInt 32 (r.toInt + 1) := by rw [BitVec.ofInt_add, ← hrof]; rfl
      have hend : r + BufferFind.intSize delim = BitVec.ofInt 32 (r.toInt + delim.length) := by
        rw [BitVec.ofInt_add, ← hrof, intSize_eq]
      rw [if_neg hrne] at he
      obtain ⟨piece, hpiece, he⟩ := bind_ok he
      obtain ⟨rest, hrest, he⟩ := bind_ok he
      rw [hstep, hend] at hrest
      obtain ⟨hnext, hapart, hwraps⟩ := ih (by omega) (by omega) (by omega) hrn hrest
      have hlr : l ≤ r.toInt := by
        by_contra hlt
        rw [hrof] at hpiece
        exact slice2_error hlen hr0 (by omega) hl piece hpiece
      refine ⟨fun i hpi hi => ?_, fun i j hpi hi hj hij => ?_, fun c hc i hpi hi => ?_⟩
      · have hri := hleast i hpi hi
        omega
      · have hri := hleast i hpi hi
        rcases Int.lt_or_eq_of_le hri with hlt | rfl
        · exact hapart i j (by omega) hi hj hij
        · exact hnext j (by omega) hj
      · by_cases hri : r.toInt < i
        · exact hwraps c hc i (by omega) hi
        · exact fun hbig => absurd hbig (by omega)
    · refine ⟨fun i hpi hi => absurd hi (hnone i hpi), fun i j hpi hi => absurd hi (hnone i hpi), ?_⟩
      intro c hc i hpi hi
      exact hreads c hc i hpi hi fun j hpj _ => hnone j hpj

theorem Delimiter.text_ne_nil : (delim : Delimiter) → delim.text ≠ []
  | .string _ nonempty => nonempty
  | .byte c => List.cons_ne_nil c []

/-- The search that `split` loops over. -/
def Delimiter.lfind (buf : List UInt8) : Delimiter → Nat → BitVec 32 → Except Stop (BitVec 32)
  | .string text _ => lfindAt buf text
  | .byte c => lfindByteAt buf c

theorem split_eq (val : Target) (delim : Delimiter) (fuel : Nat) :
    split val delim fuel =
      splitLoop val (delim.lfind val.view.bytes fuel) (BufferFind.intSize delim.text) fuel (BitVec.ofInt 32 0)
        (BitVec.ofInt 32 0) := by
  cases delim with
  | string text nonempty => rfl
  | byte c => rfl

/-- A search from the end of the buffer finds nothing, another one is a search of the loop. -/
theorem Delimiter.lfind_settles (hsize : buf.length < 2 ^ 31) (delim : Delimiter) (h0 : 0 ≤ p) (hp : p ≤ buf.length) :
    Settles (∀ c ∈ delim.text.head?, LfindReads buf delim.text c p) (First buf delim.text p) (2 * buf.length + 1)
      fun fuel => delim.lfind buf fuel (BitVec.ofInt 32 p) := by
  have hint := toInt_ofInt (i := p) (by omega) (by omega)
  have hposition : position buf (BitVec.ofInt 32 p) = p := by
    rw [position, hint, if_neg (by omega)]
  have hchecks := findPosChecks_eq hsize (BitVec.ofInt 32 p)
  rw [hposition] at hchecks
  by_cases hlt : p < buf.length
  · rw [if_pos ⟨h0, hlt⟩] at hchecks
    cases delim with
    | string text nonempty =>
      obtain ⟨c, sub, rfl⟩ := List.exists_cons_of_ne_nil nonempty
      have hhead : (∀ x ∈ (c :: sub).head?, LfindReads buf (c :: sub) x p) ↔ LfindReads buf (c :: sub) c p := by simp
      refine (findSub_up hsize c sub h0 hp).congr hhead (by omega) fun fuel => ?_
      simp only [Delimiter.lfind, lfindAt, hchecks]
      rfl
    | byte c =>
      have hreads : (∀ x ∈ [c].head?, LfindReads buf [c] x p) ↔ True := by
        refine iff_true_intro fun x _ i _ hat _ hbig => ?_
        have hbound := (hat.bounds (List.cons_ne_nil x [])).2
        rw [List.length_singleton] at hbig hbound
        omega
      refine (lfindByte_settles hsize c h0 hp).congr hreads (by omega) fun fuel => ?_
      simp only [Delimiter.lfind, lfindByteAt, hchecks]
  · rw [if_neg (by omega)] at hchecks
    have hbehind : ∀ pat, pat ≠ [] → ∀ i, p ≤ i → ¬ Occurs buf pat i := by
      intro pat hpat i hi hat
      have hbound := (hat.bounds hpat).2
      have hpos := List.length_pos_iff.mpr hpat
      omega
    refine .found (r := -1) (fun c _ i hi hat => absurd hat (hbehind _ (List.cons_ne_nil c []) i hi)) ?_ (by omega)
      fun fuel _ => ?_
    · exact first_absent.mpr (hbehind _ delim.text_ne_nil)
    · cases delim with
      | string text nonempty => simp only [Delimiter.lfind, lfindAt, hchecks]; rfl
      | byte c => simp only [Delimiter.lfind, lfindByteAt, hchecks]; rfl

theorem splits_small (hlen : val.view.bytes.length < 2 ^ 31) (delim : Delimiter) :
    Splits val delim ↔ Apart val.view.bytes delim.text ∧ NoneWraps val.view.bytes delim.text 0 := by
  have hne := delim.text_ne_nil
  constructor
  · rintro ⟨pieces, ⟨n, hn⟩, -, -⟩
    have he := hn (n + (2 * val.view.bytes.length + 2)) (by omega)
    rw [split_eq] at he
    obtain ⟨-, hapart, hwraps⟩ := splitLoop_only hlen hne (by
      intro p r h0 hp hr
      rcases delim.lfind_settles hlen h0 hp with ⟨hreads, r', hfirst, hrun⟩ | ⟨-, hrun⟩
      · have hr' := (hrun _ (by omega)).symm.trans hr
        injection hr' with hr'
        exact ⟨hr' ▸ hfirst, hreads⟩
      · exact absurd hr (hrun _ (by omega) r)) (Int.le_refl 0) (by omega) (Int.le_refl 0) (by omega) he
    exact ⟨fun i j hi hj => hapart i j hi.1 hi hj, hwraps⟩
  · rintro ⟨hapart, hwraps⟩
    have hfind : ∀ p : Int, 0 ≤ p → p ≤ val.view.bytes.length → ∃ r, First val.view.bytes delim.text p r.toInt ∧
        ∀ n : Nat, (2 * val.view.bytes.length + 1 : Int) < n →
          delim.lfind val.view.bytes n (BitVec.ofInt 32 p) = .ok r := by
      intro p h0 hp
      rcases delim.lfind_settles hlen h0 hp with ⟨-, r, hfirst, hrun⟩ | ⟨hbad, -⟩
      · exact ⟨r, hfirst, hrun⟩
      · exact absurd (fun c hc i hpi hat _ => hwraps c hc i (by omega) hat) hbad
    obtain ⟨pieces, hrun, -, hjoin, hnot⟩ := splitLoop_ok hlen hne hfind hapart (Int.le_refl 0)
      (Int.le_refl 0)
      (Int.natCast_nonneg _) (fun i hi _ => hi)
    refine ⟨pieces, ⟨2 * val.view.bytes.length + 2, fun fuel hfuel => ?_⟩, hjoin, hnot⟩
    rw [split_eq]
    exact hrun fuel fuel (by omega) (by omega)

/-- The size is below zero as an `int`, and nothing is searched for. -/
theorem splits_large (hlen : 2 ^ 31 ≤ val.view.bytes.length) (hfits : val.view.bytes.length < 2 ^ 32)
    (delim : Delimiter) :
    Splits val delim ↔ ∀ i, ¬ Occurs val.view.bytes delim.text i := by
  have hneg : (BufferFind.intSize val.view.bytes).toInt ≤ 0 := by
    rw [intSize_eq, BitVec.toInt_ofInt, Int.bmod_def]
    omega
  have hchecks : findPosChecks val.view.bytes (BitVec.ofInt 32 0) = none := if_pos (.inl hneg)
  have hfind : ∀ fuel, delim.lfind val.view.bytes fuel (BitVec.ofInt 32 0) = .ok (-1) := by
    intro fuel
    cases delim with
    | string text nonempty => simp only [Delimiter.lfind, lfindAt, hchecks]; rfl
    | byte c => simp only [Delimiter.lfind, lfindByteAt, hchecks]; rfl
  obtain ⟨piece, hpiece, hbytes⟩ := @slice1_ok val 0 hfits (Int.le_refl 0) (by omega) (by decide)
  have hreturns : Returns (split val delim) (.ok [piece]) := by
    refine .now fun fuel => ?_
    rw [split_eq, splitLoop, hfind]
    change Functor.map _ (macros _ _) = _
    rw [hpiece]
    rfl
  have hoccurs : (∀ i, ¬ Occurs val.view.bytes delim.text i) ↔ ¬ delim.text <:+: val.view.bytes :=
    not_exists.symm.trans (not_congr occurs_iff_infix)
  have hall : piece.bytes = val.view.bytes := hbytes
  rw [hoccurs]
  constructor
  · rintro ⟨pieces, hruns, -, hnot⟩
    have heq := hruns.unique hreturns
    injection heq with heq
    rw [← hall]
    exact hnot piece (heq ▸ List.mem_singleton_self piece)
  · intro hnone
    refine ⟨[piece], hreturns, ?_, fun q hq => ?_⟩
    · rw [List.map_singleton, List.intercalate_singleton, hall]
    · rw [List.mem_singleton.mp hq, hall]
      exact hnone

/-- When the pieces are what the value is split into. -/
theorem splits_iff (val : Target) (delim : Delimiter) :
    (SplitsOk val.view.bytes delim.text → Splits val delim) ∧
      (val.size < 2 ^ 32 → Splits val delim → SplitsOk val.view.bytes delim.text) := by
  constructor
  · rintro (⟨hlen, hok⟩ | ⟨hlen, hfits, hnone⟩)
    · exact (splits_small hlen delim).mpr hok
    · exact (splits_large hlen hfits delim).mpr hnone
  · intro hsize hsplits
    rw [← length_bytes val] at hsize
    by_cases hlen : val.view.bytes.length < 2 ^ 31
    · exact .inl ⟨hlen, (splits_small hlen delim).mp hsplits⟩
    · have hge : 2 ^ 31 ≤ val.view.bytes.length := Nat.le_of_not_lt hlen
      exact .inr ⟨hge, hsize, (splits_large hge hsize delim).mp hsplits⟩

/-- The first and the last piece are empty. -/
theorem commas_split : Splits (.string [44, 97, 44] (by decide)) (.byte 44) := by
  refine (splits_iff _ _).1 (.inl ⟨by decide, ?_, ?_⟩)
  · intro i j _ _ hij
    exact hij
  · intro c _ i _ hat hbig
    have hbound := (hat.bounds (List.cons_ne_nil c [])).2
    have hone : (Delimiter.byte 44).text.length = 1 := rfl
    rw [List.length_singleton] at hbound
    rw [hone] at hbig
    omega

def aaa : Target := .string [97, 97, 97] (by decide)

/-- The second delimiter begins within the first one. -/
theorem overlapping_not_split : ¬ Splits aaa (.string [97, 97] (by decide)) := by
  rw [splits_small (by decide)]
  rintro ⟨hapart, -⟩
  have h := hapart 0 1 ⟨by decide, by decide⟩ ⟨by decide, by decide⟩ (by decide)
  exact absurd h (by decide)

end Splitting

end Crack
