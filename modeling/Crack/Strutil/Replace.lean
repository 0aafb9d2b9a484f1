import Crack.Cont.ElemArray
import Crack.Lib.Replacing

/-!
# Replacing bytes

The bytes of one array are replaced by those of another one, pair by pair through the whole text.
-/
namespace Crack

open Replacing
open Loops (loop)

namespace Strutil

/-- A round of the inner loop. The pointer's index is an `int`. -/
def replaceAt (orig new : UInt8) (newBuf : List UInt8) (i : Nat) : Except Fault (List UInt8) := do
  if (← slot newBuf i) = orig then setSlot newBuf i new else return newBuf

/-- The inner loop, whose index is a `uint`. -/
def replaceByte (size : Nat) (orig new : UInt8) (newBuf : List UInt8) : Except Fault (List UInt8) :=
  loop (replaceAt orig new) 0 (uint size) newBuf

/-- The new string is a copy of the whole text, and its size is a `uint`. -/
def replace (text orig new : List UInt8) : Except Fault (Except Exc (List UInt8)) := do
  if orig.length ≠ new.length then
    return .error (.invalidArgumentError "Length of original and new character arrays must match")
  else
    let newBuf ← (orig.zip new).foldlM (fun newBuf p => replaceByte text.length p.1 p.2 newBuf) text
    return .ok (newBuf.take (uint text.length))

/-- The bytes are replaced at once. -/
def Replaces (text orig new : List UInt8) : Prop :=
  ∃ result, replace text orig new = .ok (.ok result) ∧ result.length = text.length ∧
    ∀ (k : Nat) b, text[k]? = some b →
      (∀ j : Nat, orig[j]? = some b → result[k]? = new[j]?) ∧ (b ∉ orig → result[k]? = some b)

/-- The text has at most 2 ^ 31 bytes, or there is nothing to look for. The replacement of a byte that is in the
text is not replaced later, or the later pairs lead back to it. -/
def Settled (text orig new : List UInt8) : Prop :=
  (text.length ≤ 2 ^ 31 ∨ orig = [] ∧ text.length < 2 ^ 32) ∧
    ∀ (j : Nat) b c, orig[j]? = some b → new[j]? = some c → b ∈ text →
      c ∉ orig.drop (j + 1) ∨ Leads ((orig.zip new).drop (j + 1)) c c

variable {text orig new buf : List UInt8} {pairs : List (UInt8 × UInt8)} {size : Nat}

theorem replaceAt_ok (p : UInt8 × UInt8) {i : Nat} (hi : i < buf.length) (hsmall : i < 2 ^ 31) :
    replaceAt p.1 p.2 buf i = .ok (buf.set i (step buf[i] p)) := by
  have hslot : slot buf i = .ok buf[i] := by rw [slot, List.getElem?_eq_getElem hi]; exact if_pos hsmall
  rw [replaceAt, hslot]
  simp only [bind, Except.bind]
  by_cases heq : buf[i] = p.1
  · rw [if_pos heq, setSlot, if_pos ⟨hsmall, hi⟩, heq, step_self]
  · rw [if_neg heq, step_of_ne heq, List.set_getElem_self]
    rfl

theorem replaceByte_ok (p : UInt8 × UInt8) (hsize : uint size ≤ buf.length) (hsmall : uint size ≤ 2 ^ 31) :
    ∃ buf', replaceByte size p.1 p.2 buf = .ok buf' ∧ buf'.length = buf.length ∧
      ∀ k : Nat, buf'[k]? = buf[k]?.map fun b => if k < uint size then step b p else b := by
  -- the rounds up to `i` have replaced what is in front of it
  have hrounds := Loops.loop_ok (f := replaceAt p.1 p.2) (i := 0) (n := uint size)
    (fun i newBuf => newBuf.length = buf.length ∧
      ∀ k : Nat, newBuf[k]? = buf[k]?.map fun b => if k < i then step b p else b)
    ⟨rfl, fun k => by simp⟩ fun i newBuf _ hi ⟨hlen, hget⟩ => ?_
  · rw [Nat.zero_add] at hrounds
    exact hrounds
  · have hlt : i < newBuf.length := by omega
    have hsame : newBuf[i] = buf[i] := by
      have h := hget i
      rw [List.getElem?_eq_getElem hlt, List.getElem?_eq_getElem (hlen ▸ hlt), Option.map_some,
        if_neg (Nat.lt_irrefl i)] at h
      exact Option.some.inj h
    refine ⟨_, replaceAt_ok p hlt (by omega), by rw [List.length_set, hlen], fun k => ?_⟩
    by_cases hk : k = i
    · subst hk
      rw [List.getElem?_set_self hlt, hsame, List.getElem?_eq_getElem (hlen ▸ hlt), Option.map_some,
        if_pos (Nat.lt_succ_self k)]
    · have hiff : k < i + 1 ↔ k < i := by omega
      rw [List.getElem?_set_ne (Ne.symm hk), hget]
      simp only [hiff]

/-- A text with an index of 2 ^ 31 is read before its memory. -/
theorem replaceByte_far (p : UInt8 × UInt8) (hlarge : 2 ^ 31 < uint size) (buf' : List UInt8) :
    replaceByte size p.1 p.2 buf ≠ .ok buf' := by
  intro h
  obtain ⟨newBuf, newBuf', hround⟩ := Loops.round_of_loop_ok h (Nat.zero_le (2 ^ 31)) (by omega)
  obtain ⟨b, hslot, -⟩ := Loops.bind_ok hround
  rw [slot] at hslot
  split at hslot
  · rw [if_neg (Nat.lt_irrefl _)] at hslot
    cases hslot
  · cases hslot

theorem pairs_ok (pairs : List (UInt8 × UInt8)) (hsize : uint size ≤ buf.length) (hsmall : uint size ≤ 2 ^ 31) :
    ∃ buf', pairs.foldlM (fun newBuf p => replaceByte size p.1 p.2 newBuf) buf = .ok buf' ∧
      buf'.length = buf.length ∧
      ∀ k : Nat, buf'[k]? = buf[k]?.map fun b => if k < uint size then inTurn pairs b else b := by
  induction pairs generalizing buf with
  | nil => exact ⟨buf, rfl, rfl, fun k => by simp⟩
  | cons p pairs ih =>
    obtain ⟨buf₁, he₁, hlen₁, hget₁⟩ := replaceByte_ok p hsize hsmall
    obtain ⟨buf₂, he₂, hlen₂, hget₂⟩ := ih (hlen₁ ▸ hsize)
    refine ⟨buf₂, by rw [List.foldlM_cons, he₁]; exact he₂, hlen₂.trans hlen₁, fun k => ?_⟩
    rw [hget₂, hget₁, Option.map_map]
    refine congrArg (Option.map · buf[k]?) (funext fun b => ?_)
    by_cases hk : k < uint size
    · simp only [Function.comp, if_pos hk, inTurn_cons]
    · simp only [Function.comp, if_neg hk]

theorem replace_ok (hlen : orig.length = new.length) (hsmall : text.length ≤ 2 ^ 31) :
    ∃ result, replace text orig new = .ok (.ok result) ∧ result.length = text.length ∧
      ∀ k : Nat, result[k]? = text[k]?.map (inTurn (orig.zip new)) := by
  have huint : uint text.length = text.length := Nat.mod_eq_of_lt (by omega)
  obtain ⟨buf, he, hbuf, hget⟩ := pairs_ok (orig.zip new) (Nat.le_of_eq huint) (by omega)
  refine ⟨buf, ?_, hbuf, fun k => ?_⟩
  · rw [replace, if_neg (fun h => h hlen), he, huint, ← hbuf]
    exact congrArg (fun l => Except.ok (Except.ok l)) List.take_length
  · rw [hget, huint]
    cases hk : text[k]? with
    | none => rfl
    | some b => rw [Option.map_some, Option.map_some, if_pos (List.getElem?_eq_some_iff.mp hk).1]

/-- What is replaced at once is short enough. -/
theorem Replaces.small (h : Replaces text orig new) (hlen : orig.length = new.length) :
    text.length ≤ 2 ^ 31 ∨ orig = [] ∧ text.length < 2 ^ 32 := by
  obtain ⟨result, he, hsize, -⟩ := h
  rw [replace, if_neg (fun h => h hlen)] at he
  obtain ⟨buf, hloop, hresult⟩ := Loops.bind_ok he
  obtain rfl := Except.ok.inj (Except.ok.inj hresult)
  have htake := List.length_take_le (uint text.length) buf
  have hlt : text.length < 2 ^ 32 := by
    rw [hsize] at htake
    exact Nat.lt_of_le_of_lt htake (Nat.mod_lt _ (by decide))
  have huint : uint text.length = text.length := Nat.mod_eq_of_lt hlt
  match orig, new with
  | [], _ => exact .inr ⟨rfl, hlt⟩
  | b :: orig, c :: new =>
    rw [List.zip_cons_cons, List.foldlM_cons] at hloop
    obtain ⟨buf', hfirst, -⟩ := Loops.bind_ok hloop
    refine .inl (Nat.le_of_not_lt fun hlarge => ?_)
    exact replaceByte_far (b, c) (huint.symm ▸ hlarge) buf' hfirst
  | _ :: _, [] => cases hlen

/-- The pair of a byte, with the pairs before and behind it. -/
theorem inTurn_zip_iff (hlen : orig.length = new.length) (hnodup : orig.Nodup) {j : Nat} {b c : UInt8}
    (hb : orig[j]? = some b) (hc : new[j]? = some c) :
    inTurn (orig.zip new) b = c ↔ c ∉ orig.drop (j + 1) ∨ Leads ((orig.zip new).drop (j + 1)) c c := by
  have hfst : (orig.zip new).map Prod.fst = orig := List.map_fst_zip (Nat.le_of_eq hlen)
  have hpair : (orig.zip new)[j]? = some (b, c) := List.getElem?_zip_eq_some.mpr ⟨hb, hc⟩
  obtain ⟨hj, hget⟩ := List.getElem?_eq_some_iff.mp hpair
  have hsplit : orig.zip new = (orig.zip new).take j ++ (b, c) :: (orig.zip new).drop (j + 1) := by
    rw [← hget, ← List.drop_eq_getElem_cons hj, List.take_append_drop]
  rw [← hfst] at hnodup
  rw [hsplit] at hnodup
  have hiff := inTurn_eq_iff hnodup
  rwa [← hsplit, List.map_drop, hfst] at hiff

/-- A text is replaced at once just if no replacement is replaced for good by the pairs behind it. -/
theorem replaces_iff (text orig new : List UInt8) (hlen : orig.length = new.length) (hnodup : orig.Nodup) :
    Replaces text orig new ↔ Settled text orig new := by
  have hfst : (orig.zip new).map Prod.fst = orig := List.map_fst_zip (Nat.le_of_eq hlen)
  constructor
  · refine fun h => ⟨h.small hlen, fun j b c hb hc hmem => ?_⟩
    have hsmall : text.length ≤ 2 ^ 31 := (h.small hlen).resolve_right fun hnone => by
      rw [hnone.1] at hb
      cases hb
    obtain ⟨result, hreplace, -, hget⟩ := @replace_ok text orig new hlen hsmall
    obtain ⟨result', hreplace', -, hbytes⟩ := h
    obtain rfl := Except.ok.inj (Except.ok.inj (hreplace.symm.trans hreplace'))
    obtain ⟨k, hk⟩ := List.mem_iff_getElem?.mp hmem
    have hresult := (hbytes k b hk).1 j hb
    rw [hget, hk, Option.map_some, hc] at hresult
    exact (inTurn_zip_iff hlen hnodup hb hc).mp (Option.some.inj hresult)
  · rintro ⟨hsmall | ⟨rfl, hlt⟩, h⟩
    · obtain ⟨result, hreplace, hsize, hget⟩ := @replace_ok text orig new hlen hsmall
      refine ⟨result, hreplace, hsize, fun k b hk => ⟨fun j hj => ?_, fun hnot => ?_⟩⟩
      · have hj' : j < new.length := hlen ▸ (List.getElem?_eq_some_iff.mp hj).1
        have hc : new[j]? = some new[j] := List.getElem?_eq_getElem hj'
        have hmem : b ∈ text := List.mem_iff_getElem?.mpr ⟨k, hk⟩
        rw [hget, hk, hc, Option.map_some, (inTurn_zip_iff hlen hnodup hj hc).mpr (h j b _ hj hc hmem)]
      · rw [hget, hk, Option.map_some, inTurn_of_not_mem (by rwa [hfst])]
    · -- nothing is gone through
      obtain rfl := List.length_eq_zero_iff.mp hlen.symm
      have huint : uint text.length = text.length := Nat.mod_eq_of_lt hlt
      have hreplace : replace text [] [] = .ok (.ok text) := by
        have htake : replace text [] [] = .ok (.ok (text.take (uint text.length))) := rfl
        rw [htake, huint, List.take_length]
      refine ⟨text, hreplace, rfl, fun k b hk => ⟨fun j hj => ?_, fun _ => hk⟩⟩
      rw [List.getElem?_nil] at hj
      cases hj

/-- The first replacement is the original of the second pair, and the two pairs behind lead back to it. -/
theorem cycle_replaced : Replaces [120, 100] [120, 97, 98] [97, 98, 97] := by
  refine (replaces_iff [120, 100] [120, 97, 98] [97, 98, 97] rfl (by decide)).mpr
    ⟨.inl (by decide), fun j b c hb hc hmem => ?_⟩
  match j with
  | 0 =>
    cases hb
    cases hc
    exact .inr (.more (.last _ _))
  | 1 =>
    cases hb
    exact absurd hmem (by decide)
  | 2 =>
    cases hb
    exact absurd hmem (by decide)
  | j + 3 => cases hb

/-- A swap of two bytes makes them the same. -/
theorem swap_not_replaced : ¬∀ text orig new : List UInt8, orig.length = new.length → orig.Nodup →
    Replaces text orig new := by
  intro h
  obtain ⟨result, hreplace, -, hbytes⟩ := h [97, 98] [97, 98] [98, 97] rfl (by decide)
  have hrun : replace [97, 98] [97, 98] [98, 97] = .ok (.ok [97, 97]) := rfl
  obtain rfl := Except.ok.inj (Except.ok.inj (hrun.symm.trans hreplace))
  exact absurd ((hbytes 0 97 rfl).1 0 rfl) (by decide)

end Strutil

end Crack
