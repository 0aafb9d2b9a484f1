import Mathlib.Data.List.Count
import Mathlib.Data.List.Perm.Basic
import Mathlib.Tactic.Common

/-!
# The exclusive or along a list

What occurs twice does not count, so the result is that of the elements that occur an odd
number of times.
-/
namespace Crack

variable {α β : Type*} {w : Nat}

def xorAll (f : α → BitVec w) (l : List α) : BitVec w := l.foldr (fun a x => f a ^^^ x) 0

section

variable (f : α → BitVec w)

@[simp] theorem xorAll_nil : xorAll f [] = 0 := rfl

@[simp] theorem xorAll_cons (a : α) (l : List α) : xorAll f (a :: l) = f a ^^^ xorAll f l := rfl

@[simp] theorem xorAll_append (l m : List α) : xorAll f (l ++ m) = xorAll f l ^^^ xorAll f m := by
  induction l with
  | nil => simp
  | cons a l ih => rw [List.cons_append, xorAll_cons, ih, xorAll_cons, BitVec.xor_assoc]

theorem xorAll_zero (l : List α) : xorAll (fun _ => (0 : BitVec w)) l = 0 := by
  induction l with
  | nil => rfl
  | cons a l ih =>
    rw [xorAll_cons, ih]
    exact BitVec.xor_zero

theorem xorAll_xor (g : α → BitVec w) (l : List α) :
    xorAll (fun a => f a ^^^ g a) l = xorAll f l ^^^ xorAll g l := by
  induction l with
  | nil => simp
  | cons a l ih =>
    rw [xorAll_cons, ih, xorAll_cons, xorAll_cons]
    ac_rfl

theorem xorAll_flatMap (g : β → List α) (l : List β) : xorAll f (l.flatMap g) = xorAll (fun b => xorAll f (g b)) l := by
  induction l with
  | nil => rfl
  | cons b l ih => rw [List.flatMap_cons, xorAll_append, ih, xorAll_cons]

theorem xorAll_map (σ : β → α) (l : List β) : xorAll f (l.map σ) = xorAll (f ∘ σ) l :=
  List.foldr_map

theorem xorAll_perm {l m : List α} (h : l.Perm m) : xorAll f l = xorAll f m := by
  induction h with
  | nil => rfl
  | cons a _ ih => rw [xorAll_cons, ih, xorAll_cons]
  | swap a b l => simp only [xorAll_cons, ← BitVec.xor_assoc, BitVec.xor_comm (f a)]
  | trans _ _ ih ih' => exact ih.trans ih'

end

theorem xorAll_congr {f g : α → BitVec w} {l : List α} (h : ∀ a ∈ l, f a = g a) : xorAll f l = xorAll g l := by
  induction l with
  | nil => rfl
  | cons a l ih =>
    rw [List.forall_mem_cons] at h
    rw [xorAll_cons, xorAll_cons, h.1, ih h.2]

variable [DecidableEq α]

/-- Every element occurs in both lists an odd, or in both an even number of times. -/
def SameParity (l m : List α) : Prop := ∀ a, l.count a % 2 = m.count a % 2

theorem xorAll_eq_zero (f : α → BitVec w) : ∀ {l : List α}, (∀ a, l.count a % 2 = 0) → xorAll f l = 0
  | [], _ => rfl
  | a :: l, h => by
    -- the first element occurs once more, and both go
    have hmem : a ∈ l := by
      have ha := h a
      rw [List.count_cons_self] at ha
      exact List.count_pos_iff.mp (by omega)
    have hrest : xorAll f (l.erase a) = 0 := by
      refine xorAll_eq_zero f fun b => ?_
      have hb := h b
      rw [List.count_cons] at hb
      rw [List.count_erase]
      have hpos := List.count_pos_iff.mpr hmem
      by_cases hab : a = b
      · subst hab
        simp only [beq_self_eq_true, if_true] at hb ⊢
        omega
      · simpa [hab] using hb
    rw [xorAll_cons, xorAll_perm f (List.perm_cons_erase hmem), xorAll_cons, hrest]
    simp
termination_by l => l.length
decreasing_by
  have := List.length_erase_le (a := a) (l := l)
  simp only [List.length_cons]
  omega

theorem xorAll_eq (f : α → BitVec w) {l m : List α} (h : SameParity l m) : xorAll f l = xorAll f m := by
  have hzero : xorAll f (l ++ m) = 0 := by
    refine xorAll_eq_zero f fun a => ?_
    have := h a
    rw [List.count_append]
    omega
  rw [xorAll_append] at hzero
  exact BitVec.xor_eq_zero_iff.mp hzero

/-- With a function that tells one element apart. -/
theorem xorAll_single (a : α) (l : List α) :
    xorAll (fun c => if c = a then (1 : BitVec w) else 0) l = if l.count a % 2 = 1 then 1 else 0 := by
  induction l with
  | nil => rfl
  | cons b l ih =>
    rw [xorAll_cons, ih, List.count_cons]
    by_cases hba : b = a
    · subst hba
      rcases Nat.mod_two_eq_zero_or_one (l.count b) with heven | hodd
      · rw [if_pos rfl, if_neg (by omega), if_pos (by simp; omega)]
        simp
      · rw [if_pos rfl, if_pos hodd, if_neg (by simp; omega)]
        simp
    · simp [hba]

/-- Whatever the function, only equal parities give equal results. -/
theorem sameParity_of_eq {l m : List α} (h : ∀ f : α → BitVec (w + 1), xorAll f l = xorAll f m) : SameParity l m := by
  intro a
  have heq := h fun c => if c = a then 1 else 0
  rw [xorAll_single, xorAll_single] at heq
  have hne : (1 : BitVec (w + 1)) ≠ 0 := fun h1 => by
    simpa using congrArg BitVec.toNat h1
  split at heq <;> split at heq
  · omega
  · exact absurd heq hne
  · exact absurd heq.symm hne
  · omega

theorem xor_xor_cancel (x y z : BitVec w) : x ^^^ z ^^^ (y ^^^ z) = x ^^^ y := by
  calc x ^^^ z ^^^ (y ^^^ z) = x ^^^ z ^^^ (z ^^^ y) := by rw [BitVec.xor_comm y]
    _ = x ^^^ (z ^^^ z ^^^ y) := by rw [BitVec.xor_assoc, ← BitVec.xor_assoc z]
    _ = x ^^^ y := by rw [BitVec.xor_self, BitVec.zero_xor]

/-- With functions that differ for two elements only, where one counts and the other doesn't. -/
theorem xorAll_exchange {f g : α → BitVec w} {l : List α} {a b : α} (ha : l.count a % 2 = 1)
    (hb : l.count b % 2 = 0) (hfg : ∀ c, c ≠ a → c ≠ b → f c = g c) :
    xorAll f l ^^^ xorAll g l = f a ^^^ g a := by
  let rest := l.filter fun c => c ≠ a ∧ c ≠ b
  have hmem : ∀ c, c ∈ rest ↔ c ∈ l ∧ c ≠ a ∧ c ≠ b := fun c => by simp [rest]
  have hparity : SameParity l (a :: rest) := by
    intro c
    rw [List.count_cons]
    by_cases hca : c = a
    · have hnot : rest.count c = 0 := List.count_eq_zero.mpr fun hc => ((hmem c).mp hc).2.1 hca
      rw [hnot, hca, ha, if_pos (beq_self_eq_true a)]
    · rw [if_neg (by simpa using Ne.symm hca)]
      by_cases hcb : c = b
      · have hnot : rest.count c = 0 := List.count_eq_zero.mpr fun hc => ((hmem c).mp hc).2.2 hcb
        rw [hnot, hcb, hb]
      · rw [List.count_filter (by simp [hca, hcb])]
        rfl
  have hrest : xorAll f rest = xorAll g rest :=
    xorAll_congr fun c hc => hfg c ((hmem c).mp hc).2.1 ((hmem c).mp hc).2.2
  rw [xorAll_eq f hparity, xorAll_eq g hparity, xorAll_cons, xorAll_cons, hrest, xor_xor_cancel]

end Crack
