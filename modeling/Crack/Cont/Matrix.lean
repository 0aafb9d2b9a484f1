import Crack.Cont.ElemArrayRuns
import Mathlib.Data.Fintype.Card
import Mathlib.Data.Fintype.Prod
import Mathlib.Data.Nat.ModEq
import Mathlib.Tactic.Ring

/-!
# Matrices

A view of the data of an array by a shape, strides and offsets, and its transpose. An index of the data is an `int`, to
which the `uintz` that is computed is cut down.
-/
namespace Crack

open ElemArray (Holds)

structure Matrix (α : Type) where
  data : ElemArray α
  shape : List UInt32
  strides : List UInt64
  offsets : List UInt64

namespace Matrix

variable {α : Type}

/-- `oper []` of an array of numbers -/
def entry {β : Type} (l : List β) (i : Nat) : Except Exc β :=
  match l[i]? with
  | some x => .ok x
  | none => .error (.indexError (ElemArray.getItemText l.length i))

variable (m : Matrix α)

def dims : Nat := m.shape.length

/-- The transpose that `_createTranspose` makes, if it makes one. -/
def createTranspose : Except Exc (Option (Matrix α)) := do
  if m.dims = 1 then return some m
  else if m.dims = 2 then
    let newShape := [← entry m.shape 1, ← entry m.shape 0]
    let newStrides := [← entry m.strides 1, ← entry m.strides 0]
    let newOffsets := [← entry m.offsets 1, ← entry m.offsets 1]
    return some ⟨m.data, newShape, newStrides, newOffsets⟩
  else return none

/-- Where an element is in the data. -/
def place (stride₀ stride₁ offset₀ : UInt64) (i j : UInt32) : BitVec 32 :=
  (stride₁ * (j + offset₀.toUInt32).toUInt64 + offset₀ + stride₀ * i.toUInt64).toUInt32.toBitVec

def rangeText (i j : UInt32) : String :=
  "Index [" ++ toString i ++ "," ++ toString j ++ "] out of bounds for array with shape " ++ toString m.shape

/-- The index of an element in the data, with the tests before it. -/
def locate (i j : UInt32) : Except Exc (BitVec 32) := do
  if m.data.size ≤ (i * j).toNat ∨ i > (← entry m.shape 0) ∨ j > (← entry m.shape 1) then
    throw (.indexError (m.rangeText i j))
  else
    let stride₁ ← entry m.strides 1
    let offset₀ ← entry m.offsets 0
    let stride₀ ← entry m.strides 0
    return place stride₀ stride₁ offset₀ i j

def dimsText : String := "Attempting to access element from " ++ toString m.dims ++ "D array using 2 indices"

/-- `oper []` with two indexes -/
def get (i j : UInt32) : Except Fault (Except Exc α) :=
  if m.dims ≠ 2 then .ok (.error (.invalidArgumentError m.dimsText))
  else
    match m.locate i j with
    | .error e => .ok (.error e)
    | .ok index => m.data.getItem index

/-- The strides of `empty`, and the capacity of the data. -/
def stridesFrom (cap : UInt32) : List UInt32 → List UInt64 × UInt32
  | [] => ([], cap)
  | d :: ds => ((cap.toUInt64 :: (stridesFrom (cap * d) ds).1), (stridesFrom (cap * d) ds).2)

def empty (null : α) (d : List UInt32) : Except Exc (Matrix α) :=
  if d.length = 0 then .error (.assertionError "Attempt to create a Matrix with 0 dimensions")
  else
    let (newStrides, cap) := stridesFrom 1 d
    .ok ⟨ElemArray.init null cap.toBitVec, d, newStrides, List.replicate d.length 0⟩

/-- Both indexes are in range. -/
def InRange (s₀ s₁ i j : UInt32) : Prop := i < s₀ ∧ j < s₁

/-- Whatever the data are, the elements in range are distinct ones of them, all others are refused, and the transpose
has the same elements with the indexes the other way round. -/
def Works (s₀ s₁ : UInt32) (strides offsets : List UInt64) (count : UInt32) : Prop :=
  ∃ slot : UInt32 → UInt32 → Nat,
    (∀ i j i' j', InRange s₀ s₁ i j → InRange s₀ s₁ i' j' → slot i j = slot i' j' → i = i' ∧ j = j') ∧
      ∀ (α : Type) (data : ElemArray α) (P : List α), Holds data P → P.length = count.toNat →
        (∀ i j, InRange s₀ s₁ i j →
          ∃ x, P[slot i j]? = some x ∧ get ⟨data, [s₀, s₁], strides, offsets⟩ i j = .ok (.ok x)) ∧
        (∀ i j, ¬InRange s₀ s₁ i j →
          ∃ text, get ⟨data, [s₀, s₁], strides, offsets⟩ i j = .ok (.error (.indexError text))) ∧
        ∃ T, createTranspose ⟨data, [s₀, s₁], strides, offsets⟩ = .ok (some T) ∧ T.shape = [s₁, s₀] ∧
          ∀ i j, InRange s₀ s₁ i j → T.get j i = get ⟨data, [s₀, s₁], strides, offsets⟩ i j

/-- The place of an element as a number with a sign. -/
def spot (stride₀ stride₁ offset₀ i j : Nat) : Int :=
  ((offset₀ * (stride₁ + 1) + stride₁ * j + stride₀ * i : Nat) : Int).bmod (2 ^ 32)

/-- How far the places are moved by the transpose. -/
def shift (stride₀ stride₁ offset₀ offset₁ : Nat) : Int :=
  ((offset₁ * (stride₀ + 1) : Nat) - (offset₀ * (stride₁ + 1) : Nat) : Int).bmod (2 ^ 32)

/-- An index from the front or from the end. -/
def Inside (count : Nat) (x : Int) : Prop := -(count : Int) ≤ x ∧ x < count

/-- At most one row or one column, whose elements are distinct ones of the data, while what is next to them is none of
them; and the transpose moves no place, or each by a whole round of the data. -/
structure Meets (s₀ s₁ stride₀ stride₁ offset₀ offset₁ count : Nat) : Prop where
  line : s₀ ≤ 1 ∨ s₁ ≤ 1
  inside : ∀ i j, i < s₀ → j < s₁ → Inside count (spot stride₀ stride₁ offset₀ i j)
  apart : ∀ i j i' j', i < s₀ → j < s₁ → i' < s₀ → j' < s₁ →
    spot stride₀ stride₁ offset₀ i j % count = spot stride₀ stride₁ offset₀ i' j' % count → i = i' ∧ j = j'
  outside : ∀ i j, i ≤ s₀ → j ≤ s₁ → i = s₀ ∨ j = s₁ → i * j < count → ¬Inside count (spot stride₀ stride₁ offset₀ i j)
  turned : s₀ = 0 ∨ s₁ = 0 ∨ shift stride₀ stride₁ offset₀ offset₁ = 0 ∨
    (shift stride₀ stride₁ offset₀ offset₁ = count ∧
      ∀ i j, i < s₀ → j < s₁ → spot stride₀ stride₁ offset₀ i j < 0) ∨
    (shift stride₀ stride₁ offset₀ offset₁ = -count ∧
      ∀ i j, i < s₀ → j < s₁ → 0 ≤ spot stride₀ stride₁ offset₀ i j)

section

variable {s₀ s₁ stride₀ stride₁ offset₀ offset₁ count i j : Nat} {x y : Int}

theorem bmod_eq (x : Int) :
    ∃ k : Int, x.bmod (2 ^ 32) = x + 2 ^ 32 * k ∧ -2 ^ 31 ≤ x.bmod (2 ^ 32) ∧ x.bmod (2 ^ 32) < 2 ^ 31 := by
  have hdiv := Int.mul_ediv_add_emod x (2 ^ 32)
  rw [Int.bmod_def]
  split
  · exact ⟨-(x / 2 ^ 32), by omega⟩
  · exact ⟨-(x / 2 ^ 32) - 1, by omega⟩

/-- One number is in each class. -/
theorem eq_of_congr {k : Int} (h : y = x + 2 ^ 32 * k) (hy : -2 ^ 31 ≤ y ∧ y < 2 ^ 31) (hx : -2 ^ 31 ≤ x ∧ x < 2 ^ 31) :
    y = x := by omega

/-- The same step from two places. -/
theorem step_congr {z w t k l : Int} (h : x = y + t + 2 ^ 32 * k) (h' : w = z + t + 2 ^ 32 * l) :
    w = z + x - y + 2 ^ 32 * (l - k) := by omega

theorem emod_inside (h : Inside count x) : x % count = if x < 0 then x + count else x := by
  obtain ⟨hlow, hhigh⟩ := h
  split
  · rw [← Int.add_emod_right]
    exact Int.emod_eq_of_lt (by omega) (by omega)
  · exact Int.emod_eq_of_lt (by omega) hhigh

variable (stride₀ stride₁ offset₀) in
theorem spot_eq (i j : Nat) :
    ∃ k : Int, spot stride₀ stride₁ offset₀ i j =
      ((offset₀ * (stride₁ + 1) + stride₁ * j + stride₀ * i : Nat) : Int) + 2 ^ 32 * k := by
  obtain ⟨k, hk, -⟩ := bmod_eq ((offset₀ * (stride₁ + 1) + stride₁ * j + stride₀ * i : Nat) : Int)
  exact ⟨k, hk⟩

variable (stride₀ stride₁ offset₀) in
theorem spot_bounds (i j : Nat) :
    -2 ^ 31 ≤ spot stride₀ stride₁ offset₀ i j ∧ spot stride₀ stride₁ offset₀ i j < 2 ^ 31 := by
  obtain ⟨-, -, hbounds⟩ := bmod_eq ((offset₀ * (stride₁ + 1) + stride₁ * j + stride₀ * i : Nat) : Int)
  exact hbounds

variable (stride₀ stride₁ offset₀) in
theorem spot_succ_left (i j : Nat) :
    ∃ k : Int, spot stride₀ stride₁ offset₀ (i + 1) j = spot stride₀ stride₁ offset₀ i j + stride₀ + 2 ^ 32 * k := by
  obtain ⟨k, hk⟩ := spot_eq stride₀ stride₁ offset₀ i j
  obtain ⟨l, hl⟩ := spot_eq stride₀ stride₁ offset₀ (i + 1) j
  rw [Nat.mul_succ stride₀ i] at hl
  exact ⟨l - k, by omega⟩

variable (stride₀ stride₁ offset₀) in
theorem spot_succ_right (i j : Nat) :
    ∃ k : Int, spot stride₀ stride₁ offset₀ i (j + 1) = spot stride₀ stride₁ offset₀ i j + stride₁ + 2 ^ 32 * k := by
  obtain ⟨k, hk⟩ := spot_eq stride₀ stride₁ offset₀ i j
  obtain ⟨l, hl⟩ := spot_eq stride₀ stride₁ offset₀ i (j + 1)
  rw [Nat.mul_succ stride₁ j] at hl
  exact ⟨l - k, by omega⟩

variable (stride₀ stride₁ offset₀ offset₁) in
theorem spot_turned (i j : Nat) :
    ∃ k : Int, spot stride₁ stride₀ offset₁ j i =
      spot stride₀ stride₁ offset₀ i j + shift stride₀ stride₁ offset₀ offset₁ + 2 ^ 32 * k := by
  obtain ⟨k, hk⟩ := spot_eq stride₀ stride₁ offset₀ i j
  obtain ⟨l, hl⟩ := spot_eq stride₁ stride₀ offset₁ j i
  obtain ⟨p, hp, -⟩ := bmod_eq ((offset₁ * (stride₀ + 1) : Nat) - (offset₀ * (stride₁ + 1) : Nat) : Int)
  rw [← shift] at hp
  exact ⟨l - k - p, by omega⟩

variable (stride₀ stride₁ offset₀ offset₁) in
theorem shift_bounds :
    -2 ^ 31 ≤ shift stride₀ stride₁ offset₀ offset₁ ∧ shift stride₀ stride₁ offset₀ offset₁ < 2 ^ 31 := by
  obtain ⟨-, -, hbounds⟩ := bmod_eq ((offset₁ * (stride₀ + 1) : Nat) - (offset₀ * (stride₁ + 1) : Nat) : Int)
  exact hbounds

/-- Data that has a place for every index has no index outside. -/
theorem small_of_outside (hpos : 0 < count)
    (houtside : ∀ i j, i ≤ s₀ → j ≤ s₁ → i = s₀ ∨ j = s₁ → i * j < count →
      ¬Inside count (spot stride₀ stride₁ offset₀ i j)) : count < 2 ^ 31 := by
  have hbounds := spot_bounds stride₀ stride₁ offset₀ s₀ 0
  have hout := houtside s₀ 0 (Nat.le_refl s₀) (Nat.zero_le s₁) (Or.inl rfl) hpos
  rw [Inside] at hout
  omega

/-- There are not more elements in range than there are data. -/
theorem product_le (hinside : ∀ i j, i < s₀ → j < s₁ → Inside count (spot stride₀ stride₁ offset₀ i j))
    (hapart : ∀ i j i' j', i < s₀ → j < s₁ → i' < s₀ → j' < s₁ →
      spot stride₀ stride₁ offset₀ i j % count = spot stride₀ stride₁ offset₀ i' j' % count → i = i' ∧ j = j') :
    s₀ * s₁ ≤ count := by
  have hbounds : ∀ p : Fin s₀ × Fin s₁, 0 ≤ spot stride₀ stride₁ offset₀ p.1 p.2 % count ∧
      spot stride₀ stride₁ offset₀ p.1 p.2 % count < count := by
    intro p
    obtain ⟨hlow, hhigh⟩ := hinside p.1 p.2 p.1.isLt p.2.isLt
    exact ⟨Int.emod_nonneg _ (by omega), Int.emod_lt_of_pos _ (by omega)⟩
  let f : Fin s₀ × Fin s₁ → Fin count := fun p =>
    ⟨(spot stride₀ stride₁ offset₀ p.1 p.2 % count).toNat, by have := hbounds p; omega⟩
  have hf : Function.Injective f := by
    intro p q hpq
    have hp := hbounds p
    have hq := hbounds q
    have hnat := congrArg Fin.val hpq
    simp only [f] at hnat
    obtain ⟨hi, hj⟩ := hapart p.1 p.2 q.1 q.2 p.1.isLt p.2.isLt q.1.isLt q.2.isLt (by omega)
    exact Prod.ext (Fin.ext hi) (Fin.ext hj)
  have hcard := Fintype.card_le_of_injective f hf
  simpa using hcard

theorem no_corner {z : Int} (hx : Inside count x) (hy : Inside count y) (hz : Inside count z)
    (h₃ : ¬Inside count (x + x - y)) (h₄ : ¬Inside count (x + x - z)) (h₅ : ¬Inside count (z + x - y))
    (h₆ : ¬Inside count (y + x - z)) : False := by
  simp only [Inside] at *
  omega

/-- With two rows and two columns one of the elements next to the last corner is there. -/
theorem line_of_outside (hinside : ∀ i j, i < s₀ → j < s₁ → Inside count (spot stride₀ stride₁ offset₀ i j))
    (houtside : ∀ i j, i ≤ s₀ → j ≤ s₁ → i = s₀ ∨ j = s₁ → i * j < count →
      ¬Inside count (spot stride₀ stride₁ offset₀ i j)) (hproduct : s₀ * s₁ ≤ count) : s₀ ≤ 1 ∨ s₁ ≤ 1 := by
  by_contra hline
  obtain ⟨a, rfl⟩ : ∃ a, s₀ = a + 2 := ⟨s₀ - 2, by omega⟩
  obtain ⟨b, rfl⟩ : ∃ b, s₁ = b + 2 := ⟨s₁ - 2, by omega⟩
  have hpos : 0 < count := Nat.lt_of_lt_of_le (Nat.mul_pos (Nat.succ_pos _) (Nat.succ_pos _)) hproduct
  have hsmall := small_of_outside hpos houtside
  have hleft : ∀ j, j < b + 2 → (a + 2) * j < count := fun j hj =>
    Nat.lt_of_lt_of_le (Nat.mul_lt_mul_of_le_of_lt (Nat.le_refl _) hj (Nat.succ_pos _)) hproduct
  have hright : ∀ i, i < a + 2 → i * (b + 2) < count := fun i hi =>
    Nat.lt_of_lt_of_le (Nat.mul_lt_mul_of_lt_of_le hi (Nat.le_refl _) (Nat.succ_pos _)) hproduct
  obtain ⟨k₁, h₁⟩ := spot_succ_left stride₀ stride₁ offset₀ a (b + 1)
  obtain ⟨k₂, h₂⟩ := spot_succ_right stride₀ stride₁ offset₀ (a + 1) b
  obtain ⟨k₃, h₃⟩ := spot_succ_left stride₀ stride₁ offset₀ (a + 1) (b + 1)
  obtain ⟨k₄, h₄⟩ := spot_succ_right stride₀ stride₁ offset₀ (a + 1) (b + 1)
  obtain ⟨k₅, h₅⟩ := spot_succ_left stride₀ stride₁ offset₀ (a + 1) b
  obtain ⟨k₆, h₆⟩ := spot_succ_right stride₀ stride₁ offset₀ a (b + 1)
  -- a number inside is congruent to no place outside
  have hcongr : ∀ {i j : Nat} {x l : Int}, ¬Inside count (spot stride₀ stride₁ offset₀ i j) →
      spot stride₀ stride₁ offset₀ i j = x + 2 ^ 32 * l → ¬Inside count x := by
    intro i j x l hout hx hin
    obtain ⟨hlow, hhigh⟩ := hin
    rw [eq_of_congr hx (spot_bounds stride₀ stride₁ offset₀ i j) (by omega)] at hout
    exact hout ⟨hlow, hhigh⟩
  have hdown := houtside (a + 1 + 1) (b + 1) (by omega) (by omega) (Or.inl rfl) (hleft _ (by omega))
  have hdownLeft := houtside (a + 1 + 1) b (by omega) (by omega) (Or.inl rfl) (hleft _ (by omega))
  have hover := houtside (a + 1) (b + 1 + 1) (by omega) (by omega) (Or.inr rfl) (hright _ (by omega))
  have hupOver := houtside a (b + 1 + 1) (by omega) (by omega) (Or.inr rfl) (hright _ (by omega))
  have hcorner := hinside (a + 1) (b + 1) (by omega) (by omega)
  have hup := hinside a (b + 1) (by omega) (by omega)
  have hback := hinside (a + 1) b (by omega) (by omega)
  generalize spot stride₀ stride₁ offset₀ (a + 1) (b + 1) = x at *
  generalize spot stride₀ stride₁ offset₀ a (b + 1) = y at *
  generalize spot stride₀ stride₁ offset₀ (a + 1) b = z at *
  have h₃' : ¬Inside count (x + x - y) := hcongr hdown (step_congr h₁ h₃)
  have h₄' : ¬Inside count (x + x - z) := hcongr hover (step_congr h₂ h₄)
  have h₅' : ¬Inside count (z + x - y) := hcongr hdownLeft (step_congr h₁ h₅)
  have h₆' : ¬Inside count (y + x - z) := hcongr hupOver (step_congr h₂ h₆)
  exact no_corner hcorner hup hback h₃' h₄' h₅' h₆'

end

section

variable {data : ElemArray α} {P : List α} {s₀ s₁ i j : UInt32} {stride₀ stride₁ offset₀ offset₁ : UInt64}
  {strides offsets : List UInt64} {index : BitVec 32}

theorem place_toNat (stride₀ stride₁ offset₀ : UInt64) (i j : UInt32) :
    (place stride₀ stride₁ offset₀ i j).toNat ≡
      offset₀.toNat * (stride₁.toNat + 1) + stride₁.toNat * j.toNat + stride₀.toNat * i.toNat [MOD 2 ^ 32] := by
  have hcut (n : Nat) : n % 2 ^ 64 ≡ n [MOD 2 ^ 32] := (Nat.mod_modEq n (2 ^ 64)).of_dvd (Nat.pow_dvd_pow 2 (by decide))
  have hsum : (j + offset₀.toUInt32).toNat ≡ j.toNat + offset₀.toNat [MOD 2 ^ 32] := by
    rw [UInt32.toNat_add, UInt64.toNat_toUInt32]
    exact (Nat.mod_modEq _ _).trans ((Nat.mod_modEq _ _).add_left _)
  have hsplit : offset₀.toNat * (stride₁.toNat + 1) + stride₁.toNat * j.toNat + stride₀.toNat * i.toNat =
      stride₁.toNat * (j.toNat + offset₀.toNat) + offset₀.toNat + stride₀.toNat * i.toNat := by ring
  rw [place, UInt32.toNat_toBitVec, UInt64.toNat_toUInt32, UInt64.toNat_add, UInt64.toNat_add, UInt64.toNat_mul,
    UInt64.toNat_mul, UInt32.toNat_toUInt64, UInt32.toNat_toUInt64, hsplit]
  have hfirst := (hcut _).trans (hsum.mul_left stride₁.toNat)
  have hsecond := (hcut _).trans (hfirst.add_right offset₀.toNat)
  exact (Nat.mod_modEq _ _).trans ((hcut _).trans (hsecond.add (hcut _)))

theorem place_toInt (stride₀ stride₁ offset₀ : UInt64) (i j : UInt32) :
    (place stride₀ stride₁ offset₀ i j).toInt = spot stride₀.toNat stride₁.toNat offset₀.toNat i.toNat j.toNat := by
  have hplace : (place stride₀ stride₁ offset₀ i j).toNat =
      (offset₀.toNat * (stride₁.toNat + 1) + stride₁.toNat * j.toNat + stride₀.toNat * i.toNat) % 2 ^ 32 := by
    rw [← place_toNat]
    exact (Nat.mod_eq_of_lt (place stride₀ stride₁ offset₀ i j).isLt).symm
  rw [BitVec.toInt_eq_toNat_bmod, hplace, Int.natCast_emod]
  exact Int.emod_bmod ..

section

variable (h : Holds data P)

include h

theorem adjust_lt_iff : (data.adjust index).toNat < data.size ↔ Inside P.length index.toInt := by
  have hlt := index.isLt
  have hsize := h.size
  have hle := h.size_le_cap
  have hcap := h.small
  rw [Inside, ElemArray.adjust, BitVec.toInt_eq_toNat_cond, h.size]
  by_cases hneg : 2 * index.toNat < 2 ^ 32
  · simp only [if_pos hneg]
    rw [if_neg (by omega)]
    omega
  · simp only [if_neg hneg]
    rw [if_pos (by omega), BitVec.toNat_add, BitVec.toNat_ofNat]
    omega

theorem adjust_inside (hinside : Inside P.length index.toInt) :
    (data.adjust index).toNat = (index.toInt % P.length).toNat := by
  have hlt := index.isLt
  have hsize := h.size
  have hle := h.size_le_cap
  have hcap := h.small
  rw [emod_inside hinside]
  obtain ⟨hlow, hhigh⟩ := hinside
  rw [ElemArray.adjust, h.size]
  rw [BitVec.toInt_eq_toNat_cond] at *
  by_cases hneg : 2 * index.toNat < 2 ^ 32
  · simp only [if_pos hneg] at *
    rw [if_neg (by omega), if_neg (by omega)]
    omega
  · simp only [if_neg hneg] at *
    rw [if_pos (by omega), if_pos (by omega), BitVec.toNat_add, BitVec.toNat_ofNat]
    omega

theorem getItem_outside (hout : ¬Inside P.length index.toInt) :
    ∃ text, data.getItem index = .ok (.error (.indexError text)) := by
  have hge : data.size ≤ (data.adjust index).toNat := Nat.le_of_not_lt (mt (adjust_lt_iff h).mp hout)
  rw [ElemArray.getItem, ElemArray.fixIntIndex_eq]
  by_cases hneg : index.toInt < 0
  · rw [if_pos ⟨hneg, hge⟩]
    exact ⟨_, rfl⟩
  · rw [if_neg fun hc => hneg hc.1]
    simp only [if_pos hge]
    exact ⟨_, rfl⟩

/-- The slot is read where the element is. -/
theorem getItem_inside (hinside : Inside P.length index.toInt) :
    data.getItem index = (do return .ok (← slot data.rep (index.toInt % P.length).toNat)) := by
  have hlt := (adjust_lt_iff h).mpr hinside
  rw [ElemArray.getItem, ElemArray.fixIntIndex_eq, if_neg fun hc => Nat.not_le_of_lt hlt hc.2]
  rw [adjust_inside h hinside] at hlt ⊢
  simp only [ge_iff_le, if_neg (Nat.not_le_of_lt hlt)]

theorem getItem_ok (hsmall : P.length < 2 ^ 31) (hinside : Inside P.length index.toInt) :
    ∃ x, P[(index.toInt % P.length).toNat]? = some x ∧ data.getItem index = .ok (.ok x) := by
  have hlt := (adjust_lt_iff h).mpr hinside
  rw [adjust_inside h hinside, h.size] at hlt
  obtain ⟨C, hC⟩ := h.elems
  refine ⟨_, List.getElem?_eq_getElem hlt, ?_⟩
  rw [getItem_inside h hinside, slot_ok (Nat.lt_trans hlt hsmall)
    (by rw [hC, List.getElem?_append_left hlt, List.getElem?_eq_getElem hlt])]
  rfl

/-- What is read is there. -/
theorem inside_of_getItem {x : α} (hget : data.getItem index = .ok (.ok x)) :
    Inside P.length index.toInt ∧ P[(index.toInt % P.length).toNat]? = some x := by
  by_cases hinside : Inside P.length index.toInt
  · have hlt := (adjust_lt_iff h).mpr hinside
    rw [adjust_inside h hinside, h.size] at hlt
    obtain ⟨C, hC⟩ := h.elems
    refine ⟨hinside, ?_⟩
    rw [getItem_inside h hinside, slot, hC, List.getElem?_append_left hlt, List.getElem?_eq_getElem hlt] at hget
    rw [List.getElem?_eq_getElem hlt]
    simp only at hget
    split at hget
    · cases hget
      rfl
    · cases hget
  · obtain ⟨text, he⟩ := getItem_outside h hinside
    rw [he] at hget
    cases hget

end

/-- The data are in order, and two indexes lead to a place unless they are refused. -/
theorem get_eq (data : ElemArray α) (s₀ s₁ i j : UInt32) (stride₀ stride₁ offset₀ : UInt64) (ts os : List UInt64) :
    get ⟨data, [s₀, s₁], stride₀ :: stride₁ :: ts, offset₀ :: os⟩ i j =
      if data.size ≤ (i * j).toNat ∨ i > s₀ ∨ j > s₁ then
        .ok (.error (.indexError (rangeText ⟨data, [s₀, s₁], stride₀ :: stride₁ :: ts, offset₀ :: os⟩ i j)))
      else data.getItem (place stride₀ stride₁ offset₀ i j) := by
  have hdims : ¬dims ⟨data, [s₀, s₁], stride₀ :: stride₁ :: ts, offset₀ :: os⟩ ≠ 2 := by simp [dims]
  rw [get, if_neg hdims, locate]
  by_cases htest : data.size ≤ (i * j).toNat ∨ i > s₀ ∨ j > s₁
  · simp only [entry, List.getElem?_cons_zero, List.getElem?_cons_succ, bind, Except.bind, if_pos htest]
    rfl
  · simp only [entry, List.getElem?_cons_zero, List.getElem?_cons_succ, bind, Except.bind, if_neg htest]
    rfl

/-- The transpose is built from the lists as they are. -/
theorem createTranspose_eq (data : ElemArray α) (s₀ s₁ : UInt32) (stride₀ stride₁ offset₀ offset₁ : UInt64)
    (ts os : List UInt64) :
    createTranspose ⟨data, [s₀, s₁], stride₀ :: stride₁ :: ts, offset₀ :: offset₁ :: os⟩ =
      .ok (some ⟨data, [s₁, s₀], [stride₁, stride₀], [offset₁, offset₁]⟩) := rfl

/-- There is a transpose only where both lists have two entries. -/
theorem entries_of_createTranspose {T : Matrix α}
    (h : createTranspose ⟨data, [s₀, s₁], strides, offsets⟩ = .ok (some T)) :
    ∃ stride₀ stride₁ ts offset₀ offset₁ os,
      strides = stride₀ :: stride₁ :: ts ∧ offsets = offset₀ :: offset₁ :: os := by
  rcases strides with _ | ⟨stride₀, _ | ⟨stride₁, ts⟩⟩
  · cases h
  · cases h
  · rcases offsets with _ | ⟨offset₀, _ | ⟨offset₁, os⟩⟩
    · cases h
    · cases h
    · exact ⟨_, _, _, _, _, _, rfl, rfl⟩

theorem outside_of_getItem (h : Holds data P) {e : Exc} (hget : data.getItem index = .ok (.error e)) :
    ¬Inside P.length index.toInt := by
  intro hinside
  rw [getItem_inside h hinside] at hget
  cases hslot : slot data.rep (index.toInt % P.length).toNat with
  | error f =>
    rw [hslot] at hget
    cases hget
  | ok x =>
    rw [hslot] at hget
    cases hget

end

theorem exists_uint32 {n : Nat} {s : UInt32} (h : n ≤ s.toNat) : ∃ u : UInt32, u.toNat = n :=
  ⟨UInt32.ofNat n, UInt32.toNat_ofNat_of_lt' (Nat.lt_of_le_of_lt h s.toNat_lt)⟩

/-- The place in the transpose is the same one exactly if it has not moved or moved by a round. -/
theorem turned_iff {count : Nat} {x y d k : Int} (hsmall : count < 2 ^ 31) (hx : Inside count x)
    (h : y = x + d + 2 ^ 32 * k) (hy : -2 ^ 31 ≤ y ∧ y < 2 ^ 31) (hd : -2 ^ 31 ≤ d ∧ d < 2 ^ 31) :
    Inside count y ∧ y % count = x % count ↔ d = 0 ∨ d = count ∧ x < 0 ∨ d = -count ∧ 0 ≤ x := by
  rw [emod_inside hx]
  constructor
  · rintro ⟨hinside, hmod⟩
    rw [emod_inside hinside] at hmod
    simp only [Inside] at hx hinside
    split at hmod <;> split at hmod <;> omega
  · intro hcases
    have heq : y = x + d := eq_of_congr h hy (by simp only [Inside] at hx; omega)
    have hinside : Inside count y := by
      simp only [Inside] at hx ⊢
      omega
    refine ⟨hinside, ?_⟩
    rw [emod_inside hinside]
    simp only [Inside] at hx
    split <;> split <;> omega

theorem neg_of_round {count : Nat} {x d : Int} (hpos : 0 < count) (hround : d = count)
    (h : d = 0 ∨ d = count ∧ x < 0 ∨ d = -count ∧ 0 ≤ x) : x < 0 := by omega

theorem nonneg_of_round {count : Nat} {x d : Int} (hpos : 0 < count) (hround : d = -count)
    (h : d = 0 ∨ d = count ∧ x < 0 ∨ d = -count ∧ 0 ≤ x) : 0 ≤ x := by omega

section

variable {s₀ s₁ count : UInt32} {stride₀ stride₁ offset₀ offset₁ : UInt64} {ts os : List UInt64}

/-- An array that holds its own indexes. -/
theorem range_holds (count : UInt32) :
    Holds (⟨List.range count.toNat, count.toNat, count.toNat⟩ : ElemArray Nat) (List.range count.toNat) :=
  ⟨⟨[], (List.append_nil _).symm⟩, List.length_range.symm, List.length_range.symm, count.toNat_lt⟩

theorem spot_of_get {i j : UInt32} {slot : Nat}
    (hslot : ∃ x, (List.range count.toNat)[slot]? = some x ∧
      get ⟨⟨List.range count.toNat, count.toNat, count.toNat⟩, [s₀, s₁], stride₀ :: stride₁ :: ts, offset₀ :: os⟩ i j =
        .ok (.ok x)) :
    Inside count.toNat (spot stride₀.toNat stride₁.toNat offset₀.toNat i.toNat j.toNat) ∧
      (spot stride₀.toNat stride₁.toNat offset₀.toNat i.toNat j.toNat % count.toNat).toNat = slot := by
  obtain ⟨x, hx, hget⟩ := hslot
  rw [get_eq] at hget
  split at hget
  · cases hget
  · obtain ⟨hinside, hspot⟩ := inside_of_getItem (range_holds count) hget
    rw [place_toInt, List.length_range] at hinside hspot
    obtain ⟨hlt, rfl⟩ := List.getElem?_eq_some_iff.mp hspot
    obtain ⟨hlt', heq⟩ := List.getElem?_eq_some_iff.mp hx
    rw [List.getElem_range, List.getElem_range] at heq
    exact ⟨hinside, heq.symm⟩

theorem outside_of_get {data : ElemArray α} {P : List α} {i j : UInt32} {e : Exc} (h : Holds data P)
    (hcount : P.length = count.toNat) (hi : i ≤ s₀) (hj : j ≤ s₁) (hlt : i.toNat * j.toNat < count.toNat)
    (hget : get ⟨data, [s₀, s₁], stride₀ :: stride₁ :: ts, offset₀ :: os⟩ i j = .ok (.error e)) :
    ¬Inside count.toNat (spot stride₀.toNat stride₁.toNat offset₀.toNat i.toNat j.toNat) := by
  have htest : ¬(data.size ≤ (i * j).toNat ∨ i > s₀ ∨ j > s₁) := by
    rw [h.size, hcount, UInt32.toNat_mul, Nat.mod_eq_of_lt (Nat.lt_trans hlt count.toNat_lt)]
    simp only [not_or, Nat.not_le, gt_iff_lt, UInt32.not_lt]
    exact ⟨hlt, hi, hj⟩
  rw [get_eq, if_neg htest] at hget
  have hplace := outside_of_getItem h hget
  rwa [place_toInt, hcount] at hplace

theorem meets_of_works (h : Works s₀ s₁ (stride₀ :: stride₁ :: ts) (offset₀ :: offset₁ :: os) count) :
    Meets s₀.toNat s₁.toNat stride₀.toNat stride₁.toNat offset₀.toNat offset₁.toNat count.toNat := by
  obtain ⟨slot, hslot, h⟩ := h
  obtain ⟨hread, hrefuse, T, hT, -, hturn⟩ := h Nat _ _ (range_holds count) List.length_range
  rw [createTranspose_eq] at hT
  cases hT
  have hread' {i j : UInt32} (hij : InRange s₀ s₁ i j) := spot_of_get (hread i j hij)
  have hturn' {i j : UInt32} (hij : InRange s₀ s₁ i j) := spot_of_get (hturn i j hij ▸ hread i j hij)
  have hinside : ∀ i j, i < s₀.toNat → j < s₁.toNat →
      Inside count.toNat (spot stride₀.toNat stride₁.toNat offset₀.toNat i j) := by
    intro i j hi hj
    obtain ⟨i, rfl⟩ := exists_uint32 (Nat.le_of_lt hi)
    obtain ⟨j, rfl⟩ := exists_uint32 (Nat.le_of_lt hj)
    exact (hread' ⟨hi, hj⟩).1
  have hapart : ∀ i j i' j', i < s₀.toNat → j < s₁.toNat → i' < s₀.toNat → j' < s₁.toNat →
      spot stride₀.toNat stride₁.toNat offset₀.toNat i j % count.toNat =
        spot stride₀.toNat stride₁.toNat offset₀.toNat i' j' % count.toNat → i = i' ∧ j = j' := by
    intro i j i' j' hi hj hi' hj' heq
    obtain ⟨i, rfl⟩ := exists_uint32 (Nat.le_of_lt hi)
    obtain ⟨j, rfl⟩ := exists_uint32 (Nat.le_of_lt hj)
    obtain ⟨i', rfl⟩ := exists_uint32 (Nat.le_of_lt hi')
    obtain ⟨j', rfl⟩ := exists_uint32 (Nat.le_of_lt hj')
    obtain ⟨rfl, rfl⟩ := hslot i j i' j' ⟨hi, hj⟩ ⟨hi', hj'⟩
      (by rw [← (hread' ⟨hi, hj⟩).2, ← (hread' ⟨hi', hj'⟩).2, heq])
    exact ⟨rfl, rfl⟩
  have houtside : ∀ i j, i ≤ s₀.toNat → j ≤ s₁.toNat → i = s₀.toNat ∨ j = s₁.toNat → i * j < count.toNat →
      ¬Inside count.toNat (spot stride₀.toNat stride₁.toNat offset₀.toNat i j) := by
    intro i j hi hj hedge hlt
    obtain ⟨i, rfl⟩ := exists_uint32 hi
    obtain ⟨j, rfl⟩ := exists_uint32 hj
    have hout : ¬InRange s₀ s₁ i j := by
      rintro ⟨hi, hj⟩
      rw [UInt32.lt_iff_toNat_lt] at hi hj
      omega
    obtain ⟨text, he⟩ := hrefuse i j hout
    exact outside_of_get (range_holds count) List.length_range hi hj hlt he
  refine ⟨line_of_outside hinside houtside (product_le hinside hapart), hinside, hapart, houtside, ?_⟩
  by_cases h₀ : s₀.toNat = 0
  · exact Or.inl h₀
  by_cases h₁ : s₁.toNat = 0
  · exact Or.inr (Or.inl h₁)
  right
  right
  have hpos : 0 < count.toNat := by
    obtain ⟨hlow, hhigh⟩ := hinside 0 0 (Nat.pos_of_ne_zero h₀) (Nat.pos_of_ne_zero h₁)
    omega
  have hsmall := small_of_outside hpos houtside
  have hshift : ∀ i j, i < s₀.toNat → j < s₁.toNat →
      shift stride₀.toNat stride₁.toNat offset₀.toNat offset₁.toNat = 0 ∨
        shift stride₀.toNat stride₁.toNat offset₀.toNat offset₁.toNat = count.toNat ∧
          spot stride₀.toNat stride₁.toNat offset₀.toNat i j < 0 ∨
        shift stride₀.toNat stride₁.toNat offset₀.toNat offset₁.toNat = -count.toNat ∧
          0 ≤ spot stride₀.toNat stride₁.toNat offset₀.toNat i j := by
    intro i j hi hj
    obtain ⟨k, hk⟩ := spot_turned stride₀.toNat stride₁.toNat offset₀.toNat offset₁.toNat i j
    apply (turned_iff hsmall (hinside i j hi hj) hk (spot_bounds ..) (shift_bounds ..)).mp
    obtain ⟨i, rfl⟩ := exists_uint32 (Nat.le_of_lt hi)
    obtain ⟨j, rfl⟩ := exists_uint32 (Nat.le_of_lt hj)
    obtain ⟨hin, hspot⟩ := hread' ⟨hi, hj⟩
    obtain ⟨hin', hspot'⟩ := hturn' ⟨hi, hj⟩
    refine ⟨hin', ?_⟩
    have hpos' : (count.toNat : Int) ≠ 0 := by omega
    have hnonneg := Int.emod_nonneg (spot stride₀.toNat stride₁.toNat offset₀.toNat i.toNat j.toNat) hpos'
    have hnonneg' := Int.emod_nonneg (spot stride₁.toNat stride₀.toNat offset₁.toNat j.toNat i.toNat) hpos'
    rw [← Int.toNat_of_nonneg hnonneg', ← Int.toNat_of_nonneg hnonneg, hspot', hspot]
  rcases hshift 0 0 (Nat.pos_of_ne_zero h₀) (Nat.pos_of_ne_zero h₁) with hzero | ⟨hround, -⟩ | ⟨hround, -⟩
  · exact Or.inl hzero
  · exact Or.inr (Or.inl ⟨hround, fun i j hi hj => neg_of_round hpos hround (hshift i j hi hj)⟩)
  · exact Or.inr (Or.inr ⟨hround, fun i j hi hj => nonneg_of_round hpos hround (hshift i j hi hj)⟩)

theorem works_of_meets
    (h : Meets s₀.toNat s₁.toNat stride₀.toNat stride₁.toNat offset₀.toNat offset₁.toNat count.toNat) :
    Works s₀ s₁ (stride₀ :: stride₁ :: ts) (offset₀ :: offset₁ :: os) count := by
  have hpos : ∀ {i j : UInt32}, InRange s₀ s₁ i j → 0 < count.toNat := by
    intro i j hij
    obtain ⟨hlow, hhigh⟩ := h.inside i.toNat j.toNat hij.1 hij.2
    omega
  have hproduct : ∀ {i j : UInt32}, i ≤ s₀ → j ≤ s₁ → (i * j).toNat = i.toNat * j.toNat := by
    intro i j hi hj
    rw [UInt32.le_iff_toNat_le] at hi hj
    have hi32 := i.toNat_lt
    have hj32 := j.toNat_lt
    rw [UInt32.toNat_mul]
    apply Nat.mod_eq_of_lt
    rcases h.line with hline | hline
    · have := Nat.mul_le_mul_right j.toNat (Nat.le_trans hi hline)
      omega
    · have := Nat.mul_le_mul_left i.toNat (Nat.le_trans hj hline)
      omega
  have htest : ∀ {i j : UInt32}, InRange s₀ s₁ i j →
      ¬(count.toNat ≤ (i * j).toNat ∨ i > s₀ ∨ j > s₁) ∧ ¬(count.toNat ≤ (j * i).toNat ∨ j > s₁ ∨ i > s₀) := by
    intro i j hij
    have hcount := hpos hij
    obtain ⟨hi, hj⟩ := hij
    have hzero : i.toNat * j.toNat = 0 := by
      rw [UInt32.lt_iff_toNat_lt] at hi hj
      rcases h.line with hline | hline
      · rw [Nat.lt_one_iff.mp (Nat.lt_of_lt_of_le hi hline), Nat.zero_mul]
      · rw [Nat.lt_one_iff.mp (Nat.lt_of_lt_of_le hj hline), Nat.mul_zero]
    have hmul : (i * j).toNat = 0 := (hproduct (UInt32.le_of_lt hi) (UInt32.le_of_lt hj)).trans hzero
    rw [UInt32.lt_iff_toNat_lt] at hi hj
    simp only [UInt32.mul_comm j i, hmul, gt_iff_lt, UInt32.lt_iff_toNat_lt]
    omega
  refine ⟨fun i j => (spot stride₀.toNat stride₁.toNat offset₀.toNat i.toNat j.toNat % count.toNat).toNat, ?_, ?_⟩
  · intro i j i' j' hij hij' heq
    have hpos' : (count.toNat : Int) ≠ 0 := by
      have := hpos hij
      omega
    have hnonneg := Int.emod_nonneg (spot stride₀.toNat stride₁.toNat offset₀.toNat i.toNat j.toNat) hpos'
    have hnonneg' := Int.emod_nonneg (spot stride₀.toNat stride₁.toNat offset₀.toNat i'.toNat j'.toNat) hpos'
    dsimp only at heq
    obtain ⟨hi, hj⟩ := h.apart i.toNat j.toNat i'.toNat j'.toNat hij.1 hij.2 hij'.1 hij'.2 (by omega)
    exact ⟨UInt32.toNat_inj.mp hi, UInt32.toNat_inj.mp hj⟩
  · intro α data P hholds hcount
    have hread : ∀ i j, InRange s₀ s₁ i j → ∃ x,
        P[(spot stride₀.toNat stride₁.toNat offset₀.toNat i.toNat j.toNat % count.toNat).toNat]? = some x ∧
          data.getItem (place stride₀ stride₁ offset₀ i j) = .ok (.ok x) ∧
          data.getItem (place stride₁ stride₀ offset₁ j i) = .ok (.ok x) := by
      intro i j hij
      have hsmall := small_of_outside (hpos hij) h.outside
      have hinside := h.inside i.toNat j.toNat hij.1 hij.2
      obtain ⟨k, hk⟩ := spot_turned stride₀.toNat stride₁.toNat offset₀.toNat offset₁.toNat i.toNat j.toNat
      obtain ⟨hinside', hmod⟩ := (turned_iff hsmall hinside hk (spot_bounds ..) (shift_bounds ..)).mpr (by
        rcases h.turned with hnone | hnone | hzero | ⟨hround, hneg⟩ | ⟨hround, hnonneg⟩
        · exact absurd hij.1 (by rw [UInt32.lt_iff_toNat_lt, hnone]; exact Nat.not_lt_zero _)
        · exact absurd hij.2 (by rw [UInt32.lt_iff_toNat_lt, hnone]; exact Nat.not_lt_zero _)
        · exact Or.inl hzero
        · exact Or.inr (Or.inl ⟨hround, hneg _ _ hij.1 hij.2⟩)
        · exact Or.inr (Or.inr ⟨hround, hnonneg _ _ hij.1 hij.2⟩))
      rw [← place_toInt, ← hcount] at hinside hinside'
      rw [← hcount] at hsmall hmod ⊢
      obtain ⟨x, hx, hget⟩ := getItem_ok hholds hsmall hinside
      obtain ⟨x', hx', hget'⟩ := getItem_ok hholds hsmall hinside'
      rw [place_toInt] at hx hx'
      rw [hmod, hx] at hx'
      cases hx'
      exact ⟨x, hx, hget, hget'⟩
    have hsize : data.size = count.toNat := hholds.size.trans hcount
    refine ⟨?_, ?_, _, createTranspose_eq .., rfl, ?_⟩
    · intro i j hij
      obtain ⟨x, hx, hget, -⟩ := hread i j hij
      refine ⟨x, hx, ?_⟩
      rw [get_eq, hsize, if_neg (htest hij).1, hget]
    · intro i j hij
      rw [get_eq, hsize]
      by_cases hrefused : count.toNat ≤ (i * j).toNat ∨ i > s₀ ∨ j > s₁
      · rw [if_pos hrefused]
        exact ⟨_, rfl⟩
      · rw [if_neg hrefused]
        simp only [not_or, gt_iff_lt, UInt32.not_lt, Nat.not_le] at hrefused
        obtain ⟨hlt, hi, hj⟩ := hrefused
        rw [hproduct hi hj] at hlt
        have hedge : i.toNat = s₀.toNat ∨ j.toNat = s₁.toNat := by
          rw [InRange, UInt32.lt_iff_toNat_lt, UInt32.lt_iff_toNat_lt] at hij
          rw [UInt32.le_iff_toNat_le] at hi hj
          omega
        have hout := h.outside i.toNat j.toNat hi hj hedge hlt
        rw [← place_toInt, ← hcount] at hout
        exact getItem_outside hholds hout
    · intro i j hij
      obtain ⟨x, -, hget, hget'⟩ := hread i j hij
      rw [get_eq, get_eq, hsize, if_neg (htest hij).1, if_neg (htest hij).2, hget, hget']

end

/-- A matrix works exactly if its lists have two entries for the two dimensions and the conditions for them are met. -/
theorem works_iff (s₀ s₁ : UInt32) (strides offsets : List UInt64) (count : UInt32) :
    Works s₀ s₁ strides offsets count ↔
      ∃ stride₀ stride₁ ts offset₀ offset₁ os,
        strides = stride₀ :: stride₁ :: ts ∧ offsets = offset₀ :: offset₁ :: os ∧
          Meets s₀.toNat s₁.toNat stride₀.toNat stride₁.toNat offset₀.toNat offset₁.toNat count.toNat := by
  constructor
  · intro h
    obtain ⟨slot, -, hall⟩ := id h
    obtain ⟨-, -, T, hT, -⟩ := hall Nat _ _ (range_holds count) List.length_range
    obtain ⟨stride₀, stride₁, ts, offset₀, offset₁, os, rfl, rfl⟩ := entries_of_createTranspose hT
    exact ⟨stride₀, stride₁, ts, offset₀, offset₁, os, rfl, rfl, meets_of_works h⟩
  · rintro ⟨stride₀, stride₁, ts, offset₀, offset₁, os, rfl, rfl, h⟩
    exact works_of_meets h

/-- Behind the first row of a square its second one is read. -/
theorem square_not_works : ¬Works 2 2 [1, 2] [0, 0] 4 := by
  rintro ⟨slot, -, h⟩
  have hholds : Holds (⟨[10, 11, 12, 13], 4, 4⟩ : ElemArray Nat) [10, 11, 12, 13] := ⟨⟨[], rfl⟩, rfl, rfl, by decide⟩
  obtain ⟨-, hrefuse, -⟩ := h Nat _ _ hholds rfl
  obtain ⟨text, he⟩ := hrefuse 2 0 (by simp [InRange])
  have hread : get ⟨(⟨[10, 11, 12, 13], 4, 4⟩ : ElemArray Nat), [2, 2], [1, 2], [0, 0]⟩ 2 0 = .ok (.ok 12) := by rfl
  rw [hread] at he
  cases he

end Matrix

end Crack
