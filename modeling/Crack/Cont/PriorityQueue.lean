import Crack.Algorithm.HeapRuns
import Crack.Cont.ElemArrayExtend
import Crack.Cont.ElemArraySlices
import Mathlib.Data.Nat.Prime.Basic

/-!
# PriorityQueue

The elements are in an Array that is kept as a heap. `push` goes by the operator `<` of
the elements, and `pop` by the function `cmp`.
-/
namespace Crack

open Fuel (Returns)
open Heaps (HeapFrom BrokenBelow BrokenAbove swapped)
open HeapBase (Entries State Follows MaxHeap maxHeapify)

namespace ElemArray

open Loops (bind_ok)

variable {α : Type} {null : α} {m m' : ElemArray α} {P : List α} {x : α} {i j : Nat}

theorem ofNat_toNat (hi : i < 2 ^ 31) : (BitVec.ofNat 32 i).toNat = i :=
  (BitVec.toNat_ofNat _ _).trans (Nat.mod_eq_of_lt (by omega))

theorem ofNat_toInt (hi : i < 2 ^ 31) : ¬(BitVec.ofNat 32 i).toInt < 0 := by
  rw [BitVec.toInt_eq_toNat_cond, ofNat_toNat hi, if_pos (by omega)]
  omega

theorem adjust_ofNat (hi : i < 2 ^ 31) : (m.adjust (BitVec.ofNat 32 i)).toNat = i := by
  rw [adjust, if_neg (ofNat_toInt hi), ofNat_toNat hi]

theorem fixIntIndex_ofNat (hi : i < 2 ^ 31) : m.fixIntIndex (BitVec.ofNat 32 i) = .ok i := by
  rw [fixIntIndex, if_neg (ofNat_toInt hi), ofNat_toNat hi]

theorem Holds.slot (h : Holds m P) (hi : i < P.length) (hi31 : i < 2 ^ 31) : slot m.rep i = .ok P[i] := by
  obtain ⟨C, hC⟩ := h.elems
  apply slot_ok hi31
  rw [hC, List.getElem?_append_left hi, List.getElem?_eq_getElem hi]

theorem Holds.getItem (h : Holds m P) (hi : i < P.length) (hi31 : i < 2 ^ 31) :
    m.getItem (BitVec.ofNat 32 i) = .ok (.ok P[i]) := by
  have hin : ¬ i ≥ m.size := by
    rw [h.size]
    omega
  rw [ElemArray.getItem, fixIntIndex_ofNat hi31]
  simp only [if_neg hin, h.slot hi hi31, bind, Except.bind, pure, Except.pure]

theorem Holds.setItem (h : Holds m P) (hi : i < P.length) (hi31 : i < 2 ^ 31) (x : α) :
    ∃ m', m.setItem (BitVec.ofNat 32 i) x = .ok (m', .ok x) ∧ Holds m' (P.set i x) ∧ m'.cap = m.cap := by
  obtain ⟨C, hC⟩ := h.elems
  have hin : ¬ i ≥ m.size := by
    rw [h.size]
    omega
  have hset : setSlot m.rep i x = .ok (P.set i x ++ C) := by
    rw [hC, setSlot_ok hi31 (by rw [List.length_append]; omega), List.set_append_left _ _ hi]
  refine ⟨{ m with rep := P.set i x ++ C }, ?_, ⟨⟨C, rfl⟩, ?_, ?_, h.small⟩, rfl⟩
  · rw [ElemArray.setItem, fixIntIndex_ofNat hi31]
    simp only [if_neg hin, h.slot hi hi31, hset, bind, Except.bind, pure, Except.pure]
  · rw [List.length_set]
    exact h.size
  · simpa [hC] using h.cap

/-- Two elements are exchanged, or one with itself. -/
theorem Holds.exchange (h : Holds m P) (hi : i < P.length) (hj : j < P.length) (hi31 : i < 2 ^ 31) (hj31 : j < 2 ^ 31) :
    ∃ m' touched, m.swap (BitVec.ofNat 32 i) (BitVec.ofNat 32 j) = .ok (m', .ok (), touched) ∧
      Holds m' ((P.set i P[j]).set j P[i]) ∧ m'.cap = m.cap := by
  by_cases hsame : i = j
  · subst hsame
    have hout : ¬(i > m.size ∨ i > m.size) := by
      rw [h.size]
      omega
    refine ⟨m, [], ?_, by simpa using h, rfl⟩
    simp only [swap, adjust_ofNat hi31, if_neg hout, if_true, pure, Except.pure]
  · obtain ⟨m', he, h', hcap⟩ := h.swap_ok (adjust_ofNat hi31) (adjust_ofNat hj31) hsame hi hj hi31 hj31
    exact ⟨m', _, he, h', hcap⟩

/-- The array is the sequence, and its capacity doubles up to `2 ^ 31`. -/
structure Fits (m : ElemArray α) (P : List α) : Prop where
  holds : Holds m P
  cap : m.cap ∣ 2 ^ 31

theorem Fits.length_le (h : Fits m P) : P.length ≤ m.cap := h.holds.size ▸ h.holds.size_le_cap

theorem Fits.cap_le (h : Fits m P) : m.cap ≤ 2 ^ 31 := Nat.le_of_dvd (by decide) h.cap

/-- An Array for the functions on heaps. -/
def seqT : SeqT (ElemArray α) α where
  get m i := match m.getItem (BitVec.ofNat 32 i) with
    | .ok (.ok x) => .ok x
    | .ok (.error e) => .error (.raised e)
    | .error fault => .error (.fault fault)
  set m i x := match m.setItem (BitVec.ofNat 32 i) x with
    | .ok (m, .ok _) => .ok m
    | .ok (_, .error e) => .error (.raised e)
    | .error fault => .error (.fault fault)
  Holds := Fits
  get_ok h hi := by
    have hle := h.length_le
    have hcap := h.cap_le
    rw [h.holds.getItem hi (by omega)]
  set_ok x h hi := by
    have hle := h.length_le
    have hcap := h.cap_le
    obtain ⟨m', he, h', hcap'⟩ := h.holds.setItem hi (by omega) x
    exact ⟨m', by rw [he], h', hcap' ▸ h.cap⟩

theorem double_dvd {c : Nat} (h : c ∣ 2 ^ 31) (hlt : c < 2 ^ 31) : c * 2 ∣ 2 ^ 31 := by
  obtain ⟨k, hk, rfl⟩ := (Nat.dvd_prime_pow Nat.prime_two).mp h
  have hne : k ≠ 31 := by
    rintro rfl
    exact Nat.lt_irrefl _ hlt
  rw [← Nat.pow_succ]
  exact Nat.pow_dvd_pow 2 (by omega)

theorem append_cap (h : Fits m P) (hsmall : P.length < 2 ^ 31) (hm : m.append null x = .ok (m', .ok ())) :
    m'.cap ∣ 2 ^ 31 := by
  obtain ⟨⟨m₁, r⟩, hroom, hrest⟩ := bind_ok hm
  cases r with
  | error e => cases hrest
  | ok u =>
    obtain ⟨rep, -, hend⟩ := bind_ok hrest
    cases hend
    change m₁.cap ∣ 2 ^ 31
    rw [ensureRoom] at hroom
    split at hroom
    · next hfull =>
      have hcap : m.cap < 2 ^ 31 := by rwa [← hfull, h.holds.size]
      have hpos : m.cap ≠ 0 := fun h0 => absurd (h0 ▸ h.cap) (by decide)
      rw [uint_of_lt (by omega), ElemArray.grow, if_neg (by omega)] at hroom
      obtain ⟨rep, -, hgrown⟩ := bind_ok hroom
      cases hgrown
      change (if m.cap * 2 = 0 then 16 else m.cap * 2) ∣ 2 ^ 31
      rw [if_neg (by omega)]
      exact double_dvd h.cap hcap
    · cases hroom
      exact h.cap

variable (null) in
theorem Fits.append (h : Fits m P) (hsmall : P.length < 2 ^ 31) (x : α) :
    ∃ m', m.append null x = .ok (m', .ok ()) ∧ Fits m' (P ++ [x]) := by
  obtain ⟨m', he, h'⟩ := h.holds.append null hsmall x
  exact ⟨m', he, h', append_cap h hsmall he⟩

variable (null) in
/-- There is no capacity behind `2 ^ 31`. -/
theorem Fits.append_full (h : Fits m P) (hfull : ¬ P.length < 2 ^ 31) (x : α) :
    m.append null x = .ok (m, .error (.invalidArgumentError "Array.grow() - decreasing capacity")) := by
  have hsize := h.holds.size
  have hle := h.length_le
  have hcap := h.cap_le
  have heq : m.size = m.cap := by omega
  have hwrap : uint (m.cap * 2) = 0 := by
    rw [uint]
    omega
  rw [ElemArray.append, ensureRoom, if_pos heq, hwrap, grow, if_pos (by omega)]
  rfl

variable (null) in
theorem Fits.pop (h : Fits m P) (hP : P ≠ []) :
    ∃ m', m.pop null = .ok (m', P.getLast hP) ∧ Fits m' P.dropLast := by
  have hpos := List.length_pos_iff.mpr hP
  have hsize := h.holds.size
  have hle := h.length_le
  have hcap := h.cap_le
  have hlast : slot m.rep (m.size - 1) = .ok (P.getLast hP) := by
    rw [hsize, h.holds.slot (by omega) (by omega), List.getLast_eq_getElem]
  obtain ⟨C, hC⟩ := h.holds.elems
  refine ⟨{ m with size := m.size - 1 }, ?_, ⟨⟨P.getLast hP :: C, ?_⟩, ?_, h.holds.cap, h.holds.small⟩, h.cap⟩
  · rw [ElemArray.pop, if_pos (by omega)]
    simp only [bind, Except.bind, hlast, pure, Except.pure]
  · change m.rep = _
    rw [← List.singleton_append, ← List.append_assoc, List.dropLast_append_getLast, hC]
  · rw [List.length_dropLast, hsize]

variable (null) in
theorem Fits.clear (h : Fits m P) : ∃ m', m.clear null = .ok m' ∧ Fits m' [] := by
  obtain ⟨m', he, h'⟩ := h.holds.clear null (Nat.le_trans h.length_le h.cap_le)
  refine ⟨m', he, h', ?_⟩
  rw [ElemArray.clear] at he
  split at he
  · cases he
    exact h.cap
  · obtain ⟨rep, -, hend⟩ := bind_ok he
    cases hend
    exact h.cap

end ElemArray

namespace PriorityQueue

open ElemArray (Fits seqT)

section

variable {α : Type} (lt : α → α → Bool) (cmp : α → α → Int) (null : α)

/-- `swap` of the array, with positions that are a `uint`. -/
def swap (data : ElemArray α) (i j : Nat) : Except Abort (ElemArray α) :=
  match data.swap (BitVec.ofNat 32 i) (BitVec.ofNat 32 j) with
  | .ok (data, .ok (), _) => .ok data
  | .ok (_, .error e, _) => .error (.raised e)
  | .error fault => .error (.fault fault)

/-- The loop of `push`. -/
def siftUp : Nat → Nat → ElemArray α → Except Abort (ElemArray α)
  | 0, _, _ => .error (.fault .forever)
  | fuel + 1, i, data => do
    if i > 1 then
      if lt (← seqT.get data (i / 2 - 1)) (← seqT.get data (i - 1)) then
        siftUp fuel (i / 2) (← swap data (i - 1) (i / 2 - 1))
      else return data
    else return data

def push (fuel : Nat) (data : ElemArray α) (e : α) : Except Abort (ElemArray α × Except Exc Unit) := do
  match data.append null e with
  | .error fault => .error (.fault fault)
  | .ok (data, .error exc) => return (data, .error exc)
  | .ok (data, .ok ()) => return (← siftUp lt fuel data.size data, .ok ())

def pop (fuel : Nat) (data : ElemArray α) : Except Abort (ElemArray α × α) := do
  if data.size = 0 then return (data, null)
  else
    let data ← swap data 0 (data.size - 1)
    match data.pop null with
    | .error fault => .error (.fault fault)
    | .ok (data, e) =>
      if data.size > 1 then return (← maxHeapify seqT cmp data.size fuel data 1, e) else return (data, e)

def clear (data : ElemArray α) : Except Abort (ElemArray α) :=
  match data.clear null with
  | .error fault => .error (.fault fault)
  | .ok data => .ok data

inductive Op (α : Type) where
  | push (e : α)
  | pop
  | clear

/-- An operation, with the element that it returns if it returns one. -/
def step (fuel : Nat) (data : ElemArray α) : Op α → Except Abort (ElemArray α × Except Exc (Option α))
  | .push e => do
    let (data, r) ← push lt null fuel data e
    return (data, r.map fun _ => none)
  | .pop => do
    let (data, e) ← pop cmp null fuel data
    return (data, .ok (some e))
  | .clear => do
    let data ← clear null data
    return (data, .ok none)

end

section

variable {α : Type} (lt : α → α → Bool) (cmp : α → α → Int) (null : α)

/-- What an operation does to the elements of the queue. There may be up to `2 ^ 31` of them. -/
def Answers (P : List α) : Op α → List α → Except Exc (Option α) → Prop
  | .push e, P', r =>
    if P.length < 2 ^ 31 then P'.Perm (e :: P) ∧ r = .ok none
    else P' = P ∧ ∃ text, r = .error (.invalidArgumentError text)
  | .pop, P', r =>
    if P = [] then P' = [] ∧ r = .ok (some null)
    else ∃ e, r = .ok (some e) ∧ P.Perm (e :: P') ∧ ∀ x ∈ P, lt e x = false
  | .clear, P', r => P' = [] ∧ r = .ok none

/-- Each operation returns what it should, and the array is a heap in every state. -/
def Serves : ElemArray α → List α → List (Op α) → Prop
  | data, P, [] => data.Holds P ∧ MaxHeap (fun x y => lt y x = false) P
  | data, P, op :: ops =>
    data.Holds P ∧ MaxHeap (fun x y => lt y x = false) P ∧ ∃ data' P' r,
      Returns (fun fuel => step lt cmp null fuel data op) (.ok (data', r)) ∧ Answers lt null P op P' r ∧
      Serves data' P' ops

/-- The operator `<` tells the elements apart as an order does, up to equivalent ones. -/
structure ElementOrder : Prop where
  asymm : ∀ a b, lt a b = true → lt b a = false
  trans : ∀ a b c, lt b a = false → lt c b = false → lt c a = false

end

variable {α : Type} {lt : α → α → Bool} {cmp : α → α → Int} {null : α} {S : α → Prop} {data data' : ElemArray α}
  {P : List α} {v : Nat → α} {a b i : Nat} {e x y z : α}

/-- The queue is a heap of elements in question. -/
structure Queue (lt : α → α → Bool) (S : α → Prop) (data : ElemArray α) (P : List α) : Prop where
  fits : Fits data P
  heap : MaxHeap (fun x y => lt y x = false) P
  all : ∀ x ∈ P, S x

theorem swap_ok (h : State seqT S data P v) (ha : 0 < a) (haP : a ≤ P.length) (hb : 0 < b) (hbP : b ≤ P.length) :
    ∃ data' P', swap data (a - 1) (b - 1) = .ok data' ∧ State seqT S data' P' (swapped v a b) ∧ P'.Perm P := by
  have hle := h.holds.length_le
  have hcap := h.holds.cap_le
  obtain ⟨data', touched, he, h', hcap'⟩ :=
    h.holds.holds.exchange (i := a - 1) (j := b - 1) (by omega) (by omega) (by omega) (by omega)
  obtain ⟨hv', hperm⟩ := h.entries.exchange ha haP hb hbP
  have hva := h.entries.getElem (i := a - 1) (by omega)
  have hvb := h.entries.getElem (i := b - 1) (by omega)
  rw [Nat.sub_add_cancel ha] at hva
  rw [Nat.sub_add_cancel hb] at hvb
  rw [hva, hvb] at h'
  refine ⟨data', _, ?_, ⟨⟨h', hcap' ▸ h.holds.cap⟩, hv', fun j => ?_⟩, hperm⟩
  · rw [swap, he]
  · rw [swapped]
    split
    · exact h.all b
    · split
      · exact h.all a
      · exact h.all j

/-- The element at `i` goes up until the array is a heap. -/
theorem siftUp_ok (horder : ElementOrder lt) (h : State seqT S data P v)
    (hbroken : BrokenAbove (fun x y => lt y x = false) v P.length i) (h0 : 0 < i) (hi : i ≤ P.length) :
    ∃ data' P' v', (∀ fuel, i ≤ fuel → siftUp lt fuel i data = .ok data') ∧ State seqT S data' P' v' ∧ P'.Perm P ∧
      HeapFrom (fun x y => lt y x = false) v' 1 P.length := by
  induction i using Nat.strongRecOn generalizing data P v with
  | ind i ih =>
    by_cases h1 : i > 1
    · have hparent : seqT.get data (i / 2 - 1) = .ok (v (i / 2)) := h.get (by omega) (by omega)
      have hlast : seqT.get data (i - 1) = .ok (v i) := h.get h0 hi
      by_cases hless : lt (v (i / 2)) (v i) = true
      · obtain ⟨data₁, P₁, he₁, h₁, hperm₁⟩ := swap_ok h h0 hi (b := i / 2) (by omega) (by omega)
        have hup := hbroken.up horder.trans h1 hi (horder.asymm _ _ hless)
        have hlen := hperm₁.length_eq
        obtain ⟨data', P', v', he, h', hperm, hheap⟩ :=
          ih (i / 2) (by omega) h₁ (hlen ▸ hup) (by omega) (by omega)
        refine ⟨data', P', v', fun fuel hfuel => ?_, h', hperm.trans hperm₁, hlen ▸ hheap⟩
        obtain ⟨fuel, rfl⟩ := Nat.exists_eq_succ_of_ne_zero (by omega : fuel ≠ 0)
        rw [siftUp, if_pos h1]
        simp only [hparent, hlast, bind, Except.bind, if_pos hless, he₁]
        exact he fuel (by omega)
      · refine ⟨data, P, v, fun fuel hfuel => ?_, h, .refl P, hbroken.stop fun _ => Bool.not_eq_true _ ▸ hless⟩
        obtain ⟨fuel, rfl⟩ := Nat.exists_eq_succ_of_ne_zero (by omega : fuel ≠ 0)
        rw [siftUp, if_pos h1]
        simp only [hparent, hlast, bind, Except.bind, if_neg hless, pure, Except.pure]
    · refine ⟨data, P, v, fun fuel hfuel => ?_, h, .refl P, hbroken.stop fun hc => absurd hc h1⟩
      obtain ⟨fuel, rfl⟩ := Nat.exists_eq_succ_of_ne_zero (by omega : fuel ≠ 0)
      rw [siftUp, if_neg h1]
      rfl

/-- The new element is behind the heap. -/
theorem Queue.behind (h : Queue lt S data P) {data' : ElemArray α} (he : S e) (hfits : Fits data' (P ++ [e])) :
    ∃ v, State seqT S data' (P ++ [e]) v ∧
      BrokenAbove (fun x y => lt y x = false) v (P ++ [e]).length (P ++ [e]).length := by
  obtain ⟨v, hv, hmem⟩ := HeapBase.exists_entries (List.append_ne_nil_of_right_ne_nil P (List.cons_ne_nil e []))
  have hfront : Entries P v := by
    intro i x hx
    refine hv i x ?_
    rw [List.getElem?_append_left (List.getElem?_eq_some_iff.mp hx).1, hx]
  refine ⟨v, ⟨hfits, hv, fun j => ?_⟩, ?_⟩
  · rcases List.mem_append.mp (hmem j) with hP | hx
    · exact h.all _ hP
    · rw [List.mem_singleton.mp hx]
      exact he
  · rw [List.length_append, List.length_singleton]
    exact (hfront.maxHeap_iff.mp h.heap).brokenAbove

variable (null) in
theorem Queue.push_ok (horder : ElementOrder lt) (h : Queue lt S data P) (he : S e) (hsmall : P.length < 2 ^ 31) :
    ∃ data' P', Returns (fun fuel => push lt null fuel data e) (.ok (data', .ok ())) ∧ Queue lt S data' P' ∧
      P'.Perm (e :: P) := by
  obtain ⟨data₁, happend, hfits⟩ := h.fits.append null hsmall e
  obtain ⟨v, hstate, hbroken⟩ := h.behind he hfits
  have hlen : (P ++ [e]).length = P.length + 1 := List.length_append
  obtain ⟨data', P', v', hup, h', hperm, hheap⟩ := siftUp_ok horder hstate hbroken (by omega) (Nat.le_refl _)
  have hmembers : P'.Perm (e :: P) := hperm.trans (List.perm_append_singleton e P)
  refine ⟨data', P', ⟨(P ++ [e]).length, fun fuel hfuel => ?_⟩, ⟨h'.holds, ?_, ?_⟩, hmembers⟩
  · simp only [push, happend, hfits.holds.size, hup fuel hfuel, bind, Except.bind, pure, Except.pure]
  · rw [h'.entries.maxHeap_iff, hperm.length_eq]
    exact hheap
  · intro x hx
    rcases List.mem_cons.mp (hmembers.mem_iff.mp hx) with rfl | hx
    · exact he
    · exact h.all x hx

variable (null) in
theorem Queue.push_full (h : Queue lt S data P) (hfull : ¬ P.length < 2 ^ 31) (e : α) :
    ∃ text, Returns (fun fuel => push lt null fuel data e) (.ok (data, .error (.invalidArgumentError text))) := by
  refine ⟨"Array.grow() - decreasing capacity", 0, fun fuel _ => ?_⟩
  simp only [push, h.fits.append_full null hfull e, pure, Except.pure]

theorem Queue.pop_empty (h : Queue lt S data []) : Returns (fun fuel => pop cmp null fuel data) (.ok (data, null)) := by
  refine ⟨0, fun fuel _ => ?_⟩
  exact if_pos h.fits.holds.size

/-- The comparison follows the order, as far as the order tells elements apart. -/
def Agrees (lt : α → α → Bool) (S : α → Prop) (cmp : α → α → Int) : Prop :=
  ∀ a b, S a → S b → lt b a = true → 0 < cmp a b ∧ ¬ 0 < cmp b a

theorem Agrees.follows (horder : ElementOrder lt) (h : Agrees lt S cmp) :
    Follows S (fun x y => lt y x = false) cmp where
  above a b ha hb hc := by
    by_contra hlt
    exact (h b a hb ha (Bool.not_eq_false _ ▸ hlt)).2 hc
  notAbove a b ha hb hc := by
    by_contra hlt
    exact hc (h a b ha hb (Bool.not_eq_false _ ▸ hlt)).1
  trans := horder.trans

variable (null) in
/-- The top is behind what is left once it has been exchanged with the last element. -/
theorem Queue.top_removed (horder : ElementOrder lt) (h : Queue lt S data P) (hP : P ≠ []) :
    ∃ data₁ data₂ P₂ v e, swap data 0 (data.size - 1) = .ok data₁ ∧ data₁.pop null = .ok (data₂, e) ∧
      State seqT S data₂ P₂ v ∧ P.Perm (e :: P₂) ∧ BrokenBelow (fun x y => lt y x = false) v 1 P₂.length 1 ∧
      ∀ x ∈ P, lt e x = false := by
  have hpos := List.length_pos_iff.mpr hP
  obtain ⟨v, hv, hmem⟩ := HeapBase.exists_entries hP
  have hstate : State seqT S data P v := ⟨h.fits, hv, fun j => h.all _ (hmem j)⟩
  have hheap := hv.maxHeap_iff.mp h.heap
  obtain ⟨n, hn⟩ := Nat.exists_eq_succ_of_ne_zero (Nat.ne_of_gt hpos)
  obtain ⟨data₁, P₁, hswap, h₁, hperm₁⟩ := swap_ok hstate Nat.one_pos hpos hpos (Nat.le_refl _)
  have hP₁ : P₁ ≠ [] := fun hnil => hP (List.nil_perm.mp (hnil ▸ hperm₁))
  obtain ⟨data₂, hpop, hfits⟩ := h₁.holds.pop null hP₁
  have hlen₁ := hperm₁.length_eq
  have hlast : P₁.getLast hP₁ = v 1 := by
    rw [List.getLast_eq_getElem, h₁.entries.getElem, Nat.sub_add_cancel (by omega), hlen₁, Heaps.swapped_right]
  have hlen₂ : P₁.dropLast.length = n := by
    rw [List.length_dropLast]
    omega
  refine ⟨data₁, data₂, P₁.dropLast, _, _, ?_, hpop, ⟨hfits, ?_, h₁.all⟩, ?_, ?_, ?_⟩
  · rw [h.fits.holds.size]
    exact hswap
  · intro i x hx
    refine h₁.entries i x ?_
    rw [List.dropLast_eq_take, List.getElem?_take] at hx
    split at hx
    · exact hx
    · cases hx
  · refine hperm₁.symm.trans ?_
    conv_lhs => rw [← List.dropLast_append_getLast hP₁]
    exact List.perm_append_singleton _ _
  · rw [hn] at hheap
    rw [hlen₂, hn]
    exact hheap.swapTop
  · intro x hx
    obtain ⟨i, hi, rfl⟩ := List.mem_iff_getElem.mp hx
    have hrefl : ∀ x, lt x x = false := fun x => by
      by_contra hc
      exact hc (horder.asymm x x (Bool.not_eq_false _ ▸ hc))
    rw [hlast, hv.getElem hi]
    exact hheap.le_top hrefl horder.trans (Nat.succ_pos i) hi

variable (null) in
theorem Queue.pop_ok (horder : ElementOrder lt) (hcmp : Agrees lt S cmp) (h : Queue lt S data P) (hP : P ≠ []) :
    ∃ data' P' e, Returns (fun fuel => pop cmp null fuel data) (.ok (data', e)) ∧ Queue lt S data' P' ∧
      P.Perm (e :: P') ∧ ∀ x ∈ P, lt e x = false := by
  obtain ⟨data₁, data₂, P₂, v, e, hswap, hpop, h₂, hperm, hbroken, htop⟩ := h.top_removed null horder hP
  have hsize : data.size ≠ 0 := by
    rw [h.fits.holds.size]
    exact Nat.ne_of_gt (List.length_pos_iff.mpr hP)
  have hqueue : ∀ {data' P' v'}, State seqT S data' P' v' → P'.Perm P₂ →
      HeapFrom (fun x y => lt y x = false) v' 1 P₂.length → Queue lt S data' P' := by
    intro data' P' v' h' hperm' hheap
    refine ⟨h'.holds, ?_, fun x hx => h.all x ?_⟩
    · rw [h'.entries.maxHeap_iff, hperm'.length_eq]
      exact hheap
    · exact hperm.mem_iff.mpr (List.mem_cons_of_mem e (hperm'.mem_iff.mp hx))
  by_cases hfew : data₂.size > 1
  · rw [h₂.holds.holds.size] at hfew
    obtain ⟨data', P', v', hdown, h', hperm', -, hheap⟩ :=
      h₂.maxHeapify (hcmp.follows horder) (Nat.le_refl _) Nat.one_pos (by omega) hbroken
    refine ⟨data', P', e, ⟨P₂.length, fun fuel hfuel => ?_⟩, hqueue h' hperm' hheap,
      hperm.trans (hperm'.symm.cons e), htop⟩
    simp only [pop, if_neg hsize, hswap, hpop, h₂.holds.holds.size, if_pos hfew, hdown fuel (by omega), bind,
      Except.bind, pure, Except.pure]
  · refine ⟨data₂, P₂, e, ⟨0, fun fuel _ => ?_⟩, hqueue h₂ (.refl P₂) fun i h1 hi _ => ?_, hperm, htop⟩
    · simp only [pop, if_neg hsize, hswap, hpop, if_neg hfew, bind, Except.bind, pure, Except.pure]
    · rw [h₂.holds.holds.size] at hfew
      omega

theorem step_push (h : Returns (fun fuel => push lt null fuel data e) (.ok (data', .ok ()))) :
    Returns (fun fuel => step lt cmp null fuel data (.push e)) (.ok (data', .ok none)) :=
  h.imp fun fuel he => by simp only [step, he, bind, Except.bind, pure, Except.pure, Except.map]

theorem step_pop (h : Returns (fun fuel => pop cmp null fuel data) (.ok (data', e))) :
    Returns (fun fuel => step lt cmp null fuel data .pop) (.ok (data', .ok (some e))) :=
  h.imp fun fuel he => by simp only [step, he, bind, Except.bind, pure, Except.pure]

variable (null) in
theorem Queue.step_ok (horder : ElementOrder lt) (hcmp : Agrees lt S cmp) (h : Queue lt S data P) (op : Op α)
    (hop : ∀ e, op = .push e → S e) :
    ∃ data' P' r, Returns (fun fuel => step lt cmp null fuel data op) (.ok (data', r)) ∧ Answers lt null P op P' r ∧
      Queue lt S data' P' := by
  cases op with
  | push e =>
    by_cases hsmall : P.length < 2 ^ 31
    · obtain ⟨data', P', hpush, h', hperm⟩ := h.push_ok null horder (hop e rfl) hsmall
      refine ⟨data', P', .ok none, step_push hpush, ?_, h'⟩
      rw [Answers, if_pos hsmall]
      exact ⟨hperm, rfl⟩
    · obtain ⟨text, hpush⟩ := h.push_full null hsmall e
      refine ⟨data, P, .error (.invalidArgumentError text), hpush.imp fun fuel he => ?_, ?_, h⟩
      · simp only [step, he, bind, Except.bind, pure, Except.pure, Except.map]
      · rw [Answers, if_neg hsmall]
        exact ⟨rfl, text, rfl⟩
  | pop =>
    by_cases hP : P = []
    · subst hP
      refine ⟨data, [], .ok (some null), step_pop h.pop_empty, ?_, h⟩
      rw [Answers, if_pos rfl]
      exact ⟨rfl, rfl⟩
    · obtain ⟨data', P', e, hpop, h', hperm, htop⟩ := h.pop_ok null horder hcmp hP
      refine ⟨data', P', .ok (some e), step_pop hpop, ?_, h'⟩
      rw [Answers, if_neg hP]
      exact ⟨e, rfl, hperm, htop⟩
  | clear =>
    obtain ⟨data', hclear, h'⟩ := h.fits.clear null
    refine ⟨data', [], .ok none, ⟨0, fun fuel _ => ?_⟩, ⟨rfl, rfl⟩, ⟨h', .nil, fun x hx => nomatch hx⟩⟩
    simp only [step, clear, hclear, bind, Except.bind, pure, Except.pure]

theorem Queue.serves (horder : ElementOrder lt) (hcmp : Agrees lt S cmp) (ops : List (Op α)) (h : Queue lt S data P)
    (hops : ∀ e, .push e ∈ ops → S e) : Serves lt cmp null data P ops := by
  induction ops generalizing data P with
  | nil => exact ⟨h.fits.holds, h.heap⟩
  | cons op ops ih =>
    have hop : ∀ e, op = .push e → S e := fun e he => hops e (he ▸ List.mem_cons_self)
    obtain ⟨data', P', r, hreturns, hanswers, h'⟩ := h.step_ok null horder hcmp op hop
    exact ⟨h.fits.holds, h.heap, data', P', r, hreturns, hanswers,
      ih h' fun e he => hops e (List.mem_cons_of_mem op he)⟩

theorem init_fits (null : α) : Fits (ElemArray.init null 16) [] where
  holds := ElemArray.init_holds null 16
  cap := by
    have hcap : (ElemArray.init null 16).cap = 2 ^ 4 := rfl
    rw [hcap]
    exact Nat.pow_dvd_pow 2 (by decide)

variable (lt null) in
theorem push_first (h : Fits data []) (e : α) :
    ∃ data', Returns (fun fuel => push lt null fuel data e) (.ok (data', .ok ())) ∧ Fits data' [e] := by
  obtain ⟨data', happend, hfits⟩ := h.append null (by simp) e
  refine ⟨data', Returns.now fun fuel => ?_, hfits⟩
  have hsize : data'.size = 1 := hfits.holds.size
  simp only [push, happend, hsize, siftUp, gt_iff_lt, Nat.lt_irrefl, if_false, bind, Except.bind, pure, Except.pure]

variable (null) in
/-- The new element is a child of the top, which is not below it. -/
theorem push_child (h : Fits data (x :: P)) (hP : P.length ≤ 1) (hstays : lt x e = false) :
    ∃ data', Returns (fun fuel => push lt null fuel data e) (.ok (data', .ok ())) ∧ Fits data' (x :: P ++ [e]) := by
  have hlen : (x :: P).length = P.length + 1 := rfl
  obtain ⟨data', happend, hfits⟩ := h.append null (by omega) e
  refine ⟨data', Returns.now fun fuel => ?_, hfits⟩
  have hsize : data'.size = P.length + 2 := by
    rw [hfits.holds.size, List.length_append, hlen]
    rfl
  have hparent : seqT.get data' ((P.length + 2) / 2 - 1) = .ok x := by
    have hzero : (P.length + 2) / 2 - 1 = 0 := by omega
    rw [hzero]
    exact seqT.get_ok (i := 0) hfits (by simp)
  have hlast : seqT.get data' (P.length + 2 - 1) = .ok e := by
    have hget := seqT.get_ok (i := P.length + 1) hfits (by simp)
    simpa using hget
  have hlong : P.length + 2 > 1 := by omega
  simp only [push, happend, hsize, siftUp, if_pos hlong, hparent, hlast, hstays, Bool.false_eq_true, if_false, bind,
    Except.bind, pure, Except.pure]

variable (cmp) in
theorem heapify_two (h : Fits data [z, y]) :
    ∃ data', (∀ fuel, 2 ≤ fuel → maxHeapify seqT cmp 2 fuel data 1 = .ok data') ∧
      Fits data' (if 0 < cmp y z then [y, z] else [z, y]) := by
  have hz : seqT.get data 0 = .ok z := seqT.get_ok (i := 0) h (by simp)
  have hy : seqT.get data 1 = .ok y := seqT.get_ok (i := 1) h (by simp)
  have hpair : HeapBase.larger seqT cmp data 2 2 1 = .ok (if 0 < cmp y z then 2 else 1) := by
    simp only [HeapBase.larger, Nat.le_refl, if_true, Nat.add_one_sub_one, Nat.sub_self, hz, hy, bind, Except.bind,
      gt_iff_lt, pure, Except.pure]
    split <;> rfl
  have hnone : ∀ (data : ElemArray α) (n largest : Nat),
      HeapBase.larger seqT cmp data 2 (n + 3) largest = .ok largest :=
    fun _ n _ => if_neg (by omega)
  by_cases habove : 0 < cmp y z
  · obtain ⟨data₁, he₁, h₁⟩ := seqT.set_ok (i := 0) y h (by simp)
    obtain ⟨data₂, he₂, h₂⟩ := seqT.set_ok (i := 1) z h₁ (by simp)
    rw [if_pos habove] at hpair ⊢
    refine ⟨data₂, fun fuel hfuel => ?_, h₂⟩
    obtain ⟨fuel, rfl⟩ := Nat.exists_eq_add_of_le' hfuel
    have hswap : HeapBase.swap seqT data 1 2 = .ok data₂ := by
      simp only [HeapBase.swap, Nat.sub_self, Nat.add_one_sub_one, hz, hy, he₁, he₂, bind, Except.bind]
    have hend : maxHeapify seqT cmp 2 (fuel + 1) data₂ 2 = .ok data₂ := by
      simp only [maxHeapify, Nat.reduceMul, hnone _ 1, hnone _ 2, bind, Except.bind, ne_eq, not_true_eq_false, if_false,
        pure, Except.pure]
    rw [maxHeapify]
    simp only [Nat.one_mul, hpair, hnone _ 0, bind, Except.bind, hswap]
    exact hend
  · rw [if_neg habove] at hpair ⊢
    refine ⟨data, fun fuel hfuel => ?_, h⟩
    obtain ⟨fuel, rfl⟩ := Nat.exists_eq_add_of_le' hfuel
    rw [maxHeapify]
    simp only [Nat.one_mul, hpair, hnone _ 0, bind, Except.bind, ne_eq, not_true_eq_false, if_false, pure, Except.pure]

variable (cmp null) in
theorem pop_three (h : Fits data [x, y, z]) :
    ∃ data', Returns (fun fuel => pop cmp null fuel data) (.ok (data', x)) ∧
      Fits data' (if 0 < cmp y z then [y, z] else [z, y]) := by
  have hsize : data.size = 3 := h.holds.size
  obtain ⟨data₁, touched, he₁, h₁, hcap₁⟩ :=
    h.holds.exchange (i := 0) (j := 2) (by simp) (by simp) (by decide) (by decide)
  have hswap : swap data 0 2 = .ok data₁ := by rw [swap, he₁]
  have hfits₁ : Fits data₁ [z, y, x] := ⟨h₁, hcap₁ ▸ h.cap⟩
  obtain ⟨data₂, hpop, h₂⟩ := hfits₁.pop null (List.cons_ne_nil z [y, x])
  have hsize₂ : data₂.size = 2 := h₂.holds.size
  obtain ⟨data', hdown, h'⟩ := heapify_two cmp h₂
  refine ⟨data', ⟨2, fun fuel hfuel => ?_⟩, h'⟩
  have hthree : ¬ 3 = 0 := by decide
  have htwo : 2 > 1 := by decide
  simp only [pop, hsize, Nat.reduceSub, if_neg hthree, hswap, hpop, hsize₂, if_pos htwo, hdown fuel hfuel, bind,
    Except.bind, pure, Except.pure]
  rfl

/-- What a run has reached after a step. -/
theorem serves_next {op : Op α} {ops : List (Op α)} {data' : ElemArray α} {r : Except Exc (Option α)}
    (h : Serves lt cmp null data P (op :: ops))
    (hstep : Returns (fun fuel => step lt cmp null fuel data op) (.ok (data', r))) :
    ∃ P', Serves lt cmp null data' P' ops := by
  obtain ⟨-, -, data₁, P₁, r₁, hreturns, -, hserves⟩ := h
  have heq := Except.ok.inj (hreturns.unique hstep)
  rw [Prod.mk.injEq] at heq
  exact ⟨P₁, heq.1 ▸ hserves⟩

theorem serves_three (hxy : lt x y = false) (hxz : lt x z = false)
    (h : Serves lt cmp null (ElemArray.init null 16) [] [.push x, .push y, .push z, .pop]) :
    MaxHeap (fun x y => lt y x = false) (if 0 < cmp y z then [y, z] else [z, y]) := by
  obtain ⟨data₁, hpush₁, h₁⟩ := push_first lt null (init_fits null) x
  obtain ⟨data₂, hpush₂, h₂⟩ := push_child null h₁ (Nat.zero_le 1) hxy
  obtain ⟨data₃, hpush₃, h₃⟩ := push_child null h₂ (Nat.le_refl 1) hxz
  obtain ⟨data₄, hpop, h₄⟩ := pop_three cmp null h₃
  obtain ⟨P₁, hserves₁⟩ := serves_next h (step_push hpush₁)
  obtain ⟨P₂, hserves₂⟩ := serves_next hserves₁ (step_push hpush₂)
  obtain ⟨P₃, hserves₃⟩ := serves_next hserves₂ (step_push hpush₃)
  obtain ⟨P₄, hholds, hheap⟩ := serves_next hserves₃ (step_pop hpop)
  rwa [← hholds.unique h₄.holds]

end PriorityQueue

open PriorityQueue in
/-- A queue serves every run on some elements if and only if `cmp` agrees with `<` about
them. -/
theorem priorityQueue_serves_iff {α : Type} {lt : α → α → Bool} (horder : ElementOrder lt) (cmp : α → α → Int)
    (null : α)
    (S : α → Prop) :
    (∀ ops, (∀ e, .push e ∈ ops → S e) → Serves lt cmp null (ElemArray.init null 16) [] ops) ↔
      ∀ a b, S a → S b → lt b a = true → 0 < cmp a b ∧ ¬ 0 < cmp b a := by
  constructor
  · intro hserves a b ha hb hlt
    have hba := horder.asymm b a hlt
    have haa : lt a a = false := by
      by_contra hc
      exact hc (horder.asymm a a (Bool.not_eq_false _ ▸ hc))
    have hruns : ∀ y z, S y → S z → lt a y = false → lt a z = false →
        MaxHeap (fun x y => lt y x = false) (if 0 < cmp y z then [y, z] else [z, y]) := by
      intro y z hy hz hay haz
      refine serves_three hay haz (hserves _ fun e he => ?_)
      simp only [List.mem_cons, Op.push.injEq, reduceCtorEq, List.not_mem_nil, or_false] at he
      rcases he with rfl | rfl | rfl
      · exact ha
      · exact hy
      · exact hz
    have hchild : ∀ p c : α, MaxHeap (fun x y => lt y x = false) [p, c] → lt p c = false :=
      fun p c hheap => hheap 1 c p Nat.one_pos rfl rfl
    constructor
    · by_contra hc
      have hheap := hruns a b ha hb haa hba
      rw [if_neg hc] at hheap
      rw [hchild b a hheap] at hlt
      cases hlt
    · intro hc
      have hheap := hruns b a hb ha hba haa
      rw [if_pos hc] at hheap
      rw [hchild b a hheap] at hlt
      cases hlt
  · intro hcmp ops hops
    exact Queue.serves horder hcmp ops ⟨init_fits null, .nil, fun x hx => nomatch hx⟩ hops

open PriorityQueue in
theorem priorityQueue_serves_two : Serves (fun a b : Nat => decide (a < b)) (fun a b => (a : Int) - b) 0
    (ElemArray.init 0 16) [] [.push 1, .push 3, .pop] := by
  have horder : ElementOrder fun a b : Nat => decide (a < b) := by
    constructor <;> simp only [decide_eq_true_eq, decide_eq_false_iff_not] <;> omega
  refine (priorityQueue_serves_iff horder (fun a b => (a : Int) - b) 0 fun _ => True).mpr ?_ _ fun _ _ => trivial
  simp only [decide_eq_true_eq]
  omega

open PriorityQueue in
/-- The greatest `int`, twice, and `-1`. The difference of two of them is out of range. -/
theorem priorityQueue_of_int :
    let lt := fun a b : BitVec 32 => decide (a.toInt < b.toInt)
    ElementOrder lt ∧ ¬Serves lt (fun a b => (a - b).toInt) 0 (ElemArray.init 0 16) []
      [.push 0x7fffffff, .push 0x7fffffff, .push (-1), .pop] := by
  refine ⟨?_, fun h => ?_⟩
  · constructor <;> simp only [decide_eq_true_eq, decide_eq_false_iff_not] <;> omega
  · have hheap := serves_three (by decide) (by decide) h
    rw [if_neg (by decide)] at hheap
    have hchild := hheap 1 _ _ Nat.one_pos rfl rfl
    revert hchild
    decide

end Crack
