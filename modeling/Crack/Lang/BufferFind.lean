import Crack.Lang.Buffers
import Crack.Lib.Loops

/-!
# Searching in a Buffer

A position is an `int` or a `uint`, and it is an `int` once more where it is an index.
Reading outside of the buffer is a wild access.
-/
namespace Crack

namespace BufferFind

open Fuel (Returns)
open Loops (bind_ok)

section

variable (buf : List UInt8)

/-- `size` where it is compared with an `int` or added to one. -/
def intSize : BitVec 32 := BitVec.ofNat 32 buf.length

def byteAt (i : Int) : Except Stop UInt8 :=
  if 0 ≤ i then
    match buf[i.toNat]? with
    | some c => .ok c
    | none => .error .wildAccess
  else .error .wildAccess

/-- Whether `memcmp` finds a difference between the pattern and what is at `pos`. -/
def memcmp (sub : List UInt8) (pos : Int) : Except Stop Bool :=
  if 0 ≤ pos ∧ pos + sub.length ≤ buf.length then .ok (decide ((buf.drop pos.toNat).take sub.length ≠ sub))
  else .error .wildAccess

/-- `__findPosChecks` for an `int` -/
def findPosChecks (pos : BitVec 32) : Option (BitVec 32) :=
  let pos := if pos.toInt < 0 then pos + intSize buf else pos
  if pos.toInt ≥ (intSize buf).toInt ∨ pos.toInt < 0 then none else some pos

/-- `__findPosChecks` for a `uint`, which is never negative -/
def findPosChecksUint (pos : BitVec 32) : Option (BitVec 32) :=
  if pos.toNat ≥ (intSize buf).toNat then none else some pos

/-- The loops of the macros: whether the byte was found, and where the loop stopped. -/
def findLoop (more : BitVec 32 → Bool) (next : BitVec 32) (c : UInt8) : Nat → BitVec 32 → Except Stop (Bool × BitVec 32)
  | 0, _ => .error .forever
  | fuel + 1, pos => do
    if more pos then
      if (← byteAt buf pos.toInt) = c then return (true, pos) else findLoop more next c fuel (pos + next)
    else return (false, pos)

/-- `__lfindLoop` -/
def lfindLoop : UInt8 → Nat → BitVec 32 → Except Stop (Bool × BitVec 32) :=
  findLoop buf (fun pos => pos.toInt < (intSize buf).toInt) 1

/-- `__rfindLoop` for an `int` -/
def rfindLoop : UInt8 → Nat → BitVec 32 → Except Stop (Bool × BitVec 32) := findLoop buf (fun pos => 0 ≤ pos.toInt) (-1)

/-- `__rfindLoop` for a `uint` -/
def rfindLoopUint : UInt8 → Nat → BitVec 32 → Except Stop (Bool × BitVec 32) := findLoop buf (fun _ => true) (-1)

/-- `__findReturn` and `__findFail` -/
def findReturn : Bool × BitVec 32 → BitVec 32
  | (true, pos) => pos
  | (false, _) => -1

variable (sub : List UInt8)

/-- The loop around a loop of the macros: a place where the first byte is found is compared. -/
def findSub (loop : UInt8 → Nat → BitVec 32 → Except Stop (Bool × BitVec 32)) (next : BitVec 32) (c : UInt8) :
    Nat → BitVec 32 → Except Stop (BitVec 32)
  | 0, _ => .error .forever
  | fuel + 1, pos => do
    let (_, pos) ← loop c fuel pos
    if pos = intSize buf then return -1
    else if (pos + intSize sub).toInt > (intSize buf).toInt then findSub loop next c fuel (pos + next)
    else if ← memcmp buf sub pos.toInt then findSub loop next c fuel (pos + next)
    else return pos

/-- `rfind(byte c, uint pos)` -/
def rfindByteAt (c : UInt8) (fuel : Nat) (pos : BitVec 32) : Except Stop (BitVec 32) :=
  match findPosChecksUint buf pos with
  | none => return -1
  | some pos => return findReturn (← rfindLoopUint buf c fuel pos)

/-- `rfind(byte c)` -/
def rfindByte (c : UInt8) (fuel : Nat) : Except Stop (BitVec 32) := do
  let pos := (BitVec.ofNat 64 buf.length - 1).setWidth 32
  return findReturn (← rfindLoop buf c fuel pos)

/-- `rfind(Buffer sub, int pos)` -/
def rfindAt (fuel : Nat) (pos : BitVec 32) : Except Stop (BitVec 32) :=
  match findPosChecks buf pos with
  | none => return -1
  | some pos => do
    let c ← byteAt sub 0
    findSub buf sub (rfindLoop buf) (-1) c fuel pos

/-- `rfind(Buffer sub)` -/
def rfind (fuel : Nat) : Except Stop (BitVec 32) := rfindAt buf sub fuel (-1)

/-- `lfind(byte c, int pos)` -/
def lfindByteAt (c : UInt8) (fuel : Nat) (pos : BitVec 32) : Except Stop (BitVec 32) :=
  match findPosChecks buf pos with
  | none => return -1
  | some pos => return findReturn (← lfindLoop buf c fuel pos)

/-- `lfind(byte c)` -/
def lfindByte (c : UInt8) (fuel : Nat) : Except Stop (BitVec 32) := return findReturn (← lfindLoop buf c fuel 0)

/-- `lfind(Buffer sub, int pos)` -/
def lfindAt (fuel : Nat) (pos : BitVec 32) : Except Stop (BitVec 32) :=
  match findPosChecks buf pos with
  | none => return -1
  | some pos => do
    let c ← byteAt sub 0
    findSub buf sub (lfindLoop buf) 1 c fuel pos

/-- `lfind(Buffer sub)` -/
def lfind (fuel : Nat) : Except Stop (BitVec 32) := lfindAt buf sub fuel 0

end

/-- The whole pattern is at `i`. -/
def Occurs (buf pat : List UInt8) (i : Int) : Prop := 0 ≤ i ∧ pat.isPrefixOf (buf.drop i.toNat) = true

/-- The smallest index not before `p` at which the pattern occurs, or -1. -/
def First (buf pat : List UInt8) (p r : Int) : Prop :=
  Occurs buf pat r ∧ p ≤ r ∧ (∀ i, p ≤ i → Occurs buf pat i → r ≤ i) ∨ r = -1 ∧ ∀ i, p ≤ i → ¬Occurs buf pat i

/-- The greatest index not after `p` at which the pattern occurs, or -1. -/
def Last (buf pat : List UInt8) (p r : Int) : Prop :=
  Occurs buf pat r ∧ r ≤ p ∧ (∀ i, i ≤ p → Occurs buf pat i → i ≤ r) ∨ r = -1 ∧ ∀ i, i ≤ p → ¬Occurs buf pat i

/-- The position that an `int` stands for; a negative one is counted from the end. -/
def position (buf : List UInt8) (pos : BitVec 32) : Int :=
  if pos.toInt < 0 then buf.length + pos.toInt else pos.toInt

inductive FindCall where
  | rfindByteAt (c : UInt8) (pos : BitVec 32)
  | rfindByte (c : UInt8)
  | rfindAt (sub : List UInt8) (pos : BitVec 32)
  | rfind (sub : List UInt8)
  | lfindByteAt (c : UInt8) (pos : BitVec 32)
  | lfindByte (c : UInt8)
  | lfindAt (sub : List UInt8) (pos : BitVec 32)
  | lfind (sub : List UInt8)

/-- A search returns what is searched for, without an access outside of the buffer. -/
def Finds (buf : List UInt8) : FindCall → Prop
  | .rfindByteAt c pos => ∃ r, Returns (fun fuel => rfindByteAt buf c fuel pos) (.ok r) ∧ Last buf [c] pos.toNat r.toInt
  | .rfindByte c => ∃ r, Returns (rfindByte buf c) (.ok r) ∧ Last buf [c] (buf.length - 1) r.toInt
  | .rfindAt sub pos => ∃ r, Returns (fun fuel => rfindAt buf sub fuel pos) (.ok r) ∧
    Last buf sub (position buf pos) r.toInt
  | .rfind sub => ∃ r, Returns (rfind buf sub) (.ok r) ∧ Last buf sub (buf.length - 1) r.toInt
  | .lfindByteAt c pos => ∃ r, Returns (fun fuel => lfindByteAt buf c fuel pos) (.ok r) ∧
    First buf [c] (position buf pos) r.toInt
  | .lfindByte c => ∃ r, Returns (lfindByte buf c) (.ok r) ∧ First buf [c] 0 r.toInt
  | .lfindAt sub pos => ∃ r, Returns (fun fuel => lfindAt buf sub fuel pos) (.ok r) ∧
    First buf sub (position buf pos) r.toInt
  | .lfind sub => ∃ r, Returns (lfind buf sub) (.ok r) ∧ First buf sub 0 r.toInt

/-- A pattern is not empty. -/
def FindCall.Proper : FindCall → Prop
  | .rfindAt sub _ | .rfind sub | .lfindAt sub _ | .lfind sub => sub ≠ []
  | _ => True

/-- A pattern that would go beyond the end at `i` is passed over. -/
def PassedOver (buf sub : List UInt8) (i : Int) : Prop :=
  buf.length < i + sub.length → buf.length < (BitVec.ofInt 32 (i + sub.length)).toInt

/-- Each place from `p` on where the first byte is, up to the first one with the whole pattern. -/
def LfindReads (buf sub : List UInt8) (c : UInt8) (p : Int) : Prop :=
  ∀ i, p ≤ i → Occurs buf [c] i → (∀ j, p ≤ j → j ≤ i → ¬Occurs buf sub j) → PassedOver buf sub i

/-- The pattern is there, and so is each place down from `p`. -/
def RfindReads (buf sub : List UInt8) (c : UInt8) (p : Int) : Prop :=
  (∃ i, i ≤ p ∧ Occurs buf sub i) ∧
    ∀ i, i ≤ p → Occurs buf [c] i → (∀ j, i ≤ j → j ≤ p → ¬Occurs buf sub j) → PassedOver buf sub i

def LfindOk (buf sub : List UInt8) (p : Int) : Prop :=
  if p < 0 then ∀ i, ¬Occurs buf sub i else ∀ c ∈ sub.head?, LfindReads buf sub c p

def RfindOk (buf sub : List UInt8) (p : Int) : Prop :=
  if p < 0 then True
  else if p < buf.length then ∀ c ∈ sub.head?, RfindReads buf sub c p
  else ∀ i, ¬Occurs buf sub i

def FindOk (buf : List UInt8) : FindCall → Prop
  | .rfindByteAt c pos =>
    if pos.toNat < buf.length then ∃ i : Int, i ≤ pos.toNat ∧ Occurs buf [c] i else ∀ i, ¬Occurs buf [c] i
  | .rfindByte _ | .lfindByte _ => True
  | .lfindByteAt c pos => 0 ≤ position buf pos ∨ ∀ i, ¬Occurs buf [c] i
  | .rfindAt sub pos => RfindOk buf sub (position buf pos)
  | .rfind sub => RfindOk buf sub (buf.length - 1)
  | .lfindAt sub pos => LfindOk buf sub (position buf pos)
  | .lfind sub => LfindOk buf sub 0

variable {buf sub : List UInt8} {c : UInt8} {p q i r : Int} {fuel : Nat}

theorem occurs_byte : Occurs buf [c] i ↔ 0 ≤ i ∧ buf[i.toNat]? = some c := by
  rw [Occurs, List.isPrefixOf_iff_prefix, List.singleton_prefix_iff_head?_eq_some, List.head?_drop]

theorem Occurs.head (h : Occurs buf (c :: sub) i) : Occurs buf [c] i := by
  refine ⟨h.1, List.isPrefixOf_iff_prefix.mpr ?_⟩
  exact List.IsPrefix.trans ⟨sub, rfl⟩ (List.isPrefixOf_iff_prefix.mp h.2)

theorem Occurs.bounds (h : Occurs buf sub i) (hne : sub ≠ []) : 0 ≤ i ∧ i + sub.length ≤ buf.length := by
  have hle := (List.isPrefixOf_iff_prefix.mp h.2).length_le
  have hpos := List.length_pos_iff.mpr hne
  rw [List.length_drop] at hle
  have h0 := h.1
  omega

theorem byteAt_ok (h0 : 0 ≤ i) (hi : i < buf.length) : ∃ x, byteAt buf i = .ok x ∧ (x = c ↔ Occurs buf [c] i) := by
  have hlt : i.toNat < buf.length := by omega
  refine ⟨buf[i.toNat], ?_, ?_⟩
  · rw [byteAt, if_pos h0, List.getElem?_eq_getElem hlt]
  · rw [occurs_byte, and_iff_right h0, List.getElem?_eq_getElem hlt, Option.some_inj]

variable (sub) in
theorem memcmp_ok (h0 : 0 ≤ i) (hi : i + sub.length ≤ buf.length) :
    ∃ d, memcmp buf sub i = .ok d ∧ (d = true ↔ ¬Occurs buf sub i) := by
  refine ⟨_, if_pos ⟨h0, hi⟩, ?_⟩
  rw [decide_eq_true_iff, Occurs, and_iff_right h0, List.isPrefixOf_iff_prefix, List.prefix_iff_eq_take, ne_eq, eq_comm]

theorem toInt_ofInt (hlow : -2 ^ 31 ≤ i) (hhigh : i < 2 ^ 31) : (BitVec.ofInt 32 i).toInt = i := by
  rw [BitVec.toInt_ofInt, Int.bmod_def]
  omega

theorem intSize_eq : intSize buf = BitVec.ofInt 32 buf.length := (BitVec.ofInt_natCast 32 buf.length).symm

theorem intSize_toInt (hsize : buf.length < 2 ^ 31) : (intSize buf).toInt = buf.length := by
  rw [intSize_eq, toInt_ofInt] <;> omega

theorem findPosChecks_eq (hsize : buf.length < 2 ^ 31) (pos : BitVec 32) :
    findPosChecks buf pos =
      if 0 ≤ position buf pos ∧ position buf pos < buf.length then some (BitVec.ofInt 32 (position buf pos))
      else none := by
  have hlow := BitVec.le_toInt pos
  have hhigh := BitVec.toInt_lt (x := pos)
  have hpos : (if pos.toInt < 0 then pos + intSize buf else pos) = BitVec.ofInt 32 (position buf pos) := by
    rw [position]
    split
    · rw [intSize_eq, BitVec.ofInt_add, BitVec.ofInt_toInt, BitVec.add_comm]
    · rw [BitVec.ofInt_toInt]
  have hint : (BitVec.ofInt 32 (position buf pos)).toInt = position buf pos := by
    rw [position]
    split <;> rw [toInt_ofInt] <;> omega
  rw [findPosChecks, hpos, intSize_toInt hsize, hint]
  by_cases hin : 0 ≤ position buf pos ∧ position buf pos < buf.length
  · rw [if_pos hin, if_neg (by omega)]
  · rw [if_neg hin, if_pos (by omega)]

theorem minus_one : (-1 : BitVec 32) = BitVec.ofInt 32 (-1) := by decide

theorem findLoop_succ {more : BitVec 32 → Bool} (d : Int) (c : UInt8) (hlow : -2 ^ 31 ≤ p) (hhigh : p < 2 ^ 31)
    {Q : Prop} [Decidable Q] (hmore : more (BitVec.ofInt 32 p) = decide Q) :
    findLoop buf more (BitVec.ofInt 32 d) c (fuel + 1) (BitVec.ofInt 32 p) =
      if Q then do
        if (← byteAt buf p) = c then return (true, BitVec.ofInt 32 p)
        else findLoop buf more (BitVec.ofInt 32 d) c fuel (BitVec.ofInt 32 (p + d))
      else return (false, BitVec.ofInt 32 p) := by
  rw [findLoop, toInt_ofInt hlow hhigh, BitVec.ofInt_add, hmore]
  by_cases hQ : Q
  · rw [if_pos (decide_eq_true hQ), if_pos hQ]
  · rw [if_neg (by simpa using hQ), if_neg hQ]

theorem lfindLoop_succ (hsize : buf.length < 2 ^ 31) (h0 : 0 ≤ p) (hp : p ≤ buf.length) :
    lfindLoop buf c (fuel + 1) (BitVec.ofInt 32 p) =
      if p < buf.length then do
        if (← byteAt buf p) = c then return (true, BitVec.ofInt 32 p)
        else lfindLoop buf c fuel (BitVec.ofInt 32 (p + 1))
      else return (false, BitVec.ofInt 32 p) :=
  findLoop_succ 1 c (by omega) (by omega) (by rw [intSize_toInt hsize, toInt_ofInt (by omega) (by omega)])

theorem rfindLoop_succ (hlow : -2 ^ 31 ≤ p) (hhigh : p < 2 ^ 31) :
    rfindLoop buf c (fuel + 1) (BitVec.ofInt 32 p) =
      if 0 ≤ p then do
        if (← byteAt buf p) = c then return (true, BitVec.ofInt 32 p)
        else rfindLoop buf c fuel (BitVec.ofInt 32 (p + -1))
      else return (false, BitVec.ofInt 32 p) := by
  rw [rfindLoop, minus_one]
  exact findLoop_succ (-1) c hlow hhigh (by rw [toInt_ofInt hlow hhigh])

theorem rfindLoopUint_succ (hlow : -2 ^ 31 ≤ p) (hhigh : p < 2 ^ 31) :
    rfindLoopUint buf c (fuel + 1) (BitVec.ofInt 32 p) = (do
      if (← byteAt buf p) = c then return (true, BitVec.ofInt 32 p)
      else rfindLoopUint buf c fuel (BitVec.ofInt 32 (p + -1))) := by
  have hmore : (fun _ : BitVec 32 => true) (BitVec.ofInt 32 p) = decide True := rfl
  rw [rfindLoopUint, minus_one, findLoop_succ (-1) c hlow hhigh hmore, if_pos trivial]

/-- Up to the first place with the byte, or to the end. -/
theorem lfindLoop_ok (hsize : buf.length < 2 ^ 31) (c : UInt8) (h0 : 0 ≤ p) (hp : p ≤ buf.length) :
    ∃ q, p ≤ q ∧ q ≤ buf.length ∧ (∀ i, p ≤ i → i < q → ¬Occurs buf [c] i) ∧ (q < buf.length → Occurs buf [c] q) ∧
      ∀ fuel : Nat, buf.length - p < fuel →
        lfindLoop buf c fuel (BitVec.ofInt 32 p) = .ok (decide (q < buf.length), BitVec.ofInt 32 q) := by
  induction hn : (buf.length - p).toNat generalizing p with
  | zero =>
    obtain rfl : p = buf.length := by omega
    refine ⟨buf.length, Int.le_refl _, Int.le_refl _, by omega, by omega, fun fuel hfuel => ?_⟩
    obtain ⟨fuel, rfl⟩ := Nat.exists_eq_succ_of_ne_zero (by omega : fuel ≠ 0)
    rw [lfindLoop_succ hsize h0 hp, if_neg (Int.lt_irrefl _), decide_eq_false (Int.lt_irrefl _)]
    rfl
  | succ n ih =>
    have hlt : p < buf.length := by omega
    obtain ⟨x, hx, hiff⟩ := byteAt_ok (c := c) h0 hlt
    by_cases hc : x = c
    · refine ⟨p, Int.le_refl p, hp, by omega, fun _ => hiff.mp hc, fun fuel hfuel => ?_⟩
      obtain ⟨fuel, rfl⟩ := Nat.exists_eq_succ_of_ne_zero (by omega : fuel ≠ 0)
      rw [lfindLoop_succ hsize h0 hp, if_pos hlt, hx, decide_eq_true hlt]
      simp only [bind, Except.bind, if_pos hc, pure, Except.pure]
    · obtain ⟨q, hpq, hqn, hnone, hat, hrun⟩ := ih (p := p + 1) (by omega) (by omega) (by omega)
      refine ⟨q, by omega, hqn, fun i hpi hiq => ?_, hat, fun fuel hfuel => ?_⟩
      · rcases Int.lt_or_eq_of_le hpi with hpi | rfl
        · exact hnone i (by omega) hiq
        · exact mt hiff.mpr hc
      · obtain ⟨fuel, rfl⟩ := Nat.exists_eq_succ_of_ne_zero (by omega : fuel ≠ 0)
        rw [lfindLoop_succ hsize h0 hp, if_pos hlt, hx]
        simp only [bind, Except.bind, if_neg hc]
        exact hrun fuel (by omega)

/-- Down to the last place with the byte, or to -1. -/
theorem rfindLoop_ok (hsize : buf.length < 2 ^ 31) (c : UInt8) (h0 : -1 ≤ p) (hp : p < buf.length) :
    ∃ q, -1 ≤ q ∧ q ≤ p ∧ (∀ i, q < i → i ≤ p → ¬Occurs buf [c] i) ∧ (0 ≤ q → Occurs buf [c] q) ∧
      ∀ fuel : Nat, p + 1 < fuel →
        rfindLoop buf c fuel (BitVec.ofInt 32 p) = .ok (decide (0 ≤ q), BitVec.ofInt 32 q) := by
  induction hn : (p + 1).toNat generalizing p with
  | zero =>
    obtain rfl : p = -1 := by omega
    refine ⟨-1, Int.le_refl _, Int.le_refl _, by omega, by omega, fun fuel hfuel => ?_⟩
    obtain ⟨fuel, rfl⟩ := Nat.exists_eq_succ_of_ne_zero (by omega : fuel ≠ 0)
    rw [rfindLoop_succ (by omega) (by omega), if_neg (by omega)]
    rfl
  | succ n ih =>
    have h0 : 0 ≤ p := by omega
    obtain ⟨x, hx, hiff⟩ := byteAt_ok (c := c) h0 hp
    by_cases hc : x = c
    · refine ⟨p, by omega, Int.le_refl p, by omega, fun _ => hiff.mp hc, fun fuel hfuel => ?_⟩
      obtain ⟨fuel, rfl⟩ := Nat.exists_eq_succ_of_ne_zero (by omega : fuel ≠ 0)
      rw [rfindLoop_succ (by omega) (by omega), if_pos h0, hx, decide_eq_true h0]
      simp only [bind, Except.bind, if_pos hc, pure, Except.pure]
    · obtain ⟨q, hq, hqp, hnone, hat, hrun⟩ := ih (p := p + -1) (by omega) (by omega) (by omega)
      refine ⟨q, hq, by omega, fun i hqi hip => ?_, hat, fun fuel hfuel => ?_⟩
      · rcases Int.lt_or_eq_of_le hip with hip | rfl
        · exact hnone i hqi (by omega)
        · exact mt hiff.mpr hc
      · obtain ⟨fuel, rfl⟩ := Nat.exists_eq_succ_of_ne_zero (by omega : fuel ≠ 0)
        rw [rfindLoop_succ (by omega) (by omega), if_pos h0, hx]
        simp only [bind, Except.bind, if_neg hc]
        exact hrun fuel (by omega)

/-- A `uint` goes on below zero, where the index is negative. -/
theorem rfindLoopUint_fails (hsize : buf.length < 2 ^ 31) (hlow : -1 ≤ p) (hp : p < buf.length)
    (hnone : ∀ i, i ≤ p → ¬Occurs buf [c] i) (x : Bool × BitVec 32) :
    rfindLoopUint buf c fuel (BitVec.ofInt 32 p) ≠ .ok x := by
  induction fuel generalizing p with
  | zero => exact fun h => nomatch h
  | succ fuel ih =>
    intro h
    rw [rfindLoopUint_succ (by omega) (by omega)] at h
    by_cases h0 : 0 ≤ p
    · obtain ⟨y, hy, hiff⟩ := byteAt_ok (c := c) h0 hp
      have hc : y ≠ c := mt hiff.mp (hnone p (Int.le_refl p))
      rw [hy] at h
      simp only [bind, Except.bind, if_neg hc] at h
      exact ih (by omega) (by omega) (fun i hi => hnone i (by omega)) h
    · rw [byteAt, if_neg h0] at h
      cases h

/-- As long as there is the byte, a `uint` does what an `int` does. -/
theorem rfindLoopUint_ok (hsize : buf.length < 2 ^ 31) (hp : p < buf.length) (hat : Occurs buf [c] i) (hi : i ≤ p) :
    rfindLoopUint buf c fuel (BitVec.ofInt 32 p) = rfindLoop buf c fuel (BitVec.ofInt 32 p) := by
  have hi0 := hat.1
  induction fuel generalizing p with
  | zero => rfl
  | succ fuel ih =>
    have h0 : 0 ≤ p := by omega
    obtain ⟨x, hx, hiff⟩ := byteAt_ok (c := c) h0 hp
    rw [rfindLoopUint_succ (by omega) (by omega), rfindLoop_succ (by omega) (by omega), if_pos h0, hx]
    by_cases hc : x = c
    · simp only [bind, Except.bind, if_pos hc]
    · have hne : i ≠ p := by
        rintro rfl
        exact hc (hiff.mpr hat)
      simp only [bind, Except.bind, if_neg hc]
      exact ih (by omega) (by omega)

variable (sub) in
/-- A round of the outer loop that has found the first byte at `q`. -/
theorem findSub_round {loop : UInt8 → Nat → BitVec 32 → Except Stop (Bool × BitVec 32)} {flag : Bool} {pos : BitVec 32}
    (hsize : buf.length < 2 ^ 31) (d : Int) (hloop : loop c fuel pos = .ok (flag, BitVec.ofInt 32 q))
    (hq0 : 0 ≤ q) (hqn : q < buf.length) :
    (Occurs buf sub q ∧ sub ≠ [] →
      findSub buf sub loop (BitVec.ofInt 32 d) c (fuel + 1) pos = .ok (BitVec.ofInt 32 q)) ∧
    (¬Occurs buf sub q → PassedOver buf sub q →
      findSub buf sub loop (BitVec.ofInt 32 d) c (fuel + 1) pos =
        findSub buf sub loop (BitVec.ofInt 32 d) c fuel (BitVec.ofInt 32 (q + d))) ∧
    (¬PassedOver buf sub q → findSub buf sub loop (BitVec.ofInt 32 d) c (fuel + 1) pos = .error .wildAccess) := by
  have hne : BitVec.ofInt 32 q ≠ intSize buf := by
    intro heq
    have hint := congrArg BitVec.toInt heq
    rw [toInt_ofInt (by omega) (by omega), intSize_toInt hsize] at hint
    omega
  have hqint : (BitVec.ofInt 32 q).toInt = q := toInt_ofInt (by omega) (by omega)
  have hsum : BitVec.ofInt 32 q + intSize sub = BitVec.ofInt 32 (q + sub.length) := by
    rw [intSize_eq, BitVec.ofInt_add]
  rw [findSub]
  simp only [hloop, bind, Except.bind, if_neg hne, hsum, intSize_toInt hsize, hqint, ← BitVec.ofInt_add]
  by_cases hfits : q + sub.length ≤ buf.length
  · have hint : (BitVec.ofInt 32 (q + sub.length)).toInt = q + sub.length := toInt_ofInt (by omega) (by omega)
    obtain ⟨d', hd, hiff⟩ := memcmp_ok sub hq0 hfits
    rw [hint, if_neg (by omega), hd]
    refine ⟨fun ⟨hat, _⟩ => ?_, fun hnot _ => ?_, fun hout => absurd (fun hc => absurd hc (by omega)) hout⟩
    · have hd' : ¬ d' = true := fun hc => hiff.mp hc hat
      simp only [if_neg hd', pure, Except.pure]
    · simp only [if_pos (hiff.mpr hnot)]
  · refine ⟨fun ⟨hat, hsub⟩ => absurd (hat.bounds hsub).2 hfits, fun _ hpassed => ?_, fun hout => ?_⟩
    · rw [if_pos (hpassed (by omega))]
    · have hlow : ¬(BitVec.ofInt 32 (q + sub.length)).toInt > buf.length := fun hc => hout fun _ => hc
      rw [if_neg hlow, memcmp, if_neg (fun hc => hfits hc.2)]

theorem first_skip (hpq : p ≤ q) (hnone : ∀ i, p ≤ i → i < q → ¬Occurs buf sub i) (h : First buf sub q r) :
    First buf sub p r := by
  rcases h with ⟨hat, hqr, hleast⟩ | ⟨rfl, habsent⟩
  · refine .inl ⟨hat, by omega, fun i hpi hi => ?_⟩
    by_cases hiq : i < q
    · exact absurd hi (hnone i hpi hiq)
    · exact hleast i (by omega) hi
  · refine .inr ⟨rfl, fun i hpi hi => ?_⟩
    by_cases hiq : i < q
    · exact hnone i hpi hiq hi
    · exact habsent i (by omega) hi

/-- With enough fuel a run returns what is searched for, or it does not return. -/
def Settles (ok : Prop) (want : Int → Prop) (bound : Int) (run : Nat → Except Stop (BitVec 32)) : Prop :=
  ok ∧ (∃ r, want r.toInt ∧ ∀ fuel : Nat, bound < fuel → run fuel = .ok r) ∨
    ¬ok ∧ ∀ fuel : Nat, bound < fuel → ∀ r, run fuel ≠ .ok r

namespace Settles

variable {ok ok' : Prop} {want want' : Int → Prop} {bound bound' : Int} {run run' : Nat → Except Stop (BitVec 32)}

theorem found {r : BitVec 32} (hok : ok) (hwant : want r.toInt) (hbound : 0 ≤ bound)
    (hrun : ∀ fuel : Nat, bound ≤ fuel → run (fuel + 1) = .ok r) : Settles ok want bound run := by
  refine .inl ⟨hok, r, hwant, fun fuel hfuel => ?_⟩
  obtain ⟨fuel, rfl⟩ := Nat.exists_eq_succ_of_ne_zero (by omega : fuel ≠ 0)
  exact hrun fuel (by omega)

theorem never (hok : ¬ok) (hbound : 0 ≤ bound) (hrun : ∀ fuel : Nat, bound ≤ fuel → ∀ r, run (fuel + 1) ≠ .ok r) :
    Settles ok want bound run := by
  refine .inr ⟨hok, fun fuel hfuel => ?_⟩
  obtain ⟨fuel, rfl⟩ := Nat.exists_eq_succ_of_ne_zero (by omega : fuel ≠ 0)
  exact hrun fuel (by omega)

/-- A run that goes on as another one does with less fuel. -/
theorem step (h : Settles ok' want' bound' run') (hok : ok ↔ ok') (hwant : ∀ r, want' r → want r) (hpos : 0 ≤ bound')
    (hbound : bound' < bound) (hrun : ∀ fuel : Nat, bound ≤ fuel → run (fuel + 1) = run' fuel) :
    Settles ok want bound run := by
  rcases h with ⟨hok', r, hr, hfound⟩ | ⟨hbad, hfails⟩
  · exact found (hok.mpr hok') (hwant _ hr) (by omega) fun fuel hfuel =>
      (hrun fuel hfuel).trans (hfound fuel (by omega))
  · refine never (mt hok.mp hbad) (by omega) fun fuel hfuel r => ?_
    rw [hrun fuel hfuel]
    exact hfails fuel (by omega) r

theorem congr (h : Settles ok' want bound' run') (hok : ok ↔ ok') (hbound : bound' ≤ bound)
    (hrun : ∀ fuel, run fuel = run' fuel) : Settles ok want bound run := by
  rcases h with ⟨hok', r, hr, hfound⟩ | ⟨hbad, hfails⟩
  · exact .inl ⟨hok.mpr hok', r, hr, fun fuel hfuel => (hrun fuel).trans (hfound fuel (by omega))⟩
  · exact .inr ⟨mt hok.mp hbad, fun fuel hfuel => hrun fuel ▸ hfails fuel (by omega)⟩

/-- What a search comes to. -/
theorem iff (h : Settles ok want bound run) : (∃ r, Returns run (.ok r) ∧ want r.toInt) ↔ ok := by
  rcases h with ⟨hok, r, hr, hfound⟩ | ⟨hbad, hfails⟩
  · exact iff_of_true ⟨r, ⟨bound.toNat + 1, fun fuel hfuel => hfound fuel (by omega)⟩, hr⟩ hok
  · refine iff_of_false ?_ hbad
    rintro ⟨r, ⟨n, hn⟩, -⟩
    exact hfails (n + bound.toNat + 1) (by omega) r (hn _ (by omega))

end Settles

section

variable (hsize : buf.length < 2 ^ 31)

include hsize

/-- From `p` up the search finds the first place, unless it reads beyond the end. -/
theorem findSub_up (c : UInt8) (sub : List UInt8) (h0 : 0 ≤ p) (hp : p ≤ buf.length) :
    Settles (LfindReads buf (c :: sub) c p) (First buf (c :: sub) p) (buf.length - p + buf.length + 1) fun fuel =>
      findSub buf (c :: sub) (lfindLoop buf) (BitVec.ofInt 32 1) c fuel (BitVec.ofInt 32 p) := by
  induction hk : (buf.length - p).toNat using Nat.strongRecOn generalizing p with
  | ind k ih =>
    obtain ⟨q, hpq, hqn, hnone, hat, hrun⟩ := lfindLoop_ok hsize c h0 hp
    have hnosub : ∀ i, p ≤ i → i < q → ¬Occurs buf (c :: sub) i := fun i hpi hiq hi => hnone i hpi hiq hi.head
    by_cases hend : q = buf.length
    · refine .found (fun i hpi hi => absurd hi (hnone i hpi ?_)) (.inr ⟨(rfl : (-1 : BitVec 32).toInt = -1), ?_⟩)
        (by omega) fun fuel hfuel => ?_
      · have hlt := (hi.bounds (List.cons_ne_nil c [])).2
        rw [List.length_singleton] at hlt
        omega
      · intro i hpi hi
        have hlt := (hi.bounds (List.cons_ne_nil c sub)).2
        rw [List.length_cons] at hlt
        exact hnosub i hpi (by omega) hi
      · have hloop := hrun fuel (by omega)
        rw [hend, ← intSize_eq] at hloop
        simp only [findSub, hloop, bind, Except.bind, if_true, pure, Except.pure]
    have hlt : q < buf.length := by omega
    have hround := fun fuel hfuel => findSub_round (c :: sub) hsize 1 (hrun fuel hfuel) (by omega) hlt
    by_cases hocc : Occurs buf (c :: sub) q
    · have hqint : (BitVec.ofInt 32 q).toInt = q := toInt_ofInt (by omega) (by omega)
      refine .found (fun i hpi hi hnot => ?_) (hqint.symm ▸ .inl ⟨hocc, hpq, fun i hpi hi => ?_⟩) (by omega)
        fun fuel hfuel => (hround fuel (by omega)).1 ⟨hocc, List.cons_ne_nil c sub⟩
      · by_cases hiq : i < q
        · exact absurd hi (hnone i hpi hiq)
        · exact absurd hocc (hnot q hpq (by omega))
      · by_contra hiq
        exact hnosub i hpi (by omega) hi
    have hnosub' : ∀ i, p ≤ i → i < q + 1 → ¬Occurs buf (c :: sub) i := by
      intro i hpi hiq
      rcases Int.lt_or_eq_of_le (Int.le_of_lt_add_one hiq) with hiq | rfl
      · exact hnosub i hpi hiq
      · exact hocc
    by_cases hpass : PassedOver buf (c :: sub) q
    · refine (ih (buf.length - (q + 1)).toNat (by omega) (p := q + 1) (by omega) (by omega) rfl).step ⟨?_, ?_⟩
        (fun r => first_skip (by omega) hnosub') (by omega) (by omega)
        fun fuel hfuel => (hround fuel (by omega)).2.1 hocc hpass
      · intro h i hqi hi hnot
        refine h i (by omega) hi fun j hpj hji => ?_
        by_cases hjq : j < q + 1
        · exact hnosub' j hpj hjq
        · exact hnot j (by omega) hji
      · intro h i hpi hi hnot
        by_cases hiq : i < q
        · exact absurd hi (hnone i hpi hiq)
        rcases Int.lt_or_eq_of_le (Int.not_lt.mp hiq) with hqi | rfl
        · exact h i hqi hi fun j hqj hji => hnot j (by omega) hji
        · exact hpass
    · refine .never (fun h => hpass (h q hpq (hat hlt) fun j hpj hjq => hnosub' j hpj (by omega))) (by omega)
        fun fuel hfuel r => ?_
      rw [(hround fuel (by omega)).2.2 hpass]
      exact fun h => nomatch h

omit hsize in
theorem last_skip (hqp : q ≤ p) (hnone : ∀ i, q < i → i ≤ p → ¬Occurs buf sub i) (h : Last buf sub q r) :
    Last buf sub p r := by
  rcases h with ⟨hat, hrq, hgreatest⟩ | ⟨rfl, habsent⟩
  · refine .inl ⟨hat, by omega, fun i hip hi => ?_⟩
    by_cases hqi : q < i
    · exact absurd hi (hnone i hqi hip)
    · exact hgreatest i (by omega) hi
  · refine .inr ⟨rfl, fun i hip hi => ?_⟩
    by_cases hqi : q < i
    · exact hnone i hqi hip hi
    · exact habsent i (by omega) hi

/-- From -1 down the search reads before the buffer. -/
theorem findSub_before (c : UInt8) (sub : List UInt8) {k : Int} (h1 : 1 ≤ k) (hk : k ≤ 2 ^ 31)
    (hsub : k = 1 ∨ 0 ≤ (intSize sub).toInt ∨ (intSize sub).toInt = -2 ^ 31) (r : BitVec 32) :
    findSub buf sub (rfindLoop buf) (BitVec.ofInt 32 (-1)) c fuel (BitVec.ofInt 32 (-k)) ≠ .ok r := by
  induction fuel generalizing k with
  | zero => exact fun h => nomatch h
  | succ fuel ih =>
    intro h
    have hkint : (BitVec.ofInt 32 (-k)).toInt = -k := toInt_ofInt (by omega) (by omega)
    have hne : BitVec.ofInt 32 (-k) ≠ intSize buf := by
      intro heq
      rw [heq, intSize_toInt hsize] at hkint
      omega
    have hlow := BitVec.le_toInt (intSize sub)
    have hhigh := BitVec.toInt_lt (x := intSize sub)
    rw [findSub] at h
    cases fuel with
    | zero => cases h
    | succ fuel =>
      rw [rfindLoop_succ (by omega) (by omega), if_neg (by omega)] at h
      have hsum : (BitVec.ofInt 32 (-k) + intSize sub).toInt = if -2 ^ 31 ≤ -k + (intSize sub).toInt
          then -k + (intSize sub).toInt else -k + (intSize sub).toInt + 2 ^ 32 := by
        rw [BitVec.toInt_add, hkint, Int.bmod_def]
        split <;> split <;> omega
      simp only [pure, Except.pure, bind, Except.bind, if_neg hne, hkint, intSize_toInt hsize] at h
      rw [hsum] at h
      by_cases hpassed : (if -2 ^ 31 ≤ -k + (intSize sub).toInt then -k + (intSize sub).toInt
          else -k + (intSize sub).toInt + 2 ^ 32) > buf.length
      · rw [if_pos hpassed] at h
        have hnext : BitVec.ofInt 32 (-k) + BitVec.ofInt 32 (-1) = BitVec.ofInt 32 (-(k + 1)) := by
          rw [← BitVec.ofInt_add, Int.neg_add]
        rw [hnext] at h
        exact ih (k := k + 1) (by omega) (by split at hpassed <;> omega) (by split at hpassed <;> omega) h
      · rw [if_neg hpassed, memcmp, if_neg (by omega)] at h
        cases h

/-- From `p` down the search finds the last place, unless there is none or it reads beyond the end. -/
theorem findSub_down (c : UInt8) (sub : List UInt8) (h0 : -1 ≤ p) (hp : p < buf.length) :
    Settles (RfindReads buf (c :: sub) c p) (Last buf (c :: sub) p) (p + 3) fun fuel =>
      findSub buf (c :: sub) (rfindLoop buf) (BitVec.ofInt 32 (-1)) c fuel (BitVec.ofInt 32 p) := by
  induction hk : (p + 1).toNat using Nat.strongRecOn generalizing p with
  | ind k ih =>
    obtain ⟨q, hq, hqp, hnone, hat, hrun⟩ := rfindLoop_ok hsize c h0 hp
    have hnosub : ∀ i, q < i → i ≤ p → ¬Occurs buf (c :: sub) i := fun i hqi hip hi => hnone i hqi hip hi.head
    by_cases hend : q = -1
    · refine .never ?_ (by omega) fun fuel hfuel r h => ?_
      · rintro ⟨⟨i, hip, hi⟩, -⟩
        have hi0 := hi.1
        exact hnosub i (by omega) hip hi
      · -- the loop has stopped where it would stop at once
        have hbefore : rfindLoop buf c fuel (BitVec.ofInt 32 (-1)) = rfindLoop buf c fuel (BitVec.ofInt 32 p) := by
          obtain ⟨fuel, rfl⟩ := Nat.exists_eq_succ_of_ne_zero (by omega : fuel ≠ 0)
          rw [hrun _ (by omega), rfindLoop_succ (by omega) (by omega), if_neg (by omega), hend]
          rfl
        refine findSub_before hsize c (c :: sub) (Int.le_refl 1) (by omega) (.inl rfl) r
          (?_ : findSub _ _ _ _ _ (fuel + 1) _ = _)
        rw [findSub, hbefore]
        rw [findSub] at h
        exact h
    have hround := fun fuel hfuel =>
      findSub_round (c :: sub) hsize (-1) (hrun fuel hfuel) (by omega) (Int.lt_of_le_of_lt hqp hp)
    by_cases hocc : Occurs buf (c :: sub) q
    · have hqint : (BitVec.ofInt 32 q).toInt = q := toInt_ofInt (by omega) (by omega)
      refine .found ⟨⟨q, hqp, hocc⟩, fun i hip hi hnot => ?_⟩ (hqint.symm ▸ .inl ⟨hocc, hqp, fun i hip hi => ?_⟩)
        (by omega)
        fun fuel hfuel => (hround fuel (by omega)).1 ⟨hocc, List.cons_ne_nil c sub⟩
      · by_cases hqi : q < i
        · exact absurd hi (hnone i hqi hip)
        · exact absurd hocc (hnot q (by omega) hqp)
      · by_contra hqi
        exact hnosub i (by omega) hip hi
    have hnosub' : ∀ i, q - 1 < i → i ≤ p → ¬Occurs buf (c :: sub) i := by
      intro i hqi hip
      rcases Int.lt_or_eq_of_le (Int.le_of_sub_one_lt hqi) with hqi | rfl
      · exact hnosub i hqi hip
      · exact hocc
    by_cases hpass : PassedOver buf (c :: sub) q
    · refine (ih (q - 1 + 1).toNat (by omega) (p := q - 1) (by omega) (by omega) rfl).step ⟨?_, ?_⟩
        (fun r => last_skip (by omega) hnosub') (by omega) (by omega)
        fun fuel hfuel => (hround fuel (by omega)).2.1 hocc hpass
      · rintro ⟨⟨i, hip, hi⟩, hall⟩
        have hiq : i ≤ q - 1 := by
          by_contra hqi
          exact hnosub' i (by omega) hip hi
        refine ⟨⟨i, hiq, hi⟩, fun i hiq hi hnot => hall i (by omega) hi fun j hij hjp => ?_⟩
        by_cases hqj : q - 1 < j
        · exact hnosub' j hqj hjp
        · exact hnot j hij (by omega)
      · rintro ⟨⟨i, hiq, hi⟩, hall⟩
        refine ⟨⟨i, by omega, hi⟩, fun i hip hi hnot => ?_⟩
        by_cases hqi : q < i
        · exact absurd hi (hnone i hqi hip)
        rcases Int.lt_or_eq_of_le (Int.not_lt.mp hqi) with hiq | rfl
        · exact hall i (by omega) hi fun j hij hjq => hnot j hij (by omega)
        · exact hpass
    · refine .never (fun h => hpass (h.2 q hqp (hat (by omega)) fun j hqj hjp => hnosub' j (by omega) hjp)) (by omega)
        fun fuel hfuel r => ?_
      rw [(hround fuel (by omega)).2.2 hpass]
      exact fun h => nomatch h

omit hsize in
theorem returned_iff {want : Int → Prop} (r₀ : BitVec 32) :
    (∃ r, Returns (fun _ : Nat => (.ok r₀ : Except Stop (BitVec 32))) (.ok r) ∧ want r.toInt) ↔ want r₀.toInt := by
  constructor
  · rintro ⟨r, ⟨n, hn⟩, hr⟩
    exact Except.ok.inj (hn n (Nat.le_refl n)) ▸ hr
  · exact fun hr => ⟨r₀, ⟨0, fun _ _ => rfl⟩, hr⟩

omit hsize in
theorem first_absent : First buf sub p (-1 : BitVec 32).toInt ↔ ∀ i, p ≤ i → ¬Occurs buf sub i := by
  refine ⟨?_, fun h => .inr ⟨rfl, h⟩⟩
  rintro (⟨hat, -⟩ | ⟨-, h⟩)
  · exact absurd hat.1 (by decide)
  · exact h

omit hsize in
theorem last_absent : Last buf sub p (-1 : BitVec 32).toInt ↔ ∀ i, i ≤ p → ¬Occurs buf sub i := by
  refine ⟨?_, fun h => .inr ⟨rfl, h⟩⟩
  rintro (⟨hat, -⟩ | ⟨-, h⟩)
  · exact absurd hat.1 (by decide)
  · exact h

theorem lfindByte_settles (c : UInt8) (h0 : 0 ≤ p) (hp : p ≤ buf.length) :
    Settles True (First buf [c] p) (buf.length - p + 1) fun fuel => do
      return findReturn (← lfindLoop buf c fuel (BitVec.ofInt 32 p)) := by
  obtain ⟨q, hpq, hqn, hnone, hat, hrun⟩ := lfindLoop_ok hsize c h0 hp
  by_cases hend : q < buf.length
  · have hqint : (BitVec.ofInt 32 q).toInt = q := toInt_ofInt (by omega) (by omega)
    have hfirst : First buf [c] p (BitVec.ofInt 32 q).toInt := by
      rw [hqint]
      refine .inl ⟨hat hend, hpq, fun i hpi hi => ?_⟩
      by_contra hiq
      exact hnone i hpi (by omega) hi
    refine .found trivial hfirst (by omega) fun fuel hfuel => ?_
    simp only [hrun (fuel + 1) (by omega), decide_eq_true hend, bind, Except.bind, pure, Except.pure, findReturn]
  · refine .found trivial (first_absent.mpr fun i hpi hi => ?_) (by omega) fun fuel hfuel => ?_
    · have hlt := (hi.bounds (List.cons_ne_nil c [])).2
      rw [List.length_singleton] at hlt
      exact hnone i hpi (by omega) hi
    · simp only [hrun (fuel + 1) (by omega), decide_eq_false hend, bind, Except.bind, pure, Except.pure, findReturn]

theorem rfindByte_settles (c : UInt8) (h0 : -1 ≤ p) (hp : p < buf.length) :
    Settles True (Last buf [c] p) (p + 2) fun fuel => do
      return findReturn (← rfindLoop buf c fuel (BitVec.ofInt 32 p)) := by
  obtain ⟨q, hq, hqp, hnone, hat, hrun⟩ := rfindLoop_ok hsize c h0 hp
  by_cases hend : 0 ≤ q
  · have hqint : (BitVec.ofInt 32 q).toInt = q := toInt_ofInt (by omega) (by omega)
    have hlast : Last buf [c] p (BitVec.ofInt 32 q).toInt := by
      rw [hqint]
      refine .inl ⟨hat hend, hqp, fun i hip hi => ?_⟩
      by_contra hqi
      exact hnone i (by omega) hip hi
    refine .found trivial hlast (by omega) fun fuel hfuel => ?_
    simp only [hrun (fuel + 1) (by omega), decide_eq_true hend, bind, Except.bind, pure, Except.pure, findReturn]
  · refine .found trivial (last_absent.mpr fun i hip hi => ?_) (by omega) fun fuel hfuel => ?_
    · have hi0 := hi.1
      exact hnone i (by omega) hip hi
    · simp only [hrun (fuel + 1) (by omega), decide_eq_false hend, bind, Except.bind, pure, Except.pure, findReturn]

theorem finds_rfindByteAt (c : UInt8) (pos : BitVec 32) :
    Finds buf (.rfindByteAt c pos) ↔ FindOk buf (.rfindByteAt c pos) := by
  have hnat : (intSize buf).toNat = buf.length := (BitVec.toNat_ofNat _ _).trans (Nat.mod_eq_of_lt (by omega))
  rw [Finds, FindOk]
  by_cases hlt : pos.toNat < buf.length
  · have hpos : pos = BitVec.ofInt 32 pos.toNat := by
      rw [BitVec.ofInt_natCast, BitVec.ofNat_toNat, BitVec.setWidth_eq]
    have hchecks : findPosChecksUint buf pos = some (BitVec.ofInt 32 pos.toNat) := by
      rw [findPosChecksUint, hnat, if_neg (by omega), ← hpos]
    simp only [rfindByteAt, hchecks, if_pos hlt]
    by_cases hex : ∃ i : Int, i ≤ pos.toNat ∧ Occurs buf [c] i
    · obtain ⟨i, hi, hat⟩ := hex
      simp only [rfindLoopUint_ok hsize (Int.ofNat_lt.mpr hlt) hat hi]
      have hsettles := rfindByte_settles hsize c (p := pos.toNat) (by omega) (Int.ofNat_lt.mpr hlt)
      exact iff_of_true (hsettles.iff.mpr trivial) ⟨i, hi, hat⟩
    · refine iff_of_false ?_ hex
      rintro ⟨r, ⟨n, hn⟩, -⟩
      obtain ⟨x, hx, -⟩ := bind_ok (hn n (Nat.le_refl n))
      refine rfindLoopUint_fails hsize (by omega) (Int.ofNat_lt.mpr hlt) (fun i hi hat => ?_) x hx
      exact hex ⟨i, hi, hat⟩
  · have hchecks : findPosChecksUint buf pos = none := by
      rw [findPosChecksUint, hnat, if_pos (by omega)]
    simp only [rfindByteAt, hchecks, if_neg hlt]
    refine (returned_iff (-1)).trans (last_absent.trans ⟨fun h i hi => ?_, fun h i _ => h i⟩)
    have hbound := (hi.bounds (List.cons_ne_nil c [])).2
    rw [List.length_singleton] at hbound
    exact h i (by omega) hi

theorem finds_lfindByteAt (c : UInt8) (pos : BitVec 32) :
    Finds buf (.lfindByteAt c pos) ↔ FindOk buf (.lfindByteAt c pos) := by
  rw [Finds, FindOk]
  have hchecks := findPosChecks_eq hsize pos
  by_cases hin : 0 ≤ position buf pos ∧ position buf pos < buf.length
  · rw [if_pos hin] at hchecks
    simp only [lfindByteAt, hchecks]
    exact iff_of_true ((lfindByte_settles hsize c hin.1 (Int.le_of_lt hin.2)).iff.mpr trivial) (.inl hin.1)
  · rw [if_neg hin] at hchecks
    simp only [lfindByteAt, hchecks]
    refine (returned_iff (-1)).trans (first_absent.trans ?_)
    by_cases h0 : 0 ≤ position buf pos
    · refine iff_of_true (fun i hi hat => ?_) (.inl h0)
      have hbound := (hat.bounds (List.cons_ne_nil c [])).2
      rw [List.length_singleton] at hbound
      omega
    · rw [or_iff_right h0]
      exact ⟨fun h i hat => h i (by have := hat.1; omega) hat, fun h i _ => h i⟩

theorem finds_lfindAt (hsub : sub ≠ []) (pos : BitVec 32) :
    Finds buf (.lfindAt sub pos) ↔ LfindOk buf sub (position buf pos) := by
  have hchecks := findPosChecks_eq hsize pos
  obtain ⟨c, sub, rfl⟩ := List.exists_cons_of_ne_nil hsub
  have hhead : ∀ {Q : UInt8 → Prop}, (∀ x ∈ (c :: sub).head?, Q x) ↔ Q c := by simp
  rw [Finds, LfindOk, hhead]
  by_cases hin : 0 ≤ position buf pos ∧ position buf pos < buf.length
  · rw [if_pos hin] at hchecks
    simp only [lfindAt, hchecks]
    rw [if_neg (by omega)]
    exact (findSub_up hsize c sub hin.1 (Int.le_of_lt hin.2)).iff
  · rw [if_neg hin] at hchecks
    simp only [lfindAt, hchecks]
    refine (returned_iff (-1)).trans (first_absent.trans ?_)
    by_cases h0 : position buf pos < 0
    · rw [if_pos h0]
      exact ⟨fun h i hat => h i (by have := hat.1; omega) hat, fun h i _ => h i⟩
    · have hbehind : ∀ {pat : List UInt8}, pat ≠ [] → ∀ i, position buf pos ≤ i → ¬Occurs buf pat i := by
        intro pat hpat i hi hat
        have hbound := (hat.bounds hpat).2
        have hpos := List.length_pos_iff.mpr hpat
        omega
      rw [if_neg h0]
      exact iff_of_true (hbehind hsub) fun i hi hat => absurd hat (hbehind (List.cons_ne_nil c []) i hi)

theorem finds_rfindAt (hsub : sub ≠ []) (pos : BitVec 32) :
    Finds buf (.rfindAt sub pos) ↔ RfindOk buf sub (position buf pos) := by
  have hchecks := findPosChecks_eq hsize pos
  obtain ⟨c, sub, rfl⟩ := List.exists_cons_of_ne_nil hsub
  have hhead : ∀ {Q : UInt8 → Prop}, (∀ x ∈ (c :: sub).head?, Q x) ↔ Q c := by simp
  rw [Finds, RfindOk, hhead]
  by_cases hin : 0 ≤ position buf pos ∧ position buf pos < buf.length
  · rw [if_pos hin] at hchecks
    simp only [rfindAt, hchecks]
    rw [if_neg (by omega), if_pos hin.2]
    have hsettles := findSub_down hsize c sub (by omega) hin.2
    rw [← minus_one] at hsettles
    exact hsettles.iff
  · rw [if_neg hin] at hchecks
    simp only [rfindAt, hchecks]
    refine (returned_iff (-1)).trans (last_absent.trans ?_)
    by_cases h0 : position buf pos < 0
    · rw [if_pos h0]
      exact iff_of_true (fun i hi hat => absurd hat.1 (by omega)) trivial
    · rw [if_neg h0, if_neg (by omega)]
      refine ⟨fun h i hat => ?_, fun h i _ => h i⟩
      have hbound := (hat.bounds hsub).2
      exact h i (by omega) hat

end

end BufferFind

open BufferFind in
/-- When each search returns what is searched for. -/
theorem find_iff (buf : List UInt8) (hsize : buf.length < 2 ^ 31) (call : FindCall) (hsub : call.Proper) :
    Finds buf call ↔ FindOk buf call := by
  cases call with
  | rfindByteAt c pos => exact finds_rfindByteAt hsize c pos
  | rfindByte c =>
    have hpos : (BitVec.ofNat 64 buf.length - 1).setWidth 32 = BitVec.ofInt 32 (buf.length - 1) := by
      apply BitVec.eq_of_toNat_eq
      have hone : (1 : BitVec 64).toNat = 1 := rfl
      rw [BitVec.toNat_setWidth, BitVec.toNat_sub, BitVec.toNat_ofInt, BitVec.toNat_ofNat, hone]
      omega
    have hsettles := rfindByte_settles hsize c (p := buf.length - 1) (by omega) (by omega)
    rw [← hpos] at hsettles
    exact iff_of_true (hsettles.iff.mpr trivial) trivial
  | rfindAt sub pos => exact finds_rfindAt hsize hsub pos
  | rfind sub =>
    have hlast : position buf (-1) = buf.length - 1 := if_pos (by decide)
    have hiff := finds_rfindAt hsize hsub (-1)
    simp only [Finds, hlast] at hiff
    exact hiff
  | lfindByteAt c pos => exact finds_lfindByteAt hsize c pos
  | lfindByte c =>
    exact iff_of_true ((lfindByte_settles hsize c (Int.le_refl 0) (Int.natCast_nonneg _)).iff.mpr trivial) trivial
  | lfindAt sub pos => exact finds_lfindAt hsize hsub pos
  | lfind sub => exact finds_lfindAt hsize hsub 0

open BufferFind in
theorem find_in_three : Finds [97, 98, 97] (.lfindAt [98] (-2)) := by
  refine (find_iff [97, 98, 97] (by decide) (.lfindAt [98] (-2)) (List.cons_ne_nil _ _)).mpr ?_
  rw [FindOk, LfindOk, if_neg (by decide)]
  intro c _ i _ hat _ hbig
  have hbound := (hat.bounds (List.cons_ne_nil c [])).2
  simp only [List.length_cons, List.length_nil] at hbound hbig
  omega

open BufferFind in
/-- There is no such byte in the buffer. -/
theorem rfind_absent_byte : ¬Finds [97] (.rfindByteAt 98 0) := by
  rintro ⟨r, ⟨n, hn⟩, -⟩
  obtain ⟨x, hx, -⟩ := Loops.bind_ok (hn n (Nat.le_refl n))
  have hnone : ∀ i : Int, i ≤ 0 → ¬Occurs [97] [98] i := by
    intro i hi hat
    have h0 := hat.1
    obtain rfl : i = 0 := by omega
    exact absurd hat.2 (by decide)
  exact rfindLoopUint_fails (by decide) (by decide) (by decide) hnone x hx

end Crack
