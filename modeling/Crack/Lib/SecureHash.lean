import Crack.Lib.Words
import Mathlib.Data.List.Basic
import Mathlib.Data.List.GetD
import Mathlib.Logic.Function.Basic

/-!
# Secure hash algorithms

SHA-1 and SHA-256 of a message of bytes. Padding makes it a whole number of blocks of 64 bytes, which are compressed
one after the other. All words have 32 bits.

## Blocks

A sequence is absorbed block by block. What does not make up a block is left for the rest of it.
-/
namespace Blocks

variable {α σ : Type} {n : Nat} {f : σ → List α → σ} {s : σ} {xs ys block : List α}

/-- The whole blocks of `n`. -/
def blocks (n : Nat) (xs : List α) : List (List α) :=
  (List.range (xs.length / n)).map fun k => (xs.drop (k * n)).take n

/-- What is behind the whole blocks. -/
def rest (n : Nat) (xs : List α) : List α := xs.drop (xs.length / n * n)

def absorb (n : Nat) (f : σ → List α → σ) (s : σ) (xs : List α) : σ := (blocks n xs).foldl f s

theorem blocks_of_short (h : xs.length < n) : blocks n xs = [] := by
  rw [blocks, Nat.div_eq_of_lt h]
  rfl

theorem blocks_append (hblock : block.length = n) (hn : 0 < n) (xs : List α) :
    blocks n (block ++ xs) = block :: blocks n xs := by
  have hcount : (block ++ xs).length / n = xs.length / n + 1 := by
    rw [List.length_append, hblock, Nat.add_div_left _ hn]
  rw [blocks, hcount, List.range_succ_eq_map, List.map_cons, List.map_map]
  refine congrArg₂ List.cons ?_ (List.map_congr_left fun k _ => ?_)
  · rw [Nat.zero_mul, List.drop_zero, ← hblock, List.take_left]
  · have hplace : (k + 1) * n = block.length + k * n := by rw [Nat.succ_mul, hblock, Nat.add_comm]
    dsimp only [Function.comp]
    rw [hplace, ← List.drop_drop, List.drop_left]

theorem rest_of_short (h : xs.length < n) : rest n xs = xs := by
  rw [rest, Nat.div_eq_of_lt h, Nat.zero_mul]
  rfl

theorem rest_append (hblock : block.length = n) (hn : 0 < n) (xs : List α) : rest n (block ++ xs) = rest n xs := by
  have hplace : (block ++ xs).length / n * n = block.length + xs.length / n * n := by
    rw [List.length_append, hblock, Nat.add_div_left _ hn, Nat.succ_mul, Nat.add_comm]
  rw [rest, hplace, ← List.drop_drop, List.drop_left, rest]

theorem length_rest : (rest n xs).length = xs.length % n := by
  rw [rest, List.length_drop]
  have := Nat.div_add_mod' xs.length n
  omega

theorem absorb_of_short (h : xs.length < n) : absorb n f s xs = s := by
  rw [absorb, blocks_of_short h]
  rfl

theorem absorb_append (hblock : block.length = n) (hn : 0 < n) (xs : List α) :
    absorb n f s (block ++ xs) = absorb n f (f s block) xs := by
  rw [absorb, blocks_append hblock hn, List.foldl_cons, absorb]

theorem absorb_block (hblock : block.length = n) (hn : 0 < n) : absorb n f s block = f s block := by
  have habsorb := absorb_append (f := f) (s := s) hblock hn []
  have hnil : absorb n f (f s block) [] = f s block := absorb_of_short hn
  rwa [List.append_nil, hnil] at habsorb

/-- A sequence of at least a block, block by block. -/
theorem induction {p : List α → Prop} (hn : 0 < n) (hshort : ∀ xs, xs.length < n → p xs)
    (hblock : ∀ block xs, block.length = n → p xs → p (block ++ xs)) (xs : List α) : p xs := by
  induction hk : xs.length using Nat.strongRecOn generalizing xs with
  | ind k ih =>
    by_cases hlt : xs.length < n
    · exact hshort xs hlt
    · have hdrop : (xs.drop n).length < k := by
        rw [List.length_drop]
        omega
      rw [← List.take_append_drop n xs]
      exact hblock _ _ (List.length_take_of_le (Nat.le_of_not_lt hlt)) (ih _ hdrop (xs.drop n) rfl)

/-- What is absorbed in two parts, the second one behind what the first one has left. -/
theorem absorb_parts (hn : 0 < n) (s : σ) (xs ys : List α) :
    absorb n f s (xs ++ ys) = absorb n f (absorb n f s xs) (rest n xs ++ ys) ∧
      rest n (xs ++ ys) = rest n (rest n xs ++ ys) := by
  induction xs using induction hn generalizing s with
  | hshort xs h =>
    rw [absorb_of_short h, rest_of_short h]
    exact ⟨rfl, rfl⟩
  | hblock block xs hlen ih =>
    obtain ⟨habsorb, hrest⟩ := ih (f s block)
    rw [List.append_assoc, absorb_append hlen hn, absorb_append hlen hn, rest_append hlen hn, rest_append hlen hn]
    exact ⟨habsorb, hrest⟩

/-- Only the whole blocks are absorbed. -/
theorem absorb_take (hn : 0 < n) (s : σ) (xs : List α) : absorb n f s (xs.take (xs.length / n * n)) = absorb n f s xs := by
  induction xs using induction hn generalizing s with
  | hshort xs h =>
    rw [Nat.div_eq_of_lt h, Nat.zero_mul, List.take_zero, absorb_of_short h, absorb_of_short hn]
  | hblock block xs hlen ih =>
    have hplace : (block ++ xs).length / n * n = block.length + xs.length / n * n := by
      rw [List.length_append, hlen, Nat.add_div_left _ hn, Nat.succ_mul, Nat.add_comm]
    rw [hplace, List.take_length_add_append, absorb_append hlen hn, absorb_append hlen hn, ih]

end Blocks

namespace SecureHash

def rotr (x : UInt32) (n : Nat) : UInt32 := ⟨x.toBitVec.rotateRight n⟩

def rotl (x : UInt32) (n : Nat) : UInt32 := ⟨x.toBitVec.rotateLeft n⟩

section

variable {k : Nat} (h0 : 0 < k) (h : k < 32)
include h

theorem count_eq : ((UInt32.ofNat k).toBitVec % 32).toNat = k := by
  change k % 2 ^ 32 % 32 = k
  omega

include h0

theorem count_rest : ((32 - UInt32.ofNat k).toBitVec % 32).toNat = 32 - k := by
  change (32 - UInt32.ofNat k).toNat % 32 = 32 - k
  rw [UInt32.toNat_sub]
  change (2 ^ 32 - k % 2 ^ 32 + 32) % 2 ^ 32 % 32 = 32 - k
  omega

/-- A rotation by shifts. -/
theorem rotr_eq (x : UInt32) : x >>> UInt32.ofNat k ||| x <<< (32 - UInt32.ofNat k) = rotr x k := by
  rw [← UInt32.toBitVec_inj, rotr, UInt32.toBitVec_or, UInt32.toBitVec_shiftRight, UInt32.toBitVec_shiftLeft,
    BitVec.rotateRight_def, Nat.mod_eq_of_lt h]
  change x.toBitVec >>> ((UInt32.ofNat k).toBitVec % 32).toNat |||
    x.toBitVec <<< ((32 - UInt32.ofNat k).toBitVec % 32).toNat = _
  rw [count_eq h, count_rest h0 h]

theorem rotl_eq (x : UInt32) : x <<< UInt32.ofNat k ||| x >>> (32 - UInt32.ofNat k) = rotl x k := by
  rw [← UInt32.toBitVec_inj, rotl, UInt32.toBitVec_or, UInt32.toBitVec_shiftRight, UInt32.toBitVec_shiftLeft,
    BitVec.rotateLeft_def, Nat.mod_eq_of_lt h]
  change x.toBitVec <<< ((UInt32.ofNat k).toBitVec % 32).toNat |||
    x.toBitVec >>> ((32 - UInt32.ofNat k).toBitVec % 32).toNat = _
  rw [count_eq h, count_rest h0 h]

end

def ch (x y z : UInt32) : UInt32 := (x &&& y) ^^^ (~~~x &&& z)

def parity (x y z : UInt32) : UInt32 := x ^^^ y ^^^ z

def maj (x y z : UInt32) : UInt32 := (x &&& y) ^^^ (x &&& z) ^^^ (y &&& z)

def bytes (x : UInt32) : List UInt8 := [(x >>> 24).toUInt8, (x >>> 16).toUInt8, (x >>> 8).toUInt8, x.toUInt8]

/-- The words of a block. -/
def words (block : List UInt8) (t : Nat) : UInt32 :=
  Words.word32 (block.getD (4 * t) 0) (block.getD (4 * t + 1) 0) (block.getD (4 * t + 2) 0) (block.getD (4 * t + 3) 0)

/-- A number of bits in eight bytes. -/
def lengthField (bits : Nat) : List UInt8 := [56, 48, 40, 32, 24, 16, 8, 0].map fun k => UInt8.ofNat (bits / 2 ^ k)

/-- What is appended to so many bytes: a bit that is set, as few zeros as possible and the length. -/
def padding (len : Nat) : List UInt8 := 0x80 :: List.replicate ((119 - len % 64) % 64) 0 ++ lengthField (8 * len)

def padded (M : List UInt8) : List UInt8 := M ++ padding M.length

theorem length_padded (M : List UInt8) : 64 ∣ (padded M).length := by
  have hlength : (padded M).length = M.length + (1 + (119 - M.length % 64) % 64 + 8) := by
    rw [padded, padding, List.length_append, List.length_append, List.length_cons, List.length_replicate]
    change _ + (_ + 8) = _
    omega
  rw [hlength]
  omega

section

variable {A B : List UInt8} {j m : Nat}

theorem words_congr (h : ∀ k, 4 * j ≤ k → k < 4 * j + 4 → A.getD k 0 = B.getD k 0) : words A j = words B j := by
  rw [words, words, h (4 * j) (Nat.le_refl _) (by omega), h (4 * j + 1) (by omega) (by omega),
    h (4 * j + 2) (by omega) (by omega), h (4 * j + 3) (by omega) (by omega)]

theorem words_behind (h : A.length ≤ 4 * j) : words A j = 0 := by
  have hnone : ∀ k, 4 * j ≤ k → A.getD k 0 = 0 := fun k hk => List.getD_eq_default A 0 (Nat.le_trans h hk)
  rw [words, hnone (4 * j) (Nat.le_refl _), hnone (4 * j + 1) (by omega), hnone (4 * j + 2) (by omega),
    hnone (4 * j + 3) (by omega)]
  rfl

/-- Zeros behind the bytes change no word. -/
theorem words_zeros (A : List UInt8) (k j : Nat) : words (A ++ List.replicate k 0) j = words A j := by
  refine words_congr fun i _ _ => ?_
  rcases Nat.lt_or_ge i A.length with hlt | hge
  · exact List.getD_append _ _ _ _ hlt
  · rw [List.getD_append_right _ _ _ _ hge, List.getD_eq_default A 0 hge, List.getD_eq_getElem?_getD,
      List.getElem?_replicate]
    split <;> rfl

/-- A block that ends with a number of bits. -/
def lastBlock (A : List UInt8) (bits : Nat) : List UInt8 :=
  A ++ List.replicate (56 - A.length) 0 ++ lengthField bits

theorem length_lastBlock (h : A.length ≤ 56) : (lastBlock A m).length = 64 := by
  rw [lastBlock, List.length_append, List.length_append, List.length_replicate]
  change _ + _ + 8 = _
  omega

theorem words_lastBlock (h : A.length ≤ 56) (hj : j < 14) : words (lastBlock A m) j = words A j := by
  rw [← words_zeros A (56 - A.length) j, lastBlock]
  refine words_congr fun k _ hk => List.getD_append _ _ _ _ ?_
  rw [List.length_append, List.length_replicate]
  omega

theorem ofNat_div (m k d : Nat) : UInt8.ofNat (m / 2 ^ (k + d)) = UInt8.ofNat (m / 2 ^ k / 2 ^ d) := by
  rw [Nat.div_div_eq_div_mul, ← Nat.pow_add]

theorem word32_ofNat (m : Nat) :
    Words.word32 (UInt8.ofNat (m / 2 ^ 24)) (UInt8.ofNat (m / 2 ^ 16)) (UInt8.ofNat (m / 2 ^ 8)) (UInt8.ofNat m) =
      UInt32.ofNat m := by
  rw [← UInt32.toNat_inj, Words.toNat_word32, UInt8.toNat_ofNat', UInt8.toNat_ofNat', UInt8.toNat_ofNat',
    UInt8.toNat_ofNat', UInt32.toNat_ofNat']
  omega

/-- The last two words are the number of bits. -/
theorem words_length (h : A.length ≤ 56) :
    words (lastBlock A m) 14 = UInt32.ofNat (m / 2 ^ 32) ∧ words (lastBlock A m) 15 = UInt32.ofNat m := by
  have hlength : (A ++ List.replicate (56 - A.length) (0 : UInt8)).length = 56 := by
    rw [List.length_append, List.length_replicate]
    omega
  have hfield : ∀ k, (lastBlock A m).getD (56 + k) 0 = (lengthField m).getD k 0 := by
    intro k
    rw [lastBlock, List.getD_append_right _ _ _ _ (by omega), hlength, Nat.add_sub_cancel_left]
  constructor
  · rw [words, hfield 0, hfield 1, hfield 2, hfield 3, ← word32_ofNat, ← ofNat_div m 32 24, ← ofNat_div m 32 16,
      ← ofNat_div m 32 8]
    rfl
  · have hlast : UInt8.ofNat m = UInt8.ofNat (m / 2 ^ 0) := by rw [Nat.pow_zero, Nat.div_one]
    rw [words, hfield 4, hfield 5, hfield 6, hfield 7, ← word32_ofNat, hlast]
    rfl

/-- The padding makes up one block with what is left of the message if the length still fits into it. -/
theorem last_block {σ : Type} {f : σ → List UInt8 → σ} (s : σ) (M : List UInt8) (hshort : M.length % 64 < 56) :
    Blocks.absorb 64 f s (padded M) =
      f (Blocks.absorb 64 f s M) (lastBlock (Blocks.rest 64 M ++ [0x80]) (8 * M.length)) := by
  have hlength : (Blocks.rest 64 M ++ [0x80]).length = M.length % 64 + 1 := by
    rw [List.length_append, Blocks.length_rest, List.length_singleton]
  have hblock : Blocks.rest 64 M ++ padding M.length = lastBlock (Blocks.rest 64 M ++ [0x80]) (8 * M.length) := by
    rw [padding, lastBlock, hlength, show (119 - M.length % 64) % 64 = 56 - (M.length % 64 + 1) by omega,
      List.append_assoc, List.append_assoc]
    rfl
  rw [padded, (Blocks.absorb_parts (by decide) s M _).1, hblock,
    Blocks.absorb_block (length_lastBlock (by omega)) (by decide)]

/-- Otherwise there is one block more. -/
theorem last_blocks {σ : Type} {f : σ → List UInt8 → σ} (s : σ) (M : List UInt8) (hlong : 56 ≤ M.length % 64) :
    Blocks.absorb 64 f s (padded M) =
      f (f (Blocks.absorb 64 f s M) (Blocks.rest 64 M ++ [0x80] ++ List.replicate (63 - M.length % 64) 0))
        (lastBlock [] (8 * M.length)) := by
  have hfirst : (Blocks.rest 64 M ++ [0x80] ++ List.replicate (63 - M.length % 64) 0).length = 64 := by
    rw [List.length_append, List.length_append, Blocks.length_rest, List.length_singleton, List.length_replicate]
    omega
  have hblocks : Blocks.rest 64 M ++ padding M.length =
      (Blocks.rest 64 M ++ [0x80] ++ List.replicate (63 - M.length % 64) 0) ++ lastBlock [] (8 * M.length) := by
    rw [padding, lastBlock, show (119 - M.length % 64) % 64 = 63 - M.length % 64 + 56 by omega, List.replicate_add,
      List.cons_append, List.append_assoc, List.append_assoc, List.append_assoc, List.append_assoc]
    rfl
  rw [padded, (Blocks.absorb_parts (by decide) s M _).1, hblocks, Blocks.absorb_append hfirst (by decide),
    Blocks.absorb_block (length_lastBlock (by decide)) (by decide)]

end

/-- The whole part of a `d`-th root, bit by bit. -/
def root (d n : Nat) : Nat → Nat → Nat
  | 0, r => r
  | k + 1, r => if (r + 2 ^ k) ^ d ≤ n then root d n k (r + 2 ^ k) else root d n k r

/-- The first bits of the fractional part of the `d`-th root of a small number. -/
def fraction (d p : Nat) : UInt32 := UInt32.ofNat (root d (p * 2 ^ (32 * d)) 40 0)

def primes : List Nat :=
  [2, 3, 5, 7, 11, 13, 17, 19, 23, 29, 31, 37, 41, 43, 47, 53, 59, 61, 67, 71, 73, 79, 83, 89, 97, 101, 103, 107, 109,
    113, 127, 131, 137, 139, 149, 151, 157, 163, 167, 173, 179, 181, 191, 193, 197, 199, 211, 223, 227, 229, 233, 239,
    241, 251, 257, 263, 269, 271, 277, 281, 283, 293, 307, 311]

namespace Sha256

def sum0 (x : UInt32) : UInt32 := rotr x 2 ^^^ rotr x 13 ^^^ rotr x 22

def sum1 (x : UInt32) : UInt32 := rotr x 6 ^^^ rotr x 11 ^^^ rotr x 25

def sigma0 (x : UInt32) : UInt32 := rotr x 7 ^^^ rotr x 18 ^^^ (x >>> 3)

def sigma1 (x : UInt32) : UInt32 := rotr x 17 ^^^ rotr x 19 ^^^ (x >>> 10)

def constant (t : Nat) : UInt32 := fraction 3 (primes.getD t 0)

/-- The message schedule. -/
def schedule (block : Nat → UInt32) (t : Nat) : UInt32 :=
  if t < 16 then block t
  else sigma1 (schedule block (t - 2)) + schedule block (t - 7) + sigma0 (schedule block (t - 15)) +
    schedule block (t - 16)

structure State where
  a : UInt32
  b : UInt32
  c : UInt32
  d : UInt32
  e : UInt32
  f : UInt32
  g : UInt32
  h : UInt32
  deriving DecidableEq, Repr

def initial : State :=
  ⟨fraction 2 2, fraction 2 3, fraction 2 5, fraction 2 7, fraction 2 11, fraction 2 13, fraction 2 17, fraction 2 19⟩

def round (k w : UInt32) (s : State) : State :=
  let t1 := s.h + sum1 s.e + ch s.e s.f s.g + k + w
  let t2 := sum0 s.a + maj s.a s.b s.c
  ⟨t1 + t2, s.a, s.b, s.c, s.d + t1, s.e, s.f, s.g⟩

def rounds (block : Nat → UInt32) (s : State) : State :=
  (List.range 64).foldl (fun s t => round (constant t) (schedule block t) s) s

def compress (s : State) (block : Nat → UInt32) : State :=
  let s' := rounds block s
  ⟨s.a + s'.a, s.b + s'.b, s.c + s'.c, s.d + s'.d, s.e + s'.e, s.f + s'.f, s.g + s'.g, s.h + s'.h⟩

def State.bytes (s : State) : List UInt8 := [s.a, s.b, s.c, s.d, s.e, s.f, s.g, s.h].flatMap SecureHash.bytes

def absorb (s : State) (M : List UInt8) : State := Blocks.absorb 64 (fun s block => compress s (words block)) s M

def digest (M : List UInt8) : List UInt8 := (absorb initial (padded M)).bytes

end Sha256

namespace Sha1

def func (t : Nat) : UInt32 → UInt32 → UInt32 → UInt32 :=
  if t < 20 then ch else if t < 40 then parity else if t < 60 then maj else parity

def constant (t : Nat) : UInt32 :=
  if t < 20 then 0x5a827999 else if t < 40 then 0x6ed9eba1 else if t < 60 then 0x8f1bbcdc else 0xca62c1d6

def schedule (block : Nat → UInt32) (t : Nat) : UInt32 :=
  if t < 16 then block t
  else rotl (schedule block (t - 3) ^^^ schedule block (t - 8) ^^^ schedule block (t - 14) ^^^ schedule block (t - 16)) 1

structure State where
  a : UInt32
  b : UInt32
  c : UInt32
  d : UInt32
  e : UInt32
  deriving DecidableEq, Repr

def initial : State := ⟨0x67452301, 0xefcdab89, 0x98badcfe, 0x10325476, 0xc3d2e1f0⟩

def round (f : UInt32 → UInt32 → UInt32 → UInt32) (k w : UInt32) (s : State) : State :=
  ⟨rotl s.a 5 + f s.b s.c s.d + s.e + k + w, s.a, rotl s.b 30, s.c, s.d⟩

def rounds (block : Nat → UInt32) (s : State) : State :=
  (List.range 80).foldl (fun s t => round (func t) (constant t) (schedule block t) s) s

def compress (s : State) (block : Nat → UInt32) : State :=
  let s' := rounds block s
  ⟨s.a + s'.a, s.b + s'.b, s.c + s'.c, s.d + s'.d, s.e + s'.e⟩

def State.bytes (s : State) : List UInt8 := [s.a, s.b, s.c, s.d, s.e].flatMap SecureHash.bytes

def absorb (s : State) (M : List UInt8) : State := Blocks.absorb 64 (fun s block => compress s (words block)) s M

def digest (M : List UInt8) : List UInt8 := (absorb initial (padded M)).bytes

end Sha1

section

variable {N : Nat} {f : Vector UInt32 N → Nat → UInt32} {w : Vector UInt32 N} {W : Nat → UInt32} {i j n : Nat}

theorem getD_set (w : Vector UInt32 N) (h : i < N) (x : UInt32) (j : Nat) :
    (w.setIfInBounds i x).getD j 0 = if i = j then x else w.getD j 0 := by
  have hget : ∀ v : Vector UInt32 N, v.getD j 0 = v[j]?.getD 0 := by
    intro v
    rw [Vector.getD, Array.getD_eq_getD_getElem?, Vector.getElem?_toArray]
  rw [hget, hget, Vector.getElem?_setIfInBounds]
  by_cases heq : i = j
  · rw [if_pos heq, if_pos heq, if_pos h]
    rfl
  · rw [if_neg heq, if_neg heq]

/-- The words from `i` on are set one after the other, each from the ones before. -/
def fill (f : Vector UInt32 N → Nat → UInt32) (i n : Nat) (w : Vector UInt32 N) : Vector UInt32 N :=
  (List.range' i n).foldl (fun w i => w.setIfInBounds i (f w i)) w

theorem fill_eq (hN : i + n ≤ N) (h : ∀ j < i, w.getD j 0 = W j)
    (hf : ∀ (w : Vector UInt32 N) j, i ≤ j → j < i + n → (∀ k < j, w.getD k 0 = W k) → f w j = W j) :
    ∀ j < i + n, (fill f i n w).getD j 0 = W j := by
  induction n generalizing i w with
  | zero => exact h
  | succ n ih =>
    have hnext : ∀ j < i + 1, (w.setIfInBounds i (f w i)).getD j 0 = W j := by
      intro j hj
      rw [getD_set w (by omega)]
      by_cases heq : i = j
      · subst heq
        rw [if_pos rfl]
        exact hf w i (Nat.le_refl i) (by omega) h
      · rw [if_neg heq]
        exact h j (by omega)
    intro j hj
    exact ih (by omega) hnext (fun w j hle hlt => hf w j (by omega) (by omega)) j (by omega)

end

end SecureHash
