import Crack.Lang.Appending
import Crack.Lib.SecureHash

/-!
# SHA1

The blocks are hashed where they are in the buffer. The last one or two are put together in the round buffer.
-/
namespace Crack

/-- `_rol` -/
def rol (value steps : UInt32) : UInt32 := value <<< steps ||| value >>> (32 - steps)

/-- The variables of `innerHash`, with the round buffer. -/
structure Sha1Rounds where
  a : UInt32
  b : UInt32
  c : UInt32
  d : UInt32
  e : UInt32
  w : Vector UInt32 80

namespace Sha1Rounds

variable (r : Sha1Rounds)

def sha1macro (func val : UInt32) (round : Nat) : Sha1Rounds :=
  let t := rol r.a 5 + func + r.e + val + r.w.getD round 0
  { r with e := r.d, d := r.c, c := rol r.b 30, b := r.a, a := t }

/-- A round whose word is there already. -/
def plain (func : UInt32 → UInt32 → UInt32 → UInt32) (val : UInt32) (r : Sha1Rounds) (round : Nat) : Sha1Rounds :=
  r.sha1macro (func r.b r.c r.d) val round

/-- A word behind the first 16 ones. -/
def word (w : Vector UInt32 80) (round : Nat) : UInt32 :=
  rol (w.getD (round - 3) 0 ^^^ w.getD (round - 8) 0 ^^^ w.getD (round - 14) 0 ^^^ w.getD (round - 16) 0) 1

/-- A round that first sets its word. -/
def extended (func : UInt32 → UInt32 → UInt32 → UInt32) (val : UInt32) (r : Sha1Rounds) (round : Nat) : Sha1Rounds :=
  let r := { r with w := r.w.setIfInBounds round (word r.w round) }
  r.sha1macro (func r.b r.c r.d) val round

/-- All of the loops. -/
def loops : Sha1Rounds :=
  let r := (List.range' 0 16).foldl (plain (fun b c d => (b &&& c) ||| (~~~b &&& d)) 0x5a827999) r
  let r := (List.range' 16 4).foldl (extended (fun b c d => (b &&& c) ||| (~~~b &&& d)) 0x5a827999) r
  let r := (List.range' 20 20).foldl (extended (fun b c d => b ^^^ c ^^^ d) 0x6ed9eba1) r
  let r := (List.range' 40 20).foldl (extended (fun b c d => (b &&& c) ||| (b &&& d) ||| (c &&& d)) 0x8f1bbcdc) r
  (List.range' 60 20).foldl (extended (fun b c d => b ^^^ c ^^^ d) 0xca62c1d6) r

end Sha1Rounds

def innerHash (result : Vector UInt32 5) (w : Vector UInt32 80) : Vector UInt32 5 × Vector UInt32 80 :=
  let r := Sha1Rounds.loops ⟨result[0], result[1], result[2], result[3], result[4], w⟩
  (#v[result[0] + r.a, result[1] + r.b, result[2] + r.c, result[3] + r.d, result[4] + r.e], r.w)

/-- `σ` is what is hashed to; `innerHash` is a parameter, so that the blocks it gets can be looked at. A `null` buffer is
`none`. -/
structure SHA1 (σ : Type) where
  src : Option ManagedBuffer
  result : σ
  w : Vector UInt32 80
  totalSize : UInt32

namespace SHA1

section

variable {σ : Type} (innerHash : σ → Vector UInt32 80 → σ × Vector UInt32 80)

def init (result : σ) : SHA1 σ := ⟨some (.init 1024), result, .replicate 80 0, 0⟩

/-- A word of the block. -/
def blockWord (sarray : List UInt8) (currentBlock : Nat) : UInt32 :=
  (sarray.getD (currentBlock + 3) 0).toUInt32 ||| (sarray.getD (currentBlock + 2) 0).toUInt32 <<< 8 |||
    (sarray.getD (currentBlock + 1) 0).toUInt32 <<< 16 ||| (sarray.getD currentBlock 0).toUInt32 <<< 24

/-- The inner loop. -/
def loadBlock (sarray : List UInt8) (currentBlock : Nat) (w : Vector UInt32 80) : Vector UInt32 80 :=
  (List.range' 0 16).foldl
    (fun w roundPos => w.setIfInBounds roundPos (blockWord sarray (currentBlock + 4 * roundPos))) w

def hashBlock (s : SHA1 σ) (sarray : List UInt8) (currentBlock : Nat) : SHA1 σ :=
  let (result, w) := innerHash s.result (loadBlock sarray currentBlock s.w)
  { s with result, w }

/-- The outer loop. Its end is an `int` and may be negative. -/
def hashBlocks (sarray : List UInt8) (endOfFullBlocks : Int) (currentBlock : Nat) (s : SHA1 σ) : SHA1 σ :=
  if currentBlock < endOfFullBlocks then
    hashBlocks sarray endOfFullBlocks (currentBlock + 64) (s.hashBlock innerHash sarray currentBlock)
  else s
termination_by (endOfFullBlocks - currentBlock).toNat

/-- `__processBuffer`, where `compact` moves less than 2 ^ 31 bytes -/
def processBuffer (s : SHA1 σ) (src : ManagedBuffer) : Except Stop (SHA1 σ) := do
  let endOfFullBlocks := (UInt32.ofNat src.size &&& ~~~0x3F).toInt32
  let s := hashBlocks innerHash src.mem endOfFullBlocks.toInt 0 s
  let src ← src.compact endOfFullBlocks.toUInt32.toNat
  return { s with src := some src, totalSize := s.totalSize + endOfFullBlocks.toUInt32 }

def update (s : SHA1 σ) (buf : List UInt8) : Except Stop (SHA1 σ) :=
  match s.src with
  | none => .error (.thrown "Last block has already been processsed.")
  | some src => do
    let src ← src.extend buf
    s.processBuffer innerHash src

/-- `_clearWBuffert` -/
def clearWBuffert (w : Vector UInt32 80) : Vector UInt32 80 :=
  (List.range' 0 16).foldl (fun w pos => w.setIfInBounds pos 0) w

/-- A byte goes to its place in a word. -/
def orByte (w : Vector UInt32 80) (lastBlockBytes : Nat) (c : UInt8) : Vector UInt32 80 :=
  let wi := lastBlockBytes / 4
  w.setIfInBounds wi (w.getD wi 0 ||| c.toUInt32 <<< ((3 - (UInt32.ofNat lastBlockBytes &&& 3)) <<< 3))

/-- The words of the bytes that are left, with a bit behind them. -/
def lastWords (sarray : List UInt8) (w : Vector UInt32 80) : Vector UInt32 80 :=
  let w := clearWBuffert w
  let w := (List.range sarray.length).foldl (fun w i => orByte w i (sarray.getD i 0)) w
  orByte w sarray.length 0x80

/-- `__finish`, up to the result. -/
def finish (s : SHA1 σ) (src : ManagedBuffer) : SHA1 σ :=
  let totalSize := s.totalSize + UInt32.ofNat src.size
  let w := lastWords src.data s.w
  let (result, w) :=
    if src.size ≥ 56 then
      let (result, w) := innerHash s.result w
      (result, clearWBuffert w)
    else (s.result, w)
  let w := w.setIfInBounds 15 (totalSize <<< 3)
  let (result, w) := innerHash result w
  ⟨none, result, w, totalSize⟩

/-- All updates, and what has been hashed at the end. -/
def run (s : SHA1 σ) : List (List UInt8) → Except Stop (SHA1 σ)
  | [] => .ok s
  | buf :: bufs => do
    let s ← s.update innerHash buf
    run s bufs

def finished (result : σ) (bufs : List (List UInt8)) : Except Stop σ := do
  let s ← (init result).run innerHash bufs
  match s.src with
  | none => return s.result
  | some src => return (s.finish innerHash src).result

end

/-- The bytes that `__finish` stores from the result. -/
def hashBytes (result : Vector UInt32 5) : List UInt8 :=
  (List.range 20).map fun hashByte =>
    ((result.getD (hashByte / 4) 0 >>> (((3 - UInt32.ofNat hashByte) &&& 3) <<< 3)) &&& 0xff).toUInt8

def initResult : Vector UInt32 5 := #v[0x67452301, 0xefcdab89, 0x98badcfe, 0x10325476, 0xc3d2e1f0]

def digest (bufs : List (List UInt8)) : Except Stop (List UInt8) := do
  let result ← finished innerHash initResult bufs
  return hashBytes result

def Hashes (bufs : List (List UInt8)) : Prop := digest bufs = .ok (SecureHash.Sha1.digest bufs.flatten)

/-- The first words of a round buffer. -/
def blockWords (w : Vector UInt32 80) : List UInt32 := (List.range 16).map fun i => w.getD i 0

/-- Instead of hashing the blocks, it keeps their words. -/
def record (blocks : List (List UInt32)) (w : Vector UInt32 80) : List (List UInt32) × Vector UInt32 80 :=
  (blocks ++ [blockWords w], w)

/-- The blocks that are hashed are those of the padded message. -/
def HashesBlocks (bufs : List (List UInt8)) : Prop :=
  finished record [] bufs = .ok ((Blocks.blocks 64 (SecureHash.padded bufs.flatten)).map fun block =>
    (List.range 16).map (SecureHash.words block))

open SecureHash (words rotl)
open SecureHash.Sha1 (State schedule compress)

theorem rol_eq (x : UInt32) {k : Nat} (h0 : 0 < k) (h : k < 32) : rol x (UInt32.ofNat k) = rotl x k :=
  SecureHash.rotl_eq h0 h x

theorem choose_eq (x y z : UInt32) : (x &&& y) ||| (~~~x &&& z) = SecureHash.ch x y z := by
  rw [SecureHash.ch, ← UInt32.toBitVec_inj]
  refine BitVec.eq_of_getLsbD_eq fun i hi => ?_
  simp only [UInt32.toBitVec_or, UInt32.toBitVec_xor, UInt32.toBitVec_and, UInt32.toBitVec_not, BitVec.getLsbD_or,
    BitVec.getLsbD_xor, BitVec.getLsbD_and, BitVec.getLsbD_not]
  cases x.toBitVec.getLsbD i <;> simp

theorem majority_eq (x y z : UInt32) : (x &&& y) ||| (x &&& z) ||| (y &&& z) = SecureHash.maj x y z := by
  rw [SecureHash.maj, ← UInt32.toBitVec_inj]
  refine BitVec.eq_of_getLsbD_eq fun i hi => ?_
  simp only [UInt32.toBitVec_or, UInt32.toBitVec_xor, UInt32.toBitVec_and, BitVec.getLsbD_or, BitVec.getLsbD_xor,
    BitVec.getLsbD_and]
  cases x.toBitVec.getLsbD i <;> cases y.toBitVec.getLsbD i <;> simp

theorem schedule_before (block : Nat → UInt32) {i : Nat} (h : i < 16) : schedule block i = block i := by
  rw [schedule, if_pos h]

theorem schedule_behind (block : Nat → UInt32) {i : Nat} (h : 16 ≤ i) :
    schedule block i = rotl (schedule block (i - 3) ^^^ schedule block (i - 8) ^^^ schedule block (i - 14) ^^^
      schedule block (i - 16)) 1 := by
  rw [schedule, if_neg (Nat.not_lt_of_le h)]

def rounds (r : Sha1Rounds) : State := ⟨r.a, r.b, r.c, r.d, r.e⟩

variable {block : Nat → UInt32} {r : Sha1Rounds} {i n : Nat} {f : UInt32 → UInt32 → UInt32 → UInt32} {k : UInt32}

/-- The words up to `n` are in the round buffer. -/
def Extended (block : Nat → UInt32) (w : Vector UInt32 80) (n : Nat) : Prop := ∀ j < n, w.getD j 0 = schedule block j

theorem sha1macro_eq (r : Sha1Rounds) {func k : UInt32} (hfunc : func = f r.b r.c r.d)
    (hw : r.w.getD i 0 = schedule block i) :
    rounds (r.sha1macro func k i) = SecureHash.Sha1.round f k (schedule block i) (rounds r) := by
  rw [Sha1Rounds.sha1macro, SecureHash.Sha1.round, ← hw, hfunc]
  dsimp only [rounds]
  rw [← rol_eq r.a (k := 5) (by decide) (by decide), ← rol_eq r.b (k := 30) (by decide) (by decide)]
  rfl

/-- The rounds whose words are there already. -/
theorem plain_rounds {func f : UInt32 → UInt32 → UInt32 → UInt32} (hfunc : ∀ x y z, func x y z = f x y z)
    (l : List Nat) (hl : ∀ i ∈ l, i < 16) (hw : Extended block r.w 16) :
    rounds (l.foldl (Sha1Rounds.plain func k) r) =
        l.foldl (fun s t => SecureHash.Sha1.round f k (schedule block t) s) (rounds r) ∧
      (l.foldl (Sha1Rounds.plain func k) r).w = r.w := by
  induction l generalizing r with
  | nil => exact ⟨rfl, rfl⟩
  | cons i l ih =>
    have hround : rounds (Sha1Rounds.plain func k r i) = SecureHash.Sha1.round f k (schedule block i) (rounds r) :=
      sha1macro_eq r (hfunc _ _ _) (hw i (hl i List.mem_cons_self))
    rw [List.foldl_cons, List.foldl_cons, ← hround]
    exact ih (r := Sha1Rounds.plain func k r i) (fun j hj => hl j (List.mem_cons_of_mem i hj)) hw

/-- The rounds that set their words. -/
theorem extended_rounds {func f : UInt32 → UInt32 → UInt32 → UInt32} (hfunc : ∀ x y z, func x y z = f x y z)
    (hi : 16 ≤ i) (hn : i + n ≤ 80) (hw : Extended block r.w i) :
    rounds ((List.range' i n).foldl (Sha1Rounds.extended func k) r) =
        (List.range' i n).foldl (fun s t => SecureHash.Sha1.round f k (schedule block t) s) (rounds r) ∧
      Extended block ((List.range' i n).foldl (Sha1Rounds.extended func k) r).w (i + n) := by
  induction n generalizing i r with
  | zero => exact ⟨rfl, hw⟩
  | succ n ih =>
    have hword : Sha1Rounds.word r.w i = schedule block i := by
      rw [Sha1Rounds.word, hw (i - 3) (by omega), hw (i - 8) (by omega), hw (i - 14) (by omega),
        hw (i - 16) (by omega), schedule_behind block hi]
      exact rol_eq _ (by decide) (by decide)
    have hset : Extended block (r.w.setIfInBounds i (Sha1Rounds.word r.w i)) (i + 1) := by
      intro j hj
      rw [SecureHash.getD_set r.w (by omega)]
      by_cases heq : i = j
      · rw [if_pos heq, hword, heq]
      · rw [if_neg heq]
        exact hw j (by omega)
    obtain ⟨hrounds, hw'⟩ := ih (r := Sha1Rounds.extended func k r i) (i := i + 1) (by omega) (by omega) hset
    have hround : rounds (Sha1Rounds.extended func k r i) =
        SecureHash.Sha1.round f k (schedule block i) (rounds r) := by
      rw [Sha1Rounds.extended]
      exact sha1macro_eq { r with w := r.w.setIfInBounds i (Sha1Rounds.word r.w i) } (hfunc _ _ _)
        (hset i (Nat.lt_succ_self i))
    rw [Nat.add_right_comm] at hw'
    rw [List.range'_succ, List.foldl_cons, List.foldl_cons, ← hround]
    exact ⟨hrounds, hw'⟩

/-- The rounds in which the function and the constant are the same. -/
theorem spec_rounds (l : List Nat) (hl : ∀ t ∈ l, SecureHash.Sha1.func t = f ∧ SecureHash.Sha1.constant t = k)
    (s : State) :
    l.foldl (fun s t => SecureHash.Sha1.round (SecureHash.Sha1.func t) (SecureHash.Sha1.constant t) (schedule block t) s)
      s = l.foldl (fun s t => SecureHash.Sha1.round f k (schedule block t) s) s := by
  induction l generalizing s with
  | nil => rfl
  | cons t l ih =>
    obtain ⟨hf, hk⟩ := hl t List.mem_cons_self
    rw [List.foldl_cons, List.foldl_cons, ih fun t' ht' => hl t' (List.mem_cons_of_mem t ht'), hf, hk]

/-- A part of the rounds in which the function and the constant stay the same. -/
theorem part_eq {s s' : State}
    (hpart : ∀ t ∈ List.range' i n, SecureHash.Sha1.func t = f ∧ SecureHash.Sha1.constant t = k)
    (h : s' = (List.range' i n).foldl (fun s t => SecureHash.Sha1.round f k (schedule block t) s) s) :
    (List.range' i n).foldl (fun s t =>
      SecureHash.Sha1.round (SecureHash.Sha1.func t) (SecureHash.Sha1.constant t) (schedule block t) s) s = s' := by
  rw [spec_rounds _ hpart, h]

/-- The loops are the rounds, which use one function and one constant in each of four parts. -/
theorem loops_eq (hw : ∀ j < 16, r.w.getD j 0 = block j) : rounds r.loops = SecureHash.Sha1.rounds block (rounds r) := by
  have hw₀ : Extended block r.w 16 := by
    intro j hj
    rw [hw j hj, schedule_before block hj]
  obtain ⟨h₁, hw₁⟩ := plain_rounds (k := 0x5a827999) choose_eq (List.range' 0 16)
    (fun i hi => (List.mem_range'_1.mp hi).2) hw₀
  rw [← hw₁] at hw₀
  obtain ⟨h₂, hw₂⟩ := extended_rounds (i := 16) (n := 4) (k := 0x5a827999) choose_eq (Nat.le_refl 16) (by decide) hw₀
  obtain ⟨h₃, hw₃⟩ := extended_rounds (i := 20) (n := 20) (k := 0x6ed9eba1)
    (f := SecureHash.parity) (fun _ _ _ => rfl) (by decide) (by decide) hw₂
  obtain ⟨h₄, hw₄⟩ := extended_rounds (i := 40) (n := 20) (k := 0x8f1bbcdc) majority_eq (by decide) (by decide) hw₃
  obtain ⟨h₅, -⟩ := extended_rounds (i := 60) (n := 20) (k := 0xca62c1d6)
    (f := SecureHash.parity) (fun _ _ _ => rfl) (by decide) (by decide) hw₄
  have hparts : List.range 80 =
      List.range' 0 16 ++ List.range' 16 4 ++ List.range' 20 20 ++ List.range' 40 20 ++ List.range' 60 20 := by decide
  rw [SecureHash.Sha1.rounds, hparts, List.foldl_append, List.foldl_append, List.foldl_append, List.foldl_append,
    part_eq ?_ h₁, part_eq ?_ h₂, part_eq ?_ h₃, part_eq ?_ h₄, part_eq ?_ h₅]
  · rfl
  all_goals
    intro t ht
    have hrange := List.mem_range'_1.mp ht
    rw [SecureHash.Sha1.func, SecureHash.Sha1.constant]
    simp (disch := omega) only [if_pos, if_neg, and_self]

def resultState (result : Vector UInt32 5) : State := ⟨result[0], result[1], result[2], result[3], result[4]⟩

theorem innerHash_eq (result : Vector UInt32 5) {w : Vector UInt32 80} (hw : ∀ j < 16, w.getD j 0 = block j) :
    resultState (innerHash result w).1 = compress (resultState result) block := by
  have hloops := loops_eq (r := ⟨result[0], result[1], result[2], result[3], result[4], w⟩) hw
  rw [compress, show resultState result = rounds ⟨result[0], result[1], result[2], result[3], result[4], w⟩ from rfl,
    ← hloops]
  rfl

section

variable {σ τ : Type} {innerHash : σ → Vector UInt32 80 → σ × Vector UInt32 80} {view : σ → τ}
  {g : τ → (Nat → UInt32) → τ} {w : Vector UInt32 80} {s : SHA1 σ} {A D M buf : List UInt8} {e j : Nat}

/-- What is seen of the result after a block depends on the words of the block. -/
def Reads (innerHash : σ → Vector UInt32 80 → σ × Vector UInt32 80) (view : σ → τ) (g : τ → (Nat → UInt32) → τ) : Prop :=
  ∀ result w block, (∀ j < 16, w.getD j 0 = block j) → view (innerHash result w).1 = g (view result) block

/-- What is seen of the result after all whole blocks of `M`. -/
def absorbed (g : τ → (Nat → UInt32) → τ) (t : τ) (M : List UInt8) : τ :=
  Blocks.absorb 64 (fun t block => g t (words block)) t M

theorem blockWord_eq (sarray : List UInt8) (currentBlock : Nat) (h : j < 16) :
    blockWord sarray (currentBlock + 4 * j) = words ((sarray.drop currentBlock).take 64) j := by
  have hget : ∀ k < 64, ((sarray.drop currentBlock).take 64).getD k 0 = sarray.getD (currentBlock + k) 0 := by
    intro k hk
    rw [List.getD_eq_getElem?_getD, List.getElem?_take_of_lt hk, List.getElem?_drop, ← List.getD_eq_getElem?_getD]
  rw [blockWord, words, Words.word32, hget (4 * j) (by omega), hget (4 * j + 1) (by omega), hget (4 * j + 2) (by omega),
    hget (4 * j + 3) (by omega), Nat.add_assoc, Nat.add_assoc, Nat.add_assoc]
  generalize (sarray.getD (currentBlock + 4 * j) 0).toUInt32 <<< 24 = a
  generalize (sarray.getD (currentBlock + (4 * j + 1)) 0).toUInt32 <<< 16 = b
  generalize (sarray.getD (currentBlock + (4 * j + 2)) 0).toUInt32 <<< 8 = c
  generalize (sarray.getD (currentBlock + (4 * j + 3)) 0).toUInt32 = d
  calc d ||| c ||| b ||| a = a ||| (b ||| (d ||| c)) := by rw [UInt32.or_comm, UInt32.or_comm (d ||| c)]
    _ = a ||| b ||| c ||| d := by rw [UInt32.or_comm d, ← UInt32.or_assoc, ← UInt32.or_assoc]

theorem loadBlock_eq (sarray : List UInt8) (currentBlock : Nat) (w : Vector UInt32 80) :
    ∀ j < 16, (loadBlock sarray currentBlock w).getD j 0 = words ((sarray.drop currentBlock).take 64) j :=
  SecureHash.fill_eq (f := fun _ i => blockWord sarray (currentBlock + 4 * i)) (i := 0) (n := 16) (by decide)
    (fun j hj => absurd hj (Nat.not_lt_zero j)) fun _ _ _ hj _ => blockWord_eq _ _ (by omega)

/-- The loop hashes the blocks up to its end. -/
theorem hashBlocks_eq (hreads : Reads innerHash view g) {sarray : List UInt8} (hend : e ≤ sarray.length) {n : Nat}
    (hn : j + 64 * n = e) (s : SHA1 σ) :
    view (hashBlocks innerHash sarray e j s).result = absorbed g (view s.result) ((sarray.take e).drop j) ∧
      (hashBlocks innerHash sarray e j s).totalSize = s.totalSize := by
  induction n generalizing j s with
  | zero =>
    rw [hashBlocks, if_neg (by omega), List.drop_eq_nil_of_le (by rw [List.length_take]; omega), absorbed,
      Blocks.absorb_of_short (by decide)]
    exact ⟨rfl, rfl⟩
  | succ n ih =>
    obtain ⟨hview, htotal⟩ := ih (j := j + 64) (by omega) (s.hashBlock innerHash sarray j)
    have hblock : ((sarray.drop j).take 64).length = 64 :=
      List.length_take_of_le (by rw [List.length_drop]; omega)
    have hsplit : (sarray.take e).drop j = (sarray.drop j).take 64 ++ (sarray.take e).drop (j + 64) := by
      rw [← List.drop_drop, List.drop_take, ← Nat.min_eq_left (show 64 ≤ e - j by omega), ← List.take_take,
        Nat.min_eq_left (by omega), List.take_append_drop]
    have hresult : view (s.hashBlock innerHash sarray j).result =
        g (view s.result) (words ((sarray.drop j).take 64)) := hreads _ _ _ (loadBlock_eq sarray j s.w)
    rw [hashBlocks, if_pos (by omega), hview, hresult, hsplit]
    exact ⟨(Blocks.absorb_append hblock (by decide) _).symm, htotal⟩

theorem endOfFullBlocks_eq {size : Nat} (h : size < 2 ^ 32) :
    (UInt32.ofNat size &&& ~~~0x3F).toNat = size / 64 * 64 := by
  have hbits : (UInt32.ofNat size &&& ~~~0x3F).toNat = size &&& 0xFFFFFFC0 := by
    rw [UInt32.toNat_and, UInt32.toNat_ofNat', Nat.mod_eq_of_lt h]
    rfl
  have hmask : ∀ i < 32, Nat.testBit 0xFFFFFFC0 i = decide (6 ≤ i) := by decide
  have hshift : size / 64 * 64 = size >>> 6 <<< 6 := by rw [Nat.shiftLeft_eq, Nat.shiftRight_eq_div_pow]
  rw [hbits, hshift]
  refine Nat.eq_of_testBit_eq fun i => ?_
  rw [Nat.testBit_and, Nat.testBit_shiftLeft, Nat.testBit_shiftRight]
  by_cases hi : i < 32
  · rw [hmask i hi]
    by_cases hle : 6 ≤ i
    · rw [Nat.add_sub_cancel' hle, Bool.and_comm]
    · rw [decide_eq_false hle, Bool.and_false, Bool.false_and]
  · have hsize : ∀ k, 32 ≤ k → size.testBit k = false := fun k hk =>
      Nat.testBit_lt_two_pow (Nat.lt_of_lt_of_le h (Nat.pow_le_pow_right (by decide) hk))
    rw [hsize i (by omega), Nat.add_sub_cancel' (by omega), hsize i (by omega), Bool.false_and, Bool.and_false]

theorem toInt_of_lt {x : UInt32} (h : x.toNat < 2 ^ 31) : x.toInt32.toInt = x.toNat := by
  change x.toBitVec.toInt = _
  rw [BitVec.toInt_eq_toNat_of_lt]
  · rfl
  · change 2 * x.toNat < 2 ^ 32
    omega

/-- What is known of the object when `M` has been hashed. -/
structure Absorbed (view : σ → τ) (g : τ → (Nat → UInt32) → τ) (t : τ) (s : SHA1 σ) (M : List UInt8) : Prop where
  src : ∃ b, s.src = some b ∧ b.Sound ∧ b.data = Blocks.rest 64 M
  result : view s.result = absorbed g t M
  total : s.totalSize = UInt32.ofNat (M.length / 64 * 64)

theorem absorbed_init (result : σ) : Absorbed view g (view result) (init result) [] :=
  ⟨⟨.init 1024, rfl, ManagedBuffer.sound_init (by decide), rfl⟩, rfl, rfl⟩

/-- The update hashes the whole blocks. -/
theorem update_ok {t : τ} (hreads : Reads innerHash view g) (h : Absorbed view g t s M)
    (hfits : M.length % 64 + buf.length < 2 ^ 31) :
    ∃ s', s.update innerHash buf = .ok s' ∧ Absorbed view g t s' (M ++ buf) := by
  obtain ⟨⟨b, hsrc, hsound, hrest⟩, hresult, htotal⟩ := h
  have hsize : b.size = M.length % 64 := by
    rw [← ManagedBuffer.length_data hsound.1, hrest, Blocks.length_rest]
  obtain ⟨b₁, hextend, hsize₁, -⟩ := @ManagedBuffer.extend_ok b buf hsound.1 (.inl (by omega)) (by omega)
  obtain ⟨hsound₁, hdata₁⟩ := (ManagedBuffer.appends_extend buf).only b b₁ hsound hextend
  have hend : (UInt32.ofNat b₁.size &&& ~~~0x3F).toNat = b₁.size / 64 * 64 := endOfFullBlocks_eq (by omega)
  have hint : (UInt32.ofNat b₁.size &&& ~~~0x3F).toInt32.toInt = (b₁.size / 64 * 64 : Nat) := by
    rw [toInt_of_lt (by omega), hend]
  obtain ⟨b₂, hcompact, hsize₂, hcap₂, hdata₂⟩ :=
    @ManagedBuffer.compact_ok b₁ (b₁.size / 64 * 64) (by omega) hsound₁.1 (.inl (by omega)) (by omega)
  have hsound₂ : b₂.Sound := ⟨by rw [hsize₂, hcap₂]; exact Nat.le_trans (Nat.sub_le _ _) hsound₁.1, hcap₂ ▸ hsound₁.2⟩
  obtain ⟨hview, htotal'⟩ := hashBlocks_eq hreads (e := b₁.size / 64 * 64) (j := 0)
    (n := b₁.size / 64) (Nat.le_trans (by omega) hsound₁.1) (by omega) s
  obtain ⟨habsorb, hrests⟩ := Blocks.absorb_parts (n := 64) (f := fun t block => g t (words block)) (by decide) t M buf
  refine ⟨{ hashBlocks innerHash b₁.mem (b₁.size / 64 * 64 : Nat) 0 s with
    src := some b₂, totalSize := s.totalSize + UInt32.ofNat (b₁.size / 64 * 64) }, ?_, ⟨b₂, rfl, hsound₂, ?_⟩, ?_, ?_⟩
  · have hadd : UInt32.ofNat b₁.size &&& ~~~0x3F = UInt32.ofNat (b₁.size / 64 * 64) := by
      rw [← hend, UInt32.ofNat_toNat]
    rw [update, hsrc]
    dsimp only [bind, Except.bind]
    rw [hextend]
    dsimp only
    rw [processBuffer, UInt32.toUInt32_toInt32, hint, hend, hcompact, ← htotal', hadd]
    rfl
  · rw [hdata₂, hrests, ← hrest, ← hdata₁, Blocks.rest, ManagedBuffer.length_data hsound₁.1]
  · have hblocks : b₁.mem.take (b₁.size / 64 * 64) = b₁.data.take (b₁.data.length / 64 * 64) := by
      rw [ManagedBuffer.length_data hsound₁.1, ManagedBuffer.data, List.take_take, Nat.min_eq_left (by omega)]
    dsimp only
    rw [hview, List.drop_zero, hblocks, absorbed, Blocks.absorb_take (by decide), hdata₁, hrest, hresult]
    exact habsorb.symm
  · dsimp only
    rw [htotal, ← UInt32.ofNat_add, List.length_append]
    congr 1
    omega

/-- The calls of `update`. -/
theorem run_ok {t : τ} {bufs : List (List UInt8)} (hreads : Reads innerHash view g) (h : Absorbed view g t s M)
    (hfits : M.length + bufs.flatten.length < 2 ^ 31) :
    ∃ s', s.run innerHash bufs = .ok s' ∧ Absorbed view g t s' (M ++ bufs.flatten) := by
  induction bufs generalizing s M with
  | nil => exact ⟨s, rfl, by rwa [List.flatten_nil, List.append_nil]⟩
  | cons buf bufs ih =>
    rw [List.flatten_cons, List.length_append] at hfits
    obtain ⟨s₁, hupdate, h₁⟩ := @update_ok _ _ _ _ _ _ _ buf _ hreads h (by omega)
    obtain ⟨s', hrun, h'⟩ := ih h₁ (by rw [List.length_append]; omega)
    refine ⟨s', ?_, ?_⟩
    · rw [run, hupdate]
      exact hrun
    · rwa [List.flatten_cons, ← List.append_assoc]

theorem clearWBuffert_eq (w : Vector UInt32 80) : ∀ j < 16, (clearWBuffert w).getD j 0 = words [] j := by
  intro j hj
  rw [SecureHash.words_behind (Nat.zero_le _)]
  exact SecureHash.fill_eq (f := fun _ _ => 0) (i := 0) (n := 16) (W := fun _ => 0) (by decide)
    (fun j hj => absurd hj (Nat.not_lt_zero j)) (fun _ _ _ _ _ => rfl) j (by omega)

theorem shift_eq : ∀ i < 64, (3 - (UInt32.ofNat i &&& 3)) <<< 3 = UInt32.ofNat (8 * (3 - i % 4)) := by decide

/-- A byte goes to its place in its word. -/
theorem words_snoc (A : List UInt8) (c : UInt8) (j : Nat) :
    words (A ++ [c]) j =
      if A.length / 4 = j then words A j ||| c.toUInt32 <<< UInt32.ofNat (8 * (3 - A.length % 4)) else words A j := by
  have hget : ∀ k, (A ++ [c]).getD k 0 = if k = A.length then c else A.getD k 0 := by
    intro k
    rcases Nat.lt_trichotomy k A.length with hlt | rfl | hgt
    · rw [if_neg (Nat.ne_of_lt hlt), List.getD_append _ _ _ _ hlt]
    · rw [if_pos rfl, List.getD_append_right _ _ _ _ (Nat.le_refl _), Nat.sub_self]
      rfl
    · rw [if_neg (Nat.ne_of_gt hgt), List.getD_eq_default A 0 (Nat.le_of_lt hgt), List.getD_eq_default]
      rw [List.length_append]
      exact hgt
  have hnone : ∀ k, A.length ≤ k → A.getD k 0 = 0 := fun k hk => List.getD_eq_default A 0 hk
  rw [words, words, hget, hget, hget, hget]
  by_cases hj : A.length / 4 = j
  · obtain h | h | h | h : A.length = 4 * j ∨ A.length = 4 * j + 1 ∨ A.length = 4 * j + 2 ∨ A.length = 4 * j + 3 := by
      omega
    all_goals
      rw [h]
      simp (disch := omega) only [if_pos, if_neg, hnone]
      simp [Words.word32]
  · rw [if_neg hj, if_neg (by omega), if_neg (by omega), if_neg (by omega), if_neg (by omega)]

theorem orByte_eq (hlen : A.length < 64) (hw : ∀ j < 16, w.getD j 0 = words A j) (c : UInt8) :
    ∀ j < 16, (orByte w A.length c).getD j 0 = words (A ++ [c]) j := by
  intro j hj
  rw [orByte, SecureHash.getD_set w (by omega), shift_eq _ hlen, words_snoc, hw _ (by omega)]
  by_cases heq : A.length / 4 = j
  · rw [if_pos heq, if_pos heq, heq]
  · rw [if_neg heq, if_neg heq, hw j hj]

/-- The bytes that are left, and the bit behind them. -/
theorem lastWords_eq (hlen : D.length < 64) (w : Vector UInt32 80) :
    ∀ j < 16, (lastWords D w).getD j 0 = words (D ++ [0x80]) j := by
  have hloop : ∀ n ≤ D.length, ∀ j < 16,
      ((List.range n).foldl (fun w i => orByte w i (D.getD i 0)) (clearWBuffert w)).getD j 0 = words (D.take n) j := by
    intro n hn
    induction n with
    | zero =>
      intro j hj
      rw [List.range_zero, List.foldl_nil, List.take_zero, clearWBuffert_eq w j hj]
    | succ n ih =>
      have htake : (D.take n).length = n := List.length_take_of_le (Nat.le_of_succ_le hn)
      have hbyte := orByte_eq (by omega) (ih (Nat.le_of_succ_le hn)) (D.getD n 0)
      rw [htake] at hbyte
      rw [List.range_succ, List.foldl_append, List.foldl_cons, List.foldl_nil, List.take_add_one,
        List.getElem?_eq_getElem hn, Option.toList_some, ← List.getD_eq_getElem D 0 hn]
      exact hbyte
  have hall := hloop D.length (Nat.le_refl _)
  rw [List.take_length] at hall
  exact orByte_eq hlen hall 0x80

/-- The last word of a block is set, and the one before it is 0. -/
theorem lastBlock_eq {bits : Nat} (hlen : A.length ≤ 56) (hbits : bits < 2 ^ 32)
    (hw : ∀ j < 16, w.getD j 0 = words A j) :
    ∀ j < 16, (w.setIfInBounds 15 (UInt32.ofNat bits)).getD j 0 = words (SecureHash.lastBlock A bits) j := by
  intro j hj
  obtain ⟨h14, h15⟩ := SecureHash.words_length (m := bits) hlen
  rw [SecureHash.getD_set w (by decide)]
  by_cases heq : 15 = j
  · rw [if_pos heq, ← heq, h15]
  · rw [if_neg heq, hw j hj]
    by_cases hlast : j = 14
    · rw [hlast, h14, Nat.div_eq_of_lt hbits, SecureHash.words_behind (by omega)]
      rfl
    · rw [SecureHash.words_lastBlock hlen (by omega)]

/-- The number of bits that goes into the last word. -/
theorem totalSize_eq (n : Nat) :
    (UInt32.ofNat (n / 64 * 64) + UInt32.ofNat (n % 64)) <<< 3 = UInt32.ofNat (8 * n % 2 ^ 32) := by
  have hsum : UInt32.ofNat (n / 64 * 64) + UInt32.ofNat (n % 64) = UInt32.ofNat n := by
    rw [← UInt32.ofNat_add, Nat.div_add_mod']
  rw [hsum, ← UInt32.toNat_inj, UInt32.toNat_shiftLeft, UInt32.toNat_ofNat', UInt32.toNat_ofNat', Nat.shiftLeft_eq]
  change n % 2 ^ 32 * 2 ^ 3 % 2 ^ 32 = 8 * n % 2 ^ 32 % 2 ^ 32
  omega

/-- The number of bits is taken as a `uint32`. -/
theorem finish_ok {t : τ} {b : ManagedBuffer} (hreads : Reads innerHash view g) (h : Absorbed view g t s M)
    (hsrc : s.src = some b) (hsmall : M.length < 2 ^ 29) :
    view (s.finish innerHash b).result = absorbed g t (SecureHash.padded M) := by
  obtain ⟨⟨b', hsrc', hsound, hrest⟩, hresult, htotal⟩ := h
  obtain rfl : b = b' := Option.some.inj (hsrc.symm.trans hsrc')
  have hlen : b.data.length = M.length % 64 := by rw [hrest, Blocks.length_rest]
  have hsize : b.size = M.length % 64 := by rw [← ManagedBuffer.length_data hsound.1, hlen]
  have hlast := lastWords_eq (D := b.data) (by omega) s.w
  have hbits : (s.totalSize + UInt32.ofNat b.size) <<< 3 = UInt32.ofNat (8 * M.length) := by
    rw [htotal, hsize, totalSize_eq, Nat.mod_eq_of_lt (by omega)]
  rw [finish, hbits, absorbed]
  by_cases hlong : b.size ≥ 56
  · rw [if_pos hlong, SecureHash.last_blocks t M (by omega)]
    dsimp only
    rw [hreads _ _ _ (lastBlock_eq (A := []) (by decide) (by omega) (clearWBuffert_eq _))]
    rw [hreads _ _ _ fun j hj => (hlast j hj).trans (SecureHash.words_zeros _ (63 - M.length % 64) j).symm, hresult,
      hrest, absorbed]
  · rw [if_neg hlong, SecureHash.last_block t M (by omega)]
    dsimp only
    rw [hreads _ _ _ (lastBlock_eq (by rw [List.length_append, hlen, List.length_singleton]; omega) (by omega) hlast),
      hresult, hrest, absorbed]

theorem finished_ok {bufs : List (List UInt8)} (hreads : Reads innerHash view g) (result : σ)
    (hsmall : bufs.flatten.length < 2 ^ 29) :
    ∃ result', finished innerHash result bufs = .ok result' ∧
      view result' = absorbed g (view result) (SecureHash.padded bufs.flatten) := by
  obtain ⟨s, hrun, h⟩ := @run_ok _ _ _ _ _ _ _ _ bufs hreads (absorbed_init (g := g) result)
    (by rw [List.length_nil]; omega)
  obtain ⟨b, hsrc, -⟩ := h.src
  refine ⟨(s.finish innerHash b).result, ?_, finish_ok hreads h hsrc hsmall⟩
  rw [finished, hrun]
  dsimp only [bind, Except.bind]
  rw [hsrc]
  rfl

end

theorem reads_innerHash : Reads innerHash resultState compress := fun result _ _ hw => innerHash_eq result hw

theorem resultState_init : resultState initResult = SecureHash.Sha1.initial := rfl

theorem bytes_eq (x : UInt32) :
    SecureHash.bytes x = (List.range 4).map fun k => (x >>> UInt32.ofNat (8 * (3 - k))).toUInt8 := by
  have hlast : x >>> UInt32.ofNat (8 * (3 - 3)) = x := UInt32.shiftRight_zero
  change _ = [_, _, _, (x >>> UInt32.ofNat (8 * (3 - 3))).toUInt8]
  rw [hlast]
  rfl

theorem hashBytes_eq (result : Vector UInt32 5) : hashBytes result = (resultState result).bytes := by
  have hbyte : ∀ x : UInt32, (x &&& 0xff).toUInt8 = x.toUInt8 := by
    intro x
    rw [UInt32.toUInt8_and]
    exact UInt8.and_neg_one
  have hshift : ∀ i < 20, (3 - UInt32.ofNat i &&& 3) <<< 3 = UInt32.ofNat (8 * (3 - i % 4)) := by decide
  have hmap : hashBytes result =
      (List.range 20).map fun i => (result.getD (i / 4) 0 >>> UInt32.ofNat (8 * (3 - i % 4))).toUInt8 := by
    refine List.map_congr_left fun i hi => ?_
    rw [hbyte, hshift i (List.mem_range.mp hi)]
  have hget : ∀ i (h : i < 5), result[i] = result.getD i 0 := by
    intro i h
    rw [Vector.getD, Array.getD_eq_getD_getElem?, Vector.getElem?_toArray, Vector.getElem?_eq_getElem h]
    rfl
  rw [hmap, SecureHash.Sha1.State.bytes, funext bytes_eq, resultState, hget, hget, hget, hget, hget]
  rfl

/-- Short messages are hashed. -/
theorem hashes_of_small {bufs : List (List UInt8)} (hsmall : bufs.flatten.length < 2 ^ 29) : Hashes bufs := by
  obtain ⟨result, hfinished, hstate⟩ := finished_ok reads_innerHash initResult hsmall
  rw [Hashes, digest, hfinished, SecureHash.Sha1.digest, ← resultState_init]
  dsimp only [bind, Except.bind]
  rw [hashBytes_eq, hstate]
  rfl

/-- The words of a block behind those of the blocks before. -/
def recorded (blocks : List (List UInt32)) (block : Nat → UInt32) : List (List UInt32) :=
  blocks ++ [(List.range 16).map block]

theorem reads_record : Reads record id recorded := by
  intro blocks w block hw
  exact congrArg (fun b => blocks ++ [b]) (List.map_congr_left fun j hj => hw j (List.mem_range.mp hj))

theorem absorbed_recorded (M : List UInt8) :
    absorbed recorded [] M = (Blocks.blocks 64 M).map fun block => (List.range 16).map (words block) := by
  have hfold : ∀ (l : List (List UInt8)) (blocks : List (List UInt32)),
      l.foldl (fun blocks block => recorded blocks (words block)) blocks =
        blocks ++ l.map fun block => (List.range 16).map (words block) := by
    intro l
    induction l with
    | nil => exact fun blocks => (List.append_nil blocks).symm
    | cons block l ih =>
      intro blocks
      rw [List.foldl_cons, ih, recorded, List.append_assoc]
      rfl
  exact hfold _ []

variable {bufs : List (List UInt8)} {s s' : SHA1 (List (List UInt32))}

theorem run_src (hsrc : s.src ≠ none) (hrun : s.run record bufs = .ok s') : s'.src ≠ none := by
  induction bufs generalizing s with
  | nil =>
    cases hrun
    exact hsrc
  | cons buf bufs ih =>
    obtain ⟨s₁, hupdate, hrun⟩ := Loops.bind_ok hrun
    refine ih ?_ hrun
    rw [update] at hupdate
    split at hupdate
    · cases hupdate
    · obtain ⟨b, -, hprocess⟩ := Loops.bind_ok hupdate
      obtain ⟨b', -, hs₁⟩ := Loops.bind_ok hprocess
      cases hs₁
      exact Option.some_ne_none b'

/-- The last block that is hashed has nothing but zeros in the word for the upper half of the length. -/
theorem finish_last (s : SHA1 (List (List UInt32))) (b : ManagedBuffer) :
    ∃ blocks block, (s.finish record b).result = blocks ++ [block] ∧ block.getD 14 0 = 0 := by
  have hword : ∀ (w : Vector UInt32 80) x, (blockWords (w.setIfInBounds 15 x)).getD 14 0 = w.getD 14 0 := by
    intro w x
    change (w.setIfInBounds 15 x).getD 14 0 = _
    rw [SecureHash.getD_set w (by decide), if_neg (by decide)]
  rw [finish]
  by_cases hlong : b.size ≥ 56
  · rw [if_pos hlong]
    refine ⟨_, _, rfl, ?_⟩
    rw [hword, clearWBuffert_eq _ 14 (by decide)]
    rfl
  · have hlen : b.data.length ≤ b.size := List.length_take_le _ _
    rw [if_neg hlong]
    refine ⟨_, _, rfl, ?_⟩
    rw [hword, lastWords_eq (by omega) _ 14 (by decide), SecureHash.words_behind]
    rw [List.length_append, List.length_singleton]
    omega

/-- The last block of the padded message has the upper half of the length. -/
theorem padded_last (M : List UInt8) :
    ∃ blocks block, absorbed recorded [] (SecureHash.padded M) = blocks ++ [block] ∧
      block.getD 14 0 = UInt32.ofNat (8 * M.length / 2 ^ 32) := by
  have hword : ∀ A : List UInt8, A.length ≤ 56 →
      ((List.range 16).map (words (SecureHash.lastBlock A (8 * M.length)))).getD 14 0 =
        UInt32.ofNat (8 * M.length / 2 ^ 32) := fun A hA => (SecureHash.words_length hA).1
  rw [absorbed]
  by_cases hshort : M.length % 64 < 56
  · rw [SecureHash.last_block _ M hshort]
    refine ⟨_, _, rfl, hword _ ?_⟩
    rw [List.length_append, Blocks.length_rest, List.length_singleton]
    omega
  · rw [SecureHash.last_blocks _ M (Nat.le_of_not_lt hshort)]
    exact ⟨_, _, rfl, hword [] (Nat.zero_le _)⟩

theorem hashesBlocks_of_small (hsmall : bufs.flatten.length < 2 ^ 29) : HashesBlocks bufs := by
  obtain ⟨result, hfinished, hview⟩ := finished_ok reads_record [] hsmall
  rw [HashesBlocks, hfinished, ← absorbed_recorded]
  exact congrArg Except.ok hview

/-- The length of the message is in the last block as far as it fits into 32 bits. -/
theorem small_of_hashesBlocks (hlong : bufs.flatten.length < 2 ^ 61) (h : HashesBlocks bufs) :
    bufs.flatten.length < 2 ^ 29 := by
  rw [HashesBlocks, ← absorbed_recorded] at h
  obtain ⟨s, hrun, hfinish⟩ := Loops.bind_ok h
  obtain ⟨b, hsrc⟩ := Option.ne_none_iff_exists'.mp (run_src (Option.some_ne_none _) hrun)
  rw [hsrc] at hfinish
  have hresult : (s.finish record b).result = absorbed recorded [] (SecureHash.padded bufs.flatten) :=
    Except.ok.inj hfinish
  obtain ⟨blocks, block, hlast, hzero⟩ := finish_last s b
  obtain ⟨blocks', block', hlast', hupper⟩ := padded_last bufs.flatten
  rw [hlast, hlast'] at hresult
  obtain ⟨-, hblock⟩ := List.append_inj' hresult rfl
  obtain rfl := List.singleton_inj.mp hblock
  rw [hzero] at hupper
  have hbits : 0 = 8 * bufs.flatten.length / 2 ^ 32 % 2 ^ 32 := congrArg UInt32.toNat hupper
  omega

/-- The blocks of the padded message are hashed just if its length in bits is less than 2 ^ 32, and then the digest is
right. -/
theorem sha1_hashes_iff (bufs : List (List UInt8)) (hlong : bufs.flatten.length < 2 ^ 61) :
    (HashesBlocks bufs ↔ bufs.flatten.length < 2 ^ 29) ∧ (bufs.flatten.length < 2 ^ 29 → Hashes bufs) :=
  ⟨⟨small_of_hashesBlocks hlong, hashesBlocks_of_small⟩, hashes_of_small⟩

theorem two_updates_sha1 : Hashes [[97, 98], [99]] :=
  (sha1_hashes_iff _ (by decide)).2 (by decide)

/-- An update with 2 ^ 32 bytes throws an exception. -/
theorem large_update_not_hashed : ¬∀ bufs : List (List UInt8), bufs.flatten.length < 2 ^ 61 → Hashes bufs := by
  intro hall
  have hlength : [List.replicate (2 ^ 32) (0 : UInt8)].flatten.length = 2 ^ 32 := by
    rw [List.flatten_cons, List.flatten_nil, List.append_nil, List.length_replicate]
  have h := hall [List.replicate (2 ^ 32) 0] (by rw [hlength]; decide)
  obtain ⟨result, hfinished, -⟩ := Loops.bind_ok h
  obtain ⟨s, hrun, -⟩ := Loops.bind_ok hfinished
  obtain ⟨s₁, hupdate, -⟩ := Loops.bind_ok hrun
  obtain ⟨b, hextend, -⟩ := Loops.bind_ok hupdate
  obtain ⟨hsound, hdata⟩ := (ManagedBuffer.appends_extend _).only _ b (ManagedBuffer.sound_init (by decide)) hextend
  have hsize := congrArg List.length hdata
  rw [ManagedBuffer.length_data hsound.1, List.length_append, List.length_replicate] at hsize
  have := hsound.1
  have := hsound.2
  omega

end SHA1

end Crack
