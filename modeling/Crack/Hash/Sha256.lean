import Crack.Lang.Appending
import Crack.Lib.SecureHash

/-!
# SHA256

Data is accumulated until there is a block of 64 bytes. The digest appends the padding to what is left.
-/
namespace Crack

open Fuel (Returns)

/-- `_k` -/
def sha256K : List UInt32 := [
  0x428a2f98, 0x71374491, 0xb5c0fbcf, 0xe9b5dba5, 0x3956c25b, 0x59f111f1,
  0x923f82a4, 0xab1c5ed5, 0xd807aa98, 0x12835b01, 0x243185be, 0x550c7dc3,
  0x72be5d74, 0x80deb1fe, 0x9bdc06a7, 0xc19bf174, 0xe49b69c1, 0xefbe4786,
  0x0fc19dc6, 0x240ca1cc, 0x2de92c6f, 0x4a7484aa, 0x5cb0a9dc, 0x76f988da,
  0x983e5152, 0xa831c66d, 0xb00327c8, 0xbf597fc7, 0xc6e00bf3, 0xd5a79147,
  0x06ca6351, 0x14292967, 0x27b70a85, 0x2e1b2138, 0x4d2c6dfc, 0x53380d13,
  0x650a7354, 0x766a0abb, 0x81c2c92e, 0x92722c85, 0xa2bfe8a1, 0xa81a664b,
  0xc24b8b70, 0xc76c51a3, 0xd192e819, 0xd6990624, 0xf40e3585, 0x106aa070,
  0x19a4c116, 0x1e376c08, 0x2748774c, 0x34b0bcb5, 0x391c0cb3, 0x4ed8aa4a,
  0x5b9cca4f, 0x682e6ff3, 0x748f82ee, 0x78a5636f, 0x84c87814, 0x8cc70208,
  0x90befffa, 0xa4506ceb, 0xbef9a3f7, 0xc67178f2]

/-- A `null` accumulator is `none`. -/
structure SHA256 where
  hash : Vector UInt32 8
  msa : Vector UInt32 64
  accum : Option ManagedBuffer
  totalSize : UInt64

namespace SHA256

def init : SHA256 where
  hash := #v[0x6a09e667, 0xbb67ae85, 0x3c6ef372, 0xa54ff53a, 0x510e527f, 0x9b05688c, 0x1f83d9ab, 0x5be0cd19]
  msa := .replicate 64 0
  accum := some (.init 1024)
  totalSize := 0

def rrot (val shift : UInt32) : UInt32 := val >>> shift ||| val <<< (32 - shift)

/-- A word of the chunk. -/
def chunkWord (chunk : List UInt8) (i : Nat) : UInt32 :=
  (chunk.getD (i * 4) 0).toUInt32 <<< 24 ||| (chunk.getD (i * 4 + 1) 0).toUInt32 <<< 16 |||
    (chunk.getD (i * 4 + 2) 0).toUInt32 <<< 8 ||| (chunk.getD (i * 4 + 3) 0).toUInt32

/-- A word behind the first 16 ones. -/
def msaWord (msa : Vector UInt32 64) (i : Nat) : UInt32 :=
  let s0 := rrot (msa.getD (i - 15) 0) 7 ^^^ rrot (msa.getD (i - 15) 0) 18 ^^^ msa.getD (i - 15) 0 >>> 3
  let s1 := rrot (msa.getD (i - 2) 0) 17 ^^^ rrot (msa.getD (i - 2) 0) 19 ^^^ msa.getD (i - 2) 0 >>> 10
  msa.getD (i - 16) 0 + s0 + msa.getD (i - 7) 0 + s1

/-- The loops that set the message schedule array. -/
def setMsa (chunk : List UInt8) (msa : Vector UInt32 64) : Vector UInt32 64 :=
  let msa := (List.range' 0 16).foldl (fun msa i => msa.setIfInBounds i (chunkWord chunk i)) msa
  (List.range' 16 48).foldl (fun msa i => msa.setIfInBounds i (msaWord msa i)) msa

/-- The working variables. -/
structure Working where
  a : UInt32
  b : UInt32
  c : UInt32
  d : UInt32
  e : UInt32
  f : UInt32
  g : UInt32
  h : UInt32

def Working.round (msa : Vector UInt32 64) (v : Working) (i : Nat) : Working :=
  let S1 := rrot v.e 6 ^^^ rrot v.e 11 ^^^ rrot v.e 25
  let ch := (v.e &&& v.f) ^^^ (~~~v.e &&& v.g)
  let temp1 := v.h + S1 + ch + sha256K.getD i 0 + msa.getD i 0
  let S0 := rrot v.a 2 ^^^ rrot v.a 13 ^^^ rrot v.a 22
  let maj := (v.a &&& v.b) ^^^ (v.a &&& v.c) ^^^ (v.b &&& v.c)
  let temp2 := S0 + maj
  { h := v.g, g := v.f, f := v.e, e := v.d + temp1, d := v.c, c := v.b, b := v.a, a := temp1 + temp2 }

variable (s : SHA256)

def processChunk (chunk : List UInt8) : SHA256 :=
  let msa := setMsa chunk s.msa
  let v : Working := ⟨s.hash[0], s.hash[1], s.hash[2], s.hash[3], s.hash[4], s.hash[5], s.hash[6], s.hash[7]⟩
  let v := (List.range' 0 64).foldl (fun v i => v.round msa i) v
  let hash := #v[s.hash[0] + v.a, s.hash[1] + v.b, s.hash[2] + v.c, s.hash[3] + v.d, s.hash[4] + v.e,
    s.hash[5] + v.f, s.hash[6] + v.g, s.hash[7] + v.h]
  { s with hash, msa }

/-- The loops that process the first block as long as there is more. -/
def process (more : Nat → Bool) : Nat → SHA256 → ManagedBuffer → Except Stop (SHA256 × ManagedBuffer)
  | 0, _, _ => .error .forever
  | fuel + 1, s, accum =>
    if more accum.size then do
      let chunk ← accum.string 0 64
      let accum ← accum.compact 64
      process more fuel (s.processChunk chunk) accum
    else .ok (s, accum)

def update (fuel : Nat) (s : SHA256) (buf : List UInt8) : Except Stop SHA256 :=
  match s.accum with
  | none => .error (.thrown "Digest has already been collected for SHA256 object.")
  | some accum => do
    let accum ← accum.extend buf
    let (s, accum) ← process (fun size => size ≥ 64) fuel s accum
    return { s with accum := some accum, totalSize := s.totalSize + UInt64.ofNat buf.length }

/-- The loop that appends zeros. -/
def appendZeros : Nat → ManagedBuffer → Except Stop ManagedBuffer
  | 0, _ => .error .forever
  | fuel + 1, accum =>
    if accum.size % 64 ≠ 56 then do
      let accum ← accum.append 0
      appendZeros fuel accum
    else .ok accum

/-- What `__finish` has in the accumulator before it flushes it. -/
def pad (fuel : Nat) (totalSize : UInt64) (accum : ManagedBuffer) : Except Stop ManagedBuffer := do
  let accum ← accum.append 0x80
  let accum ← appendZeros fuel accum
  let numBits := totalSize * 8
  let accum ← accum.append (numBits >>> 56).toUInt8
  let accum ← accum.append (numBits >>> 48).toUInt8
  let accum ← accum.append (numBits >>> 40).toUInt8
  let accum ← accum.append (numBits >>> 32).toUInt8
  let accum ← accum.append (numBits >>> 24).toUInt8
  let accum ← accum.append (numBits >>> 16).toUInt8
  let accum ← accum.append (numBits >>> 8).toUInt8
  accum.append numBits.toUInt8

def finish (fuel : Nat) (accum : ManagedBuffer) : Except Stop SHA256 := do
  let accum ← pad fuel s.totalSize accum
  let (s, _) ← process (fun size => size ≠ 0) fuel s accum
  return { s with accum := none }

def resultBytes (x : UInt32) : List UInt8 := [(x >>> 24).toUInt8, (x >>> 16).toUInt8, (x >>> 8).toUInt8, x.toUInt8]

def digest (fuel : Nat) : Except Stop (SHA256 × List UInt8) := do
  let s ← match s.accum with
    | none => .ok s
    | some accum => s.finish fuel accum
  return (s, (List.finRange 8).flatMap fun i => resultBytes s.hash[i])

/-- The calls of `update`. -/
def run (fuel : Nat) (s : SHA256) : List (List UInt8) → Except Stop SHA256
  | [] => .ok s
  | buf :: bufs => do
    let s ← s.update fuel buf
    run fuel s bufs

/-- All updates and two digests. -/
def digests (bufs : List (List UInt8)) (fuel : Nat) : Except Stop (List UInt8 × List UInt8) := do
  let s ← init.run fuel bufs
  let (s, first) ← s.digest fuel
  let (_, second) ← s.digest fuel
  return (first, second)

/-- The padding ends with a whole block. -/
def PadsBlocks (bufs : List (List UInt8)) : Prop :=
  ∃ s accum padded, Returns (fun fuel => init.run fuel bufs) (.ok s) ∧ s.accum = some accum ∧
    Returns (fun fuel => pad fuel s.totalSize accum) (.ok padded) ∧ 64 ∣ padded.size

/-- Both digests are that of the whole message. -/
def Hashes (bufs : List (List UInt8)) : Prop :=
  Returns (digests bufs) (.ok (SecureHash.Sha256.digest bufs.flatten, SecureHash.Sha256.digest bufs.flatten)) ∧
    PadsBlocks bufs

/-- Each update and what is left of the `n` bytes before fit into a buffer. -/
def Fits : Nat → List (List UInt8) → Prop
  | _, [] => True
  | n, buf :: bufs => n % 64 + buf.length < 2 ^ 32 ∧ Fits (n + buf.length) bufs

open SecureHash (rotr words fill fill_eq)
open SecureHash.Sha256 (State sum0 sum1 sigma0 sigma1 constant schedule compress absorb initial)

theorem rrot_eq (x : UInt32) {k : Nat} (h0 : 0 < k) (h : k < 32) : rrot x (UInt32.ofNat k) = rotr x k :=
  SecureHash.rotr_eq h0 h x

theorem sigma0_eq (x : UInt32) : rrot x 7 ^^^ rrot x 18 ^^^ x >>> 3 = sigma0 x := by
  rw [sigma0, ← rrot_eq x (k := 7) (by decide) (by decide), ← rrot_eq x (k := 18) (by decide) (by decide)]
  rfl

theorem sigma1_eq (x : UInt32) : rrot x 17 ^^^ rrot x 19 ^^^ x >>> 10 = sigma1 x := by
  rw [sigma1, ← rrot_eq x (k := 17) (by decide) (by decide), ← rrot_eq x (k := 19) (by decide) (by decide)]
  rfl

theorem sum0_eq (x : UInt32) : rrot x 2 ^^^ rrot x 13 ^^^ rrot x 22 = sum0 x := by
  rw [sum0, ← rrot_eq x (k := 2) (by decide) (by decide), ← rrot_eq x (k := 13) (by decide) (by decide),
    ← rrot_eq x (k := 22) (by decide) (by decide)]
  rfl

theorem sum1_eq (x : UInt32) : rrot x 6 ^^^ rrot x 11 ^^^ rrot x 25 = sum1 x := by
  rw [sum1, ← rrot_eq x (k := 6) (by decide) (by decide), ← rrot_eq x (k := 11) (by decide) (by decide),
    ← rrot_eq x (k := 25) (by decide) (by decide)]
  rfl

/-- The table has the first bits of the cube roots of the primes. -/
theorem sha256K_eq : ∀ i < 64, sha256K.getD i 0 = constant i := by decide +kernel

variable {chunk : List UInt8} {i j : Nat} {msa : Vector UInt32 64} {block : Nat → UInt32}

theorem chunkWord_eq (chunk : List UInt8) (i : Nat) : chunkWord chunk i = words chunk i := by
  rw [chunkWord, words, Nat.mul_comm]
  rfl

theorem schedule_before (block : Nat → UInt32) (h : i < 16) : schedule block i = block i := by
  rw [schedule, if_pos h]

theorem schedule_behind (block : Nat → UInt32) (h : 16 ≤ i) :
    schedule block i = sigma1 (schedule block (i - 2)) + schedule block (i - 7) + sigma0 (schedule block (i - 15)) +
      schedule block (i - 16) := by
  rw [schedule, if_neg (Nat.not_lt_of_le h)]

/-- The array has the message schedule, whatever was there before. -/
theorem setMsa_eq (chunk : List UInt8) (msa : Vector UInt32 64) :
    ∀ j < 64, (setMsa chunk msa).getD j 0 = schedule (words chunk) j := by
  have hfirst : ∀ j < 16, (fill (fun _ i => chunkWord chunk i) 0 16 msa).getD j 0 = schedule (words chunk) j :=
    fill_eq (f := fun _ i => chunkWord chunk i) (i := 0) (n := 16) (by decide)
      (fun j hj => absurd hj (Nat.not_lt_zero j)) fun w j _ hj _ => by
        rw [chunkWord_eq, schedule_before _ (by omega)]
  refine fill_eq (f := msaWord) (i := 16) (n := 48) (by decide) hfirst fun w j hle hlt hbefore => ?_
  rw [msaWord, sigma0_eq, sigma1_eq, hbefore (j - 15) (by omega), hbefore (j - 2) (by omega), hbefore (j - 16) (by omega),
    hbefore (j - 7) (by omega), schedule_behind _ hle]
  generalize sigma1 _ = s1
  generalize sigma0 _ = s0
  generalize schedule _ (j - 16) = x
  generalize schedule _ (j - 7) = y
  calc x + s0 + y + s1 = s1 + (x + s0 + y) := UInt32.add_comm _ _
    _ = s1 + (y + (s0 + x)) := by rw [UInt32.add_comm x s0, UInt32.add_comm _ y]
    _ = s1 + y + s0 + x := by rw [← UInt32.add_assoc, ← UInt32.add_assoc]

def Working.state (v : Working) : State := ⟨v.a, v.b, v.c, v.d, v.e, v.f, v.g, v.h⟩

theorem round_eq (hmsa : ∀ j < 64, msa.getD j 0 = schedule block j) (hi : i < 64) (v : Working) :
    (v.round msa i).state = SecureHash.Sha256.round (constant i) (schedule block i) v.state := by
  rw [Working.round, SecureHash.Sha256.round]
  dsimp only [Working.state]
  rw [sum0_eq, sum1_eq, sha256K_eq i hi, hmsa i hi]
  rfl

theorem rounds_eq (hmsa : ∀ j < 64, msa.getD j 0 = schedule block j) {l : List Nat} (hl : ∀ i ∈ l, i < 64)
    (v : Working) :
    (l.foldl (fun v i => v.round msa i) v).state =
      l.foldl (fun s t => SecureHash.Sha256.round (constant t) (schedule block t) s) v.state := by
  induction l generalizing v with
  | nil => rfl
  | cons i l ih =>
    rw [List.foldl_cons, List.foldl_cons, ih (fun j hj => hl j (List.mem_cons_of_mem i hj)),
      round_eq hmsa (hl i List.mem_cons_self)]

def hashState (hash : Vector UInt32 8) : State :=
  ⟨hash[0], hash[1], hash[2], hash[3], hash[4], hash[5], hash[6], hash[7]⟩

theorem hashState_init : hashState init.hash = initial := by decide +kernel

theorem processChunk_eq (s : SHA256) (chunk : List UInt8) :
    hashState (s.processChunk chunk).hash = compress (hashState s.hash) (words chunk) := by
  have hrounds := rounds_eq (setMsa_eq chunk s.msa) (l := List.range' 0 64)
    (fun i hi => (List.mem_range'_1.mp hi).2)
    ⟨s.hash[0], s.hash[1], s.hash[2], s.hash[3], s.hash[4], s.hash[5], s.hash[6], s.hash[7]⟩
  have hstart : hashState s.hash = Working.state
      ⟨s.hash[0], s.hash[1], s.hash[2], s.hash[3], s.hash[4], s.hash[5], s.hash[6], s.hash[7]⟩ := rfl
  rw [compress, SecureHash.Sha256.rounds, List.range_eq_range', hstart, ← hrounds]
  rfl

open ManagedBuffer (Sound Appends appends_append)

variable {s s' : SHA256} {b b' : ManagedBuffer} {M buf : List UInt8} {n : Nat} {bufs : List (List UInt8)} {fuel : Nat}

/-- All whole blocks are processed. -/
theorem process_ok {more : Nat → Bool} (hmore : ∀ m ≤ b.size, m % 64 = b.size % 64 → (more m ↔ 64 ≤ m)) (h : b.Sound) :
    ∃ s' b', Returns (fun fuel => process more fuel s b) (.ok (s', b')) ∧ b'.Sound ∧
      b'.data = Blocks.rest 64 b.data ∧ hashState s'.hash = absorb (hashState s.hash) b.data ∧ s'.accum = s.accum ∧
      s'.totalSize = s.totalSize := by
  induction hk : b.size using Nat.strongRecOn generalizing s b with
  | ind k ih =>
    have hdata : b.data.length = b.size := ManagedBuffer.length_data h.1
    by_cases hle : 64 ≤ b.size
    · obtain ⟨b₁, hcompact, hsize, hcap, hrest⟩ :=
        ManagedBuffer.compact_ok hle h.1 (.inl (by decide)) (Nat.lt_of_le_of_lt h.1 h.2)
      have hsound : b₁.Sound := ⟨by rw [hsize, hcap]; exact Nat.le_trans (Nat.sub_le _ _) h.1, hcap ▸ h.2⟩
      have hchunk : b.string 0 64 = .ok (b.data.take 64) := ManagedBuffer.string_ok (.inl (by decide)) hle h.1
      have hlen : (b.data.take 64).length = 64 := List.length_take_of_le (hdata ▸ hle)
      have hmore₁ : ∀ m ≤ b₁.size, m % 64 = b₁.size % 64 → (more m ↔ 64 ≤ m) := by
        intro m hm heq
        exact hmore m (by omega) (by omega)
      obtain ⟨s', b', hreturns, hsound', hrest', hhash, haccum, htotal⟩ :=
        ih b₁.size (by omega) (s := s.processChunk (b.data.take 64)) hmore₁ hsound rfl
      refine ⟨s', b', hreturns.step fun fuel hprocess => ?_, hsound', ?_, ?_, haccum, htotal⟩
      · rw [process, if_pos ((hmore b.size (Nat.le_refl _) rfl).mpr hle), hchunk]
        dsimp only [bind, Except.bind]
        rw [hcompact]
        exact hprocess
      · rw [hrest', hrest, ← Blocks.rest_append hlen (by decide), List.take_append_drop]
      · rw [hhash, hrest, processChunk_eq]
        conv_rhs => rw [← List.take_append_drop 64 b.data, absorb, Blocks.absorb_append hlen (by decide)]
        rfl
    · have hshort : b.data.length < 64 := by omega
      refine ⟨s, b, .now fun fuel => ?_, h, (Blocks.rest_of_short hshort).symm, ?_, rfl, rfl⟩
      · rw [process, if_neg (mt (hmore b.size (Nat.le_refl _) rfl).mp hle)]
      · rw [absorb, Blocks.absorb_of_short hshort]

/-- What is known of the object when `M` has been hashed. -/
structure Absorbed (s : SHA256) (M : List UInt8) : Prop where
  accum : ∃ b, s.accum = some b ∧ b.Sound ∧ b.data = Blocks.rest 64 M
  hash : hashState s.hash = absorb initial M
  total : s.totalSize = UInt64.ofNat M.length

theorem absorbed_init : Absorbed init [] :=
  ⟨⟨.init 1024, rfl, ManagedBuffer.sound_init (by decide), rfl⟩, hashState_init, rfl⟩

theorem update_ok (h : Absorbed s M) (hfits : M.length % 64 + buf.length < 2 ^ 32) :
    ∃ s', Returns (fun fuel => s.update fuel buf) (.ok s') ∧ Absorbed s' (M ++ buf) := by
  obtain ⟨⟨b, haccum, hsound, hrest⟩, hhash, htotal⟩ := h
  have hsize : b.size = M.length % 64 := by
    rw [← ManagedBuffer.length_data hsound.1, hrest, Blocks.length_rest]
  obtain ⟨b₁, hextend, -⟩ := @ManagedBuffer.extend_ok b buf hsound.1 (.inl (by omega)) (by omega)
  obtain ⟨hsound₁, hdata₁⟩ := (ManagedBuffer.appends_extend buf).only b b₁ hsound hextend
  obtain ⟨s', b', hreturns, hsound', hrest', hhash', -, htotal'⟩ :=
    process_ok (s := s) (fun m _ _ => decide_eq_true_iff) hsound₁
  obtain ⟨habsorb, hrests⟩ := Blocks.absorb_parts (n := 64) (f := fun s block => compress s (words block))
    (by decide) initial M buf
  refine ⟨{ s' with accum := some b', totalSize := s'.totalSize + UInt64.ofNat buf.length },
    hreturns.imp fun fuel hprocess => ?_, ⟨b', rfl, hsound', ?_⟩, ?_, ?_⟩
  · rw [update, haccum]
    dsimp only [bind, Except.bind]
    rw [hextend]
    dsimp only
    rw [hprocess]
    rfl
  · rw [hrest', hdata₁, hrest, hrests]
  · rw [hhash', hdata₁, hhash, hrest]
    exact habsorb.symm
  · dsimp only
    rw [htotal', htotal, List.length_append, UInt64.ofNat_add]

/-- More than 2 ^ 32 bytes do not fit into the buffer. -/
theorem update_fits (h : Absorbed s M) (hupdate : s.update fuel buf = .ok s') :
    M.length % 64 + buf.length < 2 ^ 32 := by
  obtain ⟨⟨b, haccum, hsound, hrest⟩, -⟩ := h
  rw [update, haccum] at hupdate
  obtain ⟨b₁, hextend, -⟩ := Loops.bind_ok hupdate
  obtain ⟨hsound₁, hdata₁⟩ := (ManagedBuffer.appends_extend buf).only b b₁ hsound hextend
  rw [← Blocks.length_rest, ← hrest, ← List.length_append, ← hdata₁, ManagedBuffer.length_data hsound₁.1]
  exact Nat.lt_of_le_of_lt hsound₁.1 hsound₁.2

theorem run_ok (h : Absorbed s M) (hfits : Fits M.length bufs) :
    ∃ s', Returns (fun fuel => s.run fuel bufs) (.ok s') ∧ Absorbed s' (M ++ bufs.flatten) := by
  induction bufs generalizing s M with
  | nil => exact ⟨s, ⟨0, fun _ _ => rfl⟩, by rwa [List.flatten_nil, List.append_nil]⟩
  | cons buf bufs ih =>
    obtain ⟨s₁, hupdate, h₁⟩ := update_ok h hfits.1
    obtain ⟨s', hrun, h'⟩ := ih h₁ (by rw [List.length_append]; exact hfits.2)
    refine ⟨s', (hupdate.and hrun).imp fun fuel hboth => ?_, ?_⟩
    · obtain ⟨hupdate, hrun⟩ := Prod.mk.inj hboth
      rw [run, hupdate]
      exact hrun
    · rwa [List.flatten_cons, ← List.append_assoc]

theorem run_fits (h : Absorbed s M) (hrun : ∃ n, ∀ fuel, n ≤ fuel → ∃ s', s.run fuel bufs = .ok s') :
    Fits M.length bufs := by
  induction bufs generalizing s M with
  | nil => trivial
  | cons buf bufs ih =>
    obtain ⟨n, hrun⟩ := hrun
    have hfits : M.length % 64 + buf.length < 2 ^ 32 := by
      obtain ⟨s', hs'⟩ := hrun n (Nat.le_refl n)
      obtain ⟨s₁, hupdate, -⟩ := Loops.bind_ok hs'
      exact update_fits h hupdate
    obtain ⟨s₁, ⟨k, hk⟩, h₁⟩ := update_ok h hfits
    refine ⟨hfits, List.length_append ▸ ih h₁ ⟨n + k, fun fuel hle => ?_⟩⟩
    obtain ⟨s', hs'⟩ := hrun fuel (by omega)
    have hupdate : s.update fuel buf = .ok s₁ := hk fuel (by omega)
    rw [run, hupdate] at hs'
    exact ⟨s', hs'⟩

theorem appendZeros_ok (h : b.Sound) (hsmall : b.size ≤ 2 ^ 30) :
    ∃ b', Returns (fun fuel => appendZeros fuel b) (.ok b') ∧ b'.Sound ∧
      b'.data = b.data ++ List.replicate ((120 - b.size % 64) % 64) 0 := by
  generalize hk : (120 - b.size % 64) % 64 = k
  have hfew : b.size + k ≤ 2 ^ 30 + 64 := by omega
  clear hsmall
  induction k generalizing b with
  | zero =>
    refine ⟨b, .now fun fuel => ?_, h, (List.append_nil _).symm⟩
    rw [appendZeros, if_neg (by omega)]
  | succ k ih =>
    obtain ⟨b₁, happend⟩ := (appends_append 0).total b h (by rw [List.length_singleton]; omega)
    obtain ⟨hsound₁, hdata₁⟩ := (appends_append 0).only b b₁ h happend
    have hsize₁ := ManagedBuffer.size_append happend
    obtain ⟨b', hreturns, hsound', hdata'⟩ := ih hsound₁ (by omega) (by omega)
    refine ⟨b', hreturns.step fun fuel hzeros => ?_, hsound', ?_⟩
    · rw [appendZeros, if_pos (by omega), happend]
      exact hzeros
    · rw [hdata', hdata₁, List.append_assoc]
      rfl

theorem toUInt8_shiftRight (x k : UInt64) (hk : k.toNat < 64) :
    (x >>> k).toUInt8 = UInt8.ofNat (x.toNat / 2 ^ k.toNat) := by
  rw [← UInt8.toNat_inj, UInt64.toNat_toUInt8, UInt64.toNat_shiftRight, Nat.mod_eq_of_lt hk, Nat.shiftRight_eq_div_pow,
    UInt8.toNat_ofNat']

/-- The eight bytes behind the zeros. -/
theorem appends_lengthField (numBits : UInt64) :
    Appends (fun b => do
      let b ← b.append (numBits >>> 56).toUInt8
      let b ← b.append (numBits >>> 48).toUInt8
      let b ← b.append (numBits >>> 40).toUInt8
      let b ← b.append (numBits >>> 32).toUInt8
      let b ← b.append (numBits >>> 24).toUInt8
      let b ← b.append (numBits >>> 16).toUInt8
      let b ← b.append (numBits >>> 8).toUInt8
      b.append numBits.toUInt8) (SecureHash.lengthField numBits.toNat) := by
  have hlast : numBits.toUInt8 = UInt8.ofNat (numBits.toNat / 2 ^ 0) := by
    rw [Nat.pow_zero, Nat.div_one, ← UInt8.toNat_inj, UInt64.toNat_toUInt8, UInt8.toNat_ofNat']
  rw [toUInt8_shiftRight numBits 56 (by decide), toUInt8_shiftRight numBits 48 (by decide),
    toUInt8_shiftRight numBits 40 (by decide), toUInt8_shiftRight numBits 32 (by decide),
    toUInt8_shiftRight numBits 24 (by decide), toUInt8_shiftRight numBits 16 (by decide),
    toUInt8_shiftRight numBits 8 (by decide), hlast]
  exact (appends_append _).bind ((appends_append _).bind ((appends_append _).bind ((appends_append _).bind
    ((appends_append _).bind ((appends_append _).bind ((appends_append _).bind (appends_append _)))))))

theorem pad_ok (h : b.Sound) (hsize : b.size = n % 64) (hlong : n < 2 ^ 61) :
    ∃ b', Returns (fun fuel => pad fuel (UInt64.ofNat n) b) (.ok b') ∧ b'.Sound ∧
      b'.data = b.data ++ SecureHash.padding n := by
  have hlt := Nat.mod_lt n (show 0 < 64 by decide)
  have hbits : (UInt64.ofNat n * 8).toNat = 8 * n := by
    rw [UInt64.toNat_mul]
    change n % 2 ^ 64 * 8 % 2 ^ 64 = _
    omega
  obtain ⟨b₁, happend⟩ := (appends_append 0x80).total b h (by rw [List.length_singleton]; omega)
  obtain ⟨hsound₁, hdata₁⟩ := (appends_append 0x80).only b b₁ h happend
  have hsize₁ := ManagedBuffer.size_append happend
  obtain ⟨b₂, hzeros, hsound₂, hdata₂⟩ := appendZeros_ok hsound₁ (by omega)
  have hsize₂ : b₂.size = b₁.size + (120 - b₁.size % 64) % 64 := by
    rw [← ManagedBuffer.length_data hsound₂.1, hdata₂, List.length_append, List.length_replicate,
      ManagedBuffer.length_data hsound₁.1]
  obtain ⟨b₃, hfield⟩ := (appends_lengthField (UInt64.ofNat n * 8)).total b₂ hsound₂ (by
    change _ + 8 ≤ _
    omega)
  obtain ⟨hsound₃, hdata₃⟩ := (appends_lengthField (UInt64.ofNat n * 8)).only b₂ b₃ hsound₂ hfield
  refine ⟨b₃, hzeros.imp fun fuel hzeros => ?_, hsound₃, ?_⟩
  · rw [pad, happend]
    dsimp only [bind, Except.bind]
    rw [hzeros]
    exact hfield
  · have hcount : (120 - b₁.size % 64) % 64 = (119 - n % 64) % 64 := by omega
    rw [hdata₃, hdata₂, hdata₁, hbits, hcount, SecureHash.padding, List.append_assoc, List.append_assoc]
    rfl

theorem digest_ok (h : Absorbed s M) (hlong : M.length < 2 ^ 61) :
    ∃ b padded s', s.accum = some b ∧ Returns (fun fuel => pad fuel s.totalSize b) (.ok padded) ∧ 64 ∣ padded.size ∧
      s'.accum = none ∧
      Returns (fun fuel => s.digest fuel) (.ok (s', SecureHash.Sha256.digest M)) := by
  obtain ⟨⟨b, haccum, hsound, hrest⟩, hhash, htotal⟩ := h
  have hsize : b.size = M.length % 64 := by
    rw [← ManagedBuffer.length_data hsound.1, hrest, Blocks.length_rest]
  obtain ⟨padded, hpad, hsoundp, hdata⟩ := pad_ok hsound hsize hlong
  obtain ⟨habsorb, hrests⟩ := Blocks.absorb_parts (n := 64) (f := fun s block => compress s (words block))
    (by decide) initial M (SecureHash.padding M.length)
  rw [← hrest, ← hdata] at habsorb hrests
  have hdvd : 64 ∣ padded.size := by
    have hlength := congrArg List.length hrests
    rw [Blocks.length_rest, Blocks.length_rest, ManagedBuffer.length_data hsoundp.1] at hlength
    exact Nat.dvd_of_mod_eq_zero (hlength.symm.trans (Nat.mod_eq_zero_of_dvd (SecureHash.length_padded M)))
  obtain ⟨s', b', hprocess, -, -, hhash', haccum', -⟩ :=
    @process_ok s padded (fun size => size ≠ 0) (fun m _ heq => by
      rw [decide_eq_true_iff]
      omega) hsoundp
  refine ⟨b, padded, { s' with accum := none }, haccum, htotal ▸ hpad, hdvd, rfl, (hpad.and hprocess).imp fun fuel h => ?_⟩
  obtain ⟨hpad, hprocess⟩ := Prod.mk.inj h
  have hbytes : ((List.finRange 8).flatMap fun i => resultBytes s'.hash[i]) = SecureHash.Sha256.digest M := by
    have hstate : hashState s'.hash = absorb initial (SecureHash.padded M) := by
      rw [hhash', hhash]
      exact habsorb.symm
    rw [SecureHash.Sha256.digest, ← hstate]
    rfl
  rw [digest, haccum, ← hbytes]
  dsimp only [bind, Except.bind]
  rw [finish, htotal, hpad]
  dsimp only [bind, Except.bind]
  rw [hprocess]
  rfl

/-- A second call only reads the hash. -/
theorem digest_again (haccum : s.accum = none) (fuel : Nat) :
    s.digest fuel = .ok (s, (List.finRange 8).flatMap fun i => resultBytes s.hash[i]) := by
  rw [digest, haccum]
  rfl

theorem digest_bytes {d : List UInt8} (hdigest : s.digest fuel = .ok (s', d)) :
    d = (List.finRange 8).flatMap fun i => resultBytes s'.hash[i] := by
  rw [digest] at hdigest
  split at hdigest
  next =>
    cases hdigest
    rfl
  next =>
    obtain ⟨s₁, -, hdigest⟩ := Loops.bind_ok hdigest
    cases hdigest
    rfl

/-- The digests are right just if no update overflows the buffer. -/
theorem hashes_iff (bufs : List (List UInt8)) (hlong : bufs.flatten.length < 2 ^ 61) : Hashes bufs ↔ Fits 0 bufs := by
  constructor
  · rintro ⟨-, s, accum, padded, ⟨n, hrun⟩, -⟩
    exact run_fits absorbed_init ⟨n, fun fuel hle => ⟨s, hrun fuel hle⟩⟩
  · intro hfits
    obtain ⟨s, hrun, h⟩ := run_ok absorbed_init hfits
    rw [List.nil_append] at h
    obtain ⟨b, padded, s', haccum, hpad, hdvd, haccum', hdigest⟩ := digest_ok h hlong
    refine ⟨(hrun.and hdigest).imp fun fuel h => ?_, s, b, padded, hrun, haccum, hpad, hdvd⟩
    obtain ⟨hrun, hdigest⟩ := Prod.mk.inj h
    rw [digests, hrun]
    dsimp only [bind, Except.bind]
    rw [hdigest]
    dsimp only
    rw [digest_again haccum', ← digest_bytes hdigest]
    rfl

theorem two_updates_hashed : Hashes [[97, 98], [99]] :=
  (hashes_iff _ (by decide)).mpr ⟨by decide, by decide, trivial⟩

/-- An update with 2 ^ 32 bytes throws an exception. -/
theorem large_update_fails : ¬∀ bufs : List (List UInt8), bufs.flatten.length < 2 ^ 61 → Hashes bufs := by
  intro hall
  have hlength : [List.replicate (2 ^ 32) (0 : UInt8)].flatten.length = 2 ^ 32 := by
    rw [List.flatten_cons, List.flatten_nil, List.append_nil, List.length_replicate]
  obtain ⟨-, s, accum, padded, ⟨n, hrun⟩, -⟩ := hall [List.replicate (2 ^ 32) 0] (by rw [hlength]; decide)
  obtain ⟨s₁, hupdate, -⟩ := Loops.bind_ok (hrun n (Nat.le_refl n))
  have hfits := update_fits absorbed_init hupdate
  rw [List.length_replicate] at hfits
  exact absurd hfits (by decide)

end SHA256

end Crack
