import Crack.Serial.SerialReads

/-!
# BufferDeserializer on any bytes

All reads of a `BufferDeserializer`, from a buffer with any contents. The position is a `uint`,
the size a `uintz`, and an index an `int`.
-/
namespace Crack

namespace Deserializing

open Varint (value Terminated low_toNat high_iff)
open Loops (bind_ok)

structure BufferDeserializer where
  buffer : List UInt8
  size : Nat
  pos : Nat
  success : Bool
  lastUInt : Nat
  lastString : List UInt8
  lastFloat32 : List UInt8
  lastFloat64 : List UInt8
  /-- the memory that the buffer says it has -/
  inside : size ≤ buffer.length

inductive ReadKind where
  | uint | string | float32 | float64
  deriving DecidableEq, Repr

namespace BufferDeserializer

/-- `oper init(byteptr buffer, uintz size)` or `reset`, and a position -/
def start (buffer : List UInt8) (pos : Nat) : BufferDeserializer :=
  ⟨buffer, buffer.length, pos, false, 0, [], [], [], Nat.le_refl _⟩

/-- Memory that is read at some place. An index from 2 ^ 31 on is negative. -/
def bytes (d : BufferDeserializer) (pos count : Nat) : Except Stop (List UInt8) :=
  if count = 0 ∨ pos < 2 ^ 31 ∧ pos + count ≤ d.buffer.length then .ok ((d.buffer.drop pos).take count)
  else .error .wildAccess

/-- A `CString`, with a zero at the index behind its bytes. -/
def copy (d : BufferDeserializer) (pos count : Nat) : Except Stop (List UInt8) :=
  if count ≥ 2 ^ 31 then .error .wildAccess else d.bytes pos count

section

variable (shl : Nat → Nat → Nat)

/-- `<<` of a `uint`. What comes of a count of 32 or more is not defined; it is what `shl` says. -/
def shiftLeft (x count : Nat) : Nat := uint (if count < 32 then x <<< count else shl x count)

/-- The loop of `readUInt`; without a result there is no data left. -/
def readGroups (d : BufferDeserializer) : Nat → Nat → Nat → Nat → Except Stop (Option (Nat × Nat))
  | 0, _, _, _ => .error .forever
  | n + 1, cur, val, offset =>
    if cur = Crack.uint d.size then .ok none
    else if cur ≥ 2 ^ 31 then .error .wildAccess
    else match d.buffer[cur]? with
      | none => .error .wildAccess
      | some b =>
        let cur := Crack.uint (cur + 1)
        let val := val ||| shiftLeft shl (b &&& 0x7f).toNat offset
        if b &&& 0x80 ≠ 0 then readGroups d n cur val (Crack.uint (offset + 7)) else .ok (some (val, cur))

/-- The position comes round to the size after 2 ^ 32 bytes at most. -/
def readUInt (d : BufferDeserializer) : Except Stop BufferDeserializer := do
  match ← d.readGroups shl (d.size + 1) d.pos 0 0 with
  | none => return { d with success := false }
  | some (val, cur) => return { d with lastUInt := val, pos := cur, success := true }

def readString (d : BufferDeserializer) : Except Stop BufferDeserializer := do
  let start := d.pos
  let d ← d.readUInt shl
  if d.success then
    let stringSize := d.lastUInt
    if uintzSub d.size d.pos ≥ stringSize then
      let lastString ← d.copy d.pos stringSize
      return { d with lastString, pos := Crack.uint (d.pos + stringSize) }
    else return { d with pos := start, success := false }
  else return d

/-- The bytes of a float, and the position behind them. -/
def readFloat (d : BufferDeserializer) (count : Nat) : Except Stop (Option (List UInt8 × Nat)) := do
  if uintzSub d.size d.pos ≥ count then return some (← d.bytes d.pos count, Crack.uint (d.pos + count))
  else return none

def readFloat32 (d : BufferDeserializer) : Except Stop BufferDeserializer := do
  match ← d.readFloat 4 with
  | some (lastFloat32, pos) => return { d with success := true, lastFloat32, pos }
  | none => return { d with success := false }

def readFloat64 (d : BufferDeserializer) : Except Stop BufferDeserializer := do
  match ← d.readFloat 8 with
  | some (lastFloat64, pos) => return { d with success := true, lastFloat64, pos }
  | none => return { d with success := false }

def read (d : BufferDeserializer) : ReadKind → Except Stop BufferDeserializer
  | .uint => d.readUInt shl
  | .string => d.readString shl
  | .float32 => d.readFloat32
  | .float64 => d.readFloat64

end

/-- The value of the last read was decoded from `bs`. A number of more than five bytes may be anything. -/
def Decoded (d : BufferDeserializer) (bs : List UInt8) : ReadKind → Prop
  | .uint => Terminated bs ∧ (bs.length ≤ 5 → d.lastUInt = value bs % 2 ^ 32)
  | .string => ∃ size, bs = size ++ d.lastString ∧ Terminated size ∧
    (size.length ≤ 5 → d.lastString.length = value size % 2 ^ 32)
  | .float32 => bs.length = 4 ∧ d.lastFloat32 = bs
  | .float64 => bs.length = 8 ∧ d.lastFloat64 = bs

/-- A read that succeeds goes on behind what it decoded, one that fails stays where it was. -/
def Reads (d d' : BufferDeserializer) (kind : ReadKind) : Prop :=
  d'.buffer = d.buffer ∧ d'.size = d.size ∧ d'.pos ≤ d'.size ∧
    if d'.success then
      ∃ bs, bs <+: d.buffer.drop d.pos ∧ d'.Decoded bs kind ∧ d'.pos = d.pos + bs.length
    else d'.pos = d.pos

/-- A number, or what is left of one where the data ends, has no byte from 2 ^ 31 on. -/
def NumberOk (d : BufferDeserializer) : Prop :=
  ∃ bs, bs <+: d.buffer.drop d.pos ∧ (bs = [] ∨ d.pos + bs.length ≤ 2 ^ 31) ∧
    (Terminated bs ∨ (∀ b ∈ bs, 128 ≤ b.toNat) ∧ d.pos + bs.length = Crack.uint d.size)

/-- In a buffer of more than 2 ^ 31 bytes, what is read starts below 2 ^ 31, and its numbers end there. -/
def StepOk (d : BufferDeserializer) (kind : ReadKind) : Prop :=
  d.size ≤ 2 ^ 31 ∨ match kind with
    | .uint => d.NumberOk
    | .string => d.NumberOk ∧ ∀ bs, bs <+: d.buffer.drop d.pos → Terminated bs → bs.length ≤ 5 ∧
      (d.pos + bs.length + value bs % 2 ^ 32 ≤ d.size →
        value bs % 2 ^ 32 < 2 ^ 31 ∧ (value bs % 2 ^ 32 = 0 ∨ d.pos + bs.length < 2 ^ 31))
    | .float32 => d.pos + 4 ≤ d.size → d.pos < 2 ^ 31
    | .float64 => d.pos + 8 ≤ d.size → d.pos < 2 ^ 31

/-- A deserializer after reads that go well. -/
inductive Reached (shl : Nat → Nat → Nat) : BufferDeserializer → Prop
  | start {d : BufferDeserializer} : d.pos ≤ d.size → Reached shl d
  | step {d d' : BufferDeserializer} (kind : ReadKind) : Reached shl d → d.StepOk kind →
    d.read shl kind = .ok d' → Reached shl d'

variable {shl : Nat → Nat → Nat} {d : BufferDeserializer} {bs : List UInt8} {n cur val offset : Nat} {kind : ReadKind}

theorem or_shiftLeft {b : UInt8} (hoffset : offset < 32) (hval : val < 2 ^ offset) :
    val ||| shiftLeft shl (b &&& 0x7f).toNat offset = (val + 2 ^ offset * (b.toNat % 128)) % 2 ^ 32 := by
  rw [shiftLeft, if_pos hoffset]
  exact Serial.or_group hoffset hval

/-- The loop over bytes that end a number, or go on to the end of the data. -/
theorem readGroups_spec (hbs : bs <+: d.buffer.drop cur) (hlt : bs = [] ∨ cur + bs.length ≤ 2 ^ 31)
    (hend : Terminated bs ∨ (∀ b ∈ bs, 128 ≤ b.toNat) ∧ cur + bs.length = Crack.uint d.size) (hn : bs.length < n) :
    d.readGroups shl n cur val offset = .ok none ∨ Terminated bs ∧
      ∃ v, d.readGroups shl n cur val offset = .ok (some (v, cur + bs.length)) ∧
        (val < 2 ^ offset → offset + 7 * bs.length ≤ 35 → v = (val + 2 ^ offset * value bs) % 2 ^ 32) := by
  induction bs generalizing cur n val offset with
  | nil =>
    obtain ⟨n, rfl⟩ := Nat.exists_eq_succ_of_ne_zero (Nat.ne_zero_of_lt hn)
    obtain ⟨-, hcur⟩ := hend.resolve_left id
    exact .inl (if_pos hcur)
  | cons b bs ih =>
    have hlt := hlt.resolve_left (List.cons_ne_nil b bs)
    rw [List.length_cons] at hlt hn
    obtain ⟨n, rfl⟩ := Nat.exists_eq_succ_of_ne_zero (Nat.ne_zero_of_lt hn)
    obtain ⟨rest, hrest⟩ := hbs
    have hget : d.buffer[cur]? = some b := by
      rw [← List.head?_drop, ← hrest]
      rfl
    have hnext : Crack.uint (cur + 1) = cur + 1 := Nat.mod_eq_of_lt (by omega)
    have hbs : bs <+: d.buffer.drop (cur + 1) := by
      rw [← List.drop_drop, ← hrest]
      exact List.prefix_append bs rest
    rw [readGroups]
    by_cases hstop : cur = Crack.uint d.size
    · exact .inl (if_pos hstop)
    rw [if_neg hstop, if_neg (by omega), hget]
    dsimp only
    rw [hnext]
    by_cases hhigh : b &&& 0x80 ≠ 0
    · have hend' : Terminated bs ∨ (∀ b ∈ bs, 128 ≤ b.toNat) ∧ cur + 1 + bs.length = Crack.uint d.size := by
        rcases hend with hterm | ⟨hall, hcur⟩
        · cases bs with
          | nil => exact absurd ((high_iff b).mp hhigh) (Nat.not_le_of_lt hterm)
          | cons c bs => exact .inl hterm.2
        · refine .inr ⟨fun c hc => hall c (List.mem_cons_of_mem _ hc), ?_⟩
          rw [List.length_cons] at hcur
          omega
      rw [if_pos hhigh]
      rcases ih hbs (.inr (by omega)) hend' (Nat.lt_of_succ_lt_succ hn) with hnone | ⟨hterm, v, hv, hvalue⟩
      · exact .inl hnone
      have hterm' : Terminated (b :: bs) := by
        cases bs with
        | nil => exact absurd hterm id
        | cons c bs => exact ⟨(high_iff b).mp hhigh, hterm⟩
      refine .inr ⟨hterm', v, ?_, fun hval hlen => ?_⟩
      · rw [hv, List.length_cons, Nat.add_assoc, Nat.add_comm 1]
      · rw [List.length_cons] at hlen
        have hoffset : Crack.uint (offset + 7) = offset + 7 := Nat.mod_eq_of_lt (by omega)
        rw [or_shiftLeft (by omega) hval, hoffset] at hvalue
        rw [hvalue (Serial.or_group_lt hval) (by omega), Serial.value_behind]
    · have hlast : bs = [] := by
        rcases hend with hterm | ⟨hall, -⟩
        · cases bs with
          | nil => rfl
          | cons c bs => exact absurd ((high_iff b).mpr hterm.1) hhigh
        · exact absurd ((high_iff b).mpr (hall b List.mem_cons_self)) hhigh
      subst hlast
      have hterm : Terminated [b] := Nat.lt_of_not_le fun hle => hhigh ((high_iff b).mpr hle)
      rw [if_neg hhigh]
      refine .inr ⟨hterm, _, rfl, fun hval hlen => ?_⟩
      rw [List.length_singleton] at hlen
      rw [or_shiftLeft (by omega) hval, value, value, Nat.mul_zero, Nat.add_zero]

theorem readUInt_reads (hpos : d.pos ≤ d.size) (hok : d.StepOk .uint) :
    ∃ d', d.readUInt shl = .ok d' ∧ Reads d d' .uint := by
  have hinside := d.inside
  -- the bytes that the loop goes over
  obtain ⟨bs, hbs, hlt, hlen, hend, hfits⟩ : ∃ bs, bs <+: d.buffer.drop d.pos ∧
      (bs = [] ∨ d.pos + bs.length ≤ 2 ^ 31) ∧ bs.length < d.size + 1 ∧
      (Terminated bs ∨ (∀ b ∈ bs, 128 ≤ b.toNat) ∧ d.pos + bs.length = Crack.uint d.size) ∧
      d.pos + bs.length ≤ d.size := by
    by_cases hsmall : d.size ≤ 2 ^ 31
    · have hsize : Crack.uint d.size = d.size := Nat.mod_eq_of_lt (by omega)
      have havail : ((d.buffer.drop d.pos).take (d.size - d.pos)).length = d.size - d.pos := by
        rw [List.length_take, List.length_drop]
        omega
      rcases Varint.number_or_high ((d.buffer.drop d.pos).take (d.size - d.pos)) with ⟨bs, hbs, hterm⟩ | hall
      · have hle := hbs.length_le
        exact ⟨bs, hbs.trans (List.take_prefix _ _), .inr (by omega), by omega, .inl hterm, by omega⟩
      · exact ⟨_, List.take_prefix _ _, .inr (by omega), by omega, .inr ⟨hall, by omega⟩, by omega⟩
    · obtain ⟨bs, hbs, hlt, hend⟩ := hok.resolve_left hsmall
      rcases hlt with rfl | hle
      · exact ⟨[], hbs, .inl rfl, Nat.succ_pos _, hend, hpos⟩
      · exact ⟨bs, hbs, .inr hle, by omega, hend, by omega⟩
  rw [readUInt]
  rcases readGroups_spec hbs hlt hend hlen with hnone | ⟨hterm, v, hv, hvalue⟩
  · rw [hnone]
    exact ⟨{ d with success := false }, rfl, rfl, rfl, hpos, rfl⟩
  · rw [hv]
    refine ⟨{ d with lastUInt := v, pos := d.pos + bs.length, success := true }, rfl, rfl, rfl, hfits, ?_⟩
    refine ⟨bs, hbs, ⟨hterm, fun h5 => ?_⟩, rfl⟩
    have hval := hvalue (by decide) (by omega)
    rwa [Nat.zero_add, Nat.pow_zero, Nat.one_mul] at hval

theorem readGroups_lt {r : Nat × Nat} (h : d.readGroups shl n cur val offset = .ok (some r)) : r.2 < 2 ^ 32 := by
  induction n generalizing cur val offset with
  | zero => cases h
  | succ n ih =>
    rw [readGroups] at h
    split at h
    next => cases h
    next =>
      split at h
      next => cases h
      next =>
        split at h
        next => cases h
        next =>
          dsimp only at h
          split at h
          next => exact ih h
          next =>
            cases h
            exact Nat.mod_lt _ (by decide)

theorem readUInt_pos_lt {d' : BufferDeserializer} (h : d.readUInt shl = .ok d') (hsuccess : d'.success = true) :
    d'.pos < 2 ^ 32 := by
  obtain ⟨r, hgroups, h⟩ := bind_ok h
  cases r with
  | none =>
    cases h
    cases hsuccess
  | some r =>
    cases h
    exact readGroups_lt hgroups

theorem readString_reads (hpos : d.pos ≤ d.size) (hok : d.StepOk .string) :
    ∃ d', d.readString shl = .ok d' ∧ Reads d d' .string := by
  have hinside := d.inside
  have hnumber : d.StepOk .uint := hok.imp_right And.left
  obtain ⟨d₁, he, hbuffer, hsize, hpos₁, hread⟩ : ∃ d₁, d.readUInt shl = .ok d₁ ∧ Reads d d₁ .uint :=
    readUInt_reads hpos hnumber
  rw [readString, he]
  simp only [bind, Except.bind]
  by_cases hsuccess : d₁.success = true
  · rw [if_pos hsuccess] at hread
    obtain ⟨size, hsizes, ⟨hterm, hvalue⟩, hpos'⟩ := hread
    rw [if_pos hsuccess]
    have hsub : uintzSub d₁.size d₁.pos = d₁.size - d₁.pos := if_pos hpos₁
    by_cases hroom : uintzSub d₁.size d₁.pos ≥ d₁.lastUInt
    · have hfits : d₁.pos + d₁.lastUInt ≤ d₁.size := by omega
      -- the zero behind the string and its first byte have indexes that are not negative
      obtain ⟨hshort, hstart⟩ : d₁.lastUInt < 2 ^ 31 ∧ (d₁.lastUInt = 0 ∨ d₁.pos < 2 ^ 31) := by
        have hpositive := hterm.length_pos
        by_cases hsmall : d.size ≤ 2 ^ 31
        · omega
        · obtain ⟨h5, hstring⟩ := (hok.resolve_left hsmall).2 size hsizes hterm
          rw [hpos', hvalue h5]
          have hval := hvalue h5
          exact hstring (by omega)
      have hmem : d₁.copy d₁.pos d₁.lastUInt = .ok ((d₁.buffer.drop d₁.pos).take d₁.lastUInt) := by
        rw [copy, if_neg (Nat.not_le_of_lt hshort)]
        refine if_pos ?_
        rw [hbuffer]
        omega
      have hlen : ((d₁.buffer.drop d₁.pos).take d₁.lastUInt).length = d₁.lastUInt := by
        rw [List.length_take, List.length_drop, hbuffer]
        omega
      have hend : Crack.uint (d₁.pos + d₁.lastUInt) = d₁.pos + d₁.lastUInt := by
        have hend := readUInt_pos_lt he hsuccess
        exact Nat.mod_eq_of_lt (by omega)
      rw [if_pos hroom, hmem, hend]
      refine ⟨_, rfl, hbuffer, hsize, hfits, ?_⟩
      rw [if_pos hsuccess]
      refine ⟨size ++ (d₁.buffer.drop d₁.pos).take d₁.lastUInt, ?_, ⟨size, rfl, hterm, ?_⟩, ?_⟩
      · obtain ⟨rest, hrest⟩ := hsizes
        have hbehind : d₁.buffer.drop d₁.pos = rest := by
          rw [hbuffer, hpos', ← List.drop_drop, ← hrest, List.drop_left]
        rw [hbehind, ← hrest, List.prefix_append_right_inj]
        exact List.take_prefix _ _
      · intro h5
        exact hlen.trans (hvalue h5)
      · rw [List.length_append, hlen, ← Nat.add_assoc, ← hpos']
    · rw [if_neg hroom]
      exact ⟨_, rfl, hbuffer, hsize, Nat.le_trans hpos (Nat.le_of_eq hsize.symm), rfl⟩
  · rw [if_neg hsuccess] at hread ⊢
    refine ⟨d₁, rfl, hbuffer, hsize, hpos₁, ?_⟩
    rw [if_neg hsuccess]
    exact hread

/-- A float is read if there are enough bytes. -/
theorem readFloat_ok {count : Nat} (hpos : d.pos ≤ d.size) (hsmall : d.size ≤ 2 ^ 31 ∨ (d.pos + count ≤ d.size → d.pos < 2 ^ 31))
    (hcount : count < 2 ^ 31) :
    d.readFloat count = .ok none ∨ ∃ bs, bs <+: d.buffer.drop d.pos ∧ bs.length = count ∧
      d.pos + count ≤ d.size ∧ d.readFloat count = .ok (some (bs, d.pos + count)) := by
  have hinside := d.inside
  have hsub : uintzSub d.size d.pos = d.size - d.pos := if_pos hpos
  rw [readFloat]
  by_cases hroom : uintzSub d.size d.pos ≥ count
  · have hbytes : d.bytes d.pos count = .ok ((d.buffer.drop d.pos).take count) := if_pos (by omega)
    have hend : Crack.uint (d.pos + count) = d.pos + count := Nat.mod_eq_of_lt (by omega)
    refine .inr ⟨(d.buffer.drop d.pos).take count, List.take_prefix _ _, ?_, by omega, ?_⟩
    · rw [List.length_take, List.length_drop]
      omega
    · rw [if_pos hroom, hbytes, hend]
      rfl
  · exact .inl (if_neg hroom)

theorem readFloats_read (hpos : d.pos ≤ d.size) :
    (d.StepOk .float32 → ∃ d', d.readFloat32 = .ok d' ∧ Reads d d' .float32) ∧
      (d.StepOk .float64 → ∃ d', d.readFloat64 = .ok d' ∧ Reads d d' .float64) := by
  constructor
  · intro hok
    rw [readFloat32]
    rcases readFloat_ok hpos hok (by decide) with hnone | ⟨bs, hbs, hlen, hfits, hsome⟩
    · rw [hnone]
      exact ⟨_, rfl, rfl, rfl, hpos, rfl⟩
    · rw [hsome]
      exact ⟨_, rfl, rfl, rfl, hfits, bs, hbs, ⟨hlen, rfl⟩, hlen ▸ rfl⟩
  · intro hok
    rw [readFloat64]
    rcases readFloat_ok hpos hok (by decide) with hnone | ⟨bs, hbs, hlen, hfits, hsome⟩
    · rw [hnone]
      exact ⟨_, rfl, rfl, rfl, hpos, rfl⟩
    · rw [hsome]
      exact ⟨_, rfl, rfl, rfl, hfits, bs, hbs, ⟨hlen, rfl⟩, hlen ▸ rfl⟩

theorem read_reads (hpos : d.pos ≤ d.size) (hok : d.StepOk kind) :
    ∃ d', d.read shl kind = .ok d' ∧ Reads d d' kind := by
  cases kind with
  | uint => exact readUInt_reads hpos hok
  | string => exact readString_reads hpos hok
  | float32 => exact (readFloats_read hpos).1 hok
  | float64 => exact (readFloats_read hpos).2 hok

theorem Reached.pos_le (h : Reached shl d) : d.pos ≤ d.size := by
  induction h with
  | start hpos => exact hpos
  | step kind _ hok hstep ih =>
    obtain ⟨d', hread, -, -, hpos, -⟩ := read_reads ih hok
    rw [hstep] at hread
    injection hread with heq
    exact heq ▸ hpos

/-- In a run of reads that go well, each next one stays in the buffer and goes on by what it
decodes, or not at all. -/
theorem reads_of_reached (h : Reached shl d) (hok : d.StepOk kind) :
    d.pos ≤ d.size ∧ ∃ d', d.read shl kind = .ok d' ∧ Reads d d' kind :=
  ⟨h.pos_le, read_reads h.pos_le hok⟩

/-- A string that claims to be longer than what follows. -/
theorem long_string_stays : (start [1, 200, 9] 1).pos ≤ (start [1, 200, 9] 1).size ∧
    ∃ d', (start [1, 200, 9] 1).read (fun _ _ => 0) .string = .ok d' ∧ Reads (start [1, 200, 9] 1) d' .string :=
  reads_of_reached (.start (by decide)) (.inl (by decide))

theorem readUInt_far {buffer : List UInt8} (hlen : buffer.length = 2 ^ 31 + 1) :
    (start buffer (2 ^ 31)).readUInt shl = .error .wildAccess := by
  have hsize : (start buffer (2 ^ 31)).size = 2 ^ 31 + 1 := hlen
  have hgroups (n : Nat) : (start buffer (2 ^ 31)).readGroups shl (n + 1) (2 ^ 31) 0 0 = .error .wildAccess := by
    rw [readGroups, hsize, if_neg (by decide)]
    rfl
  rw [readUInt]
  change (readGroups shl _ _ (2 ^ 31) 0 0 >>= _) = _
  rw [hgroups]
  rfl

/-- A number at the last position of a buffer of 2 ^ 31 + 1 bytes. -/
theorem far_number_unread : ¬ ∃ d', (start (List.replicate (2 ^ 31 + 1) 0) (2 ^ 31)).read (fun _ _ => 0) .uint = .ok d' ∧
    Reads (start (List.replicate (2 ^ 31 + 1) 0) (2 ^ 31)) d' .uint := by
  rintro ⟨d', he, -⟩
  rw [read, readUInt_far List.length_replicate] at he
  cases he

end BufferDeserializer

end Deserializing

end Crack
