import Crack.Serial.ShortReads
import Crack.Serial.Deserializer

/-!
# Floats among what is read

A float is written as the bytes that it has in memory. The reader refills its window once for one.
-/
namespace Crack

namespace Serial

open Varint (Terminated)
open Loops (bind_ok)

open Deserializing (ReadKind)

/-- The memory of a float. -/
abbrev Bytes (n : Nat) := { bs : List UInt8 // bs.length = n }

inductive Value where
  | uint (val : UInt32)
  | string (val : List UInt8)
  | float32 (val : Bytes 4)
  | float64 (val : Bytes 8)
  deriving DecidableEq, Repr

namespace Value

def kind : Value → ReadKind
  | .uint _ => .uint
  | .string _ => .string
  | .float32 _ => .float32
  | .float64 _ => .float64

def write : Value → List UInt8
  | .uint val => writeUInt val.toNat
  | .string val => writeString val
  | .float32 val => val.1
  | .float64 val => val.1

end Value

def writeValues (values : List Value) : List UInt8 := values.flatMap Value.write

namespace SerialReader

open ManagedBuffer

def ensureBufferSize (r : SerialReader) (size : Nat) : Except Stop SerialReader :=
  if uintzSub r.buf.size r.pos < size then do
    let buf ← r.buf.compact r.pos
    let (bytes, src) := r.src.read (uintzSub buf.cap buf.size)
    let buf ← buf.deliver buf.size bytes
    if buf.size < size then .error (.thrown "Ran out of data.") else return ⟨buf, 0, src⟩
  else return r

def readFloat (r : SerialReader) (size : Nat) : Except Stop (Bytes size × SerialReader) := do
  let r ← r.ensureBufferSize size
  let bytes ← r.buf.string r.pos size
  if h : bytes.length = size then return (⟨bytes, h⟩, { r with pos := uint (r.pos + size) })
  else .error .wildAccess

def readFloat32 (r : SerialReader) : Except Stop (Bytes 4 × SerialReader) := r.readFloat 4

def readFloat64 (r : SerialReader) : Except Stop (Bytes 8 × SerialReader) := r.readFloat 8

def readValue (r : SerialReader) : ReadKind → Except Stop (Value × SerialReader)
  | .uint => do
    let (val, r) ← r.readUInt true
    return (.uint (UInt32.ofNat val), r)
  | .string => do
    match ← r.readString true with
    | (some val, r) => return (.string val, r)
    | (none, _) => .error .wildAccess
  | .float32 => do
    let (val, r) ← r.readFloat32
    return (.float32 val, r)
  | .float64 => do
    let (val, r) ← r.readFloat64
    return (.float64 val, r)

/-- Where what follows a number of `n` bytes starts, when the number has been read. -/
def place (r : SerialReader) (n : Nat) : Nat := if r.pos + n ≤ r.buf.size then r.pos + n else n

/-- A string behind a number of `n` bytes has only indexes of an `int`, with the zero behind it. -/
def Fits (r : SerialReader) (n size : Nat) : Prop := r.place n + size + 1 ≤ 2 ^ 31

/-- What is in the window and what the next read may return are enough. -/
def InOneRead (r : SerialReader) (size : Nat) : Prop := size ≤ r.buf.size - r.pos + (r.src.splits 0 + 1)

instance (r : SerialReader) (n size : Nat) : Decidable (r.Fits n size) := inferInstanceAs (Decidable (_ ≤ _))

instance (r : SerialReader) (size : Nat) : Decidable (r.InOneRead size) := inferInstanceAs (Decidable (_ ≤ _))

end SerialReader

/-- A value that the reader can read now. -/
def Value.StepOk (r : SerialReader) : Value → Prop
  | .uint _ => True
  | .string val => r.Fits (writeUInt val.length).length val.length
  | .float32 _ => r.InOneRead 4
  | .float64 _ => r.InOneRead 8

def Value.IsFloat : Value → Prop
  | .float32 _ | .float64 _ => True
  | .uint _ | .string _ => False

instance (r : SerialReader) : (v : Value) → Decidable (v.StepOk r)
  | .uint _ => isTrue trivial
  | .string _ => inferInstanceAs (Decidable (r.Fits _ _))
  | .float32 _ => inferInstanceAs (Decidable (r.InOneRead 4))
  | .float64 _ => inferInstanceAs (Decidable (r.InOneRead 8))

namespace SerialReader

open ManagedBuffer

/-- A reader of what was written, after reads that go well, and the values that are left. -/
inductive Reached (values : List Value) (splits : Nat → Nat) : List Value → SerialReader → Prop
  | start : Reached values splits values (init ⟨writeValues values, splits⟩)
  | step {v x : Value} {rest : List Value} {r r' : SerialReader} : Reached values splits (v :: rest) r → v.StepOk r →
    r.readValue v.kind = .ok (x, r') → Reached values splits rest r'

variable {r r' : SerialReader} {K n size : Nat} {bs rest str : List UInt8} {splits : Nat → Nat} {v : Value}

theorem Moved.place_eq (h : Moved r r' r.pos n) : r'.pos = r.place n := by
  rw [Moved] at h
  rw [place]
  split at h
  · subst h
    rw [if_pos ‹_›]
  · rw [if_neg ‹_›, h.1, Nat.sub_self, Nat.zero_add]

theorem uint_lt (n : Nat) : uint n < 2 ^ 32 := Nat.mod_lt n (by decide)

/-- The size of a string is read, as the `uint` that was written. -/
theorem Ready.readSize (u : Bool) (h : Ready r (writeString str ++ rest) K) :
    ∃ r', r.readUInt u = .ok (uint str.length, r') ∧ Ready r' (str ++ rest) K ∧
      r'.pos = r.place (writeUInt (uint str.length)).length := by
  rw [writeString, List.append_assoc] at h
  obtain ⟨hterm, hvalue, hlen⟩ := writeUInt_spec (uint_lt str.length)
  obtain ⟨r', he, h', hmoved⟩ := h.readNumber u hterm hlen
  rw [hvalue, Nat.mod_eq_of_lt (uint_lt _)] at he
  exact ⟨r', he, h', hmoved.place_eq⟩

theorem Ready.readString_fits (u : Bool) (h : Ready r (writeString str ++ rest) (2 ^ 31))
    (hfits : r.Fits (writeUInt str.length).length str.length) :
    ∃ r', r.readString u = .ok (some str, r') ∧ Ready r' rest (2 ^ 31) := by
  rw [Fits] at hfits
  have hlt : str.length < endMark := by
    rw [endMark]
    omega
  have hsize : uint str.length = str.length := Nat.mod_eq_of_lt (by omega)
  obtain ⟨r₁, he₁, h₁, hpos⟩ := h.readSize u
  rw [hsize] at he₁ hpos
  rw [← hpos] at hfits
  obtain ⟨r₂, he₂, h₂⟩ := h₁.readFixed (u := u) hfits
  refine ⟨r₂, ?_, h₂⟩
  rw [SerialReader.readString, he₁]
  simp only [bind, Except.bind, if_neg (Nat.ne_of_lt hlt), he₂]
  rfl

/-- The window is refilled once for a value that is not in it as a whole. -/
theorem Ready.ensureBufferSize (h : Ready r rest K) (hsize : size ≤ bufSize) (hrest : size ≤ rest.length) :
    (r.InOneRead size → ∃ r', r.ensureBufferSize size = .ok r' ∧ Ready r' rest K ∧ r'.pos + size ≤ r'.buf.size) ∧
      (¬ r.InOneRead size → r.ensureBufferSize size = .error (.thrown "Ran out of data.")) := by
  have hpos := h.pos
  have hall := h.length_pending
  have hleast := h.least
  have hsub : uintzSub r.buf.size r.pos = r.buf.size - r.pos := if_pos hpos
  rw [InOneRead, SerialReader.ensureBufferSize, hsub]
  by_cases hlt : r.buf.size - r.pos < size
  · have hlimit := Nat.le_trans h.size (Nat.le_trans h.cap h.small)
    obtain ⟨buf, hbuf, hsize', hcap, hdata⟩ := compact_ok hpos h.size (by omega) (by omega)
    have hcapacity : buf.size ≤ buf.cap := by
      rw [hsize', hcap]
      exact Nat.le_trans (Nat.sub_le _ _) h.size
    have hroom : uintzSub buf.cap buf.size = buf.cap - buf.size := if_pos hcapacity
    have hmoved : Ready ⟨buf, 0, r.src⟩ rest K :=
      ⟨Nat.zero_le _, hcapacity, hcap ▸ hleast, hcap ▸ h.cap, h.small, by rw [pending, hdata]; exact h.unread⟩
    have hall' : buf.size + (buf.cap - buf.size) ≤ buf.cap := Nat.le_of_eq (Nat.add_sub_cancel' hcapacity)
    have hfill := hmoved.fill (buf.cap - buf.size) hall'
    have hdeliver : buf.deliver buf.size (r.src.read (buf.cap - buf.size)).1 =
        .ok (buf.receive buf.size (r.src.read (buf.cap - buf.size)).1) := hmoved.deliver hall'
    have hread : (r.src.read (buf.cap - buf.size)).1.length =
        min (r.src.splits 0 + 1) (min (buf.cap - buf.size) r.src.left.length) := by
      rw [Source.read, List.length_take, Source.amount]
      omega
    have hgrown : (buf.receive buf.size (r.src.read (buf.cap - buf.size)).1).size =
        buf.size + (r.src.read (buf.cap - buf.size)).1.length := rfl
    rw [if_pos hlt, hbuf]
    simp only [bind, Except.bind, hroom, hdeliver]
    by_cases hless : (buf.receive buf.size (r.src.read (buf.cap - buf.size)).1).size < size
    · rw [if_pos hless]
      exact ⟨fun hone => by omega, fun _ => rfl⟩
    · rw [if_neg hless]
      refine ⟨fun _ => ⟨_, rfl, hfill, ?_⟩, fun hone => by omega⟩
      rw [Nat.zero_add]
      exact Nat.le_of_not_lt hless
  · rw [if_neg hlt]
    exact ⟨fun _ => ⟨r, rfl, h, by omega⟩, fun hone => by omega⟩

theorem Ready.readFloat (val : Bytes size) (h : Ready r (val.1 ++ rest) K) (hsize : size ≤ bufSize) :
    (r.InOneRead size → ∃ r', r.readFloat size = .ok (val, r') ∧ Ready r' rest K) ∧
      (¬ r.InOneRead size → r.readFloat size = .error (.thrown "Ran out of data.")) := by
  obtain ⟨bs, rfl⟩ := val
  have hle : bs.length ≤ (bs ++ rest).length := by
    rw [List.length_append]
    exact Nat.le_add_right _ _
  obtain ⟨hone, hmore⟩ := h.ensureBufferSize hsize hle
  rw [SerialReader.readFloat]
  constructor
  · intro hin
    obtain ⟨r₁, he₁, h₁, hwindow⟩ := hone hin
    obtain ⟨hcopy, h₂⟩ := h₁.string hwindow
    have hend : uint (r₁.pos + bs.length) = r₁.pos + bs.length := by
      have hcap := Nat.le_trans h₁.size h₁.cap
      have hsmall := h₁.small
      exact Nat.mod_eq_of_lt (by omega)
    rw [he₁]
    simp only [bind, Except.bind, hcopy, hend, dif_pos]
    exact ⟨_, rfl, h₂⟩
  · intro hout
    rw [hmore hout]
    rfl

theorem Ready.readValue (h : Ready r (v.write ++ rest) (2 ^ 31)) :
    (v.StepOk r → ∃ r', r.readValue v.kind = .ok (v, r') ∧ Ready r' rest (2 ^ 31)) ∧
      (v.IsFloat → ¬ v.StepOk r → ¬ ∃ r', r.readValue v.kind = .ok (v, r')) := by
  cases v with
  | uint val =>
    obtain ⟨r', he, h'⟩ := h.readUInt (u := true) val.toNat_lt
    refine ⟨fun _ => ⟨r', ?_, h'⟩, fun hfloat => absurd hfloat id⟩
    simp only [SerialReader.readValue, Value.kind, he, bind, Except.bind, UInt32.ofNat_toNat]
    rfl
  | string val =>
    refine ⟨fun hfits => ?_, fun hfloat => absurd hfloat id⟩
    obtain ⟨r', he, h'⟩ := h.readString_fits true hfits
    refine ⟨r', ?_, h'⟩
    simp only [SerialReader.readValue, Value.kind, he, bind, Except.bind]
    rfl
  | float32 val =>
    obtain ⟨hone, hmore⟩ := h.readFloat val (by decide)
    constructor
    · intro hok
      obtain ⟨r', he, h'⟩ := hone hok
      refine ⟨r', ?_, h'⟩
      simp only [SerialReader.readValue, Value.kind, readFloat32, he, bind, Except.bind]
      rfl
    · rintro - hnot ⟨r', he⟩
      simp only [SerialReader.readValue, Value.kind, readFloat32, hmore hnot, bind, Except.bind] at he
      cases he
  | float64 val =>
    obtain ⟨hone, hmore⟩ := h.readFloat val (by decide)
    constructor
    · intro hok
      obtain ⟨r', he, h'⟩ := hone hok
      refine ⟨r', ?_, h'⟩
      simp only [SerialReader.readValue, Value.kind, readFloat64, he, bind, Except.bind]
      rfl
    · rintro - hnot ⟨r', he⟩
      simp only [SerialReader.readValue, Value.kind, readFloat64, hmore hnot, bind, Except.bind] at he
      cases he

theorem Reached.ready {values left : List Value} (h : Reached values splits left r) :
    Ready r (writeValues left) (2 ^ 31) := by
  induction h with
  | start => exact (init_ready _).mono (by decide) (by decide)
  | step _ hok he ih =>
    rw [writeValues, List.flatMap_cons] at ih
    obtain ⟨r'', he', h'⟩ := ih.readValue.1 hok
    rw [he] at he'
    cases he'
    exact h'

/-- After reads that went well, a value is read back that meets the condition, and no float that does not. -/
theorem Reached.value_read {values rest : List Value} (h : Reached values splits (v :: rest) r) :
    (v.StepOk r → ∃ r', r.readValue v.kind = .ok (v, r')) ∧
      (v.IsFloat → (∃ r', r.readValue v.kind = .ok (v, r')) → v.StepOk r) := by
  have hready := h.ready
  rw [writeValues, List.flatMap_cons] at hready
  obtain ⟨hreads, hfails⟩ := hready.readValue
  constructor
  · intro hok
    obtain ⟨r', he, -⟩ := hreads hok
    exact ⟨r', he⟩
  · intro hfloat hread
    by_contra hnot
    exact hfails hfloat hnot hread

/-- The bytes of `1.0`. -/
def one : Value := .float32 ⟨[0, 0, 128, 63], rfl⟩

theorem one_at_once : ∃ r', (init ⟨writeValues [one], fun _ => 3⟩).readValue .float32 = .ok (one, r') :=
  Reached.start.value_read.1 (by decide)

/-- A source that returns a byte at a time is taken for one that has nothing left. -/
theorem one_by_one :
    (init ⟨writeValues [one], fun _ => 0⟩).readValue .float32 = .error (.thrown "Ran out of data.") := by
  have hinit : Ready (init ⟨writeValues [one], fun _ => 0⟩) ([0, 0, 128, 63] ++ []) bufSize := init_ready _
  have hmore : (init ⟨writeValues [one], fun _ => 0⟩).readFloat 4 = .error (.thrown "Ran out of data.") :=
    (hinit.readFloat ⟨[0, 0, 128, 63], rfl⟩ (by decide)).2 (by decide)
  rw [SerialReader.readValue, readFloat32, hmore]
  rfl

end SerialReader

end Serial

end Crack
