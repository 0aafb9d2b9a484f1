import Crack.Cont.HashTable

/-!
# Buffers

A managed buffer has the memory that it owns, as long as its capacity, and a size. A
reader fills the memory from some place on.
-/
namespace Crack

/-- The difference of two `uint`. -/
def uintSub (a b : Nat) : Nat := if b ≤ a then a - b else a + 2 ^ 32 - b

/-- The difference of two `uintz`. -/
def uintzSub (a b : Nat) : Nat := if b ≤ a then a - b else a + 2 ^ 64 - b

/-- How an operation on buffers ends other than by returning. -/
inductive Stop where
  /-- An `Exception`. -/
  | thrown (text : String)
  | indexError (text : String)
  /-- The `AssertionError` of an `@assert`. -/
  | assertion
  | abort
  | wildAccess
  | undefinedShift
  | forever
  deriving DecidableEq, Repr

structure ManagedBuffer where
  mem : List UInt8
  size : Nat
  deriving DecidableEq, Repr

namespace ManagedBuffer

/-- `malloc` leaves anything in the memory; here it is zeros. -/
def init (cap : Nat) : ManagedBuffer := ⟨List.replicate cap 0, 0⟩

variable (b : ManagedBuffer)

def cap : Nat := b.mem.length

/-- What is in the buffer. -/
def data : List UInt8 := b.mem.take b.size

/-- What a copy through a `byteptr` can reach in a memory: an index has 32 bits and a sign, so that from
2 ^ 31 on it lies before the memory. Where no bytes are copied nothing is touched. -/
def InMemory (cap index count : Nat) : Prop := count = 0 ∨ uint index < 2 ^ 31 ∧ uint index + count ≤ cap

instance (cap index count : Nat) : Decidable (InMemory cap index count) := inferInstanceAs (Decidable (_ ∨ _))

/-- `oper []` for a `uint` -/
def get (index : Nat) : Except Stop UInt8 :=
  if index ≥ b.size then .error (.indexError "string index out of bounds")
  else if index ≥ 2 ^ 31 then .error .wildAccess
  else match b.mem[index]? with
    | some c => .ok c
    | none => .error .wildAccess

def put (start : Nat) (bytes : List UInt8) : ManagedBuffer :=
  { b with mem := b.mem.take start ++ bytes ++ b.mem.drop (start + bytes.length) }

/-- A reader puts bytes into the memory, and the size grows by their number. -/
def receive (start : Nat) (bytes : List UInt8) : ManagedBuffer := ⟨(b.put start bytes).mem, b.size + bytes.length⟩

/-- A reader is given the memory from `buffer + start` on. -/
def deliver (start : Nat) (bytes : List UInt8) : Except Stop ManagedBuffer :=
  if InMemory b.cap start bytes.length then .ok (b.receive (uint start) bytes) else .error .wildAccess

/-- A capacity of zero stands for the first one, whatever there is now. The capacity is compared as a `uint`. -/
def grow (newCap : Nat) : Except Stop ManagedBuffer :=
  if newCap ≠ 0 ∧ newCap ≤ uint b.cap then .error .abort
  else
    let newCap := if newCap = 0 then 16 else newCap
    if newCap < b.size then .error .wildAccess
    else .ok { b with mem := b.mem.take b.size ++ List.replicate (newCap - b.size) 0 }

/-- The index of a byte at or behind a place. -/
def lfind (c : UInt8) (pos : Nat) : Option Nat := ((b.data.drop pos).findIdx? (· == c)).map (pos + ·)

/-- What is read from `buffer + start` on. -/
def string (start len : Nat) : Except Stop (List UInt8) :=
  if InMemory b.cap start len then .ok ((b.mem.drop (uint start)).take len) else .error .wildAccess

/-- The sum of two `uintz`. -/
def uintzAdd (m n : Nat) : Nat := (m + n) % 2 ^ 64

/-- `memmove` to `buffer + uint(start)`, with a count that is a `uint`, too. -/
def memmove (start : Nat) (bytes : List UInt8) : Except Stop ManagedBuffer :=
  if InMemory b.cap start (uint bytes.length) then .ok (b.put (uint start) (bytes.take (uint bytes.length)))
  else .error .wildAccess

def enlarge (size : Nat) : ManagedBuffer := if size > b.size then { b with size } else b

/-- `move(uintz start, byteptr ptr, uintz count)`, with what is read behind the pointer. -/
def moveFrom (start count : Nat) (bytes : Except Stop (List UInt8)) : Except Stop ManagedBuffer := do
  if uintzAdd start count > b.cap then .error (.indexError "Move target out of bounds")
  else
    let b ← b.memmove start (← bytes)
    return b.enlarge (uintzAdd start count)

def move (start : Nat) (bytes : List UInt8) : Except Stop ManagedBuffer := b.moveFrom start bytes.length (.ok bytes)

/-- `move(uintz newStart, uintz oldStart, uintz count)` -/
def moveWithin (newStart oldStart count : Nat) : Except Stop ManagedBuffer := do
  if uintzAdd oldStart count > b.size then .error (.indexError "Move source out of bounds")
  else
    let b ← b.moveFrom newStart count (b.string oldStart (uint count))
    return b.enlarge (uintzAdd newStart count)

def compact (pos : Nat) : Except Stop ManagedBuffer := do
  if pos > b.size then .error (.indexError "Compress argument out of bounds")
  else
    let b' ← b.moveWithin 0 pos (b.size - pos)
    return { b' with size := b.size - pos }

/-- `extend` of an `AppendBuffer` first grows to the size that it needs, and at least to double the capacity. -/
def makeRoom (newSize : Nat) : Except Stop ManagedBuffer :=
  if newSize > uint b.cap then b.grow (if newSize > uint (b.cap * 2) then newSize else uint (b.cap * 2)) else .ok b

def extend (bytes : List UInt8) : Except Stop ManagedBuffer := do
  let newSize := uint (b.size + bytes.length)
  let b ← b.makeRoom newSize
  -- the `move` to the end: the two memories together have less than 2 ^ 64 bytes
  if b.size + bytes.length > b.cap then .error (.indexError "Move target out of bounds")
  else
    let b ← b.memmove b.size bytes
    return { b with size := newSize }

variable {b} {pos start : Nat} {bytes : List UInt8} {newCap : Nat} {len : Nat}

theorem length_data (h : b.size ≤ b.cap) : b.data.length = b.size := by
  rw [data, List.length_take]
  exact Nat.min_eq_left h

theorem cap_put (h : start + bytes.length ≤ b.cap) : (b.put start bytes).cap = b.cap := by
  simp only [put, cap, List.length_append, List.length_take, List.length_drop] at h ⊢
  omega

theorem size_receive : (b.receive start bytes).size = b.size + bytes.length := rfl

theorem cap_receive (h : start + bytes.length ≤ b.cap) : (b.receive start bytes).cap = b.cap := cap_put h

/-- What is read behind the data is added to it. -/
theorem data_receive (h : b.size + bytes.length ≤ b.cap) : (b.receive b.size bytes).data = b.data ++ bytes := by
  have hlen : (b.mem.take b.size).length = b.size := length_data (Nat.le_of_add_right_le h)
  have hall : (b.mem.take b.size ++ bytes).length = b.size + bytes.length := by rw [List.length_append, hlen]
  rw [data, size_receive, ← hall]
  exact List.take_left

theorem uint_of_lt {n : Nat} (h : n < 2 ^ 32) : uint n = n := Nat.mod_eq_of_lt h

theorem uintzAdd_of_lt {m n : Nat} (h : m + n < 2 ^ 64) : uintzAdd m n = m + n := Nat.mod_eq_of_lt h

theorem inMemory_of_lt {cap count : Nat} (hplace : start < 2 ^ 31 ∨ count = 0) (h : start + count ≤ cap) :
    InMemory cap start count := by
  rcases hplace with hlt | h0
  · have huint : uint start = start := uint_of_lt (by omega)
    exact .inr ⟨huint.symm ▸ hlt, huint.symm ▸ h⟩
  · exact .inl h0

theorem put_nil : b.put start [] = b := by
  rw [put, List.append_nil, List.length_nil, Nat.add_zero, List.take_append_drop]

theorem memmove_ok (hplace : start < 2 ^ 31 ∨ bytes = []) (h : start + bytes.length ≤ b.cap)
    (hlen : bytes.length < 2 ^ 32) : b.memmove start bytes = .ok (b.put start bytes) := by
  have hcount : uint bytes.length = bytes.length := uint_of_lt hlen
  have hplace' : start < 2 ^ 31 ∨ bytes.length = 0 := hplace.imp_right List.length_eq_zero_iff.mpr
  rw [memmove, hcount, if_pos (inMemory_of_lt hplace' h), List.take_length]
  rcases hplace with hlt | rfl
  · rw [uint_of_lt (by omega)]
  · rw [put_nil, put_nil]

theorem string_eq (hplace : start < 2 ^ 31 ∨ len = 0) (h : start + len ≤ b.cap) :
    b.string start len = .ok ((b.mem.drop start).take len) := by
  rw [string, if_pos (inMemory_of_lt hplace h)]
  rcases hplace with hlt | rfl
  · rw [uint_of_lt (by omega)]
  · rw [List.take_zero, List.take_zero]

theorem enlarge_of_le {size : Nat} (h : size ≤ b.size) : b.enlarge size = b := if_neg (Nat.not_lt_of_le h)

theorem compact_ok (hpos : pos ≤ b.size) (h : b.size ≤ b.cap) (hplace : pos < 2 ^ 31 ∨ pos = b.size)
    (hsize : b.size < 2 ^ 32) :
    ∃ b', b.compact pos = .ok b' ∧ b'.size = b.size - pos ∧ b'.cap = b.cap ∧ b'.data = b.data.drop pos := by
  have hlen : ((b.mem.drop pos).take (b.size - pos)).length = b.size - pos := by
    rw [List.length_take, List.length_drop]
    unfold cap at h
    omega
  have hsource : uintzAdd pos (b.size - pos) = b.size := by
    rw [uintzAdd_of_lt (by omega)]
    omega
  have htarget : uintzAdd 0 (b.size - pos) = b.size - pos := by
    rw [uintzAdd_of_lt (by omega)]
    omega
  have hcount : uint (b.size - pos) = b.size - pos := uint_of_lt (by omega)
  have hmove : b.memmove 0 ((b.mem.drop pos).take (b.size - pos)) =
      .ok (b.put 0 ((b.mem.drop pos).take (b.size - pos))) :=
    memmove_ok (.inl (by decide)) (by omega) (by omega)
  have hsame : (b.put 0 ((b.mem.drop pos).take (b.size - pos))).enlarge (b.size - pos) =
      b.put 0 ((b.mem.drop pos).take (b.size - pos)) := enlarge_of_le (Nat.sub_le _ _)
  refine ⟨{ b.put 0 ((b.mem.drop pos).take (b.size - pos)) with size := b.size - pos }, ?_, rfl, ?_, ?_⟩
  · rw [compact, if_neg (Nat.not_lt_of_le hpos), moveWithin, hsource, if_neg (Nat.lt_irrefl _), moveFrom, htarget,
      if_neg (by omega), hcount, string_eq (hplace.imp_right fun heq => by omega) (by omega)]
    simp only [bind, Except.bind, pure, Except.pure, hmove, hsame]
  · exact cap_put (by omega)
  · simp only [data, put, List.take_zero, List.nil_append]
    rw [List.take_left' hlen, List.take_drop]
    congr 2
    omega

theorem grow_ok (hcap : uint b.cap < newCap) (hsize : b.size ≤ newCap) (h : b.size ≤ b.cap) :
    ∃ b', b.grow newCap = .ok b' ∧ b'.size = b.size ∧ b'.cap = newCap ∧ b'.data = b.data := by
  have hlen : (b.mem.take b.size).length = b.size := length_data h
  refine ⟨⟨b.mem.take b.size ++ List.replicate (newCap - b.size) 0, b.size⟩, ?_, rfl, ?_, ?_⟩
  · rw [grow, if_neg (by omega), if_neg (show newCap ≠ 0 by omega), if_neg (Nat.not_lt_of_le hsize)]
  · rw [cap, List.length_append, hlen, List.length_replicate]
    omega
  · rw [data, List.take_left' hlen]
    rfl

theorem size_grow {b' : ManagedBuffer} (he : b.grow newCap = .ok b') : b'.size = b.size := by
  rw [grow] at he
  split at he
  next => cases he
  next =>
    dsimp only at he
    generalize (if newCap = 0 then 16 else newCap) = cap at he
    split at he <;> cases he
    rfl

theorem uint_le (n : Nat) : uint n ≤ n := Nat.mod_le _ _

theorem string_ok (hplace : start < 2 ^ 31 ∨ len = 0) (hlen : start + len ≤ b.size) (h : b.size ≤ b.cap) :
    b.string start len = .ok ((b.data.drop start).take len) := by
  rw [string_eq hplace (Nat.le_trans hlen h), data, List.drop_take, List.take_take, Nat.min_eq_left (by omega)]

theorem makeRoom_ok {newSize : Nat} (h : b.size ≤ b.cap) (hsize : b.size ≤ newSize) :
    ∃ b', b.makeRoom newSize = .ok b' ∧ b'.size = b.size ∧ newSize ≤ b'.cap ∧ b'.data = b.data := by
  rw [makeRoom]
  by_cases hroom : newSize > uint b.cap
  · rw [if_pos hroom]
    by_cases hdouble : newSize > uint (b.cap * 2)
    · rw [if_pos hdouble]
      obtain ⟨b', he, hsize', hcap', hdata'⟩ := grow_ok hroom hsize h
      exact ⟨b', he, hsize', Nat.le_of_eq hcap'.symm, hdata'⟩
    · rw [if_neg hdouble]
      have hle : newSize ≤ uint (b.cap * 2) := Nat.le_of_not_lt hdouble
      obtain ⟨b', he, hsize', hcap', hdata'⟩ :=
        grow_ok (Nat.lt_of_lt_of_le hroom hle) (Nat.le_trans hsize hle) h
      exact ⟨b', he, hsize', hcap' ▸ hle, hdata'⟩
  · have hle := uint_le b.cap
    exact ⟨b, if_neg hroom, rfl, by omega, rfl⟩

theorem extend_ok (h : b.size ≤ b.cap) (hplace : b.size < 2 ^ 31 ∨ bytes = [])
    (hsmall : b.size + bytes.length < 2 ^ 32) :
    ∃ b', b.extend bytes = .ok b' ∧ b'.size = b.size + bytes.length ∧ b'.size ≤ b'.cap ∧ b'.data = b.data ++ bytes := by
  have hsize : uint (b.size + bytes.length) = b.size + bytes.length := Nat.mod_eq_of_lt hsmall
  obtain ⟨b₁, he₁, hsize₁, hcap₁, hdata₁⟩ := makeRoom_ok h (Nat.le_add_right b.size bytes.length)
  have hlt : b₁.size + bytes.length ≤ b₁.cap := by omega
  have hmove := memmove_ok (hsize₁ ▸ hplace) hlt (by omega)
  refine ⟨b₁.receive b₁.size bytes, ?_, ?_, ?_, ?_⟩
  · rw [extend, hsize, he₁]
    simp only [bind, Except.bind]
    rw [if_neg (Nat.not_lt_of_le hlt), hmove, receive, hsize₁]
    rfl
  · rw [size_receive, hsize₁]
  · rw [size_receive, cap_receive hlt]
    exact hlt
  · rw [data_receive hlt, hdata₁]

theorem get_ok {c : UInt8} {rest : List UInt8} (h : b.data.drop pos = c :: rest) (hsmall : pos < 2 ^ 31) :
    b.get pos = .ok c := by
  have hget : b.data[pos]? = some c := by
    rw [← List.head?_drop, h]
    rfl
  rw [data, List.getElem?_take] at hget
  split at hget
  next hlt => rw [get, if_neg (Nat.not_le_of_lt hlt), if_neg (Nat.not_le_of_lt hsmall), hget]
  next => cases hget

theorem deliver_ok (hplace : start < 2 ^ 31 ∨ bytes = []) (h : start + bytes.length ≤ b.cap) :
    b.deliver start bytes = .ok (b.receive start bytes) := by
  rw [deliver, if_pos (inMemory_of_lt (hplace.imp_right List.length_eq_zero_iff.mpr) h)]
  rcases hplace with hlt | rfl
  · rw [uint_of_lt (by omega)]
  · rw [receive, receive, put_nil, put_nil]

end ManagedBuffer

/-- A reader with the bytes that are left. `splits` says of each read how many bytes
it returns beyond the first one, if there is room and there are so many. -/
structure Source where
  left : List UInt8
  splits : Nat → Nat

namespace Source

variable (s : Source)

def amount (room : Nat) : Nat := min (s.splits 0 + 1) (min room s.left.length)

/-- The bytes that one read returns, and the reader after it. -/
def read (room : Nat) : List UInt8 × Source :=
  (s.left.take (s.amount room), ⟨s.left.drop (s.amount room), fun i => s.splits (i + 1)⟩)

variable {s} {room : Nat}

theorem read_append : (s.read room).1 ++ (s.read room).2.left = s.left := List.take_append_drop _ _

theorem length_read_le : (s.read room).1.length ≤ room := by
  rw [read, List.length_take, amount]
  omega

/-- With room, a read returns something until there is nothing left. -/
theorem read_pos (hroom : 0 < room) (hleft : s.left ≠ []) : 0 < (s.read room).1.length := by
  have hlen := List.length_pos_of_ne_nil hleft
  rw [read, List.length_take, amount]
  omega

end Source

end Crack
