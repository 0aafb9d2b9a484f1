import Crack.Lang.Buffers
import Crack.Lib.Overwriting

/-!
# AppendBuffer

The operations of a `WriteBuffer`, a `ManagedBuffer` and an `AppendBuffer`, and runs of them. A
copy out of the memory it goes to names a place there; any other copy names the bytes.
-/
namespace Crack

open Overwriting (Overwritten write overwritten_window)

inductive BufferOp where
  | append (c : UInt8)
  /-- `extend` with other memory -/
  | extend (bytes : List UInt8)
  /-- `extend` with a part of the buffer itself -/
  | extendOwn (start len : Nat)
  /-- `extend` with the front of another buffer -/
  | extendPart (other : List UInt8) (len : Nat)
  /-- `move` of other memory -/
  | move (start : Nat) (bytes : List UInt8)
  /-- `move` within the buffer -/
  | moveWithin (newStart oldStart count : Nat)
  /-- `move` of another buffer -/
  | moveBuffer (newStart : Nat) (other : List UInt8)
  | compact (pos : Nat)
  | grow (newCap : Nat)
  | orphan

namespace ManagedBuffer

variable (b : ManagedBuffer)

/-- `buffer[size++] = c` -/
def appendByte (c : UInt8) : Except Stop ManagedBuffer := b.deliver b.size [c]

/-- `append` first doubles the capacity of a full buffer. -/
def makeByteRoom : Except Stop ManagedBuffer := if b.size ≥ b.cap then b.grow (uint (b.cap * 2)) else .ok b

def append (c : UInt8) : Except Stop ManagedBuffer := do
  let b ← b.makeByteRoom
  b.appendByte c

/-- `move(uintz newStart, Buffer buf)` -/
def moveBuffer (newStart : Nat) (other : List UInt8) : Except Stop ManagedBuffer := do
  if uintzAdd newStart other.length > b.cap then .error (.indexError "Move target out of bounds")
  else
    let b ← b.move newStart other
    return b.enlarge (uintzAdd newStart other.length)

/-- When the buffer grows, the part that is to be copied is freed before. -/
def extendOwn (start len : Nat) : Except Stop ManagedBuffer := do
  if uint (b.size + len) > uint b.cap ∧ len ≠ 0 then .error .wildAccess
  else b.extend (← b.string start len)

def extendPart (other : List UInt8) (len : Nat) : Except Stop ManagedBuffer :=
  if len > other.length then .error (.indexError "Extend length out of bounds") else b.extend (other.take len)

def orphan : ManagedBuffer := ⟨[], 0⟩

def call : BufferOp → Except Stop ManagedBuffer
  | .append c => b.append c
  | .extend bytes => b.extend bytes
  | .extendOwn start len => b.extendOwn start len
  | .extendPart other len => b.extendPart other len
  | .move start bytes => b.move start bytes
  | .moveWithin newStart oldStart count => b.moveWithin newStart oldStart count
  | .moveBuffer newStart other => b.moveBuffer newStart other
  | .compact pos => b.compact pos
  | .grow newCap => b.grow newCap
  | .orphan => .ok orphan

/-- An `IndexError` is thrown before anything is changed. -/
def step (op : BufferOp) : Except Stop ManagedBuffer :=
  match b.call op with
  | .error (.indexError _) => .ok b
  | result => result

/-- What an operation makes of a sequence of bytes; a move has to end within `cap`. -/
def Plain (cap : Nat) (xs xs' : List UInt8) : BufferOp → Prop
  | .append c => xs' = xs ++ [c]
  | .extend bytes => xs' = xs ++ bytes
  | .extendOwn start len => xs' = xs ++ (xs.drop start).take len
  | .extendPart other len => xs' = if len ≤ other.length then xs ++ other.take len else xs
  | .move start bytes | .moveBuffer start bytes =>
    if start + bytes.length ≤ cap then Overwritten xs xs' start bytes else xs' = xs
  | .moveWithin newStart oldStart count =>
    if oldStart + count ≤ xs.length ∧ newStart + count ≤ cap then
      Overwritten xs xs' newStart ((xs.drop oldStart).take count)
    else xs' = xs
  | .compact pos => xs' = if pos ≤ xs.length then xs.drop pos else xs
  | .grow _ => xs' = xs
  | .orphan => xs' = []

/-- The sizes, places and capacities that an operation works with are below 2 ^ 32. -/
def Small : BufferOp → Prop
  | .append _ => b.size + 1 < 2 ^ 32
  | .extend bytes => b.size + bytes.length < 2 ^ 32
  | .extendOwn start len => start + len ≤ b.size ∧ b.size + len < 2 ^ 32
  | .extendPart other len => b.size + len < 2 ^ 32 ∧ other.length < 2 ^ 32
  | .move start bytes | .moveBuffer start bytes => start + bytes.length < 2 ^ 32
  | .moveWithin newStart oldStart count => newStart + count < 2 ^ 32 ∧ oldStart + count < 2 ^ 32
  | .compact pos => b.size < 2 ^ 32 ∧ pos < 2 ^ 32
  | .grow newCap => newCap < 2 ^ 32
  | .orphan => True

/-- Where bytes are copied, the places that they come from and go to are below 2 ^ 31; a buffer that is extended
with a part of itself has room for it; a new capacity is larger than the old one, or zero if what there is fits
into the first capacity. -/
def CallOk : BufferOp → Prop
  | .append _ => b.size < 2 ^ 31
  | .extend bytes => bytes = [] ∨ b.size < 2 ^ 31
  | .extendOwn start len => len = 0 ∨ start < 2 ^ 31 ∧ b.size < 2 ^ 31 ∧ b.size + len ≤ uint b.cap
  | .extendPart other len => len = 0 ∨ other.length < len ∨ b.size < 2 ^ 31
  | .move start bytes | .moveBuffer start bytes => bytes = [] ∨ b.cap < start + bytes.length ∨ start < 2 ^ 31
  | .moveWithin newStart oldStart count =>
    count = 0 ∨ b.size < oldStart + count ∨ b.cap < newStart + count ∨ newStart < 2 ^ 31 ∧ oldStart < 2 ^ 31
  | .compact pos => b.size ≤ pos ∨ pos < 2 ^ 31
  | .grow newCap => if newCap = 0 then b.size ≤ 16 else uint b.cap < newCap ∧ b.size ≤ newCap
  | .orphan => True

/-- A buffer after operations that are all small and go well. -/
inductive Reached : ManagedBuffer → Prop
  | init (cap : Nat) : Reached (.init cap)
  | step {b b' : ManagedBuffer} (op : BufferOp) : Reached b → Small b op → CallOk b op → b.step op = .ok b' →
    Reached b'

variable {b} {op : BufferOp} {start len : Nat} {bytes : List UInt8}

/-- The size stays within the capacity, and the bytes become what they should. -/
def StepsTo (b : ManagedBuffer) (op : BufferOp) : Prop :=
  ∃ b', b.step op = .ok b' ∧ b'.size ≤ b'.cap ∧ Plain b.cap b.data b'.data op

theorem StepsTo.of_call (b' : ManagedBuffer) (hcall : b.call op = .ok b') (hsize : b'.size ≤ b'.cap)
    (hplain : Plain b.cap b.data b'.data op) : StepsTo b op := by
  refine ⟨b', ?_, hsize, hplain⟩
  rw [step, hcall]

theorem StepsTo.of_throw (text : String) (hcall : b.call op = .error (.indexError text)) (hsize : b.size ≤ b.cap)
    (hplain : Plain b.cap b.data b.data op) : StepsTo b op := by
  refine ⟨b, ?_, hsize, hplain⟩
  rw [step, hcall]

section

variable (h : b.size ≤ b.cap)

include h

theorem makeByteRoom_ok (hok : b.size = b.cap → b.cap < 2 ^ 31) :
    ∃ b', b.makeByteRoom = .ok b' ∧ b'.size = b.size ∧ b.size < b'.cap ∧ b'.data = b.data := by
  rw [makeByteRoom]
  by_cases hfull : b.size ≥ b.cap
  · have heq : b.size = b.cap := Nat.le_antisymm h hfull
    have hlt := hok heq
    have hdouble : uint (b.cap * 2) = b.cap * 2 := Nat.mod_eq_of_lt (by omega)
    rw [if_pos hfull, hdouble]
    by_cases h0 : b.cap = 0
    · -- the first capacity
      have hempty : b.mem = [] := List.length_eq_zero_iff.mp h0
      refine ⟨⟨List.replicate 16 0, b.size⟩, ?_, rfl, ?_, ?_⟩
      · rw [grow, h0, if_neg (by simp), heq, h0, hempty]
        rfl
      · rw [heq, h0]
        exact Nat.lt_of_lt_of_eq (by decide) List.length_replicate.symm
      · rw [data, data, heq, h0, hempty]
        rfl
    · have hfits : uint b.cap < b.cap * 2 := Nat.lt_of_le_of_lt (uint_le _) (by omega)
      obtain ⟨b', hgrow, hsize, hcap, hdata⟩ := grow_ok hfits (by omega) h
      exact ⟨b', hgrow, hsize, by omega, hdata⟩
  · exact ⟨b, if_neg hfull, rfl, Nat.lt_of_not_le hfull, rfl⟩

theorem steps_append {c : UInt8} (hok : CallOk b (.append c)) : StepsTo b (.append c) := by
  obtain ⟨b₁, hgrow, hsize₁, hcap₁, hdata₁⟩ := makeByteRoom_ok h (fun heq => heq ▸ hok)
  have hroom : b₁.size + [c].length ≤ b₁.cap := by
    rw [hsize₁]
    exact hcap₁
  refine .of_call (b₁.receive b₁.size [c]) ?_ ?_ ?_
  · rw [call, append, hgrow]
    exact deliver_ok (.inl (hsize₁ ▸ hok)) hroom
  · rw [size_receive, cap_receive hroom]
    exact hroom
  · rw [Plain, data_receive hroom, hdata₁]

theorem steps_extend (hsmall : Small b (.extend bytes)) (hok : CallOk b (.extend bytes)) :
    StepsTo b (.extend bytes) := by
  obtain ⟨b', he, -, hcap, hdata⟩ := extend_ok h hok.symm hsmall
  exact .of_call b' he hcap hdata

theorem steps_extendOwn (hsmall : Small b (.extendOwn start len)) (hok : CallOk b (.extendOwn start len)) :
    StepsTo b (.extendOwn start len) := by
  obtain ⟨hpart, hsum⟩ := hsmall
  have hlen : ((b.data.drop start).take len).length = len := by
    rw [List.length_take, List.length_drop, length_data h]
    omega
  have hplace : b.size < 2 ^ 31 ∨ (b.data.drop start).take len = [] :=
    hok.symm.imp (fun hok => hok.2.1) (fun h0 => List.length_eq_zero_iff.mp (hlen.trans h0))
  obtain ⟨b', he, -, hcap, hdata⟩ := extend_ok h hplace (hlen.symm ▸ hsum)
  have hroom : ¬(uint (b.size + len) > uint b.cap ∧ len ≠ 0) := by
    rintro ⟨hgt, hne⟩
    have hsize : uint (b.size + len) = b.size + len := Nat.mod_eq_of_lt hsum
    have hle := (hok.resolve_left hne).2.2
    omega
  refine .of_call b' ?_ hcap hdata
  rw [call, extendOwn, if_neg hroom, string_ok (hok.symm.imp_left fun hok => hok.1) hpart h]
  exact he

theorem steps_extendPart {other : List UInt8} (hsmall : Small b (.extendPart other len))
    (hok : CallOk b (.extendPart other len)) : StepsTo b (.extendPart other len) := by
  by_cases hle : len ≤ other.length
  · have hlen : (other.take len).length = len := List.length_take_of_le hle
    have hplace : b.size < 2 ^ 31 ∨ other.take len = [] := by
      rcases hok with h0 | hlt | hlt
      · exact .inr (List.length_eq_zero_iff.mp (hlen.trans h0))
      · exact absurd hle (Nat.not_le_of_lt hlt)
      · exact .inl hlt
    obtain ⟨b', he, -, hcap, hdata⟩ := extend_ok h hplace (hlen.symm ▸ hsmall.1)
    refine .of_call b' ?_ hcap ?_
    · rw [call, extendPart, if_neg (Nat.not_lt_of_le hle)]
      exact he
    · rw [Plain, if_pos hle]
      exact hdata
  · refine .of_throw "Extend length out of bounds" ?_ h ?_
    · rw [call, extendPart, if_pos (Nat.lt_of_not_le hle)]
    · rw [Plain, if_neg hle]

/-- A move that ends within the capacity. -/
theorem moveFrom_ok (hplace : start < 2 ^ 31 ∨ bytes = []) (hsmall : start + bytes.length < 2 ^ 32)
    (hroom : start + bytes.length ≤ b.cap) :
    ∃ b', b.moveFrom start bytes.length (.ok bytes) = .ok b' ∧ b'.size = max b.size (start + bytes.length) ∧
      b'.cap = b.cap ∧ Overwritten b.data b'.data start bytes := by
  have hsum : uintzAdd start bytes.length = start + bytes.length := uintzAdd_of_lt (by omega)
  refine ⟨⟨write b.mem start bytes, max b.size (start + bytes.length)⟩, ?_, rfl, Overwriting.length_write hroom,
    overwritten_window h hroom⟩
  rw [moveFrom, hsum, if_neg (Nat.not_lt_of_le hroom)]
  simp only [bind, Except.bind, pure, Except.pure, memmove_ok hplace hroom (by omega), enlarge]
  change Except.ok (if start + bytes.length > b.size then _ else _) = _
  split
  · next hgt =>
    rw [Nat.max_eq_right (Nat.le_of_lt hgt)]
    rfl
  · next hle =>
    rw [Nat.max_eq_left (Nat.le_of_not_lt hle)]
    rfl

theorem steps_move (hsmall : start + bytes.length < 2 ^ 32) (hok : CallOk b (.move start bytes)) :
    StepsTo b (.move start bytes) ∧ StepsTo b (.moveBuffer start bytes) := by
  have hsum : uintzAdd start bytes.length = start + bytes.length := uintzAdd_of_lt (by omega)
  by_cases hroom : start + bytes.length ≤ b.cap
  · have hplace : start < 2 ^ 31 ∨ bytes = [] :=
      hok.symm.imp_left fun hok => hok.resolve_left (Nat.not_lt_of_le hroom)
    obtain ⟨b', he, hsize, hcap, hdata⟩ := moveFrom_ok h hplace hsmall hroom
    have hfits : b'.size ≤ b'.cap := by
      rw [hsize, hcap]
      exact Nat.max_le.mpr ⟨h, hroom⟩
    have hplain : Plain b.cap b.data b'.data (.move start bytes) := by
      rw [Plain, if_pos hroom]
      exact hdata
    refine ⟨.of_call b' he hfits hplain, .of_call b' ?_ hfits hplain⟩
    rw [call, moveBuffer, hsum, if_neg (Nat.not_lt_of_le hroom), move, he]
    simp only [bind, Except.bind]
    rw [enlarge_of_le (hsize ▸ Nat.le_max_right _ _)]
    rfl
  · have hgt : uintzAdd start bytes.length > b.cap := by
      rw [hsum]
      exact Nat.lt_of_not_le hroom
    have hplain : Plain b.cap b.data b.data (.move start bytes) := by
      rw [Plain, if_neg hroom]
    exact ⟨.of_throw _ (if_pos hgt) h hplain, .of_throw _ (if_pos hgt) h hplain⟩

theorem steps_moveWithin {newStart oldStart count : Nat} (hsmall : Small b (.moveWithin newStart oldStart count))
    (hok : CallOk b (.moveWithin newStart oldStart count)) : StepsTo b (.moveWithin newStart oldStart count) := by
  obtain ⟨hnew, hold⟩ := hsmall
  have hsource : uintzAdd oldStart count = oldStart + count := uintzAdd_of_lt (by omega)
  have htarget : uintzAdd newStart count = newStart + count := uintzAdd_of_lt (by omega)
  by_cases hpart : oldStart + count ≤ b.size
  · have hlen : ((b.data.drop oldStart).take count).length = count := by
      rw [List.length_take, List.length_drop, length_data h]
      omega
    by_cases hroom : newStart + count ≤ b.cap
    · have hplaces : newStart < 2 ^ 31 ∧ oldStart < 2 ^ 31 ∨ count = 0 :=
        hok.symm.imp_left fun hok => (hok.resolve_left (Nat.not_lt_of_le hpart)).resolve_left (Nat.not_lt_of_le hroom)
      have hcount : uint count = count := uint_of_lt (by omega)
      have hbytes := string_ok (hplaces.imp_left And.right) hpart h
      obtain ⟨b', he, hsize, hcap, hdata⟩ := moveFrom_ok h
        (hplaces.imp And.left fun h0 => List.length_eq_zero_iff.mp (hlen.trans h0)) (hlen.symm ▸ hnew) (hlen.symm ▸ hroom)
      rw [hlen] at hsize he
      refine .of_call b' ?_ ?_ ?_
      · rw [call, moveWithin, hsource, if_neg (Nat.not_lt_of_le hpart), hcount, hbytes]
        simp only [bind, Except.bind, he]
        rw [htarget, enlarge_of_le (hsize ▸ Nat.le_max_right _ _)]
        rfl
      · rw [hsize, hcap]
        exact Nat.max_le.mpr ⟨h, hroom⟩
      · rw [Plain, length_data h, if_pos ⟨hpart, hroom⟩]
        exact hdata
    · refine .of_throw "Move target out of bounds" ?_ h ?_
      · rw [call, moveWithin, hsource, if_neg (Nat.not_lt_of_le hpart), moveFrom, htarget,
          if_pos (Nat.lt_of_not_le hroom)]
        rfl
      · rw [Plain, if_neg fun hboth => hroom hboth.2]
  · refine .of_throw "Move source out of bounds" ?_ h ?_
    · rw [call, moveWithin, hsource, if_pos (Nat.lt_of_not_le hpart)]
    · rw [Plain, length_data h, if_neg fun hboth => hpart hboth.1]

theorem steps_compact {pos : Nat} (hsize : b.size < 2 ^ 32) (hok : CallOk b (.compact pos)) :
    StepsTo b (.compact pos) := by
  by_cases hpos : pos ≤ b.size
  · obtain ⟨b', he, hsize, hcap, hdata⟩ := compact_ok hpos h (hok.symm.imp_right (Nat.le_antisymm hpos)) hsize
    refine .of_call b' he (by omega) ?_
    rw [Plain, length_data h, if_pos hpos]
    exact hdata
  · refine .of_throw _ (if_pos (Nat.lt_of_not_le hpos)) h ?_
    rw [Plain, length_data h, if_neg hpos]

theorem steps_grow {newCap : Nat} (hok : CallOk b (.grow newCap)) : StepsTo b (.grow newCap) := by
  by_cases h0 : newCap = 0
  · rw [CallOk, if_pos h0] at hok
    have hlen : (b.mem.take b.size).length = b.size := length_data h
    refine .of_call ⟨b.mem.take b.size ++ List.replicate (16 - b.size) 0, b.size⟩ ?_ ?_ ?_
    · rw [call, grow, if_neg (not_and_of_not_left _ (not_not.mpr h0)), if_pos h0, if_neg (Nat.not_lt_of_le hok)]
    · change b.size ≤ _
      rw [cap, List.length_append, hlen, List.length_replicate]
      omega
    · exact List.take_left' hlen
  · rw [CallOk, if_neg h0] at hok
    obtain ⟨b', he, hsize, hcap, hdata⟩ := grow_ok hok.1 hok.2 h
    exact .of_call b' he (by omega) hdata

theorem steps (hsmall : Small b op) (hok : CallOk b op) : StepsTo b op := by
  cases op with
  | append c => exact steps_append h hok
  | extend bytes => exact steps_extend h hsmall hok
  | extendOwn start len => exact steps_extendOwn h hsmall hok
  | extendPart other len => exact steps_extendPart h hsmall hok
  | move start bytes => exact (steps_move h hsmall hok).1
  | moveWithin newStart oldStart count => exact steps_moveWithin h hsmall hok
  | moveBuffer newStart other => exact (steps_move h hsmall hok).2
  | compact pos => exact steps_compact h hsmall.1 hok
  | grow newCap => exact steps_grow h hok
  | orphan => exact .of_call orphan rfl (Nat.le_refl 0) rfl

end

theorem Reached.size_le (h : Reached b) : b.size ≤ b.cap := by
  induction h with
  | init cap => exact Nat.zero_le _
  | step op _ hsmall hok hstep ih =>
    obtain ⟨b', hstep', hsize, -⟩ := steps ih hsmall hok
    rw [hstep] at hstep'
    injection hstep' with heq
    exact heq ▸ hsize

/-- In a run of operations that go well, each next one does what it does to a sequence of
bytes, without an abort or a copy out of the memory. -/
theorem plain_of_reached (h : Reached b) (hsmall : Small b op) (hok : CallOk b op) :
    b.size ≤ b.cap ∧ ∃ b', b.step op = .ok b' ∧ b'.size ≤ b'.cap ∧ Plain b.cap b.data b'.data op :=
  ⟨h.size_le, steps h.size_le hsmall hok⟩

/-- From no capacity, over an orphaned buffer, to a move that overlaps. -/
theorem moved_within : ∃ b : ManagedBuffer, b.data = [1, 2, 3] ∧ b.size ≤ b.cap ∧
    ∃ b', b.step (.moveWithin 1 0 3) = .ok b' ∧ b'.size ≤ b'.cap ∧
      Plain b.cap b.data b'.data (.moveWithin 1 0 3) := by
  have hfirst := Reached.step (.append 7) (.init 0) (by decide : 0 + 1 < 2 ^ 32) (by decide : 0 < 2 ^ 31) rfl
  have horphan := Reached.step .orphan hfirst trivial trivial rfl
  have hsecond := Reached.step (.append 1) horphan (by decide : 0 + 1 < 2 ^ 32) (by decide : 0 < 2 ^ 31) rfl
  have hthird := Reached.step (.extend [2, 3]) hsecond (by decide : 1 + 2 < 2 ^ 32)
    (.inr (by decide : 1 < 2 ^ 31)) rfl
  exact ⟨_, rfl, plain_of_reached hthird (by decide : 1 + 3 < 2 ^ 32 ∧ 0 + 3 < 2 ^ 32)
    (.inr (.inr (.inr (by decide))))⟩

/-- A buffer that is extended with itself. -/
theorem freed_part_copied :
    ((init 4).step (.extend [97, 98, 99]) >>= fun b => b.step (.extendOwn 0 3)) = .error .wildAccess := by
  decide

end ManagedBuffer

end Crack
