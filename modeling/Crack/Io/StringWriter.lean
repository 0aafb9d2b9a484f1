import Crack.Lang.Appending
import Crack.Lib.HostInt

/-!
# String writers

A `StringWriter` is an `AppendBuffer` with a position. It writes by appending to what is before the position.
-/
namespace Crack

inductive Whence where
  | seekSet | seekCur | seekEnd
  deriving DecidableEq, Repr

/-- `_seek(int64 offset, int whence, int64 pos, uintz size)` -/
def seekPos (offset : BitVec 64) (whence : Whence) (pos : BitVec 64) (size : Nat) : BitVec 64 :=
  let newPos :=
    match whence with
    | .seekSet => offset
    | .seekEnd => BitVec.ofNat 64 size + offset
    | .seekCur => pos + offset
  if newPos.toInt > (BitVec.ofNat 64 size).toInt then BitVec.ofNat 64 size
  else if newPos.toInt < 0 then 0
  else newPos

structure StringWriter where
  buf : ManagedBuffer
  pos : Nat
  deriving DecidableEq, Repr

namespace StringWriter

inductive Op where
  | write (data : List UInt8)
  | seek (pos : BitVec 64) (whence : Whence)
  | tell
  | makeString
  | string
  | makeCString
  | cString

inductive Reply where
  | done
  | position (pos : BitVec 64)
  | text (bytes : List UInt8)
  deriving DecidableEq, Repr

/-- `StringWriter(uint initBufSize)` -/
def init (initBufSize : UInt32) : StringWriter := ⟨.init initBufSize.toNat, 0⟩

variable (w : StringWriter)

/-- `__write`, of data that is not in the writer's own memory. -/
def write (data : List UInt8) : Except Stop StringWriter := do
  let orgSize := w.buf.size
  let buf ← { w.buf with size := w.pos }.extend data
  let buf := if buf.size < orgSize then { buf with size := orgSize } else buf
  return ⟨buf, w.pos + data.length⟩

def seek (pos : BitVec 64) (whence : Whence) : BitVec 64 := seekPos pos whence (BitVec.ofNat 64 w.pos) w.buf.size

/-- `string()` and `makeString()` -/
def getString : Except Stop (List UInt8) := w.buf.string 0 (uint w.buf.size)

/-- `cString()` and `makeCString()`, which leave the zero that they append. -/
def getCString : Except Stop (StringWriter × List UInt8) := do
  let buf ← w.buf.append 0
  let text ← buf.string 0 (uint (buf.size - 1))
  return ({ w with buf }, text)

def step : Op → Except Stop (StringWriter × Reply)
  | .write data => do
    let w ← w.write data
    return (w, .done)
  | .seek pos whence => .ok ({ w with pos := (w.seek pos whence).toNat }, .position (w.seek pos whence))
  | .tell => .ok (w, .position (BitVec.ofNat 64 w.pos))
  | .makeString | .string => do
    let text ← w.getString
    return (w, .text text)
  | .makeCString | .cString => do
    let (w, text) ← w.getCString
    return (w, .text text)

def run (w : StringWriter) : List Op → Except Stop (StringWriter × List Reply)
  | [] => .ok (w, [])
  | op :: ops => do
    let (w, reply) ← w.step op
    let (w, replies) ← run w ops
    return (w, reply :: replies)

end StringWriter

open StringWriter (Op Reply)

/-- A random-access file with a position in it. -/
structure File where
  contents : List UInt8
  pos : Nat
  inside : pos ≤ contents.length

namespace File

def empty : File := ⟨[], 0, Nat.le_refl 0⟩

variable (f : File)

theorem inside_write (data : List UInt8) :
    f.pos + data.length ≤ (Overwriting.write f.contents f.pos data).length := by
  rw [Overwriting.write, List.length_append, List.length_append, List.length_take_of_le f.inside]
  omega

def write (data : List UInt8) : File where
  contents := Overwriting.write f.contents f.pos data
  pos := f.pos + data.length
  inside := f.inside_write data

/-- Where an offset is counted from. -/
def base : Whence → Nat
  | .seekSet => 0
  | .seekCur => f.pos
  | .seekEnd => f.contents.length

def seek (offset : Int) (whence : Whence) : File where
  contents := f.contents
  pos := (max 0 (min (f.base whence + offset) f.contents.length)).toNat
  inside := by omega

def step : Op → File × Reply
  | .write data => (f.write data, .done)
  | .seek pos whence => (f.seek pos.toInt whence, .position (BitVec.ofNat 64 (f.seek pos.toInt whence).pos))
  | .tell => (f, .position (BitVec.ofNat 64 f.pos))
  | .makeString | .string | .makeCString | .cString => (f, .text f.contents)

def run (f : File) : List Op → File × List Reply
  | [] => (f, [])
  | op :: ops => (((f.step op).1.run ops).1, (f.step op).2 :: ((f.step op).1.run ops).2)

end File

namespace StringWriter

open ManagedBuffer

def base (w : StringWriter) : Whence → Nat
  | .seekSet => 0
  | .seekCur => w.pos
  | .seekEnd => w.buf.size

/-- A write starts at the index of an `int`, unless it has no bytes, and ends below 2 ^ 32, a place that is
looked for is an `int64`, and no C string is asked for. -/
def OpOk (w : StringWriter) : Op → Prop
  | .write data => (w.pos < 2 ^ 31 ∨ data = []) ∧ w.pos + data.length < 2 ^ 32
  | .seek pos whence => w.base whence + pos.toInt < 2 ^ 63
  | .makeCString | .cString => False
  | .tell | .makeString | .string => True

def RunOk (w : StringWriter) : List Op → Prop
  | [] => True
  | op :: ops => OpOk w op ∧
    match w.step op with
    | .ok (w, _) => RunOk w ops
    | .error _ => True

/-- The writer has what is in the file. -/
structure Holds (w : StringWriter) (f : File) : Prop where
  sound : w.buf.Sound
  contents : w.buf.data = f.contents
  pos : w.pos = f.pos

variable {w : StringWriter} {f : File} {data : List UInt8} {ops : List Op} {n : Nat} {op : Op}

theorem Holds.length (h : Holds w f) : f.contents.length = w.buf.size := by
  rw [← h.contents, length_data h.sound.1]

theorem holds_init (initBufSize : UInt32) : Holds (init initBufSize) .empty :=
  ⟨sound_init initBufSize.toNat_lt, rfl, rfl⟩

/-- What is behind the text stays, within the memory. -/
theorem Holds.write_within (h : Holds w f) (hplace : w.pos < 2 ^ 31 ∨ data = [])
    (hroom : w.pos + data.length ≤ w.buf.cap) : ∃ w', w.write data = .ok w' ∧ Holds w' (f.write data) := by
  obtain ⟨hle, hcap⟩ := h.sound
  have hinside := f.inside
  rw [h.length, ← h.pos] at hinside
  have hsize : uint (w.pos + data.length) = w.pos + data.length := Nat.mod_eq_of_lt (by omega)
  have huint : uint w.buf.cap = w.buf.cap := Nat.mod_eq_of_lt hcap
  have hextend : ManagedBuffer.extend { w.buf with size := w.pos } data =
      .ok { w.buf.put w.pos data with size := w.pos + data.length } := by
    have hmake : ManagedBuffer.makeRoom { w.buf with size := w.pos } (w.pos + data.length) =
        .ok { w.buf with size := w.pos } := if_neg (by dsimp only [ManagedBuffer.cap] at *; omega)
    have hmove : ManagedBuffer.memmove { w.buf with size := w.pos } w.pos data =
        .ok (ManagedBuffer.put { w.buf with size := w.pos } w.pos data) := memmove_ok hplace hroom (by omega)
    rw [ManagedBuffer.extend]
    dsimp only
    rw [hsize, hmake]
    refine (if_neg (Nat.not_lt_of_le hroom)).trans ?_
    rw [hmove]
    rfl
  have hput : w.buf.cap = (w.buf.put w.pos data).mem.length := (cap_put hroom).symm
  refine ⟨⟨{ w.buf.put w.pos data with size := max w.buf.size (w.pos + data.length) }, w.pos + data.length⟩, ?_,
    ⟨?_, ?_⟩, ?_, congrArg (· + data.length) h.pos⟩
  · rw [write, hextend]
    refine congrArg (fun b => Except.ok (StringWriter.mk b _)) ?_
    dsimp only
    split
    next hlt => rw [Nat.max_eq_left (Nat.le_of_lt hlt)]
    next hge => rw [Nat.max_eq_right (Nat.le_of_not_lt hge)]
  · exact Nat.le_trans (Nat.max_le.mpr ⟨hle, hroom⟩) (Nat.le_of_eq hput)
  · exact Nat.lt_of_le_of_lt (Nat.le_of_eq hput.symm) hcap
  · change _ = Overwriting.write f.contents f.pos data
    rw [← h.contents, ← h.pos]
    exact Overwriting.take_write hinside hroom

/-- The memory grows only if the text goes beyond its end, and so beyond the old text. -/
theorem Holds.write_beyond (h : Holds w f) (hplace : w.pos < 2 ^ 31 ∨ data = [])
    (hroom : w.buf.cap < w.pos + data.length) (hsmall : w.pos + data.length < 2 ^ 32) : ∃ w', w.write data = .ok w' ∧ Holds w' (f.write data) := by
  obtain ⟨hle, hcap⟩ := h.sound
  have hinside := f.inside
  rw [h.length, ← h.pos] at hinside
  have hsound : ManagedBuffer.Sound { w.buf with size := w.pos } := ⟨Nat.le_trans hinside hle, hcap⟩
  obtain ⟨buf, hextend, hsize, -⟩ := @extend_ok _ data hsound.1 hplace hsmall
  obtain ⟨hsound', hdata⟩ := (appends_extend data).only _ _ hsound hextend
  refine ⟨⟨buf, w.pos + data.length⟩, ?_, hsound', ?_, ?_⟩
  · rw [write, hextend]
    exact congrArg (fun b => Except.ok (StringWriter.mk b _)) (if_neg (by rw [hsize]; dsimp only; omega))
  · have hold : w.buf.data.take w.pos = w.buf.mem.take w.pos := by
      rw [ManagedBuffer.data, List.take_take, Nat.min_eq_left hinside]
    have hnone : w.buf.data.drop (w.pos + data.length) = [] :=
      List.drop_eq_nil_of_le (by rw [length_data hle]; omega)
    change buf.data = Overwriting.write f.contents f.pos data
    rw [hdata, Overwriting.write, ← h.pos, ← h.contents, hold, hnone, List.append_nil]
    rfl
  · exact congrArg (· + data.length) h.pos

theorem int64_ofNat (h : n < 2 ^ 32) : (BitVec.ofNat 64 n).toInt = n := by
  rw [BitVec.toInt_eq_toNat_cond, BitVec.toNat_ofNat]
  split <;> omega

/-- A sum that is an `int64` is not wrapped around. -/
theorem int64_add (h : n < 2 ^ 32) {x : BitVec 64} (hsum : n + x.toInt < 2 ^ 63) :
    (BitVec.ofNat 64 n + x).toInt = n + x.toInt := by
  have hlow := BitVec.le_toInt x
  rw [BitVec.toInt_add, int64_ofNat h, Int.bmod_def]
  omega

theorem Holds.base_eq (h : Holds w f) (whence : Whence) : w.base whence = f.base whence := by
  cases whence with
  | seekSet => rfl
  | seekCur => exact h.pos
  | seekEnd => exact h.length.symm

theorem clamped (newPos : BitVec 64) {size : Nat} (hsize : size < 2 ^ 32) :
    (if newPos.toInt > (BitVec.ofNat 64 size).toInt then BitVec.ofNat 64 size
      else if newPos.toInt < 0 then 0 else newPos) = BitVec.ofNat 64 (max 0 (min newPos.toInt size)).toNat := by
  rw [int64_ofNat hsize]
  split
  next hgt => rw [Int.min_eq_right (Int.le_of_lt hgt), Int.max_eq_right (Int.natCast_nonneg _), Int.toNat_natCast]
  next hle =>
    rw [Int.min_eq_left (Int.not_lt.mp hle)]
    split
    next hneg =>
      rw [Int.max_eq_left (Int.le_of_lt hneg)]
      rfl
    next hpos =>
      rw [Int.max_eq_right (Int.not_lt.mp hpos), HostInt.toNat_toInt_of_nonneg (Int.not_lt.mp hpos), BitVec.ofNat_toNat,
        BitVec.setWidth_eq]

/-- The place that is looked for, within the file. -/
theorem Holds.seek_eq (h : Holds w f) {pos : BitVec 64} {whence : Whence} (hok : w.base whence + pos.toInt < 2 ^ 63) :
    w.seek pos whence = BitVec.ofNat 64 (f.seek pos.toInt whence).pos := by
  have hsize : w.buf.size < 2 ^ 32 := Nat.lt_of_le_of_lt h.sound.1 h.sound.2
  have hpos : w.pos < 2 ^ 32 := by
    have hinside := f.inside
    rw [h.length, ← h.pos] at hinside
    omega
  have hseek : (f.seek pos.toInt whence).pos = (max 0 (min (w.base whence + pos.toInt) w.buf.size)).toNat := by
    change (max 0 (min (f.base whence + pos.toInt) f.contents.length)).toNat = _
    rw [h.base_eq, h.length]
  rw [hseek]
  cases whence with
  | seekSet => exact (clamped pos hsize).trans (by rw [base, Int.natCast_zero, Int.zero_add])
  | seekCur => exact (clamped _ hsize).trans (by rw [int64_add hpos hok, base])
  | seekEnd => exact (clamped _ hsize).trans (by rw [int64_add hsize hok, base])

theorem Holds.step (h : Holds w f) (hok : OpOk w op) :
    ∃ w', w.step op = .ok (w', (f.step op).2) ∧ Holds w' (f.step op).1 := by
  have hstring : w.getString = .ok f.contents := by
    have hsize : uint w.buf.size = w.buf.size := Nat.mod_eq_of_lt (Nat.lt_of_le_of_lt h.sound.1 h.sound.2)
    rw [getString, hsize, string_ok (.inl (by decide)) (Nat.le_of_eq (Nat.zero_add _)) h.sound.1, List.drop_zero, h.contents, ← h.length,
      List.take_length]
  cases op with
  | write data =>
    obtain ⟨w', he, hw'⟩ : ∃ w', w.write data = .ok w' ∧ Holds w' (f.write data) := by
      by_cases hroom : w.pos + data.length ≤ w.buf.cap
      · exact h.write_within hok.1 hroom
      · exact h.write_beyond hok.1 (Nat.lt_of_not_le hroom) hok.2
    refine ⟨w', ?_, hw'⟩
    rw [StringWriter.step, he]
    rfl
  | seek pos whence =>
    have hseek := h.seek_eq hok
    have hsize := h.length ▸ Nat.lt_of_le_of_lt h.sound.1 h.sound.2
    have hinside : (f.seek pos.toInt whence).pos ≤ f.contents.length := (f.seek pos.toInt whence).inside
    refine ⟨{ w with pos := (w.seek pos whence).toNat }, ?_, h.sound, h.contents, ?_⟩
    · rw [StringWriter.step]
      exact congrArg (fun p => Except.ok (_, Reply.position p)) hseek
    · change (w.seek pos whence).toNat = (f.seek pos.toInt whence).pos
      rw [hseek, BitVec.toNat_ofNat]
      exact Nat.mod_eq_of_lt (by omega)
  | tell => exact ⟨w, by rw [StringWriter.step, h.pos]; rfl, h⟩
  | makeString =>
    refine ⟨w, ?_, h⟩
    rw [StringWriter.step, hstring]
    rfl
  | string =>
    refine ⟨w, ?_, h⟩
    rw [StringWriter.step, hstring]
    rfl
  | makeCString => exact hok.elim
  | cString => exact hok.elim

theorem Holds.run (h : Holds w f) (hok : RunOk w ops) :
    ∃ w', w.run ops = .ok (w', (f.run ops).2) ∧ Holds w' (f.run ops).1 := by
  induction ops generalizing w f with
  | nil => exact ⟨w, rfl, h⟩
  | cons op ops ih =>
    obtain ⟨w₁, hstep, h₁⟩ := h.step hok.1
    have hrest := hok.2
    rw [hstep] at hrest
    obtain ⟨w₂, hrun, h₂⟩ := ih h₁ hrest
    refine ⟨w₂, ?_, h₂⟩
    rw [StringWriter.run, hstep]
    change (do let (w, replies) ← w₁.run ops; return (w, _ :: replies)) = _
    rw [hrun]
    rfl

theorem RunOk.cons {w' : StringWriter} {reply : Reply} (hok : OpOk w op) (hstep : w.step op = .ok (w', reply))
    (h : RunOk w' ops) : RunOk w (op :: ops) := by
  refine ⟨hok, ?_⟩
  rw [hstep]
  exact h

/-- A writer answers as a file does, and has the contents and the position of the file. -/
theorem run_file (initBufSize : UInt32) (ops : List Op) (h : RunOk (init initBufSize) ops) :
    ∃ w, (init initBufSize).run ops = .ok (w, (File.empty.run ops).2) ∧
      w.buf.data = (File.empty.run ops).1.contents ∧ w.pos = (File.empty.run ops).1.pos := by
  obtain ⟨w, hrun, hw⟩ := (holds_init initBufSize).run h
  exact ⟨w, hrun, hw.contents, hw.pos⟩

/-- A text that is overwritten in the middle. -/
theorem overwritten_file :
    ∃ w, (init 2).run [.write [1, 2, 3], .seek 1 .seekSet, .write [9], .string] =
        .ok (w, [.done, .position 1, .done, .text [1, 9, 3]]) ∧ w.buf.data = [1, 9, 3] ∧ w.pos = 2 :=
  run_file 2 [.write [1, 2, 3], .seek 1 .seekSet, .write [9], .string]
    (.cons ⟨.inl (by decide), (by decide : 0 + 3 < 2 ^ 32)⟩ rfl (.cons (by decide : (0 : Int) + 1 < 2 ^ 63) rfl
      (.cons ⟨.inl (by decide), (by decide : 1 + 1 < 2 ^ 32)⟩ rfl (.cons trivial rfl trivial))))

/-- The zero behind a C string is in the next string. -/
theorem zero_left : ∃ w, (init 2).run [.cString, .string] = .ok (w, [.text [], .text [0]]) ∧
    (File.empty.run [.cString, .string]).2 = [.text [], .text []] :=
  ⟨_, rfl, rfl⟩

end StringWriter

end Crack
