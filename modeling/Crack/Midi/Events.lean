import Crack.Lang.Buffers

/-!
# MIDI tracks

Events with their absolute times, written to a stream with the times between them and
with a running status byte, and read back.
-/
namespace Crack

namespace Midi

/-- What happens; an event's class with the fields it has besides the time. Contents that are null stand for none. -/
inductive Body where
  | noteOn (channel note velocity : UInt8)
  | noteOff (channel note velocity : UInt8)
  | programChange (channel program : UInt8)
  | pitchWheel (channel : UInt8) (value : BitVec 32)
  | controlChange (channel controller value : UInt8)
  | sysEx (data : List UInt8)
  | metaEvent (action : UInt8) (contents : List UInt8)
  | endTrack
  deriving DecidableEq, Repr

structure Event where
  time : UInt32
  body : Body
  deriving DecidableEq, Repr

/-- The stream, the running status and what is in the buffer of 1024 bytes. -/
structure MidiWriter where
  out : List UInt8
  status : UInt8
  buffer : List UInt8
  deriving DecidableEq, Repr

def bufferCap : Nat := 1024

/-- How often a `uint` can be shifted by seven bits until it is 0; the loop at the start of `encodeVarLen`. -/
def shiftsFrom : Nat → Nat → Nat
  | 0, _ => 0
  | n + 1, x => if x = 0 then 0 else shiftsFrom n (x >>> 7) + 1

def shifts (val : Nat) : Nat := shiftsFrom 5 val

namespace MidiWriter

def init : MidiWriter := ⟨[], 0, []⟩

variable (w : MidiWriter)

def flush : MidiWriter := { w with out := w.out ++ w.buffer, buffer := [] }

def write (b : UInt8) : MidiWriter :=
  let w := if w.buffer.length = bufferCap then w.flush else w
  { w with buffer := w.buffer ++ [b] }

/-- `write` for a buffer -/
def writeBuffer (buf : List UInt8) : MidiWriter :=
  if buf.length ≥ bufferCap then
    let w := w.flush
    { w with out := w.out ++ buf }
  else
    let w := if w.buffer.length + buf.length > bufferCap then w.flush else w
    { w with buffer := w.buffer ++ buf }

def writeStatus (b : UInt8) : MidiWriter := if w.status ≠ b then { w with status := b }.write b else w

/-- The bytes of `encodeVarLen` before the last one. -/
def writeHigh (val : Nat) : Nat → MidiWriter → MidiWriter
  | 0, w => w
  | n + 1, w => writeHigh val n (w.write (UInt8.ofNat ((val >>> (7 * (n + 1))) &&& 0x7f ||| 0x80)))

def encodeVarLen (val : Nat) : MidiWriter :=
  if val = 0 then w.write 0
  else (writeHigh val (shifts val - 1) w).write (UInt8.ofNat (val &&& 0x7f))

end MidiWriter

open MidiWriter

/-- The `writeTo` of each class. -/
def Body.writeTo (out : MidiWriter) : Body → MidiWriter
  | .noteOn channel note velocity => ((out.writeStatus (0x90 ||| channel)).write note).write velocity
  | .noteOff channel note velocity =>
    let out := if out.status ≠ 0x90 ||| channel ∨ velocity ≠ 0 then out.writeStatus (0x80 ||| channel) else out
    (out.write note).write velocity
  | .programChange channel program => (out.writeStatus (0xC0 ||| channel)).write program
  | .pitchWheel channel value =>
    ((out.writeStatus (0xE0 ||| channel)).write (UInt8.ofNat (value &&& 0x7F).toNat)).write
      (UInt8.ofNat (value.sshiftRight 7 &&& 0xFF).toNat)
  | .controlChange channel controller value => ((out.writeStatus (0xB0 ||| channel)).write controller).write value
  | .sysEx data => (data.foldl write ((out.writeStatus 0xF0).encodeVarLen (data.length + 1))).write 0xF7
  | .metaEvent action contents =>
    let out := (out.write 0xFF).write action
    if contents ≠ [] then (out.write (UInt8.ofNat contents.length)).writeBuffer contents else out.write 0
  | .endTrack => ((out.write 0xFF).write 0x2F).write 0

def Event.isEndTrack (e : Event) : Bool := e.body = .endTrack

namespace Track

/-- `add`, on the events of the track. -/
def add (events : List Event) (event : Event) : Except Stop (List Event) :=
  match events.getLast? with
  | none => .ok (events ++ [event])
  | some last =>
    if event.time ≥ last.time then
      if last.isEndTrack ∧ last.time = event.time then .ok (events.insertIdx (events.length - 1) event)
      else .ok (events ++ [event])
    else
      match events.findIdx? (fun evt => evt.time > event.time) with
      | some index => .ok (events.insertIdx index event)
      | none => .error (.thrown "found no location to insert an event")

def writeEvents (out : MidiWriter) (lastTime : UInt32) : List Event → MidiWriter
  | [] => out
  | event :: events =>
    writeEvents (event.body.writeTo (out.encodeVarLen (event.time - lastTime).toNat)) event.time events

def writeTo (out : MidiWriter) (events : List Event) : MidiWriter :=
  let out := writeEvents out 0 events
  match events.getLast? with
  | some last => if last.isEndTrack then out else (((out.write 0).write 0xff).write 0x2f).write 0
  | none => (((out.write 0).write 0xff).write 0x2f).write 0

/-- What is in the stream after the writer is flushed. -/
def bytes (events : List Event) : List UInt8 := (writeTo MidiWriter.init events).flush.out

end Track

structure MidiReader where
  status : UInt8
  src : Source
  buf : List UInt8
  pos : Nat

namespace MidiReader

def init (src : Source) : MidiReader := ⟨0, src, [], 0⟩

variable (r : MidiReader)

/-- Reads into the buffer when all of it has been used; false if there is nothing left. -/
def gotMoreData : MidiReader × Bool :=
  if r.pos = r.buf.length then
    let (buf, src) := r.src.read bufferCap
    if buf = [] then ({ r with src, buf }, false) else ({ r with src, buf, pos := 0 }, true)
  else (r, true)

def readByte : Except Stop (UInt8 × MidiReader) :=
  match r.gotMoreData with
  | (_, false) => .error (.thrown "Out of data reading midi file")
  | (r, true) =>
    match r.buf[r.pos]? with
    | some b => .ok (b, { r with pos := r.pos + 1 })
    | none => .error .wildAccess

/-- The loop of `readVarLen`. -/
def readGroups : Nat → MidiReader → Nat → Except Stop (Nat × MidiReader)
  | 0, _, _ => .error .forever
  | n + 1, r, val => do
    let (b, r) ← r.readByte
    let val := uint (val <<< 7) ||| (b &&& 0x7F).toNat
    if b &&& 0x80 ≠ 0 then readGroups n r val else return (val, r)

/-- How many bytes there are to read. -/
def available : Nat := r.buf.length + r.src.left.length

def readVarLen : Except Stop (Nat × MidiReader) := readGroups (r.available + 1) r 0

def readBytes : Nat → MidiReader → Except Stop (List UInt8 × MidiReader)
  | 0, r => return ([], r)
  | n + 1, r => do
    let (b, r) ← r.readByte
    let (bytes, r) ← readBytes n r
    return (b :: bytes, r)

/-- The first byte after the status byte, if there is one, which is the new status then. -/
def readFirst : Except Stop (UInt8 × MidiReader) := do
  let (first, r) ← r.readByte
  if first &&& 0x80 ≠ 0 then
    let (first', r) ← r.readByte
    return (first', { r with status := first })
  else return (first, r)

/-- `readEvent`; the event has no time yet. -/
def readEvent : Except Stop (Body × MidiReader) := do
  let (first, r) ← r.readFirst
  let statusHigh := r.status &&& 0xF0
  let channel := r.status &&& 0xF
  if statusHigh = 0x90 then
    let (velocity, r) ← r.readByte
    return (if velocity ≠ 0 then .noteOn channel first velocity else .noteOff channel first velocity, r)
  else if statusHigh = 0x80 then
    let (velocity, r) ← r.readByte
    return (.noteOff channel first velocity, r)
  else if statusHigh = 0xE0 then
    let (_high, r) ← r.readByte
    let (b, r) ← r.readByte
    -- the operands of `<<` and `|` are bytes
    return (.pitchWheel channel (BitVec.ofNat 32 ((b <<< 7) ||| first).toNat), r)
  else if statusHigh = 0xC0 then return (.programChange channel first, r)
  else if statusHigh = 0xB0 then
    let (value, r) ← r.readByte
    return (.controlChange channel first value, r)
  else if r.status = 0xF0 then
    let (size, r) ← r.readVarLen
    -- past what is in the buffer
    let (data, src) := r.src.read size
    let (terminator, r) ← { r with src }.readByte
    if terminator = 0xF7 then return (.sysEx data, r) else .error .assertion
  else if r.status = 0xFF then
    if first = 0x2F then
      let (b, r) ← r.readByte
      if b = 0 then return (.endTrack, r) else .error .assertion
    else
      let (len, r) ← r.readVarLen
      let (contents, r) ← readBytes len r
      return (.metaEvent first contents, r)
  else if r.status = 0xFE ∨ r.status = 0xFC ∨ r.status = 0xFB then return (.sysEx [], r)
  else .error .assertion

/-- The loop of `readTrack`. -/
def readEvents : Nat → MidiReader → List Event → UInt32 → Except Stop (List Event × MidiReader)
  | 0, _, _, _ => .error .forever
  | n + 1, r, track, t => do
    match r.gotMoreData with
    | (r, false) => return (track, r)
    | (r, true) =>
      let (delta, r) ← r.readVarLen
      let t := t + UInt32.ofNat delta
      let (body, r) ← r.readEvent
      let track ← Track.add track ⟨t, body⟩
      if body = .endTrack then return (track, r) else readEvents n r track t

def readTrack : Except Stop (List Event × MidiReader) := readEvents (r.available + 1) r [] 0

end MidiReader

end Midi

end Crack
