import Crack.Lang.Buffers

/-!
# RequestProcessor

The processor of HTTP requests, which takes lines and bodies from a buffer. The
handlers are given by whether they set a post data handler for a request. What
they are given is recorded: each request with the body bytes that followed.
-/
namespace Crack

namespace Http

def isSpace (c : UInt8) : Bool := c == 32 || c == 9 || c == 10 || c == 13

def strip (text : List UInt8) : List UInt8 := ((text.dropWhile isSpace).reverse.dropWhile isSpace).reverse

def toLower (text : List UInt8) : List UInt8 := text.map fun c => if 65 ≤ c ∧ c ≤ 90 then 97 + (c - 65) else c

def isDigit (c : UInt8) : Bool := decide (c ≤ 57) && decide (48 ≤ c)

def parseUInt (text : List UInt8) : Nat :=
  (text.takeWhile isDigit).foldl (fun val c => uintSub (uint (val * 10 + c.toNat)) 48) 0

/-- The `int`, taken as a `uint`. -/
def parseInt : List UInt8 → Except Stop Nat
  | [] => .error (.indexError "string index out of bounds")
  | c :: text => .ok (if c = 45 then uintSub 0 (parseUInt text) else parseUInt (c :: text))

def substr (text : List UInt8) (pos len : Nat) : Except Stop (List UInt8) :=
  if pos > text.length ∨ pos + len > text.length then .error (.indexError "Substring out of bounds")
  else .ok ((text.drop pos).take len)

/-- An index, which counts from the end when it is negative. -/
def adjust (text : List UInt8) (i : Int) : Int := if i < 0 then text.length + i else i

def toUInt (i : Int) : Nat := (i % 2 ^ 32).toNat

def slice (text : List UInt8) (start stop : Int) : Except Stop (List UInt8) :=
  if adjust text stop < adjust text start then .error (.indexError "Start of slice is after end.")
  else substr text (toUInt (adjust text start)) (toUInt (adjust text stop - adjust text start))

def sliceFrom (text : List UInt8) (start : Int) : Except Stop (List UInt8) :=
  if toUInt (adjust text start) > text.length then .error (.indexError "Start of slice is after end.")
  else substr text (toUInt (adjust text start)) (text.length - toUInt (adjust text start))

/-- `b'POST'`, `b'PUT'` and `b'content-length'` -/
def post : List UInt8 := [80, 79, 83, 84]
def put : List UInt8 := [80, 85, 84]
def contentLength : List UInt8 := [99, 111, 110, 116, 101, 110, 116, 45, 108, 101, 110, 103, 116, 104]

abbrev Headers := List (List UInt8 × List (List UInt8))

/-- `headers[name] = values` -/
def Headers.set : Headers → List UInt8 → List (List UInt8) → Headers
  | [], name, values => [(name, values)]
  | (name', values') :: headers, name, values =>
    if name' = name then (name, values) :: headers else (name', values') :: Headers.set headers name values

structure Request where
  method : Option (List UInt8)
  path : Option (List UInt8)
  version : Option (List UInt8)
  headers : Headers
  postDataHandler : Bool
  remainingPostData : Nat
  deriving DecidableEq, Repr

def Request.init : Request := ⟨none, none, none, [], false, 0⟩

/-- The method is POST or PUT. -/
def Request.hasBody (q : Request) : Bool := q.method = some post ∨ q.method = some put

/-- A header line is a name and a value, with the first colon between them. -/
def Request.addHeader (q : Request) (line : List UInt8) : Except Stop Request := do
  let sep : Int := match line.findIdx? (· == 58) with
    | some i => i
    | none => -1
  let name ← slice line 0 sep
  let value ← sliceFrom line (sep + 1)
  return { q with headers := q.headers.set (toLower name) [strip value] }

/-- The length of a body from the headers. -/
def Request.bodyLength (q : Request) : Except Stop Nat :=
  match q.headers.lookup contentLength with
  | some values =>
    match values.getLast? with
    | some value => parseInt value
    | none => .ok 0xFFFFFFFF
  | none => .ok 0xFFFFFFFF

inductive State where
  | request | headers | body
  deriving DecidableEq, Repr

/-- `seen` is what the handlers have been given. -/
structure RequestProcessor where
  request : Request
  state : State
  pos : Nat
  seen : List (Request × List UInt8)
  deriving DecidableEq, Repr

namespace RequestProcessor

def init : RequestProcessor := ⟨.init, .request, 0, []⟩

variable (handler : Request → Bool) (r : RequestProcessor) (inbuf : ManagedBuffer)

def compressBuffer (start : Nat) : Except Stop (RequestProcessor × ManagedBuffer) := do
  return ({ r with pos := 0 }, ← inbuf.compact start)

/-- The first place from `pos` that has no space, and `stop` at most. -/
def skipSpaces (pos stop : Nat) : Nat := pos + (((inbuf.data.drop pos).take (stop - pos)).takeWhile (· == 32)).length

/-- Each return before the last one is a bad request, except where the line ends with the path. -/
def processRequestLine (start stop : Nat) : Except Stop RequestProcessor := do
  let r := { r with request := .init }
  match inbuf.lfind 32 start with
  | none => return r
  | some methodEnd =>
    if methodEnd ≥ stop then return r
    else
      -- the length is not the one from `start`
      let method ← inbuf.string start methodEnd
      let r := { r with request.method := some method }
      let pathStart := skipSpaces inbuf methodEnd stop
      if pathStart = stop then return r
      else match inbuf.lfind 32 pathStart with
        | none => return r
        | some pathEnd =>
          if pathEnd > stop then return r
          else
            let path ← inbuf.string pathStart (pathEnd - pathStart)
            let r := { r with request.path := some path }
            let verStart := skipSpaces inbuf pathEnd stop
            if pathEnd = stop then return { r with state := .request }
            else if verStart = stop then return r
            else
              let version ← inbuf.string verStart (stop - verStart)
              return { r with request.version := some version, state := .headers }

def processRequest : RequestProcessor :=
  let r' := { r with request.postDataHandler := handler r.request, seen := r.seen ++ [(r.request, [])] }
  if r.request.hasBody then r' else { r' with state := .request, request := .init }

/-- After the headers of a request with a body, the buffer is compressed to the body. -/
def endHeaders (stop : Nat) : Except Stop (RequestProcessor × ManagedBuffer) :=
  let r := { r with state := .body }
  if r.request.hasBody then do
    let remaining ← r.request.bodyLength
    let eol := if inbuf.mem[stop]? = some 13 then 2 else 1
    let (r, inbuf) ← compressBuffer { r with request.remainingPostData := remaining } inbuf (stop + eol)
    return (r.processRequest handler, inbuf)
  else .ok (r.processRequest handler, inbuf)

def processHeaderLine (start stop : Nat) : Except Stop (RequestProcessor × ManagedBuffer) := do
  let line ← inbuf.string start (stop - start)
  if line = [] then r.endHeaders handler inbuf stop
  else return ({ r with request := ← r.request.addHeader line }, inbuf)

/-- The handler is given body bytes if it is set. -/
def callPostData (bytes : List UInt8) : RequestProcessor :=
  if r.request.postDataHandler then { r with seen := r.seen.modifyLast fun (request, body) => (request, body ++ bytes) } else r

/-- Begin the new request if there is no more of the body. -/
def endBody : RequestProcessor :=
  if r.request.remainingPostData = 0 then { r with state := .request, request := .init } else r

def processBody : Except Stop (RequestProcessor × ManagedBuffer) := do
  let remaining := r.request.remainingPostData
  if remaining ≥ inbuf.size then
    let r := r.callPostData inbuf.data
    let (r, inbuf) ← compressBuffer { r with request.remainingPostData := remaining - inbuf.size } inbuf inbuf.size
    return (r.endBody, inbuf)
  else
    let r := r.callPostData (← inbuf.string 0 remaining)
    let (r, inbuf) ← compressBuffer { r with request.remainingPostData := 0 } inbuf remaining
    return (r.endBody, inbuf)

/-- The place of the first newline from `pos`. -/
def findNewline (pos stop : Nat) : Option Nat := (((inbuf.data.take stop).drop pos).findIdx? (· == 10)).map (pos + ·)

/-- The end of the line with the newline at `p`; a carriage return before it is ignored. -/
def lineEnd (p : Nat) : Nat := if p > 1 ∧ inbuf.mem[p - 1]? = some 13 then p - 1 else p

def processLine (p : Nat) : Except Stop (RequestProcessor × ManagedBuffer) :=
  let r' := { r with pos := p + 1 }
  if r.state = .request then do return (← r'.processRequestLine inbuf r.pos (lineEnd inbuf p), inbuf)
  else r'.processHeaderLine handler inbuf r.pos (lineEnd inbuf p)

def loop (stop : Nat) : Nat → RequestProcessor → ManagedBuffer → Except Stop (RequestProcessor × ManagedBuffer)
  | 0, _, _ => .error .forever
  | fuel + 1, r, inbuf =>
    if r.state = .body then r.processBody inbuf
    else match findNewline inbuf r.pos stop with
      | none => r.compressBuffer inbuf r.pos
      | some p => do
        let (r, inbuf) ← r.processLine handler inbuf p
        loop stop fuel r inbuf

/-- Each round but the last one takes a line. -/
def parseNext : Except Stop (RequestProcessor × ManagedBuffer) := loop handler inbuf.size (inbuf.size + 2) r inbuf

end RequestProcessor

end Http

end Crack
