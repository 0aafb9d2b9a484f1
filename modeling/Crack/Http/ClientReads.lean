import Crack.Http.RequestProcessor
import Crack.Lib.Loops

/-!
# Clients of the server

A client reads from its socket into the buffer of its request processor.
-/
namespace Crack

namespace Http

namespace RequestProcessor

open Loops (bind_ok)

variable {handler : Request → Bool} {r r' : RequestProcessor} {inbuf inbuf' : ManagedBuffer} {start stop n : Nat}

/-- What is left in a buffer after a part at the front was taken. -/
structure Rest (inbuf inbuf' : ManagedBuffer) : Prop where
  room : inbuf'.size ≤ inbuf'.cap
  cap : inbuf'.cap = inbuf.cap
  size : inbuf'.size ≤ inbuf.size
  data : inbuf'.data = inbuf.data.drop (inbuf.size - inbuf'.size)

theorem Rest.refl (h : inbuf.size ≤ inbuf.cap) : Rest inbuf inbuf := by
  refine ⟨h, rfl, Nat.le_refl _, ?_⟩
  rw [Nat.sub_self, List.drop_zero]

theorem Rest.trans {inbuf₁ : ManagedBuffer} (h : Rest inbuf inbuf₁) (h' : Rest inbuf₁ inbuf') : Rest inbuf inbuf' := by
  refine ⟨h'.room, h'.cap.trans h.cap, Nat.le_trans h'.size h.size, ?_⟩
  rw [h'.data, h.data, List.drop_drop]
  congr 1
  have hle := h.size
  have hle' := h'.size
  omega

theorem compressBuffer_rest (hroom : inbuf.size ≤ inbuf.cap) (hlt : inbuf.size < 2 ^ 31)
    (h : r.compressBuffer inbuf start = .ok (r', inbuf')) :
    r' = { r with pos := 0 } ∧ Rest inbuf inbuf' := by
  obtain ⟨buf, hbuf, hend⟩ := bind_ok h
  cases hend
  have hle : start ≤ inbuf.size := by
    by_contra hgt
    rw [ManagedBuffer.compact, if_pos (Nat.lt_of_not_le hgt)] at hbuf
    cases hbuf
  obtain ⟨buf', he, hsize, hcap, hdata⟩ := ManagedBuffer.compact_ok hle hroom (.inl (by omega)) (by omega)
  cases he.symm.trans hbuf
  refine ⟨rfl, by omega, hcap, by omega, ?_⟩
  rw [hdata, hsize]
  congr 1
  omega

theorem endHeaders_rest (hroom : inbuf.size ≤ inbuf.cap) (hlt : inbuf.size < 2 ^ 31)
    (h : r.endHeaders handler inbuf stop = .ok (r', inbuf')) :
    Rest inbuf inbuf' := by
  rw [endHeaders] at h
  split at h
  · obtain ⟨remaining, -, hcompress⟩ := bind_ok h
    obtain ⟨⟨r₁, inbuf₁⟩, hbuf, hend⟩ := bind_ok hcompress
    cases hend
    exact (compressBuffer_rest hroom hlt hbuf).2
  · cases h
    exact .refl hroom

theorem processLine_rest (hroom : inbuf.size ≤ inbuf.cap) (hlt : inbuf.size < 2 ^ 31)
    (h : r.processLine handler inbuf n = .ok (r', inbuf')) :
    Rest inbuf inbuf' := by
  rw [processLine] at h
  split at h
  · obtain ⟨r₁, -, hend⟩ := bind_ok h
    cases hend
    exact .refl hroom
  · rw [processHeaderLine] at h
    obtain ⟨line, -, hline⟩ := bind_ok h
    split at hline
    · exact endHeaders_rest hroom hlt hline
    · obtain ⟨request, -, hend⟩ := bind_ok hline
      cases hend
      exact .refl hroom

theorem endBody_pos (h : r.pos = 0) : r.endBody.pos = 0 := by
  rw [endBody]
  split
  · exact h
  · exact h

theorem processBody_rest (hroom : inbuf.size ≤ inbuf.cap) (hlt : inbuf.size < 2 ^ 31)
    (h : r.processBody inbuf = .ok (r', inbuf')) :
    r'.pos = 0 ∧ Rest inbuf inbuf' := by
  rw [processBody] at h
  dsimp only at h
  split at h
  · obtain ⟨⟨r₁, inbuf₁⟩, hbuf, hend⟩ := bind_ok h
    obtain ⟨rfl, hrest⟩ := compressBuffer_rest hroom hlt hbuf
    cases hend
    exact ⟨endBody_pos rfl, hrest⟩
  · obtain ⟨bytes, -, hcompress⟩ := bind_ok h
    obtain ⟨⟨r₁, inbuf₁⟩, hbuf, hend⟩ := bind_ok hcompress
    obtain ⟨rfl, hrest⟩ := compressBuffer_rest hroom hlt hbuf
    cases hend
    exact ⟨endBody_pos rfl, hrest⟩

theorem loop_rest (fuel : Nat) (hroom : inbuf.size ≤ inbuf.cap) (hlt : inbuf.size < 2 ^ 31)
    (h : loop handler stop fuel r inbuf = .ok (r', inbuf')) :
    r'.pos = 0 ∧ Rest inbuf inbuf' := by
  induction fuel generalizing r inbuf with
  | zero => cases h
  | succ fuel ih =>
    rw [loop] at h
    split at h
    · exact processBody_rest hroom hlt h
    · split at h
      · obtain ⟨rfl, hrest⟩ := compressBuffer_rest hroom hlt h
        exact ⟨rfl, hrest⟩
      · obtain ⟨⟨r₁, inbuf₁⟩, hline, hloop⟩ := bind_ok h
        have hrest := processLine_rest hroom hlt hline
        obtain ⟨hpos, hrest'⟩ := ih hrest.room (Nat.lt_of_le_of_lt hrest.size hlt) hloop
        exact ⟨hpos, hrest.trans hrest'⟩

/-- `parseNext` takes bytes from the front of the buffer. -/
theorem parseNext_rest (hroom : inbuf.size ≤ inbuf.cap) (hlt : inbuf.size < 2 ^ 31)
    (h : r.parseNext handler inbuf = .ok (r', inbuf')) :
    r'.pos = 0 ∧ Rest inbuf inbuf' := loop_rest _ hroom hlt h

end RequestProcessor

/-- `Server.Client`. -/
structure Client where
  processor : RequestProcessor
  inbuf : ManagedBuffer

namespace Client

open RequestProcessor (Rest parseNext_rest)

def chunkSize : Nat := 1024

def init : Client := ⟨.init, .init chunkSize⟩

/-- The place where the next bytes are read to. -/
def getInputBuf (c : Client) : Except Stop (Client × Nat) :=
  if uintzSub c.inbuf.cap c.inbuf.size < chunkSize then do
    let inbuf ← c.inbuf.grow (uint (c.inbuf.cap * 2))
    return ({ c with inbuf }, c.processor.pos)
  else .ok (c, c.processor.pos)

/-- The bytes are in the buffer that `parseNext` is given. -/
def receive (c : Client) (place : Nat) (bytes : List UInt8) : Client := { c with inbuf := c.inbuf.receive place bytes }

/-- The socket returns some bytes, or it throws. -/
def readChunk (handler : Request → Bool) (c : Client) (read : Option (List UInt8)) : Except Stop (Client × Bool) := do
  let (c, place) ← c.getInputBuf
  match read with
  | none => return (c, false)
  | some [] => return (c, false)
  | some (b :: bytes) =>
    let c := c.receive place (b :: bytes)
    let (processor, inbuf) ← c.processor.parseNext handler c.inbuf
    return (⟨processor, inbuf⟩, true)

/-- What a read has done, up to the call of `parseNext`. -/
structure Chunk where
  /-- Where the bytes were put, in a buffer of which capacity. -/
  place : Nat
  cap : Nat
  /-- The contents of the buffer from earlier reads. -/
  kept : List UInt8
  /-- What `parseNext` was given. -/
  passed : List UInt8
  /-- The bytes that were received and not consumed. -/
  due : List UInt8
  deriving DecidableEq, Repr

/-- The bytes come after the ones from earlier reads, with room for a whole read, and the buffer has
what is to be parsed. -/
def Chunk.Right (chunk : Chunk) : Prop :=
  chunk.place = chunk.kept.length ∧ chunk.place + chunkSize ≤ chunk.cap ∧ chunk.passed = chunk.due

/-- The reads that return data, up to an error. The bytes that were received so far are given, and how many
of them were consumed. -/
def chunks (handler : Request → Bool) : Client → List UInt8 → Nat → List (Option (List UInt8)) → List Chunk
  | _, _, _, [] => []
  | c, received, consumed, read :: reads =>
    match c.getInputBuf, c.readChunk handler read with
    | .error _, _ => []
    | .ok (c₁, place), next =>
      let bytes := read.getD []
      let passed := (c₁.receive place bytes).inbuf
      let received := received ++ bytes
      let rest := match next with
        | .error _ => []
        | .ok (c', _) => chunks handler c' received (consumed + (passed.size - c'.inbuf.size)) reads
      if bytes = [] then rest
      else ⟨place, c₁.inbuf.cap, c₁.inbuf.data, passed.data, received.drop consumed⟩ :: rest

variable {handler : Request → Bool} {c : Client} {received : List UInt8} {consumed : Nat}
  {reads : List (Option (List UInt8))}

/-- Between two reads: the buffer has what was not consumed. -/
structure Good (c : Client) (received : List UInt8) (consumed : Nat) : Prop where
  pos : c.processor.pos = 0
  size : c.inbuf.size ≤ chunkSize
  cap : c.inbuf.cap = chunkSize ∨ c.inbuf.cap = 2 * chunkSize
  few : consumed ≤ received.length
  data : received.drop consumed = c.inbuf.data

theorem Good.room (h : Good c received consumed) : c.inbuf.size ≤ c.inbuf.cap := by
  have hsize := h.size
  rcases h.cap with hcap | hcap <;> omega

theorem Good.getInputBuf (h : Good c received consumed) :
    ∃ c₁, c.getInputBuf = .ok (c₁, 0) ∧ Good c₁ received consumed ∧ c₁.inbuf.size + chunkSize ≤ c₁.inbuf.cap := by
  have hroom := h.room
  have hsub : uintzSub c.inbuf.cap c.inbuf.size = c.inbuf.cap - c.inbuf.size := if_pos hroom
  have hsize := h.size
  rw [Client.getInputBuf, hsub, h.pos]
  by_cases hlt : c.inbuf.cap - c.inbuf.size < chunkSize
  · have hcap : c.inbuf.cap = chunkSize := by
      rcases h.cap with hcap | hcap
      · exact hcap
      · omega
    have hdouble : uint (c.inbuf.cap * 2) = 2 * chunkSize := by
      rw [hcap]
      rfl
    have hpos : 0 < chunkSize := by decide
    have hgrows : c.inbuf.cap < 2 * chunkSize := by omega
    have hfits : uint c.inbuf.cap < 2 * chunkSize := Nat.lt_of_le_of_lt (ManagedBuffer.uint_le _) hgrows
    obtain ⟨inbuf, he, hsize', hcap', hdata⟩ := ManagedBuffer.grow_ok hfits (by omega) hroom
    rw [if_pos hlt, hdouble, he]
    refine ⟨_, rfl, ⟨h.pos, ?_, .inr hcap', h.few, h.data.trans hdata.symm⟩, ?_⟩
    · exact hsize' ▸ hsize
    · change inbuf.size + chunkSize ≤ inbuf.cap
      omega
  · rw [if_neg hlt]
    exact ⟨c, rfl, h, by omega⟩

/-- A read into an empty buffer. -/
theorem Good.receive (h : Good c received consumed) (hroom : c.inbuf.size + chunkSize ≤ c.inbuf.cap)
    (hempty : c.inbuf.data = []) {bytes : List UInt8} (hlen : bytes.length ≤ chunkSize) :
    Good (c.receive 0 bytes) (received ++ bytes) consumed ∧ (c.receive 0 bytes).inbuf.data = bytes := by
  have hsize : c.inbuf.size = 0 := by
    rw [← ManagedBuffer.length_data h.room, hempty]
    rfl
  have hdata : (c.inbuf.receive c.inbuf.size bytes).data = c.inbuf.data ++ bytes := ManagedBuffer.data_receive (by omega)
  have hcap : (c.inbuf.receive 0 bytes).cap = c.inbuf.cap := ManagedBuffer.cap_receive (by omega)
  rw [hsize, hempty, List.nil_append] at hdata
  have hreceived : (received ++ bytes).drop consumed = bytes := by
    rw [List.drop_append_of_le_length h.few, h.data, hempty, List.nil_append]
  refine ⟨⟨h.pos, ?_, ?_, ?_, ?_⟩, hdata⟩
  · change c.inbuf.size + bytes.length ≤ chunkSize
    omega
  · change (c.inbuf.receive 0 bytes).cap = _ ∨ (c.inbuf.receive 0 bytes).cap = _
    rw [hcap]
    exact h.cap
  · rw [List.length_append]
    exact Nat.le_add_right_of_le h.few
  · exact hreceived.trans hdata.symm

theorem Good.parse (h : Good c received consumed) {r : RequestProcessor} {inbuf : ManagedBuffer}
    (hparse : c.processor.parseNext handler c.inbuf = .ok (r, inbuf)) :
    Good ⟨r, inbuf⟩ received (consumed + (c.inbuf.size - inbuf.size)) := by
  obtain ⟨hpos, hrest⟩ := parseNext_rest h.room (Nat.lt_of_le_of_lt h.size (by decide)) hparse
  have hlen := congrArg List.length h.data
  rw [List.length_drop, ManagedBuffer.length_data h.room] at hlen
  have hconsumed := h.few
  refine ⟨hpos, Nat.le_trans hrest.size h.size, hrest.cap ▸ h.cap, by omega, ?_⟩
  rw [← List.drop_drop, h.data]
  exact hrest.data.symm

/-- Reads are right if and only if each of them finds the buffer empty. -/
theorem Good.chunks_right_iff (h : Good c received consumed) (hreads : ∀ bytes, some bytes ∈ reads → bytes.length ≤ chunkSize) :
    (∀ chunk ∈ chunks handler c received consumed reads, chunk.Right) ↔
      ∀ chunk ∈ chunks handler c received consumed reads, chunk.kept = [] := by
  induction reads generalizing c received consumed with
  | nil => simp [chunks]
  | cons read reads ih =>
    have ih := fun {c received consumed} (h : Good c received consumed) =>
      ih h fun bytes hbytes => hreads bytes (List.mem_cons_of_mem _ hbytes)
    obtain ⟨c₁, he, h₁, hroom⟩ := h.getInputBuf
    -- without data the next read finds what this one found
    have hnone : c.readChunk handler read = .ok (c₁, false) → read.getD [] = [] →
        ((∀ chunk ∈ chunks handler c received consumed (read :: reads), chunk.Right) ↔
          ∀ chunk ∈ chunks handler c received consumed (read :: reads), chunk.kept = []) := by
      intro hread hbytes
      have hsame : consumed + ((c₁.receive 0 []).inbuf.size - c₁.inbuf.size) = consumed := by
        change consumed + (c₁.inbuf.size + 0 - c₁.inbuf.size) = consumed
        omega
      simp only [chunks, he, hread, hbytes, if_true, List.append_nil, hsame]
      exact ih h₁
    match read with
    | none => exact hnone (by simp only [readChunk, he, bind, Except.bind]; rfl) rfl
    | some [] => exact hnone (by simp only [readChunk, he, bind, Except.bind]; rfl) rfl
    | some (b :: bytes) =>
      have hlen : (b :: bytes).length ≤ chunkSize := hreads _ List.mem_cons_self
      generalize hrest : (match c.readChunk handler (some (b :: bytes)) with
        | .error _ => []
        | .ok (c', _) => chunks handler c' (received ++ b :: bytes)
          (consumed + ((c₁.receive 0 (b :: bytes)).inbuf.size - c'.inbuf.size)) reads) = rest
      have hchunks : chunks handler c received consumed (some (b :: bytes) :: reads) =
          ⟨0, c₁.inbuf.cap, c₁.inbuf.data, (c₁.receive 0 (b :: bytes)).inbuf.data, (received ++ b :: bytes).drop consumed⟩ :: rest := by
        rw [← hrest]
        simp only [chunks, he, Option.getD_some, if_neg (List.cons_ne_nil b bytes)]
      rw [hchunks, List.forall_mem_cons, List.forall_mem_cons]
      by_cases hkept : c₁.inbuf.data = []
      · obtain ⟨h₂, hdata⟩ := h₁.receive hroom hkept hlen
        have hright : Chunk.Right ⟨0, c₁.inbuf.cap, c₁.inbuf.data, (c₁.receive 0 (b :: bytes)).inbuf.data,
            (received ++ b :: bytes).drop consumed⟩ := by
          refine ⟨?_, ?_, h₂.data.symm⟩
          · rw [hkept]
            rfl
          · change 0 + chunkSize ≤ c₁.inbuf.cap
            omega
        rw [and_iff_right hright, and_iff_right hkept, ← hrest]
        cases hread : c.readChunk handler (some (b :: bytes)) with
        | error e => simp
        | ok next =>
          obtain ⟨c', more⟩ := next
          simp only [readChunk, he, bind, Except.bind] at hread
          obtain ⟨⟨processor, inbuf⟩, hparse, hend⟩ := Loops.bind_ok hread
          cases hend
          exact ih (h₂.parse hparse)
      · refine iff_of_false (fun h => hkept ?_) fun h => hkept h.1
        exact List.length_eq_zero_iff.mp h.1.1.symm

/-- In every run of a client the reads are right if and only if each of them finds the buffer empty. -/
theorem reads_right_iff (handler : Request → Bool) (reads : List (Option (List UInt8)))
    (hreads : ∀ bytes, some bytes ∈ reads → bytes.length ≤ chunkSize) :
    (∀ chunk ∈ chunks handler init [] 0 reads, chunk.Right) ↔ ∀ chunk ∈ chunks handler init [] 0 reads, chunk.kept = [] :=
  Good.chunks_right_iff ⟨rfl, Nat.zero_le _, .inl (List.length_replicate), Nat.le_refl _, rfl⟩ hreads

/-- A line, and then a read that fails. -/
theorem whole_line_right :
    (∀ chunk ∈ chunks (fun _ => false) init [] 0 [some [71, 10], none], chunk.Right) ↔
      ∀ chunk ∈ chunks (fun _ => false) init [] 0 [some [71, 10], none], chunk.kept = [] :=
  reads_right_iff (fun _ => false) [some [71, 10], none] fun bytes hbytes => by
    simp only [List.mem_cons, Option.some.injEq, reduceCtorEq, List.not_mem_nil, or_false] at hbytes
    subst hbytes
    decide

/-- The second byte of a line is put over the first one. -/
theorem split_line_overwritten : ¬ ∀ chunk ∈ chunks (fun _ => false) init [] 0 [some [71], some [69]], chunk.Right := by
  have hchunks : chunks (fun _ => false) init [] 0 [some [71], some [69]] =
      [⟨0, 1024, [], [71], [71]⟩, ⟨0, 2048, [71], [69, 0], [71, 69]⟩] := by decide +kernel
  rw [hchunks]
  intro h
  exact absurd (h _ (List.mem_cons_of_mem _ List.mem_cons_self)).1 (by decide)

end Client

end Http

end Crack
