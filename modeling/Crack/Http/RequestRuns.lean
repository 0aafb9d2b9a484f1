import Crack.Http.Messages

/-!
# Runs of RequestProcessor

A stream of messages is appended to the buffer in chunks. As long as the chunks keep
to the conditions of `StepOk`, the handlers see the messages as if each of them was
parsed alone.
-/
namespace Crack

namespace Http

open RequestProcessor (findNewline findNewline)

variable {handler : Request → Bool} {A B A' B' M : List Message} {m : Message} {r r' : RequestProcessor}
  {inbuf inbuf' : ManagedBuffer} {left future rest R : List UInt8}

/-- The processor has finished the messages `A`, is in the first one of the others or
before it, and these others have the bytes `left` still to be taken. -/
inductive At (handler : Request → Bool) (A : List Message) : List Message → RequestProcessor → List UInt8 → Prop
  | request {B : List Message} {r : RequestProcessor} (hstate : r.state = .request) (hseen : r.seen = A.map (expected handler)) :
    At handler A B r (stream B)
  | headers {m : Message} {B : List Message} {fs gs : List (List UInt8 × List UInt8)} {r : RequestProcessor}
    (hfields : m.fields = fs ++ gs) (hstate : r.state = .headers) (hrequest : r.request = m.opened.withFields fs)
    (hseen : r.seen = A.map (expected handler)) : At handler A (m :: B) r (lines gs ++ (crlf ++ (m.body ++ stream B)))
  | body {m : Message} {B : List Message} {sent unsent : List UInt8} {r : RequestProcessor}
    (hbody : m.body = sent ++ unsent) (hhas : m.opened.hasBody = true) (hstate : r.state = .body)
    (hrequest : r.request = { m.request with postDataHandler := handler m.request, remainingPostData := unsent.length })
    (hseen : r.seen = A.map (expected handler) ++ [(m.request, if handler m.request then sent else [])]) :
    At handler A (m :: B) r (unsent ++ stream B)

/-- The first message is not all there, with the bytes `future` to come. -/
def Waits (B : List Message) (future : List UInt8) : Prop := ∀ m B', B = m :: B' → (stream B').length < future.length

/-- After a call: the place in the stream, and no message that is all there has been left. -/
structure Settled (handler : Request → Bool) (M : List Message) (future : List UInt8) (r : RequestProcessor)
    (inbuf : ManagedBuffer) : Prop where
  place : ∃ A B, M = A ++ B ∧ At handler A B r (inbuf.data ++ future) ∧ Waits B future
  pos : r.pos = 0
  room : inbuf.size ≤ inbuf.cap

/-- What may be left when a message is done: no newline behind a message without
a body, and no further message behind one with a body. -/
def NextOk (inbuf : ManagedBuffer) (future : List UInt8) : List Message → Prop
  | [] => True
  | m :: B => ∀ rest, rest <:+ inbuf.data → rest ++ future = stream B →
    if m.opened.hasBody then ∀ m' ∈ B.head?, ¬ m'.bytes <+: rest else 10 ∉ rest

theorem compressBuffer_ok (r : RequestProcessor) {start : Nat} (hstart : start ≤ inbuf.size)
    (hroom : inbuf.size ≤ inbuf.cap) (hsmall : inbuf.size < 2 ^ 31) :
    ∃ inbuf', r.compressBuffer inbuf start = .ok ({ r with pos := 0 }, inbuf') ∧ inbuf'.data = inbuf.data.drop start ∧
      inbuf'.size ≤ inbuf'.cap ∧ inbuf'.size < 2 ^ 31 := by
  obtain ⟨inbuf', he, hsize, hcap, hdata⟩ := ManagedBuffer.compact_ok hstart hroom (.inl (by omega)) (by omega)
  refine ⟨inbuf', ?_, hdata, by omega, by omega⟩
  simp only [RequestProcessor.compressBuffer, he, bind, Except.bind, pure, Except.pure]

/-- A call that ends within a line. -/
theorem compress_settled {start : Nat} (hstart : start ≤ inbuf.size) (hroom : inbuf.size ≤ inbuf.cap)
    (hsmall : inbuf.size < 2 ^ 31)
    (hplace : At handler A B { r with pos := 0 } (inbuf.data.drop start ++ future)) (hwaits : Waits B future) :
    ∃ r' inbuf', r.compressBuffer inbuf start = .ok (r', inbuf') ∧ Settled handler (A ++ B) future r' inbuf' := by
  obtain ⟨inbuf', he, hdata, hroom', -⟩ := compressBuffer_ok r hstart hroom hsmall
  exact ⟨_, inbuf', he, ⟨A, B, rfl, hdata ▸ hplace, hwaits⟩, rfl, hroom'⟩

theorem waits_of_not_prefix (h : rest ++ future = stream B) (hnot : ∀ m' ∈ B.head?, ¬ m'.bytes <+: rest) : Waits B future := by
  rintro m' B' rfl
  have hnot := hnot m' rfl
  rw [stream_cons] at h
  have hlen := congrArg List.length h
  rw [List.length_append, List.length_append] at hlen
  by_contra hge
  apply hnot
  apply List.prefix_of_prefix_length_le (List.prefix_append m'.bytes (stream B'))
  · rw [← h]
    exact List.prefix_append _ _
  · omega

theorem waits_of_lf (h : rest ++ future = stream B) (hlf : 10 ∉ rest) : Waits B future := by
  rintro m' B' rfl
  rw [stream_cons] at h
  exact length_lt_of_lf h hlf m'.lf_mem

theorem callPostData_seen {sent bytes : List UInt8} {q : Request} {S : List (Request × List UInt8)}
    (hseen : r.seen = S ++ [(q, if r.request.postDataHandler then sent else [])]) :
    r.callPostData bytes = { r with seen := S ++ [(q, if r.request.postDataHandler then sent ++ bytes else [])] } := by
  rw [RequestProcessor.callPostData]
  by_cases hset : r.request.postDataHandler = true
  · simp only [hset, if_true] at hseen ⊢
    rw [hseen, List.modifyLast_concat]
  · simp only [hset, if_false, Bool.false_eq_true] at hseen ⊢
    rw [← hseen]

theorem processBody_settled {sent unsent : List UInt8} (hroom : inbuf.size ≤ inbuf.cap) (hsmall : inbuf.size < 2 ^ 31)
    (hbody : m.body = sent ++ unsent) (hhas : m.opened.hasBody = true) (hstate : r.state = .body)
    (hrequest : r.request = { m.request with postDataHandler := handler m.request, remainingPostData := unsent.length })
    (hseen : r.seen = A.map (expected handler) ++ [(m.request, if handler m.request then sent else [])])
    (hleft : inbuf.data ++ future = unsent ++ stream B) (hnext : NextOk inbuf future (m :: B)) :
    ∃ r' inbuf', r.processBody inbuf = .ok (r', inbuf') ∧ Settled handler (A ++ m :: B) future r' inbuf' := by
  have hremaining : r.request.remainingPostData = unsent.length := by rw [hrequest]
  have hset : r.request.postDataHandler = handler m.request := by rw [hrequest]
  have hlen : inbuf.data.length = inbuf.size := ManagedBuffer.length_data hroom
  have hgive : ∀ bytes, r.callPostData bytes =
      { r with seen := A.map (expected handler) ++ [(m.request, if handler m.request then sent ++ bytes else [])] } := by
    intro bytes
    rw [← hset] at hseen ⊢
    exact callPostData_seen hseen
  have hdone : A.map (expected handler) ++ [(m.request, if handler m.request then sent ++ unsent else [])] =
      (A ++ [m]).map (expected handler) := by
    rw [List.map_append, List.map_singleton, expected, hbody]
  have hcat : A ++ m :: B = (A ++ [m]) ++ B := by simp
  by_cases hge : unsent.length ≥ inbuf.size
  · -- all of the buffer belongs to the body
    obtain ⟨unsent', rfl, hfuture⟩ : ∃ unsent', unsent = inbuf.data ++ unsent' ∧ future = unsent' ++ stream B := by
      rcases List.append_eq_append_iff.mp hleft with ⟨as, hunsent, hfuture⟩ | ⟨bs, hdata, hrest⟩
      · exact ⟨as, hunsent, hfuture⟩
      · have hnil : bs = [] := by
          have hall := congrArg List.length hdata
          rw [List.length_append] at hall
          exact List.eq_nil_of_length_eq_zero (by omega)
        subst hnil
        rw [List.append_nil] at hdata
        exact ⟨[], by rw [hdata, List.append_nil], hrest.symm⟩
    have hsub : r.request.remainingPostData - inbuf.size = unsent'.length := by
      rw [hremaining, List.length_append]
      omega
    obtain ⟨inbuf', he, hdata', hroom', -⟩ := compressBuffer_ok { r with
      request.remainingPostData := unsent'.length
      seen := A.map (expected handler) ++ [(m.request, if handler m.request then sent ++ inbuf.data else [])] }
      (Nat.le_refl inbuf.size) hroom hsmall
    rw [← hlen, List.drop_length] at hdata'
    rw [RequestProcessor.processBody]
    simp only [hremaining, hge, if_true, hgive, bind, Except.bind]
    rw [← hremaining, hsub, he]
    refine ⟨_, inbuf', rfl, ?_⟩
    cases unsent' with
    | nil =>
      refine ⟨⟨A ++ [m], B, hcat, ?_, ?_⟩, ?_, hroom'⟩
      · rw [hdata', hfuture]
        refine .request rfl ?_
        rw [List.append_nil] at hdone
        exact hdone
      · rintro m' B' rfl
        rw [hfuture, List.nil_append, stream_cons, List.length_append]
        exact Nat.lt_add_of_pos_left m'.bytes_pos
      · rfl
    | cons c unsent' =>
      refine ⟨⟨A, m :: B, rfl, ?_, ?_⟩, rfl, hroom'⟩
      · have hbody' : m.body = (sent ++ inbuf.data) ++ c :: unsent' := by rw [hbody, List.append_assoc]
        rw [hdata', hfuture, List.nil_append]
        refine .body hbody' hhas hstate ?_ rfl
        change { r.request with remainingPostData := (c :: unsent').length } = _
        rw [hrequest]
      · intro m' B' h
        cases h
        rw [hfuture, List.length_append]
        exact Nat.lt_add_of_pos_left (Nat.succ_pos _)
  · -- the buffer goes on behind the body
    obtain ⟨rest, hdata, hrest⟩ : ∃ rest, inbuf.data = unsent ++ rest ∧ rest ++ future = stream B := by
      rcases List.append_eq_append_iff.mp hleft with ⟨as, hunsent, hfuture⟩ | ⟨bs, hdata, hrest⟩
      · have hall := congrArg List.length hunsent
        rw [List.length_append] at hall
        omega
      · exact ⟨bs, hdata, hrest.symm⟩
    have hstring : inbuf.string 0 unsent.length = .ok unsent :=
      string_drop hroom (by rw [List.drop_zero, hdata]) rfl (Nat.zero_le _) (by decide)
    obtain ⟨inbuf', he, hdata', hroom', -⟩ := compressBuffer_ok { r with
      request.remainingPostData := 0
      seen := A.map (expected handler) ++ [(m.request, if handler m.request then sent ++ unsent else [])] }
      (Nat.le_of_not_le hge) hroom hsmall
    rw [hdata, List.drop_left] at hdata'
    rw [RequestProcessor.processBody]
    simp only [hremaining, hge, if_false, hgive, bind, Except.bind, hstring, he]
    have hnext := hnext rest ⟨unsent, hdata.symm⟩ hrest
    rw [if_pos hhas] at hnext
    refine ⟨_, inbuf', rfl, ⟨A ++ [m], B, hcat, ?_, waits_of_not_prefix hrest hnext⟩, rfl, hroom'⟩
    rw [hdata', hrest]
    exact .request rfl hdone

theorem NextOk.mono (h : NextOk inbuf future B) (hdata : inbuf'.data <:+ inbuf.data) : NextOk inbuf' future B := by
  cases B with
  | nil => trivial
  | cons m B => exact fun rest hrest => h rest (hrest.trans hdata)

theorem request_eq (h : m.WellFormed) :
    m.request = { m.opened.withFields m.fields with remainingPostData := m.body.length } := by
  have hbody := h.body
  rw [Message.request]
  by_cases hhas : m.opened.hasBody = true
  · rw [if_pos hhas]
  · rw [if_neg hhas] at hbody ⊢
    rw [hbody]
    rfl

theorem processRequest_body (h : r.request.hasBody = true) : r.processRequest handler =
    { r with request.postDataHandler := handler r.request, seen := r.seen ++ [(r.request, [])] } := if_pos h

theorem processRequest_done (h : r.request.hasBody = false) : r.processRequest handler =
    { r with state := .request, request := .init, seen := r.seen ++ [(r.request, [])] } := by
  rw [RequestProcessor.processRequest, h]
  rfl

/-- The end of the headers. -/
theorem endHeaders_settled {pos fuel : Nat} (hroom : inbuf.size ≤ inbuf.cap) (hsmall : inbuf.size < 2 ^ 31)
    (hwf : m.WellFormed)
    (hdata : inbuf.data.drop pos = crlf ++ rest) (hrest : rest ++ future = m.body ++ stream B)
    (hrequest : r.request = m.opened.withFields m.fields) (hseen : r.seen = A.map (expected handler))
    (hpos : r.pos = pos + 2) (hnext : NextOk inbuf future (m :: B)) :
    ∃ r' inbuf', (do
        let (r, inbuf') ← r.endHeaders handler inbuf pos
        RequestProcessor.loop handler inbuf.size (fuel + 1) r inbuf') = .ok (r', inbuf') ∧
      Settled handler (A ++ m :: B) future r' inbuf' := by
  have hhasRequest : r.request.hasBody = m.opened.hasBody := by rw [hrequest]; rfl
  have hdrop : inbuf.data.drop (pos + 2) = rest := by rw [← List.drop_drop, hdata]; rfl
  have hle : pos + 2 ≤ inbuf.size := length_data_lt hroom (show inbuf.data.drop pos = [13] ++ 10 :: rest from hdata)
  have hbody := hwf.body
  have hfull : { r.request with remainingPostData := m.body.length } = m.request := by rw [hrequest, request_eq hwf]
  rw [RequestProcessor.endHeaders]
  by_cases hhas : m.opened.hasBody = true
  · rw [if_pos hhas, ← hrequest] at hbody
    obtain ⟨value, hlookup, hvalue⟩ := hbody
    have hlength : r.request.bodyLength = .ok m.body.length := by
      rw [Request.bodyLength, hlookup]
      exact hvalue
    have heol : inbuf.mem[pos]? = some 13 := mem_get hroom (show inbuf.data.drop pos = [] ++ 13 :: 10 :: rest from hdata)
    obtain ⟨inbuf₁, he₁, hdata₁, hroom₁, hsmall₁⟩ := compressBuffer_ok
      { r with request.remainingPostData := m.body.length, state := .body } hle hroom hsmall
    rw [hdrop] at hdata₁
    have hremaining : m.request.remainingPostData = m.body.length := if_pos hhas
    have hsuffix : inbuf₁.data <:+ inbuf.data := by
      rw [hdata₁, ← hdrop]
      exact List.drop_suffix _ _
    obtain ⟨r', inbuf', he, hsettled⟩ := processBody_settled (A := A) (r := { r with
        request := { m.request with postDataHandler := handler m.request }
        state := .body, pos := 0, seen := A.map (expected handler) ++ [(m.request, [])] })
      hroom₁ hsmall₁ (List.nil_append m.body).symm hhas rfl (by rw [← hremaining]) (by simp) (by rw [hdata₁, hrest]) (hnext.mono hsuffix)
    refine ⟨r', inbuf', ?_, hsettled⟩
    simp only [hhasRequest, hhas, if_true, hlength, heol, he₁, bind, Except.bind]
    change (RequestProcessor.loop handler inbuf.size (fuel + 1) (RequestProcessor.processRequest handler
      { r with request := { r.request with remainingPostData := m.body.length }, state := .body, pos := 0 }) inbuf₁) = _
    rw [hfull, processRequest_body (show m.request.hasBody = true from hhas), RequestProcessor.loop, if_pos rfl, hseen]
    exact he
  · rw [if_neg hhas] at hbody
    have hlf := hnext rest ⟨inbuf.data.take (pos + 2), by rw [← hdrop, List.take_append_drop]⟩ (by rw [hrest, hbody]; rfl)
    rw [if_neg hhas] at hlf
    simp only [hhasRequest, hhas, if_false, Bool.false_eq_true, bind, Except.bind]
    have hfull : r.request = m.request := by rw [hrequest, request_eq hwf, hbody]; rfl
    have hnone : r.request.hasBody = false := by rw [hhasRequest, ← Bool.not_eq_true]; exact hhas
    rw [processRequest_done (r := { r with state := .body }) hnone, RequestProcessor.loop, if_neg (by intro h; cases h)]
    dsimp only
    rw [hpos, findNewline_none (by rw [hdrop]; exact hlf)]
    have hstream : rest ++ future = stream B := by rw [hrest, hbody]; rfl
    rw [show A ++ m :: B = (A ++ [m]) ++ B by simp]
    apply compress_settled hle hroom hsmall _ (waits_of_lf hstream hlf)
    rw [hdrop, hstream]
    refine .request rfl ?_
    change r.seen ++ [(r.request, [])] = _
    rw [hseen, hfull, List.map_append, List.map_singleton, expected, hbody, ite_self]

theorem loop_none {fuel : Nat} (hstate : r.state ≠ .body) (hlf : 10 ∉ inbuf.data.drop r.pos) :
    RequestProcessor.loop handler inbuf.size (fuel + 1) r inbuf = r.compressBuffer inbuf r.pos := by
  rw [RequestProcessor.loop, if_neg hstate, findNewline_none hlf]

section

variable {fuel : Nat} {ℓ : List UInt8} (hroom : inbuf.size ≤ inbuf.cap) (hdata : inbuf.data.drop r.pos = ℓ ++ (crlf ++ rest))

include hdata in
theorem drop_line : inbuf.data.drop (r.pos + ℓ.length + 2) = rest := by
  rw [Nat.add_assoc, ← List.drop_drop, hdata, ← List.append_assoc, List.drop_left' (by rw [List.length_append]; rfl)]

include hroom hdata

theorem line_length (hle : r.pos ≤ inbuf.size) : r.pos + ℓ.length + 2 + rest.length = inbuf.size := by
  have hlen := congrArg List.length hdata
  rw [List.length_drop, ManagedBuffer.length_data hroom, List.length_append, List.length_append,
    show crlf.length = 2 from rfl] at hlen
  omega

theorem loop_some (hstate : r.state ≠ .body) (hℓ : 10 ∉ ℓ) : RequestProcessor.loop handler inbuf.size (fuel + 1) r inbuf =
    r.processLine handler inbuf (r.pos + ℓ.length + 1) >>= fun x => RequestProcessor.loop handler inbuf.size fuel x.1 x.2 := by
  have hsplit : inbuf.data.drop r.pos = (ℓ ++ [13]) ++ 10 :: rest := by
    rw [hdata]
    simp [crlf]
  have hnewline : findNewline inbuf r.pos inbuf.size = some (r.pos + ℓ.length + 1) := by
    rw [findNewline_some hroom hsplit (by simp [hℓ]), List.length_append, ← Nat.add_assoc]
    rfl
  rw [RequestProcessor.loop, if_neg hstate, hnewline]

/-- A line loses its carriage return unless this is the first byte of the buffer. -/
theorem lineEnd_ok (hpos : 0 < r.pos + ℓ.length) :
    RequestProcessor.lineEnd inbuf (r.pos + ℓ.length + 1) = r.pos + ℓ.length := by
  have hreturn : inbuf.mem[r.pos + ℓ.length]? = some 13 :=
    mem_get hroom (show inbuf.data.drop r.pos = ℓ ++ 13 :: 10 :: rest from hdata)
  rw [RequestProcessor.lineEnd, Nat.add_sub_cancel, if_pos ⟨by omega, hreturn⟩]

end

theorem waits_of_header {gs : List (List UInt8 × List UInt8)} {d : List UInt8}
    (h : d ++ future = lines gs ++ (crlf ++ (m.body ++ stream B))) (hlf : 10 ∉ d) : Waits (m :: B) future := by
  intro m' B' heq
  cases heq
  rw [← List.append_assoc] at h
  have hlt := length_lt_of_lf h hlf (by simp [crlf])
  rw [List.length_append] at hlt
  exact Nat.lt_of_le_of_lt (Nat.le_add_left _ _) hlt

/-- Header lines up to the end of the headers or of the buffer. -/
theorem loop_headers {fuel : Nat} {fs gs : List (List UInt8 × List UInt8)} (hroom : inbuf.size ≤ inbuf.cap)
    (hsmall : inbuf.size < 2 ^ 31) (hwf : m.WellFormed) (hfields : m.fields = fs ++ gs) (hstate : r.state = .headers)
    (hrequest : r.request = m.opened.withFields fs) (hseen : r.seen = A.map (expected handler))
    (hleft : inbuf.data.drop r.pos ++ future = lines gs ++ (crlf ++ (m.body ++ stream B))) (hle : r.pos ≤ inbuf.size)
    (hstart : 0 < r.pos ∨ ¬ crlf <+: inbuf.data) (hfuel : (inbuf.data.drop r.pos).length + 1 < fuel)
    (hnext : NextOk inbuf future (m :: B)) :
    ∃ r' inbuf', RequestProcessor.loop handler inbuf.size fuel r inbuf = .ok (r', inbuf') ∧
      Settled handler (A ++ m :: B) future r' inbuf' := by
  have hnot : r.state ≠ .body := by
    rw [hstate]
    decide
  induction gs generalizing r fs fuel with
  | nil =>
    obtain ⟨fuel, rfl⟩ := Nat.exists_eq_add_of_le' (show 2 ≤ fuel by omega)
    rcases line_or (show inbuf.data.drop r.pos ++ future = [] ++ (crlf ++ (m.body ++ stream B)) from hleft) (by simp) with
      hlf | ⟨rest, hdata, hrest⟩
    · rw [loop_none hnot hlf]
      exact compress_settled hle hroom hsmall (by rw [hleft]; exact .headers hfields hstate hrequest hseen) (waits_of_header hleft hlf)
    · have hpos : 0 < r.pos := by
        rcases hstart with hpos | hcrlf
        · exact hpos
        · rcases Nat.eq_zero_or_pos r.pos with hzero | hpos
          · rw [hzero, List.drop_zero] at hdata
            exact absurd ⟨rest, hdata.symm⟩ hcrlf
          · exact hpos
      have hstring : inbuf.string r.pos 0 = .ok [] :=
        string_drop hroom (show inbuf.data.drop r.pos = [] ++ _ from (List.nil_append _).symm) rfl hle
          (Nat.lt_of_le_of_lt hle hsmall)
      rw [loop_some hroom hdata hnot (by simp), RequestProcessor.processLine, if_neg (by rw [hstate]; decide)]
      rw [lineEnd_ok hroom hdata (Nat.add_pos_left hpos _), RequestProcessor.processHeaderLine]
      simp only [List.length_nil, Nat.add_zero, Nat.sub_self, hstring, bind, Except.bind, if_true]
      rw [List.append_nil] at hfields
      rw [← hfields] at hrequest
      exact endHeaders_settled (r := { r with pos := r.pos + 1 + 1 }) hroom hsmall hwf hdata hrest hrequest hseen rfl hnext
  | cons g gs ih =>
    obtain ⟨fuel, rfl⟩ := Nat.exists_eq_add_of_le' (show 1 ≤ fuel by omega)
    obtain ⟨hcolon, hname, hvalue⟩ := hwf.fields g (by rw [hfields]; simp)
    have hline : 10 ∉ g.1 ++ 58 :: g.2 := by simp [hname, hvalue]
    have hleft' : inbuf.data.drop r.pos ++ future =
        (g.1 ++ 58 :: g.2) ++ (crlf ++ (lines gs ++ (crlf ++ (m.body ++ stream B)))) := by
      rw [hleft, lines]
      simp only [List.append_assoc]
    rcases line_or hleft' hline with hlf | ⟨rest, hdata, hrest⟩
    · rw [loop_none hnot hlf]
      exact compress_settled hle hroom hsmall (by rw [hleft]; exact .headers hfields hstate hrequest hseen) (waits_of_header hleft hlf)
    · have hlen := line_length hroom hdata hle
      have hdrop := drop_line hdata
      have hadd : r.request.addHeader (g.1 ++ 58 :: g.2) = .ok (m.opened.withFields (fs ++ [g])) := by
        rw [addHeader_ok hcolon (by omega), hrequest, withFields_concat]
      have hne : g.1 ++ 58 :: g.2 ≠ [] := by simp
      generalize g.1 ++ 58 :: g.2 = ℓ at *
      have hstring : inbuf.string r.pos (r.pos + ℓ.length - r.pos) = .ok ℓ :=
        string_drop hroom hdata (Nat.add_sub_cancel_left _ _) hle (Nat.lt_of_le_of_lt hle hsmall)
      have hpos := List.length_pos_of_ne_nil hne
      rw [List.length_drop, ManagedBuffer.length_data hroom] at hfuel
      rw [loop_some hroom hdata hnot hline, RequestProcessor.processLine, if_neg (by rw [hstate]; decide)]
      rw [lineEnd_ok hroom hdata (by omega), RequestProcessor.processHeaderLine]
      simp only [hstring, bind, Except.bind, if_neg hne, hadd]
      refine ih (r := ⟨m.opened.withFields (fs ++ [g]), r.state, r.pos + ℓ.length + 2, r.seen⟩) ?_ hstate rfl hseen ?_ ?_
        (.inl (Nat.succ_pos _)) ?_ hnot
      · rw [hfields, List.append_assoc]
        rfl
      · change inbuf.data.drop (r.pos + ℓ.length + 2) ++ future = _
        rw [hdrop, hrest]
      · change r.pos + ℓ.length + 2 ≤ inbuf.size
        omega
      · change (inbuf.data.drop (r.pos + ℓ.length + 2)).length + 1 < fuel
        rw [hdrop]
        omega

/-- One call. -/
theorem parseNext_settled (hplace : At handler A B r (inbuf.data ++ future)) (hpos : r.pos = 0)
    (hroom : inbuf.size ≤ inbuf.cap) (hsmall : inbuf.size < 2 ^ 31) (hwf : ∀ m ∈ B, m.WellFormed)
    (hcrlf : r.state = .headers → ¬ crlf <+: inbuf.data) (hnext : NextOk inbuf future B) :
    ∃ r' inbuf', r.parseNext handler inbuf = .ok (r', inbuf') ∧ Settled handler (A ++ B) future r' inbuf' := by
  have hlen := ManagedBuffer.length_data hroom
  rw [RequestProcessor.parseNext]
  generalize hleft : inbuf.data ++ future = left at hplace
  cases hplace with
  | request hstate hseen =>
    have hnot : r.state ≠ .body := by
      rw [hstate]
      decide
    have hdrop : inbuf.data.drop r.pos = inbuf.data := by rw [hpos, List.drop_zero]
    by_cases hlf : 10 ∈ inbuf.data
    · cases B with
      | nil =>
        rw [stream_nil, List.append_eq_nil_iff] at hleft
        rw [hleft.1] at hlf
        exact absurd hlf List.not_mem_nil
      | cons m B =>
        have hm := hwf m List.mem_cons_self
        have hstream : inbuf.data ++ future = m.requestLine ++ (crlf ++ (lines m.fields ++ (crlf ++ (m.body ++ stream B)))) := by
          rw [hleft, stream_cons, Message.bytes]
          simp only [List.append_assoc]
        obtain ⟨rest, hdata, hrest⟩ := (line_or hstream hm.requestLine).resolve_left (not_not.mpr hlf)
        have hline := line_length hroom (hdrop.trans hdata) (by omega)
        have hrestDrop := drop_line (hdrop.trans hdata)
        have hlinePos : 0 < m.requestLine.length := List.length_pos_of_ne_nil (by simp [Message.requestLine])
        rw [loop_some hroom (hdrop.trans hdata) hnot hm.requestLine, RequestProcessor.processLine, if_pos hstate,
          lineEnd_ok hroom (hdrop.trans hdata) (by omega), hpos, Nat.zero_add, processRequestLine_ok hroom hsmall hdata hm]
        rw [hpos, Nat.zero_add] at hline hrestDrop
        refine loop_headers (r := ⟨m.opened, .headers, m.requestLine.length + 1 + 1, r.seen⟩) hroom hsmall hm
          (List.nil_append _).symm rfl rfl hseen ?_ ?_ (.inl (Nat.succ_pos _)) ?_ hnext
        · change inbuf.data.drop (m.requestLine.length + 2) ++ future = _
          rw [hrestDrop, hrest]
        · change m.requestLine.length + 2 ≤ inbuf.size
          omega
        · change (inbuf.data.drop (m.requestLine.length + 2)).length + 1 < inbuf.size + 1
          rw [hrestDrop]
          omega
    · rw [loop_none hnot (by rwa [hdrop])]
      apply compress_settled (by omega) hroom hsmall _ (waits_of_lf hleft hlf)
      rw [hdrop, hleft]
      exact .request hstate hseen
  | headers hfields hstate hrequest hseen =>
    have hdrop : inbuf.data.drop r.pos = inbuf.data := by rw [hpos, List.drop_zero]
    exact loop_headers hroom hsmall (hwf _ List.mem_cons_self) hfields hstate hrequest hseen (by rw [hdrop, hleft]) (by omega)
      (.inr (hcrlf hstate)) (by rw [hdrop]; omega) hnext
  | body hbody hhas hstate hrequest hseen =>
    rw [RequestProcessor.loop, if_pos hstate]
    exact processBody_settled hroom hsmall hbody hhas hstate hrequest hseen hleft hnext

/-- A chunk is appended to the buffer, and the processor is called. -/
def feed (handler : Request → Bool) (r : RequestProcessor) (inbuf : ManagedBuffer) (chunk : List UInt8) :
    Except Stop (RequestProcessor × ManagedBuffer) := do
  r.parseNext handler (← inbuf.extend chunk)

def feedAll (handler : Request → Bool) (r : RequestProcessor) (inbuf : ManagedBuffer) :
    List (List UInt8) → Except Stop (RequestProcessor × ManagedBuffer)
  | [] => .ok (r, inbuf)
  | chunk :: chunks => do
    let (r, inbuf) ← feed handler r inbuf chunk
    feedAll handler r inbuf chunks

/-- What the handlers see of a request that is parsed alone. -/
def alone (handler : Request → Bool) (bytes : List UInt8) : Except Stop (List (Request × List UInt8)) := do
  return (← feed handler .init (.init 1024) bytes).1.seen

/-- The chunk does not bring a blank line to the start of the buffer. Where a message
is done with it that was not done before, it brings no newline behind it if the
message has no body, and not all of a further message if it has one. -/
structure StepOk (M : List Message) (R : List UInt8) (r : RequestProcessor) (inbuf : ManagedBuffer) (chunk : List UInt8) :
    Prop where
  small : inbuf.size + chunk.length < 2 ^ 31
  blank : r.state = .headers → ¬ crlf <+: inbuf.data ++ chunk
  next : ∀ A m B rest, M = A ++ m :: B → R ++ chunk = stream (A ++ [m]) ++ rest →
    R.length < (stream (A ++ [m])).length + inbuf.size →
    if m.opened.hasBody then ∀ m' ∈ B.head?, ¬ m'.bytes <+: rest else 10 ∉ rest

/-- Each chunk is so after the bytes `R` before it. -/
def StepsOk (handler : Request → Bool) (M : List Message) :
    List UInt8 → RequestProcessor → ManagedBuffer → List (List UInt8) → Prop
  | _, _, _, [] => True
  | R, r, inbuf, chunk :: chunks => StepOk M R r inbuf chunk ∧
    ∀ r' inbuf', feed handler r inbuf chunk = .ok (r', inbuf') → StepsOk handler M (R ++ chunk) r' inbuf' chunks

/-- Every message that is all in `R` has been seen as it is, and of the next one at most
the request and a part of its body. -/
def Seen (handler : Request → Bool) (M : List Message) (R : List UInt8) (seen : List (Request × List UInt8)) : Prop :=
  ∃ A B, M = A ++ B ∧ (∀ m B', B = m :: B' → R.length < (stream (A ++ [m])).length) ∧
    (seen = A.map (expected handler) ∨ ∃ m B' sent, B = m :: B' ∧ sent <+: m.body ∧
      seen = A.map (expected handler) ++ [(m.request, if handler m.request then sent else [])])

theorem stream_append : stream (A ++ B) = stream A ++ stream B := List.flatMap_append

theorem Settled.seen (h : Settled handler M future r inbuf) (hR : R ++ future = stream M) : Seen handler M R r.seen := by
  obtain ⟨A, B, rfl, hplace, hwaits⟩ := h.place
  refine ⟨A, B, rfl, ?_, ?_⟩
  · rintro m B' rfl
    have hlt := hwaits m B' rfl
    have hlen := congrArg List.length hR
    rw [stream_append, stream_cons, List.length_append, List.length_append, List.length_append] at hlen
    rw [stream_append, stream_cons, stream_nil, List.length_append, List.append_nil]
    omega
  · generalize inbuf.data ++ future = left at hplace
    cases hplace with
    | request hstate hseen => exact .inl hseen
    | headers hfields hstate hrequest hseen => exact .inl hseen
    | body hbody hhas hstate hrequest hseen => exact .inr ⟨_, _, _, rfl, ⟨_, hbody.symm⟩, hseen⟩

/-- With nothing to come, all has been seen. -/
theorem Settled.all (h : Settled handler M [] r inbuf) : r.seen = M.map (expected handler) ∧ inbuf.data = [] := by
  obtain ⟨A, B, rfl, hplace, hwaits⟩ := h.place
  cases B with
  | cons m B => exact absurd (hwaits m B rfl) (Nat.not_lt_zero _)
  | nil =>
    rw [List.append_nil] at hplace ⊢
    generalize inbuf.data = left at hplace
    cases hplace with
    | request hstate hseen => exact ⟨hseen, rfl⟩

theorem init_settled (cap : Nat) : Settled handler M (stream M) .init (.init cap) := by
  refine ⟨⟨[], M, rfl, .request rfl rfl, ?_⟩, rfl, Nat.zero_le _⟩
  rintro m B rfl
  rw [stream_cons, List.length_append]
  exact Nat.lt_add_of_pos_left m.bytes_pos

variable {chunk : List UInt8}

theorem feed_settled (h : Settled handler M (chunk ++ future) r inbuf) (hwf : ∀ m ∈ M, m.WellFormed)
    (hR : R ++ (chunk ++ future) = stream M) (hok : StepOk M R r inbuf chunk) :
    ∃ r' inbuf', feed handler r inbuf chunk = .ok (r', inbuf') ∧ Settled handler M future r' inbuf' := by
  obtain ⟨A, B, rfl, hplace, hwaits⟩ := h.place
  obtain ⟨inbuf₁, he, hsize, hroom, hdata⟩ := ManagedBuffer.extend_ok h.room
    (.inl (Nat.lt_of_le_of_lt (Nat.le_add_right _ _) hok.small)) (Nat.lt_trans hok.small (by decide))
  have hnext : NextOk inbuf₁ future B := by
    cases B with
    | nil => trivial
    | cons m B =>
      intro rest _ hrest
      have hmore : (R ++ chunk) ++ future = (stream (A ++ [m]) ++ rest) ++ future := by
        rw [List.append_assoc, hR, List.append_assoc, hrest, stream_append, stream_append, stream_cons, stream_cons,
          stream_nil, List.append_nil, List.append_assoc]
      have hlt := hwaits m B rfl
      have hlen := congrArg List.length hmore
      have hlen' := congrArg List.length hrest
      simp only [List.length_append] at hlen hlen' hlt
      exact hok.next A m B rest rfl (List.append_cancel_right hmore) (by omega)
  have hblank : r.state = .headers → ¬ crlf <+: inbuf₁.data := by
    rw [hdata]
    exact hok.blank
  rw [← List.append_assoc, ← hdata] at hplace
  have hsmall : inbuf₁.size < 2 ^ 31 := by
    rw [hsize]
    exact hok.small
  obtain ⟨r', inbuf', he', hsettled⟩ := parseNext_settled hplace h.pos hroom hsmall
    (fun m hm => hwf m (List.mem_append_right _ hm)) hblank hnext
  refine ⟨r', inbuf', ?_, hsettled⟩
  rw [feed, he]
  exact he'

theorem feedAll_settled {chunks : List (List UInt8)} (h : Settled handler M (chunks.flatten ++ future) r inbuf)
    (hwf : ∀ m ∈ M, m.WellFormed) (hR : R ++ (chunks.flatten ++ future) = stream M)
    (hok : StepsOk handler M R r inbuf chunks) :
    ∃ r' inbuf', feedAll handler r inbuf chunks = .ok (r', inbuf') ∧ Settled handler M future r' inbuf' := by
  induction chunks generalizing r inbuf R with
  | nil => exact ⟨r, inbuf, rfl, h⟩
  | cons chunk chunks ih =>
    obtain ⟨hstep, hok⟩ := hok
    rw [List.flatten_cons, List.append_assoc] at h hR
    obtain ⟨r₁, inbuf₁, he₁, h₁⟩ := feed_settled h hwf hR hstep
    obtain ⟨r₂, inbuf₂, he₂, h₂⟩ := ih h₁ (by rw [List.append_assoc, hR]) (hok r₁ inbuf₁ he₁)
    refine ⟨r₂, inbuf₂, ?_, h₂⟩
    rw [feedAll, he₁]
    exact he₂

/-- The condition on what is behind a message, by its place. -/
def Behind (M : List Message) (all : List UInt8) (i : Nat) : Prop :=
  stream (M.take (i + 1)) <+: all → ∀ m ∈ M[i]?,
    if m.opened.hasBody then ∀ m' ∈ M[i + 1]?, ¬ m'.bytes <+: all.drop (stream (M.take (i + 1))).length
    else 10 ∉ all.drop (stream (M.take (i + 1))).length

instance (i : Nat) : Decidable (Behind M R i) := inferInstanceAs (Decidable (_ → _))

theorem next_iff {n : Nat} {all : List UInt8} :
    (∀ A m B rest, M = A ++ m :: B → all = stream (A ++ [m]) ++ rest → R.length < (stream (A ++ [m])).length + n →
      if m.opened.hasBody then ∀ m' ∈ B.head?, ¬ m'.bytes <+: rest else 10 ∉ rest) ↔
    ∀ i < M.length, R.length < (stream (M.take (i + 1))).length + n → Behind M all i := by
  constructor
  · rintro h i hi hlt ⟨rest, hrest⟩ m hm
    have htake : M.take (i + 1) = M.take i ++ [m] := by rw [List.take_add_one, Option.mem_def.mp hm, Option.toList_some]
    have hM : M = M.take i ++ m :: M.drop (i + 1) := by rw [List.append_cons, ← htake, List.take_append_drop]
    rw [← hrest, List.drop_left]
    rw [htake] at hrest hlt
    have hnext := h _ m _ rest hM hrest.symm hlt
    rwa [List.head?_drop] at hnext
  · rintro h A m B rest rfl rfl hlt
    have htake : (A ++ m :: B).take (A.length + 1) = A ++ [m] := by
      rw [List.append_cons, List.take_left' (by rw [List.length_append]; rfl)]
    have hbehind := h A.length (by simp) (by rwa [htake]) (by rw [htake]; exact List.prefix_append _ _) m (by simp)
    rw [htake, List.drop_left] at hbehind
    have hhead : (A ++ m :: B)[A.length + 1]? = B.head? := by simp [List.getElem?_append_right, List.head?_eq_getElem?]
    rwa [hhead] at hbehind

theorem alone_ok (hwf : m.WellFormed) (hsmall : m.bytes.length < 2 ^ 31) : alone handler m.bytes = .ok [expected handler m] := by
  have hstream : stream [m] = m.bytes := by rw [stream_cons, stream_nil, List.append_nil]
  have hinit : Settled handler [m] (m.bytes ++ []) .init (.init 1024) := by
    rw [List.append_nil, ← hstream]
    exact init_settled 1024
  have hzero : (ManagedBuffer.init 1024).size + m.bytes.length = m.bytes.length := Nat.zero_add _
  have hok : StepOk [m] [] .init (.init 1024) m.bytes := by
    refine ⟨by rw [hzero]; exact hsmall, fun hstate => (by cases hstate), next_iff.mpr fun i hi _ _ m' _ => ?_⟩
    obtain rfl : i = 0 := Nat.lt_one_iff.mp hi
    split
    · exact fun m'' hm => (nomatch hm)
    · rw [List.nil_append, ← hstream]
      change 10 ∉ (stream [m]).drop (stream [m]).length
      rw [List.drop_length]
      exact List.not_mem_nil
  obtain ⟨r, inbuf, he, hsettled⟩ := feed_settled (R := []) hinit (by simpa using hwf) (by rw [List.append_nil, hstream]; rfl) hok
  rw [alone, he]
  exact congrArg Except.ok hsettled.all.1

/-- The handlers see the messages as if each of them was parsed alone. -/
theorem requests_seen (handler : Request → Bool) (M : List Message) (cap : Nat) (chunks : List (List UInt8))
    (future : List UInt8) (hwf : ∀ m ∈ M, m.WellFormed) (hstream : chunks.flatten ++ future = stream M)
    (hok : StepsOk handler M [] .init (.init cap) chunks) :
    ∃ r inbuf, feedAll handler .init (.init cap) chunks = .ok (r, inbuf) ∧ Seen handler M chunks.flatten r.seen ∧
      (future = [] → r.seen = M.map (expected handler) ∧ inbuf.data = []) ∧
      ∀ m ∈ M, m.bytes.length < 2 ^ 31 → alone handler m.bytes = .ok [expected handler m] := by
  have hinit : Settled handler M (chunks.flatten ++ future) .init (.init cap) := by
    rw [hstream]
    exact init_settled cap
  obtain ⟨r, inbuf, he, hsettled⟩ := feedAll_settled hinit hwf hstream hok
  refine ⟨r, inbuf, he, hsettled.seen hstream, ?_, fun m hm => alone_ok (hwf m hm)⟩
  rintro rfl
  exact hsettled.all

/-- `GET / H` with a header `H:a` -/
def getMessage : Message := ⟨[71, 69, 84], [47], [72], [([72], [97])], []⟩

/-- `POST / H` with a body of one byte -/
def postMessage : Message := ⟨post, [47], [72], [(contentLength, [49])], [98]⟩

theorem getMessage_wellFormed : getMessage.WellFormed :=
  ⟨by decide, by decide, by decide, by decide, rfl⟩

theorem postMessage_wellFormed : postMessage.WellFormed :=
  ⟨by decide, by decide, by decide, by decide, ⟨[49], by decide, by decide⟩⟩

instance : Decidable (StepOk M R r inbuf chunk) :=
  decidable_of_iff (inbuf.size + chunk.length < 2 ^ 31 ∧ (r.state = .headers → ¬ crlf <+: inbuf.data ++ chunk) ∧
      ∀ i < M.length, R.length < (stream (M.take (i + 1))).length + inbuf.size → Behind M (R ++ chunk) i)
    ⟨fun ⟨hsmall, hblank, hnext⟩ => ⟨hsmall, hblank, next_iff.mpr hnext⟩, fun h => ⟨h.small, h.blank, next_iff.mp h.next⟩⟩

theorem stepsOk_cons (chunks : List (List UInt8)) : StepsOk handler M R r inbuf (chunk :: chunks) ↔
    StepOk M R r inbuf chunk ∧ ∀ x ∈ (feed handler r inbuf chunk).toOption,
      StepsOk handler M (R ++ chunk) x.1 x.2 chunks := by
  refine and_congr_right fun _ => ⟨fun h x hx => ?_, fun h r' inbuf' he => h (r', inbuf') (by rw [he]; rfl)⟩
  cases he : feed handler r inbuf chunk with
  | ok y =>
    rw [he] at hx
    cases hx
    exact h _ _ he
  | error e =>
    rw [he] at hx
    cases hx

instance decidableStepsOk (R : List UInt8) (r : RequestProcessor) (inbuf : ManagedBuffer) :
    ∀ chunks, Decidable (StepsOk handler M R r inbuf chunks)
  | [] => isTrue trivial
  | chunk :: chunks =>
    have := fun r inbuf => decidableStepsOk (R ++ chunk) r inbuf chunks
    decidable_of_iff' _ (stepsOk_cons chunks)

/-- The start of the second request comes with the body of the first. -/
def fewChunks : List (List UInt8) :=
  [postMessage.bytes.take 12, postMessage.bytes.drop 12 ++ getMessage.bytes.take 5, getMessage.bytes.drop 5]

theorem few_requests_seen :
    ∃ r inbuf, feedAll (fun _ => true) .init (.init 8) fewChunks = .ok (r, inbuf) ∧
      r.seen = [(postMessage.request, [98]), (getMessage.request, [])] := by
  obtain ⟨r, inbuf, he, -, hall, -⟩ := requests_seen (fun _ => true) [postMessage, getMessage] 8 fewChunks []
    (by simp [postMessage_wellFormed, getMessage_wellFormed]) (by decide) (by decide +kernel)
  exact ⟨r, inbuf, he, (hall rfl).1⟩

/-- The last request is lost when a blank line is a chunk of its own, when it comes with
the body before it, and when it comes with a request without a body before it. -/
theorem split_requests_lost :
    getMessage.WellFormed ∧ postMessage.WellFormed ∧
      (∃ chunks, chunks.flatten = stream [getMessage] ∧
        (feedAll (fun _ => true) .init (.init 8) chunks).map (·.1.seen) ≠ .ok ([getMessage].map (expected fun _ => true))) ∧
      (∃ chunks, chunks.flatten = stream [postMessage, getMessage] ∧
        (feedAll (fun _ => true) .init (.init 8) chunks).map (·.1.seen) ≠
          .ok ([postMessage, getMessage].map (expected fun _ => true))) ∧
      ∃ chunks, chunks.flatten = stream [getMessage, getMessage] ∧
        (feedAll (fun _ => true) .init (.init 8) chunks).map (·.1.seen) ≠
          .ok ([getMessage, getMessage].map (expected fun _ => true)) := by
  refine ⟨getMessage_wellFormed, postMessage_wellFormed, ⟨[getMessage.bytes.take 14, getMessage.bytes.drop 14], ?_⟩,
    ⟨[stream [postMessage, getMessage]], ?_⟩, ⟨[stream [getMessage, getMessage]], ?_⟩⟩
  · decide
  · decide
  · decide

end Http

end Crack
