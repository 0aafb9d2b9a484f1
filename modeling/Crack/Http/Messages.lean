import Crack.Http.RequestProcessor
import Mathlib.Data.List.ModifyLast

/-!
# Messages

Well-formed requests as messages with their bytes, and what the functions of the
processor on one line do with the lines of a message.
-/
namespace Crack

namespace Http

/-- A request as it is sent, its header fields as names and values. -/
structure Message where
  method : List UInt8
  path : List UInt8
  version : List UInt8
  fields : List (List UInt8 × List UInt8)
  body : List UInt8
  deriving DecidableEq, Repr

def crlf : List UInt8 := [13, 10]

/-- The lines of header fields. -/
def lines : List (List UInt8 × List UInt8) → List UInt8
  | [] => []
  | f :: fs => f.1 ++ 58 :: f.2 ++ (crlf ++ lines fs)

namespace Message

variable (m : Message)

def requestLine : List UInt8 := m.method ++ 32 :: (m.path ++ 32 :: m.version)

def bytes : List UInt8 := m.requestLine ++ (crlf ++ (lines m.fields ++ (crlf ++ m.body)))

/-- The request from the request line. -/
def opened : Request := { Request.init with method := some m.method, path := some m.path, version := some m.version }

end Message

/-- A request with the header fields. -/
def Request.withFields (q : Request) (fs : List (List UInt8 × List UInt8)) : Request :=
  { q with headers := fs.foldl (fun h f => h.set (toLower f.1) [strip f.2]) q.headers }

/-- The request that the handlers get. -/
def Message.request (m : Message) : Request :=
  { m.opened.withFields m.fields with remainingPostData := if m.opened.hasBody then m.body.length else 0 }

/-- A request with a body says how long it is. -/
structure Message.WellFormed (m : Message) : Prop where
  method : 32 ∉ m.method ∧ 10 ∉ m.method
  path : m.path ≠ [] ∧ 32 ∉ m.path ∧ 10 ∉ m.path
  version : m.version ≠ [] ∧ m.version.head? ≠ some 32 ∧ 10 ∉ m.version
  fields : ∀ f ∈ m.fields, 58 ∉ f.1 ∧ 10 ∉ f.1 ∧ 10 ∉ f.2
  body : if m.opened.hasBody then
      ∃ value, (m.opened.withFields m.fields).headers.lookup contentLength = some [value] ∧ parseInt value = .ok m.body.length
    else m.body = []

def stream (M : List Message) : List UInt8 := M.flatMap Message.bytes

/-- What the handlers are given for a message. -/
def expected (handler : Request → Bool) (m : Message) : Request × List UInt8 :=
  (m.request, if handler m.request then m.body else [])

variable {m : Message} {M : List Message} {q : Request} {f : List UInt8 × List UInt8} {fs : List (List UInt8 × List UInt8)}

@[simp] theorem stream_nil : stream [] = [] := rfl

@[simp] theorem stream_cons : stream (m :: M) = m.bytes ++ stream M := List.flatMap_cons

theorem withFields_concat : q.withFields (fs ++ [f]) =
    { q.withFields fs with headers := (q.withFields fs).headers.set (toLower f.1) [strip f.2] } := by
  simp [Request.withFields]

theorem Message.WellFormed.requestLine (h : m.WellFormed) : 10 ∉ m.requestLine := by
  simp [Message.requestLine, h.method.2, h.path.2.2, h.version.2.2]

theorem Message.lf_mem : 10 ∈ m.bytes := by simp [Message.bytes, crlf]

theorem Message.bytes_pos : 0 < m.bytes.length := List.length_pos_of_mem m.lf_mem

variable {c : UInt8} {pre suf d ℓ left future rest : List UInt8} {pos stop : Nat} {inbuf : ManagedBuffer}

theorem findIdx_of_not_mem (h : c ∉ pre) : (pre ++ c :: suf).findIdx? (· == c) = some pre.length := by
  induction pre with
  | nil => simp [List.findIdx?_cons]
  | cons x pre ih =>
    rw [List.mem_cons, not_or] at h
    simp [List.findIdx?_cons, Ne.symm h.1, ih h.2]

theorem lfind_ok (h : inbuf.data.drop pos = pre ++ c :: suf) (hc : c ∉ pre) : inbuf.lfind c pos = some (pos + pre.length) := by
  rw [ManagedBuffer.lfind, h, findIdx_of_not_mem hc]
  rfl

theorem skipSpaces_ok (h : inbuf.data.drop pos = 32 :: (ℓ ++ suf)) (hne : ℓ.head? ≠ some 32)
    (hstop : stop = pos + 1 + ℓ.length) : RequestProcessor.skipSpaces inbuf pos stop = pos + 1 := by
  have htake : (inbuf.data.drop pos).take (stop - pos) = 32 :: ℓ := by
    rw [h, show stop - pos = ℓ.length + 1 by omega, List.take_succ_cons, List.take_left]
  have hspaces : (32 :: ℓ).takeWhile (· == 32) = [32] := by
    cases ℓ with
    | nil => rfl
    | cons x ℓ =>
      have hx : (x == 32) = false := by simpa using hne
      simp [hx]
  rw [RequestProcessor.skipSpaces, htake, hspaces]
  rfl

/-- Either the line has not come to its end yet, or it is there. -/
theorem line_or (h : d ++ future = ℓ ++ (crlf ++ left)) (hℓ : 10 ∉ ℓ) :
    10 ∉ d ∨ ∃ rest, d = ℓ ++ (crlf ++ rest) ∧ rest ++ future = left := by
  rw [← List.append_assoc] at h
  rcases List.append_eq_append_iff.mp h with ⟨as, hline, hfuture⟩ | ⟨bs, hd, hleft⟩
  · rcases List.eq_nil_or_concat as with rfl | ⟨as, x, rfl⟩
    · refine .inr ⟨[], ?_, hfuture⟩
      rw [List.append_nil] at hline ⊢
      exact hline.symm
    · left
      have hprefix : d ++ as = ℓ ++ [13] := by
        have hcat : (ℓ ++ [13]) ++ [10] = (d ++ as) ++ [x] := by simpa [crlf] using hline
        exact (List.append_inj' hcat rfl).1.symm
      have hnot : 10 ∉ ℓ ++ [13] := by simp [hℓ]
      rw [← hprefix] at hnot
      exact fun hmem => hnot (List.mem_append_left _ hmem)
  · exact .inr ⟨bs, by rw [hd, List.append_assoc], hleft.symm⟩

/-- Bytes without a newline end before those that have one. -/
theorem length_lt_of_lf (h : d ++ future = pre ++ suf) (hd : 10 ∉ d) (hpre : 10 ∈ pre) : suf.length < future.length := by
  rcases List.append_eq_append_iff.mp h with ⟨as, hline, hfuture⟩ | ⟨bs, rfl, hleft⟩
  · have hne : as ≠ [] := by
      rintro rfl
      rw [List.append_nil] at hline
      rw [hline] at hpre
      exact hd hpre
    rw [hfuture, List.length_append]
    exact Nat.lt_add_of_pos_left (List.length_pos_of_ne_nil hne)
  · exact absurd (List.mem_append_left _ hpre) hd

section

variable (hcap : inbuf.size ≤ inbuf.cap)

include hcap

theorem length_data_lt (h : inbuf.data.drop pos = pre ++ c :: suf) : pos + pre.length < inbuf.size := by
  have hlen := congrArg List.length h
  rw [List.length_drop, ManagedBuffer.length_data hcap, List.length_append, List.length_cons] at hlen
  omega

theorem mem_get (h : inbuf.data.drop pos = pre ++ c :: suf) : inbuf.mem[pos + pre.length]? = some c := by
  have hlt := length_data_lt hcap h
  have hget : inbuf.data[pos + pre.length]? = some c := by
    rw [← List.getElem?_drop, h, List.getElem?_append_right (Nat.le_refl _), Nat.sub_self]
    rfl
  rwa [ManagedBuffer.data, List.getElem?_take_of_lt hlt] at hget

theorem string_drop {len : Nat} (h : inbuf.data.drop pos = pre ++ suf) (hlen : len = pre.length)
    (hpos : pos ≤ inbuf.size) (hlt : pos < 2 ^ 31) : inbuf.string pos len = .ok pre := by
  have hall := congrArg List.length h
  rw [List.length_drop, ManagedBuffer.length_data hcap, List.length_append] at hall
  rw [ManagedBuffer.string_ok (.inl hlt) (by omega) hcap, h, hlen, List.take_left]

theorem findNewline_some (h : inbuf.data.drop pos = pre ++ 10 :: suf) (hpre : 10 ∉ pre) :
    RequestProcessor.findNewline inbuf pos inbuf.size = some (pos + pre.length) := by
  have htake : inbuf.data.take inbuf.size = inbuf.data := by
    rw [← ManagedBuffer.length_data hcap, List.take_length]
  rw [RequestProcessor.findNewline, htake, h, findIdx_of_not_mem hpre]
  rfl

omit hcap in
theorem findNewline_none (h : 10 ∉ inbuf.data.drop pos) : RequestProcessor.findNewline inbuf pos inbuf.size = none := by
  rw [RequestProcessor.findNewline, ManagedBuffer.data, List.take_take, Nat.min_self]
  rw [List.findIdx?_eq_none_iff.mpr]
  · rfl
  · intro x hx
    rw [beq_eq_false_iff_ne]
    rintro rfl
    exact h hx

omit hcap in
theorem toUInt_ofNat {n : Nat} (h : n < 2 ^ 32) : toUInt n = n := by
  rw [toUInt, Int.emod_eq_of_lt (by omega) (by omega), Int.toNat_natCast]

omit hcap in
theorem addHeader_ok (hf : 58 ∉ f.1) (hsmall : (f.1 ++ 58 :: f.2).length < 2 ^ 31) :
    q.addHeader (f.1 ++ 58 :: f.2) = .ok { q with headers := q.headers.set (toLower f.1) [strip f.2] } := by
  have hlen : (f.1 ++ 58 :: f.2).length = f.1.length + 1 + f.2.length := by simp; omega
  have hadjust : ∀ n : Nat, adjust (f.1 ++ 58 :: f.2) n = n := fun n => if_neg (by omega)
  have hname : slice (f.1 ++ 58 :: f.2) 0 f.1.length = .ok f.1 := by
    have hzero := hadjust 0
    rw [Int.ofNat_zero] at hzero
    rw [slice, hadjust, hzero, if_neg (by omega), Int.sub_zero, toUInt_ofNat (by omega), substr]
    rw [if_neg (by rw [show toUInt 0 = 0 from rfl]; omega), show toUInt 0 = 0 from rfl, List.drop_zero, List.take_left]
  have hvalue : sliceFrom (f.1 ++ 58 :: f.2) (f.1.length + 1) = .ok f.2 := by
    have hcast : ((f.1.length : Int) + 1) = ((f.1.length + 1 : Nat) : Int) := by omega
    rw [sliceFrom, hcast, hadjust, toUInt_ofNat (by omega), if_neg (by omega), substr, if_neg (by omega), List.take_of_length_le]
    · congr 1
      rw [show f.1 ++ 58 :: f.2 = (f.1 ++ [58]) ++ f.2 by simp, List.drop_left' (by simp)]
    · exact Nat.le_of_eq List.length_drop
  rw [Request.addHeader, findIdx_of_not_mem hf]
  simp only [hname, hvalue, bind, Except.bind, pure, Except.pure]

theorem processRequestLine_ok {r : RequestProcessor} (hsmall : inbuf.size < 2 ^ 31)
    (hdata : inbuf.data = m.requestLine ++ rest) (h : m.WellFormed) :
    r.processRequestLine inbuf 0 m.requestLine.length = .ok { r with request := m.opened, state := .headers } := by
  obtain ⟨hpath, hspace, -⟩ := h.path
  obtain ⟨hversion, hhead, -⟩ := h.version
  have hlen : m.requestLine.length = m.method.length + 1 + m.path.length + 1 + m.version.length := by
    simp only [Message.requestLine, List.length_append, List.length_cons]
    omega
  have hvpos := List.length_pos_of_ne_nil hversion
  -- the places of the two spaces
  have hd₀ : inbuf.data.drop 0 = m.method ++ 32 :: (m.path ++ 32 :: (m.version ++ rest)) := by
    rw [hdata, Message.requestLine]
    simp
  have hd₁ : inbuf.data.drop m.method.length = 32 :: ((m.path ++ 32 :: m.version) ++ rest) := by
    rw [List.drop_zero] at hd₀
    rw [hd₀, List.drop_left]
    simp
  have hd₂ : inbuf.data.drop (m.method.length + 1) = m.path ++ 32 :: (m.version ++ rest) := by
    rw [← List.drop_drop, hd₁]
    simp
  have hd₃ : inbuf.data.drop (m.method.length + 1 + m.path.length) = 32 :: (m.version ++ rest) := by
    rw [← List.drop_drop, hd₂, List.drop_left]
  have hd₄ : inbuf.data.drop (m.method.length + 1 + m.path.length + 1) = m.version ++ rest := by
    rw [← List.drop_drop, hd₃]
    rfl
  have hsize : m.requestLine.length ≤ inbuf.size := by
    rw [← ManagedBuffer.length_data hcap, hdata, List.length_append]
    exact Nat.le_add_right _ _
  have hpathHead : (m.path ++ 32 :: m.version).head? ≠ some 32 := by
    cases hp : m.path with
    | nil => exact absurd hp hpath
    | cons x path =>
      rintro ⟨⟩
      rw [hp] at hspace
      exact hspace List.mem_cons_self
  have hmethodEnd : inbuf.lfind 32 0 = some m.method.length := by
    rw [lfind_ok hd₀ h.method.1, Nat.zero_add]
  have hpathStart : RequestProcessor.skipSpaces inbuf m.method.length m.requestLine.length = m.method.length + 1 := by
    apply skipSpaces_ok hd₁ hpathHead
    simp only [Message.requestLine, List.length_append, List.length_cons]
    omega
  have hpathEnd : inbuf.lfind 32 (m.method.length + 1) = some (m.method.length + 1 + m.path.length) := lfind_ok hd₂ hspace
  have hverStart : RequestProcessor.skipSpaces inbuf (m.method.length + 1 + m.path.length) m.requestLine.length =
      m.method.length + 1 + m.path.length + 1 := skipSpaces_ok hd₃ hhead (by omega)
  have hmethod : inbuf.string 0 m.method.length = .ok m.method := 
    string_drop hcap hd₀ rfl (Nat.zero_le _) (by decide)
  have hpathString : inbuf.string (m.method.length + 1) (m.method.length + 1 + m.path.length - (m.method.length + 1)) =
      .ok m.path := string_drop hcap hd₂ (by omega) (by omega) (by omega)
  have hversionString : inbuf.string (m.method.length + 1 + m.path.length + 1)
      (m.requestLine.length - (m.method.length + 1 + m.path.length + 1)) = .ok m.version :=
    string_drop hcap hd₄ (by omega) (by omega) (by omega)
  simp only [RequestProcessor.processRequestLine, hmethodEnd, bind, Except.bind, hmethod, hpathStart, hpathEnd,
    hpathString, hverStart, hversionString]
  rw [if_neg (by omega), if_neg (by omega), if_neg (by omega), if_neg (by omega), if_neg (by omega)]
  rfl

end

end Http

end Crack
