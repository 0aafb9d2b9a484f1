import Crack.Serial.SerialReads

/-!
# Reads that run out of data

What a reader says of a number or a string that is cut off.
-/
namespace Crack

namespace Serial

open Varint (Terminated high_iff)
open Loops (bind_ok)

namespace SerialReader

open ManagedBuffer

variable {r r' : SerialReader} {K startPos val offset n size : Nat} {bs str : List UInt8} {u : Bool}

/-- Groups that all have the high bit, and nothing behind them. The window starts with the number then. -/
theorem Ready.readGroups_short (u : Bool) (startPos val offset : Nat) (h : Ready r bs K) (hbs : ∀ b ∈ bs, 128 ≤ b.toNat)
    (hstart : startPos ≤ r.pos) (hoffset : offset = 7 * (r.pos - startPos)) (hlen : offset + 7 * bs.length ≤ 35)
    (hn : bs.length < n) :
    ∃ r', r.readGroups u n startPos val offset =
        (if u then .error (.thrown "Ran out of data.") else .ok (endMark, r')) ∧
      Ready r' (r.stream.drop startPos) K ∧ r'.pos = 0 ∧ r'.buf.cap = r.buf.cap := by
  induction bs generalizing r n startPos val offset with
  | nil =>
    obtain ⟨n, rfl⟩ := Nat.exists_eq_succ_of_ne_zero (Nat.ne_zero_of_lt hn)
    have hshort : r.pos - startPos < bufSize := by
      rw [bufSize]
      omega
    have hlen := h.length_pending
    obtain ⟨r', startPos', he, h', -, -, -, hfilled⟩ := h.ensureData hstart hshort
    obtain ⟨hstream, hcap⟩ := hfilled.drop_stream
    obtain ⟨hlt, -⟩ | ⟨-, rfl, -⟩ := hfilled
    · rw [List.length_nil] at hlen
      omega
    refine ⟨{ r' with pos := 0 }, ?_, hstream ▸ h'.at_pos (Nat.zero_le _), rfl, hcap⟩
    rw [SerialReader.readGroups, he]
    cases u <;> rfl
  | cons b bs ih =>
    rw [List.length_cons] at hlen hn
    obtain ⟨n, rfl⟩ := Nat.exists_eq_succ_of_ne_zero (Nat.ne_zero_of_lt hn)
    obtain ⟨r₁, startPos₁, he₁, h₂, hstart₁, hoffset₁, hfilled⟩ :=
      Ready.group u n startPos val offset h hstart hoffset (by omega)
    rw [he₁]
    rw [if_pos ((high_iff b).mpr (hbs b List.mem_cons_self))]
    obtain ⟨hstream, hcap⟩ := hfilled.drop_stream
    rw [← hstream, ← hcap]
    exact ih _ _ _ h₂ (fun c hc => hbs c (List.mem_cons_of_mem _ hc)) hstart₁ hoffset₁ (by omega)
      (Nat.lt_of_succ_lt_succ hn)

/-- At most five bytes of a number that goes on behind them. The reader stays in front of them. -/
theorem Ready.readUInt_dry (u : Bool) (h : Ready r bs K) (hbs : ∀ b ∈ bs, 128 ≤ b.toNat) (hlen : bs.length ≤ 5) :
    ∃ r', r.readUInt u = (if u then .error (.thrown "Ran out of data.") else .ok (endMark, r')) ∧
      Ready r' bs K ∧ r'.pos = 0 ∧ r'.buf.cap = r.buf.cap := by
  have hn : bs.length < r.buf.size + r.src.left.length + 1 := by
    have hall := h.length_pending
    omega
  obtain ⟨r', he, h', hpos, hcap⟩ := h.readGroups_short u r.pos 0 0 hbs (Nat.le_refl _) (by omega) (by omega) hn
  rw [h.drop_stream] at h'
  exact ⟨r', he, h', hpos, hcap⟩

/-- A number that is cut off. -/
theorem Ready.readUInt_short (u : Bool) {v : Nat} (h : Ready r bs K) (hv : v < 2 ^ 32) (hbs : bs <+: writeUInt v)
    (hne : bs ≠ writeUInt v) :
    ∃ r', r.readUInt u = if u then .error (.thrown "Ran out of data.") else .ok (endMark, r') := by
  obtain ⟨hterm, -, hlen⟩ := writeUInt_spec hv
  have hle := hbs.length_le
  obtain ⟨r', he, -⟩ := h.readUInt_dry u (hterm.high_of_part hbs hne) (by omega)
  exact ⟨r', he⟩

/-- The loop of `readFixedString` gives up. -/
theorem Ready.readMore_short (n : Nat) (h : Ready r str K) (hlt : str.length < size) (hn : r.src.left.length < n) :
    ∃ r', SerialReader.readMore size n r = .ok (r', false) := by
  obtain ⟨r', more, he⟩ := readMore_returns size n h hn
  obtain ⟨h', hpos, -, -, -, hmore⟩ := h.readMore_spec n he
  cases more with
  | true =>
    have hlen := h'.length_pending
    rw [if_pos rfl] at hmore
    omega
  | false => exact ⟨r', he⟩

theorem length_of_copy (he : r.copy size = .ok str) : str.length = size := by
  rw [copy] at he
  split at he
  · cases he
  · rw [ManagedBuffer.string] at he
    split at he
    next hmem =>
      injection he with he
      rw [← he, List.length_take, List.length_drop]
      rw [InMemory, cap] at hmem
      omega
    next => cases he

/-- The loop of `readFixedString` moves bytes from the source to the window. -/
theorem length_readMore (he : readMore size n r = .ok (r', true)) :
    r'.pos = r.pos ∧ r.buf.size ≤ r'.buf.size ∧
      r'.buf.size + r'.src.left.length = r.buf.size + r.src.left.length ∧ uintzSub r'.buf.size r'.pos ≥ size := by
  induction n generalizing r with
  | zero => cases he
  | succ n ih =>
    rw [readMore] at he
    split at he
    next =>
      dsimp only at he
      rw [deliver] at he
      split at he
      next => cases he
      next hdeliver =>
        split at hdeliver
        next =>
          injection hdeliver with hdeliver
          split at he
          next => cases he
          next =>
            obtain ⟨hpos, hle, hall, hge⟩ := ih he
            rw [← hdeliver] at hle hall
            dsimp only at hle hall
            rw [size_receive] at hle hall
            have hsplit := congrArg List.length (@Source.read_append r.src (uintzSub r.buf.cap r.buf.size))
            rw [List.length_append] at hsplit
            exact ⟨hpos, by omega, by omega, hge⟩
        next => cases hdeliver
    next hge =>
      cases he
      exact ⟨rfl, Nat.le_refl _, rfl, Nat.le_of_not_lt hge⟩

/-- A string of a known size that is read has that size, and was there. -/
theorem length_of_readFixedString (hpos : r.pos ≤ r.buf.size) (he : r.readFixedString size u = .ok (some str, r')) :
    str.length = size ∧ size ≤ r.buf.size - r.pos + r.src.left.length := by
  have hsub : uintzSub r.buf.size r.pos = r.buf.size - r.pos := if_pos hpos
  rw [SerialReader.readFixedString, hsub] at he
  by_cases hge : r.buf.size - r.pos ≥ size
  · rw [if_pos hge] at he
    obtain ⟨result, hcopy, he⟩ := bind_ok he
    cases he
    exact ⟨length_of_copy hcopy, by omega⟩
  rw [if_neg hge] at he
  obtain ⟨buf, hbuf, he⟩ := bind_ok he
  have hsize : buf.size = r.buf.size := by
    rw [ensureCap] at hbuf
    split at hbuf
    next => exact size_grow hbuf
    next =>
      cases hbuf
      rfl
  obtain ⟨⟨r₂, more⟩, hmore, he⟩ := bind_ok he
  cases more with
  | true =>
    obtain ⟨hpos₂, hle, hall, hge₂⟩ := length_readMore hmore
    obtain ⟨result, hcopy, he⟩ := bind_ok he
    obtain ⟨buf₂, -, he⟩ := bind_ok he
    cases he
    change r₂.pos = r.pos at hpos₂
    change buf.size ≤ r₂.buf.size at hle
    change _ = buf.size + r.src.left.length at hall
    rw [uintzSub, if_pos (by omega)] at hge₂
    exact ⟨length_of_copy hcopy, by omega⟩
  | false => cases u <;> cases he

/-- A string of a known size is only read when it is there. -/
theorem Ready.of_readFixedString (h : Ready r bs K) (hK : r.pos + str.length + 1 ≤ K)
    (he : r.readFixedString size u = .ok (some str, r')) :
    str.length = size ∧ ∃ rest, bs = str ++ rest ∧ Ready r' rest K := by
  have hall := h.length_pending
  obtain ⟨hsame, hle⟩ := length_of_readFixedString h.pos he
  have hlen : (bs.take size).length = size := List.length_take_of_le (by omega)
  rw [← List.take_append_drop size bs] at h
  obtain ⟨r'', he', h''⟩ := h.readFixed (u := u) (by rwa [hlen, ← hsame])
  rw [hlen, he] at he'
  cases he'
  exact ⟨hlen, bs.drop size, (List.take_append_drop size bs).symm, h''⟩

/-- A call of `readString` that returns has read a size. At the end of the data it stays there; a string that is
cut off lets it go back to the place it had. -/
theorem of_readString {result : Option (List UInt8)} (he : r.readString u = .ok (result, r')) :
    ∃ size r₁, r.readUInt u = .ok (size, r₁) ∧
      if size = endMark then result = none ∧ r' = r₁
      else ∃ r₂, r₁.readFixedString size u = .ok (result, r₂) ∧
        r' = if result.isSome then r₂ else { r₂ with pos := r.pos } := by
  obtain ⟨⟨size, r₁⟩, hread, he⟩ := bind_ok he
  refine ⟨size, r₁, hread, ?_⟩
  dsimp only at he
  split at he
  next hend =>
    rw [if_pos hend]
    cases u with
    | false =>
      cases he
      exact ⟨rfl, rfl⟩
    | true => cases he
  next hend =>
    rw [if_neg hend]
    obtain ⟨⟨result', r₂⟩, hfixed, he⟩ := bind_ok he
    cases result' with
    | none =>
      cases he
      exact ⟨_, hfixed, rfl⟩
    | some str =>
      cases he
      exact ⟨_, hfixed, rfl⟩

/-- A string of which a part is missing. -/
theorem Ready.readFixedString_short (u : Bool) (h : Ready r str K) (hlt : str.length < size)
    (hK : K + (size + 1) ≤ 2 ^ 31) :
    ∃ r', r.readFixedString size u = if u then .error (.thrown "Ran out of data.") else .ok (none, r') := by
  have hpos := h.pos
  have hsize := h.size
  have hcap := h.cap
  have hsub : uintzSub r.buf.size r.pos = r.buf.size - r.pos := if_pos hpos
  have hreq : uint (r.pos + size + 1) = r.pos + size + 1 := Nat.mod_eq_of_lt (by omega)
  have hunread := h.length_pending
  have h := h.mono (Nat.le_add_right K (size + 1)) hK
  obtain ⟨buf, hbuf, h₁, -⟩ := h.ensureCap (r.pos + size + 1) (by omega)
  obtain ⟨r₂, hmore⟩ := h₁.readMore_short (r.src.left.length + 1) hlt (Nat.lt_succ_self _)
  refine ⟨r₂, ?_⟩
  rw [SerialReader.readFixedString, hsub, hreq, if_neg (by omega), hbuf]
  simp only [bind, Except.bind, hmore]
  cases u <;> rfl

/-- A string that is cut off, in its size or behind it. -/
theorem Ready.readString_short {part : List UInt8} (h : Ready r part K) (hK : K + (str.length + 1) ≤ 2 ^ 31)
    (hpart : part <+: writeString str) (hne : part ≠ writeString str) :
    r.readString true = .error (.thrown "Ran out of data.") := by
  have hlen : uint str.length = str.length := Nat.mod_eq_of_lt (by omega)
  rw [writeString, hlen] at hpart hne
  rw [SerialReader.readString]
  rcases Nat.lt_or_ge part.length (writeUInt str.length).length with hcut | hcut
  · have hprefix : part <+: writeUInt str.length :=
      List.prefix_of_prefix_length_le hpart (List.prefix_append _ _) (Nat.le_of_lt hcut)
    obtain ⟨r', he⟩ := h.readUInt_short true (v := str.length) (by omega) hprefix fun he => by
      rw [he] at hcut
      exact Nat.lt_irrefl _ hcut
    rw [he]
    rfl
  · obtain ⟨rest, rfl⟩ := List.prefix_of_prefix_length_le (List.prefix_append (writeUInt str.length) str) hpart hcut
    obtain ⟨r₁, he₁, h₁⟩ := h.readUInt (u := true) (by omega)
    have hrest : rest <+: str := (List.prefix_append_right_inj _).mp hpart
    have hshort : rest.length < str.length := by
      refine Nat.lt_of_le_of_ne hrest.length_le fun heq => hne ?_
      rw [hrest.eq_of_length heq]
    have hnot : str.length ≠ endMark := by
      rw [endMark]
      omega
    obtain ⟨r₂, he₂⟩ := h₁.readFixedString_short true hshort hK
    rw [he₁]
    simp only [bind, Except.bind, if_neg hnot, he₂]
    rfl

end SerialReader

end Serial

end Crack
