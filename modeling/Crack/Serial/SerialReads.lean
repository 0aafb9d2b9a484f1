import Crack.Serial.Serial
import Crack.Lib.Varint
import Crack.Lib.Loops

/-!
# Reading back what was written

What is not consumed yet is the rest of the window and then what the reader has left.
-/
namespace Crack

namespace Serial

open Varint (value Terminated low_toNat high_iff)

variable {n : Nat} {b : UInt8} {bs rest : List UInt8}

theorem group_toNat (n : Nat) : (UInt8.ofNat (n &&& 0x7f)).toNat = n % 128 := by
  have hand : n &&& 0x7f = n % 128 := Nat.and_two_pow_sub_one_eq_mod n 7
  rw [UInt8.toNat_ofNat', hand]
  omega

theorem group_high (n : Nat) : (UInt8.ofNat (n &&& 0x7f) ||| 0x80).toNat = n % 128 + 128 := by
  have hlt : n % 128 < 2 ^ 7 := Nat.mod_lt _ (by decide)
  have hor := Nat.two_pow_add_eq_or_of_lt hlt 1
  rw [UInt8.toNat_or, group_toNat, Nat.or_comm]
  change 2 ^ 7 * 1 ||| n % 128 = _
  omega

theorem writeGroups_eq (hn : n ≠ 0) :
    ∃ b, writeGroups n = b :: writeGroups (n / 128) ∧ b.toNat % 128 = n % 128 ∧ (128 ≤ b.toNat ↔ n / 128 ≠ 0) := by
  have hshift : n >>> 7 = n / 128 := Nat.shiftRight_eq_div_pow n 7
  have hlt : n % 128 < 128 := Nat.mod_lt _ (by decide)
  rw [writeGroups, dif_neg hn, hshift]
  refine ⟨_, rfl, ?_⟩
  by_cases h0 : n / 128 = 0
  · rw [if_neg (not_not.mpr h0), group_toNat]
    omega
  · rw [if_pos h0, group_high]
    omega

theorem writeGroups_zero : writeGroups 0 = [] := by rw [writeGroups, dif_pos rfl]

theorem writeGroups_spec (hn : n ≠ 0) : Terminated (writeGroups n) ∧ value (writeGroups n) = n := by
  induction n using Nat.strongRecOn with
  | ind n ih =>
    obtain ⟨b, hb, hlow, hhigh⟩ := writeGroups_eq hn
    rw [hb]
    by_cases h0 : n / 128 = 0
    · rw [h0, writeGroups_zero]
      have hlt : b.toNat < 128 := Nat.lt_of_not_le fun hle => hhigh.mp hle h0
      refine ⟨hlt, ?_⟩
      rw [value, value, hlow]
      omega
    · obtain ⟨ht, hv⟩ := ih (n / 128) (by omega) h0
      obtain ⟨c, hc, -⟩ := writeGroups_eq h0
      constructor
      · rw [hc] at ht ⊢
        exact ⟨hhigh.mpr h0, ht⟩
      · rw [value, hv, hlow]
        exact Nat.mod_add_div n 128

theorem length_writeGroups {k : Nat} (h : n < 128 ^ k) : (writeGroups n).length ≤ k := by
  induction k generalizing n with
  | zero =>
    obtain rfl : n = 0 := by omega
    rw [writeGroups_zero]
    exact Nat.le_refl 0
  | succ k ih =>
    by_cases hn : n = 0
    · rw [hn, writeGroups_zero]
      exact Nat.zero_le _
    · obtain ⟨b, hb, -⟩ := writeGroups_eq hn
      rw [hb, List.length_cons]
      refine Nat.succ_le_succ (ih (Nat.div_lt_of_lt_mul ?_))
      rwa [Nat.mul_comm, ← Nat.pow_succ]

theorem writeUInt_ne_nil (n : Nat) : writeUInt n ≠ [] := by
  rw [writeUInt]
  split
  · exact List.cons_ne_nil _ _
  · rename_i h0
    obtain ⟨b, hb, -⟩ := writeGroups_eq h0
    rw [hb]
    exact List.cons_ne_nil _ _

/-- An unsigned integer takes one to five bytes. -/
theorem writeUInt_spec (h : n < 2 ^ 32) :
    Terminated (writeUInt n) ∧ value (writeUInt n) = n ∧ (writeUInt n).length ≤ 5 := by
  rw [writeUInt]
  by_cases hn : n = 0
  · rw [if_pos hn, hn]
    exact ⟨show (0 : UInt8).toNat < 128 by decide, rfl, by decide⟩
  · rw [if_neg hn]
    obtain ⟨ht, hv⟩ := writeGroups_spec hn
    exact ⟨ht, hv, length_writeGroups (Nat.lt_trans h (by decide))⟩

/-- What a group adds to the ones before it. -/
theorem or_group {val offset : Nat} (hoffset : offset < 32) (hval : val < 2 ^ offset) :
    val ||| uint ((b &&& 0x7f).toNat <<< offset) = (val + 2 ^ offset * (b.toNat % 128)) % 2 ^ 32 := by
  have hlow : val % 2 ^ 32 = val :=
    Nat.mod_eq_of_lt (Nat.lt_of_lt_of_le hval (Nat.pow_le_pow_right (by decide) (Nat.le_of_lt hoffset)))
  rw [low_toNat, ← Varint.lor_shift hval, uint, Nat.or_mod_two_pow, hlow]

theorem or_group_lt {val offset : Nat} (hval : val < 2 ^ offset) :
    (val + 2 ^ offset * (b.toNat % 128)) % 2 ^ 32 < 2 ^ (offset + 7) :=
  Nat.lt_of_le_of_lt (Nat.mod_le _ _) (Varint.lt_two_pow_add hval (Nat.mod_lt _ (by decide)))

theorem value_shift (offset : Nat) (bs : List UInt8) :
    2 ^ offset * (128 * value bs) = 2 ^ (offset + 7) * value bs := by
  rw [Nat.pow_add, Nat.mul_assoc]

/-- The groups behind one that has been added. -/
theorem value_behind (val offset : Nat) (b : UInt8) (bs : List UInt8) :
    ((val + 2 ^ offset * (b.toNat % 128)) % 2 ^ 32 + 2 ^ (offset + 7) * value bs) % 2 ^ 32 =
      (val + 2 ^ offset * value (b :: bs)) % 2 ^ 32 := by
  rw [Nat.mod_add_mod, value, Nat.mul_add, value_shift, Nat.add_assoc]

namespace SerialReader

open ManagedBuffer

variable {r : SerialReader} {K startPos val offset : Nat} {u : Bool} {room : Nat} {r' : SerialReader}

/-- What has not been consumed yet. -/
def pending (r : SerialReader) : List UInt8 := r.buf.data.drop r.pos ++ r.src.left

/-- The window and what is to follow it. -/
def stream (r : SerialReader) : List UInt8 := r.buf.data ++ r.src.left

/-- The reader still has `rest` to return, in a window of at most `K` bytes. -/
structure Ready (r : SerialReader) (rest : List UInt8) (K : Nat) : Prop where
  pos : r.pos ≤ r.buf.size
  size : r.buf.size ≤ r.buf.cap
  least : bufSize ≤ r.buf.cap
  cap : r.buf.cap ≤ K
  small : K ≤ 2 ^ 31
  unread : r.pending = rest

theorem init_ready (src : Source) : Ready (init src) src.left bufSize :=
  ⟨Nat.zero_le _, Nat.zero_le _, Nat.le_of_eq List.length_replicate.symm, Nat.le_of_eq List.length_replicate,
    by decide, rfl⟩

theorem Ready.mono (h : Ready r rest K) {K' : Nat} (hle : K ≤ K') (hsmall : K' ≤ 2 ^ 31) : Ready r rest K' :=
  ⟨h.pos, h.size, h.least, Nat.le_trans h.cap hle, hsmall, h.unread⟩

theorem drop_stream (hpos : r.pos ≤ r.buf.size) (hsize : r.buf.size ≤ r.buf.cap) :
    r.stream.drop r.pos = r.pending :=
  List.drop_append_of_le_length (by rwa [length_data hsize])

theorem Ready.drop_stream (h : Ready r rest K) : r.stream.drop r.pos = rest := by
  rw [SerialReader.drop_stream h.pos h.size, h.unread]

/-- Another place to read from. -/
theorem Ready.at_pos {pos : Nat} (h : Ready r rest K) (hpos : pos ≤ r.buf.size) :
    Ready { r with pos } (r.stream.drop pos) K :=
  ⟨hpos, h.size, h.least, h.cap, h.small, (SerialReader.drop_stream (r := { r with pos }) hpos h.size).symm⟩

theorem Ready.length_pending (h : Ready r rest K) : rest.length = r.buf.size - r.pos + r.src.left.length := by
  rw [← h.unread, pending, List.length_append, List.length_drop, length_data h.size]

theorem Ready.pending_eq (h : Ready r rest K) (hpos : r.pos = r.buf.size) : r.src.left = rest := by
  rw [← h.unread, pending, hpos, ← length_data h.size, List.drop_length, List.nil_append]

/-- The next byte is in the window. -/
theorem Ready.get (h : Ready r (b :: rest) K) (hpos : r.pos < r.buf.size) :
    r.buf.get r.pos = .ok b ∧ Ready { r with pos := r.pos + 1 } rest K := by
  have hlt : r.pos < r.buf.data.length := by rwa [length_data h.size]
  have hdrop := List.drop_eq_getElem_cons hlt
  have hpending := h.unread
  rw [pending, hdrop, List.cons_append] at hpending
  obtain ⟨hb, hrest⟩ := List.cons.inj hpending
  have hplace : r.pos < 2 ^ 31 := Nat.lt_of_lt_of_le hpos (Nat.le_trans h.size (Nat.le_trans h.cap h.small))
  refine ⟨get_ok (hb ▸ hdrop) hplace, hpos, h.size, h.least, h.cap, h.small, hrest⟩

/-- A read behind the data. -/
theorem Ready.fill (room : Nat) (h : Ready r rest K) (hroom : r.buf.size + room ≤ r.buf.cap) :
    Ready ⟨r.buf.receive r.buf.size (r.src.read room).1, r.pos, (r.src.read room).2⟩ rest K := by
  have hle : (r.src.read room).1.length ≤ room := Source.length_read_le
  have hcap : (r.buf.receive r.buf.size (r.src.read room).1).cap = r.buf.cap := cap_receive (by omega)
  have hdata : (r.buf.receive r.buf.size (r.src.read room).1).data = r.buf.data ++ (r.src.read room).1 :=
    data_receive (by omega)
  refine ⟨?_, ?_, ?_, ?_, h.small, ?_⟩
  · exact Nat.le_add_right_of_le h.pos
  · change r.buf.size + _ ≤ (r.buf.receive r.buf.size (r.src.read room).1).cap
    omega
  · exact hcap ▸ h.least
  · exact hcap ▸ h.cap
  · rw [pending, hdata, List.drop_append_of_le_length (by rw [length_data h.size]; exact h.pos), List.append_assoc,
      Source.read_append]
    exact h.unread

theorem Ready.cap_fill (_ : Ready r rest K) (hroom : r.buf.size + room ≤ r.buf.cap) :
    (r.buf.receive r.buf.size (r.src.read room).1).cap = r.buf.cap := by
  have hle : (r.src.read room).1.length ≤ room := Source.length_read_le
  exact cap_receive (by omega)

theorem stream_fill (hroom : r.buf.size + room ≤ r.buf.cap) (pos : Nat) :
    stream ⟨r.buf.receive r.buf.size (r.src.read room).1, pos, (r.src.read room).2⟩ = r.stream := by
  have hle : (r.src.read room).1.length ≤ room := Source.length_read_le
  rw [stream, data_receive (by omega), List.append_assoc, Source.read_append]
  rfl

/-- The read finds its place in the memory; with a full window it returns nothing. -/
theorem Ready.deliver (h : Ready r rest K) (hroom : r.buf.size + room ≤ r.buf.cap) :
    r.buf.deliver r.buf.size (r.src.read room).1 = .ok (r.buf.receive r.buf.size (r.src.read room).1) := by
  have hle : (r.src.read room).1.length ≤ room := Source.length_read_le
  have hcap := h.cap
  have hsmall := h.small
  refine deliver_ok ?_ (by omega)
  by_cases hlt : r.buf.size < 2 ^ 31
  · exact .inl hlt
  · exact .inr (List.eq_nil_of_length_eq_zero (by omega))

/-- A window that is used up: the bytes from `startPos` on stay, and more follow, if there are any. -/
theorem Ready.refill (h : Ready r rest K) (hpos : r.pos = r.buf.size) (hstart : startPos ≤ r.pos)
    (hshort : r.pos - startPos < bufSize) :
    ∃ r', r.refill startPos = .ok (r', decide (rest ≠ [])) ∧ Ready r' rest K ∧ r'.pos = r.pos - startPos ∧
      r'.stream = r.stream.drop startPos ∧ r'.buf.cap = r.buf.cap ∧ (rest ≠ [] → r'.pos < r'.buf.size) := by
  have hsub : uintSub r.pos startPos = r.pos - startPos := if_pos hstart
  have hleft : r.src.left = rest := h.pending_eq hpos
  have hlimit : r.buf.size ≤ 2 ^ 31 := Nat.le_trans h.size (Nat.le_trans h.cap h.small)
  -- the window after the bytes were moved
  obtain ⟨buf, hbuf, hsize, hcap, hdata⟩ : ∃ buf, r.dropBefore startPos = .ok buf ∧
      buf.size = r.pos - startPos ∧ buf.cap = r.buf.cap ∧ buf.data = r.buf.data.drop startPos := by
    by_cases h0 : startPos = 0
    · subst h0
      exact ⟨r.buf, rfl, hpos.symm, rfl, rfl⟩
    · rw [dropBefore, if_pos h0]
      obtain ⟨buf, hbuf, hsize, hcap, hdata⟩ := compact_ok (hpos ▸ hstart) h.size (by omega) (by omega)
      exact ⟨buf, hbuf, hpos ▸ hsize, hcap, hdata⟩
  have hlt : buf.size < buf.cap := by
    have hleast := h.least
    omega
  have hmoved : Ready ⟨buf, buf.size, r.src⟩ rest K := by
    refine ⟨Nat.le_refl _, Nat.le_of_lt hlt, hcap ▸ h.least, hcap ▸ h.cap, h.small, ?_⟩
    rw [pending, hdata, List.drop_drop, hsize, Nat.add_sub_cancel' hstart]
    exact h.unread
  have hroom : uintzSub buf.cap buf.size = buf.cap - buf.size := if_pos (Nat.le_of_lt hlt)
  have hall : buf.size + (buf.cap - buf.size) ≤ buf.cap := Nat.le_of_eq (Nat.add_sub_cancel' (Nat.le_of_lt hlt))
  have hbytes : (r.src.read (buf.cap - buf.size)).1 ≠ [] ↔ rest ≠ [] := by
    rw [← hleft]
    refine ⟨fun hne hnil => hne ?_, fun hne => List.ne_nil_of_length_pos (Source.read_pos (Nat.sub_pos_of_lt hlt) hne)⟩
    rw [Source.read, hnil]
    exact List.take_nil
  refine ⟨_, ?_, hmoved.fill (buf.cap - buf.size) hall, hsize, ?_, (hmoved.cap_fill hall).trans hcap, fun hrest => ?_⟩
  · rw [SerialReader.refill, hbuf, hsub, ← hsize]
    simp only [bind, Except.bind, hroom, hbytes, hmoved.deliver hall]
    rfl
  · refine (stream_fill (r := ⟨buf, buf.size, r.src⟩) hall _).trans ?_
    rw [stream, hdata, stream, List.drop_append_of_le_length]
    rw [length_data h.size]
    exact hpos ▸ hstart
  · exact Nat.lt_add_of_pos_right (List.length_pos_of_ne_nil (hbytes.mpr hrest))

/-- What the test for data does to the window: nothing, or it starts at `startPos` from then on. -/
def Refilled (r r' : SerialReader) (startPos startPos' : Nat) : Prop :=
  r.pos < r.buf.size ∧ r' = r ∧ startPos' = startPos ∨
    r.pos = r.buf.size ∧ startPos' = 0 ∧ r'.pos = r.pos - startPos ∧ r'.stream = r.stream.drop startPos ∧
      r'.buf.cap = r.buf.cap

theorem Ready.ensureData (h : Ready r rest K) (hstart : startPos ≤ r.pos) (hshort : r.pos - startPos < bufSize) :
    ∃ r' startPos', r.ensureData startPos = .ok (r', startPos', decide (rest ≠ [])) ∧ Ready r' rest K ∧
      startPos' ≤ r'.pos ∧ r'.pos - startPos' = r.pos - startPos ∧ (rest ≠ [] → r'.pos < r'.buf.size) ∧
      Refilled r r' startPos startPos' := by
  rw [SerialReader.ensureData]
  by_cases hpos : r.pos = r.buf.size
  · obtain ⟨r', he, h', hpos', hstream, hcap, hlt⟩ := h.refill hpos hstart hshort
    rw [if_pos hpos, he]
    exact ⟨r', 0, rfl, h', Nat.zero_le _, hpos', hlt, .inr ⟨hpos, rfl, hpos', hstream, hcap⟩⟩
  · have hlt : r.pos < r.buf.size := Nat.lt_of_le_of_ne h.pos hpos
    have hrest : rest ≠ [] := by
      have hlen := h.length_pending
      exact List.ne_nil_of_length_pos (by omega)
    rw [if_neg hpos, decide_eq_true hrest]
    exact ⟨r, startPos, rfl, h, hstart, rfl, fun _ => hlt, .inl ⟨hlt, rfl, rfl⟩⟩

theorem Refilled.drop_stream {startPos' : Nat} (h : Refilled r r' startPos startPos') :
    r'.stream.drop startPos' = r.stream.drop startPos ∧ r'.buf.cap = r.buf.cap := by
  rcases h with ⟨-, rfl, rfl⟩ | ⟨-, rfl, -, hstream, hcap⟩
  · exact ⟨rfl, rfl⟩
  · exact ⟨hstream, hcap⟩

/-- The window after `n` bytes of a number that starts at `startPos`: it has not changed if they were in
it, and starts with the number if they were not. -/
def Moved (r r' : SerialReader) (startPos n : Nat) : Prop :=
  if r.pos + n ≤ r.buf.size then r' = { r with pos := r.pos + n }
  else r'.pos = r.pos - startPos + n ∧ r'.stream = r.stream.drop startPos ∧ r'.buf.cap = r.buf.cap

theorem Moved.refl (h : r.pos ≤ r.buf.size) : Moved r r startPos 0 := by
  rw [Moved, if_pos (by rwa [Nat.add_zero])]
  rfl

theorem Moved.behind {r₁ r' : SerialReader} {startPos₁ n : Nat} (hstart : startPos ≤ r.pos)
    (hfilled : Refilled r r₁ startPos startPos₁) (h : Moved { r₁ with pos := r₁.pos + 1 } r' startPos₁ n) :
    Moved r r' startPos (n + 1) := by
  rw [Moved] at h ⊢
  rcases hfilled with ⟨-, rfl, rfl⟩ | ⟨hpos, rfl, hpos₁, hstream, hcap⟩
  · have hsum : r₁.pos + (n + 1) = r₁.pos + 1 + n := by omega
    have hsub : r₁.pos - startPos₁ + (n + 1) = r₁.pos + 1 - startPos₁ + n := by omega
    rw [hsum, hsub]
    exact h
  · rw [if_neg (by omega)]
    split at h
    · subst h
      exact ⟨by rw [← hpos₁]; exact Nat.add_right_comm _ _ _, hstream, hcap⟩
    · obtain ⟨hpos', hstream', hcap'⟩ := h
      rw [hpos', hstream', hcap', ← hpos₁]
      exact ⟨Nat.add_right_comm _ _ _, hstream, hcap⟩

/-- A group of an unsigned integer. -/
theorem Ready.group (u : Bool) (n startPos val offset : Nat) (h : Ready r (b :: rest) K) (hstart : startPos ≤ r.pos)
    (hoffset : offset = 7 * (r.pos - startPos)) (hlt : offset ≤ 28) :
    ∃ r₁ startPos₁, r.readGroups u (n + 1) startPos val offset =
        (if b &&& 0x80 ≠ 0 then
          SerialReader.readGroups u n { r₁ with pos := r₁.pos + 1 } startPos₁
            (val ||| uint ((b &&& 0x7f).toNat <<< offset)) (offset + 7)
        else .ok (val ||| uint ((b &&& 0x7f).toNat <<< offset), { r₁ with pos := r₁.pos + 1 })) ∧
      Ready { r₁ with pos := r₁.pos + 1 } rest K ∧ startPos₁ ≤ r₁.pos + 1 ∧
      offset + 7 = 7 * (r₁.pos + 1 - startPos₁) ∧ Refilled r r₁ startPos startPos₁ := by
  have hshort : r.pos - startPos < bufSize := by
    rw [bufSize]
    omega
  have hne : b :: rest ≠ [] := List.cons_ne_nil _ _
  obtain ⟨r₁, startPos₁, he₁, h₁, hstart₁, hpos₁, hlt₁, hfilled⟩ := h.ensureData hstart hshort
  obtain ⟨hget, h₂⟩ := h₁.get (hlt₁ hne)
  have hpos : uint (r₁.pos + 1) = r₁.pos + 1 := by
    have hlt := hlt₁ hne
    have hcap := h₁.cap
    have hsize := h₁.size
    have hK := h₁.small
    exact Nat.mod_eq_of_lt (by omega)
  have hnot : ¬ offset ≥ 32 := by omega
  refine ⟨r₁, startPos₁, ?_, h₂, Nat.le_succ_of_le hstart₁, by omega, hfilled⟩
  rw [SerialReader.readGroups, he₁]
  simp only [bind, Except.bind, hget, hpos, decide_eq_true hne, if_true, if_neg hnot]
  rfl

/-- The groups of an unsigned integer are read, with the ones that came before. -/
theorem Ready.readGroups (u : Bool) (startPos val offset : Nat) (h : Ready r (bs ++ rest) K) (hbs : Terminated bs)
    (hstart : startPos ≤ r.pos) (hoffset : offset = 7 * (r.pos - startPos)) (hlen : offset + 7 * bs.length ≤ 35)
    (hval : val < 2 ^ offset) (hn : bs.length ≤ n) :
    ∃ r', r.readGroups u n startPos val offset = .ok ((val + 2 ^ offset * value bs) % 2 ^ 32, r') ∧
      Ready r' rest K ∧ Moved r r' startPos bs.length := by
  induction bs generalizing r n startPos val offset with
  | nil => exact absurd hbs id
  | cons b bs ih =>
    rw [List.length_cons] at hlen hn
    obtain ⟨n, rfl⟩ := Nat.exists_eq_succ_of_ne_zero (Nat.ne_zero_of_lt hn)
    obtain ⟨r₁, startPos₁, he₁, h₂, hstart₁, hoffset₁, hfilled⟩ :=
      Ready.group u n startPos val offset h hstart hoffset (by omega)
    rw [he₁, or_group (by omega) hval]
    cases bs with
    | nil =>
      have hhigh : ¬ (b &&& 0x80 ≠ 0) := by
        rw [high_iff]
        exact Nat.not_le_of_lt hbs
      rw [if_neg hhigh, value, value, Nat.mul_zero, Nat.add_zero]
      exact ⟨_, rfl, h₂, Moved.behind hstart hfilled (Moved.refl h₂.pos)⟩
    | cons c bs =>
      obtain ⟨hhigh, hbs⟩ := hbs
      rw [if_pos ((high_iff b).mpr hhigh)]
      obtain ⟨r', he, h', hmoved⟩ := ih _ _ _ h₂ hbs hstart₁ hoffset₁ (by omega)
        (or_group_lt hval) (Nat.le_of_succ_le_succ hn)
      rw [value_behind] at he
      exact ⟨r', he, h', Moved.behind hstart hfilled hmoved⟩

/-- A number of at most five bytes, of which 32 bits are kept. -/
theorem Ready.readNumber (u : Bool) (h : Ready r (bs ++ rest) K) (hbs : Terminated bs) (hlen : bs.length ≤ 5) :
    ∃ r', r.readUInt u = .ok (value bs % 2 ^ 32, r') ∧ Ready r' rest K ∧ Moved r r' r.pos bs.length := by
  have hn : bs.length ≤ r.buf.size + r.src.left.length + 1 := by
    have hall := h.length_pending
    rw [List.length_append] at hall
    omega
  obtain ⟨r', he, h', hmoved⟩ := h.readGroups u r.pos 0 0 hbs (Nat.le_refl _) (by omega) (by omega) (by decide) hn
  rw [Nat.zero_add, Nat.pow_zero, Nat.one_mul] at he
  exact ⟨r', he, h', hmoved⟩

theorem Ready.readUInt {v : Nat} (h : Ready r (writeUInt v ++ rest) K) (hv : v < 2 ^ 32) :
    ∃ r', r.readUInt u = .ok (v, r') ∧ Ready r' rest K := by
  obtain ⟨hbs, hvalue, hlen⟩ := writeUInt_spec hv
  obtain ⟨r', he, h', -⟩ := h.readNumber u hbs hlen
  rw [hvalue, Nat.mod_eq_of_lt hv] at he
  exact ⟨r', he, h'⟩

variable {str : List UInt8} {size : Nat}

/-- Bytes that are in the window. -/
theorem Ready.string (h : Ready r (str ++ rest) K) (hpos : r.pos + str.length ≤ r.buf.size) :
    r.buf.string r.pos str.length = .ok str ∧ Ready { r with pos := r.pos + str.length } rest K := by
  have hlen : str.length ≤ (r.buf.data.drop r.pos).length := by
    rw [List.length_drop, length_data h.size]
    omega
  have hunread := h.unread
  rw [pending, ← List.take_append_drop str.length (r.buf.data.drop r.pos), List.append_assoc] at hunread
  obtain ⟨hstr, hrest⟩ := List.append_inj hunread (List.length_take_of_le hlen)
  have hlimit : r.buf.size ≤ 2 ^ 31 := Nat.le_trans h.size (Nat.le_trans h.cap h.small)
  rw [string_ok (by omega) hpos h.size, hstr]
  refine ⟨rfl, hpos, h.size, h.least, h.cap, h.small, ?_⟩
  rw [List.drop_drop] at hrest
  exact hrest

theorem Ready.ensureCap (cap : Nat) (h : Ready r rest K) (hle : cap ≤ K) :
    ∃ buf, r.ensureCap cap = .ok buf ∧ Ready { r with buf } rest K ∧ buf.cap = max r.buf.cap cap ∧
      buf.size = r.buf.size ∧ buf.data = r.buf.data := by
  rw [SerialReader.ensureCap]
  by_cases hlt : r.buf.cap < cap
  · have hfits : uint r.buf.cap < cap := Nat.lt_of_le_of_lt (uint_le _) hlt
    obtain ⟨buf, he, hsize, hcap, hdata⟩ := grow_ok hfits (Nat.le_trans h.size (Nat.le_of_lt hlt)) h.size
    rw [if_pos hlt, Nat.max_eq_right (Nat.le_of_lt hlt)]
    refine ⟨buf, he, ⟨?_, ?_, ?_, ?_, h.small, ?_⟩, hcap, hsize, hdata⟩
    · exact hsize ▸ h.pos
    · exact hsize ▸ hcap ▸ Nat.le_trans h.size (Nat.le_of_lt hlt)
    · exact hcap ▸ Nat.le_trans h.least (Nat.le_of_lt hlt)
    · exact hcap ▸ hle
    · rw [pending, hdata]
      exact h.unread
  · rw [if_neg hlt, Nat.max_eq_left (Nat.le_of_not_lt hlt)]
    exact ⟨r.buf, rfl, h, rfl, rfl, rfl⟩

/-- The loop of `readFixedString` comes to an end. -/
theorem readMore_returns (size : Nat) (n : Nat) (h : Ready r rest K) (hn : r.src.left.length < n) :
    ∃ r' more, readMore size n r = .ok (r', more) := by
  induction n generalizing r with
  | zero => exact absurd hn (Nat.not_lt_zero _)
  | succ n ih =>
    have hroom : uintzSub r.buf.cap r.buf.size = r.buf.cap - r.buf.size := if_pos h.size
    have hall : r.buf.size + (r.buf.cap - r.buf.size) ≤ r.buf.cap := Nat.le_of_eq (Nat.add_sub_cancel' h.size)
    rw [SerialReader.readMore, hroom]
    by_cases hlt : uintzSub r.buf.size r.pos < size
    · rw [if_pos hlt]
      dsimp only
      rw [h.deliver hall]
      dsimp only
      by_cases hbytes : (r.src.read (r.buf.cap - r.buf.size)).1 = []
      · rw [if_pos hbytes]
        exact ⟨_, _, rfl⟩
      · have hread := List.length_pos_of_ne_nil hbytes
        have hboth : _ ++ (r.src.read (r.buf.cap - r.buf.size)).2.left = r.src.left := Source.read_append
        have hsplit := congrArg List.length hboth
        rw [List.length_append] at hsplit
        rw [if_neg hbytes]
        exact ih (h.fill _ hall)
          (show (r.src.read (r.buf.cap - r.buf.size)).2.left.length < n by omega)
    · rw [if_neg hlt]
      exact ⟨_, _, rfl⟩

/-- The loop ends with enough in the window, or with less, and then there is no room or nothing left. -/
theorem Ready.readMore_spec {more : Bool} (n : Nat) (h : Ready r rest K) (he : readMore size n r = .ok (r', more)) :
    Ready r' rest K ∧ r'.pos = r.pos ∧ r'.stream = r.stream ∧ r'.buf.cap = r.buf.cap ∧ r.buf.size ≤ r'.buf.size ∧
      if more then r.pos + size ≤ r'.buf.size
      else r'.buf.size < r.pos + size ∧ (r'.buf.size < r'.buf.cap → r'.src.left = []) := by
  induction n generalizing r with
  | zero => cases he
  | succ n ih =>
    have hpos := h.pos
    have hsub : uintzSub r.buf.size r.pos = r.buf.size - r.pos := if_pos hpos
    have hroom : uintzSub r.buf.cap r.buf.size = r.buf.cap - r.buf.size := if_pos h.size
    have hall : r.buf.size + (r.buf.cap - r.buf.size) ≤ r.buf.cap := Nat.le_of_eq (Nat.add_sub_cancel' h.size)
    rw [SerialReader.readMore, hsub, hroom] at he
    by_cases hlt : r.buf.size - r.pos < size
    · have hfill := h.fill (r.buf.cap - r.buf.size) hall
      have hcap := h.cap_fill hall
      have hstream := stream_fill hall r.pos
      rw [if_pos hlt] at he
      dsimp only at he
      rw [h.deliver hall] at he
      dsimp only at he
      by_cases hbytes : (r.src.read (r.buf.cap - r.buf.size)).1 = []
      · rw [if_pos hbytes] at he
        cases he
        have hsize : (r.buf.receive r.buf.size (r.src.read (r.buf.cap - r.buf.size)).1).size = r.buf.size := by
          rw [hbytes]
          rfl
        refine ⟨hfill, rfl, hstream, hcap, Nat.le_of_eq hsize.symm, ?_⟩
        rw [if_neg Bool.false_ne_true, hsize, hcap]
        refine ⟨by omega, fun hless => ?_⟩
        by_contra hleft
        have hnone : r.src.left ≠ [] := by
          rintro hnil
          rw [Source.read, hnil, List.drop_nil] at hleft
          exact hleft rfl
        exact List.ne_nil_of_length_pos (Source.read_pos (Nat.sub_pos_of_lt hless) hnone) hbytes
      · rw [if_neg hbytes] at he
        obtain ⟨h', hpos', hstream', hcap', hsize', hmore⟩ := ih hfill he
        refine ⟨h', hpos', hstream'.trans hstream, hcap'.trans hcap, Nat.le_trans ?_ hsize', hmore⟩
        exact Nat.le_add_right _ _
    · rw [if_neg hlt] at he
      cases he
      refine ⟨h, rfl, rfl, rfl, Nat.le_refl _, ?_⟩
      rw [if_pos rfl]
      omega

/-- With room for the string in the window, the loop gets it. -/
theorem Ready.readMore (n : Nat) (h : Ready r (str ++ rest) K) (hcap : r.pos + str.length ≤ r.buf.cap)
    (hn : r.src.left.length < n) :
    ∃ r', readMore str.length n r = .ok (r', true) ∧ Ready r' (str ++ rest) K ∧ r'.pos = r.pos ∧
      r'.buf.cap = r.buf.cap ∧ r.pos + str.length ≤ r'.buf.size := by
  obtain ⟨r', more, he⟩ := readMore_returns str.length n h hn
  obtain ⟨h', hpos, -, hcap', hsize, hmore⟩ := h.readMore_spec n he
  cases more with
  | true => exact ⟨r', he, h', hpos, hcap', hmore⟩
  | false =>
    obtain ⟨hless, hdry⟩ := hmore
    have hpos' := h'.pos
    have hlen := h'.length_pending
    rw [hdry (by omega), List.length_append, List.length_nil] at hlen
    omega

/-- A string of a known size, for which the window can grow. -/
theorem Ready.readFixed (h : Ready r (str ++ rest) K) (hK : r.pos + str.length + 1 ≤ K) :
    ∃ r', r.readFixedString str.length u = .ok (some str, r') ∧ Ready r' rest K := by
  have hpos := h.pos
  have hsize := h.size
  have hcap := h.cap
  have hsmall := h.small
  have hsub : uintzSub r.buf.size r.pos = r.buf.size - r.pos := if_pos hpos
  have hend : uint (r.pos + str.length) = r.pos + str.length := Nat.mod_eq_of_lt (by omega)
  have hreq : uint (r.pos + str.length + 1) = r.pos + str.length + 1 := Nat.mod_eq_of_lt (by omega)
  have hlt : ¬ str.length ≥ 2 ^ 31 := by omega
  simp only [SerialReader.readFixedString, SerialReader.copy, hsub, hend, hreq, if_neg hlt]
  by_cases hge : r.buf.size - r.pos ≥ str.length
  · obtain ⟨hstr, h'⟩ := h.string (by omega)
    rw [if_pos hge, hstr]
    exact ⟨_, rfl, h'⟩
  · obtain ⟨buf, hbuf, h₁, hgrown, -⟩ := h.ensureCap (r.pos + str.length + 1) hK
    obtain ⟨r₂, hmore, h₂, hpos₂, -, hsize₂⟩ := h₁.readMore (r.src.left.length + 1)
      (hgrown ▸ Nat.le_trans (Nat.le_succ _) (Nat.le_max_right _ _)) (Nat.lt_succ_self _)
    change r₂.pos = r.pos at hpos₂
    change r.pos + str.length ≤ r₂.buf.size at hsize₂
    rw [← hpos₂] at hsize₂ hend
    obtain ⟨hstr, h₃⟩ := h₂.string hsize₂
    have hlimit := Nat.le_trans h₂.size (Nat.le_trans h₂.cap hsmall)
    obtain ⟨buf₄, hcompact, hsize₄, hcap₄, hdata₄⟩ := compact_ok hsize₂ h₂.size (by omega) (by omega)
    rw [if_neg hge, hbuf]
    simp only [bind, Except.bind, hmore, if_true, hend, hcompact, hstr]
    refine ⟨_, rfl, Nat.zero_le _, ?_, hcap₄ ▸ h₂.least, hcap₄ ▸ h₂.cap, h₂.small, ?_⟩
    · rw [hsize₄, hcap₄]
      exact Nat.le_trans (Nat.sub_le _ _) h₂.size
    · rw [pending, hdata₄, List.drop_zero]
      exact h₃.unread

/-- A string of a known size, for which the window may have to grow. -/
theorem Ready.readFixedString (h : Ready r (str ++ rest) K) (hK : K + (str.length + 1) ≤ 2 ^ 31) :
    ∃ r', r.readFixedString str.length u = .ok (some str, r') ∧ Ready r' rest (K + (str.length + 1)) := by
  have hpos := Nat.le_trans h.pos (Nat.le_trans h.size h.cap)
  exact (h.mono (Nat.le_add_right K (str.length + 1)) hK).readFixed (by omega)

theorem Ready.readString (h : Ready r (writeString str ++ rest) K) (hK : K + (str.length + 1) ≤ 2 ^ 31) :
    ∃ r', r.readString u = .ok (some str, r') ∧ Ready r' rest (K + (str.length + 1)) := by
  have hlen : uint str.length = str.length := Nat.mod_eq_of_lt (by omega)
  have hne : str.length ≠ endMark := by
    rw [endMark]
    omega
  rw [writeString, hlen, List.append_assoc] at h
  obtain ⟨r₁, he₁, h₁⟩ := h.readUInt (u := u) (by omega)
  obtain ⟨r₂, he₂, h₂⟩ := h₁.readFixedString (u := u) hK
  refine ⟨r₂, ?_, h₂⟩
  rw [SerialReader.readString, he₁]
  simp only [bind, Except.bind, if_neg hne, he₂]
  rfl

end SerialReader

/-- By how much an item may make the window grow. -/
def Item.growth : Item → Nat
  | .uint _ => 0
  | .string val => val.length + 1

def growth (items : List Item) : Nat := (items.map Item.growth).sum

namespace SerialReader

theorem Ready.readItem {item : Item} (h : Ready r (item.write ++ rest) K) (hK : K + item.growth ≤ 2 ^ 31) :
    ∃ r', r.readItem item.kind = .ok (item, r') ∧ Ready r' rest (K + item.growth) := by
  cases item with
  | uint val =>
    obtain ⟨r', he, h'⟩ := h.readUInt (u := true) val.toNat_lt
    refine ⟨r', ?_, h'⟩
    simp only [SerialReader.readItem, Item.kind, he, bind, Except.bind, UInt32.ofNat_toNat]
    rfl
  | string val =>
    obtain ⟨r', he, h'⟩ := h.readString (u := true) hK
    refine ⟨r', ?_, h'⟩
    simp only [SerialReader.readItem, Item.kind, he, bind, Except.bind]
    rfl

theorem Ready.readItems {items : List Item} (rest : List UInt8) (h : Ready r (writeAll items ++ rest) K)
    (hK : K + growth items ≤ 2 ^ 31) :
    ∃ r', r.readItems (items.map Item.kind) = .ok (items, r') ∧ Ready r' rest (K + growth items) := by
  induction items generalizing r K with
  | nil => exact ⟨r, rfl, h⟩
  | cons item items ih =>
    have hgrowth : growth (item :: items) = item.growth + growth items := List.sum_cons
    rw [hgrowth, ← Nat.add_assoc] at hK ⊢
    rw [writeAll, List.flatMap_cons, List.append_assoc] at h
    obtain ⟨r₁, he₁, h₁⟩ := h.readItem (Nat.le_trans (Nat.le_add_right _ _) hK)
    obtain ⟨r₂, he₂, h₂⟩ := ih h₁ hK
    refine ⟨r₂, ?_, h₂⟩
    simp only [List.map_cons, SerialReader.readItems, he₁, he₂, bind, Except.bind]
    rfl

end SerialReader

namespace BufferDeserializer

variable {d : BufferDeserializer} {val offset : Nat} {buffer str : List UInt8} {l : List UInt8} {i : Nat}

/-- The deserializer still has `rest` of its buffer to return. -/
structure Ready (d : BufferDeserializer) (buffer rest : List UInt8) : Prop where
  buffer : d.buffer = buffer
  rest : d.buffer.drop d.pos = rest
  pos : d.pos ≤ d.buffer.length
  small : d.buffer.length ≤ 2 ^ 31

theorem drop_append (bs : List UInt8) (h : l.drop i = bs ++ rest) : l.drop (i + bs.length) = rest := by
  rw [← List.drop_drop, h, List.drop_left]

theorem length_of_drop (h : l.drop i = bs ++ rest) (hi : i ≤ l.length) : i + bs.length ≤ l.length := by
  have hlen := congrArg List.length h
  rw [List.length_drop, List.length_append] at hlen
  omega

theorem readGroups_ok {cur : Nat} (n val offset : Nat) (h : d.buffer.drop cur = bs ++ rest)
    (hcur : cur ≤ d.buffer.length) (hsize : d.buffer.length ≤ 2 ^ 31) (hbs : Terminated bs)
    (hlen : offset + 7 * bs.length ≤ 35) (hval : val < 2 ^ offset)
    (hsmall : val + 2 ^ offset * value bs < 2 ^ 32) (hn : bs.length ≤ n) :
    d.readGroups n cur val offset = .ok (some (val + 2 ^ offset * value bs, cur + bs.length)) := by
  induction bs generalizing n cur val offset with
  | nil => exact absurd hbs id
  | cons b bs ih =>
    have hle := length_of_drop h hcur
    rw [List.length_cons] at hlen hn hle
    obtain ⟨n, rfl⟩ := Nat.exists_eq_succ_of_ne_zero (Nat.ne_zero_of_lt hn)
    have hget : d.buffer[cur]? = some b := by
      rw [← List.head?_drop, h]
      rfl
    have hdrop : d.buffer.drop (cur + 1) = bs ++ rest := drop_append [b] h
    have hpos : uint (cur + 1) = cur + 1 := Nat.mod_eq_of_lt (by omega)
    have hne : cur ≠ d.buffer.length := by omega
    have hgroup : b.toNat % 128 < 128 := Nat.mod_lt _ (by decide)
    rw [value, Nat.mul_add, ← Nat.add_assoc] at hsmall ⊢
    have hor := or_group (b := b) (show offset < 32 by omega) hval
    rw [Nat.mod_eq_of_lt (Nat.lt_of_le_of_lt (Nat.le_add_right _ _) hsmall)] at hor
    have hnot : ¬ offset ≥ 32 := by omega
    rw [BufferDeserializer.readGroups, if_neg hne, if_neg (by omega), hget]
    simp only [hpos, if_neg hnot, hor]
    cases bs with
    | nil =>
      have hhigh : ¬ (b &&& 0x80 ≠ 0) := by
        rw [high_iff]
        exact Nat.not_le_of_lt hbs
      rw [if_neg hhigh, value, Nat.mul_zero, Nat.add_zero]
      rfl
    | cons c bs =>
      obtain ⟨hhigh, hbs⟩ := hbs
      rw [value_shift] at hsmall ⊢
      have hend : cur + (b :: c :: bs).length = cur + 1 + (c :: bs).length := by
        rw [List.length_cons]
        omega
      rw [if_pos ((high_iff b).mpr hhigh), hend]
      exact ih _ _ _ hdrop (by omega) hbs (by omega) (Varint.lt_two_pow_add hval hgroup) hsmall
        (Nat.le_of_succ_le_succ hn)

theorem Ready.readUInt {v : Nat} (h : Ready d buffer (writeUInt v ++ rest)) (hv : v < 2 ^ 32) :
    ∃ d', d.readUInt = .ok d' ∧ Ready d' buffer rest ∧ d'.success = true ∧ d'.lastUInt = v := by
  obtain ⟨hbs, hvalue, hlen⟩ := writeUInt_spec hv
  have hle := length_of_drop h.rest h.pos
  have hread := readGroups_ok (d.buffer.length + 1) 0 0 h.rest h.pos h.small hbs (by omega)
    (by decide) (by omega) (by omega)
  rw [hvalue, Nat.pow_zero, Nat.one_mul, Nat.zero_add] at hread
  refine ⟨{ d with lastUInt := v, pos := d.pos + (writeUInt v).length, success := true }, ?_,
    ⟨h.buffer, drop_append _ h.rest, hle, h.small⟩, rfl, rfl⟩
  rw [BufferDeserializer.readUInt, hread]
  rfl

theorem Ready.readString (h : Ready d buffer (writeString str ++ rest)) :
    ∃ d', d.readString = .ok d' ∧ Ready d' buffer rest ∧ d'.success = true ∧ d'.lastString = str := by
  have hle := length_of_drop h.rest h.pos
  have hsmall := h.small
  have hlen : uint str.length = str.length := by
    rw [writeString, List.length_append] at hle
    exact Nat.mod_eq_of_lt (by omega)
  rw [writeString, hlen, List.append_assoc] at h
  rw [writeString, List.length_append] at hle
  obtain ⟨d₁, he₁, h₁, hsuccess, hlast⟩ := h.readUInt (by omega)
  have hle₁ := length_of_drop h₁.rest h₁.pos
  have hsub : uintzSub d₁.buffer.length d₁.pos = d₁.buffer.length - d₁.pos := if_pos h₁.pos
  have hpos : uint (d₁.pos + str.length) = d₁.pos + str.length := by
    have := h₁.small
    exact Nat.mod_eq_of_lt (by omega)
  have hge : d₁.buffer.length - d₁.pos ≥ str.length := by omega
  have hinside : ¬ (str.length ≥ 2 ^ 31 ∨ d₁.pos ≥ 2 ^ 31 ∧ str.length ≠ 0) := by
    have hnonempty := List.length_pos_of_ne_nil (writeUInt_ne_nil (uint str.length))
    have := h₁.small
    omega
  refine ⟨{ d₁ with lastString := str, pos := d₁.pos + str.length }, ?_,
    ⟨h₁.buffer, drop_append _ h₁.rest, hle₁, h₁.small⟩, hsuccess, rfl⟩
  rw [BufferDeserializer.readString, he₁]
  simp only [bind, Except.bind, hsuccess, if_true, hlast, hsub, if_pos hge, if_neg hinside, hpos, h₁.rest, List.take_left]
  rfl

theorem Ready.readItem {item : Item} (h : Ready d buffer (item.write ++ rest)) :
    ∃ d', d.readItem item.kind = .ok (some item, d') ∧ Ready d' buffer rest := by
  cases item with
  | uint val =>
    obtain ⟨d', he, h', hsuccess, hlast⟩ := h.readUInt val.toNat_lt
    refine ⟨d', ?_, h'⟩
    simp only [BufferDeserializer.readItem, Item.kind, he, bind, Except.bind, hsuccess, hlast, if_true,
      UInt32.ofNat_toNat]
    rfl
  | string val =>
    obtain ⟨d', he, h', hsuccess, hlast⟩ := h.readString
    refine ⟨d', ?_, h'⟩
    simp only [BufferDeserializer.readItem, Item.kind, he, bind, Except.bind, hsuccess, hlast, if_true]
    rfl

theorem Ready.readItems {items : List Item} (h : Ready d buffer (writeAll items ++ rest)) :
    ∃ d', d.readItems (items.map Item.kind) = .ok (items.map some, d') ∧ Ready d' buffer rest := by
  induction items generalizing d with
  | nil => exact ⟨d, rfl, h⟩
  | cons item items ih =>
    rw [writeAll, List.flatMap_cons, List.append_assoc] at h
    obtain ⟨d₁, he₁, h₁⟩ := h.readItem
    obtain ⟨d₂, he₂, h₂⟩ := ih h₁
    refine ⟨d₂, ?_, h₂⟩
    simp only [List.map_cons, BufferDeserializer.readItems, he₁, he₂, bind, Except.bind]
    rfl

end BufferDeserializer

/-- The size of a string is written as a `uint`; where that is 0, an empty string is read. -/
theorem read_long_string {val : List UInt8} (h : uint val.length = 0) (splits : Nat → Nat) :
    ∃ r, (SerialReader.init ⟨writeAll [.string val], splits⟩).readItems [.string] = .ok ([.string []], r) := by
  have hwrite : writeAll [.string val] = writeString [] ++ val := by
    have hcons : ∀ item : Item, writeAll [item] = item.write := fun item => List.append_nil _
    rw [hcons, Item.write, writeString, h]
    rfl
  have hinit := SerialReader.init_ready ⟨writeString [] ++ val, splits⟩
  obtain ⟨r, he, -⟩ := SerialReader.Ready.readString (u := true) hinit (by decide)
  refine ⟨r, ?_⟩
  rw [hwrite]
  simp only [SerialReader.readItems, SerialReader.readItem, he, bind, Except.bind]
  rfl

theorem ne_empty {val : List UInt8} (h : 0 < val.length) : [Item.string val] ≠ [.string []] := by
  rintro ⟨⟩
  cases h

end Serial

end Crack
