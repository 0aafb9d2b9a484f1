import Crack.Midi.Events
import Crack.Lib.Varint

/-!
# Reading tracks back

A reader keeps up with a writer as long as both have the same idea of the running
status. What is not consumed yet is the rest of the buffer and then what the source has
left.
-/
namespace Crack

namespace Midi

variable {b c : UInt8} {n val : Nat} {rest : List UInt8} {event : Event} {body : Body}

namespace MidiWriter

variable {w : MidiWriter}

/-- Everything that was written, flushed or not. -/
def written (w : MidiWriter) : List UInt8 := w.out ++ w.buffer

@[simp] theorem written_write (b : UInt8) : (w.write b).written = w.written ++ [b] := by
  rw [write]
  split <;> simp [written, flush]

@[simp] theorem status_write (b : UInt8) : (w.write b).status = w.status := by
  rw [write]
  split <;> rfl

@[simp] theorem written_writeBuffer (buf : List UInt8) : (w.writeBuffer buf).written = w.written ++ buf := by
  rw [writeBuffer]
  split
  · simp [written, flush]
  · split <;> simp [written, flush]

@[simp] theorem status_writeBuffer (buf : List UInt8) : (w.writeBuffer buf).status = w.status := by
  rw [writeBuffer]
  split
  · rfl
  · split <;> rfl

@[simp] theorem status_writeStatus (b : UInt8) : (w.writeStatus b).status = b := by
  rw [writeStatus]
  split
  · rw [status_write]
  · next h => exact not_not.mp h

theorem written_writeStatus (b : UInt8) :
    (w.writeStatus b).written = w.written ++ (if w.status ≠ b then [b] else []) := by
  rw [writeStatus]
  split
  · exact written_write b
  · exact (List.append_nil _).symm

/-- The groups of a number above the lowest one, highest first. -/
def highGroups (val : Nat) : Nat → List UInt8
  | 0 => []
  | n + 1 => UInt8.ofNat ((val >>> (7 * (n + 1))) &&& 0x7f ||| 0x80) :: highGroups val n

/-- The bytes of `encodeVarLen`. -/
def varLen (val : Nat) : List UInt8 :=
  if val = 0 then [0] else highGroups val (shifts val - 1) ++ [UInt8.ofNat (val &&& 0x7f)]

theorem writeHigh_spec (n : Nat) :
    (writeHigh val n w).written = w.written ++ highGroups val n ∧ (writeHigh val n w).status = w.status := by
  induction n generalizing w with
  | zero => exact ⟨(List.append_nil _).symm, rfl⟩
  | succ n ih =>
    rw [writeHigh, highGroups, ih.1, ih.2, written_write, status_write, List.append_assoc]
    exact ⟨rfl, rfl⟩

@[simp] theorem written_encodeVarLen (val : Nat) : (w.encodeVarLen val).written = w.written ++ varLen val := by
  rw [encodeVarLen, varLen]
  split
  · rw [written_write]
  · rw [written_write, (writeHigh_spec _).1, List.append_assoc]

@[simp] theorem status_encodeVarLen (val : Nat) : (w.encodeVarLen val).status = w.status := by
  rw [encodeVarLen]
  split
  · rw [status_write]
  · rw [status_write, (writeHigh_spec _).2]

end MidiWriter

open MidiWriter

namespace MidiReader

variable {r : MidiReader}

/-- What has not been consumed yet. -/
def pending (r : MidiReader) : List UInt8 := r.buf.drop r.pos ++ r.src.left

/-- The reader still has `rest` to return. -/
structure Ready (r : MidiReader) (rest : List UInt8) : Prop where
  pos : r.pos ≤ r.buf.length
  unread : r.pending = rest

theorem Ready.available (h : Ready r rest) : rest.length ≤ r.available := by
  rw [← h.unread, pending, List.length_append, List.length_drop, MidiReader.available]
  omega

theorem Ready.gotMoreData (h : Ready r (b :: rest)) :
    ∃ r', r.gotMoreData = (r', true) ∧ Ready r' (b :: rest) ∧ r'.pos < r'.buf.length ∧ r'.status = r.status := by
  rw [MidiReader.gotMoreData]
  by_cases hpos : r.pos = r.buf.length
  · have hunread := h.unread
    rw [pending, hpos, List.drop_length, List.nil_append] at hunread
    have hread : 0 < (r.src.read bufferCap).1.length :=
      Source.read_pos (by decide) (by rw [hunread]; exact List.cons_ne_nil _ _)
    rw [if_pos hpos]
    dsimp only
    rw [if_neg (List.ne_nil_of_length_pos hread)]
    refine ⟨_, rfl, ⟨Nat.zero_le _, ?_⟩, hread, rfl⟩
    rw [pending, List.drop_zero, Source.read_append, hunread]
  · rw [if_neg hpos]
    exact ⟨r, rfl, h, Nat.lt_of_le_of_ne h.pos hpos, rfl⟩

theorem Ready.readByte (h : Ready r (b :: rest)) :
    ∃ r', r.readByte = .ok (b, r') ∧ Ready r' rest ∧ r'.status = r.status := by
  obtain ⟨r₁, he₁, h₁, hlt, hstatus⟩ := h.gotMoreData
  have hdrop := List.drop_eq_getElem_cons hlt
  have hunread := h₁.unread
  rw [pending, hdrop, List.cons_append] at hunread
  obtain ⟨hb, hrest⟩ := List.cons.inj hunread
  refine ⟨{ r₁ with pos := r₁.pos + 1 }, ?_, ⟨hlt, hrest⟩, hstatus⟩
  rw [MidiReader.readByte, he₁]
  dsimp only
  rw [List.getElem?_eq_getElem hlt, hb]

theorem shift_shiftsFrom {k x : Nat} (h : x < 128 ^ k) : x >>> (7 * shiftsFrom k x) = 0 := by
  induction k generalizing x with
  | zero =>
    obtain rfl : x = 0 := by omega
    rfl
  | succ k ih =>
    rw [shiftsFrom]
    split
    · next h0 =>
      subst h0
      rfl
    · have hx : x >>> 7 < 128 ^ k := by
        rw [Nat.shiftRight_eq_div_pow]
        refine Nat.div_lt_of_lt_mul ?_
        rwa [Nat.mul_comm, ← Nat.pow_succ]
      rw [Nat.mul_add, Nat.mul_one, Nat.add_comm, Nat.shiftRight_add, ih hx]

theorem shifts_pos (h : val ≠ 0) : shifts val = shifts val - 1 + 1 := by
  have hpos : shifts val = shiftsFrom 4 (val >>> 7) + 1 := by rw [shifts, shiftsFrom, if_neg h]
  omega

/-- The bytes of a group, without and with another one behind it. -/
theorem group_last (x : Nat) : (UInt8.ofNat (x &&& 0x7f) &&& 0x7f).toNat = x % 128 ∧ UInt8.ofNat (x &&& 0x7f) &&& 0x80 = 0 := by
  have hand : x &&& 0x7f = x % 128 := Nat.and_two_pow_sub_one_eq_mod x 7
  have hnat : (UInt8.ofNat (x &&& 0x7f)).toNat = x % 128 := by
    rw [UInt8.toNat_ofNat', hand]
    omega
  refine ⟨by rw [Varint.low_toNat, hnat]; omega, ?_⟩
  by_contra hne
  have hle := (Varint.high_iff _).mp hne
  omega

theorem group_more (x : Nat) :
    (UInt8.ofNat (x &&& 0x7f ||| 0x80) &&& 0x7f).toNat = x % 128 ∧ UInt8.ofNat (x &&& 0x7f ||| 0x80) &&& 0x80 ≠ 0 := by
  have hand : x &&& 0x7f = x % 128 := Nat.and_two_pow_sub_one_eq_mod x 7
  have hlt : x % 128 < 2 ^ 7 := Nat.mod_lt _ (by decide)
  have hor : x % 128 ||| 0x80 = x % 128 + 128 := by
    have hadd := Nat.two_pow_add_eq_or_of_lt hlt 1
    rw [Nat.or_comm]
    change 2 ^ 7 * 1 ||| x % 128 = _
    omega
  have hnat : (UInt8.ofNat (x &&& 0x7f ||| 0x80)).toNat = x % 128 + 128 := by
    rw [UInt8.toNat_ofNat', hand, hor]
    omega
  refine ⟨by rw [Varint.low_toNat, hnat]; omega, ?_⟩
  rw [Varint.high_iff, hnat]
  omega

theorem join_group {x : Nat} (h : x < 2 ^ 32) : uint ((x >>> 7) <<< 7) ||| x % 128 = x := by
  have hle : (x >>> 7) <<< 7 ≤ x := by
    rw [Nat.shiftLeft_eq, Nat.shiftRight_eq_div_pow]
    exact Nat.div_mul_le_self x _
  rw [uint, Nat.mod_eq_of_lt (Nat.lt_of_le_of_lt hle h), Varint.shift_or]

theorem Ready.readGroups {k m : Nat} (hval : val < 2 ^ 32)
    (h : Ready r (highGroups val m ++ UInt8.ofNat (val &&& 0x7f) :: rest)) (hk : m < k) :
    ∃ r', readGroups k r (val >>> (7 * (m + 1))) = .ok (val, r') ∧ Ready r' rest ∧ r'.status = r.status := by
  have hshift : ∀ i, val >>> i < 2 ^ 32 := fun i => Nat.lt_of_le_of_lt (Nat.shiftRight_le val i) hval
  induction m generalizing r k with
  | zero =>
    obtain ⟨k, rfl⟩ := Nat.exists_eq_succ_of_ne_zero (Nat.ne_zero_of_lt hk)
    obtain ⟨r', he, h', hstatus⟩ := Ready.readByte h
    refine ⟨r', ?_, h', hstatus⟩
    rw [MidiReader.readGroups, he]
    simp only [bind, Except.bind, group_last, ne_eq, not_true_eq_false, if_false]
    rw [show 7 * (0 + 1) = 7 from rfl, join_group hval]
    rfl
  | succ m ih =>
    obtain ⟨k, rfl⟩ := Nat.exists_eq_succ_of_ne_zero (Nat.ne_zero_of_lt hk)
    obtain ⟨r₁, he₁, h₁, hstatus₁⟩ := Ready.readByte h
    obtain ⟨r₂, he₂, h₂, hstatus₂⟩ := ih h₁ (Nat.lt_of_succ_lt_succ hk)
    refine ⟨r₂, ?_, h₂, hstatus₂.trans hstatus₁⟩
    have hsplit : 7 * (m + 1 + 1) = 7 * (m + 1) + 7 := by ring
    rw [MidiReader.readGroups, he₁]
    simp only [bind, Except.bind, group_more, ne_eq, not_false_eq_true, if_true]
    rw [hsplit, Nat.shiftRight_add, join_group (hshift _)]
    exact he₂

theorem Ready.readVarLen (hval : val < 2 ^ 32) (h : Ready r (varLen val ++ rest)) :
    ∃ r', r.readVarLen = .ok (val, r') ∧ Ready r' rest ∧ r'.status = r.status := by
  have havailable := h.available
  rw [MidiReader.readVarLen]
  rw [varLen] at h havailable
  split at h
  · next h0 =>
    subst h0
    obtain ⟨r', he, h', hstatus⟩ := Ready.readByte h
    refine ⟨r', ?_, h', hstatus⟩
    rw [MidiReader.readGroups, he]
    rfl
  · next h0 =>
    have hpos := shifts_pos h0
    have hzero : val >>> (7 * (shifts val - 1 + 1)) = 0 := by
      rw [← hpos]
      exact shift_shiftsFrom (Nat.lt_trans hval (by decide))
    rw [List.append_assoc] at h
    have hm : shifts val - 1 < r.available + 1 := by
      have hlen : ∀ m, (highGroups val m).length = m := by
        intro m
        induction m with
        | zero => rfl
        | succ m ih => rw [highGroups, List.length_cons, ih]
      rw [if_neg h0, List.append_assoc, List.length_append, hlen] at havailable
      omega
    obtain ⟨r', he, h', hstatus⟩ := Ready.readGroups hval h hm
    rw [hzero] at he
    exact ⟨r', he, h', hstatus⟩

/-- No group is shifted out too early. -/
theorem shift_ne_zero {k x i : Nat} (h : i < shiftsFrom k x) : x >>> (7 * i) ≠ 0 := by
  induction k generalizing x i with
  | zero => exact absurd h (Nat.not_lt_zero _)
  | succ k ih =>
    rw [shiftsFrom] at h
    split at h
    · exact absurd h (Nat.not_lt_zero _)
    · next h0 =>
      cases i with
      | zero => exact h0
      | succ i =>
        rw [Nat.mul_add, Nat.mul_one, Nat.add_comm, Nat.shiftRight_add]
        exact ih (Nat.lt_of_succ_lt_succ h)

/-- The first group of a number is not 0 unless it is the only one. -/
theorem head_varLen (hval : val < 2 ^ 32) : (varLen val).head? ≠ some 0x80 := by
  rw [varLen]
  split
  · decide
  · next h0 =>
    have hshifts := shifts_pos h0
    cases hm : shifts val - 1 with
    | zero =>
      intro hhead
      have hlow := (group_last val).2
      rw [Option.some.inj hhead] at hlow
      exact absurd hlow (by decide)
    | succ m =>
      intro hhead
      have hmod := (group_more (val >>> (7 * (m + 1)))).1
      rw [Option.some.inj hhead] at hmod
      have hne : val >>> (7 * (m + 1)) ≠ 0 := by
        refine shift_ne_zero (k := 5) ?_
        change m + 1 < shifts val
        omega
      have hzero : val >>> (7 * (m + 1 + 1)) = 0 := by
        rw [← hm, ← hshifts]
        exact shift_shiftsFrom (Nat.lt_trans hval (by decide))
      have hsplit : 7 * (m + 1 + 1) = 7 * (m + 1) + 7 := by ring
      rw [hsplit, Nat.shiftRight_add, Nat.shiftRight_eq_div_pow _ 7] at hzero
      have h128 : (0x80 &&& 0x7f : UInt8).toNat = 0 := by decide
      omega

theorem Ready.readBytes {bytes : List UInt8} (h : Ready r (bytes ++ rest)) :
    ∃ r', readBytes bytes.length r = .ok (bytes, r') ∧ Ready r' rest ∧ r'.status = r.status := by
  induction bytes generalizing r with
  | nil => exact ⟨r, rfl, h, rfl⟩
  | cons b bytes ih =>
    obtain ⟨r₁, he₁, h₁, hstatus₁⟩ := Ready.readByte h
    obtain ⟨r₂, he₂, h₂, hstatus₂⟩ := ih h₁
    refine ⟨r₂, ?_, h₂, hstatus₂.trans hstatus₁⟩
    simp only [List.length_cons, MidiReader.readBytes, he₁, he₂, bind, Except.bind]
    rfl

end MidiReader

/-- Events as they may be in a track before its end. -/
def Body.WellFormed : Body → Prop
  | .noteOn channel note velocity => channel < 16 ∧ note < 128 ∧ velocity < 128 ∧ velocity ≠ 0
  | .noteOff channel note velocity => channel < 16 ∧ note < 128 ∧ velocity < 128
  | .programChange channel program => channel < 16 ∧ program < 128
  | .pitchWheel channel value => channel < 16 ∧ value.toNat ≤ 0x3FFF
  | .controlChange channel controller value => channel < 16 ∧ controller < 128 ∧ value < 128
  | .sysEx data => ∀ b ∈ data, b < 128
  | .metaEvent action _ => action < 128 ∧ action ≠ 0x2F
  | .endTrack => False

/-- The running status that an event leaves after the status `w`. -/
def Body.statusAfter (w : UInt8) : Body → UInt8
  | .noteOn channel _ _ => 0x90 ||| channel
  | .noteOff channel _ velocity => if w = 0x90 ||| channel ∧ velocity = 0 then w else 0x80 ||| channel
  | .programChange channel _ => 0xC0 ||| channel
  | .pitchWheel channel _ => 0xE0 ||| channel
  | .controlChange channel _ _ => 0xB0 ||| channel
  | .sysEx _ => 0xF0
  | .metaEvent _ _ | .endTrack => w

/-- A status byte where the status changes. -/
def change (w s : UInt8) : List UInt8 := if w ≠ s then [s] else []

/-- The bytes of an event that has no length, or one that fits in a byte. -/
def Body.bytes (w : UInt8) (body : Body) : List UInt8 :=
  match body with
  | .noteOn _ note velocity | .noteOff _ note velocity => change w (body.statusAfter w) ++ [note, velocity]
  | .programChange _ program => change w (body.statusAfter w) ++ [program]
  | .controlChange _ controller value => change w (body.statusAfter w) ++ [controller, value]
  | .metaEvent action contents => 0xFF :: action :: UInt8.ofNat contents.length :: contents
  | .endTrack => [0xFF, 0x2F, 0]
  | .pitchWheel _ _ | .sysEx _ => []

/-- An event that the reader can follow after the status `w` of the writer, and after a meta event or not. -/
def Body.Follows (w : UInt8) (afterMeta : Bool) (body : Body) : Prop :=
  match body with
  | .pitchWheel _ _ | .sysEx _ => False
  | .metaEvent _ contents => contents.length < 128
  | .endTrack => True
  | _ => afterMeta = true → body.statusAfter w ≠ w

def Body.isMeta : Body → Bool
  | .metaEvent _ _ | .endTrack => true
  | _ => false

theorem written_change {w : MidiWriter} (s : UInt8) : (w.writeStatus s).written = w.written ++ change w.status s :=
  written_writeStatus s

theorem Body.writeTo_spec {w : MidiWriter} {afterMeta : Bool} (h : body.Follows w.status afterMeta) :
    (body.writeTo w).written = w.written ++ body.bytes w.status ∧ (body.writeTo w).status = body.statusAfter w.status := by
  cases body with
  | noteOn channel note velocity => simp [writeTo, bytes, statusAfter, written_change]
  | noteOff channel note velocity =>
    by_cases hon : w.status = 0x90 ||| channel ∧ velocity = 0
    · have hnot : ¬ (w.status ≠ 0x90 ||| channel ∨ velocity ≠ 0) := by tauto
      simp only [writeTo, bytes, statusAfter, if_neg hnot, if_pos hon]
      simp [change]
    · have hor : w.status ≠ 0x90 ||| channel ∨ velocity ≠ 0 := by tauto
      simp only [writeTo, bytes, statusAfter, if_pos hor, if_neg hon]
      simp [written_change]
  | programChange channel program => simp [writeTo, bytes, statusAfter, written_change]
  | controlChange channel controller value => simp [writeTo, bytes, statusAfter, written_change]
  | pitchWheel channel value => exact absurd h id
  | sysEx data => exact absurd h id
  | metaEvent action contents =>
    rw [writeTo]
    by_cases hc : contents = []
    · subst hc
      simp [bytes, statusAfter]
    · simp [hc, bytes, statusAfter]
  | endTrack => simp [writeTo, bytes, statusAfter]

/-- The reader's status, which meta events change and the writer's not. -/
def readerStatus (w : UInt8) (afterMeta : Bool) : UInt8 := if afterMeta then 0xFF else w

/-- The parts of a status byte. -/
theorem status_parts {channel : UInt8} (hi : UInt8) (hhi : hi ∈ [0x80, 0x90, 0xB0, 0xC0]) (h : channel < 16) :
    (hi ||| channel) &&& 0xF0 = hi ∧ (hi ||| channel) &&& 0xF = channel ∧ (hi ||| channel) &&& 0x80 ≠ 0 := by
  have hall : ∀ hi ∈ [(0x80 : UInt8), 0x90, 0xB0, 0xC0], ∀ c : Fin 16, (hi ||| UInt8.ofNat c) &&& 0xF0 = hi ∧
      (hi ||| UInt8.ofNat c) &&& 0xF = UInt8.ofNat c ∧ (hi ||| UInt8.ofNat c) &&& 0x80 ≠ 0 := by decide +kernel
  have hc := hall hi hhi ⟨channel.toNat, h⟩
  rwa [UInt8.ofNat_toNat] at hc

theorem data_low (h : b < 128) : ¬ (b &&& 0x80 ≠ 0) := by
  rw [Varint.high_iff]
  exact Nat.not_le_of_lt h

namespace MidiReader

variable {r : MidiReader} {w s d : UInt8} {afterMeta : Bool}

/-- The status byte and the first data byte of a channel event. -/
theorem Ready.readFirst (h : Ready r (change w s ++ d :: rest)) (hstatus : r.status = readerStatus w afterMeta)
    (hs : s &&& 0x80 ≠ 0) (hd : d < 128) (hmeta : afterMeta = true → s ≠ w) :
    ∃ r', r.readFirst = .ok (d, r') ∧ Ready r' rest ∧ r'.status = s := by
  rw [MidiReader.readFirst]
  by_cases hws : w = s
  · have hafter : afterMeta = false := by
      by_contra hne
      exact hmeta (by simpa using hne) hws.symm
    rw [change, if_neg (not_not.mpr hws)] at h
    obtain ⟨r₁, he₁, h₁, hstatus₁⟩ := Ready.readByte h
    refine ⟨r₁, ?_, h₁, ?_⟩
    · simp only [he₁, bind, Except.bind, if_neg (data_low hd)]
      rfl
    · rw [hstatus₁, hstatus, hafter, ← hws]
      rfl
  · rw [change, if_pos hws] at h
    obtain ⟨r₁, he₁, h₁, -⟩ := Ready.readByte h
    obtain ⟨r₂, he₂, h₂, -⟩ := Ready.readByte h₁
    refine ⟨{ r₂ with status := s }, ?_, ⟨h₂.pos, h₂.unread⟩, rfl⟩
    simp only [he₁, he₂, bind, Except.bind, if_pos hs]
    rfl

theorem Ready.readChannel {hi channel : UInt8} (hhi : hi ∈ [0x80, 0x90, 0xB0, 0xC0]) (hchannel : channel < 16) (hd : d < 128)
    (hmeta : afterMeta = true → hi ||| channel ≠ w) (hstatus : r.status = readerStatus w afterMeta)
    (h : Ready r (change w (hi ||| channel) ++ d :: rest)) :
    ∃ r', r.readFirst = .ok (d, r') ∧ Ready r' rest ∧ r'.status = hi ||| channel ∧ r'.status &&& 0xF0 = hi ∧
      r'.status &&& 0xF = channel := by
  obtain ⟨hhigh, hlow, hs⟩ := status_parts hi hhi hchannel
  obtain ⟨r₁, he₁, h₁, hstatus₁⟩ := Ready.readFirst h hstatus hs hd hmeta
  exact ⟨r₁, he₁, h₁, hstatus₁, by rw [hstatus₁, hhigh], by rw [hstatus₁, hlow]⟩

/-- The action of a meta event. -/
theorem Ready.readAction (h : Ready r (0xFF :: d :: rest)) :
    ∃ r', r.readFirst = .ok (d, r') ∧ Ready r' rest ∧ r'.status = 0xFF := by
  obtain ⟨r₁, he₁, h₁, -⟩ := Ready.readByte h
  obtain ⟨r₂, he₂, h₂, -⟩ := Ready.readByte h₁
  refine ⟨{ r₂ with status := 0xFF }, ?_, ⟨h₂.pos, h₂.unread⟩, rfl⟩
  have hhigh : (0xFF : UInt8) &&& 0x80 ≠ 0 := by decide
  rw [MidiReader.readFirst]
  simp only [he₁, he₂, bind, Except.bind, if_pos hhigh]
  rfl

theorem varLen_small (h : n < 128) : varLen n = [UInt8.ofNat n] := by
  rw [varLen]
  split
  · next h0 =>
    subst h0
    rfl
  · next h0 =>
    have hshift : n >>> 7 = 0 := by
      rw [Nat.shiftRight_eq_div_pow]
      omega
    have hone : shifts n = 1 := by rw [shifts, shiftsFrom, if_neg h0, hshift, shiftsFrom, if_pos rfl]
    have hand : n &&& 0x7f = n := (Nat.and_two_pow_sub_one_eq_mod n 7).trans (Nat.mod_eq_of_lt h)
    rw [hone, hand]
    rfl

/-- The reader returns an event that it can follow. -/
theorem Ready.readEvent (hbody : body.WellFormed ∨ body = .endTrack) (hfollows : body.Follows w afterMeta)
    (hstatus : r.status = readerStatus w afterMeta) (h : Ready r (body.bytes w ++ rest)) :
    ∃ r', r.readEvent = .ok (body, r') ∧ Ready r' rest ∧ r'.status = readerStatus (body.statusAfter w) body.isMeta := by
  cases body with
  | pitchWheel channel value => exact absurd hfollows id
  | sysEx data => exact absurd hfollows id
  | noteOn channel note velocity =>
    obtain ⟨hchannel, hnote, -, hvelocity⟩ := hbody.resolve_right (by simp)
    rw [Body.bytes, List.append_assoc] at h
    obtain ⟨r₁, he₁, h₁, hstatus₁, hparts⟩ := Ready.readChannel (by simp) hchannel hnote hfollows hstatus h
    obtain ⟨r₂, he₂, h₂, hstatus₂⟩ := Ready.readByte h₁
    refine ⟨r₂, ?_, h₂, hstatus₂.trans hstatus₁⟩
    rw [MidiReader.readEvent, he₁]
    simp only [bind, Except.bind, hparts, he₂, if_true, if_pos hvelocity]
    rfl
  | noteOff channel note velocity =>
    obtain ⟨hchannel, hnote, -⟩ := hbody.resolve_right (by simp)
    rw [Body.bytes, List.append_assoc] at h
    by_cases hon : w = 0x90 ||| channel ∧ velocity = 0
    · have hafter : (Body.noteOff channel note velocity).statusAfter w = 0x90 ||| channel := by
        rw [Body.statusAfter, if_pos hon, hon.1]
      have hne : afterMeta = true → (Body.noteOff channel note velocity).statusAfter w ≠ w := hfollows
      rw [hafter] at h hne ⊢
      obtain ⟨r₁, he₁, h₁, hstatus₁, hparts⟩ := Ready.readChannel (by simp) hchannel hnote hne hstatus h
      obtain ⟨r₂, he₂, h₂, hstatus₂⟩ := Ready.readByte h₁
      refine ⟨r₂, ?_, h₂, hstatus₂.trans hstatus₁⟩
      rw [MidiReader.readEvent, he₁]
      simp only [bind, Except.bind, hparts, he₂, if_true, if_neg (not_not.mpr hon.2)]
      rfl
    · have hafter : (Body.noteOff channel note velocity).statusAfter w = 0x80 ||| channel := if_neg hon
      have hne : afterMeta = true → (Body.noteOff channel note velocity).statusAfter w ≠ w := hfollows
      rw [hafter] at h hne ⊢
      obtain ⟨r₁, he₁, h₁, hstatus₁, hparts⟩ := Ready.readChannel (by simp) hchannel hnote hne hstatus h
      obtain ⟨r₂, he₂, h₂, hstatus₂⟩ := Ready.readByte h₁
      refine ⟨r₂, ?_, h₂, hstatus₂.trans hstatus₁⟩
      rw [MidiReader.readEvent, he₁]
      simp [bind, Except.bind, hparts, he₂]
      rfl
  | programChange channel program =>
    obtain ⟨hchannel, hprogram⟩ := hbody.resolve_right (by simp)
    rw [Body.bytes, List.append_assoc] at h
    obtain ⟨r₁, he₁, h₁, hstatus₁, hparts⟩ := Ready.readChannel (by simp) hchannel hprogram hfollows hstatus h
    refine ⟨r₁, ?_, h₁, hstatus₁⟩
    rw [MidiReader.readEvent, he₁]
    simp [bind, Except.bind, hparts]
    rfl
  | controlChange channel controller value =>
    obtain ⟨hchannel, hcontroller, -⟩ := hbody.resolve_right (by simp)
    rw [Body.bytes, List.append_assoc] at h
    obtain ⟨r₁, he₁, h₁, hstatus₁, hparts⟩ := Ready.readChannel (by simp) hchannel hcontroller hfollows hstatus h
    obtain ⟨r₂, he₂, h₂, hstatus₂⟩ := Ready.readByte h₁
    refine ⟨r₂, ?_, h₂, hstatus₂.trans hstatus₁⟩
    rw [MidiReader.readEvent, he₁]
    simp [bind, Except.bind, hparts, he₂]
    rfl
  | metaEvent action contents =>
    obtain ⟨-, haction⟩ := hbody.resolve_right (by simp)
    have hlen : contents.length < 2 ^ 32 := Nat.lt_trans hfollows (by decide)
    obtain ⟨r₁, he₁, h₁, hstatus₁⟩ := Ready.readAction h
    have hvar : Ready r₁ (varLen contents.length ++ (contents ++ rest)) := by
      rw [varLen_small hfollows]
      exact h₁
    obtain ⟨r₂, he₂, h₂, hstatus₂⟩ := hvar.readVarLen hlen
    obtain ⟨r₃, he₃, h₃, hstatus₃⟩ := h₂.readBytes
    refine ⟨r₃, ?_, h₃, hstatus₃.trans (hstatus₂.trans hstatus₁)⟩
    rw [MidiReader.readEvent, he₁]
    simp [bind, Except.bind, hstatus₁, haction, he₂, he₃]
    rfl
  | endTrack =>
    obtain ⟨r₁, he₁, h₁, hstatus₁⟩ := Ready.readAction h
    obtain ⟨r₂, he₂, h₂, hstatus₂⟩ := Ready.readByte h₁
    refine ⟨r₂, ?_, h₂, hstatus₂.trans hstatus₁⟩
    rw [MidiReader.readEvent, he₁]
    simp [bind, Except.bind, hstatus₁, he₂]
    rfl

end MidiReader

/-- The bytes of a part of a track. -/
def eventBytes (w : UInt8) (lastTime : UInt32) : List Event → List UInt8
  | [] => []
  | event :: events =>
    varLen (event.time - lastTime).toNat ++
      (event.body.bytes w ++ eventBytes (event.body.statusAfter w) event.time events)

/-- The reader can follow each event. The status is the one of the last channel event;
after a meta event the reader has lost it. -/
def Followed (w : UInt8) (afterMeta : Bool) : List Event → Prop
  | [] => True
  | event :: events =>
    event.body.Follows w afterMeta ∧ Followed (event.body.statusAfter w) event.body.isMeta events

/-- A track in the order of the times, with an end and nothing behind it. -/
structure WellFormed (events : List Event) : Prop where
  sorted : events.Pairwise (fun e e' => e.time ≤ e'.time)
  bodies : ∀ e ∈ events.dropLast, e.body.WellFormed
  ended : ∃ e, events.getLast? = some e ∧ e.body = .endTrack

theorem WellFormed.cons {events : List Event} (h : WellFormed (event :: events)) :
    events = [] ∧ event.body = .endTrack ∨ event.body.WellFormed ∧ WellFormed events := by
  cases events with
  | nil =>
    obtain ⟨e, hlast, hend⟩ := h.ended
    cases hlast
    exact .inl ⟨rfl, hend⟩
  | cons e es =>
    obtain ⟨last, hlast, hend⟩ := h.ended
    rw [List.getLast?_cons_cons] at hlast
    have hbodies := h.bodies
    rw [List.dropLast_cons_of_ne_nil (List.cons_ne_nil e es)] at hbodies
    refine .inr ⟨hbodies event List.mem_cons_self, (List.pairwise_cons.mp h.sorted).2, ?_, last, hlast, hend⟩
    exact fun e' he' => hbodies e' (List.mem_cons_of_mem event he')

theorem Track.writeEvents_spec (out : MidiWriter) (lastTime : UInt32) {afterMeta : Bool} {events : List Event}
    (h : Followed out.status afterMeta events) :
    (writeEvents out lastTime events).written = out.written ++ eventBytes out.status lastTime events := by
  induction events generalizing out lastTime afterMeta with
  | nil => exact (List.append_nil _).symm
  | cons event events ih =>
    obtain ⟨hfollows, h⟩ := h
    have hdelta := status_encodeVarLen (w := out) (event.time - lastTime).toNat
    rw [← hdelta] at hfollows
    obtain ⟨hwritten, hstatus⟩ := Body.writeTo_spec hfollows
    rw [hdelta] at hwritten hstatus
    rw [← hstatus] at h
    rw [writeEvents, ih _ _ h, hwritten, written_encodeVarLen, hstatus, eventBytes]
    simp only [List.append_assoc]

theorem Track.bytes_eq {events : List Event} (hwf : WellFormed events) (h : Followed 0 false events) :
    Track.bytes events = eventBytes 0 0 events := by
  obtain ⟨e, hlast, hend⟩ := hwf.ended
  have hwritten := Track.writeEvents_spec MidiWriter.init 0 h
  have hflush : ∀ w : MidiWriter, w.flush.out = w.written := fun _ => rfl
  have hisEnd : e.isEndTrack = true := decide_eq_true hend
  rw [Track.bytes, Track.writeTo, hlast]
  simp only [hisEnd, if_true, hflush, hwritten]
  rfl

/-- An event that is not before the last one of the track comes behind it. -/
theorem Track.add_last {track : List Event}
    (h : ∀ last, track.getLast? = some last → last.time ≤ event.time ∧ last.body ≠ .endTrack) :
    Track.add track event = .ok (track ++ [event]) := by
  rw [Track.add]
  cases hlast : track.getLast? with
  | none => rfl
  | some last =>
    obtain ⟨hle, hne⟩ := h last hlast
    have hnot : ¬ (last.isEndTrack = true ∧ last.time = event.time) := fun hc => hne (of_decide_eq_true hc.1)
    dsimp only
    rw [if_pos hle, if_neg hnot]

namespace MidiReader

variable {r : MidiReader} {w : UInt8} {afterMeta : Bool} {lastTime : UInt32} {track events : List Event}

theorem varLen_ne_nil (val : Nat) : varLen val ≠ [] := by
  rw [varLen]
  split <;> simp

/-- The loop of `readTrack` reads the rest of a track. -/
theorem Ready.readEvents (n : Nat) (hwf : WellFormed events) (hfollowed : Followed w afterMeta events)
    (hstatus : r.status = readerStatus w afterMeta) (h : Ready r (eventBytes w lastTime events ++ rest))
    (htrack : ∀ last, track.getLast? = some last → last.time = lastTime ∧ last.body ≠ .endTrack)
    (hsorted : ∀ e ∈ events, lastTime ≤ e.time) (hn : events.length ≤ n) :
    ∃ r', readEvents n r track lastTime = .ok (track ++ events, r') ∧ Ready r' rest := by
  induction events generalizing r w afterMeta lastTime track n with
  | nil =>
    obtain ⟨e, hlast, -⟩ := hwf.ended
    cases hlast
  | cons event events ih =>
    obtain ⟨n, rfl⟩ := Nat.exists_eq_succ_of_ne_zero (Nat.ne_zero_of_lt hn)
    obtain ⟨hfollows, hfollowed⟩ := hfollowed
    rw [eventBytes, List.append_assoc, List.append_assoc] at h
    obtain ⟨b, bs, hb⟩ := List.exists_cons_of_ne_nil (varLen_ne_nil (event.time - lastTime).toNat)
    have hmore : ∃ r₁, r.gotMoreData = (r₁, true) ∧ Ready r₁ (varLen (event.time - lastTime).toNat ++
        (event.body.bytes w ++ (eventBytes (event.body.statusAfter w) event.time events ++ rest))) ∧
        r₁.status = r.status := by
      rw [hb] at h ⊢
      obtain ⟨r₁, he₁, h₁, -, hstatus₁⟩ := Ready.gotMoreData h
      exact ⟨r₁, he₁, h₁, hstatus₁⟩
    obtain ⟨r₁, he₁, h₁, hstatus₁⟩ := hmore
    obtain ⟨r₂, he₂, h₂, hstatus₂⟩ := h₁.readVarLen (UInt32.toNat_lt _)
    have hcases := hwf.cons
    have hafter := (List.pairwise_cons.mp hwf.sorted).1
    have hbody : event.body.WellFormed ∨ event.body = .endTrack := hcases.symm.imp And.left And.right
    obtain ⟨r₃, he₃, h₃, hstatus₃⟩ := h₂.readEvent hbody hfollows (hstatus₂.trans (hstatus₁.trans hstatus))
    have htime : lastTime + UInt32.ofNat (event.time - lastTime).toNat = event.time := by
      rw [UInt32.ofNat_toNat, UInt32.add_comm, UInt32.sub_add_cancel]
    have hadd : Track.add track event = .ok (track ++ [event]) := by
      apply Track.add_last
      intro last hlast
      obtain ⟨heq, hne⟩ := htrack last hlast
      exact ⟨heq ▸ hsorted event List.mem_cons_self, hne⟩
    rw [MidiReader.readEvents, he₁]
    simp only [bind, Except.bind, he₂, he₃, htime, hadd]
    rcases hcases with ⟨rfl, hend⟩ | ⟨hwell, hwf⟩
    · rw [if_pos hend]
      exact ⟨r₃, rfl, h₃⟩
    · have hne : event.body ≠ .endTrack := by
        intro hend
        rw [hend] at hwell
        exact hwell
      have htrack' : ∀ last, (track ++ [event]).getLast? = some last → last.time = event.time ∧ last.body ≠ .endTrack := by
        intro last hlast
        rw [List.getLast?_concat] at hlast
        cases hlast
        exact ⟨rfl, hne⟩
      obtain ⟨r', he', h'⟩ := ih n hwf hfollowed hstatus₃ h₃ htrack' hafter (Nat.le_of_succ_le_succ hn)
      rw [if_neg hne, he', List.append_assoc]
      exact ⟨r', rfl, h'⟩

theorem eventBytes_length (w : UInt8) (lastTime : UInt32) (events : List Event) :
    events.length ≤ (eventBytes w lastTime events).length := by
  induction events generalizing w lastTime with
  | nil => exact Nat.le_refl 0
  | cons event events ih =>
    have hpos := List.length_pos_of_ne_nil (varLen_ne_nil (event.time - lastTime).toNat)
    have hrec := ih (event.body.statusAfter w) event.time
    rw [eventBytes, List.length_append, List.length_append, List.length_cons]
    omega

end MidiReader

/-- A track that the reader can follow is read back from its bytes, however they are
split into reads, and what comes behind them is left. -/
theorem track_read_back (events : List Event) (hwf : WellFormed events) (h : Followed 0 false events)
    (splits : Nat → Nat) (rest : List UInt8) :
    ∃ r, (MidiReader.init ⟨Track.bytes events ++ rest, splits⟩).readTrack = .ok (events, r) ∧ r.pending = rest := by
  have hinit : MidiReader.Ready (MidiReader.init ⟨Track.bytes events ++ rest, splits⟩) (eventBytes 0 0 events ++ rest) := by
    rw [Track.bytes_eq hwf h]
    exact ⟨Nat.le_refl 0, rfl⟩
  have hn := hinit.available
  have hlen := MidiReader.eventBytes_length 0 0 events
  rw [List.length_append] at hn
  have hpast : ∀ last, ([] : List Event).getLast? = some last → last.time = 0 ∧ last.body ≠ .endTrack := by simp
  obtain ⟨r, he, hr⟩ := hinit.readEvents ((MidiReader.init ⟨Track.bytes events ++ rest, splits⟩).available + 1) hwf h rfl
    hpast (fun e _ => UInt32.zero_le) (by omega)
  exact ⟨r, he, hr.unread⟩

theorem few_events_read_back :
    ∃ r, (MidiReader.init ⟨Track.bytes [⟨0, .noteOn 15 5 10⟩, ⟨1, .noteOff 15 5 0⟩, ⟨200, .metaEvent 1 [65]⟩,
          ⟨300, .noteOn 10 7 0x7f⟩, ⟨300, .endTrack⟩] ++ [1, 2], fun _ => 0⟩).readTrack =
        .ok ([⟨0, .noteOn 15 5 10⟩, ⟨1, .noteOff 15 5 0⟩, ⟨200, .metaEvent 1 [65]⟩, ⟨300, .noteOn 10 7 0x7f⟩,
          ⟨300, .endTrack⟩], r) ∧ r.pending = [1, 2] := by
  have hwf : WellFormed [⟨0, .noteOn 15 5 10⟩, ⟨1, .noteOff 15 5 0⟩, ⟨200, .metaEvent 1 [65]⟩,
      ⟨300, .noteOn 10 7 0x7f⟩, ⟨300, .endTrack⟩] :=
    ⟨by decide, by simp [Body.WellFormed], by simp⟩
  have hfollowed : Followed 0 false [⟨0, .noteOn 15 5 10⟩, ⟨1, .noteOff 15 5 0⟩, ⟨200, .metaEvent 1 [65]⟩,
      ⟨300, .noteOn 10 7 0x7f⟩, ⟨300, .endTrack⟩] := by
    refine ⟨(nomatch ·), (nomatch ·), ?_, fun _ => ?_, trivial, trivial⟩
    · change [(65 : UInt8)].length < 128
      decide
    · change (0x90 ||| 10 : UInt8) ≠
        if (0x90 ||| 15 : UInt8) = 0x90 ||| 15 ∧ (0 : UInt8) = 0 then 0x90 ||| 15 else 0x80 ||| 15
      decide
  exact track_read_back _ hwf hfollowed (fun _ => 0) [1, 2]

/-- The bytes of a track, read in one piece. -/
def readBack (events : List Event) : Except Stop (List Event) :=
  (MidiReader.init ⟨Track.bytes events, fun _ => 1023⟩).readTrack.map Prod.fst

/-- A pitch wheel, a system exclusive event, a meta event with 128 bytes, and a running
status after a meta event. -/
theorem lost_events :
    readBack [⟨0, .pitchWheel 0 0x2000⟩, ⟨0, .endTrack⟩] ≠ .ok [⟨0, .pitchWheel 0 0x2000⟩, ⟨0, .endTrack⟩] ∧
    readBack [⟨0, .sysEx [1, 2]⟩, ⟨0, .endTrack⟩] ≠ .ok [⟨0, .sysEx [1, 2]⟩, ⟨0, .endTrack⟩] ∧
    readBack [⟨0, .metaEvent 1 (List.replicate 128 65)⟩, ⟨0, .endTrack⟩] ≠
      .ok [⟨0, .metaEvent 1 (List.replicate 128 65)⟩, ⟨0, .endTrack⟩] ∧
    readBack [⟨0, .noteOn 0 60 1⟩, ⟨0, .metaEvent 1 []⟩, ⟨0, .noteOn 0 61 1⟩, ⟨0, .endTrack⟩] ≠
      .ok [⟨0, .noteOn 0 60 1⟩, ⟨0, .metaEvent 1 []⟩, ⟨0, .noteOn 0 61 1⟩, ⟨0, .endTrack⟩] := by
  decide +kernel

/-- A number is read back from its bytes by a reader that comes to them, whatever is behind them, and their first group
is not an empty one. -/
theorem var_len_read_back (val : UInt32) (w : MidiWriter) :
    ∃ bytes, (w.encodeVarLen val.toNat).flush.out = w.flush.out ++ bytes ∧ bytes.head? ≠ some 0x80 ∧
      ∀ (r : MidiReader) (rest : List UInt8), r.Ready (bytes ++ rest) →
        ∃ r', r.readVarLen = .ok (val.toNat, r') ∧ r'.Ready rest := by
  refine ⟨varLen val.toNat, written_encodeVarLen val.toNat, MidiReader.head_varLen val.toNat_lt, ?_⟩
  intro r rest h
  obtain ⟨r', hread, h', -⟩ := h.readVarLen val.toNat_lt
  exact ⟨r', hread, h'⟩

end Midi

end Crack
