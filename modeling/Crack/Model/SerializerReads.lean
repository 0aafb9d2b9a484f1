import Mathlib.Tactic.Ring
import Crack.Model.Serializer

/-!
# Reading what was written

Each kind of write appends bytes from which the matching read returns the value,
with the same bytes added to the hasher. Cut short, the bytes are an error.
-/
namespace Crack

open Decoding DeserializationError

/-- An `unsigned int` in groups of seven bits, lowest first. -/
def uintBytes (val : Nat) : List UInt8 :=
  if val < 0x80 then [UInt8.ofNat val] else UInt8.ofNat (val % 0x80 + 0x80) :: uintBytes (val / 0x80)
termination_by val

/-- A deserializer in front of some bytes. -/
def Deserializer.feed (d : Deserializer) (bytes : List UInt8) : Deserializer := { d with src := { data := bytes } }

/-- The deserializer after it read some bytes, up to its stream. -/
abbrev Reads {α : Type} (r : Reader α) (d : Deserializer) (used : List UInt8) (a : α) (d' : Deserializer) : Prop :=
  Decodes Deserializer.feed eof r d used a d'

section Writes

variable (s : Serializer) (a b : List UInt8)

@[simp] theorem emit_nil : s.emit [] = s := by
  cases s
  simp [Serializer.emit]

@[simp] theorem emit_emit : (s.emit a).emit b = s.emit (a ++ b) := by
  simp only [Serializer.emit, List.append_assoc]
  split <;> simp

theorem writeLoop_eq {val : Nat} (h : val ≠ 0) : s.writeLoop val = s.emit (uintBytes val) := by
  induction val using Nat.strongRecOn generalizing s with
  | ind val ih =>
    rw [Serializer.writeLoop, dif_neg h, uintBytes]
    by_cases hlt : val < 0x80
    · have hz : val / 0x80 = 0 := by omega
      have hm : val % 0x80 = val := by omega
      rw [if_pos hlt, hz, hm, Serializer.writeLoop, dif_pos rfl]
      rfl
    · have hz : val / 0x80 ≠ 0 := by omega
      rw [if_neg hlt]
      simp only [hz, ne_eq, not_false_eq_true, if_true]
      rw [ih (val / 0x80) (by omega) _ hz, emit_emit]
      rfl

theorem writeUInt_eq (val : Nat) : s.writeUInt val = s.emit (uintBytes val) := by
  rw [Serializer.writeUInt]
  split
  · next h =>
    subst h
    rw [uintBytes]
    rfl
  · next h => exact writeLoop_eq s h

theorem writeBlob_eq (data : List UInt8) :
    s.writeBlob data = s.emit (uintBytes (data.length % uintSize) ++ data) := by
  rw [Serializer.writeBlob, writeUInt_eq, emit_emit]

end Writes

namespace Deserializer

variable (d : Deserializer) (a b : List UInt8)

@[simp] theorem add_add : (d.add a).add b = d.add (a ++ b) := by
  simp only [add]
  split <;> simp

/-- The end of the stream is no value. -/
theorem readLoop_end (val offset : Nat) : ((d.feed []).readLoop val offset).1 = none := by
  rw [readLoop, dif_neg (by simp [feed])]
  have hb : ¬ (IStream.get (d.feed []).src).1.toNat < 0x80 := by simp [feed, IStream.get]
  simp only [hb, if_false]
  rw [readLoop, dif_pos (by rfl)]

theorem readLoop_cons (byte : UInt8) (rest : List UInt8) (val offset : Nat) :
    (d.feed (byte :: rest)).readLoop val offset =
      if byte.toNat < 0x80 then
        (some ((val ||| (byte.toNat % 0x80) <<< offset) % uintSize), (d.add [byte]).feed rest)
      else ((d.add [byte]).feed rest).readLoop ((val ||| (byte.toNat % 0x80) <<< offset) % uintSize) (offset + 7) := by
  rw [readLoop, dif_neg (by simp [feed])]
  rfl

/-- A group of bits is added above those that were read. -/
theorem or_shift_eq {val bits offset : Nat} (hv : val < 2 ^ offset) :
    val ||| bits <<< offset = val + bits * 2 ^ offset := by
  rw [Nat.or_comm, ← Nat.shiftLeft_add_eq_or_of_lt hv, Nat.shiftLeft_eq, Nat.add_comm]

theorem group_toNat {n : Nat} (h : n < 0x100) : (UInt8.ofNat n).toNat = n := by
  simp [Nat.mod_eq_of_lt h]

theorem readLoop_uintBytes (v val offset : Nat) (rest : List UInt8) (hval : val < 2 ^ offset)
    (hv : val + v * 2 ^ offset < uintSize) :
    (d.feed (uintBytes v ++ rest)).readLoop val offset =
      (some (val + v * 2 ^ offset), (d.add (uintBytes v)).feed rest) := by
  induction v using Nat.strongRecOn generalizing d val offset with
  | ind v ih =>
    rw [uintBytes]
    by_cases hlt : v < 0x80
    · have hb := group_toNat (show v < 0x100 by omega)
      have hm : v % 0x80 = v := Nat.mod_eq_of_lt hlt
      rw [if_pos hlt, List.cons_append, readLoop_cons, hb, if_pos hlt, hm, or_shift_eq hval, Nat.mod_eq_of_lt hv]
      rfl
    · have hb := group_toNat (show v % 0x80 + 0x80 < 0x100 by omega)
      have hge : ¬ v % 0x80 + 0x80 < 0x80 := by omega
      have hm : (v % 0x80 + 0x80) % 0x80 = v % 0x80 := by omega
      have hpow : 2 ^ (offset + 7) = 0x80 * 2 ^ offset := by rw [Nat.pow_add]; omega
      have hsum : val + v % 0x80 * 2 ^ offset + v / 0x80 * 2 ^ (offset + 7) = val + v * 2 ^ offset := by
        conv => rhs; rw [← Nat.mod_add_div v 0x80]
        rw [hpow]
        ring
      have hnext : val + v % 0x80 * 2 ^ offset < 2 ^ (offset + 7) := by
        have hle : v % 0x80 * 2 ^ offset ≤ 0x7f * 2 ^ offset := Nat.mul_le_mul_right _ (by omega)
        omega
      have hsize : val + v % 0x80 * 2 ^ offset < uintSize := by omega
      rw [if_neg hlt, List.cons_append, readLoop_cons, hb, if_neg hge, hm, or_shift_eq hval, Nat.mod_eq_of_lt hsize,
        ih (v / 0x80) (by omega) _ _ _ hnext (by rw [hsum]; exact hv), hsum, add_add]
      rfl

/-- A part of an integer has no last byte. -/
theorem readLoop_part (v val offset : Nat) (part : List UInt8) (hp : part <+: uintBytes v) (hne : part ≠ uintBytes v) :
    ((d.feed part).readLoop val offset).1 = none := by
  induction v using Nat.strongRecOn generalizing d val offset part with
  | ind v ih =>
    rw [uintBytes] at hp hne
    by_cases hlt : v < 0x80
    · rw [if_pos hlt] at hp hne
      obtain rfl | ⟨part', rfl, hp'⟩ := List.prefix_cons_iff.mp hp
      · exact readLoop_end d val offset
      · exact absurd (congrArg (List.cons (UInt8.ofNat v)) (List.prefix_nil.mp hp')) hne
    · rw [if_neg hlt] at hp hne
      obtain rfl | ⟨part', rfl, hp'⟩ := List.prefix_cons_iff.mp hp
      · exact readLoop_end d val offset
      · have hb := group_toNat (show v % 0x80 + 0x80 < 0x100 by omega)
        have hge : ¬ v % 0x80 + 0x80 < 0x80 := by omega
        rw [readLoop_cons, hb, if_neg hge]
        refine ih (v / 0x80) (by omega) _ _ _ _ hp' ?_
        rintro rfl
        exact hne rfl

end Deserializer

section Reads

variable (d : Deserializer)

theorem reads_uint {v : Nat} (h : v < uintSize) : Reads readUInt d (uintBytes v) v (d.add (uintBytes v)) where
  whole rest := by
    have hloop := Deserializer.readLoop_uintBytes d v 0 0 rest (by decide) (by omega)
    rw [readUInt, hloop]
    simp
  cut part hp hne := by
    have hloop := Deserializer.readLoop_part d v 0 0 part hp hne
    rw [readUInt]
    split
    · next h => rw [h] at hloop; cases hloop
    · rfl

theorem reads_bytes (bytes : List UInt8) {n : Nat} (hn : bytes.length = n) :
    Reads (readBytes n) d bytes bytes (d.add bytes) where
  whole rest := by
    have hread : IStream.read { data := bytes ++ rest } n = (some bytes, { data := rest }) := by
      subst hn
      simp [IStream.read]
    rw [readBytes, Deserializer.feed, hread]
    rfl
  cut part hp hne := by
    have hlt : part.length < n := by
      subst hn
      exact Nat.lt_of_le_of_ne hp.length_le (fun he => hne (hp.eq_of_length he))
    simp [readBytes, IStream.read, Deserializer.feed, hlt]

theorem reads_string (data : List UInt8) (h : data.length < uintSize) :
    Reads readString d (uintBytes data.length ++ data) data (d.add (uintBytes data.length ++ data)) := by
  have hb := (reads_uint d h).bind (reads_bytes (d.add (uintBytes data.length)) data rfl)
  rwa [Deserializer.add_add] at hb

theorem reads_double (val : Double) : Reads readDouble d val.1 val (d.add val.1) := by
  obtain ⟨bytes, hlen⟩ := val
  have hpure : Reads (ofBytes bytes) (d.add bytes) [] (⟨bytes, hlen⟩ : Double) (d.add bytes) := by
    rw [ofBytes, dif_pos hlen]
    exact Decodes.pure _
  have hb := (reads_bytes d bytes hlen).bind hpure
  rwa [List.append_nil] at hb

end Reads

section Objects

/-- The key under which the reader keeps the object with this id. -/
def idKey (id : Nat) : Int := toInt (2 * id % uintSize) / 2

variable {id id' : Nat}

theorem toInt_cases (v : Nat) :
    v ≤ 0x7fffffff ∧ toInt v = v ∨ 0x7fffffff < v ∧ toInt v = v - 0x100000000 := by
  by_cases h : v ≤ intMax
  · exact .inl ⟨h, if_pos h⟩
  · exact .inr ⟨Nat.lt_of_not_le h, if_neg h⟩

theorem lt_of_le_intMax (h : id ≤ intMax) : id < 0x80000000 := Nat.lt_succ_of_le h

theorem idKey_inj (h : id ≤ intMax) (h' : id' ≤ intMax) (he : idKey id = idKey id') : id = id' := by
  have hlt := lt_of_le_intMax h
  have hlt' := lt_of_le_intMax h'
  have hm : 2 * id % uintSize = 2 * id := Nat.mod_eq_of_lt (by rw [uintSize]; omega)
  have hm' : 2 * id' % uintSize = 2 * id' := Nat.mod_eq_of_lt (by rw [uintSize]; omega)
  rw [idKey, idKey, hm, hm'] at he
  have hc := toInt_cases (2 * id)
  have hc' := toInt_cases (2 * id')
  omega

theorem toInt_new (h : id ≤ intMax) :
    toInt ((2 * id + 1) % uintSize) % 2 ≠ 0 ∧ toInt ((2 * id + 1) % uintSize) / 2 = idKey id := by
  have hlt := lt_of_le_intMax h
  have hm : 2 * id % uintSize = 2 * id := Nat.mod_eq_of_lt (by rw [uintSize]; omega)
  have hm' : (2 * id + 1) % uintSize = 2 * id + 1 := Nat.mod_eq_of_lt (by rw [uintSize]; omega)
  rw [idKey, hm, hm']
  have hc := toInt_cases (2 * id)
  have hc' := toInt_cases (2 * id + 1)
  omega

theorem toInt_known (h : id ≤ intMax) : ¬ toInt (2 * id % uintSize) % 2 ≠ 0 := by
  have hlt := lt_of_le_intMax h
  have hm : 2 * id % uintSize = 2 * id := Nat.mod_eq_of_lt (by rw [uintSize]; omega)
  rw [hm]
  have hc := toInt_cases (2 * id)
  omega

variable {d d' : Deserializer} {reader : Reader Nat} {obj : Nat} {used : List UInt8}

theorem reads_known (h : id ≤ intMax) (hobj : d.objMap.lookup (idKey id) = some obj) :
    Reads (readObject reader) d (uintBytes (2 * id % uintSize)) (obj, false)
      (d.add (uintBytes (2 * id % uintSize))) := by
  have hid := reads_uint d (v := 2 * id % uintSize) (Nat.mod_lt _ (by decide))
  have hfind : Reads (resolve reader (toInt (2 * id % uintSize))) (d.add (uintBytes (2 * id % uintSize))) []
      (obj, false) (d.add (uintBytes (2 * id % uintSize))) := by
    refine .silent fun rest => ?_
    rw [resolve, if_neg (toInt_known h)]
    have hfound : find (idKey id) ((d.add (uintBytes (2 * id % uintSize))).feed rest) =
        .ok (some obj, (d.add (uintBytes (2 * id % uintSize))).feed rest) := by
      rw [← hobj]
      rfl
    change (find (idKey id) >>= _ : Reader (Nat × Bool)) _ = _
    simp only [bind, StateT.bind, hfound, Except.bind]
    rfl
  have hall := hid.bind (f := fun v => resolve reader (toInt v)) hfind
  rwa [List.append_nil] at hall

theorem reads_new (h : id ≤ intMax)
    (hr : Reads reader (d.add (uintBytes ((2 * id + 1) % uintSize))) used obj d') :
    Reads (readObject reader) d (uintBytes ((2 * id + 1) % uintSize) ++ used) (obj, true)
      { d' with objMap := (idKey id, obj) :: d'.objMap } := by
  have hid := reads_uint d (v := (2 * id + 1) % uintSize) (Nat.mod_lt _ (by decide))
  obtain ⟨hodd, hkey⟩ := toInt_new h
  have henter : Reads (enter (idKey id) obj) d' [] () { d' with objMap := (idKey id, obj) :: d'.objMap } :=
    .silent fun _ => rfl
  have hobj : Reads (resolve reader (toInt ((2 * id + 1) % uintSize)))
      (d.add (uintBytes ((2 * id + 1) % uintSize))) used (obj, true)
      { d' with objMap := (idKey id, obj) :: d'.objMap } := by
    rw [resolve, if_pos hodd, hkey]
    have hboth := hr.bind (f := fun obj => do
      enter (idKey id) obj
      pure (obj, true)) (henter.bind_pure fun _ => (obj, true))
    rwa [List.append_nil] at hboth
  exact hid.bind (f := fun v => resolve reader (toInt v)) hobj

theorem reads_create (d : Deserializer) (contents : List Val) :
    Reads (create contents) d [] d.objects.length { d with objects := d.objects ++ [contents] } :=
  .silent fun _ => rfl

end Objects

end Crack
