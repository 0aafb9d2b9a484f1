import Crack.Serial.ShortReads

/-!
# Protocol buffers

Fields of the two types that are supported, an unsigned integer and a string, each behind
a header with its id and its type.
-/
namespace Crack

namespace Serial

/-- A field; the value of the other type is 0 or null. -/
structure Field where
  id : Nat
  type : Nat
  intData : Nat := 0
  strData : Option (List UInt8) := none
  deriving DecidableEq, Repr

namespace Field

def header (f : Field) : Nat := uint (f.id <<< 3) ||| f.type

/-- A write of null is a wild access, which is left out. -/
def write (f : Field) : List UInt8 :=
  writeUInt f.header ++
    if f.type = 0 then writeUInt f.intData else if f.type = 2 then writeString (f.strData.getD []) else []

def writeAll (fields : List Field) : List UInt8 := fields.flatMap write

/-- The null at the end of the data is `none`. -/
def readFrom (src : SerialReader) : Except Stop (Option Field × SerialReader) := do
  let (header, src) ← src.readUInt false
  if header = endMark then return (none, src)
  else
    let type := header &&& 0x7
    let id := header >>> 3
    if type = 0 then do
      let (val, src) ← src.readUInt true
      return (some { id, type, intData := val }, src)
    else if type = 2 then do
      let (val, src) ← src.readString true
      return (some { id, type, strData := val }, src)
    else .error (.thrown "")

/-- The loop of `_deserialize`. -/
def readLoop : Nat → SerialReader → Except Stop (List Field)
  | 0, _ => .error .forever
  | n + 1, src => do
    match ← readFrom src with
    | (none, _) => return []
    | (some field, src) =>
      let fields ← readLoop n src
      return field :: fields

/-- Each field takes a byte at least. -/
def readFields (src : SerialReader) : Except Stop (List Field) := readLoop (src.pending.length + 1) src

/-- The fields of the two types. -/
def ofUInt (id : Nat) (val : UInt32) : Field := { id, type := 0, intData := val.toNat }
def ofString (id : Nat) (val : List UInt8) : Field := { id, type := 2, strData := some val }

/-- A field of one of the two types with an id that fits into a header. -/
def Supported (f : Field) : Prop := ∃ id < 2 ^ 29, (∃ val, f = ofUInt id val) ∨ ∃ val, f = ofString id val

/-- By how much a field may make the window of a reader grow. -/
def growth (f : Field) : Nat := match f.strData with
  | none => 0
  | some val => val.length + 1

variable {f : Field} {r : SerialReader} {rest part : List UInt8} {K : Nat} {n : Nat}

theorem header_eq (hid : f.id < 2 ^ 29) (htype : f.type < 2 ^ 3) : f.header = 8 * f.id + f.type := by
  have hshift : uint (f.id <<< 3) = 2 ^ 3 * f.id := by
    rw [Nat.shiftLeft_eq, Nat.mul_comm]
    exact Nat.mod_eq_of_lt (by omega)
  rw [header, hshift, ← Nat.two_pow_add_eq_or_of_lt htype]

theorem header_type (hid : f.id < 2 ^ 29) (htype : f.type < 2 ^ 3) : f.header &&& 0x7 = f.type := by
  rw [header_eq hid htype]
  have hand : (8 * f.id + f.type) &&& 0x7 = (8 * f.id + f.type) % 2 ^ 3 := Nat.and_two_pow_sub_one_eq_mod _ 3
  omega

theorem header_id (hid : f.id < 2 ^ 29) (htype : f.type < 2 ^ 3) : f.header >>> 3 = f.id := by
  rw [header_eq hid htype, Nat.shiftRight_eq_div_pow]
  omega

theorem Supported.header_lt (h : f.Supported) : f.header < endMark ∧ f.header = 8 * f.id + f.type ∧ f.type ≤ 2 := by
  rcases h with ⟨id, hid, ⟨val, rfl⟩ | ⟨val, rfl⟩⟩
  · have heq := header_eq (f := ofUInt id val) hid (show 0 < 2 ^ 3 by decide)
    refine ⟨?_, heq, Nat.zero_le 2⟩
    rw [heq, endMark]
    change 8 * id + 0 < _
    omega
  · have heq := header_eq (f := ofString id val) hid (show 2 < 2 ^ 3 by decide)
    refine ⟨?_, heq, Nat.le_refl 2⟩
    rw [heq, endMark]
    change 8 * id + 2 < _
    omega

theorem write_ofUInt (id : Nat) (val : UInt32) :
    (ofUInt id val).write = writeUInt (ofUInt id val).header ++ writeUInt val.toNat := rfl

theorem write_ofString (id : Nat) (val : List UInt8) :
    (ofString id val).write = writeUInt (ofString id val).header ++ writeString val := rfl

open SerialReader (Ready)

/-- A field that is all there. -/
theorem readFrom_write (h : Ready r (f.write ++ rest) K) (hf : f.Supported) (hK : K + f.growth ≤ 2 ^ 31) :
    ∃ r', readFrom r = .ok (some f, r') ∧ Ready r' rest (K + f.growth) := by
  rcases hf with ⟨id, hid, ⟨val, rfl⟩ | ⟨val, rfl⟩⟩
  · have htype := header_type (f := ofUInt id val) hid (show 0 < 2 ^ 3 by decide)
    have hid' := header_id (f := ofUInt id val) hid (show 0 < 2 ^ 3 by decide)
    have hlt : (ofUInt id val).header < endMark := (Supported.header_lt ⟨id, hid, .inl ⟨val, rfl⟩⟩).1
    have hne := Nat.ne_of_lt hlt
    rw [write_ofUInt, List.append_assoc] at h
    obtain ⟨r₁, he₁, h₁⟩ := h.readUInt (u := false) (Nat.lt_trans hlt (by decide))
    obtain ⟨r₂, he₂, h₂⟩ := h₁.readUInt (u := true) val.toNat_lt
    refine ⟨r₂, ?_, h₂⟩
    change r₁.readUInt true = .ok (val.toNat, r₂) at he₂
    rw [readFrom, he₁]
    simp only [bind, Except.bind, if_neg hne, htype, hid', he₂]
    rfl
  · have htype := header_type (f := ofString id val) hid (show 2 < 2 ^ 3 by decide)
    have hid' := header_id (f := ofString id val) hid (show 2 < 2 ^ 3 by decide)
    have hlt : (ofString id val).header < endMark := (Supported.header_lt ⟨id, hid, .inr ⟨val, rfl⟩⟩).1
    have hne := Nat.ne_of_lt hlt
    rw [write_ofString, List.append_assoc] at h
    obtain ⟨r₁, he₁, h₁⟩ := h.readUInt (u := false) (Nat.lt_trans hlt (by decide))
    obtain ⟨r₂, he₂, h₂⟩ := h₁.readString (u := true) hK
    refine ⟨r₂, ?_, h₂⟩
    change r₁.readString true = .ok (some val, r₂) at he₂
    rw [readFrom, he₁]
    simp only [bind, Except.bind, if_neg hne, htype, hid', he₂]
    rfl

/-- A header that is cut off looks like the end. -/
theorem readFrom_header {v : Nat} (h : Ready r part K) (hv : v < 2 ^ 32) (hpart : part <+: writeUInt v)
    (hne : part ≠ writeUInt v) : ∃ r', readFrom r = .ok (none, r') := by
  obtain ⟨r', he⟩ := h.readUInt_short false hv hpart hne
  refine ⟨r', ?_⟩
  rw [readFrom, he]
  rfl

theorem readFrom_end (h : Ready r [] K) : ∃ r', readFrom r = .ok (none, r') :=
  readFrom_header (v := 0) h (by decide) List.nil_prefix (by decide)

/-- An id below 16 takes a byte. -/
theorem writeUInt_short (h : n < 128) : ∃ b, writeUInt n = [b] := by
  have hne := writeUInt_ne_nil n
  have hlen : (writeUInt n).length ≤ 1 := by
    rw [writeUInt]
    split
    · exact Nat.le_refl 1
    · exact length_writeGroups (by omega)
  exact List.length_eq_one_iff.mp (Nat.le_antisymm hlen (List.length_pos_of_ne_nil hne))

/-- A field that is cut off behind its header. -/
theorem readFrom_cut (h : Ready r part K) (hf : f.Supported) (hid : f.id < 16) (hK : K + f.growth ≤ 2 ^ 31)
    (hpart : part <+: f.write) (hne : part ≠ f.write) (hsome : part ≠ []) :
    readFrom r = .error (.thrown "Ran out of data.") := by
  obtain ⟨hlt, heq, htype⟩ := hf.header_lt
  obtain ⟨b, hb⟩ := writeUInt_short (show f.header < 128 by omega)
  obtain ⟨c, part, rfl⟩ := List.exists_cons_of_ne_nil hsome
  have hheader := Nat.ne_of_lt hlt
  have hstart : f.write = writeUInt f.header ++ (f.write.drop 1) := by
    rw [write, hb]
    rfl
  rw [hstart, hb] at hpart hne
  obtain ⟨rfl, hcut⟩ := List.cons_prefix_cons.mp hpart
  have hne' : part ≠ f.write.drop 1 := fun heq => hne (by rw [heq]; rfl)
  rw [show c :: part = writeUInt f.header ++ part by rw [hb]; rfl] at h
  obtain ⟨r₁, he₁, h₁⟩ := h.readUInt (u := false) (Nat.lt_trans hlt (by decide))
  rcases hf with ⟨id, hid', ⟨val, rfl⟩ | ⟨val, rfl⟩⟩
  · have hvalue : (ofUInt id val).write.drop 1 = writeUInt val.toNat := by
      rw [write_ofUInt, hb]
      rfl
    have htype := header_type (f := ofUInt id val) hid' (show 0 < 2 ^ 3 by decide)
    rw [hvalue] at hcut hne'
    obtain ⟨r₂, he₂⟩ := h₁.readUInt_short true val.toNat_lt hcut hne'
    rw [readFrom, he₁]
    simp only [bind, Except.bind, if_neg hheader, htype, he₂]
    rfl
  · have hvalue : (ofString id val).write.drop 1 = writeString val := by
      rw [write_ofString, hb]
      rfl
    have htype := header_type (f := ofString id val) hid' (show 2 < 2 ^ 3 by decide)
    rw [hvalue] at hcut hne'
    have he₂ := h₁.readString_short hK hcut hne'
    rw [readFrom, he₁]
    simp only [bind, Except.bind, if_neg hheader, htype, he₂]
    rfl

variable {fields : List Field}

/-- The fields before a place are read, whatever comes behind it. -/
theorem readLoop_fields (hf : ∀ f ∈ fields, f.Supported) (h : Ready r (writeAll fields ++ rest) K)
    (hK : K + (fields.map growth).sum ≤ 2 ^ 31) :
    ∃ r', Ready r' rest (K + (fields.map growth).sum) ∧
      ∀ n, readLoop (fields.length + n) r = (readLoop n r').map (fields ++ ·) := by
  induction fields generalizing r K with
  | nil =>
    refine ⟨r, h, fun n => ?_⟩
    rw [List.length_nil, Nat.zero_add]
    cases readLoop n r <;> rfl
  | cons f fields ih =>
    rw [List.map_cons, List.sum_cons, ← Nat.add_assoc] at hK ⊢
    rw [writeAll, List.flatMap_cons, List.append_assoc] at h
    obtain ⟨r₁, he₁, h₁⟩ := readFrom_write h (hf f List.mem_cons_self) (by omega)
    obtain ⟨r₂, h₂, hloop⟩ := ih (fun g hg => hf g (List.mem_cons_of_mem _ hg)) h₁ hK
    refine ⟨r₂, h₂, fun n => ?_⟩
    rw [List.length_cons, Nat.succ_add, readLoop, he₁]
    simp only [bind, Except.bind, hloop]
    cases readLoop n r₂ <;> rfl

/-- Where a part ends that does not end between two fields. -/
theorem cut_place (hpart : part <+: writeAll fields) (hcut : ∀ k, part ≠ writeAll (fields.take k)) :
    ∃ before f after cut, fields = before ++ f :: after ∧ part = writeAll before ++ cut ∧ cut <+: f.write ∧
      cut ≠ f.write ∧ cut ≠ [] := by
  induction fields generalizing part with
  | nil => exact absurd (List.prefix_nil.mp hpart) (hcut 0)
  | cons f fields ih =>
    rw [writeAll, List.flatMap_cons] at hpart
    rcases Nat.lt_or_ge part.length f.write.length with hlt | hge
    · refine ⟨[], f, fields, part, rfl, rfl, ?_, ?_, hcut 0⟩
      · exact List.prefix_of_prefix_length_le hpart (List.prefix_append _ _) (Nat.le_of_lt hlt)
      · rintro rfl
        exact Nat.lt_irrefl _ hlt
    · obtain ⟨part, rfl⟩ := List.prefix_of_prefix_length_le (List.prefix_append f.write _) hpart hge
      obtain ⟨before, g, after, cut, rfl, rfl, hplace⟩ := ih ((List.prefix_append_right_inj _).mp hpart) fun k heq =>
        hcut (k + 1) (by rw [heq]; rfl)
      refine ⟨f :: before, g, after, cut, rfl, ?_, hplace⟩
      change _ = (f.write ++ writeAll before) ++ cut
      rw [List.append_assoc]

theorem length_writeAll (fields : List Field) : fields.length ≤ (writeAll fields).length := by
  induction fields with
  | nil => exact Nat.le_refl 0
  | cons f fields ih =>
    have hpos := List.length_pos_of_ne_nil (writeUInt_ne_nil f.header)
    rw [writeAll, List.flatMap_cons, List.length_append, List.length_cons, write, List.length_append]
    change fields.length + 1 ≤ _ + (writeAll fields).length
    omega

/-- The fields up to a place, and what is said there. -/
theorem readFields_append (hf : ∀ f ∈ fields, f.Supported) (hsize : bufSize + (fields.map growth).sum ≤ 2 ^ 31)
    (rest : List UInt8) (splits : Nat → Nat) :
    ∃ r', Ready r' rest (bufSize + (fields.map growth).sum) ∧
      ∃ n, readFields (SerialReader.init ⟨writeAll fields ++ rest, splits⟩) = (readLoop (n + 1) r').map (fields ++ ·) := by
  have hinit := SerialReader.init_ready ⟨writeAll fields ++ rest, splits⟩
  obtain ⟨r', h', hloop⟩ := readLoop_fields hf hinit hsize
  refine ⟨r', h', (writeAll fields ++ rest).length - fields.length, ?_⟩
  have hlen : fields.length ≤ (writeAll fields ++ rest).length := by
    rw [List.length_append]
    exact Nat.le_add_right_of_le (length_writeAll fields)
  have hfuel : (writeAll fields ++ rest).length + 1 =
      fields.length + ((writeAll fields ++ rest).length - fields.length + 1) := by omega
  rw [readFields, hinit.unread]
  rw [hfuel]
  exact hloop _

/-- What was written is read back, and where the data ends elsewhere than between two fields
there is an exception. -/
structure ReadsBack (fields : List Field) : Prop where
  whole : ∀ splits, readFields (SerialReader.init ⟨writeAll fields, splits⟩) = .ok fields
  cut : ∀ part splits, part <+: writeAll fields → (∀ k, part ≠ writeAll (fields.take k)) →
    ∃ text, readFields (SerialReader.init ⟨part, splits⟩) = .error (.thrown text)

theorem reads_whole (hf : ∀ f ∈ fields, f.Supported) (hsize : bufSize + (fields.map growth).sum ≤ 2 ^ 31)
    (splits : Nat → Nat) : readFields (SerialReader.init ⟨writeAll fields, splits⟩) = .ok fields := by
  obtain ⟨r', h', n, he⟩ := readFields_append hf hsize [] splits
  obtain ⟨r₂, hend⟩ := readFrom_end h'
  rw [List.append_nil] at he
  rw [he, readLoop, hend]
  exact congrArg Except.ok (List.append_nil fields)

theorem reads_cut (hf : ∀ f ∈ fields, f.Supported) (hid : ∀ f ∈ fields, f.id < 16)
    (hsize : bufSize + (fields.map growth).sum ≤ 2 ^ 31) {part : List UInt8} (splits : Nat → Nat)
    (hpart : part <+: writeAll fields) (hcut : ∀ k, part ≠ writeAll (fields.take k)) :
    readFields (SerialReader.init ⟨part, splits⟩) = .error (.thrown "Ran out of data.") := by
  obtain ⟨before, f, after, cut, rfl, rfl, hprefix, hne, hsome⟩ := cut_place hpart hcut
  rw [List.map_append, List.sum_append, List.map_cons, List.sum_cons] at hsize
  obtain ⟨r', h', n, he⟩ := readFields_append (fun g hg => hf g (List.mem_append_left _ hg)) (by omega) cut splits
  have hmem : f ∈ before ++ f :: after := List.mem_append_right _ List.mem_cons_self
  have hlast := readFrom_cut h' (hf f hmem) (hid f hmem) (by omega) hprefix hne hsome
  rw [he, readLoop, hlast]
  rfl

theorem writeUInt_long (h : 128 ≤ n) : ∃ b c bs, writeUInt n = b :: c :: bs := by
  have h0 : n ≠ 0 := by omega
  obtain ⟨b, hb, -⟩ := writeGroups_eq h0
  obtain ⟨c, hc, -⟩ := writeGroups_eq (n := n / 128) (by omega)
  exact ⟨b, c, _, by rw [writeUInt, if_neg h0, hb, hc]⟩

theorem writeAll_isPrefix_of {fields' : List Field} (h : fields' <+: fields) : writeAll fields' <+: writeAll fields := by
  obtain ⟨rest, rfl⟩ := h
  rw [writeAll, writeAll, List.flatMap_append]
  exact List.prefix_append _ _

/-- In a header of two bytes the end is taken for the end of the fields. -/
theorem reads_cut_header {before after : List Field} {f : Field} (hf : ∀ g ∈ before ++ f :: after, g.Supported)
    (hid : 16 ≤ f.id) (hsize : bufSize + ((before ++ f :: after).map growth).sum ≤ 2 ^ 31) (splits : Nat → Nat) :
    ∃ part, part <+: writeAll (before ++ f :: after) ∧ (∀ k, part ≠ writeAll ((before ++ f :: after).take k)) ∧
      readFields (SerialReader.init ⟨part, splits⟩) = .ok before := by
  obtain ⟨hlt, heq, -⟩ := (hf f (List.mem_append_right _ List.mem_cons_self)).header_lt
  have hheader : f.header < 2 ^ 32 := Nat.lt_trans hlt (by decide)
  obtain ⟨b, c, bs, hbytes⟩ := writeUInt_long (show 128 ≤ f.header by omega)
  have hsplit : writeAll (before ++ f :: after) = writeAll before ++ (f.write ++ writeAll after) := by
    rw [writeAll, List.flatMap_append, List.flatMap_cons]
    rfl
  have hfirst : [b] <+: f.write := by
    rw [write, hbytes]
    exact ⟨_, rfl⟩
  refine ⟨writeAll before ++ [b], ?_, fun k => ?_, ?_⟩
  · rw [hsplit]
    exact (List.prefix_append_right_inj _).mpr (hfirst.trans (List.prefix_append _ _))
  · intro heq
    have hlen := congrArg List.length heq
    rw [List.length_append, List.length_singleton] at hlen
    rcases Nat.lt_or_ge before.length k with hk | hk
    · have hpre := (List.take_prefix_take_left (l := before ++ f :: after) hk)
      have hle := (writeAll_isPrefix_of hpre).length_le
      have hfull : (before ++ f :: after).take (before.length + 1) = before ++ [f] := by
        rw [List.take_length_add_append]
        rfl
      rw [hfull, writeAll, List.flatMap_append, List.length_append, List.flatMap_singleton, write, hbytes, List.length_append,
        List.length_cons, List.length_cons] at hle
      change (writeAll before).length + _ ≤ _ at hle
      omega
    · rw [List.take_append_of_le_length hk] at hlen
      have hle := (writeAll_isPrefix_of (List.take_prefix k before)).length_le
      omega
  · rw [List.map_append, List.sum_append] at hsize
    obtain ⟨r', h', n, he⟩ := readFields_append (fun g hg => hf g (List.mem_append_left _ hg)) (by omega) [b] splits
    have hcut : [b] <+: writeUInt f.header := ⟨c :: bs, hbytes.symm⟩
    obtain ⟨r₂, hend⟩ := readFrom_header h' hheader hcut (by rw [hbytes]; simp)
    rw [he, readLoop, hend]
    exact congrArg Except.ok (List.append_nil before)

end Field

end Serial

end Crack
