import Crack.Model.RoundTrip

/-!
# Sections

Parts of a stream with the digest switched off, and parts that are written to a
stream of their own and stored as one string, whose optional fields each follow a
header. A reader is in step with a writer if it knows the objects that the writer
knows and both have added the same bytes to their hashers.
-/
namespace Crack

open Decoding DeserializationError

namespace Serializer

/-- `StackFrame<Serializer> digestState(s, false)` around `w`. -/
def digestOff (s : Serializer) (w : Serializer → Serializer) : Serializer :=
  { w { s with digestEnabled := false } with digestEnabled := s.digestEnabled }

/-- A nested serializer. It shares the object map. -/
def sub (s : Serializer) : Serializer := { s with dst := [], digestEnabled := false, hashed := [] }

/-- The object map after a nested serializer was used. -/
def join (s sub : Serializer) : Serializer :=
  { s with objMap := sub.objMap, lastId := sub.lastId, overflow := sub.overflow }

/-- Write with a nested serializer, and what it has written as a string. -/
def writeSub (s : Serializer) (w : Serializer → Serializer) : Serializer :=
  (s.join (w s.sub)).writeBlob (w s.sub).dst

/-- `if (writeObject(p)) body`. -/
def writeRef (s : Serializer) (p : Nat) (body : Serializer → Serializer) : Serializer :=
  match s.writeObject p with
  | (true, s) => body s
  | (false, s) => s

end Serializer

section Reading

variable {α : Type}

/-- `StackFrame<Deserializer> digestState(d, false)` around `r`. -/
def digestOff (r : Reader α) : Reader α := fun d =>
  match r { d with digestEnabled := false } with
  | .ok (a, d') => .ok (a, { d' with digestEnabled := d.digestEnabled })
  | .error e => .error e

/-- Run `r` with a nested deserializer, which shares the object map. -/
def nested (data : List UInt8) (r : Reader α) : Reader α := fun d =>
  match r { d with src := { data := data }, digestEnabled := false, hashed := [] } with
  | .ok (a, d') => .ok (a, { d with objMap := d'.objMap, objects := d'.objects })
  | .error e => .error e

/-- A string that is read with a nested deserializer. -/
def readNested (r : List UInt8 → Reader α) : Reader α := do
  let data ← readString
  nested data (r data)

/-- `CRACK_PB_KEY`. -/
def pbKey (id type : Nat) : Nat := id <<< 3 ||| type

def pbString := 2

/-- The loop over the fields of an optional section; `field` is its switch. Every
header takes a byte at least. -/
def fieldLoop (field : Int → α → Reader α) : Nat → α → Reader α
  | 0, acc => pure acc
  | n + 1, acc => do
    let (header, ended) ← readUIntEof
    if toInt header ≠ 0 ∨ !ended then do
      let acc ← field (toInt header) acc
      fieldLoop field n acc
    else pure acc

/-- `CRACK_PB_BEGIN` to `CRACK_PB_END`. -/
def optionalFields (field : Int → α → Reader α) (acc : α) : Reader α :=
  readNested fun data => fieldLoop field (data.length + 1) acc

/-- `reserve(count)` of a vector. -/
def reserve (count : Int) : Reader Unit := if count < 0 then throw (check "vector::reserve") else pure ()

end Reading

section InStep

/-- What a stream may refer to: what the reader has read of an object that the writer
knows, the objects still being written with their ids, and whether bytes are added
to the hashers. -/
structure Scope where
  Obj : Nat → List Val → Prop
  opened : List (Nat × Nat) := []
  digest : Bool

/-- Inside the body of an object. -/
def Scope.open (c : Scope) (p id : Nat) : Scope := { c with opened := (p, id) :: c.opened }

/-- In a section without digest. -/
def Scope.off (c : Scope) : Scope := { c with digest := false }

/-- The reader is where the writer was. -/
structure InStep (c : Scope) (s : Serializer) (d : Deserializer) : Prop where
  enabled : s.digestEnabled = c.digest
  enabled' : d.digestEnabled = c.digest
  hashed : s.hashed = d.hashed
  ids : s.overflow = false → s.lastId ≤ intMax
  lt : ∀ p id, s.Knows p id → id < s.lastId
  inj : ∀ p q id, s.Knows p id → s.Knows q id → p = q
  opens : ∀ p id, (p, id) ∈ c.opened → s.Knows p id
  known : ∀ p id, s.Knows p id → p ∉ c.opened.map Prod.fst → ∃ a contents,
    d.objMap.lookup (idKey id) = some a ∧ d.objects[a]? = some contents ∧ c.Obj p contents

/-- The streams of a serializer and a deserializer. -/
def stream (c : Scope) : Link Serializer Deserializer UInt8 DeserializationError where
  out s := s.dst
  feed := Deserializer.feed
  eof := eof
  fits s := s.overflow = false
  inStep := InStep c

variable {c : Scope} {s s' : Serializer} {d : Deserializer}

theorem InStep.emit (h : InStep c s d) (bytes : List UInt8) : InStep c (s.emit bytes) (d.add bytes) where
  enabled := h.enabled
  enabled' := h.enabled'
  hashed := by simp only [Serializer.emit, Deserializer.add, h.enabled, h.enabled', h.hashed]
  ids := h.ids
  lt := h.lt
  inj := h.inj
  opens := h.opens
  known := h.known

/-- The flags are set on both sides. -/
theorem InStep.digest (h : InStep c s d) (b : Bool) :
    InStep { c with digest := b } { s with digestEnabled := b } { d with digestEnabled := b } :=
  ⟨rfl, rfl, h.hashed, h.ids, h.lt, h.inj, h.opens, h.known⟩

theorem InStep.nested (h : InStep c s d) (data : List UInt8) :
    InStep c.off s.sub { d with src := { data := data }, digestEnabled := false, hashed := [] } :=
  ⟨rfl, rfl, rfl, h.ids, h.lt, h.inj, h.opens, h.known⟩

theorem InStep.join {t : Serializer} {e : Deserializer} (h : InStep c s d) (ht : InStep c.off t e) :
    InStep c (s.join t) { d with objMap := e.objMap, objects := e.objects } :=
  ⟨h.enabled, h.enabled', h.hashed, ht.ids, ht.lt, ht.inj, ht.opens, ht.known⟩

/-- A new object: the writer has a number for it, the reader has not read it. -/
theorem InStep.open {p : Nat} (h : InStep c s d) (hp : s.objMap.lookup p = none)
    (hf : (s.newId p).overflow = false) : InStep (c.open p s.lastId) (s.newId p) d where
  enabled := h.enabled
  enabled' := h.enabled'
  hashed := h.hashed
  ids _ := by
    simp only [Serializer.newId, Bool.or_eq_false_iff, decide_eq_false_iff_not] at hf
    exact Nat.lt_of_le_of_ne (h.ids hf.1) hf.2
  lt := (ids_newId h.lt h.inj p).1
  inj := (ids_newId h.lt h.inj p).2
  opens q id hq := by
    obtain he | hq := List.mem_cons.mp hq
    · cases he
      exact knows_newId.mpr (.inl ⟨rfl, rfl⟩)
    · exact knows_newId_of hp (h.opens q id hq)
  known q id hq ho := by
    obtain ⟨hne, ho⟩ := not_or.mp (mt List.mem_cons.mpr ho)
    obtain ⟨rfl, -⟩ | ⟨-, hq⟩ := knows_newId.mp hq
    · exact absurd rfl hne
    · exact h.known q id hq ho

/-- An object was read. -/
theorem InStep.close {p id : Nat} {vals : List Val} (h : InStep (c.open p id) s d) (hf : s.overflow = false)
    (hv : c.Obj p vals) :
    InStep c s { d with objMap := (idKey id, d.objects.length) :: d.objMap, objects := d.objects ++ [vals] } where
  enabled := h.enabled
  enabled' := h.enabled'
  hashed := h.hashed
  ids := h.ids
  lt := h.lt
  inj := h.inj
  opens q i hq := h.opens q i (List.mem_cons_of_mem _ hq)
  known q i hq ho := by
    have hid : s.Knows p id := h.opens p id List.mem_cons_self
    by_cases hqp : q = p
    · subst hqp
      have hi : i = id := Option.some.inj (hq.symm.trans hid)
      subst hi
      exact ⟨d.objects.length, vals, by simp, by simp, hv⟩
    · obtain ⟨a, contents, ha, hc, hobj⟩ := h.known q i hq (by simpa [Scope.open, hqp] using ho)
      have hne : i ≠ id := fun he => hqp (h.inj q p id (he ▸ hq) hid)
      have hle : ∀ q i, s.Knows q i → i ≤ intMax := fun q i hq =>
        Nat.le_trans (Nat.le_of_lt (h.lt q i hq)) (h.ids hf)
      have hkey : (idKey i == idKey id) = false :=
        beq_eq_false_iff_ne.mpr fun he => hne (idKey_inj (hle q i hq) (hle p id hid) he)
      refine ⟨a, contents, ?_, ?_, hobj⟩
      · simp only [List.lookup_cons, hkey]
        exact ha
      · rw [List.getElem?_append_left (List.getElem?_eq_some_iff.mp hc).1]
        exact hc

end InStep

section Rules

variable {α ι : Type} {c : Scope} {s s' : Serializer} {d : Deserializer} {r : Reader α} {Q : α → Prop}

variable {bytes : List UInt8} {a : α}

/-- A reader that reads what was emitted. -/
theorem mirrors_emit (h : ∀ d, Reads r d bytes a (d.add bytes)) :
    Mirrors (stream c) s (s.emit bytes) r (· = a) where
  result := ⟨a, rfl⟩
  grows := List.prefix_append _ _
  sticky := id
  reads _ d hd := by
    refine ⟨a, d.add bytes, rfl, ?_, hd.emit bytes⟩
    have hdrop : ((stream c).out (s.emit bytes)).drop ((stream c).out s).length = bytes := drop_of_grows rfl
    rw [hdrop]
    exact h d

theorem mirrors_uint {v : Nat} (h : v < uintSize) : Mirrors (stream c) s (s.writeUInt v) readUInt (· = v) := by
  rw [writeUInt_eq]
  exact mirrors_emit fun d => reads_uint d h

theorem mirrors_string {data : List UInt8} (h : data.length < uintSize) :
    Mirrors (stream c) s (s.writeBlob data) readString (· = data) := by
  rw [writeBlob_eq, Nat.mod_eq_of_lt h]
  exact mirrors_emit fun d => reads_string d data h

/-- What is restored after a section has no influence on what was read in it. -/
theorem reads_digestOff {d' : Deserializer} (h : Reads r { d with digestEnabled := false } bytes a d') :
    Reads (digestOff r) d bytes a { d' with digestEnabled := d.digestEnabled } where
  whole rest := by
    have hw : r { d with src := { data := bytes ++ rest }, digestEnabled := false } = .ok (a, d'.feed rest) :=
      h.whole rest
    simp only [digestOff, Deserializer.feed, hw]
  cut part hp hne := by
    have hc : r { d with src := { data := part }, digestEnabled := false } = .error eof := h.cut part hp hne
    simp only [digestOff, Deserializer.feed, hc]

variable {w : Serializer → Serializer} {k : ι → Nat}

theorem mirrors_digestOff
    (h : Mirrors (stream c.off) { s with digestEnabled := false } (w { s with digestEnabled := false }) r Q) :
    Mirrors (stream c) s (s.digestOff w) (digestOff r) Q where
  result := h.result
  grows := h.grows
  sticky := h.sticky
  reads hf d hd := by
    obtain ⟨a, d', ha, hr, hd'⟩ := h.reads hf _ (hd.digest false)
    have hd'' := hd'.digest c.digest
    refine ⟨a, { d' with digestEnabled := d.digestEnabled }, ha, reads_digestOff hr, ?_⟩
    rw [hd.enabled', Serializer.digestOff, hd.enabled]
    exact hd''

theorem mirrors_sub {r : List UInt8 → Reader α}
    (h : MirrorsWhole (stream c.off) s.sub (w s.sub) (r (w s.sub).dst) Q) (hlen : (w s.sub).dst.length < uintSize) :
    Mirrors (stream c) s (s.writeSub w) (readNested r) Q where
  result := h.result
  grows := by
    rw [Serializer.writeSub, writeBlob_eq]
    exact List.prefix_append _ _
  sticky hf := by
    rw [Serializer.writeSub, writeBlob_eq] at hf
    exact h.sticky hf
  reads hf d hd := by
    rw [Serializer.writeSub, writeBlob_eq, Nat.mod_eq_of_lt hlen] at hf ⊢
    generalize hb : uintBytes (w s.sub).dst.length ++ (w s.sub).dst = bytes
    have hstep := hd.emit bytes
    obtain ⟨a, e, ha, hr, he⟩ := h.reads hf _ (hstep.nested [])
    have hjoin := InStep.join (t := w s.sub) hstep he
    refine ⟨a, { d.add bytes with objMap := e.objMap, objects := e.objects }, ha, ?_, hjoin⟩
    have hstr := reads_string d (w s.sub).dst hlen
    rw [hb] at hstr
    have hnest : Reads (nested (w s.sub).dst (r (w s.sub).dst)) (d.add bytes) [] a
        { d.add bytes with objMap := e.objMap, objects := e.objects } := by
      refine .silent fun rest => ?_
      have hr' : r (w s.sub).dst { d.add bytes with src := { data := (w s.sub).dst }, digestEnabled := false, hashed := [] }
          = .ok (a, e) := hr
      simp only [nested, Deserializer.feed, hr']
    have hboth := hstr.bind (f := fun data => nested data (r data)) hnest
    rw [List.append_nil] at hboth
    rw [drop_of_grows (L := stream c) (w := s) (b := bytes) rfl]
    exact hboth

/-- The address `a` is that of the object `p`, with what was read of it. -/
def RefersTo (c : Scope) (s : Serializer) (d : Deserializer) (p a : Nat) : Prop :=
  ∃ id contents, s.Knows p id ∧ d.objMap.lookup (idKey id) = some a ∧ d.objects[a]? = some contents ∧ c.Obj p contents

/-- A reference to an object whose reader reads its contents before the object is created. -/
theorem reads_ref {p : Nat} {b : Serializer → Serializer} {r : Reader (List Val)}
    (hp : p ∉ c.opened.map Prod.fst)
    (hb : ∀ s id, Mirrors (stream (c.open p id)) s (b s) r (c.Obj p))
    (hf : (s.writeRef p b).overflow = false) (hd : InStep c s d) :
    ∃ a d', Reads (readObject (r >>= create)) d ((s.writeRef p b).dst.drop s.dst.length) a d' ∧
      InStep c (s.writeRef p b) d' ∧ RefersTo c (s.writeRef p b) d' p a.1 := by
  cases hk : s.objMap.lookup p with
  | some id =>
    rw [Serializer.writeRef, writeObject_known hk] at hf ⊢
    obtain ⟨a, contents, ha, hc, hobj⟩ := hd.known p id hk hp
    have hle : id ≤ intMax := Nat.le_trans (Nat.le_of_lt (hd.lt p id hk)) (hd.ids hf)
    refine ⟨(a, false), d.add (uintBytes (2 * id % uintSize)), ?_, hd.emit _, id, contents, hk, ha, hc, hobj⟩
    change Reads _ d ((s.dst ++ uintBytes (2 * id % uintSize)).drop s.dst.length) _ _
    rw [List.drop_left]
    exact reads_known hle ha
  | none =>
    rw [Serializer.writeRef, writeObject_new hk] at hf ⊢
    generalize hs₁ : (s.newId p).emit (uintBytes ((2 * s.lastId + 1) % uintSize)) = s₁ at hf ⊢
    have hbody := hb s₁ s.lastId
    have hgrows : s.dst <+: s₁.dst := by
      subst hs₁
      exact List.prefix_append _ _
    have hnew : (s.newId p).overflow = false := by
      have hf₁ := hbody.sticky hf
      subst hs₁
      exact hf₁
    have hopen := (hd.open hk hnew).emit (uintBytes ((2 * s.lastId + 1) % uintSize))
    rw [hs₁] at hopen
    obtain ⟨vals, d', hv, hr, hd'⟩ := hbody.reads hf _ hopen
    have hle : s.lastId ≤ intMax := hd.ids (Bool.or_eq_false_iff.mp hnew).1
    have hobj := hr.bind (f := create) (reads_create d' vals)
    rw [List.append_nil] at hobj
    refine ⟨(d'.objects.length, true), _, ?_, hd'.close hf hv, s.lastId, vals, hd'.opens p s.lastId List.mem_cons_self,
      by simp, by simp, hv⟩
    have hread := reads_new hle hobj
    have hid : s₁.dst.drop s.dst.length = uintBytes ((2 * s.lastId + 1) % uintSize) := by
      subst hs₁
      exact List.drop_left
    have hsplit := drop_append_drop hgrows hbody.grows
    rw [hid] at hsplit
    exact hsplit ▸ hread

theorem mirrors_object {p : Nat} {b : Serializer → Serializer} {r : Reader (List Val)}
    (hp : p ∉ c.opened.map Prod.fst)
    (hb : ∀ s id, Mirrors (stream (c.open p id)) s (b s) r (c.Obj p)) :
    Mirrors (stream c) s (s.writeRef p b) (readObject (r >>= create)) (fun _ => True) where
  result := ⟨(0, true), trivial⟩
  grows := by
    cases hk : s.objMap.lookup p with
    | some id =>
      rw [Serializer.writeRef, writeObject_known hk]
      exact List.prefix_append _ _
    | none =>
      rw [Serializer.writeRef, writeObject_new hk]
      have hbody := (hb ((s.newId p).emit (uintBytes ((2 * s.lastId + 1) % uintSize))) s.lastId).grows
      exact List.IsPrefix.trans ⟨_, rfl⟩ hbody
  sticky hf := by
    cases hk : s.objMap.lookup p with
    | some id =>
      rw [Serializer.writeRef, writeObject_known hk] at hf
      exact hf
    | none =>
      rw [Serializer.writeRef, writeObject_new hk] at hf
      exact (Bool.or_eq_false_iff.mp ((hb _ s.lastId).sticky hf)).1
  reads hf d hd := by
    obtain ⟨a, d', hr, hd', -⟩ := reads_ref hp hb hf hd
    exact ⟨a, d', trivial, hr, hd'⟩

theorem uintBytes_length_pos (v : Nat) : 0 < (uintBytes v).length := by
  rw [uintBytes]
  split <;> simp

/-- The end of an optional section. -/
theorem fieldLoop_end (field : Int → α → Reader α) (n : Nat) (acc : α) (d : Deserializer)
    (hd : d.digestEnabled = false) :
    ∃ src, fieldLoop field (n + 1) acc (d.feed []) = .ok (acc, { d with src := src }) := by
  have hloop : (d.feed []).readLoop 0 0 = (none, { d with src := { data := [], eof := true } }) := by
    rw [Deserializer.readLoop, dif_neg (by simp [Deserializer.feed])]
    have hb : ¬ (IStream.get (d.feed []).src).1.toNat < 0x80 := by simp [Deserializer.feed, IStream.get]
    simp only [hb, if_false]
    rw [Deserializer.readLoop, dif_pos (by rfl)]
    simp [Deserializer.feed, Deserializer.add, IStream.get, hd]
  refine ⟨{ data := [], eof := true }, ?_⟩
  rw [fieldLoop]
  change (readUIntEof (d.feed []) >>= _) = _
  rw [readUIntEof, hloop]
  rfl

theorem fieldLoop_field (field : Int → α → Reader α) (n : Nat) (acc : α) (d : Deserializer) (key : Nat)
    (hk : 0 < key ∧ key ≤ intMax) (rest : List UInt8) :
    fieldLoop field (n + 1) acc (d.feed (uintBytes key ++ rest)) =
      (do fieldLoop field n (← field key acc) : Reader α) ((d.add (uintBytes key)).feed rest) := by
  have hlt : key < uintSize := Nat.lt_of_le_of_lt hk.2 (by decide)
  have hloop := Deserializer.readLoop_uintBytes d key 0 0 rest (by decide) (by omega)
  have hint : toInt key = key := if_pos hk.2
  have hne : toInt key ≠ 0 ∨ (!false) = true := .inr rfl
  rw [fieldLoop]
  change (readUIntEof (d.feed (uintBytes key ++ rest)) >>= _) = _
  rw [readUIntEof, hloop]
  simp only [Nat.zero_add, Nat.pow_zero, Nat.mul_one]
  change (if toInt key ≠ 0 ∨ (!false) = true then _ else _ : Reader α) _ = _
  rw [if_pos hne, hint]

variable {field : Int → α → Reader α} {b : ι → Serializer → Serializer} {R : List ι → α → Prop} {P : α → Prop}

/-- The fields of an optional section, each after its key. `R` relates the fields that have
been read to what they were put together to. -/
theorem mirrors_fields {key : ι → Nat} {body : ι → Serializer → Serializer}
    (hc : c.digest = false) (done items : List ι) (hk : ∀ i ∈ items, 0 < key i ∧ key i ≤ intMax)
    (hb : ∀ pre i post, done ++ items = pre ++ i :: post → ∀ s acc, R pre acc →
      Mirrors (stream c) s (body i s) (field (key i) acc) (R (pre ++ [i])))
    (s : Serializer) (n : Nat)
    (hn : (items.foldl (fun s i => body i (s.writeUInt (key i))) s).dst.length < s.dst.length + n)
    (acc : α) (ha : R done acc) :
    MirrorsWhole (stream c) s (items.foldl (fun s i => body i (s.writeUInt (key i))) s) (fieldLoop field n acc)
      (R (done ++ items)) := by
  induction items generalizing s n acc done with
  | nil =>
    obtain ⟨n, rfl⟩ := Nat.exists_eq_add_of_le' (show 1 ≤ n by simp only [List.foldl_nil] at hn; omega)
    rw [List.append_nil]
    refine ⟨⟨acc, ha⟩, List.prefix_refl _, id, fun _ d hd => ?_⟩
    obtain ⟨src, hend⟩ := fieldLoop_end field n acc d (hd.enabled'.trans hc)
    refine ⟨acc, { d with src := src }, ha, ?_,
      ⟨hd.enabled, hd.enabled', hd.hashed, hd.ids, hd.lt, hd.inj, hd.opens, hd.known⟩⟩
    rw [List.foldl_nil, List.drop_length]
    exact hend
  | cons i items ih =>
    have hsplit : done ++ i :: items = (done ++ [i]) ++ items := by rw [List.append_assoc, List.singleton_append]
    rw [List.foldl_cons] at hn ⊢
    generalize hs₁ : s.writeUInt (key i) = s₁ at hn ⊢
    rw [writeUInt_eq] at hs₁
    generalize hend : items.foldl (fun s i => body i (s.writeUInt (key i))) (body i s₁) = t at hn ⊢
    have hbody := hb done i items rfl s₁
    have hrest := ih (done ++ [i]) (fun j hj => hk j (List.mem_cons_of_mem i hj))
      (fun pre j post he => hb pre j post (hsplit.trans he)) (body i s₁)
    rw [hend] at hrest
    have hstep := (hbody acc ha).grows.length_le
    have hhead : s.dst.length < s₁.dst.length := by
      subst hs₁
      simp [uintBytes_length_pos]
    obtain ⟨acc', hacc'⟩ := (hbody acc ha).result
    have hgrows := (hrest (t.dst.length + 1) (by omega) acc' hacc').grows.length_le
    have hn₀ : 1 ≤ n := by
      change s₁.dst.length ≤ (body i s₁).dst.length at hstep
      change (body i s₁).dst.length ≤ t.dst.length at hgrows
      omega
    obtain ⟨n, rfl⟩ := Nat.exists_eq_add_of_le' hn₀
    have hloop := (hbody acc ha).bindWhole fun acc' ha' => hrest n (by
      change s₁.dst.length ≤ (body i s₁).dst.length at hstep
      omega) acc' ha'
    rw [← hsplit] at hloop
    have hpre : s.dst <+: s₁.dst := by
      subst hs₁
      exact List.prefix_append _ _
    refine ⟨hloop.result, hpre.trans hloop.grows, ?_, fun hf d hd => ?_⟩
    · intro hf
      have hfits := hloop.sticky hf
      subst hs₁
      exact hfits
    · have hd₁ := hd.emit (uintBytes (key i))
      rw [hs₁] at hd₁
      obtain ⟨a, d', ha', hr, hd'⟩ := hloop.reads hf _ hd₁
      refine ⟨a, d', ha', ?_, hd'⟩
      have hid : s₁.dst.drop s.dst.length = uintBytes (key i) := by
        subst hs₁
        exact List.drop_left
      have hparts := drop_append_drop hpre hloop.grows
      rw [hid] at hparts
      have hfield := fieldLoop_field field n acc d (key i) (hk i List.mem_cons_self) (t.dst.drop s₁.dst.length)
      exact hparts ▸ hfield.trans hr

/-- An optional section that is written with its fields, in order. -/
theorem mirrors_orderedFields
    (items : List ι) (hk : ∀ i ∈ items, 0 < k i ∧ k i ≤ intMax)
    (hb : ∀ pre i post, items = pre ++ i :: post → ∀ s acc, R pre acc →
      Mirrors (stream c.off) s (b i s) (field (k i) acc) (R (pre ++ [i])))
    (hlen : (items.foldl (fun s i => b i (s.writeUInt (k i))) s.sub).dst.length < uintSize) (acc : α)
    (ha : R [] acc) :
    Mirrors (stream c) s (s.writeSub fun s => items.foldl (fun s i => b i (s.writeUInt (k i))) s)
      (optionalFields field acc) (R items) := by
  refine mirrors_sub ?_ hlen
  refine mirrors_fields (R := R) rfl [] items hk hb s.sub _ ?_ acc ha
  have hz : s.sub.dst.length = 0 := rfl
  omega

/-- An optional section whose fields keep a property. -/
theorem mirrors_optionalFields (items : List ι) (hk : ∀ i ∈ items, 0 < k i ∧ k i ≤ intMax)
    (hb : ∀ i ∈ items, ∀ s acc, P acc → Mirrors (stream c.off) s (b i s) (field (k i) acc) P)
    (hlen : (items.foldl (fun s i => b i (s.writeUInt (k i))) s.sub).dst.length < uintSize) (acc : α) (ha : P acc) :
    Mirrors (stream c) s (s.writeSub fun s => items.foldl (fun s i => b i (s.writeUInt (k i))) s)
      (optionalFields field acc) P :=
  mirrors_orderedFields (R := fun _ => P) items hk (fun pre i post he => hb i (by simp [he])) hlen acc ha

theorem writeSub_id : s.writeSub id = s.writeUInt 0 := by
  rw [Serializer.writeSub, Serializer.writeBlob]
  exact emit_nil _

/-- An optional section without fields. -/
theorem mirrors_noFields (acc : α) (ha : P acc) :
    Mirrors (stream c) s (s.writeUInt 0) (optionalFields field acc) P := by
  rw [← writeSub_id]
  exact mirrors_optionalFields (ι := Empty) (k := fun _ => 0) (b := fun _ s => s) [] (fun i => i.elim)
    (fun i => i.elim) (show 0 < uintSize by decide) acc ha

/-- An optional section that is not looked at. -/
theorem mirrors_optional : Mirrors (stream c) s (s.writeUInt 0) readString (fun _ => True) := by
  have he : s.writeBlob [] = s.writeUInt 0 := emit_nil _
  rw [← he]
  exact (mirrors_string (by decide)).mono fun _ _ => trivial

end Rules

end Crack
