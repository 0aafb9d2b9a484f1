import Crack.Model.SerializerReads

/-!
# Round trips of the serializer

A sequence of writes and the sequence of reads that matches it. The body of an
object, written the first time the object is, is given with every reference to it.
-/
namespace Crack

open Decoding DeserializationError

/-- A sequence of writes. -/
inductive Writes where
  | done
  | uint (v : Fin uintSize) (next : Writes)
  | str (data : List UInt8) (next : Writes)
  | double (val : Double) (next : Writes)
  | object (p : Nat) (body next : Writes)
  deriving DecidableEq, Repr

/-- A sequence of reads; an object comes with the reads of its reader. -/
inductive Kinds where
  | done
  | uint (next : Kinds)
  | str (next : Kinds)
  | double (next : Kinds)
  | object (body next : Kinds)
  deriving DecidableEq, Repr

namespace Writes

def write : Writes → Serializer → Serializer
  | done, s => s
  | uint v next, s => next.write (s.writeUInt v)
  | str data next, s => next.write (s.writeBlob data)
  | double val next, s => next.write (s.writeDouble val)
  | object p body next, s =>
    match s.writeObject p with
    | (true, s) => next.write (body.write s)
    | (false, s) => next.write s

def kinds : Writes → Kinds
  | done => .done
  | uint _ next => .uint next.kinds
  | str _ next => .str next.kinds
  | double _ next => .double next.kinds
  | object _ body next => .object body.kinds next.kinds

/-- The objects that are referenced, also by bodies. -/
def ptrs : Writes → List Nat
  | done => []
  | uint _ next | str _ next | double _ next => next.ptrs
  | object p body next => p :: (body.ptrs ++ next.ptrs)

/-- Every body is that of the object in `heap`. -/
def OfHeap (heap : Nat → Writes) : Writes → Prop
  | done => True
  | uint _ next | str _ next | double _ next => next.OfHeap heap
  | object p body next => body = heap p ∧ body.OfHeap heap ∧ next.OfHeap heap

/-- The length of every string is an `unsigned int`. -/
def Short : Writes → Prop
  | done => True
  | uint _ next | double _ next => next.Short
  | str data next => data.length < uintSize ∧ next.Short
  | object _ body next => body.Short ∧ next.Short

/-- `vals` are what was written, where `ref` relates objects to their copies. -/
def Matches (ref : Nat → Nat → Prop) : Writes → List Val → Prop
  | done, [] => True
  | uint v next, .uint n :: vals => n = v ∧ next.Matches ref vals
  | str data next, .str x :: vals => x = data ∧ next.Matches ref vals
  | double val next, .double x :: vals => x = val ∧ next.Matches ref vals
  | object p _ next, .object a :: vals => ref p a ∧ next.Matches ref vals
  | _, _ => False

end Writes

def Kinds.read : Kinds → Reader (List Val)
  | done => pure []
  | uint next => do
    let v ← readUInt
    return .uint v :: (← next.read)
  | str next => do
    let x ← readString
    return .str x :: (← next.read)
  | double next => do
    let x ← readDouble
    return .double x :: (← next.read)
  | object body next => do
    let (obj, _) ← readObject (body.read >>= create)
    return .object obj :: (← next.read)

section Writer

variable {heap : Nat → Writes} {s : Serializer} {opened : List Nat} {p : Nat} {w : Writes}

namespace Serializer

def Knows (s : Serializer) (p id : Nat) : Prop := s.objMap.lookup p = some id

@[simp] theorem objMap_emit (bytes : List UInt8) : (s.emit bytes).objMap = s.objMap := rfl
@[simp] theorem lastId_emit (bytes : List UInt8) : (s.emit bytes).lastId = s.lastId := rfl
@[simp] theorem overflow_emit (bytes : List UInt8) : (s.emit bytes).overflow = s.overflow := rfl
@[simp] theorem dst_emit (bytes : List UInt8) : (s.emit bytes).dst = s.dst ++ bytes := rfl
@[simp] theorem dst_newId (p : Nat) : (s.newId p).dst = s.dst := rfl

end Serializer

/-- What is true of the ids between two writes, where the bodies of the objects
`opened` are being written. -/
structure Numbered (heap : Nat → Writes) (s : Serializer) (opened : List Nat) : Prop where
  nodup : (s.objMap.map Prod.fst).Nodup
  length : s.objMap.length = s.lastId
  overflow : s.overflow = false ↔ s.lastId ≤ intMax
  lt : ∀ p id, s.Knows p id → id < s.lastId
  inj : ∀ p q id, s.Knows p id → s.Knows q id → p = q
  body : ∀ p id, s.Knows p id → p ∉ opened → ∀ q ∈ (heap p).ptrs, ∃ id', s.Knows q id'

theorem knows_newId {p q id : Nat} :
    (s.newId p).Knows q id ↔ q = p ∧ id = s.lastId ∨ q ≠ p ∧ s.Knows q id := by
  simp only [Serializer.Knows, Serializer.newId, List.lookup_cons]
  by_cases h : q = p
  · subst h
    simp [eq_comm]
  · have hb : (q == p) = false := by simpa using h
    simp [hb, h]

theorem knows_newId_of {p q id : Nat} (hp : s.objMap.lookup p = none) (hq : s.Knows q id) : (s.newId p).Knows q id := by
  refine knows_newId.mpr (.inr ⟨?_, hq⟩)
  rintro rfl
  exact absurd (hp.symm.trans hq) (by simp)

/-- No object has the number of a new one. -/
theorem ids_newId (hlt : ∀ p id, s.Knows p id → id < s.lastId) (hinj : ∀ p q id, s.Knows p id → s.Knows q id → p = q)
    (p : Nat) : (∀ q id, (s.newId p).Knows q id → id < s.lastId + 1) ∧
      ∀ q q' id, (s.newId p).Knows q id → (s.newId p).Knows q' id → q = q' := by
  refine ⟨fun q id hq => ?_, fun q q' id hq hq' => ?_⟩
  · obtain ⟨-, rfl⟩ | ⟨-, hq⟩ := knows_newId.mp hq
    · exact Nat.lt_succ_self _
    · exact Nat.lt_succ_of_lt (hlt q id hq)
  · obtain ⟨rfl, rfl⟩ | ⟨-, hq⟩ := knows_newId.mp hq
    · obtain ⟨rfl, -⟩ | ⟨-, hq'⟩ := knows_newId.mp hq'
      · rfl
      · exact absurd (hlt q' _ hq') (Nat.lt_irrefl _)
    · obtain ⟨-, rfl⟩ | ⟨-, hq'⟩ := knows_newId.mp hq'
      · exact absurd (hlt q _ hq) (Nat.lt_irrefl _)
      · exact hinj q q' id hq hq'

theorem unknown_iff : s.objMap.lookup p = none ↔ p ∉ s.objMap.map Prod.fst := by
  rw [List.lookup_eq_none_iff]
  simp only [List.mem_map, not_exists, not_and]
  grind

theorem numbered_newId (h : Numbered heap s opened) (hp : s.objMap.lookup p = none) :
    Numbered heap (s.newId p) (p :: opened) where
  nodup := List.nodup_cons.mpr ⟨unknown_iff.mp hp, h.nodup⟩
  length := congrArg (· + 1) h.length
  overflow := by
    have hov := h.overflow
    simp only [Serializer.newId, Bool.or_eq_false_iff, hov, decide_eq_false_iff_not]
    omega
  lt := (ids_newId h.lt h.inj p).1
  inj := (ids_newId h.lt h.inj p).2
  body q id hq ho q' hq' := by
    obtain ⟨hne, ho⟩ := not_or.mp (mt List.mem_cons.mpr ho)
    obtain ⟨rfl, -⟩ | ⟨-, hq⟩ := knows_newId.mp hq
    · exact absurd rfl hne
    · obtain ⟨id', hid⟩ := h.body q id hq ho q' hq'
      by_cases he : q' = p
      · exact ⟨s.lastId, knows_newId.mpr (.inl ⟨he, rfl⟩)⟩
      · exact ⟨id', knows_newId.mpr (.inr ⟨he, hid⟩)⟩

theorem numbered_emit (bytes : List UInt8) (h : Numbered heap s opened) : Numbered heap (s.emit bytes) opened :=
  ⟨h.nodup, h.length, h.overflow, h.lt, h.inj, h.body⟩

/-- The body of an object is complete. -/
theorem numbered_close (h : Numbered heap s (p :: opened)) (hb : ∀ q ∈ (heap p).ptrs, ∃ id, s.Knows q id) :
    Numbered heap s opened where
  nodup := h.nodup
  length := h.length
  overflow := h.overflow
  lt := h.lt
  inj := h.inj
  body q id hq ho q' hq' := by
    by_cases he : q = p
    · subst he
      exact hb q' hq'
    · exact h.body q id hq (fun hm => (List.mem_cons.mp hm).elim he ho) q' hq'

theorem size_lt_of_mem_ptrs (hw : w.OfHeap heap) (hp : p ∈ w.ptrs) : sizeOf (heap p) < sizeOf w := by
  induction w with
  | done => exact absurd hp List.not_mem_nil
  | uint v next ih | str v next ih | double v next ih =>
    have hlt := ih hw hp
    simp only [Writes.uint.sizeOf_spec, Writes.str.sizeOf_spec, Writes.double.sizeOf_spec]
    omega
  | object q body next ihb ihn =>
    obtain ⟨rfl, hb, hn⟩ := hw
    simp only [Writes.object.sizeOf_spec]
    rw [Writes.ptrs, List.mem_cons, List.mem_append] at hp
    obtain rfl | hp | hp := hp
    · omega
    · have hlt := ihb hb hp
      omega
    · have hlt := ihn hn hp
      omega

/-- An object is not part of its own body. -/
theorem not_mem_body (h : (heap p).OfHeap heap) : p ∉ (heap p).ptrs :=
  fun hp => Nat.lt_irrefl _ (size_lt_of_mem_ptrs h hp)

/-- What a sequence of writes does to the ids. -/
structure Written (heap : Nat → Writes) (s : Serializer) (opened : List Nat) (ptrs : List Nat) (s' : Serializer) :
    Prop where
  numbered : Numbered heap s' opened
  keeps : ∀ p id, s.Knows p id → s'.Knows p id
  knows : ∀ p ∈ ptrs, ∃ id, s'.Knows p id
  only : ∀ p id, s'.Knows p id → (∃ id', s.Knows p id') ∨ p ∈ ptrs
  sticky : s'.overflow = false → s.overflow = false

theorem writeObject_known {p id : Nat} (h : s.Knows p id) :
    s.writeObject p = (false, s.emit (uintBytes (2 * id % uintSize))) := by
  simp only [Serializer.writeObject, show s.objMap.lookup p = some id from h, writeUInt_eq]

theorem writeObject_new (h : s.objMap.lookup p = none) :
    s.writeObject p = (true, (s.newId p).emit (uintBytes ((2 * s.lastId + 1) % uintSize))) := by
  simp only [Serializer.writeObject, h, writeUInt_eq]

theorem written (h : Numbered heap s opened) (hw : w.OfHeap heap) (ho : ∀ p ∈ w.ptrs, p ∉ opened) :
    Written heap s opened w.ptrs (w.write s) := by
  induction w generalizing s opened with
  | done => exact ⟨h, fun _ _ hp => hp, fun _ hp => absurd hp List.not_mem_nil, fun _ id hp => .inl ⟨id, hp⟩, id⟩
  | uint v next ih =>
    rw [Writes.write, writeUInt_eq]
    obtain ⟨hn, hk, ha, hy, hs⟩ := ih (numbered_emit _ h) hw ho
    exact ⟨hn, hk, ha, hy, hs⟩
  | str data next ih =>
    rw [Writes.write, writeBlob_eq]
    obtain ⟨hn, hk, ha, hy, hs⟩ := ih (numbered_emit _ h) hw ho
    exact ⟨hn, hk, ha, hy, hs⟩
  | double val next ih =>
    obtain ⟨hn, hk, ha, hy, hs⟩ := ih (numbered_emit _ h) hw ho
    exact ⟨hn, hk, ha, hy, hs⟩
  | object p body next ihb ihn =>
    obtain ⟨rfl, hb, hn⟩ := hw
    have hbo : ∀ q ∈ (heap p).ptrs, q ∉ opened := fun q hq =>
      ho q (List.mem_cons_of_mem p (List.mem_append_left _ hq))
    have hno : ∀ q ∈ next.ptrs, q ∉ opened := fun q hq =>
      ho q (List.mem_cons_of_mem p (List.mem_append_right _ hq))
    cases hp : s.objMap.lookup p with
    | some id =>
      rw [Writes.write, writeObject_known hp]
      have hnext := ihn (numbered_emit (uintBytes (2 * id % uintSize)) h) hn hno
      refine ⟨hnext.numbered, hnext.keeps, ?_, ?_, hnext.sticky⟩
      · intro q hq
        rw [Writes.ptrs, List.mem_cons, List.mem_append] at hq
        obtain rfl | hq | hq := hq
        · exact ⟨id, hnext.keeps q id hp⟩
        · obtain ⟨id', hid⟩ := h.body p id hp (ho p List.mem_cons_self) q hq
          exact ⟨id', hnext.keeps q id' hid⟩
        · exact hnext.knows q hq
      · intro q id' hq
        obtain hq | hq := hnext.only q id' hq
        · exact .inl hq
        · exact .inr (List.mem_cons_of_mem p (List.mem_append_right _ hq))
    | none =>
      rw [Writes.write, writeObject_new hp]
      have hself : ∀ q ∈ (heap p).ptrs, q ∉ p :: opened := fun q hq hm =>
        (List.mem_cons.mp hm).elim (fun he => not_mem_body hb (he ▸ hq)) (hbo q hq)
      have hbody := ihb (numbered_emit (uintBytes ((2 * s.lastId + 1) % uintSize)) (numbered_newId h hp)) hb hself
      have hnext := ihn (numbered_close hbody.numbered hbody.knows) hn hno
      refine ⟨hnext.numbered, ?_, ?_, ?_, ?_⟩
      · exact fun q id hq => hnext.keeps q id (hbody.keeps q id (knows_newId_of hp hq))
      · intro q hq
        rw [Writes.ptrs, List.mem_cons, List.mem_append] at hq
        obtain rfl | hq | hq := hq
        · exact ⟨s.lastId, hnext.keeps q _ (hbody.keeps q _ (knows_newId.mpr (.inl ⟨rfl, rfl⟩)))⟩
        · obtain ⟨id', hid⟩ := hbody.knows q hq
          exact ⟨id', hnext.keeps q id' hid⟩
        · exact hnext.knows q hq
      · intro q id hq
        obtain ⟨id', hq⟩ | hq := hnext.only q id hq
        · obtain ⟨id', hq⟩ | hq := hbody.only q id' hq
          · obtain ⟨rfl, -⟩ | ⟨-, hq⟩ := knows_newId.mp hq
            · exact .inr List.mem_cons_self
            · exact .inl ⟨id', hq⟩
          · exact .inr (List.mem_cons_of_mem p (List.mem_append_left _ hq))
        · exact .inr (List.mem_cons_of_mem p (List.mem_append_right _ hq))
      · intro hov
        have hov := hbody.sticky (hnext.sticky hov)
        exact (Bool.or_eq_false_iff.mp hov).1

end Writer

section Reader

variable {heap : Nat → Writes} {s s' : Serializer} {d d' : Deserializer} {opened : List Nat} {n : Nat}

/-- `a` is the copy of the object `p`. -/
def Refers (s : Serializer) (d : Deserializer) (p a : Nat) : Prop :=
  ∃ id, s.Knows p id ∧ d.objMap.lookup (idKey id) = some a

/-- What is true of writer and reader between two writes. The reader knows the
objects whose bodies are complete, the writer also those that are `opened`. -/
structure Paired (heap : Nat → Writes) (s : Serializer) (d : Deserializer) (opened : List Nat) : Prop where
  numbered : Numbered heap s opened
  overflow : s.overflow = false
  closed : ∀ p id, s.Knows p id → p ∉ opened → ∃ a contents,
    d.objMap.lookup (idKey id) = some a ∧ d.objects[a]? = some contents ∧ (heap p).Matches (Refers s d) contents
  key : ∀ k a, d.objMap.lookup k = some a →
    a < d.objects.length ∧ ∃ p id, s.Knows p id ∧ k = idKey id ∧ p ∉ opened
  inj : ∀ k k' a, d.objMap.lookup k = some a → d.objMap.lookup k' = some a → k = k'
  enabled : s.digestEnabled = d.digestEnabled
  hashed : s.hashed = d.hashed

/-- The reader only gets to know more. -/
structure Grows (d d' : Deserializer) : Prop where
  objMap : ∀ k a, d.objMap.lookup k = some a → d'.objMap.lookup k = some a
  objects : ∀ (a : Nat) (contents : List Val), d.objects[a]? = some contents → d'.objects[a]? = some contents

theorem Grows.trans {d'' : Deserializer} (h : Grows d d') (h' : Grows d' d'') : Grows d d'' :=
  ⟨fun k a ha => h'.objMap k a (h.objMap k a ha), fun a c hc => h'.objects a c (h.objects a c hc)⟩

theorem Refers.mono {p a : Nat} (h : Refers s d p a) (hk : ∀ p id, s.Knows p id → s'.Knows p id) (hg : Grows d d') :
    Refers s' d' p a := by
  obtain ⟨id, hid, ha⟩ := h
  exact ⟨id, hk p id hid, hg.objMap _ a ha⟩

theorem Writes.Matches.mono {ref ref' : Nat → Nat → Prop} (h : ∀ p a, ref p a → ref' p a) {w : Writes}
    {vals : List Val} (hm : w.Matches ref vals) : w.Matches ref' vals := by
  induction w generalizing vals with
  | done => cases vals <;> exact hm
  | uint v next ih | str v next ih | double v next ih =>
    obtain _ | ⟨_ | _ | _ | _, vals⟩ := vals <;> first | exact hm.elim | exact ⟨hm.1, ih hm.2⟩
  | object p body next ihb ihn =>
    obtain _ | ⟨_ | _ | _ | _, vals⟩ := vals <;> first | exact hm.elim | exact ⟨h _ _ hm.1, ihn hm.2⟩

theorem paired_emit (bytes : List UInt8) (h : Paired heap s d opened) :
    Paired heap (s.emit bytes) (d.add bytes) opened where
  numbered := numbered_emit bytes h.numbered
  overflow := h.overflow
  closed := h.closed
  key := h.key
  inj := h.inj
  enabled := h.enabled
  hashed := by
    simp only [Serializer.emit, Deserializer.add, h.enabled, h.hashed]

/-- The id of a known object is small enough to be read back. -/
theorem Paired.id_le {p id : Nat} (h : Paired heap s d opened) (hp : s.Knows p id) : id ≤ intMax :=
  Nat.le_trans (Nat.le_of_lt (h.numbered.lt p id hp)) (h.numbered.overflow.mp h.overflow)

/-- What is proved of a sequence of writes: the reads that match return a copy. -/
structure ReadsBack (heap : Nat → Writes) (s : Serializer) (d : Deserializer) (opened : List Nat) (w : Writes) (used : List UInt8)
    (vals : List Val) (d' : Deserializer) : Prop where
  dst : (w.write s).dst = s.dst ++ used
  reads : Reads w.kinds.read d used vals d'
  paired : Paired heap (w.write s) d' opened
  grows : Grows d d'
  copied : w.Matches (Refers (w.write s) d') vals

theorem Grows.refl (d : Deserializer) : Grows d d := ⟨fun _ _ h => h, fun _ _ h => h⟩

/-- The object `p` gets an id before its body is written. -/
theorem paired_newId {p : Nat} (h : Paired heap s d opened) (hp : s.objMap.lookup p = none)
    (hov : (s.newId p).overflow = false) : Paired heap (s.newId p) d (p :: opened) where
  numbered := numbered_newId h.numbered hp
  overflow := hov
  closed q id hq ho := by
    obtain ⟨hne, ho⟩ := not_or.mp (mt List.mem_cons.mpr ho)
    obtain ⟨rfl, -⟩ | ⟨-, hq⟩ := knows_newId.mp hq
    · exact absurd rfl hne
    · obtain ⟨a, contents, ha, hc, hm⟩ := h.closed q id hq ho
      refine ⟨a, contents, ha, hc, hm.mono fun q' a' hr => hr.mono ?_ (.refl d)⟩
      exact fun q' id' hq' => knows_newId_of hp hq'
  key k a ha := by
    obtain ⟨hlt, q, id, hq, rfl, ho⟩ := h.key k a ha
    refine ⟨hlt, q, id, knows_newId_of hp hq, rfl, fun hm => ?_⟩
    obtain rfl | hm := List.mem_cons.mp hm
    · exact absurd (hp.symm.trans hq) (by simp)
    · exact ho hm
  inj := h.inj
  enabled := h.enabled
  hashed := h.hashed

theorem lookup_cons_cases {k k' : Int} {a a' : Nat} {m : List (Int × Nat)} (h : ((k, a) :: m).lookup k' = some a') :
    k' = k ∧ a' = a ∨ k' ≠ k ∧ m.lookup k' = some a' := by
  rw [List.lookup_cons] at h
  by_cases he : k' = k
  · subst he
    simp only [beq_self_eq_true] at h
    exact .inl ⟨rfl, (Option.some.inj h).symm⟩
  · have hb : (k' == k) = false := by simpa using he
    simp only [hb] at h
    exact .inr ⟨he, h⟩

/-- The body of the object `p` was written and read. -/
theorem paired_close {p : Nat} {contents : List Val} (h : Paired heap s d (p :: opened)) (hp : s.Knows p n)
    (ho : p ∉ opened) (hknows : ∀ q ∈ (heap p).ptrs, ∃ id, s.Knows q id)
    (hc : (heap p).Matches (Refers s d) contents) :
    let d' := { d with objMap := (idKey n, d.objects.length) :: d.objMap, objects := d.objects ++ [contents] }
    Paired heap s d' opened ∧ Grows d d' := by
  intro d'
  have hnew : ∀ a, d.objMap.lookup (idKey n) ≠ some a := by
    intro a ha
    obtain ⟨-, q, id, hq, hk, hqo⟩ := h.key _ a ha
    obtain rfl := idKey_inj (h.id_le hp) (h.id_le hq) hk
    exact hqo (h.numbered.inj p q _ hp hq ▸ List.mem_cons_self)
  have hself : d'.objMap.lookup (idKey n) = some d.objects.length := List.lookup_cons_self
  have hgrows : Grows d d' := by
    constructor
    · intro k a ha
      have hne : (k == idKey n) = false := beq_eq_false_iff_ne.mpr fun he => hnew a (he ▸ ha)
      simp only [d', List.lookup_cons, hne]
      exact ha
    · intro a c ha
      obtain ⟨hlt, -⟩ := List.getElem?_eq_some_iff.mp ha
      exact (List.getElem?_append_left hlt).trans ha
  have hmono : ∀ q a, Refers s d q a → Refers s d' q a := fun q a hr => hr.mono (fun _ _ hk => hk) hgrows
  refine ⟨⟨numbered_close h.numbered hknows, h.overflow, ?_, ?_, ?_, h.enabled, h.hashed⟩, hgrows⟩
  · intro q id hq hqo
    by_cases he : q = p
    · subst he
      obtain rfl : id = n := Option.some.inj (hq.symm.trans hp)
      exact ⟨d.objects.length, contents, hself, List.getElem?_concat_length, hc.mono hmono⟩
    · obtain ⟨a, c, ha, hget, hm⟩ := h.closed q id hq fun hm => (List.mem_cons.mp hm).elim he hqo
      exact ⟨a, c, hgrows.objMap _ a ha, hgrows.objects a c hget, hm.mono hmono⟩
  · intro k a ha
    have hlen : d'.objects.length = d.objects.length + 1 := by simp [d']
    obtain ⟨rfl, rfl⟩ | ⟨-, ha⟩ := lookup_cons_cases ha
    · exact ⟨by omega, p, n, hp, rfl, ho⟩
    · obtain ⟨hlt, q, id, hq, hk, hqo⟩ := h.key k a ha
      exact ⟨by omega, q, id, hq, hk, fun hm => hqo (List.mem_cons_of_mem p hm)⟩
  · intro k k' a ha ha'
    obtain ⟨rfl, rfl⟩ | ⟨-, ha⟩ := lookup_cons_cases ha
    · obtain ⟨rfl, -⟩ | ⟨-, ha'⟩ := lookup_cons_cases ha'
      · rfl
      · exact absurd (h.key k' _ ha').1 (Nat.lt_irrefl _)
    · obtain ⟨rfl, rfl⟩ | ⟨-, ha'⟩ := lookup_cons_cases ha'
      · exact absurd (h.key k _ ha).1 (Nat.lt_irrefl _)
      · exact h.inj k k' a ha ha'

/-- A write that only appends bytes, in front of the others. -/
theorem readsBack_emit {α : Type} {w next : Writes} {bytes used : List UInt8} {r : Reader α} {a : α} {vals : List Val}
    (val : α → Val) (hwrite : w.write s = next.write (s.emit bytes))
    (hread : w.kinds.read = r >>= fun a => next.kinds.read >>= fun vals => pure (val a :: vals))
    (hr : Reads r d bytes a (d.add bytes))
    (hcopy : next.Matches (Refers (next.write (s.emit bytes)) d') vals →
      w.Matches (Refers (next.write (s.emit bytes)) d') (val a :: vals))
    (h : ReadsBack heap (s.emit bytes) (d.add bytes) opened next used vals d') :
    ReadsBack heap s d opened w (bytes ++ used) (val a :: vals) d' where
  dst := by rw [hwrite, h.dst, Serializer.dst_emit, List.append_assoc]
  reads := by
    rw [hread]
    exact hr.bind (f := fun a => next.kinds.read >>= fun vals => pure (val a :: vals))
      (h.reads.bind_pure fun vals => val a :: vals)
  paired := by
    rw [hwrite]
    exact h.paired
  grows := ⟨h.grows.objMap, h.grows.objects⟩
  copied := by
    rw [hwrite]
    exact hcopy h.copied

theorem readsBack {w : Writes} (h : Paired heap s d opened) (hw : w.OfHeap heap) (ho : ∀ p ∈ w.ptrs, p ∉ opened)
    (hs : w.Short) (hov : (w.write s).overflow = false) :
    ∃ used vals d', ReadsBack heap s d opened w used vals d' := by
  induction w generalizing s d opened with
  | done =>
    exact ⟨[], [], d, (List.append_nil _).symm, Decodes.pure [], h, .refl d, trivial⟩
  | uint v next ih =>
    have hwrite : (Writes.uint v next).write s = next.write (s.emit (uintBytes v)) := by
      rw [Writes.write, writeUInt_eq]
    rw [hwrite] at hov
    obtain ⟨used, vals, d', hnext⟩ := ih (paired_emit (uintBytes v) h) hw ho hs hov
    exact ⟨_, _, d', readsBack_emit .uint hwrite rfl (reads_uint d v.2) (fun hc => ⟨rfl, hc⟩) hnext⟩
  | str data next ih =>
    obtain ⟨hlen, hs⟩ := hs
    have hwrite : (Writes.str data next).write s = next.write (s.emit (uintBytes data.length ++ data)) := by
      rw [Writes.write, writeBlob_eq, Nat.mod_eq_of_lt hlen]
    rw [hwrite] at hov
    obtain ⟨used, vals, d', hnext⟩ := ih (paired_emit (uintBytes data.length ++ data) h) hw ho hs hov
    exact ⟨_, _, d', readsBack_emit .str hwrite rfl (reads_string d data hlen) (fun hc => ⟨rfl, hc⟩) hnext⟩
  | double val next ih =>
    have hwrite : (Writes.double val next).write s = next.write (s.emit val.1) := rfl
    obtain ⟨used, vals, d', hnext⟩ := ih (paired_emit val.1 h) hw ho hs hov
    exact ⟨_, _, d', readsBack_emit .double hwrite rfl (reads_double d val) (fun hc => ⟨rfl, hc⟩) hnext⟩
  | object p body next ihb ihn =>
    obtain ⟨rfl, hb, hn⟩ := hw
    obtain ⟨hsb, hsn⟩ := hs
    have hbo : ∀ q ∈ (heap p).ptrs, q ∉ opened := fun q hq =>
      ho q (List.mem_cons_of_mem p (List.mem_append_left _ hq))
    have hno : ∀ q ∈ next.ptrs, q ∉ opened := fun q hq =>
      ho q (List.mem_cons_of_mem p (List.mem_append_right _ hq))
    cases hp : s.objMap.lookup p with
    | some id =>
      have hwrite : (Writes.object p (heap p) next).write s =
          next.write (s.emit (uintBytes (2 * id % uintSize))) := by
        rw [Writes.write, writeObject_known hp]
      rw [hwrite] at hov
      obtain ⟨used, vals, d', hnext⟩ := ihn (paired_emit (uintBytes (2 * id % uintSize)) h) hn hno hsn hov
      obtain ⟨a, contents, ha, -, -⟩ := h.closed p id hp (ho p List.mem_cons_self)
      have hread : Reads (readObject ((heap p).kinds.read >>= create)) d (uintBytes (2 * id % uintSize)) (a, false)
          (d.add (uintBytes (2 * id % uintSize))) := reads_known (h.id_le hp) ha
      have hkeeps := (written (numbered_emit (uintBytes (2 * id % uintSize)) h.numbered) hn hno).keeps
      exact ⟨_, _, d', readsBack_emit (fun o => .object o.1) hwrite rfl hread
        (fun hc => ⟨⟨id, hkeeps p id hp, hnext.grows.objMap _ a ha⟩, hc⟩) hnext⟩
    | none =>
      let bytes := uintBytes ((2 * s.lastId + 1) % uintSize)
      let s₁ := (s.newId p).emit bytes
      have hwrite : (Writes.object p (heap p) next).write s = next.write ((heap p).write s₁) := by
        rw [Writes.write, writeObject_new hp]
      rw [hwrite] at hov
      have hself : ∀ q ∈ (heap p).ptrs, q ∉ p :: opened := fun q hq hm =>
        (List.mem_cons.mp hm).elim (fun he => not_mem_body hb (he ▸ hq)) (hbo q hq)
      have hwb := written (numbered_emit bytes (numbered_newId h.numbered hp)) hb hself
      have hwn := written (numbered_close hwb.numbered hwb.knows) hn hno
      have hovb := hwn.sticky hov
      have hpair₁ : Paired heap s₁ (d.add bytes) (p :: opened) :=
        paired_emit bytes (paired_newId h hp (hwb.sticky hovb))
      obtain ⟨usedb, valsb, db, hbody⟩ := ihb hpair₁ hb hself hsb hovb
      have hknown : ((heap p).write s₁).Knows p s.lastId := hwb.keeps p _ (knows_newId.mpr (.inl ⟨rfl, rfl⟩))
      obtain ⟨hpair₂, hgrows₂⟩ := paired_close hbody.paired hknown (ho p List.mem_cons_self) hwb.knows hbody.copied
      obtain ⟨usedn, valsn, d', hnext⟩ := ihn hpair₂ hn hno hsn hov
      have hreader : Reads ((heap p).kinds.read >>= create) (d.add bytes) (usedb ++ []) db.objects.length
          { db with objects := db.objects ++ [valsb] } := hbody.reads.bind (reads_create db valsb)
      rw [List.append_nil] at hreader
      have hobj := reads_new (h.numbered.overflow.mp h.overflow) hreader
      refine ⟨bytes ++ usedb ++ usedn, .object db.objects.length :: valsn, d', ?_, ?_, ?_, ?_, ?_⟩
      · rw [hwrite, hnext.dst, hbody.dst, Serializer.dst_emit, Serializer.dst_newId]
        simp only [List.append_assoc]
      · exact hobj.bind (f := fun o => next.kinds.read >>= fun vals => pure (.object o.1 :: vals))
          (hnext.reads.bind_pure fun vals => .object db.objects.length :: vals)
      · rw [hwrite]
        exact hnext.paired
      · exact Grows.trans ⟨hbody.grows.objMap, hbody.grows.objects⟩ (hgrows₂.trans hnext.grows)
      · rw [hwrite]
        refine ⟨⟨s.lastId, hwn.keeps p _ hknown, hnext.grows.objMap _ _ ?_⟩, hnext.copied⟩
        exact List.lookup_cons_self

end Reader

end Crack
