import Mathlib.Data.List.Dedup
import Crack.Model.RoundTrip

/-!
# What round trips

Lengths and ids go through integers of 32 bits. A sequence of writes can be read
back if and only if its strings and the number of its objects fit.
-/
namespace Crack

open Decoding DeserializationError

variable {heap : Nat → Writes} {s : Serializer} {w : Writes}

/-- A deserializer that has not read anything. -/
def Deserializer.new (bytes : List UInt8) : Deserializer := { src := { data := bytes } }

/-- What was read is a copy of what was written: the same values, and for each object
one copy, at an address of its own. -/
def Copied (heap : Nat → Writes) (w : Writes) (vals : List Val) (d : Deserializer) : Prop :=
  ∃ address : Nat → Nat,
    (∀ p ∈ w.ptrs, ∀ q ∈ w.ptrs, address p = address q → p = q) ∧
    w.Matches (fun p a => a = address p) vals ∧
    ∀ p ∈ w.ptrs, ∃ contents, d.objects[address p]? = some contents ∧
      (heap p).Matches (fun q a => a = address q) contents

/-- Whatever follows the bytes written, the reads use up these bytes and return a copy. -/
def RoundTrips (heap : Nat → Writes) (w : Writes) : Prop :=
  let s := w.write {}
  s.overflow = false ∧ ∃ (vals : List Val) (d : Deserializer),
    (∀ rest, w.kinds.read (.new (s.dst ++ rest)) = .ok (vals, d.feed rest)) ∧ Copied heap w vals d

section Copies

theorem numbered_empty : Numbered heap {} [] where
  nodup := List.nodup_nil
  length := rfl
  overflow := by decide
  lt _ _ h := by cases h
  inj _ _ _ h := by cases h
  body _ _ h := by cases h

theorem paired_empty (bytes : List UInt8) : Paired heap {} (.new bytes) [] where
  numbered := numbered_empty
  overflow := rfl
  closed _ _ h := by cases h
  key _ _ h := by cases h
  inj _ _ _ h := by cases h
  enabled := rfl
  hashed := rfl

theorem copied_of_readsBack {used : List UInt8} {vals : List Val} {d d' : Deserializer} (hw : w.OfHeap heap)
    (h : ReadsBack heap {} d [] w used vals d') : Copied heap w vals d' := by
  obtain ⟨-, -, hpair, -, hcopy⟩ := h
  have hwritten := written numbered_empty hw fun _ _ => List.not_mem_nil
  let address (p : Nat) : Nat :=
    (((w.write {}).objMap.lookup p).bind fun id => d'.objMap.lookup (idKey id)).getD 0
  have haddress : ∀ p a, Refers (w.write {}) d' p a → a = address p := by
    rintro p a ⟨id, hid, ha⟩
    have hid : (w.write {}).objMap.lookup p = some id := hid
    simp only [address, hid, Option.bind_some, ha, Option.getD_some]
  have hrefers : ∀ p ∈ w.ptrs, ∃ id contents, (w.write {}).Knows p id ∧
      d'.objMap.lookup (idKey id) = some (address p) ∧ d'.objects[address p]? = some contents ∧
      (heap p).Matches (Refers (w.write {}) d') contents := by
    intro p hp
    obtain ⟨id, hid⟩ := hwritten.knows p hp
    obtain ⟨a, contents, ha, hc, hm⟩ := hpair.closed p id hid List.not_mem_nil
    obtain rfl := haddress p a ⟨id, hid, ha⟩
    exact ⟨id, contents, hid, ha, hc, hm⟩
  refine ⟨address, ?_, hcopy.mono haddress, ?_⟩
  · intro p hp q hq he
    obtain ⟨id, -, hid, ha, -⟩ := hrefers p hp
    obtain ⟨id', -, hid', ha', -⟩ := hrefers q hq
    rw [← he] at ha'
    have hk := hpair.inj _ _ _ ha ha'
    obtain rfl := idKey_inj (hpair.id_le hid) (hpair.id_le hid') hk
    exact hpair.numbered.inj p q _ hid hid'
  · intro p hp
    obtain ⟨id, contents, -, -, hc, hm⟩ := hrefers p hp
    exact ⟨contents, hc, hm.mono haddress⟩

theorem roundTrips_of_short (hw : w.OfHeap heap) (hs : w.Short) (hov : (w.write {}).overflow = false) :
    RoundTrips heap w := by
  obtain ⟨used, vals, d, hback⟩ := readsBack (paired_empty []) hw (fun _ _ => List.not_mem_nil) hs hov
  refine ⟨hov, vals, d, fun rest => ?_, copied_of_readsBack hw hback⟩
  rw [hback.dst]
  exact hback.reads.whole rest

end Copies

section Count

/-- As many ids are given as there are different objects. -/
theorem lastId_eq (hw : w.OfHeap heap) : (w.write {}).lastId = w.ptrs.dedup.length := by
  have hwritten := written numbered_empty hw fun _ _ => List.not_mem_nil
  have hnum := hwritten.numbered
  rw [← hnum.length, ← List.length_map Prod.fst]
  have hkeys : ∀ p, p ∈ (w.write {}).objMap.map Prod.fst ↔ p ∈ w.ptrs.dedup := by
    intro p
    rw [List.mem_dedup]
    constructor
    · intro hp
      obtain ⟨id, hid⟩ := Option.ne_none_iff_exists'.mp (mt unknown_iff.mp (not_not.mpr hp))
      obtain ⟨_, h⟩ | h := hwritten.only p id hid
      · cases h
      · exact h
    · intro hp
      obtain ⟨id, hid⟩ := hwritten.knows p hp
      by_contra hno
      exact absurd ((unknown_iff.mpr hno).symm.trans hid) (by simp)
  exact ((List.perm_ext_iff_of_nodup hnum.nodup (List.nodup_dedup _)).mpr hkeys).length_eq

theorem overflow_iff (hw : w.OfHeap heap) : (w.write {}).overflow = false ↔ w.ptrs.dedup.length ≤ intMax := by
  have hwritten := written numbered_empty hw fun _ _ => List.not_mem_nil
  rw [hwritten.numbered.overflow, lastId_eq hw]

end Count

section Lengths

/-- The length of a string is an `unsigned int`. -/
def Val.Short : Val → Prop
  | str x => x.length < uintSize
  | uint _ | double _ | object _ => True

def AllShort (vals : List Val) : Prop := ∀ v ∈ vals, v.Short

/-- What a reader returns, and keeps true of the objects that were created. -/
def Ensures {α : Type} (r : Reader α) (Q : α → Prop) : Prop :=
  ∀ d a d', (∀ c ∈ d.objects, AllShort c) → r d = .ok (a, d') → Q a ∧ ∀ c ∈ d'.objects, AllShort c

variable {α β : Type} {r : Reader α} {f : α → Reader β} {P : α → Prop} {Q : β → Prop}

theorem ensures_pure {a : α} (h : P a) : Ensures (pure a) P := by
  intro d b d' hd he
  obtain ⟨rfl, rfl⟩ := Prod.mk.inj (Except.ok.inj he)
  exact ⟨h, hd⟩

theorem ensures_bind (hr : Ensures r P) (hf : ∀ a, P a → Ensures (f a) Q) : Ensures (r >>= f) Q := by
  intro d b d'' hd he
  change (r d >>= fun p => f p.1 p.2) = _ at he
  cases hrd : r d with
  | error e => rw [hrd] at he; cases he
  | ok p =>
    obtain ⟨ha, hd'⟩ := hr d p.1 p.2 hd hrd
    rw [hrd] at he
    exact hf p.1 ha p.2 b d'' hd' he

theorem ensures_throw (e : DeserializationError) : Ensures (throw e : Reader α) P := by
  intro d a d' hd he
  cases he

theorem readLoop_lt (d : Deserializer) (val offset : Nat) :
    (∀ v ∈ (d.readLoop val offset).1, v < uintSize) ∧ (d.readLoop val offset).2.objects = d.objects := by
  induction hn : d.src.left using Nat.strongRecOn generalizing d val offset with
  | ind n ih =>
    subst hn
    rw [Deserializer.readLoop]
    split
    · exact ⟨by simp, rfl⟩
    · next h =>
      dsimp only
      split
      · refine ⟨fun v hv => ?_, rfl⟩
        obtain rfl := Option.some.inj hv
        exact Nat.mod_lt _ (by decide)
      · exact ih _ (IStream.left_get h) _ _ _ rfl

theorem ensures_readUInt : Ensures readUInt (· < uintSize) := by
  intro d v d' hd he
  obtain ⟨hlt, hobj⟩ := readLoop_lt d 0 0
  rw [readUInt] at he
  split at he
  · next v' d₁ hl =>
    rw [hl] at hlt hobj
    obtain ⟨rfl, rfl⟩ := Prod.mk.inj (Except.ok.inj he)
    exact ⟨hlt v' rfl, hobj.symm ▸ hd⟩
  · cases he

theorem ensures_readBytes (n : Nat) : Ensures (readBytes n) (·.length = n) := by
  intro d bytes d' hd he
  rw [readBytes, IStream.read] at he
  split at he
  · next hr =>
    obtain ⟨rfl, rfl⟩ := Prod.mk.inj (Except.ok.inj he)
    split at hr
    · cases hr
    · next hlt =>
      obtain ⟨hb, rfl⟩ := Prod.mk.inj hr
      obtain rfl := Option.some.inj hb
      refine ⟨List.length_take_of_le ?_, hd⟩
      exact Nat.le_of_not_lt fun h => hlt (.inr h)
  · cases he

theorem ensures_readString : Ensures readString (·.length < uintSize) :=
  ensures_bind ensures_readUInt fun n hn d bytes d' hd he => by
    obtain ⟨hlen, hd'⟩ := ensures_readBytes n d bytes d' hd he
    exact ⟨hlen ▸ hn, hd'⟩

theorem ensures_readDouble : Ensures readDouble fun _ => True :=
  ensures_bind (ensures_readBytes 8) fun bytes hlen => by
    rw [ofBytes, dif_pos hlen]
    exact ensures_pure trivial

theorem ensures_create {contents : List Val} (h : AllShort contents) : Ensures (create contents) fun _ => True := by
  intro d a d' hd he
  obtain ⟨rfl, rfl⟩ := Prod.mk.inj (Except.ok.inj he)
  refine ⟨trivial, fun c hc => ?_⟩
  obtain hc | hc := List.mem_append.mp hc
  · exact hd c hc
  · exact List.mem_singleton.mp hc ▸ h

theorem ensures_readObject {reader : Reader Nat} (h : Ensures reader fun _ => True) :
    Ensures (readObject reader) fun _ => True := by
  refine ensures_bind ensures_readUInt fun v _ => ?_
  rw [resolve]
  split
  · refine ensures_bind h fun obj _ => ensures_bind (P := fun _ => True) ?_ fun _ _ => ensures_pure trivial
    intro d _ d' hd he
    obtain ⟨-, rfl⟩ := Prod.mk.inj (Except.ok.inj he)
    exact ⟨trivial, hd⟩
  · refine ensures_bind (P := fun _ => True) ?_ fun o _ => ?_
    · intro d _ d' hd he
      obtain ⟨-, rfl⟩ := Prod.mk.inj (Except.ok.inj he)
      exact ⟨trivial, hd⟩
    · cases o with
      | none => exact ensures_throw _
      | some obj => exact ensures_pure trivial

theorem ensures_read (k : Kinds) : Ensures k.read AllShort := by
  have hcons {v : Val} {vals : List Val} (hv : v.Short) (h : AllShort vals) : AllShort (v :: vals) :=
    List.forall_mem_cons.mpr ⟨hv, h⟩
  induction k with
  | done => exact ensures_pure fun _ h => absurd h List.not_mem_nil
  | uint next ih =>
    exact ensures_bind ensures_readUInt fun v _ => ensures_bind ih fun vals h => ensures_pure (hcons trivial h)
  | str next ih =>
    exact ensures_bind ensures_readString fun x hx => ensures_bind ih fun vals h => ensures_pure (hcons hx h)
  | double next ih =>
    exact ensures_bind ensures_readDouble fun x _ => ensures_bind ih fun vals h => ensures_pure (hcons trivial h)
  | object body next ihb ihn =>
    refine ensures_bind (ensures_readObject (ensures_bind ihb fun _ h => ensures_create h)) fun o _ => ?_
    exact ensures_bind ihn fun vals h => ensures_pure (hcons trivial h)

/-- The strings that are not in bodies are short. -/
def Writes.TopShort : Writes → Prop
  | done => True
  | uint _ next | double _ next | object _ _ next => next.TopShort
  | str data next => data.length < uintSize ∧ next.TopShort

theorem topShort_of_matches {ref : Nat → Nat → Prop} {vals : List Val} (hm : w.Matches ref vals) (h : AllShort vals) :
    w.TopShort := by
  induction w generalizing vals with
  | done => trivial
  | uint v next ih | double v next ih | object p body next ihb ih =>
    obtain _ | ⟨_ | _ | _ | _, vals⟩ := vals <;>
      first | exact hm.elim | exact ih hm.2 (List.forall_mem_cons.mp h).2
  | str data next ih =>
    obtain _ | ⟨_ | _ | _ | _, vals⟩ := vals <;> try exact hm.elim
    obtain ⟨hx, h⟩ := List.forall_mem_cons.mp h
    exact ⟨hm.1 ▸ hx, ih hm.2 h⟩

theorem short_of_topShort (hw : w.OfHeap heap) (ht : w.TopShort) (hp : ∀ p ∈ w.ptrs, (heap p).TopShort) :
    w.Short := by
  induction w with
  | done => trivial
  | uint v next ih | double v next ih => exact ih hw ht hp
  | str data next ih => exact ⟨ht.1, ih hw ht.2 hp⟩
  | object p body next ihb ihn =>
    obtain ⟨rfl, hb, hn⟩ := hw
    refine ⟨ihb hb (hp p List.mem_cons_self) fun q hq => ?_, ihn hn ht fun q hq => ?_⟩
    · exact hp q (List.mem_cons_of_mem p (List.mem_append_left _ hq))
    · exact hp q (List.mem_cons_of_mem p (List.mem_append_right _ hq))

theorem short_of_roundTrips (hw : w.OfHeap heap) (h : RoundTrips heap w) : w.Short := by
  obtain ⟨-, vals, d, hread, address, -, hcopy, hobj⟩ := h
  have hnone : ∀ c ∈ (Deserializer.new ((w.write {}).dst ++ [])).objects, AllShort c := by simp [Deserializer.new]
  obtain ⟨hvals, hobjects⟩ := ensures_read w.kinds _ _ _ hnone (hread [])
  refine short_of_topShort hw (topShort_of_matches hcopy hvals) fun p hp => ?_
  obtain ⟨contents, hc, hm⟩ := hobj p hp
  exact topShort_of_matches hm (hobjects contents (List.mem_of_getElem? hc))

end Lengths

/-- What was written can be read back if and only if no string has 2³² bytes or more
and there are at most `INT_MAX` different objects. -/
theorem roundTrips_iff (heap : Nat → Writes) (w : Writes) (hw : w.OfHeap heap) :
    RoundTrips heap w ↔ w.Short ∧ w.ptrs.dedup.length ≤ intMax := by
  constructor
  · intro h
    exact ⟨short_of_roundTrips hw h, (overflow_iff hw).mp h.1⟩
  · rintro ⟨hs, hcount⟩
    exact roundTrips_of_short hw hs ((overflow_iff hw).mpr hcount)

/-- Two objects, one of which is also in the body of the other. -/
def sharedHeap : Nat → Writes
  | 1 => .object 0 (.uint ⟨300, by decide⟩ .done) (.str [0x61] .done)
  | _ => .uint ⟨300, by decide⟩ .done

theorem shared_roundTrips :
    RoundTrips sharedHeap (.object 1 (sharedHeap 1) (.object 0 (sharedHeap 0) (.object 1 (sharedHeap 1) .done))) :=
  (roundTrips_iff sharedHeap _ (by simp [Writes.OfHeap, sharedHeap])).mpr
    ⟨by simp [Writes.Short, sharedHeap, uintSize], by decide⟩

/-- The length of a string of 2³² bytes is written as 0. -/
theorem long_string_lost : ¬ RoundTrips sharedHeap (.str (List.replicate uintSize 0) .done) := by
  intro h
  have hw : (Writes.str (List.replicate uintSize 0) .done).OfHeap sharedHeap := trivial
  obtain ⟨hlt, -⟩ := short_of_roundTrips hw h
  rw [List.length_replicate] at hlt
  exact Nat.lt_irrefl _ hlt

end Crack
