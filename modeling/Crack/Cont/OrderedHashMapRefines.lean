import Crack.Cont.ItemList

/-!
# OrderedHashMap refines a sequence of pairs

The sequence of keys and values that an `OrderedHashMap` stands for, what the
operations do to it, and the invariant that ties the item list and the slot
table to it and to each other.
-/
namespace Crack

open Probing (live FirstStop)
open KeyedList (Distinct)

namespace OrderedHashMap

variable {K V : Type} [BEq K] {L' : List (Item K)} {P' : List (K × V)}

def has (P : List (K × V)) (key : K) : Bool := P.any (fun p => p.1 == key)

def replaceVal (P : List (K × V)) (key : K) (value : V) : List (K × V) :=
  P.map (fun p => if p.1 == key then (p.1, value) else p)

section

variable [ToString K]

def specPushHead (P : List (K × V)) (key : K) (value : V) : List (K × V) × Except Exc Unit :=
  if has P key then
    if P.head?.any (fun p => p.1 == key) then (replaceVal P key value, .ok ())
    else (P, .error (.keyError ("Key " ++ toString key ++ " already assigned in a position not at the head")))
  else ((key, value) :: P, .ok ())

def specInsert (P : List (K × V)) (index : Nat) (key : K) (value : V) : List (K × V) × Except Exc Unit :=
  if index = 0 then specPushHead P key value
  else if index > P.length then (P, .error (.indexError "Index out of range in insert()"))
  else if has P key then
    if P[index]?.any (fun p => p.1 == key) then (replaceVal P key value, .ok ())
    else (P, .error (.indexError ("Key " ++ toString key ++ " already exists at a different index")))
  else (P.take index ++ (key, value) :: P.drop index, .ok ())

def specDeleteKey (P : List (K × V)) (key : K) : List (K × V) × Except Exc Unit :=
  if has P key then (P.eraseP (fun p => p.1 == key), .ok ())
  else (P, .error (.keyError ("Invalid key: " ++ toString key)))

def specDelete (P : List (K × V)) (index : Nat) : List (K × V) × Except Exc Unit :=
  if index < P.length then (P.eraseIdx index, .ok ())
  else (P, .error (.indexError "Index out of range in delete()"))

def specUpdate (P : List (K × V)) : Update K V → List (K × V) × Except Exc (Option K)
  | .append key value => (if has P key then replaceVal P key value else P ++ [(key, value)], .ok none)
  | .pushHead key value => ((specPushHead P key value).1, (specPushHead P key value).2.map (fun _ => none))
  | .insert index key value =>
    ((specInsert P index key value).1, (specInsert P index key value).2.map (fun _ => none))
  | .popHead =>
    match P.head? with
    | some p => (P.tail, .ok (some p.1))
    | none => (P, .error (.invalidArgumentError "Attempting to pop from an empty list"))
  | .popTail =>
    match P.getLast? with
    | some p => (P.dropLast, .ok (some p.1))
    | none => (P, .error (.invalidArgumentError "Attempting to pop from an empty list"))
  | .deleteKey key => ((specDeleteKey P key).1, (specDeleteKey P key).2.map (fun _ => none))
  | .delete index => ((specDelete P index).1, (specDelete P index).2.map (fun _ => none))

def specRun (P : List (K × V)) : List (Update K V) → List (K × V) × List (Except Exc (Option K))
  | [] => (P, [])
  | u :: us => ((specRun (specUpdate P u).1 us).1, (specUpdate P u).2 :: (specRun (specUpdate P u).1 us).2)

end

/-- The item list `L`, the slot table and the sequence `P` of the map `m` belong together. -/
structure Ordered (makeHashVal : K → Nat) (m : OrderedHashMap K V) (L : List (Item K)) (P : List (K × V)) :
    Prop where
  chain : Chain m L
  shows : Shows m L P
  sound : Sound view m.cap m.size m.items
  perm : (live m.cap m.items).Perm L
  size : L.length = m.size
  distinct : Distinct Item.key L
  hash : ∀ item ∈ L, item.hash = makeHashVal item.key
  capacity : 5 ≤ m.cap ∧ m.cap ≤ 1073741829

/-- Storing a new item does not grow the table to its last bucket count, 2147483659. -/
def GrowthOk (m : OrderedHashMap K V) : Prop := exceeded m.size m.cap → increaseCap m.cap ≠ .ok 2147483659

variable {makeHashVal : K → Nat} {m m' : OrderedHashMap K V} {L l l' : List (Item K)} {P : List (K × V)} {slot : Nat}

omit [BEq K] in
theorem init_chain : Chain (init : OrderedHashMap K V) [] :=
  ⟨List.nodup_nil, by simp, rfl, rfl, trivial⟩

theorem init_ordered : Ordered makeHashVal (init : OrderedHashMap K V) [] [] :=
  ⟨init_chain, rfl, Sound.empty (by simp [init]) (by simp [init]), by simp [init], rfl, List.Pairwise.nil,
    by simp, by simp [init]⟩

theorem has_iff (h : Shows m L P) (key : K) : has P key = true ↔ ∃ item ∈ L, (item.key == key) = true := by
  have : has P key = (L.map Item.key).any (fun k => k == key) := by
    rw [← h.keys, List.any_map]
    rfl
  rw [this, List.any_map, List.any_eq_true]
  rfl

variable (hhash : ∀ a b : K, (a == b) = true → makeHashVal a = makeHashVal b) {item : Item K} {index : Nat}

include hhash in
/-- `__findSlot` finds the very item of a key in the list. -/
theorem Ordered.findSlot_eq (h : Ordered makeHashVal m L P) (key : K) :
    ∃ i, findSlot m (makeHashVal key) key = .ok i ∧
      FirstStop m.cap (stops view m.items key) (makeHashVal key % m.cap) i ∧
      slotItem m.items i = .ok (m.items i) ∧
      ((∃ item ∈ L, m.items i = some item ∧ (item.key == key) = true) ∨
        m.items i = none ∧ ∀ item ∈ L, (item.key == key) = false) := by
  have hview : ∀ x ∈ live m.cap m.items, view.hash x = makeHashVal (view.key x) :=
    fun x hx => h.hash x (h.perm.mem_iff.mp hx)
  obtain ⟨i, he, hf, hi⟩ := h.sound.findSlot_key hview hhash key
  refine ⟨i, he, hf, slotItem_ok h.sound hf.1, ?_⟩
  rcases hi with ⟨x, hx, hk⟩ | ⟨hn, hall⟩
  · exact .inl ⟨x, h.perm.mem_iff.mp (Probing.mem_live.mpr ⟨i, hf.1, hx⟩), hx, hk⟩
  · exact .inr ⟨hn, fun item hi => hall item (h.perm.mem_iff.mpr hi)⟩

/-- Storing a new item after it has been linked into the list, which is `L'` now. -/
theorem Ordered.setItemNew [EquivBEq K] (h : Ordered makeHashVal m L P) (ht : SameTable m m')
    (hchain : Chain m' L') (hshows : Shows m' L' P')
    (hperm : L'.Perm (item :: L)) (hnew : ∀ x ∈ L, (x.key == item.key) = false)
    (hih : item.hash = makeHashVal item.key) (hg : GrowthOk m)
    (hf : FirstStop m.cap (stops view m.items item.key) (item.hash % m.cap) slot) :
    ∃ m'', setItemNew m' slot item = .ok (m'', .ok ()) ∧ Ordered makeHashVal m'' L' P' := by
  have hroom : RoomFor m.cap m.size := by
    unfold RoomFor
    split
    · rename_i hex
      intro newCap hnew
      obtain ⟨newCap', hnew', h2, hlast⟩ := increaseCap_ok h.capacity.2
      rw [hnew] at hnew'
      cases hnew'
      have hne : newCap ≠ 2147483659 := by
        rintro rfl
        exact hg hex hnew
      have := h.sound.room
      have := h.capacity.1
      omega
    · exact .inl h.capacity.1
  have h' := ht.sound h.sound
  rcases makeRoom_ok h.sound hroom hf with ⟨e, _, hie, _⟩ | ⟨cap', items', slot', hmr, hs', hlt, hf', hp, hcap⟩
  · obtain ⟨newCap, hnewCap, _⟩ := increaseCap_ok h.capacity.2
    rw [hie] at hnewCap
    cases hnewCap
  · have hp := (hp (h.distinct.perm h.perm.symm)).trans h.perm
    have habsent : ∀ y ∈ live cap' items', (y.key == item.key) = false := fun y hy => hnew y (hp.mem_iff.mp hy)
    have hins := Probing.live_insert hf'.1 (none_of_stops hf'.1 hf'.2.1 habsent) item
    refine ⟨{ m' with cap := cap', items := Function.update items' slot' (some item), size := m.size + 1 }, ?_, ?_⟩
    · simp only [OrderedHashMap.setItemNew, ht.cap, ht.size, ht.items, hmr, h.sound.uint_succ, bind, Except.bind,
        pure, Except.pure]
    · refine ⟨⟨hchain.addrs, hchain.fresh, hchain.head, hchain.tail, hchain.links⟩, hshows,
        hs'.store hlt hf', ?_, ?_, ?_, ?_, ?_⟩
      · exact hins.trans ((hp.cons item).trans hperm.symm)
      · rw [hperm.length_eq, List.length_cons, h.size]
      · exact (h.distinct.cons hnew).perm hperm.symm
      · intro x hx
        rcases List.mem_cons.mp (hperm.mem_iff.mp hx) with rfl | hx
        · exact hih
        · exact h.hash x hx
      · split at hcap
        · obtain ⟨newCap', hnew', h2, hlast⟩ := increaseCap_ok h.capacity.2
          rw [hcap] at hnew'
          cases hnew'
          have := h.capacity.1
          have := hs'.le
          exact ⟨by simp only; omega, by simp only; omega⟩
        · rw [hcap]; exact h.capacity

include hhash in
/-- Deleting an item from the table after it has been unlinked from the list, which is `L'` now. -/
theorem Ordered.deleteHash [EquivBEq K] [ToString K] (h : Ordered makeHashVal m L P) (ht : SameTable m m')
    (hchain : Chain m' L') (hshows : Shows m' L' P')
    (hperm : L.Perm (item :: L')) :
    ∃ m'', deleteHash m' makeHashVal item.key = .ok (m'', .ok ()) ∧ Ordered makeHashVal m'' L' P' := by
  have hmem : item ∈ L := hperm.mem_iff.mpr (by simp)
  obtain ⟨i, he, hf, hs, hi⟩ := h.findSlot_eq hhash item.key
  have hit : m.items i = some item := by
    rcases hi with ⟨x, hx, hxi, hk⟩ | ⟨_, hall⟩
    · rw [hxi, h.distinct.eq_of_beq hx hmem hk]
    · have := hall item hmem
      rw [BEq.refl] at this; cases this
  obtain ⟨items', hfn, hpos, hs', hp⟩ := h.sound.remove hf.1 hit
  have hd := List.pairwise_cons.mp (h.distinct.perm hperm)
  have hl := hperm.length_eq
  rw [h.size, List.length_cons] at hl
  refine ⟨{ m' with items := items', size := m.size - 1 }, ?_, ?_⟩
  · unfold OrderedHashMap.deleteHash findSlot
    unfold findSlot at he
    simp only [ht.cap, ht.items, ht.size, he, hs, hit, hfn, h.sound.uint_pred hpos, bind, Except.bind, pure,
      Except.pure]
  · refine ⟨⟨hchain.addrs, hchain.fresh, hchain.head, hchain.tail, hchain.links⟩, hshows, ?_, ?_, ?_, hd.2, ?_, ?_⟩
    · simp only [ht.cap]; exact hs'
    · simp only [ht.cap]
      exact (hp.trans (h.perm.trans hperm)).cons_inv
    · simp only; omega
    · exact fun x hx => h.hash x (hperm.mem_iff.mpr (by simp [hx]))
    · simp only [ht.cap]; exact h.capacity

omit [BEq K] in
theorem Chain.walk_suffix (h : Chain m (l ++ l')) (i : Nat) : m.walk i l'.head? = l'[i]? := by
  induction i generalizing l l' with
  | zero => rw [walk, List.head?_eq_getElem?]
  | succ i ih =>
    cases l' with
    | nil => rfl
    | cons a l' =>
      rw [List.head?_cons, walk, h.next_eq, List.getElem?_cons_succ]
      exact ih (l := l ++ [a]) (by rwa [List.append_assoc])

theorem Shows.any_get (h : Shows m L P) (i : Nat) (key : K) :
    P[i]?.any (fun p => p.1 == key) = L[i]?.any (fun item => item.key == key) := by
  have := congrArg (fun l => l[i]?.any (fun k => k == key)) h.keys
  simpa only [List.getElem?_map, Option.any_map] using this

theorem has_eq_false (h : Shows m L P) {key : K} (hall : ∀ item ∈ L, (item.key == key) = false) :
    has P key = false := by
  rw [← Bool.not_eq_true, has_iff h]
  rintro ⟨t, ht, hk⟩
  rw [hall t ht] at hk; cases hk

/-- The item of a key stands at a position when the key does. -/
theorem Ordered.get_iff (h : Ordered makeHashVal m L P) {key : K} [EquivBEq K] {t : Item K} (ht : t ∈ L)
    (hk : (t.key == key) = true) (i : Nat) : P[i]?.any (fun p => p.1 == key) = true ↔ L[i]? = some t := by
  rw [h.shows.any_get]
  cases hi : L[i]? with
  | none => simp
  | some x =>
    rw [Option.any_some, Option.some.injEq]
    constructor
    · intro hx
      exact h.distinct.eq_of_beq (List.mem_of_getElem? hi) ht (BEq.trans hx (BEq.symm hk))
    · rintro rfl; exact hk

theorem Ordered.findItem (h : Ordered makeHashVal m L P) (h0 : index ≠ 0) (hi : index ≤ m.size) :
    ∃ l item l', L = l ++ item :: l' ∧ l.length + 1 = index ∧ m.findItem (index - 1) = .ok item := by
  have hlt : index - 1 < L.length := by rw [h.size]; omega
  have hget := List.getElem?_eq_getElem hlt
  refine ⟨_, _, _, Linked.split_of_get hget, by rw [List.length_take]; omega, ?_⟩
  have hw := Chain.walk_suffix (l := []) h.chain (index - 1)
  unfold OrderedHashMap.findItem
  rw [if_neg (by rw [← h.size]; omega), h.chain.head, hw, hget]

variable (makeHashVal) in
/-- The operation ends with the reply, in a map that stands for the sequence. -/
def Gives {β : Type} (r : Except Fault (OrderedHashMap K V × Except Exc β)) (P : List (K × V)) (reply : Except Exc β) :
    Prop :=
  ∃ m L, r = .ok (m, reply) ∧ Ordered makeHashVal m L P

theorem Ordered.gives {β : Type} (h : Ordered makeHashVal m L P) (reply : Except Exc β) :
    Gives makeHashVal (.ok (m, reply)) P reply :=
  ⟨m, L, rfl, h⟩

theorem Gives.map {β γ : Type} {r : Except Fault (OrderedHashMap K V × Except Exc β)} {reply : Except Exc β}
    (h : Gives makeHashVal r P reply) (f : β → γ) :
    Gives makeHashVal (do let (m, r) ← r; return (m, r.map f)) P (reply.map f) := by
  obtain ⟨m', L', rfl, h'⟩ := h
  exact ⟨m', L', rfl, h'⟩

section

variable [EquivBEq K] {key : K} {value : V} (hhash : ∀ a b : K, (a == b) = true → makeHashVal a = makeHashVal b)

theorem Ordered.setVal (h : Ordered makeHashVal m L P) (hi : item ∈ L) (hk : (item.key == key) = true) :
    Ordered makeHashVal (m.setVal item value) L (replaceVal P key value) := by
  refine ⟨⟨h.chain.addrs, h.chain.fresh, h.chain.head, h.chain.tail, h.chain.links⟩, ?_, h.sound, h.perm, h.size,
    h.distinct, h.hash, h.capacity⟩
  have hmap : (replaceVal P key value).map (fun p => (p.1, some p.2)) =
      (P.map (fun p => (p.1, some p.2))).map (fun q => if q.1 == key then (q.1, some value) else q) := by
    unfold replaceVal
    rw [List.map_map, List.map_map]
    refine List.map_congr_left (fun p _ => ?_)
    simp only [Function.comp_apply]
    split <;> rfl
  unfold Shows
  rw [hmap, h.shows, List.map_map]
  refine List.map_congr_left (fun x hx => ?_)
  simp only [Function.comp_apply, OrderedHashMap.setVal]
  by_cases hxk : (x.key == key) = true
  · rw [if_pos hxk, h.distinct.eq_of_beq hx hi (BEq.trans hxk (BEq.symm hk)), Function.update_self]
  · have hne : x.addr ≠ item.addr := fun he => hxk (by rw [h.chain.addr_inj hx hi he]; exact hk)
    rw [if_neg hxk, Function.update_of_ne hne]

/-- A new item in the list and in the table. -/
theorem Ordered.link (h : Ordered makeHashVal m (l ++ l') P) (ht : SameTable m m')
    (hv : m'.val = Function.update m.val m.fresh (some value))
    (hc : Chain m' (l ++ ⟨m.fresh, makeHashVal key, key⟩ :: l'))
    (hnew : ∀ x ∈ l ++ l', (x.key == key) = false) (hg : GrowthOk m)
    (hf : FirstStop m.cap (stops view m.items key) (makeHashVal key % m.cap) slot) :
    Gives makeHashVal (OrderedHashMap.setItemNew m' slot ⟨m.fresh, makeHashVal key, key⟩)
      (P.take l.length ++ (key, value) :: P.drop l.length) (.ok ()) := by
  have hshows := h.shows.insert (makeHashVal key) key h.chain l.length hv
  rw [List.take_left, List.drop_left] at hshows
  obtain ⟨m'', he, h''⟩ := h.setItemNew ht hc hshows List.perm_middle hnew rfl hg hf
  exact ⟨m'', _, he, h''⟩

include hhash in
theorem Ordered.append (h : Ordered makeHashVal m L P) (hg : has P key = false → GrowthOk m) :
    Gives makeHashVal (append m makeHashVal key value)
      (if has P key then replaceVal P key value else P ++ [(key, value)]) (.ok value) := by
  obtain ⟨i, he, hf, hs, hi⟩ := h.findSlot_eq hhash key
  rcases hi with ⟨t, htm, hit, hk⟩ | ⟨hn, hall⟩
  · rw [hit] at hs
    rw [append_present he hs, if_pos ((has_iff h.shows key).mpr ⟨t, htm, hk⟩)]
    exact (h.setVal htm hk).gives _
  · have hno := has_eq_false h.shows hall
    rw [hn] at hs
    rw [append_absent he hs, hno, if_neg (by simp)]
    have h' : Ordered makeHashVal m (L ++ []) P := by rwa [List.append_nil]
    have hl := h'.link linkTail_table linkTail_val (linkTail_chain (makeHashVal key) key value h.chain)
      (by rwa [List.append_nil]) (hg hno) hf
    rw [← h.shows.length, List.take_length, List.drop_length] at hl
    exact hl.map _

variable [ToString K]

include hhash in
/-- An item that leaves the list and the table. -/
theorem Ordered.unlink (h : Ordered makeHashVal m (l ++ item :: l') P) (ht : SameTable m m') (hv : m'.val = m.val)
    (hc : Chain m' (l ++ l')) :
    Gives makeHashVal (OrderedHashMap.deleteHash m' makeHashVal item.key) (P.eraseIdx l.length) (.ok ()) := by
  have hshows := h.shows.remove l.length (l.length + 1) hv
  rw [List.take_left, ← List.drop_drop, List.drop_left, List.drop_one, List.tail_cons,
    ← List.eraseIdx_eq_take_drop_succ] at hshows
  obtain ⟨m'', he, h''⟩ := h.deleteHash hhash ht hc hshows List.perm_middle
  exact ⟨m'', _, he, h''⟩

include hhash in
theorem Ordered.pushHead (h : Ordered makeHashVal m L P) (hg : has P key = false → GrowthOk m) :
    Gives makeHashVal (pushHead m makeHashVal key value) (specPushHead P key value).1
      ((specPushHead P key value).2.map (fun _ => value)) := by
  obtain ⟨i, he, hf, hs, hi⟩ := h.findSlot_eq hhash key
  unfold specPushHead
  rcases hi with ⟨t, htm, hit, hk⟩ | ⟨hn, hall⟩
  · rw [hit] at hs
    rw [pushHead_present he hs, if_pos ((has_iff h.shows key).mpr ⟨t, htm, hk⟩), List.head?_eq_getElem?]
    have hhead : (m.prev t.addr).isNone = true ↔ L[0]? = some t := by
      obtain ⟨l, l', rfl⟩ := List.append_of_mem htm
      rw [h.chain.prev_eq, Option.isNone_iff_eq_none, List.getLast?_eq_none_iff, ← List.head?_eq_getElem?]
      constructor
      · rintro rfl; rfl
      · intro hl
        cases l with
        | nil => rfl
        | cons a l =>
          cases hl
          exact absurd (List.mem_append_right l (by simp)) (List.nodup_cons.mp h.chain.nodup).1
    by_cases hp : (m.prev t.addr).isNone = true
    · rw [if_pos hp, if_pos ((h.get_iff htm hk 0).mpr (hhead.mp hp))]
      exact (h.setVal htm hk).gives _
    · rw [if_neg hp, if_neg (fun hany => hp (hhead.mpr ((h.get_iff htm hk 0).mp hany)))]
      exact h.gives _
  · have hno := has_eq_false h.shows hall
    rw [hn] at hs
    rw [pushHead_absent he hs, hno, if_neg (by simp)]
    exact (Ordered.link (l := []) h linkHead_table linkHead_val (linkHead_chain (makeHashVal key) key value h.chain) hall (hg hno) hf).map _

include hhash in
theorem Ordered.insert (h : Ordered makeHashVal m L P) (hg : has P key = false → index ≤ P.length → GrowthOk m)
    (hend : has P key = false → index ≠ 0 → index ≠ P.length) :
    Gives makeHashVal (insert m makeHashVal index key value) (specInsert P index key value).1
      (specInsert P index key value).2 := by
  have hlen : P.length = m.size := by rw [h.shows.length, h.size]
  unfold specInsert
  by_cases h0 : index = 0
  · obtain ⟨m', L', he, h'⟩ := h.pushHead hhash (fun hno => hg hno (by omega))
    rw [if_pos h0, OrderedHashMap.insert, if_pos h0, he]
    refine ⟨m', L', ?_, h'⟩
    cases (specPushHead P key value).2 <;> rfl
  by_cases hi : index > m.size
  · rw [OrderedHashMap.insert, hlen, if_neg h0, if_neg h0, if_pos hi, if_pos hi]
    exact h.gives _
  rw [if_neg h0, hlen, if_neg hi]
  obtain ⟨l, item, l', rfl, hl, hfi⟩ := h.findItem h0 (Nat.le_of_not_lt hi)
  have hget : (l ++ item :: l')[index]? = l'.head? := by
    rw [← hl, List.getElem?_append_right (by omega), Nat.add_sub_cancel_left, List.getElem?_cons_succ,
      List.head?_eq_getElem?]
  obtain ⟨i, he, hf, hs, hx⟩ := h.findSlot_eq hhash key
  rcases hx with ⟨t, htm, hit, hk⟩ | ⟨hn, hall⟩
  · rw [hit] at hs
    rw [insert_present he h0 (Nat.le_of_not_lt hi) hfi hs, if_pos ((has_iff h.shows key).mpr ⟨t, htm, hk⟩),
      h.chain.next_eq]
    have hsame : same l'.head? (some t) = true ↔ l'.head? = some t := by
      cases hh : l'.head? with
      | none => simp [same]
      | some x =>
        have hxm : x ∈ l ++ item :: l' := by simp [List.mem_of_head? hh]
        rw [h.chain.same_iff hxm htm, Option.some.injEq]
    have hany := h.get_iff htm hk index
    rw [hget] at hany
    by_cases hp : same l'.head? (some t) = true
    · rw [if_pos hp, if_pos (hany.mpr (hsame.mp hp))]
      exact (h.setVal htm hk).gives _
    · rw [if_neg hp, if_neg (fun ha => hp (hsame.mpr (hany.mp ha)))]
      exact h.gives _
  · have hno := has_eq_false h.shows hall
    rw [hn] at hs
    have hne : l' ≠ [] := by
      rintro rfl
      refine hend hno h0 ?_
      rw [h.shows.length, List.length_append]
      simp only [List.length_cons, List.length_nil]
      omega
    have hsame : same l'.head? none ≠ true := by
      cases l' with
      | nil => exact absurd rfl hne
      | cons a l' => simp [same]
    rw [insert_absent he h0 (Nat.le_of_not_lt hi) hfi hs, h.chain.next_eq, if_neg hsame, hno, if_neg (by simp)]
    have hsplit : ∀ l'' : List (Item K), l ++ item :: l'' = (l ++ [item]) ++ l'' := by simp
    have hc := linkAfter_chain (makeHashVal key) key value h.chain
    rw [hsplit] at h hc hall
    have hlk := h.link linkAfter_table linkAfter_val hc hall (hg hno (by omega)) hf
    rwa [List.length_append, List.length_singleton, hl] at hlk

include hhash in
theorem Ordered.popHead (h : Ordered makeHashVal m (item :: l) P) :
    Gives makeHashVal (popHead m makeHashVal) P.tail (.ok item) := by
  have hd := Ordered.unlink (l := []) hhash h unlinkHead_table unlinkHead_val (unlinkHead_chain h.chain)
  have hhead : m.head = some item := h.chain.head
  rw [List.length_nil, List.eraseIdx_zero] at hd
  rw [OrderedHashMap.popHead, hhead]
  exact hd.map (fun _ => item)

omit [EquivBEq K] in
theorem Ordered.popHead_nil (h : Ordered makeHashVal m [] P) :
    Gives makeHashVal (OrderedHashMap.popHead m makeHashVal) P
      (.error (.invalidArgumentError "Attempting to pop from an empty list")) := by
  have hhead : m.head = none := h.chain.head
  rw [OrderedHashMap.popHead, hhead]
  exact h.gives _

include hhash in
theorem Ordered.popTail (h : Ordered makeHashVal m (l ++ [item]) P) :
    Gives makeHashVal (popTail m makeHashVal) P.dropLast (.ok item) := by
  have hc := unlinkTail_chain h.chain
  rw [← List.append_nil l] at hc
  have hd := h.unlink hhash unlinkTail_table unlinkTail_val hc
  have htail : m.tail = some item := by rw [h.chain.tail, List.getLast?_concat]
  have hlen : l.length = P.length - 1 := by
    rw [h.shows.length, List.length_append, List.length_singleton, Nat.add_sub_cancel]
  rw [hlen, List.eraseIdx_length_sub_one] at hd
  rw [OrderedHashMap.popTail, htail]
  exact hd.map (fun _ => item)

omit [EquivBEq K] in
theorem Ordered.popTail_nil (h : Ordered makeHashVal m [] P) :
    Gives makeHashVal (OrderedHashMap.popTail m makeHashVal) P
      (.error (.invalidArgumentError "Attempting to pop from an empty list")) := by
  have htail : m.tail = none := h.chain.tail
  rw [OrderedHashMap.popTail, htail]
  exact h.gives _

omit [EquivBEq K] [ToString K] in
theorem eraseP_eq_eraseIdx (hP : P.map Prod.fst = (l ++ item :: l').map Item.key) (hk : (item.key == key) = true)
    (hl : ∀ x ∈ l, (x.key == key) = false) : P.eraseP (fun p => p.1 == key) = P.eraseIdx l.length := by
  induction l generalizing P with
  | nil =>
    cases P with
    | nil => cases hP
    | cons p P =>
      have hp : p.1 = item.key := (List.cons.inj hP).1
      rw [List.eraseP_cons_of_pos (by rw [hp]; exact hk)]
      rfl
  | cons a l ih =>
    cases P with
    | nil => cases hP
    | cons p P =>
      obtain ⟨hp, hP⟩ := List.cons.inj hP
      have hne : ¬ (p.1 == key) = true := by rw [hp, hl a (by simp)]; simp
      rw [List.eraseP_cons_of_neg (by exact hne), ih hP (fun x hx => hl x (by simp [hx]))]
      rfl

include hhash in
theorem Ordered.deleteKey (h : Ordered makeHashVal m L P) :
    Gives makeHashVal (deleteKey m makeHashVal key) (specDeleteKey P key).1 (specDeleteKey P key).2 := by
  obtain ⟨i, he, hf, hs, hi⟩ := h.findSlot_eq hhash key
  unfold specDeleteKey
  rcases hi with ⟨item, hm, hit, hk⟩ | ⟨hn, hall⟩
  · rw [hit] at hs
    rw [if_pos ((has_iff h.shows key).mpr ⟨item, hm, hk⟩)]
    obtain ⟨l, l', rfl⟩ := List.append_of_mem hm
    have hd := List.pairwise_append.mp h.distinct
    have hl : ∀ x ∈ l, (x.key == key) = false := by
      intro x hx
      by_contra hxk
      rw [Bool.not_eq_false] at hxk
      have := (hd.2.2 x hx item (by simp)).1
      rw [BEq.trans hxk (BEq.symm hk)] at this
      cases this
    rw [eraseP_eq_eraseIdx h.shows.keys hk hl]
    have hlen : P.length = l.length + (l'.length + 1) := by
      rw [h.shows.length, List.length_append, List.length_cons]
    simp only [OrderedHashMap.deleteKey, he, hs, bind, Except.bind, h.chain.is_tail, h.chain.is_head]
    by_cases hl' : l' = []
    · subst hl'
      have hp := (h.popTail hhash).map (fun _ => ())
      rw [if_pos rfl]
      rwa [← List.eraseIdx_length_sub_one, hlen, List.length_nil, Nat.zero_add, Nat.add_sub_cancel] at hp
    by_cases hl₁ : l = []
    · subst hl₁
      rw [if_neg hl', if_pos rfl, List.length_nil, List.eraseIdx_zero]
      exact Gives.map (h.popHead hhash) (fun _ => ())
    obtain ⟨n, l₂, rfl⟩ := List.exists_cons_of_ne_nil hl'
    obtain ⟨p, hp⟩ := Option.ne_none_iff_exists'.mp (mt List.getLast?_eq_none_iff.mp hl₁)
    obtain ⟨l₁, rfl⟩ := List.getLast?_eq_some_iff.mp hp
    rw [if_neg hl', if_neg hl₁, h.chain.prev_eq, h.chain.next_eq, hp, List.head?_cons]
    have hc : Chain m (l₁ ++ p :: item :: n :: l₂) := by simpa using h.chain
    have hu := unlinkBetween_chain hc
    exact h.unlink hhash unlinkBetween_table rfl (by simpa using hu)
  · have hno := has_eq_false h.shows hall
    rw [hn] at hs
    simp only [OrderedHashMap.deleteKey, he, hs, bind, Except.bind, hno]
    exact h.gives _

include hhash in
theorem Ordered.delete (h : Ordered makeHashVal m L P) (hend : index ≠ 0 → index ≠ P.length) :
    Gives makeHashVal (delete m makeHashVal index) (specDelete P index).1 (specDelete P index).2 := by
  have hlen : P.length = m.size := by rw [h.shows.length, h.size]
  unfold specDelete
  by_cases h0 : index = 0
  · subst h0
    rw [OrderedHashMap.delete, if_neg (by omega), h.chain.head]
    cases L with
    | nil =>
      rw [if_neg (by rw [h.shows.length]; simp)]
      exact h.gives _
    | cons item l =>
      rw [if_pos (by rw [h.shows.length]; simp), List.eraseIdx_zero]
      exact (h.popHead hhash).map (fun _ => ())
  rw [OrderedHashMap.delete, if_pos (Nat.pos_of_ne_zero h0)]
  by_cases hi : index > m.size
  · rw [if_pos hi, if_neg (by omega)]
    exact h.gives _
  rw [if_neg hi, if_pos (by have := hend h0; omega)]
  obtain ⟨l, item, l', rfl, hl, hfi⟩ := h.findItem h0 (Nat.le_of_not_lt hi)
  have hl' := h.shows.length
  rw [List.length_append, List.length_cons] at hl'
  cases l' with
  | nil => exact absurd (by rw [hl', ← hl]; rfl) (hend h0)
  | cons found l' =>
    have hnext : m.next item.addr = some found := h.chain.next_eq
    simp only [hfi, hnext]
    have hc := unlinkAfter_chain h.chain
    have hsplit : ∀ l'' : List (Item K), l ++ item :: l'' = (l ++ [item]) ++ l'' := by simp
    rw [hsplit] at h hc
    have hd := h.unlink hhash unlinkAfter_table unlinkAfter_val hc
    rwa [List.length_append, List.length_singleton, hl] at hd

end

end OrderedHashMap

end Crack
