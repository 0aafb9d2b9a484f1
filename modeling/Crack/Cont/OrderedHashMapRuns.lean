import Crack.Cont.OrderedHashMapRefines

/-!
# Runs of an OrderedHashMap

In every state that a run leads to, the item list and the slot table hold the
same items, in the order of the sequence that the operations make.
-/
namespace Crack

open Probing (live)
open KeyedList (Distinct)

namespace OrderedHashMap

variable {K V : Type} [BEq K] {makeHashVal : K → Nat} {m : OrderedHashMap K V} {L l l' : List (Item K)}
  {P : List (K × V)}

section

variable [ToString K]

variable (makeHashVal) in
/-- A new key does not grow the table to its last bucket count, and nothing is
inserted or deleted at the end of a list that is not empty. -/
def StepOk (m : OrderedHashMap K V) : Update K V → Prop
  | .append key _ | .pushHead key _ => getItem m makeHashVal key = .ok none → GrowthOk m
  | .insert index key _ =>
    getItem m makeHashVal key = .ok none → (index ≤ m.size → GrowthOk m) ∧ (index ≠ 0 → index ≠ m.size)
  | .popHead | .popTail | .deleteKey _ => True
  | .delete index => index ≠ 0 → index ≠ m.size

variable (makeHashVal) in
/-- Every update of the run is so at the state where it is made. -/
def StepsOk : OrderedHashMap K V → List (Update K V) → Prop
  | _, [] => True
  | m, u :: us => StepOk makeHashVal m u ∧ ∀ m' r, update makeHashVal m u = .ok (m', r) → StepsOk m' us

/-- What a program can observe of the map is the list `L` of its items, and the sequence `P`. -/
structure Behaves (makeHashVal : K → Nat) (m : OrderedHashMap K V) (L : List (Item K)) (P : List (K × V)) :
    Prop where
  sameItems : (live m.cap m.items).Perm L
  head : m.head = L.head?
  tail : m.tail = L.getLast?
  ends : (∀ a, m.head = some a → m.prev a.addr = none) ∧ ∀ a, m.tail = some a → m.next a.addr = none
  inverse : ∀ a ∈ L, ∀ b ∈ L, m.next a.addr = some b ↔ m.prev b.addr = some a
  counted : count m = L.length
  found : ∀ item ∈ L, getItem m makeHashVal item.key = .ok (some item)
  absent : ∀ key, (∀ item ∈ L, (item.key == key) = false) → getItem m makeHashVal key = .ok none
  iterated : elems m = .ok L
  order : P.map (fun p => (p.1, some p.2)) = L.map (fun item => (item.key, m.val item.addr))
  insertRange : ∀ index key value, count m < index →
    insert m makeHashVal index key value = .ok (m, .error (.indexError "Index out of range in insert()"))
  deleteRange : ∀ index, count m < index ∨ count m = 0 ∧ index = 0 →
    delete m makeHashVal index = .ok (m, .error (.indexError "Index out of range in delete()"))

variable (hhash : ∀ a b : K, (a == b) = true → makeHashVal a = makeHashVal b)

omit [BEq K] [ToString K] in
theorem Chain.inverse (h : Chain m L) {a b : Item K} (ha : a ∈ L) (hb : b ∈ L) :
    m.next a.addr = some b ↔ m.prev b.addr = some a := by
  constructor
  · intro hn
    obtain ⟨l, l', rfl⟩ := List.append_of_mem ha
    rw [h.next_eq, List.head?_eq_some_iff] at hn
    obtain ⟨l₂, rfl⟩ := hn
    have h' : Chain m ((l ++ [a]) ++ b :: l₂) := by simpa using h
    rw [h'.prev_eq, List.getLast?_concat]
  · intro hp
    obtain ⟨l, l', rfl⟩ := List.append_of_mem hb
    rw [h.prev_eq, List.getLast?_eq_some_iff] at hp
    obtain ⟨l₁, rfl⟩ := hp
    have h' : Chain m (l₁ ++ a :: b :: l') := by simpa using h
    rw [h'.next_eq, List.head?_cons]

omit [BEq K] [ToString K] in
theorem Chain.elemsFrom (h : Chain m (l ++ l')) {n : Nat} (hn : l'.length ≤ n) :
    m.elemsFrom n l'.head? = .ok l' := by
  induction l' generalizing l n with
  | nil => cases n <;> rfl
  | cons a l' ih =>
    cases n with
    | zero => cases hn
    | succ n =>
      have h' : Chain m ((l ++ [a]) ++ l') := by simpa using h
      rw [List.head?_cons, OrderedHashMap.elemsFrom, h.next_eq, ih h' (by simpa using hn)]
      rfl

omit [BEq K] [ToString K] in
/-- There are no more items in the list than there are addresses. -/
theorem Chain.length_le (h : Chain m L) : L.length ≤ m.fresh := by
  have hsub : L.map Item.addr ⊆ List.range m.fresh := by
    intro n hn
    obtain ⟨item, hi, rfl⟩ := List.mem_map.mp hn
    exact List.mem_range.mpr (h.fresh item hi)
  simpa using (List.subperm_of_subset h.addrs hsub).length_le

include hhash in
omit [ToString K] in
theorem Ordered.getItem_eq (h : Ordered makeHashVal m L P) (key : K) :
    (∃ item ∈ L, (item.key == key) = true ∧ getItem m makeHashVal key = .ok (some item)) ∨
      (∀ item ∈ L, (item.key == key) = false) ∧ getItem m makeHashVal key = .ok none := by
  obtain ⟨i, he, _, hs, hi⟩ := h.findSlot_eq hhash key
  simp only [OrderedHashMap.getItem, he, bind, Except.bind, hs]
  rcases hi with ⟨item, hm, hit, hk⟩ | ⟨hn, hall⟩
  · exact .inl ⟨item, hm, hk, by rw [hit]⟩
  · exact .inr ⟨hall, by rw [hn]⟩

include hhash in
theorem Ordered.behaves [EquivBEq K] (h : Ordered makeHashVal m L P) : Behaves makeHashVal m L P := by
  have hlen : count m = L.length := h.size.symm
  refine ⟨h.perm, h.chain.head, h.chain.tail, ⟨fun a ha => ?_, fun a ha => ?_⟩,
    fun a ha b hb => h.chain.inverse ha hb, hlen, fun item hi => ?_, fun key hall => ?_, ?_, h.shows,
    fun index key value hi => ?_, fun index hi => ?_⟩
  · rw [h.chain.head, List.head?_eq_some_iff] at ha
    obtain ⟨l, rfl⟩ := ha
    exact Chain.prev_eq (l := []) h.chain
  · rw [h.chain.tail, List.getLast?_eq_some_iff] at ha
    obtain ⟨l, rfl⟩ := ha
    exact h.chain.next_eq
  · rcases h.getItem_eq hhash item.key with ⟨x, hx, hk, hg⟩ | ⟨hall, _⟩
    · rw [hg, h.distinct.eq_of_beq hx hi hk]
    · have := hall item hi
      rw [BEq.refl] at this; cases this
  · rcases h.getItem_eq hhash key with ⟨x, hx, hk, _⟩ | ⟨_, hg⟩
    · rw [hall x hx] at hk; cases hk
    · exact hg
  · rw [OrderedHashMap.elems, h.chain.head]
    exact Chain.elemsFrom (l := []) h.chain h.chain.length_le
  · unfold count at hi
    rw [OrderedHashMap.insert, if_neg (by omega), if_pos hi]
    rfl
  · unfold count at hi
    by_cases h0 : index = 0
    · have hnil : L = [] := by
        rw [← List.length_eq_zero_iff, h.size]
        omega
      have hhead : m.head = none := by rw [h.chain.head, hnil]; rfl
      rw [OrderedHashMap.delete, if_neg (by omega), hhead]
      rfl
    · rw [OrderedHashMap.delete, if_pos (by omega), if_pos (by omega)]
      rfl

end

section

variable [ToString K] [EquivBEq K] (hhash : ∀ a b : K, (a == b) = true → makeHashVal a = makeHashVal b)

include hhash

omit [EquivBEq K] [ToString K] in
theorem Ordered.absent (h : Ordered makeHashVal m L P) {key : K} (hno : has P key = false) :
    getItem m makeHashVal key = .ok none := by
  rcases h.getItem_eq hhash key with ⟨x, hx, hk, _⟩ | ⟨_, hg⟩
  · rw [(has_iff h.shows key).mpr ⟨x, hx, hk⟩] at hno; cases hno
  · exact hg

/-- One update does to the map what it does to the sequence. -/
theorem Ordered.update (h : Ordered makeHashVal m L P) (u : Update K V) (hok : StepOk makeHashVal m u) :
    Gives makeHashVal (update makeHashVal m u) (specUpdate P u).1 (specUpdate P u).2 := by
  have hlen : P.length = m.size := by rw [h.shows.length, h.size]
  cases u with
  | append key value =>
    exact (h.append hhash (fun hno => hok (h.absent hhash hno))).map (fun _ => none)
  | pushHead key value =>
    obtain ⟨m', L', he, h'⟩ := h.pushHead hhash (fun hno => hok (h.absent hhash hno))
    refine ⟨m', L', ?_, h'⟩
    rw [OrderedHashMap.update, he, specUpdate]
    cases (specPushHead P key value).2 <;> rfl
  | insert index key value =>
    refine (h.insert hhash (fun hno hi => ?_) (fun hno => ?_)).map (fun _ => none)
    · exact (hok (h.absent hhash hno)).1 (by omega)
    · rw [hlen]; exact (hok (h.absent hhash hno)).2
  | popHead =>
    cases L with
    | nil =>
      have hP : P = [] := List.length_eq_zero_iff.mp h.shows.length
      subst hP
      exact h.popHead_nil.map _
    | cons item l =>
      obtain ⟨v, hp, _⟩ := h.shows.get (i := 0) rfl
      rw [← List.head?_eq_getElem?] at hp
      rw [specUpdate, hp]
      exact (h.popHead hhash).map (fun item => some item.key)
  | popTail =>
    cases hl : L.getLast? with
    | none =>
      rw [List.getLast?_eq_none_iff] at hl
      subst hl
      have hP : P = [] := List.length_eq_zero_iff.mp h.shows.length
      subst hP
      exact h.popTail_nil.map _
    | some item =>
      obtain ⟨v, hp, _⟩ := h.shows.get (i := L.length - 1) (by rw [← List.getLast?_eq_getElem?, hl])
      rw [← h.shows.length, ← List.getLast?_eq_getElem?] at hp
      obtain ⟨l, rfl⟩ := List.getLast?_eq_some_iff.mp hl
      rw [specUpdate, hp]
      exact (h.popTail hhash).map (fun item => some item.key)
  | deleteKey key => exact (h.deleteKey hhash).map (fun _ => none)
  | delete index =>
    exact (h.delete hhash (fun h0 => by rw [hlen]; exact hok h0)).map (fun _ => none)

theorem Ordered.run (us : List (Update K V)) (h : Ordered makeHashVal m L P) (hok : StepsOk makeHashVal m us) :
    ∃ m' L', run makeHashVal m us = .ok (m', (specRun P us).2) ∧ Ordered makeHashVal m' L' (specRun P us).1 := by
  induction us generalizing m L P with
  | nil => exact ⟨m, L, rfl, h⟩
  | cons u us ih =>
    obtain ⟨m₁, L₁, he₁, h₁⟩ := h.update hhash u hok.1
    obtain ⟨m₂, L₂, he₂, h₂⟩ := ih h₁ (hok.2 m₁ _ he₁)
    refine ⟨m₂, L₂, ?_, h₂⟩
    rw [OrderedHashMap.run, he₁]
    simp only [bind, Except.bind, he₂]
    rfl

end

/-- A run that neither inserts nor deletes at the end of its list behaves like a
run on a sequence of pairs, reply by reply. -/
theorem run_ordered [ToString K] [EquivBEq K] (makeHashVal : K → Nat)
    (hhash : ∀ a b : K, (a == b) = true → makeHashVal a = makeHashVal b) (us : List (Update K V))
    (hok : StepsOk makeHashVal init us) :
    ∃ m L, run makeHashVal init us = .ok (m, (specRun [] us).2) ∧ Behaves makeHashVal m L (specRun [] us).1 := by
  obtain ⟨m, L, he, h⟩ := Ordered.run hhash us init_ordered hok
  exact ⟨m, L, he, h.behaves hhash⟩

theorem few_steps_ok :
    StepsOk (fun k : Nat => k) init [.append 1 10, .pushHead 17 20, .insert 1 3 30, .delete 0] := by
  refine ⟨fun _ hex => absurd hex (by decide), fun m r he => ?_⟩
  cases he
  refine ⟨fun _ hex => absurd hex (by decide), fun m r he => ?_⟩
  cases he
  refine ⟨fun _ => ⟨fun _ hex => absurd hex (by decide), fun _ => by decide⟩, fun m r he => ?_⟩
  cases he
  exact ⟨fun h0 => absurd rfl h0, fun _ _ _ => trivial⟩

theorem few_ordered :
    ∃ (m : OrderedHashMap Nat Nat) (L : List (Item Nat)),
      run (fun k => k) init [.append 1 10, .pushHead 17 20, .insert 1 3 30, .delete 0] =
        .ok (m, [.ok none, .ok none, .ok none, .ok none]) ∧
      Behaves (fun k => k) m L [(3, 30), (1, 10)] :=
  run_ordered (fun k : Nat => k) (fun a b h => by simpa using h) _ few_steps_ok

/-- `insert` with the index of the end and a new key takes the missing item there
for the item of the key; `delete` reads the links of the item that is missing there. -/
theorem end_faults :
    run (fun k : Nat => k) init [.append 1 10, .insert 1 2 20] = .error .nullDereference ∧
      specRun [] [.append 1 10, .insert 1 2 20] = ([(1, 10), (2, 20)], [.ok none, .ok none]) ∧
      run (V := Nat) (fun k : Nat => k) init [.append 1 10, .delete 1] = .error .nullDereference ∧
      specRun [] [.append 1 10, .delete 1] =
        ([(1, 10)], [.ok none, .error (.indexError "Index out of range in delete()")]) := by
  refine ⟨rfl, rfl, rfl, rfl⟩

end OrderedHashMap

end Crack
