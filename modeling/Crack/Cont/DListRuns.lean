import Crack.Cont.DListRefines

/-!
# Runs of a DList

The operations on a sequence whose elements have names, so that an iterator can
refer to one, and what a program can see of a list that a run leads to.
-/
namespace Crack

namespace DList

variable {α : Type} [BEq α] {m : DList α}

/-- A sequence of named elements and the next name. -/
structure Named (α : Type) where
  items : List (Nat × α)
  fresh : Nat
  deriving DecidableEq, Repr

namespace Named

def init : Named α := ⟨[], 0⟩

variable (s : Named α)

def insertIdx (index : Nat) (elem : α) : Named α := ⟨s.items.insertIdx index (s.fresh, elem), s.fresh + 1⟩
def eraseIdx (index : Nat) : Named α := ⟨s.items.eraseIdx index, s.fresh⟩

/-- Where an iterator is; off the end it is behind all elements. -/
def position : Option Nat → Nat
  | some name => (names s.items).idxOf name
  | none => s.items.length

end Named

/-- The operations on a sequence. -/
def specUpdate (s : Named α) : Update α → Named α × Except Exc (Reply α)
  | .append elem => (s.insertIdx s.items.length elem, .ok .done)
  | .pushHead elem => (s.insertIdx 0 elem, .ok .done)
  | .popHead =>
    match s.items.head? with
    | some p => (s.eraseIdx 0, .ok (.elem p.2))
    | none => (s, .error (.invalidArgumentError "Attempting to pop from an empty list"))
  | .popTail =>
    match s.items.getLast? with
    | some p => (s.eraseIdx (s.items.length - 1), .ok (.elem p.2))
    | none => (s, .error (.invalidArgumentError "Attempting to pop from an empty list"))
  | .insert index elem =>
    if index ≤ s.items.length then (s.insertIdx index elem, .ok .done)
    else (s, .error (.assertionError "List is shorter than its count."))
  | .delete index =>
    if index < s.items.length then (s.eraseIdx index, .ok .done)
    else (s, .error (.indexError "List index out of range in delete()"))
  | .remove elem =>
    match s.items.findIdx? (·.2 == elem) with
    | some index => (s.eraseIdx index, .ok (.removed true))
    | none => (s, .ok (.removed false))
  | .clear => (⟨[], s.fresh⟩, .ok .done)
  | .insertAt ix elem => (s.insertIdx (s.position ix) elem, .ok (.iter (some s.fresh)))
  | .deleteAt ix => (s.eraseIdx (s.position ix), .ok (.iter (names s.items)[s.position ix + 1]?))

def specRun (s : Named α) : List (Update α) → Named α × List (Except Exc (Reply α))
  | [] => (s, [])
  | u :: us =>
    let (s, r) := specUpdate s u
    let (s, rs) := specRun s us
    (s, r :: rs)

def specIndex (P : List α) (index : Nat) : Except Exc α :=
  match P[index]? with
  | some elem => .ok elem
  | none =>
    if index > P.length then .error (.indexError "List index out of range in []")
    else .error (.assertionError "List is shorter than its count.")

/-- The list stays shorter than a `uint` counts, nothing is deleted at the end of the
list, and an iterator refers to an element that is in the list. -/
def StepOk (s : Named α) : Update α → Prop
  | .append _ | .pushHead _ => s.items.length + 1 < 2 ^ 32
  | .insert index _ => index ≤ s.items.length → s.items.length + 1 < 2 ^ 32
  | .popHead | .popTail | .remove _ | .clear => True
  | .delete index => index ≠ s.items.length
  | .insertAt ix _ => s.items.length + 1 < 2 ^ 32 ∧ ∃ name ∈ names s.items, ix = some name
  | .deleteAt ix => ∃ name ∈ names s.items, ix = some name

/-- Every operation of the run is so on the sequence where it is made. -/
def StepsOk (s : Named α) : List (Update α) → Prop
  | [] => True
  | u :: us => StepOk s u ∧ StepsOk (specUpdate s u).1 us

/-- What a program can see of the list: its nodes from the head on are `L`, its elements are `P`. -/
structure Behaves (m : DList α) (L : List Nat) (P : List α) : Prop where
  nodes : m.nodes = .ok L
  distinct : L.Nodup
  counted : m.count = L.length
  head : m.head = L.head?
  tail : m.tail = L.getLast?
  empty : (m.head = none ↔ L = []) ∧ (m.tail = none ↔ L = [])
  inverse : ∀ a ∈ L, ∀ b ∈ L, m.next a = some b ↔ m.prev b = some a
  first : ∀ a, m.head = some a → m.prev a = none
  last : ∀ a, m.tail = some a → m.next a = none
  elems : P.map some = L.map m.elem
  index : ∀ index, m.index index = .ok (specIndex P index)

section

variable {S : List (Nat × α)}

omit [BEq α] in
theorem Holds.index (h : Holds m S) (index : Nat) : m.index index = .ok (specIndex (S.map Prod.snd) index) := by
  rw [DList.index, specIndex, h.findNode, h.count, List.length_map, List.getElem?_map]
  by_cases hi : index > S.length
  · have hnone : S[index]? = none := List.getElem?_eq_none (Nat.le_of_lt hi)
    rw [if_pos hi, hnone]
    dsimp only [Option.map_none]
    rw [if_pos hi]
    rfl
  · rw [if_neg hi]
    cases hS : S[index]? with
    | none =>
      dsimp only [Option.map_none]
      rw [if_neg hi]
      rfl
    | some p =>
      have he : m.elemOf p.1 = .ok p.2 := by rw [DList.elemOf, h.elems p (List.mem_of_getElem? hS)]
      simp only [he, bind, Except.bind]
      rfl

omit [BEq α] in
theorem Holds.behaves (h : Holds m S) : Behaves m (names S) (S.map Prod.snd) where
  nodes := nodesFrom_ok h.path (by rw [length_names]; exact h.length_le)
  distinct := h.nodup
  counted := by rw [h.count, length_names]
  head := h.head
  tail := h.tail
  empty := by
    rw [h.head, h.tail]
    exact ⟨List.head?_eq_none_iff, List.getLast?_eq_none_iff⟩
  inverse _ ha _ hb := h.links.inverse ha hb
  first a ha := h.links.prev_head (h.head ▸ ha)
  last a ha := h.links.next_last (h.tail ▸ ha)
  elems := by
    rw [names, List.map_map, List.map_map]
    apply List.map_congr_left
    intro p hp
    exact (h.elems p hp).symm
  index := h.index

end

variable {s : Named α} {index : Nat} {elem : α} {ix : Option Nat}

/-- The list is the sequence, and its next node has the next name. -/
structure Refines (m : DList α) (s : Named α) : Prop where
  holds : Holds m s.items
  fresh : m.fresh = s.fresh

/-- What an operation gives. -/
def Gives (r : Except Fault (DList α × Except Exc (Reply α))) (s : Named α × Except Exc (Reply α)) : Prop :=
  ∃ m, r = .ok (m, s.2) ∧ Refines m s.1

omit [BEq α] in
theorem fresh_append (elem : α) : (m.append elem).fresh = m.fresh + 1 := by
  rw [DList.append]
  split <;> rfl

omit [BEq α] in
theorem fresh_pushHead (elem : α) : (m.pushHead elem).fresh = m.fresh + 1 := by
  rw [DList.pushHead]
  split <;> rfl

omit [BEq α] in
theorem fresh_linkAfter (node : Nat) (elem : α) : (m.linkAfter node elem).plusOne.fresh = m.fresh + 1 := by
  rw [DList.linkAfter]
  cases m.next node <;> dsimp only <;> split <;> rfl

omit [BEq α] in
theorem fresh_unlink (node : Nat) : (m.unlink node).minusOne.fresh = m.fresh := by
  rw [minusOne_fresh, DList.unlink]
  cases m.next node <;> dsimp only <;> split <;> rfl

omit [BEq α] in
theorem Refines.unlink {S S' : List (Nat × α)} {node : Nat} (h : Refines m s)
    (hs : s.items = S ++ (node, elem) :: S') : Refines (m.unlink node).minusOne (s.eraseIdx S.length) := by
  have hh := h.holds
  rw [hs] at hh
  refine ⟨?_, (fresh_unlink node).trans h.fresh⟩
  rw [Named.eraseIdx, hs, Linked.eraseIdx_middle]
  exact hh.unlink

omit [BEq α] in
/-- What an index refers to, with what is around it. -/
theorem Named.split (hlt : index < s.items.length) :
    ∃ S node elem S', s.items = S ++ (node, elem) :: S' ∧ S.length = index := by
  obtain ⟨S, S', hs, hlen⟩ := Linked.exists_split (List.getElem?_eq_getElem hlt)
  exact ⟨S, _, _, S', hs, hlen⟩

theorem Refines.update_insert (h : Refines m s) (hok : StepOk s (.insert index elem)) :
    Gives (update m (.insert index elem)) (specUpdate s (.insert index elem)) := by
  rw [DList.update, DList.insert, specUpdate]
  by_cases h0 : index = 0
  · subst h0
    rw [if_pos (Nat.zero_le _), if_pos rfl]
    refine ⟨_, rfl, ?_, (fresh_pushHead elem).trans (congrArg (· + 1) h.fresh)⟩
    rw [Named.insertIdx, List.insertIdx_zero, ← h.fresh]
    exact h.holds.pushHead (hok (Nat.zero_le _))
  · obtain ⟨i, rfl⟩ := Nat.exists_eq_succ_of_ne_zero h0
    rw [if_neg h0, Nat.succ_eq_add_one, Nat.add_sub_cancel, h.holds.findNode]
    by_cases hi : i < s.items.length
    · obtain ⟨S, node, e, S', hs, rfl⟩ := Named.split hi
      have hh := h.holds
      have hsmall := hok hi
      rw [hs] at hh hsmall
      rw [if_pos (show S.length + 1 ≤ s.items.length from hi), List.getElem?_eq_getElem hi]
      have hget : s.items[S.length] = (node, e) := by simp [hs]
      rw [hget]
      refine ⟨_, rfl, ?_, (fresh_linkAfter node elem).trans (congrArg (· + 1) h.fresh)⟩
      have hins : (S ++ [(node, e)] ++ S').insertIdx (S ++ [(node, e)]).length (s.fresh, elem) = _ := Linked.insertIdx_middle
      rw [List.length_append, List.length_singleton, List.append_assoc, List.append_assoc] at hins
      rw [Named.insertIdx, hs]
      change Holds _ ((S ++ ([(node, e)] ++ S')).insertIdx (S.length + 1) (s.fresh, elem))
      rw [hins, ← h.fresh]
      exact hh.linkAfter hsmall
    · rw [if_neg (show ¬ i + 1 ≤ s.items.length from hi), List.getElem?_eq_none (Nat.le_of_not_lt hi)]
      exact ⟨m, rfl, h⟩

theorem Refines.update_delete (h : Refines m s) (hok : StepOk s (.delete index)) :
    Gives (update m (.delete index)) (specUpdate s (.delete index)) := by
  have hcount := h.holds.count
  rw [DList.update, DList.delete, specUpdate, hcount]
  by_cases hlt : index < s.items.length
  · have hle : ¬ index > s.items.length := Nat.not_lt_of_gt hlt
    obtain ⟨S, node, e, S', hs, rfl⟩ := Named.split hlt
    have hh := h.holds
    rw [hs] at hh
    rw [if_pos hlt, if_neg hle]
    by_cases h0 : 0 < S.length
    · obtain ⟨S, x, rfl⟩ : ∃ S₀ x, S = S₀ ++ [x] := by
        have hne := List.ne_nil_of_length_pos h0
        exact ⟨S.dropLast, S.getLast hne, (List.dropLast_append_getLast hne).symm⟩
      have hh' : Holds m (S ++ (x.1, x.2) :: (node, e) :: S') := by simpa using hh
      have hfind : m.findNode ((S ++ [x]).length - 1) = .ok x.1 := by
        rw [h.holds.findNode, hs]
        simp
      have hnext : m.next x.1 = some node := hh'.next_eq
      rw [if_pos h0, hfind]
      dsimp only
      rw [hnext]
      dsimp only
      rw [hh'.unlinkAfter_eq]
      exact ⟨_, rfl, h.unlink hs⟩
    · obtain rfl := List.length_eq_zero_iff.mp (Nat.eq_zero_of_not_pos h0)
      have hhead : m.head = some node := hh.head
      rw [if_neg h0, hhead]
      dsimp only
      rw [Holds.unlinkHead_eq hh]
      exact ⟨_, rfl, h.unlink hs⟩
  · have hgt : index > s.items.length := Nat.lt_of_le_of_ne (Nat.le_of_not_lt hlt) (Ne.symm hok)
    rw [if_pos hgt, if_neg hlt]
    exact ⟨m, rfl, h⟩

omit [BEq α] in
/-- An iterator in the list, with what is around it. -/
theorem Named.split_name {name : Nat} (hmem : name ∈ names s.items) :
    ∃ S elem S', s.items = S ++ (name, elem) :: S' ∧ s.position (some name) = S.length := by
  have hlt : (names s.items).idxOf name < s.items.length := by
    rw [← length_names]
    exact List.idxOf_lt_length_iff.mpr hmem
  obtain ⟨S, node, e, S', hs, hlen⟩ := Named.split hlt
  have hname : node = name := by
    have hget : (names s.items)[S.length]? = some name := by
      rw [hlen]
      exact List.getElem?_idxOf hmem
    rw [hs, names_append, names_cons, List.getElem?_append_right (by simp), length_names, Nat.sub_self] at hget
    exact Option.some.inj hget
  subst hname
  exact ⟨S, e, S', hs, hlen.symm⟩

theorem Refines.update_remove (h : Refines m s) (elem : α) :
    Gives (update m (.remove elem)) (specUpdate s (.remove elem)) := by
  have hfind := findElem_ok elem h.holds.path h.holds.elems h.holds.length_le
  rw [DList.update, DList.remove, specUpdate]
  cases hi : s.items.findIdx? (·.2 == elem) with
  | none =>
    have hnone : s.items.find? (·.2 == elem) = none := by
      rw [List.find?_eq_none]
      intro p hp
      simpa using List.findIdx?_eq_none_iff.mp hi p hp
    rw [hnone] at hfind
    simp only [hfind, bind, Except.bind]
    exact ⟨m, rfl, h⟩
  | some index =>
    obtain ⟨hlt, hp, hbefore⟩ := List.findIdx?_eq_some_iff_getElem.mp hi
    obtain ⟨S, node, e, S', hs, rfl⟩ := Named.split hlt
    have hget : s.items[S.length] = (node, e) := by simp [hs]
    have hsome : s.items.find? (·.2 == elem) = some (node, e) := by
      rw [List.find?_eq_some_iff_getElem]
      refine ⟨hget ▸ hp, S.length, hlt, hget, fun j hj => ?_⟩
      simpa using hbefore j hj
    have hh := h.holds
    rw [hs] at hh
    rw [hsome] at hfind
    simp only [hfind, bind, Except.bind, Option.map_some, hh.unlinkFound_eq]
    exact ⟨_, rfl, h.unlink hs⟩

theorem Refines.update_insertAt (h : Refines m s) (hok : StepOk s (.insertAt ix elem)) :
    Gives (update m (.insertAt ix elem)) (specUpdate s (.insertAt ix elem)) := by
  obtain ⟨hsmall, name, hmem, rfl⟩ := hok
  obtain ⟨S, e, S', hs, hpos⟩ := Named.split_name hmem
  have hh := h.holds
  rw [hs] at hh hsmall
  obtain ⟨m', he, h', hfresh⟩ := hh.insertAt elem hsmall
  rw [DList.update, specUpdate, he, hpos, ← h.fresh]
  refine ⟨m', rfl, ?_, hfresh.trans (congrArg (· + 1) h.fresh)⟩
  rw [Named.insertIdx, hs, Linked.insertIdx_middle, ← h.fresh]
  exact h'

theorem Refines.update_deleteAt (h : Refines m s) (hok : StepOk s (.deleteAt ix)) :
    Gives (update m (.deleteAt ix)) (specUpdate s (.deleteAt ix)) := by
  obtain ⟨name, hmem, rfl⟩ := hok
  obtain ⟨S, e, S', hs, hpos⟩ := Named.split_name hmem
  have hh := h.holds
  rw [hs] at hh
  have hnext : (m.unlink name).next name = (names s.items)[S.length + 1]? := by
    rw [hh.next_unlink, hs, names_append, names_cons]
    simp [List.getElem?_append_right, List.head?_eq_getElem?]
  rw [DList.update, specUpdate, hpos, ← hnext]
  exact ⟨_, rfl, h.unlink hs⟩

theorem Refines.update (h : Refines m s) (u : Update α) (hok : StepOk s u) : Gives (update m u) (specUpdate s u) := by
  cases u with
  | append elem =>
    refine ⟨_, rfl, ?_, (fresh_append elem).trans (congrArg (· + 1) h.fresh)⟩
    have hins : (s.insertIdx s.items.length elem).items = s.items ++ [(m.fresh, elem)] := by
      rw [Named.insertIdx, ← h.fresh, List.insertIdx_length_self]
    simp only [specUpdate, hins]
    exact h.holds.append hok
  | pushHead elem =>
    refine ⟨_, rfl, ?_, (fresh_pushHead elem).trans (congrArg (· + 1) h.fresh)⟩
    simp only [specUpdate, Named.insertIdx, List.insertIdx_zero, ← h.fresh]
    exact h.holds.pushHead hok
  | popHead =>
    rw [DList.update, specUpdate]
    cases hs : s.items with
    | nil =>
      have hhead : m.head = none := by rw [h.holds.head, hs]; rfl
      rw [DList.popHead, hhead]
      exact ⟨m, rfl, h⟩
    | cons p S =>
      have hh := h.holds
      rw [hs] at hh
      rw [Holds.popHead hh]
      exact ⟨_, rfl, h.unlink (S := []) hs⟩
  | popTail =>
    rw [DList.update, specUpdate]
    cases hs : s.items.getLast? with
    | none =>
      have htail : m.tail = none := by rw [h.holds.tail, List.getLast?_eq_none_iff.mp hs]; rfl
      rw [DList.popTail, htail]
      exact ⟨m, rfl, h⟩
    | some p =>
      obtain ⟨S, hS⟩ := List.getLast?_eq_some_iff.mp hs
      have hh := h.holds
      rw [hS] at hh
      have hlen : s.items.length - 1 = S.length := by simp [hS]
      rw [Holds.popTail hh, hlen]
      exact ⟨_, rfl, h.unlink hS⟩
  | insert index elem => exact h.update_insert hok
  | delete index => exact h.update_delete hok
  | remove elem => exact h.update_remove elem
  | clear =>
    obtain ⟨m', he, h', hfresh⟩ := h.holds.clear
    refine ⟨m', ?_, h', hfresh.trans h.fresh⟩
    rw [DList.update, he]
    rfl
  | insertAt ix elem => exact h.update_insertAt hok
  | deleteAt ix => exact h.update_deleteAt hok

theorem Refines.run (us : List (Update α)) (h : Refines m s) (hok : StepsOk s us) :
    ∃ m', run m us = .ok (m', (specRun s us).2) ∧ Refines m' (specRun s us).1 := by
  induction us generalizing m s with
  | nil => exact ⟨m, rfl, h⟩
  | cons u us ih =>
    obtain ⟨m₁, he₁, h₁⟩ := h.update u hok.1
    obtain ⟨m₂, he₂, h₂⟩ := ih h₁ hok.2
    refine ⟨m₂, ?_, h₂⟩
    rw [DList.run, he₁]
    simp only [bind, Except.bind, he₂]
    rfl

/-- A run in which nothing is deleted at the end of the list, and iterators refer to
what is in it, behaves like a run on a sequence, reply by reply. -/
theorem dlist_run_behaves (us : List (Update α)) (hok : StepsOk Named.init us) :
    ∃ m, run init us = .ok (m, (specRun Named.init us).2) ∧
      Behaves m (names (specRun Named.init us).1.items) ((specRun Named.init us).1.items.map Prod.snd) := by
  obtain ⟨m, he, h⟩ := Refines.run (s := Named.init) us ⟨init_holds, rfl⟩ hok
  exact ⟨m, he, h.holds.behaves⟩

theorem few_dlist_behave :
    ∃ m : DList Nat,
      run init [.append 1, .pushHead 2, .insert 1 3, .remove 1, .delete 5, .insertAt (some 2) 4, .deleteAt (some 1)] =
        .ok (m, [.ok .done, .ok .done, .ok .done, .ok (.removed true),
          .error (.indexError "List index out of range in delete()"), .ok (.iter (some 3)), .ok (.iter (some 3))]) ∧
      Behaves m [3, 2] [4, 3] :=
  dlist_run_behaves _ (by
    simp [StepsOk, StepOk, specUpdate, Named.init, Named.insertIdx, Named.eraseIdx, Named.position, names,
      List.findIdx?_cons])

/-- At an iterator that is off the end, and at an index at the end, an operation
reads the fields of null. -/
theorem ends_misbehave :
    run init [.append 1, .insertAt none 2] = .error .nullDereference ∧
    run init [.append 1, .deleteAt none] = .error .nullDereference ∧
    run init [.append 1, .delete 1] = .error .nullDereference ∧
    run (init : DList Nat) [.delete 0] = .error .nullDereference := by
  refine ⟨rfl, rfl, rfl, rfl⟩

end DList

end Crack
