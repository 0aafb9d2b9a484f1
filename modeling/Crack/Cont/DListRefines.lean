import Crack.Cont.DList

/-!
# DList as a sequence

A list stands for a sequence of elements, each with the address of its node. Linking
a new node and unlinking one are the same change of the links wherever they are done.
-/
namespace Crack

namespace DList

open Linked (Path Segment segment_append)

variable {α : Type} {m : DList α} {S S' : List (Nat × α)} {elem : α} {node : Nat} {p : Option Nat} {l : List Nat}

/-- The nodes of a sequence. -/
def names (S : List (Nat × α)) : List Nat := S.map Prod.fst

@[simp] theorem names_nil : names ([] : List (Nat × α)) = [] := rfl
@[simp] theorem names_cons (p : Nat × α) : names (p :: S) = p.1 :: names S := rfl
@[simp] theorem names_append : names (S ++ S') = names S ++ names S' := List.map_append
@[simp] theorem length_names : (names S).length = S.length := List.length_map _

theorem names_eq_nil : names S = [] ↔ S = [] := List.map_eq_nil_iff

/-- The list is the sequence `S`. -/
structure Holds (m : DList α) (S : List (Nat × α)) : Prop where
  nodup : (names S).Nodup
  fresh : ∀ a ∈ names S, a < m.fresh
  head : m.head = (names S).head?
  tail : m.tail = (names S).getLast?
  links : Segment m.prev m.next none (names S) none
  elems : ∀ p ∈ S, m.elem p.1 = some p.2
  count : m.count = S.length
  small : S.length < 2 ^ 32

theorem init_holds : Holds (init : DList α) [] :=
  ⟨List.nodup_nil, by simp, rfl, rfl, trivial, by simp, rfl, Nat.two_pow_pos 32⟩

theorem Holds.fresh_not_mem (h : Holds m S) : m.fresh ∉ names S := fun hm => Nat.lt_irrefl _ (h.fresh _ hm)

theorem Holds.length_le (h : Holds m S) : S.length ≤ m.fresh := by
  have hsub : names S ⊆ List.range m.fresh := fun a ha => List.mem_range.mpr (h.fresh a ha)
  simpa using (List.subperm_of_subset h.nodup hsub).length_le

theorem Holds.next_eq (h : Holds m (S ++ (node, elem) :: S')) : m.next node = (names S').head? := by
  have hlinks := h.links
  rw [names_append, names_cons] at hlinks
  simpa using (segment_append.mp hlinks).2.2.1

theorem Holds.prev_eq (h : Holds m (S ++ (node, elem) :: S')) : m.prev node = (names S).getLast? := by
  have hlinks := h.links
  rw [names_append, names_cons] at hlinks
  simpa using (segment_append.mp hlinks).2.1

theorem Holds.is_tail (h : Holds m (S ++ (node, elem) :: S')) : some node = m.tail ↔ S' = [] := by
  have hnd := h.nodup
  rw [names_append, names_cons] at hnd
  rw [h.tail, names_append, names_cons, Linked.last_iff hnd, names_eq_nil]

theorem Holds.is_head (h : Holds m (S ++ (node, elem) :: S')) : some node = m.head ↔ S = [] := by
  have hnd := h.nodup
  rw [names_append, names_cons] at hnd
  rw [h.head, names_append, names_cons, Linked.first_iff hnd, names_eq_nil]

/-- A new node between the parts of the list. -/
theorem Holds.link (m' : DList α) (h : Holds m (S ++ S')) (hfresh : m'.fresh = m.fresh + 1)
    (helem : m'.elem = Function.update m.elem m.fresh (some elem)) (hcount : m'.count = uint (m.count + 1))
    (hsmall : (S ++ S').length + 1 < 2 ^ 32)
    (hhead : m'.head = (names (S ++ (m.fresh, elem) :: S')).head?)
    (htail : m'.tail = (names (S ++ (m.fresh, elem) :: S')).getLast?)
    (hprev : ∀ a, m'.prev a = if a = m.fresh then (names S).getLast?
      else if (names S').head? = some a then some m.fresh else m.prev a)
    (hnext : ∀ a, m'.next a = if a = m.fresh then (names S').head?
      else if (names S).getLast? = some a then some m.fresh else m.next a) :
    Holds m' (S ++ (m.fresh, elem) :: S') := by
  have hlen : (S ++ (m.fresh, elem) :: S').length = (S ++ S').length + 1 := by simp [Nat.add_assoc]
  have hne : ∀ a ∈ names (S ++ S'), a ≠ m.fresh := fun a ha => Nat.ne_of_lt (h.fresh a ha)
  have hnd := h.nodup
  have hfr := h.fresh_not_mem
  have hlinks := h.links
  rw [names_append] at hnd hfr hlinks hne
  refine ⟨?_, ?_, hhead, htail, ?_, ?_, ?_, ?_⟩
  · rw [names_append, names_cons]
    exact Linked.nodup_insert hnd hfr
  · intro a ha
    rw [hfresh]
    rw [names_append, names_cons, List.mem_append, List.mem_cons] at ha
    rcases ha with ha | rfl | ha
    · exact Nat.lt_succ_of_lt (h.fresh a (by simp [ha]))
    · exact Nat.lt_succ_self _
    · exact Nat.lt_succ_of_lt (h.fresh a (by simp [ha]))
  · rw [names_append, names_cons]
    apply Linked.insert_node hlinks hnd
    · intro a ha hhd
      rw [hprev, if_neg (hne a ha), if_neg hhd]
    · intro a ha
      rw [hprev, if_neg (hne a (List.mem_append_right _ (List.mem_of_head? ha))), if_pos ha]
    · intro a ha hlt
      rw [hnext, if_neg (hne a ha), if_neg hlt]
    · intro a ha
      rw [hnext, if_neg (hne a (List.mem_append_left _ (List.mem_of_getLast? ha))), if_pos ha]
    · rw [hprev, if_pos rfl]
    · rw [hnext, if_pos rfl]
  · intro p hp
    rw [helem]
    rw [List.mem_append, List.mem_cons] at hp
    by_cases hpf : p = (m.fresh, elem)
    · subst hpf
      exact Function.update_self _ _ _
    · have hp' : p ∈ S ++ S' := by
        rw [List.mem_append]
        tauto
      have hpn : p.1 ≠ m.fresh := hne p.1 (by rw [← names_append]; exact List.mem_map_of_mem hp')
      rw [Function.update_of_ne hpn]
      exact h.elems p hp'
  · rw [hcount, h.count, hlen, uint, Nat.mod_eq_of_lt hsmall]
  · rw [hlen]
    exact hsmall

/-- One node less, with what was around it linked past it. -/
theorem Holds.unlinked (m' : DList α) (h : Holds m (S ++ (node, elem) :: S')) (hfresh : m'.fresh = m.fresh)
    (helem : m'.elem = m.elem) (hcount : m'.count = m.count)
    (hhead : m'.head = (names (S ++ S')).head?) (htail : m'.tail = (names (S ++ S')).getLast?)
    (hprev : ∀ a, a ≠ node → m'.prev a = if (names S').head? = some a then (names S).getLast? else m.prev a)
    (hnext : ∀ a, a ≠ node → m'.next a = if (names S).getLast? = some a then (names S').head? else m.next a) :
    Holds m'.minusOne (S ++ S') := by
  have hlen : (S ++ (node, elem) :: S').length = (S ++ S').length + 1 := by simp [Nat.add_assoc]
  have hsub : (S ++ S').Sublist (S ++ (node, elem) :: S') := by simp
  have hnd := h.nodup
  have hlinks := h.links
  rw [names_append, names_cons] at hnd hlinks
  have hne : ∀ a ∈ names S ++ names S', a ≠ node := by
    rintro a ha rfl
    exact (List.nodup_cons.mp (List.perm_middle.nodup_iff.mp hnd)).1 ha
  have hsmall := h.small
  refine ⟨h.nodup.sublist (hsub.map _), ?_, minusOne_head.trans hhead, minusOne_tail.trans htail, ?_, ?_, ?_, ?_⟩
  · intro a ha
    rw [minusOne_fresh, hfresh]
    exact h.fresh a ((hsub.map _).subset ha)
  · rw [names_append, minusOne_prev, minusOne_next]
    apply Linked.remove_node hlinks hnd
    · intro a ha hhd
      rw [hprev a (hne a ha), if_neg hhd]
    · intro a ha
      rw [hprev a (hne a (List.mem_append_right _ (List.mem_of_head? ha))), if_pos ha]
    · intro a ha hlt
      rw [hnext a (hne a ha), if_neg hlt]
    · intro a ha
      rw [hnext a (hne a (List.mem_append_left _ (List.mem_of_getLast? ha))), if_pos ha]
  · intro p hp
    rw [minusOne_elem, helem]
    exact h.elems p (hsub.subset hp)
  · rw [minusOne_count, hcount, h.count, hlen, uint]
    omega
  · omega

theorem Holds.append (h : Holds m S) (hsmall : S.length + 1 < 2 ^ 32) :
    Holds (m.append elem) (S ++ [(m.fresh, elem)]) := by
  have h' : Holds m (S ++ []) := by rwa [List.append_nil]
  have hsmall' : (S ++ []).length + 1 < 2 ^ 32 := by rwa [List.append_nil]
  cases hS : (names S).getLast? with
  | none =>
    obtain rfl := names_eq_nil.mp (List.getLast?_eq_none_iff.mp hS)
    have htail : m.tail = none := h.tail
    have hm : m.append elem = { m.newNode elem none with head := some m.fresh, tail := some m.fresh }.plusOne := by
      rw [DList.append, htail]
    rw [hm]
    apply h'.link _ rfl rfl rfl hsmall' rfl rfl
    · intro a
      simp [plusOne, newNode, Function.update_apply]
    · intro a
      simp [plusOne, newNode, Function.update_apply]
  | some t =>
    have htail : m.tail = some t := h.tail.trans hS
    have hm : m.append elem =
        { (m.newNode elem (some t)).setNext t (some m.fresh) with tail := some m.fresh }.plusOne := by
      rw [DList.append, htail]
    have ht : t ≠ m.fresh := Nat.ne_of_lt (h.fresh t (List.mem_of_getLast? hS))
    rw [hm]
    apply h'.link _ rfl rfl rfl hsmall'
    · change m.head = _
      rw [h.head, names_append, List.head?_append_of_ne_nil _ (List.ne_nil_of_mem (List.mem_of_getLast? hS))]
    · simp [plusOne]
    · intro a
      simp [plusOne, setNext, newNode, Function.update_apply, hS]
    · intro a
      simp only [plusOne, setNext, newNode, Function.update_apply, hS, names_nil, List.head?_nil, Option.some.injEq]
      grind

theorem Holds.pushHead (h : Holds m S) (hsmall : S.length + 1 < 2 ^ 32) :
    Holds (m.pushHead elem) ((m.fresh, elem) :: S) := by
  have h' : Holds m ([] ++ S) := h
  cases S with
  | nil =>
    have hhead : m.head = none := h.head
    have hm : m.pushHead elem = { m.newNode elem none with head := some m.fresh, tail := some m.fresh }.plusOne := by
      rw [DList.pushHead, hhead]
    rw [hm]
    apply h'.link _ rfl rfl rfl hsmall rfl rfl
    · intro a
      simp [plusOne, newNode, Function.update_apply]
    · intro a
      simp [plusOne, newNode, Function.update_apply]
  | cons x S =>
    have hhead : m.head = some x.1 := h.head
    have hx : x.1 ≠ m.fresh := Nat.ne_of_lt (h.fresh x.1 (by simp))
    have hm : m.pushHead elem = { (((m.newNode elem none).setNext m.fresh (some x.1)).setPrev x.1 (some m.fresh)) with
        head := some m.fresh }.plusOne := by
      rw [DList.pushHead, hhead]
    rw [hm]
    apply h'.link _ rfl rfl rfl hsmall rfl
    · exact h.tail
    · intro a
      simp only [plusOne, setNext, setPrev, newNode, Function.update_apply, names_nil, names_cons, List.getLast?_nil,
        List.head?_cons, Option.some.injEq]
      grind
    · intro a
      simp [plusOne, setNext, setPrev, newNode, Function.update_apply]

/-- A new node behind another one. -/
theorem Holds.linkAfter {e : α} (h : Holds m (S ++ (node, e) :: S'))
    (hsmall : (S ++ (node, e) :: S').length + 1 < 2 ^ 32) :
    Holds (m.linkAfter node elem).plusOne (S ++ (node, e) :: (m.fresh, elem) :: S') := by
  have h' : Holds m ((S ++ [(node, e)]) ++ S') := by simpa using h
  have hnode : node ≠ m.fresh := Nat.ne_of_lt (h.fresh node (by simp))
  have hnext := h.next_eq
  have hlast := h.is_tail
  have hnd := h.nodup
  rw [names_append, names_cons] at hnd
  have hout : Holds (m.linkAfter node elem).plusOne ((S ++ [(node, e)]) ++ (m.fresh, elem) :: S') := by
    cases S' with
    | nil =>
      have hm : m.linkAfter node elem =
          { ((m.newNode elem (some node)).setNext m.fresh none).setNext node (some m.fresh) with
            tail := some m.fresh } := by
        unfold DList.linkAfter
        rw [hnext]
        dsimp only [names_nil, List.head?_nil]
        rw [if_pos (hlast.mpr rfl)]
      rw [hm]
      apply h'.link _ rfl rfl rfl (by simpa using hsmall)
      · change m.head = _
        rw [h.head]
        simp [List.head?_append]
      · simp [plusOne]
      · intro a
        simp [plusOne, setNext, newNode, Function.update_apply]
      · intro a
        simp only [plusOne, setNext, newNode, Function.update_apply, names_nil, names_append, names_cons,
          List.getLast?_concat, List.head?_nil, Option.some.injEq]
        grind
    | cons x S' =>
      have hx : x.1 ≠ m.fresh := Nat.ne_of_lt (h.fresh x.1 (by simp))
      have hm : m.linkAfter node elem =
          ((((m.newNode elem (some node)).setNext m.fresh (some x.1)).setPrev x.1 (some m.fresh)).setNext node
            (some m.fresh)) := by
        unfold DList.linkAfter
        rw [hnext]
        dsimp only [names_cons, List.head?_cons]
        rw [if_neg (mt hlast.mp (by simp))]
      rw [hm]
      apply h'.link _ rfl rfl rfl (by simpa using hsmall)
      · change m.head = _
        rw [h.head]
        simp [List.head?_append]
      · change m.tail = _
        rw [h.tail]
        simp [List.getLast?_cons]
      · intro a
        simp only [plusOne, setNext, setPrev, newNode, Function.update_apply, names_append, names_cons, names_nil,
          List.getLast?_concat, List.head?_cons, Option.some.injEq]
        grind
      · intro a
        simp only [plusOne, setNext, setPrev, newNode, Function.update_apply, names_append, names_cons, names_nil,
          List.getLast?_concat, List.head?_cons, Option.some.injEq]
        grind
  simpa using hout

/-- A new node at an iterator. -/
theorem Holds.insertAt {e : α} (elem : α) (h : Holds m (S ++ (node, e) :: S'))
    (hsmall : (S ++ (node, e) :: S').length + 1 < 2 ^ 32) :
    ∃ m', m.insertAt (some node) elem = .ok (m', some m.fresh) ∧
      Holds m' (S ++ (m.fresh, elem) :: (node, e) :: S') ∧ m'.fresh = m.fresh + 1 := by
  have hnode : node ≠ m.fresh := Nat.ne_of_lt (h.fresh node (by simp))
  have hprev := h.prev_eq
  cases hS : (names S).getLast? with
  | none =>
    obtain rfl := names_eq_nil.mp (List.getLast?_eq_none_iff.mp hS)
    rw [hS] at hprev
    have hm : m.insertAt (some node) elem =
        .ok (({ (m.newNode elem none).setNext m.fresh (some node) with head := some m.fresh }.setPrev node
          (some m.fresh)).plusOne, some m.fresh) := by
      simp only [DList.insertAt, hprev]
    refine ⟨_, hm, ?_, rfl⟩
    apply h.link _ rfl rfl rfl hsmall rfl
    · exact h.tail
    · intro a
      simp only [plusOne, setNext, setPrev, newNode, Function.update_apply, names_nil, names_cons, List.getLast?_nil,
        List.head?_cons, Option.some.injEq]
      grind
    · intro a
      simp [plusOne, setNext, setPrev, newNode, Function.update_apply]
  | some t =>
    have ht : t ≠ m.fresh := Nat.ne_of_lt (h.fresh t (by simp [List.mem_of_getLast? hS]))
    rw [hS] at hprev
    have hm : m.insertAt (some node) elem =
        .ok (((((m.newNode elem (some t)).setNext m.fresh (some node)).setNext t (some m.fresh)).setPrev node
          (some m.fresh)).plusOne, some m.fresh) := by
      simp only [DList.insertAt, hprev]
    refine ⟨_, hm, ?_, rfl⟩
    have hne : names S ≠ [] := List.ne_nil_of_mem (List.mem_of_getLast? hS)
    apply h.link _ rfl rfl rfl hsmall
    · change m.head = _
      rw [h.head, names_append, names_append, List.head?_append_of_ne_nil _ hne, List.head?_append_of_ne_nil _ hne]
    · change m.tail = _
      rw [h.tail]
      simp [List.getLast?_cons]
    · intro a
      simp only [plusOne, setNext, setPrev, newNode, Function.update_apply, names_cons, hS, List.head?_cons,
        Option.some.injEq]
      grind
    · intro a
      simp only [plusOne, setNext, setPrev, newNode, Function.update_apply, names_cons, hS, List.head?_cons,
        Option.some.injEq]
      grind

/-- Unlinking a node between the parts of the list. -/
theorem Holds.unlink (h : Holds m (S ++ (node, elem) :: S')) : Holds (m.unlink node).minusOne (S ++ S') := by
  have hprev := h.prev_eq
  have hnext := h.next_eq
  have hhead := h.head
  have htail := h.tail
  have hnd := h.nodup
  rw [names_append, names_cons] at hhead htail hnd
  have hnode : node ∉ names S ∧ node ∉ names S' := by
    have := (List.nodup_cons.mp (List.perm_middle.nodup_iff.mp hnd)).1
    simpa using this
  cases hS : (names S).getLast? with
  | none =>
    obtain rfl := names_eq_nil.mp (List.getLast?_eq_none_iff.mp hS)
    rw [hS] at hprev
    cases S' with
    | nil =>
      have hm : m.unlink node = { m with tail := none, head := none } := by
        simp only [DList.unlink, hnext, hprev, names_nil, List.head?_nil]
      rw [hm]
      refine h.unlinked _ rfl rfl rfl rfl rfl ?_ ?_
      · simp
      · simp
    | cons x S' =>
      have hx : x.1 ≠ node := fun he => hnode.2 (by simp [he])
      have hm : m.unlink node = { m.setPrev x.1 none with head := some x.1 } := by
        simp only [DList.unlink, hnext, hprev, names_cons, List.head?_cons, setPrev,
          Function.update_of_ne (Ne.symm hx)]
      rw [hm]
      refine h.unlinked _ rfl rfl rfl rfl ?_ ?_ ?_
      · change m.tail = _
        simpa [List.getLast?_cons] using htail
      · intro a ha
        simp only [setPrev, Function.update_apply, names_cons, List.head?_cons, Option.some.injEq, hS]
        grind
      · simp [setPrev]
  | some t =>
    have ht : t ≠ node := fun he => hnode.1 (he ▸ List.mem_of_getLast? hS)
    have hne : names S ≠ [] := List.ne_nil_of_mem (List.mem_of_getLast? hS)
    rw [hS] at hprev
    cases S' with
    | nil =>
      have hm : m.unlink node = { m with tail := some t }.setNext t none := by
        simp only [DList.unlink, hnext, hprev, names_nil, List.head?_nil]
      rw [hm]
      refine h.unlinked _ rfl rfl rfl ?_ ?_ ?_ ?_
      · rw [List.append_nil]
        change m.head = _
        rw [hhead, List.head?_append_of_ne_nil _ hne]
      · rw [List.append_nil, hS]
        rfl
      · simp [setNext]
      · intro a ha
        simp only [setNext, Function.update_apply, names_nil, List.head?_nil, hS, Option.some.injEq]
        grind
    | cons x S' =>
      have hx : x.1 ≠ node := fun he => hnode.2 (by simp [he])
      have hm : m.unlink node = (m.setPrev x.1 (some t)).setNext t (some x.1) := by
        simp only [DList.unlink, hnext, hprev, names_cons, List.head?_cons, setPrev,
          Function.update_of_ne (Ne.symm hx)]
      rw [hm]
      refine h.unlinked _ rfl rfl rfl ?_ ?_ ?_ ?_
      · change m.head = _
        rw [hhead, names_append, List.head?_append_of_ne_nil _ hne, List.head?_append_of_ne_nil _ hne]
      · change m.tail = _
        rw [htail, names_append]
        simp [List.getLast?_cons]
      · intro a ha
        simp only [setNext, setPrev, Function.update_apply, names_cons, List.head?_cons, Option.some.injEq, hS]
        grind
      · intro a ha
        simp only [setNext, setPrev, Function.update_apply, names_cons, List.head?_cons, Option.some.injEq, hS]
        grind

theorem Holds.next_ne (h : Holds m (S ++ (node, elem) :: S')) {next : Nat} (hn : (names S').head? = some next) :
    node ≠ next := by
  have hnd := h.nodup
  rw [names_append, names_cons] at hnd
  rintro rfl
  exact (List.nodup_cons.mp (List.nodup_append'.mp hnd).2.1).1 (List.mem_of_head? hn)

theorem Holds.prev_ne (h : Holds m (S ++ (node, elem) :: S')) {prev : Nat} (hp : (names S).getLast? = some prev) :
    node ≠ prev := by
  have hnd := h.nodup
  rw [names_append, names_cons] at hnd
  rintro rfl
  exact (List.nodup_append'.mp hnd).2.2 (List.mem_of_getLast? hp) List.mem_cons_self

/-- The node keeps its link to the next one. -/
theorem Holds.next_unlink (h : Holds m (S ++ (node, elem) :: S')) : (m.unlink node).next node = (names S').head? := by
  have hprev : ∀ prev, m.prev node = some prev → node ≠ prev := fun prev hp => h.prev_ne (h.prev_eq ▸ hp)
  have hnext : ∀ next, m.next node = some next → node ≠ next := fun next hn => h.next_ne (h.next_eq ▸ hn)
  rw [← h.next_eq, DList.unlink]
  cases hn : m.next node with
  | none =>
    dsimp only
    cases hp : m.prev node with
    | none => exact hn
    | some prev =>
      rw [← hn]
      exact Function.update_of_ne (hprev prev hp) _ _
  | some next =>
    simp only [setPrev, Function.update_of_ne (hnext next hn)]
    cases hp : m.prev node with
    | none => exact hn
    | some prev =>
      rw [← hn]
      exact Function.update_of_ne (hprev prev hp) _ _

-- The other operations change the links in the same way.

theorem Holds.unlinkFound_eq (h : Holds m (S ++ (node, elem) :: S')) : m.unlinkFound node = m.unlink node := by
  have hprev := h.prev_eq
  have hnext := h.next_eq
  have hhead := h.is_head
  have htail := h.is_tail
  have hS' : (names S').head? = none ↔ S' = [] := by rw [List.head?_eq_none_iff, names_eq_nil]
  have hS : (names S).getLast? = none ↔ S = [] := by rw [List.getLast?_eq_none_iff, names_eq_nil]
  rw [← hS] at hhead
  rw [← hS'] at htail
  have hne : ∀ next, (names S').head? = some next → node ≠ next := fun _ => h.next_ne
  rw [← hnext] at htail hne
  rw [← hprev] at hhead
  rw [DList.unlinkFound, DList.unlink]
  cases hp : m.prev node with
  | none =>
    rw [hp] at hhead
    have hm := hhead.mpr rfl
    cases hn : m.next node with
    | none =>
      rw [hn] at htail
      have ht := htail.mpr rfl
      simp only [if_pos hm, if_pos ht, hp, hn]
    | some next =>
      rw [hn] at htail
      have ht : some node ≠ m.tail := mt htail.mp (by simp)
      have hnn := hne next hn
      simp only [if_pos hm, if_neg ht, hp, hn, setPrev, Function.update_of_ne hnn]
  | some prev =>
    rw [hp] at hhead
    have hm : some node ≠ m.head := mt hhead.mp (by simp)
    cases hn : m.next node with
    | none =>
      rw [hn] at htail
      have ht := htail.mpr rfl
      simp only [if_neg hm, if_pos ht, hp, setNext]
    | some next =>
      rw [hn] at htail
      have ht : some node ≠ m.tail := mt htail.mp (by simp)
      have hnn := hne next hn
      simp only [if_neg hm, if_neg ht, hp, setPrev, setNext, Function.update_of_ne hnn]

theorem Holds.unlinkAfter_eq {e : α} {found : Nat} (h : Holds m (S ++ (node, e) :: (found, elem) :: S')) :
    m.unlinkAfter node found = m.unlink found := by
  have h' : Holds m ((S ++ [(node, e)]) ++ (found, elem) :: S') := by simpa using h
  have hprev := h'.prev_eq
  have hnext := h'.next_eq
  have htail := h'.is_tail
  have hfound := h.next_eq
  rw [names_append, names_cons, names_nil, List.getLast?_concat] at hprev
  rw [names_cons, List.head?_cons] at hfound
  cases S' with
  | nil =>
    simp only [DList.unlinkAfter, DList.unlink, hprev, hnext, hfound, htail.mpr, if_true, names_nil, List.head?_nil]
  | cons x S' =>
    have hx := h'.next_ne rfl
    have ht : some found ≠ m.tail := mt htail.mp (List.cons_ne_nil _ _)
    simp only [DList.unlinkAfter, DList.unlink, hprev, hnext, hfound, if_neg ht, names_cons, List.head?_cons, setPrev,
      setNext, Function.update_of_ne hx]

theorem Holds.unlinkHead_eq (h : Holds m ((node, elem) :: S')) : m.unlinkHead node = m.unlink node := by
  have h' : Holds m ([] ++ (node, elem) :: S') := h
  have hprev : m.prev node = none := h'.prev_eq
  have hnext := h'.next_eq
  have hhead : m.head = some node := h.head
  have htail := h'.is_tail
  rw [← hhead] at htail
  cases S' with
  | nil => simp only [DList.unlinkHead, DList.unlink, hprev, hnext, htail.mpr, if_true, names_nil, List.head?_nil]
  | cons x S' =>
    have hx := h'.next_ne rfl
    have ht : m.head ≠ m.tail := mt htail.mp (List.cons_ne_nil _ _)
    simp only [DList.unlinkHead, DList.unlink, hprev, hnext, if_neg ht, names_cons, List.head?_cons, setPrev,
      Function.update_of_ne hx]

theorem Holds.elemOf (h : Holds m (S ++ (node, elem) :: S')) : m.elemOf node = .ok elem := by
  rw [DList.elemOf, h.elems (node, elem) (by simp)]

theorem Holds.popHead (h : Holds m ((node, elem) :: S')) :
    m.popHead = .ok ((m.unlink node).minusOne, .ok elem) := by
  have h' : Holds m ([] ++ (node, elem) :: S') := h
  have hprev : m.prev node = none := h'.prev_eq
  have hnext := h'.next_eq
  have hhead : m.head = some node := h.head
  have htail := h'.is_tail
  rw [← hhead] at htail
  cases S' with
  | nil =>
    simp only [DList.popHead, DList.unlink, hhead, h'.elemOf, bind, Except.bind]
    simp only [← hhead, hprev, hnext, htail.mpr, if_true, names_nil, List.head?_nil]
    rfl
  | cons x S' =>
    have hx := h'.next_ne rfl
    have ht : m.head ≠ m.tail := mt htail.mp (List.cons_ne_nil _ _)
    simp only [DList.popHead, DList.unlink, hhead, h'.elemOf, bind, Except.bind]
    simp only [← hhead, hprev, hnext, if_neg ht, names_cons, List.head?_cons, setPrev, Function.update_of_ne hx]
    rfl

theorem Holds.popTail (h : Holds m (S ++ [(node, elem)])) :
    m.popTail = .ok ((m.unlink node).minusOne, .ok elem) := by
  have hprev := h.prev_eq
  have hnext : m.next node = none := h.next_eq
  have htail : m.tail = some node := by rw [h.tail, names_append, names_cons, names_nil, List.getLast?_concat]
  have hhead := h.is_head
  have hS : (names S).getLast? = none ↔ S = [] := by rw [List.getLast?_eq_none_iff, names_eq_nil]
  rw [← htail, ← hS, ← hprev] at hhead
  simp only [DList.popTail, DList.unlink, htail, h.elemOf, bind, Except.bind]
  simp only [← htail, hnext]
  cases hp : m.prev node with
  | none =>
    rw [hp] at hhead
    simp only [hhead.mpr rfl, if_true]
    rfl
  | some prev =>
    rw [hp] at hhead
    have ht : m.tail ≠ m.head := mt hhead.mp (by simp)
    simp only [if_neg ht]
    rfl

theorem Holds.path (h : Holds m S) : Path m.next m.head (names S) none := by
  rw [h.head]
  simpa using h.links.path

theorem walk_eq (hpath : Path m.next p l none) (i : Nat) : m.walk i p = l[i]? := by
  induction i generalizing l p with
  | zero => rw [walk, hpath.start, List.head?_eq_getElem?]
  | succ i ih =>
    cases l with
    | nil =>
      obtain rfl := hpath
      rfl
    | cons a l =>
      obtain ⟨rfl, hpath⟩ := hpath
      rw [walk, ih hpath, List.getElem?_cons_succ]

theorem Holds.findNode (h : Holds m S) (i : Nat) :
    m.findNode i = match S[i]? with
      | some p => .ok p.1
      | none => .error (.assertionError "List is shorter than its count.") := by
  rw [DList.findNode, walk_eq h.path, names, List.getElem?_map]
  cases S[i]? <;> rfl

variable {n : Nat}

theorem nodesFrom_ok (hpath : Path m.next p l none) (hn : l.length ≤ n) : m.nodesFrom n p = .ok l := by
  induction l generalizing n p with
  | nil =>
    obtain rfl := hpath
    cases n <;> rfl
  | cons a l ih =>
    obtain ⟨rfl, hpath⟩ := hpath
    obtain ⟨n, rfl⟩ := Nat.exists_eq_succ_of_ne_zero (Nat.ne_zero_of_lt hn)
    rw [nodesFrom, ih hpath (Nat.le_of_succ_le_succ hn)]
    rfl

theorem findElem_ok [BEq α] (elem : α) (hpath : Path m.next p (names S) none)
    (helems : ∀ p ∈ S, m.elem p.1 = some p.2) (hn : S.length ≤ n) :
    m.findElem elem n p = .ok ((S.find? (·.2 == elem)).map Prod.fst) := by
  induction S generalizing n p with
  | nil =>
    obtain rfl := hpath
    cases n <;> rfl
  | cons x S ih =>
    obtain ⟨rfl, hpath⟩ := hpath
    obtain ⟨n, rfl⟩ := Nat.exists_eq_succ_of_ne_zero (Nat.ne_zero_of_lt hn)
    have hx : m.elem x.1 = some x.2 := helems x List.mem_cons_self
    have hrec := ih hpath (fun p hp => helems p (List.mem_cons_of_mem x hp)) (Nat.le_of_succ_le_succ hn)
    simp only [findElem, DList.elemOf, hx, bind, Except.bind]
    by_cases he : (x.2 == elem) = true
    · rw [if_pos he, List.find?_cons, he]
      rfl
    · rw [if_neg he, hrec, List.find?_cons, Bool.eq_false_iff.mpr he]

/-- Taking the links between the nodes away changes only the links back. -/
theorem breakRefCycles_ok (hpath : Path m.next p l none) (hn : l.length ≤ n) :
    ∃ m', m.breakRefCycles n p = .ok m' ∧ m'.fresh = m.fresh := by
  induction l generalizing m n p with
  | nil =>
    obtain rfl := hpath
    cases n <;> exact ⟨m, rfl, rfl⟩
  | cons a l ih =>
    obtain ⟨rfl, hpath⟩ := hpath
    obtain ⟨n, rfl⟩ := Nat.exists_eq_succ_of_ne_zero (Nat.ne_zero_of_lt hn)
    obtain ⟨m', he, hfresh⟩ := ih (m := m.setPrev a none) hpath (Nat.le_of_succ_le_succ hn)
    exact ⟨m', he, hfresh⟩

theorem Holds.clear (h : Holds m S) : ∃ m', m.clear = .ok m' ∧ Holds m' [] ∧ m'.fresh = m.fresh := by
  have hn : (names S).length ≤ m.fresh := by
    rw [length_names]
    exact h.length_le
  obtain ⟨m', he, hfresh⟩ := breakRefCycles_ok h.path hn
  refine ⟨{ m' with head := none, tail := none, count := 0 }, ?_, ?_, hfresh⟩
  · rw [DList.clear, he]
    rfl
  · exact ⟨List.nodup_nil, by simp, rfl, rfl, trivial, by simp, rfl, Nat.two_pow_pos 32⟩

end DList

end Crack
