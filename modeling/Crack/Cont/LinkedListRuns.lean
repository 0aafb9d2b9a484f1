import Crack.Cont.LinkedListRefines

/-!
# Runs of a List

The operations on a plain sequence, with the errors that the list raises, and
what a program can see of a list that a run leads to.
-/
namespace Crack

namespace LinkedList

open Linked (Path)

variable {α : Type} [BEq α] {isNull : α → Bool} {m : LinkedList α} {L : List Nat} {P : List α}

variable (isNull) in
/-- The operations on a sequence. -/
def specUpdate (P : List α) : Update α → List α × Except Exc (Option α)
  | .append elem => (P ++ [elem], .ok none)
  | .pushHead elem => (elem :: P, .ok none)
  | .popHead =>
    match P.head? with
    | some elem => (P.tail, .ok (some elem))
    | none => (P, .error (.invalidArgumentError "Attempting to pop from an empty list"))
  | .popTail =>
    match P.getLast? with
    | some elem => (P.dropLast, .ok (some elem))
    | none => (P, .error (.invalidArgumentError "Attempting to pop from an empty list"))
  | .insert index elem =>
    if index ≤ P.length then (P.insertIdx index elem, .ok none)
    else (P, .error (.assertionError "List is shorter than its count."))
  | .delete index =>
    if index < P.length then (P.eraseIdx index, .ok none)
    else if P = [] then (P, .error (.assertionError "Cannot delete node from empty list"))
    else (P, .error (.indexError "List index out of range in delete()"))
  | .remove elem =>
    if isNull elem then (P, .error (.invalidArgumentError "Invalid argument null for delete()"))
    else if P.any (· == elem) then (P.eraseP (· == elem), .ok none)
    else (P, .error (.assertionError "Cannot delete element from empty list"))
  | .clear => ([], .ok none)

variable (isNull) in
def specRun (P : List α) : List (Update α) → List α × List (Except Exc (Option α))
  | [] => (P, [])
  | u :: us =>
    let (P, r) := specUpdate isNull P u
    let (P, rs) := specRun P us
    (P, r :: rs)

def specIndex (P : List α) (index : Nat) : Except Exc α :=
  match P[index]? with
  | some elem => .ok elem
  | none =>
    if index > P.length then .error (.indexError "List index out of range in []")
    else .error (.assertionError "List is shorter than its count.")

variable (isNull) in
/-- The list stays shorter than a `uint` counts; nothing is deleted at the end of a
list that is not empty, nor the only element by its index; and what is removed from a
list that is not empty is in it. -/
def StepOk (P : List α) : Update α → Prop
  | .append _ | .pushHead _ => P.length + 1 < 2 ^ 32
  | .insert index _ => index ≤ P.length → P.length + 1 < 2 ^ 32
  | .popHead | .popTail | .clear => True
  | .delete index => (index = P.length → P = []) ∧ (index = 0 → P.length ≠ 1)
  | .remove elem => isNull elem = false → P ≠ [] → P.any (· == elem) = true

variable (isNull) in
/-- Every operation of the run is so on the sequence where it is made. -/
def StepsOk (P : List α) : List (Update α) → Prop
  | [] => True
  | u :: us => StepOk isNull P u ∧ StepsOk (specUpdate isNull P u).1 us

/-- What a program can see of the list: its nodes from the head on are `L`, its elements are `P`. -/
structure Behaves (m : LinkedList α) (L : List Nat) (P : List α) : Prop where
  nodes : m.nodes = .ok L
  distinct : L.Nodup
  counted : m.count = L.length
  tail : m.tail = L.getLast?
  empty : m.tail = none ↔ L = []
  elems : P.map some = L.map m.elem
  index : ∀ index, m.index index = .ok (specIndex P index)

omit [BEq α] in
theorem Holds.index (h : Holds m L P) (index : Nat) : m.index index = .ok (specIndex P index) := by
  rw [LinkedList.index, specIndex, h.chain.findNode, h.count]
  by_cases hi : index > P.length
  · have hnone : P[index]? = none := List.getElem?_eq_none (by omega)
    rw [if_pos hi, hnone]
    dsimp only
    rw [if_pos hi]
    rfl
  · rw [if_neg hi]
    cases hL : L[index]? with
    | none =>
      have hnone : P[index]? = none := by
        rw [List.getElem?_eq_none_iff] at hL ⊢
        rwa [← h.shows.length]
      rw [hnone]
      dsimp only
      rw [if_neg hi]
      rfl
    | some node =>
      obtain ⟨e, he, helem⟩ := h.shows.get hL
      rw [he]
      simp only [elemOf, helem, bind, Except.bind]
      rfl

omit [BEq α] in
theorem Holds.behaves (h : Holds m L P) : Behaves m L P where
  nodes := nodesFrom_ok h.chain.path h.chain.length_le
  distinct := h.chain.nodup
  counted := by rw [h.count, h.shows.length]
  tail := h.chain.tail
  empty := by rw [h.chain.tail, List.getLast?_eq_none_iff]
  elems := h.shows
  index := h.index

/-- What an operation gives. -/
def Gives (r : Except Fault (LinkedList α × Except Exc (Option α))) (s : List α × Except Exc (Option α)) : Prop :=
  ∃ m L, r = .ok (m, s.2) ∧ Holds m L s.1

theorem Holds.update_insert (h : Holds m L P) {index : Nat} {elem : α}
    (hok : StepOk isNull P (.insert index elem)) :
    Gives (update isNull m (.insert index elem)) (specUpdate isNull P (.insert index elem)) := by
  rw [LinkedList.update, LinkedList.insert, specUpdate]
  by_cases h0 : index = 0
  · subst h0
    simp only [if_true, Nat.zero_le, List.insertIdx_zero]
    exact ⟨_, _, rfl, h.pushHead (hok (Nat.zero_le _))⟩
  · obtain ⟨i, rfl⟩ := Nat.exists_eq_succ_of_ne_zero h0
    simp only [if_neg h0, Nat.succ_eq_add_one, Nat.add_sub_cancel, h.chain.findNode]
    cases hL : L[i]? with
    | none =>
      rw [List.getElem?_eq_none_iff, h.shows.length] at hL
      rw [if_neg (by omega)]
      exact ⟨m, L, rfl, h⟩
    | some node =>
      have hle : i + 1 ≤ P.length := by
        rw [← h.shows.length]
        exact (List.getElem?_eq_some_iff.mp hL).1
      obtain ⟨l, l', rfl, hlen⟩ := Linked.exists_split hL
      obtain ⟨Q, e, Q', rfl, hQ, -, -⟩ := Linked.Shows.split h.shows
      have hins : (Q ++ e :: Q').insertIdx (i + 1) elem = Q ++ e :: elem :: Q' := by
        have : (Q ++ [e] ++ Q').insertIdx (Q ++ [e]).length elem = Q ++ [e] ++ elem :: Q' := Linked.insertIdx_middle
        rw [List.length_append, List.length_singleton, ← hQ.length, hlen] at this
        simpa using this
      rw [if_pos hle, hins]
      exact ⟨_, _, rfl, h.linkAfter hQ.length (hok hle)⟩

omit [BEq α] in
/-- The first one of several elements. -/
theorem Holds.delete_head {a b : Nat} {l : List Nat} {e e' : α} (h : Holds m (a :: b :: l) (e :: e' :: P)) :
    ∃ m', m.delete 0 = .ok (m', .ok ()) ∧ Holds m' (b :: l) (e' :: P) := by
  have hhead : m.head = some a := h.chain.head
  have htail : m.tail = some (l.getLast?.getD b) := by
    rw [h.chain.tail, List.getLast?_cons_cons, List.getLast?_cons]
  have h' : Holds m ([] ++ a :: b :: l) ([] ++ e :: e' :: P) := h
  refine ⟨{ m with head := m.next a }.minusOne, ?_, ?_⟩
  · rw [LinkedList.delete, hhead, htail]
    dsimp only
    rw [if_neg (Nat.not_lt_zero _), if_neg (Nat.lt_irrefl 0)]
    rfl
  · refine h'.unlink _ rfl minusOne_fresh minusOne_elem (by rw [minusOne_count]) ?_ ?_
    · rw [minusOne_next, minusOne_head]
      exact h.chain.path.2
    · rw [minusOne_tail, List.nil_append, ← List.getLast?_cons_cons (a := a), ← h.chain.tail]

omit [BEq α] in
/-- An element behind another one. -/
theorem Holds.delete_behind {node found : Nat} {l l' : List Nat} {e e' : α} {Q Q' : List α}
    (h : Holds m (l ++ node :: found :: l') (Q ++ e :: e' :: Q')) (hl : l.length = Q.length) :
    m.delete (l.length + 1) = .ok ((m.unlinkAfter node found).minusOne, .ok ()) := by
  obtain ⟨a, ha⟩ : ∃ a, m.head = some a := by
    rw [h.chain.head]
    exact Option.ne_none_iff_exists'.mp (mt List.head?_eq_none_iff.mp (by simp))
  obtain ⟨t, ht⟩ : ∃ t, m.tail = some t := by
    rw [h.chain.tail]
    exact Option.ne_none_iff_exists'.mp (mt List.getLast?_eq_none_iff.mp (by simp))
  have hnode : m.findNode l.length = .ok node := by
    rw [h.chain.findNode, List.getElem?_append_right (Nat.le_refl _), Nat.sub_self]
    rfl
  have hnext : m.next node = some found := Linked.Path.next_eq h.chain.path
  have hcount : ¬ l.length + 1 > m.count := by
    rw [h.count, hl]
    simp
  rw [LinkedList.delete, ha, ht]
  dsimp only
  rw [if_neg hcount, if_pos (Nat.succ_pos _), Nat.add_sub_cancel, hnode]
  dsimp only
  rw [hnext]
  rfl

theorem Holds.update_delete (h : Holds m L P) {index : Nat} (hok : StepOk isNull P (.delete index)) :
    Gives (update isNull m (.delete index)) (specUpdate isNull P (.delete index)) := by
  rw [LinkedList.update, specUpdate]
  by_cases hlt : index < P.length
  · rw [if_pos hlt]
    cases index with
    | zero =>
      have hlen := h.shows.length
      have hne := hok.2 rfl
      obtain ⟨e, e', P, rfl⟩ : ∃ e e' Q, P = e :: e' :: Q := by
        rcases P with _ | ⟨e, _ | ⟨e', P⟩⟩
        · exact absurd hlt (Nat.lt_irrefl 0)
        · exact absurd rfl hne
        · exact ⟨e, e', P, rfl⟩
      obtain ⟨a, b, l, rfl⟩ : ∃ a b l, L = a :: b :: l := by
        rcases L with _ | ⟨a, _ | ⟨b, l⟩⟩
        · exact absurd hlen (by simp)
        · exact absurd hlen (by simp)
        · exact ⟨a, b, l, rfl⟩
      obtain ⟨m', he, h'⟩ := h.delete_head
      rw [he]
      exact ⟨m', b :: l, rfl, h'⟩
    | succ i =>
      obtain ⟨node, hnode⟩ : ∃ node, L[i]? = some node :=
        ⟨_, List.getElem?_eq_getElem (by rw [h.shows.length]; omega)⟩
      obtain ⟨l, l', rfl, rfl⟩ := Linked.exists_split hnode
      obtain ⟨Q, e, Q', rfl, hQ, -, hQ'⟩ := Linked.Shows.split h.shows
      have hlen' := hQ'.length
      rcases l' with _ | ⟨found, l'⟩
      · have hnil : Q' = [] := List.length_eq_zero_iff.mp hlen'.symm
        exact absurd hlt (by simp [hQ.length, hnil])
      · obtain ⟨e', Q', rfl⟩ := List.exists_cons_of_length_eq_add_one hlen'.symm
        have hdel : (Q ++ e :: e' :: Q').eraseIdx (l.length + 1) = Q ++ e :: Q' := by
          have : (Q ++ [e] ++ e' :: Q').eraseIdx (Q ++ [e]).length = Q ++ [e] ++ Q' := Linked.eraseIdx_middle
          rw [List.length_append, List.length_singleton, ← hQ.length] at this
          simpa using this
        rw [h.delete_behind hQ.length, hdel]
        exact ⟨_, _, rfl, h.unlinkAfter hQ.length⟩
  · rw [if_neg hlt]
    by_cases hP : P = []
    · subst hP
      obtain rfl := h.shows.nil_iff.mpr rfl
      have hhead : m.head = none := h.chain.head
      rw [if_pos rfl, LinkedList.delete, hhead]
      exact ⟨m, [], rfl, h⟩
    · have hgt : index > m.count := by
        rw [h.count]
        exact Nat.lt_of_le_of_ne (Nat.le_of_not_lt hlt) fun he => hP (hok.1 he.symm)
      obtain ⟨a, ha⟩ : ∃ a, m.head = some a := by
        rw [h.chain.head]
        exact Option.ne_none_iff_exists'.mp (mt List.head?_eq_none_iff.mp (mt h.shows.nil_iff.mp hP))
      obtain ⟨t, ht⟩ : ∃ t, m.tail = some t := by
        rw [h.chain.tail]
        exact Option.ne_none_iff_exists'.mp (mt List.getLast?_eq_none_iff.mp (mt h.shows.nil_iff.mp hP))
      rw [if_neg hP, LinkedList.delete, ha, ht]
      dsimp only
      rw [if_pos hgt]
      exact ⟨m, L, rfl, h⟩

/-- The first element that equals the given one. -/
theorem exists_first {elem : α} (h : P.any (· == elem) = true) :
    ∃ Q e Q', P = Q ++ e :: Q' ∧ (∀ x ∈ Q, (x == elem) = false) ∧ (e == elem) = true ∧
      P.eraseP (· == elem) = Q ++ Q' := by
  obtain ⟨x, hx, hxe⟩ := List.any_eq_true.mp h
  obtain ⟨e, Q, Q', hQ, he, rfl, herase⟩ := List.exists_of_eraseP (p := (· == elem)) hx hxe
  refine ⟨Q, e, Q', rfl, fun y hy => ?_, he, herase⟩
  exact Bool.eq_false_iff.mpr (hQ y hy)

theorem Holds.remove {node a : Nat} {l l' : List Nat} {e elem : α} {Q Q' : List α}
    (h : Holds m (a :: (l ++ node :: l')) (Q ++ e :: Q')) (hl : l.length + 1 = Q.length)
    (hQ : ∀ x ∈ Q, (x == elem) = false) (he : (e == elem) = true) (hnull : isNull elem = false) :
    ∃ m', m.remove isNull elem = .ok (m', .ok ()) ∧ Holds m' (a :: (l ++ l')) (Q ++ Q') := by
  have hlen : (a :: l).length = Q.length := hl
  have hshows : Linked.Shows m.elem (a :: l) Q ∧ Linked.Shows m.elem (node :: l') (e :: Q') :=
    (Linked.shows_append hlen).mp h.shows
  obtain ⟨helem, -⟩ := Linked.shows_cons.mp hshows.2
  have hother : ∀ b ∈ a :: l, ∃ x, m.elem b = some x ∧ (x == elem) = false := by
    intro b hb
    have hmem : m.elem b ∈ Q.map some := by
      rw [hshows.1]
      exact List.mem_map_of_mem hb
    obtain ⟨x, hx, hbx⟩ := List.mem_map.mp hmem
    exact ⟨x, hbx.symm, hQ x hx⟩
  have hhead : m.head = some a := h.chain.head
  obtain ⟨t, ht⟩ : ∃ t, m.tail = some t := by
    rw [h.chain.tail]
    exact Option.ne_none_iff_exists'.mp (mt List.getLast?_eq_none_iff.mp (by simp))
  obtain ⟨x, hx, hxe⟩ := hother a List.mem_cons_self
  have hbound : (a :: l).length < m.fresh + 1 := by
    have := h.chain.length_le
    simp only [List.length_cons, List.length_append] at this ⊢
    omega
  have hpath : Path m.next (some a) (a :: l ++ node :: l') none := hhead ▸ h.chain.path
  have hfind := findElem_ok a hpath hother ⟨e, helem, he⟩ hbound
  rw [List.getLast?_cons, Option.getD_some] at hfind
  -- the node before it
  obtain ⟨l₀, onode, hl₀, honode⟩ : ∃ l₀ onode, a :: l = l₀ ++ [onode] ∧ l.getLast?.getD a = onode := by
    have hlast : (a :: l).getLast? = some (l.getLast?.getD a) := List.getLast?_cons
    obtain ⟨l₀, hl₀⟩ := List.getLast?_eq_some_iff.mp hlast
    exact ⟨l₀, _, hl₀, rfl⟩
  rw [honode] at hfind
  obtain ⟨Q₀, e₀, rfl⟩ : ∃ Q₀ e₀, Q = Q₀ ++ [e₀] := by
    have hne : Q ≠ [] := fun hnil => by simp [hnil] at hlen
    exact ⟨Q.dropLast, Q.getLast hne, (List.dropLast_append_getLast hne).symm⟩
  have h₀ : Holds m (l₀ ++ onode :: node :: l') (Q₀ ++ e₀ :: e :: Q') := by
    have hL : a :: (l ++ node :: l') = l₀ ++ onode :: node :: l' := by
      rw [← List.cons_append, hl₀, List.append_assoc]
      rfl
    rw [← hL]
    simpa using h
  have hl₀' : l₀.length = Q₀.length := by
    have := congrArg List.length hl₀
    simp only [List.length_append, List.length_singleton] at this hlen
    omega
  have hrun : m.remove isNull elem = .ok ((m.unlinkAfter onode node).minusOne, .ok ()) := by
    have hnext : m.next onode = some node := Linked.Path.next_eq h₀.chain.path
    simp only [LinkedList.remove, hnull, Bool.false_eq_true, if_false, hhead, ht, elemOf, hx, bind, Except.bind, hxe,
      hfind]
    rw [LinkedList.unlinkAfter, hnext, ht]
    by_cases htail : some node = some t
    · rw [if_pos htail, if_pos htail]
      rfl
    · rw [if_neg htail, if_neg htail]
      rfl
  refine ⟨_, hrun, ?_⟩
  have hout := h₀.unlinkAfter hl₀'
  have hL : a :: (l ++ l') = l₀ ++ onode :: l' := by
    rw [← List.cons_append, hl₀, List.append_assoc]
    rfl
  rw [hL]
  simpa using hout

theorem Holds.update_remove (h : Holds m L P) {elem : α} (hok : StepOk isNull P (.remove elem)) :
    Gives (update isNull m (.remove elem)) (specUpdate isNull P (.remove elem)) := by
  rw [LinkedList.update, specUpdate]
  by_cases hnull : isNull elem = true
  · rw [LinkedList.remove, if_pos hnull, if_pos hnull]
    exact ⟨m, L, rfl, h⟩
  · have hnull : isNull elem = false := Bool.eq_false_iff.mpr hnull
    simp only [hnull, Bool.false_eq_true, if_false]
    cases L with
    | nil =>
      obtain rfl := h.shows.nil_iff.mp rfl
      have hhead : m.head = none := h.chain.head
      simp only [LinkedList.remove, hnull, Bool.false_eq_true, if_false, hhead]
      exact ⟨m, [], rfl, h⟩
    | cons a l =>
      have hne : P ≠ [] := fun hP => by cases h.shows.nil_iff.mpr hP
      have hany := hok hnull hne
      obtain ⟨Q, e, Q', rfl, hQ, he, herase⟩ := exists_first hany
      rw [if_pos hany, herase]
      cases Q with
      | nil =>
        obtain ⟨m', hpop, h'⟩ := Holds.popHead h
        have hhead : m.head = some a := h.chain.head
        obtain ⟨t, ht⟩ : ∃ t, m.tail = some t := by
          rw [h.chain.tail]
          exact Option.ne_none_iff_exists'.mp (mt List.getLast?_eq_none_iff.mp (by simp))
        obtain ⟨helem, -⟩ := Linked.shows_cons.mp h.shows
        refine ⟨m', l, ?_, h'⟩
        simp only [LinkedList.remove, hnull, Bool.false_eq_true, if_false, hhead, ht, elemOf, helem, bind, Except.bind,
          he, if_true, hpop]
        rfl
      | cons x Q =>
        have hlen := h.shows.length
        obtain ⟨node, hnode⟩ : ∃ node, l[Q.length]? = some node :=
          ⟨_, List.getElem?_eq_getElem (by simp at hlen; omega)⟩
        obtain ⟨l₁, l₂, rfl, hl₁⟩ := Linked.exists_split hnode
        obtain ⟨m', hrun, h'⟩ := h.remove (by simp [hl₁]) hQ he hnull
        rw [hrun]
        exact ⟨m', _, rfl, h'⟩

/-- One operation does to the list what it does to the sequence. -/
theorem Holds.update (h : Holds m L P) (u : Update α) (hok : StepOk isNull P u) :
    Gives (update isNull m u) (specUpdate isNull P u) := by
  cases u with
  | append elem => exact ⟨_, _, rfl, h.append hok⟩
  | pushHead elem => exact ⟨_, _, rfl, h.pushHead hok⟩
  | popHead =>
    rw [LinkedList.update, specUpdate]
    have hlen := h.shows.length
    cases L with
    | nil =>
      obtain rfl := h.shows.nil_iff.mp rfl
      have hhead : m.head = none := h.chain.head
      rw [LinkedList.popHead, hhead]
      exact ⟨m, [], rfl, h⟩
    | cons a l =>
      cases P with
      | nil => exact absurd hlen (by simp)
      | cons e P =>
        obtain ⟨m', he, h'⟩ := Holds.popHead h
        rw [he]
        exact ⟨m', l, rfl, h'⟩
  | popTail =>
    rw [LinkedList.update, specUpdate]
    cases hP : P.getLast? with
    | none =>
      obtain rfl := List.getLast?_eq_none_iff.mp hP
      obtain rfl := h.shows.nil_iff.mpr rfl
      have htail : m.tail = none := h.chain.tail
      rw [LinkedList.popTail, htail]
      exact ⟨m, [], rfl, h⟩
    | some e =>
      obtain ⟨Q, rfl⟩ := List.getLast?_eq_some_iff.mp hP
      have hL : L ≠ [] := fun hL => by simpa using h.shows.nil_iff.mp hL
      obtain ⟨l, a, rfl⟩ : ∃ l a, L = l ++ [a] :=
        ⟨L.dropLast, L.getLast hL, (List.dropLast_append_getLast hL).symm⟩
      obtain ⟨m', he, h'⟩ := Holds.popTail h
      rw [he, List.dropLast_concat]
      exact ⟨m', l, rfl, h'⟩
  | insert index elem => exact h.update_insert hok
  | delete index => exact h.update_delete hok
  | remove elem => exact h.update_remove hok
  | clear => exact ⟨_, [], rfl, ⟨List.nodup_nil, by simp, rfl, rfl⟩, rfl, rfl, Nat.two_pow_pos 32⟩

theorem Holds.run (us : List (Update α)) (h : Holds m L P) (hok : StepsOk isNull P us) :
    ∃ m' L', run isNull m us = .ok (m', (specRun isNull P us).2) ∧ Holds m' L' (specRun isNull P us).1 := by
  induction us generalizing m L P with
  | nil => exact ⟨m, L, rfl, h⟩
  | cons u us ih =>
    obtain ⟨m₁, L₁, he₁, h₁⟩ := h.update u hok.1
    obtain ⟨m₂, L₂, he₂, h₂⟩ := ih h₁ hok.2
    refine ⟨m₂, L₂, ?_, h₂⟩
    rw [LinkedList.run, he₁]
    simp only [bind, Except.bind, he₂]
    rfl

/-- A run without these edge cases behaves like a run on a sequence, reply by reply. -/
theorem list_run_behaves (isNull : α → Bool) (us : List (Update α)) (hok : StepsOk isNull [] us) :
    ∃ m L, run isNull init us = .ok (m, (specRun isNull [] us).2) ∧ Behaves m L (specRun isNull [] us).1 := by
  obtain ⟨m, L, he, h⟩ := init_holds.run us hok
  exact ⟨m, L, he, h.behaves⟩

theorem few_list_behave :
    ∃ (m : LinkedList Nat) (L : List Nat),
      run (fun _ => false) init [.append 1, .pushHead 2, .insert 1 3, .remove 1, .delete 5, .popTail] =
        .ok (m, [.ok none, .ok none, .ok none, .ok none,
          .error (.indexError "List index out of range in delete()"), .ok (some 3)]) ∧
      Behaves m L [2] :=
  list_run_behaves (fun _ => false) _ (by simp [StepsOk, StepOk, specUpdate])

/-- The only element is deleted by its index, and the tail is still there; an index
at the end and a missing element make it read the fields of null. -/
theorem edges_misbehave :
    (∃ m, run (fun _ => false) init [.append 1, .delete 0] = .ok (m, [.ok none, .ok none]) ∧
      m.nodes = .ok [] ∧ m.count = 0 ∧ m.tail = some 0) ∧
    run (fun _ => false) init [.append 1, .delete 1] = .error .nullDereference ∧
    run (fun _ => false) init [.append 1, .remove 2] = .error .nullDereference := by
  refine ⟨⟨_, rfl, rfl, rfl, rfl⟩, rfl, rfl⟩

end LinkedList

end Crack
