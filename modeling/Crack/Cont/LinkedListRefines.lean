import Crack.Cont.LinkedList

/-!
# List as a sequence

The nodes from the head on form a path, at whose end is the tail. Each operation
does to the elements of its nodes what it does to a sequence.
-/
namespace Crack

namespace LinkedList

open Linked (Path Shows path_middle)

variable {α : Type} {m : LinkedList α} {L l l' : List Nat} {P Q : List α} {elem : α} {node found : Nat} {Q' : List α}

/-- The nodes of the list, in order. -/
structure Chain (m : LinkedList α) (L : List Nat) : Prop where
  nodup : L.Nodup
  fresh : ∀ a ∈ L, a < m.fresh
  path : Path m.next m.head L none
  tail : m.tail = L.getLast?

/-- The list is the sequence `P`. -/
structure Holds (m : LinkedList α) (L : List Nat) (P : List α) : Prop where
  chain : Chain m L
  shows : Shows m.elem L P
  count : m.count = P.length
  small : P.length < 2 ^ 32

theorem Chain.head (h : Chain m L) : m.head = L.head? := h.path.start

theorem Chain.fresh_not_mem (h : Chain m L) : m.fresh ∉ L := fun hm => Nat.lt_irrefl _ (h.fresh _ hm)

theorem Chain.length_le (h : Chain m L) : L.length ≤ m.fresh := by
  have hsub : L ⊆ List.range m.fresh := fun a ha => List.mem_range.mpr (h.fresh a ha)
  simpa using (List.subperm_of_subset h.nodup hsub).length_le

theorem init_holds : Holds (init : LinkedList α) [] [] :=
  ⟨⟨List.nodup_nil, by simp, rfl, rfl⟩, rfl, rfl, Nat.two_pow_pos 32⟩

/-- A new node between the parts of the list. -/
theorem Holds.link (m' : LinkedList α) (h : Holds m (l ++ l') (Q ++ Q')) (hl : l.length = Q.length)
    (hfresh : m'.fresh = m.fresh + 1) (helem : m'.elem = Function.update m.elem m.fresh (some elem))
    (hcount : m'.count = uint (m.count + 1)) (hsmall : (Q ++ Q').length + 1 < 2 ^ 32)
    (hpath : Path m'.next m'.head (l ++ m.fresh :: l') none) (htail : m'.tail = (l ++ m.fresh :: l').getLast?) :
    Holds m' (l ++ m.fresh :: l') (Q ++ elem :: Q') := by
  have hlen : (Q ++ elem :: Q').length = (Q ++ Q').length + 1 := by simp [Nat.add_assoc]
  refine ⟨⟨Linked.nodup_insert h.chain.nodup h.chain.fresh_not_mem, ?_, hpath, htail⟩, ?_, ?_, ?_⟩
  · intro a ha
    rw [hfresh]
    rw [List.mem_append, List.mem_cons] at ha
    rcases ha with ha | rfl | ha
    · exact Nat.lt_succ_of_lt (h.chain.fresh a (List.mem_append_left _ ha))
    · exact Nat.lt_succ_self _
    · exact Nat.lt_succ_of_lt (h.chain.fresh a (List.mem_append_right _ ha))
  · rw [helem]
    exact h.shows.insert hl h.chain.fresh_not_mem
  · rw [hcount, h.count, hlen, uint, Nat.mod_eq_of_lt hsmall]
  · rw [hlen]
    exact hsmall

theorem Holds.append (h : Holds m L P) (hsmall : P.length + 1 < 2 ^ 32) :
    Holds (m.append elem) (L ++ [m.fresh]) (P ++ [elem]) := by
  have h' : Holds m (L ++ []) (P ++ []) := by simpa using h
  have hlink := fun (m' : LinkedList α) hf (he : m'.elem = Function.update m.elem m.fresh (some elem)) =>
    h'.link m' h.shows.length hf he
  cases hL : L.getLast? with
  | none =>
    obtain rfl := List.getLast?_eq_none_iff.mp hL
    have htail : m.tail = none := h.chain.tail
    have hm : m.append elem = { m.newNode elem with head := some m.fresh, tail := some m.fresh }.plusOne := by
      rw [LinkedList.append, htail]
    rw [hm]
    exact hlink _ rfl rfl rfl (by simpa using hsmall) ⟨rfl, Function.update_self _ _ _⟩ rfl
  | some t =>
    obtain ⟨l, rfl⟩ := List.getLast?_eq_some_iff.mp hL
    have htail : m.tail = some t := h.chain.tail.trans hL
    have hm : m.append elem = { (m.newNode elem).setNext t (some m.fresh) with tail := some m.fresh }.plusOne := by
      rw [LinkedList.append, htail]
    have hpath := path_middle.mp h.chain.path
    have ht := h.chain.fresh t (by simp)
    have hnt : t ∉ l := fun hm => (List.nodup_append'.mp h.chain.nodup).2.2 hm (by simp)
    rw [hm]
    refine hlink _ rfl rfl rfl (by simpa using hsmall) ?_ (by simp [plusOne])
    rw [List.append_assoc]
    refine path_middle.mpr ⟨hpath.1.congr ?_, ?_⟩
    · intro a ha
      have hat : a ≠ t := fun he => hnt (he ▸ ha)
      have hf : a ≠ m.fresh := Nat.ne_of_lt (h.chain.fresh a (by simp [ha]))
      simp [plusOne, setNext, newNode, hat, hf]
    · simp [Linked.Path, plusOne, setNext, newNode, Nat.ne_of_gt ht]

theorem Holds.pushHead (h : Holds m L P) (hsmall : P.length + 1 < 2 ^ 32) :
    Holds (m.pushHead elem) (m.fresh :: L) (elem :: P) := by
  have h' : Holds m ([] ++ L) ([] ++ P) := h
  have hlink := fun (m' : LinkedList α) hf (he : m'.elem = Function.update m.elem m.fresh (some elem)) =>
    h'.link m' rfl hf he
  cases L with
  | nil =>
    have hhead : m.head = none := h.chain.head
    have hm : m.pushHead elem = { m.newNode elem with head := some m.fresh, tail := some m.fresh }.plusOne := by
      rw [LinkedList.pushHead, hhead]
    rw [hm]
    exact hlink _ rfl rfl rfl hsmall ⟨rfl, Function.update_self _ _ _⟩ rfl
  | cons a l =>
    have hhead : m.head = some a := h.chain.head
    have hm : m.pushHead elem = { (m.newNode elem).setNext m.fresh (some a) with head := some m.fresh }.plusOne := by
      rw [LinkedList.pushHead, hhead]
    rw [hm]
    refine hlink _ rfl rfl rfl hsmall ⟨rfl, ?_⟩ h.chain.tail
    have hnext : Function.update (m.newNode elem).next m.fresh (some a) m.fresh = m.head := by
      rw [Function.update_self, hhead]
    change Path (Function.update (m.newNode elem).next m.fresh (some a))
      (Function.update (m.newNode elem).next m.fresh (some a) m.fresh) (a :: l) none
    rw [hnext]
    refine h.chain.path.congr fun x hx => ?_
    have hf : x ≠ m.fresh := Nat.ne_of_lt (h.chain.fresh x hx)
    simp [newNode, hf]

/-- A new node behind another one. -/
theorem Holds.linkAfter {e : α} (h : Holds m (l ++ node :: l') (Q ++ e :: Q')) (hl : l.length = Q.length)
    (hsmall : (Q ++ e :: Q').length + 1 < 2 ^ 32) :
    Holds (m.linkAfter node elem).plusOne (l ++ node :: m.fresh :: l') (Q ++ e :: elem :: Q') := by
  have h' : Holds m ((l ++ [node]) ++ l') ((Q ++ [e]) ++ Q') := by simpa using h
  have hpath := path_middle.mp h.chain.path
  have hnode := h.chain.fresh node (by simp)
  have hnd := List.nodup_append'.mp h.chain.nodup
  have hnext : (m.linkAfter node elem).next =
      Function.update (Function.update (Function.update m.next m.fresh none) m.fresh (m.next node)) node (some m.fresh) := by
    unfold LinkedList.linkAfter
    dsimp only
    split <;> rfl
  have hhead : (m.linkAfter node elem).head = m.head := by
    unfold LinkedList.linkAfter
    dsimp only
    split <;> rfl
  have helem : (m.linkAfter node elem).plusOne.elem = Function.update m.elem m.fresh (some elem) := by
    unfold LinkedList.linkAfter
    dsimp only
    split <;> rfl
  have hlink := h'.link (m.linkAfter node elem).plusOne (by simp [hl])
    (by unfold LinkedList.linkAfter; dsimp only; split <;> rfl) helem
    (by unfold LinkedList.linkAfter; dsimp only; split <;> rfl) (by simpa using hsmall) ?_ ?_
  · simpa using hlink
  · change Path (m.linkAfter node elem).next (m.linkAfter node elem).head _ none
    rw [hnext, hhead, List.append_assoc]
    refine path_middle.mpr ⟨hpath.1.congr fun a ha => ?_, ?_⟩
    · have hat : a ≠ node := fun he => hnd.2.2 (he ▸ ha) (by simp)
      have hf : a ≠ m.fresh := Nat.ne_of_lt (h.chain.fresh a (by simp [ha]))
      simp [hat, hf]
    · simp only [Function.update_self]
      refine ⟨rfl, ?_⟩
      rw [Function.update_of_ne (Nat.ne_of_gt hnode), Function.update_self]
      refine hpath.2.congr fun a ha => ?_
      have hat : a ≠ node := by
        rintro rfl
        exact (List.nodup_cons.mp hnd.2.1).1 ha
      have hf : a ≠ m.fresh := Nat.ne_of_lt (h.chain.fresh a (by simp [ha]))
      simp [hat, hf]
  · change (m.linkAfter node elem).tail = _
    have htail := Linked.last_iff h.chain.nodup
    rw [← h.chain.tail] at htail
    unfold LinkedList.linkAfter
    dsimp only
    by_cases hl' : l' = []
    · subst hl'
      rw [if_pos (htail.mpr rfl)]
      simp
    · rw [if_neg (fun he => hl' (htail.mp he))]
      change m.tail = _
      obtain ⟨t, ht⟩ := Option.ne_none_iff_exists'.mp (mt List.getLast?_eq_none_iff.mp hl')
      rw [h.chain.tail]
      simp [List.getLast?_cons, ht]

/-- One node less. -/
theorem Holds.unlink (m' : LinkedList α) {e : α} (h : Holds m (l ++ node :: l') (Q ++ e :: Q'))
    (hl : l.length = Q.length) (hfresh : m'.fresh = m.fresh) (helem : m'.elem = m.elem)
    (hcount : m'.count = uint (m.count + 2 ^ 32 - 1)) (hpath : Path m'.next m'.head (l ++ l') none)
    (htail : m'.tail = (l ++ l').getLast?) : Holds m' (l ++ l') (Q ++ Q') := by
  have hsub : (l ++ l').Sublist (l ++ node :: l') := by simp
  have hlen : (Q ++ e :: Q').length = (Q ++ Q').length + 1 := by simp [Nat.add_assoc]
  have hsmall := h.small
  refine ⟨⟨h.chain.nodup.sublist hsub, ?_, hpath, htail⟩, ?_, ?_, ?_⟩
  · intro a ha
    rw [hfresh]
    exact h.chain.fresh a (hsub.subset ha)
  · rw [helem]
    exact h.shows.remove hl
  · rw [hcount, h.count, hlen, uint]
    omega
  · omega

theorem Holds.popHead (h : Holds m (node :: l) (elem :: P)) :
    ∃ m', m.popHead = .ok (m', .ok elem) ∧ Holds m' l P := by
  have hhead : m.head = some node := h.chain.head
  have helem : m.elemOf node = .ok elem := by
    rw [elemOf, (Linked.shows_cons.mp h.shows).1]
  have hlast : m.head = m.tail ↔ l = [] := by
    rw [hhead, h.chain.tail]
    exact Linked.last_iff (l := []) h.chain.nodup
  have hrun : m.popHead = .ok ((if m.head = m.tail then { m with head := none, tail := none }
      else { m with head := m.next node }).minusOne, .ok elem) := by
    rw [LinkedList.popHead, hhead]
    simp only [bind, Except.bind, helem]
    rfl
  have h' : Holds m ([] ++ node :: l) ([] ++ elem :: P) := h
  refine ⟨_, hrun, ?_⟩
  by_cases hl : l = []
  · subst hl
    rw [if_pos (hlast.mpr rfl)]
    exact h'.unlink _ rfl rfl rfl rfl rfl rfl
  · rw [if_neg (mt hlast.mp hl)]
    refine h'.unlink _ rfl rfl rfl rfl h.chain.path.2 ?_
    change m.tail = _
    obtain ⟨t, ht⟩ := Option.ne_none_iff_exists'.mp (mt List.getLast?_eq_none_iff.mp hl)
    rw [h.chain.tail, List.getLast?_cons, List.nil_append, ht]
    rfl

/-- The loop of `popTail` comes to the node before the tail. -/
theorem findOld_ok {tail n : Nat} {old p : Option Nat} (hpath : Path m.next p (l ++ [tail]) none) (ht : tail ∉ l)
    (hn : l.length < n) : m.findOld tail n old p = .ok (l.getLast?.or old) := by
  induction l generalizing n old p with
  | nil =>
    obtain ⟨n, rfl⟩ := Nat.exists_eq_add_of_lt hn
    obtain ⟨rfl, -⟩ := hpath
    rw [findOld, if_pos rfl]
    rfl
  | cons a l ih =>
    obtain ⟨n, rfl⟩ := Nat.exists_eq_succ_of_ne_zero (Nat.ne_zero_of_lt hn)
    obtain ⟨rfl, hpath⟩ := hpath
    have hne : some a ≠ some tail := fun he => ht (by simp [Option.some.inj he])
    rw [findOld, if_neg hne, ih hpath (fun hm => ht (List.mem_cons_of_mem _ hm)) (by simpa using hn), List.getLast?_cons]
    cases l.getLast? <;> rfl

theorem Holds.popTail (h : Holds m (l ++ [node]) (P ++ [elem])) :
    ∃ m', m.popTail = .ok (m', .ok elem) ∧ Holds m' l P := by
  have htail : m.tail = some node := by rw [h.chain.tail, List.getLast?_concat]
  have hlen : l.length = P.length := by simpa using h.shows.length
  have helem : m.elemOf node = .ok elem := by
    rw [elemOf, (Linked.shows_cons.mp ((Linked.shows_append hlen).mp h.shows).2).1]
  have hfirst : m.head = m.tail ↔ l = [] := by
    rw [h.chain.head, htail, eq_comm]
    exact Linked.first_iff h.chain.nodup
  have hnot : node ∉ l := fun hm => (List.nodup_append'.mp h.chain.nodup).2.2 hm (by simp)
  rw [LinkedList.popTail, htail]
  dsimp only
  rw [← htail]
  cases hold : l.getLast? with
  | none =>
    obtain rfl := List.getLast?_eq_none_iff.mp hold
    obtain rfl := List.length_eq_zero_iff.mp hlen.symm
    rw [if_pos (hfirst.mpr rfl), helem]
    refine ⟨_, rfl, ?_⟩
    exact h.unlink (l := []) (Q := []) _ rfl rfl rfl rfl rfl rfl
  | some old =>
    obtain ⟨l, rfl⟩ := List.getLast?_eq_some_iff.mp hold
    have hold : m.findOld node (m.fresh + 1) m.head m.head = .ok (some old) := by
      have hbound := h.chain.length_le
      rw [List.length_append, List.length_singleton] at hbound
      rw [findOld_ok h.chain.path hnot (by omega), List.getLast?_concat]
      rfl
    have hpath := path_middle.mp h.chain.path
    have hpath' := path_middle.mp hpath.1
    have hnd := List.nodup_append'.mp h.chain.nodup
    rw [if_neg (mt hfirst.mp (by simp))]
    simp only [bind, Except.bind, hold, helem]
    refine ⟨_, rfl, ?_⟩
    have h' : Holds m ((l ++ [old]) ++ node :: []) (P ++ elem :: []) := h
    have hout := h'.unlink ({ m with tail := some old }.setNext old none).minusOne hlen minusOne_fresh minusOne_elem
      (by rw [minusOne_count, setNext_count]) ?_ ?_
    · simpa using hout
    · rw [List.append_nil, minusOne_next, minusOne_head]
      refine path_middle.mpr ⟨hpath'.1.congr fun a ha => ?_, Function.update_self _ _ _⟩
      refine Function.update_of_ne ?_ _ _
      rintro rfl
      exact (List.nodup_append'.mp hnd.1).2.2 ha (by simp)
    · rw [minusOne_tail, List.append_nil, List.getLast?_concat]
      rfl

variable (m node found) in
theorem unlinkAfter_fields :
    (m.unlinkAfter node found).head = m.head ∧ (m.unlinkAfter node found).count = m.count ∧
      (m.unlinkAfter node found).elem = m.elem ∧
      (m.unlinkAfter node found).next = Function.update m.next node (m.next found) ∧
      (m.unlinkAfter node found).fresh = m.fresh := by
  unfold LinkedList.unlinkAfter
  dsimp only
  split <;> exact ⟨rfl, rfl, rfl, rfl, rfl⟩

/-- The node behind another one. -/
theorem Holds.unlinkAfter {e e' : α} (h : Holds m (l ++ node :: found :: l') (Q ++ e :: e' :: Q'))
    (hl : l.length = Q.length) : Holds (m.unlinkAfter node found).minusOne (l ++ node :: l') (Q ++ e :: Q') := by
  have h' : Holds m ((l ++ [node]) ++ found :: l') ((Q ++ [e]) ++ e' :: Q') := by simpa using h
  have hpath := path_middle.mp h.chain.path
  have hnd := List.nodup_append'.mp h.chain.nodup
  have hnnode : node ∉ found :: l' := (List.nodup_cons.mp hnd.2.1).1
  have hnext : m.next node = some found := hpath.2.1
  have hlast : some found = m.tail ↔ l' = [] := by
    rw [h'.chain.tail]
    exact Linked.last_iff h'.chain.nodup
  obtain ⟨hhead, hcount, helem, hnext', hfresh⟩ := unlinkAfter_fields m node found
  have htail : (m.unlinkAfter node found).tail = if some found = m.tail then some node else m.tail := by
    unfold LinkedList.unlinkAfter
    rw [hnext]
    dsimp only
    split <;> rfl
  have hout := h'.unlink (m.unlinkAfter node found).minusOne (by simp [hl]) (minusOne_fresh.trans hfresh)
    (minusOne_elem.trans helem) (by rw [minusOne_count, hcount]) ?_ ?_
  · simpa using hout
  · rw [minusOne_next, minusOne_head, hnext', hhead, List.append_assoc]
    refine path_middle.mpr ⟨hpath.1.congr fun a ha => ?_, ?_⟩
    · refine Function.update_of_ne ?_ _ _
      rintro rfl
      exact hnd.2.2 ha (by simp)
    · rw [Function.update_self]
      refine hpath.2.2.congr fun a ha => ?_
      refine Function.update_of_ne ?_ _ _
      rintro rfl
      exact hnnode (List.mem_cons_of_mem _ ha)
  · rw [minusOne_tail, htail]
    by_cases hl' : l' = []
    · subst hl'
      rw [if_pos (hlast.mpr rfl)]
      simp
    · rw [if_neg (mt hlast.mp hl')]
      obtain ⟨t, ht⟩ := Option.ne_none_iff_exists'.mp (mt List.getLast?_eq_none_iff.mp hl')
      rw [h.chain.tail]
      simp [List.getLast?_cons, ht]

theorem walk_eq {p : Option Nat} (hpath : Path m.next p l none) (i : Nat) : m.walk i p = l[i]? := by
  induction i generalizing l p with
  | zero => rw [walk, hpath.start, List.head?_eq_getElem?]
  | succ i ih =>
    cases l with
    | nil =>
      obtain rfl := hpath
      rfl
    | cons a l =>
      obtain ⟨rfl, hpath⟩ := hpath
      rw [walk, ih hpath, List.getElem?_cons_succ]

theorem Chain.findNode (h : Chain m L) (i : Nat) :
    m.findNode i = match L[i]? with
      | some node => .ok node
      | none => .error (.assertionError "List is shorter than its count.") := by
  rw [← walk_eq h.path]
  cases hw : m.walk i m.head <;> simp only [LinkedList.findNode, hw]

theorem nodesFrom_ok {p : Option Nat} {n : Nat} (hpath : Path m.next p l none) (hn : l.length ≤ n) :
    m.nodesFrom n p = .ok l := by
  induction l generalizing n p with
  | nil =>
    obtain rfl := hpath
    cases n <;> rfl
  | cons a l ih =>
    obtain ⟨rfl, hpath⟩ := hpath
    obtain ⟨n, rfl⟩ := Nat.exists_eq_succ_of_ne_zero (Nat.ne_zero_of_lt hn)
    rw [nodesFrom, ih hpath (Nat.le_of_succ_le_succ hn)]
    rfl

theorem findElem_ok [BEq α] {p : Option Nat} {n : Nat} (onode : Nat) (hpath : Path m.next p (l ++ node :: l') none)
    (hl : ∀ a ∈ l, ∃ x, m.elem a = some x ∧ (x == elem) = false)
    (hnode : ∃ x, m.elem node = some x ∧ (x == elem) = true) (hn : l.length < n) :
    m.findElem elem n onode p = .ok (l.getLast?.getD onode, node) := by
  induction l generalizing n onode p with
  | nil =>
    obtain ⟨n, rfl⟩ := Nat.exists_eq_succ_of_ne_zero (Nat.ne_zero_of_lt hn)
    obtain ⟨rfl, -⟩ := hpath
    obtain ⟨x, hx, he⟩ := hnode
    simp only [findElem, elemOf, hx, bind, Except.bind, he, if_true, List.getLast?_nil, Option.getD_none]
  | cons a l ih =>
    obtain ⟨n, rfl⟩ := Nat.exists_eq_succ_of_ne_zero (Nat.ne_zero_of_lt hn)
    obtain ⟨rfl, hpath⟩ := hpath
    obtain ⟨x, hx, he⟩ := hl a List.mem_cons_self
    have hrec := ih a hpath (fun b hb => hl b (List.mem_cons_of_mem a hb)) (Nat.lt_of_succ_lt_succ hn)
    simp only [findElem, elemOf, hx, bind, Except.bind, he, Bool.false_eq_true, if_false, hrec, List.getLast?_cons,
      Option.getD_some]

end LinkedList

end Crack
