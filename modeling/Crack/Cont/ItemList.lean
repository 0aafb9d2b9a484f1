import Crack.Cont.OrderedHashMap
import Crack.Lib.Linked

/-!
# The item list of OrderedHashMap

What linking and unlinking do to the doubly linked list of the items, apart from
the slot table.
-/
namespace Crack

namespace OrderedHashMap

open Linked (Segment)

variable {K V : Type} {m m' : OrderedHashMap K V} {L l l' : List (Item K)} {hash : Nat} {key : K} {value : V}

/-- `head`, `tail` and the links of the items form the list `L`. -/
structure Chain (m : OrderedHashMap K V) (L : List (Item K)) : Prop where
  addrs : (L.map Item.addr).Nodup
  fresh : ∀ item ∈ L, item.addr < m.fresh
  head : m.head = L.head?
  tail : m.tail = L.getLast?
  links : Segment (fun item => m.prev item.addr) (fun item => m.next item.addr) none L none

/-- The keys of the list and the values of its items. -/
def Shows (m : OrderedHashMap K V) (L : List (Item K)) (P : List (K × V)) : Prop :=
  P.map (fun p => (p.1, some p.2)) = L.map (fun item => (item.key, m.val item.addr))

theorem Chain.nodup (h : Chain m L) : L.Nodup := h.addrs.of_map _

theorem Chain.addr_inj (h : Chain m L) {a b : Item K} (ha : a ∈ L) (hb : b ∈ L) (he : a.addr = b.addr) : a = b :=
  List.inj_on_of_nodup_map h.addrs ha hb he

theorem Chain.same_iff (h : Chain m L) {a b : Item K} (ha : a ∈ L) (hb : b ∈ L) :
    same (some a) (some b) = true ↔ a = b := by
  simp only [same, Option.map_some, beq_iff_eq, Option.some.injEq]
  exact ⟨h.addr_inj ha hb, fun he => by rw [he]⟩

theorem Chain.next_eq (h : Chain m (l ++ a :: l')) : m.next a.addr = l'.head? := by
  have := (Linked.segment_append.mp h.links).2.2.1
  simpa using this

theorem Chain.prev_eq (h : Chain m (l ++ a :: l')) : m.prev a.addr = l.getLast? := by
  have := (Linked.segment_append.mp h.links).2.1
  simpa using this

variable {item : Item K}

/-- An item is the tail when nothing comes after it. -/
theorem Chain.is_tail (h : Chain m (l ++ item :: l')) : same (some item) m.tail = true ↔ l' = [] := by
  rw [h.tail, List.getLast?_append, List.getLast?_cons, Option.some_or]
  cases ht : l'.getLast? with
  | none => simp [List.getLast?_eq_none_iff.mp ht, same]
  | some t =>
    have htm := List.mem_of_getLast? ht
    rw [Option.getD_some, h.same_iff (by simp) (by simp [htm])]
    constructor
    · rintro rfl
      exact absurd htm (List.nodup_cons.mp (List.nodup_append'.mp h.nodup).2.1).1
    · rintro rfl; cases htm

theorem Chain.is_head (h : Chain m (l ++ item :: l')) : same (some item) m.head = true ↔ l = [] := by
  rw [h.head, List.head?_append, List.head?_cons]
  cases ht : l.head? with
  | none => simp [List.head?_eq_none_iff.mp ht, same]
  | some t =>
    have htm := List.mem_of_head? ht
    rw [Option.some_or, h.same_iff (by simp) (by simp [htm])]
    constructor
    · rintro rfl
      exact absurd (by simp) ((List.nodup_append'.mp h.nodup).2.2 htm)
    · rintro rfl; cases htm

/-- A new item is none of those in the list. -/
theorem Chain.fresh_addrs (h : Chain m (l ++ l')) :
    ((l ++ ⟨m.fresh, hash, key⟩ :: l').map Item.addr).Nodup := by
  have hperm : (l ++ ⟨m.fresh, hash, key⟩ :: l').Perm (⟨m.fresh, hash, key⟩ :: (l ++ l')) := List.perm_middle
  refine ((hperm.map Item.addr).nodup_iff).mpr (List.nodup_cons.mpr ⟨?_, h.addrs⟩)
  intro hm
  obtain ⟨item, hi, he⟩ := List.mem_map.mp hm
  have := h.fresh item hi
  simp only at he
  omega

/-- A new item between the parts of the list, with the links around it. -/
theorem Chain.insert (h : Chain m (l ++ l')) (hm : m'.fresh = m.fresh + 1)
    (hhead : m'.head = (l ++ ⟨m.fresh, hash, key⟩ :: l').head?)
    (htail : m'.tail = (l ++ ⟨m.fresh, hash, key⟩ :: l').getLast?)
    (hp : ∀ n < m.fresh, (∀ b : Item K, l'.head? = some b → n ≠ b.addr) → m'.prev n = m.prev n)
    (hph : ∀ a : Item K, l'.head? = some a → m'.prev a.addr = some ⟨m.fresh, hash, key⟩)
    (hn : ∀ n < m.fresh, (∀ b : Item K, l.getLast? = some b → n ≠ b.addr) → m'.next n = m.next n)
    (hnl : ∀ a : Item K, l.getLast? = some a → m'.next a.addr = some ⟨m.fresh, hash, key⟩)
    (hb : m'.prev m.fresh = l.getLast?) (hb' : m'.next m.fresh = l'.head?) :
    Chain m' (l ++ ⟨m.fresh, hash, key⟩ :: l') := by
  refine ⟨h.fresh_addrs, ?_, hhead, htail, Linked.insert_node h.links h.nodup ?_ hph ?_ hnl hb hb'⟩
  · intro item hi
    rw [hm]
    rcases List.mem_append.mp hi with hi | hi
    · exact Nat.lt_succ_of_lt (h.fresh item (by simp [hi]))
    · rcases List.mem_cons.mp hi with rfl | hi
      · exact Nat.lt_succ_self m.fresh
      · exact Nat.lt_succ_of_lt (h.fresh item (by simp [hi]))
  · intro a ha hne
    refine hp a.addr (h.fresh a ha) (fun b hb he => hne ?_)
    rw [hb, h.addr_inj ha (List.mem_append_right _ (List.mem_of_head? hb)) he]
  · intro a ha hne
    refine hn a.addr (h.fresh a ha) (fun b hb he => hne ?_)
    rw [hb, h.addr_inj ha (List.mem_append_left _ (List.mem_of_getLast? hb)) he]

/-- One item less, with what was around it linked past it. -/
theorem Chain.remove (h : Chain m (l ++ item :: l')) (hm : m'.fresh = m.fresh) (hhead : m'.head = (l ++ l').head?)
    (htail : m'.tail = (l ++ l').getLast?)
    (hp : ∀ n, (∀ b : Item K, l'.head? = some b → n ≠ b.addr) → m'.prev n = m.prev n)
    (hph : ∀ a : Item K, l'.head? = some a → m'.prev a.addr = l.getLast?)
    (hn : ∀ n, (∀ b : Item K, l.getLast? = some b → n ≠ b.addr) → m'.next n = m.next n)
    (hnl : ∀ a : Item K, l.getLast? = some a → m'.next a.addr = l'.head?) : Chain m' (l ++ l') := by
  have hsub : (l ++ l').Sublist (l ++ item :: l') := by simp
  have hmem : ∀ a ∈ l ++ l', a ∈ l ++ item :: l' := fun a ha => hsub.subset ha
  refine ⟨h.addrs.sublist (hsub.map _), fun a ha => by rw [hm]; exact h.fresh a (hmem a ha), hhead, htail,
    Linked.remove_node h.links h.nodup ?_ hph ?_ hnl⟩
  · intro a ha hne
    refine hp a.addr (fun b hb he => hne ?_)
    rw [hb, h.addr_inj (hmem a ha) (hmem b (List.mem_append_right _ (List.mem_of_head? hb))) he]
  · intro a ha hne
    refine hn a.addr (fun b hb he => hne ?_)
    rw [hb, h.addr_inj (hmem a ha) (hmem b (List.mem_append_left _ (List.mem_of_getLast? hb))) he]

variable (hash key value) in
theorem linkTail_chain (h : Chain m L) :
    Chain (m.linkTail hash key value).1 (L ++ [⟨m.fresh, hash, key⟩]) := by
  have h' : Chain m (L ++ []) := by rwa [List.append_nil]
  unfold linkTail
  cases hL : L.getLast? with
  | none =>
    rw [List.getLast?_eq_none_iff] at hL
    subst hL
    rw [h.tail]
    refine h'.insert rfl rfl rfl ?_ (by simp) ?_ (by simp) (by simp [newItem]) (by simp [newItem])
    · intro n hn _
      exact Function.update_of_ne (by omega) _ _
    · intro n hn _
      exact Function.update_of_ne (by omega) _ _
  | some t =>
    rw [h.tail, hL]
    have htm := List.mem_of_getLast? hL
    have htf := h.fresh t htm
    have hne : L ≠ [] := List.ne_nil_of_mem htm
    refine h'.insert rfl ?_ ?_ ?_ (by simp) ?_ ?_ ?_ ?_
    · change m.head = _
      rw [h.head, List.head?_append_of_ne_nil _ hne]
    · simp [newItem]
    · intro n hn _
      simp [newItem, setNext, Nat.ne_of_lt hn]
    · intro n hn hno
      simp [newItem, setNext, Nat.ne_of_lt hn, hno t hL]
    · intro a ha
      rw [hL] at ha
      cases ha
      simp [newItem, setNext]
    · simp [newItem, setNext, hL]
    · simp [newItem, setNext, Nat.ne_of_gt htf]

variable (hash key value) in
theorem linkHead_chain (h : Chain m L) :
    Chain (m.linkHead hash key value).1 (⟨m.fresh, hash, key⟩ :: L) := by
  have h' : Chain m ([] ++ L) := h
  unfold linkHead
  cases hL : L.head? with
  | none =>
    rw [List.head?_eq_none_iff] at hL
    subst hL
    simp only [newItem, h.head, List.head?_nil]
    refine h'.insert rfl rfl rfl ?_ (by simp) ?_ (by simp) (by simp) (by simp)
    · intro n hn _
      exact Function.update_of_ne (by omega) _ _
    · intro n hn _
      exact Function.update_of_ne (by omega) _ _
  | some t =>
    have htf := h.fresh t (List.mem_of_head? hL)
    have hlast : (([] : List (Item K)) ++ ⟨m.fresh, hash, key⟩ :: L).getLast? = L.getLast? := by
      cases L with
      | nil => cases hL
      | cons a l => simp [List.getLast?_cons_cons]
    simp only [newItem, h.head, hL]
    refine h'.insert rfl rfl ?_ ?_ ?_ ?_ (by simp) ?_ ?_
    · rw [hlast, ← h.tail]
      rfl
    · intro n hn hno
      simp [setNext, setPrev, Nat.ne_of_lt hn, hno t hL]
    · intro a ha
      rw [hL] at ha
      cases ha
      simp [setNext, setPrev]
    · intro n hn _
      simp [setNext, setPrev, Nat.ne_of_lt hn]
    · simp [setNext, setPrev, Nat.ne_of_gt htf]
    · simp [setNext, setPrev, hL]

variable (hash key value) in
theorem linkAfter_chain (h : Chain m (l ++ item :: l')) :
    Chain (m.linkAfter item hash key value).1 (l ++ item :: ⟨m.fresh, hash, key⟩ :: l') := by
  have hsplit : ∀ l'' : List (Item K), l ++ item :: l'' = (l ++ [item]) ++ l'' := by simp
  have h' : Chain m ((l ++ [item]) ++ l') := by rwa [hsplit] at h
  have hif := h.fresh item (by simp)
  have hnext := h.next_eq
  rw [hsplit]
  have hlast : (l ++ [item]).getLast? = some item := by simp
  have hsame := h.is_tail
  have hhead : m.head = ((l ++ [item]) ++ ⟨m.fresh, hash, key⟩ :: l').head? := by
    rw [h.head]
    simp [List.head?_append]
  cases hl : l'.head? with
  | none =>
    rw [List.head?_eq_none_iff] at hl
    subst hl
    have hs := hsame.mpr rfl
    simp only [linkAfter, newItem, hnext, setNext, List.head?_nil, hs, if_true]
    refine h'.insert rfl hhead (by simp) ?_ (by simp) ?_ ?_ (by simp) ?_
    · intro n hn _
      simp [Nat.ne_of_lt hn]
    · intro n hn hno
      simp [Nat.ne_of_lt hn, hno item hlast]
    · intro a ha
      rw [hlast] at ha
      cases ha
      simp
    · simp [Nat.ne_of_gt hif]
  | some a =>
    have hne : l' ≠ [] := by rintro rfl; cases hl
    have haf := h.fresh a (by simp [List.mem_of_head? hl])
    have hs : ¬ same (some item) m.tail = true := fun hs => hne (hsame.mp hs)
    simp only [linkAfter, newItem, hnext, hl, setNext, setPrev, hs]
    refine h'.insert rfl hhead ?_ ?_ ?_ ?_ ?_ ?_ ?_
    · rw [h.tail]
      cases l' with
      | nil => exact absurd rfl hne
      | cons b l' => simp [List.getLast?_append, List.getLast?_cons]
    · intro n hn hno
      simp [Nat.ne_of_lt hn, hno a hl]
    · intro b hb
      rw [hl] at hb
      cases hb
      simp
    · intro n hn hno
      simp [Nat.ne_of_lt hn, hno item hlast]
    · intro b hb
      rw [hlast] at hb
      cases hb
      simp
    · simp [Nat.ne_of_gt haf]
    · simp [Nat.ne_of_gt hif, hl]

theorem unlinkHead_chain (h : Chain m (item :: l)) : Chain (m.unlinkHead item) l := by
  have h' : Chain m ([] ++ item :: l) := h
  have hnext := h'.next_eq
  unfold unlinkHead
  cases l with
  | nil =>
    have hs : same m.head m.tail = true := by rw [h.head, h.tail]; simp [same]
    simp only [hs, if_true]
    exact h'.remove rfl rfl rfl (fun _ _ => rfl) (by simp) (fun _ _ => rfl) (by simp)
  | cons a l =>
    have hlast : (item :: a :: l).getLast? = (a :: l).getLast? := List.getLast?_cons_cons
    have hs : same m.head m.tail = false := by
      rw [h.head, h.tail, hlast]
      cases ht : (a :: l).getLast? with
      | none => rfl
      | some t =>
        have htm := List.mem_of_getLast? ht
        rw [List.head?_cons, ← Bool.not_eq_true, h.same_iff (by simp) (by simp [List.mem_cons.mp htm])]
        rintro rfl
        exact (List.nodup_cons.mp h.nodup).1 htm
    simp only [hs, hnext, Bool.false_eq_true, if_false, List.head?_cons]
    refine h'.remove rfl rfl ?_ ?_ ?_ (fun _ _ => rfl) (by simp)
    · change m.tail = _
      rw [h.tail, hlast]
      rfl
    · intro n hno
      exact Function.update_of_ne (hno a rfl) _ _
    · intro b hb
      cases hb
      simp [setPrev]

theorem unlinkTail_chain (h : Chain m (l ++ [item])) : Chain (m.unlinkTail item) l := by
  have hprev := h.prev_eq
  rw [← List.append_nil l]
  unfold unlinkTail
  cases hl : l.getLast? with
  | none =>
    rw [List.getLast?_eq_none_iff] at hl
    subst hl
    simp only [hprev, List.getLast?_nil]
    exact h.remove rfl rfl rfl (fun _ _ => rfl) (by simp) (fun _ _ => rfl) (by simp)
  | some t =>
    have hne : l ≠ [] := by rintro rfl; cases hl
    simp only [hprev, hl]
    refine h.remove rfl ?_ ?_ (fun _ _ => rfl) (by simp) ?_ ?_
    · change m.head = _
      rw [h.head, List.append_nil, List.head?_append_of_ne_nil _ hne]
    · rw [List.append_nil, hl]
      rfl
    · intro n hno
      exact Function.update_of_ne (hno t hl) _ _
    · intro b hb
      rw [hl] at hb
      cases hb
      simp [setNext]

theorem unlinkBetween_chain {prev item next : Item K} (h : Chain m (l ++ prev :: item :: next :: l')) :
    Chain (m.unlinkBetween prev next) (l ++ prev :: next :: l') := by
  have hsplit : ∀ l'' : List (Item K), l ++ prev :: l'' = (l ++ [prev]) ++ l'' := by simp
  have h' : Chain m ((l ++ [prev]) ++ item :: (next :: l')) := by rwa [hsplit] at h
  have hlast : (l ++ [prev]).getLast? = some prev := by simp
  rw [hsplit]
  refine h'.remove rfl ?_ ?_ ?_ ?_ ?_ ?_
  · change m.head = _
    rw [h'.head]
    simp [List.head?_append]
  · change m.tail = _
    rw [h'.tail]
    simp [List.getLast?_append, List.getLast?_cons]
  · intro n hno
    simp [unlinkBetween, setNext, setPrev, hno next rfl]
  · intro a ha
    cases ha
    simp [unlinkBetween, setNext, setPrev]
  · intro n hno
    simp [unlinkBetween, setNext, setPrev, hno prev hlast]
  · intro a ha
    rw [hlast] at ha
    cases ha
    simp [unlinkBetween, setNext, setPrev]

theorem unlinkAfter_chain {item found : Item K} (h : Chain m (l ++ item :: found :: l')) :
    Chain (m.unlinkAfter item found) (l ++ item :: l') := by
  have hsplit : ∀ l'' : List (Item K), l ++ item :: l'' = (l ++ [item]) ++ l'' := by simp
  have h' : Chain m ((l ++ [item]) ++ found :: l') := by rwa [hsplit] at h
  have hlast : (l ++ [item]).getLast? = some item := by simp
  have hnext := h'.next_eq
  rw [hsplit]
  have hhead : m.head = ((l ++ [item]) ++ l').head? := by
    rw [h'.head]
    simp [List.head?_append]
  unfold unlinkAfter
  cases hl : l'.head? with
  | none =>
    rw [List.head?_eq_none_iff] at hl
    subst hl
    have hs := h'.is_tail.mpr rfl
    simp only [hs, if_true, hnext, List.head?_nil]
    refine h'.remove rfl hhead (by simp [setNext]) (fun _ _ => rfl) (by simp) ?_ ?_
    · intro n hno
      exact Function.update_of_ne (hno item hlast) _ _
    · intro a ha
      rw [hlast] at ha
      cases ha
      simp [setNext]
  | some a =>
    have hne : l' ≠ [] := by rintro rfl; cases hl
    have hs : ¬ same (some found) m.tail = true := fun hs => hne (h'.is_tail.mp hs)
    simp only [if_neg hs, hnext, hl]
    refine h'.remove rfl hhead ?_ ?_ ?_ ?_ ?_
    · change m.tail = _
      rw [h'.tail]
      cases l' with
      | nil => exact absurd rfl hne
      | cons b l' => simp [List.getLast?_append, List.getLast?_cons]
    · intro n hno
      exact Function.update_of_ne (hno a hl) _ _
    · intro b hb
      rw [hl] at hb
      cases hb
      simp [setNext, setPrev]
    · intro n hno
      exact Function.update_of_ne (hno item hlast) _ _
    · intro b hb
      rw [hlast] at hb
      cases hb
      simp [setNext, setPrev, hl]

theorem linkTail_val : (m.linkTail hash key value).1.val = Function.update m.val m.fresh (some value) := by
  unfold linkTail; cases m.tail <;> rfl

theorem linkHead_val : (m.linkHead hash key value).1.val = Function.update m.val m.fresh (some value) := by
  unfold linkHead newItem; cases m.head <;> rfl

theorem linkAfter_val : (m.linkAfter item hash key value).1.val = Function.update m.val m.fresh (some value) := by
  unfold linkAfter; cases m.next item.addr <;> (dsimp only; split) <;> rfl

theorem unlinkHead_val : (m.unlinkHead item).val = m.val := by
  unfold unlinkHead; dsimp only; split <;> split <;> rfl

theorem unlinkTail_val : (m.unlinkTail item).val = m.val := by
  unfold unlinkTail; dsimp only; split <;> rfl

theorem unlinkAfter_val {item found : Item K} : (m.unlinkAfter item found).val = m.val := by
  unfold unlinkAfter; dsimp only; split <;> split <;> rfl

variable {P : List (K × V)}

theorem Shows.keys (h : Shows m L P) : P.map Prod.fst = L.map Item.key := by
  simpa [Function.comp_def] using congrArg (List.map Prod.fst) h

theorem Shows.length (h : Shows m L P) : P.length = L.length := by
  simpa using congrArg List.length h

variable (hash key) in
/-- A new item in the list and a new pair in the same place. -/
theorem Shows.insert (h : Shows m L P) (hc : Chain m L) (i : Nat)
    (hv : m'.val = Function.update m.val m.fresh (some value)) :
    Shows m' (L.take i ++ ⟨m.fresh, hash, key⟩ :: L.drop i) (P.take i ++ (key, value) :: P.drop i) := by
  have hold : L.map (fun item => (item.key, m'.val item.addr)) = L.map (fun item => (item.key, m.val item.addr)) := by
    refine List.map_congr_left (fun item hi => ?_)
    rw [hv, Function.update_of_ne (Nat.ne_of_lt (hc.fresh item hi))]
  unfold Shows at *
  rw [List.map_append, List.map_append, List.map_cons, List.map_cons, List.map_take, List.map_drop, List.map_take,
    List.map_drop, hold, h, hv]
  simp

theorem Shows.remove (h : Shows m L P) (i j : Nat) (hv : m'.val = m.val) :
    Shows m' (L.take i ++ L.drop j) (P.take i ++ P.drop j) := by
  unfold Shows at *
  rw [List.map_append, List.map_append, List.map_take, List.map_drop, List.map_take, List.map_drop, hv, h]

/-- The key and the value at a position. -/
theorem Shows.get (h : Shows m L P) {i : Nat} (hi : L[i]? = some item) :
    ∃ v, P[i]? = some (item.key, v) ∧ m.val item.addr = some v := by
  have := congrArg (fun l => l[i]?) h
  simp only [List.getElem?_map, hi, Option.map_some] at this
  obtain ⟨⟨k, v⟩, hp, he⟩ := Option.map_eq_some_iff.mp this
  rw [Prod.mk.injEq] at he
  obtain ⟨rfl, hv⟩ := he
  exact ⟨v, hp, hv.symm⟩

end OrderedHashMap

end Crack
