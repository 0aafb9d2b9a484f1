import Crack.Cont.TreeRebalance

/-!
# Searching a TreeMap and inserting into it

Where a key is, or where it has to go, in a tree whose nodes hold entries in
ascending order of the keys.
-/
namespace Crack

open RedBlack (Side RBTree Frame plug above before after contents Fits)

namespace TreeMap

variable {K V : Type}

/-- How a node compares its key with another one. -/
def order (cmp : K → K → Int) (key target : K) : Ordering := compare 0 (diff cmp key target)

/-- The keys of the entries ascend. -/
def Sorted (cmp : K → K → Int) (L : List (K × V)) : Prop := L.Pairwise (fun x y => order cmp x.1 y.1 = .lt)

/-- The nodes hold the entries. -/
def Shows (m : TreeMap K V) (l : List Nat) (L : List (K × V)) : Prop :=
  l.map (fun n => (m.key n, m.val n)) = L.map (fun e => (some e.1, some e.2))

variable {cmp : K → K → Int} {m m' : TreeMap K V} {t : RBTree Nat} {a : Nat} {C : List (Frame Nat)} {l l' : List Nat}
  {L L₁ L₂ : List (K × V)} {k target : K}

theorem order_eq_iff : order cmp k target = .eq ↔ diff cmp k target = 0 := by
  rw [order, Int.compare_eq_eq]
  exact eq_comm

theorem order_lt_iff : order cmp k target = .lt ↔ 0 < diff cmp k target := by
  rw [order, Int.compare_eq_lt]

theorem sideOf_eq : sideOf cmp k target = if order cmp k target = .lt then .right else .left := by
  rw [sideOf, if_congr order_lt_iff rfl rfl]

theorem shows_nil : Shows m [] L ↔ L = [] := by
  unfold Shows
  rw [List.map_nil, eq_comm, List.map_eq_nil_iff]

theorem shows_append : Shows m (l ++ l') L ↔ ∃ L₁ L₂, L = L₁ ++ L₂ ∧ Shows m l L₁ ∧ Shows m l' L₂ := by
  unfold Shows
  rw [List.map_append, eq_comm, List.map_eq_append_iff]
  constructor
  · rintro ⟨L₁, L₂, h, h₁, h₂⟩; exact ⟨L₁, L₂, h, h₁.symm, h₂.symm⟩
  · rintro ⟨L₁, L₂, h, h₁, h₂⟩; exact ⟨L₁, L₂, h, h₁.symm, h₂.symm⟩

theorem shows_cons : Shows m (a :: l) L ↔ ∃ e L', L = e :: L' ∧ m.key a = some e.1 ∧ m.val a = some e.2 ∧ Shows m l L' := by
  unfold Shows
  rw [List.map_cons, eq_comm, List.map_eq_cons_iff]
  constructor
  · rintro ⟨e, L', h, he, h'⟩; exact ⟨e, L', h, (Prod.mk.inj he).1.symm, (Prod.mk.inj he).2.symm, h'.symm⟩
  · rintro ⟨e, L', h, hk, hv, h'⟩; exact ⟨e, L', h, by rw [hk, hv], h'.symm⟩

theorem Shows.length (h : Shows m l L) : l.length = L.length := by
  simpa using congrArg List.length h

theorem Shows.congr (h : Shows m l L) (hk : ∀ n ∈ l, m'.key n = m.key n) (hv : ∀ n ∈ l, m'.val n = m.val n) :
    Shows m' l L := by
  unfold Shows at *
  rw [← h]
  exact List.map_congr_left (fun n hn => by rw [hk n hn, hv n hn])

theorem Shows.same (h : Shows m l L) (hd : SameData m m') : Shows m' l L :=
  h.congr (fun _ _ => by rw [hd.key]) (fun _ _ => by rw [hd.val])

variable [Std.TransCmp (order cmp)] {fuel : Nat}

/-- What `find` yields for the part of the tree below a link. -/
def findBelow (m : TreeMap K V) (cmp : K → K → Int) (target : K) (fuel : Nat) : Option Nat → Except Fault (Option Nat)
  | some child => m.findNode cmp target fuel child
  | none => .ok none

omit [Std.TransCmp (order cmp)] in
theorem findNode_succ (hk : m.key a = some k) : m.findNode cmp target (fuel + 1) a =
    if order cmp k target = .eq then .ok (some a)
    else m.findBelow cmp target fuel (m.child (if order cmp k target = .lt then .right else .left, a)) := by
  simp only [findNode, hk, deref, bind, Except.bind, pure, Except.pure, sideOf_eq, order_eq_iff]
  split
  · rfl
  · rename_i hne
    split <;> simp [*, findBelow]

variable (target) in
/-- `find` ends at the node of the key. -/
theorem findBelow_ok {p : Option Nat} (ht : m.toLinks.Tree p t) (hfuel : t.toList.length ≤ fuel)
    (hL : Shows m t.toList L) (hs : Sorted cmp L) :
    (∃ n k, m.findBelow cmp target fuel t.root = .ok (some n) ∧ n ∈ t.toList ∧ m.key n = some k ∧
      order cmp k target = .eq) ∨
    m.findBelow cmp target fuel t.root = .ok none ∧ ∀ e ∈ L, order cmp e.1 target ≠ .eq := by
  induction t generalizing p fuel L with
  | nil => exact .inr ⟨rfl, by rw [shows_nil.mp hL]; simp⟩
  | node red l b r ihl ihr =>
    obtain ⟨_, _, hcl, hcr, htl, htr⟩ := ht
    obtain ⟨L₁, L', rfl, hL₁, hL'⟩ := shows_append.mp hL
    obtain ⟨e, L₂, rfl, hk, hv, hL₂⟩ := shows_cons.mp hL'
    obtain ⟨hs₁, hs₂, hs₁₂⟩ := List.pairwise_append.mp hs
    obtain ⟨hse, hs₂⟩ := List.pairwise_cons.mp hs₂
    cases fuel with
    | zero => simp [RBTree.toList] at hfuel
    | succ fuel =>
      simp only [RBTree.toList, List.length_append, List.length_cons] at hfuel
      have hfl : l.toList.length ≤ fuel := by omega
      have hfr : r.toList.length ≤ fuel := by omega
      have hstep : m.findNode cmp target (fuel + 1) b = _ := findNode_succ hk
      simp only [RBTree.root, findBelow, hstep]
      cases ho : order cmp e.1 target with
      | eq => exact .inl ⟨b, e.1, rfl, by simp [RBTree.toList], hk, ho⟩
      | lt =>
        simp only [reduceCtorEq, if_false, if_true, hcr]
        rcases ihr htr hfr hL₂ hs₂ with ⟨n, k, hf, hn, hkn, hkt⟩ | ⟨hf, hall⟩
        · exact .inl ⟨n, k, hf, by simp [RBTree.toList, hn], hkn, hkt⟩
        · refine .inr ⟨hf, fun x hx hxt => ?_⟩
          rcases List.mem_append.mp hx with hx | hx
          · have := Std.TransCmp.lt_trans (hs₁₂ x hx e (by simp)) ho
            rw [hxt] at this; cases this
          · rcases List.mem_cons.mp hx with rfl | hx
            · rw [hxt] at ho; cases ho
            · exact hall x hx hxt
      | gt =>
        simp only [reduceCtorEq, if_false, hcl]
        have hgt := Std.OrientedCmp.lt_of_gt ho
        rcases ihl htl hfl hL₁ hs₁ with ⟨n, k, hf, hn, hkn, hkt⟩ | ⟨hf, hall⟩
        · exact .inl ⟨n, k, hf, by simp [RBTree.toList, hn], hkn, hkt⟩
        · refine .inr ⟨hf, fun x hx hxt => ?_⟩
          rcases List.mem_append.mp hx with hx | hx
          · exact hall x hx hxt
          · rcases List.mem_cons.mp hx with rfl | hx
            · rw [hxt] at ho; cases ho
            · have := Std.TransCmp.lt_trans hgt (hse x hx)
              rw [Std.OrientedCmp.eq_symm hxt] at this; cases this

omit [Std.TransCmp (order cmp)] in
theorem insertNode_succ {fuel new : Nat} {k' : K} (hk : m.key a = some k) (hk' : m.key new = some k') :
    insertNode cmp (fuel + 1) m a new =
      if order cmp k k' = .eq then .ok { m with val := Function.update m.val a (m.val new) }
      else match m.child (if order cmp k k' = .lt then .right else .left, a) with
        | some child => insertNode cmp fuel m child new
        | none =>
          rebalance m.fresh (m.setChild (if order cmp k k' = .lt then .right else .left) a (some new)) new := by
  simp only [insertNode, hk, hk', deref, bind, Except.bind, pure, Except.pure, sideOf_eq, order_eq_iff]
  split
  · rfl
  · split <;> simp [*, setChild, setChildField, setParentField]

/-- Where `insert` ends: at a node with the key, or at a hole between the smaller and the larger keys. -/
theorem insertNode_ok {new fuel : Nat} (h : Realises m (plug C t)) (hr : t.root = some a)
    (hfuel : t.toList.length ≤ fuel) (hk : m.key new = some k) (hL₁ : Shows m (before C) L₁) (hL : Shows m t.toList L)
    (hL₂ : Shows m (after C) L₂) (hs : Sorted cmp L) (h₁ : ∀ e ∈ L₁, order cmp e.1 k = .lt)
    (h₂ : ∀ e ∈ L₂, order cmp k e.1 = .lt) :
    (∃ n k', n ∈ t.toList ∧ m.key n = some k' ∧ order cmp k' k = .eq ∧
      insertNode cmp fuel m a new = .ok { m with val := Function.update m.val n (m.val new) }) ∨
    ∃ f D L₁' L₂', plug C t = plug (f :: D) .nil ∧ L₁ ++ (L ++ L₂) = L₁' ++ L₂' ∧ Shows m (before (f :: D)) L₁' ∧
      Shows m (after (f :: D)) L₂' ∧ (∀ e ∈ L₁', order cmp e.1 k = .lt) ∧ (∀ e ∈ L₂', order cmp k e.1 = .lt) ∧
      insertNode cmp fuel m a new = rebalance m.fresh (m.setChild f.side f.a (some new)) new := by
  induction t generalizing C a fuel L L₁ L₂ with
  | nil => cases hr
  | node red l b r ihl ihr =>
    obtain ⟨Ll, L', rfl, hLl, hL'⟩ := shows_append.mp hL
    obtain ⟨e, Lr, rfl, hkb, hvb, hLr⟩ := shows_cons.mp hL'
    obtain ⟨hsl, hsr, hslr⟩ := List.pairwise_append.mp hs
    obtain ⟨hse, hsr⟩ := List.pairwise_cons.mp hsr
    obtain ⟨_, _, hcl, hcr, _, _⟩ := (RedBlack.Links.tree_plug.mp h.links).2
    cases hr
    cases fuel with
    | zero => simp [RBTree.toList] at hfuel
    | succ fuel =>
      simp only [RBTree.toList, List.length_append, List.length_cons] at hfuel
      have hfl : l.toList.length ≤ fuel := by omega
      have hfr : r.toList.length ≤ fuel := by omega
      have hstep : insertNode cmp (fuel + 1) m b new = _ := insertNode_succ hkb hk
      cases ho : order cmp e.1 k with
      | eq =>
        rw [ho, if_pos rfl] at hstep
        exact .inl ⟨b, e.1, by simp [RBTree.toList], hkb, ho, hstep⟩
      | lt =>
        rw [ho, if_neg (by decide), if_pos rfl, hcr] at hstep
        have hleft : Shows m (before (⟨.right, red, b, l⟩ :: C)) (L₁ ++ (Ll ++ [e])) := by
          refine shows_append.mpr ⟨_, _, rfl, hL₁, shows_append.mpr ⟨_, _, rfl, hLl, ?_⟩⟩
          exact shows_cons.mpr ⟨e, [], rfl, hkb, hvb, rfl⟩
        have hlt : ∀ x ∈ L₁ ++ (Ll ++ [e]), order cmp x.1 k = .lt := by
          intro x hx
          rcases List.mem_append.mp hx with hx | hx
          · exact h₁ x hx
          rcases List.mem_append.mp hx with hx | hx
          · exact Std.TransCmp.lt_trans (hslr x hx e (by simp)) ho
          · rw [List.mem_singleton.mp hx]; exact ho
        cases hroot : r.root with
        | none =>
          obtain rfl := RBTree.root_eq_none.mp hroot
          rw [shows_nil.mp hLr]
          rw [hroot] at hstep
          exact .inr ⟨⟨.right, red, b, l⟩, C, _, L₂, rfl, by simp, hleft, hL₂, hlt, h₂, hstep⟩
        | some d =>
          rw [hroot] at hstep
          rw [hstep]
          rcases ihr (C := ⟨.right, red, b, l⟩ :: C) h hroot hfr hleft hLr hL₂ hsr hlt h₂ with
            ⟨n, k', hn, hrest⟩ | ⟨f, D, L₁', L₂', hplug, hLs, hrest⟩
          · exact .inl ⟨n, k', by simp [RBTree.toList, hn], hrest⟩
          · exact .inr ⟨f, D, L₁', L₂', hplug, by rw [← hLs]; simp, hrest⟩
      | gt =>
        rw [ho, if_neg (by decide), if_neg (by decide), hcl] at hstep
        have hgt := Std.OrientedCmp.lt_of_gt ho
        have hright : Shows m (after (⟨.left, red, b, r⟩ :: C)) ((e :: Lr) ++ L₂) :=
          shows_append.mpr ⟨_, _, rfl, hL', hL₂⟩
        have hlt : ∀ x ∈ (e :: Lr) ++ L₂, order cmp k x.1 = .lt := by
          intro x hx
          rcases List.mem_append.mp hx with hx | hx
          · rcases List.mem_cons.mp hx with rfl | hx
            · exact hgt
            · exact Std.TransCmp.lt_trans hgt (hse x hx)
          · exact h₂ x hx
        cases hroot : l.root with
        | none =>
          obtain rfl := RBTree.root_eq_none.mp hroot
          rw [shows_nil.mp hLl]
          rw [hroot] at hstep
          exact .inr ⟨⟨.left, red, b, r⟩, C, L₁, _, rfl, rfl, hL₁, hright, h₁, hlt, hstep⟩
        | some d =>
          rw [hroot] at hstep
          rw [hstep]
          rcases ihl (C := ⟨.left, red, b, r⟩ :: C) h hroot hfl hL₁ hLl hright hsl h₁ hlt with
            ⟨n, k', hn, hrest⟩ | ⟨f, D, L₁', L₂', hplug, hLs, hrest⟩
          · exact .inl ⟨n, k', by simp [RBTree.toList, hn], hrest⟩
          · exact .inr ⟨f, D, L₁', L₂', hplug, by rw [← hLs]; simp, hrest⟩

end TreeMap

end Crack
