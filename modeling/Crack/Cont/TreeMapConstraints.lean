import Crack.Cont.TreeMapRefines

/-!
# The constraints of a TreeMap

The constraints on the nodes that a map can reach from its root, after every
sequence of operations.
-/
namespace Crack

open RedBlack (Side RBTree Frame plug above before after contents Fits)

namespace TreeMap

variable {K V : Type}

/-- The nodes of a subtree. -/
inductive Under (m : TreeMap K V) : Nat → Nat → Prop where
  | refl (n : Nat) : Under m n n
  | step {s : Side} {n c x : Nat} (hc : m.child (s, n) = some c) (hx : Under m c x) : Under m n x

def Reached (m : TreeMap K V) (n : Nat) : Prop := ∃ r, m.root = some r ∧ Under m r n

/-- A path down to null, with its number of black nodes. -/
inductive BlackPath (m : TreeMap K V) : Option Nat → Nat → Prop where
  | null : BlackPath m none 0
  | node (s : Side) {n k : Nat} (h : BlackPath m (m.child (s, n)) k) : BlackPath m (some n) (k + if m.red n then 0 else 1)

/-- The red-black constraints, the order of the keys and the links of the nodes. -/
structure Constraints (cmp : K → K → Int) (m : TreeMap K V) : Prop where
  rootBlack : ∀ r, m.root = some r → m.red r = false
  redChildren : ∀ n, Reached m n → m.red n = true → ∀ s c, m.child (s, n) = some c → m.red c = false
  blackPaths : ∃ h, ∀ k, BlackPath m m.root k → k = h
  leftSmaller : ∀ n, Reached m n → ∀ c x, m.left n = some c → Under m c x →
    ∃ k k', m.key x = some k ∧ m.key n = some k' ∧ order cmp k k' = .lt
  rightLarger : ∀ n, Reached m n → ∀ c x, m.right n = some c → Under m c x →
    ∃ k k', m.key n = some k ∧ m.key x = some k' ∧ order cmp k k' = .lt
  parentOfChild : ∀ n, Reached m n → ∀ s c, m.child (s, n) = some c → m.parent c = some n
  childOfParent : ∀ n, Reached m n → ∀ p, m.parent n = some p → Reached m p ∧ ∃ s, m.child (s, p) = some n
  rootWithoutParent : ∀ n, Reached m n → (m.parent n = none ↔ m.root = some n)

variable {cmp : K → K → Int} {m : TreeMap K V} {T t : RBTree Nat} {L : List (K × V)} {a n x : Nat} {p : Option Nat}

theorem under_mem (ht : m.toLinks.Tree p t) (hr : t.root = some a) (hu : Under m a x) : x ∈ t.toList := by
  induction hu generalizing p t with
  | refl n => exact RBTree.mem_of_root hr
  | @step s n c x hc hx ih =>
    obtain ⟨red, u, b, w, rfl⟩ := RBTree.exists_branch s (t := t) (by rintro rfl; cases hr)
    rw [RBTree.root_branch] at hr
    cases hr
    rw [RedBlack.Links.tree_branch] at ht
    obtain ⟨_, _, hcu, _, htu, _⟩ := ht
    have := ih htu (by rw [← hcu, hc])
    exact (RBTree.toList_branch_perm ..).mem_iff.mpr (by simp [this])

theorem mem_under (ht : m.toLinks.Tree p t) (hr : t.root = some a) (hx : x ∈ t.toList) : Under m a x := by
  induction t generalizing p a with
  | nil => cases hx
  | node red l b r ihl ihr =>
    obtain ⟨_, _, hl, hrt, htl, htr⟩ := ht
    cases hr
    rcases List.mem_append.mp hx with hx | hx
    · obtain ⟨d, hd⟩ : ∃ d, l.root = some d := RedBlack.exists_root_plug (C := []) (by rintro rfl; cases hx)
      exact .step (hl.trans hd) (ihl htl hd hx)
    · rcases List.mem_cons.mp hx with rfl | hx
      · exact .refl x
      · obtain ⟨d, hd⟩ : ∃ d, r.root = some d := RedBlack.exists_root_plug (C := []) (by rintro rfl; cases hx)
        exact .step (hrt.trans hd) (ihr htr hd hx)

theorem Tidy.reached_iff (h : Tidy cmp m T L) : Reached m n ↔ n ∈ T.toList := by
  constructor
  · rintro ⟨r, hr, hu⟩
    exact under_mem h.realises.links (h.root ▸ hr) hu
  · intro hn
    obtain ⟨r, hr⟩ : ∃ r, T.root = some r := RedBlack.exists_root_plug (C := []) (by rintro rfl; cases hn)
    exact ⟨r, h.root.trans hr, mem_under h.realises.links hr hn⟩

theorem blackPath_eq {b k : Nat} (ht : m.toLinks.Tree p t) (hb : t.Balanced b) (hp : BlackPath m t.root k) :
    k = b := by
  induction t generalizing p b k with
  | nil => cases hp; exact hb.symm
  | node red l a r ihl ihr =>
    obtain ⟨hred, _, hl, hrt, htl, htr⟩ := ht
    obtain ⟨_, j, rfl, hbl, hbr⟩ := hb
    cases hp with
    | @node s _ k hp =>
      have hk : k = j := by
        cases s with
        | left => exact ihl htl hbl (hl ▸ hp)
        | right => exact ihr htr hbr (hrt ▸ hp)
      rw [hk, hred]
      rfl

/-- The keys of the nodes ascend with the order of the nodes. -/
theorem Shows.pairwise {l : List Nat} (h : Shows m l L) (hs : Sorted cmp L) :
    l.Pairwise (fun x y => ∃ k k', m.key x = some k ∧ m.key y = some k' ∧ order cmp k k' = .lt) := by
  induction l generalizing L with
  | nil => exact List.Pairwise.nil
  | cons a l ih =>
    obtain ⟨e, L, rfl, hk, _, hL⟩ := shows_cons.mp h
    obtain ⟨hse, hs⟩ := List.pairwise_cons.mp hs
    refine List.pairwise_cons.mpr ⟨fun x hx => ?_, ih hL hs⟩
    obtain ⟨A, B, rfl⟩ := List.append_of_mem hx
    obtain ⟨X, L', rfl, _, hL'⟩ := shows_append.mp hL
    obtain ⟨e', Y, rfl, hk', _, _⟩ := shows_cons.mp hL'
    exact ⟨e.1, e'.1, hk, hk', hse e' (by simp)⟩

theorem Tidy.constraints (h : Tidy cmp m T L) : Constraints cmp m := by
  have hplug : ∀ {n}, Reached m n → ∃ C red l r, T = plug C (.node red l n r) := fun hn =>
    RedBlack.exists_plug (h.reached_iff.mp hn)
  have hpair := h.shows.pairwise h.sorted
  refine ⟨fun r hr => ?_, fun n hn hred s c hc => ?_, ?_, fun n hn c x hc hx => ?_, fun n hn c x hc hx => ?_,
    fun n hn s c hc => ?_, fun n hn p hp => ?_, fun n hn => ?_⟩
  · have hisRed := Realises.isRed (C := []) h.realises
    rw [← h.root, hr, h.redBlack.1] at hisRed
    exact hisRed
  · obtain ⟨C, red, l, r, rfl⟩ := hplug hn
    obtain ⟨k, hb, _, _⟩ := RedBlack.isRedBlack_plug.mp h.redBlack
    obtain ⟨u, w, hnode⟩ : ∃ u w, RBTree.node red l n r = RBTree.branch s red u n w := by
      cases s with
      | left => exact ⟨l, r, rfl⟩
      | right => exact ⟨r, l, rfl⟩
    have hR := h.realises
    rw [hnode] at hR hb
    rw [hR.red] at hred
    have hu := Realises.isRed (C := ⟨s, red, n, w⟩ :: C) (t := u) hR
    rw [← hR.child, hc, ((RedBlack.RBTree.balanced_branch.mp hb).1 hred).1] at hu
    exact hu
  · obtain ⟨b, hb⟩ := h.redBlack.2
    refine ⟨b, fun k hk => ?_⟩
    rw [h.root] at hk
    exact blackPath_eq h.realises.links hb hk
  · obtain ⟨C, red, l, r, rfl⟩ := hplug hn
    obtain ⟨_, _, hl, _, htl, _⟩ := (RedBlack.Links.tree_plug.mp h.realises.links).2
    have hxl := under_mem htl (hl.symm.trans hc) hx
    rw [RedBlack.toList_plug, RBTree.toList, List.append_assoc] at hpair
    have hmid := (List.pairwise_append.mp (List.pairwise_append.mp hpair).2.1).1
    exact (List.pairwise_append.mp hmid).2.2 x hxl n (by simp)
  · obtain ⟨C, red, l, r, rfl⟩ := hplug hn
    obtain ⟨_, _, _, hr, _, htr⟩ := (RedBlack.Links.tree_plug.mp h.realises.links).2
    have hxr := under_mem htr (hr.symm.trans hc) hx
    rw [RedBlack.toList_plug, RBTree.toList, List.append_assoc] at hpair
    have hmid := (List.pairwise_append.mp (List.pairwise_append.mp hpair).2.1).1
    exact (List.pairwise_cons.mp (List.pairwise_append.mp hmid).2.1).1 x hxr
  · obtain ⟨C, red, l, r, rfl⟩ := hplug hn
    obtain ⟨_, _, hl, hr, htl, htr⟩ := (RedBlack.Links.tree_plug.mp h.realises.links).2
    cases s with
    | left => exact htl.parent_root (hl.symm.trans hc)
    | right => exact htr.parent_root (hr.symm.trans hc)
  · obtain ⟨C, red, l, r, rfl⟩ := hplug hn
    have hpa := h.realises.parent (a := n) rfl
    rw [hp] at hpa
    cases C with
    | nil => cases hpa
    | cons f C =>
      cases hpa
      refine ⟨h.reached_iff.mpr ?_, f.side, (h.realises.side_iff rfl).mpr rfl⟩
      exact RedBlack.toList_plug_perm.mem_iff.mpr (by simp [contents])
  · obtain ⟨C, red, l, r, rfl⟩ := hplug hn
    have hpa := h.realises.parent (a := n) rfl
    rw [hpa, h.root]
    cases C with
    | nil => simp [above, RBTree.root]
    | cons f C =>
      simp only [above, List.head?_cons, Option.map_some, reduceCtorEq, false_iff]
      intro hroot
      have hmem := RedBlack.contents_perm.mem_iff.mp (root_mem_of_plug hroot)
      exact (List.nodup_append'.mp h.realises.nodup_hole).2.2 (by simp [RBTree.toList]) hmem

section

variable [Std.TransCmp (order cmp)]

/-- After each operation the map holds some entries in a red-black tree of its nodes. -/
theorem Tidy.update (h : Tidy cmp m T L) (u : Update K V) :
    ∃ m' r T' L', update cmp m u = .ok (m', r) ∧ Tidy cmp m' T' L' := by
  cases u with
  | store key val =>
    obtain ⟨m', T', L', he, h', _⟩ := h.store key val
    exact ⟨m', .ok (), T', L', by simp only [TreeMap.update, he, bind, Except.bind]; rfl, h'⟩
  | delete key =>
    rcases h.delete key with ⟨X, e, Y, m', T', _, _, he, h', _⟩ | ⟨_, he⟩
    · exact ⟨m', .ok (), T', X ++ Y, he, h'⟩
    · exact ⟨m, _, T, L, he, h⟩
  | clear =>
    obtain ⟨m', he, h', _⟩ := h.clear
    exact ⟨m', .ok (), .nil, [], by simp only [TreeMap.update, he, bind, Except.bind]; rfl, h'⟩

theorem Tidy.run (us : List (Update K V)) (h : Tidy cmp m T L) :
    ∃ m' rs T' L', run cmp m us = .ok (m', rs) ∧ Tidy cmp m' T' L' := by
  induction us generalizing m T L with
  | nil => exact ⟨m, [], T, L, rfl, h⟩
  | cons u us ih =>
    obtain ⟨m₁, r, T₁, L₁, he₁, h₁⟩ := h.update u
    obtain ⟨m₂, rs, T₂, L₂, he₂, h₂⟩ := ih h₁
    exact ⟨m₂, r :: rs, T₂, L₂, by rw [TreeMap.run, he₁]; simp only [bind, Except.bind, he₂]; rfl, h₂⟩

end

/-- Every sequence of operations, with keys that are totally ordered, leads to a
map that satisfies the constraints. -/
theorem run_constraints (cmp : K → K → Int) [Std.TransCmp (order cmp)] (us : List (Update K V)) :
    ∃ m rs, run cmp init us = .ok (m, rs) ∧ Constraints cmp m := by
  obtain ⟨m, rs, T, L, he, h⟩ := (init_tidy : Tidy cmp init .nil []).run us
  exact ⟨m, rs, he, h.constraints⟩

/-- `cmp` for `uint`, as `heavycmp` defines it. -/
def heavycmp (a b : Nat) : Int := if a > b then 1 else if a < b then -1 else 0

theorem order_heavycmp : order heavycmp = compare := by
  funext a b
  rcases Nat.lt_trichotomy a b with h | rfl | h
  · have h₁ : heavycmp a b = -1 := by rw [heavycmp, if_neg (by omega), if_pos h]
    rw [order, diff, h₁, Nat.compare_eq_lt.mpr h]
    decide
  · have h₁ : heavycmp a a = 0 := by rw [heavycmp, if_neg (by omega), if_neg (by omega)]
    rw [order, diff, h₁, Nat.compare_eq_eq.mpr rfl]
    decide
  · have h₁ : heavycmp a b = 1 := by rw [heavycmp, if_pos h]
    rw [order, diff, h₁, Nat.compare_eq_gt.mpr h]
    decide

instance : Std.TransCmp (order heavycmp) := by rw [order_heavycmp]; infer_instance

instance : Std.LawfulBEqCmp (order heavycmp) := by rw [order_heavycmp]; infer_instance

theorem few_constraints : ∃ (m : TreeMap Nat Nat) (rs : List (Except Exc Unit)),
    run heavycmp init [.store 1 10, .store 2 20, .store 3 30, .delete 2, .delete 5] = .ok (m, rs) ∧
      Constraints heavycmp m :=
  run_constraints heavycmp _

end TreeMap

end Crack
