import Crack.Cont.TreeSearch

/-!
# Deleting from a TreeMap

A node with two children takes over the entry of a neighbour in the order, which
is then taken out in its place.
-/
namespace Crack

open RedBlack (Side RBTree Frame plug above redAbove before after contents Fits)

namespace TreeMap

variable {K V : Type} {m m' : TreeMap K V} {s : Side} {c : Bool} {t u x y : RBTree Nat} {a b n : Nat}
  {C D : List (Frame Nat)} {f : Frame Nat}

theorem Realises.getRoot {fuel : Nat} (h : Realises m (plug C t)) (hr : t.root = some a) (hfuel : C.length < fuel) :
    ∃ r, m.getRoot fuel a = .ok r ∧ (plug C t).root = some r := by
  induction fuel generalizing C t a with
  | zero => cases hfuel
  | succ fuel ih =>
    have hp := h.parent hr
    cases C with
    | nil => exact ⟨a, by simp only [TreeMap.getRoot, hp]; rfl, hr⟩
    | cons f C =>
      obtain ⟨r, he, hroot⟩ := ih (C := C) h (RBTree.root_branch (s := f.side)) (by simpa using hfuel)
      refine ⟨r, ?_, hroot⟩
      rw [TreeMap.getRoot, hp]
      exact he

/-- The last node on a side, and the frames that lead from it. -/
theorem findLast_ok {p : Option Nat} (fuel : Nat) (s : Side) (ht : m.toLinks.Tree p t) (hr : t.root = some a)
    (hfuel : t.toList.length ≤ fuel) :
    ∃ C c b y, t = plug C (.branch s c .nil b y) ∧ m.findLast s fuel a = .ok b ∧
      (match s with | .left => before C | .right => after C) = [] := by
  induction t generalizing p a fuel with
  | nil => cases hr
  | node red l d r ihl ihr =>
    obtain ⟨_, _, hcl, hcr, htl, htr⟩ := ht
    cases hr
    cases fuel with
    | zero => simp [RBTree.toList] at hfuel
    | succ fuel =>
      simp only [RBTree.toList, List.length_append, List.length_cons] at hfuel
      cases s with
      | left =>
        cases hroot : l.root with
        | none =>
          obtain rfl := RBTree.root_eq_none.mp hroot
          exact ⟨[], red, d, r, rfl, by rw [findLast, hcl]; rfl, rfl⟩
        | some e =>
          obtain ⟨C, c, b, y, rfl, he, hC⟩ := ihl fuel htl hroot (by omega)
          refine ⟨C ++ [⟨.left, red, d, r⟩], c, b, y, by rw [RedBlack.plug_append]; rfl, ?_, ?_⟩
          · rw [findLast, hcl, hroot]; exact he
          · simpa [RedBlack.before_append, before] using hC
      | right =>
        cases hroot : r.root with
        | none =>
          obtain rfl := RBTree.root_eq_none.mp hroot
          exact ⟨[], red, d, l, rfl, by rw [findLast, hcr]; rfl, rfl⟩
        | some e =>
          obtain ⟨C, c, b, y, rfl, he, hC⟩ := ihr fuel htr hroot (by omega)
          refine ⟨C ++ [⟨.right, red, d, l⟩], c, b, y, by rw [RedBlack.plug_append]; rfl, ?_, ?_⟩
          · rw [findLast, hcr, hroot]; exact he
          · simpa [RedBlack.after_append, after] using hC

theorem Realises.replaceMe {p : Option Nat} (h : Realises m (plug (f :: C) t)) (hr : t.root = some a)
    (hu : m.toLinks.Tree p u) (hn : (u.toList ++ contents (f :: C)).Nodup) :
    ∃ m', m.replaceMe a u.root = .ok m' ∧ SameData m m' ∧ Realises m' (plug (f :: C) u) := by
  refine ⟨_, ?_, setChild_data, h.setChild hu hn⟩
  have hp : m.parent a = some f.a := h.parent hr
  simp only [TreeMap.replaceMe, hp, deref, bind, Except.bind, h.left_iff hr]
  cases f.side <;> rfl

theorem balanced_zero (h : t.Balanced 0) (hb : t.isRed = false) : t = .nil := by
  cases t with
  | nil => rfl
  | node red l a r =>
    obtain ⟨_, k, hk, _⟩ := h
    cases red with
    | false => rw [RedBlack.RBTree.weight_false] at hk; omega
    | true => cases hb

theorem SameAround.ne_nil (h : SameAround (f :: C) D) : D ≠ [] := by
  rintro rfl
  have hp := RedBlack.contents_perm (C := f :: C)
  rw [← h.front, ← h.back] at hp
  have := hp.length_eq
  simp [before, after, contents] at this

/-- A node below another one, with at most one child, goes out of the tree. -/
theorem Realises.deleteElbowNode (h : Realises m (plug (f :: C) (.branch s c u a .nil)))
    (hb : (plug (f :: C) (.branch s c u a .nil)).IsRedBlack) (hfresh : (f :: C).length < m.fresh) :
    ∃ m' T, m.deleteElbowNode a = .ok (m', .ok ()) ∧ SameData m m' ∧ Realises m' T ∧ T.IsRedBlack ∧
      T.toList = before (f :: C) ++ u.toList ++ after (f :: C) := by
  obtain ⟨n, hbal, hfit, habove⟩ := RedBlack.isRedBlack_plug.mp hb
  rw [RedBlack.RBTree.balanced_branch] at hbal
  obtain ⟨hred, k, rfl, hu, hk⟩ := hbal
  obtain rfl : k = 0 := hk
  have hlinks := RedBlack.Links.tree_plug.mp h.links
  rw [RedBlack.Links.tree_branch] at hlinks
  obtain ⟨_, hca, _, hcu, hcn, htu, _⟩ := hlinks
  have hchild : (m.left a).or (m.right a) = u.root := by
    cases s with
    | left =>
      rw [Side.other_left] at hcn
      rw [left, right, hcu, hcn]
      exact Option.or_none
    | right =>
      rw [Side.other_right] at hcn
      rw [left, right, hcu, hcn]
      rfl
  have hnu : (u.toList ++ contents (f :: C)).Nodup := by
    have hn := h.nodup_hole
    have hsub : u.toList.Sublist (RBTree.branch s c u a .nil).toList := by cases s <;> simp [RBTree.branch, RBTree.toList]
    exact hn.sublist (hsub.append_right _)
  have hroot : (RBTree.branch s c u a .nil).root = some a := RBTree.root_branch
  simp only [TreeMap.deleteElbowNode, hchild, hca]
  cases c with
  | true =>
    obtain ⟨m', hm', hd, hR⟩ := h.replaceMe hroot htu hnu
    refine ⟨m', _, ?_, hd, hR, RedBlack.isRedBlack_plug.mpr ⟨0, hu, hfit, fun hc => ?_⟩, RedBlack.toList_plug⟩
    · simp only [if_true, hm', bind, Except.bind, pure, Except.pure]
    · rw [(hred rfl).1] at hc; cases hc
  | false =>
    cases hur : u.isRed with
    | true =>
      obtain ⟨red, x, d, y, rfl⟩ := RBTree.exists_branch Side.left (t := u) (by rintro rfl; cases hur)
      rw [RBTree.isRed_branch] at hur
      subst hur
      have hmd : m.red d = true := by
        rw [RedBlack.Links.tree_branch] at htu
        exact htu.1
      obtain ⟨m', hm', hd, hR⟩ := h.replaceMe hroot htu hnu
      have hR' := hR.setRed false
      refine ⟨_, _, ?_, hd.trans setRed_data, hR', RedBlack.isRedBlack_plug.mpr ⟨1, ?_, hfit, fun hc => by cases hc⟩, ?_⟩
      · rw [RBTree.root_branch] at hm'
        simp only [Bool.false_eq_true, if_false, RBTree.root_branch, hmd, if_true, hm', bind, Except.bind, pure,
          Except.pure]
      · rw [RedBlack.RBTree.balanced_red] at hu
        exact RedBlack.RBTree.balanced_black.mpr hu.2.2
      · rw [RedBlack.toList_plug]; rfl
    | false =>
      obtain rfl := balanced_zero hu hur
      obtain ⟨m₁, D, hm₁, hd₁, hR₁, hF₁, hA⟩ := h.rebalanceAfterDelete hfresh hroot hfit
      obtain ⟨g, D, rfl⟩ := List.exists_cons_of_ne_nil hA.ne_nil
      have hn₁ : ((RBTree.nil : RBTree Nat).toList ++ contents (g :: D)).Nodup :=
        (List.nodup_append'.mp hR₁.nodup_hole).2.1
      obtain ⟨m', hm', hd, hR⟩ := hR₁.replaceMe (u := .nil) (p := none) hroot trivial hn₁
      refine ⟨m', _, ?_, hd₁.trans hd, hR,
        RedBlack.isRedBlack_plug.mpr ⟨0, rfl, hF₁, fun hc => by cases hc⟩, ?_⟩
      · rw [RBTree.root_nil] at hm'
        simp only [Bool.false_eq_true, if_false, RBTree.root_nil, hm₁, hm', bind, Except.bind, pure, Except.pure]
      · rw [RedBlack.toList_plug, hA.front, hA.back]

/-- The entries of the nodes. -/
def entries (m : TreeMap K V) (l : List Nat) : List (Option K × Option V) := l.map (fun n => (m.key n, m.val n))

theorem entries_move {l : List Nat} (ha : a ∉ l) : entries (m.moveEntry a b) l = entries m l := by
  refine List.map_congr_left (fun n hn => ?_)
  have hne : n ≠ a := fun he => ha (he ▸ hn)
  simp only [moveEntry, Function.update_of_ne hne]

theorem entries_move_self : entries (m.moveEntry a b) [a] = entries m [b] := by
  simp [entries, moveEntry]

theorem entries_append {l l' : List Nat} : entries m (l ++ l') = entries m l ++ entries m l' := List.map_append

theorem entries_same {l : List Nat} (hd : SameData m m') : entries m' l = entries m l := by
  unfold entries; rw [hd.key, hd.val]

/-- What remains of a tree when the entry of a node is taken out. -/
structure Removed (m m' : TreeMap K V) (a : Nat) (T T' : RBTree Nat) : Prop where
  realises : Realises m' T'
  redBlack : T'.IsRedBlack
  root : m'.root = m.root
  count : m'.count = m.count
  fresh : m'.fresh = m.fresh
  entries : ∃ A B, T.toList = A ++ a :: B ∧ entries m' T'.toList = TreeMap.entries m (A ++ B)
  subset : T'.toList ⊆ T.toList
  keepsRoot : ∀ r, T.root = some r → r ∈ T'.toList

theorem root_mem_of_plug {r : Nat} (hr : (plug (f :: C) t).root = some r) :
    r ∈ before (f :: C) ++ after (f :: C) := by
  refine RedBlack.contents_perm.mem_iff.mpr ?_
  induction C generalizing f t with
  | nil =>
    obtain ⟨s, red, d, w⟩ := f
    rw [plug_frame, RedBlack.plug_nil, RBTree.root_branch] at hr
    cases hr
    simp [contents]
  | cons g C ih =>
    have := ih (f := g) (t := f.fill t) hr
    simp only [contents, List.mem_append] at this ⊢
    exact .inr this

/-- A node that takes over the entry of a neighbour in the order, which is taken out. -/
theorem Realises.removeNeighbour {T : RBTree Nat} {X Y : List Nat} (h : Realises m T) (hb : T.IsRedBlack)
    (hT : T = plug (f :: C) (.branch s c u b .nil)) (hfresh : (f :: C).length < m.fresh)
    (hl : T.toList = X ++ [b, a] ++ Y ∨ T.toList = X ++ [a, b] ++ Y)
    (hl' : before (f :: C) ++ u.toList ++ after (f :: C) = X ++ [a] ++ Y) :
    ∃ m' T', (m.moveEntry a b).deleteElbowNode b = .ok (m', .ok ()) ∧ Removed m m' a T T' := by
  subst hT
  have h₁ : Realises (m.moveEntry a b) (plug (f :: C) (.branch s c u b .nil)) := ⟨h.links, h.nodup⟩
  obtain ⟨m', T', hm', hd, hR, hT', htl⟩ := h₁.deleteElbowNode hb hfresh
  rw [hl'] at htl
  have hn := h.nodup
  obtain ⟨haX, haY⟩ : a ∉ X ∧ a ∉ Y := by
    rcases hl with hl | hl <;>
    · rw [hl] at hn
      obtain ⟨hn₁, _, hd⟩ := List.nodup_append'.mp hn
      exact ⟨fun ha => (List.nodup_append'.mp hn₁).2.2 ha (by simp), fun ha => hd (by simp) ha⟩
  refine ⟨m', T', hm', hR, hT', hd.root, hd.count, hd.fresh, ?_, ?_, ?_⟩
  · rw [htl, entries_same hd, entries_append, entries_append, entries_move haX, entries_move haY, entries_move_self]
    rcases hl with hl | hl
    · exact ⟨X ++ [b], Y, by rw [hl]; simp, by rw [entries_append, entries_append]⟩
    · exact ⟨X, [b] ++ Y, by rw [hl]; simp, by rw [entries_append, entries_append, List.append_assoc]⟩
  · rw [htl]
    rcases hl with hl | hl <;> (rw [hl]; intro n; simp; tauto)
  · intro r hr
    have hmem := root_mem_of_plug hr
    rw [htl, ← hl']
    simp only [List.mem_append] at hmem ⊢
    tauto

theorem deleteNode_of_neighbour (hn : m.nodeToDelete a = .ok (some b)) (hne : b ≠ a)
    (hd : (m.moveEntry a b).deleteElbowNode b = .ok (m', .ok ())) : m.deleteNode a = .ok (m', .ok false) := by
  simp only [TreeMap.deleteNode, hn, bind, Except.bind, ne_eq, hne, not_false_eq_true, if_true, hd]
  rfl

theorem ne_of_neighbours {T : RBTree Nat} {X Y : List Nat} (hn : T.toList.Nodup)
    (hl : T.toList = X ++ [b, a] ++ Y ∨ T.toList = X ++ [a, b] ++ Y) : b ≠ a := by
  rcases hl with hl | hl <;>
  · rw [hl] at hn
    have := (List.nodup_append'.mp (List.nodup_append'.mp hn).1).2.1
    simp only [List.nodup_cons, List.mem_singleton] at this
    first | exact this.1 | exact Ne.symm this.1

/-- `Node.delete` takes the entry of a node out, unless it is the only node. -/
theorem Realises.deleteNode {red : Bool} {l r : RBTree Nat} (h : Realises m (plug C (.node red l a r)))
    (hb : (plug C (.node red l a r)).IsRedBlack) (hfresh : (plug C (.node red l a r)).toList.length ≤ m.fresh) :
    (C = [] ∧ l = .nil ∧ r = .nil ∧ m.deleteNode a = .ok (m, .ok true)) ∨
      ∃ m' T', m.deleteNode a = .ok (m', .ok false) ∧ Removed m m' a (plug C (.node red l a r)) T' := by
  obtain ⟨_, hp, hl, hr, htl, htr⟩ := (RedBlack.Links.tree_plug.mp h.links).2
  have hlen : (plug C (.node red l a r)).toList.length =
      l.toList.length + r.toList.length + 1 + (contents C).length := by
    rw [RedBlack.toList_plug_perm.length_eq, List.length_append, RBTree.toList, List.length_append, List.length_cons]
    omega
  have hfits : ∀ (D : List (Frame Nat)) (t : RBTree Nat), plug C (.node red l a r) = plug D t → t ≠ .nil → D.length < m.fresh := by
    intro D t hT ht
    have h₁ := (RedBlack.toList_plug_perm (C := D) (t := t)).length_eq
    rw [← hT, List.length_append] at h₁
    have h₂ := RedBlack.length_le_contents (C := D)
    have h₃ : t.toList.length ≠ 0 := by
      obtain ⟨_, _, _, _, rfl⟩ := RBTree.exists_branch Side.left ht
      rw [(RBTree.toList_branch_perm ..).length_eq]
      simp
    omega
  cases hlr : l.root with
  | some lr =>
    right
    obtain ⟨D, c, b, y, rfl, hmax, hD⟩ := findLast_ok m.fresh .right htl hlr (by omega)
    obtain ⟨f, C', hC'⟩ : ∃ f C', D ++ ⟨.left, red, a, r⟩ :: C = f :: C' := List.exists_cons_of_ne_nil (by simp)
    have hT : plug C (.node red (plug D (.branch .right c .nil b y)) a r) = plug (f :: C') (.branch .left c y b .nil) := by
      rw [← hC', RedBlack.plug_append]; rfl
    have hlist : (plug C (.node red (plug D (.branch .right c .nil b y)) a r)).toList =
        (before C ++ before D ++ y.toList) ++ [b, a] ++ (r.toList ++ after C) := by
      rw [RedBlack.toList_plug, RBTree.toList, RedBlack.toList_plug, show after D = [] from hD]
      simp [RBTree.branch, RBTree.toList]
    have hlist' : before (f :: C') ++ y.toList ++ after (f :: C') =
        (before C ++ before D ++ y.toList) ++ [a] ++ (r.toList ++ after C) := by
      rw [← hC', RedBlack.before_append, RedBlack.after_append, show after D = [] from hD]
      simp [before, after]
    obtain ⟨m', T', hm', hrem⟩ :=
      h.removeNeighbour hb hT (hfits _ _ hT (by simp [RBTree.branch])) (.inl hlist) hlist'
    refine ⟨m', T', deleteNode_of_neighbour ?_ (ne_of_neighbours h.nodup (.inl hlist)) hm', hrem⟩
    have hleft : m.left a = some lr := hl.trans hlr
    simp only [nodeToDelete, hleft, findMax, hmax]
    rfl
  | none =>
    obtain rfl := RBTree.root_eq_none.mp hlr
    have hleft : m.left a = none := hl
    cases hrr : r.root with
    | some rr =>
      right
      have hright : m.right a = some rr := hr.trans hrr
      obtain ⟨D, c, b, y, rfl, hmin, hD⟩ := findLast_ok m.fresh .left htr hrr (by omega)
      obtain ⟨f, C', hC'⟩ : ∃ f C', D ++ ⟨.right, red, a, .nil⟩ :: C = f :: C' := List.exists_cons_of_ne_nil (by simp)
      have hT : plug C (.node red .nil a (plug D (.branch .left c .nil b y))) =
          plug (f :: C') (.branch .right c y b .nil) := by
        rw [← hC', RedBlack.plug_append]; rfl
      have hlist : (plug C (.node red .nil a (plug D (.branch .left c .nil b y)))).toList =
          before C ++ [a, b] ++ (y.toList ++ after D ++ after C) := by
        rw [RedBlack.toList_plug, RBTree.toList, RedBlack.toList_plug, show before D = [] from hD]
        simp [RBTree.branch, RBTree.toList]
      have hlist' : before (f :: C') ++ y.toList ++ after (f :: C') =
          before C ++ [a] ++ (y.toList ++ after D ++ after C) := by
        rw [← hC', RedBlack.before_append, RedBlack.after_append, show before D = [] from hD]
        simp [before, after]
      obtain ⟨m', T', hm', hrem⟩ :=
        h.removeNeighbour hb hT (hfits _ _ hT (by simp [RBTree.branch])) (.inr hlist) hlist'
      refine ⟨m', T', deleteNode_of_neighbour ?_ (ne_of_neighbours h.nodup (.inr hlist)) hm', hrem⟩
      simp only [nodeToDelete, hleft, hright, findMin, hmin]
      rfl
    | none =>
      obtain rfl := RBTree.root_eq_none.mp hrr
      have hright : m.right a = none := hr
      have hnode : m.nodeToDelete a = .ok (if (m.parent a).isSome then some a else none) := by
        rw [nodeToDelete, hleft, hright]; rfl
      cases C with
      | nil =>
        have hpa : m.parent a = none := hp
        left
        refine ⟨rfl, rfl, rfl, ?_⟩
        simp only [TreeMap.deleteNode, hnode, hpa]
        rfl
      | cons f C =>
        right
        have hpa : m.parent a = some f.a := hp
        obtain ⟨m', T', hm', hd, hR, hT', htl'⟩ :=
          Realises.deleteElbowNode (s := .left) (u := .nil) h hb (hfits _ _ rfl (by simp))
        rw [RBTree.toList_nil, List.append_nil] at htl'
        refine ⟨m', T', ?_, hR, hT', hd.root, hd.count, hd.fresh,
          ⟨before (f :: C), after (f :: C), ?_, ?_⟩, ?_, fun r hr => ?_⟩
        · simp only [TreeMap.deleteNode, hnode, hpa, Option.isSome_some, if_true, bind, Except.bind, ne_eq,
            not_true_eq_false, if_false, hm']
          rfl
        · rw [RedBlack.toList_plug]
          simp [RBTree.toList]
        · rw [htl', entries_same hd]
        · rw [htl', RedBlack.toList_plug]
          intro n
          simp only [List.mem_append]
          tauto
        · rw [htl']; exact root_mem_of_plug hr

end TreeMap

end Crack
