import Crack.Cont.TreeMap

/-!
# The nodes of a TreeMap as a tree

What the functions on the nodes read, and what they do to the tree that the
links of the nodes realise: colours, rotations and replacements.
-/
namespace Crack

open RedBlack (Side RBTree Frame plug above redAbove before after contents Fits)

namespace TreeMap

variable {K V : Type} {m m' : TreeMap K V} {s : Side} {c c' : Bool} {x y z t : RBTree Nat} {a b : Nat}
  {C : List (Frame Nat)} {f : Frame Nat}

/-- The links of the nodes form the tree, without sharing. -/
structure Realises (m : TreeMap K V) (t : RBTree Nat) : Prop where
  links : m.toLinks.Tree none t
  nodup : t.toList.Nodup

/-- Only the links of the nodes differ. -/
structure SameData (m m' : TreeMap K V) : Prop where
  root : m'.root = m.root
  count : m'.count = m.count
  key : m'.key = m.key
  val : m'.val = m.val
  fresh : m'.fresh = m.fresh

theorem SameData.refl : SameData m m := ⟨rfl, rfl, rfl, rfl, rfl⟩

theorem SameData.trans {m'' : TreeMap K V} (h : SameData m m') (h' : SameData m' m'') : SameData m m'' :=
  ⟨h'.root.trans h.root, h'.count.trans h.count, h'.key.trans h.key, h'.val.trans h.val, h'.fresh.trans h.fresh⟩

theorem Realises.red (h : Realises m (plug C (.branch s c x a y))) : m.red a = c :=
  (RedBlack.Links.tree_branch.mp (RedBlack.Links.tree_plug.mp h.links).2).1

theorem Realises.parent (h : Realises m (plug C t)) (hr : t.root = some a) : m.parent a = above C :=
  (RedBlack.Links.tree_plug.mp h.links).2.parent_root hr

theorem Realises.child (h : Realises m (plug C (.branch s c x a y))) : m.child (s, a) = x.root :=
  (RedBlack.Links.tree_branch.mp (RedBlack.Links.tree_plug.mp h.links).2).2.2.1

theorem Realises.other (h : Realises m (plug C (.branch s c x a y))) : m.child (s.other, a) = y.root :=
  (RedBlack.Links.tree_branch.mp (RedBlack.Links.tree_plug.mp h.links).2).2.2.2.1

theorem Realises.isRed (h : Realises m (plug C t)) : m.isRed t.root = t.isRed := by
  cases t with
  | nil => rfl
  | node red l n r => exact Realises.red (s := .left) h

/-- The frame above a hole, seen as a node. -/
theorem plug_frame : plug (f :: C) t = plug C (.branch f.side f.red t f.a f.sibling) := rfl

theorem plug_sibling : plug (f :: C) t = plug (⟨f.side.other, f.red, f.a, t⟩ :: C) f.sibling := by
  rw [plug_frame, plug_frame, RBTree.branch_other]

theorem Realises.nodup_hole (h : Realises m (plug C t)) : (t.toList ++ contents C).Nodup :=
  RedBlack.toList_plug_perm.nodup_iff.mp h.nodup

/-- On which side of its parent a node is. -/
theorem Realises.side_iff (h : Realises m (plug (f :: C) t)) (hr : t.root = some a) :
    m.child (s, f.a) = some a ↔ s = f.side := by
  rcases Side.eq_or_other f.side s with rfl | rfl
  · rw [Realises.child (s := f.side) h, hr]
    simp
  · rw [Realises.other (s := f.side) h]
    simp only [Side.other_ne, iff_false]
    intro hs
    have hd := (List.nodup_append'.mp h.nodup_hole).2.2
    exact hd (RBTree.mem_of_root hr) (by simp [contents, RBTree.mem_of_root hs])

theorem Realises.left_iff (h : Realises m (plug (f :: C) t)) (hr : t.root = some a) :
    m.left f.a = some a ↔ f.side = .left :=
  (h.side_iff hr).trans eq_comm

theorem Realises.right_iff (h : Realises m (plug (f :: C) t)) (hr : t.root = some a) :
    m.right f.a = some a ↔ f.side = .right :=
  (h.side_iff hr).trans eq_comm

theorem setRed_data : SameData m (m.setRed a c) := ⟨rfl, rfl, rfl, rfl, rfl⟩

variable {n : Option Nat}

theorem setChild_data : SameData m (m.setChild s a n) := by
  cases n <;> exact ⟨rfl, rfl, rfl, rfl, rfl⟩

theorem Realises.setRed (h : Realises m (plug C (.branch s c x a y))) (c' : Bool) :
    Realises (m.setRed a c') (plug C (.branch s c' x a y)) := by
  refine ⟨h.links.recolor h.nodup (fun n hn => Function.update_of_ne hn _ _) (Function.update_self _ _ _) rfl rfl, ?_⟩
  have hn := h.nodup
  rw [RedBlack.toList_plug] at hn ⊢
  cases s <;> exact hn

theorem Realises.setFrame (h : Realises m (plug (f :: C) t)) (c : Bool) :
    Realises (m.setRed f.a c) (plug (⟨f.side, c, f.a, f.sibling⟩ :: C) t) :=
  Realises.setRed (C := C) h c

/-- `__replaceMe` and the like: another tree below a node. -/
theorem Realises.setChild {u : RBTree Nat} {p : Option Nat} (h : Realises m (plug (f :: C) t))
    (hu : m.toLinks.Tree p u) (hn : (u.toList ++ contents (f :: C)).Nodup) :
    Realises (m.setChild f.side f.a u.root) (plug (f :: C) u) := by
  refine ⟨h.links.replace hu hn ?_ (fun q hq => ?_) (fun g hg => ?_) (fun n hr => ?_) (fun n hr => ?_),
    RedBlack.toList_plug_perm.nodup_iff.mpr hn⟩
  · unfold TreeMap.setChild; cases u.root <;> rfl
  · have hne := (hq f rfl).symm
    unfold TreeMap.setChild
    cases u.root <;> exact Function.update_of_ne hne _ _
  · cases hg
    unfold TreeMap.setChild
    cases u.root <;> exact Function.update_self _ _ _
  · unfold TreeMap.setChild
    cases hr' : u.root with
    | none => rfl
    | some b =>
      rw [hr'] at hr
      exact Function.update_of_ne (fun he => hr (by rw [he])) _ _
  · unfold TreeMap.setChild
    rw [hr]
    exact Function.update_self _ _ _

theorem setChild_child : (m.setChild s a n).child = Function.update m.child (s, a) n := by
  cases n <;> rfl

theorem setChild_parent {b : Nat} : (m.setChild s a n).parent b = if n = some b then some a else m.parent b := by
  cases n with
  | none => rfl
  | some n => simp [setChild, setParentField, setChildField, Function.update_apply, eq_comm]

theorem setChild_red : (m.setChild s a n).red = m.red := by cases n <;> rfl

/-- `__setParent` links the new parent back at the side of the node that was there. -/
theorem Realises.setParent_eq (h : Realises m (plug C t)) (hr : t.root = some a) :
    m'.setParent b (above C) ((above C).any (fun parent => m.right parent = some a)) =
      match C.head? with
      | some f => m'.setChild f.side f.a (some b)
      | none => m'.setParentField b none := by
  cases C with
  | nil => rfl
  | cons f C =>
    simp only [above, List.head?_cons, Option.map_some, Option.any_some, setParent, h.right_iff hr,
      decide_eq_true_eq]
    cases f.side <;> rfl

/-- The nodes around a rotation are different. -/
theorem Realises.rotate_nodup (h : Realises m (plug C (.branch s c x a (.branch s c' y b z)))) :
    a ≠ b ∧ y.root ≠ some a ∧ y.root ≠ some b ∧ ∀ f, C.head? = some f →
      f.a ≠ a ∧ f.a ≠ b ∧ y.root ≠ some f.a := by
  have h₁ := RBTree.toList_branch_perm s c' y z b
  have h₂ := RBTree.toList_branch_perm s c x (.branch s c' y b z) a
  have hperm := h₂.trans (((h₁.append_left x.toList).trans List.perm_middle).cons a)
  have hn := (hperm.append_right (contents C)).nodup_iff.mp h.nodup_hole
  simp only [List.cons_append, List.nodup_cons, List.mem_cons, List.mem_append, not_or] at hn
  obtain ⟨⟨hab, ⟨_, hay, _⟩, haC⟩, ⟨⟨_, hby, _⟩, hbC⟩, hn⟩ := hn
  refine ⟨hab, fun hr => hay (RBTree.mem_of_root hr), fun hr => hby (RBTree.mem_of_root hr), fun f hf => ?_⟩
  have hfC := RedBlack.Links.mem_contents_of_head hf
  refine ⟨fun he => haC (he ▸ hfC), fun he => hbC (he ▸ hfC), fun hr => ?_⟩
  exact (List.nodup_append'.mp hn).2.2 (by simp [RBTree.mem_of_root hr]) hfC

/-- A rotation to the side `s`. -/
theorem Realises.rotate (h : Realises m (plug C (.branch s c x a (.branch s c' y b z)))) :
    ∃ m', m.rotate s a = .ok m' ∧ Realises m' (plug C (.branch s c' (.branch s c x a y) b z)) ∧ SameData m m' := by
  obtain ⟨hab, hya, hyb, hC⟩ := h.rotate_nodup
  have h' : Realises m (plug (⟨s.other, c, a, x⟩ :: C) (.branch s c' y b z)) := by
    rw [plug_frame, RBTree.branch_other]; exact h
  have hnewParent : m.child (s.other, a) = some b := by rw [h.other, RBTree.root_branch]
  have hnewChild : m.child (s, b) = y.root := h'.child
  have hparent : m.parent a = above C := h.parent RBTree.root_branch
  have htoList : (plug C (.branch s c' (.branch s c x a y) b z)).toList.Nodup := by
    have hn := h.nodup
    rw [RedBlack.toList_plug] at hn ⊢
    cases s <;> simpa [RBTree.branch, RBTree.toList] using hn
  have hrotate : m.rotate s a = .ok (((m.setChild s b (some a)).setChild s.other a y.root).setParent b (above C)
      ((above C).any (fun parent => m.right parent = some a))) := by
    simp only [TreeMap.rotate, hnewParent, deref, bind, Except.bind, pure, Except.pure, hnewChild, hparent]
  rw [h.setParent_eq RBTree.root_branch] at hrotate
  generalize hm' : (match C.head? with
    | some f => ((m.setChild s b (some a)).setChild s.other a y.root).setChild f.side f.a (some b)
    | none => ((m.setChild s b (some a)).setChild s.other a y.root).setParentField b none) = m' at hrotate
  have hp' : ∀ n, m'.parent n = if n = b then above C else if y.root = some n then some a
      else if n = a then some b else m.parent n := by
    intro n
    rw [← hm']
    cases C with
    | nil => simp [setParentField, Function.update_apply, setChild_parent, above, eq_comm]
    | cons f C => simp [setChild_parent, above, eq_comm]
  have hc' : ∀ q, m'.child q = if ∃ f, C.head? = some f ∧ (f.side, f.a) = q then some b
      else if q = (s.other, a) then y.root else if q = (s, b) then some a else m.child q := by
    intro q
    rw [← hm']
    cases C with
    | nil => simp [setParentField, setChild_child, Function.update_apply]
    | cons f C => simp [setChild_child, Function.update_apply, eq_comm]
  have hred : m'.red = m.red := by
    rw [← hm']
    cases C <;> simp [setParentField, setChild_red]
  refine ⟨m', hrotate, ⟨h.links.rotate h.nodup hred (fun q hb ha hq => ?_) ?_ ?_ (fun f hf => ?_)
    (fun n hna hnb hny => ?_) ?_ ?_ (fun n hn => ?_), htoList⟩, ?_⟩
  · have hframe : ¬ ∃ f, C.head? = some f ∧ (f.side, f.a) = q := by
      rintro ⟨f, hf, he⟩
      exact hq f hf he
    rw [hc', if_neg hframe, if_neg ha, if_neg hb]
  · have hframe : ¬ ∃ f, C.head? = some f ∧ (f.side, f.a) = (s, b) := by
      rintro ⟨f, hf, he⟩
      exact (hC f hf).2.1 (Prod.mk.inj he).2
    rw [hc', if_neg hframe, if_neg (by simp), if_pos rfl]
  · have hframe : ¬ ∃ f, C.head? = some f ∧ (f.side, f.a) = (s.other, a) := by
      rintro ⟨f, hf, he⟩
      exact (hC f hf).1 (Prod.mk.inj he).2
    rw [hc', if_neg hframe, if_pos rfl]
  · rw [hc', if_pos ⟨f, hf, rfl⟩]
  · rw [hp', if_neg hnb, if_neg hny, if_neg hna]
  · rw [hp', if_neg hab, if_neg hya, if_pos rfl]
  · rw [hp', if_pos rfl]
  · have hnb : n ≠ b := fun he => hyb (by rw [hn, he])
    rw [hp', if_neg hnb, if_pos hn]
  · rw [← hm']
    have hdata := (setChild_data (m := m) (s := s) (a := b) (n := some a)).trans
      (setChild_data (s := s.other) (a := a) (n := y.root))
    cases C with
    | nil => exact hdata.trans ⟨rfl, rfl, rfl, rfl, rfl⟩
    | cons f C => exact hdata.trans setChild_data

end TreeMap

end Crack
