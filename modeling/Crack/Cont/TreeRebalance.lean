import Crack.Cont.TreeNodes

/-!
# Rebalancing a TreeMap

`__rebalance` after an insertion and `__rebalanceAfterDelete` before a deletion
bring the colours of the tree in order and leave the order of its nodes.
-/
namespace Crack

open RedBlack (Side RBTree Frame plug above redAbove before after contents Fits)

namespace TreeMap

variable {K V : Type} {m m' : TreeMap K V} {s : Side} {c c' : Bool} {x y z t : RBTree Nat} {a b n : Nat}
  {C : List (Frame Nat)} {f g : Frame Nat}

theorem Realises.grandparent (h : Realises m (plug (f :: g :: C) t)) (hr : t.root = some a) :
    m.grandparent a = some g.a := by
  have hf : m.parent f.a = some g.a := Realises.parent (C := g :: C) h RBTree.root_branch
  rw [TreeMap.grandparent, h.parent hr]
  exact hf

theorem Realises.uncle (h : Realises m (plug (f :: g :: C) t)) (hr : t.root = some a) :
    m.uncle a = g.sibling.root := by
  have hfill : Realises m (plug (g :: C) (f.fill t)) := h
  have hleft := hfill.left_iff (a := f.a) RBTree.root_branch
  have hother : m.child (g.side.other, g.a) = g.sibling.root := Realises.other (s := g.side) hfill
  simp only [TreeMap.uncle, h.grandparent hr, h.parent hr, above, List.head?_cons, Option.map_some, eq_comm (a := some f.a),
    hleft]
  cases hs : g.side with
  | left => rw [if_pos rfl, ← hother, hs]; rfl
  | right => rw [if_neg (by decide), ← hother, hs]; rfl

/-- An outer grandchild: the parent comes up in the place of the grandparent. -/
theorem Realises.raiseParent (h : Realises m (plug (f :: g :: C) t)) (hr : t.root = some a) (hs : f.side = g.side) :
    ∃ m', m.raiseParent (some a) (some g.a) = .ok m' ∧ SameData m m' ∧
      Realises m' (plug C (.branch g.side.other false (.branch g.side.other true g.sibling g.a f.sibling) f.a t)) := by
  have h₁ := h.setFrame false
  have h₂ := Realises.setFrame (f := g) (C := C) (t := .branch f.side false t f.a f.sibling) h₁ true
  have hnode := Realises.left_iff (f := ⟨f.side, false, f.a, f.sibling⟩) (C := ⟨g.side, true, g.a, g.sibling⟩ :: C) h₂ hr
  have hparent := h₂.left_iff (a := f.a) RBTree.root_branch
  have hrot : Realises ((m.setRed f.a false).setRed g.a true)
      (plug C (.branch g.side.other true g.sibling g.a (.branch g.side.other false f.sibling f.a t))) := by
    rw [RBTree.branch_other, RBTree.branch_other, ← hs]
    rw [plug_frame, ← hs] at h₂
    exact h₂
  obtain ⟨m', hm', hR, hd⟩ := hrot.rotate
  refine ⟨m', ?_, (setRed_data.trans setRed_data).trans hd, hR⟩
  simp only [TreeMap.raiseParent, deref, h.parent hr, above, List.head?_cons, Option.map_some, bind, Except.bind, hnode,
    hparent, ← hm']
  cases hg : g.side <;> simp [hs, hg, rotateLeft, rotateRight]

/-- An inner grandchild is rotated to the outside, below its former parent. -/
theorem Realises.alignNode (h : Realises m (plug (f :: g :: C) (.branch f.side.other true y a z)))
    (hs : f.side = g.side.other) :
    ∃ m', m.alignNode a f.a g.a = .ok (m', some f.a, some g.a) ∧ SameData m m' ∧
      Realises m' (plug (⟨g.side, true, a, z⟩ :: g :: C) (.branch g.side f.red f.sibling f.a y)) := by
  have hrot : Realises m (plug (g :: C) (.branch f.side.other f.red f.sibling f.a (.branch f.side.other true y a z))) := by
    rw [RBTree.branch_other]; exact h
  obtain ⟨m', hm', hR, hd⟩ := hrot.rotate
  have hchild : m'.child (f.side.other, a) = some f.a := by rw [hR.child, RBTree.root_branch]
  have hparent : m'.parent a = some g.a := hR.parent RBTree.root_branch
  have hnl := h.left_iff RBTree.root_branch
  have hnr := h.right_iff RBTree.root_branch
  have hfill : Realises m (plug (g :: C) (f.fill (.branch f.side.other true y a z))) := h
  have hpl := hfill.left_iff (a := f.a) RBTree.root_branch
  have hpr := hfill.right_iff (a := f.a) RBTree.root_branch
  refine ⟨m', ?_, hd, ?_⟩
  · simp only [TreeMap.alignNode, hnl, hnr, hpl, hpr]
    rw [hs, Side.other_other] at hm' hchild
    rw [hs]
    cases hg : g.side with
    | left =>
      rw [hg] at hm' hchild
      simp [rotateLeft, hm', hchild, hparent, bind, Except.bind, pure, Except.pure]
    | right =>
      rw [hg] at hm' hchild
      simp [rotateRight, hm', hchild, hparent, bind, Except.bind, pure, Except.pure]
  · rw [hs, Side.other_other] at hR
    exact hR

theorem Realises.alignNode_outer (h : Realises m (plug (f :: g :: C) t)) (hr : t.root = some a)
    (hs : f.side = g.side) : m.alignNode a f.a g.a = .ok (m, some a, some g.a) := by
  have hnl := h.left_iff hr
  have hnr := h.right_iff hr
  have hfill : Realises m (plug (g :: C) (f.fill t)) := h
  have hpl := hfill.left_iff (a := f.a) RBTree.root_branch
  have hpr := hfill.right_iff (a := f.a) RBTree.root_branch
  simp only [TreeMap.alignNode, hnl, hnr, hpl, hpr, hs]
  cases g.side <;> simp [pure, Except.pure]

/-- With a black uncle, the red node and its red parent end up below a black node. -/
theorem Realises.rebalanceRotate (h : Realises m (plug (f :: g :: C) t)) (hr : t.root = some a) (ht : t.isRed = true)
    (hb : t.Balanced n) (hf : f.red = true) (hfb : f.sibling.Balanced n) (hfr : f.sibling.isRed = false)
    (hgb : g.sibling.Balanced n) (hgr : g.sibling.isRed = false) :
    ∃ m' t', m.rebalanceRotate a f.a g.a = .ok m' ∧ SameData m m' ∧ Realises m' (plug C t') ∧
      t'.Balanced (n + 1) ∧ t'.isRed = false ∧ (plug C t').toList = (plug (f :: g :: C) t).toList := by
  rcases Side.eq_or_other g.side f.side with hs | hs
  · obtain ⟨m', hm', hd, hR⟩ := h.raiseParent hr hs
    refine ⟨m', _, ?_, hd, hR, ?_, RBTree.isRed_branch, ?_⟩
    · simp only [TreeMap.rebalanceRotate, h.alignNode_outer hr hs, bind, Except.bind, hm']
    · rw [RedBlack.RBTree.balanced_black, RedBlack.RBTree.balanced_red]
      exact ⟨⟨hgr, hfr, hgb, hfb⟩, hb⟩
    · rw [plug_frame, plug_frame, RedBlack.toList_plug, RedBlack.toList_plug, hs]
      cases g.side <;> simp [RBTree.branch, RBTree.toList]
  · obtain ⟨red, y, b, z, rfl⟩ := RBTree.exists_branch f.side.other (t := t) (by rintro rfl; cases hr)
    rw [RBTree.isRed_branch] at ht
    rw [RBTree.root_branch] at hr
    cases hr
    subst ht
    rw [RedBlack.RBTree.balanced_red] at hb
    obtain ⟨hyr, hzr, hyb, hzb⟩ := hb
    obtain ⟨m₁, hm₁, hd₁, hR₁⟩ := h.alignNode hs
    obtain ⟨m', hm', hd, hR⟩ := hR₁.raiseParent RBTree.root_branch rfl
    refine ⟨m', _, ?_, hd₁.trans hd, hR, ?_, RBTree.isRed_branch, ?_⟩
    · simp only [TreeMap.rebalanceRotate, hm₁, bind, Except.bind, hm']
    · rw [hf, RedBlack.RBTree.balanced_black, RedBlack.RBTree.balanced_red, RedBlack.RBTree.balanced_red]
      exact ⟨⟨hgr, hzr, hgb, hzb⟩, hfr, hyr, hfb, hyb⟩
    · rw [plug_frame, plug_frame, RedBlack.toList_plug, RedBlack.toList_plug, hs]
      cases g.side <;> simp [RBTree.branch, RBTree.toList]

/-- With a red uncle, only colours change, and the grandparent is red now. -/
theorem Realises.recolorUncle {u : RBTree Nat} {un : Nat} (h : Realises m (plug (f :: g :: C) t)) (hu : g.sibling = u)
    (hun : u.root = some un) (hur : u.isRed = true)
    (htb : t.Balanced n) (hfb : f.sibling.Balanced n) (hub : u.Balanced n) :
    ∃ t', t'.root = some g.a ∧ t'.isRed = true ∧ t'.Balanced (n + 1) ∧
      Realises (((m.setRed f.a false).setRed un false).setRed g.a true) (plug C t') ∧
      (plug C t').toList = (plug (f :: g :: C) t).toList := by
  obtain ⟨red, u₁, b, u₂, hub'⟩ := RBTree.exists_branch Side.left (t := u) (by rintro rfl; cases hun)
  rw [hub', RBTree.root_branch] at hun
  cases hun
  rw [hub', RBTree.isRed_branch] at hur
  subst hur
  rw [hub', RedBlack.RBTree.balanced_red] at hub
  have h₁ := h.setFrame false
  have h₂ : Realises (m.setRed f.a false) (plug (⟨g.side.other, g.red, g.a, .branch f.side false t f.a f.sibling⟩ :: C)
      (.branch .left true u₁ un u₂)) := by
    rw [← hub', ← hu]
    have := plug_sibling (f := g) (C := C) (t := .branch f.side false t f.a f.sibling)
    rwa [← this]
  have h₃ := (h₂.setRed false).setFrame true
  refine ⟨_, RBTree.root_branch, RBTree.isRed_branch, ?_, h₃, ?_⟩
  · rw [RedBlack.RBTree.balanced_red, RedBlack.RBTree.balanced_black, RedBlack.RBTree.balanced_black]
    exact ⟨RBTree.isRed_branch, RBTree.isRed_branch, ⟨hub.2.2.1, hub.2.2.2⟩, htb, hfb⟩
  · rw [plug_frame, plug_frame, RedBlack.toList_plug, RedBlack.toList_plug, hu, hub']
    cases g.side <;> cases f.side <;> simp [RBTree.branch, RBTree.toList]

theorem rebalance_red {fuel p u gp : Nat} (hp : m.parent a = some p) (hr : m.red p = true) (hu : m.uncle a = some u)
    (hg : m.grandparent a = some gp) (hur : m.red u = true) :
    rebalance (fuel + 1) m a = rebalance fuel (((m.setRed p false).setRed u false).setRed gp true) gp := by
  simp only [rebalance, hp, hr, hu, hg, hur, Bool.true_eq_false, if_false, if_true]

theorem rebalance_black {fuel p gp : Nat} (hp : m.parent a = some p) (hr : m.red p = true)
    (hu : m.isRed (m.uncle a) = false) (hg : m.grandparent a = some gp) :
    rebalance (fuel + 1) m a = m.rebalanceRotate a p gp := by
  simp only [rebalance, hp, hr, hg, Bool.true_eq_false, if_false]
  cases hun : m.uncle a with
  | none => rfl
  | some u =>
    rw [hun] at hu
    simp only [show m.red u = false from hu, Bool.false_eq_true, if_false]

/-- Below a red node the context goes on with a black one. -/
theorem redAbove_eq_false (h : redAbove C = false) : ∃ g D, C = g :: D ∧ g.red = false := by
  cases C with
  | nil => cases h
  | cons g D => exact ⟨g, D, rfl, h⟩

/-- `__rebalance` makes a tree red-black that is so but for a red node, which may have a red parent. -/
theorem Realises.rebalance {fuel : Nat} (hfuel : C.length < fuel) (h : Realises m (plug C t)) (hr : t.root = some a)
    (ht : t.isRed = true) (hb : t.Balanced n) (hC : Fits C n) :
    ∃ m' T, rebalance fuel m a = .ok m' ∧ SameData m m' ∧ Realises m' T ∧ T.IsRedBlack ∧
      T.toList = (plug C t).toList := by
  induction fuel generalizing m C t a n with
  | zero => cases hfuel
  | succ fuel ih =>
    cases C with
    | nil =>
      obtain ⟨red, x, b, y, rfl⟩ := RBTree.exists_branch Side.left (t := t) (by rintro rfl; cases hr)
      rw [RBTree.root_branch] at hr
      cases hr
      rw [RBTree.isRed_branch] at ht
      subst ht
      rw [RedBlack.RBTree.balanced_red] at hb
      refine ⟨m.setRed a false, _, ?_, setRed_data, Realises.setRed (C := []) h false, ⟨RBTree.isRed_branch, n + 1, ?_⟩, rfl⟩
      · have hp : m.parent a = none := Realises.parent (C := []) h RBTree.root_branch
        simp only [TreeMap.rebalance, hp]
        rfl
      · exact RedBlack.RBTree.balanced_black.mpr hb.2.2
    | cons f C =>
      have hp : m.parent a = some f.a := h.parent hr
      have hred : m.red f.a = f.red := Realises.red (C := C) h
      obtain ⟨hfb, hfit, hC'⟩ := hC
      cases hf : f.red with
      | false =>
        refine ⟨m, _, ?_, .refl, h, RedBlack.isRedBlack_plug.mpr ⟨n, hb, ⟨hfb, hfit, hC'⟩, fun _ => hf⟩, rfl⟩
        simp only [TreeMap.rebalance, hp, hred, hf, if_true]
        rfl
      | true =>
        obtain ⟨hfr, habove⟩ := hfit hf
        obtain ⟨g, C, rfl, hg⟩ := redAbove_eq_false habove
        rw [hf] at hC'
        obtain ⟨hgb, _, hC'⟩ := hC'
        rw [hg] at hC'
        have hgp := h.grandparent hr
        have huncle := h.uncle hr
        rw [hf] at hred
        have hur : m.isRed g.sibling.root = g.sibling.isRed := by
          have h' := h
          rw [plug_frame, plug_sibling] at h'
          exact h'.isRed
        cases hu : g.sibling.isRed with
        | true =>
          cases hun : g.sibling.root with
          | none => rw [hun, hu] at hur; cases hur
          | some un =>
            rw [hun, hu] at hur
            obtain ⟨t', hr', ht', hb', hR, hl⟩ := h.recolorUncle rfl hun hu hb hfb hgb
            obtain ⟨m', T, hm', hd, hR', hT, hl'⟩ := ih (by simp only [List.length_cons] at hfuel; omega) hR hr' ht' hb' hC'
            refine ⟨m', T, ?_, ((setRed_data.trans setRed_data).trans setRed_data).trans hd, hR', hT, hl'.trans hl⟩
            rw [rebalance_red hp hred (huncle.trans hun) hgp hur, hm']
        | false =>
          obtain ⟨m', t', hm', hd, hR, hb', hr', hl⟩ := h.rebalanceRotate hr ht hb hf hfb hfr hgb hu
          refine ⟨m', _, ?_, hd, hR, RedBlack.isRedBlack_plug.mpr ⟨n + 1, hb', hC', fun h => by rw [hr'] at h; cases h⟩, hl⟩
          rw [rebalance_black hp hred (by rw [huncle, hur, hu]) hgp, hm']

/-- The same nodes come before the hole and after it. -/
structure SameAround (C D : List (Frame Nat)) : Prop where
  front : before D = before C
  back : after D = after C

theorem SameAround.refl : SameAround C C := ⟨rfl, rfl⟩

theorem SameAround.trans {C' C'' : List (Frame Nat)} (h : SameAround C C') (h' : SameAround C' C'') :
    SameAround C C'' :=
  ⟨h'.front.trans h.front, h'.back.trans h.back⟩

theorem SameAround.of_sibling {D : List (Frame Nat)} {u : RBTree Nat} (hu : u.toList = f.sibling.toList) :
    SameAround (f :: D) (⟨f.side, c, f.a, u⟩ :: D) := by
  obtain ⟨side, red, a, w⟩ := f
  cases side <;> exact ⟨by simp_all [before], by simp_all [after]⟩

theorem Realises.sibling (h : Realises m (plug (f :: C) t)) (hr : t.root = some a) :
    m.sibling a = .ok f.sibling.root := by
  have hother : m.child (f.side.other, f.a) = f.sibling.root := Realises.other (s := f.side) h
  simp only [TreeMap.sibling, h.parent hr, above, List.head?_cons, Option.map_some, deref, bind, Except.bind, h.left_iff hr,
    pure, Except.pure, ← hother]
  cases f.side <;> rfl

theorem Realises.rotateToward (h : Realises m (plug (f :: C) t)) (hr : t.root = some a) :
    m.rotateToward a f.a = m.rotate f.side f.a := by
  rw [TreeMap.rotateToward, if_congr (h.left_iff hr) rfl rfl]
  cases f.side <;> rfl

/-- After case 2 the sibling is black. -/
theorem Realises.raiseSibling (h : Realises m (plug (f :: C) t)) (hr : t.root = some a) (hC : Fits (f :: C) (n + 1))
    {b : Nat} (hb : f.sibling.root = some b) :
    ∃ m' g D b', m.raiseSibling a b = .ok (m', b') ∧ SameData m m' ∧ Realises m' (plug (g :: D) t) ∧
      Fits (g :: D) (n + 1) ∧ SameAround (f :: C) (g :: D) ∧ g.sibling.root = some b' ∧ g.sibling.isRed = false ∧
      (g.red = false → D = C) := by
  obtain ⟨hsb, hsr, hCf⟩ := hC
  have hred : m.red b = f.sibling.isRed := by
    have h' := h
    rw [plug_sibling] at h'
    rw [← h'.isRed, hb]
    rfl
  cases hs : f.sibling.isRed with
  | false =>
    refine ⟨m, f, C, b, ?_, .refl, h, ⟨hsb, hsr, hCf⟩, .refl, hb, hs, fun _ => rfl⟩
    simp only [TreeMap.raiseSibling, hred, hs, Bool.false_eq_true, if_false]
    rfl
  | true =>
    obtain ⟨side, fred, p, sib⟩ := f
    simp only at hsb hsr hCf hb hs hred
    have hfred : fred = false := by
      cases fred with
      | false => rfl
      | true => rw [(hsr rfl).1] at hs; cases hs
    subst hfred
    obtain ⟨red, inner, b, outer, rfl⟩ := RBTree.exists_branch side hsb.ne_nil
    rw [RBTree.root_branch] at hb
    cases hb
    rw [RBTree.isRed_branch] at hs
    subst hs
    rw [RedBlack.RBTree.balanced_red] at hsb
    obtain ⟨hir, hor, hib, hob⟩ := hsb
    have h₁ := h.setFrame true
    have h₂ : Realises (m.setRed p true) (plug (⟨side.other, true, p, t⟩ :: C) (.branch side true inner b outer)) := by
      rw [plug_sibling] at h₁; exact h₁
    have h₃ := h₂.setRed false
    have h₄ : Realises ((m.setRed p true).setRed b false)
        (plug C (.branch side true t p (.branch side false inner b outer))) := by
      rw [plug_frame, RBTree.branch_other] at h₃; exact h₃
    obtain ⟨m', hm', hR, hd⟩ := h₄.rotate
    have hR' : Realises m' (plug (⟨side, true, p, inner⟩ :: ⟨side, false, b, outer⟩ :: C) t) := hR
    obtain ⟨ib, hib'⟩ : ∃ ib, inner.root = some ib := by
      cases inner with
      | nil => cases hib
      | node _ _ ib _ => exact ⟨ib, rfl⟩
    have hrot := Realises.rotateToward (f := ⟨side, true, p, .branch side false inner b outer⟩) (C := C) h₄ hr
    refine ⟨m', _, _, ib, ?_, (setRed_data.trans setRed_data).trans hd, hR', ?_, ?_, hib', hir, fun hc => by cases hc⟩
    · have hpa : m.parent a = some p := h.parent hr
      simp only [TreeMap.raiseSibling, hred, RBTree.isRed_branch, if_true, hpa, deref, bind, Except.bind, hrot, hm',
        hR'.sibling hr, hib']
      rfl
    · exact ⟨hib, fun _ => ⟨hir, rfl⟩, hob, (fun hc => by cases hc), hCf⟩
    · cases side <;> exact ⟨by simp [before, RBTree.branch, RBTree.toList], by simp [after, RBTree.branch, RBTree.toList]⟩

variable {p : Nat} {d : Nat}

/-- The colours of the children of a sibling. -/
theorem Realises.sibling_children (h : Realises m (plug (⟨s, c, p, .branch s c' x b y⟩ :: C) t)) :
    m.isRed (m.child (s, b)) = x.isRed ∧ m.isRed (m.child (s.other, b)) = y.isRed := by
  have h' : Realises m (plug (⟨s.other, c, p, t⟩ :: C) (.branch s c' x b y)) := by rw [plug_sibling] at h; exact h
  have hx : Realises m (plug (⟨s, c', b, y⟩ :: ⟨s.other, c, p, t⟩ :: C) x) := h'
  have hy : Realises m (plug (⟨s.other, c', b, x⟩ :: ⟨s.other, c, p, t⟩ :: C) y) := by
    rw [plug_sibling] at hx; exact hx
  exact ⟨by rw [h'.child, hx.isRed], by rw [h'.other, hy.isRed]⟩

theorem Realises.turn {x₁ x₂ : RBTree Nat}
    (h : Realises m (plug (⟨s, c, p, .branch s false (.branch s true x₁ d x₂) b y⟩ :: C) t)) :
    ∃ m', m.turn s b = .ok (m', d) ∧ SameData m m' ∧
      Realises m' (plug (⟨s, c, p, .branch s false x₁ d (.branch s true x₂ b y)⟩ :: C) t) := by
  have h₁ : Realises m (plug (⟨s.other, c, p, t⟩ :: C) (.branch s false (.branch s true x₁ d x₂) b y)) := by
    rw [plug_sibling] at h; exact h
  have h₂ := h₁.setRed true
  have h₃ := Realises.setRed (C := ⟨s, true, b, y⟩ :: ⟨s.other, c, p, t⟩ :: C) h₂ false
  have h₄ : Realises ((m.setRed b true).setRed d false) (plug (⟨s.other, c, p, t⟩ :: C)
      (.branch s.other true y b (.branch s.other false x₂ d x₁))) := by
    rw [RBTree.branch_other, RBTree.branch_other]; exact h₃
  obtain ⟨m', hm', hR, hd⟩ := h₄.rotate
  have hchild : (m.setRed b true).child (s, b) = some d := by rw [h₂.child, RBTree.root_branch]
  have hparent : m'.parent b = some d := by
    have hR' : Realises m' (plug (⟨s.other, false, d, x₁⟩ :: ⟨s.other, c, p, t⟩ :: C) (.branch s.other true y b x₂)) := hR
    exact hR'.parent RBTree.root_branch
  refine ⟨m', ?_, (setRed_data.trans setRed_data).trans hd, ?_⟩
  · simp only [TreeMap.turn, hchild, deref, bind, Except.bind, hm', hparent]
    rfl
  · rw [RBTree.branch_other, RBTree.branch_other] at hR
    rw [plug_sibling]
    exact hR

/-- After case 5 the outer child of the sibling is red. -/
theorem Realises.turnSibling (h : Realises m (plug (⟨s, c, p, .branch s false x b y⟩ :: C) t))
    (hr : t.root = some a) (hx : x.Balanced n) (hy : y.Balanced n) (hxy : ¬ (x.isRed = false ∧ y.isRed = false)) :
    ∃ m' x' b' y', m.turnSibling a b = .ok (m', b') ∧ SameData m m' ∧
      Realises m' (plug (⟨s, c, p, .branch s false x' b' y'⟩ :: C) t) ∧ x'.Balanced n ∧ y'.Balanced n ∧
      y'.isRed = true ∧ (RBTree.branch s false x' b' y').toList = (RBTree.branch s false x b y).toList := by
  have hpa : m.parent a = some p := h.parent hr
  obtain ⟨hcx, hcy⟩ := h.sibling_children
  have hl := h.left_iff hr
  have hrt := h.right_iff hr
  simp only at hl hrt
  have hturn : m.turnSibling a b =
      if x.isRed = true ∧ y.isRed = false then m.turn s b else .ok (m, b) := by
    simp only [TreeMap.turnSibling, hpa, deref, bind, Except.bind, hl, hrt]
    cases s with
    | left =>
      simp only [Side.other_left] at hcy
      simp [hcx, hcy, pure, Except.pure]
    | right =>
      simp only [Side.other_right] at hcy
      simp [hcx, hcy, pure, Except.pure]
  by_cases hc : x.isRed = true ∧ y.isRed = false
  · obtain ⟨red, x₁, d, x₂, rfl⟩ := RBTree.exists_branch s (t := x) (by rintro rfl; cases hc.1)
    rw [RBTree.isRed_branch] at hc
    obtain ⟨rfl, hyr⟩ := hc
    rw [RedBlack.RBTree.balanced_red] at hx
    obtain ⟨m', hm', hd, hR⟩ := h.turn
    refine ⟨m', x₁, d, _, ?_, hd, hR, hx.2.2.1, ?_, RBTree.isRed_branch, ?_⟩
    · rw [hturn, if_pos ⟨RBTree.isRed_branch, hyr⟩, hm']
    · exact RedBlack.RBTree.balanced_red.mpr ⟨hx.2.1, hyr, hx.2.2.2, hy⟩
    · cases s <;> simp [RBTree.branch, RBTree.toList]
  · refine ⟨m, x, b, y, by rw [hturn, if_neg hc], .refl, h, hx, hy, ?_, rfl⟩
    cases hyr : y.isRed with
    | true => rfl
    | false =>
      cases hxr : x.isRed with
      | true => exact absurd ⟨hxr, hyr⟩ hc
      | false => exact absurd ⟨hxr, hyr⟩ hxy

/-- Case 6: the sibling comes up in the place of the parent. -/
theorem Realises.rotateSibling {y₁ y₂ : RBTree Nat}
    (h : Realises m (plug (⟨s, c, p, .branch s false x b (.branch s true y₁ d y₂)⟩ :: C) t)) (hr : t.root = some a) :
    ∃ m', m.rotateSibling a b = .ok m' ∧ SameData m m' ∧
      Realises m' (plug (⟨s, false, p, x⟩ :: ⟨s, c, b, .branch s false y₁ d y₂⟩ :: C) t) := by
  have hpa : m.parent a = some p := h.parent hr
  have hred : m.red p = c := Realises.red (C := C) h
  have h₁ : Realises m (plug (⟨s.other, c, p, t⟩ :: C) (.branch s false x b (.branch s true y₁ d y₂))) := by
    rw [plug_sibling] at h; exact h
  have h₂ := (h₁.setRed c).setFrame false
  have h₃ : Realises ((m.setRed b c).setRed p false)
      (plug (⟨s.other, c, b, x⟩ :: ⟨s.other, false, p, t⟩ :: C) (.branch s true y₁ d y₂)) := by
    rw [plug_frame, RBTree.branch_other]; exact h₂
  have h₄ : Realises (((m.setRed b c).setRed p false).setRed d false)
      (plug C (.branch s false t p (.branch s c x b (.branch s false y₁ d y₂)))) := by
    have h₅ := h₃.setRed false
    rw [plug_frame, RBTree.branch_other, plug_frame, RBTree.branch_other] at h₅
    exact h₅
  obtain ⟨m', hm', hR, hd⟩ := h₄.rotate
  have hside : ((m.setRed b c).setRed p false).left p = some a ↔ s = .left := h.left_iff hr
  have hchild : ((m.setRed b c).setRed p false).child (s.other, b) = some d := by
    rw [h₂.other, RBTree.root_branch]
  refine ⟨m', ?_, ((setRed_data.trans setRed_data).trans setRed_data).trans hd, hR⟩
  simp only [TreeMap.rotateSibling, hpa, deref, bind, Except.bind, hred, hside]
  cases s with
  | left =>
    simp only [Side.other_left] at hchild
    simp only [if_true, hchild]
    exact hm'
  | right =>
    simp only [Side.other_right] at hchild
    simp only [hchild]
    exact hm'

/-- The recursion of `__rebalanceAfterDelete`, once the sibling is black. -/
theorem rebalanceAfterDelete_succ (fuel : Nat) {p b b₀ : Nat} (hp : m.parent a ≠ none) (hb₀ : m.sibling a = .ok (some b₀))
    (hraise : m.raiseSibling a b₀ = .ok (m', b)) (hpa : m'.parent a = some p) :
    rebalanceAfterDelete (fuel + 1) m a =
      if m'.red p = false ∧ m'.isRed (m'.left b) = false ∧ m'.isRed (m'.right b) = false then
        rebalanceAfterDelete fuel (m'.setRed b true) p
      else if m'.isRed (m'.left b) = false ∧ m'.isRed (m'.right b) = false then
        .ok ((m'.setRed b true).setRed p false)
      else m'.turnSibling a b >>= fun q => q.1.rotateSibling a q.2 := by
  simp only [rebalanceAfterDelete, if_neg hp, hb₀, hraise, hpa, deref, bind, Except.bind, Bool.not_eq_true]
  rfl

/-- A hole for a tree of black height `n + 1` becomes one for a tree of black height `n`. -/
theorem Realises.rebalanceAfterDelete {fuel : Nat} (hfuel : C.length < fuel) (h : Realises m (plug C t))
    (hr : t.root = some a) (hC : Fits C (n + 1)) :
    ∃ m' D, rebalanceAfterDelete fuel m a = .ok m' ∧ SameData m m' ∧ Realises m' (plug D t) ∧ Fits D n ∧
      SameAround C D := by
  induction fuel generalizing m C t a n with
  | zero => cases hfuel
  | succ fuel ih =>
    cases C with
    | nil =>
      have hp : m.parent a = none := Realises.parent (C := []) h hr
      refine ⟨m, [], ?_, .refl, h, trivial, .refl⟩
      rw [TreeMap.rebalanceAfterDelete, if_pos hp]
      rfl
    | cons f C =>
      obtain ⟨b₀, hb₀⟩ : ∃ b₀, f.sibling.root = some b₀ := by
        cases hb₀ : f.sibling.root with
        | none => exact absurd (RBTree.root_eq_none.mp hb₀) hC.1.ne_nil
        | some b₀ => exact ⟨b₀, rfl⟩
      have hp : m.parent a = some f.a := h.parent hr
      have hsib := h.sibling hr
      rw [hb₀] at hsib
      obtain ⟨m₁, ⟨s, c, p, sib⟩, D, b, hm₁, hd₁, hR₁, hF₁, hA₁, hb, hbr, hDC⟩ := h.raiseSibling hr hC hb₀
      simp only at hb hbr hDC
      obtain ⟨hsb, hsr, hF₁⟩ := hF₁
      simp only at hsb hsr hF₁
      have hpa : m₁.parent a = some p := hR₁.parent hr
      have hstep := rebalanceAfterDelete_succ fuel (by rw [hp]; simp) hsib hm₁ hpa
      obtain ⟨red, x, b', y, rfl⟩ := RBTree.exists_branch s hsb.ne_nil
      rw [RBTree.root_branch] at hb
      cases hb
      rw [RBTree.isRed_branch] at hbr
      subst hbr
      rw [RedBlack.RBTree.balanced_black] at hsb
      obtain ⟨hxb, hyb⟩ := hsb
      obtain ⟨hcx, hcy⟩ := hR₁.sibling_children
      have hblack : (m₁.isRed (m₁.left b) = false ∧ m₁.isRed (m₁.right b) = false) ↔
          (x.isRed = false ∧ y.isRed = false) := by
        cases s with
        | left =>
          rw [Side.other_left] at hcy
          simp only [left, right, hcx, hcy]
        | right =>
          rw [Side.other_right] at hcy
          simp only [left, right, hcx, hcy, and_comm]
      have hpr : m₁.red p = c := Realises.red (C := D) hR₁
      rw [hpr] at hstep
      have hsetred : Realises (m₁.setRed b true) (plug (⟨s, c, p, .branch s true x b y⟩ :: D) t) := by
        have h₂ := hR₁
        rw [plug_sibling] at h₂
        have h₃ := Realises.setRed h₂ true
        rw [plug_sibling, Side.other_other] at h₃
        exact h₃
      have hsame : SameAround (f :: C) (⟨s, false, p, .branch s true x b y⟩ :: D) := by
        refine hA₁.trans (SameAround.of_sibling (f := ⟨s, c, p, .branch s false x b y⟩) ?_)
        cases s <;> rfl
      by_cases hxy : x.isRed = false ∧ y.isRed = false
      · have hred : (RBTree.branch s true x b y).Balanced n :=
          RedBlack.RBTree.balanced_red.mpr ⟨hxy.1, hxy.2, hxb, hyb⟩
        cases c with
        | false =>
          -- case 3
          obtain rfl := hDC rfl
          rw [if_pos ⟨rfl, hblack.mpr hxy⟩] at hstep
          obtain ⟨m', D', hm', hd', hR', hF', hA'⟩ :=
            ih (t := .branch s false t p (.branch s true x b y)) (by simp only [List.length_cons] at hfuel; omega) hsetred
              RBTree.root_branch hF₁
          refine ⟨m', ⟨s, false, p, .branch s true x b y⟩ :: D', by rw [hstep, hm'], (hd₁.trans setRed_data).trans hd', hR',
            ⟨hred, (fun hc => by cases hc), hF'⟩, hsame.trans ?_⟩
          cases s <;> exact ⟨by simp [before, hA'.front], by simp [after, hA'.back]⟩
        | true =>
          -- case 4
          rw [if_neg (by simp), if_pos (hblack.mpr hxy)] at hstep
          exact ⟨_, _, hstep, (hd₁.trans setRed_data).trans setRed_data, hsetred.setFrame false,
            ⟨hred, (fun hc => by cases hc), hF₁⟩, hsame⟩
      · rw [if_neg (fun hc => hxy (hblack.mp hc.2)), if_neg (fun hc => hxy (hblack.mp hc))] at hstep
        obtain ⟨m₂, x', b', y', hm₂, hd₂, hR₂, hxb', hyb', hyr', hl⟩ := hR₁.turnSibling hr hxb hyb hxy
        obtain ⟨red, y₁, d, y₂, rfl⟩ := RBTree.exists_branch s (t := y') (by rintro rfl; cases hyr')
        rw [RBTree.isRed_branch] at hyr'
        subst hyr'
        rw [RedBlack.RBTree.balanced_red] at hyb'
        obtain ⟨m₃, hm₃, hd₃, hR₃⟩ := hR₂.rotateSibling hr
        refine ⟨m₃, _, ?_, (hd₁.trans hd₂).trans hd₃, hR₃, ⟨hxb', (fun hc => by cases hc), ?_, ?_, hF₁⟩, ?_⟩
        · rw [hstep, hm₂]
          exact hm₃
        · exact RedBlack.RBTree.balanced_black.mpr hyb'.2.2
        · exact fun hc => ⟨RBTree.isRed_branch, (hsr hc).2⟩
        · refine (hA₁.trans (SameAround.of_sibling (f := ⟨s, c, p, .branch s false x b y⟩) (c := c) hl)).trans ?_
          cases s <;> exact ⟨by simp [before, RBTree.branch, RBTree.toList], by simp [after, RBTree.branch, RBTree.toList]⟩

end TreeMap

end Crack
