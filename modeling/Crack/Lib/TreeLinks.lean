import Crack.Lib.RedBlack
import Mathlib.Logic.Function.Basic

/-!
# Trees of linked nodes

Colours, parent links and child links on nodes realise a tree when each node of
it has the colour and the links that the tree gives it. Changing them at a few
nodes changes the tree at these nodes.
-/
namespace RedBlack

variable {A : Type}

/-- The colour of each node and its links. -/
structure Links (A : Type) where
  red : A → Bool
  parent : A → Option A
  child : Side × A → Option A

namespace Links

/-- The nodes of the tree are linked as it says, below `p`. -/
def Tree (L : Links A) : Option A → RedBlack.RBTree A → Prop
  | _, .nil => True
  | p, .node red l a r => L.red a = red ∧ L.parent a = p ∧ L.child (.left, a) = l.root ∧ L.child (.right, a) = r.root ∧
    L.Tree (some a) l ∧ L.Tree (some a) r

/-- The nodes of the context are linked as it says, around a hole with the root `h`. -/
def Context (L : Links A) : List (Frame A) → Option A → Prop
  | [], _ => True
  | f :: C, h => L.red f.a = f.red ∧ L.parent f.a = above C ∧ L.child (f.side, f.a) = h ∧
    L.child (f.side.other, f.a) = f.sibling.root ∧ L.Tree (some f.a) f.sibling ∧ L.Context C (some f.a)

variable {L L' : Links A} {p p' h h' : Option A} {s : Side} {red : Bool} {x y z t : RedBlack.RBTree A} {a b : A}
  {C : List (Frame A)}

@[simp] theorem tree_nil : L.Tree p .nil := trivial

theorem tree_branch : L.Tree p (RBTree.branch s red x a y) ↔
    L.red a = red ∧ L.parent a = p ∧ L.child (s, a) = x.root ∧ L.child (s.other, a) = y.root ∧
      L.Tree (some a) x ∧ L.Tree (some a) y := by
  cases s with
  | left => rfl
  | right =>
    change (_ ∧ _ ∧ _ ∧ _ ∧ _ ∧ _) ↔ _
    constructor
    · rintro ⟨hc, hp, hl, hr, hy, hx⟩; exact ⟨hc, hp, hr, hl, hx, hy⟩
    · rintro ⟨hc, hp, hr, hl, hx, hy⟩; exact ⟨hc, hp, hl, hr, hy, hx⟩

theorem tree_plug : L.Tree none (plug C t) ↔ L.Context C t.root ∧ L.Tree (above C) t := by
  induction C generalizing t with
  | nil => simp [plug, Context, above]
  | cons f C ih =>
    rw [plug, ih]
    simp only [Frame.fill, RBTree.root_branch, tree_branch, Context]
    constructor
    · rintro ⟨hC, hc, hp, hl, hr, ht, hs⟩; exact ⟨⟨hc, hp, hl, hr, hs, hC⟩, ht⟩
    · rintro ⟨⟨hc, hp, hl, hr, hs, hC⟩, ht⟩; exact ⟨hC, hc, hp, hl, hr, ht, hs⟩

/-- The colour and the child links of a node are the same. -/
def SameAt (L L' : Links A) (a : A) : Prop := L'.red a = L.red a ∧ ∀ s, L'.child (s, a) = L.child (s, a)

/-- A tree with unchanged nodes, but for the parent of its root. -/
theorem Tree.congr (ht : L.Tree p t) (hn : t.toList.Nodup) (hs : ∀ a ∈ t.toList, SameAt L L' a)
    (hp : ∀ a ∈ t.toList, t.root ≠ some a → L'.parent a = L.parent a)
    (hr : ∀ a, t.root = some a → L'.parent a = p') : L'.Tree p' t := by
  induction t generalizing p p' with
  | nil => trivial
  | node red l a r ihl ihr =>
    obtain ⟨hc, _, hcl, hcr, hl, hr'⟩ := ht
    simp only [RedBlack.RBTree.toList] at hn hs hp
    have hnl := (List.nodup_append'.mp hn).1
    have hnr := (List.nodup_cons.mp (List.nodup_append'.mp hn).2.1)
    have hdis := (List.nodup_append'.mp hn).2.2
    have hal : a ∉ l.toList := fun h => hdis h (by simp)
    have ha := hs a (by simp)
    have hne : ∀ b, b ∈ l.toList ++ r.toList → (RBTree.node red l a r).root ≠ some b := by
      rintro b hb hab
      cases hab
      rcases List.mem_append.mp hb with hb | hb
      · exact hal hb
      · exact hnr.1 hb
    refine ⟨by rw [ha.1, hc], hr a rfl, by rw [ha.2, hcl], by rw [ha.2, hcr],
      ihl hl hnl (fun b hb => hs b (by simp [hb])) (fun b hb _ => ?_) (fun b hb => ?_),
      ihr hr' hnr.2 (fun b hb => hs b (by simp [hb])) (fun b hb _ => ?_) (fun b hb => ?_)⟩
    · exact hp b (by simp [hb]) (hne b (by simp [hb]))
    · have hb' := RedBlack.RBTree.mem_of_root hb
      rw [hp b (by simp [hb']) (hne b (by simp [hb']))]
      cases l with
      | nil => cases hb
      | node _ _ _ _ => cases hb; exact hl.2.1
    · exact hp b (by simp [hb]) (hne b (by simp [hb]))
    · have hb' := RedBlack.RBTree.mem_of_root hb
      rw [hp b (by simp [hb']) (hne b (by simp [hb']))]
      cases r with
      | nil => cases hb
      | node _ _ _ _ => cases hb; exact hr'.2.1

theorem Tree.parent_root (ht : L.Tree p t) (hr : t.root = some a) : L.parent a = p := by
  cases t with
  | nil => cases hr
  | node _ _ _ _ => cases hr; exact ht.2.1

/-- A tree with unchanged nodes. -/
theorem Tree.same (ht : L.Tree p t) (hn : t.toList.Nodup) (hs : ∀ a ∈ t.toList, SameAt L L' a)
    (hp : ∀ a ∈ t.toList, L'.parent a = L.parent a) : L'.Tree p t :=
  ht.congr hn hs (fun a ha _ => hp a ha)
    (fun _ hr => (hp _ (RedBlack.RBTree.mem_of_root hr)).trans (ht.parent_root hr))

/-- A context with unchanged nodes, but for the link to the hole. -/
theorem Context.congr (hC : L.Context C h) (hn : (contents C).Nodup) (hred : ∀ a ∈ contents C, L'.red a = L.red a)
    (hp : ∀ a ∈ contents C, L'.parent a = L.parent a)
    (hc : ∀ a ∈ contents C, ∀ s, (∀ f, C.head? = some f → (f.side, f.a) ≠ (s, a)) → L'.child (s, a) = L.child (s, a))
    (hh : ∀ f, C.head? = some f → L'.child (f.side, f.a) = h') : L'.Context C h' := by
  induction C generalizing h h' with
  | nil => trivial
  | cons f C ih =>
    obtain ⟨hf, hfp, hfh, hfs, hsib, hrest⟩ := hC
    simp only [contents] at hn hred hp hc
    rw [List.cons_append, List.nodup_cons] at hn
    obtain ⟨hfn, hn⟩ := hn
    obtain ⟨hns, hnC, hdis⟩ := List.nodup_append'.mp hn
    have hne : ∀ b ∈ f.sibling.toList ++ contents C, b ≠ f.a := fun b hb he => hfn (he ▸ hb)
    have hchild : ∀ b ∈ f.sibling.toList ++ contents C, ∀ s, L'.child (s, b) = L.child (s, b) := by
      intro b hb s
      refine hc b (by simp only [List.cons_append, List.mem_cons, hb, or_true]) s ?_
      intro g hg he
      cases hg
      exact hne b hb (Prod.mk.inj he).2.symm
    refine ⟨by rw [hred f.a (by simp), hf], by rw [hp f.a (by simp), hfp], hh f rfl, ?_, ?_, ?_⟩
    · rw [hc f.a (by simp), hfs]
      intro g hg he
      cases hg
      exact Side.ne_other f.side (Prod.mk.inj he).1
    · refine hsib.same hns (fun b hb => ⟨hred b (by simp [hb]), hchild b (by simp [hb])⟩) ?_
      exact fun b hb => hp b (by simp [hb])
    · refine ih hrest hnC (fun b hb => hred b (by simp [hb])) (fun b hb => hp b (by simp [hb])) ?_ ?_
      · exact fun b hb s _ => hchild b (by simp [hb]) s
      · intro g hg
        have hgm : g.a ∈ contents C := by
          cases C with
          | nil => cases hg
          | cons g' C => cases hg; simp [contents]
        rw [hchild g.a (by simp [hgm])]
        cases C with
        | nil => cases hg
        | cons g' C => cases hg; exact hrest.2.2.1

theorem mem_contents_of_head {f : Frame A} (hf : C.head? = some f) : f.a ∈ contents C := by
  cases C with
  | nil => cases hf
  | cons g C => cases hf; simp [contents]

/-- Another tree in the hole, whose root is linked to the node above. -/
theorem Tree.replace {u : RedBlack.RBTree A} (ht : L.Tree none (plug C t)) (hu : L.Tree p u)
    (hn : (u.toList ++ contents C).Nodup) (hred : L'.red = L.red)
    (hc : ∀ q, (∀ f, C.head? = some f → (f.side, f.a) ≠ q) → L'.child q = L.child q)
    (hh : ∀ f, C.head? = some f → L'.child (f.side, f.a) = u.root)
    (hp : ∀ a, u.root ≠ some a → L'.parent a = L.parent a) (hpu : ∀ a, u.root = some a → L'.parent a = above C) :
    L'.Tree none (plug C u) := by
  obtain ⟨hnu, hnC, hdis⟩ := List.nodup_append'.mp hn
  have hroot : ∀ a ∈ contents C, u.root ≠ some a := fun a ha hr => hdis (RedBlack.RBTree.mem_of_root hr) ha
  rw [tree_plug] at ht ⊢
  refine ⟨ht.1.congr hnC (fun a _ => by rw [hred]) (fun a ha => hp a (hroot a ha)) (fun a _ s => hc (s, a)) hh,
    hu.congr hnu (fun a ha => ⟨by rw [hred], fun s => hc (s, a) ?_⟩) (fun a _ => hp a) hpu⟩
  intro f hf he
  have := mem_contents_of_head hf
  rw [(Prod.mk.inj he).2] at this
  exact hdis ha this

/-- A node goes down to the side `s`, and its child on the other side up. -/
theorem Tree.rotate {c c' : Bool} (ht : L.Tree none (plug C (.branch s c x a (.branch s c' y b z))))
    (hn : (plug C (.branch s c x a (.branch s c' y b z))).toList.Nodup) (hred : L'.red = L.red)
    (hc : ∀ q, q ≠ (s, b) → q ≠ (s.other, a) → (∀ f, C.head? = some f → (f.side, f.a) ≠ q) → L'.child q = L.child q)
    (hb : L'.child (s, b) = some a) (ha : L'.child (s.other, a) = y.root)
    (hh : ∀ f, C.head? = some f → L'.child (f.side, f.a) = some b)
    (hp : ∀ n, n ≠ a → n ≠ b → y.root ≠ some n → L'.parent n = L.parent n) (hpa : L'.parent a = some b)
    (hpb : L'.parent b = above C) (hpy : ∀ n, y.root = some n → L'.parent n = some a) :
    L'.Tree none (plug C (.branch s c' (.branch s c x a y) b z)) := by
  have hperm : (plug C (.branch s c x a (.branch s c' y b z))).toList.Perm
      (a :: b :: (x.toList ++ (y.toList ++ (z.toList ++ contents C)))) := by
    refine toList_plug_perm.trans ?_
    have h₁ := RedBlack.RBTree.toList_branch_perm s c' y z b
    have h₂ := RedBlack.RBTree.toList_branch_perm s c x (.branch s c' y b z) a
    have h₃ := h₂.trans ((h₁.append_left x.toList).cons a)
    have h₄ := h₃.trans (List.perm_middle.cons a)
    simpa using h₄.append_right (contents C)
  have hn := hperm.nodup_iff.mp hn
  obtain ⟨hab, hn⟩ := List.nodup_cons.mp hn
  obtain ⟨hbn, hn⟩ := List.nodup_cons.mp hn
  obtain ⟨hnx, hn, hdx⟩ := List.nodup_append'.mp hn
  obtain ⟨hny, hn, hdy⟩ := List.nodup_append'.mp hn
  obtain ⟨hnz, hnC, hdz⟩ := List.nodup_append'.mp hn
  simp only [List.mem_cons, List.mem_append, not_or] at hab hbn
  have hne : ∀ n, n ∈ x.toList ∨ n ∈ y.toList ∨ n ∈ z.toList ∨ n ∈ contents C → n ≠ a ∧ n ≠ b := by
    intro n hmem
    constructor
    · intro he
      rw [he] at hmem
      tauto
    · intro he
      rw [he] at hmem
      tauto
  have hy : ∀ n, n ∉ y.toList → y.root ≠ some n := fun n hn hr => hn (RedBlack.RBTree.mem_of_root hr)
  have hhole : ∀ n, n ∉ contents C → ∀ s, ∀ f, C.head? = some f → (f.side, f.a) ≠ (s, n) := by
    intro n hn s f hf he
    have := mem_contents_of_head hf
    rw [(Prod.mk.inj he).2] at this
    exact hn this
  have hchild : ∀ n, n ≠ a → n ≠ b → n ∉ contents C → ∀ s', L'.child (s', n) = L.child (s', n) := by
    intro n hna hnb hn s'
    exact hc (s', n) (fun he => hnb (Prod.mk.inj he).2) (fun he => hna (Prod.mk.inj he).2) (hhole n hn s')
  have hxC : ∀ n ∈ x.toList, n ∉ contents C := fun n hn hC => hdx hn (by simp [hC])
  have hyC : ∀ n ∈ y.toList, n ∉ contents C := fun n hn hC => hdy hn (by simp [hC])
  have hzC : ∀ n ∈ z.toList, n ∉ contents C := fun n hn hC => hdz hn hC
  rw [tree_plug, tree_branch, tree_branch] at ht
  obtain ⟨hC, hra, _, hax, _, hx, hrb, _, _, hbz, hty, hz⟩ := ht
  rw [tree_plug, tree_branch, tree_branch, RedBlack.RBTree.root_branch, RedBlack.RBTree.root_branch]
  refine ⟨?_, by rw [hred, hrb], hpb, hb, ?_, ⟨by rw [hred, hra], hpa, ?_, ha, ?_, ?_⟩, ?_⟩
  · refine hC.congr hnC (fun n _ => by rw [hred]) (fun n hn => ?_) (fun n hn s' hf => ?_) hh
    · have := hne n (by simp [hn])
      exact hp n this.1 this.2 (hy n (fun hn' => hyC n hn' hn))
    · have := hne n (by simp [hn])
      exact hc (s', n) (fun he => this.2 (Prod.mk.inj he).2) (fun he => this.1 (Prod.mk.inj he).2) hf
  · rw [hc (s.other, b) ?_ ?_ (hhole b hbn.2.2.2 _), hbz]
    · simp
    · intro he; exact hab.1 (Prod.mk.inj he).2.symm
  · rw [hc (s, a) ?_ ?_ (hhole a hab.2.2.2.2 _), hax]
    · intro he; exact hab.1 (Prod.mk.inj he).2
    · simp
  · refine hx.same hnx (fun n hn => ⟨by rw [hred], ?_⟩) (fun n hn => ?_)
    · exact hchild n (hne n (by simp [hn])).1 (hne n (by simp [hn])).2 (hxC n hn)
    · exact hp n (hne n (by simp [hn])).1 (hne n (by simp [hn])).2 (hy n (fun hn' => hdx hn (by simp [hn'])))
  · refine hty.congr hny (fun n hn => ⟨by rw [hred], ?_⟩) (fun n hn hr => ?_) hpy
    · exact hchild n (hne n (by simp [hn])).1 (hne n (by simp [hn])).2 (hyC n hn)
    · exact hp n (hne n (by simp [hn])).1 (hne n (by simp [hn])).2 hr
  · refine hz.same hnz (fun n hn => ⟨by rw [hred], ?_⟩) (fun n hn => ?_)
    · exact hchild n (hne n (by simp [hn])).1 (hne n (by simp [hn])).2 (hzC n hn)
    · exact hp n (hne n (by simp [hn])).1 (hne n (by simp [hn])).2 (hy n (fun hn' => hdy hn' (by simp [hn])))

/-- Another colour for one node. -/
theorem Tree.recolor {c c' : Bool} (ht : L.Tree none (plug C (.branch s c x a y)))
    (hn : (plug C (.branch s c x a y)).toList.Nodup) (hred : ∀ n, n ≠ a → L'.red n = L.red n) (ha : L'.red a = c')
    (hc : L'.child = L.child) (hp : L'.parent = L.parent) : L'.Tree none (plug C (.branch s c' x a y)) := by
  have hn := (toList_plug_perm.trans ((RedBlack.RBTree.toList_branch_perm ..).append_right (contents C))).nodup_iff.mp hn
  rw [List.cons_append, List.nodup_cons, List.append_assoc] at hn
  obtain ⟨hna, hn⟩ := hn
  obtain ⟨hnx, hn, _⟩ := List.nodup_append'.mp hn
  obtain ⟨hny, hnC, _⟩ := List.nodup_append'.mp hn
  have hne : ∀ n ∈ x.toList ++ (y.toList ++ contents C), n ≠ a := fun n hn he => hna (by rw [← he]; simpa using hn)
  rw [tree_plug, tree_branch, RedBlack.RBTree.root_branch] at ht ⊢
  obtain ⟨hC, _, hpa, hax, hay, hx, hy⟩ := ht
  refine ⟨?_, ha, by rw [hp, hpa], by rw [hc, hax], by rw [hc, hay], ?_, ?_⟩
  · refine hC.congr hnC (fun n hn => hred n (hne n (by simp [hn]))) (fun n _ => by rw [hp]) ?_ ?_
    · exact fun n _ s _ => by rw [hc]
    · intro f hf
      rw [hc]
      cases C with
      | nil => cases hf
      | cons g C => cases hf; exact hC.2.2.1
  · exact hx.same hnx (fun n hn => ⟨hred n (hne n (by simp [hn])), fun s => by rw [hc]⟩) (fun n _ => by rw [hp])
  · exact hy.same hny (fun n hn => ⟨hred n (hne n (by simp [hn])), fun s => by rw [hc]⟩) (fun n _ => by rw [hp])

end Links

end RedBlack
