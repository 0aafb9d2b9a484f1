import Crack.Cont.TreeDelete

/-!
# TreeMap refines a sorted list of entries

The invariant that ties the nodes, the root and the entries of a `TreeMap`
together, and what the operations do to it.
-/
namespace Crack

open RedBlack (Side RBTree Frame plug above before after contents Fits)

namespace TreeMap

variable {K V : Type}

/-- The map holds the entries `L` in a red-black tree `T` of its nodes. -/
structure Tidy (cmp : K → K → Int) (m : TreeMap K V) (T : RBTree Nat) (L : List (K × V)) : Prop where
  realises : Realises m T
  redBlack : T.IsRedBlack
  root : m.root = T.root
  fresh : ∀ n ∈ T.toList, n < m.fresh
  shows : Shows m T.toList L
  sorted : Sorted cmp L

variable {cmp : K → K → Int} {m m' : TreeMap K V} {T : RBTree Nat} {t : RBTree Nat} {C : List (Frame Nat)} {a n : Nat}
  {L L₁ L₂ : List (K × V)} {key : K} {val : V}

theorem tidy_nil (h : m.root = none) : Tidy cmp m .nil [] :=
  ⟨⟨trivial, List.nodup_nil⟩, ⟨rfl, 0, rfl⟩, h, by simp, rfl, List.Pairwise.nil⟩

theorem init_tidy : Tidy cmp (init : TreeMap K V) .nil [] := tidy_nil rfl

theorem Realises.length_le (h : Realises m T) (hf : ∀ n ∈ T.toList, n < m.fresh) : T.toList.length ≤ m.fresh := by
  have hsub : T.toList ⊆ List.range m.fresh := fun n hn => List.mem_range.mpr (hf n hn)
  simpa using (List.subperm_of_subset h.nodup hsub).length_le

/-- From any node of the tree, `getRoot` ends at the root. -/
theorem Realises.getRoot_mem (h : Realises m T) (hf : ∀ n ∈ T.toList, n < m.fresh) (ha : a ∈ T.toList) :
    ∃ r, m.getRoot m.fresh a = .ok r ∧ T.root = some r := by
  have hlen := h.length_le hf
  obtain ⟨C, red, l, r, rfl⟩ := RedBlack.exists_plug ha
  refine Realises.getRoot h rfl ?_
  rw [RedBlack.toList_plug_perm.length_eq, RBTree.toList] at hlen
  have := RedBlack.length_le_contents (C := C)
  simp only [List.length_append, List.length_cons] at hlen
  omega

section

variable [Std.TransCmp (order cmp)]

theorem Tidy.find (h : Tidy cmp m T L) (target : K) :
    (∃ n e, m.find cmp target = .ok (some n) ∧ n ∈ T.toList ∧ e ∈ L ∧ m.key n = some e.1 ∧ m.val n = some e.2 ∧
      order cmp e.1 target = .eq) ∨
    m.find cmp target = .ok none ∧ ∀ e ∈ L, order cmp e.1 target ≠ .eq := by
  have hfind : m.find cmp target = m.findBelow cmp target m.fresh T.root := by
    rw [TreeMap.find, h.root]
    cases T.root <;> rfl
  rw [hfind]
  rcases findBelow_ok target h.realises.links (h.realises.length_le h.fresh) h.shows h.sorted with
    ⟨n, k, he, hn, hk, ho⟩ | hnone
  · obtain ⟨A, B, hAB⟩ := List.append_of_mem hn
    have hshows := h.shows
    rw [hAB] at hshows
    obtain ⟨X, L', rfl, _, hL'⟩ := shows_append.mp hshows
    obtain ⟨e, Y, rfl, hke, hve, _⟩ := shows_cons.mp hL'
    rw [hke] at hk
    cases hk
    exact .inl ⟨n, e, he, hn, by simp, hke, hve, ho⟩
  · exact .inr hnone

end

/-- A new node changes nothing of the tree. -/
theorem Tidy.newNode (h : Tidy cmp m T L) (key : K) (val : V) (red : Bool) :
    Tidy cmp (m.newNode key val red).1 T L := by
  have hne : ∀ n ∈ T.toList, n ≠ m.fresh := fun n hn => Nat.ne_of_lt (h.fresh n hn)
  refine ⟨⟨h.realises.links.same h.realises.nodup (fun n hn => ⟨?_, fun s => ?_⟩) (fun n hn => ?_), h.realises.nodup⟩,
    h.redBlack, h.root, fun n hn => Nat.lt_succ_of_lt (h.fresh n hn), h.shows.congr (fun n hn => ?_) (fun n hn => ?_),
    h.sorted⟩
  · exact Function.update_of_ne (hne n hn) _ _
  · simp [TreeMap.newNode, hne n hn]
  all_goals exact Function.update_of_ne (hne n hn) _ _

variable (key val) in
theorem newNode_links {p : Option Nat} (red : Bool) (hp : p = none) :
    (m.newNode key val red).1.toLinks.Tree p (.node red .nil m.fresh .nil) := by
  subst hp
  refine ⟨?_, ?_, ?_, ?_, trivial, trivial⟩ <;> simp [TreeMap.newNode]

/-- The entries with one more between the smaller and the larger keys. -/
theorem Sorted.insert (hs : Sorted cmp (L₁ ++ L₂)) (h₁ : ∀ e ∈ L₁, order cmp e.1 key = .lt)
    (h₂ : ∀ e ∈ L₂, order cmp key e.1 = .lt) : Sorted cmp (L₁ ++ (key, val) :: L₂) := by
  obtain ⟨hs₁, hs₂, hs₁₂⟩ := List.pairwise_append.mp hs
  refine List.pairwise_append.mpr ⟨hs₁, List.pairwise_cons.mpr ⟨h₂, hs₂⟩, fun x hx y hy => ?_⟩
  rcases List.mem_cons.mp hy with rfl | hy
  · exact h₁ x hx
  · exact hs₁₂ x hx y hy

/-- Another value for an entry. -/
theorem Sorted.replace {e : K × V} (hs : Sorted cmp (L₁ ++ e :: L₂)) : Sorted cmp (L₁ ++ (e.1, val) :: L₂) := by
  obtain ⟨hs₁, hs₂, hs₁₂⟩ := List.pairwise_append.mp hs
  obtain ⟨hse, hs₂⟩ := List.pairwise_cons.mp hs₂
  refine List.pairwise_append.mpr ⟨hs₁, List.pairwise_cons.mpr ⟨hse, hs₂⟩, fun x hx y hy => ?_⟩
  rcases List.mem_cons.mp hy with rfl | hy
  · exact hs₁₂ x hx e (by simp)
  · exact hs₁₂ x hx y (by simp [hy])

variable (cmp) in
/-- What storing does to the entries. -/
inductive Stored (key : K) (val : V) : List (K × V) → List (K × V) → Prop where
  | replace {X Y : List (K × V)} {e : K × V} (he : order cmp e.1 key = .eq) :
    Stored key val (X ++ e :: Y) (X ++ (e.1, val) :: Y)
  | insert {X Y : List (K × V)} (hX : ∀ e ∈ X, order cmp e.1 key = .lt) (hY : ∀ e ∈ Y, order cmp key e.1 = .lt) :
    Stored key val (X ++ Y) (X ++ (key, val) :: Y)

variable [Std.TransCmp (order cmp)]

variable (key val) in
/-- `insert` and the search for the new root. -/
theorem Tidy.insertNode (h : Tidy cmp m T L) {r : Nat} (hr : T.root = some r) :
    ∃ m₁ r' T' L', insertNode cmp (m.newNode key val true).1.fresh (m.newNode key val true).1 r m.fresh = .ok m₁ ∧
      m₁.getRoot m₁.fresh r = .ok r' ∧ Stored cmp key val L L' ∧ Tidy cmp { m₁ with root := some r' } T' L' ∧
      m₁.count = m.count := by
  have h₁ := h.newNode key val true
  generalize hm₁ : (m.newNode key val true).1 = m₁ at h₁
  have hfresh : m₁.fresh = m.fresh + 1 := by rw [← hm₁]; rfl
  have hcount : m₁.count = m.count := by rw [← hm₁]; rfl
  have hkey : m₁.key m.fresh = some key := by rw [← hm₁]; exact Function.update_self _ _ _
  have hval : m₁.val m.fresh = some val := by rw [← hm₁]; exact Function.update_self _ _ _
  have hrm : r ∈ T.toList := RBTree.mem_of_root hr
  have hnone : Shows m₁ [] ([] : List (K × V)) := rfl
  rcases insertNode_ok (C := []) h₁.realises hr (h₁.realises.length_le h₁.fresh) hkey hnone h₁.shows
    hnone h₁.sorted (by simp) (by simp) with ⟨n, k', hn, hk', ho, hins⟩ | ⟨f, D, L₁, L₂, hT, hL, hL₁, hL₂, hlt₁, hlt₂, hins⟩
  · obtain ⟨A, B, hAB⟩ := List.append_of_mem hn
    have hshows := h₁.shows
    rw [hAB] at hshows
    obtain ⟨X, L', rfl, hX, hL'⟩ := shows_append.mp hshows
    obtain ⟨e, Y, rfl, hke, hve, hY⟩ := shows_cons.mp hL'
    rw [hke] at hk'
    cases hk'
    have hnd := h₁.realises.nodup
    rw [hAB] at hnd
    have hnA : n ∉ A := fun hnA => (List.nodup_append'.mp hnd).2.2 hnA (by simp)
    have hnB : n ∉ B := (List.nodup_cons.mp (List.nodup_append'.mp hnd).2.1).1
    refine ⟨_, r, T, X ++ (e.1, val) :: Y, hins, ?_, .replace ho, ⟨⟨h₁.realises.links, h₁.realises.nodup⟩, h₁.redBlack,
      hr.symm, h₁.fresh, ?_, h₁.sorted.replace⟩, hcount⟩
    · have hp : m₁.parent r = none := Realises.parent (C := []) h₁.realises hr
      rw [hfresh, TreeMap.getRoot, hp]
      rfl
    · rw [hAB]
      refine shows_append.mpr ⟨X, _, rfl, ?_, shows_cons.mpr ⟨(e.1, val), Y, rfl, hke, ?_, ?_⟩⟩
      · exact hX.congr (fun _ _ => rfl) (fun x hx => Function.update_of_ne (fun he => hnA (by rwa [← he])) _ _)
      · exact (Function.update_self _ _ _).trans hval
      · exact hY.congr (fun _ _ => rfl) (fun x hx => Function.update_of_ne (fun he => hnB (by rwa [← he])) _ _)
  · rw [List.append_nil, List.nil_append] at hL
    subst hL
    have hu : m₁.toLinks.Tree none (.node true .nil m.fresh .nil) := by rw [← hm₁]; exact newNode_links key val true rfl
    have hTr : Realises m₁ (plug (f :: D) .nil) := by rw [← hT]; exact h₁.realises
    have hperm : T.toList.Perm (contents (f :: D)) := by
      have := RedBlack.toList_plug_perm (C := f :: D) (t := (RBTree.nil : RBTree Nat))
      rw [← hT] at this
      exact this
    have hnd : ((RBTree.node true .nil m.fresh .nil).toList ++ contents (f :: D)).Nodup := by
      refine List.nodup_cons.mpr ⟨fun hc => ?_, hperm.nodup_iff.mp h.realises.nodup⟩
      exact Nat.lt_irrefl _ (h.fresh _ (hperm.mem_iff.mpr hc))
    have hlink := hTr.setChild hu hnd
    obtain ⟨n, hn0, hfit, _⟩ := RedBlack.isRedBlack_plug.mp (hT ▸ h₁.redBlack : (plug (f :: D) .nil).IsRedBlack)
    obtain rfl : n = 0 := hn0
    have hfuel : (f :: D).length < m₁.fresh := by
      have h₂ := hperm.length_eq
      have h₃ := RedBlack.length_le_contents (C := f :: D)
      have h₄ := h.realises.length_le h.fresh
      omega
    obtain ⟨m₂, T', hm₂, hd, hR, hT', hl⟩ := hlink.rebalance hfuel (a := m.fresh) rfl rfl
      (RedBlack.RBTree.balanced_red (s := .left).mpr ⟨rfl, rfl, rfl, rfl⟩) hfit
    have hd' := setChild_data.trans hd
    rw [RedBlack.toList_plug] at hl
    have hmem : ∀ x, x ∈ T'.toList ↔ x = m.fresh ∨ x ∈ T.toList := by
      intro x
      rw [hl, hperm.mem_iff, ← RedBlack.contents_perm.mem_iff]
      simp only [RBTree.toList, List.nil_append, List.mem_append, List.mem_singleton]
      tauto
    have hfresh₂ : ∀ x ∈ T'.toList, x < m₂.fresh := by
      intro x hx
      rw [hd'.fresh, hfresh]
      rcases (hmem x).mp hx with rfl | hx
      · exact Nat.lt_succ_self _
      · exact Nat.lt_succ_of_lt (h.fresh x hx)
    obtain ⟨r', hr', hroot'⟩ := hR.getRoot_mem hfresh₂ ((hmem r).mpr (.inr hrm))
    refine ⟨m₂, r', T', _, hins.trans hm₂, hr', .insert hlt₁ hlt₂, ⟨⟨hR.links, hR.nodup⟩, hT', hroot'.symm, hfresh₂, ?_,
      h.sorted.insert hlt₁ hlt₂⟩, hd'.count.trans hcount⟩
    have hshows : Shows m₁ (before (f :: D) ++ ([m.fresh] ++ after (f :: D))) (L₁ ++ (key, val) :: L₂) :=
      shows_append.mpr ⟨_, _, rfl, hL₁, shows_cons.mpr ⟨(key, val), _, rfl, hkey, hval, hL₂⟩⟩
    rw [hl, List.append_assoc]
    exact (hshows.same hd' : Shows m₂ _ _)

/-- `oper []=` -/
theorem Tidy.store (h : Tidy cmp m T L) (key : K) (val : V) :
    ∃ m' T' L', m.store cmp key val = .ok m' ∧ Tidy cmp m' T' L' ∧ Stored cmp key val L L' ∧
      m'.count = uint (m.count + 1) := by
  cases hr : T.root with
  | none =>
    obtain rfl := RBTree.root_eq_none.mp hr
    obtain rfl := shows_nil.mp h.shows
    have hroot : m.root = none := h.root
    refine ⟨{ (m.newNode key val false).1 with root := some m.fresh, count := uint (m.count + 1) },
      .node false .nil m.fresh .nil, [(key, val)], ?_, ⟨⟨newNode_links key val false rfl, ?_⟩, ?_, rfl, ?_, ?_, ?_⟩,
      .insert (X := []) (Y := []) (by simp) (by simp), ?_⟩
    · simp only [TreeMap.store, hroot, bind, Except.bind, pure, Except.pure]
      rfl
    · simp [RBTree.toList]
    · exact ⟨rfl, 1, RedBlack.RBTree.balanced_black (s := .left).mpr ⟨rfl, rfl⟩⟩
    · intro n hn
      rw [List.mem_singleton.mp hn]
      exact Nat.lt_succ_self _
    · refine shows_cons.mpr ⟨(key, val), [], rfl, ?_, ?_, rfl⟩ <;> exact Function.update_self _ _ _
    · exact List.pairwise_singleton _ _
    · rfl
  | some r =>
    obtain ⟨m₁, r', T', L', hins, hget, hst, ht, hc⟩ := h.insertNode key val hr
    refine ⟨{ m₁ with root := some r', count := uint (m₁.count + 1) }, T', L', ?_,
      ⟨⟨ht.realises.links, ht.realises.nodup⟩, ht.redBlack, ht.root, ht.fresh, ht.shows, ht.sorted⟩, hst, by rw [← hc]⟩
    rw [TreeMap.store, h.root, hr]
    simp only [bind, Except.bind, pure, Except.pure]
    rw [show (m.newNode key val true).2 = m.fresh from rfl, hins]
    simp only [hget]

theorem Tidy.delete (h : Tidy cmp m T L) (key : K) :
    (∃ X e Y m' T', L = X ++ e :: Y ∧ order cmp e.1 key = .eq ∧ m.delete cmp key = .ok (m', .ok ()) ∧
      Tidy cmp m' T' (X ++ Y) ∧ m'.count = uint (m.count + 2 ^ 32 - 1)) ∨
    (∀ e ∈ L, order cmp e.1 key ≠ .eq) ∧
      m.delete cmp key = .ok (m, .error (.keyError "node not found in RBTree.delete()")) := by
  rcases h.find key with ⟨n, e, hf, hn, _, hke, _, ho⟩ | ⟨hf, hall⟩
  · left
    have hlen := h.realises.length_le h.fresh
    have hshows := h.shows
    have hsorted := h.sorted
    obtain ⟨ρ, hρ⟩ : ∃ ρ, T.root = some ρ := by
      cases hρ : T.root with
      | none => rw [RBTree.root_eq_none.mp hρ] at hn; cases hn
      | some ρ => exact ⟨ρ, rfl⟩
    obtain ⟨C, red, l, r, rfl⟩ := RedBlack.exists_plug hn
    rcases h.realises.deleteNode h.redBlack hlen with ⟨rfl, rfl, rfl, hdel⟩ | ⟨m', T', hdel, hrem⟩
    · obtain ⟨e', L', rfl, hke', _, hL'⟩ := shows_cons.mp hshows
      rw [hke] at hke'
      rw [shows_nil.mp hL']
      refine ⟨[], e', [], { m with root := none, count := uint (m.count + 2 ^ 32 - 1) }, .nil, rfl, ?_, ?_,
        tidy_nil rfl, rfl⟩
      · rw [← Option.some.inj hke']; exact ho
      simp only [TreeMap.delete, hf, hdel, bind, Except.bind, pure, Except.pure, if_true]
    · obtain ⟨A, B, hAB, hent⟩ := hrem.entries
      rw [hAB] at hshows
      obtain ⟨X, L', rfl, hX, hL'⟩ := shows_append.mp hshows
      obtain ⟨e', Y, rfl, hke', _, hY⟩ := shows_cons.mp hL'
      rw [hke] at hke'
      have hfresh : ∀ x ∈ T'.toList, x < m'.fresh := fun x hx => by rw [hrem.fresh]; exact h.fresh x (hrem.subset hx)
      obtain ⟨ρ', hget, hρ'⟩ := hrem.realises.getRoot_mem hfresh (hrem.keepsRoot ρ hρ)
      have hsub : (X ++ Y).Sublist (X ++ e' :: Y) := by simp
      refine ⟨X, e', Y, { m' with root := some ρ', count := uint (m.count + 2 ^ 32 - 1) }, T', rfl, ?_, ?_,
        ⟨⟨hrem.realises.links, hrem.realises.nodup⟩, hrem.redBlack, hρ'.symm, hfresh, ?_, hsorted.sublist hsub⟩, rfl⟩
      · rw [← Option.some.inj hke']; exact ho
      · have hroot : m.root = some ρ := h.root.trans hρ
        simp only [TreeMap.delete, hf, hdel, hroot, deref, hget, bind, Except.bind, pure, Except.pure,
          Bool.false_eq_true, if_false, Functor.map, Except.map, hrem.count]
      · have hAY : Shows m (A ++ B) (X ++ Y) := shows_append.mpr ⟨X, Y, rfl, hX, hY⟩
        exact hent.trans hAY
  · right
    refine ⟨hall, ?_⟩
    simp only [TreeMap.delete, hf, bind, Except.bind]
    rfl

omit [Std.TransCmp (order cmp)] in
theorem Tidy.iterElem {e : K × V} (h : Tidy cmp m T (e :: L)) :
    ∃ n, m.iterElem = .ok (some n) ∧ m.key n = some e.1 ∧ m.val n = some e.2 := by
  obtain ⟨r, hr⟩ : ∃ r, T.root = some r := by
    cases hr : T.root with
    | none =>
      have hlen := h.shows.length
      rw [RBTree.root_eq_none.mp hr] at hlen
      cases hlen
    | some r => exact ⟨r, rfl⟩
  have hlen : T.toList.length ≤ m.fresh := h.realises.length_le h.fresh
  obtain ⟨C, c, b, y, rfl, hmin, hbefore⟩ := findLast_ok m.fresh .left h.realises.links hr hlen
  have hshows := h.shows
  rw [RedBlack.toList_plug, show before C = [] from hbefore] at hshows
  obtain ⟨e', L', he, hkey, hval, -⟩ := shows_cons.mp hshows
  cases he
  have hroot : m.root = some r := h.root.trans hr
  refine ⟨b, ?_, hkey, hval⟩
  rw [TreeMap.iterElem, hroot]
  simp only [findMin, hmin, bind, Except.bind]
  rfl

omit [Std.TransCmp (order cmp)] in
/-- `_unhookParents` goes down the child links, which it leaves as they are. -/
theorem unhookParents_ok {m₀ : TreeMap K V} {p : Option Nat} {fuel : Nat} (ht : m₀.toLinks.Tree p t)
    (hr : t.root = some a) (hfuel : t.toList.length ≤ fuel) (hc : m.child = m₀.child) :
    ∃ m', unhookParents fuel m a = .ok m' ∧ m'.child = m₀.child := by
  induction t generalizing m p a fuel with
  | nil => cases hr
  | node red l b r ihl ihr =>
    obtain ⟨_, _, hl, hrt, htl, htr⟩ := ht
    cases hr
    cases fuel with
    | zero => simp [RBTree.toList] at hfuel
    | succ fuel =>
      simp only [RBTree.toList, List.length_append, List.length_cons] at hfuel
      have hfl : l.toList.length ≤ fuel := by omega
      have hfr : r.toList.length ≤ fuel := by omega
      have hc₁ : (m.setParentField b none).child = m₀.child := hc
      have hleft : (m.setParentField b none).left b = l.root := by rw [left, hc₁, hl]
      have hright {m₁ : TreeMap K V} (hc : m₁.child = m₀.child) : m₁.right b = r.root := by rw [right, hc, hrt]
      rw [unhookParents]
      simp only [hleft, bind, Except.bind, pure, Except.pure]
      cases hlr : l.root with
      | none =>
        simp only [hright hc₁]
        cases hrr : r.root with
        | none => exact ⟨_, rfl, hc₁⟩
        | some e => exact ihr htr hrr hfr hc₁
      | some d =>
        obtain ⟨m₁, hm₁, hcm₁⟩ := ihl htl hlr hfl hc₁
        simp only [hm₁, hright hcm₁]
        cases hrr : r.root with
        | none => exact ⟨_, rfl, hcm₁⟩
        | some e => exact ihr htr hrr hfr hcm₁

omit [Std.TransCmp (order cmp)] in
theorem Tidy.clear (h : Tidy cmp m T L) :
    ∃ m', m.clear = .ok m' ∧ Tidy cmp m' .nil [] ∧ (m'.count = 0 ∨ L = [] ∧ m'.count = m.count) := by
  cases hr : T.root with
  | none =>
    obtain rfl := RBTree.root_eq_none.mp hr
    have hroot : m.root = none := h.root
    refine ⟨m, ?_, tidy_nil hroot, .inr ⟨shows_nil.mp h.shows, rfl⟩⟩
    rw [TreeMap.clear, hroot]
    rfl
  | some r =>
    have hroot : m.root = some r := h.root.trans hr
    obtain ⟨m₁, hm₁, _⟩ := unhookParents_ok h.realises.links hr (h.realises.length_le h.fresh) rfl
    refine ⟨{ m₁ with root := none, count := 0 }, ?_, tidy_nil rfl, .inl rfl⟩
    simp only [TreeMap.clear, hroot, hm₁, bind, Except.bind]
    rfl

end TreeMap

end Crack
