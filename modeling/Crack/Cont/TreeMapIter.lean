import Crack.Cont.TreeMapConstraints
import Crack.Lib.Loops

/-!
# Iterating over a TreeMap

An iterator stands at a node and keeps no stack. What comes behind a node in the
order of the tree is its right subtree and then what is behind the hole that the
node fills: the climb along the parent links goes out of the hole.
-/
namespace Crack

open RedBlack (Side RBTree Frame plug above before after contents)

namespace TreeMap

variable {K V : Type}

structure Iter where
  first : Bool
  node : Option Nat
  deriving DecidableEq, Repr

section

variable (m : TreeMap K V)

def iter : Except Fault Iter := do
  return ⟨true, ← m.iterElem⟩

/-- The end of `__next`: up while the node is a right child, and then to the parent. -/
def climb : Nat → Nat → Except Fault (Option Nat)
  | 0, _ => .error .forever
  | fuel + 1, node =>
    match m.parent node with
    | none => return none
    | some parent => if m.right parent = some node then climb fuel parent else return some parent

/-- `__next` -/
def advance (it : Iter) : Except Fault Iter := do
  let node ← deref it.node
  match m.right node with
  | some right => return { it with node := some (← m.findMin m.fresh right) }
  | none => return { it with node := ← m.climb m.fresh node }

def Iter.isTrue (it : Iter) : Bool := it.node.isSome

def next (it : Iter) : Except Fault (Iter × Bool) := do
  let it ← m.advance it
  return (it, it.isTrue)

def nx (it : Iter) : Except Fault (Iter × Bool) :=
  if it.first then .ok ({ it with first := false }, it.isTrue) else m.next it

/-- A loop that reads the element while the iterator is true, and then calls `next`. -/
def loopNext : Nat → Iter → Except Fault (List Nat × Iter)
  | 0, _ => .error .forever
  | fuel + 1, it => do
    match it.node with
    | none => return ([], it)
    | some node =>
      let (it, _) ← m.next it
      let (nodes, it) ← loopNext fuel it
      return (node :: nodes, it)

/-- A loop that reads the element after each call of `nx` that is true. -/
def loopNx : Nat → Iter → Except Fault (List Nat × Iter)
  | 0, _ => .error .forever
  | fuel + 1, it => do
    let (it, more) ← m.nx it
    if more then
      let node ← deref it.node
      let (nodes, it) ← loopNx fuel it
      return (node :: nodes, it)
    else return ([], it)

end

/-- The nodes are those of the tree, each of them once, and their keys ascend. -/
structure Visits (cmp : K → K → Int) (m : TreeMap K V) (nodes : List Nat) : Prop where
  once : nodes.Nodup
  all : ∀ n, n ∈ nodes ↔ Reached m n
  ascending : nodes.Pairwise (fun x y => ∃ k k', m.key x = some k ∧ m.key y = some k' ∧ order cmp k k' = .lt)

variable {cmp : K → K → Int} {m : TreeMap K V} {T t l r : RBTree Nat} {L : List (K × V)} {C : List (Frame Nat)}
  {red : Bool} {n : Nat} {A B : List Nat} {it : Iter}

/-- The first node of a subtree is the one that `findMin` returns. -/
theorem findMin_head {p : Option Nat} {root : Nat} (fuel : Nat) (ht : m.toLinks.Tree p t) (hr : t.root = some root)
    (hfuel : t.toList.length ≤ fuel) : ∃ n, m.findMin fuel root = .ok n ∧ t.toList.head? = some n := by
  obtain ⟨C, c, n, y, rfl, hmin, hbefore⟩ := findLast_ok fuel .left ht hr hfuel
  refine ⟨n, hmin, ?_⟩
  rw [RedBlack.toList_plug, show before C = [] from hbefore]
  rfl

/-- The climb ends at the first node behind the hole. -/
theorem climb_ok (fuel : Nat) (h : Realises m (plug C t)) (hr : t.root = some n) (hfuel : C.length < fuel) :
    m.climb fuel n = .ok (after C).head? := by
  induction C generalizing t n fuel with
  | nil =>
    obtain ⟨fuel, rfl⟩ := Nat.exists_eq_add_one.mpr hfuel
    rw [climb, h.parent hr]
    rfl
  | cons f C ih =>
    obtain ⟨fuel, rfl⟩ := Nat.exists_eq_add_one.mpr (Nat.zero_lt_of_lt hfuel)
    have hparent : m.parent n = some f.a := h.parent hr
    rw [List.length_cons] at hfuel
    rw [climb, hparent]
    dsimp only
    obtain ⟨side, red, a, u⟩ := f
    cases side with
    | left =>
      have hright : ¬ m.right a = some n := fun he => by cases (h.right_iff hr).mp he
      rw [if_neg hright]
      rfl
    | right =>
      rw [if_pos ((h.right_iff hr).mpr rfl)]
      exact ih fuel h (RBTree.root_branch (s := .right)) (by omega)

/-- A step leads from each node of the tree to the one behind it. -/
theorem advance_ok (h : Realises m T) (hf : ∀ n ∈ T.toList, n < m.fresh) (hT : T.toList = A ++ n :: B)
    (hit : it.node = some n) : m.advance it = .ok { it with node := B.head? } := by
  have hlen := h.length_le hf
  obtain ⟨C, red, l, r, rfl⟩ := RedBlack.exists_plug (t := T) (a := n) (by simp [hT])
  -- the node occurs once, so what is behind it is known
  have hB : B = r.toList ++ after C := by
    have hlist : (plug C (.node red l n r)).toList = before C ++ l.toList ++ n :: (r.toList ++ after C) := by
      rw [RedBlack.toList_plug]
      simp [RBTree.toList]
    have hnodup := h.nodup
    rw [hlist] at hnodup hT
    obtain ⟨-, hn, hdis⟩ := List.nodup_append'.mp hnodup
    have hbefore : n ∉ before C ++ l.toList := fun hm => hdis hm (by simp)
    exact ((List.append_cons_inj_of_notMem hbefore (List.nodup_cons.mp hn).1).mp hT).2.2.symm
  have hright : m.right n = r.root := Realises.child (s := .right) (x := r) (y := l) h
  rw [advance, hit]
  simp only [deref, bind, Except.bind, hright]
  rw [RedBlack.toList_plug] at hlen
  simp only [RBTree.toList, List.length_append, List.length_cons] at hlen
  cases hroot : r.root with
  | some root =>
    obtain ⟨-, -, -, -, -, htr⟩ := (RedBlack.Links.tree_plug.mp h.links).2
    obtain ⟨first, hmin, hhead⟩ := findMin_head m.fresh htr hroot (by omega)
    simp only [hmin, hB, List.head?_append, hhead, pure, Except.pure]
    rfl
  | none =>
    obtain rfl := RBTree.root_eq_none.mp hroot
    have hCle := RedBlack.length_le_contents (C := C)
    have hcontents := RedBlack.contents_perm (C := C).length_eq
    rw [List.length_append] at hcontents
    have hclimb := climb_ok m.fresh h rfl (by omega)
    simp only [hclimb, hB, RBTree.toList_nil, List.nil_append, pure, Except.pure]

theorem next_ok (h : Realises m T) (hf : ∀ n ∈ T.toList, n < m.fresh) (hT : T.toList = A ++ n :: B)
    (hit : it.node = some n) : m.next it = .ok ({ it with node := B.head? }, B.head?.isSome) := by
  rw [next, advance_ok h hf hT hit]
  rfl

/-- The rest of the nodes is visited from each node on. -/
theorem loopNext_ok (h : Realises m T) (hf : ∀ n ∈ T.toList, n < m.fresh) (hT : T.toList = A ++ B) (fuel : Nat)
    (hfuel : B.length < fuel) (it : Iter) (hit : it.node = B.head?) :
    m.loopNext fuel it = .ok (B, { it with node := none }) := by
  induction B generalizing A fuel it with
  | nil =>
    obtain ⟨fuel, rfl⟩ := Nat.exists_eq_add_one.mpr hfuel
    obtain ⟨first, node⟩ := it
    cases hit
    rfl
  | cons n B ih =>
    obtain ⟨fuel, rfl⟩ := Nat.exists_eq_add_one.mpr (Nat.zero_lt_of_lt hfuel)
    rw [List.length_cons] at hfuel
    have hrest := ih (A := A ++ [n]) (by rw [hT, List.append_assoc]; rfl) fuel (by omega)
      { it with node := B.head? } rfl
    have hnode : it.node = some n := hit
    rw [loopNext]
    simp only [hnode, next_ok h hf hT hnode, bind, Except.bind, hrest]
    rfl

/-- A call of `nx` after the first one is one of `next`. -/
theorem loopNx_ok (h : Realises m T) (hf : ∀ n ∈ T.toList, n < m.fresh) (hT : T.toList = A ++ n :: B) (fuel : Nat)
    (hfuel : B.length < fuel) (it : Iter) (hfirst : it.first = false) (hit : it.node = some n) :
    m.loopNx fuel it = .ok (B, { it with node := none }) := by
  induction B generalizing A n fuel it with
  | nil =>
    obtain ⟨fuel, rfl⟩ := Nat.exists_eq_add_one.mpr hfuel
    have hnx : m.nx it = .ok ({ it with node := none }, false) := by
      rw [nx, if_neg (by rw [hfirst]; exact Bool.false_ne_true)]
      exact next_ok h hf hT hit
    rw [loopNx, hnx]
    rfl
  | cons n' B ih =>
    obtain ⟨fuel, rfl⟩ := Nat.exists_eq_add_one.mpr (Nat.zero_lt_of_lt hfuel)
    rw [List.length_cons] at hfuel
    have hnx : m.nx it = .ok ({ it with node := some n' }, true) := by
      rw [nx, if_neg (by rw [hfirst]; exact Bool.false_ne_true)]
      exact next_ok h hf hT hit
    have hrest := ih (A := A ++ [n]) (n := n') (by rw [hT, List.append_assoc]; rfl) fuel (by omega)
      { it with node := some n' } hfirst rfl
    rw [loopNx, hnx]
    simp only [bind, Except.bind, if_true, deref, hrest]
    rfl

theorem loopNx_start (h : Realises m T) (hf : ∀ n ∈ T.toList, n < m.fresh) (fuel : Nat)
    (hfuel : T.toList.length < fuel) : m.loopNx fuel ⟨true, T.toList.head?⟩ = .ok (T.toList, ⟨false, none⟩) := by
  obtain ⟨fuel, rfl⟩ := Nat.exists_eq_add_one.mpr (Nat.zero_lt_of_lt hfuel)
  rw [loopNx]
  cases hT : T.toList with
  | nil => rfl
  | cons n B =>
    rw [hT, List.length_cons] at hfuel
    have hrest := loopNx_ok (A := []) h hf hT fuel (by omega) ⟨false, some n⟩ rfl rfl
    simp only [List.head?_cons, nx, if_true, bind, Except.bind, Iter.isTrue, Option.isSome_some, deref, hrest]
    rfl

/-- A new iterator stands at the first node. -/
theorem Tidy.iter (h : Tidy cmp m T L) : m.iter = .ok ⟨true, T.toList.head?⟩ := by
  rw [TreeMap.iter, TreeMap.iterElem, h.root]
  cases hr : T.root with
  | none =>
    obtain rfl := RBTree.root_eq_none.mp hr
    rfl
  | some root =>
    obtain ⟨n, hmin, hhead⟩ := findMin_head m.fresh h.realises.links hr (h.realises.length_le h.fresh)
    simp only [hmin, hhead, bind, Except.bind]
    rfl

theorem Tidy.visits (h : Tidy cmp m T L) : Visits cmp m T.toList :=
  ⟨h.realises.nodup, fun _ => h.reached_iff.symm, h.shows.pairwise h.sorted⟩

/-- Both ways of iterating visit every node once, with ascending keys, and then the iterator is false. -/
theorem iter_visits (cmp : K → K → Int) (m : TreeMap K V) (T : RBTree Nat) (L : List (K × V)) (h : Tidy cmp m T L) :
    ∃ it nodes ended ended', m.iter = .ok it ∧ Visits cmp m nodes ∧
      Fuel.Returns (fun fuel => m.loopNext fuel it) (.ok (nodes, ended)) ∧ ended.isTrue = false ∧
      Fuel.Returns (fun fuel => m.loopNx fuel it) (.ok (nodes, ended')) ∧ ended'.isTrue = false := by
  refine ⟨_, T.toList, ⟨true, none⟩, ⟨false, none⟩, h.iter, h.visits, ?_, rfl, ?_, rfl⟩
  · exact ⟨T.toList.length + 1, fun fuel hle =>
      loopNext_ok (A := []) h.realises h.fresh rfl fuel hle ⟨true, T.toList.head?⟩ rfl⟩
  · exact ⟨T.toList.length + 1, fun fuel hle => loopNx_start h.realises h.fresh fuel hle⟩

theorem few_visits : ∃ (m : TreeMap Nat Nat) (rs : List (Except Exc Unit)) (it : Iter) (nodes : List Nat)
    (ended ended' : Iter), run heavycmp init [.store 2 20, .store 3 30, .store 1 10] = .ok (m, rs) ∧
      m.iter = .ok it ∧ Visits heavycmp m nodes ∧
      Fuel.Returns (fun fuel => m.loopNext fuel it) (.ok (nodes, ended)) ∧ ended.isTrue = false ∧
      Fuel.Returns (fun fuel => m.loopNx fuel it) (.ok (nodes, ended')) ∧ ended'.isTrue = false := by
  obtain ⟨m, rs, T, L, he, h⟩ := (init_tidy : Tidy heavycmp (init : TreeMap Nat Nat) .nil []).run
    [.store 2 20, .store 3 30, .store 1 10]
  obtain ⟨it, nodes, ended, ended', hall⟩ := iter_visits heavycmp m T L h
  exact ⟨m, rs, it, nodes, ended, ended', he, hall⟩

end TreeMap

end Crack
