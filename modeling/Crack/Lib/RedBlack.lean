import Mathlib.Data.List.Nodup
import Mathlib.Tactic.Common

/-!
# Red-black trees with a hole

Trees whose nodes are red or black, and the frames that lead from a place in a
tree up to its root. A context is the list of these frames, the innermost first.
The two sides of a node are interchangeable, so that what is said about one side
is said about the other.
-/
namespace RedBlack

inductive Side where
  | left
  | right
  deriving DecidableEq, Repr

def Side.other : Side → Side
  | .left => .right
  | .right => .left

@[simp] theorem Side.other_left : Side.left.other = .right := rfl

@[simp] theorem Side.other_right : Side.right.other = .left := rfl

@[simp] theorem Side.other_other (s : Side) : s.other.other = s := by cases s <;> rfl

@[simp] theorem Side.other_ne (s : Side) : s.other ≠ s := by cases s <;> decide

@[simp] theorem Side.ne_other (s : Side) : s ≠ s.other := by cases s <;> decide

theorem Side.eq_or_other (s s' : Side) : s' = s ∨ s' = s.other := by cases s <;> cases s' <;> decide

inductive RBTree (α : Type) where
  | nil
  | node (red : Bool) (left : RBTree α) (a : α) (right : RBTree α)
  deriving DecidableEq, Repr

namespace RBTree

variable {α : Type}

/-- The node with the child `x` on the side `s` and `y` on the other. -/
def branch : Side → Bool → RBTree α → α → RBTree α → RBTree α
  | .left, red, x, a, y => node red x a y
  | .right, red, x, a, y => node red y a x

def isRed : RBTree α → Bool
  | nil => false
  | node red _ _ _ => red

def root : RBTree α → Option α
  | nil => none
  | node _ _ a _ => some a

def toList : RBTree α → List α
  | nil => []
  | node _ l a r => l.toList ++ a :: r.toList

@[simp] theorem isRed_nil : (nil : RBTree α).isRed = false := rfl

@[simp] theorem root_nil : (nil : RBTree α).root = none := rfl

@[simp] theorem toList_nil : (nil : RBTree α).toList = [] := rfl

variable {s : Side} {red : Bool} {x y : RBTree α} {a : α}

theorem branch_other : branch s.other red x a y = branch s red y a x := by cases s <;> rfl

@[simp] theorem isRed_branch : (branch s red x a y).isRed = red := by cases s <;> rfl

@[simp] theorem root_branch : (branch s red x a y).root = some a := by cases s <;> rfl

variable (s red x a y) in
theorem toList_branch_perm : (branch s red x a y).toList.Perm (a :: (x.toList ++ y.toList)) := by
  cases s
  · exact List.perm_middle
  · exact List.perm_middle.trans (List.perm_append_comm.cons a)

theorem root_eq_none {t : RBTree α} : t.root = none ↔ t = nil := by cases t <;> simp [root]

theorem exists_branch (s : Side) {t : RBTree α} (h : t ≠ nil) : ∃ red x a y, t = branch s red x a y := by
  cases t with
  | nil => exact absurd rfl h
  | node red l a r =>
    cases s
    · exact ⟨red, l, a, r, rfl⟩
    · exact ⟨red, r, a, l, rfl⟩

theorem mem_of_root {t : RBTree α} (h : t.root = some a) : a ∈ t.toList := by
  cases t with
  | nil => cases h
  | node red l b r => cases h; simp [toList]

/-- What a node adds to the black height. -/
def weight (red : Bool) : Nat := if red then 0 else 1

@[simp] theorem weight_true : weight true = 0 := rfl

@[simp] theorem weight_false : weight false = 1 := rfl

/-- Every path down has `n` black nodes, and no red node has a red child. -/
def Balanced : RBTree α → Nat → Prop
  | nil, n => n = 0
  | node red l _ r, n =>
    (red = true → l.isRed = false ∧ r.isRed = false) ∧ ∃ k, n = k + weight red ∧ l.Balanced k ∧ r.Balanced k

@[simp] theorem balanced_nil {n : Nat} : (nil : RBTree α).Balanced n ↔ n = 0 := Iff.rfl

theorem balanced_branch {n : Nat} : (branch s red x a y).Balanced n ↔
    (red = true → x.isRed = false ∧ y.isRed = false) ∧ ∃ k, n = k + weight red ∧ x.Balanced k ∧ y.Balanced k := by
  cases s with
  | left => rfl
  | right =>
    change ((red = true → y.isRed = false ∧ x.isRed = false) ∧
      ∃ k, n = k + weight red ∧ y.Balanced k ∧ x.Balanced k) ↔ _
    constructor
    · rintro ⟨h, k, hk, hy, hx⟩
      exact ⟨fun hr => (h hr).symm, k, hk, hx, hy⟩
    · rintro ⟨h, k, hk, hx, hy⟩
      exact ⟨fun hr => (h hr).symm, k, hk, hy, hx⟩

theorem balanced_red {n : Nat} : (branch s true x a y).Balanced n ↔
    x.isRed = false ∧ y.isRed = false ∧ x.Balanced n ∧ y.Balanced n := by
  simp [balanced_branch, and_assoc]

theorem balanced_black {n : Nat} : (branch s false x a y).Balanced (n + 1) ↔ x.Balanced n ∧ y.Balanced n := by
  simp [balanced_branch]

theorem Balanced.ne_nil {t : RBTree α} {n : Nat} (h : t.Balanced (n + 1)) : t ≠ nil := by
  rintro rfl
  cases h

/-- No red node has a red child. -/
def RedChildrenBlack : RBTree α → Prop
  | nil => True
  | node red l _ r => (red = true → l.isRed = false ∧ r.isRed = false) ∧ l.RedChildrenBlack ∧ r.RedChildrenBlack

/-- The numbers of black nodes on the paths down. -/
def blackCounts : RBTree α → List Nat
  | nil => [0]
  | node red l _ r => (l.blackCounts ++ r.blackCounts).map (· + weight red)

@[simp] theorem blackCounts_nil : (nil : RBTree α).blackCounts = [0] := rfl

theorem blackCounts_ne_nil (t : RBTree α) : t.blackCounts ≠ [] := by
  cases t with
  | nil => exact List.cons_ne_nil 0 []
  | node red l b r =>
    have hl := blackCounts_ne_nil l
    simp [blackCounts, hl]

theorem forall_blackCounts {red : Bool} {l r : RBTree α} {a : α} {n : Nat} :
    (∀ k ∈ (node red l a r).blackCounts, k = n) ↔
      ∃ b, n = b + weight red ∧ (∀ k ∈ l.blackCounts, k = b) ∧ ∀ k ∈ r.blackCounts, k = b := by
  simp only [blackCounts, List.mem_map, List.mem_append, forall_exists_index, and_imp]
  constructor
  · intro h
    obtain ⟨b, hb⟩ := List.exists_mem_of_ne_nil _ (blackCounts_ne_nil l)
    have hn := h _ b (.inl hb) rfl
    refine ⟨b, hn.symm, fun k hk => ?_, fun k hk => ?_⟩
    · have hk := h _ k (.inl hk) rfl
      omega
    · have hk := h _ k (.inr hk) rfl
      omega
  · rintro ⟨b, rfl, hl, hr⟩ _ k (hk | hk) rfl
    · rw [hl k hk]
    · rw [hr k hk]

/-- A balanced tree whose root is black. -/
def IsRedBlack (t : RBTree α) : Prop := t.isRed = false ∧ ∃ n, t.Balanced n

end RBTree

open RedBlack.RBTree

variable {α : Type}

/-- A node seen from the child on one of its sides. -/
structure Frame (α : Type) where
  side : Side
  red : Bool
  a : α
  sibling : RBTree α

def Frame.fill (f : Frame α) (t : RBTree α) : RBTree α := branch f.side f.red t f.a f.sibling

def plug : List (Frame α) → RBTree α → RBTree α
  | [], t => t
  | f :: C, t => plug C (f.fill t)

/-- The node above the hole. -/
def above (C : List (Frame α)) : Option α := C.head?.map Frame.a

/-- Outside of the tree counts as red, so that the root is black. -/
def redAbove : List (Frame α) → Bool
  | [] => true
  | f :: _ => f.red

def before : List (Frame α) → List α
  | [] => []
  | ⟨.left, _, _, _⟩ :: C => before C
  | ⟨.right, _, a, t⟩ :: C => before C ++ (t.toList ++ [a])

def after : List (Frame α) → List α
  | [] => []
  | ⟨.left, _, a, t⟩ :: C => a :: t.toList ++ after C
  | ⟨.right, _, _, _⟩ :: C => after C

/-- What stands in the context, in no order. -/
def contents : List (Frame α) → List α
  | [] => []
  | f :: C => f.a :: f.sibling.toList ++ contents C

/-- A tree of black height `n` fits into the hole, a red one if the node above is black. -/
def Fits : List (Frame α) → Nat → Prop
  | [], _ => True
  | f :: C, n => f.sibling.Balanced n ∧ (f.red = true → f.sibling.isRed = false ∧ redAbove C = false) ∧
    Fits C (n + weight f.red)

variable {C D : List (Frame α)} {t : RBTree α}

@[simp] theorem plug_nil : plug [] t = t := rfl

theorem plug_append : plug (C ++ D) t = plug D (plug C t) := by
  induction C generalizing t with
  | nil => rfl
  | cons f C ih => exact ih

theorem toList_plug : (plug C t).toList = before C ++ t.toList ++ after C := by
  induction C generalizing t with
  | nil => simp [plug, before, after]
  | cons f C ih =>
    obtain ⟨s, red, a, u⟩ := f
    rw [plug, ih]
    cases s <;> simp [Frame.fill, branch, toList, before, after]

theorem contents_perm : (before C ++ after C).Perm (contents C) := by
  induction C with
  | nil => exact .refl _
  | cons f C ih =>
    obtain ⟨s, red, a, u⟩ := f
    cases s with
    | left =>
      change (before C ++ (a :: u.toList ++ after C)).Perm _
      exact (List.perm_append_comm_assoc _ _ _).trans (ih.append_left _)
    | right =>
      change (before C ++ (u.toList ++ [a]) ++ after C).Perm _
      have h₁ : (u.toList ++ [a]).Perm (a :: u.toList) := List.perm_append_comm
      rw [List.append_assoc]
      exact ((List.perm_append_comm_assoc _ _ _).trans (ih.append_left _)).trans (h₁.append_right _)

theorem toList_plug_perm : (plug C t).toList.Perm (t.toList ++ contents C) := by
  rw [toList_plug, List.append_assoc]
  exact (List.perm_append_comm_assoc _ _ _).trans (contents_perm.append_left _)

theorem before_append : before (C ++ D) = before D ++ before C := by
  induction C with
  | nil => simp [before]
  | cons f C ih => obtain ⟨s, red, a, u⟩ := f; cases s <;> simp [before, ih]

theorem after_append : after (C ++ D) = after C ++ after D := by
  induction C with
  | nil => rfl
  | cons f C ih => obtain ⟨s, red, a, u⟩ := f; cases s <;> simp [after, ih]

theorem length_le_contents : C.length ≤ (contents C).length := by
  induction C with
  | nil => exact Nat.le_refl 0
  | cons f C ih => simp only [contents, List.length_cons, List.length_append]; omega

/-- Every node of a tree is the root of the part in some hole. -/
theorem exists_plug {a : α} (h : a ∈ t.toList) : ∃ C red l r, t = plug C (.node red l a r) := by
  induction t with
  | nil => cases h
  | node red l b r ihl ihr =>
    rcases List.mem_append.mp h with h | h
    · obtain ⟨C, red', l', r', rfl⟩ := ihl h
      exact ⟨C ++ [⟨.left, red, b, r⟩], red', l', r', by rw [plug_append]; rfl⟩
    · rcases List.mem_cons.mp h with rfl | h
      · exact ⟨[], red, l, r, rfl⟩
      · obtain ⟨C, red', l', r', rfl⟩ := ihr h
        exact ⟨C ++ [⟨.right, red, b, l⟩], red', l', r', by rw [plug_append]; rfl⟩

theorem exists_root_plug (h : t ≠ nil) : ∃ a, (plug C t).root = some a := by
  induction C generalizing t with
  | nil =>
    cases t with
    | nil => exact absurd rfl h
    | node _ _ a _ => exact ⟨a, rfl⟩
  | cons f C ih => exact ih (by obtain ⟨s, _, _, _⟩ := f; cases s <;> exact fun h => by cases h)

/-- A tree is red-black when its part in the hole and the context around it are. -/
theorem isRedBlack_plug : (plug C t).IsRedBlack ↔
    ∃ n, t.Balanced n ∧ Fits C n ∧ (t.isRed = true → redAbove C = false) := by
  induction C generalizing t with
  | nil =>
    simp only [plug, IsRedBlack, Fits, redAbove, true_and, Bool.true_eq_false, imp_false, Bool.not_eq_true]
    exact ⟨fun ⟨h, n, hn⟩ => ⟨n, hn, h⟩, fun ⟨n, hn, h⟩ => ⟨h, n, hn⟩⟩
  | cons f C ih =>
    rw [plug, ih]
    simp only [Frame.fill, balanced_branch, isRed_branch, Fits, redAbove]
    constructor
    · rintro ⟨_, ⟨hred, k, rfl, ht, hs⟩, hC, hr⟩
      refine ⟨k, ht, ⟨hs, fun hf => ⟨(hred hf).2, hr hf⟩, hC⟩, fun hx => ?_⟩
      by_contra hf
      rw [Bool.not_eq_false] at hf
      rw [(hred hf).1] at hx; cases hx
    · rintro ⟨k, ht, ⟨hs, hred, hC⟩, hx⟩
      refine ⟨_, ⟨fun hf => ⟨?_, (hred hf).1⟩, k, rfl, ht, hs⟩, hC, fun hf => (hred hf).2⟩
      by_contra hr
      rw [Bool.not_eq_false] at hr
      rw [hx hr] at hf; cases hf

end RedBlack
