import Crack.Cont.TreeMapConstraints

/-!
# How a TreeMap checks its constraints

`checkConstraints` walks the nodes that the root reaches through the child links,
whatever built them. It adds to a report and returns whether it found nothing.
-/
namespace Crack

open RedBlack (Side RBTree)
open RedBlack.RBTree (weight)

namespace TreeMap

/-- What the checks do with values: `>=`, `<=` and the text in a report. -/
structure ValueOps (V : Type) where
  ge : V → V → Bool
  le : V → V → Bool
  text : V → String

variable {K V : Type} {l r : RBTree Nat} {red : Bool}

section

variable (ops : ValueOps V) (m : TreeMap K V)

/-- What is found at a child, and then in its subtree; the result for the subtree is dropped. -/
def checkChild (side : Side) (wrong : V → V → Bool) (what sign : String)
    (check : Nat → String → Except Fault (String × Bool)) (this : Nat) (val : V) (report : String) (result : Bool) :
    Except Fault (String × Bool) := do
  match m.child (side, this) with
  | some child =>
    let childVal ← deref (m.val child)
    let (report, result) :=
      if wrong childVal val then (report ++ what ++ ops.text childVal ++ sign ++ ops.text val ++ "\n", false)
      else (report, result)
    let (report, _) ← check child report
    return (report, result)
  | none => return (report, result)

def checkRedChildrenBlack : Nat → Nat → String → Except Fault (String × Bool)
  | 0, _, _ => .error .forever
  | fuel + 1, this, report => do
    let val ← deref (m.val this)
    if m.red this && (m.isRed (m.left this) || m.isRed (m.right this)) then
      return (report ++ "RBTree.checkConstraints: red node " ++ ops.text val ++ " has red child.\n", false)
    else
      let (report, result) ←
        m.checkChild ops .left ops.ge "left value " " >= " (checkRedChildrenBlack fuel) this val report true
      m.checkChild ops .right ops.le "right value " " <= " (checkRedChildrenBlack fuel) this val report result

/-- The count of a child, 0 for null. -/
def checkChildCount (check : Nat → String → Except Fault (String × Int)) (child : Option Nat) (report : String) :
    Except Fault (String × Int) :=
  match child with
  | some child => check child report
  | none => .ok (report, 0)

/-- -1 if something is wrong. -/
def checkBlackCounts : Nat → Nat → String → Except Fault (String × Int)
  | 0, _, _ => .error .forever
  | fuel + 1, this, report => do
    let (report, leftCount) ← checkChildCount (checkBlackCounts fuel) (m.left this) report
    let (report, rightCount) ← checkChildCount (checkBlackCounts fuel) (m.right this) report
    if leftCount = -1 ∨ rightCount = -1 then return (report, -1)
    else if leftCount ≠ rightCount then
      let val ← deref (m.val this)
      return (report ++ "RBTree.checkConstraints: imbalanced black count at node     " ++ ops.text val ++ "\n", -1)
    else if m.red this then return (report, leftCount)
    else return (report, int (leftCount + 1))

def checkConstraints (fuel : Nat) (report : String) : Except Fault (String × Bool) := do
  match m.root with
  | none => return (report, true)
  | some root =>
    let (report, result) :=
      if m.red root then (report ++ "RBTree.checkConstraints: The root is not black\n", false) else (report, true)
    let (report, redChildrenBlack) ← m.checkRedChildrenBlack ops fuel root report
    let result := result && redChildrenBlack
    let (report, count) ← m.checkBlackCounts ops fuel root report
    return (report, result && count != -1)

end

/-- The child links and the colours below a node form the tree. -/
def Spans (m : TreeMap K V) : RBTree Nat → Prop
  | .nil => True
  | .node red l n r => m.red n = red ∧ m.left n = l.root ∧ m.right n = r.root ∧ Spans m l ∧ Spans m r

/-- A finite tree of nodes with the entries `L`, whatever its parent links are. -/
structure Built (m : TreeMap K V) (t : RBTree Nat) (L : List (K × V)) : Prop where
  root : m.root = t.root
  spans : m.Spans t
  shows : Shows m t.toList L

/-- The constraints on the colours of the nodes and on the order of the keys. -/
structure Valid (cmp : K → K → Int) (t : RBTree Nat) (L : List (K × V)) : Prop where
  rootBlack : t.isRed = false
  redChildrenBlack : t.RedChildrenBlack
  blackCounts : ∃ b, ∀ k ∈ t.blackCounts, k = b
  sorted : Sorted cmp L

/-- The values of the children of the root are on the right sides of its own. -/
def RootValuesOrdered (ops : ValueOps V) (m : TreeMap K V) : Prop :=
  ∀ root v, m.root = some root → m.val root = some v →
    (∀ left w, m.left root = some left → m.val left = some w → ops.ge w v = false) ∧
      ∀ right w, m.right root = some right → m.val right = some w → ops.le w v = false

variable {cmp : K → K → Int} {ops : ValueOps V} {m : TreeMap K V} {t : RBTree Nat} {L : List (K × V)} {n : Nat}

/-- Each node of the tree has a value. -/
def Filled (m : TreeMap K V) (t : RBTree Nat) : Prop := ∀ n ∈ t.toList, ∃ v, m.val n = some v

theorem Shows.filled (h : Shows m t.toList L) : Filled m t := by
  intro n hn
  obtain ⟨A, B, hT⟩ := List.append_of_mem hn
  rw [hT] at h
  obtain ⟨-, L', -, -, hB⟩ := shows_append.mp h
  obtain ⟨e, -, -, -, hv, -⟩ := shows_cons.mp hB
  exact ⟨e.2, hv⟩

theorem Filled.left (h : Filled m (.node red l n r)) : Filled m l :=
  fun a ha => h a (by simp [RBTree.toList, ha])

theorem Filled.right (h : Filled m (.node red l n r)) : Filled m r :=
  fun a ha => h a (by simp [RBTree.toList, ha])

theorem Filled.root (h : Filled m t) (hr : t.root = some n) : ∃ v, m.val n = some v := h n (RBTree.mem_of_root hr)

/-- The value of a child is not on the wrong side of that of the node. -/
def childPasses (wrong : V → V → Bool) (m : TreeMap K V) (side : Side) (this : Nat) : Bool :=
  (m.child (side, this)).all (fun child => (m.val child).all (fun w => (m.val this).all (fun v => !wrong w v)))

/-- What one node is checked for, with its own value and those of its children. -/
def passes (ops : ValueOps V) (m : TreeMap K V) (this : Nat) : Bool :=
  !(m.red this && (m.isRed (m.left this) || m.isRed (m.right this))) &&
    (childPasses ops.ge m .left this && childPasses ops.le m .right this)

variable (ops) in
theorem checkChild_ok (side : Side) (wrong : V → V → Bool) (what sign : String)
    {check : Nat → String → Except Fault (String × Bool)} {v : V} (hv : m.val n = some v)
    (hvals : ∀ child, m.child (side, n) = some child → ∃ w, m.val child = some w)
    (hcheck : ∀ child report, m.child (side, n) = some child → ∃ report' b, check child report = .ok (report', b))
    (report : String) (result : Bool) :
    ∃ report', m.checkChild ops side wrong what sign check n v report result =
      .ok (report', result && childPasses wrong m side n) := by
  rw [checkChild, childPasses]
  cases hc : m.child (side, n) with
  | none => exact ⟨report, by simp [pure, Except.pure]⟩
  | some child =>
    obtain ⟨w, hw⟩ := hvals child hc
    simp only [hw, hv, deref, bind, Except.bind, Option.all_some]
    by_cases hwrong : wrong w v = true
    · obtain ⟨report', b, he⟩ := hcheck child (report ++ what ++ ops.text w ++ sign ++ ops.text v ++ "\n") hc
      refine ⟨report', ?_⟩
      simp only [hwrong, if_true, he, Bool.not_true, Bool.and_false]
      rfl
    · obtain ⟨report', b, he⟩ := hcheck child report hc
      refine ⟨report', ?_⟩
      rw [Bool.not_eq_true] at hwrong
      simp only [hwrong, Bool.false_eq_true, if_false, he, Bool.not_false, Bool.and_true]
      rfl

variable (ops) in
/-- The first check tests one node, and what it finds below is lost. -/
theorem checkRedChildrenBlack_ok (hs : m.Spans t) (hf : Filled m t) (hr : t.root = some n) (fuel : Nat)
    (hfuel : t.toList.length ≤ fuel) (report : String) :
    ∃ report', m.checkRedChildrenBlack ops fuel n report = .ok (report', m.passes ops n) := by
  induction t generalizing n fuel report with
  | nil => cases hr
  | node red l a r ihl ihr =>
    cases hr
    obtain ⟨-, hl, hr, hsl, hsr⟩ := hs
    simp only [RBTree.toList, List.length_append, List.length_cons] at hfuel
    obtain ⟨fuel, rfl⟩ := Nat.exists_eq_add_one.mpr (show 0 < fuel by omega)
    obtain ⟨v, hv⟩ := hf.root rfl
    rw [checkRedChildrenBlack, passes]
    simp only [hv, deref, bind, Except.bind]
    by_cases hred : (m.red a && (m.isRed (m.left a) || m.isRed (m.right a))) = true
    · exact ⟨_, by rw [if_pos hred, hred]; rfl⟩
    · obtain ⟨report₁, he₁⟩ := checkChild_ok ops .left ops.ge "left value " " >= " hv
        (fun left hleft => hf.left.root (hl.symm.trans hleft)) (fun left report hleft => by
          obtain ⟨report', he⟩ := ihl hsl hf.left (hl.symm.trans hleft) fuel (by omega) report
          exact ⟨report', _, he⟩) report true
      obtain ⟨report₂, he₂⟩ := checkChild_ok ops .right ops.le "right value " " <= " hv
        (fun right hright => hf.right.root (hr.symm.trans hright)) (fun right report hright => by
          obtain ⟨report', he⟩ := ihr hsr hf.right (hr.symm.trans hright) fuel (by omega) report
          exact ⟨report', _, he⟩) report₁ (true && childPasses ops.ge m .left a)
      rw [if_neg hred, he₁]
      rw [Bool.not_eq_true] at hred
      refine ⟨report₂, ?_⟩
      dsimp only
      rw [he₂, hred]
      rfl

/-- The count is that of every path down, or -1 if there is no such number or none below `2 ^ 32 - 1`. -/
def BlackCounted (t : RBTree Nat) (c : Int) : Prop :=
  (∃ b, (∀ k ∈ t.blackCounts, k = b) ∧ b < 2 ^ 32 - 1 ∧ c = int b) ∨
    c = -1 ∧ ∀ b, (∀ k ∈ t.blackCounts, k = b) → 2 ^ 32 - 1 ≤ b

theorem int_inj {a b : Nat} (ha : a < 2 ^ 32) (hb : b < 2 ^ 32) (h : int a = int b) : a = b := by
  rw [int, int, Int.bmod_def, Int.bmod_def] at h
  split at h <;> split at h <;> omega

theorem int_ne {a : Nat} (ha : a < 2 ^ 32 - 1) : int a ≠ -1 := by
  rw [int, Int.bmod_def]
  split <;> omega

theorem int_succ (a : Nat) : int (int a + 1) = int (a + 1 : Nat) := by
  rw [int, int, Int.bmod_add_bmod]
  rfl

/-- The number of black nodes that looks like a failure. -/
theorem int_last {a : Nat} (ha : a + 1 = 2 ^ 32 - 1) : int (a + 1 : Nat) = -1 := by
  rw [ha]
  decide

theorem counts_nil : ∀ k ∈ (.nil : RBTree Nat).blackCounts, k = 0 := by
  intro k hk
  exact List.mem_singleton.mp hk

theorem blackCounted_nil : BlackCounted .nil 0 := .inl ⟨0, counts_nil, by omega, rfl⟩

/-- What a node makes of the counts of its children. -/
theorem BlackCounted.node (red : Bool) (n : Nat) {c c' : Int} (hl : BlackCounted l c) (hr : BlackCounted r c') :
    BlackCounted (.node red l n r)
      (if c = -1 ∨ c' = -1 then -1 else if c ≠ c' then -1 else if red then c else int (c + 1)) := by
  simp only [BlackCounted, RedBlack.RBTree.forall_blackCounts]
  rcases hl with ⟨b, hb, hlt, hcb⟩ | ⟨hcb, hb⟩
  · rw [hcb]
    rcases hr with ⟨b', hb', hlt', hcb'⟩ | ⟨hcb', hb'⟩
    · rw [hcb']
      have hne := int_ne hlt
      have hne' := int_ne hlt'
      rw [if_neg (not_or.mpr ⟨hne, hne'⟩)]
      by_cases hcc : b = b'
      · rw [← hcc] at hb' ⊢
        rw [if_neg (by simp)]
        cases red with
        | true =>
          rw [if_pos rfl]
          exact .inl ⟨b, ⟨b, rfl, hb, hb'⟩, hlt, by rfl⟩
        | false =>
          rw [if_neg Bool.false_ne_true, int_succ]
          by_cases hsmall : b + 1 < 2 ^ 32 - 1
          · exact .inl ⟨b + 1, ⟨b, rfl, hb, hb'⟩, hsmall, by rfl⟩
          · refine .inr ⟨?_, ?_⟩
            · exact int_last (by omega)
            · rintro _ ⟨b₁, rfl, hb₁, -⟩
              obtain ⟨k, hk⟩ := List.exists_mem_of_ne_nil _ l.blackCounts_ne_nil
              have h₁ := hb k hk
              have h₂ := hb₁ k hk
              rw [RedBlack.RBTree.weight_false]
              omega
      · rw [if_pos (fun he => hcc (int_inj (by omega) (by omega) he))]
        refine .inr ⟨rfl, ?_⟩
        rintro _ ⟨b₁, rfl, hb₁, hb₁'⟩
        obtain ⟨k, hk⟩ := List.exists_mem_of_ne_nil _ l.blackCounts_ne_nil
        obtain ⟨k', hk'⟩ := List.exists_mem_of_ne_nil _ r.blackCounts_ne_nil
        exact absurd ((hb k hk).symm.trans ((hb₁ k hk).trans ((hb₁' k' hk').symm.trans (hb' k' hk')))) hcc
    · rw [hcb', if_pos (.inr rfl)]
      refine .inr ⟨rfl, ?_⟩
      rintro _ ⟨b₁, rfl, -, hb₁⟩
      exact Nat.le_add_right_of_le (hb' b₁ hb₁)
  · rw [hcb, if_pos (.inl rfl)]
    refine .inr ⟨rfl, ?_⟩
    rintro _ ⟨b₁, rfl, hb₁, -⟩
    exact Nat.le_add_right_of_le (hb b₁ hb₁)

theorem checkChildCount_ok {check : Nat → String → Except Fault (String × Int)}
    (hcheck : ∀ child report, t.root = some child →
      ∃ report' c, check child report = .ok (report', c) ∧ BlackCounted t c)
    (report : String) : ∃ report' c, checkChildCount check t.root report = .ok (report', c) ∧ BlackCounted t c := by
  cases hr : t.root with
  | none =>
    obtain rfl := RBTree.root_eq_none.mp hr
    exact ⟨report, 0, rfl, blackCounted_nil⟩
  | some child => exact hcheck child report hr

variable (ops) in
/-- The second check counts as it should. -/
theorem checkBlackCounts_ok (hs : m.Spans t) (hf : Filled m t) (hr : t.root = some n) (fuel : Nat)
    (hfuel : t.toList.length ≤ fuel) (report : String) :
    ∃ report' c, m.checkBlackCounts ops fuel n report = .ok (report', c) ∧ BlackCounted t c := by
  induction t generalizing n fuel report with
  | nil => cases hr
  | node red l a r ihl ihr =>
    cases hr
    obtain ⟨hred, hl, hr, hsl, hsr⟩ := hs
    simp only [RBTree.toList, List.length_append, List.length_cons] at hfuel
    obtain ⟨fuel, rfl⟩ := Nat.exists_eq_add_one.mpr (show 0 < fuel by omega)
    obtain ⟨v, hv⟩ := hf.root rfl
    obtain ⟨report₁, c, he₁, hc⟩ := checkChildCount_ok (fun child report hroot =>
      ihl hsl hf.left hroot fuel (by omega) report) report
    obtain ⟨report₂, c', he₂, hc'⟩ := checkChildCount_ok (fun child report hroot =>
      ihr hsr hf.right hroot fuel (by omega) report) report₁
    have hnode := hc.node red a hc'
    rw [checkBlackCounts, hl, hr, he₁]
    simp only [bind, Except.bind, he₂, hv, deref, hred]
    by_cases hfail : c = -1 ∨ c' = -1
    · rw [if_pos hfail] at hnode ⊢
      exact ⟨report₂, -1, rfl, hnode⟩
    · rw [if_neg hfail] at hnode ⊢
      by_cases hne : c ≠ c'
      · rw [if_pos hne] at hnode ⊢
        exact ⟨_, -1, rfl, hnode⟩
      · rw [if_neg hne] at hnode ⊢
        cases red with
        | true => exact ⟨report₂, c, rfl, hnode⟩
        | false => exact ⟨report₂, int (c + 1), rfl, hnode⟩

theorem childPasses_iff {wrong : V → V → Bool} {side : Side} {v : V} (hv : m.val n = some v) :
    childPasses wrong m side n = true ↔
      ∀ child w, m.child (side, n) = some child → m.val child = some w → wrong w v = false := by
  rw [childPasses, Option.all_eq_true]
  simp only [Option.all_eq_true, hv, Option.some.injEq, forall_eq', Bool.not_eq_true']
  exact ⟨fun h child w hc hw => h child hc w hw, fun h child hc w hw => h child w hc hw⟩

/-- What `checkConstraints` finds out. -/
theorem Built.accepts_iff (h : Built m t L) (fuel : Nat) (hfuel : t.toList.length ≤ fuel) (report : String) :
    (∃ report', m.checkConstraints ops fuel report = .ok (report', true)) ↔
      t.isRed = false ∧ (∃ b, (∀ k ∈ t.blackCounts, k = b) ∧ b < 2 ^ 32 - 1) ∧ RootValuesOrdered ops m := by
  rw [checkConstraints, h.root]
  cases hr : t.root with
  | none =>
    obtain rfl := RBTree.root_eq_none.mp hr
    refine ⟨fun _ => ⟨rfl, ⟨0, counts_nil, by omega⟩, ?_⟩, fun _ => ⟨report, rfl⟩⟩
    intro root v hroot
    rw [h.root] at hroot
    cases hroot
  | some root =>
    have hfilled := h.shows.filled
    obtain ⟨v, hv⟩ := hfilled.root hr
    have hred : m.red root = t.isRed := by
      cases t with
      | nil => cases hr
      | node red l a r => cases hr; exact h.spans.1
    have hvalues : RootValuesOrdered ops m ↔
        childPasses ops.ge m .left root = true ∧ childPasses ops.le m .right root = true := by
      rw [childPasses_iff hv, childPasses_iff hv, RootValuesOrdered, h.root, hr]
      constructor
      · exact fun ho => ho root v rfl hv
      · intro ho root' v' he hv'
        cases he
        rw [hv] at hv'
        cases hv'
        exact ho
    obtain ⟨start, hstart⟩ : ∃ start, (if m.red root = true then
        (report ++ "RBTree.checkConstraints: The root is not black\n", false) else (report, true)) =
          (start, !t.isRed) := by
      rw [hred]
      cases t.isRed <;> exact ⟨_, rfl⟩
    obtain ⟨report₁, he₁⟩ := checkRedChildrenBlack_ok ops h.spans hfilled hr fuel hfuel start
    obtain ⟨report₂, c, he₂, hc⟩ := checkBlackCounts_ok ops h.spans hfilled hr fuel hfuel report₁
    have hcount : c ≠ -1 ↔ ∃ b, (∀ k ∈ t.blackCounts, k = b) ∧ b < 2 ^ 32 - 1 := by
      rcases hc with ⟨b, hb, hlt, hcb⟩ | ⟨hcb, hb⟩
      · rw [hcb]
        exact ⟨fun _ => ⟨b, hb, hlt⟩, fun _ => int_ne hlt⟩
      · rw [hcb]
        exact ⟨fun hne => absurd rfl hne, fun ⟨b, hb', hlt⟩ => absurd hlt (Nat.not_lt_of_le (hb b hb'))⟩
    simp only [hstart, bind, Except.bind, he₁, he₂, pure, Except.pure, Except.ok.injEq, Prod.mk.injEq]
    rw [hvalues, ← hcount, passes, hred]
    cases t.isRed <;> simp [and_comm]

/-- The check says what the constraints are exactly when, in a tree with a black root and equal counts, the
values of the children of the root are in order just if the colours and the keys of all nodes are. -/
theorem checkConstraints_iff (cmp : K → K → Int) (ops : ValueOps V) (m : TreeMap K V) (t : RBTree Nat)
    (L : List (K × V)) (h : Built m t L) (fuel : Nat) (hfuel : t.toList.length ≤ fuel) (report : String) :
    ((∃ report', m.checkConstraints ops fuel report = .ok (report', true)) ↔ Valid cmp t L) ↔
      (t.isRed = false → ∀ b, (∀ k ∈ t.blackCounts, k = b) →
        (b < 2 ^ 32 - 1 ∧ RootValuesOrdered ops m ↔ t.RedChildrenBlack ∧ Sorted cmp L)) := by
  rw [h.accepts_iff fuel hfuel report]
  have hunique : ∀ {b b'}, (∀ k ∈ t.blackCounts, k = b) → (∀ k ∈ t.blackCounts, k = b') → b = b' := by
    intro b b' hb hb'
    obtain ⟨k, hk⟩ := List.exists_mem_of_ne_nil _ t.blackCounts_ne_nil
    exact (hb k hk).symm.trans (hb' k hk)
  constructor
  · intro hall hblack b hb
    constructor
    · rintro ⟨hlt, hvalues⟩
      have hvalid := hall.mp ⟨hblack, ⟨b, hb, hlt⟩, hvalues⟩
      exact ⟨hvalid.redChildrenBlack, hvalid.sorted⟩
    · rintro ⟨hred, hsorted⟩
      obtain ⟨-, ⟨b', hb', hlt⟩, hvalues⟩ := hall.mpr ⟨hblack, hred, ⟨b, hb⟩, hsorted⟩
      exact ⟨hunique hb hb' ▸ hlt, hvalues⟩
  · intro hcond
    constructor
    · rintro ⟨hblack, ⟨b, hb, hlt⟩, hvalues⟩
      obtain ⟨hred, hsorted⟩ := (hcond hblack b hb).mp ⟨hlt, hvalues⟩
      exact ⟨hblack, hred, ⟨b, hb⟩, hsorted⟩
    · rintro ⟨hblack, hred, ⟨b, hb⟩, hsorted⟩
      obtain ⟨hlt, hvalues⟩ := (hcond hblack b hb).mpr ⟨hred, hsorted⟩
      exact ⟨hblack, ⟨b, hb, hlt⟩, hvalues⟩

/-- The operators of `uint`. -/
def uintOps : ValueOps Nat := ⟨fun a b => decide (a ≥ b), fun a b => decide (a ≤ b), toString⟩

/-- A black root with the key 2 and the value 10, and a red left child with the key 1 and the value 20. -/
def fallingValues : TreeMap Nat Nat where
  red n := n = 1
  parent n := if n = 1 then some 0 else none
  child q := if q = (.left, 0) then some 1 else none
  root := some 0
  count := 2
  key n := if n = 0 then some 2 else if n = 1 then some 1 else none
  val n := if n = 0 then some 10 else if n = 1 then some 20 else none
  fresh := 2

theorem fallingValues_built :
    Built fallingValues (.node false (.node true .nil 1 .nil) 0 .nil) [(1, 20), (2, 10)] :=
  ⟨rfl, ⟨rfl, rfl, rfl, ⟨rfl, rfl, rfl, trivial, trivial⟩, trivial⟩, rfl⟩

theorem fallingValues_checked :
    ((∃ report', fallingValues.checkConstraints uintOps 2 "" = .ok (report', true)) ↔
        Valid heavycmp (.node false (.node true .nil 1 .nil) 0 .nil) [(1, 20), (2, 10)]) ↔
      ((RBTree.node false (.node true .nil 1 .nil) 0 .nil).isRed = false →
        ∀ b, (∀ k ∈ (RBTree.node false (.node true .nil 1 .nil) 0 .nil).blackCounts, k = b) →
        (b < 2 ^ 32 - 1 ∧ RootValuesOrdered uintOps fallingValues ↔
          (RBTree.node false (.node true .nil 1 .nil) 0 .nil).RedChildrenBlack ∧
            Sorted heavycmp [(1, 20), (2, 10)])) :=
  checkConstraints_iff heavycmp uintOps fallingValues _ _ fallingValues_built 2 (by decide) ""

/-- A valid tree is rejected for its values. -/
theorem fallingValues_rejected :
    ¬ ∀ (m : TreeMap Nat Nat) (t : RBTree Nat) (L : List (Nat × Nat)), Built m t L →
      ∀ fuel, t.toList.length ≤ fuel → ((∃ report', m.checkConstraints uintOps fuel "" = .ok (report', true)) ↔
        Valid heavycmp t L) := by
  intro hall
  have hvalid : Valid heavycmp (.node false (.node true .nil 1 .nil) 0 .nil) [(1, 20), (2, 10)] := by
    refine ⟨rfl, by simp [RBTree.RedChildrenBlack], ⟨1, by decide⟩, ?_⟩
    exact List.pairwise_pair.mpr (by decide)
  obtain ⟨report', he⟩ := (hall _ _ _ fallingValues_built 2 (by decide)).mpr hvalid
  have hvalues := (fallingValues_built.accepts_iff 2 (by decide) "").mp ⟨report', he⟩ |>.2.2
  exact absurd ((hvalues 0 10 rfl rfl).1 1 20 rfl rfl) (by decide)

end TreeMap

end Crack
