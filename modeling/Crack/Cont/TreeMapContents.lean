import Crack.Cont.TreeMapConstraints
import Crack.Lib.KeyedList

/-!
# TreeMap refines a finite map

What a program reads from a `TreeMap` is a finite map after every sequence of
operations. The counter is kept apart from the nodes: it also counts a store to a
key that the map has.
-/
namespace Crack

open KeyedList (Distinct Holds put)
open RedBlack (RBTree)

namespace TreeMap

variable {K V : Type} [BEq K]

def specUpdate (M : K → Option V) : Update K V → (K → Option V) × Except Exc Unit
  | .store key val => (put M key val, .ok ())
  | .delete key =>
    match M key with
    | some _ => (KeyedList.remove M key, .ok ())
    | none => (M, .error (.keyError "node not found in RBTree.delete()"))
  | .clear => (fun _ => none, .ok ())

def specRun (M : K → Option V) : List (Update K V) → (K → Option V) × List (Except Exc Unit)
  | [] => (M, [])
  | u :: us => ((specRun (specUpdate M u).1 us).1, (specUpdate M u).2 :: (specRun (specUpdate M u).1 us).2)

variable {cmp : K → K → Int} {m : TreeMap K V} {T : RBTree Nat} {L L' : List (K × V)} {M : K → Option V} {key : K}
  {val : V}

variable [Std.LawfulBEqCmp (order cmp)]

variable (cmp) in
theorem beq_of_order {a b : K} (h : order cmp a b = .eq) : (a == b) = true := Std.LawfulBEqCmp.compare_eq_iff_beq.mp h

theorem order_of_beq {a b : K} (h : (a == b) = true) : order cmp a b = .eq := Std.LawfulBEqCmp.compare_eq_iff_beq.mpr h

theorem holds_none (h : Holds Prod.fst Prod.snd L M) (hall : ∀ e ∈ L, order cmp e.1 key ≠ .eq) : M key = none :=
  (h.none_iff key).mpr (fun e he => by
    rw [← Bool.not_eq_true]
    exact fun hk => hall e he (order_of_beq hk))

theorem holds_some (h : Holds Prod.fst Prod.snd L M) {e : K × V} (he : e ∈ L) (hk : order cmp e.1 key = .eq) :
    M key = some e.2 :=
  h.eq_of_mem he (beq_of_order cmp hk)

variable [Std.TransCmp (order cmp)]

variable (cmp) in
include cmp in
/-- A total order makes its equality an equivalence. -/
theorem equivBEq : EquivBEq K where
  rfl := beq_of_order cmp Std.ReflCmp.compare_self
  symm h := beq_of_order cmp (Std.OrientedCmp.eq_symm (order_of_beq h))
  trans h h' := beq_of_order cmp (Std.TransCmp.eq_trans (order_of_beq h) (order_of_beq h'))

theorem Sorted.distinct (h : Sorted cmp L) : Distinct Prod.fst L := by
  refine h.imp (fun {x y} hxy => ⟨?_, ?_⟩)
  · rw [← Bool.not_eq_true]
    intro heq
    rw [order_of_beq heq] at hxy; cases hxy
  · rw [← Bool.not_eq_true]
    intro heq
    rw [Std.OrientedCmp.eq_symm (order_of_beq heq)] at hxy; cases hxy

theorem Stored.holds (h : Stored cmp key val L L') (hs : Sorted cmp L) (hM : Holds Prod.fst Prod.snd L M) :
    Holds Prod.fst Prod.snd L' (put M key val) := by
  have := equivBEq cmp
  cases h with
  | @replace X Y e he =>
    have hrem := hM.remove hs.distinct List.perm_middle (beq_of_order cmp he)
    have hd := (List.pairwise_cons.mp (hs.distinct.perm List.perm_middle)).1
    have hput := hrem.cons (x := (e.1, val)) (fun y hy => (hd y hy).2)
    rw [KeyedList.put_remove M val (beq_of_order cmp he)] at hput
    exact hput.perm List.perm_middle.symm
  | @insert X Y hX hY =>
    refine (hM.cons (x := (key, val)) (fun y hy => ?_)).perm List.perm_middle.symm
    rw [← Bool.not_eq_true]
    intro hk
    rcases List.mem_append.mp hy with hy | hy
    · have := hX y hy
      rw [order_of_beq hk] at this; cases this
    · have := hY y hy
      rw [Std.OrientedCmp.eq_symm (order_of_beq hk)] at this; cases this

/-- What `get`, `[]` and `hasKey` yield is the finite map `M`. -/
structure Behaves (cmp : K → K → Int) (m : TreeMap K V) (M : K → Option V) : Prop where
  get : ∀ k, m.get cmp k = .ok (M k)
  getDefault : ∀ k d, m.getDefault cmp k d = .ok ((M k).getD d)
  index : ∀ k, m.index cmp k = .ok (match M k with
    | some v => .ok v
    | none => .error (.keyError "Node not found in oper []"))
  hasKey : ∀ k, m.hasKey cmp k = .ok (M k).isSome

theorem Tidy.behaves (h : Tidy cmp m T L) (hM : Holds Prod.fst Prod.snd L M) : Behaves cmp m M := by
  have hfind : ∀ k, (∃ n v, m.find cmp k = .ok (some n) ∧ m.val n = some v ∧ M k = some v) ∨
      m.find cmp k = .ok none ∧ M k = none := by
    intro k
    rcases h.find k with ⟨n, e, hf, _, he, _, hv, ho⟩ | ⟨hf, hall⟩
    · exact .inl ⟨n, e.2, hf, hv, holds_some hM he ho⟩
    · exact .inr ⟨hf, holds_none hM hall⟩
  refine ⟨fun k => ?_, fun k d => ?_, fun k => ?_, fun k => ?_⟩
  all_goals rcases hfind k with ⟨n, v, hf, hv, hm⟩ | ⟨hf, hm⟩
  · simp only [TreeMap.get, hf, hv, hm, deref, bind, Except.bind, pure, Except.pure]
  · simp only [TreeMap.get, hf, hm, bind, Except.bind, pure, Except.pure]
  · simp only [TreeMap.getDefault, hf, hv, hm, deref, bind, Except.bind, Option.getD_some]
  · simp only [TreeMap.getDefault, hf, hm, bind, Except.bind, pure, Except.pure, Option.getD_none]
  · simp only [TreeMap.index, hf, hv, hm, deref, bind, Except.bind, pure, Except.pure]
  · simp only [TreeMap.index, hf, hm, bind, Except.bind, pure, Except.pure]
  · simp only [TreeMap.hasKey, hf, hm, bind, Except.bind, pure, Except.pure, Option.isSome_some]
  · simp only [TreeMap.hasKey, hf, hm, bind, Except.bind, pure, Except.pure, Option.isSome_none]

/-- The operation does not store to a key that the map has, nor one key more than `uint` counts. -/
def StepOk (cmp : K → K → Int) (m : TreeMap K V) : Update K V → Prop
  | .store key _ => m.hasKey cmp key = .ok false ∧ m.count + 1 < 2 ^ 32
  | _ => True

/-- Every update of the run is so at the state where it is made. -/
def StepsOk (cmp : K → K → Int) : TreeMap K V → List (Update K V) → Prop
  | _, [] => True
  | m, u :: us => StepOk cmp m u ∧ ∀ m' r, update cmp m u = .ok (m', r) → StepsOk cmp m' us

/-- The counter counts the entries. -/
def Counted (m : TreeMap K V) (L : List (K × V)) : Prop := m.count = L.length ∧ m.count < 2 ^ 32

/-- One update does to the map what it does to the finite map, and to the counter
what it does to the number of entries if it is no store to a key that is there. -/
theorem Tidy.update_refines (h : Tidy cmp m T L) (hM : Holds Prod.fst Prod.snd L M) (u : Update K V) :
    ∃ m' T' L', TreeMap.update cmp m u = .ok (m', (specUpdate M u).2) ∧ Tidy cmp m' T' L' ∧
      Holds Prod.fst Prod.snd L' (specUpdate M u).1 ∧
      (Counted m L → StepOk cmp m u → Counted m' L') := by
  cases u with
  | store key val =>
    obtain ⟨m', T', L', he, h', hst, hc⟩ := h.store key val
    refine ⟨m', T', L', by simp only [TreeMap.update, he, bind, Except.bind]; rfl, h', hst.holds h.sorted hM,
      fun hcount hok => ?_⟩
    cases hst with
    | @replace X Y e he =>
      have := (h.behaves hM).hasKey key
      rw [hok.1, holds_some hM (e := e) (by simp) he] at this
      cases this
    | @insert X Y hX hY =>
      have hlt := hok.2
      have hcount := hcount.1
      rw [List.length_append] at hcount
      rw [Counted, hc, uint, Nat.mod_eq_of_lt hlt, List.length_append, List.length_cons]
      omega
  | delete key =>
    have := equivBEq cmp
    rcases h.delete key with ⟨X, e, Y, m', T', rfl, ho, he, h', hc⟩ | ⟨hall, he⟩
    · have hMk := holds_some hM (e := e) (by simp) ho
      refine ⟨m', T', X ++ Y, ?_, h', ?_, fun hcount _ => ?_⟩
      · rw [specUpdate, hMk]; exact he
      · rw [specUpdate, hMk]
        exact hM.remove h.sorted.distinct List.perm_middle (beq_of_order cmp ho)
      · obtain ⟨hcount, hlt⟩ := hcount
        rw [List.length_append, List.length_cons] at hcount
        rw [Counted, hc, uint, List.length_append]
        omega
    · refine ⟨m, T, L, ?_, h, ?_, fun hcount _ => hcount⟩
      · rw [specUpdate, holds_none hM hall]; exact he
      · rw [specUpdate, holds_none hM hall]; exact hM
  | clear =>
    obtain ⟨m', he, h', hc⟩ := h.clear
    refine ⟨m', .nil, [], by simp only [TreeMap.update, he, bind, Except.bind]; rfl, h', KeyedList.holds_nil,
      fun hcount _ => ?_⟩
    rcases hc with hc | ⟨rfl, hc⟩
    · exact ⟨hc, by omega⟩
    · exact ⟨hc.trans hcount.1, by rw [hc]; exact hcount.2⟩

theorem Tidy.run_map (us : List (Update K V)) (h : Tidy cmp m T L) (hM : Holds Prod.fst Prod.snd L M) :
    ∃ m' T' L', TreeMap.run cmp m us = .ok (m', (specRun M us).2) ∧ Tidy cmp m' T' L' ∧
      Holds Prod.fst Prod.snd L' (specRun M us).1 ∧ (Counted m L → StepsOk cmp m us → Counted m' L') := by
  induction us generalizing m T L M with
  | nil => exact ⟨m, T, L, rfl, h, hM, fun hc _ => hc⟩
  | cons u us ih =>
    obtain ⟨m₁, T₁, L₁, he₁, h₁, hM₁, hc₁⟩ := h.update_refines hM u
    obtain ⟨m₂, T₂, L₂, he₂, h₂, hM₂, hc₂⟩ := ih h₁ hM₁
    refine ⟨m₂, T₂, L₂, ?_, h₂, hM₂, fun hc hok => hc₂ (hc₁ hc hok.1) (hok.2 m₁ _ he₁)⟩
    rw [TreeMap.run, he₁]
    simp only [bind, Except.bind, he₂]
    rfl

/-- A run behaves like a run on a finite map, reply by reply. As long as it does
not store to a key that is there, the counter is the number of the keys. -/
theorem run_finite_map (cmp : K → K → Int) [Std.TransCmp (order cmp)] [Std.LawfulBEqCmp (order cmp)]
    (us : List (Update K V)) :
    ∃ m L, run cmp init us = .ok (m, (specRun (fun _ => none) us).2) ∧
      Behaves cmp m (specRun (fun _ => none) us).1 ∧ Distinct Prod.fst L ∧
      Holds Prod.fst Prod.snd L (specRun (fun _ => none) us).1 ∧ (StepsOk cmp init us → m.count = L.length) := by
  obtain ⟨m, T, L, he, h, hM, hc⟩ := (init_tidy : Tidy cmp init .nil []).run_map us KeyedList.holds_nil
  exact ⟨m, L, he, h.behaves hM, h.sorted.distinct, hM, fun hok => (hc ⟨rfl, Nat.two_pow_pos 32⟩ hok).1⟩

theorem few_finite_map :
    ∃ (m : TreeMap Nat Nat) (L : List (Nat × Nat)),
      run heavycmp init [.store 1 10, .store 2 20, .delete 1, .delete 5] =
        .ok (m, [.ok (), .ok (), .ok (), .error (.keyError "node not found in RBTree.delete()")]) ∧
      m.get heavycmp 2 = .ok (some 20) ∧ m.get heavycmp 1 = .ok none ∧ m.count = L.length := by
  obtain ⟨m, L, hrun, hb, _, _, hc⟩ := run_finite_map heavycmp [.store 1 10, .store 2 20, .delete 1, .delete 5]
  refine ⟨m, L, hrun, hb.get 2, hb.get 1, hc ⟨⟨rfl, by decide⟩, fun m r he => ?_⟩⟩
  cases he
  refine ⟨⟨rfl, by decide⟩, fun m r he => ?_⟩
  cases he
  exact ⟨trivial, fun _ _ _ => ⟨trivial, fun _ _ _ => trivial⟩⟩

/-- Storing to the same key twice counts two keys. -/
theorem overwrite_counts_twice :
    ∃ m : TreeMap Nat Nat, run heavycmp init [.store 1 10, .store 1 20] = .ok (m, [.ok (), .ok ()]) ∧ m.count = 2 ∧
      Holds Prod.fst Prod.snd [(1, 20)] (specRun (fun _ => none) [.store 1 10, .store 1 20] : (Nat → Option Nat) × _).1 := by
  refine ⟨_, rfl, rfl, fun k v => ?_⟩
  change (if 1 == k then some 20 else if 1 == k then some 10 else none) = some v ↔ _
  by_cases hk : 1 = k <;> simp [hk]

end TreeMap

end Crack
