import Crack.Cont.HashMap

/-!
# HashMap refines a finite map

The invariant of a map of default capacity, the finite map it stands for, and
what the operations do to both. The growth policy comes to its end at the bucket
count 2147483659, which the slot index cannot reach and whose double wraps around.
-/
namespace Crack

open Probing (live)
open KeyedList (Distinct Holds put remove)

namespace HashMap

variable {K V : Type} [BEq K]

structure Refines (makeHashVal : K → Nat) (m : HashMap K V) (M : K → Option V) : Prop where
  sound : Sound view m.cap m.size m.items
  distinct : Distinct Item.key (live m.cap m.items)
  count : (live m.cap m.items).length = m.size
  hash : ∀ x ∈ live m.cap m.items, x.hash = makeHashVal x.key
  holds : Holds Item.key Item.val (live m.cap m.items) M
  capacity : 5 ≤ m.cap ∧ m.cap ≤ 1073741829

/-- The last bucket count of the table. -/
def lastBucketCount : Nat := 2147483659

/-- The update does not grow the table to the last bucket count. -/
def GrowthOk (makeHashVal : K → Nat) (m : HashMap K V) : Update K V → Prop
  | .set key _ => get makeHashVal m key = .ok none → exceeded m.size m.cap →
      increaseCap m.cap ≠ .ok lastBucketCount
  | .delete _ => True

section

variable {makeHashVal : K → Nat} {m : HashMap K V} {M : K → Option V}

theorem init_refines : Refines makeHashVal (init : HashMap K V) (fun _ => none) :=
  ⟨Sound.empty (by simp [init]) (by simp [init]), by simp [init, Distinct], by simp [init], by simp [init],
    by simpa [init] using KeyedList.holds_nil, by simp [init]⟩

/-- Iteration from slot `i` on: the next item, or the end. -/
theorem advance_ok (h : Refines makeHashVal m M) (n i : Nat) (hi : i ≤ m.cap) (hn : m.cap < i + n) :
    ∃ j, advance m n i = .ok j ∧ i ≤ j ∧ j ≤ m.cap ∧ (j < m.cap → m.items j ≠ none) ∧
      (List.range' i (m.cap - i)).filterMap m.items = (List.range' j (m.cap - j)).filterMap m.items := by
  induction n generalizing i with
  | zero => omega
  | succ n ih =>
    rw [advance]
    by_cases hlt : i < m.cap
    · rw [if_pos hlt, slotItem_ok h.sound hlt]
      simp only [bind, Except.bind, pure, Except.pure]
      cases hit : m.items i with
      | some x => exact ⟨i, rfl, Nat.le_refl i, hi, fun _ => by simp [hit], rfl⟩
      | none =>
        obtain ⟨j, he, h₁, h₂, h₃, h₄⟩ := ih (i + 1) hlt (by omega)
        refine ⟨j, he, by omega, h₂, h₃, ?_⟩
        have hsplit : m.cap - i = m.cap - (i + 1) + 1 := by omega
        rw [hsplit, List.range'_succ, List.filterMap_cons, hit]
        exact h₄
    · rw [if_neg hlt]
      exact ⟨i, rfl, Nat.le_refl i, hi, fun h => absurd h hlt, rfl⟩

theorem elemsFrom_ok (h : Refines makeHashVal m M) (n i : Nat) (hi : i ≤ m.cap) (hn : m.cap < i + n)
    (hit : i < m.cap → m.items i ≠ none) :
    elemsFrom m n i = .ok ((List.range' i (m.cap - i)).filterMap m.items) := by
  induction n generalizing i with
  | zero => omega
  | succ n ih =>
    rw [elemsFrom]
    by_cases hlt : i < m.cap
    · rw [if_pos hlt, slotItem_ok h.sound hlt]
      obtain ⟨x, hx⟩ := Option.ne_none_iff_exists'.mp (hit hlt)
      obtain ⟨j, he, h₁, h₂, h₃, h₄⟩ := advance_ok h (m.cap + 1) (i + 1) hlt (by omega)
      have hsplit : m.cap - i = m.cap - (i + 1) + 1 := by omega
      rw [hsplit, List.range'_succ, List.filterMap_cons, hx, h₄]
      simp only [he, ih j h₂ (by omega) h₃, bind, Except.bind, pure, Except.pure]
    · rw [if_neg hlt]
      have : m.cap - i = 0 := by omega
      rw [this]
      rfl

/-- Iteration yields the items in slot order. -/
theorem elems_ok (h : Refines makeHashVal m M) : elems m = .ok (live m.cap m.items) := by
  obtain ⟨j, he, _, h₂, h₃, h₄⟩ := advance_ok h (m.cap + 1) 0 (by omega) (by omega)
  rw [elems, he]
  simp only [bind, Except.bind]
  rw [elemsFrom_ok h _ j h₂ (by omega) h₃, ← h₄, live, List.range_eq_range']
  rfl

variable (hhash : ∀ a b : K, (a == b) = true → makeHashVal a = makeHashVal b)

include hhash in
/-- `__findSlot` finds what the finite map has for the key. -/
theorem Refines.findSlot_eq (h : Refines makeHashVal m M) (key : K) :
    ∃ i, findSlot makeHashVal m key = .ok i ∧
      Probing.FirstStop m.cap (stops view m.items key) (makeHashVal key % m.cap) i ∧
      slotItem m.items i = .ok (m.items i) ∧ (m.items i).map Item.val = M key ∧
      (∀ x, m.items i = some x → (x.key == key) = true) := by
  obtain ⟨i, he, hf, hi⟩ := h.sound.findSlot_key h.hash hhash key
  refine ⟨i, he, hf, slotItem_ok h.sound hf.1, ?_, ?_⟩
  · rcases hi with ⟨x, hx, hk⟩ | ⟨hn, hall⟩
    · rw [hx, h.holds.eq_of_mem (Probing.mem_live.mpr ⟨i, hf.1, hx⟩) hk]
      rfl
    · rw [hn, (h.holds.none_iff key).mpr hall]
      rfl
  · intro x hx
    rcases hi with ⟨y, hy, hk⟩ | ⟨hn, _⟩
    · rw [hx] at hy; cases hy; exact hk
    · rw [hx] at hn; cases hn

variable [EquivBEq K]

include hhash in
theorem Refines.set (h : Refines makeHashVal m M) (key : K) (val : V)
    (hg : GrowthOk makeHashVal m (.set key val)) :
    ∃ m', set makeHashVal m key val = .ok (m', .ok val) ∧ Refines makeHashVal m' (put M key val) ∧
      (M key = none → m'.size = m.size + 1 ∧
        if exceeded m.size m.cap then increaseCap m.cap = .ok m'.cap else m'.cap = m.cap) := by
  obtain ⟨i, he, hf, hs, hv, hk⟩ := h.findSlot_eq hhash key
  cases hit : m.items i with
  | some x =>
    have hkey := hk x hit
    rw [hit] at hv
    have hlive := Probing.live_perm m.items hf.1
    have hlive' := Probing.live_update m.items hf.1 (some { x with val })
    rw [hit] at hlive
    have hx : x ∈ live m.cap m.items := Probing.mem_live.mpr ⟨i, hf.1, hit⟩
    have hrest := h.distinct.perm hlive
    have hdist : Distinct Item.key ({ x with val } :: Probing.liveBut m.cap m.items i) := by
      rw [Distinct, Option.toList_some, List.singleton_append, List.pairwise_cons] at hrest
      exact List.pairwise_cons.mpr hrest
    refine ⟨{ m with items := Function.update m.items i (some { x with val }) }, ?_, ?_, ?_⟩
    · simp only [HashMap.set, he, hs, hit, bind, Except.bind, pure, Except.pure]
    · refine ⟨h.sound.replace hf.1 hit rfl, hdist.perm hlive'.symm, ?_, ?_, ?_, h.capacity⟩
      · rw [hlive'.length_eq, ← h.count, hlive.length_eq]
        rfl
      · intro y hy
        rcases List.mem_cons.mp (hlive'.mem_iff.mp hy) with rfl | hy
        · exact h.hash x hx
        · exact h.hash y (hlive.mem_iff.mpr (List.mem_cons_of_mem _ hy))
      · have hrem := h.holds.remove h.distinct hlive hkey
        have hcons := hrem.cons (x := { x with val }) (fun y hy => ((List.pairwise_cons.mp hdist).1 y hy).2)
        rw [KeyedList.put_remove M val hkey] at hcons
        exact hcons.perm hlive'.symm
    · intro hn
      rw [hn] at hv
      cases hv
  | none =>
    rw [hit] at hv
    have hMn : M key = none := hv.symm
    have hroom : RoomFor m.cap m.size := by
      unfold RoomFor
      split
      · rename_i hex
        intro newCap hnew
        obtain ⟨newCap', hnew', h2, hlast⟩ := increaseCap_ok h.capacity.2
        rw [hnew] at hnew'
        cases hnew'
        have hne : newCap ≠ lastBucketCount := by
          rintro rfl
          refine hg ?_ hex hnew
          simp only [HashMap.get, he, hs, hit, bind, Except.bind, pure, Except.pure]
          rfl
        unfold lastBucketCount at hne
        have := h.sound.room
        have := h.capacity.1
        omega
      · exact .inl h.capacity.1
    rcases makeRoom_ok h.sound hroom hf with ⟨e, _, hie, _⟩ |
      ⟨cap', items', slot', hmr, hs', hlt, hf', hp, hcap⟩
    · obtain ⟨newCap, hnew, _⟩ := increaseCap_ok h.capacity.2
      rw [hie] at hnew; cases hnew
    · have hp := hp h.distinct
      have habsent := (h.holds.none_iff key).mp hMn
      have habsent' : ∀ y ∈ live cap' items', (y.key == key) = false := fun y hy => habsent y (hp.mem_iff.mp hy)
      have hn' := none_of_stops hf'.1 hf'.2.1 habsent'
      have hins := Probing.live_insert hf'.1 hn' (⟨makeHashVal key, key, val⟩ : Item K V)
      refine ⟨⟨Function.update items' slot' (some ⟨makeHashVal key, key, val⟩), m.size + 1, cap'⟩, ?_, ?_, fun _ => ⟨rfl, hcap⟩⟩
      · simp only [HashMap.set, he, hs, hit, hmr, h.sound.uint_succ, bind, Except.bind, pure, Except.pure]
      · refine ⟨hs'.store hlt hf', ?_, ?_, ?_, ?_, ?_⟩
        · exact ((h.distinct.perm hp.symm).cons habsent').perm hins.symm
        · rw [hins.length_eq, List.length_cons, hp.length_eq, h.count]
        · intro y hy
          rcases List.mem_cons.mp (hins.mem_iff.mp hy) with rfl | hy
          · rfl
          · exact h.hash y (hp.mem_iff.mp hy)
        · exact ((h.holds.perm hp.symm).cons (x := ⟨makeHashVal key, key, val⟩) habsent').perm hins.symm
        · split at hcap
          · obtain ⟨newCap', hnew', h2, hlast⟩ := increaseCap_ok h.capacity.2
            rw [hcap] at hnew'
            cases hnew'
            have := h.capacity.1
            have := hs'.le
            exact ⟨by simp only; omega, by simp only; omega⟩
          · rw [hcap]; exact h.capacity

end

variable [ToString K] {cap : Nat}

/-- Every update of the run, at the state where it is made. -/
def Grows (makeHashVal : K → Nat) : HashMap K V → List (Update K V) → Prop
  | _, [] => True
  | m, u :: us => GrowthOk makeHashVal m u ∧
      ∀ m' r, update makeHashVal m u = .ok (m', r) → Grows makeHashVal m' us

def specUpdate (M : K → Option V) : Update K V → (K → Option V) × Except Exc (Option V)
  | .set key val => (put M key val, .ok (some val))
  | .delete key =>
    match M key with
    | some _ => (remove M key, .ok none)
    | none => (M, .error (unknownKey key))

def specRun (M : K → Option V) : List (Update K V) → (K → Option V) × List (Except Exc (Option V))
  | [] => (M, [])
  | u :: us => ((specRun (specUpdate M u).1 us).1, (specUpdate M u).2 :: (specRun (specUpdate M u).1 us).2)

/-- What a program can observe of the map `m` is the finite map `M`. -/
structure Behaves (makeHashVal : K → Nat) (m : HashMap K V) (M : K → Option V) : Prop where
  get : ∀ k, get makeHashVal m k = .ok (M k)
  getDefault : ∀ k d, getDefault makeHashVal m k d = .ok ((M k).getD d)
  index : ∀ k, index makeHashVal m k = .ok (match M k with
    | some v => .ok v
    | none => .error (unknownKey k))
  hasKey : ∀ k, hasKey makeHashVal m k = .ok (M k).isSome
  /-- Iteration yields each live item once, and `count` counts them. -/
  elems : ∃ its, elems m = .ok its ∧ Distinct Item.key its ∧ Holds Item.key Item.val its M ∧
    count m = its.length
  /-- No empty slot lies between the home slot of an item and the item. -/
  reachable : ∀ i < m.cap, ∀ x, m.items i = some x → ∀ j < m.cap,
    Probing.dist m.cap (x.hash % m.cap) j < Probing.dist m.cap (x.hash % m.cap) i → m.items j ≠ none

section

variable {makeHashVal : K → Nat} {m : HashMap K V} {M : K → Option V}

variable (hhash : ∀ a b : K, (a == b) = true → makeHashVal a = makeHashVal b)

include hhash in
theorem Refines.behaves (h : Refines makeHashVal m M) : Behaves makeHashVal m M := by
  refine ⟨fun k => ?_, fun k d => ?_, fun k => ?_, fun k => ?_,
    ⟨_, elems_ok h, h.distinct, h.holds, h.count.symm⟩, h.sound.reachable⟩
  · obtain ⟨i, he, _, hs, hv, _⟩ := h.findSlot_eq hhash k
    simp only [HashMap.get, he, hs, hv, bind, Except.bind, pure, Except.pure]
  · obtain ⟨i, he, _, hs, hv, _⟩ := h.findSlot_eq hhash k
    rw [← hv]
    simp only [HashMap.getDefault, he, hs, bind, Except.bind, pure, Except.pure]
    cases m.items i <;> rfl
  · obtain ⟨i, he, _, hs, hv, _⟩ := h.findSlot_eq hhash k
    rw [← hv]
    simp only [HashMap.index, he, hs, bind, Except.bind, pure, Except.pure]
    cases m.items i <;> rfl
  · obtain ⟨i, he, _, hs, hv, _⟩ := h.findSlot_eq hhash k
    rw [← hv, HashMap.hasKey]
    by_cases hz : m.size = 0
    · have hlive : live m.cap m.items = [] := List.length_eq_zero_iff.mp (h.count.trans hz)
      have hMk : M k = none := (h.holds.none_iff k).mpr (by rw [hlive]; simp)
      rw [hv, hMk, if_pos hz]
      rfl
    · simp only [if_neg hz, he, hs, bind, Except.bind, pure, Except.pure, Option.isSome_map]

variable [EquivBEq K]

include hhash in
theorem Refines.delete (h : Refines makeHashVal m M) (key : K) :
    ∃ m' r, delete makeHashVal m key = .ok (m', r) ∧
      Refines makeHashVal m' (specUpdate M (.delete key)).1 ∧
      r.map (fun _ => none) = (specUpdate M (.delete key)).2 := by
  obtain ⟨i, he, hf, hs, hv, hk⟩ := h.findSlot_eq hhash key
  cases hit : m.items i with
  | some x =>
    obtain ⟨items', hfn, hpos, hs', hp⟩ := h.sound.remove hf.1 hit
    rw [hit] at hv
    refine ⟨⟨items', m.size - 1, m.cap⟩, .ok (), ?_, ?_, ?_⟩
    · simp only [HashMap.delete, he, hs, hit, hfn, h.sound.uint_pred hpos, bind, Except.bind, pure, Except.pure]
    · have hM : (specUpdate M (.delete key)).1 = remove M key := by rw [specUpdate, ← hv]; rfl
      rw [hM]
      have hl := hp.length_eq
      rw [List.length_cons, h.count] at hl
      exact ⟨hs', (List.pairwise_cons.mp (h.distinct.perm hp.symm)).2, by simp only; omega,
        fun y hy => h.hash y (hp.mem_iff.mp (List.mem_cons_of_mem _ hy)),
        h.holds.remove h.distinct hp.symm (hk x hit), h.capacity⟩
    · rw [specUpdate, ← hv]; rfl
  | none =>
    rw [hit] at hv
    have hMn : M key = none := hv.symm
    refine ⟨m, .error (unknownKey key), ?_, ?_, ?_⟩
    · simp only [HashMap.delete, he, hs, hit, bind, Except.bind, pure, Except.pure]
    · rw [specUpdate, hMn]; exact h
    · rw [specUpdate, hMn]; rfl

include hhash in
/-- One update does to the map what it does to the finite map. -/
theorem Refines.update (h : Refines makeHashVal m M) (u : Update K V) (hg : GrowthOk makeHashVal m u) :
    ∃ m', update makeHashVal m u = .ok (m', (specUpdate M u).2) ∧
      Refines makeHashVal m' (specUpdate M u).1 := by
  cases u with
  | set key val =>
    obtain ⟨m', he, hr, _⟩ := h.set hhash key val hg
    exact ⟨m', by rw [HashMap.update, he]; rfl, hr⟩
  | delete key =>
    obtain ⟨m', r, he, hr, hrep⟩ := h.delete hhash key
    exact ⟨m', by rw [HashMap.update, he, ← hrep]; rfl, hr⟩

include hhash in
theorem Refines.run (us : List (Update K V)) (h : Refines makeHashVal m M) (hg : Grows makeHashVal m us) :
    ∃ m', run makeHashVal m us = .ok (m', (specRun M us).2) ∧ Refines makeHashVal m' (specRun M us).1 := by
  induction us generalizing m M with
  | nil => exact ⟨m, rfl, h⟩
  | cons u us ih =>
    obtain ⟨m₁, he₁, h₁⟩ := h.update hhash u hg.1
    obtain ⟨m₂, he₂, h₂⟩ := ih h₁ (hg.2 m₁ _ he₁)
    exact ⟨m₂, by rw [HashMap.run, he₁]; simp only [bind, Except.bind, he₂]; rfl, h₂⟩

end

/-- A run that does not grow the table to the last bucket count behaves like a
run on a finite map, reply by reply, and ends in a state that shows this map. -/
theorem run_refines [EquivBEq K] (makeHashVal : K → Nat)
    (hhash : ∀ a b : K, (a == b) = true → makeHashVal a = makeHashVal b) (us : List (Update K V))
    (hg : Grows makeHashVal init us) :
    ∃ m, run makeHashVal init us = .ok (m, (specRun (fun _ => none) us).2) ∧
      Behaves makeHashVal m (specRun (fun _ => none) us).1 := by
  obtain ⟨m, he, hr⟩ := Refines.run hhash us init_refines hg
  exact ⟨m, he, hr.behaves hhash⟩

theorem few_grow : Grows (fun k : Nat => k) init [.set 1 10, .set 17 20, .delete 1] := by
  refine ⟨fun _ hex => absurd hex (by decide), fun m r he => ?_⟩
  cases he
  refine ⟨fun _ hex => absurd hex (by decide), fun m r he => ?_⟩
  cases he
  exact ⟨trivial, fun _ _ _ => trivial⟩

/-- Two keys that share a home slot, and the first of them deleted. -/
theorem few_refine :
    ∃ m : HashMap Nat Nat, run (fun k => k) init [.set 1 10, .set 17 20, .delete 1] =
        .ok (m, [.ok (some 10), .ok (some 20), .ok none]) ∧
      get (fun k => k) m 17 = .ok (some 20) ∧ get (fun k => k) m 1 = .ok none := by
  obtain ⟨m, hrun, hb⟩ := run_refines (fun k : Nat => k) (fun a b h => by simpa using h) _ few_grow
  exact ⟨m, hrun, hb.get 17, hb.get 1⟩

/-- Every key has the same hash value, that of the last slot of the last bucket count. -/
def crowded (_ : Nat) : Nat := 2147483658

def inserts (n : Nat) : List (Update Nat Nat) := (List.range n).map (fun k => .set k k)

/-- The capacities of a map that starts with the default. -/
def capacities : List Nat := [
  16, 37, 131, 521, 2053, 8209, 32771, 131101, 524309, 2097169, 8388617, 16777259, 67108879, 268435459, 536870923]

theorem capacities_grow : ∀ c ∈ capacities, c ≠ 536870923 →
    ∃ c' ∈ capacities, increaseCap c = .ok c' ∧ uint (3 * c) / 4 < uint (3 * c') / 4 ∧ c' ≠ lastBucketCount := by
  decide

theorem capacities_last : ∀ c ∈ capacities, 402653193 ≤ uint (3 * c) / 4 + 1 → c = 536870923 := by
  decide

theorem run_append (makeHashVal : K → Nat) (m : HashMap K V) (us us' : List (Update K V)) :
    run makeHashVal m (us ++ us') = (do
      let (m, rs) ← run makeHashVal m us
      let (m, rs') ← run makeHashVal m us'
      return (m, rs ++ rs')) := by
  induction us generalizing m with
  | nil => simp [run]
  | cons u us ih =>
    rw [List.cons_append, run, run]
    cases hu : update makeHashVal m u with
    | error e => rfl
    | ok p =>
      simp only [bind, Except.bind, ih]
      cases run makeHashVal p.1 us with
      | error e => rfl
      | ok q => cases h : run makeHashVal q.1 us' <;> simp [h, pure, Except.pure]

theorem inserts_succ (n : Nat) : inserts (n + 1) = inserts n ++ [.set n n] := by
  simp [inserts, List.range_succ]

/-- The map after `n` insertions, up to the last one that works. -/
theorem inserts_ok (n : Nat) (hn : n ≤ 402653193) :
    ∃ m rs M, run crowded init (inserts n) = .ok (m, rs) ∧ Refines crowded m M ∧ m.size = n ∧
      m.cap ∈ capacities ∧ n ≤ uint (3 * m.cap) / 4 + 1 ∧ ∀ k, n ≤ k → M k = none := by
  induction n with
  | zero => exact ⟨init, [], _, rfl, init_refines, rfl, by decide, by decide, fun _ _ => rfl⟩
  | succ n ih =>
    obtain ⟨m, rs, M, hrun, hr, hsize, hcap, hload, hM⟩ := ih (by omega)
    have hgrow : exceeded m.size m.cap → m.cap ≠ 536870923 := by
      intro hex he
      rw [hsize, he] at hex
      have : uint (3 * 536870923) / 4 = 402653192 := by decide
      unfold exceeded at hex
      omega
    have hg : GrowthOk crowded m (.set n n) := by
      intro _ hex hlast
      obtain ⟨c', _, hc', _, hne⟩ := capacities_grow m.cap hcap (hgrow hex)
      rw [hlast] at hc'
      cases hc'
      exact hne rfl
    obtain ⟨m', he, hr', hnew⟩ := hr.set (fun _ _ _ => rfl) n n hg
    obtain ⟨hsize', hcap'⟩ := hnew (hM n (Nat.le_refl n))
    refine ⟨m', rs ++ [.ok (some n)], put M n n, ?_, hr', by omega, ?_⟩
    · rw [inserts_succ, run_append, hrun]
      simp only [bind, Except.bind, run, update, he]
      rfl
    · have hput : ∀ k, n + 1 ≤ k → put M n n k = none := by
        intro k hk
        have hne : (n == k) = false := by simp; omega
        simp only [put, hne, Bool.false_eq_true, if_false]
        exact hM k (by omega)
      split at hcap'
      · rename_i hex
        obtain ⟨c', hmem, hc', hle, _⟩ := capacities_grow m.cap hcap (hgrow hex)
        rw [hcap'] at hc'
        cases hc'
        exact ⟨hmem, by omega, hput⟩
      · rename_i hex
        rw [hcap']
        unfold exceeded at hex
        exact ⟨hcap, by omega, hput⟩

theorem findSlot_wild {α K : Type} [BEq K] {view : ItemView α K} {items : Nat → Option α} {hash : Nat} {key : K}
    (h0 : 0 < cap) (hw : 2 ^ 31 ≤ hash % cap) : Crack.findSlot view cap items hash key = .error .wildIndex := by
  cases cap with
  | zero => omega
  | succ n =>
    rw [Crack.findSlot, if_neg (by omega), findSlotFrom, slotItem, if_neg (by omega)]
    rfl

/-- The first item that is moved goes beyond what an index can reach. -/
theorem reallocate_wild {α K : Type} [BEq K] {view : ItemView α K} {oldItems : Nat → Option α} (js : List Nat)
    (hj : ∀ j ∈ js, j < 2 ^ 31) (h0 : 0 < cap)
    (hw : ∀ j ∈ js, ∀ x, oldItems j = some x → 2 ^ 31 ≤ view.hash x % cap) (hsome : ∃ j ∈ js, oldItems j ≠ none)
    (items : Nat → Option α) : js.foldlM (moveItem view cap oldItems) items = .error .wildIndex := by
  induction js generalizing items with
  | nil => obtain ⟨j, hj, _⟩ := hsome; cases hj
  | cons j js ih =>
    rw [List.foldlM_cons, moveItem, slotItem, if_pos (hj j (by simp))]
    cases hit : oldItems j with
    | some x =>
      simp only [bind, Except.bind, findSlot_wild h0 (hw j (by simp) x hit)]
    | none =>
      simp only [bind, Except.bind, pure, Except.pure]
      refine ih (fun k hk => hj k (by simp [hk])) (fun k hk => hw k (by simp [hk])) ?_ items
      obtain ⟨k, hk, hne⟩ := hsome
      rcases List.mem_cons.mp hk with rfl | hk
      · exact absurd hit hne
      · exact ⟨k, hk, hne⟩

/-- Storing one key more than the load of 536870923 buckets ends in a fault,
although the hash function is consistent with the equality of the keys. -/
theorem crowded_insert_faults :
    (∀ a b : Nat, (a == b) = true → crowded a = crowded b) ∧
      run crowded init (inserts 402653194) = .error .wildIndex := by
  refine ⟨fun _ _ _ => rfl, ?_⟩
  obtain ⟨m, rs, M, hrun, hr, hsize, hcap, hload, hM⟩ := inserts_ok 402653193 (Nat.le_refl _)
  have hc := capacities_last m.cap hcap hload
  have hex : exceeded m.size m.cap := by rw [hsize, hc]; decide
  have hinc : increaseCap m.cap = .ok 2147483659 := by rw [hc]; decide
  obtain ⟨i, he, _, hs, hv, _⟩ := hr.findSlot_eq (fun _ _ _ => rfl) 402653193
  rw [hM _ (Nat.le_refl _), Option.map_eq_none_iff] at hv
  have hre : reallocate view m.cap 2147483659 m.items = .error .wildIndex := by
    refine reallocate_wild _ (fun j hj => ?_) (by decide) (fun j hj x hx => ?_) ?_ _
    · have := List.mem_range.mp hj
      omega
    · have hh := hr.hash x (Probing.mem_live.mpr ⟨j, List.mem_range.mp hj, hx⟩)
      change 2 ^ 31 ≤ x.hash % 2147483659
      rw [hh, crowded]
      decide
    · have hlive : live m.cap m.items ≠ [] := by
        intro hnil
        have := hr.count
        rw [hnil, hsize] at this
        cases this
      obtain ⟨x, hx⟩ := List.exists_mem_of_ne_nil _ hlive
      obtain ⟨j, hj, hjx⟩ := Probing.mem_live.mp hx
      exact ⟨j, List.mem_range.mpr hj, by simp [hjx]⟩
  rw [inserts_succ, run_append, hrun]
  simp only [bind, Except.bind, run, update, set, he, hs, hv, makeRoom, if_pos hex, hinc, hre]

end HashMap

end Crack
