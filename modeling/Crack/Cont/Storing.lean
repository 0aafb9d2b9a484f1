import Crack.Cont.HashTable
import Crack.Lib.KeyedList

/-!
# Growing a slot table and storing into it

A table is sound when its items can be found and it keeps an empty slot. The
load test makes room in time only for tables of five or more buckets, and the
growth policy only as long as the doubled capacity does not wrap around.
-/
namespace Crack

open Probing (live Reachable FirstStop)
open KeyedList (Distinct)

theorem exceeded_le {size cap : Nat} (h : ¬ exceeded size cap) : 4 * size ≤ 3 * cap := by
  unfold exceeded uint at h
  have := Nat.mod_le (3 * cap) (2 ^ 32)
  omega

/-- Below 2 ^ 30 + 6 buckets the doubled capacity neither wraps around nor exceeds the table. -/
theorem increaseCap_ok {cap : Nat} (h : cap ≤ 1073741829) :
    ∃ newCap, increaseCap cap = .ok newCap ∧ 2 * cap ≤ newCap ∧ (newCap = 2147483659 ∨ newCap ≤ 1073741827) := by
  have hu : uint (cap * 2) = cap * 2 := Nat.mod_eq_of_lt (by omega)
  have hsplit : bucketCount = bucketCount.dropLast ++ [0] := by decide
  have hall : ∀ bc ∈ bucketCount.dropLast, bc ≠ 0 ∧ (bc = 2147483659 ∨ bc ≤ 1073741827) := by decide
  obtain ⟨bc, hbc⟩ : ∃ bc, bucketCount.dropLast.find? (fun bc => bc = 0 ∨ ¬ bc < uint (cap * 2)) = some bc := by
    rw [← Option.isSome_iff_exists, List.find?_isSome]
    refine ⟨2147483659, by decide, ?_⟩
    rw [hu]
    simp only [decide_eq_true_eq]
    omega
  obtain ⟨hne, hle⟩ := hall bc (List.mem_of_find?_eq_some hbc)
  have hp := List.find?_some hbc
  rw [hu, decide_eq_true_eq] at hp
  refine ⟨bc, ?_, by omega, hle⟩
  unfold increaseCap
  rw [hsplit, List.find?_append, hbc]
  cases bc with
  | zero => exact absurd rfl hne
  | succ n => rfl

section

variable {α K : Type} (view : ItemView α K)

/-- The condition under which the hash maps work: a positive capacity, an empty
slot, and items that are found from their home slots. -/
structure Sound (cap size : Nat) (items : Nat → Option α) : Prop where
  pos : 0 < cap
  le : cap ≤ 2 ^ 31
  reachable : Reachable cap (homeSlot view cap) items
  count : (live cap items).length ≤ size
  room : size < cap

/-- Storing a new item is safe: the table does not fill up, and where it has to
grow the new bucket count holds all items and can be indexed. -/
def RoomFor (cap size : Nat) : Prop :=
  if exceeded size cap then ∀ newCap, increaseCap cap = .ok newCap → size + 1 < newCap ∧ newCap ≤ 2 ^ 31
  else 5 ≤ cap ∨ size + 1 < cap

variable {view} {cap size : Nat} {items : Nat → Option α}

theorem RoomFor.lt (h : RoomFor cap size) (he : ¬ exceeded size cap) : size + 1 < cap := by
  unfold RoomFor at h
  rw [if_neg he] at h
  have := exceeded_le he
  omega

theorem Sound.empty (h0 : 0 < cap) (hc : cap ≤ 2 ^ 31) : Sound view cap 0 (fun _ => none) :=
  ⟨h0, hc, Probing.reachable_empty, by simp, h0⟩

theorem Sound.exists_empty (h : Sound view cap size items) : ∃ i < cap, items i = none :=
  Probing.exists_empty (by have := h.count; have := h.room; omega)

theorem Sound.uint_succ (h : Sound view cap size items) : uint (size + 1) = size + 1 := by
  have := h.room
  have := h.le
  exact Nat.mod_eq_of_lt (by omega)

theorem Sound.uint_pred (h : Sound view cap size items) (hs : 1 ≤ size) : uint (size + 2 ^ 32 - 1) = size - 1 := by
  have := h.room
  have := h.le
  unfold uint
  omega

variable (items) in
theorem live_length_update {i : Nat} (hi : i < cap) (x : α) :
    (live cap (Function.update items i (some x))).length ≤ (live cap items).length + 1 := by
  have h₁ := (Probing.live_update items hi (some x)).length_eq
  have h₂ := (Probing.live_perm items hi).length_eq
  simp only [List.length_append, Option.toList_some, List.length_cons, List.length_nil] at h₁ h₂
  omega

/-- Replacing an item by one with the same hash value. -/
theorem Sound.replace (h : Sound view cap size items) {x y : α} {slot : Nat} (hs : slot < cap)
    (hx : items slot = some x) (hh : view.hash y = view.hash x) :
    Sound view cap size (Function.update items slot (some y)) := by
  have h₁ := (Probing.live_update items hs (some y)).length_eq
  have h₂ := (Probing.live_perm items hs).length_eq
  rw [hx] at h₂
  have := h.count
  refine ⟨h.pos, h.le, h.reachable.replace hs hx (by simp [homeSlot, hh]), ?_, h.room⟩
  simp only [List.length_append, Option.toList_some, List.length_cons, List.length_nil] at h₁ h₂
  omega

/-- Removing an item together with the shift that follows. -/
theorem Sound.remove (h : Sound view cap size items) {x : α} {slot : Nat} (hs : slot < cap)
    (hx : items slot = some x) :
    ∃ items', findNewOccupant view cap (Function.update items slot none) slot = .ok items' ∧ 1 ≤ size ∧
      Sound view cap (size - 1) items' ∧ (x :: live cap items').Perm (live cap items) := by
  obtain ⟨s, hse, hsn⟩ := h.exists_empty
  obtain ⟨items', he, hr, hp⟩ := findNewOccupant_ok h.le h.reachable hs hx hse hsn
  have hl := hp.length_eq
  rw [List.length_cons] at hl
  have := h.count
  have := h.room
  exact ⟨items', he, by omega, ⟨h.pos, h.le, hr, by omega, by omega⟩, hp⟩

variable [BEq K] {key : K}

/-- Every search of a sound table ends. -/
theorem Sound.findSlot_ok (h : Sound view cap size items) (hash : Nat) (key : K) :
    ∃ i, findSlot view cap items hash key = .ok i ∧ FirstStop cap (stops view items key) (hash % cap) i := by
  obtain ⟨s, hs, hn⟩ := h.exists_empty
  exact Crack.findSlot_ok h.pos h.le hash key hs (stops_of_none key hn)

theorem none_of_stops {i : Nat} (hi : i < cap) (hst : stops view items key i = true)
    (hk : ∀ y ∈ live cap items, (view.key y == key) = false) : items i = none := by
  cases hit : items i with
  | none => rfl
  | some y =>
    rw [stops_of_some key hit, hk y (Probing.mem_live.mpr ⟨i, hi, hit⟩)] at hst
    cases hst

variable (view) in
/-- Moving one item into a table that has an empty slot left. -/
theorem moveItem_ok (oldItems : Nat → Option α) {j : Nat} (hj : j < 2 ^ 31) (h0 : 0 < cap) (hc : cap ≤ 2 ^ 31)
    (hr : Reachable cap (homeSlot view cap) items) (hl : (live cap items).length + (oldItems j).toList.length ≤ cap) :
    ∃ items', moveItem view cap oldItems items j = .ok items' ∧ Reachable cap (homeSlot view cap) items' ∧
      (live cap items').length ≤ (live cap items).length + (oldItems j).toList.length ∧
      ((∀ x ∈ oldItems j, ∀ y ∈ live cap items, (view.key y == view.key x) = false) →
        (live cap items').Perm ((oldItems j).toList ++ live cap items)) := by
  rw [moveItem, slotItem, if_pos hj]
  simp only [bind, Except.bind, pure, Except.pure]
  cases hit : oldItems j with
  | none => exact ⟨items, rfl, hr, by simp, fun _ => by simp⟩
  | some x =>
    rw [hit] at hl
    simp only [Option.toList_some, List.length_cons, List.length_nil] at hl
    obtain ⟨s, hs, hn⟩ := Probing.exists_empty (t := items) (c := cap) (by omega)
    obtain ⟨i, he, hf⟩ := findSlot_ok h0 hc (view.hash x) (view.key x) hs (stops_of_none _ hn)
    refine ⟨Function.update items i (some x), by simp only [he], reachable_store hr hf, live_length_update items hf.1 x, ?_⟩
    intro hk
    exact Probing.live_insert hf.1 (none_of_stops hf.1 hf.2.1 (hk x rfl)) x

variable (view) in
/-- The loop of `__reallocate` over the slots `js`. -/
theorem moveItems_ok (oldItems : Nat → Option α) (h0 : 0 < cap) (hc : cap ≤ 2 ^ 31) (js : List Nat)
    (hj : ∀ j ∈ js, j < 2 ^ 31) (hr : Reachable cap (homeSlot view cap) items)
    (hl : (live cap items).length + (js.filterMap oldItems).length ≤ cap) :
    ∃ items', js.foldlM (moveItem view cap oldItems) items = .ok items' ∧
      Reachable cap (homeSlot view cap) items' ∧
      (live cap items').length ≤ (live cap items).length + (js.filterMap oldItems).length ∧
      (Distinct view.key (live cap items ++ js.filterMap oldItems) →
        (live cap items').Perm (live cap items ++ js.filterMap oldItems)) := by
  induction js generalizing items with
  | nil => exact ⟨items, rfl, hr, by simp, fun _ => by simp⟩
  | cons j js ih =>
    have hsplit : (j :: js).filterMap oldItems = (oldItems j).toList ++ js.filterMap oldItems := by
      rw [List.filterMap_cons]; cases oldItems j <;> rfl
    rw [hsplit, List.length_append] at hl
    obtain ⟨items₁, he₁, hr₁, hl₁, hp₁⟩ :=
      moveItem_ok view oldItems (hj j (by simp)) h0 hc hr (by omega)
    obtain ⟨items₂, he₂, hr₂, hl₂, hp₂⟩ := ih (fun k hk => hj k (by simp [hk])) hr₁ (by omega)
    refine ⟨items₂, ?_, hr₂, by rw [hsplit, List.length_append]; omega, fun hd => ?_⟩
    · rw [List.foldlM_cons, he₁]; exact he₂
    · rw [hsplit, ← List.append_assoc] at hd ⊢
      have hswap : (live cap items₁).Perm (live cap items ++ (oldItems j).toList) := by
        refine (hp₁ ?_).trans List.perm_append_comm
        intro x hx y hy
        have hd' := (List.pairwise_append.mp (List.pairwise_append.mp hd).1).2.2
        exact (hd' y hy x (by simpa using hx)).1
      have happ := hswap.append_right (js.filterMap oldItems)
      exact (hp₂ (hd.perm happ.symm)).trans happ

section

variable (h : Sound view cap size items)

include h

/-- A table that is large enough takes over all items of the old one. -/
theorem reallocate_ok {newCap : Nat} (hs : size < newCap) (hc : newCap ≤ 2 ^ 31) :
    ∃ items', reallocate view cap newCap items = .ok items' ∧ Sound view newCap size items' ∧
      (Distinct view.key (live cap items) → (live newCap items').Perm (live cap items)) := by
  have hle := h.le
  have hcount := h.count
  have hl : (live newCap (fun _ => (none : Option α))).length +
      ((List.range cap).filterMap items).length ≤ newCap := by
    rw [Probing.live_empty]
    unfold live at hcount
    simp only [List.length_nil]
    omega
  obtain ⟨items', he, hr, hl', hp⟩ := moveItems_ok view items (by omega) hc (List.range cap)
    (fun j hj => by have := List.mem_range.mp hj; omega) Probing.reachable_empty hl
  rw [Probing.live_empty, List.length_nil, Nat.zero_add] at hl'
  rw [Probing.live_empty, List.nil_append] at hp
  exact ⟨items', he, ⟨by omega, hc, hr, Nat.le_trans hl' hcount, hs⟩, hp⟩

/-- Making room for a new item ends with an exception of the growth policy, or
with a sound table that has room and the slot for the item. -/
theorem makeRoom_ok (hroom : RoomFor cap size) {hash : Nat} {slot : Nat}
    (hf : FirstStop cap (stops view items key) (hash % cap) slot) :
    (∃ e, exceeded size cap ∧ increaseCap cap = .error e ∧
      makeRoom view cap size items hash key slot = .ok (.error e)) ∨
    ∃ cap' items' slot', makeRoom view cap size items hash key slot = .ok (.ok (cap', items', slot')) ∧
      Sound view cap' size items' ∧ size + 1 < cap' ∧
      FirstStop cap' (stops view items' key) (hash % cap') slot' ∧
      (Distinct view.key (live cap items) → (live cap' items').Perm (live cap items)) ∧
      (if exceeded size cap then increaseCap cap = .ok cap' else cap' = cap) := by
  unfold makeRoom
  by_cases he : exceeded size cap
  · rw [if_pos he]
    cases hi : increaseCap cap with
    | error e => exact .inl ⟨e, he, rfl, rfl⟩
    | ok newCap =>
      have hnew : size + 1 < newCap ∧ newCap ≤ 2 ^ 31 := by
        unfold RoomFor at hroom
        rw [if_pos he] at hroom
        exact hroom newCap hi
      obtain ⟨items', hre, hs, hp⟩ := reallocate_ok h (by omega) hnew.2
      obtain ⟨slot', hsl, hf'⟩ := hs.findSlot_ok hash key
      refine .inr ⟨newCap, items', slot', ?_, hs, hnew.1, hf', hp, by rw [if_pos he]⟩
      simp only [hre, hsl, bind, Except.bind]
      rfl
  · rw [if_neg he]
    exact .inr ⟨cap, items, slot, rfl, h, hroom.lt he, hf, fun _ => .refl _, by rw [if_neg he]⟩

/-- Storing a new item into the slot found for it. -/
theorem Sound.store (hs : size + 1 < cap) {item : α} {slot : Nat}
    (hf : FirstStop cap (stops view items key) (view.hash item % cap) slot) :
    Sound view cap (size + 1) (Function.update items slot (some item)) := by
  have := live_length_update items hf.1 item
  have := h.count
  exact ⟨h.pos, h.le, reachable_store h.reachable hf, by omega, hs⟩

/-- Where equal keys have equal hash values, `__findSlot` finds the item of the
key, and an empty slot when there is none. -/
theorem Sound.findSlot_key {hash : K → Nat} (hview : ∀ x ∈ live cap items, view.hash x = hash (view.key x))
    (hhash : ∀ a b : K, (a == b) = true → hash a = hash b) (key : K) :
    ∃ i, findSlot view cap items (hash key) key = .ok i ∧
      FirstStop cap (stops view items key) (hash key % cap) i ∧
      ((∃ x, items i = some x ∧ (view.key x == key) = true) ∨
        items i = none ∧ ∀ x ∈ live cap items, (view.key x == key) = false) := by
  obtain ⟨i, he, hf⟩ := h.findSlot_ok (hash key) key
  refine ⟨i, he, hf, ?_⟩
  cases hit : items i with
  | some x =>
    have hst := hf.2.1
    rw [stops_of_some key hit] at hst
    exact .inl ⟨x, rfl, hst⟩
  | none =>
    refine .inr ⟨rfl, fun x hx => ?_⟩
    by_contra hk
    rw [Bool.not_eq_false] at hk
    obtain ⟨s, hs, hsx⟩ := Probing.mem_live.mp hx
    have hhome : homeSlot view cap x = hash key % cap := by
      rw [homeSlot, hview x hx, hhash _ _ hk]
    have hstop : stops view items key s = true := by rw [stops_of_some key hsx, hk]
    -- neither of the two slots can be nearer to the home slot of the key
    rcases Nat.lt_trichotomy (Probing.dist cap (hash key % cap) s) (Probing.dist cap (hash key % cap) i) with hlt | heq | hgt
    · rw [hf.2.2 s hs hlt] at hstop; cases hstop
    · have := Probing.dist_inj (Nat.mod_lt _ h.pos) hs hf.1 heq
      rw [this, hit] at hsx; cases hsx
    · exact h.reachable s hs x hsx i hf.1 (by rw [hhome]; exact hgt) hit

end

omit [BEq K] in
theorem slotItem_ok (h : Sound view cap size items) {i : Nat} (hi : i < cap) :
    slotItem items i = .ok (items i) :=
  if_pos (by have := h.le; omega)

end

end Crack
