import Crack.Lib.Probing
import Mathlib.Algebra.Group.Nat.Defs
import Mathlib.Algebra.Group.Int.Defs

/-!
# The slot table of the hash maps

`HashMap` and `OrderedHashMap` share the text of the functions on their slot
tables, so these are written once, over whatever the slots hold. `uint` and `int`
have 32 bits. An array index from `2 ^ 31` on is negative once it is an `int`,
and reaches outside of the array.
-/
namespace Crack

open Probing (next prev live Reachable FirstStop)

/-- How an operation of a container comes to a bad end. -/
inductive Fault where
  | moduloZero
  | wildIndex
  | forever
  | nullDereference
  deriving DecidableEq, Repr

/-- The exceptions of the containers. -/
inductive Exc where
  | assertionError (text : String)
  | keyError (text : String)
  | indexError (text : String)
  | invalidArgumentError (text : String)
  deriving DecidableEq, Repr

def uint (n : Nat) : Nat := n % 2 ^ 32

def bucketCount : List Nat := [
  17, 37, 67, 131, 257, 521, 1031, 2053, 4099, 8209, 16411, 32771, 65537,
  131101, 262147, 524309, 1048583, 2097169, 4194319, 8388617, 16777259,
  33554467, 67108879, 134217757, 268435459, 536870923, 1073741827,
  2147483659, 0]

/-- `_increaseCap`; without a bucket count that is large enough it throws. -/
def increaseCap (cap : Nat) : Except Exc Nat :=
  match bucketCount.find? (fun bc => bc = 0 ∨ ¬ bc < uint (cap * 2)) with
  | none | some 0 => .error (.assertionError "Hashtable too big!!")
  | some bc => .ok bc

/-- The load test that comes before a new item is stored. -/
def exceeded (size cap : Nat) : Prop := size > uint (3 * cap) / 4

instance (size cap : Nat) : Decidable (exceeded size cap) := inferInstanceAs (Decidable (_ > _))

/-- What the table needs of an item: the hash value stored in it and its key. -/
structure ItemView (α K : Type) where
  hash : α → Nat
  key : α → K

section

variable {α K : Type} (view : ItemView α K)

def slotItem (items : Nat → Option α) (i : Nat) : Except Fault (Option α) :=
  if i < 2 ^ 31 then .ok (items i) else .error .wildIndex

section Keys

variable [BEq K]

/-- The loop of `__findSlot`. After `cap` rounds every slot has been seen, so
the loop goes on forever. -/
def findSlotFrom (cap : Nat) (items : Nat → Option α) (key : K) : Nat → Nat → Except Fault Nat
  | 0, _ => .error .forever
  | n + 1, i => do
    match ← slotItem items i with
    | some item => if view.key item != key then findSlotFrom cap items key n ((i + 1) % cap) else return i
    | none => return i

def findSlot (cap : Nat) (items : Nat → Option α) (hash : Nat) (key : K) : Except Fault Nat :=
  if cap = 0 then .error .moduloZero else findSlotFrom view cap items key cap (hash % cap)

/-- One round of the loop of `__reallocate`, for slot `i` of the old table. -/
def moveItem (cap : Nat) (oldItems : Nat → Option α) (items : Nat → Option α) (i : Nat) :
    Except Fault (Nat → Option α) := do
  match ← slotItem oldItems i with
  | some item =>
    let slot ← findSlot view cap items (view.hash item) (view.key item)
    return Function.update items slot (some item)
  | none => return items

/-- `__reallocate`, once `_increaseCap` has given the new capacity. -/
def reallocate (oldCap cap : Nat) (oldItems : Nat → Option α) : Except Fault (Nat → Option α) :=
  (List.range oldCap).foldlM (moveItem view cap oldItems) (fun _ => none)

/-- What is done before a new item of the key is stored: the table grows when it
exceeds its load, and the slot is searched for again. -/
def makeRoom (cap size : Nat) (items : Nat → Option α) (hash : Nat) (key : K) (slot : Nat) :
    Except Fault (Except Exc (Nat × (Nat → Option α) × Nat)) :=
  if exceeded size cap then
    match increaseCap cap with
    | .error e => .ok (.error e)
    | .ok newCap => do
      let newItems ← reallocate view cap newCap items
      let slot ← findSlot view newCap newItems hash key
      return .ok (newCap, newItems, slot)
  else .ok (.ok (cap, items, slot))

end Keys

/-- `a < b <= c`, respecting the modulus operation. -/
def inOrder (a b c : Nat) : Bool := (a < c && a < b && b ≤ c) || (a > c && (b > a || b ≤ c))

/-- The search for the last open slot before `last`. -/
def lastOpen (cap : Nat) (items : Nat → Option α) : Nat → Nat → Except Fault Nat
  | 0, _ => .error .forever
  | n + 1, last => do
    match ← slotItem items last with
    | some _ => lastOpen cap items n (if last = 0 then cap - 1 else last - 1)
    | none => return last

/-- The loop of `__findNewOccupant`. -/
def shiftFrom (cap last : Nat) : Nat → Nat → Nat → (Nat → Option α) → Except Fault (Nat → Option α)
  | 0, _, _, _ => .error .forever
  | n + 1, opening, i, items => do
    match ← slotItem items i with
    | some item =>
      if inOrder last (view.hash item % cap) opening then
        shiftFrom cap last n i ((i + 1) % cap)
          (Function.update (Function.update items opening (some item)) i none)
      else shiftFrom cap last n opening ((i + 1) % cap) items
    | none => return items

def findNewOccupant (cap : Nat) (items : Nat → Option α) (opening : Nat) : Except Fault (Nat → Option α) := do
  let last ← lastOpen cap items cap (if opening ≠ 0 then opening - 1 else cap - 1)
  shiftFrom view cap last cap opening ((opening + 1) % cap) items

end

section

variable {α K : Type} {view : ItemView α K} {cap : Nat} {items : Nat → Option α} {item : α} {s : Nat}

/-- The home slot of an item. -/
def homeSlot (view : ItemView α K) (cap : Nat) (item : α) : Nat := view.hash item % cap

theorem homeSlot_lt (hc : 0 < cap) (item : α) : homeSlot view cap item < cap := Nat.mod_lt _ hc

theorem inOrder_iff {a b c : Nat} (ha : a < cap) (hb : b < cap) (hc : c < cap) :
    inOrder a b c = true ↔ Probing.InOrder cap a b c := by
  unfold inOrder Probing.InOrder Probing.dist
  simp only [Bool.or_eq_true, Bool.and_eq_true, decide_eq_true_eq]
  split_ifs <;> omega

theorem lastOpen_eq (hc : cap ≤ 2 ^ 31) (n i : Nat) (hi : i < cap) :
    lastOpen cap items n i =
      match Probing.lastEmpty cap items n i with
      | some r => .ok r
      | none => .error .forever := by
  induction n generalizing i with
  | zero => rfl
  | succ n ih =>
    rw [lastOpen, slotItem, if_pos (by omega), Probing.lastEmpty]
    simp only [bind, Except.bind, pure, Except.pure]
    cases hit : items i with
    | none => rfl
    | some item => simpa [Probing.prev] using ih (prev cap i) (Probing.prev_lt hi)

/-- The shift ends with a table that has the same items, all of them reachable. -/
theorem shiftFrom_ok (hc : cap ≤ 2 ^ 31) {e : Nat} (n : Nat) {o i q : Nat}
    (h : Probing.Shifting cap (homeSlot view cap) items e o i q) (hn : cap < q + n) :
    ∃ items', shiftFrom view cap e n o i items = .ok items' ∧ Reachable cap (homeSlot view cap) items' ∧
      (live cap items').Perm (live cap items) := by
  have h0 : 0 < cap := by have := h.lt; omega
  have hle := h.le
  induction n generalizing items o i q with
  | zero => omega
  | succ n ih =>
    have hi := h.index
    rw [shiftFrom, slotItem, if_pos (by omega), Probing.mod_succ hi]
    simp only [bind, Except.bind, pure, Except.pure]
    cases hit : items i with
    | none => exact ⟨items, rfl, h.done (homeSlot_lt h0) hit, .refl _⟩
    | some item =>
      have hlt := h.lt_of_some hit
      have hhome : homeSlot view cap item < cap := homeSlot_lt h0 item
      have hord := inOrder_iff h.start.lt hhome h.lt
      by_cases ho : inOrder e (view.hash item % cap) o = true
      · simp only [ho, if_true]
        have hm := h.move hit (hord.mp ho)
        obtain ⟨items', he, hr, hp⟩ := ih hm (by omega) hm.le
        exact ⟨items', he, hr, hp.trans (Probing.live_move hi h.lt hit h.hole)⟩
      · simp only [ho]
        exact ih (h.stay hit (fun hio => ho (hord.mpr hio))) (by omega) (by omega)

/-- Emptying a slot and finding new occupants removes just the item of the slot. -/
theorem findNewOccupant_ok (hc : cap ≤ 2 ^ 31) (h : Reachable cap (homeSlot view cap) items) {o : Nat}
    (ho : o < cap) (hit : items o = some item) (hs : s < cap) (hsn : items s = none) :
    ∃ items', findNewOccupant view cap (Function.update items o none) o = .ok items' ∧
      Reachable cap (homeSlot view cap) items' ∧ (item :: live cap items').Perm (live cap items) := by
  have h0 : 0 < cap := by omega
  have hso : s ≠ o := by rintro rfl; rw [hit] at hsn; cases hsn
  have hsn' : Function.update items o none s = none := by rw [Function.update_of_ne hso, hsn]
  obtain ⟨e, he, hrun⟩ := Probing.lastEmpty_some ho hs hso hsn'
  have hsh := h.shifting (homeSlot_lt h0) ho hit hrun
  obtain ⟨items', hf, hr, hp⟩ := shiftFrom_ok hc cap hsh (by omega)
  refine ⟨items', ?_, hr, (hp.cons item).trans (Probing.live_remove ho hit)⟩
  have hprev : (if o ≠ 0 then o - 1 else cap - 1) = prev cap o := by unfold prev; split_ifs <;> omega
  rw [findNewOccupant, hprev, lastOpen_eq hc _ _ (Probing.prev_lt ho), he, Probing.mod_succ ho]
  exact hf

section Keys

variable [BEq K] {i : Nat} {key : K}

/-- Where `__findSlot` stops. -/
def stops (view : ItemView α K) (items : Nat → Option α) (key : K) (i : Nat) : Bool :=
  match items i with
  | some item => view.key item == key
  | none => true

theorem stops_of_none (key : K) (hn : items i = none) : stops view items key i = true := by
  simp [stops, hn]

theorem stops_of_some (key : K) (hi : items i = some item) : stops view items key i = (view.key item == key) := by
  simp [stops, hi]

theorem findSlotFrom_eq (hc : cap ≤ 2 ^ 31) (key : K) (n i : Nat) (hi : i < cap) :
    findSlotFrom view cap items key n i =
      match Probing.probe cap (stops view items key) n i with
      | some r => .ok r
      | none => .error .forever := by
  induction n generalizing i with
  | zero => rfl
  | succ n ih =>
    rw [findSlotFrom, slotItem, if_pos (by omega), Probing.probe, Probing.mod_succ hi]
    simp only [bind, Except.bind, pure, Except.pure, ih (next cap i) (Probing.next_lt hi)]
    cases hit : items i with
    | none => simp [stops_of_none key hit]
    | some item =>
      rw [stops_of_some key hit]
      cases hk : view.key item == key <;> simp [hk, bne]

/-- With an empty slot, or an item of the key, `__findSlot` ends at the first of these. -/
theorem findSlot_ok (h0 : 0 < cap) (hc : cap ≤ 2 ^ 31) (hash : Nat) (key : K) (hs : s < cap)
    (hss : stops view items key s = true) :
    ∃ i, findSlot view cap items hash key = .ok i ∧ FirstStop cap (stops view items key) (hash % cap) i := by
  obtain ⟨i, hi, hf⟩ := Probing.probe_some (Nat.mod_lt hash h0) hs hss
  refine ⟨i, ?_, hf⟩
  rw [findSlot, if_neg (by omega), findSlotFrom_eq hc key _ _ (Nat.mod_lt hash h0), hi]

theorem taken_of_not_stops (h : stops view items key i = false) : items i ≠ none := by
  intro hn
  rw [stops_of_none key hn] at h
  cases h

/-- An item stored where `__findSlot` ends can be found. -/
theorem reachable_store (h : Reachable cap (homeSlot view cap) items)
    (hf : FirstStop cap (stops view items key) (view.hash item % cap) i) :
    Reachable cap (homeSlot view cap) (Function.update items i (some item)) :=
  h.insert (fun j hj hlt => taken_of_not_stops (hf.2.2 j hj hlt))

end Keys

end

end Crack
