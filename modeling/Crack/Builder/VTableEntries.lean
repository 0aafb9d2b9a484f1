import Crack.Builder.VTableNumbering

/-!
# Writing methods into the tables

Adding the methods of a class writes each of them to the tables whose slots it
has: to all tables when its receiver type is `VTableBase`, else to the table of
one root. What stands in a slot afterwards is the last method written to it, or
what stood there before.
-/
namespace Crack

open Acyclic (Reaches)

namespace VTableInfo

theorem length_write (info : VTableInfo) (slot func : Nat) :
    (info.write slot func).entries.length = max info.entries.length (slot + 1) := by
  unfold write accomodate
  simp only [List.length_set]
  split
  · rw [List.length_append, List.length_replicate]
    omega
  · omega

theorem getElem?_write_same (info : VTableInfo) (slot func : Nat) :
    (info.write slot func).entries[slot]? = some (some func) := by
  have := info.length_write slot func
  unfold write at this ⊢
  simp only [List.length_set] at this
  rw [List.getElem?_set_self (by omega)]

theorem getElem?_write_of_ne (info : VTableInfo) {slot n : Nat} (func : Nat) (hn : n ≠ slot)
    (hlt : n < info.entries.length) : (info.write slot func).entries[n]? = info.entries[n]? := by
  unfold write accomodate
  simp only
  rw [List.getElem?_set_ne hn.symm]
  split
  · rw [List.getElem?_append_left hlt]
  · rfl

/-- The functions `fs` written one after the other, each to its slot. -/
def writes (slot : Nat → Nat) (info : VTableInfo) (fs : List Nat) : VTableInfo :=
  fs.foldl (fun info f => info.write (slot f) f) info

variable {slot : Nat → Nat} {fs : List Nat}

@[simp] theorem writes_nil (info : VTableInfo) : info.writes slot [] = info := rfl
@[simp] theorem writes_cons (info : VTableInfo) (f : Nat) (fs : List Nat) :
    info.writes slot (f :: fs) = (info.write (slot f) f).writes slot fs := rfl

theorem length_writes_le_iff (info : VTableInfo) (fs : List Nat) (n : Nat) :
    (info.writes slot fs).entries.length ≤ n ↔ info.entries.length ≤ n ∧ ∀ f ∈ fs, slot f < n := by
  induction fs generalizing info with
  | nil => simp
  | cons f fs ih =>
    rw [writes_cons, ih, length_write]
    simp only [List.mem_cons, forall_eq_or_imp]
    constructor
    · rintro ⟨h₁, h₂⟩; exact ⟨by omega, by omega, h₂⟩
    · rintro ⟨h₁, h₂, h₃⟩; exact ⟨by omega, h₃⟩

/-- A slot that none of the functions has keeps its entry. -/
theorem getElem?_writes_of_ne (info : VTableInfo) {n : Nat} (hn : ∀ f ∈ fs, slot f ≠ n)
    (hlt : n < info.entries.length) : (info.writes slot fs).entries[n]? = info.entries[n]? := by
  induction fs generalizing info with
  | nil => rfl
  | cons f fs ih =>
    rw [writes_cons, ih _ (fun g hg => hn g (by simp [hg]))]
    · exact info.getElem?_write_of_ne f (hn f (by simp)).symm hlt
    · rw [length_write]; omega

/-- A slot that some of the functions have holds one of these. -/
theorem getElem?_writes_of_mem (info : VTableInfo) {f : Nat} (hf : f ∈ fs) :
    ∃ g ∈ fs, slot g = slot f ∧ (info.writes slot fs).entries[slot f]? = some (some g) := by
  induction fs generalizing info f with
  | nil => cases hf
  | cons e fs ih =>
    by_cases hex : ∃ g ∈ fs, slot g = slot f
    · obtain ⟨g, hg, hs⟩ := hex
      obtain ⟨g', hg', hs', he⟩ := ih (info.write (slot e) e) hg
      exact ⟨g', by simp [hg'], by omega, by rw [writes_cons, ← hs]; exact he⟩
    · simp only [not_exists, not_and] at hex
      have hfe : f = e := by
        rcases List.mem_cons.mp hf with he | hf
        · exact he
        · exact absurd rfl (hex f hf)
      subst hfe
      refine ⟨f, by simp, rfl, ?_⟩
      rw [writes_cons, getElem?_writes_of_ne _ hex (by rw [length_write]; omega)]
      exact info.getElem?_write_same (slot f) f

end VTableInfo

namespace BuilderState

variable (h : Hierarchy) (s : BuilderState)

/-- `f` has a slot in the table of `root`. -/
def InTable (root f : Nat) : Prop :=
  h.findFirstVTable (s.funcs f).receiverType = some h.vtableBaseType ∨
    h.findFirstVTable (s.funcs f).receiverType = some root

instance (root f : Nat) : Decidable (s.InTable h root f) := by unfold InTable; infer_instance

def slotOf (f : Nat) : Nat := (s.funcs f).vtableSlot

/-- The tables after the functions `fs` have been added. -/
def added (vtb : VTableBuilder) (fs : List Nat) : VTableBuilder :=
  { vtb with vtables := fun root =>
      if root ∈ vtb.roots then (vtb.vtables root).writes s.slotOf (fs.filter (s.InTable h root))
      else vtb.vtables root }

theorem extendVTables_eq (c : Nat) (vtb : VTableBuilder) :
    s.extendVTables h c vtb = (s.virtuals c).foldlM (s.add h) vtb := by
  unfold extendVTables virtuals
  induction (s.types c).defs generalizing vtb with
  | nil => rfl
  | cons e defs ih =>
    rw [List.foldlM_cons, List.flatMap_cons, List.foldlM_append]
    have hin : ∀ (fs : List Nat) (vtb : VTableBuilder),
        fs.foldlM (fun vtb func => if (s.funcs func).virtualized ∧ (s.funcs func).name = e.1
          then s.add h vtb func else .ok vtb) vtb =
        (fs.filter (fun func => (s.funcs func).virtualized ∧ (s.funcs func).name = e.1)).foldlM (s.add h) vtb := by
      intro fs
      induction fs with
      | nil => intro vtb; rfl
      | cons f fs ihf =>
        intro vtb
        rw [List.foldlM_cons, List.filter_cons]
        by_cases hf : (s.funcs f).virtualized ∧ (s.funcs f).name = e.1
        · simp only [hf, and_self, if_true, decide_true, List.foldlM_cons]
          congr 1
          funext vtb'
          exact ihf vtb'
        · simp only [hf, if_false, decide_false, Bool.false_eq_true]
          exact ihf vtb
    rw [hin]
    congr 1
    funext vtb'
    exact ih vtb'

variable {h s} {vtb : VTableBuilder} {root : Nat}

/-- A function whose table exists is added to it. -/
theorem add_eq {f : Nat} (hroot : h.findFirstVTable (s.funcs f).receiverType = some root)
    (hmem : root = h.vtableBaseType ∨ root ∈ vtb.roots) : s.add h vtb f = .ok (s.added h vtb [f]) := by
  unfold add added
  rw [hroot]
  simp only
  by_cases hr : root = h.vtableBaseType
  · have hin : ∀ r, s.InTable h r f := fun r => .inl (by rw [hroot, hr])
    simp [hr, VTableBuilder.addToAll, hin, slotOf]
  · have hmem : root ∈ vtb.roots := by simpa [hr] using hmem
    have hin : ∀ r, s.InTable h r f ↔ r = root := by
      intro r
      unfold InTable
      rw [hroot]
      simp only [Option.some.injEq, hr, false_or]
      exact eq_comm
    rw [if_neg hr, VTableBuilder.addToAncestor, if_pos hmem, VTableBuilder.writeTo]
    congr 2
    funext r
    by_cases he : r = root
    · subst he
      simp [hmem, hin, slotOf]
    · rw [Function.update_of_ne he]
      simp [hin, he]

theorem added_added (vtb : VTableBuilder) (fs gs : List Nat) :
    s.added h (s.added h vtb fs) gs = s.added h vtb (fs ++ gs) := by
  unfold added
  simp only [VTableBuilder.mk.injEq, and_true, true_and]
  funext r
  by_cases hr : r ∈ vtb.roots
  · simp [hr, VTableInfo.writes, List.filter_append, List.foldl_append]
  · simp [hr]

theorem added_nil (vtb : VTableBuilder) : s.added h vtb [] = vtb := by
  unfold added
  simp

/-- Functions whose tables exist are all added. -/
theorem foldlM_add {fs : List Nat}
    (hfs : ∀ f ∈ fs, ∃ root, h.findFirstVTable (s.funcs f).receiverType = some root ∧
      (root = h.vtableBaseType ∨ root ∈ vtb.roots)) :
    fs.foldlM (s.add h) vtb = .ok (s.added h vtb fs) := by
  induction fs generalizing vtb with
  | nil => rw [added_nil]; rfl
  | cons f fs ih =>
    obtain ⟨root, hroot, hmem⟩ := hfs f (by simp)
    rw [List.foldlM_cons, add_eq hroot hmem]
    have hih := @ih (s.added h vtb [f]) (fun g hg => hfs g (by simp [hg]))
    rw [added_added] at hih
    exact hih

@[simp] theorem added_roots (vtb : VTableBuilder) (fs : List Nat) : (s.added h vtb fs).roots = vtb.roots := rfl
@[simp] theorem added_firstVTable (vtb : VTableBuilder) (fs : List Nat) :
    (s.added h vtb fs).firstVTable = vtb.firstVTable := rfl

theorem added_vtables (hr : root ∈ vtb.roots) (fs : List Nat) :
    (s.added h vtb fs).vtables root = (vtb.vtables root).writes s.slotOf (fs.filter (s.InTable h root)) := by
  unfold added
  simp [hr]

end BuilderState

end Crack
