import Mathlib.Data.List.Pairwise
import Crack.Builder.VTableRoots

/-!
# How slots are numbered

A new virtual method takes a slot of its class, an override the slot and the
receiver type of the method it overrides. So every virtual method leads to one
new method, which is declared by its receiver type and has the same slot.
-/
namespace Crack

open Acyclic (Reaches)

namespace BuilderState

variable (h : Hierarchy) (s : BuilderState)

/-- The functions of a class that `extendVTables` adds. -/
def virtuals (c : Nat) : List Nat :=
  (s.types c).defs.flatMap (fun overload => overload.2.filter (fun func =>
    (s.funcs func).virtualized ∧ (s.funcs func).name = overload.1))

/-- A virtual method of `c` or of an ancestor. -/
def MethodOf (c f : Nat) : Prop := ∃ d, Reaches h.parents c d ∧ f ∈ s.virtuals d

/-- `f` leads to the new method `m` through the methods that each overrides. -/
inductive Overrides : Nat → Nat → Prop where
  | new {m : Nat} (hm : (s.funcs m).existing = none) : Overrides m m
  | step {f e m : Nat} (he : (s.funcs f).existing = some e) (hm : Overrides e m) : Overrides f m

/-- The new methods of `c` have the slots from the first to the next one, and
the first slot is the one after those of the first base. -/
structure Slots (c : Nat) : Prop where
  first : ∀ base bases, h.parents c = base :: bases →
    (s.types c).firstVTableSlot = (s.types base).nextVTableSlot
  le : (s.types c).firstVTableSlot ≤ (s.types c).nextVTableSlot
  new : ∀ f ∈ s.virtuals c, (s.funcs f).existing = none → (s.funcs f).receiverType = c ∧
    (s.types c).firstVTableSlot ≤ (s.funcs f).vtableSlot ∧ (s.funcs f).vtableSlot < (s.types c).nextVTableSlot
  override : ∀ f ∈ s.virtuals c, ∀ e, (s.funcs f).existing = some e → e < f ∧ s.MethodOf h c e ∧
    (s.funcs f).receiverType = (s.funcs e).receiverType ∧ (s.funcs f).vtableSlot = (s.funcs e).vtableSlot
  distinct : ∀ f ∈ s.virtuals c, ∀ g ∈ s.virtuals c, (s.funcs f).existing = none → (s.funcs g).existing = none →
    (s.funcs f).vtableSlot = (s.funcs g).vtableSlot → f = g
  filled : ∀ n, (s.types c).firstVTableSlot ≤ n → n < (s.types c).nextVTableSlot →
    ∃ f ∈ s.virtuals c, (s.funcs f).existing = none ∧ (s.funcs f).vtableSlot = n

/-- `VTableBase` has the one slot of `oper class`. -/
structure Numbered (c : Nat) : Prop extends s.Slots h c where
  vtableBase : c = h.vtableBaseType → (s.types c).firstVTableSlot = 0 ∧ (s.types c).nextVTableSlot = 1

/-- What the tables of a class rest on, for the class and each of its ancestors. -/
structure Sound (c : Nat) : Prop where
  apart : (h.parents c).Pairwise h.Apart
  owner : ∀ f ∈ s.virtuals c, (s.funcs f).owner = c
  plain : h.hasVTable c = false → s.virtuals c = []
  wellBased : h.hasVTable c = true → c ≠ h.vtableBaseType → h.WellBased c
  numbered : h.hasVTable c = true → s.Numbered h c
  operClass : h.hasVTable c = true → c ≠ h.vtableBaseType →
    ∃ f ∈ s.virtuals c, (s.funcs f).receiverType = h.vtableBaseType

def SoundFrom (c : Nat) : Prop := ∀ d, Reaches h.parents c d → s.Sound h d

variable {h s} {c f : Nat}

theorem SoundFrom.of_reaches {c d : Nat} (hs : s.SoundFrom h c) (hd : Reaches h.parents c d) : s.SoundFrom h d :=
  fun e he => hs e (hd.trans he)

theorem SoundFrom.of_parent {c p : Nat} (hs : s.SoundFrom h c) (hp : p ∈ h.parents c) : s.SoundFrom h p :=
  hs.of_reaches (.of_parent hp)

theorem SoundFrom.self {c : Nat} (hs : s.SoundFrom h c) : s.Sound h c := hs c (.refl c)

theorem MethodOf.of_reaches {c d f : Nat} (hd : Reaches h.parents c d) (hf : s.MethodOf h d f) : s.MethodOf h c f := by
  obtain ⟨e, he, hf⟩ := hf
  exact ⟨e, hd.trans he, hf⟩

theorem methodOf_iff : s.MethodOf h c f ↔ f ∈ s.virtuals c ∨ ∃ p ∈ h.parents c, s.MethodOf h p f := by
  constructor
  · rintro ⟨d, hd, hf⟩
    rcases Acyclic.reaches_iff.mp hd with he | ⟨p, hp, hd⟩
    · subst he; exact .inl hf
    · exact .inr ⟨p, hp, d, hd, hf⟩
  · rintro (hf | ⟨p, hp, hf⟩)
    · exact ⟨c, .refl c, hf⟩
    · exact hf.of_reaches (.of_parent hp)

theorem Sound.hasVTable (hs : s.Sound h c) (hf : f ∈ s.virtuals c) : h.hasVTable c = true := by
  by_contra hv
  rw [Bool.not_eq_true] at hv
  rw [hs.plain hv] at hf
  cases hf

/-- The class that the slot of a virtual method belongs to, and the method that took the slot. -/
structure Origin (h : Hierarchy) (s : BuilderState) (f m : Nat) : Prop where
  overrides : s.Overrides f m
  new : (s.funcs m).existing = none
  mem : m ∈ s.virtuals (s.funcs f).receiverType
  slot : (s.funcs m).vtableSlot = (s.funcs f).vtableSlot
  reaches : Reaches h.parents (s.funcs f).owner (s.funcs f).receiverType

theorem SoundFrom.origin (hs : s.SoundFrom h c) (hf : s.MethodOf h c f) : ∃ m, Origin h s f m := by
  induction f using Nat.strongRecOn with
  | ind f ih =>
    obtain ⟨d, hd, hmem⟩ := hf
    have hsd := hs d hd
    have hn := hsd.numbered (hsd.hasVTable hmem)
    cases he : (s.funcs f).existing with
    | none =>
      have hr := (hn.new f hmem he).1
      exact ⟨f, .new he, he, by rw [hr]; exact hmem, rfl, by rw [hsd.owner f hmem, hr]; exact .refl d⟩
    | some e =>
      obtain ⟨hlt, hme, hrec, hslot⟩ := hn.override f hmem e he
      obtain ⟨m, ho⟩ := ih e hlt (hme.of_reaches hd)
      obtain ⟨d', hd', hme'⟩ := hme
      refine ⟨m, .step he ho.overrides, ho.new, by rw [hrec]; exact ho.mem, by rw [hslot]; exact ho.slot, ?_⟩
      have := ho.reaches
      rw [(hs d' (hd.trans hd')).owner e hme'] at this
      rw [hsd.owner f hmem, hrec]
      exact hd'.trans this

theorem SoundFrom.reaches_receiver (hs : s.SoundFrom h c) (hf : s.MethodOf h c f) :
    Reaches h.parents c (s.funcs f).receiverType := by
  obtain ⟨m, ho⟩ := hs.origin hf
  obtain ⟨d, hd, hmem⟩ := hf
  have := ho.reaches
  rw [(hs d hd).owner f hmem] at this
  exact hd.trans this

theorem SoundFrom.hasVTable_receiver (hs : s.SoundFrom h c) (hf : s.MethodOf h c f) :
    h.hasVTable (s.funcs f).receiverType = true := by
  obtain ⟨m, ho⟩ := hs.origin hf
  exact (hs _ (hs.reaches_receiver hf)).hasVTable ho.mem

/-- The slot of a method is one of those that its receiver type has given out. -/
theorem SoundFrom.slot_bounds (hs : s.SoundFrom h c) (hf : s.MethodOf h c f) :
    (s.types (s.funcs f).receiverType).firstVTableSlot ≤ (s.funcs f).vtableSlot ∧
      (s.funcs f).vtableSlot < (s.types (s.funcs f).receiverType).nextVTableSlot := by
  obtain ⟨m, ho⟩ := hs.origin hf
  have hr := hs _ (hs.reaches_receiver hf)
  have := ((hr.numbered (hr.hasVTable ho.mem)).new m ho.mem ho.new).2
  rwa [ho.slot] at this

/-- `VTableBase` has the slot 0, and every other class starts above it. -/
theorem SoundFrom.one_le_first {c : Nat} (hs : s.SoundFrom h c) (hc : c ≠ h.vtableBaseType)
    (hv : h.hasVTable c = true) : 1 ≤ (s.types c).firstVTableSlot := by
  induction c using h.ranked.induction with
  | step c ih =>
    obtain ⟨base, bases, hp, hvb, -⟩ := hs.self.wellBased hv hc
    have hmem : base ∈ h.parents c := by simp [hp]
    have hsb := hs.of_parent hmem
    have hnb := hsb.self.numbered hvb
    rw [(hs.self.numbered hv).first base bases hp]
    by_cases hb : base = h.vtableBaseType
    · have := (hnb.vtableBase hb).2
      omega
    · have := ih base hmem hsb hb hvb
      have := hnb.le
      omega

theorem SoundFrom.slot_eq_zero_iff (hs : s.SoundFrom h c) (hf : s.MethodOf h c f) :
    (s.funcs f).vtableSlot = 0 ↔ (s.funcs f).receiverType = h.vtableBaseType := by
  have hb := hs.slot_bounds hf
  have hr := hs.of_reaches (hs.reaches_receiver hf)
  have hv := hs.hasVTable_receiver hf
  constructor
  · intro hz
    by_contra hne
    have := hr.one_le_first hne hv
    omega
  · intro he
    have := (hr.self.numbered hv).vtableBase he
    omega

/-- The root whose table has the slot of `f`. -/
theorem SoundFrom.exists_root (hs : s.SoundFrom h c) (hf : s.MethodOf h c f)
    (hr : (s.funcs f).receiverType ≠ h.vtableBaseType) :
    ∃ root, h.findFirstVTable (s.funcs f).receiverType = some root ∧ h.RootOf c root := by
  obtain ⟨root, he, hroot⟩ := Hierarchy.findFirstVTable_rootOf hr (hs.hasVTable_receiver hf)
  exact ⟨root, he, (hs.reaches_receiver hf).trans hroot.1, hroot.2⟩

/-- A method of `c` with its slot in the table of `root` makes `root` a root of `c`. -/
theorem SoundFrom.rootOf {c f root : Nat} (hs : s.SoundFrom h c) (hf : s.MethodOf h c f)
    (hr : h.findFirstVTable (s.funcs f).receiverType = some root) (hne : root ≠ h.vtableBaseType) :
    h.RootOf c root := by
  have hroot := Hierarchy.rootOf_of_findFirstVTable (hs.hasVTable_receiver hf) hr hne
  exact ⟨(hs.reaches_receiver hf).trans hroot.1, hroot.2⟩

/-- A base that shares a root with another base is that base. -/
theorem Sound.parent_unique {c p q root : Nat} (hs : s.Sound h c) (hp : p ∈ h.parents c) (hq : q ∈ h.parents c)
    (hrp : h.RootOf p root) (hrq : h.RootOf q root) : p = q := by
  by_contra hne
  have hsym : Std.Symm h.Apart := ⟨fun a b hab d h₁ h₂ => hab d h₂ h₁⟩
  exact hrp.ne_vtableBase (hs.apart.forall hp hq hne root hrp.1 hrq.1)

end BuilderState

end Crack
