import Crack.Lang.ObjectOrder

/-!
# The order of three objects

As long as every sequence can be counted by an `int`, two calls are not decided alike only
where, at the first place where the objects differ, a buffer meets an object that is none, an
empty list one of its class that isn't, or two values meet that compare greater, or less,
both ways round.
-/
namespace Crack

namespace Builtin

variable {t : Builtin} {a b : BitVec t.width}

/-- Neither are they two values of a narrow type, nor two that are just so far apart that the
difference has no sign. -/
def Mirrors (t : Builtin) (a b : BitVec t.width) : Prop :=
  (t.Narrow → a = b) ∧
    (t = .scalar .int32 ∨ t = .scalar .int → t.place a - t.place b ≠ 2 ^ 31 ∧ t.place b - t.place a ≠ 2 ^ 31)

theorem Signs.mirrors (h : t.Signs a b) (h' : t.Signs b a) : (t.cmp b a).toInt.sign = -(t.cmp a b).toInt.sign := by
  obtain ⟨hneg, hzero⟩ := h
  obtain ⟨hneg', hzero'⟩ := h'
  rcases lt_trichotomy (t.place a) (t.place b) with hlt | heq | hgt
  · rw [Int.sign_eq_neg_one_of_neg (hneg.mpr hlt), Int.sign_eq_one_of_pos (by omega)]
    rfl
  · rw [hzero.mpr heq, hzero'.mpr heq.symm]
    rfl
  · rw [Int.sign_eq_neg_one_of_neg (hneg'.mpr hgt), Int.sign_eq_one_of_pos (by omega)]

theorem sub_mirrors (a b : BitVec 32) :
    ((b - a).zeroExtend 32).toInt.sign = -((a - b).zeroExtend 32).toInt.sign ↔
      a.toInt - b.toInt ≠ 2 ^ 31 ∧ b.toInt - a.toInt ≠ 2 ^ 31 := by
  have ha := BitVec.le_toInt a
  have ha' := BitVec.toInt_lt (x := a)
  have hb := BitVec.le_toInt b
  have hb' := BitVec.toInt_lt (x := b)
  have hwidth : ∀ x : BitVec 32, x.zeroExtend 32 = x := BitVec.setWidth_eq
  rw [hwidth, hwidth, BitVec.toInt_sub, BitVec.toInt_sub, ← Int.sign_neg]
  by_cases h : a.toInt - b.toInt = 2 ^ 31 ∨ b.toInt - a.toInt = 2 ^ 31
  · have hab : (a.toInt - b.toInt).bmod (2 ^ 32) = -2 ^ 31 := by
      rw [Int.bmod_def]
      split <;> omega
    have hba : (b.toInt - a.toInt).bmod (2 ^ 32) = -2 ^ 31 := by
      rw [Int.bmod_def]
      split <;> omega
    rw [hab, hba]
    exact iff_of_false (by decide) (by omega)
  · have hneg : (b.toInt - a.toInt).bmod (2 ^ 32) = -(a.toInt - b.toInt).bmod (2 ^ 32) := by
      rw [Int.bmod_def, Int.bmod_def]
      split <;> split <;> omega
    rw [hneg]
    exact iff_of_true rfl (by omega)

theorem floatcmp_mirrors {f : FloatFormat} (a b : BitVec f.width) :
    (floatcmp f b a).toInt.sign = -(floatcmp f a b).toInt.sign := by
  have hboth : ¬(f.lt a b ∧ f.lt b a) := fun h => by
    have hab := (FloatFormat.lt_iff.mp h.1).2.2
    have hba := (FloatFormat.lt_iff.mp h.2).2.2
    omega
  rw [floatcmp, floatcmp]
  by_cases hab : f.lt a b <;> by_cases hba : f.lt b a
  · exact absurd ⟨hab, hba⟩ hboth
  · rw [if_pos hab, if_neg hba, if_pos hab]
    decide
  · rw [if_neg hab, if_pos hba, if_pos hba]
    decide
  · rw [if_neg hab, if_neg hba, if_neg hba, if_neg hab]
    decide

theorem cmp_zero_comm (h : (t.cmp a b).toInt = 0) : (t.cmp b a).toInt = 0 := by
  have hfloat : ∀ {f : FloatFormat} {x y : BitVec f.width}, (floatcmp f x y).toInt = 0 →
      (floatcmp f y x).toInt = 0 := fun {f x y} h => by
    have hmirrors := floatcmp_mirrors x y
    rw [h] at hmirrors
    exact Int.sign_eq_zero_iff_zero.mp hmirrors
  cases t with
  | scalar t =>
    have heq := Scalar.eq_of_cmp h
    subst heq
    exact h
  | pointer name => exact (pointercmp_signs b a).2.mpr ((pointercmp_signs a b).2.mp h).symm
  | float32 => exact hfloat (f := .binary32) h
  | float64 => exact hfloat (f := .binary64) h
  | float => exact hfloat (f := .binary32) h

theorem mirrors_iff : (t.cmp b a).toInt.sign = -(t.cmp a b).toInt.sign ↔ t.Mirrors a b := by
  by_cases hnarrow : t.Narrow
  · have hother : ¬(t = .scalar .int32 ∨ t = .scalar .int) := by
      rintro (rfl | rfl) <;> exact hnarrow
    constructor
    · intro h
      refine ⟨fun _ => eq_of_narrow hnarrow ?_, fun ht => absurd ht hother⟩
      have hab := cmp_nonneg hnarrow (a := a) (b := b)
      have hba := cmp_nonneg hnarrow (a := b) (b := a)
      rcases hab.eq_or_lt with hzero | hpos
      · exact hzero.symm
      · rw [Int.sign_eq_one_of_pos hpos, Int.sign_eq_neg_one_iff_neg] at h
        omega
    · rintro ⟨h, -⟩
      rw [h hnarrow, cmp_self]
      rfl
  refine Iff.trans ?_ (and_iff_right fun h => absurd h hnarrow).symm
  by_cases hsub : t = .scalar .int32 ∨ t = .scalar .int
  · rw [forall_prop_of_true hsub]
    rcases hsub with rfl | rfl
    · exact sub_mirrors a b
    · exact sub_mirrors a b
  · refine iff_of_true ?_ fun h => absurd h hsub
    have hsigns : (∀ x : BitVec t.width, t.isNaN x = false) → (t.cmp b a).toInt.sign = -(t.cmp a b).toInt.sign :=
      fun hnumber => (signs hnarrow ⟨hnumber a, hnumber b, fun h => absurd h hsub⟩).mirrors
        (signs hnarrow ⟨hnumber b, hnumber a, fun h => absurd h hsub⟩)
    cases t with
    | scalar t => exact hsigns fun _ => rfl
    | pointer name => exact hsigns fun _ => rfl
    | float32 => exact floatcmp_mirrors (f := .binary32) a b
    | float64 => exact floatcmp_mirrors (f := .binary64) a b
    | float => exact floatcmp_mirrors (f := .binary32) a b

end Builtin

namespace Ref

open Decision

def IsBuffer : Ref → Prop
  | .buffer _ _ => True
  | _ => False

/-- The first elements that differ are told alike. -/
def FirstFair {α : Type} (decide : α → α → Decision) (fair : α → α → Prop) : (elems others : List α) → Prop
  | a :: elems, b :: others => if decide a b = .same then FirstFair decide fair elems others else fair a b
  | _, _ => True

mutual

/-- Two objects that are not the same are told alike. -/
def Fair : (a b : Ref) → Prop
  | .null, _ => True
  | .object _, b => ¬b.IsBuffer
  | .buffer _ _, b => b = .null ∨ b.IsBuffer
  | .seq _ cls elems, b =>
    match peerElems cls b with
    | none => ¬b.IsBuffer
    | some others => (cls.generic ≠ .array → (elems = [] ↔ others = [])) ∧ FairElems elems others
  | .values _ generic t elems, b =>
    match peerValues generic t b with
    | none => ¬b.IsBuffer
    | some others => (generic ≠ .array → (elems = [] ↔ others = [])) ∧ FirstFair (valueDecision t) t.Mirrors elems others

def FairElems : (elems others : List Ref) → Prop
  | a :: elems, b :: others => if a.decision b = .same then FairElems elems others else Fair a b
  | _, _ => True

end

theorem fairElems_eq : ∀ elems others : List Ref, FairElems elems others = FirstFair decision Fair elems others
  | [], [] => rfl
  | [], _ :: _ => rfl
  | _ :: _, [] => rfl
  | a :: elems, b :: others => by rw [FairElems, fairElems_eq elems others, FirstFair]

theorem isTrue_iff {α : Type} {elems : List α} (h : Counted elems) : isTrue elems ↔ elems ≠ [] := by
  rw [isTrue, Ne, Ne, not_iff_not]
  constructor
  · intro hzero
    have hlength := congrArg BitVec.toNat hzero
    rw [Counted] at h
    rw [BitVec.toNat_ofNat, Nat.mod_eq_of_lt (by omega)] at hlength
    exact List.eq_nil_of_length_eq_zero hlength
  · rintro rfl
    rfl

theorem memcmp_swap (s t : List UInt8) (n : Nat) : memcmp t s n = -memcmp s t n := by
  induction n generalizing s t with
  | zero => cases s <;> cases t <;> rfl
  | succ n ih =>
    cases s with
    | nil => cases t <;> rfl
    | cons c s =>
      cases t with
      | nil => rfl
      | cons d t =>
        rw [memcmp, memcmp]
        by_cases heq : c = d
        · rw [if_pos heq, if_pos heq.symm, ih]
        · rw [if_neg heq, if_neg (Ne.symm heq)]
          omega

theorem contentCmp_swap (s t : List UInt8) : contentCmp t s = -contentCmp s t := by
  rw [contentCmp, contentCmp]
  rcases lt_trichotomy s.length t.length with hlt | heq | hgt
  · rw [if_neg hlt.ne', if_pos hlt, if_neg hlt.ne, if_neg hlt.not_gt, memcmp_swap]
    dsimp only
    split <;> split <;> omega
  · rw [if_pos heq.symm, if_pos heq, heq, memcmp_swap]
  · rw [if_neg hgt.ne, if_neg hgt.not_gt, if_neg hgt.ne', if_pos hgt, memcmp_swap]
    dsimp only
    split <;> split <;> omega

theorem ofInt_swap {m n : Int} : ofInt n = (ofInt m).swap ↔ n.sign = -m.sign := by
  have hsign : ∀ {d e : Decision}, d ∈ [.same, .less, .greater] → e ∈ [.same, .less, .greater] →
      (d = e ↔ d.sign = e.sign) := by
    intro d e hd he
    cases d <;> cases e <;> simp_all [sign]
  have hmem : ∀ k : Int, ofInt k ∈ [.same, .less, .greater] := fun k => by
    rw [ofInt]
    split
    · simp
    · split <;> simp
  have hswap : ∀ k : Int, (ofInt k).swap = ofInt (-k) := fun k => by
    rw [ofInt, ofInt]
    split
    · rw [if_neg (by omega), if_neg (by omega)]
      rfl
    · split
      · rw [if_neg (by omega), if_pos (by omega)]
        rfl
      · rw [if_pos (by omega)]
        rfl
  rw [hswap, hsign (hmem n) (hmem (-m)), sign_ofInt, sign_ofInt, Int.sign_neg]

section

variable {α : Type} {generic : SeqKind} {f : α → α → Decision} {elems others : List α}

theorem walk_less (h : elems = []) (h' : others ≠ []) : walk f elems others = .less := by
  subst h
  cases others with
  | nil => exact absurd rfl h'
  | cons b others => rfl

theorem walk_same_comm (h : ∀ a ∈ elems, ∀ b ∈ others, f a b = .same → f b a = .same)
    (hsame : walk f elems others = .same) : walk f others elems = .same := by
  induction elems generalizing others with
  | nil =>
    cases others with
    | nil => rfl
    | cons b others => cases hsame
  | cons a elems ih =>
    cases others with
    | nil => cases hsame
    | cons b others =>
      rw [walk, andThen_eq_same] at hsame
      refine andThen_eq_same.mpr ⟨h a List.mem_cons_self b List.mem_cons_self hsame.1, ih ?_ hsame.2⟩
      exact fun x hx y hy => h x (List.mem_cons_of_mem _ hx) y (List.mem_cons_of_mem _ hy)

/-- What is told alike of two lists, once it is known for their elements. -/
theorem walk_alike {fair : α → α → Prop} (hcomm : ∀ a ∈ elems, ∀ b ∈ others, f a b = .same ↔ f b a = .same)
    (h : ∀ a ∈ elems, ∀ b ∈ others, f a b ≠ .same → (f b a = (f a b).swap ↔ fair a b)) :
    walk f others elems = (walk f elems others).swap ↔ FirstFair f fair elems others := by
  induction elems generalizing others with
  | nil => cases others <;> exact iff_of_true rfl trivial
  | cons a elems ih =>
    cases others with
    | nil => exact iff_of_true rfl trivial
    | cons b others =>
      have hfirst := hcomm a List.mem_cons_self b List.mem_cons_self
      rw [walk, walk, FirstFair]
      by_cases hsame : f a b = .same
      · rw [if_pos hsame, hsame, hfirst.mp hsame]
        exact ih (fun x hx y hy => hcomm x (List.mem_cons_of_mem _ hx) y (List.mem_cons_of_mem _ hy))
          fun x hx y hy => h x (List.mem_cons_of_mem _ hx) y (List.mem_cons_of_mem _ hy)
      · rw [if_neg hsame, andThen_of_ne hsame, andThen_of_ne (mt hfirst.mpr hsame)]
        exact h a List.mem_cons_self b List.mem_cons_self hsame

/-- And of two sequences. -/
theorem seqDecision_alike (h : Counted elems) (h' : Counted others) (p q : Addr) :
    seqDecision generic others (some elems) (walk f others) (.address q p) =
        (seqDecision generic elems (some others) (walk f elems) (.address p q)).swap ↔
      (generic ≠ .array → (elems = [] ↔ others = [])) ∧ walk f others elems = (walk f elems others).swap := by
  rw [seqDecision, seqDecision]
  by_cases harray : generic = .array
  · rw [if_pos harray, if_pos harray, if_pos h, if_pos h']
    exact ⟨fun heq => ⟨fun hne => absurd harray hne, heq⟩, fun hand => hand.2⟩
  rw [if_neg harray, if_neg harray]
  simp only [isTrue_iff h, isTrue_iff h']
  by_cases helems : elems = [] <;> by_cases hothers : others = []
  · rw [if_neg (not_not.mpr helems), if_neg (not_not.mpr hothers), helems, hothers]
    exact iff_of_true rfl ⟨fun _ => Iff.rfl, rfl⟩
  · rw [if_neg (not_not.mpr helems), if_pos hothers, walk_less helems hothers]
    exact iff_of_false Decision.noConfusion fun hand => hothers ((hand.1 harray).mp helems)
  · rw [if_pos helems, if_neg (not_not.mpr hothers), walk_less hothers helems]
    exact iff_of_false Decision.noConfusion fun hand => helems ((hand.1 harray).mpr hothers)
  · rw [if_pos helems, if_pos hothers]
    exact ⟨fun heq => ⟨fun _ => iff_of_false helems hothers, heq⟩, fun hand => hand.2⟩

/-- A sequence that is the same as another: the other call walks too. -/
theorem seqDecision_same_comm (h : Counted elems) (h' : Counted others) {d d' : Decision} (hd : d ≠ .same)
    (hcomm : ∀ a ∈ elems, ∀ b ∈ others, f a b = .same → f b a = .same)
    (hsame : seqDecision generic elems (some others) (walk f elems) d = .same) :
    seqDecision generic others (some elems) (walk f others) d' = .same := by
  rw [seqDecision] at hsame ⊢
  by_cases harray : generic = .array
  · rw [if_pos harray, if_pos h] at hsame
    rw [if_pos harray, if_pos h']
    exact walk_same_comm hcomm hsame
  · rw [if_neg harray] at hsame ⊢
    by_cases htrue : isTrue others
    · rw [if_pos htrue] at hsame
      have htrue' : isTrue elems := (isTrue_iff h).mpr fun helems => by
        rw [walk_less helems ((isTrue_iff h').mp htrue)] at hsame
        cases hsame
      rw [if_pos htrue']
      exact walk_same_comm hcomm hsame
    · rw [if_neg htrue] at hsame
      exact absurd hsame hd

end

theorem valueDecision_same_comm {t : Builtin} {v w : BitVec t.width} (h : valueDecision t v w = .same) :
    valueDecision t w v = .same := ofInt_eq_same.mpr (Builtin.cmp_zero_comm (ofInt_eq_same.mp h))

variable {C : List Ref}

theorem decision_same_comm (hC : ∀ x ∈ C, x.IsCounted) (a b : Ref) (ha : a.parts ⊆ C) (hb : b.parts ⊆ C)
    (hsame : a.decision b = .same) : b.decision a = .same := by
  induction a using byElems generalizing b with | ofElems a ih =>
  by_cases h : a.uintz = b.uintz
  · exact decision_of_is h.symm
  rw [decision_of_ne h] at hsame
  rw [decision_of_ne (Ne.symm h)]
  have hcounted := hC a (ha (mem_parts_self a))
  have hcounted' := hC b (hb (mem_parts_self b))
  cases a with
  | null => cases hsame
  | object p => exact absurd hsame (beside_ne_same p b)
  | buffer p s =>
    cases b with
    | buffer q t =>
      have hzero := ofInt_eq_same.mp hsame
      refine ofInt_eq_same.mpr ?_
      rw [contentCmp_swap, hzero]
      rfl
    | _ => cases hsame
  | seq p cls elems =>
    rw [differ, funext (decisions_eq elems)] at hsame
    obtain ⟨others, hpeer, -⟩ := peer_of_same (fun _ => hcounted) hsame
    obtain ⟨q, rfl⟩ := peerElems_eq_some.mp hpeer
    rw [hpeer] at hsame
    rw [differ, peerElems_eq_some.mpr ⟨p, rfl⟩, funext (decisions_eq others)]
    exact seqDecision_same_comm hcounted hcounted' (beside_ne_same p _)
      (fun x hx y hy => ih x hx y (parts_of_elem ha hx) (parts_of_elem hb hy)) hsame
  | values p generic t elems =>
    rw [differ] at hsame
    obtain ⟨others, hpeer, -⟩ := peer_of_same (fun _ => hcounted) hsame
    obtain ⟨q, rfl⟩ := peerValues_eq_some.mp hpeer
    rw [hpeer] at hsame
    rw [differ, peerValues_eq_some.mpr ⟨p, rfl⟩]
    exact seqDecision_same_comm hcounted hcounted' (beside_ne_same p _) (fun _ _ _ _ => valueDecision_same_comm) hsame

/-- Two objects of which neither knows the class of the other. -/
theorem beside_alike {a b : Ref} {p : Addr} (ha : ∀ q, beside q a = .address q p)
    (hbuffer : ∀ s, bufferDecision s a = .greater) (helems : ∀ q cls others, b = seq q cls others → peerElems cls a = none)
    (hvalues : ∀ q generic t others, b = values q generic t others → peerValues generic t a = none) :
    b.differ a = (beside p b).swap ↔ ¬b.IsBuffer := by
  cases b with
  | null => exact iff_of_true rfl id
  | object q => exact iff_of_true (ha q) id
  | buffer q t =>
    rw [differ, hbuffer]
    exact iff_of_false Decision.noConfusion fun h => h trivial
  | seq q cls others =>
    rw [differ, helems q cls others rfl]
    exact iff_of_true (ha q) id
  | values q generic t others =>
    rw [differ, hvalues q generic t others rfl]
    exact iff_of_true (ha q) id

theorem fair_iff (hC : ∀ x ∈ C, x.IsCounted) (a b : Ref) (ha : a.parts ⊆ C) (hb : b.parts ⊆ C)
    (hne : a.uintz ≠ b.uintz) : b.differ a = (a.differ b).swap ↔ Fair a b := by
  induction a using byElems generalizing b with | ofElems a ih =>
  have hcounted := hC a (ha (mem_parts_self a))
  have hcounted' := hC b (hb (mem_parts_self b))
  cases a with
  | null =>
    cases b with
    | null => exact absurd rfl hne
    | _ => exact iff_of_true rfl trivial
  | object p =>
    cases b with
    | buffer q t => exact iff_of_false Decision.noConfusion fun h => h trivial
    | _ => exact iff_of_true rfl id
  | buffer p s =>
    cases b with
    | null => exact iff_of_true rfl (.inl rfl)
    | buffer q t =>
      refine iff_of_true (ofInt_swap.mpr ?_) (.inr trivial)
      rw [contentCmp_swap, Int.sign_neg]
    | _ => exact iff_of_false Decision.noConfusion fun h => h.elim Ref.noConfusion id
  | seq p cls elems =>
    rw [Fair]
    cases hpeer : peerElems cls b with
    | some others =>
      obtain ⟨q, rfl⟩ := peerElems_eq_some.mp hpeer
      rw [differ, differ, hpeer, peerElems_eq_some.mpr ⟨p, rfl⟩, funext (decisions_eq elems), funext (decisions_eq others)]
      dsimp only
      rw [fairElems_eq]
      refine (seqDecision_alike hcounted hcounted' p q).trans (and_congr_right fun _ => walk_alike ?_ ?_)
      · exact fun x hx y hy => ⟨decision_same_comm hC x y (parts_of_elem ha hx) (parts_of_elem hb hy),
          decision_same_comm hC y x (parts_of_elem hb hy) (parts_of_elem ha hx)⟩
      · intro x hx y hy hdiffer
        have hxy : x.uintz ≠ y.uintz := fun h => hdiffer (decision_of_is h)
        rw [decision_of_ne hxy, decision_of_ne (Ne.symm hxy)]
        exact ih x hx y (parts_of_elem ha hx) (parts_of_elem hb hy) hxy
    | none =>
      rw [differ, hpeer]
      refine beside_alike (fun _ => rfl) (fun _ => rfl) ?_ fun _ _ _ _ _ => rfl
      rintro q otherCls others rfl
      refine if_neg fun hcls => ?_
      rw [hcls, peerElems_eq_some.mpr ⟨q, rfl⟩] at hpeer
      cases hpeer
  | values p generic t elems =>
    rw [Fair]
    cases hpeer : peerValues generic t b with
    | some others =>
      obtain ⟨q, rfl⟩ := peerValues_eq_some.mp hpeer
      rw [differ, differ, hpeer, peerValues_eq_some.mpr ⟨p, rfl⟩]
      refine (seqDecision_alike hcounted hcounted' p q).trans (and_congr_right fun _ => walk_alike ?_ ?_)
      · exact fun v _ w _ => ⟨valueDecision_same_comm, valueDecision_same_comm⟩
      · exact fun v _ w _ _ => ofInt_swap.trans Builtin.mirrors_iff
    | none =>
      rw [differ, hpeer]
      refine beside_alike (fun _ => rfl) (fun _ => rfl) (fun _ _ _ _ => rfl) ?_
      rintro q otherGeneric u others rfl
      refine dif_neg fun hcls => ?_
      obtain ⟨rfl, rfl⟩ := hcls
      rw [peerValues_eq_some.mpr ⟨q, rfl⟩] at hpeer
      cases hpeer

/-- The first place where two objects differ is fair, or, where a sequence is reached that
can't be counted, what decides for one call decides for the other. -/
def ToldAlike (parts : List Ref) (a b : Ref) : Prop :=
  if ∀ x ∈ parts, x.IsCounted then a.uintz = b.uintz ∨ Fair a b else Alike a b

theorem toldAlike_iff {a b : Ref} (ha : a.parts ⊆ C) (hb : b.parts ⊆ C) : ToldAlike C a b ↔ Alike a b := by
  rw [ToldAlike]
  split
  · next hC =>
    rw [Alike]
    by_cases h : a.uintz = b.uintz
    · rw [decision_of_is h, decision_of_is h.symm]
      exact iff_of_true (.inl h) rfl
    · rw [decision_of_ne h, decision_of_ne (Ne.symm h)]
      exact (or_iff_right h).trans (fair_iff hC a b ha hb h).symm
  · exact Iff.rfl

end Ref

open Ref Decision

/-- Three objects are ordered wherever they lie, provided that every two of them are told
alike, and that no three decisions lead round. -/
theorem cmp_orders_iff {a b c : Ref} (hco : Coherent [a, b, c]) (ha : a ≠ .null) (hb : b ≠ .null) (hc : c ≠ .null) :
    (∀ σ : Equiv.Perm Addr, Ordered [a.move σ, b.move σ, c.move σ]) ↔
      (∀ x ∈ [a, b, c], ∀ y ∈ [a, b, c], ToldAlike (partsElems [a, b, c]) x y) ∧
        ∀ x ∈ [a, b, c], ∀ y ∈ [a, b, c], ∀ z ∈ [a, b, c],
          ¬GoesRound [a, b, c] [x.decision y, y.decision z, z.decision x] := by
  refine (ordered_iff (by simp [ha.symm, hb.symm, hc.symm]) hco).trans (and_congr_left fun _ => ?_)
  exact forall₂_congr fun x hx => forall₂_congr fun y hy => (toldAlike_iff (parts_subset hx) (parts_subset hy)).symm

/-- A name, which they share, and numbers. -/
def named (addr numbers : Addr) (elems : List (BitVec 32)) : Ref :=
  .seq addr ⟨.array, "Object"⟩ [.buffer ⟨16, by decide⟩ [97], .values numbers .list (.scalar .int) elems]

/-- Two objects with numbers and one without. -/
def namedNumbers : List Ref :=
  [named ⟨128, by decide⟩ ⟨144, by decide⟩ [1, 5], named ⟨160, by decide⟩ ⟨176, by decide⟩ [1, -7],
    .seq ⟨192, by decide⟩ ⟨.array, "Object"⟩ [.buffer ⟨16, by decide⟩ [97]]]

theorem namedNumbers_ordered :
    Coherent namedNumbers ∧ ∀ σ : Equiv.Perm Addr, Ordered (namedNumbers.map (move σ)) := by
  have hco : Coherent namedNumbers := by
    simp [Coherent, namedNumbers, named, partsElems, parts, uintz]
  have hregular : Regular (partsElems namedNumbers) := by decide
  have halike : ∀ x ∈ namedNumbers, ∀ y ∈ namedNumbers, Alike x y := by decide
  have htold : ∀ x ∈ namedNumbers, ∀ y ∈ namedNumbers, ToldAlike (partsElems namedNumbers) x y := fun x hx y hy =>
    (toldAlike_iff (parts_subset hx) (parts_subset hy)).mpr (halike x hx y hy)
  have hcontents : ∀ x ∈ namedNumbers, ∀ y ∈ namedNumbers, x.decision y ∈ [.same, .less, .greater] := by decide
  refine ⟨hco, (cmp_orders_iff hco Ref.noConfusion Ref.noConfusion Ref.noConfusion).mpr ⟨htold, ?_⟩⟩
  intro x hx y hy z hz h
  rcases h.uneven with ⟨p, q, hd⟩ | ⟨-, hnot⟩
  · have hxy := hcontents x hx y hy
    have hyz := hcontents y hy z hz
    have hzx := hcontents z hz x hx
    simp only [List.mem_cons, List.not_mem_nil, or_false] at hd
    rcases hd with hd | hd | hd
    · simp [← hd] at hxy
    · simp [← hd] at hyz
    · simp [← hd] at hzx
  · exact hnot hregular

/-- A buffer is greater than an object that lies behind it, and the object is greater, too. -/
theorem cmp_of_buffer_and_object :
    Coherent [.buffer ⟨16, by decide⟩ [97], .object ⟨32, by decide⟩, .object ⟨48, by decide⟩] ∧
      ¬Ordered [.buffer ⟨16, by decide⟩ [97], .object ⟨32, by decide⟩, .object ⟨48, by decide⟩] := by
  refine ⟨?_, fun h => ?_⟩
  · simp [Coherent, partsElems, parts, uintz]
  · exact absurd (h.mirror (.buffer ⟨16, by decide⟩ [97]) (by simp) (.object ⟨32, by decide⟩) (by simp)) (by decide)

end Crack
