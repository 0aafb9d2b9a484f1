import Crack.Lang.ObjectDecisions
import Crack.Lib.Rearrange

/-!
# The order of objects

What decides by contents alone is a total preorder, as long as every value is a number, no
two are too far apart for the difference that is returned, and every size can be counted.
Comparisons by address join it badly: where two of three objects are told apart by their
contents, the third one may lie between them. And the call one way round may look at what
the other does not.
-/
namespace Crack

namespace Decision

/-- The contents decide that the first object isn't the greater one. -/
def UpTo : Decision → Prop
  | .same | .less => True
  | _ => False

variable {d e : Decision}

theorem upTo_ofInt {n : Int} : (ofInt n).UpTo ↔ n ≤ 0 := by
  rcases lt_trichotomy n 0 with h | rfl | h
  · rw [ofInt, if_pos h]
    exact iff_of_true trivial h.le
  · exact iff_of_true trivial le_rfl
  · rw [ofInt, if_neg h.not_gt, if_neg h.ne']
    exact iff_of_false id h.not_ge

theorem ofInt_trans {x y z : Int} (hx : x ≤ 0) (hy : y ≤ 0) (hz : z ≤ 0 ∧ (z = 0 ↔ x = 0 ∧ y = 0)) :
    ofInt z = (ofInt x).andThen (ofInt y) := by
  by_cases h : x = 0
  · rw [ofInt_eq_same.mpr h, same_andThen]
    by_cases h' : y = 0
    · rw [h', hz.2.mpr ⟨h, h'⟩]
    · have : z ≠ 0 := fun hzero => h' (hz.2.mp hzero).2
      rw [ofInt, ofInt, if_pos (by omega), if_pos (by omega)]
  · have : z ≠ 0 := fun hzero => h (hz.2.mp hzero).1
    rw [andThen_of_ne (mt ofInt_eq_same.mp h), ofInt, ofInt, if_pos (by omega), if_pos (by omega)]

theorem UpTo.andThen (hd : d.UpTo) (he : e.UpTo) : (d.andThen e).UpTo := by
  cases d with
  | same => exact he
  | _ => exact hd

/-- The first elements of lists that the contents put in order are in order. -/
theorem UpTo.left (h : (d.andThen e).UpTo) : d.UpTo := by
  cases d with
  | same => trivial
  | _ => exact h

theorem UpTo.right (h : (d.andThen e).UpTo) (hd : d = .same) : e.UpTo := by
  rwa [hd] at h

section

variable {α : Type} {f : α → α → Decision} {elems others ends : List α}

/-- Two lists that are in order both ways round are the same, if that holds of their elements. -/
theorem walk_antisymm (h : ∀ a ∈ elems, ∀ b ∈ others, (f a b).UpTo → (f b a).UpTo → f a b = .same ∧ f b a = .same)
    (hle : (walk f elems others).UpTo) (hge : (walk f others elems).UpTo) :
    walk f elems others = .same ∧ walk f others elems = .same := by
  induction elems generalizing others with
  | nil =>
    cases others with
    | nil => exact ⟨rfl, rfl⟩
    | cons b others => exact absurd hge id
  | cons a elems ih =>
    cases others with
    | nil => exact absurd hle id
    | cons b others =>
      rw [walk] at hle hge
      obtain ⟨hsame, hsame'⟩ := h a List.mem_cons_self b List.mem_cons_self hle.left hge.left
      obtain ⟨hrest, hrest'⟩ := ih (fun x hx y hy => h x (List.mem_cons_of_mem _ hx) y (List.mem_cons_of_mem _ hy))
        (hle.right hsame) (hge.right hsame')
      exact ⟨andThen_eq_same.mpr ⟨hsame, hrest⟩, andThen_eq_same.mpr ⟨hsame', hrest'⟩⟩

/-- And three lists in order go together. -/
theorem walk_trans (h : ∀ a ∈ elems, ∀ b ∈ others, ∀ c ∈ ends, (f a b).UpTo → (f b c).UpTo →
      f a c = (f a b).andThen (f b c)) (hab : (walk f elems others).UpTo) (hbc : (walk f others ends).UpTo) :
    walk f elems ends = (walk f elems others).andThen (walk f others ends) := by
  induction elems generalizing others ends with
  | nil =>
    cases others with
    | nil => rfl
    | cons b others =>
      cases ends with
      | nil => exact absurd hbc id
      | cons c ends => rfl
  | cons a elems ih =>
    cases others with
    | nil => exact absurd hab id
    | cons b others =>
      cases ends with
      | nil => exact absurd hbc id
      | cons c ends =>
        have hrest := ih fun x hx y hy z hz =>
          h x (List.mem_cons_of_mem _ hx) y (List.mem_cons_of_mem _ hy) z (List.mem_cons_of_mem _ hz)
        have hfirst := h a List.mem_cons_self b List.mem_cons_self c List.mem_cons_self
        rw [walk] at hab hbc
        rw [walk, walk, walk, hfirst hab.left hbc.left]
        cases hd : f a b with
        | same =>
          rw [hd] at hab
          cases hd' : f b c with
          | same =>
            rw [hd'] at hbc
            exact hrest hab hbc
          | less =>
            rw [same_andThen, same_andThen]
            cases hw : walk f elems others with
            | same => rfl
            | less => rfl
            | _ =>
              rw [same_andThen, hw] at hab
              exact absurd hab id
          | _ =>
            rw [hd'] at hbc
            exact absurd hbc id
        | less => rfl
        | _ =>
          rw [hd] at hab
          exact absurd hab id

end

end Decision

namespace Ref

open Decision

/-- The comparison is a total preorder of the objects. -/
structure Ordered (objects : List Ref) : Prop where
  mirror : ∀ a ∈ objects, ∀ b ∈ objects, (b.cmp a).sign = -(a.cmp b).sign
  trans : ∀ a ∈ objects, ∀ b ∈ objects, ∀ c ∈ objects, a.cmp b ≤ 0 → b.cmp c ≤ 0 → a.cmp c ≤ 0

/-- What decides for one call decides for the other. -/
def Alike (a b : Ref) : Prop := b.decision a = (a.decision b).swap

instance (a b : Ref) : Decidable (Alike a b) := inferInstanceAs (Decidable (_ = _))

def IsCounted : Ref → Prop
  | .seq _ _ elems => Counted elems
  | .values _ _ _ elems => Counted elems
  | _ => True

instance : ∀ a : Ref, Decidable a.IsCounted
  | .null | .object _ | .buffer _ _ => .isTrue trivial
  | .seq _ _ elems => inferInstanceAs (Decidable (Counted elems))
  | .values _ _ _ elems => inferInstanceAs (Decidable (Counted elems))

/-- The values that two sequences of one type hold are comparable. -/
def AreComparable : Ref → Ref → Prop
  | .values _ _ t elems, .values _ _ u others =>
    ∀ h : u = t, ∀ v ∈ elems, ∀ w ∈ others, t.Comparable v (h ▸ w)
  | _, _ => True

instance : ∀ a b : Ref, Decidable (a.AreComparable b)
  | .null, _ | .object _, _ | .buffer _ _, _ | .seq _ _ _, _ => .isTrue trivial
  | .values _ _ _ _, .null | .values _ _ _ _, .object _ | .values _ _ _ _, .buffer _ _ => .isTrue trivial
  | .values _ _ _ _, .seq _ _ _ => .isTrue trivial
  | .values _ _ t elems, .values _ _ u others =>
    if h : u = t then
      decidable_of_iff (elems.all fun v => others.all fun w => t.Comparable v (h ▸ w)) (by simp [AreComparable, h])
    else .isTrue fun heq => absurd heq h

/-- Every sequence can be counted by an `int`, and all values of one type are comparable. -/
structure Regular (parts : List Ref) : Prop where
  counted : ∀ x ∈ parts, x.IsCounted
  comparable : ∀ x ∈ parts, ∀ y ∈ parts, x.AreComparable y

theorem regular_iff (parts : List Ref) : Regular parts ↔
    parts.all (fun x => x.IsCounted) ∧ parts.all fun x => parts.all fun y => x.AreComparable y := by
  simp only [List.all_eq_true, decide_eq_true_eq]
  exact ⟨fun h => ⟨h.counted, h.comparable⟩, fun h => ⟨h.1, h.2⟩⟩

instance (parts : List Ref) : Decidable (Regular parts) := decidable_of_iff _ (regular_iff parts).symm

/-- Decisions that lead round, each from an object to one that may be greater. Where
addresses decide, the objects can lie so that all of them go up. -/
structure GoesRound (objects : List Ref) (ds : List Decision) : Prop where
  not_greater : .greater ∉ ds
  uneven : (∃ p q, .address p q ∈ ds) ∨ .less ∈ ds ∧ ¬Regular (partsElems objects)
  noCycle : NoCycle fun p q => .address p q ∈ ds

theorem contentCmp_trans {s t u : List UInt8} (hst : contentCmp s t ≤ 0) (htu : contentCmp t u ≤ 0) :
    contentCmp s u ≤ 0 ∧ (contentCmp s u = 0 ↔ contentCmp s t = 0 ∧ contentCmp t u = 0) := by
  induction s generalizing t u with
  | nil =>
    cases t with
    | nil => exact ⟨htu, by simp [contentCmp, memcmp]⟩
    | cons d t =>
      cases u with
      | nil => exact absurd htu (by rw [contentCmp_cons_nil]; decide)
      | cons e u => simp [contentCmp_nil_cons]
  | cons c s ih =>
    cases t with
    | nil => exact absurd hst (by rw [contentCmp_cons_nil]; decide)
    | cons d t =>
      cases u with
      | nil => exact absurd htu (by rw [contentCmp_cons_nil]; decide)
      | cons e u =>
        rw [contentCmp_cons] at hst htu ⊢
        rw [contentCmp_cons, contentCmp_cons]
        have hne : ∀ {x y : UInt8}, x ≠ y → x.toNat ≠ y.toNat := mt UInt8.toNat_inj.mp
        by_cases h1 : c = d
        · subst h1
          rw [if_pos rfl] at hst
          rw [if_pos rfl]
          by_cases h2 : c = e
          · simp only [if_pos h2] at htu ⊢
            exact ih hst htu
          · simp only [if_neg h2] at htu ⊢
            have := hne h2
            omega
        · rw [if_neg h1] at hst ⊢
          have := hne h1
          by_cases h2 : d = e
          · subst h2
            rw [if_neg h1]
            omega
          · rw [if_neg h2] at htu ⊢
            have := hne h2
            have h3 : c ≠ e := fun heq => by
              rw [heq] at hst
              omega
            rw [if_neg h3]
            omega

theorem contentCmp_self (s : List UInt8) : contentCmp s s = 0 := by
  induction s with
  | nil => rfl
  | cons c s ih => rw [contentCmp_cons, if_pos rfl, ih]

theorem beside_not_upTo (p : Addr) (b : Ref) : ¬(beside p b).UpTo := by
  cases b <;> exact id

variable {generic : SeqKind} {C : List Ref}

/-- A sequence is in order only with one of its class. -/
theorem peer_of_upTo {α : Type} {elems : List α} {peer : Option (List α)} {walk : List α → Decision} {p : Addr}
    {b : Ref} (h : (seqDecision generic elems peer walk (beside p b)).UpTo) :
    ∃ others, peer = some others ∧ (generic ≠ .array → isTrue others) := by
  rw [seqDecision.eq_def] at h
  cases peer with
  | none => exact absurd h (beside_not_upTo p b)
  | some others =>
    refine ⟨others, rfl, fun hlist => ?_⟩
    dsimp only at h
    rw [if_neg hlist] at h
    by_contra hempty
    rw [if_neg hempty] at h
    exact beside_not_upTo p b h

theorem seqDecision_walk {α : Type} {elems others : List α} {walk : List α → Decision} (hcounted : Counted elems)
    (htrue : generic ≠ .array → isTrue others) (d : Decision) :
    seqDecision generic elems (some others) walk d = walk others := by
  rw [seqDecision]
  by_cases harray : generic = .array
  · rw [if_pos harray, if_pos hcounted]
  · rw [if_neg harray, if_pos (htrue harray)]

section

variable {p q : Addr} {b : Ref} {cls : SeqClass} {t : Builtin}

theorem seq_of_upTo {elems : List Ref} (h : ((seq p cls elems).differ b).UpTo) :
    ∃ q others, b = seq q cls others ∧ (cls.generic ≠ .array → isTrue others) := by
  obtain ⟨others, hpeer, htrue⟩ := peer_of_upTo h
  obtain ⟨q, rfl⟩ := peerElems_eq_some.mp hpeer
  exact ⟨q, others, rfl, htrue⟩

theorem differ_seq {elems others : List Ref} (hcounted : Counted elems)
    (htrue : cls.generic ≠ .array → isTrue others) :
    (seq p cls elems).differ (seq q cls others) = walk decision elems others := by
  rw [differ, peerElems_eq_some.mpr ⟨q, rfl⟩, seqDecision_walk hcounted htrue, decisions_eq]

theorem values_of_upTo {elems : List (BitVec t.width)} (h : ((values p generic t elems).differ b).UpTo) :
    ∃ q others, b = values q generic t others ∧ (generic ≠ .array → isTrue others) := by
  obtain ⟨others, hpeer, htrue⟩ := peer_of_upTo h
  obtain ⟨q, rfl⟩ := peerValues_eq_some.mp hpeer
  exact ⟨q, others, rfl, htrue⟩

theorem differ_values {elems others : List (BitVec t.width)} (hcounted : Counted elems)
    (htrue : generic ≠ .array → isTrue others) :
    (values p generic t elems).differ (values q generic t others) = walk (valueDecision t) elems others := by
  rw [differ, peerValues_eq_some.mpr ⟨q, rfl⟩, seqDecision_walk hcounted htrue]

end

theorem Regular.values (hC : Regular C) {p q : Addr} {generic generic' : SeqKind} {t : Builtin}
    {elems others : List (BitVec t.width)} (ha : values p generic t elems ∈ C) (hb : values q generic' t others ∈ C) :
    ∀ v ∈ elems, ∀ w ∈ others, t.Comparable v w := hC.comparable _ ha _ hb rfl

theorem comparable_self {t : Builtin} {v w : BitVec t.width} (h : t.Comparable v w) : t.Comparable v v :=
  ⟨h.1, h.1, fun _ => by omega⟩

theorem comparable_comm {t : Builtin} {v w : BitVec t.width} (h : t.Comparable v w) : t.Comparable w v :=
  ⟨h.2.1, h.1, fun ht => (h.2.2 ht).symm⟩

theorem valueDecision_antisymm {t : Builtin} {v w : BitVec t.width} (hvw : t.Comparable v w)
    (h : (valueDecision t v w).UpTo) (h' : (valueDecision t w v).UpTo) :
    valueDecision t v w = .same ∧ valueDecision t w v = .same := by
  have htrans := Builtin.cmp_trans hvw (comparable_comm hvw) (comparable_self hvw) (upTo_ofInt.mp h) (upTo_ofInt.mp h')
  rw [Builtin.cmp_self] at htrans
  exact (htrans.2.mp rfl).imp ofInt_eq_same.mpr ofInt_eq_same.mpr

/-- Two objects that the contents put in order both ways round are the same. -/
theorem decision_antisymm (hC : Regular C) (a b : Ref) (ha : a.parts ⊆ C) (hb : b.parts ⊆ C)
    (hab : (a.decision b).UpTo) (hba : (b.decision a).UpTo) : a.decision b = .same ∧ b.decision a = .same := by
  induction a using byElems generalizing b with | ofElems a ih =>
  by_cases h : a.uintz = b.uintz
  · exact ⟨decision_of_is h, decision_of_is h.symm⟩
  rw [decision_of_ne h] at hab ⊢
  rw [decision_of_ne (Ne.symm h)] at hba ⊢
  have haC := ha (mem_parts_self a)
  have hbC := hb (mem_parts_self b)
  have hcounted := hC.counted a haC
  have hcounted' := hC.counted b hbC
  cases a with
  | null =>
    cases b with
    | null => exact absurd rfl h
    | _ => exact absurd hba id
  | object p => exact absurd hab (beside_not_upTo p b)
  | buffer p s =>
    cases b with
    | buffer q t =>
      have hzero := contentCmp_trans (upTo_ofInt.mp hab) (upTo_ofInt.mp hba)
      rw [contentCmp_self] at hzero
      exact (hzero.2.mp rfl).imp ofInt_eq_same.mpr ofInt_eq_same.mpr
    | _ => exact absurd hab id
  | seq p cls elems =>
    obtain ⟨q, others, rfl, htrue⟩ := seq_of_upTo hab
    obtain ⟨_, _, ⟨⟩, htrue'⟩ := seq_of_upTo hba
    rw [differ_seq hcounted htrue] at hab ⊢
    rw [differ_seq hcounted' htrue'] at hba ⊢
    exact walk_antisymm (fun x hx y hy => ih x hx y (parts_of_elem ha hx) (parts_of_elem hb hy)) hab hba
  | values p generic t elems =>
    obtain ⟨q, others, rfl, htrue⟩ := values_of_upTo hab
    obtain ⟨_, _, ⟨⟩, htrue'⟩ := values_of_upTo hba
    rw [differ_values hcounted htrue] at hab ⊢
    rw [differ_values hcounted' htrue'] at hba ⊢
    exact walk_antisymm (fun v hv w hw => valueDecision_antisymm (hC.values haC hbC v hv w hw)) hab hba

/-- Where the contents decide that one object isn't greater than the next one, they decide
for the ends. -/
theorem decision_trans (hinj : ∀ a ∈ C, ∀ b ∈ C, a.uintz = b.uintz → a = b) (hC : Regular C) (a b c : Ref)
    (ha : a.parts ⊆ C) (hb : b.parts ⊆ C) (hc : c.parts ⊆ C) (hab : (a.decision b).UpTo) (hbc : (b.decision c).UpTo) :
    a.decision c = (a.decision b).andThen (b.decision c) := by
  induction a using byElems generalizing b c with | ofElems a ih =>
  have haC := ha (mem_parts_self a)
  have hbC := hb (mem_parts_self b)
  have hcC := hc (mem_parts_self c)
  by_cases h1 : a.uintz = b.uintz
  · rw [hinj a haC b hbC h1, decision_of_is rfl, same_andThen]
  by_cases h2 : b.uintz = c.uintz
  · rw [← hinj b hbC c hcC h2, decision_of_is rfl]
    cases a.decision b <;> rfl
  by_cases h3 : a.uintz = c.uintz
  · rw [← hinj a haC c hcC h3] at hbc ⊢
    obtain ⟨hsame, hsame'⟩ := decision_antisymm hC a b ha hb hab hbc
    rw [hsame, hsame', decision_of_is rfl]
    rfl
  rw [decision_of_ne h1] at hab ⊢
  rw [decision_of_ne h2] at hbc ⊢
  rw [decision_of_ne h3]
  have hcounted := hC.counted a haC
  have hcounted' := hC.counted b hbC
  cases a with
  | null =>
    cases c with
    | null => exact absurd rfl h3
    | _ => rfl
  | object p => exact absurd hab (beside_not_upTo p b)
  | buffer p s =>
    cases b with
    | buffer q t =>
      cases c with
      | buffer r u =>
        have hst := upTo_ofInt.mp hab
        have htu := upTo_ofInt.mp hbc
        exact ofInt_trans hst htu (contentCmp_trans hst htu)
      | _ => exact absurd hbc id
    | _ => exact absurd hab id
  | seq p cls elems =>
    obtain ⟨q, others, rfl, htrue⟩ := seq_of_upTo hab
    obtain ⟨r, ends, rfl, htrue'⟩ := seq_of_upTo hbc
    rw [differ_seq hcounted htrue] at hab ⊢
    rw [differ_seq hcounted' htrue'] at hbc ⊢
    rw [differ_seq hcounted htrue']
    exact walk_trans (fun x hx y hy z hz =>
      ih x hx y z (parts_of_elem ha hx) (parts_of_elem hb hy) (parts_of_elem hc hz)) hab hbc
  | values p generic t elems =>
    obtain ⟨q, others, rfl, htrue⟩ := values_of_upTo hab
    obtain ⟨r, ends, rfl, htrue'⟩ := values_of_upTo hbc
    rw [differ_values hcounted htrue] at hab ⊢
    rw [differ_values hcounted' htrue'] at hbc ⊢
    rw [differ_values hcounted htrue']
    refine walk_trans (fun u hu v hv w hw huv hvw => ?_) hab hbc
    have huv := upTo_ofInt.mp huv
    have hvw := upTo_ofInt.mp hvw
    exact ofInt_trans huv hvw (Builtin.cmp_trans (hC.values haC hbC u hu v hv) (hC.values hbC hcC v hv w hw)
      (hC.values haC hcC u hu w hw) huv hvw)

end Ref

namespace Decision

variable {d d' : Decision} {σ : Addr → Addr}

theorem order_of_lt {p q : Addr} (h : p < q) : order p q = -1 := by
  rw [order, if_neg h.ne, if_neg h.not_gt]

theorem lt_of_order_nonpos {p q : Addr} (hne : p ≠ q) (h : order p q ≤ 0) : p < q := by
  rw [order, if_neg hne] at h
  split at h
  · exact absurd h (by decide)
  · next hle => exact lt_of_le_of_ne (not_lt.mp hle) hne

theorem swap_sign (d : Decision) : d.swap.sign = -d.sign := by
  cases d with
  | address p q => exact order_swap p q
  | same => rfl
  | less => rfl
  | greater => rfl

theorem map_swap (σ : Addr → Addr) : (d.map σ).swap = d.swap.map σ := by
  cases d <;> rfl

/-- Two objects can lie in either order. -/
theorem exists_lt {p q : Addr} (hne : p ≠ q) : ∃ σ : Equiv.Perm Addr, σ p < σ q := by
  have hlt : (⟨1, by decide⟩ : Addr) < ⟨2, by decide⟩ := by decide
  obtain ⟨σ, hp, hq⟩ := exists_perm_pair hne hlt.ne
  exact ⟨σ, by rwa [hp, hq]⟩

/-- And so can two pairs of them, but for one pair taken both ways round. -/
theorem exists_lt_lt {p q r s : Addr} (hpq : p ≠ q) (hrs : r ≠ s) (hne : ¬(r = q ∧ s = p)) :
    ∃ σ : Equiv.Perm Addr, σ p < σ q ∧ σ r < σ s := by
  obtain ⟨place, hp, hr⟩ : ∃ place : Addr → Nat, place p < place q ∧ place r < place s := by
    by_cases hrq : r = q
    · refine ⟨fun x => if x = p then 0 else if x = q then 1 else 2, ?_, ?_⟩
      · simp [hpq.symm]
      · have hsp : s ≠ p := fun h => hne ⟨hrq, h⟩
        simp [hrq, hpq.symm, hsp, (hrq ▸ hrs).symm]
    · by_cases hps : p = s
      · refine ⟨fun x => if x = r then 0 else if x = s then 1 else 2, ?_, ?_⟩
        · simp [hps, hrs.symm, Ne.symm hrq, (hps ▸ hpq).symm]
        · simp [hrs.symm]
      · refine ⟨fun x => if x = q ∨ x = s then 1 else 0, ?_, ?_⟩
        · simp [hpq, hps]
        · simp [hrq, hrs]
  have hcycle : NoCycle fun x y => x = p ∧ y = q ∨ x = r ∧ y = s :=
    noCycle_of_lt (f := place) fun x y hxy => by
      rcases hxy with ⟨rfl, rfl⟩ | ⟨rfl, rfl⟩
      · exact hp
      · exact hr
  obtain ⟨σ, hσ⟩ := hcycle.exists_perm_lt
  exact ⟨σ, hσ p q (.inl ⟨rfl, rfl⟩), hσ r s (.inr ⟨rfl, rfl⟩)⟩

/-- An address comparison can come out either way, whatever decides for the other call. -/
theorem exists_order_ne {p q : Addr} (hne : p ≠ q) {d : Decision} (hd : d.Proper) (h : d ≠ .address q p) :
    ∃ σ : Equiv.Perm Addr, (d.map σ).sign ≠ -order (σ p) (σ q) := by
  cases d with
  | address r s =>
    obtain ⟨σ, hlt, hlt'⟩ := exists_lt_lt hne hd fun hand => h (by rw [hand.1, hand.2])
    refine ⟨σ, ?_⟩
    rw [map, sign, order_of_lt hlt, order_of_lt hlt']
    decide
  | greater =>
    obtain ⟨σ, hlt⟩ := exists_lt (Ne.symm hne)
    refine ⟨σ, ?_⟩
    rw [order_swap, order_of_lt hlt]
    change (1 : Int) ≠ - - -1
    decide
  | same =>
    obtain ⟨σ, hlt⟩ := exists_lt hne
    refine ⟨σ, ?_⟩
    rw [order_of_lt hlt]
    change (0 : Int) ≠ - -1
    decide
  | less =>
    obtain ⟨σ, hlt⟩ := exists_lt hne
    refine ⟨σ, ?_⟩
    rw [order_of_lt hlt]
    change (-1 : Int) ≠ - -1
    decide

/-- Where the two calls are not decided alike, the objects can lie so that the results don't
go together. -/
theorem exists_sign_ne (hproper : d.Proper) (hproper' : d'.Proper) (h : d' ≠ d.swap) :
    ∃ σ : Equiv.Perm Addr, (d'.map σ).sign ≠ -(d.map σ).sign := by
  cases d with
  | address p q => exact exists_order_ne hproper hproper' h
  | _ =>
    cases d' with
    | address r s =>
      obtain ⟨σ, hσ⟩ := exists_order_ne hproper' (d := _) hproper (fun heq => Decision.noConfusion heq)
      refine ⟨σ, fun heq => hσ ?_⟩
      change order (σ r) (σ s) = _ at heq
      omega
    | _ => first | exact absurd rfl h | exact ⟨1, by decide⟩

/-- A decision that all addresses that go up bear out. -/
theorem sign_of_up (hne : d ≠ .greater) (hup : ∀ p q, d = .address p q → σ p < σ q) :
    (d.map σ).sign ≤ 0 ∧ (d ≠ .same → (d.map σ).sign < 0) := by
  cases d with
  | same => exact ⟨le_rfl, fun hne => absurd rfl hne⟩
  | less =>
    rw [map, sign]
    exact ⟨by decide, fun _ => by decide⟩
  | greater => exact absurd rfl hne
  | address p q =>
    have hsign : order (σ p) (σ q) = -1 := order_of_lt (hup p q rfl)
    rw [map, sign, hsign]
    exact ⟨by decide, fun _ => by decide⟩

theorem upTo_of (hne : d ≠ .greater) (hno : ∀ p q, d ≠ .address p q) : d.UpTo := by
  cases d with
  | same => trivial
  | less => trivial
  | greater => exact absurd rfl hne
  | address p q => exact absurd rfl (hno p q)

theorem UpTo.sign_nonpos (h : d.UpTo) (σ : Addr → Addr) : (d.map σ).sign ≤ 0 := by
  cases d with
  | same => exact le_rfl
  | less =>
    rw [map, sign]
    decide
  | _ => exact absurd h id

/-- Contents that decide against an object are found wherever it lies. -/
theorem ne_greater_of_sign (h : (d.map σ).sign ≤ 0) : d ≠ .greater := by
  rintro rfl
  rw [map, sign] at h
  exact absurd h (by decide)

end Decision

namespace Ref

open Decision

variable {objects : List Ref}

theorem Ordered.not_lt (h : Ordered objects) {a b c : Ref} (ha : a ∈ objects) (hb : b ∈ objects) (hc : c ∈ objects)
    (hbc : b.cmp c ≤ 0) (hca : c.cmp a ≤ 0) : ¬a.cmp b < 0 := by
  intro hlt
  have hba := h.trans b hb c hc a ha hbc hca
  have hmirror := h.mirror a ha b hb
  rw [Int.sign_eq_neg_one_of_neg hlt] at hmirror
  have := Int.sign_eq_one_iff_pos.mp hmirror
  omega

theorem sign_nonpos {n : Int} : n.sign ≤ 0 ↔ n ≤ 0 := by
  rcases lt_trichotomy n 0 with h | rfl | h
  · rw [Int.sign_eq_neg_one_of_neg h]
    omega
  · rfl
  · rw [Int.sign_eq_one_of_pos h]
    omega

theorem sign_neg {n : Int} : n.sign < 0 ↔ n < 0 := by
  rw [lt_iff_le_and_ne, sign_nonpos, Ne, Int.sign_eq_zero_iff_zero, ← Ne, ← lt_iff_le_and_ne]

theorem GoesRound.exists_ne_same {ds : List Decision} (h : GoesRound objects ds) : ∃ d ∈ ds, d ≠ .same := by
  rcases h.uneven with ⟨p, q, hd⟩ | ⟨hless, -⟩
  · exact ⟨_, hd, Decision.noConfusion⟩
  · exact ⟨_, hless, Decision.noConfusion⟩

/-- Three decisions that lead round are borne out by some places. -/
theorem not_ordered_of_goesRound (hnull : .null ∉ objects)
    (hinj : ∀ a ∈ objects, ∀ b ∈ objects, a.uintz = b.uintz → a = b) {a b c : Ref}
    (ha : a ∈ objects) (hb : b ∈ objects) (hc : c ∈ objects)
    (h : GoesRound objects [a.decision b, b.decision c, c.decision a]) :
    ∃ σ, ¬Ordered (objects.map (move σ)) := by
  obtain ⟨σ, hσ⟩ := h.noCycle.exists_perm_lt
  refine ⟨σ, fun hord => ?_⟩
  have hstep : ∀ u ∈ objects, ∀ v ∈ objects, u.decision v ∈ [a.decision b, b.decision c, c.decision a] →
      (u.move σ).cmp (v.move σ) ≤ 0 ∧ (u.decision v ≠ .same → (u.move σ).cmp (v.move σ) < 0) := by
    intro u hu v hv hmem
    have hsign := sign_cmp_move σ (fun hn => hnull (hn ▸ hu)) (hinj u hu v hv)
    have hup := sign_of_up (σ := σ) (fun hgt => h.not_greater (hgt ▸ hmem)) (fun p q hd => hσ p q (hd ▸ hmem))
    rwa [← hsign, sign_nonpos, sign_neg] at hup
  obtain ⟨hab, hab'⟩ := hstep a ha b hb (by simp)
  obtain ⟨hbc, hbc'⟩ := hstep b hb c hc (by simp)
  obtain ⟨hca, hca'⟩ := hstep c hc a ha (by simp)
  have ha := List.mem_map_of_mem (f := move σ) ha
  have hb := List.mem_map_of_mem (f := move σ) hb
  have hc := List.mem_map_of_mem (f := move σ) hc
  obtain ⟨d, hd, hne⟩ := h.exists_ne_same
  simp only [List.mem_cons, List.not_mem_nil, or_false] at hd
  rcases hd with rfl | rfl | rfl
  · exact hord.not_lt ha hb hc hbc hca (hab' hne)
  · exact hord.not_lt hb hc ha hca hab (hbc' hne)
  · exact hord.not_lt hc ha hb hab hbc (hca' hne)

theorem ordered_iff (hnull : .null ∉ objects) (hco : Coherent objects) :
    (∀ σ, Ordered (objects.map (move σ))) ↔
      (∀ a ∈ objects, ∀ b ∈ objects, Alike a b) ∧
        ∀ a ∈ objects, ∀ b ∈ objects, ∀ c ∈ objects,
          ¬GoesRound objects [a.decision b, b.decision c, c.decision a] := by
  have hinj : ∀ a ∈ objects, ∀ b ∈ objects, a.uintz = b.uintz → a = b := fun a ha b hb =>
    hco a (mem_partsElems ha) b (mem_partsElems hb)
  have hsign : ∀ σ, ∀ a ∈ objects, ∀ b ∈ objects,
      ((a.move σ).cmp (b.move σ)).sign = ((a.decision b).map σ).sign := fun σ a ha b hb =>
    sign_cmp_move σ (fun hn => hnull (hn ▸ ha)) (hinj a ha b hb)
  constructor
  · intro hord
    refine ⟨fun a ha b hb => ?_, fun a ha b hb c hc hround => ?_⟩
    · by_contra hnot
      obtain ⟨σ, hne⟩ := exists_sign_ne (decision_proper a b) (decision_proper b a) hnot
      have hmirror := (hord σ).mirror _ (List.mem_map_of_mem ha) _ (List.mem_map_of_mem hb)
      rw [hsign σ a ha b hb, hsign σ b hb a ha] at hmirror
      exact hne hmirror
    · obtain ⟨σ, hnot⟩ := not_ordered_of_goesRound hnull hinj ha hb hc hround
      exact hnot (hord σ)
  · rintro ⟨halike, hround⟩ σ
    constructor
    · intro x hx y hy
      obtain ⟨a, ha, rfl⟩ := List.mem_map.mp hx
      obtain ⟨b, hb, rfl⟩ := List.mem_map.mp hy
      rw [hsign σ a ha b hb, hsign σ b hb a ha, halike a ha b hb, ← map_swap]
      exact swap_sign _
    · intro x hx y hy z hz hab hbc
      obtain ⟨a, ha, rfl⟩ := List.mem_map.mp hx
      obtain ⟨b, hb, rfl⟩ := List.mem_map.mp hy
      obtain ⟨c, hc, rfl⟩ := List.mem_map.mp hz
      rw [← sign_nonpos, hsign σ a ha b hb] at hab
      rw [← sign_nonpos, hsign σ b hb c hc] at hbc
      rw [← sign_nonpos, hsign σ a ha c hc]
      by_contra hac
      have hca : ((c.decision a).map σ).sign < 0 := by
        rw [halike a ha c hc, ← map_swap, swap_sign]
        omega
      have hds : ∀ d ∈ [a.decision b, b.decision c, c.decision a], (d.map σ).sign ≤ 0 ∧ d.Proper := by
        simp only [List.forall_mem_cons]
        exact ⟨⟨hab, decision_proper a b⟩, ⟨hbc, decision_proper b c⟩, ⟨hca.le, decision_proper c a⟩,
          fun _ hd => absurd hd List.not_mem_nil⟩
      refine hround a ha b hb c hc ⟨fun hgt => ne_greater_of_sign (hds _ hgt).1 rfl, ?_, ?_⟩
      · -- otherwise the contents decide for the ends too
        by_contra hno
        have hupTo : ∀ d ∈ [a.decision b, b.decision c, c.decision a], d.UpTo := fun d hd =>
          upTo_of (ne_greater_of_sign (hds d hd).1) fun p q heq => hno (.inl ⟨p, q, heq ▸ hd⟩)
        have hab := hupTo (a.decision b) (by simp)
        have hbc := hupTo (b.decision c) (by simp)
        have hless : c.decision a = .less := by
          have hup := hupTo (c.decision a) (by simp)
          cases hd : c.decision a with
          | less => rfl
          | same =>
            rw [hd] at hca
            exact absurd hca (lt_irrefl 0)
          | _ =>
            rw [hd] at hup
            exact absurd hup id
        have hregular : Regular (partsElems objects) := by
          by_contra hnot
          exact hno (.inr ⟨by simp [hless], hnot⟩)
        have hparts : ∀ u ∈ objects, u.parts ⊆ partsElems objects := fun u => parts_subset
        rw [decision_trans hco hregular a b c (hparts a ha) (hparts b hb) (hparts c hc) hab hbc] at hac
        exact hac ((hab.andThen hbc).sign_nonpos σ)
      · exact noCycle_of_lt (f := σ) fun p q hd =>
          lt_of_order_nonpos (σ.injective.ne (hds _ hd).2) (hds _ hd).1

end Ref

end Crack
