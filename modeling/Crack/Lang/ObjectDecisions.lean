import Crack.Lang.Objects

/-!
# What decides between two objects

The result of a comparison depends on where the objects lie only where two objects are
compared by their addresses. What decides is found by the contents alone, at the first
place where the two differ.
-/
namespace Crack

instance : LinearOrder Addr :=
  LinearOrder.lift' (fun addr => addr.uintz.toNat) fun _ _ h => Addr.ext (BitVec.eq_of_toNat_eq h)

instance : Finite Addr :=
  Finite.of_injective (fun addr => addr.uintz.toFin) fun _ _ h => Addr.ext (BitVec.toFin_inj.mp h)

/-- What is found at the first place where two objects differ. -/
inductive Decision where
  | same
  | less
  | greater
  /-- two objects that go by their addresses -/
  | address (p q : Addr)
  deriving DecidableEq

namespace Decision

/-- The sign of an address comparison. -/
def order (p q : Addr) : Int := if p = q then 0 else if q < p then 1 else -1

/-- The sign of the result. -/
def sign : Decision → Int
  | .same => 0
  | .less => -1
  | .greater => 1
  | .address p q => order p q

/-- What should decide for the call the other way round. -/
def swap : Decision → Decision
  | .same => .same
  | .less => .greater
  | .greater => .less
  | .address p q => .address q p

def map (σ : Addr → Addr) : Decision → Decision
  | .same => .same
  | .less => .less
  | .greater => .greater
  | .address p q => .address (σ p) (σ q)

/-- A result that the addresses have no part in. -/
def ofInt (diff : Int) : Decision := if diff < 0 then .less else if diff = 0 then .same else .greater

/-- What decides for two lists, by what does for their first elements and for the rest. -/
def andThen : Decision → Decision → Decision
  | .same, d => d
  | d, _ => d

/-- The first elements that differ decide, and else the end of the shorter list. -/
def walk {α : Type} (decide : α → α → Decision) : (elems others : List α) → Decision
  | [], [] => .same
  | [], _ :: _ => .less
  | _ :: _, [] => .greater
  | a :: elems, b :: others => (decide a b).andThen (walk decide elems others)

/-- The addresses, where there are any, are two. -/
def Proper : Decision → Prop
  | .address p q => p ≠ q
  | _ => True

theorem order_swap (p q : Addr) : order q p = -order p q := by
  rw [order, order]
  rcases lt_trichotomy p q with h | rfl | h
  · simp [h, h.ne, h.ne', h.not_gt]
  · simp
  · simp [h, h.ne, h.ne', h.not_gt]

variable {d : Decision}

theorem sign_eq_zero (h : d.Proper) : d.sign = 0 ↔ d = .same := by
  cases d with
  | same => exact iff_of_true rfl rfl
  | less => exact iff_of_false (by decide) Decision.noConfusion
  | greater => exact iff_of_false (by decide) Decision.noConfusion
  | address p q =>
    refine iff_of_false ?_ Decision.noConfusion
    rw [sign, order, if_neg h]
    split <;> decide

theorem sign_ofInt (diff : Int) : (ofInt diff).sign = diff.sign := by
  rcases lt_trichotomy diff 0 with h | rfl | h
  · rw [ofInt, if_pos h, Int.sign_eq_neg_one_of_neg h]
    rfl
  · rfl
  · rw [ofInt, if_neg h.not_gt, if_neg h.ne', Int.sign_eq_one_of_pos h]
    rfl

theorem ofInt_eq_same {diff : Int} : ofInt diff = .same ↔ diff = 0 := by
  rw [ofInt]
  split
  · next h => exact iff_of_false Decision.noConfusion h.ne
  · split
    · next h => exact iff_of_true rfl h
    · next h => exact iff_of_false Decision.noConfusion h

theorem map_ofInt (σ : Addr → Addr) (diff : Int) : (ofInt diff).map σ = ofInt diff := by
  rw [ofInt]
  split
  · rfl
  · split <;> rfl

theorem proper_ofInt (diff : Int) : (ofInt diff).Proper := by
  rw [ofInt]
  split
  · trivial
  · split <;> trivial

@[simp] theorem same_andThen (d : Decision) : Decision.same.andThen d = d := rfl

theorem andThen_of_ne (h : d ≠ .same) (e : Decision) : d.andThen e = d := by
  cases d with
  | same => exact absurd rfl h
  | _ => rfl

theorem map_andThen (σ : Addr → Addr) (d e : Decision) : (d.andThen e).map σ = (d.map σ).andThen (e.map σ) := by
  cases d <;> rfl

theorem Proper.andThen {d e : Decision} (hd : d.Proper) (he : e.Proper) : (d.andThen e).Proper := by
  cases d with
  | same => exact he
  | _ => exact hd

theorem andThen_eq_same {d e : Decision} : d.andThen e = .same ↔ d = .same ∧ e = .same := by
  cases d <;> simp [Decision.andThen]

theorem sign_eq_zero_iff (hd : d.Proper) {n : Int} (h : n.sign = d.sign) : n = 0 ↔ d = .same := by
  rw [← sign_eq_zero hd, ← h, Int.sign_eq_zero_iff_zero]

section

variable {α : Type} {f : α → α → Decision} {elems others : List α}

theorem walk_proper (h : ∀ a ∈ elems, ∀ b, (f a b).Proper) : (walk f elems others).Proper := by
  induction elems generalizing others with
  | nil => cases others <;> trivial
  | cons a elems ih =>
    cases others with
    | nil => trivial
    | cons b others =>
      rw [List.forall_mem_cons] at h
      exact (h.1 b).andThen (ih h.2)

/-- The result for sequences, once it is known for their elements. -/
theorem sign_cmpLoop {cmp : α → α → Int} (hproper : ∀ a ∈ elems, ∀ b, (f a b).Proper)
    (h : ∀ a ∈ elems, ∀ b, (cmp a b).sign = (f a b).sign) :
    (Ref.cmpLoop cmp elems others).sign = (walk f elems others).sign := by
  induction elems generalizing others with
  | nil => cases others <;> rfl
  | cons a elems ih =>
    cases others with
    | nil => rfl
    | cons b others =>
      rw [List.forall_mem_cons] at hproper h
      have hzero := sign_eq_zero_iff (hproper.1 b) (h.1 b)
      rw [Ref.cmpLoop, walk]
      by_cases hsame : f a b = .same
      · rw [if_neg (not_not.mpr (hzero.mpr hsame)), hsame]
        exact ih hproper.2 h.2
      · rw [if_pos (mt hzero.mp hsame), andThen_of_ne hsame]
        exact h.1 b

theorem walk_map (σ : Addr → Addr) {g : α → α} {f' : α → α → Decision}
    (h : ∀ a ∈ elems, ∀ b, f' (g a) (g b) = (f a b).map σ) :
    walk f' (elems.map g) (others.map g) = (walk f elems others).map σ := by
  induction elems generalizing others with
  | nil => cases others <;> rfl
  | cons a elems ih =>
    cases others with
    | nil => rfl
    | cons b others =>
      rw [List.forall_mem_cons] at h
      rw [List.map_cons, List.map_cons, walk, walk, map_andThen, h.1 b, ih h.2]

end

end Decision

namespace Ref

open Decision

/-- An object at the address, and another that is of no class that it knows. -/
def beside (p : Addr) : Ref → Decision
  | .null => .greater
  | .object q | .buffer q _ | .seq q _ _ | .values q _ _ _ => .address p q

/-- What decides for a sequence, with the walk along the elements of both. -/
def seqDecision {α : Type} (generic : SeqKind) (elems : List α) (peer : Option (List α))
    (walk : List α → Decision) (beside : Decision) : Decision :=
  match peer with
  | none => beside
  | some others =>
    if generic = .array then
      if Counted elems then walk others else if others.length > elems.length then .less else .same
    else if isTrue others then walk others else beside

def valueDecision (t : Builtin) (v w : BitVec t.width) : Decision := ofInt (t.cmp v w).toInt

/-- What decides for a buffer. -/
def bufferDecision (s : List UInt8) : Ref → Decision
  | .buffer _ t => ofInt (contentCmp s t)
  | _ => .greater

mutual

/-- What decides between two references that are not the same. -/
def differ : (a b : Ref) → Decision
  | .null, _ => .less
  | .object p, b => beside p b
  | .buffer _ s, b => bufferDecision s b
  | .seq p cls elems, b => seqDecision cls.generic elems (peerElems cls b) (decisions elems) (beside p b)
  | .values p generic t elems, b =>
    seqDecision generic elems (peerValues generic t b) (walk (valueDecision t) elems) (beside p b)

def decisions : (elems others : List Ref) → Decision
  | [], [] => .same
  | [], _ :: _ => .less
  | _ :: _, [] => .greater
  | a :: elems, b :: others => (if a.uintz = b.uintz then .same else a.differ b).andThen (decisions elems others)

end

def decision (a b : Ref) : Decision := if a.uintz = b.uintz then .same else a.differ b

theorem decisions_eq : ∀ elems others : List Ref, decisions elems others = walk decision elems others
  | [], [] => rfl
  | [], _ :: _ => rfl
  | _ :: _, [] => rfl
  | a :: elems, b :: others => by
    rw [decisions, decisions_eq elems others]
    rfl

theorem cmpElems_eq : ∀ elems others : List Ref, cmpElems elems others = cmpLoop compare elems others
  | [], [] => rfl
  | [], _ :: _ => rfl
  | _ :: _, [] => rfl
  | a :: elems, b :: others => by
    rw [cmpElems, cmpElems_eq elems others]
    rfl

theorem addr_uintz_inj {p q : Addr} : p.uintz = q.uintz ↔ p = q :=
  ⟨fun h => Addr.ext h, congrArg _⟩

@[simp] theorem uintz_eq_zero {a : Ref} : a.uintz = 0 ↔ a = .null := by
  cases a with
  | null => simp [uintz]
  | object p => exact iff_of_false p.nonnull Ref.noConfusion
  | buffer p _ => exact iff_of_false p.nonnull Ref.noConfusion
  | seq p _ _ => exact iff_of_false p.nonnull Ref.noConfusion
  | values p _ _ _ => exact iff_of_false p.nonnull Ref.noConfusion

theorem sign_order (p q : Addr) : (order p q).sign = order p q := by
  rw [order]
  split
  · rfl
  · split <;> rfl

variable {a b : Ref} {p : Addr}

theorem objectCmp_eq {p q : Addr} (ha : a.uintz = p.uintz) (hb : b.uintz = q.uintz) :
    objectCmp a b = order p q := by
  simp only [objectCmp, order, ha, hb, addr_uintz_inj]
  rfl

theorem objectCmp_null {a : Ref} (ha : a.uintz ≠ 0) : objectCmp a .null = 1 :=
  (if_neg ha).trans (if_pos ((BitVec.pos_iff_ne_zero _).mpr ha))

/-- `Object.cmp` decides by the addresses. -/
theorem sign_objectCmp {a : Ref} (ha : a.uintz = p.uintz) (b : Ref) : (objectCmp a b).sign = (beside p b).sign := by
  cases b with
  | null =>
    rw [objectCmp_null (ha ▸ p.nonnull)]
    rfl
  | _ =>
    rw [objectCmp_eq ha rfl, sign_order]
    rfl

theorem compare_of_is (h : a.uintz = b.uintz) : compare a b = 0 := by
  rw [compare, cmpRefs, if_pos h]

theorem decision_of_is (h : a.uintz = b.uintz) : a.decision b = .same := if_pos h

theorem decision_of_ne (h : a.uintz ≠ b.uintz) : a.decision b = a.differ b := if_neg h

/-- Two references are the same, or what differs decides. -/
theorem decision_cases {P : Decision → Prop} (hsame : P .same) (h : a.uintz ≠ b.uintz → P (a.differ b)) :
    P (a.decision b) := by
  rw [decision]
  split
  · exact hsame
  · next hne => exact h hne

theorem peerElems_eq_some {cls : SeqClass} {b : Ref} {others : List Ref} :
    peerElems cls b = some others ↔ ∃ q, b = .seq q cls others := by
  constructor
  · intro h
    cases b with
    | seq q otherCls o =>
      rw [peerElems] at h
      split at h
      · next hcls =>
        cases h
        exact ⟨q, by rw [hcls]⟩
      · cases h
    | _ => cases h
  · rintro ⟨q, rfl⟩
    exact if_pos rfl

theorem peerValues_eq_some {generic : SeqKind} {t : Builtin} {b : Ref} {others : List (BitVec t.width)} :
    peerValues generic t b = some others ↔ ∃ q, b = .values q generic t others := by
  constructor
  · intro h
    cases b with
    | values q otherGeneric u o =>
      rw [peerValues] at h
      split at h
      · next hcls =>
        obtain ⟨rfl, rfl⟩ := hcls
        cases h
        exact ⟨q, rfl⟩
      · cases h
    | _ => cases h
  · rintro ⟨q, rfl⟩
    exact dif_pos ⟨rfl, rfl⟩

section

variable {α : Type} {generic : SeqKind} {elems : List α} {peer : Option (List α)} {walk : List α → Decision}

/-- The result for sequences, once it is known for their elements. -/
theorem sign_seqCmp {this other : Ref} {loop : List α → Int} (hthis : this.uintz = p.uintz)
    (hne : this.uintz ≠ other.uintz) (hpeer : other = .null → peer = none)
    (hloop : ∀ others, (loop others).sign = (walk others).sign) :
    (seqCmp generic this other elems peer loop).sign =
      (seqDecision generic elems peer walk (beside p other)).sign := by
  have hlist : generic ≠ .array → seqCmp generic this other elems peer loop = listCmp this other peer loop := by
    cases generic with
    | array => exact fun h => absurd rfl h
    | _ => exact fun _ => rfl
  by_cases harray : generic = .array
  · subst harray
    rw [seqCmp, arrayCmp.eq_def, if_neg hne]
    by_cases hnull : other = .null
    · subst hnull
      rw [hpeer rfl]
      rfl
    rw [if_neg (mt uintz_eq_zero.mp hnull), seqDecision.eq_def]
    cases peer with
    | none => exact sign_objectCmp hthis other
    | some others =>
      dsimp only
      rw [if_pos rfl]
      by_cases hcounted : Counted elems
      · rw [if_pos hcounted, if_pos hcounted]
        exact hloop others
      · rw [if_neg hcounted, if_neg hcounted]
        split <;> rfl
  · rw [hlist harray, listCmp.eq_def, seqDecision.eq_def]
    cases peer with
    | none => exact sign_objectCmp hthis other
    | some others =>
      dsimp only
      rw [if_neg harray]
      by_cases htrue : isTrue others
      · rw [if_pos htrue, if_pos htrue]
        exact hloop others
      · rw [if_neg htrue, if_neg htrue]
        exact sign_objectCmp hthis other

theorem seqDecision_proper {d : Decision} (hd : d.Proper) (hwalk : ∀ others, (walk others).Proper) :
    (seqDecision generic elems peer walk d).Proper := by
  rw [seqDecision.eq_def]
  cases peer with
  | none => exact hd
  | some others =>
    dsimp only
    split
    · split
      · exact hwalk others
      · split <;> trivial
    · split
      · exact hwalk others
      · exact hd

end

theorem beside_proper {b : Ref} (h : p.uintz ≠ b.uintz) : (beside p b).Proper := by
  cases b with
  | null => trivial
  | _ => exact fun heq => h (congrArg _ heq)

theorem beside_ne_same (p : Addr) (b : Ref) : beside p b ≠ .same := by
  cases b <;> exact Decision.noConfusion

/-- A sequence is the same only as one of its class. -/
theorem peer_of_same {α : Type} {generic : SeqKind} {elems : List α} {peer : Option (List α)}
    {walk : List α → Decision} {b : Ref}
    (hcounted : generic = .array → Counted elems) (h : seqDecision generic elems peer walk (beside p b) = .same) :
    ∃ others, peer = some others ∧ walk others = .same := by
  rw [seqDecision.eq_def] at h
  cases peer with
  | none => exact absurd h (beside_ne_same p b)
  | some others =>
    refine ⟨others, rfl, ?_⟩
    dsimp only at h
    split at h
    · next harray => rwa [if_pos (hcounted harray)] at h
    · split at h
      · exact h
      · exact absurd h (beside_ne_same p b)

theorem valueDecision_proper (t : Builtin) (v w : BitVec t.width) : (valueDecision t v w).Proper := proper_ofInt _

/-- Where addresses decide, they are those of two objects. -/
theorem differ_proper (a b : Ref) (h : a.uintz ≠ b.uintz) : (a.differ b).Proper := by
  induction a using byElems generalizing b with | ofElems a ih =>
  cases a with
  | null => trivial
  | object p => exact beside_proper h
  | buffer p s =>
    cases b with
    | buffer q t => exact proper_ofInt _
    | _ => trivial
  | seq p cls elems =>
    refine seqDecision_proper (beside_proper h) fun others => ?_
    rw [decisions_eq]
    exact walk_proper fun x hx y => decision_cases trivial (ih x hx y)
  | values p generic t elems =>
    exact seqDecision_proper (beside_proper h) fun others => walk_proper fun v _ w => valueDecision_proper t v w

theorem decision_proper (a b : Ref) : (a.decision b).Proper := decision_cases trivial (differ_proper a b)

theorem sign_cmp_differ (a b : Ref) (ha : a ≠ .null) (h : a.uintz ≠ b.uintz) : (a.cmp b).sign = (a.differ b).sign := by
  induction a using byElems generalizing b with | ofElems a ih =>
  cases a with
  | null => exact absurd rfl ha
  | object p => exact sign_objectCmp rfl b
  | buffer p s =>
    rw [cmp, differ, bufferCmp.eq_def, if_neg h]
    cases b with
    | buffer q t => exact (sign_ofInt _).symm
    | _ => rfl
  | seq p cls elems =>
    rw [cmp, differ]
    refine sign_seqCmp rfl h (fun hb => by rw [hb]; rfl) fun others => ?_
    rw [cmpElems_eq, decisions_eq]
    refine sign_cmpLoop (fun x _ y => decision_proper x y) fun x hx y => ?_
    rw [compare, cmpRefs, decision]
    by_cases hxy : x.uintz = y.uintz
    · rw [if_pos hxy, if_pos hxy]
      rfl
    rw [if_neg hxy, if_neg hxy]
    by_cases hnull : x = .null
    · subst hnull
      have hy : y.uintz ≠ 0 := Ne.symm hxy
      rw [if_neg (fun hne => hne rfl), if_pos hy]
      rfl
    · rw [if_pos (mt uintz_eq_zero.mp hnull)]
      exact ih x hx y hnull hxy
  | values p generic t elems =>
    rw [cmp, differ]
    exact sign_seqCmp rfl h (fun hb => by rw [hb]; rfl) fun others =>
      sign_cmpLoop (fun v _ w => valueDecision_proper t v w) fun v _ w => (sign_ofInt _).symm

theorem contentCmp_nil_cons (d : UInt8) (t : List UInt8) : contentCmp [] (d :: t) = -1 := rfl

theorem contentCmp_cons_nil (c : UInt8) (s : List UInt8) : contentCmp (c :: s) [] = 1 := rfl

theorem contentCmp_cons (c d : UInt8) (s t : List UInt8) :
    contentCmp (c :: s) (d :: t) = if c = d then contentCmp s t else c.toNat - d.toNat := by
  simp only [contentCmp, List.length_cons, memcmp, add_left_inj, gt_iff_lt, add_lt_add_iff_right]
  by_cases hcd : c = d
  · simp only [if_pos hcd]
  · have hne : (c.toNat : Int) - d.toNat ≠ 0 := by
      have := mt UInt8.toNat_inj.mp hcd
      omega
    simp only [if_neg hcd, if_neg hne, ite_self]

theorem contentCmp_eq_zero {s t : List UInt8} (h : contentCmp s t = 0) : s = t := by
  induction s generalizing t with
  | nil =>
    cases t with
    | nil => rfl
    | cons d t => cases h
  | cons c s ih =>
    cases t with
    | nil => cases h
    | cons d t =>
      rw [contentCmp_cons] at h
      split at h
      · next heq => rw [heq, ih h]
      · next hne =>
        have := mt UInt8.toNat_inj.mp hne
        omega

theorem beside_move (σ : Equiv.Perm Addr) (p : Addr) (b : Ref) : beside (σ p) (b.move σ) = (beside p b).map σ := by
  cases b <;> rfl

theorem moveElems_eq (σ : Equiv.Perm Addr) (elems : List Ref) : moveElems σ elems = elems.map (move σ) := by
  induction elems with
  | nil => rfl
  | cons a elems ih => rw [moveElems, ih, List.map_cons]

theorem peerElems_move (σ : Equiv.Perm Addr) (cls : SeqClass) (b : Ref) :
    peerElems cls (b.move σ) = (peerElems cls b).map (List.map (move σ)) := by
  cases b with
  | seq q otherCls o =>
    rw [move, peerElems, peerElems, moveElems_eq]
    split <;> rfl
  | _ => rfl

theorem peerValues_move (σ : Equiv.Perm Addr) (generic : SeqKind) (t : Builtin) (b : Ref) :
    peerValues generic t (b.move σ) = peerValues generic t b := by
  cases b <;> rfl

theorem seqDecision_move (σ : Addr → Addr) {α : Type} {generic : SeqKind} {elems : List α} {peer : Option (List α)}
    {f f' : α → α → Decision} {g : α → α} (h : ∀ a ∈ elems, ∀ b, f' (g a) (g b) = (f a b).map σ) (d : Decision) :
    seqDecision generic (elems.map g) (peer.map (List.map g)) (walk f' (elems.map g)) (d.map σ) =
      (seqDecision generic elems peer (walk f elems) d).map σ := by
  cases peer with
  | none => rfl
  | some others =>
    have hcounted : Counted (elems.map g) ↔ Counted elems := by rw [Counted, Counted, List.length_map]
    have htrue : isTrue (others.map g) ↔ isTrue others := by rw [isTrue, isTrue, List.length_map]
    rw [Option.map_some, seqDecision.eq_def, seqDecision.eq_def]
    dsimp only
    rw [walk_map σ h, List.length_map, List.length_map]
    simp only [hcounted, htrue, apply_ite (map σ)]
    rfl

theorem uintz_move (σ : Equiv.Perm Addr) : (a.move σ).uintz = (b.move σ).uintz ↔ a.uintz = b.uintz := by
  have hmoved : ∀ p q : Addr, (σ p).uintz = (σ q).uintz ↔ p.uintz = q.uintz := fun p q => by
    rw [addr_uintz_inj, addr_uintz_inj, σ.injective.eq_iff]
  have hleft : ∀ p q : Addr, (σ p).uintz = 0 ↔ q.uintz = 0 := fun p q => iff_of_false (σ p).nonnull q.nonnull
  have hright : ∀ p q : Addr, 0 = (σ p).uintz ↔ 0 = q.uintz := fun p q =>
    iff_of_false (σ p).nonnull.symm q.nonnull.symm
  cases a <;> cases b
  case null.null => exact Iff.rfl
  all_goals first | exact hmoved _ _ | exact hleft _ _ | exact hright _ _

theorem decision_move_of (σ : Equiv.Perm Addr) (h : (a.move σ).differ (b.move σ) = (a.differ b).map σ) :
    (a.move σ).decision (b.move σ) = (a.decision b).map σ := by
  rw [decision, decision]
  simp only [uintz_move σ]
  split
  · rfl
  · exact h

theorem differ_move (σ : Equiv.Perm Addr) (a b : Ref) : (a.move σ).differ (b.move σ) = (a.differ b).map σ := by
  induction a using byElems generalizing b with | ofElems a ih =>
  cases a with
  | null => rfl
  | object p => exact beside_move σ p b
  | buffer p s =>
    rw [move, differ, differ]
    cases b with
    | buffer q t => exact (map_ofInt σ _).symm
    | _ => rfl
  | seq p cls elems =>
    rw [move, differ, differ, peerElems_move, beside_move, moveElems_eq, funext (decisions_eq _), funext (decisions_eq _)]
    exact seqDecision_move σ (fun x hx y => decision_move_of σ (ih x hx y)) _
  | values p generic t elems =>
    rw [move, differ, differ, peerValues_move, beside_move]
    have hfirst : ∀ v ∈ elems, ∀ w, valueDecision t (id v) (id w) = (valueDecision t v w).map σ :=
      fun v _ w => (map_ofInt σ _).symm
    have hmove : seqDecision generic _ ((peerValues generic t b).map _) _ _ = _ :=
      seqDecision_move σ hfirst (beside p b)
    rwa [List.map_id, List.map_id_fun, Option.map_id] at hmove

theorem decision_move (σ : Equiv.Perm Addr) (a b : Ref) : (a.move σ).decision (b.move σ) = (a.decision b).map σ :=
  decision_move_of σ (differ_move σ a b)

theorem cmpLoop_self {α : Type} {cmp : α → α → Int} (h : ∀ a, cmp a a = 0) (elems : List α) :
    cmpLoop cmp elems elems = 0 := by
  induction elems with
  | nil => rfl
  | cons a elems ih =>
    rw [cmpLoop, h]
    exact ih

theorem objectCmp_self (a : Ref) : objectCmp a a = 0 := if_pos rfl

theorem seqCmp_self {α : Type} (generic : SeqKind) (a : Ref) {elems : List α} {loop : List α → Int}
    (hloop : loop elems = 0) : seqCmp generic a a elems (some elems) loop = 0 := by
  have hlist : listCmp a a (some elems) loop = 0 := by
    rw [listCmp]
    split
    · exact hloop
    · exact objectCmp_self a
  cases generic with
  | array => exact if_pos rfl
  | list => exact hlist
  | dlist => exact hlist

theorem cmp_self (a : Ref) : a.cmp a = 0 := by
  cases a with
  | null => rfl
  | object p => exact objectCmp_self _
  | buffer p s => exact if_pos rfl
  | seq p cls elems =>
    rw [cmp, peerElems_eq_some.mpr ⟨p, rfl⟩]
    refine seqCmp_self _ _ ?_
    rw [cmpElems_eq]
    exact cmpLoop_self (fun _ => compare_of_is rfl) elems
  | values p generic t elems =>
    rw [cmp, peerValues_eq_some.mpr ⟨p, rfl⟩]
    exact seqCmp_self _ _ (cmpLoop_self (fun v => by rw [Builtin.cmp_self]; rfl) elems)

theorem sign_cmp (ha : a ≠ .null) (hab : a.uintz = b.uintz → a = b) : (a.cmp b).sign = (a.decision b).sign := by
  by_cases h : a.uintz = b.uintz
  · rw [← hab h, cmp_self, decision_of_is rfl]
    rfl
  · rw [decision_of_ne h]
    exact sign_cmp_differ a b ha h

theorem move_ne_null (σ : Equiv.Perm Addr) {a : Ref} (ha : a ≠ .null) : a.move σ ≠ .null := by
  cases a with
  | null => exact absurd rfl ha
  | _ => exact Ref.noConfusion

theorem sign_cmp_move (σ : Equiv.Perm Addr) (ha : a ≠ .null) (hab : a.uintz = b.uintz → a = b) :
    ((a.move σ).cmp (b.move σ)).sign = ((a.decision b).map σ).sign := by
  rw [sign_cmp (move_ne_null σ ha) fun h => congrArg _ (hab ((uintz_move σ).mp h)), decision_move]

end Ref

end Crack
