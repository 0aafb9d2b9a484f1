import Crack.Sched.Schedule

/-!
# Times and their differences

A `Time` and a `TimeDelta` have seconds and nanoseconds of 32 bits each.
-/
namespace Crack

/-- `BILLION` as the `int32` that it is declared as -/
def int32Billion : BitVec 32 := 1000000000

namespace TimeVal

/-- `_minus`, which sets its third argument -/
def minus (a b : TimeVal) : TimeVal :=
  let nsdiff := a.nsecs - b.nsecs
  if nsdiff.toInt < 0 then ⟨a.secs - b.secs - 1, int32Billion + a.nsecs - b.nsecs⟩
  else ⟨a.secs - b.secs, nsdiff⟩

/-- The body of both `cmp` for an object of the same class. -/
def cmpSame (a b : TimeVal) : BitVec 32 :=
  let td := a.minus b
  if td.secs ≠ 0 then td.secs else td.nsecs

end TimeVal

/-- A difference in time. -/
structure TimeDelta extends TimeVal
  deriving DecidableEq, Repr

/-- An absolute point in time, since the epoch. -/
structure Time extends TimeVal
  deriving DecidableEq, Repr

def TimeDelta.cmp (t other : TimeDelta) : BitVec 32 := t.cmpSame other.toTimeVal

def Time.cmp (t other : Time) : BitVec 32 := t.cmpSame other.toTimeVal

/-- `oper -` -/
def Time.sub (t other : Time) : TimeDelta := ⟨t.minus other.toTimeVal⟩

/-- `add`; the quotient and the remainder are rounded towards zero. -/
def Time.add (t : Time) (d : TimeDelta) : Time :=
  let nsecs := t.nsecs + d.nsecs
  let secs := t.secs + d.secs
  if nsecs.toInt > int32Billion.toInt ∨ nsecs.toInt < 0 then
    ⟨secs + nsecs.sdiv int32Billion, nsecs.srem int32Billion⟩
  else ⟨secs, nsecs⟩

namespace TimeVal

/-- The nanoseconds are less than a second. -/
def Normal (t : TimeVal) : Prop := 0 ≤ t.nsecs.toInt ∧ t.nsecs.toInt < billion

instance (t : TimeVal) : Decidable t.Normal := inferInstanceAs (Decidable (_ ∧ _))

/-- The whole seconds between two times, rounded down. -/
def wholeSecs (a b : TimeVal) : Int := (a.nanos - b.nanos) / billion

/-- The seconds of the difference are an `int32`. -/
def Fits (a b : TimeVal) : Prop := -2 ^ 31 ≤ wholeSecs a b ∧ wholeSecs a b < 2 ^ 31

instance (a b : TimeVal) : Decidable (Fits a b) := inferInstanceAs (Decidable (_ ∧ _))

/-- The sign of the result is the one of the difference of the times. -/
structure CmpSigns (r : BitVec 32) (a b : TimeVal) : Prop where
  neg : r.toInt < 0 ↔ a.nanos < b.nanos
  zero : r.toInt = 0 ↔ a.nanos = b.nanos
  pos : 0 < r.toInt ↔ b.nanos < a.nanos

/-- A total order of some of the values, by the times that they stand for. -/
structure Orders {α : Type} (toTimeVal : α → TimeVal) (cmp : α → α → BitVec 32) (S : Set α) : Prop where
  signs : ∀ a ∈ S, ∀ b ∈ S, CmpSigns (cmp a b) (toTimeVal a) (toTimeVal b)
  antisymm : ∀ a ∈ S, ∀ b ∈ S, (cmp a b).toInt < 0 ↔ 0 < (cmp b a).toInt
  trans : ∀ a ∈ S, ∀ b ∈ S, ∀ c ∈ S, (cmp a b).toInt ≤ 0 → (cmp b c).toInt ≤ 0 → (cmp a c).toInt ≤ 0
  equal : ∀ a ∈ S, ∀ b ∈ S, (cmp a b).toInt = 0 ↔ a = b

variable {a b : TimeVal}

theorem eq_of_nanos (ha : a.Normal) (hb : b.Normal) (h : a.nanos = b.nanos) : a = b := by
  obtain ⟨ha0, ha1⟩ := ha
  obtain ⟨hb0, hb1⟩ := hb
  rw [nanos, nanos, billion] at h
  rw [billion] at ha1 hb1
  have hsecs : a.secs = b.secs := BitVec.eq_of_toInt_eq (by omega)
  have hnsecs : a.nsecs = b.nsecs := BitVec.eq_of_toInt_eq (by omega)
  cases a
  cases b
  exact congrArg₂ mk hsecs hnsecs

theorem toInt_int32Billion : int32Billion.toInt = billion := by decide

/-- The seconds are right up to a multiple of 2 ^ 32, and the nanoseconds are right. -/
theorem minus_spec (ha : a.Normal) (hb : b.Normal) :
    (a.minus b).secs.toInt = (wholeSecs a b).bmod (2 ^ 32) ∧
      (a.minus b).nsecs.toInt = (a.nanos - b.nanos) % billion := by
  obtain ⟨ha0, ha1⟩ := ha
  obtain ⟨hb0, hb1⟩ := hb
  rw [billion] at ha1 hb1
  have hdiff : (a.nsecs - b.nsecs).toInt = a.nsecs.toInt - b.nsecs.toInt := by
    rw [BitVec.toInt_sub, Int.bmod_def]
    omega
  have hnanos : a.nanos - b.nanos = (a.secs.toInt - b.secs.toInt) * 1000000000 + (a.nsecs.toInt - b.nsecs.toInt) := by
    rw [nanos, nanos, billion]
    omega
  rw [wholeSecs, hnanos, billion, minus]
  by_cases hborrow : (a.nsecs - b.nsecs).toInt < 0
  · have hwhole : ((a.secs.toInt - b.secs.toInt) * 1000000000 + (a.nsecs.toInt - b.nsecs.toInt)) / (1000000000 : Nat) =
        a.secs.toInt - b.secs.toInt - 1 := by omega
    rw [hwhole, if_pos hborrow]
    constructor
    · simp only [BitVec.toInt_sub, Int.bmod_sub_bmod]
      rfl
    · simp only [BitVec.toInt_sub, BitVec.toInt_add, toInt_int32Billion, billion, Int.bmod_def]
      omega
  · have hwhole : ((a.secs.toInt - b.secs.toInt) * 1000000000 + (a.nsecs.toInt - b.nsecs.toInt)) / (1000000000 : Nat) =
        a.secs.toInt - b.secs.toInt := by omega
    rw [hwhole, if_neg hborrow]
    constructor
    · rw [BitVec.toInt_sub]
    · rw [hdiff]
      omega

theorem wholeSecs_bounds (ha : a.Normal) (hb : b.Normal) : -2 ^ 32 ≤ wholeSecs a b ∧ wholeSecs a b < 2 ^ 32 := by
  obtain ⟨ha0, ha1⟩ := ha
  obtain ⟨hb0, hb1⟩ := hb
  have hlow := BitVec.le_toInt a.secs
  have hhigh := BitVec.toInt_lt (x := a.secs)
  have hlow' := BitVec.le_toInt b.secs
  have hhigh' := BitVec.toInt_lt (x := b.secs)
  rw [billion] at ha1 hb1
  rw [wholeSecs, nanos, nanos, billion]
  omega

/-- Seconds that do not fit have the wrong sign. -/
theorem cmpSigns_iff (ha : a.Normal) (hb : b.Normal) : CmpSigns (a.cmpSame b) a b ↔ Fits a b := by
  obtain ⟨hsecs, hnsecs⟩ := minus_spec ha hb
  obtain ⟨hlow, hhigh⟩ := wholeSecs_bounds ha hb
  have hzero : (a.minus b).secs ≠ 0 ↔ (a.minus b).secs.toInt ≠ 0 := not_congr BitVec.toInt_inj.symm
  have hdiv : a.nanos - b.nanos = billion * wholeSecs a b + (a.nanos - b.nanos) % billion :=
    (Int.mul_ediv_add_emod _ _).symm
  have hpos := Int.emod_nonneg (a.nanos - b.nanos) (show (billion : Int) ≠ 0 by decide)
  have hlt := Int.emod_lt_of_pos (a.nanos - b.nanos) (show (0 : Int) < billion by decide)
  rw [show (billion : Int) = 1000000000 from rfl] at hdiv hpos hlt
  rw [Int.bmod_def] at hsecs
  have hboth : CmpSigns (a.cmpSame b) a b ↔ ((a.cmpSame b).toInt < 0 ↔ a.nanos < b.nanos) ∧
      ((a.cmpSame b).toInt = 0 ↔ a.nanos = b.nanos) ∧ (0 < (a.cmpSame b).toInt ↔ b.nanos < a.nanos) :=
    ⟨fun h => ⟨h.neg, h.zero, h.pos⟩, fun h => ⟨h.1, h.2.1, h.2.2⟩⟩
  rw [hboth, cmpSame, Fits]
  by_cases hsame : (a.minus b).secs ≠ 0
  · rw [if_pos hsame]
    rw [hzero] at hsame
    split at hsecs <;> omega
  · rw [if_neg hsame, hnsecs, show (billion : Int) = 1000000000 from rfl]
    rw [hzero, not_not] at hsame
    split at hsecs <;> omega

theorem CmpSigns.le_iff {r : BitVec 32} (h : CmpSigns r a b) : r.toInt ≤ 0 ↔ a.nanos ≤ b.nanos := by
  rw [← Int.not_lt, h.pos, Int.not_lt]

/-- Values between which every difference fits are in order, and no others are. -/
theorem orders_iff {α : Type} {toTimeVal : α → TimeVal} (hinj : Function.Injective toTimeVal)
    {cmp : α → α → BitVec 32} (hcmp : ∀ a b, cmp a b = (toTimeVal a).cmpSame (toTimeVal b)) {S : Set α}
    (hnormal : ∀ a ∈ S, (toTimeVal a).Normal) :
    Orders toTimeVal cmp S ↔ ∀ a ∈ S, ∀ b ∈ S, Fits (toTimeVal a) (toTimeVal b) := by
  have hsigns : ∀ a ∈ S, ∀ b ∈ S, CmpSigns (cmp a b) (toTimeVal a) (toTimeVal b) ↔
      Fits (toTimeVal a) (toTimeVal b) := by
    intro a ha b hb
    rw [hcmp]
    exact cmpSigns_iff (hnormal a ha) (hnormal b hb)
  constructor
  · intro h a ha b hb
    exact (hsigns a ha b hb).mp (h.signs a ha b hb)
  · intro h
    have hall : ∀ a ∈ S, ∀ b ∈ S, CmpSigns (cmp a b) (toTimeVal a) (toTimeVal b) :=
      fun a ha b hb => (hsigns a ha b hb).mpr (h a ha b hb)
    refine ⟨hall, ?_, ?_, ?_⟩
    · intro a ha b hb
      exact (hall a ha b hb).neg.trans (hall b hb a ha).pos.symm
    · intro a ha b hb c hc hab hbc
      rw [(hall a ha b hb).le_iff] at hab
      rw [(hall b hb c hc).le_iff] at hbc
      rw [(hall a ha c hc).le_iff]
      exact Int.le_trans hab hbc
    · intro a ha b hb
      rw [(hall a ha b hb).zero]
      exact ⟨fun heq => hinj (eq_of_nanos (hnormal a ha) (hnormal b hb) heq), fun heq => heq ▸ rfl⟩

end TimeVal

open TimeVal (Normal Fits Orders)

/-- Both classes order those normal values between which every difference fits. -/
theorem times_ordered_iff (S : Set Time) (T : Set TimeDelta) (hS : ∀ a ∈ S, a.Normal) (hT : ∀ d ∈ T, d.Normal) :
    (Orders Time.toTimeVal Time.cmp S ↔ ∀ a ∈ S, ∀ b ∈ S, Fits a.toTimeVal b.toTimeVal) ∧
      (Orders TimeDelta.toTimeVal TimeDelta.cmp T ↔ ∀ d ∈ T, ∀ e ∈ T, Fits d.toTimeVal e.toTimeVal) := by
  constructor
  · exact TimeVal.orders_iff (fun a b h => by cases a; cases b; exact congrArg _ h) (fun _ _ => rfl) hS
  · exact TimeVal.orders_iff (fun d e h => by cases d; cases e; exact congrArg _ h) (fun _ _ => rfl) hT

/-- Half a second before and after the epoch, and a day back and ahead. -/
theorem half_seconds_ordered : Orders Time.toTimeVal Time.cmp {⟨⟨-1, 500000000⟩⟩, ⟨⟨0, 500000000⟩⟩} ∧
    Orders TimeDelta.toTimeVal TimeDelta.cmp {⟨⟨-86400, 0⟩⟩, ⟨⟨86400, 0⟩⟩} := by
  refine (times_ordered_iff _ _ (fun a ha => ?_) fun d hd => ?_).imp (fun h => h.mpr fun a ha b hb => ?_)
    fun h => h.mpr fun d hd e he => ?_
  · rcases ha with rfl | rfl <;> decide
  · rcases hd with rfl | rfl <;> decide
  · rcases ha with rfl | rfl <;> rcases hb with rfl | rfl <;> decide
  · rcases hd with rfl | rfl <;> rcases he with rfl | rfl <;> decide

/-- From 1906 to 2033 there are more than 2 ^ 31 seconds. -/
theorem far_times_unordered : ¬Orders Time.toTimeVal Time.cmp {a | a.Normal} := by
  intro h
  have hpos := (h.signs ⟨⟨2000000000, 0⟩⟩ (show Normal _ by decide) ⟨⟨-2000000000, 0⟩⟩ (show Normal _ by decide)).pos
  exact absurd (hpos.mpr (by decide)) (by decide)

namespace Time

variable {a b : Time} {d : TimeDelta} {t : Time}

/-- Up to a whole second the nanoseconds are kept as they are. -/
theorem add_small (h0 : 0 ≤ (t.nsecs + d.nsecs).toInt) (h1 : (t.nsecs + d.nsecs).toInt ≤ billion) :
    t.add d = ⟨⟨t.secs + d.secs, t.nsecs + d.nsecs⟩⟩ := by
  rw [add, TimeVal.toInt_int32Billion, if_neg (by omega)]

/-- A second is carried if there are more nanoseconds. -/
theorem add_carried {nsecs : BitVec 32} (h0 : 0 < nsecs.toInt) (h1 : nsecs.toInt < billion)
    (hsum : t.nsecs + d.nsecs = nsecs + int32Billion) : t.add d = ⟨⟨t.secs + d.secs + 1, nsecs⟩⟩ := by
  rw [billion] at h1
  have hint : (nsecs + int32Billion).toInt = nsecs.toInt + 1000000000 := by
    rw [BitVec.toInt_add, TimeVal.toInt_int32Billion, billion, Int.bmod_def]
    omega
  have hdiv : (nsecs + int32Billion).sdiv int32Billion = 1 := by
    refine BitVec.eq_of_toInt_eq ?_
    rw [BitVec.toInt_sdiv_of_ne_or_ne _ _ (.inr (by decide)), hint, TimeVal.toInt_int32Billion, billion,
      Int.tdiv_eq_ediv_of_nonneg (by omega)]
    change _ = (1 : Int)
    omega
  have hrem : (nsecs + int32Billion).srem int32Billion = nsecs := by
    refine BitVec.eq_of_toInt_eq ?_
    rw [BitVec.toInt_srem, hint, TimeVal.toInt_int32Billion, billion, Int.tmod_eq_emod_of_nonneg (by omega)]
    omega
  rw [add, hsum, hint, TimeVal.toInt_int32Billion, billion, if_pos (.inl (by omega)), hdiv, hrem]

/-- The difference and its sum with the earlier time are normal, and the sum is the later time. -/
def SubAdds (a b : Time) : Prop := (a.sub b).Normal ∧ (b.add (a.sub b)).Normal ∧ b.add (a.sub b) = a

theorem minus_normal (ha : a.Normal) (hb : b.Normal) : (a.sub b).Normal := by
  obtain ⟨-, hnsecs⟩ := TimeVal.minus_spec ha hb
  change 0 ≤ (a.minus b.toTimeVal).nsecs.toInt ∧ (a.minus b.toTimeVal).nsecs.toInt < billion
  rw [hnsecs]
  exact ⟨Int.emod_nonneg _ (by decide), Int.emod_lt_of_pos _ (by decide)⟩

/-- A difference is added up to the time again unless it borrows from the seconds and makes up a whole second. -/
theorem subAdds_iff (a b : Time) (ha : a.Normal) (hb : b.Normal) :
    SubAdds a b ↔ a.nsecs ≠ 0 ∨ b.nsecs = 0 := by
  have hdiff := minus_normal ha hb
  obtain ⟨ha0, ha1⟩ := ha
  obtain ⟨hb0, hb1⟩ := hb
  have hzero : ∀ n : BitVec 32, n = 0 ↔ n.toInt = 0 := fun n => BitVec.toInt_inj.symm
  have hsub : (a.nsecs - b.nsecs).toInt = a.nsecs.toInt - b.nsecs.toInt := by
    rw [billion] at ha1 hb1
    rw [BitVec.toInt_sub, Int.bmod_def]
    omega
  by_cases hborrow : (a.nsecs - b.nsecs).toInt < 0
  · have hd : a.sub b = ⟨⟨a.secs - b.secs - 1, int32Billion + a.nsecs - b.nsecs⟩⟩ := by
      rw [sub, TimeVal.minus]
      exact congrArg _ (if_pos hborrow)
    have hsum : b.nsecs + (int32Billion + a.nsecs - b.nsecs) = a.nsecs + int32Billion := by
      rw [BitVec.add_comm, BitVec.sub_add_cancel, BitVec.add_comm]
    by_cases h0 : a.nsecs = 0
    · -- a whole second, which is not carried
      have hbne : b.nsecs ≠ 0 := by
        rw [Ne, hzero]
        rw [hzero] at h0
        omega
      have hadd : b.add (a.sub b) = ⟨⟨b.secs + (a.secs - b.secs - 1), int32Billion⟩⟩ := by
        have hwhole : b.nsecs + (int32Billion + a.nsecs - b.nsecs) = int32Billion := by
          rw [hsum, h0]
          exact BitVec.zero_add _
        rw [hd, add_small] <;> dsimp only <;> rw [hwhole] <;> decide
      refine iff_of_false (fun h => ?_) (fun h => ?_)
      · have hnormal := h.2.1.2
        rw [hadd] at hnormal
        exact absurd hnormal (show ¬int32Billion.toInt < billion by decide)
      · rcases h with h | h
        · exact h h0
        · exact hbne h
    · have hadd : b.add (a.sub b) = a := by
        rw [hd, add_carried (by rw [hzero] at h0; omega) ha1 hsum]
        have hsecs : b.secs + (a.secs - b.secs - 1) + 1 = a.secs := by
          rw [BitVec.add_assoc, BitVec.sub_add_cancel, BitVec.add_comm, BitVec.sub_add_cancel]
        exact congrArg (fun secs => (⟨⟨secs, a.nsecs⟩⟩ : Time)) hsecs
      refine iff_of_true ⟨hdiff, ?_, hadd⟩ (.inl h0)
      rw [hadd]
      exact ⟨ha0, ha1⟩
  · have hd : a.sub b = ⟨⟨a.secs - b.secs, a.nsecs - b.nsecs⟩⟩ := by
      rw [sub, TimeVal.minus]
      exact congrArg _ (if_neg hborrow)
    have hsum : b.nsecs + (a.nsecs - b.nsecs) = a.nsecs := by rw [BitVec.add_comm, BitVec.sub_add_cancel]
    have hsecs : b.secs + (a.secs - b.secs) = a.secs := by rw [BitVec.add_comm, BitVec.sub_add_cancel]
    have hadd : b.add (a.sub b) = a := by
      rw [hd, add_small] <;> dsimp only <;> rw [hsum]
      · rw [hsecs]
      · exact ha0
      · exact Int.le_of_lt ha1
    refine iff_of_true ⟨hdiff, ?_, hadd⟩ ?_
    · rw [hadd]
      exact ⟨ha0, ha1⟩
    · by_cases h0 : a.nsecs = 0
      · rw [hzero] at h0
        exact .inr ((hzero _).mpr (by omega))
      · exact .inl h0

/-- From half a second before the epoch to a quarter of a second behind it, and back. -/
theorem quarter_behind_epoch : SubAdds ⟨⟨0, 250000000⟩⟩ ⟨⟨-1, 500000000⟩⟩ ∧ SubAdds ⟨⟨-1, 500000000⟩⟩ ⟨⟨0, 250000000⟩⟩ :=
  ⟨(subAdds_iff _ _ (by decide) (by decide)).mpr (.inl (by decide)),
    (subAdds_iff _ _ (by decide) (by decide)).mpr (.inl (by decide))⟩

/-- The nanoseconds add up to one second. -/
theorem whole_second_not_carried : ¬SubAdds ⟨⟨1, 0⟩⟩ ⟨⟨0, 500000000⟩⟩ := by
  rintro ⟨-, -, h⟩
  exact absurd h (by decide)

end Time

end Crack
