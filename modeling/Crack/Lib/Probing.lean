import Mathlib.Data.List.Nodup
import Mathlib.Data.List.Perm.Basic
import Mathlib.Logic.Function.Basic
import Mathlib.Tactic.Common

/-!
# Linear probing on a circle of slots

A table has `c` slots that form a circle, each empty or with one entry. An entry
belongs into its home slot; when that is taken it goes to the first empty slot
after it. The table is sound for searching when no empty slot lies between the
home of an entry and the entry. Removing an entry leaves a hole, which moves
on as later entries are shifted back into it.
-/
namespace Probing

variable {α : Type} {s : Nat} {stop : Nat → Bool}

/-- Steps from slot `a` forward to slot `i`. -/
def dist (c a i : Nat) : Nat := if a ≤ i then i - a else i + c - a

def next (c i : Nat) : Nat := if i + 1 = c then 0 else i + 1

def prev (c i : Nat) : Nat := if i = 0 then c - 1 else i - 1

theorem dist_lt {c a i : Nat} (ha : a < c) (hi : i < c) : dist c a i < c := by
  unfold dist; split <;> omega

@[simp] theorem dist_self (c a : Nat) : dist c a a = 0 := by simp [dist]

theorem dist_inj {c a i j : Nat} (ha : a < c) (hi : i < c) (hj : j < c)
    (h : dist c a i = dist c a j) : i = j := by
  unfold dist at h; split_ifs at h <;> omega

theorem next_lt {c i : Nat} (hi : i < c) : next c i < c := by
  unfold next; split <;> omega

theorem prev_lt {c i : Nat} (hi : i < c) : prev c i < c := by
  unfold prev; split <;> omega

theorem mod_succ {c i : Nat} (hi : i < c) : (i + 1) % c = next c i := by
  unfold next
  split
  · rename_i h; rw [h, Nat.mod_self]
  · exact Nat.mod_eq_of_lt (by omega)

/-- Going on by one slot, unless that comes back to the start. -/
theorem dist_next {c a i : Nat} (ha : a < c) (hne : next c i ≠ a) :
    dist c a (next c i) = dist c a i + 1 := by
  unfold next dist at *; split_ifs at * <;> omega

theorem dist_of_next_eq {c a i : Nat} (ha : a < c) (h : next c i = a) :
    dist c a i + 1 = c := by
  unfold next dist at *; split_ifs at * <;> omega

/-- Going back by one slot, unless that comes to the end of the way. -/
theorem dist_prev {c a i : Nat} (ha : a < c) (hi : i < c) (hne : prev c i ≠ a) :
    dist c (prev c i) a = dist c i a + 1 := by
  unfold prev dist at *; split_ifs at * <;> omega

/-- Seen from `e`, what is nearer to `a` than `i` is what lies between the two. -/
theorem dist_lt_iff {c e a i j : Nat} (he : e < c) (ha : a < c) (hi : i < c) (hj : j < c)
    (h : dist c e a ≤ dist c e i) :
    dist c a j < dist c a i ↔ dist c e a ≤ dist c e j ∧ dist c e j < dist c e i := by
  unfold dist at *; split_ifs at * <;> omega

/-- `e` does not lie before `i` seen from `a`, so `a` lies before `i` seen from `e`. -/
theorem dist_le_of_le {c e a i : Nat} (he : e < c) (ha : a < c)
    (h : dist c a i ≤ dist c a e) (hne : i ≠ e) : dist c e a ≤ dist c e i ∧ 0 < dist c e a := by
  unfold dist at *; split_ifs at * <;> omega

theorem dist_flip {c e i o : Nat} (he : e < c) (hi : i < c) (ho : o < c) :
    (0 < dist c e i ∧ dist c e i < dist c e o) ↔ (0 < dist c i o ∧ dist c i o < dist c e o) := by
  unfold dist; split_ifs <;> omega

/-- From slot `i` on, the first slot where `stop` holds. -/
def probe (c : Nat) (stop : Nat → Bool) : Nat → Nat → Option Nat
  | 0, _ => none
  | n + 1, i => if stop i then some i else probe c stop n (next c i)

/-- The first slot after `a` where `stop` holds. -/
def FirstStop (c : Nat) (stop : Nat → Bool) (a i : Nat) : Prop :=
  i < c ∧ stop i = true ∧ ∀ j < c, dist c a j < dist c a i → stop j = false

/-- A probe that has passed over everything before `i` ends at the first stop. -/
theorem probe_from {c a : Nat} (ha : a < c) (hs : s < c) (hss : stop s = true) (n i : Nat) (hi : i < c)
    (hn : dist c a i + n = c) (hpassed : ∀ j < c, dist c a j < dist c a i → stop j = false) :
    ∃ r, probe c stop n i = some r ∧ FirstStop c stop a r := by
  induction n generalizing i with
  | zero =>
    have := dist_lt ha hi
    omega
  | succ n ih =>
    rw [probe]
    by_cases hst : stop i = true
    · exact ⟨i, by rw [if_pos hst], hi, hst, hpassed⟩
    · rw [if_neg hst]
      have hpassed' : ∀ j < c, dist c a j < dist c a i + 1 → stop j = false := by
        intro j hj hlt
        by_cases he : dist c a j = dist c a i
        · rw [dist_inj ha hj hi he]; simpa using hst
        · exact hpassed j hj (by omega)
      by_cases hw : next c i = a
      · have hall := dist_of_next_eq ha hw
        have := hpassed' s hs (by have := dist_lt ha hs; omega)
        rw [hss] at this; cases this
      · have hd := dist_next ha hw
        exact ih (next c i) (next_lt hi) (by omega) (fun j hj hlt => hpassed' j hj (by omega))

/-- A probe over the whole circle finds the first stop if there is one. -/
theorem probe_some {c a : Nat} (ha : a < c) (hs : s < c) (hss : stop s = true) :
    ∃ r, probe c stop c a = some r ∧ FirstStop c stop a r :=
  probe_from ha hs hss c a ha (by simp) (by simp)

/-- The entries in slot order. -/
def live (c : Nat) (t : Nat → Option α) : List α := (List.range c).filterMap t

theorem mem_live {c : Nat} {t : Nat → Option α} {x : α} : x ∈ live c t ↔ ∃ i < c, t i = some x := by
  simp [live]

@[simp] theorem live_empty (c : Nat) : live c (fun _ => (none : Option α)) = [] := by
  simp [live]

/-- The entries apart from the one in slot `i`. -/
def liveBut (c : Nat) (t : Nat → Option α) (i : Nat) : List α := ((List.range c).erase i).filterMap t

theorem live_perm {c i : Nat} (t : Nat → Option α) (hi : i < c) :
    (live c t).Perm ((t i).toList ++ liveBut c t i) := by
  have hp : (List.range c).Perm (i :: (List.range c).erase i) :=
    List.perm_cons_erase (List.mem_range.mpr hi)
  refine (hp.filterMap t).trans ?_
  cases h : t i <;> simp [liveBut, h]

theorem liveBut_update {c i : Nat} (t : Nat → Option α) (o : Option α) :
    liveBut c (Function.update t i o) i = liveBut c t i := by
  refine List.filterMap_congr (fun j hj => ?_)
  have hne : j ≠ i := by
    rintro rfl
    exact List.nodup_range.not_mem_erase hj
  rw [Function.update_of_ne hne]

/-- What an assignment to a slot does to the entries. -/
theorem live_update {c i : Nat} (t : Nat → Option α) (hi : i < c) (o : Option α) :
    (live c (Function.update t i o)).Perm (o.toList ++ liveBut c t i) := by
  have h := live_perm (Function.update t i o) hi
  rwa [Function.update_self, liveBut_update] at h

theorem live_insert {c i : Nat} {t : Nat → Option α} (hi : i < c) (hn : t i = none) (x : α) :
    (live c (Function.update t i (some x))).Perm (x :: live c t) := by
  refine (live_update t hi (some x)).trans ?_
  have h := live_perm t hi
  rw [hn] at h
  exact h.symm.cons x

theorem live_remove {c i : Nat} {t : Nat → Option α} {x : α} (hi : i < c) (hx : t i = some x) :
    (x :: live c (Function.update t i none)).Perm (live c t) := by
  refine ((live_update t hi none).cons x).trans ?_
  have h := live_perm t hi
  rw [hx] at h
  exact h.symm

/-- Moving an entry into an empty slot keeps the entries. -/
theorem live_move {c i o : Nat} {t : Nat → Option α} {x : α} (hi : i < c) (ho : o < c)
    (hx : t i = some x) (hn : t o = none) :
    (live c (Function.update (Function.update t o (some x)) i none)).Perm (live c t) := by
  have hne : i ≠ o := by rintro rfl; rw [hx] at hn; cases hn
  have h := live_remove (t := Function.update t o (some x)) hi (by rw [Function.update_of_ne hne, hx])
  exact (h.trans (live_insert ho hn x)).cons_inv

/-- Fewer entries than slots leave an empty slot. -/
theorem exists_empty {c : Nat} {t : Nat → Option α} (h : (live c t).length < c) : ∃ i < c, t i = none := by
  by_contra hno
  have hall : ∀ i ∈ List.range c, (t i).isSome = true := by
    intro i hi
    by_contra hi'
    rw [Option.not_isSome_iff_eq_none] at hi'
    exact hno ⟨i, List.mem_range.mp hi, hi'⟩
  have := (List.filterMap_length_eq_length (f := t)).mpr hall
  rw [List.length_range] at this
  unfold live at h
  omega

variable {c : Nat} {home : α → Nat} {t : Nat → Option α}

variable (c home) in
/-- No empty slot lies between the home of an entry and the entry. -/
def Reachable (t : Nat → Option α) : Prop :=
  ∀ i < c, ∀ x, t i = some x → ∀ j < c, dist c (home x) j < dist c (home x) i → t j ≠ none

theorem reachable_empty : Reachable c home (fun _ => none) := by
  intro i _ x hx; cases hx

/-- An entry goes to the first empty slot from its home. -/
theorem Reachable.insert (h : Reachable c home t) {i : Nat} {x : α}
    (hf : ∀ j < c, dist c (home x) j < dist c (home x) i → t j ≠ none) :
    Reachable c home (Function.update t i (some x)) := by
  have hkeep : ∀ j, t j ≠ none → Function.update t i (some x) j ≠ none := by
    intro j hj
    by_cases hji : j = i
    · subst hji; simp
    · rwa [Function.update_of_ne hji]
  intro k hk y hy j hj hlt
  by_cases hki : k = i
  · subst hki
    rw [Function.update_self, Option.some.injEq] at hy
    subst hy
    exact hkeep j (hf j hj hlt)
  · rw [Function.update_of_ne hki] at hy
    exact hkeep j (h k hk y hy j hj hlt)

/-- Replacing an entry by one with the same home. -/
theorem Reachable.replace (h : Reachable c home t) {i : Nat} {x y : α} (hi : i < c) (hx : t i = some x)
    (hh : home y = home x) : Reachable c home (Function.update t i (some y)) :=
  h.insert (fun j hj hlt => h i hi x hx j hj (by rwa [hh] at hlt))

/-- `b` lies after `a` and not after `c'`, going round the circle. -/
def InOrder (c a b c' : Nat) : Prop := 0 < dist c a b ∧ dist c a b ≤ dist c a c'

/-- The last empty slot before `i`, going back from slot `i`. -/
def lastEmpty (c : Nat) (t : Nat → Option α) : Nat → Nat → Option Nat
  | 0, _ => none
  | n + 1, i => if (t i).isNone then some i else lastEmpty c t n (prev c i)

/-- All slots between the empty slot `e` and `o` are taken. -/
structure RunStart (c : Nat) (t : Nat → Option α) (e o : Nat) : Prop where
  lt : e < c
  empty : t e = none
  ne : e ≠ o
  taken : ∀ j < c, 0 < dist c e j → dist c e j < dist c e o → t j ≠ none

theorem lastEmpty_from {o : Nat} (ho : o < c) (hs : s < c) (hso : s ≠ o) (hsn : t s = none) (n i : Nat) (hi : i < c)
    (hio : i ≠ o) (hn : c ≤ dist c i o + n)
    (hpassed : ∀ j < c, 0 < dist c j o → dist c j o < dist c i o → t j ≠ none) :
    ∃ e, lastEmpty c t n i = some e ∧ RunStart c t e o := by
  induction n generalizing i with
  | zero =>
    have := dist_lt hi ho
    omega
  | succ n ih =>
    rw [lastEmpty]
    cases hti : t i with
    | none =>
      refine ⟨i, by simp, hi, hti, hio, fun j hj h₁ h₂ => ?_⟩
      obtain ⟨h₃, h₄⟩ := (dist_flip hi hj ho).mp ⟨h₁, h₂⟩
      exact hpassed j hj h₃ h₄
    | some x =>
      have hpassed' : ∀ j < c, 0 < dist c j o → dist c j o < dist c i o + 1 → t j ≠ none := by
        intro j hj h₁ h₂
        by_cases he : dist c j o = dist c i o
        · have : j = i := by unfold dist at he; split_ifs at he <;> omega
          rw [this, hti]; simp
        · exact hpassed j hj h₁ (by omega)
      by_cases hpo : prev c i = o
      · have hall : dist c i o + 1 = c := by unfold prev dist at *; split_ifs at * <;> omega
        have hd : 0 < dist c s o := by unfold dist; split_ifs <;> omega
        exact absurd hsn (hpassed' s hs hd (by have := dist_lt hs ho; omega))
      · have hd := dist_prev ho hi hpo
        simp only [Option.isNone_some, Bool.false_eq_true, if_false]
        exact ih (prev c i) (prev_lt hi) hpo (by omega) (fun j hj h₁ h₂ => hpassed' j hj h₁ (by omega))

/-- The search for the start of the run ends when there is an empty slot besides `o`. -/
theorem lastEmpty_some {o : Nat} (ho : o < c) (hs : s < c) (hso : s ≠ o) (hsn : t s = none) :
    ∃ e, lastEmpty c t c (prev c o) = some e ∧ RunStart c t e o := by
  have hc : 1 < c := by omega
  have hne : prev c o ≠ o := by unfold prev; split <;> omega
  have hd : dist c (prev c o) o = 1 := by unfold prev dist; split_ifs <;> omega
  refine lastEmpty_from ho hs hso hsn _ _ (prev_lt ho) hne (by omega) (fun j hj h₁ h₂ => ?_)
  omega

/-- The state of a backward shift: `o` is the hole, everything between `e` and
`i` besides it is taken, and entries behind the hole do not belong before it. -/
structure Shifting (c : Nat) (home : α → Nat) (t : Nat → Option α) (e o i q : Nat) : Prop where
  start : RunStart c t e o
  lt : o < c
  hole : t o = none
  index : i < c
  pos : dist c e o < q
  at_i : dist c e i = q ∨ i = e ∧ q = c
  settled : ∀ s < c, ∀ x, t s = some x → 0 < dist c e (home x) ∧ dist c e (home x) ≤ dist c e s ∧
    ∀ j < c, dist c e (home x) ≤ dist c e j → dist c e j < dist c e s → t j ≠ none ∨ j = o
  scanned : ∀ s < c, ∀ x, t s = some x → dist c e o < dist c e s → dist c e s < q → dist c e o < dist c e (home x)

/-- With a hole only at `o`, the shift starts behind it. -/
theorem Reachable.shifting (h : Reachable c home t) (hh : ∀ x, home x < c) {e o : Nat} {y : α} (ho : o < c)
    (hy : t o = some y) (hs : RunStart c (Function.update t o none) e o) :
    Shifting c home (Function.update t o none) e o (next c o) (dist c e o + 1) := by
  have hte : t e = none := by
    have := hs.empty
    rwa [Function.update_of_ne hs.ne] at this
  refine ⟨hs, ho, by simp, next_lt ho, by omega, ?_, ?_, ?_⟩
  · by_cases hw : next c o = e
    · exact .inr ⟨hw, dist_of_next_eq hs.lt hw⟩
    · exact .inl (dist_next hs.lt hw)
  · intro s hsc x hx
    have hso : s ≠ o := by rintro rfl; simp at hx
    rw [Function.update_of_ne hso] at hx
    have hse : s ≠ e := by rintro rfl; rw [hte] at hx; cases hx
    have hle : dist c (home x) s ≤ dist c (home x) e := by
      by_contra hlt
      exact h s hsc x hx e hs.lt (by omega) hte
    obtain ⟨h₁, h₂⟩ := dist_le_of_le hs.lt (hh x) hle hse
    refine ⟨h₂, h₁, fun j hj h₃ h₄ => ?_⟩
    by_cases hjo : j = o
    · exact .inr hjo
    · refine .inl ?_
      rw [Function.update_of_ne hjo]
      exact h s hsc x hx j hj ((dist_lt_iff hs.lt (hh x) hsc hj h₁).mpr ⟨h₃, h₄⟩)
  · intro s _ x _ h₁ h₂
    omega

namespace Shifting

variable {e o i q : Nat} {x : α}

section

variable (h : Shifting c home t e o i q)

include h

theorem dist_eq (hx : t i = some x) : dist c e i = q := by
  rcases h.at_i with hq | ⟨rfl, _⟩
  · exact hq
  · have := h.start.empty
    rw [hx] at this; cases this

theorem next_at (hx : t i = some x) : dist c e (next c i) = q + 1 ∨ next c i = e ∧ q + 1 = c := by
  have hq := h.dist_eq hx
  by_cases hw : next c i = e
  · exact .inr ⟨hw, by rw [← hq]; exact dist_of_next_eq h.start.lt hw⟩
  · exact .inl (by rw [← hq]; exact dist_next h.start.lt hw)

/-- An entry that belongs before the hole is moved into it, and leaves the new hole. -/
theorem move (hx : t i = some x) (ho : InOrder c e (home x) o) :
    Shifting c home (Function.update (Function.update t o (some x)) i none) e i (next c i) (q + 1) := by
  have hq := h.dist_eq hx
  have hio : i ≠ o := by rintro rfl; rw [h.hole] at hx; cases hx
  have hie : i ≠ e := by rintro rfl; rw [h.start.empty] at hx; cases hx
  have hpos := h.pos
  have hget : ∀ j, j ≠ i → j ≠ o →
      Function.update (Function.update t o (some x)) i none j = t j := by
    intro j hji hjo
    rw [Function.update_of_ne hji, Function.update_of_ne hjo]
  have hgeto : Function.update (Function.update t o (some x)) i none o = some x := by
    rw [Function.update_of_ne (Ne.symm hio), Function.update_self]
  have hfill : ∀ j, t j ≠ none ∨ j = o →
      Function.update (Function.update t o (some x)) i none j ≠ none ∨ j = i := by
    intro j hj
    by_cases hji : j = i
    · exact .inr hji
    · by_cases hjo : j = o
      · subst hjo; left; rw [hgeto]; simp
      · left; rw [hget j hji hjo]; exact hj.resolve_right hjo
  refine ⟨⟨h.start.lt, ?_, Ne.symm hie, ?_⟩, h.index, by simp, next_lt h.index, by omega, h.next_at hx, ?_, ?_⟩
  · rw [hget e (Ne.symm hie) h.start.ne]; exact h.start.empty
  · intro j hj h₁ h₂
    have hji : j ≠ i := by rintro rfl; omega
    refine (hfill j ?_).resolve_right hji
    by_cases hjo : j = o
    · exact .inr hjo
    · refine .inl ?_
      rcases Nat.lt_trichotomy (dist c e j) (dist c e o) with hlt | heq | hgt
      · exact h.start.taken j hj h₁ hlt
      · exact absurd (dist_inj h.start.lt hj h.lt heq) hjo
      · -- a slot between the hole and `i` is before `x`, whose way from home is taken
        obtain ⟨_, _, hway⟩ := h.settled i h.index x hx
        exact (hway j hj (by have := ho.2; omega) h₂).resolve_right hjo
  · intro s hs y hy
    have hsi : s ≠ i := by rintro rfl; simp at hy
    by_cases hso : s = o
    · subst hso
      rw [hgeto, Option.some.injEq] at hy
      subst hy
      obtain ⟨_, _, hway⟩ := h.settled i h.index x hx
      exact ⟨ho.1, ho.2, fun j hj h₁ h₂ => hfill j (hway j hj h₁ (by omega))⟩
    · rw [hget s hsi hso] at hy
      obtain ⟨h₁, h₂, hway⟩ := h.settled s hs y hy
      exact ⟨h₁, h₂, fun j hj h₃ h₄ => hfill j (hway j hj h₃ h₄)⟩
  · intro s _ y _ h₁ h₂
    omega

/-- An entry that belongs behind the hole stays. -/
theorem stay (hx : t i = some x) (ho : ¬ InOrder c e (home x) o) : Shifting c home t e o (next c i) (q + 1) := by
  have hq := h.dist_eq hx
  have hpos := h.pos
  refine ⟨h.start, h.lt, h.hole, next_lt h.index, by omega, h.next_at hx, h.settled, ?_⟩
  intro s hs y hy h₁ h₂
  by_cases hsi : s = i
  · subst hsi
    rw [hx, Option.some.injEq] at hy
    subst hy
    obtain ⟨hp, _, _⟩ := h.settled s hs x hx
    unfold InOrder at ho
    omega
  · refine h.scanned s hs y hy h₁ ?_
    have : dist c e s ≠ dist c e i := fun he => hsi (dist_inj h.start.lt hs h.index he)
    omega

/-- At the next empty slot the shift is over and every entry can be found. -/
theorem done (hh : ∀ x, home x < c) (hn : t i = none) : Reachable c home t := by
  intro s hs x hx j hj hlt
  obtain ⟨h₁, h₂, hway⟩ := h.settled s hs x hx
  obtain ⟨h₃, h₄⟩ := (dist_lt_iff h.start.lt (hh x) hs hj h₂).mp hlt
  refine (hway j hj h₃ h₄).resolve_right ?_
  rintro rfl
  have hsq := h.scanned s hs x hx h₄
  have hpos := h.pos
  rcases h.at_i with hq | ⟨rfl, hq⟩
  · have hsi : s ≠ i := by rintro rfl; rw [hx] at hn; cases hn
    have hne : dist c e s ≠ dist c e i := fun he => hsi (dist_inj h.start.lt hs h.index he)
    by_cases hlt' : dist c e s < q
    · have := hsq hlt'; omega
    · rcases hway i h.index (by omega) (by omega) with hi | hi
      · exact hi hn
      · rw [hi] at hq; omega
  · have := hsq (by have := dist_lt h.start.lt hs; omega)
    omega

/-- The shift has passed at most all slots. -/
theorem le : q ≤ c := by
  rcases h.at_i with hq | ⟨_, hq⟩
  · have := dist_lt h.start.lt h.index
    omega
  · omega

theorem lt_of_some (hx : t i = some x) : q < c := by
  rw [← h.dist_eq hx]
  exact dist_lt h.start.lt h.index

end

end Shifting

end Probing
