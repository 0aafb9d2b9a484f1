import Crack.Sched.EventManager
import Mathlib.Data.List.Perm.Lattice

/-!
# What the schedule holds

The entries of the tree with their arrays as a list of events, and what the
operations of `EventManager` do to it.
-/
namespace Crack

open TreeMap (heavycmp order order_heavycmp Tidy)

theorem uint64_cast (i : Int) : (uint64 i : Int) = i % 2 ^ 64 := by
  rw [uint64]
  exact Int.toNat_of_nonneg (Int.emod_nonneg i (by decide))

namespace TimeVal

/-- The time in nanoseconds. -/
def nanos (t : TimeVal) : Int := t.secs.toInt * billion + t.nsecs.toInt

theorem nanos_lt (t : TimeVal) : t.nanos < 2 ^ 64 := by
  have hsecs := BitVec.toInt_lt (x := t.secs)
  have hnsecs := BitVec.toInt_lt (x := t.nsecs)
  rw [nanos, billion]
  omega

theorem toNanos_eq {t : TimeVal} (h : 0 ≤ t.nanos) : (t.toNanos : Int) = t.nanos := by
  have hlt := t.nanos_lt
  have hmod : (t.toNanos : Int) = t.nanos % 2 ^ 64 := by
    rw [toNanos, uint64_cast, uint64_cast, uint64_cast, uint64_cast, Int.emod_add_emod,
      Int.add_emod_emod, Int.add_emod, Int.mul_emod, Int.emod_emod, ← Int.mul_emod, ← Int.add_emod, nanos]
  rw [hmod, Int.emod_eq_of_lt h hlt]

theorem fromNanos_nanos {n : Nat} (h : n < 2 ^ 31 * billion) : (fromNanos n).nanos = n := by
  have hsecs : n / billion < 2 ^ 31 := Nat.div_lt_of_lt_mul (by rwa [Nat.mul_comm] at h)
  have hnsecs : n % billion < 2 ^ 31 := Nat.lt_trans (Nat.mod_lt n (by decide)) (by decide)
  have hofNat : ∀ {x : Nat}, x < 2 ^ 31 → (BitVec.ofNat 32 x).toInt = x := by
    intro x hx
    have hlt : (BitVec.ofNat 32 x).toNat = x := by
      rw [BitVec.toNat_ofNat]
      exact Nat.mod_eq_of_lt (by omega)
    rw [BitVec.toInt_eq_toNat_of_lt (by omega), hlt]
  rw [nanos, fromNanos, hofNat hsecs, hofNat hnsecs]
  have hdiv := Nat.div_add_mod n billion
  rw [Nat.mul_comm] at hdiv
  exact_mod_cast hdiv

end TimeVal

namespace EventManager

variable {κ : Type} {m m' m'' : EventManager κ} {L L' L'' X Y : List (Nat × Nat)} {added added' : List (Int × κ)}

/-- The events of the entries, each with its time. -/
def events (arrays : Nat → List κ) (L : List (Nat × Nat)) : List (Int × κ) :=
  L.flatMap fun e => (arrays e.2).map ((e.1 : Int), ·)

variable {arrays arrays' : Nat → List κ} {e : Nat × Nat}

theorem events_append : events arrays (X ++ Y) = events arrays X ++ events arrays Y := List.flatMap_append

theorem events_cons :
    events arrays (e :: L) = (arrays e.2).map ((e.1 : Int), ·) ++ events arrays L := List.flatMap_cons

theorem events_congr (h : ∀ e ∈ L, arrays e.2 = arrays' e.2) : events arrays L = events arrays' L := by
  apply List.flatMap_congr
  intro e he
  rw [h e he]

theorem events_update {a : Nat} {v : List κ} (h : a ∉ L.map Prod.snd) :
    events (Function.update arrays a v) L = events arrays L := by
  apply events_congr
  intro e he
  apply Function.update_of_ne
  rintro rfl
  exact h (List.mem_map_of_mem he)

theorem mem_events {p : Int × κ} : p ∈ events arrays L ↔ ∃ e ∈ L, p.1 = e.1 ∧ p.2 ∈ arrays e.2 := by
  obtain ⟨t, callback⟩ := p
  simp only [events, List.mem_flatMap, List.mem_map, Prod.mk.injEq]
  constructor
  · rintro ⟨e, he, c, hc, rfl, rfl⟩
    exact ⟨e, he, rfl, hc⟩
  · rintro ⟨e, he, rfl, hc⟩
    exact ⟨e, he, callback, hc, rfl, rfl⟩

/-- The schedule has the entries `L`, in the order of their times. -/
structure Holds (m : EventManager κ) (L : List (Nat × Nat)) : Prop where
  tidy : ∃ T, Tidy heavycmp m.schedule T L
  count : m.schedule.count = uint L.length
  apart : (L.map Prod.snd).Nodup
  fresh : ∀ e ∈ L, e.2 < m.fresh
  nonempty : ∀ e ∈ L, m.arrays e.2 ≠ []

/-- Entries stay, and events are added. -/
structure Grows (m : EventManager κ) (L : List (Nat × Nat)) (m' : EventManager κ) (L' : List (Nat × Nat))
    (added : List (Int × κ)) : Prop where
  events : (events m'.arrays L').Perm (events m.arrays L ++ added)
  kept : ∀ e ∈ L, e ∈ L' ∧ m.arrays e.2 <+: m'.arrays e.2

theorem Grows.refl : Grows m L m L [] := ⟨by rw [List.append_nil], fun e he => ⟨he, List.prefix_refl _⟩⟩

theorem Grows.trans (h : Grows m L m' L' added) (h' : Grows m' L' m'' L'' added') :
    Grows m L m'' L'' (added ++ added') where
  events := by
    rw [← List.append_assoc]
    exact h'.events.trans (h.events.append_right added')
  kept := by
    intro e he
    obtain ⟨he', hprefix⟩ := h.kept e he
    obtain ⟨he'', hprefix'⟩ := h'.kept e he'
    exact ⟨he'', hprefix.trans hprefix'⟩

theorem init_holds : Holds (init : EventManager κ) [] where
  tidy := ⟨.nil, TreeMap.init_tidy⟩
  count := rfl
  apart := List.nodup_nil
  fresh := by simp
  nonempty := by simp

theorem eq_of_order {a b : Nat} (h : order heavycmp a b = .eq) : a = b := by
  rw [order_heavycmp] at h
  exact Nat.compare_eq_eq.mp h

theorem Holds.get (h : Holds m L) (t : Nat) :
    (∃ X a Y, L = X ++ (t, a) :: Y ∧ m.schedule.get heavycmp t = .ok (some a)) ∨
      (∀ e ∈ L, e.1 ≠ t) ∧ m.schedule.get heavycmp t = .ok none := by
  obtain ⟨T, htidy⟩ := h.tidy
  rcases htidy.find t with ⟨n, e, hfind, -, he, -, hval, horder⟩ | ⟨hfind, hall⟩
  · obtain ⟨X, Y, hL⟩ := List.append_of_mem he
    obtain ⟨k, a⟩ := e
    obtain rfl : k = t := eq_of_order horder
    refine .inl ⟨X, a, Y, hL, ?_⟩
    simp only [TreeMap.get, hfind, hval, deref, bind, Except.bind, pure, Except.pure]
  · refine .inr ⟨fun e he heq => ?_, ?_⟩
    · apply hall e he
      rw [order_heavycmp]
      exact Nat.compare_eq_eq.mpr heq
    · simp only [TreeMap.get, hfind, bind, Except.bind, pure, Except.pure]

theorem Holds.sorted (h : Holds m L) : L.Pairwise (fun e e' => e.1 < e'.1) := by
  obtain ⟨T, htidy⟩ := h.tidy
  refine htidy.sorted.imp (fun hlt => ?_)
  rw [order_heavycmp] at hlt
  exact Nat.compare_eq_lt.mp hlt

/-- Scheduling adds the event. -/
theorem Holds.scheduleEvent (h : Holds m L) (time : TimeVal) (callback : κ) :
    ∃ m' L', m.scheduleEvent time callback = .ok m' ∧ Holds m' L' ∧
      Grows m L m' L' [((time.toNanos : Int), callback)] := by
  obtain ⟨T, htidy⟩ := h.tidy
  rw [EventManager.scheduleEvent]
  generalize time.toNanos = t
  rcases h.get t with ⟨X, a, Y, rfl, hget⟩ | ⟨hall, hget⟩
  · -- the time has an array
    have hsome : (some a).filter (fun events => !(m.arrays events).isEmpty) = some a := by
      have hne := h.nonempty (t, a) (by simp)
      simp [Option.filter, hne]
    simp only [hget, bind, Except.bind, hsome]
    have hapart := h.apart
    rw [List.map_append, List.map_cons, List.nodup_middle, List.nodup_cons, List.mem_append, not_or] at hapart
    obtain ⟨⟨hX, hY⟩, -⟩ := hapart
    have hprefix : ∀ b, m.arrays b <+: Function.update m.arrays a (m.arrays a ++ [callback]) b := by
      intro b
      by_cases hba : b = a
      · rw [hba, Function.update_self]
        exact List.prefix_append _ _
      · exact ⟨[], by rw [List.append_nil, Function.update_of_ne hba]⟩
    refine ⟨_, X ++ (t, a) :: Y, rfl, ⟨⟨T, htidy⟩, h.count, h.apart, h.fresh, ?_⟩, ?_, fun e he => ⟨he, hprefix e.2⟩⟩
    · intro e he hnil
      have hpre := hprefix e.2
      rw [show Function.update m.arrays a (m.arrays a ++ [callback]) e.2 = [] from hnil] at hpre
      exact h.nonempty e he (List.prefix_nil.mp hpre)
    · simp only [events_append, events_cons, events_update hX, events_update hY, Function.update_self, List.map_append,
        List.map_cons, List.map_nil, List.append_assoc]
      exact (List.perm_append_comm.append_left _).append_left _
  · -- a new entry
    obtain ⟨s, T', L', hstore, htidy', hstored, hcount⟩ := htidy.store t m.fresh
    simp only [hget, bind, Except.bind, Option.filter_none, hstore]
    cases hstored with
    | @replace X Y e he => exact absurd (eq_of_order he) (hall e (by simp))
    | @insert X Y hX hY =>
      have hfresh : m.fresh ∉ (X ++ Y).map Prod.snd := by
        intro hmem
        obtain ⟨e, he, heq⟩ := List.mem_map.mp hmem
        exact Nat.ne_of_lt (h.fresh e he) heq
      have hparts := hfresh
      rw [List.map_append, List.mem_append, not_or] at hparts
      have hother : ∀ e ∈ X ++ Y, Function.update m.arrays m.fresh [callback] e.2 = m.arrays e.2 := fun e he =>
        Function.update_of_ne (Nat.ne_of_lt (h.fresh e he)) _ _
      have hcases : ∀ e ∈ X ++ (t, m.fresh) :: Y, e = (t, m.fresh) ∨ e ∈ X ++ Y := by
        intro e he
        rw [List.mem_append, List.mem_cons] at he
        rw [List.mem_append]
        tauto
      refine ⟨_, X ++ (t, m.fresh) :: Y, rfl, ⟨⟨T', htidy'⟩, ?_, ?_, ?_, ?_⟩, ?_, ?_⟩
      · rw [hcount, h.count, uint, uint, uint, List.length_append, List.length_append, List.length_cons]
        omega
      · rw [List.map_append, List.map_cons, List.nodup_middle, ← List.map_append]
        exact List.nodup_cons.mpr ⟨hfresh, h.apart⟩
      · intro e he
        rcases hcases e he with rfl | he
        · exact Nat.lt_succ_self m.fresh
        · exact Nat.lt_succ_of_lt (h.fresh e he)
      · intro e he
        rcases hcases e he with rfl | he
        · change Function.update m.arrays m.fresh [callback] m.fresh ≠ []
          rw [Function.update_self]
          exact List.cons_ne_nil _ _
        · change Function.update m.arrays m.fresh [callback] e.2 ≠ []
          rw [hother e he]
          exact h.nonempty e he
      · simp only [events_append, events_cons, events_update hparts.1, events_update hparts.2, Function.update_self,
          List.map_cons, List.map_nil, List.append_assoc]
        exact List.perm_append_comm.append_left _
      · intro e he
        refine ⟨?_, ?_⟩
        · rw [List.mem_append, List.mem_cons]
          exact (List.mem_append.mp he).imp id Or.inr
        · change m.arrays e.2 <+: Function.update m.arrays m.fresh [callback] e.2
          exact ⟨[], by rw [List.append_nil, hother e he]⟩

/-- The events that the actions schedule, under the keys that the code computes. -/
def keyed : List (Action κ) → List (Int × κ)
  | [] => []
  | .scheduleEvent time callback :: acts => ((time.toNanos : Int), callback) :: keyed acts
  | .terminate :: acts => keyed acts

theorem Holds.performAll (acts : List (Action κ)) (h : Holds m L) :
    ∃ m' L', m.performAll acts = .ok m' ∧ Holds m' L' ∧ Grows m L m' L' (keyed acts) := by
  induction acts generalizing m L with
  | nil => exact ⟨m, L, rfl, h, Grows.refl⟩
  | cons act acts ih =>
    cases act with
    | scheduleEvent time callback =>
      obtain ⟨m₁, L₁, he₁, h₁, hgrows₁⟩ := h.scheduleEvent time callback
      obtain ⟨m₂, L₂, he₂, h₂, hgrows₂⟩ := ih h₁
      refine ⟨m₂, L₂, ?_, h₂, hgrows₁.trans hgrows₂⟩
      rw [EventManager.performAll, List.foldlM_cons, perform, he₁]
      exact he₂
    | terminate =>
      have hterminated : Holds m.terminate L := ⟨h.tidy, h.count, h.apart, h.fresh, h.nonempty⟩
      obtain ⟨m₂, L₂, he₂, h₂, hgrows₂⟩ := ih hterminated
      exact ⟨m₂, L₂, he₂, h₂, hgrows₂.events, hgrows₂.kept⟩

theorem Holds.nextEvent (h : Holds m (e :: L)) : m.nextEvent = .ok e := by
  obtain ⟨T, htidy⟩ := h.tidy
  obtain ⟨n, hiter, hkey, hval⟩ := htidy.iterElem
  simp only [EventManager.nextEvent, hiter, deref, bind, Except.bind, hkey, hval]
  rfl

theorem Holds.first_le (h : Holds m (e :: L)) : ∀ e' ∈ e :: L, e.1 ≤ e'.1 := by
  intro e' he'
  rcases List.mem_cons.mp he' with rfl | he'
  · exact Nat.le_refl _
  · exact Nat.le_of_lt ((List.pairwise_cons.mp h.sorted).1 e' he')

theorem Holds.isTrue_of (h : Holds m L) (ht : m.schedule.isTrue = true) : ∃ e L', L = e :: L' := by
  cases L with
  | nil =>
    have hcount := h.count
    rw [TreeMap.isTrue, hcount] at ht
    cases ht
  | cons e L' => exact ⟨e, L', rfl⟩

theorem Holds.isTrue_iff (h : Holds m L) (hlen : L.length < 2 ^ 32) : m.schedule.isTrue = true ↔ L ≠ [] := by
  rw [TreeMap.isTrue, h.count, uint, Nat.mod_eq_of_lt hlen, decide_eq_true_iff, Ne, List.length_eq_zero_iff]

/-- The time of the first entry; zero stands for none. -/
def headTime (L : List (Nat × Nat)) : Nat := (L.head?.map Prod.fst).getD 0

theorem Holds.firstTime (h : Holds m L) : ∃ t, m.firstTime = .ok t ∧ (L.length < 2 ^ 32 → t = headTime L) := by
  rw [EventManager.firstTime]
  by_cases ht : m.schedule.isTrue = true
  · obtain ⟨e, L', rfl⟩ := h.isTrue_of ht
    rw [if_pos ht, h.nextEvent]
    exact ⟨e.1, rfl, fun _ => rfl⟩
  · rw [if_neg ht]
    refine ⟨0, rfl, fun hlen => ?_⟩
    rw [h.isTrue_iff hlen, not_not] at ht
    rw [ht]
    rfl

/-- Deleting the entry of a time. -/
theorem Holds.delete {t a : Nat} (h : Holds m L) (hmem : (t, a) ∈ L) :
    ∃ s X Y, L = X ++ (t, a) :: Y ∧ m.schedule.delete heavycmp t = .ok (s, .ok ()) ∧
      Holds { m with schedule := s } (X ++ Y) := by
  obtain ⟨T, htidy⟩ := h.tidy
  rcases htidy.delete t with ⟨X, e, Y, s, T', rfl, horder, hdelete, htidy', hcount⟩ | ⟨hall, -⟩
  · have heq : e = (t, a) := by
      by_contra hne
      have hkey : e.1 = t := eq_of_order horder
      have hsorted := h.sorted
      rw [List.pairwise_append, List.pairwise_cons] at hsorted
      rcases List.mem_append.mp hmem with hX | hY
      · exact absurd hkey.symm (Nat.ne_of_lt (hsorted.2.2 _ hX e List.mem_cons_self))
      · rcases List.mem_cons.mp hY with he | hY
        · exact hne he.symm
        · exact absurd hkey (Nat.ne_of_lt (hsorted.2.1.1 _ hY))
    subst heq
    refine ⟨s, X, Y, rfl, hdelete, ⟨T', htidy'⟩, ?_, ?_, ?_, ?_⟩
    · have hold := h.count
      rw [List.length_append, List.length_cons] at hold
      rw [show ({ m with schedule := s } : EventManager κ).schedule.count = s.count from rfl, hcount, hold, uint, uint, uint,
        List.length_append]
      omega
    · exact h.apart.sublist (List.Sublist.map _ (by simp))
    · exact fun e he => h.fresh e (by rw [List.mem_append] at he ⊢; exact he.imp id (List.mem_cons_of_mem _))
    · exact fun e he => h.nonempty e (by rw [List.mem_append] at he ⊢; exact he.imp id (List.mem_cons_of_mem _))
  · exact absurd (by rw [order_heavycmp]; exact Nat.compare_eq_eq.mpr rfl) (hall (t, a) hmem)

end EventManager

end Crack
