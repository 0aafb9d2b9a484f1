import Mathlib.Data.List.Pairwise
import Mathlib.Data.List.Perm.Basic
import Mathlib.Tactic.Common

/-!
# Lists of entries with different keys

The contents of a container as a list of entries, each with a key and a value.
A finite map is a function to optional values; a list holds a map when the
entries of a key are the values of the map there. Keys need only an
equivalence for their equality test.
-/
namespace KeyedList

variable {α K V : Type} [BEq K] (key : α → K) (val : α → V)

/-- The keys differ, whichever of them is asked. -/
def Apart (x y : α) : Prop := (key x == key y) = false ∧ (key y == key x) = false

/-- No two of the entries have equal keys. -/
def Distinct (l : List α) : Prop := l.Pairwise (Apart key)

/-- The list has exactly the keys and values of the map. -/
def Holds (l : List α) (M : K → Option V) : Prop :=
  ∀ k v, M k = some v ↔ ∃ x ∈ l, (key x == k) = true ∧ val x = v

def put (M : K → Option V) (k : K) (v : V) : K → Option V := fun k' => if k == k' then some v else M k'

def remove (M : K → Option V) (k : K) : K → Option V := fun k' => if k == k' then none else M k'

variable {key val} {M : K → Option V} {l : List α} {x : α}

theorem Distinct.perm {l l' : List α} (h : Distinct key l) (hp : l.Perm l') : Distinct key l' :=
  (hp.pairwise_iff (fun hxy => ⟨hxy.2, hxy.1⟩)).mp h

theorem Holds.perm {l l' : List α} (h : Holds key val l M) (hp : l.Perm l') : Holds key val l' M := by
  intro k v
  simp only [h k v, hp.mem_iff]

theorem holds_nil : Holds key val [] (fun _ => (none : Option V)) := by
  intro k v
  simp

theorem Holds.none_iff (h : Holds key val l M) (k : K) : M k = none ↔ ∀ x ∈ l, (key x == k) = false := by
  constructor
  · intro hn x hx
    by_contra hk
    rw [Bool.not_eq_false] at hk
    have := (h k (val x)).mpr ⟨x, hx, hk, rfl⟩
    rw [hn] at this; cases this
  · intro hall
    cases hm : M k with
    | none => rfl
    | some v =>
      obtain ⟨x, hx, hk, _⟩ := (h k v).mp hm
      rw [hall x hx] at hk; cases hk

theorem Holds.eq_of_mem (h : Holds key val l M) (hx : x ∈ l) {k : K} (hk : (key x == k) = true) :
    M k = some (val x) :=
  (h k (val x)).mpr ⟨x, hx, hk, rfl⟩

variable [EquivBEq K]

theorem Distinct.cons (h : Distinct key l) (hx : ∀ y ∈ l, (key y == key x) = false) : Distinct key (x :: l) := by
  refine List.pairwise_cons.mpr ⟨fun y hy => ⟨?_, hx y hy⟩, h⟩
  rw [BEq.comm]
  exact hx y hy

theorem Holds.cons (h : Holds key val l M) (hx : ∀ y ∈ l, (key y == key x) = false) :
    Holds key val (x :: l) (put M (key x) (val x)) := by
  intro k v
  unfold put
  by_cases hk : (key x == k) = true
  · rw [if_pos hk]
    constructor
    · intro he
      exact ⟨x, by simp, hk, by simpa using he⟩
    · rintro ⟨y, hy, hyk, hv⟩
      rcases List.mem_cons.mp hy with rfl | hy
      · rw [hv]
      · have : (key y == key x) = true := BEq.trans hyk (BEq.symm hk)
        rw [hx y hy] at this; cases this
  · rw [if_neg hk, h k v]
    constructor
    · rintro ⟨y, hy, hyk⟩; exact ⟨y, by simp [hy], hyk⟩
    · rintro ⟨y, hy, hyk, hv⟩
      rcases List.mem_cons.mp hy with rfl | hy
      · exact absurd hyk hk
      · exact ⟨y, hy, hyk, hv⟩

omit [EquivBEq K] in
theorem Distinct.eq_of_beq (h : Distinct key l) {x y : α} (hx : x ∈ l) (hy : y ∈ l) (hk : (key x == key y) = true) :
    x = y := by
  by_contra hne
  have : Std.Symm (Apart key) := ⟨fun _ _ hxy => ⟨hxy.2, hxy.1⟩⟩
  have := (List.Pairwise.forall h hx hy hne).1
  rw [hk] at this; cases this

/-- What remains without an entry holds the map without its key. -/
theorem Holds.remove {l l' : List α} (h : Holds key val l M) (hd : Distinct key l) (hp : l.Perm (x :: l')) {k : K}
    (hk : (key x == k) = true) : Holds key val l' (KeyedList.remove M k) := by
  have hapart := (List.pairwise_cons.mp (hd.perm hp)).1
  intro k' v
  unfold KeyedList.remove
  by_cases hk' : (k == k') = true
  · rw [if_pos hk']
    constructor
    · intro he; cases he
    · rintro ⟨y, hy, hyk, _⟩
      have : (key x == key y) = true := BEq.trans (BEq.trans hk hk') (BEq.symm hyk)
      rw [(hapart y hy).1] at this; cases this
  · rw [if_neg hk', h k' v]
    constructor
    · rintro ⟨y, hy, hyk, hv⟩
      rcases List.mem_cons.mp (hp.mem_iff.mp hy) with rfl | hy
      · exact absurd (BEq.trans (BEq.symm hk) hyk) hk'
      · exact ⟨y, hy, hyk, hv⟩
    · rintro ⟨y, hy, hyk⟩
      exact ⟨y, hp.mem_iff.mpr (by simp [hy]), hyk⟩

/-- Putting does not ask what was there before. -/
theorem put_remove (M : K → Option V) {k k' : K} (v : V) (hk : (k == k') = true) :
    put (remove M k') k v = put M k' v := by
  funext k''
  unfold put remove
  have : (k == k'') = (k' == k'') := by
    rw [Bool.eq_iff_iff]
    exact ⟨fun h => BEq.trans (BEq.symm hk) h, fun h => BEq.trans hk h⟩
  rw [this]
  split <;> rfl

end KeyedList
