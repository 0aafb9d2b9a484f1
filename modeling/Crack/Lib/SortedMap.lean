import Mathlib.Data.List.Pairwise
import Mathlib.Logic.Embedding.Basic
import Mathlib.Order.Lattice
import Mathlib.Tactic.Common

/-!
# Maps in key order

A map that is gone through in the order of its keys: a list of entries whose keys, put into
a linear order, increase strictly.
-/

/-- The entries of a map; `ord` puts the keys into an order. -/
structure SortedMap (K V : Type) {O : Type} [LinearOrder O] (ord : K ↪ O) where
  entries : List (K × V)
  sorted : entries.Pairwise (fun e e' => ord e.1 < ord e'.1)

namespace SortedMap

variable {K V O : Type} [LinearOrder O] [DecidableEq K] {ord : K ↪ O} {l : List (K × V)}

/-- Put an entry in its place; it replaces one with the same key. -/
def place (ord : K ↪ O) (k : K) (v : V) : List (K × V) → List (K × V)
  | [] => [(k, v)]
  | e :: es => if ord k < ord e.1 then (k, v) :: e :: es else if ord e.1 < ord k then e :: place ord k v es else (k, v) :: es

omit [DecidableEq K] in
theorem mem_place {k : K} {v : V} {e : K × V} (h : e ∈ place ord k v l) : e = (k, v) ∨ e ∈ l := by
  induction l with
  | nil => exact .inl (List.mem_singleton.mp h)
  | cons first l ih =>
    rw [place] at h
    split at h
    · exact List.mem_cons.mp h
    · split at h
      · rcases List.mem_cons.mp h with rfl | h
        · exact .inr List.mem_cons_self
        · exact (ih h).imp id (List.mem_cons_of_mem _)
      · exact (List.mem_cons.mp h).imp id (List.mem_cons_of_mem _)

omit [DecidableEq K] in
theorem sorted_place (k : K) (v : V) (h : l.Pairwise (fun e e' => ord e.1 < ord e'.1)) :
    (place ord k v l).Pairwise (fun e e' => ord e.1 < ord e'.1) := by
  induction l with
  | nil => exact List.pairwise_singleton _ _
  | cons first l ih =>
    obtain ⟨hfirst, hl⟩ := List.pairwise_cons.mp h
    rw [place]
    split
    · rename_i hlt
      refine List.pairwise_cons.mpr ⟨fun e he => ?_, h⟩
      rcases List.mem_cons.mp he with rfl | he
      · exact hlt
      · exact hlt.trans (hfirst e he)
    · split
      · rename_i hlt
        refine List.pairwise_cons.mpr ⟨fun e he => ?_, ih hl⟩
        rcases mem_place he with rfl | he
        · exact hlt
        · exact hfirst e he
      · rename_i hle hge
        have heq : ord k = ord first.1 := le_antisymm (not_lt.mp hge) (not_lt.mp hle)
        refine List.pairwise_cons.mpr ⟨fun e he => ?_, hl⟩
        rw [heq]
        exact hfirst e he

omit [DecidableEq K] in
theorem perm_place {k : K} (v : V) (h : ∀ e ∈ l, e.1 ≠ k) : (place ord k v l).Perm ((k, v) :: l) := by
  induction l with
  | nil => exact .refl _
  | cons first l ih =>
    rw [place]
    split
    · exact .refl _
    · split
      · exact ((ih fun e he => h e (List.mem_cons_of_mem _ he)).cons first).trans (.swap _ _ _)
      · rename_i hle hge
        have heq : ord k = ord first.1 := le_antisymm (not_lt.mp hge) (not_lt.mp hle)
        exact absurd (ord.injective heq).symm (h first List.mem_cons_self)

omit [DecidableEq K] in
/-- A key that is there does not make the list longer. -/
theorem length_place {k : K} (v : V) (hl : l.Pairwise (fun e e' => ord e.1 < ord e'.1)) (h : ∃ e ∈ l, e.1 = k) :
    (place ord k v l).length = l.length := by
  induction l with
  | nil =>
    obtain ⟨e, he, -⟩ := h
    cases he
  | cons first l ih =>
    obtain ⟨hfirst, hl⟩ := List.pairwise_cons.mp hl
    obtain ⟨e, he, hek⟩ := h
    rw [place]
    rcases List.mem_cons.mp he with rfl | he
    · rw [hek, if_neg (lt_irrefl _), if_neg (lt_irrefl _)]
      rfl
    · have hlt : ord first.1 < ord k := hek ▸ hfirst e he
      rw [if_neg (not_lt.mpr hlt.le), if_pos hlt, List.length_cons, List.length_cons, ih hl ⟨e, he, hek⟩]

/-- Put some entries into a map, one after the other. -/
def placeAll (ord : K ↪ O) (l es : List (K × V)) : List (K × V) := es.foldl (fun l e => place ord e.1 e.2 l) l

omit [DecidableEq K] in
theorem perm_placeAll {l es : List (K × V)} (hnodup : (es.map Prod.fst).Nodup) (h : ∀ e ∈ es, ∀ e' ∈ l, e'.1 ≠ e.1) :
    (placeAll ord l es).Perm (l ++ es) := by
  induction es generalizing l with
  | nil =>
    rw [List.append_nil]
    exact .refl _
  | cons e es ih =>
    obtain ⟨he, hes⟩ := List.nodup_cons.mp hnodup
    have hplace : (place ord e.1 e.2 l).Perm ((e.1, e.2) :: l) := perm_place e.2 (h e List.mem_cons_self)
    refine (ih hes fun e₁ he₁ e' he' => ?_).trans ?_
    · rcases List.mem_cons.mp (hplace.mem_iff.mp he') with rfl | he'
      · exact fun hkey => he (hkey ▸ List.mem_map_of_mem he₁)
      · exact h e₁ (List.mem_cons_of_mem _ he₁) e' he'
    · exact (hplace.append_right es).trans List.perm_middle.symm

omit [DecidableEq K] in
/-- If nothing was replaced, the keys differ. -/
theorem nodup_of_length {l es : List (K × V)} (hl : l.Pairwise (fun e e' => ord e.1 < ord e'.1))
    (h : l.length + es.length ≤ (placeAll ord l es).length) :
    (es.map Prod.fst).Nodup ∧ ∀ e ∈ es, ∀ e' ∈ l, e'.1 ≠ e.1 := by
  have hle (l : List (K × V)) (k : K) (v : V) (hl : l.Pairwise (fun e e' => ord e.1 < ord e'.1)) :
      (place ord k v l).length ≤ l.length + 1 := by
    by_cases hk : ∃ e ∈ l, e.1 = k
    · rw [length_place v hl hk]
      exact Nat.le_succ _
    · exact Nat.le_of_eq (perm_place v fun e he hek => hk ⟨e, he, hek⟩).length_eq
  have hlall (l es : List (K × V)) (hl : l.Pairwise (fun e e' => ord e.1 < ord e'.1)) :
      (placeAll ord l es).length ≤ l.length + es.length := by
    induction es generalizing l with
    | nil => exact Nat.le_refl _
    | cons e es ih =>
      have hrest := ih (place ord e.1 e.2 l) (sorted_place e.1 e.2 hl)
      have hone := hle l e.1 e.2 hl
      rw [List.length_cons]
      exact Nat.le_trans hrest (by omega)
  induction es generalizing l with
  | nil => exact ⟨List.nodup_nil, fun e he => absurd he List.not_mem_nil⟩
  | cons e es ih =>
    have hrest := hlall (place ord e.1 e.2 l) es (sorted_place e.1 e.2 hl)
    change _ ≤ (placeAll ord (place ord e.1 e.2 l) es).length at h
    rw [List.length_cons] at h
    have hnew : ¬ ∃ e' ∈ l, e'.1 = e.1 := by
      intro hk
      rw [length_place e.2 hl hk] at hrest
      omega
    have hplace : (place ord e.1 e.2 l).Perm ((e.1, e.2) :: l) :=
      perm_place e.2 fun e' he' hek => hnew ⟨e', he', hek⟩
    have hone := hplace.length_eq
    rw [List.length_cons] at hone
    obtain ⟨hnodup, hdiff⟩ := ih (sorted_place e.1 e.2 hl) (by omega)
    refine ⟨List.nodup_cons.mpr ⟨fun hmem => ?_, hnodup⟩, fun e₁ he₁ e' he' => ?_⟩
    · obtain ⟨e₁, he₁, hkey⟩ := List.mem_map.mp hmem
      exact hdiff e₁ he₁ (e.1, e.2) (hplace.mem_iff.mpr List.mem_cons_self) hkey.symm
    · rcases List.mem_cons.mp he₁ with rfl | he₁
      · exact fun hkey => hnew ⟨e', he', hkey⟩
      · exact hdiff e₁ he₁ e' (hplace.mem_iff.mpr (List.mem_cons_of_mem _ he'))

omit [DecidableEq K] in
/-- The same entries with the same keys in the same order. -/
theorem eq_of_perm {es es' : List (K × V)} (hperm : es.Perm es') (hkeys : es.map Prod.fst = es'.map Prod.fst)
    (hnodup : (es'.map Prod.fst).Nodup) : es = es' := by
  induction es generalizing es' with
  | nil => exact (List.nil_perm.mp hperm).symm
  | cons e es ih =>
    cases es' with
    | nil => exact absurd hkeys (List.cons_ne_nil _ _)
    | cons e' es' =>
      obtain ⟨hkey, htail⟩ := List.cons.inj hkeys
      obtain ⟨hnew, hnodup'⟩ := List.nodup_cons.mp hnodup
      have he : e = e' := by
        rcases List.mem_cons.mp (hperm.mem_iff.mp List.mem_cons_self) with he | he
        · exact he
        · exact absurd (hkey ▸ List.mem_map_of_mem he) hnew
      subst he
      rw [ih hperm.cons_inv htail hnodup']

def empty : SortedMap K V ord := ⟨[], .nil⟩

def find (m : SortedMap K V ord) (k : K) : Option V := (m.entries.find? (·.1 = k)).map Prod.snd

def set (m : SortedMap K V ord) (k : K) (v : V) : SortedMap K V ord := ⟨place ord k v m.entries, sorted_place k v m.sorted⟩

theorem find_place (k k' : K) (v : V) (l : List (K × V)) :
    ((place ord k v l).find? (·.1 = k')).map Prod.snd =
      if k' = k then some v else (l.find? (·.1 = k')).map Prod.snd := by
  induction l with
  | nil =>
    by_cases hk : k' = k
    · simp [place, hk]
    · simp [place, hk, Ne.symm hk]
  | cons first l ih =>
    rw [place]
    by_cases hk : k' = k
    · subst hk
      split
      · simp
      · split
        · rename_i hlt
          have hne : first.1 ≠ k' := fun he => absurd (he ▸ hlt) (lt_irrefl _)
          rw [if_pos rfl] at ih ⊢
          rw [List.find?_cons_of_neg (by simpa using hne), ih]
        · simp
    · rw [if_neg hk] at ih ⊢
      split
      · rw [List.find?_cons_of_neg (by simpa using Ne.symm hk)]
      · split
        · by_cases hf : first.1 = k'
          · simp [hf]
          · rw [List.find?_cons_of_neg (by simpa using hf), List.find?_cons_of_neg (by simpa using hf), ih]
        · rename_i hle hge
          have heq : k = first.1 := ord.injective (le_antisymm (not_lt.mp hge) (not_lt.mp hle))
          rw [List.find?_cons_of_neg (by simpa using Ne.symm hk),
            List.find?_cons_of_neg (by simpa using fun he : first.1 = k' => hk (he ▸ heq.symm))]

variable {m : SortedMap K V ord} {k k' : K} {v : V}

theorem find_set (m : SortedMap K V ord) (k k' : K) (v : V) :
    (m.set k v).find k' = if k' = k then some v else m.find k' := find_place k k' v m.entries

theorem mem_of_find (h : m.find k = some v) : (k, v) ∈ m.entries := by
  rw [find, Option.map_eq_some_iff] at h
  obtain ⟨e, he, rfl⟩ := h
  have hk := List.find?_some he
  rw [decide_eq_true_eq] at hk
  exact hk ▸ List.mem_of_find?_eq_some he

/-- A key has one entry. -/
theorem find_of_mem (h : (k, v) ∈ m.entries) : m.find k = some v := by
  obtain ⟨l, l', hl⟩ := List.append_of_mem h
  have hsorted := m.sorted
  rw [hl] at hsorted
  have hbefore : ∀ e ∈ l, e.1 ≠ k := by
    intro e he hek
    have hlt := (List.pairwise_append.mp hsorted).2.2 e he (k, v) List.mem_cons_self
    rw [hek] at hlt
    exact lt_irrefl _ hlt
  rw [find, hl, List.find?_append, List.find?_eq_none.mpr (fun e he => by simpa using hbefore e he)]
  simp

omit [DecidableEq K] in
/-- The first entry with a property has the least key. -/
theorem find_least {p : K × V → Bool} {e e' : K × V} (h : m.entries.find? p = some e) (he' : e' ∈ m.entries)
    (hp : p e' = true) : ord e.1 ≤ ord e'.1 := by
  obtain ⟨-, l, l', hl, hbefore⟩ := List.find?_eq_some_iff_append.mp h
  have hsorted := m.sorted
  rw [hl] at he' hsorted
  rcases List.mem_append.mp he' with hmem | hmem
  · exact absurd hp (by simpa using hbefore e' hmem)
  · rcases List.mem_cons.mp hmem with rfl | hmem
    · exact le_refl _
    · exact le_of_lt ((List.pairwise_cons.mp (List.pairwise_append.mp hsorted).2.1).1 e' hmem)

end SortedMap
