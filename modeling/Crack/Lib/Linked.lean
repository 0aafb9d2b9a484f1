import Mathlib.Data.List.Nodup
import Mathlib.Tactic.Common

/-!
# Linked lists

A path follows one link function from node to node.

Two link functions on nodes realise a list when each node of it points back to
the one before and on to the one after. A segment names what its ends point to.
Changing the links at the ends of a segment changes only these two.
-/
namespace Linked

section

variable {A : Type} {next next' : A → Option A} {p q : Option A} {l l' : List A} {a : A}

variable (next) in
/-- From `p` on there are the nodes `l`, and then `q`. -/
def Path : Option A → List A → Option A → Prop
  | p, [], q => p = q
  | p, a :: l, q => p = some a ∧ Path (next a) l q

theorem path_append : Path next p (l ++ l') q ↔ ∃ r, Path next p l r ∧ Path next r l' q := by
  induction l generalizing p with
  | nil => simp [Path]
  | cons a l ih => simp [Path, ih, and_assoc]

/-- A path in two parts, around a node. -/
theorem path_middle : Path next p (l ++ a :: l') q ↔ Path next p l (some a) ∧ Path next (next a) l' q := by
  rw [path_append]
  constructor
  · rintro ⟨r, h, rfl, h'⟩
    exact ⟨h, h'⟩
  · rintro ⟨h, h'⟩
    exact ⟨some a, h, rfl, h'⟩

theorem Path.congr (h : Path next p l q) (hn : ∀ a ∈ l, next' a = next a) : Path next' p l q := by
  induction l generalizing p with
  | nil => exact h
  | cons a l ih =>
    obtain ⟨hp, h⟩ := h
    refine ⟨hp, ?_⟩
    rw [hn a List.mem_cons_self]
    exact ih h fun b hb => hn b (List.mem_cons_of_mem a hb)

theorem Path.start (h : Path next p l none) : p = l.head? := by
  cases l with
  | nil => exact h
  | cons a l => exact h.1

/-- What comes after a node of the path. -/
theorem Path.next_eq (h : Path next p (l ++ a :: l') none) : next a = l'.head? :=
  (path_middle.mp h).2.start

/-- Nothing comes after the last one of different nodes. -/
theorem last_iff (h : (l ++ a :: l').Nodup) : some a = (l ++ a :: l').getLast? ↔ l' = [] := by
  rw [List.getLast?_append, List.getLast?_cons, Option.some_or]
  cases hl : l'.getLast? with
  | none => simp [List.getLast?_eq_none_iff.mp hl]
  | some t =>
    have ht := List.mem_of_getLast? hl
    simp only [Option.getD_some, Option.some.injEq]
    constructor
    · rintro rfl
      exact absurd ht (List.nodup_cons.mp (List.nodup_append'.mp h).2.1).1
    · rintro rfl
      cases ht

/-- Nothing comes before the first one of different nodes. -/
theorem first_iff (h : (l ++ a :: l').Nodup) : some a = (l ++ a :: l').head? ↔ l = [] := by
  cases l with
  | nil => simp
  | cons b l =>
    simp only [List.cons_append, List.head?_cons, Option.some.injEq, reduceCtorEq, iff_false]
    rintro rfl
    exact (List.nodup_cons.mp h).1 (by simp)

theorem nodup_insert (h : (l ++ l').Nodup) (ha : a ∉ l ++ l') : (l ++ a :: l').Nodup :=
  (List.perm_middle.nodup_iff).mpr (List.nodup_cons.mpr ⟨ha, h⟩)

end

section

variable {A E : Type} {elem elem' : A → Option E} {l l' : List A} {P P' : List E} {a : A} {e : E}

variable (elem) in
/-- The nodes hold the elements of a sequence. -/
def Shows (L : List A) (P : List E) : Prop := P.map some = L.map elem

theorem Shows.length (h : Shows elem l P) : l.length = P.length := by
  have := congrArg List.length h
  simpa using this.symm

theorem Shows.nil_iff (h : Shows elem l P) : l = [] ↔ P = [] := by
  rw [← List.length_eq_zero_iff, h.length, List.length_eq_zero_iff]

theorem Shows.get (h : Shows elem l P) {i : Nat} (hi : l[i]? = some a) : ∃ e, P[i]? = some e ∧ elem a = some e := by
  have hget := congrArg (fun l => l[i]?) h
  simp only [List.getElem?_map, hi, Option.map_some] at hget
  cases hp : P[i]? with
  | none => rw [hp] at hget; cases hget
  | some e =>
    rw [hp, Option.map_some] at hget
    exact ⟨e, rfl, (Option.some.inj hget).symm⟩

theorem Shows.congr (h : Shows elem l P) (he : ∀ x ∈ l, elem' x = elem x) : Shows elem' l P :=
  h.trans (List.map_congr_left fun x hx => (he x hx).symm)

theorem shows_append (hl : l.length = P.length) : Shows elem (l ++ l') (P ++ P') ↔ Shows elem l P ∧ Shows elem l' P' := by
  rw [Shows, List.map_append, List.map_append]
  constructor
  · intro h
    exact List.append_inj h (by simp [hl])
  · rintro ⟨h, h'⟩
    rw [h, h']

theorem shows_cons : Shows elem (a :: l) (e :: P) ↔ elem a = some e ∧ Shows elem l P := by
  simp [Shows, eq_comm]

/-- A sequence that is held, in two parts around a node. -/
theorem Shows.split (h : Shows elem (l ++ a :: l') P) :
    ∃ Q e Q', P = Q ++ e :: Q' ∧ Shows elem l Q ∧ elem a = some e ∧ Shows elem l' Q' := by
  rw [Shows, List.map_append] at h
  obtain ⟨Q, Q', rfl, hQ, hQ'⟩ := List.map_eq_append_iff.mp h
  cases Q' with
  | nil => cases hQ'
  | cons e Q' =>
    obtain ⟨he, hQ'⟩ := shows_cons.mp hQ'
    exact ⟨Q, e, Q', rfl, hQ, he, hQ'⟩

/-- One node more. -/
theorem Shows.insert [DecidableEq A] (h : Shows elem (l ++ l') (P ++ P')) (hl : l.length = P.length)
    (ha : a ∉ l ++ l') : Shows (Function.update elem a (some e)) (l ++ a :: l') (P ++ e :: P') := by
  have hsame : ∀ x ∈ l ++ l', Function.update elem a (some e) x = elem x := by
    rintro x hx
    refine Function.update_of_ne ?_ _ _
    rintro rfl
    exact ha hx
  obtain ⟨h, h'⟩ := (shows_append hl).mp (h.congr hsame)
  exact (shows_append hl).mpr ⟨h, shows_cons.mpr ⟨Function.update_self _ _ _, h'⟩⟩

theorem split_of_get {i : Nat} (h : l[i]? = some a) : l = l.take i ++ a :: l.drop (i + 1) := by
  obtain ⟨hi, rfl⟩ := List.getElem?_eq_some_iff.mp h
  rw [← List.drop_eq_getElem_cons hi, List.take_append_drop]

theorem exists_split {i : Nat} (h : l[i]? = some a) : ∃ l₁ l₂, l = l₁ ++ a :: l₂ ∧ l₁.length = i := by
  refine ⟨l.take i, l.drop (i + 1), split_of_get h, ?_⟩
  rw [List.length_take]
  exact Nat.min_eq_left (Nat.le_of_lt (List.getElem?_eq_some_iff.mp h).1)

theorem insertIdx_middle : (P ++ P').insertIdx P.length e = P ++ e :: P' := by
  induction P with
  | nil => rfl
  | cons x P ih => exact congrArg (x :: ·) ih

theorem eraseIdx_middle : (P ++ e :: P').eraseIdx P.length = P ++ P' := by
  induction P with
  | nil => rfl
  | cons x P ih => exact congrArg (x :: ·) ih

/-- One node less. -/
theorem Shows.remove (h : Shows elem (l ++ a :: l') (P ++ e :: P')) (hl : l.length = P.length) :
    Shows elem (l ++ l') (P ++ P') := by
  obtain ⟨h, h'⟩ := (shows_append hl).mp h
  exact (shows_append hl).mpr ⟨h, (shows_cons.mp h').2⟩

end

variable {A : Type} {prev next prev' next' : A → Option A}

variable (prev next) in
/-- The nodes of the list are linked in order, between `p` and `n`. -/
def Segment : Option A → List A → Option A → Prop
  | _, [], _ => True
  | p, a :: l, n => prev a = p ∧ next a = l.head?.or n ∧ Segment (some a) l n

@[simp] theorem segment_nil {p n : Option A} : Segment prev next p [] n := trivial

theorem segment_append {p n : Option A} {l l' : List A} :
    Segment prev next p (l ++ l') n ↔
      Segment prev next p l (l'.head?.or n) ∧ Segment prev next (l.getLast?.or p) l' n := by
  induction l generalizing p with
  | nil => simp
  | cons a l ih =>
    have hlast : ((a :: l).getLast?.or p) = (l.getLast?.or (some a)) := by
      rw [List.getLast?_cons]; cases l.getLast? <;> rfl
    have hhead : (l ++ l').head?.or n = l.head?.or (l'.head?.or n) := by
      rw [List.head?_append, Option.or_assoc]
    simp only [List.cons_append, Segment, ih, hlast, hhead, and_assoc]

/-- New links that agree with the old ones but for the two ends. -/
theorem Segment.relink {p q x y : Option A} {l : List A} (h : Segment prev next p l x)
    (hp : ∀ a ∈ l.tail, prev' a = prev a) (hq : ∀ a, l.head? = some a → prev' a = q)
    (hn : ∀ a ∈ l.dropLast, next' a = next a) (hy : ∀ a, l.getLast? = some a → next' a = y) :
    Segment prev' next' q l y := by
  induction l generalizing p q with
  | nil => trivial
  | cons a l ih =>
    obtain ⟨_, hna, hl⟩ := h
    cases l with
    | nil => exact ⟨hq a rfl, hy a rfl, trivial⟩
    | cons b l =>
      refine ⟨hq a rfl, ?_, ih hl ?_ ?_ ?_ ?_⟩
      · rw [hn a (by simp), hna]; rfl
      · intro c hc; exact hp c (by simp only [List.tail_cons] at hc ⊢; simp [hc])
      · intro c hc
        cases hc
        rw [hp b (by simp)]
        exact hl.1
      · intro c hc; exact hn c (by rw [List.dropLast_cons_of_ne_nil (by simp)]; simp [hc])
      · intro c hc; exact hy c (by rw [List.getLast?_cons_cons]; exact hc)

theorem Segment.prev_head {p n : Option A} {l : List A} (h : Segment prev next p l n) {a : A}
    (ha : l.head? = some a) : prev a = p := by
  cases l with
  | nil => cases ha
  | cons b l => cases ha; exact h.1

theorem Segment.next_last {p n : Option A} {l : List A} (h : Segment prev next p l n) {a : A}
    (ha : l.getLast? = some a) : next a = n := by
  obtain ⟨l, rfl⟩ : ∃ l', l = l' ++ [a] := by
    rw [List.getLast?_eq_some_iff] at ha
    exact ha
  exact (segment_append.mp h).2.2.1

theorem Segment.path {p n : Option A} {l : List A} (h : Segment prev next p l n) : Path next (l.head?.or n) l n := by
  induction l generalizing p with
  | nil => rfl
  | cons a l ih =>
    obtain ⟨-, hn, h⟩ := h
    refine ⟨rfl, ?_⟩
    rw [hn]
    exact ih h

/-- The links between the nodes of the list go both ways. -/
theorem Segment.inverse {l : List A} (h : Segment prev next none l none) {a b : A} (ha : a ∈ l) (hb : b ∈ l) :
    next a = some b ↔ prev b = some a := by
  constructor
  · intro hab
    obtain ⟨s, t, rfl⟩ := List.append_of_mem ha
    obtain ⟨-, -, hn, h'⟩ := segment_append.mp h
    have ht : t.head? = some b := by simpa [hab] using hn.symm
    exact h'.prev_head ht
  · intro hba
    obtain ⟨s, t, rfl⟩ := List.append_of_mem hb
    obtain ⟨h', hp, -⟩ := segment_append.mp h
    have hs : s.getLast? = some a := by simpa [hba] using hp.symm
    exact h'.next_last hs

theorem ne_last_of_mem_dropLast {l : List A} (hnd : l.Nodup) {a : A} (ha : a ∈ l.dropLast) :
    l.getLast? ≠ some a := by
  intro hl
  obtain ⟨l', rfl⟩ := List.getLast?_eq_some_iff.mp hl
  rw [List.dropLast_concat] at ha
  exact (List.nodup_append'.mp hnd).2.2 ha (by simp)

theorem ne_head_of_mem_tail {l : List A} (hnd : l.Nodup) {a : A} (ha : a ∈ l.tail) : l.head? ≠ some a := by
  cases l with
  | nil => cases ha
  | cons b l =>
    rintro ⟨⟩
    exact (List.nodup_cons.mp hnd).1 ha

section

variable {l l' : List A} {b : A} {x y : Option A}

/-- The two parts of a list after the links between them have been changed. -/
theorem relink_parts (h : Segment prev next none l x) (h' : Segment prev next y l' none) {x' y' : Option A}
    (hnd : (l ++ l').Nodup)
    (hp : ∀ a ∈ l ++ l', l'.head? ≠ some a → prev' a = prev a) (hph : ∀ a, l'.head? = some a → prev' a = y')
    (hn : ∀ a ∈ l ++ l', l.getLast? ≠ some a → next' a = next a) (hnl : ∀ a, l.getLast? = some a → next' a = x') :
    Segment prev' next' none l x' ∧ Segment prev' next' y' l' none := by
  obtain ⟨hnl₁, hnl₂, hdis⟩ := List.nodup_append'.mp hnd
  have hhead : ∀ a ∈ l, l'.head? ≠ some a := fun a ha he => hdis ha (List.mem_of_head? he)
  have hlast : ∀ a ∈ l', l.getLast? ≠ some a := fun a ha he => hdis (List.mem_of_getLast? he) ha
  constructor
  · refine h.relink ?_ ?_ ?_ hnl
    · intro a ha
      have ha := List.mem_of_mem_tail ha
      exact hp a (by simp [ha]) (hhead a ha)
    · intro a ha
      rw [hp a (by simp [List.mem_of_head? ha]) (hhead a (List.mem_of_head? ha))]
      exact h.prev_head ha
    · intro a ha
      exact hn a (by simp [List.dropLast_subset _ ha]) (ne_last_of_mem_dropLast hnl₁ ha)
  · refine h'.relink ?_ hph ?_ ?_
    · intro a ha
      exact hp a (by simp [List.mem_of_mem_tail ha]) (ne_head_of_mem_tail hnl₂ ha)
    · intro a ha
      have ha := List.dropLast_subset _ ha
      exact hn a (by simp [ha]) (hlast a ha)
    · intro a ha
      rw [hn a (by simp [List.mem_of_getLast? ha]) (hlast a (List.mem_of_getLast? ha))]
      exact h'.next_last ha

/-- Linking `b` in between `l` and `l'`. -/
theorem insert_node (h : Segment prev next none (l ++ l') none) (hnd : (l ++ l').Nodup)
    (hp : ∀ a ∈ l ++ l', l'.head? ≠ some a → prev' a = prev a) (hph : ∀ a, l'.head? = some a → prev' a = some b)
    (hn : ∀ a ∈ l ++ l', l.getLast? ≠ some a → next' a = next a)
    (hnl : ∀ a, l.getLast? = some a → next' a = some b)
    (hb : prev' b = l.getLast?) (hb' : next' b = l'.head?) : Segment prev' next' none (l ++ b :: l') none := by
  obtain ⟨h₁, h₂⟩ := segment_append.mp h
  obtain ⟨h₁, h₂⟩ := relink_parts h₁ h₂ hnd hp hph hn hnl
  exact segment_append.mpr ⟨h₁, by simpa using hb, by simpa using hb', h₂⟩

/-- Linking what is around `b` past it. -/
theorem remove_node (h : Segment prev next none (l ++ b :: l') none) (hnd : (l ++ b :: l').Nodup)
    (hp : ∀ a ∈ l ++ l', l'.head? ≠ some a → prev' a = prev a)
    (hph : ∀ a, l'.head? = some a → prev' a = l.getLast?)
    (hn : ∀ a ∈ l ++ l', l.getLast? ≠ some a → next' a = next a)
    (hnl : ∀ a, l.getLast? = some a → next' a = l'.head?) : Segment prev' next' none (l ++ l') none := by
  obtain ⟨h₁, _, _, h₂⟩ := segment_append.mp h
  have hnd' : (l ++ l').Nodup := hnd.sublist (by simp)
  obtain ⟨h₁, h₂⟩ := relink_parts h₁ h₂ hnd' hp hph hn hnl
  exact segment_append.mpr ⟨by simpa using h₁, by simpa using h₂⟩

end

end Linked
