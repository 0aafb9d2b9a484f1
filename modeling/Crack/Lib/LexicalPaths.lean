import Mathlib.Data.List.Basic
import Mathlib.Tactic.Common

/-!
# Lexical paths

A path is resolved against a directory by its segments alone. A directory is the list of the names that lead to it.
-/
namespace LexicalPaths

variable {α : Type} [DecidableEq α] {sep dot : α} {xs ys t : List α} {dirs dirs' base R segs : List (List α)}

/-- What can be the name of a file. -/
structure IsName (sep dot : α) (t : List α) : Prop where
  ne_nil : t ≠ []
  ne_dot : t ≠ [dot]
  ne_parent : t ≠ [dot, dot]
  no_sep : sep ∉ t

instance (sep dot : α) (t : List α) : Decidable (IsName sep dot t) :=
  decidable_of_iff (t ≠ [] ∧ t ≠ [dot] ∧ t ≠ [dot, dot] ∧ sep ∉ t)
    ⟨fun ⟨hnil, hdot, hparent, hsep⟩ => ⟨hnil, hdot, hparent, hsep⟩, fun ⟨hnil, hdot, hparent, hsep⟩ =>
      ⟨hnil, hdot, hparent, hsep⟩⟩

/-- The directory that a segment leads to. There is nothing above the root. -/
def step (dot : α) (dirs : List (List α)) (t : List α) : Option (List (List α)) :=
  if t = [] ∨ t = [dot] then some dirs
  else if t = [dot, dot] then if dirs = [] then none else some dirs.dropLast
  else some (dirs ++ [t])

def resolve (dot : α) (dirs segs : List (List α)) : Option (List (List α)) := segs.foldlM (step dot) dirs

/-- The directories on the way. -/
def way (dot : α) (dirs : List (List α)) : List (List α) → List (List (List α))
  | [] => [dirs]
  | t :: segs => dirs ::
    match step dot dirs t with
    | some dirs' => way dot dirs' segs
    | none => []

/-- The names, each with a separator before it. -/
def text (sep : α) (dirs : List (List α)) : List α := dirs.flatMap fun t => sep :: t

/-- A path, segment by segment. -/
theorem induction {p : List α → Prop} (hlast : ∀ t, sep ∉ t → p t)
    (hsegment : ∀ t xs, sep ∉ t → p xs → p (t ++ sep :: xs)) (xs : List α) : p xs := by
  induction hk : xs.length using Nat.strongRecOn generalizing xs with
  | ind k ih =>
    by_cases hmem : sep ∈ xs
    · obtain ⟨t, rest, rfl, hnot⟩ := List.eq_append_cons_of_mem hmem
      refine hsegment t rest hnot (ih rest.length ?_ rest rfl)
      rw [← hk, List.length_append, List.length_cons]
      omega
    · exact hlast xs hmem

theorem no_sep_splitOn (xs : List α) : ∀ t ∈ xs.splitOn sep, sep ∉ t := by
  induction xs using induction with
  | hlast t h =>
    intro t' ht'
    rw [List.splitOn_eq_singleton h, List.mem_singleton] at ht'
    exact ht' ▸ h
  | hsegment t xs h ih =>
    intro t' ht'
    rw [List.splitOn_append_cons_self_of_not_mem h] at ht'
    rcases List.mem_cons.mp ht' with rfl | ht'
    · exact h
    · exact ih t' ht'

/-- A text is its segments, each but the first one with a separator before it. -/
theorem length_splitOn (xs : List α) : (text sep (xs.splitOn sep)).length = xs.length + 1 := by
  induction xs using induction with
  | hlast t h =>
    rw [List.splitOn_eq_singleton h, text, List.flatMap_cons, List.flatMap_nil, List.append_nil, List.length_cons]
  | hsegment t xs h ih =>
    rw [text] at ih
    rw [List.splitOn_append_cons_self_of_not_mem h, text, List.flatMap_cons, List.length_append, List.length_append,
      ih, List.length_cons, List.length_cons]
    omega

theorem splitOn_text (h : ∀ t ∈ dirs, sep ∉ t) : (text sep dirs).splitOn sep = [] :: dirs := by
  have hbehind : ∀ t, sep ∉ t → (t ++ text sep dirs).splitOn sep = t :: dirs := by
    induction dirs with
    | nil =>
      intro t ht
      rw [text, List.flatMap_nil, List.append_nil, List.splitOn_eq_singleton ht]
    | cons d dirs ih =>
      intro t ht
      rw [text, List.flatMap_cons, List.cons_append, List.splitOn_append_cons_self_of_not_mem ht]
      exact congrArg (t :: ·) (ih (fun t' ht' => h t' (List.mem_cons_of_mem d ht')) d (h d List.mem_cons_self))
  exact hbehind [] List.not_mem_nil

theorem step_of_name (h : IsName sep dot t) : step dot dirs t = some (dirs ++ [t]) := by
  rw [step, if_neg (not_or.mpr ⟨h.ne_nil, h.ne_dot⟩), if_neg h.ne_parent]

theorem resolve_cons (dirs : List (List α)) (t : List α) (segs : List (List α)) :
    resolve dot dirs (t :: segs) = (step dot dirs t).bind fun dirs' => resolve dot dirs' segs := by
  rw [resolve, List.foldlM_cons]
  rfl

/-- Names are resolved to themselves. -/
theorem resolve_names (h : ∀ t ∈ segs, IsName sep dot t) : resolve dot dirs segs = some (dirs ++ segs) := by
  induction segs generalizing dirs with
  | nil => rw [List.append_nil, resolve, List.foldlM_nil]; rfl
  | cons t segs ih =>
    rw [resolve_cons, step_of_name (h t List.mem_cons_self), Option.bind_some,
      ih fun t' ht' => h t' (List.mem_cons_of_mem t ht'), List.append_assoc]
    rfl

theorem isName_step (hdirs : ∀ d ∈ dirs, IsName sep dot d) (ht : sep ∉ t) (hstep : step dot dirs t = some dirs') :
    ∀ d ∈ dirs', IsName sep dot d := by
  rw [step] at hstep
  split at hstep
  next => cases hstep; exact hdirs
  next hskip =>
    split at hstep
    next =>
      split at hstep
      next => cases hstep
      next =>
        cases hstep
        exact fun d hd => hdirs d (List.dropLast_subset dirs hd)
    next hparent =>
      cases hstep
      intro d hd
      rcases List.mem_append.mp hd with hd | hd
      · exact hdirs d hd
      · obtain rfl := List.mem_singleton.mp hd
        exact ⟨fun h => hskip (Or.inl h), fun h => hskip (Or.inr h), hparent, ht⟩

/-- There are only names in what a path is resolved to. -/
theorem isName_resolve (hdirs : ∀ d ∈ dirs, IsName sep dot d) (hsegs : ∀ t ∈ segs, sep ∉ t)
    (h : resolve dot dirs segs = some R) : ∀ d ∈ R, IsName sep dot d := by
  induction segs generalizing dirs with
  | nil =>
    cases h
    exact hdirs
  | cons t segs ih =>
    rw [resolve_cons] at h
    obtain ⟨dirs', hstep, h⟩ := Option.bind_eq_some_iff.mp h
    exact ih (isName_step hdirs (hsegs t List.mem_cons_self) hstep)
      (fun t' ht' => hsegs t' (List.mem_cons_of_mem t ht')) h

/-- What is resolved in one directory is resolved in the same way in another one above which there is more. -/
theorem resolve_above (h : resolve dot dirs segs = some R) (base : List (List α)) :
    resolve dot (base ++ dirs) segs = some (base ++ R) := by
  induction segs generalizing dirs with
  | nil =>
    cases h
    rfl
  | cons t segs ih =>
    rw [resolve_cons] at h ⊢
    obtain ⟨dirs', hstep, h⟩ := Option.bind_eq_some_iff.mp h
    have habove : step dot (base ++ dirs) t = some (base ++ dirs') := by
      rw [step] at hstep ⊢
      split at hstep
      next hskip =>
        cases hstep
        rw [if_pos hskip]
      next hskip =>
        rw [if_neg hskip]
        split at hstep
        next hparent =>
          split at hstep
          next => cases hstep
          next hne =>
            cases hstep
            rw [if_pos hparent, if_neg (List.append_ne_nil_of_right_ne_nil base hne), List.dropLast_append_of_ne_nil hne]
        next hparent =>
          cases hstep
          rw [if_neg hparent, List.append_assoc]
    rw [habove, Option.bind_some, ih h]

omit [DecidableEq α] in
theorem text_dropLast (h : dirs ≠ []) : text sep dirs.dropLast ++ sep :: dirs.getLast h = text sep dirs := by
  conv_rhs => rw [← List.dropLast_append_getLast h, text, List.flatMap_append, List.flatMap_singleton]
  rfl

theorem length_step (h : step dot dirs t = some dirs') :
    (text sep dirs').length ≤ (text sep dirs).length + t.length + 1 := by
  rw [step] at h
  split at h
  next =>
    cases h
    omega
  next =>
    split at h
    next =>
      split at h
      next => cases h
      next =>
        cases h
        have hle := congrArg List.length (@text_dropLast _ sep _ ‹dirs ≠ []›)
        rw [List.length_append] at hle
        omega
    next =>
      cases h
      rw [text, List.flatMap_append, List.length_append, List.flatMap_singleton, List.length_cons, text]
      omega

/-- No directory on the way is longer than all that leads to it. -/
theorem length_way (dirs segs : List (List α)) :
    ∀ d ∈ way dot dirs segs, (text sep d).length ≤ (text sep dirs).length + (text sep segs).length := by
  induction segs generalizing dirs with
  | nil =>
    intro d hd
    obtain rfl := List.mem_singleton.mp hd
    exact Nat.le_add_right _ _
  | cons t segs ih =>
    intro d hd
    have hsegs : (text sep (t :: segs)).length = t.length + 1 + (text sep segs).length := by
      rw [text, List.flatMap_cons, List.length_append, List.length_cons, text]
    rw [way] at hd
    rcases List.mem_cons.mp hd with rfl | hd
    · exact Nat.le_add_right _ _
    · cases hstep : step dot dirs t with
      | none =>
        rw [hstep] at hd
        cases hd
      | some dirs' =>
        rw [hstep] at hd
        have hle := ih dirs' d hd
        have hlength : (text sep dirs').length ≤ (text sep dirs).length + t.length + 1 := length_step hstep
        omega

theorem self_mem_way (dirs segs : List (List α)) : dirs ∈ way dot dirs segs := by
  cases segs with
  | nil => exact List.mem_singleton_self _
  | cons t segs => exact List.mem_cons_self

/-- What a path is resolved to is on the way. -/
theorem mem_way (h : resolve dot dirs segs = some R) : R ∈ way dot dirs segs := by
  induction segs generalizing dirs with
  | nil =>
    cases h
    exact List.mem_singleton_self _
  | cons t segs ih =>
    rw [resolve_cons] at h
    obtain ⟨dirs', hstep, h⟩ := Option.bind_eq_some_iff.mp h
    rw [way, hstep]
    exact List.mem_cons_of_mem _ (ih h)

end LexicalPaths
