import Mathlib.Data.List.Nodup
import Mathlib.Data.List.Basic
import Mathlib.Tactic.Common

/-!
# Acyclic parent relations

Nodes are natural numbers, and every node lists its parents in order. The
relation is ranked when parents are smaller than their children, which is how
an acyclic graph looks once nodes are numbered as they are created. Recursion
over the parents is a fixed point here, so that a traversal is written as one
unfolding step and stays executable. The same node may be reached along many
paths; a path is the list of parent indices it follows.
-/
namespace Acyclic

variable {β : Type} {parents : Nat → List Nat} {is : List Nat}

/-- Parents come before their children. -/
def Ranked (parents : Nat → List Nat) : Prop := ∀ c, ∀ p ∈ parents c, p < c

/-- `n` unfoldings of `step`, with `dflt` below them. -/
def unfoldings (dflt : β) (step : (Nat → β) → Nat → β) : Nat → Nat → β
  | 0, _ => dflt
  | n + 1, c => step (unfoldings dflt step n) c

/-- A node needs at most one unfolding more than its rank. -/
def fix (dflt : β) (step : (Nat → β) → Nat → β) (c : Nat) : β := unfoldings dflt step (c + 1) c

/-- The step consults its recursive argument at the parents only. -/
def Local (parents : Nat → List Nat) (step : (Nat → β) → Nat → β) : Prop :=
  ∀ c r r', (∀ p ∈ parents c, r p = r' p) → step r c = step r' c

/-- A set of nodes that is closed under parents. -/
def Closed (parents : Nat → List Nat) (P : Nat → Prop) : Prop := ∀ c, P c → ∀ p ∈ parents c, P p

/-- Within a closed set the step consults its recursive argument at the parents only. -/
def LocalOn (parents : Nat → List Nat) (P : Nat → Prop) (step : (Nat → β) → Nat → β) : Prop :=
  ∀ c, P c → ∀ r r', (∀ p ∈ parents c, r p = r' p) → step r c = step r' c

section Closed

variable {P : Nat → Prop} {dflt : β} {step : (Nat → β) → Nat → β}

theorem unfoldings_eq (hr : Ranked parents) (hp : Closed parents P) (hl : LocalOn parents P step) (m n c : Nat)
    (hc : P c) (hm : c < m) (hn : c < n) : unfoldings dflt step m c = unfoldings dflt step n c := by
  induction m generalizing n c with
  | zero => omega
  | succ m ih =>
    cases n with
    | zero => omega
    | succ n =>
      refine hl c hc _ _ ?_
      intro p hm
      have := hr c p hm
      exact ih n p (hp c hc p hm) (by omega) (by omega)

/-- The fixed point satisfies its equation where the step is local. -/
theorem fix_eq_on (hr : Ranked parents) (hp : Closed parents P) (hl : LocalOn parents P step) {c : Nat} (hc : P c) :
    fix dflt step c = step (fix dflt step) c := by
  refine hl c hc _ _ ?_
  intro p hm
  have := hr c p hm
  exact unfoldings_eq hr hp hl _ _ p (hp c hc p hm) (by omega) (by omega)

end Closed

/-- The fixed point satisfies the equation it was written from. -/
theorem fix_eq (hr : Ranked parents) {dflt : β} {step : (Nat → β) → Nat → β}
    (hl : Local parents step) (c : Nat) : fix dflt step c = step (fix dflt step) c :=
  fix_eq_on (P := fun _ => True) hr (fun _ _ _ _ => trivial) (fun c _ => hl c) trivial

/-- A search that tries the parents in turn is local. -/
theorem local_any (stop : Nat → Bool) : Local parents (fun r c => stop c || (parents c).any r) := by
  intro c r r' h
  have hany : (parents c).any r = (parents c).any r' := by
    rw [Bool.eq_iff_iff]
    simp only [List.any_eq_true]
    constructor
    · rintro ⟨p, hp, he⟩; exact ⟨p, hp, by rw [← h p hp]; exact he⟩
    · rintro ⟨p, hp, he⟩; exact ⟨p, hp, by rw [h p hp]; exact he⟩
  simp only [hany]

/-- Induction along the parents. -/
theorem Ranked.induction (hr : Ranked parents) {P : Nat → Prop}
    (step : ∀ c, (∀ p ∈ parents c, P p) → P c) (c : Nat) : P c := by
  induction c using Nat.strongRecOn with
  | ind c ih => exact step c (fun p hp => ih p (hr c p hp))

/-- `Path parents c is d`: following the parent indices `is` from `c` ends at `d`. -/
inductive Path (parents : Nat → List Nat) : Nat → List Nat → Nat → Prop where
  | here (c : Nat) : Path parents c [] c
  | step {c p d i : Nat} {is : List Nat} (h : (parents c)[i]? = some p) (t : Path parents p is d) :
      Path parents c (i :: is) d

@[simp] theorem path_nil {c d : Nat} : Path parents c [] d ↔ c = d := by
  constructor
  · intro h; cases h; rfl
  · intro h; subst h; exact .here c

theorem path_cons {c d i : Nat} :
    Path parents c (i :: is) d ↔ ∃ p, (parents c)[i]? = some p ∧ Path parents p is d := by
  constructor
  · intro h; cases h with
    | step h t => exact ⟨_, h, t⟩
  · intro ⟨p, h, t⟩; exact .step h t

/-- A path determines where it ends. -/
theorem Path.unique {c d d' : Nat} (h : Path parents c is d) (h' : Path parents c is d') : d = d' := by
  induction h with
  | here c => exact path_nil.mp h'
  | step h t ih =>
    obtain ⟨q, hq, t'⟩ := path_cons.mp h'
    rw [h] at hq
    cases hq
    exact ih t'

theorem Path.le (hr : Ranked parents) {c d : Nat} (h : Path parents c is d) : d ≤ c := by
  induction h with
  | here c => exact Nat.le_refl c
  | step h t ih =>
    have := hr _ _ (List.mem_of_getElem? h)
    omega

theorem Path.trans {c d e : Nat} {is js : List Nat} (h : Path parents c is d)
    (h' : Path parents d js e) : Path parents c (is ++ js) e := by
  induction h with
  | here c => exact h'
  | step h t ih => exact .step h (ih h')

/-- A path that starts like `is` passes through the end of `is`. -/
theorem Path.split {c e : Nat} {is js : List Nat} (h : Path parents c (is ++ js) e) :
    ∃ d, Path parents c is d ∧ Path parents d js e := by
  induction is generalizing c with
  | nil => exact ⟨c, .here c, h⟩
  | cons i is ih =>
    obtain ⟨p, hp, t⟩ := path_cons.mp h
    obtain ⟨d, h₁, h₂⟩ := ih t
    exact ⟨d, .step hp h₁, h₂⟩

/-- `d` is `c` or one of its ancestors. -/
def Reaches (parents : Nat → List Nat) (c d : Nat) : Prop := ∃ is, Path parents c is d

theorem Reaches.refl (c : Nat) : Reaches parents c c := ⟨[], .here c⟩

theorem Reaches.trans {c d e : Nat} (h : Reaches parents c d) (h' : Reaches parents d e) :
    Reaches parents c e := by
  obtain ⟨is, h⟩ := h
  obtain ⟨js, h'⟩ := h'
  exact ⟨is ++ js, h.trans h'⟩

theorem Reaches.of_parent {c p : Nat} (h : p ∈ parents c) : Reaches parents c p := by
  obtain ⟨i, hi⟩ := List.mem_iff_getElem?.mp h
  exact ⟨[i], .step hi (.here p)⟩

theorem Reaches.closed (c : Nat) : Closed parents (Reaches parents c) := by
  intro d hd p hp
  exact hd.trans (.of_parent hp)

theorem Reaches.le (hr : Ranked parents) {c d : Nat} (h : Reaches parents c d) : d ≤ c := by
  obtain ⟨is, h⟩ := h
  exact h.le hr

theorem reaches_iff {c d : Nat} :
    Reaches parents c d ↔ c = d ∨ ∃ p ∈ parents c, Reaches parents p d := by
  constructor
  · rintro ⟨is, h⟩
    cases h with
    | here => exact .inl rfl
    | step h t => exact .inr ⟨_, List.mem_of_getElem? h, _, t⟩
  · rintro (h | ⟨p, hp, h⟩)
    · subst h; exact .refl c
    · exact (Reaches.of_parent hp).trans h

section Visits

variable (parents) (cut : Nat → Bool)

/-- One step of the traversal that remembers the path of every visit. -/
def visitStep (visit : Nat → List (List Nat × Nat)) (c : Nat) : List (List Nat × Nat) :=
  if cut c then [] else
    (parents c).zipIdx.flatMap (fun p => (visit p.1).map (fun v => (p.2 :: v.1, v.2))) ++ [([], c)]

def visits (c : Nat) : List (List Nat × Nat) := fix [] (visitStep parents cut) c

/-- The visits below a list of parents, each path starting with an index into the list. -/
def visitsFrom (ps : List Nat) : List (List Nat × Nat) :=
  ps.zipIdx.flatMap (fun p => (visits parents cut p.1).map (fun v => (p.2 :: v.1, v.2)))

/-- The visited nodes alone. -/
def order (c : Nat) : List Nat := (visits parents cut c).map Prod.snd

def orderFrom (ps : List Nat) : List Nat := ps.flatMap (order parents cut)

variable {parents cut} {ps : List Nat}

theorem visitStep_local : Local parents (visitStep parents cut) := by
  intro c r r' h
  have he : ∀ p ∈ (parents c).zipIdx, r p.1 = r' p.1 := by
    intro p hp
    exact h _ (List.fst_mem_of_mem_zipIdx hp)
  unfold visitStep
  rw [List.flatMap_congr (fun p hp => by rw [he p hp])]

theorem visits_eq (hr : Ranked parents) (c : Nat) :
    visits parents cut c = if cut c then [] else visitsFrom parents cut (parents c) ++ [([], c)] :=
  fix_eq hr visitStep_local c

theorem visitsFrom_map_snd (ps : List Nat) :
    (visitsFrom parents cut ps).map Prod.snd = orderFrom parents cut ps := by
  unfold visitsFrom orderFrom order
  generalize 0 = k
  induction ps generalizing k with
  | nil => rfl
  | cons p ps ih =>
    simp only [List.zipIdx_cons, List.flatMap_cons, List.map_append, List.map_map, ih]
    rfl

theorem order_eq (hr : Ranked parents) (c : Nat) :
    order parents cut c = if cut c then [] else orderFrom parents cut (parents c) ++ [c] := by
  unfold order
  rw [visits_eq hr]
  split
  · rfl
  · simp [visitsFrom_map_snd]

@[simp] theorem orderFrom_nil : orderFrom parents cut [] = [] := rfl
@[simp] theorem orderFrom_cons (p : Nat) (ps : List Nat) :
    orderFrom parents cut (p :: ps) = order parents cut p ++ orderFrom parents cut ps := rfl

/-- A path out of a list of start nodes: an index into the list, then a path. -/
def PathFrom (parents : Nat → List Nat) (ps : List Nat) (is : List Nat) (d : Nat) : Prop :=
  ∃ i js p, is = i :: js ∧ ps[i]? = some p ∧ Path parents p js d

theorem mem_visitsFrom {d : Nat} :
    (is, d) ∈ visitsFrom parents cut ps ↔
      ∃ i js p, is = i :: js ∧ ps[i]? = some p ∧ (js, d) ∈ visits parents cut p := by
  unfold visitsFrom
  simp only [List.mem_flatMap, List.mem_map, Prod.mk.injEq, Prod.exists, List.mem_zipIdx_iff_getElem?]
  constructor
  · rintro ⟨p, i, hp, js, x, hv, he, hx⟩
    subst he hx
    exact ⟨i, js, p, rfl, hp, hv⟩
  · rintro ⟨i, js, p, he, hp, hv⟩
    exact ⟨p, i, hp, js, d, hv, he.symm, rfl⟩

/-- Nodes that are cut have no parents, so cutting loses nothing but them. -/
def CutRoots (parents : Nat → List Nat) (cut : Nat → Bool) : Prop := ∀ c, cut c → parents c = []

/-- The traversal visits a node once for every path that leads to it. -/
theorem mem_visits (hr : Ranked parents) (hc : CutRoots parents cut) {c d : Nat} :
    (is, d) ∈ visits parents cut c ↔ Path parents c is d ∧ ¬ cut d := by
  induction c using hr.induction generalizing is d with
  | step c ih =>
    rw [visits_eq hr]
    by_cases hcut : cut c
    · simp only [hcut, if_true, List.not_mem_nil, false_iff, not_and, not_not]
      intro h
      cases h with
      | here => exact hcut
      | step h t => simp [hc c hcut] at h
    · simp only [hcut, Bool.false_eq_true, if_false, List.mem_append, mem_visitsFrom,
        List.mem_singleton, Prod.mk.injEq]
      constructor
      · rintro (⟨i, js, p, he, hp, hv⟩ | ⟨he, hd⟩)
        · have hv := (ih p (List.mem_of_getElem? hp)).mp hv
          subst he
          exact ⟨.step hp hv.1, hv.2⟩
        · subst he hd
          exact ⟨.here d, hcut⟩
      · rintro ⟨h, hd⟩
        cases h with
        | here => exact .inr ⟨rfl, rfl⟩
        | step hp t => exact .inl ⟨_, _, _, rfl, hp, (ih _ (List.mem_of_getElem? hp)).mpr ⟨t, hd⟩⟩

theorem mem_order (hr : Ranked parents) (hc : CutRoots parents cut) {c d : Nat} :
    d ∈ order parents cut c ↔ Reaches parents c d ∧ ¬ cut d := by
  simp only [order, List.mem_map, Prod.exists, mem_visits hr hc]
  constructor
  · rintro ⟨is, x, ⟨h, hx⟩, he⟩
    subst he
    exact ⟨⟨is, h⟩, hx⟩
  · rintro ⟨⟨is, h⟩, hd⟩
    exact ⟨is, d, ⟨h, hd⟩, rfl⟩

/-- No two visits below a list share their path. -/
theorem visitsFrom_paths_nodup (h : ∀ p ∈ ps, ((visits parents cut p).map Prod.fst).Nodup) :
    ((visitsFrom parents cut ps).map Prod.fst).Nodup := by
  unfold visitsFrom
  generalize 0 = k
  induction ps generalizing k with
  | nil => simp
  | cons p ps ih =>
    simp only [List.zipIdx_cons, List.flatMap_cons, List.map_append, List.map_map]
    refine List.nodup_append'.mpr ⟨?_, ih (fun q hq => h q (by simp [hq])) (k + 1), ?_⟩
    · have h₁ := (h p (by simp)).map (f := fun js => k :: js) (by intro a b hab; simpa using hab)
      simpa [Function.comp_def] using h₁
    · -- the paths of the first parent start with `k`, the others with something larger
      intro is h₁ h₂
      simp only [List.mem_map, Function.comp_apply, Prod.exists, List.mem_flatMap,
        List.mem_zipIdx_iff_le_and_getElem?_sub, Prod.mk.injEq] at h₁ h₂
      obtain ⟨js, x, _, he⟩ := h₁
      obtain ⟨js', x', ⟨q, i, ⟨hi, _⟩, _, _, _, he', _⟩, he''⟩ := h₂
      subst he he'
      simp only [List.cons.injEq] at he''
      omega

theorem visits_paths_nodup (hr : Ranked parents) (c : Nat) :
    ((visits parents cut c).map Prod.fst).Nodup := by
  induction c using hr.induction with
  | step c ih =>
    rw [visits_eq hr]
    split
    · simp
    · rw [List.map_append, List.nodup_append']
      refine ⟨visitsFrom_paths_nodup ih, by simp, ?_⟩
      intro is h₁ h₂
      simp only [List.mem_map, Prod.exists, mem_visitsFrom, List.map_cons, List.map_nil,
        List.mem_singleton] at h₁ h₂
      obtain ⟨_, x, ⟨i, js, p, he, _⟩, he'⟩ := h₁
      simp [← he', he] at h₂

/-- A list of visits names a node twice exactly when two of its paths end there. -/
theorem nodup_snd_iff {l : List (List Nat × Nat)} (h : (l.map Prod.fst).Nodup) :
    (l.map Prod.snd).Nodup ↔ ∀ is js d, (is, d) ∈ l → (js, d) ∈ l → is = js := by
  constructor
  · intro hn is js d h₁ h₂
    have := List.inj_on_of_nodup_map hn h₁ h₂ rfl
    simpa using this
  · intro hu
    refine List.Nodup.map_on ?_ (List.Nodup.of_map _ h)
    rintro ⟨is, d⟩ h₁ ⟨js, d'⟩ h₂ he
    cases he
    rw [hu is js d h₁ h₂]

/-- Listing without repetition is uniqueness of paths, from one node. -/
theorem order_nodup_iff (hr : Ranked parents) (hc : CutRoots parents cut) (c : Nat) :
    (order parents cut c).Nodup ↔
      ∀ d, ¬ cut d → ∀ is js, Path parents c is d → Path parents c js d → is = js := by
  unfold order
  rw [nodup_snd_iff (visits_paths_nodup hr c)]
  constructor
  · intro h d hd is js h₁ h₂
    exact h is js d ((mem_visits hr hc).mpr ⟨h₁, hd⟩) ((mem_visits hr hc).mpr ⟨h₂, hd⟩)
  · intro h is js d h₁ h₂
    obtain ⟨h₁, hd⟩ := (mem_visits hr hc).mp h₁
    exact h d hd is js h₁ ((mem_visits hr hc).mp h₂).1

/-- Listing without repetition is uniqueness of paths, from a list of nodes. -/
theorem orderFrom_nodup_iff (hr : Ranked parents) (hc : CutRoots parents cut) (ps : List Nat) :
    (orderFrom parents cut ps).Nodup ↔
      ∀ d, ¬ cut d → ∀ is js, PathFrom parents ps is d → PathFrom parents ps js d → is = js := by
  have hm : ∀ is d, (is, d) ∈ visitsFrom parents cut ps ↔ PathFrom parents ps is d ∧ ¬ cut d := by
    intro is d
    simp only [mem_visitsFrom, mem_visits hr hc, PathFrom]
    constructor
    · rintro ⟨i, js, p, he, hp, t, hd⟩
      exact ⟨⟨i, js, p, he, hp, t⟩, hd⟩
    · rintro ⟨⟨i, js, p, he, hp, t⟩, hd⟩
      exact ⟨i, js, p, he, hp, t, hd⟩
  rw [← visitsFrom_map_snd, nodup_snd_iff (visitsFrom_paths_nodup (fun p _ => visits_paths_nodup hr p))]
  constructor
  · intro h d hd is js h₁ h₂
    exact h is js d ((hm is d).mpr ⟨h₁, hd⟩) ((hm js d).mpr ⟨h₂, hd⟩)
  · intro h is js d h₁ h₂
    exact h d ((hm is d).mp h₁).2 is js ((hm is d).mp h₁).1 ((hm js d).mp h₂).1

end Visits

section FirstPath

/-- Each step of a path is given by its index and the parent it leads to. -/
def firstPathStep (parents : Nat → List Nat) (d : Nat) (firstPath : Nat → Option (List (Nat × Nat))) (c : Nat) :
    Option (List (Nat × Nat)) :=
  if c = d then some []
  else (parents c).zipIdx.findSome? (fun p => (firstPath p.1).map (fun es => (p.2, p.1) :: es))

/-- The first path from a node to `d` in depth-first order. -/
def firstPath (parents : Nat → List Nat) (d : Nat) : Nat → Option (List (Nat × Nat)) :=
  fix none (firstPathStep parents d)

/-- The steps `es` lead from a node to `d`. -/
def Leads (parents : Nat → List Nat) (d : Nat) : Nat → List (Nat × Nat) → Prop
  | c, [] => c = d
  | c, e :: es => (parents c)[e.1]? = some e.2 ∧ Leads parents d e.2 es

variable {c d : Nat} {es : List (Nat × Nat)}

theorem firstPathStep_local : Local parents (firstPathStep parents d) := by
  intro c r r' h
  unfold firstPathStep
  have hcongr : ∀ p ∈ (parents c).zipIdx, (r p.1).map (fun es => (p.2, p.1) :: es) =
      (r' p.1).map (fun es => (p.2, p.1) :: es) := by
    intro p hp
    rw [h p.1 (List.fst_mem_of_mem_zipIdx hp)]
  split
  · rfl
  · generalize (parents c).zipIdx = l at hcongr
    induction l with
    | nil => rfl
    | cons p l ih =>
      rw [List.findSome?_cons, List.findSome?_cons, hcongr p (by simp), ih (fun q hq => hcongr q (by simp [hq]))]

theorem firstPath_eq (hr : Ranked parents) (d c : Nat) :
    firstPath parents d c = firstPathStep parents d (firstPath parents d) c :=
  fix_eq hr firstPathStep_local c

theorem firstPath_leads (hr : Ranked parents) (h : firstPath parents d c = some es) : Leads parents d c es := by
  induction c using hr.induction generalizing es with
  | step c ih =>
    rw [firstPath_eq hr, firstPathStep] at h
    split at h
    next heq => cases h; exact heq
    next hne =>
      obtain ⟨⟨p, i⟩, hp, hes⟩ := List.exists_of_findSome?_eq_some h
      obtain ⟨fs, hfs, rfl⟩ := Option.map_eq_some_iff.mp hes
      have hi := List.mem_zipIdx_iff_getElem?.mp hp
      exact ⟨hi, ih p (List.mem_of_getElem? hi) hfs⟩

theorem Leads.path (h : Leads parents d c es) : Path parents c (es.map Prod.fst) d := by
  induction es generalizing c with
  | nil => exact path_nil.mpr h
  | cons e es ih => exact .step h.1 (ih h.2)

theorem firstPath_isSome_iff (hr : Ranked parents) : (firstPath parents d c).isSome ↔ Reaches parents c d := by
  constructor
  · intro h
    obtain ⟨es, hes⟩ := Option.isSome_iff_exists.mp h
    exact ⟨_, (firstPath_leads hr hes).path⟩
  · rintro ⟨is, h⟩
    induction h with
    | here c => simp [firstPath_eq hr, firstPathStep]
    | @step c p d i is hp t ih =>
      rw [firstPath_eq hr, firstPathStep]
      split
      · rfl
      · rw [List.isSome_findSome?, List.any_eq_true]
        exact ⟨(p, i), List.mem_zipIdx_iff_getElem?.mpr hp, by simpa using ih⟩

end FirstPath

end Acyclic
