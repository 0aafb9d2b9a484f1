import Crack.Parser.Statements

/-!
# Terminal contexts and executions

A statement with a terminal context never falls through. A context that is
handed back was there before the statement, as the target of a `break`, a
`continue`, a `throw` or a `return`, or was created within it; so it is never
the context of the block that the statement stands in.
-/
namespace Crack

namespace Parser

open Outcomes (Code Loop just mayThrow seq choice tryCatch)

mutual

/-- The ways in which a statement can end. -/
def Stmt.exec : Stmt → Code
  | .null => just .normal
  | .clause => mayThrow .normal
  | .return expr => if expr then mayThrow .return else just .return
  | .break => just .break
  | .continue => just .continue
  | .throw _ => just .thrown
  | .if thenClause => choice (mayThrow .normal) thenClause.exec
  | .ifElse thenClause elseClause => choice (just .thrown) (choice thenClause.exec elseClause.exec)
  | .while body => Loop body.exec
  | .for body => choice (just .thrown) (Loop body.exec)
  | .try body catches => tryCatch body.exec catches.exec

def Clause.exec : Clause → Code
  | .block b => b.exec
  | .stmt s => s.exec

def Block.exec : Block → Code
  | .nil => just .normal
  | .cons s rest => seq s.exec rest.exec

/-- The ways in which one of the catch clauses can end. -/
def Catches.exec : Catches → Code
  | .last body => body.exec
  | .cons body rest => choice body.exec rest.exec

end

mutual

/-- There is a statement at `pos` in the statement. -/
def Stmt.Has : Stmt → List Nat → Prop
  | _, [] => True
  | .if thenClause, 0 :: pos => thenClause.Has pos
  | .ifElse thenClause _, 0 :: pos => thenClause.Has pos
  | .ifElse _ elseClause, 1 :: pos => elseClause.Has pos
  | .while body, 0 :: pos => body.Has pos
  | .for body, 0 :: pos => body.Has pos
  | .try body _, 0 :: pos => body.Has pos
  | .try _ catches, (i + 1) :: pos => catches.Has i pos
  | _, _ :: _ => False

def Clause.Has : Clause → List Nat → Prop
  | .block b, pos => b.Has pos
  | .stmt s, 0 :: pos => s.Has pos
  | .stmt _, _ => False

def Block.Has : Block → List Nat → Prop
  | .cons s _, 0 :: pos => s.Has pos
  | .cons _ rest, (i + 1) :: pos => rest.Has (i :: pos)
  | _, _ => False

def Catches.Has : Catches → Nat → List Nat → Prop
  | .last body, 0, pos => body.Has pos
  | .last _, _ + 1, _ => False
  | .cons body _, 0, pos => body.Has pos
  | .cons _ rest, i + 1, pos => rest.Has i pos

end

mutual

/-- Some execution of the statement comes to the statement at `pos` in it. -/
def Stmt.Reaches : Stmt → List Nat → Prop
  | _, [] => True
  | .if thenClause, 0 :: pos => thenClause.Reaches pos
  | .ifElse thenClause _, 0 :: pos => thenClause.Reaches pos
  | .ifElse _ elseClause, 1 :: pos => elseClause.Reaches pos
  | .while body, 0 :: pos => body.Reaches pos
  | .for body, 0 :: pos => body.Reaches pos
  | .try body _, 0 :: pos => body.Reaches pos
  | .try body catches, (i + 1) :: pos => body.exec .thrown ∧ catches.Reaches i pos
  | _, _ :: _ => False

def Clause.Reaches : Clause → List Nat → Prop
  | .block b, pos => b.Reaches pos
  | .stmt s, 0 :: pos => s.Reaches pos
  | .stmt _, _ => False

/-- A statement is reached when those before it have fallen through. -/
def Block.Reaches : Block → List Nat → Prop
  | .cons s _, 0 :: pos => s.Reaches pos
  | .cons s rest, (i + 1) :: pos => s.exec .normal ∧ rest.Reaches (i :: pos)
  | _, _ => False

def Catches.Reaches : Catches → Nat → List Nat → Prop
  | .last body, 0, pos => body.Reaches pos
  | .last _, _ + 1, _ => False
  | .cons body _, 0, pos => body.Reaches pos
  | .cons _ rest, i + 1, pos => rest.Reaches i pos

end

namespace Context

/-- The contexts that statements in `context` terminate to: the branchpoints
around it and the context around its function. -/
def targets : Context → List Nat
  | [] => []
  | f :: parent =>
    (if f.breakBranch || f.continueBranch || f.catchBranch then [f.id] else []) ++
      if f.toplevel then (id parent).toList else targets parent

/-- `context` is one of the targets in `l`. -/
def AmongTargets (l : List Nat) (context : Context) : Prop := ∃ i, context.id = some i ∧ i ∈ l

@[simp] theorem id_cons (f : Frame) (parent : Context) : id (f :: parent) = some f.id := rfl

@[simp] theorem targets_createSubContext (context : Context) (i : Nat) :
    (context.createSubContext i).targets = context.targets := rfl

@[simp] theorem targets_createLoopContext (context : Context) (i : Nat) :
    (context.createLoopContext i).targets = i :: context.targets := rfl

@[simp] theorem targets_createTryContext (context : Context) (i : Nat) :
    (context.createTryContext i).targets = i :: context.targets := rfl

theorem getBranch_target {branch : Frame → Bool} {context t : Context}
    (hb : ∀ f, branch f = true → (f.breakBranch || f.continueBranch || f.catchBranch) = true)
    (h : context.getBranch branch = some t) : AmongTargets context.targets t := by
  induction context with
  | nil => cases h
  | cons f parent ih =>
    rw [getBranch] at h
    split at h
    next hf =>
      cases h
      exact ⟨f.id, rfl, by simp [targets, hb f hf]⟩
    · split at h
      next ht =>
        obtain ⟨i, hi, hm⟩ := ih h
        refine ⟨i, hi, ?_⟩
        have ht : f.toplevel = false := by simpa using ht
        simp [targets, ht, hm]
      · cases h

theorem getBreak_target {context t : Context} (h : context.getBreak = some t) : AmongTargets context.targets t :=
  getBranch_target (fun f hf => by simp [hf]) h

theorem getContinue_target {context t : Context} (h : context.getContinue = some t) :
    AmongTargets context.targets t :=
  getBranch_target (fun f hf => by simp [hf]) h

theorem getParent_id {context t : Context} (h : context.getParent = some t) :
    ∃ f parent i, context = f :: parent ∧ id parent = some i ∧ t.id = some i := by
  match context, h with
  | f :: g :: parent, h =>
    cases h
    exact ⟨f, g :: parent, g.id, rfl, rfl, rfl⟩

theorem getToplevel_target {context t : Context} (h : context.getToplevel.bind getParent = some t) :
    AmongTargets context.targets t := by
  induction context with
  | nil => cases h
  | cons f parent ih =>
    rw [getToplevel] at h
    split at h
    next ht =>
      obtain ⟨g, rest, i, he, hi, ht'⟩ := getParent_id h
      cases he
      exact ⟨i, ht', by simp [targets, ht, hi]⟩
    next ht =>
      obtain ⟨i, hi, hm⟩ := ih h
      exact ⟨i, hi, by simp [targets, ht, hm]⟩

theorem getCatch_target {context parent : Context} {f : Frame} (h : context.getCatch = some (f :: parent)) :
    (f.toplevel = false → AmongTargets context.targets (f :: parent)) ∧
      ∀ t, f.toplevel = true → getParent (f :: parent) = some t → AmongTargets context.targets t := by
  induction context with
  | nil => cases h
  | cons g rest ih =>
    rw [getCatch] at h
    split at h
    next hc =>
      cases h
      refine ⟨fun _ => ⟨f.id, rfl, by simp [targets, hc]⟩, fun t ht hp => ?_⟩
      obtain ⟨g, rest, i, he, hi, ht'⟩ := getParent_id hp
      cases he
      exact ⟨i, ht', by simp [targets, ht, hi]⟩
    · split at h
      next htop =>
        cases h
        refine ⟨fun ht => absurd htop (by simp [ht]), fun t ht hp => ?_⟩
        obtain ⟨g, rest, i, he, hi, ht'⟩ := getParent_id hp
        cases he
        exact ⟨i, ht', by simp [targets, ht, hi]⟩
      next htop =>
        obtain ⟨h₁, h₂⟩ := ih h
        have hsub : ∀ t, AmongTargets (targets rest) t → AmongTargets (targets (g :: rest)) t := by
          rintro t ⟨i, hi, hm⟩
          exact ⟨i, hi, by simp [targets, htop, hm]⟩
        exact ⟨fun ht => hsub _ (h₁ ht), fun t ht hp => hsub t (h₂ t ht hp)⟩

end Context

/-- A piece of code has been parsed in `context`; the numbers from `next` to `next'` went to new contexts. -/
structure Sound (context : Context) (next : Nat) (exec : Code) (terminal : Option Context) (next' : Nat) : Prop where
  le : next ≤ next'
  target : ∀ t, terminal = some t → ∃ i, t.id = some i ∧ (i ∈ context.targets ∨ next ≤ i)
  falls : terminal ≠ none → ¬ exec .normal
  breaks : context.getBreak = none → ¬ exec .break
  continues : context.getContinue = none → ¬ exec .continue

/-- The result of parsing a piece of code: code that is rejected as unreachable
is there, and no execution comes to it. -/
def Checked (context : Context) (next : Nat) (exec : Code) (has reaches : List Nat → Prop) : Parsed → Prop
  | .ok (terminal, next') => Sound context next exec terminal next'
  | .error e => e.text = "unreachable code" → has e.pos ∧ ¬ reaches e.pos

/-- The numbers from `next` on are free. -/
def Wf (context : Context) (next : Nat) : Prop := ∀ i ∈ context.targets, i < next

/-- A context that is no branchpoint: it is newer than all contexts that statements in it terminate to. -/
def Plain (context : Context) (next : Nat) : Prop :=
  ∃ i, context.id = some i ∧ i < next ∧ ∀ j ∈ context.targets, j < i

variable {context : Context} {next : Nat} {exec : Code} {has reaches : List Nat → Prop} {next' : Nat} {r : Parsed}

theorem Plain.wf (h : Plain context next) : Wf context next := by
  obtain ⟨i, -, hi, ht⟩ := h
  intro j hj
  have := ht j hj
  omega

theorem Wf.plain (h : Wf context next) : Plain (context.createSubContext next) (next + 1) :=
  ⟨next, rfl, Nat.lt_succ_self next, h⟩

theorem Wf.subContext (h : Wf context next) {i next' : Nat} (hle : next ≤ next') :
    Wf (context.createSubContext i) next' :=
  fun j hj => Nat.lt_of_lt_of_le (h j hj) hle

theorem Wf.mono (h : Wf context next) (hle : next ≤ next') : Wf context next' :=
  fun i hi => Nat.lt_of_lt_of_le (h i hi) hle

theorem Plain.mono (h : Plain context next) (hle : next ≤ next') : Plain context next' := by
  obtain ⟨i, hid, hi, ht⟩ := h
  exact ⟨i, hid, by omega, ht⟩

theorem Checked.inside (h : Checked context next exec has reaches r) (i : Nat) (has' reaches' : List Nat → Prop)
    (hh : ∀ pos, has pos → has' (i :: pos)) (hr : ∀ pos, reaches' (i :: pos) → reaches pos) :
    Checked context next exec has' reaches' (inside i r) := by
  match r, h with
  | .ok _, h => exact h
  | .error e, h => exact fun ht => ⟨hh e.pos (h ht).1, fun hp => (h ht).2 (hr e.pos hp)⟩

variable {context' : Context} {n₁ n₂ : Nat} {next₁ : Nat} {q : List Nat}

/-- A parser function that goes on after one of its parts. -/
theorem Checked.bind {exec₁ : Code} {k : Option Context × Nat → Parsed}
    (h : Checked context' next₁ exec₁ has reaches r)
    (hk : ∀ t n, Sound context' next₁ exec₁ t n → Checked context next exec has reaches (k (t, n))) :
    Checked context next exec has reaches (r >>= k) := by
  match r, h with
  | .ok (t, n), h => exact hk t n h
  | .error e, h => exact h

/-- A piece of code that ends with the parsed one. -/
theorem Checked.extend {exec' : Code} {has' reaches' : List Nat → Prop}
    (h : Checked context' next₁ exec has reaches r)
    (hs : ∀ t n, r = .ok (t, n) → Sound context' next₁ exec t n → Sound context next exec' t n)
    (hp : ∀ pos, has pos → has' pos ∧ (reaches' pos → reaches pos)) :
    Checked context next exec' has' reaches' r := by
  match r, h with
  | .ok (t, n), h => exact hs t n rfl h
  | .error e, h =>
    intro ht
    obtain ⟨hh, hn⟩ := h ht
    exact ⟨(hp e.pos hh).1, fun hr => hn ((hp e.pos hh).2 hr)⟩

variable {t : Option Context} {t₁ t₂ : Option Context} {exec₂ : Code} {p : Nat → List Nat → Prop} {i : Nat} {n : Nat}

/-- Code parsed in a subcontext, with the branchpoints of the context around it. -/
theorem Sound.subContext {i next₁ next' : Nat} (h : Sound (context.createSubContext i) next₁ exec t next')
    (hle : next ≤ next₁) : Sound context next exec t next' := by
  refine ⟨Nat.le_trans hle h.le, fun t ht => ?_, h.falls, h.breaks, h.continues⟩
  obtain ⟨j, hj, hm⟩ := h.target t ht
  exact ⟨j, hj, hm.imp id (fun h => Nat.le_trans hle h)⟩

theorem Checked.subContext {i next₁ : Nat} (h : Checked (context.createSubContext i) next₁ exec has reaches r)
    (hle : next ≤ next₁) : Checked context next exec has reaches r := by
  match r, h with
  | .ok _, h => exact Sound.subContext h hle
  | .error _, h => exact h

theorem mergeTerminals_cases (a b : Option Context) :
    mergeTerminals a b = none ∨ a ≠ none ∧ b ≠ none ∧ (mergeTerminals a b = a ∨ mergeTerminals a b = b) := by
  cases a with
  | none => exact .inl rfl
  | some t =>
    cases b with
    | none => exact .inl rfl
    | some e =>
      refine .inr ⟨by simp, by simp, ?_⟩
      simp only [mergeTerminals]
      split <;> simp

theorem mergeCatch_cases (a b : Option Context) :
    mergeCatch a b = none ∨ a ≠ none ∧ b ≠ none ∧ (mergeCatch a b = a ∨ mergeCatch a b = b) := by
  cases b with
  | none => exact .inl rfl
  | some c =>
    cases a with
    | none => exact .inl rfl
    | some t =>
      refine .inr ⟨by simp, by simp, ?_⟩
      simp only [mergeCatch]
      split <;> simp

/-- A position in the statements or clauses that are numbered from `i` on. -/
def From (i : Nat) (p : Nat → List Nat → Prop) (pos : List Nat) : Prop := ∃ k q, pos = (i + k) :: q ∧ p k q

@[simp] theorem from_cons {i j : Nat} : From i p ((i + j) :: q) ↔ p j q := by
  constructor
  · rintro ⟨k, q', he, hp⟩
    rw [List.cons.injEq] at he
    obtain ⟨he, rfl⟩ := he
    have hk : j = k := by omega
    rw [hk]
    exact hp
  · intro hp
    exact ⟨j, q, rfl, hp⟩

theorem from_head : From i p (i :: q) ↔ p 0 q :=
  from_cons (j := 0)

theorem from_tail (has reaches : Nat → List Nat → Prop) {pos : List Nat}
    (h : From (i + 1) (fun k => has (k + 1)) pos) :
    From i has pos ∧ (From i reaches pos → From (i + 1) (fun k => reaches (k + 1)) pos) := by
  obtain ⟨k, q, rfl, hp⟩ := h
  rw [Nat.add_assoc, Nat.add_comm 1 k, from_cons, from_cons]
  exact ⟨hp, fun hr => ⟨k, q, by rw [Nat.add_assoc, Nat.add_comm 1 k], hr⟩⟩

theorem sound_fallsThrough (hle : next ≤ next') (hb : context.getBreak = none → ¬ exec .break)
    (hc : context.getContinue = none → ¬ exec .continue) : Sound context next exec none next' :=
  ⟨hle, fun t ht => (by cases ht), fun h => absurd rfl h, hb, hc⟩

theorem checked_return (returnType : ReturnType) (expr : Bool) :
    Checked context next (Stmt.return expr).exec (Stmt.return expr).Has (Stmt.return expr).Reaches
      (parseReturnStmt returnType context expr next) := by
  have hexec : ∀ o, (Stmt.return expr).exec o → o = .return ∨ o = .thrown := by
    intro o h
    cases expr with
    | true => exact h
    | false => exact .inl h
  unfold parseReturnStmt
  split
  · intro ht
    simp [String.ext_iff] at ht
  · refine ⟨Nat.le_refl _, fun t ht => ?_, fun _ h => ?_, fun _ h => ?_, fun _ h => ?_⟩
    · obtain ⟨i, hi, hm⟩ := Context.getToplevel_target ht
      exact ⟨i, hi, .inl hm⟩
    all_goals
      rcases hexec _ h with h | h <;> cases h

theorem checked_break :
    Checked context next Stmt.break.exec Stmt.break.Has Stmt.break.Reaches (match context.getBreak with
    | none => .error ⟨[], "Break can only be used in the body of a while, for or switch statement."⟩
    | some branch => .ok (some branch, next)) := by
  cases hb : context.getBreak with
  | none => intro ht; simp at ht
  | some branch =>
    refine ⟨Nat.le_refl _, fun t ht => ?_, fun _ h => (by cases h), fun h => ?_, fun _ h => (by cases h)⟩
    · cases ht
      obtain ⟨i, hi, hm⟩ := Context.getBreak_target hb
      exact ⟨i, hi, .inl hm⟩
    · rw [hb] at h; cases h

theorem checked_continue :
    Checked context next Stmt.continue.exec Stmt.continue.Has Stmt.continue.Reaches (match context.getContinue with
    | none => .error ⟨[], "Continue can only be used in the body of a while or for loop."⟩
    | some branch => .ok (some branch, next)) := by
  cases hb : context.getContinue with
  | none => intro ht; simp at ht
  | some branch =>
    refine ⟨Nat.le_refl _, fun t ht => ?_, fun _ h => (by cases h), fun _ h => (by cases h), fun h => ?_⟩
    · cases ht
      obtain ⟨i, hi, hm⟩ := Context.getContinue_target hb
      exact ⟨i, hi, .inl hm⟩
    · rw [hb] at h; cases h

theorem checked_throw (expr : Bool) :
    Checked context next (Stmt.throw expr).exec (Stmt.throw expr).Has (Stmt.throw expr).Reaches
      (parseThrowStmt context expr next) := by
  unfold parseThrowStmt
  split
  · intro ht; simp at ht
  · split
    · intro ht; simp at ht
    · intro ht; simp at ht
    next f parent hc =>
      obtain ⟨hself, hparent⟩ := Context.getCatch_target hc
      refine ⟨Nat.le_refl _, fun t ht => ?_, fun _ h => (by cases h), fun _ h => (by cases h),
        fun _ h => (by cases h)⟩
      have htarget : Context.AmongTargets context.targets t := by
        cases hf : f.toplevel with
        | true =>
          rw [if_pos hf] at ht
          exact hparent t hf ht
        | false =>
          rw [if_neg (by simp [hf])] at ht
          cases ht
          exact hself hf
      obtain ⟨i, hi, hm⟩ := htarget
      exact ⟨i, hi, .inl hm⟩

theorem not_mayThrow {o o' : Outcomes.Outcome} (h : o' ≠ o) (ht : o' ≠ .thrown) : ¬ mayThrow o o' := by
  rintro (he | he)
  · exact h he
  · exact ht he

/-- A branch that may be left out. -/
theorem Sound.ifThen (h : Sound context next exec t next') :
    Sound context next (choice (mayThrow .normal) exec) none next' :=
  sound_fallsThrough h.le
    (fun hb => Outcomes.not_choice (not_mayThrow (by simp) (by simp)) (h.breaks hb))
    (fun hc => Outcomes.not_choice (not_mayThrow (by simp) (by simp)) (h.continues hc))

theorem Sound.ifElse (h₁ : Sound context next exec t₁ n₁) (h₂ : Sound context n₁ exec₂ t₂ n₂) :
    Sound context next (choice (just .thrown) (choice exec exec₂)) (mergeTerminals t₁ t₂) n₂ := by
  have hthrown : ∀ o : Outcomes.Outcome, o ≠ .thrown → ¬ just .thrown o := fun o ho h => ho h
  refine ⟨Nat.le_trans h₁.le h₂.le, fun t ht => ?_, fun hne => ?_, fun hb => ?_, fun hc => ?_⟩
  · rcases mergeTerminals_cases t₁ t₂ with hn | ⟨-, -, hm | hm⟩
    · rw [hn] at ht; cases ht
    · exact h₁.target t (hm ▸ ht)
    · obtain ⟨i, hi, hor⟩ := h₂.target t (hm ▸ ht)
      exact ⟨i, hi, hor.imp id (fun h => Nat.le_trans h₁.le h)⟩
  · rcases mergeTerminals_cases t₁ t₂ with hn | ⟨hn₁, hn₂, -⟩
    · exact absurd hn hne
    · exact Outcomes.not_choice (hthrown _ (by simp)) (Outcomes.not_choice (h₁.falls hn₁) (h₂.falls hn₂))
  · exact Outcomes.not_choice (hthrown _ (by simp)) (Outcomes.not_choice (h₁.breaks hb) (h₂.breaks hb))
  · exact Outcomes.not_choice (hthrown _ (by simp)) (Outcomes.not_choice (h₁.continues hc) (h₂.continues hc))

theorem sound_while (hle : next ≤ next') : Sound context next (Loop exec) none next' :=
  sound_fallsThrough hle (fun _ => Loop.not_break) (fun _ => Loop.not_continue)

theorem sound_for (hle : next ≤ next') : Sound context next (choice (just .thrown) (Loop exec)) none next' :=
  sound_fallsThrough hle
    (fun _ => Outcomes.not_choice (fun h => (by cases h)) Loop.not_break)
    (fun _ => Outcomes.not_choice (fun h => (by cases h)) Loop.not_continue)

/-- The body of a loop is parsed in the context of the loop. -/
theorem Wf.loop (h : Wf context next) : Wf (context.createLoopContext next) (next + 1) := by
  intro i hi
  rw [Context.targets_createLoopContext, List.mem_cons] at hi
  rcases hi with rfl | hi
  · exact Nat.lt_succ_self i
  · exact Nat.lt_succ_of_lt (h i hi)

theorem Wf.tryBlock (h : Wf context next) : Wf (context.createTryContext next) (next + 1) := by
  intro i hi
  rw [Context.targets_createTryContext, List.mem_cons] at hi
  rcases hi with rfl | hi
  · exact Nat.lt_succ_self i
  · exact Nat.lt_succ_of_lt (h i hi)

theorem Sound.tryCatch
    (h₁ : Sound ((context.createTryContext next).createSubContext (next + 1)) (next + 2) exec t₁ n₁)
    (h₂ : Sound (context.createSubContext next) next exec₂ t₂ n₂) (ht : t₂ ≠ none → t₁ ≠ none) :
    Sound context next (tryCatch exec exec₂) t₂ n₂ :=
  ⟨h₂.le, h₂.target, fun hne => Outcomes.not_tryCatch (h₁.falls (ht hne)) (h₂.falls hne),
    fun hb => Outcomes.not_tryCatch (h₁.breaks hb) (h₂.breaks hb),
    fun hc => Outcomes.not_tryCatch (h₁.continues hc) (h₂.continues hc)⟩

/-- The terminal context of the block of a `try`, seen from the catch clauses. -/
theorem Sound.tryTarget
    (h : Sound ((context.createTryContext next).createSubContext (next + 1)) (next + 2) exec t n) :
    ∀ x, t = some x → ∃ i, x.id = some i ∧ (i ∈ context.targets ∨ next ≤ i) := by
  intro x hx
  obtain ⟨i, hi, hm⟩ := h.target x hx
  refine ⟨i, hi, ?_⟩
  rw [Context.targets_createSubContext, Context.targets_createTryContext, List.mem_cons] at hm
  rcases hm with (hm | hm) | hm
  · exact .inr (by omega)
  · exact .inl hm
  · exact .inr (by omega)

theorem Sound.mergeCatch {terminal t : Option Context} {first n : Nat}
    (h : Sound (context.createSubContext i) next exec t n) (hle : first ≤ next)
    (ht : ∀ x, terminal = some x → ∃ i, x.id = some i ∧ (i ∈ context.targets ∨ first ≤ i)) :
    Sound context first exec (mergeCatch terminal t) n := by
  have hs : Sound context first exec t n := h.subContext hle
  refine ⟨hs.le, fun x hx => ?_, fun hne => ?_, hs.breaks, hs.continues⟩
  · rcases mergeCatch_cases terminal t with hn | ⟨-, -, hm | hm⟩
    · rw [hn] at hx; cases hx
    · exact ht x (hm ▸ hx)
    · exact hs.target x (hm ▸ hx)
  · rcases mergeCatch_cases terminal t with hn | ⟨-, hnt, -⟩
    · exact absurd hn hne
    · exact hs.falls hnt

theorem Sound.catches {first n₁ n₂ : Nat} (h₁ : Sound context first exec t₁ n₁)
    (h₂ : Sound context first exec₂ t₂ n₂) (ht : t₂ ≠ none → t₁ ≠ none) :
    Sound context first (choice exec exec₂) t₂ n₂ :=
  ⟨h₂.le, h₂.target, fun hne => Outcomes.not_choice (h₁.falls (ht hne)) (h₂.falls hne),
    fun hb => Outcomes.not_choice (h₁.breaks hb) (h₂.breaks hb),
    fun hc => Outcomes.not_choice (h₁.continues hc) (h₂.continues hc)⟩

/-- A statement that does not fall through leaves nothing to the rest of its block. -/
theorem Sound.seqTerminal (rest : Code) (h : Sound context next exec t n) (ht : t ≠ none) :
    Sound context next (seq exec rest) t n :=
  ⟨h.le, h.target, fun _ hs => (Outcomes.seq_abrupt hs (h.falls ht)).2 rfl,
    fun hb hs => h.breaks hb (Outcomes.seq_abrupt hs (h.falls ht)).1,
    fun hc hs => h.continues hc (Outcomes.seq_abrupt hs (h.falls ht)).1⟩

theorem Sound.seq {rest : Code} {t t' : Option Context} {n n' : Nat} (h : Sound context next exec t n)
    (h' : Sound context n rest t' n') : Sound context next (seq exec rest) t' n' := by
  refine ⟨Nat.le_trans h.le h'.le, fun x hx => ?_, fun hne hs => ?_,
    fun hb => Outcomes.not_seq (h.breaks hb) (h'.breaks hb), fun hc => Outcomes.not_seq (h.continues hc) (h'.continues hc)⟩
  · obtain ⟨i, hi, hm⟩ := h'.target x hx
    exact ⟨i, hi, hm.imp id (fun hle => Nat.le_trans h.le hle)⟩
  · rcases hs with ⟨-, hn⟩ | ⟨-, hn⟩
    · exact h'.falls hne hn
    · exact hn rfl

theorem Checked.block {b : Block}
    (h : Checked context next exec (From 0 (fun k p => b.Has (k :: p))) (From 0 (fun k p => b.Reaches (k :: p))) r) :
    Checked context next exec b.Has b.Reaches r := by
  match r, h with
  | .ok _, h => exact h
  | .error e, h =>
    intro ht
    obtain ⟨⟨k, p, he, hh⟩, hn⟩ := h ht
    rw [Nat.zero_add] at he
    rw [he] at hn ⊢
    exact ⟨hh, fun hr => hn ⟨k, p, by rw [Nat.zero_add], hr⟩⟩

/-- The result of the catch clauses is no terminal context unless the block before them has one. -/
theorem parseCatches_terminal (returnType : ReturnType) : ∀ (catches : Catches) (context : Context) (i next : Nat)
    (terminal t : Option Context) (n : Nat),
    parseCatches returnType context catches i terminal next = .ok (t, n) → t ≠ none → terminal ≠ none
  | .last body, context, i, next, terminal, t, n => by
    intro he hne
    rw [parseCatches] at he
    cases hb : Parser.inside i (parseBlock returnType (context.createSubContext next) body 0 false none (next + 1)) with
    | error e => rw [hb] at he; cases he
    | ok r =>
      rw [hb] at he
      cases he
      rcases mergeCatch_cases terminal r.1 with hn | ⟨ht, -⟩
      · exact absurd hn hne
      · exact ht
  | .cons body rest, context, i, next, terminal, t, n => by
    intro he hne
    rw [parseCatches] at he
    cases hb : Parser.inside i (parseBlock returnType (context.createSubContext next) body 0 false none (next + 1)) with
    | error e => rw [hb] at he; cases he
    | ok r =>
      rw [hb] at he
      have hm := parseCatches_terminal returnType rest context (i + 1) r.2 (mergeCatch terminal r.1) t n he hne
      rcases mergeCatch_cases terminal r.1 with hn | ⟨ht, -⟩
      · exact absurd hn hm
      · exact ht

mutual

theorem checked_statement (returnType : ReturnType) : ∀ (s : Stmt) {context : Context} {next : Nat},
    Wf context next → Checked context next s.exec s.Has s.Reaches (parseStatement returnType context s next)
  | .null, _, _, _ => by
    rw [parseStatement]
    exact sound_fallsThrough (Nat.le_refl _) (fun _ h => (by cases h)) (fun _ h => (by cases h))
  | .clause, _, _, _ => by
    rw [parseStatement]
    exact sound_fallsThrough (Nat.le_refl _) (fun _ => not_mayThrow (by simp) (by simp))
      (fun _ => not_mayThrow (by simp) (by simp))
  | .return expr, _, _, _ => by rw [parseStatement]; exact checked_return returnType expr
  | .break, _, _, _ => by rw [parseStatement]; exact checked_break
  | .continue, _, _, _ => by rw [parseStatement]; exact checked_continue
  | .throw expr, _, _, _ => by rw [parseStatement]; exact checked_throw expr
  | .if thenClause, context, next, h => by
    rw [parseStatement]
    have hthen := checked_clause returnType thenClause (h.subContext (i := next) (Nat.le_succ next))
    have hin := hthen.inside 0 (Stmt.if thenClause).Has (Stmt.if thenClause).Reaches (fun _ hp => hp) (fun _ hp => hp)
    refine hin.bind (fun t n hs => ?_)
    exact (hs.subContext (Nat.le_succ next)).ifThen
  | .ifElse thenClause elseClause, context, next, h => by
    rw [parseStatement]
    have hthen := checked_clause returnType thenClause (h.subContext (i := next) (Nat.le_succ next))
    have hin := hthen.inside 0 (Stmt.ifElse thenClause elseClause).Has (Stmt.ifElse thenClause elseClause).Reaches
      (fun _ hp => hp) (fun _ hp => hp)
    refine hin.bind (fun t n hs => ?_)
    have hle : next ≤ n := Nat.le_trans (Nat.le_succ next) hs.le
    have helse := checked_clause returnType elseClause (h.subContext (i := next) hle)
    have hin := helse.inside 1 (Stmt.ifElse thenClause elseClause).Has (Stmt.ifElse thenClause elseClause).Reaches
      (fun _ hp => hp) (fun _ hp => hp)
    refine hin.bind (fun t' n' hs' => ?_)
    exact (hs.subContext (Nat.le_succ next)).ifElse (hs'.subContext (Nat.le_refl n))
  | .while body, context, next, h => by
    rw [parseStatement]
    have hbody := checked_clause returnType body h.loop
    have hin := hbody.inside 0 (Stmt.while body).Has (Stmt.while body).Reaches
      (fun _ hp => hp) (fun _ hp => hp)
    refine hin.bind (fun t n hs => ?_)
    exact sound_while (Nat.le_trans (Nat.le_succ next) hs.le)
  | .for body, context, next, h => by
    rw [parseStatement]
    have hbody := checked_clause returnType body h.loop
    have hin := hbody.inside 0 (Stmt.for body).Has (Stmt.for body).Reaches
      (fun _ hp => hp) (fun _ hp => hp)
    refine hin.bind (fun t n hs => ?_)
    exact sound_for (Nat.le_trans (Nat.le_succ next) hs.le)
  | .try body catches, context, next, h => by
    rw [parseStatement]
    have hbody := (checked_block returnType body 0 h.tryBlock.plain).block
    have hin := hbody.inside 0 (Stmt.try body catches).Has (Stmt.try body catches).Reaches
      (fun _ hp => hp) (fun _ hp => hp)
    refine hin.bind (fun t n hs => ?_)
    have hle : next ≤ n := by have := hs.le; omega
    have hcatches := checked_catches returnType catches 1 t hle (h.subContext (i := next) hle)
      hs.tryTarget
    refine hcatches.extend (fun t' n' hr hs' => hs.tryCatch hs' (parseCatches_terminal _ _ _ _ _ _ _ _ hr)) ?_
    rintro pos ⟨k, p, rfl, hh⟩
    rw [Nat.add_comm 1 k, Stmt.Has, Stmt.Reaches]
    exact ⟨hh, fun hr => ⟨k, p, by rw [Nat.add_comm], hr.2⟩⟩

theorem checked_catches (returnType : ReturnType) : ∀ (catches : Catches) {context : Context} {first next : Nat}
    (i : Nat) (terminal : Option Context) (_ : first ≤ next), Wf context next →
    (∀ x, terminal = some x → ∃ j, x.id = some j ∧ (j ∈ context.targets ∨ first ≤ j)) →
    Checked context first catches.exec (From i catches.Has) (From i catches.Reaches)
      (parseCatches returnType context catches i terminal next)
  | .last body, context, first, next, i, terminal, hle, h, ht => by
    rw [parseCatches]
    have hbody := (checked_block returnType body 0 h.plain).block
    have hin := hbody.inside i (From i (Catches.last body).Has) (From i (Catches.last body).Reaches)
      (fun _ hp => from_head.mpr hp) (fun _ hp => from_head.mp hp)
    refine hin.bind (fun t n hs => ?_)
    exact hs.mergeCatch (Nat.le_trans hle (Nat.le_succ next)) ht
  | .cons body rest, context, first, next, i, terminal, hle, h, ht => by
    rw [parseCatches]
    have hbody := (checked_block returnType body 0 h.plain).block
    have hin := hbody.inside i (From i (Catches.cons body rest).Has) (From i (Catches.cons body rest).Reaches)
      (fun _ hp => from_head.mpr hp) (fun _ hp => from_head.mp hp)
    refine hin.bind (fun t n hs => ?_)
    have hmerge := hs.mergeCatch (Nat.le_trans hle (Nat.le_succ next)) ht
    have hn : next ≤ n := Nat.le_trans (Nat.le_succ next) hs.le
    have hrest := checked_catches returnType rest (i + 1) (mergeCatch terminal t) (Nat.le_trans hle hn) (h.mono hn)
      hmerge.target
    exact hrest.extend
      (fun t' n' hr hs' => hmerge.catches hs' (parseCatches_terminal _ _ _ _ _ _ _ _ hr))
      (fun _ hp => from_tail _ _ hp)

theorem checked_clause (returnType : ReturnType) : ∀ (clause : Clause) {context : Context} {next : Nat},
    Wf context next → Checked context next clause.exec clause.Has clause.Reaches (parseIfClause returnType context clause next)
  | .block b, context, next, h => by
    rw [parseIfClause]
    exact (checked_block returnType b 0 h.plain).block.subContext (Nat.le_succ next)
  | .stmt s, context, next, h => by
    rw [parseIfClause]
    have hs := checked_statement returnType s (h.subContext (i := next) (Nat.le_succ next))
    have hin := hs.inside 0 (Clause.stmt s).Has (Clause.stmt s).Reaches
      (fun _ hp => hp) (fun _ hp => hp)
    exact hin.subContext (Nat.le_succ next)

theorem checked_block (returnType : ReturnType) : ∀ (b : Block) {context : Context} {next : Nat} (i : Nat),
    Plain context next →
    Checked context next b.exec (From i (fun k p => b.Has (k :: p))) (From i (fun k p => b.Reaches (k :: p)))
      (parseBlock returnType context b i false none next)
  | .nil, context, next, i, h => by
    rw [parseBlock]
    exact sound_fallsThrough (Nat.le_refl _) (fun _ h => (by cases h)) (fun _ h => (by cases h))
  | .cons s rest, context, next, i, h => by
    rw [parseBlock, if_neg Bool.false_ne_true]
    have hs := checked_statement returnType s h.wf
    have hin := hs.inside i (From i (fun k p => (Block.cons s rest).Has (k :: p)))
      (From i (fun k p => (Block.cons s rest).Reaches (k :: p))) (fun _ hp => from_head.mpr hp)
      (fun _ hp => from_head.mp hp)
    refine hin.bind (fun t n hs => ?_)
    cases t with
    | none =>
      have hrest := checked_block returnType rest (i + 1) (h.mono hs.le)
      refine hrest.extend (fun t' n' _ hs' => hs.seq hs') (fun pos hp => ?_)
      obtain ⟨hh, hr⟩ := from_tail (fun k p => (Block.cons s rest).Has (k :: p))
        (fun k p => (Block.cons s rest).Reaches (k :: p)) hp
      refine ⟨hh, fun hreach => ?_⟩
      obtain ⟨k, q, he, -, hq⟩ := hr hreach
      exact ⟨k, q, he, hq⟩
    | some t =>
      obtain ⟨j, hj, hlt, hplain⟩ := h
      obtain ⟨x, hx, hm⟩ := hs.target t rfl
      -- the context of the block is no target of its statements
      have hne : t.id ≠ context.id := by
        rw [hx, hj]
        intro he
        cases he
        rcases hm with hm | hm
        · exact Nat.lt_irrefl _ (hplain _ hm)
        · omega
      have hterm := hs.seqTerminal rest.exec (by simp)
      simp only [if_pos hne]
      cases rest with
      | nil => rw [parseBlock]; exact hterm
      | cons s' rest =>
        rw [parseBlock, if_pos rfl]
        intro _
        refine ⟨from_cons.mpr (by simp [Block.Has, Stmt.Has]), fun hr => ?_⟩
        exact hs.falls (by simp) (from_cons.mp hr).1

end

/-- An accepted function that returns a value ends in a `return` or an exception,
and code that is rejected as unreachable is code that no execution comes to. -/
theorem function_body_control_flow (outer : Frame) (outers : Context) (returnType : ReturnType) (body : Block) :
    (parseFuncBody outer outers returnType body = .ok () → returnType.isVoid = false →
      ∀ o, body.exec o → o = .return ∨ o = .thrown) ∧
    ∀ e, parseFuncBody outer outers returnType body = .error e → e.text = "unreachable code" →
      body.Has e.pos ∧ ¬ body.Reaches e.pos := by
  have hplain : Plain ({ id := outer.id + 1, toplevel := true } :: outer :: outers) (outer.id + 2) := by
    refine ⟨outer.id + 1, rfl, by omega, fun j hj => ?_⟩
    have hj : j = outer.id := by simpa [Context.targets] using hj
    omega
  have hbody := (checked_block returnType body 0 hplain).block
  cases hp : parseBlock returnType ({ id := outer.id + 1, toplevel := true } :: outer :: outers) body 0 false none
      (outer.id + 2) with
  | error e =>
    rw [hp] at hbody
    simp only [parseFuncBody, hp, bind, Except.bind]
    refine ⟨fun h => (by cases h), fun e' he => ?_⟩
    cases he
    exact hbody
  | ok r =>
    rw [hp] at hbody
    obtain ⟨terminal, n⟩ := r
    simp only [parseFuncBody, hp, bind, Except.bind]
    cases terminal with
    | none =>
      refine ⟨fun h hv => ?_, fun e he ht => ?_⟩
      · simp [hv] at h
      · simp only [Option.isNone_none, Bool.true_and] at he
        split at he
        · cases he
          simp at ht
        · cases he
    | some t =>
      refine ⟨fun _ _ o ho => ?_, fun e he => (by cases he)⟩
      cases o with
      | normal => exact absurd ho (hbody.falls (by simp))
      | «return» => exact .inl rfl
      | «break» => exact absurd ho (hbody.breaks rfl)
      | «continue» => exact absurd ho (hbody.continues rfl)
      | thrown => exact .inr rfl

/-- `try { f(); return 1; } catch (E e) { if (c) return 2; else throw e; }`. -/
def tryReturn : Block :=
  .cons (.try (.cons .clause (.cons (.return true) .nil))
    (.last (.cons (.ifElse (.stmt (.return true)) (.stmt (.throw true))) .nil))) .nil

/-- `while (c) { break; f(); }`. -/
def afterBreak : Block := .cons (.while (.block (.cons .break (.cons .clause .nil)))) .nil

theorem tryReturn_control_flow :
    (∀ o, tryReturn.exec o → o = .return ∨ o = .thrown) ∧
      afterBreak.Has [0, 0, 1] ∧ ¬ afterBreak.Reaches [0, 0, 1] :=
  ⟨(function_body_control_flow { id := 0 } [] ⟨"int", false⟩ tryReturn).1 (by decide) rfl,
    (function_body_control_flow { id := 0 } [] ⟨"int", false⟩ afterBreak).2 ⟨[0, 0, 1], "unreachable code"⟩ (by decide)
      rfl⟩

end Parser

end Crack
