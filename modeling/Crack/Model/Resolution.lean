import Crack.Model.OverloadDef

/-!
# Which function look-up finds

A null result of a parent means "no match" or "deleted match", and the loops
over the parents and over the passes cannot tell them apart. Look-up therefore
follows the resolution order exactly as long as it does not meet a deleted
function with something left to try.
-/
namespace Crack

namespace OverloadDef

open FuncDef (Convert)

variable {Expr : Type} {env : Exprs Expr} {flag : Convert} {allowOverrides : Bool}

variable (env flag) in
theorem upToMatch_ne_nil (args : List Expr) {l : List FuncDef} (h : l ≠ []) :
    upToMatch env flag args l ≠ [] := by
  cases l with
  | nil => exact absurd rfl h
  | cons f l => simp [upToMatch]

variable (flag) in
/-- The caller's arguments after a match that converts them to `newArgs`. -/
def passedBack (args newArgs : List Expr) : List Expr := if flag = .noConvert then args else newArgs

variable (env flag) in
/-- What a pass does with the candidates `cands`, by the match it locates. -/
def Outcome (args : List Expr) (cands : List FuncDef)
    (located : Option (FuncDef × List Expr × List FuncDef)) (r : Lookup Expr) : Prop :=
  match located with
  | none => r = ⟨none, args, upToMatch env flag args cands⟩
  | some (f, newArgs, later) =>
    if f.deleted then
      (later = [] → r = ⟨none, passedBack flag args newArgs, upToMatch env flag args cands⟩) ∧
      (later ≠ [] → ∃ extra, extra ≠ [] ∧ r.tried = upToMatch env flag args cands ++ extra)
    else r = ⟨some f, passedBack flag args newArgs, upToMatch env flag args cands⟩

/-- A pass over a set with candidates tries one of them. -/
theorem Outcome.tried_ne_nil {args : List Expr} {cands : List FuncDef}
    {located : Option (FuncDef × List Expr × List FuncDef)} {r : Lookup Expr}
    (h : Outcome env flag args cands located r) (hc : cands ≠ []) : r.tried ≠ [] := by
  have hne := upToMatch_ne_nil env flag args hc
  match located, h with
  | none, h => rw [h]; exact hne
  | some (f, newArgs, later), h =>
    simp only [Outcome] at h
    by_cases hd : f.deleted
    · rw [if_pos hd] at h
      by_cases hl : later = []
      · rw [h.1 hl]; exact hne
      · obtain ⟨extra, _, ht⟩ := h.2 hl
        simp [ht, hne]
    · rw [if_neg hd] at h
      rw [h]; exact hne

theorem locateAll_nil_candidates {args : List Expr} {ps : List OverloadDef}
    (h : candidatesAll allowOverrides ps = []) : locateAll env flag allowOverrides args ps = none := by
  have hm := firstMatch_candidatesAll env flag allowOverrides args ps
  rw [h] at hm
  simpa [firstMatch] using hm.symm

/-- What the loop over the parents makes of the outcome of its first parent. -/
theorem getMatchParents_cons (args : List Expr) (p : OverloadDef) (ps : List OverloadDef)
    (hp : Outcome env flag args (candidates allowOverrides p) (locate env flag allowOverrides args p)
      (getMatchIn env flag allowOverrides p args))
    (hps : ∀ args, Outcome env flag args (candidatesAll allowOverrides ps)
      (locateAll env flag allowOverrides args ps) (getMatchParents env flag allowOverrides ps args)) :
    Outcome env flag args (candidatesAll allowOverrides (p :: ps))
      (locateAll env flag allowOverrides args (p :: ps))
      (getMatchParents env flag allowOverrides (p :: ps) args) := by
  have hfm := firstMatch_candidates env flag allowOverrides args p
  rw [candidatesAll_cons, locateAll, getMatchParents]
  unfold Outcome at hp ⊢
  rw [upToMatch_append, hfm]
  cases hl : locate env flag allowOverrides args p with
  | none =>
    rw [hl] at hp
    simp only at hp
    simp only [hp, Option.map_none, Option.isSome_none, Bool.false_eq_true, if_false]
    have h := hps args
    unfold Outcome at h
    cases hla : locateAll env flag allowOverrides args ps with
    | none =>
      rw [hla] at h
      simp only at h ⊢
      rw [h]
    | some m =>
      obtain ⟨f, newArgs, later⟩ := m
      rw [hla] at h
      simp only at h ⊢
      split_ifs at h ⊢ with hd
      · refine ⟨fun he => by rw [h.1 he], fun he => ?_⟩
        obtain ⟨extra, hx, ht⟩ := h.2 he
        exact ⟨extra, hx, by simp [ht]⟩
      · rw [h]
  | some m =>
    obtain ⟨f, newArgs, later⟩ := m
    rw [hl] at hp
    simp only [Option.map_some, Option.isSome_some, if_true, List.append_nil] at hp ⊢
    split_ifs at hp ⊢ with hd
    · constructor
      · intro he
        obtain ⟨hlater, hcands⟩ := List.append_eq_nil_iff.mp he
        have h := hps (passedBack flag args newArgs)
        unfold Outcome at h
        rw [locateAll_nil_candidates hcands, hcands] at h
        rw [hp.1 hlater]
        simp only at h ⊢
        rw [h]
        simp [upToMatch]
      · intro he
        by_cases hlater : later = []
        · have hcands : candidatesAll allowOverrides ps ≠ [] := by simpa [hlater] using he
          have h := (hps (passedBack flag args newArgs)).tried_ne_nil hcands
          rw [hp.1 hlater]
          exact ⟨_, h, rfl⟩
        · obtain ⟨extra, hx, ht⟩ := hp.2 hlater
          cases (getMatchIn env flag allowOverrides p args).result with
          | some g => exact ⟨extra, hx, ht⟩
          | none => exact ⟨extra ++ _, by simp [hx], by rw [ht, List.append_assoc]⟩
    · rw [hp]

variable (env flag allowOverrides) in
mutual

/-- Each pass has the outcome that its located match determines. -/
theorem getMatchIn_outcome : ∀ (ovl : OverloadDef) (args : List Expr),
    Outcome env flag args (candidates allowOverrides ovl) (locate env flag allowOverrides args ovl)
      (getMatchIn env flag allowOverrides ovl args)
  | mk _ funcs parents, args => by
    have h := getMatchParents_outcome parents args
    rw [candidates_mk, getMatchIn, locate, scanFuncs_eq]
    unfold Outcome at h ⊢
    rw [upToMatch_append]
    cases hm : firstMatch env flag args (funcs.filter (considered allowOverrides)) with
    | some m =>
      obtain ⟨f, newArgs⟩ := m
      by_cases hd : f.deleted <;> simp [hd, nullIfDeleted, passedBack]
    | none =>
      simp only [Option.isSome_none, Bool.false_eq_true, if_false]
      cases hl : locateAll env flag allowOverrides args parents with
      | none =>
        rw [hl] at h
        simp only at h ⊢
        rw [h]
      | some m =>
        obtain ⟨f, newArgs, later⟩ := m
        rw [hl] at h
        simp only at h ⊢
        split_ifs at h ⊢ with hd
        · refine ⟨fun he => by rw [h.1 he], fun he => ?_⟩
          obtain ⟨extra, hx, ht⟩ := h.2 he
          exact ⟨extra, hx, by simp [ht]⟩
        · rw [h]

theorem getMatchParents_outcome : ∀ (ps : List OverloadDef) (args : List Expr),
    Outcome env flag args (candidatesAll allowOverrides ps) (locateAll env flag allowOverrides args ps)
      (getMatchParents env flag allowOverrides ps args)
  | [], args => by simp [Outcome, locateAll, getMatchParents, upToMatch]
  | p :: ps, args =>
    getMatchParents_cons args p ps (getMatchIn_outcome p args) (getMatchParents_outcome ps)

end

theorem locate_candidates_ne {args : List Expr} {ovl : OverloadDef} {m : FuncDef × List Expr × List FuncDef}
    (h : locate env flag allowOverrides args ovl = some m) : candidates allowOverrides ovl ≠ [] := by
  intro he
  have hm := firstMatch_candidates env flag allowOverrides args ovl
  rw [he, h] at hm
  cases hm

/-- A deleted match of the first pass is followed by a second pass. -/
theorem tried_of_deleted_first {args : List Expr} {ovl : OverloadDef} {f : FuncDef} {newArgs : List Expr}
    {later : List FuncDef}
    (hl : locate env (firstFlag env args) allowOverrides args ovl = some (f, newArgs, later))
    (hd : f.deleted = true) : ∃ extra, extra ≠ [] ∧
      (getMatch env allowOverrides ovl args).tried =
        upToMatch env (firstFlag env args) args (candidates allowOverrides ovl) ++ extra := by
  have h := getMatchIn_outcome env (firstFlag env args) allowOverrides ovl args
  unfold Outcome at h
  rw [hl] at h
  simp only [hd, if_true] at h
  unfold getMatch
  by_cases he : later = []
  · rw [h.1 he]
    exact ⟨_, (getMatchIn_outcome env _ allowOverrides ovl _).tried_ne_nil (locate_candidates_ne hl), rfl⟩
  · obtain ⟨extra, hx, ht⟩ := h.2 he
    cases hr : (getMatchIn env (firstFlag env args) allowOverrides ovl args).result with
    | some g => exact ⟨extra, hx, by simp [hr, ht]⟩
    | none => exact ⟨extra ++ _, by simp [hx], by simp only [hr]; rw [ht, List.append_assoc]⟩

/-- With no match in the first pass, look-up is the second pass. -/
theorem getMatch_of_no_first {args : List Expr} (ovl : OverloadDef)
    (hl : locate env (firstFlag env args) allowOverrides args ovl = none) :
    let r := getMatchIn env .convert allowOverrides ovl args
    getMatch env allowOverrides ovl args = ⟨r.result, r.args,
      upToMatch env (firstFlag env args) args (candidates allowOverrides ovl) ++ r.tried⟩ := by
  have h := getMatchIn_outcome env (firstFlag env args) allowOverrides ovl args
  unfold Outcome at h
  rw [hl] at h
  simp only [getMatch, h]

/-- Look-up follows the resolution order exactly when no deleted function
disturbs it. -/
theorem getMatch_resolves_iff (env : Exprs Expr) (allowOverrides : Bool) (ovl : OverloadDef)
    (args : List Expr) :
    Resolves env allowOverrides ovl args ↔ Undisturbed env allowOverrides ovl args := by
  have h₁ := getMatchIn_outcome env (firstFlag env args) allowOverrides ovl args
  have h₂ := getMatchIn_outcome env .convert allowOverrides ovl args
  have hf₁ := firstMatch_candidates env (firstFlag env args) allowOverrides args ovl
  have hf₂ := firstMatch_candidates env .convert allowOverrides args ovl
  unfold Undisturbed
  rw [hf₁]
  cases hl : locate env (firstFlag env args) allowOverrides args ovl with
  | some m =>
    obtain ⟨f, newArgs, later⟩ := m
    rw [hl] at hf₁
    simp only [Option.map_some]
    constructor
    · intro hr
      by_contra hd
      rw [Bool.not_eq_false] at hd
      obtain ⟨extra, hx, ht⟩ := tried_of_deleted_first hl hd
      have := hr.tried
      simp only [resolution, hf₁, Option.map_some, Option.isSome_some, if_true, List.append_nil] at this
      rw [ht] at this
      exact hx (List.append_right_eq_self.mp this)
    · intro hd
      unfold Outcome at h₁
      rw [hl] at h₁
      simp only [hd, Bool.false_eq_true, if_false] at h₁
      constructor <;> simp [getMatch, h₁, selected, resolution, hf₁, nullIfDeleted, hd]
  | none =>
    rw [hl] at hf₁
    simp only [Option.map_none] at hf₁ ⊢
    have hg := getMatch_of_no_first ovl hl
    unfold Outcome at h₂
    constructor
    · intro hr f newArgs later hloc hd
      rw [hloc] at h₂ hf₂
      simp only [hd, if_true] at h₂
      have ht := hr.tried
      simp only [hg, resolution, hf₁, Option.isSome_none, Bool.false_eq_true, if_false,
        List.append_cancel_left_eq] at ht
      by_cases he : later = []
      · refine ⟨he, ?_⟩
        have hu := hr.unchanged
        simp only [hg, h₂.1 he] at hu
        simpa [passedBack] using hu
      · obtain ⟨extra, hx, ht'⟩ := h₂.2 he
        rw [ht'] at ht
        exact absurd (List.append_right_eq_self.mp ht) hx
    · intro hu
      cases hloc : locate env .convert allowOverrides args ovl with
      | none =>
        rw [hloc] at h₂ hf₂
        simp only at h₂
        constructor <;> simp [hg, h₂, selected, resolution, hf₁, hf₂]
      | some m =>
        obtain ⟨f, newArgs, later⟩ := m
        rw [hloc] at h₂ hf₂
        simp only at h₂
        by_cases hd : f.deleted = true
        · obtain ⟨he, hargs⟩ := hu f newArgs later hloc hd
          rw [if_pos hd] at h₂
          have h := h₂.1 he
          constructor <;> simp [hg, h, selected, resolution, hf₁, hf₂, nullIfDeleted, hd, passedBack, hargs]
        · rw [if_neg hd] at h₂
          constructor <;> simp [hg, h₂, selected, resolution, hf₁, hf₂, nullIfDeleted, hd]

/-- Without expressions there is nothing to convert. -/
def noExprs : Exprs Empty := ⟨nofun, nofun, nofun, fun _ _ => false⟩

/-- `f()` of class 1 is deleted, class 2 defines an `f()` of its own, and class 3
derives from both and adds an `f` with an argument. -/
def siblingOverload : OverloadDef :=
  .mk (some 3) [⟨"f", 0, [⟨"x", 4⟩], false, false, false, some 3, some 3, false⟩]
   [.mk (some 1) [⟨"f", 0, [], false, false, true, some 1, some 1, false⟩] [],
    .mk (some 2) [⟨"f", 0, [], false, false, false, some 2, some 2, false⟩] []]

/-- The deleted function is selected, and look-up goes on to the next base. -/
theorem deleted_match_passed_over :
    ¬ Resolves noExprs true siblingOverload [] ∧
      (selected noExprs true siblingOverload []).map FuncDef.deleted = some true ∧
      (getMatch noExprs true siblingOverload []).result =
        some ⟨"f", 0, [], false, false, false, some 2, some 2, false⟩ := by
  refine ⟨?_, by decide, by decide⟩
  intro h
  have := h.result
  revert this
  decide

end OverloadDef

end Crack
