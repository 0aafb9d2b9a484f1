import Crack.Enc.Json2

/-!
# What the parser asks for

The parser on a text without a buffer. Its log has what it asks for, what it skips and its
calls; it may look only at bytes that it has asked for. A reader supplies the bytes of the
text, and an ask is cut if one read does not bring the bytes that the text has.
-/
namespace Crack

namespace Json2

/-- What the parser does on a text. -/
inductive Step (F : Type) where
  | ask (bytes : Nat)
  | skip (count : Nat)
  | call (c : Call F)
  deriving DecidableEq, Repr

/-- The calls of a log. -/
def calls {F : Type} : List (Step F) → List (Call F)
  | [] => []
  | .call c :: log => c :: calls log
  | _ :: log => calls log

structure Text (F : Type) where
  left : List UInt8
  /-- How many of the bytes were asked for. -/
  seen : Nat
  log : List (Step F)
  few : seen ≤ left.length

namespace Text

variable {F : Type}

def init (text : List UInt8) : Text F := ⟨text, 0, [], Nat.zero_le _⟩

def want (bytes : Nat) : Effect Failure (Text F) Bool := fun t =>
  if h : bytes ≤ t.left.length then
    (.ok true, ⟨t.left, max t.seen bytes, t.log ++ [.ask bytes], Nat.max_le.mpr ⟨t.few, h⟩⟩)
  else (.ok false, { t with log := t.log ++ [.ask bytes] })

/-- Something on bytes that were asked for. -/
def ifSeen {α : Type} (t : Text F) (count : Nat) (r : α) : Except Failure α :=
  if count ≤ t.seen then .ok r else .error (.stop .wildAccess)

theorem few_drop (t : Text F) (count : Nat) : t.seen - count ≤ (t.left.drop count).length := by
  rw [List.length_drop]
  exact Nat.sub_le_sub_right t.few count

def skip (count : Nat) : Effect Failure (Text F) Unit := fun t =>
  if count ≤ t.seen then (.ok (), ⟨t.left.drop count, t.seen - count, t.log ++ [.skip count], t.few_drop count⟩)
  else (.error (.stop .wildAccess), t)

instance : Input (Text F) F where
  want := want
  get i := fun t => (t.ifSeen (i + 1) (t.left.getD i 0), t)
  memory count := fun t => (t.ifSeen count (t.left.take count), t)
  skip := skip
  inside := fun t => (t.ifSeen 1 true, t)
  rest := fun t => (.ok t.left, t)
  call c := fun t => (.ok (), { t with log := t.log ++ [.call c] })

end Text

/-- How many bytes are in the buffer, and the reader. -/
structure Supply where
  ahead : Nat
  src : Source
  far : Nat

namespace Supply

variable {F : Type} (s : Supply)

/-- An ask reads once if too few bytes are there. -/
def ask (bytes : Nat) : Supply :=
  if s.ahead < bytes then ⟨s.ahead + (s.src.read (1024 - s.ahead)).1.length, (s.src.read (1024 - s.ahead)).2, s.far⟩
  else s

def after : Step F → Supply
  | .ask bytes => s.ask bytes
  | .skip count => { s with ahead := s.ahead - count }
  | .call _ => s

/-- The text has the bytes, but they are not in the buffer. -/
def Cut (bytes : Nat) : Prop := bytes ≤ s.ahead + s.src.left.length ∧ (s.ask bytes).ahead < bytes

instance (bytes : Nat) : Decidable (s.Cut bytes) := inferInstanceAs (Decidable (_ ∧ _))

/-- The number of calls before the first ask that is cut. -/
def firstCut : Supply → List (Step F) → Option Nat
  | _, [] => none
  | s, .ask bytes :: log => if s.Cut bytes then some 0 else firstCut (s.ask bytes) log
  | s, .skip count :: log => firstCut { s with ahead := s.ahead - count } log
  | s, .call _ :: log => (firstCut s log).map (· + 1)

def run : Supply → List (Step F) → Supply
  | s, [] => s
  | s, a :: log => run (s.after a) log

/-- An ask makes it read where only bytes beyond are left. -/
def Far : Supply → List (Step F) → Prop
  | _, [] => False
  | s, a :: log => (∃ bytes, a = .ask bytes ∧ s.ahead < bytes ∧ Beyond s.src s.far) ∨ Far (s.after a) log

variable {s} {log log' : List (Step F)} {bytes n : Nat} {c : Call F} {a : Step F}

theorem run_append : s.run (log ++ log') = (s.run log).run log' := by
  induction log generalizing s with
  | nil => rfl
  | cons a log ih => exact ih

theorem far_append : s.Far (log ++ log') ↔ s.Far log ∨ (s.run log).Far log' := by
  induction log generalizing s with
  | nil => exact (or_iff_right id).symm
  | cons a log ih =>
    rw [List.cons_append, Far, ih, Far, or_assoc]
    rfl

theorem far_ask : s.Far [Step.ask (F := F) bytes] ↔ s.ahead < bytes ∧ Beyond s.src s.far := by
  simp [Far]

theorem not_far_append (h : ¬ s.Far log) (ha : ∀ bytes, a ≠ .ask bytes) : ¬ s.Far (log ++ [a]) := by
  rw [far_append]
  rintro (hfar | ⟨bytes, hask, -⟩ | hnil)
  · exact h hfar
  · exact ha bytes hask
  · exact hnil

/-- No reader but a `StringReader` has bytes beyond. -/
theorem not_far (h : s.far = 0) : ¬ s.Far log := by
  induction log generalizing s with
  | nil => exact id
  | cons a log ih =>
    rintro (⟨bytes, -, -, hleft, hle⟩ | hfar)
    · rw [h] at hle
      exact hleft (List.eq_nil_of_length_eq_zero (Nat.le_zero.mp hle))
    · refine ih ?_ hfar
      cases a with
      | ask bytes =>
        rw [after, ask]
        split <;> exact h
      | skip count => exact h
      | call c => exact h

theorem calls_append : calls (log ++ log') = calls log ++ calls log' := by
  induction log with
  | nil => rfl
  | cons a log ih =>
    cases a with
    | ask bytes => exact ih
    | skip count => exact ih
    | call c => exact congrArg (c :: ·) ih

theorem firstCut_append (h : s.firstCut log = none) :
    s.firstCut (log ++ log') = ((s.run log).firstCut log').map ((calls log).length + ·) := by
  induction log generalizing s with
  | nil =>
    rw [calls, List.length_nil]
    simp [run]
  | cons a log ih =>
    cases a with
    | ask bytes =>
      rw [firstCut] at h
      split at h
      · cases h
      next hcut =>
        rw [List.cons_append, firstCut, if_neg hcut, ih h]
        rfl
    | skip count =>
      rw [List.cons_append, firstCut, ih h]
      rfl
    | call c =>
      rw [firstCut, Option.map_eq_none_iff] at h
      rw [List.cons_append, firstCut, ih h, Option.map_map]
      congr 1
      funext n
      simp only [Function.comp_apply, calls, List.length_cons]
      omega

theorem firstCut_append_some (h : s.firstCut log = some n) : s.firstCut (log ++ log') = some n := by
  induction log generalizing s n with
  | nil => cases h
  | cons a log ih =>
    cases a with
    | ask bytes =>
      rw [firstCut] at h
      rw [List.cons_append, firstCut]
      split at h
      next hcut =>
        rw [if_pos hcut]
        exact h
      next hcut =>
        rw [if_neg hcut]
        exact ih h
    | skip count => exact ih h
    | call c =>
      rw [firstCut] at h
      obtain ⟨m, hm, rfl⟩ := Option.map_eq_some_iff.mp h
      rw [List.cons_append, firstCut, ih hm]
      rfl

theorem firstCut_le (h : s.firstCut log = some n) : n ≤ (calls log).length := by
  induction log generalizing s n with
  | nil => cases h
  | cons a log ih =>
    cases a with
    | ask bytes =>
      rw [firstCut] at h
      split at h
      · cases h
        exact Nat.zero_le _
      · exact ih h
    | skip count => exact ih h
    | call c =>
      rw [firstCut] at h
      obtain ⟨m, hm, rfl⟩ := Option.map_eq_some_iff.mp h
      exact Nat.succ_le_succ (ih hm)

/-- A read brings at least one byte that the text has. -/
theorem not_cut_one : ¬ s.Cut 1 := by
  rintro ⟨hhas, hfew⟩
  rw [ask] at hfew
  split at hfew
  next hnone =>
    have hleft : s.src.left ≠ [] := by
      intro hnil
      rw [hnil, List.length_nil] at hhas
      omega
    have hread : 0 < (s.src.read (1024 - s.ahead)).1.length := Source.read_pos (by omega) hleft
    dsimp only at hfew
    omega
  next hsome => exact hsome hfew

/-- Reads of five bytes bring enough for an ask of five. -/
theorem not_cut_wide (h : ∀ i, 4 ≤ s.src.splits i) (hbytes : bytes ≤ 5) : ¬ s.Cut bytes := by
  rintro ⟨hhas, hfew⟩
  have hwide := h 0
  rw [ask] at hfew
  split at hfew
  next hnone =>
    dsimp only at hfew
    rw [Source.read, List.length_take, Source.amount] at hfew
    omega
  next hsome => exact hsome hfew

theorem firstCut_wide (h : ∀ i, 4 ≤ s.src.splits i) (hlog : ∀ bytes, .ask bytes ∈ log → bytes ≤ 5) :
    s.firstCut log = none := by
  induction log generalizing s with
  | nil => rfl
  | cons a log ih =>
    have htail (bytes : Nat) (hbytes : .ask bytes ∈ log) : bytes ≤ 5 := hlog bytes (List.mem_cons_of_mem _ hbytes)
    cases a with
    | ask bytes =>
      rw [firstCut, if_neg (not_cut_wide h (hlog bytes List.mem_cons_self))]
      refine ih (fun i => ?_) htail
      rw [ask]
      split
      · exact h (i + 1)
      · exact h i
    | skip count => exact ih h htail
    | call c =>
      rw [firstCut, ih h htail]
      rfl

/-- Every ask for several bytes is followed by a call. -/
def Closed (log : List (Step F)) : Prop :=
  ∀ before bytes behind, log = before ++ .ask bytes :: behind → 1 < bytes → calls behind ≠ []

theorem closed_nil : Closed ([] : List (Step F)) := by
  intro before bytes behind h
  simp at h

/-- A place in a log with one thing more is the last one or a place in the log. -/
theorem append_one_eq {a b : Step F} {before behind : List (Step F)} (h : log ++ [a] = before ++ b :: behind) :
    behind = [] ∧ a = b ∨ ∃ behind', behind = behind' ++ [a] ∧ log = before ++ b :: behind' := by
  rcases List.eq_nil_or_concat behind with rfl | ⟨behind', c, rfl⟩
  · obtain ⟨-, hlast⟩ := List.append_inj' h rfl
    cases hlast
    exact .inl ⟨rfl, rfl⟩
  · rw [List.concat_eq_append, ← List.cons_append, ← List.append_assoc] at h
    obtain ⟨hfront, hlast⟩ := List.append_inj' h rfl
    cases hlast
    exact .inr ⟨behind', List.concat_eq_append .., hfront⟩

theorem closed_call : Closed (log ++ [.call c]) := by
  intro before bytes behind h hbytes
  rcases append_one_eq h with ⟨-, hlast⟩ | ⟨behind, rfl, -⟩
  · cases hlast
  · rw [calls_append]
    exact List.append_ne_nil_of_right_ne_nil _ (List.cons_ne_nil _ _)

theorem Closed.append_one {a : Step F} (h : Closed log) (ha : ∀ bytes, a = .ask bytes → bytes ≤ 1) :
    Closed (log ++ [a]) := by
  intro before bytes behind he hbytes
  rcases append_one_eq he with ⟨-, rfl⟩ | ⟨behind, rfl, hlog⟩
  · exact absurd (ha bytes rfl) (Nat.not_le_of_lt hbytes)
  · rw [calls_append]
    exact List.append_ne_nil_of_left_ne_nil (h before bytes behind hlog hbytes) _

/-- In a closed log there is a call behind every cut. -/
theorem Closed.firstCut_lt (h : Closed log) (hcut : s.firstCut log = some n) : n < (calls log).length := by
  induction log generalizing s n with
  | nil => cases hcut
  | cons a log ih =>
    have htail : Closed log := fun before bytes behind he => h (a :: before) bytes behind (by rw [he]; rfl)
    cases a with
    | ask bytes =>
      rw [firstCut] at hcut
      split at hcut
      next hfew =>
        cases hcut
        have hbytes : 1 < bytes := by
          rcases Nat.lt_or_ge 1 bytes with hlt | hge
          · exact hlt
          · exfalso
            rcases Nat.le_one_iff_eq_zero_or_eq_one.mp hge with rfl | rfl
            · exact Nat.not_lt_zero _ hfew.2
            · exact not_cut_one hfew
        exact List.length_pos_of_ne_nil (h [] bytes log rfl hbytes)
      next => exact ih htail hcut
    | skip count => exact ih htail hcut
    | call c =>
      rw [firstCut] at hcut
      obtain ⟨m, hm, rfl⟩ := Option.map_eq_some_iff.mp hcut
      exact Nat.succ_lt_succ (ih htail hm)

end Supply

open Supply Effect Input

variable {F : Type} {t t' t'' : Text F} {n k : Nat} {temp : List UInt8} {ch : UInt8} {message : String} {i : Nat}

/-- No error of the buffer, and not for want of fuel. -/
def Thrown (e : Failure) (_ : Text F) : Prop := ∀ s, e ≠ .stop s

/-- At least `n` bytes further on. -/
structure Moves (n : Nat) (t t' : Text F) : Prop where
  left : t'.left.length + n ≤ t.left.length
  closed : Closed t.log → Closed t'.log

theorem Moves.trans (h : Moves n t t') (h' : Moves k t' t'') : Moves (n + k) t t'' := by
  refine ⟨?_, fun hlog => h'.closed (h.closed hlog)⟩
  have hleft := h.left
  have hleft' := h'.left
  omega

theorem Moves.less (h : Moves n t t') (hk : k ≤ n) : Moves k t t' :=
  ⟨Nat.le_trans (Nat.add_le_add_left hk _) h.left, h.closed⟩

theorem runs_want : Runs (want k) t (fun b t' => t'.left = t.left ∧ t.seen ≤ t'.seen ∧ (b = true → k ≤ t'.seen) ∧
    (k ≤ 1 → Moves 0 t t')) Thrown := by
  have hclosed (hk : k ≤ 1) (hlog : Closed t.log) : Closed (t.log ++ [.ask k]) := by
    refine hlog.append_one fun bytes he => ?_
    cases he
    exact hk
  by_cases hhas : k ≤ t.left.length
  · refine .of_ok (dif_pos hhas) ?_
    exact ⟨rfl, Nat.le_max_left _ _, fun _ => Nat.le_max_right _ _, fun hk => ⟨Nat.le_refl _, hclosed hk⟩⟩
  · refine .of_ok (dif_neg hhas) ?_
    exact ⟨rfl, Nat.le_refl _, (fun h => nomatch h), fun hk => ⟨Nat.le_refl _, hclosed hk⟩⟩

theorem runs_need : Runs (need k) t (fun _ t' => t'.left = t.left ∧ k ≤ t'.seen ∧ (k ≤ 1 → Moves 0 t t')) Thrown := by
  refine (runs_want).bind fun b t₁ ⟨hleft, _, hseen, hmoves⟩ => ?_
  cases b with
  | true => exact .pure ⟨hleft, hseen rfl, hmoves⟩
  | false => exact .throw fun s h => nomatch h

theorem Text.ifSeen_of_le {α : Type} {r : α} (h : k ≤ t.seen) : t.ifSeen k r = .ok r := if_pos h

theorem runs_get (h : i < t.seen) : Runs (get i) t (fun ch t' => t' = t ∧ ch = t.left.getD i 0) Thrown :=
  .of_ok (congrArg (·, t) (Text.ifSeen_of_le h)) ⟨rfl, rfl⟩

theorem runs_memory (h : k ≤ t.seen) : Runs (memory k) t (fun bytes t' => t' = t ∧ bytes = t.left.take k) Thrown :=
  .of_ok (congrArg (·, t) (Text.ifSeen_of_le h)) ⟨rfl, rfl⟩

theorem runs_skip (h : k ≤ t.seen) :
    Runs (skip k) t (fun _ t' => t'.left = t.left.drop k ∧ t'.seen = t.seen - k ∧ Moves k t t') Thrown := by
  refine .of_ok (if_pos h) ⟨rfl, rfl, ?_, fun hlog => hlog.append_one fun bytes he => nomatch he⟩
  have hfew := t.few
  rw [List.length_drop]
  omega

theorem runs_call {c : Call F} : Runs (call c) t (fun _ t' => t'.left = t.left ∧ t'.seen = t.seen ∧ Closed t'.log ∧
    calls t'.log = calls t.log ++ [c]) Thrown :=
  ⟨rfl, rfl, closed_call, calls_append⟩

theorem runs_error {Q : Unit → Text F → Prop} : Runs (error message) t Q Thrown :=
  fun _ h => nomatch h

theorem runs_expect {p : Prop} [Decidable p] : Runs (expect p message) t (fun _ t' => t' = t ∧ p) Thrown := by
  rw [expect]
  split
  next hp => exact .pure ⟨rfl, hp⟩
  next => exact runs_error

theorem hexDec_error {char : UInt8} {e : Failure} (h : hexDec char = .error e) : ∃ message, e = .invalidArgument message := by
  unfold hexDec at h
  split at h
  · cases h
  · split at h
    · cases h
    · split at h
      · cases h
      · cases h
        exact ⟨_, rfl⟩

theorem runs_hexDigit (h : i < t.seen) :
    Runs (hexDigit i) t (fun a t' => t' = t ∧ hexDec (t.left.getD i 0) = .ok a) Thrown := by
  refine (runs_get h).bind fun ch t₁ ⟨ht, hch⟩ => ?_
  subst ht hch
  cases he : hexDec (t₁.left.getD i 0) with
  | ok a => exact .of_ok rfl ⟨rfl, rfl⟩
  | error e =>
    obtain ⟨message, rfl⟩ := hexDec_error he
    exact .of_error rfl (fun s hs => nomatch hs)

theorem runs_peek : Runs peek t (fun ch t' => t'.left = t.left ∧ Moves 0 t t' ∧ (ch ≠ 0 → 1 ≤ t'.seen)) Thrown := by
  refine (runs_want).bind fun b t₁ ⟨hleft, _, hseen, hmoves⟩ => ?_
  cases b with
  | false => exact .pure ⟨hleft, hmoves (Nat.le_refl _), fun h => absurd rfl h⟩
  | true =>
    refine (runs_get (hseen rfl)).mono (fun ch t₂ ⟨h, _⟩ => ?_) (fun _ _ h => h)
    subst h
    exact ⟨hleft, hmoves (Nat.le_refl _), fun _ => hseen rfl⟩

theorem runs_next (h : 1 ≤ t.seen) : Runs next t (fun ch t' => Moves 1 t t' ∧ (ch ≠ 0 → 1 ≤ t'.seen)) Thrown := by
  have hinside : Runs inside t (fun b t' => b = true ∧ t' = t) Thrown :=
    .of_ok (congrArg (·, t) (Text.ifSeen_of_le h)) ⟨rfl, rfl⟩
  refine hinside.bind fun b t₁ ⟨hb, ht⟩ => ?_
  subst hb ht
  refine (runs_skip h).bind fun _ t₂ ⟨_, _, hmoves⟩ => ?_
  exact (runs_peek).mono (fun ch t₃ ⟨_, hmoves', hseen⟩ => ⟨hmoves.trans hmoves', hseen⟩) (fun _ _ h => h)

theorem runs_getch : Runs getch t (fun _ t' => Moves 1 t t') Thrown := by
  refine (runs_need).bind fun _ t₁ ⟨_, hseen, hmoves⟩ => ?_
  refine (runs_get hseen).bind fun ch t₂ ⟨ht, _⟩ => ?_
  subst ht
  refine (runs_skip hseen).bind fun _ t₃ ⟨_, _, hmoves'⟩ => ?_
  exact .pure ((hmoves (Nat.le_refl _)).trans hmoves' |>.less (Nat.le_refl _))

theorem runs_uchar (h : 4 ≤ t.seen) : Runs uchar t (fun _ t' => t' = t) Thrown := by
  refine (runs_hexDigit (by omega)).bind fun a t₁ ⟨ht, _⟩ => ?_
  subst ht
  refine (runs_hexDigit (by omega)).bind fun b t₁ ⟨ht, _⟩ => ?_
  subst ht
  refine (runs_hexDigit (by omega)).bind fun c t₁ ⟨ht, _⟩ => ?_
  subst ht
  refine (runs_hexDigit (by omega)).bind fun d t₁ ⟨ht, _⟩ => ?_
  subst ht
  exact .pure rfl

variable {result : List UInt8}

theorem runs_append : Runs (append result ch) t (fun _ t' => t' = t) Thrown := by
  rw [append]
  split
  · exact .pure rfl
  · exact .throw fun s h => nomatch h

theorem runs_appendUTF8Char {char : Nat} : Runs (appendUTF8Char result char) t (fun _ t' => t' = t) Thrown := by
  rw [appendUTF8Char]
  generalize utf8Char char = bytes
  induction bytes generalizing result with
  | nil => exact .pure rfl
  | cons ch bytes ih =>
    refine (runs_append).bind fun result t₁ ht => ?_
    subst ht
    exact ih

theorem runs_stringLoop (fuel : Nat) (result : List UInt8) (h : t.left.length < fuel) :
    Runs (stringLoop fuel result) t (fun _ t' => t'.left.length < t.left.length) Thrown := by
  induction fuel generalizing t result with
  | zero => exact absurd h (Nat.not_lt_zero _)
  | succ fuel ih =>
    rw [stringLoop]
    refine (runs_getch).bind fun ch t₁ h₁ => ?_
    have hleft₁ := h₁.left
    split
    · exact .pure hleft₁
    · split
      · refine (runs_getch).bind fun ch t₂ h₂ => ?_
        have hleft₂ := h₂.left
        split
        · refine (runs_need).bind fun _ t₃ ⟨hleft₃, hseen₃, _⟩ => ?_
          refine (runs_uchar hseen₃).bind fun uchar t₄ ht => ?_
          subst ht
          refine (runs_skip hseen₃).bind fun _ t₅ ⟨_, _, h₅⟩ => ?_
          have hleft₅ := h₅.left
          rw [hleft₃] at hleft₅
          refine (runs_appendUTF8Char).bind fun result t₆ ht => ?_
          subst ht
          exact (ih _ (by omega)).mono (fun _ t' hleft' => by omega) (fun _ _ h => h)
        · refine (runs_append).bind fun result t₃ ht => ?_
          subst ht
          exact (ih _ (by omega)).mono (fun _ t' hleft' => by omega) (fun _ _ h => h)
      · refine (runs_append).bind fun result t₂ ht => ?_
        subst ht
        exact (ih _ (by omega)).mono (fun _ t' hleft' => by omega) (fun _ _ h => h)

theorem runs_parseString {fuel : Nat} (hseen : 1 ≤ t.seen) (h : t.left.length ≤ fuel) :
    Runs (parseString fuel) t (fun _ t' => Moves 1 t t') Thrown := by
  refine (runs_skip hseen).bind fun _ t₁ ⟨_, _, h₁⟩ => ?_
  have hleft₁ := h₁.left
  refine (runs_stringLoop fuel [] (by omega)).bind fun result t₂ hleft₂ => ?_
  refine (runs_call).mono (fun _ t₃ ⟨hleft₃, _, hclosed, _⟩ => ?_) (fun _ _ h => h)
  rw [← hleft₃] at hleft₂
  exact ⟨by omega, fun _ => hclosed⟩

theorem runs_spaceLoop (fuel : Nat) (hseen : 1 ≤ t.seen) (h : t.left.length ≤ fuel) :
    Runs (spaceLoop fuel) t (fun _ t' => Moves 0 t t' ∧ 1 ≤ t'.seen) Thrown := by
  induction fuel generalizing t with
  | zero =>
    have hfew := t.few
    omega
  | succ fuel ih =>
    rw [spaceLoop]
    refine (runs_get hseen).bind fun ch t₁ ⟨ht, _⟩ => ?_
    subst ht
    split
    · refine (runs_skip hseen).bind fun _ t₂ ⟨_, _, h₂⟩ => ?_
      refine (runs_need).bind fun _ t₃ ⟨_, hseen₃, hmoves₃⟩ => ?_
      have h₃ := h₂.trans (hmoves₃ (Nat.le_refl _))
      have hleft₃ := h₃.left
      refine (ih hseen₃ (by omega)).mono (fun _ t' ⟨h', hseen'⟩ => ?_) (fun _ _ h => h)
      exact ⟨(h₃.trans h').less (Nat.zero_le _), hseen'⟩
    · exact .pure ⟨⟨Nat.le_refl _, id⟩, hseen⟩

theorem runs_consumeSpace {fuel : Nat} (h : t.left.length ≤ fuel) :
    Runs (consumeSpace fuel) t (fun _ t' => Moves 0 t t' ∧ 1 ≤ t'.seen) Thrown := by
  refine (runs_need).bind fun _ t₁ ⟨hleft₁, hseen₁, hmoves₁⟩ => ?_
  refine (runs_spaceLoop fuel hseen₁ (by rw [hleft₁]; exact h)).mono (fun _ t' ⟨h', hseen'⟩ => ?_) (fun _ _ h => h)
  exact ⟨(hmoves₁ (Nat.le_refl _)).trans h', hseen'⟩

theorem zero_not_digit (h : Http.isDigit ch = true) : ch ≠ 0 := by
  rintro rfl
  exact absurd h (by decide)

theorem runs_intLoop (fuel : Nat) (temp : List UInt8) (ch : UInt8) (hseen : ch ≠ 0 → 1 ≤ t.seen)
    (h : t.left.length < fuel) : Runs (intLoop fuel temp ch) t (fun _ t' => Moves 0 t t') Thrown := by
  induction fuel generalizing t temp ch with
  | zero => exact absurd h (Nat.not_lt_zero _)
  | succ fuel ih =>
    rw [intLoop]
    split
    next hdigit =>
      refine (runs_next (hseen (zero_not_digit hdigit))).bind fun _ t₁ ⟨h₁, _⟩ => ?_
      refine (runs_append).bind fun temp t₂ ht => ?_
      subst ht
      refine (runs_peek).bind fun ch t₂ ⟨_, h₂, hseen₂⟩ => ?_
      have h₃ := h₁.trans h₂
      have hleft₃ := h₃.left
      exact (ih _ _ hseen₂ (by omega)).mono (fun _ t' h' => (h₃.trans h').less (Nat.zero_le _)) (fun _ _ h => h)
    next => exact .pure ⟨Nat.le_refl _, id⟩

theorem runs_parseInt {fuel : Nat} (h : t.left.length < fuel) :
    Runs (parseInt fuel temp) t (fun _ t' => Moves 0 t t') Thrown := by
  refine (runs_peek).bind fun ch t₁ ⟨_, h₁, hseen₁⟩ => ?_
  have hleft₁ := h₁.left
  split
  next hsign =>
    have hch : ch ≠ 0 := by
      rintro rfl
      exact absurd hsign (by decide)
    refine (runs_append).bind fun temp t₂ ht => ?_
    subst ht
    refine (runs_next (hseen₁ hch)).bind fun ch t₂ ⟨h₂, hseen₂⟩ => ?_
    refine (runs_expect).bind fun _ t₃ ⟨ht, _⟩ => ?_
    subst ht
    have h₃ := h₁.trans h₂
    have hleft₃ := h₃.left
    exact (runs_intLoop fuel _ _ hseen₂ (by omega)).mono
      (fun _ t' h' => (h₃.trans h').less (Nat.zero_le _)) (fun _ _ h => h)
  next => exact (runs_intLoop fuel _ _ hseen₁ (by omega)).mono (fun _ t' h' => h₁.trans h') (fun _ _ h => h)

theorem runs_fractionLoop (fuel : Nat) (temp : List UInt8) (h : t.left.length < fuel) :
    Runs (fractionLoop fuel temp) t (fun r t' => Moves 0 t t' ∧ (r.2 ≠ 0 → 1 ≤ t'.seen)) Thrown := by
  induction fuel generalizing t temp with
  | zero => exact absurd h (Nat.not_lt_zero _)
  | succ fuel ih =>
    rw [fractionLoop]
    refine (runs_peek).bind fun ch t₁ ⟨_, h₁, hseen₁⟩ => ?_
    split
    next hdigit =>
      refine (runs_append).bind fun temp t₂ ht => ?_
      subst ht
      refine (runs_next (hseen₁ (zero_not_digit hdigit))).bind fun _ t₂ ⟨h₂, _⟩ => ?_
      have h₃ := h₁.trans h₂
      have hleft₃ := h₃.left
      refine (ih _ (by omega)).mono (fun r t' ⟨h', hseen'⟩ => ?_) (fun _ _ h => h)
      exact ⟨(h₃.trans h').less (Nat.zero_le _), hseen'⟩
    next => exact .pure ⟨h₁, hseen₁⟩

theorem runs_fraction {fuel : Nat} (h : t.left.length < fuel) :
    Runs (fraction fuel temp) t (fun r t' => Moves 0 t t' ∧ (r.2 ≠ 0 → 1 ≤ t'.seen)) Thrown := by
  refine (runs_peek).bind fun ch t₁ ⟨_, h₁, hseen₁⟩ => ?_
  split
  next hpoint =>
    have hch : ch ≠ 0 := by
      rw [hpoint]
      decide
    refine (runs_append).bind fun temp t₂ ht => ?_
    subst ht
    refine (runs_next (hseen₁ hch)).bind fun _ t₂ ⟨h₂, _⟩ => ?_
    have h₃ := h₁.trans h₂
    have hleft₃ := h₃.left
    refine (runs_fractionLoop fuel _ (by omega)).mono (fun r t' ⟨h', hseen'⟩ => ?_) (fun _ _ h => h)
    exact ⟨(h₃.trans h').less (Nat.zero_le _), hseen'⟩
  next => exact .pure ⟨h₁, hseen₁⟩

theorem runs_exponent {fuel : Nat} (hseen : ch ≠ 0 → 1 ≤ t.seen) (h : t.left.length < fuel) :
    Runs (exponent fuel temp ch) t (fun _ t' => Moves 0 t t') Thrown := by
  rw [exponent]
  split
  next he =>
    have hch : ch ≠ 0 := by
      rintro rfl
      exact absurd he (by decide)
    refine (runs_append).bind fun temp t₁ ht => ?_
    subst ht
    refine (runs_next (hseen hch)).bind fun _ t₁ ⟨h₁, _⟩ => ?_
    have hleft₁ := h₁.left
    refine (runs_parseInt (by omega)).mono (fun _ t' h' => ?_) (fun _ _ h => h)
    exact (h₁.trans h').less (Nat.zero_le _)
  next => exact .pure ⟨Nat.le_refl _, id⟩

variable {strtod : List UInt8 → F}

theorem runs_parseNumber {fuel : Nat} (h : t.left.length < fuel) :
    Runs (parseNumber strtod fuel) t (fun _ t' => Moves 0 t t') Thrown := by
  refine (runs_parseInt h).bind fun temp t₁ h₁ => ?_
  have hleft₁ := h₁.left
  refine (runs_fraction (by omega)).bind fun r t₂ ⟨h₂, hseen₂⟩ => ?_
  have hleft₂ := h₂.left
  refine (runs_exponent hseen₂ (by omega)).bind fun temp t₃ h₃ => ?_
  have hleft₃ := h₃.left
  refine (runs_append).bind fun _ t₄ ht => ?_
  subst ht
  refine (runs_call).mono (fun _ t₄ ⟨hleft₄, _, hclosed, _⟩ => ?_) (fun _ _ h => h)
  rw [← hleft₄] at hleft₃
  exact ⟨by omega, fun _ => hclosed⟩

/-- What is called at a keyword. -/
theorem runs_keyword {c : Call F} (h : k ≤ t.seen) :
    Runs (do skip k; call c) t (fun _ t' => t'.left.length ≤ t.left.length ∧ Closed t'.log) Thrown := by
  refine (runs_skip h).bind fun _ t₁ ⟨_, _, h₁⟩ => ?_
  have hleft₁ := h₁.left
  refine (runs_call).mono (fun _ t₂ ⟨hleft₂, _, hclosed, _⟩ => ?_) (fun _ _ h => h)
  rw [hleft₂]
  exact ⟨by omega, hclosed⟩

theorem runs_isFalse (h : k ≤ t.seen) : Runs (isFalse k) t (fun b t' => t' = t ∧ (b = true → 5 ≤ t.seen)) Thrown := by
  rw [isFalse]
  split
  next h5 =>
    have hseen := Nat.le_trans h5 h
    refine (runs_memory hseen).bind fun bytes t₁ ⟨ht, _⟩ => ?_
    subst ht
    exact .pure ⟨rfl, fun _ => hseen⟩
  next => exact .pure ⟨rfl, fun hb => nomatch hb⟩

theorem runs_parseKeyword (hk : 4 ≤ k) : Runs (parseKeyword k) t (fun _ t' => Moves 0 t t') Thrown := by
  refine (runs_need).bind fun _ t₁ ⟨hleft₁, hseen₁, _⟩ => ?_
  have hseen : 4 ≤ t₁.seen := Nat.le_trans hk hseen₁
  have hmoves (c : Call F) (n : Nat) (hn : n ≤ t₁.seen) : Runs (do skip n; call c) t₁ (fun _ t' => Moves 0 t t') Thrown := by
    refine (runs_keyword hn).mono (fun _ t' ⟨hleft, hclosed⟩ => ⟨?_, fun _ => hclosed⟩) (fun _ _ h => h)
    rw [← hleft₁]
    exact hleft
  refine (runs_memory hseen).bind fun bytes t₂ ⟨ht, _⟩ => ?_
  subst ht
  split
  · exact hmoves _ _ hseen
  · refine (runs_isFalse hseen₁).bind fun b t₂ ⟨ht, hfalse⟩ => ?_
    subst ht
    split
    next hb => exact hmoves _ _ (hfalse hb)
    next =>
      refine (runs_memory hseen).bind fun bytes t₂ ⟨ht, _⟩ => ?_
      subst ht
      split
      · exact hmoves _ _ hseen
      · exact runs_error

theorem runs_separator {fuel : Nat} (hseen : 1 ≤ t.seen) (h : t.left.length ≤ fuel + 1) :
    Runs (separator ch message fuel) t (fun _ t' => Moves 1 t t' ∧ 1 ≤ t'.seen) Thrown := by
  refine (runs_get hseen).bind fun ch' t₁ ⟨ht, _⟩ => ?_
  subst ht
  refine (runs_expect).bind fun _ t₂ ⟨ht, _⟩ => ?_
  subst ht
  refine (runs_skip hseen).bind fun _ t₃ ⟨_, _, h₃⟩ => ?_
  have hleft₃ := h₃.left
  refine (runs_consumeSpace (by omega)).mono (fun _ t₄ ⟨h₄, hseen₄⟩ => ?_) (fun _ _ h => h)
  exact ⟨h₃.trans h₄, hseen₄⟩

section Containers

variable {fuel bound : Nat}

/-- The closing bracket of a container that was gone through. -/
theorem runs_close {c : Call F} {t₀ : Text F} (h : Moves 0 t₀ t) (hseen : 1 ≤ t.seen) :
    Runs (do skip 1; call c) t (fun _ t' => Moves 0 t₀ t') Thrown := by
  refine (runs_keyword hseen).mono (fun _ t' ⟨hleft, hclosed⟩ => ⟨?_, fun _ => hclosed⟩) (fun _ _ h => h)
  have hleft₀ := h.left
  omega

/-- What stands between brackets, gone through by a loop. -/
theorem runs_container {opening closing : Call F} {bracket : UInt8} {loop : Effect Failure (Text F) Unit}
    (hloop : ∀ t' : Text F, t'.left.length < t.left.length → 1 ≤ t'.seen →
      Runs loop t' (fun _ t'' => Moves 0 t' t'' ∧ 1 ≤ t''.seen) Thrown)
    (hseen : 1 ≤ t.seen) (h : t.left.length ≤ fuel) :
    Runs (do
      skip 1
      call opening
      consumeSpace fuel
      let ch ← get 0
      (if ch ≠ bracket then loop else return ())
      skip 1
      call closing) t (fun _ t' => Moves 0 t t') Thrown := by
  refine (runs_skip hseen).bind fun _ t₁ ⟨_, _, h₁⟩ => ?_
  have hleft₁ := h₁.left
  refine (runs_call).bind fun _ t₂ ⟨hleft₂, _, hclosed₂, _⟩ => ?_
  have h₂ : Moves 1 t t₂ := ⟨by rw [hleft₂]; exact hleft₁, fun _ => hclosed₂⟩
  have hle₂ := h₂.left
  refine (runs_consumeSpace (by omega)).bind fun _ t₃ ⟨h₃, hseen₃⟩ => ?_
  have hleft₃ := h₃.left
  refine (runs_get hseen₃).bind fun ch t₄ ⟨ht, _⟩ => ?_
  subst ht
  have hmoves := (h₂.trans h₃).less (Nat.zero_le _)
  split
  · refine (hloop t₄ (by omega) hseen₃).bind fun _ t₅ ⟨h₅, hseen₅⟩ => ?_
    exact runs_close (hmoves.trans h₅) hseen₅
  · exact runs_close hmoves hseen₃

variable {parse : Effect Failure (Text F) Unit}
  (hparse : ∀ t : Text F, t.left.length ≤ bound → Runs parse t (fun _ t' => Moves 0 t t') Thrown)

include hparse

theorem runs_arrayLoop (hbound : t.left.length ≤ bound) (h : t.left.length < fuel) :
    Runs (arrayLoop parse fuel) t (fun _ t' => Moves 0 t t' ∧ 1 ≤ t'.seen) Thrown := by
  induction fuel generalizing t with
  | zero => exact absurd h (Nat.not_lt_zero _)
  | succ fuel ih =>
    rw [arrayLoop]
    refine (hparse t hbound).bind fun _ t₁ h₁ => ?_
    have hleft₁ := h₁.left
    refine (runs_consumeSpace (by omega)).bind fun _ t₂ ⟨h₂, hseen₂⟩ => ?_
    have hleft₂ := h₂.left
    refine (runs_get hseen₂).bind fun ch t₃ ⟨ht, _⟩ => ?_
    subst ht
    split
    · exact .pure ⟨h₁.trans h₂, hseen₂⟩
    · refine (runs_separator hseen₂ (by omega)).bind fun _ t₄ ⟨h₄, _⟩ => ?_
      have hleft₄ := h₄.left
      refine (ih (by omega) (by omega)).mono (fun _ t' ⟨h', hseen'⟩ => ?_) (fun _ _ h => h)
      exact ⟨(((h₁.trans h₂).trans h₄).trans h').less (Nat.zero_le _), hseen'⟩

theorem runs_objectLoop (hbound : t.left.length ≤ bound) (hseen : 1 ≤ t.seen) (h : t.left.length < fuel) :
    Runs (objectLoop parse fuel) t (fun _ t' => Moves 0 t t' ∧ 1 ≤ t'.seen) Thrown := by
  induction fuel generalizing t with
  | zero => exact absurd h (Nat.not_lt_zero _)
  | succ fuel ih =>
    rw [objectLoop]
    refine (runs_get hseen).bind fun ch t₁ ⟨ht, _⟩ => ?_
    subst ht
    refine (runs_expect).bind fun _ t₂ ⟨ht, _⟩ => ?_
    subst ht
    refine (runs_parseString hseen (by omega)).bind fun _ t₃ h₃ => ?_
    have hleft₃ := h₃.left
    refine (runs_consumeSpace (by omega)).bind fun _ t₄ ⟨h₄, hseen₄⟩ => ?_
    have hleft₄ := h₄.left
    refine (runs_separator hseen₄ (by omega)).bind fun _ t₅ ⟨h₅, hseen₅⟩ => ?_
    have hleft₅ := h₅.left
    refine (hparse t₅ (by omega)).bind fun _ t₆ h₆ => ?_
    have hleft₆ := h₆.left
    refine (runs_consumeSpace (by omega)).bind fun _ t₇ ⟨h₇, hseen₇⟩ => ?_
    have hleft₇ := h₇.left
    have hmoves := (((h₃.trans h₄).trans h₅).trans h₆).trans h₇
    refine (runs_get hseen₇).bind fun ch t₈ ⟨ht, _⟩ => ?_
    subst ht
    split
    · exact .pure ⟨hmoves.less (Nat.zero_le _), hseen₇⟩
    · refine (runs_separator hseen₇ (by omega)).bind fun _ t₉ ⟨h₉, hseen₉⟩ => ?_
      have hleft₉ := h₉.left
      refine (ih (by omega) hseen₉ (by omega)).mono (fun _ t' ⟨h', hseen'⟩ => ?_) (fun _ _ h => h)
      exact ⟨((hmoves.trans h₉).trans h').less (Nat.zero_le _), hseen'⟩

theorem runs_parseArray (hbound : t.left.length ≤ bound + 1) (hseen : 1 ≤ t.seen) (h : t.left.length ≤ fuel) :
    Runs (parseArray parse fuel) t (fun _ t' => Moves 0 t t') Thrown :=
  runs_container (fun _ hlt _ => runs_arrayLoop hparse (by omega) (by omega)) hseen h

theorem runs_parseObject (hbound : t.left.length ≤ bound + 1) (hseen : 1 ≤ t.seen) (h : t.left.length ≤ fuel) :
    Runs (parseObject parse fuel) t (fun _ t' => Moves 0 t t') Thrown :=
  runs_container (fun _ hlt hseen => runs_objectLoop hparse (by omega) hseen (by omega)) hseen h

end Containers

/-- With enough fuel, the parser looks only at what it has asked for, and it returns or throws an exception
of its own. -/
theorem runs_parse (fuel : Nat) (h : t.left.length + 2 ≤ fuel) :
    Runs (parse strtod fuel) t (fun _ t' => Moves 0 t t') Thrown := by
  induction fuel generalizing t with
  | zero => omega
  | succ fuel ih =>
    rw [parse]
    refine (runs_consumeSpace (by omega)).bind fun _ t₁ ⟨h₁, hseen₁⟩ => ?_
    have hleft₁ := h₁.left
    have hafter {m : Effect Failure (Text F) Unit} (hm : Runs m t₁ (fun _ t' => Moves 0 t₁ t') Thrown) :
        Runs m t₁ (fun _ t' => Moves 0 t t') Thrown :=
      hm.mono (fun _ t' h' => h₁.trans h') (fun _ _ h => h)
    have hparse (t : Text F) (ht : t.left.length ≤ fuel - 2) :
        Runs (parse strtod fuel) t (fun _ t' => Moves 0 t t') Thrown := by
      have hfew := t₁.few
      exact ih (by omega)
    refine (runs_get hseen₁).bind fun ch t₂ ⟨ht, _⟩ => ?_
    subst ht
    have hfew := t₂.few
    refine hafter ?_
    split
    · exact (runs_parseString hseen₁ (by omega)).mono (fun _ _ h => h.less (Nat.zero_le _)) (fun _ _ h => h)
    · split
      · exact runs_parseArray hparse (by omega) hseen₁ (by omega)
      · split
        · exact runs_parseObject hparse (by omega) hseen₁ (by omega)
        · split
          · exact runs_parseKeyword (by decide)
          · split
            · exact runs_parseKeyword (by decide)
            · split
              · exact runs_parseNumber (by omega)
              · exact runs_error

end Json2

end Crack
