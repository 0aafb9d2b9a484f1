import Mathlib.Tactic.Common

/-!
# Decoding from a stream

A decoder reads from a stream that is part of its state and fails where the stream
ends too early; `feed` gives a state the bytes of its stream. A decoder that reads
some bytes reads nothing else, whatever comes after them, and fails on any proper
part of them. Both are kept by sequencing.

## Writers and the readers that mirror them

A writer takes its state to a later one and appends to what it has put out. A reader
mirrors that if, from a state in step with the writer's, it reads precisely what was
appended and ends in step again. Its result is described by a predicate, since what
is read may depend on the reader. Nothing is said of writers that have overflowed.
-/
namespace Decoding

variable {S B E α β : Type}

/-- `r` reads the bytes `used` in state `s` and returns `a` in state `s'`. -/
structure Decodes (feed : S → List B → S) (eof : E) (r : StateT S (Except E) α) (s : S) (used : List B) (a : α)
    (s' : S) : Prop where
  whole (rest : List B) : r (feed s (used ++ rest)) = .ok (a, feed s' rest)
  cut (part : List B) : part <+: used → part ≠ used → r (feed s part) = .error eof

variable {feed : S → List B → S} {eof : E} {r : StateT S (Except E) α} {f : α → StateT S (Except E) β}
  {s s' s'' : S} {used used' : List B} {a : α} {b : β}

/-- What follows a decoder starts where it ended. -/
theorem Decodes.then (h : Decodes feed eof r s used a s') (f : α → StateT S (Except E) β) (rest : List B) :
    (r >>= f) (feed s (used ++ rest)) = f a (feed s' rest) := by
  change (r (feed s (used ++ rest)) >>= fun p => f p.1 p.2) = _
  rw [h.whole]
  rfl

/-- A decoder that leaves the stream alone. -/
theorem Decodes.silent (h : ∀ rest, r (feed s rest) = .ok (a, feed s' rest)) : Decodes feed eof r s [] a s' where
  whole := h
  cut _ hp hne := absurd (List.prefix_nil.mp hp) hne

theorem Decodes.pure (a : α) : Decodes feed eof (pure a) s [] a s := .silent fun _ => rfl

/-- A proper part of two pieces ends in the first or in the second. -/
theorem prefix_append_cases {part : List B} (hp : part <+: used ++ used') (hne : part ≠ used ++ used') :
    (part <+: used ∧ part ≠ used) ∨ ∃ part', part = used ++ part' ∧ part' <+: used' ∧ part' ≠ used' := by
  obtain ⟨tail, ht⟩ := hp
  rcases List.append_eq_append_iff.mp ht with ⟨t, hu, htail⟩ | ⟨t, hu, htail⟩
  · by_cases hnil : t = []
    · subst hnil
      rw [List.append_nil] at hu
      refine .inr ⟨[], by simp [hu], List.nil_prefix, ?_⟩
      rintro rfl
      exact hne (by simp [hu])
    · refine .inl ⟨⟨t, hu.symm⟩, ?_⟩
      intro he
      rw [he] at hu
      exact hnil (List.self_eq_append_right.mp hu)
  · refine .inr ⟨t, hu, ⟨tail, htail.symm⟩, ?_⟩
    rintro rfl
    exact hne hu

theorem Decodes.bind (h : Decodes feed eof r s used a s') (h' : Decodes feed eof (f a) s' used' b s'') :
    Decodes feed eof (r >>= f) s (used ++ used') b s'' where
  whole rest := by
    change (r (feed s (used ++ used' ++ rest)) >>= fun p => f p.1 p.2) = _
    rw [List.append_assoc, h.whole]
    exact h'.whole rest
  cut part hp hne := by
    change (r (feed s part) >>= fun p => f p.1 p.2) = _
    rcases prefix_append_cases hp hne with ⟨hp, hne⟩ | ⟨part', rfl, hp, hne⟩
    · rw [h.cut part hp hne]
      rfl
    · rw [h.whole]
      exact h'.cut part' hp hne

theorem Decodes.bind_pure (g : α → β) (h : Decodes feed eof r s used a s') :
    Decodes feed eof (r >>= fun a => Pure.pure (g a)) s used (g a) s' := by
  have hb := h.bind (f := fun a => Pure.pure (g a)) (Decodes.pure (g a))
  rwa [List.append_nil] at hb

end Decoding

namespace Decoding

/-- How a writer with states `W` is connected to a reader with states `S`. -/
structure Link (W S B E : Type) where
  out : W → List B
  feed : S → List B → S
  eof : E
  /-- The writer has not overflowed. -/
  fits : W → Prop
  inStep : W → S → Prop

variable {W S B E α β ι : Type}

/-- What is written from `w` to `w'`, the reader `r` reads with a result in `Q`. -/
structure Mirrors (L : Link W S B E) (w w' : W) (r : StateT S (Except E) α) (Q : α → Prop) : Prop where
  result : ∃ a, Q a
  grows : L.out w <+: L.out w'
  sticky : L.fits w' → L.fits w
  reads : L.fits w' → ∀ s, L.inStep w s →
    ∃ a s', Q a ∧ Decodes L.feed L.eof r s ((L.out w').drop (L.out w).length) a s' ∧ L.inStep w' s'

variable {L : Link W S B E} {w w₁ w' : W} {r : StateT S (Except E) α} {f : α → StateT S (Except E) β}
  {Q Q' : α → Prop} {P : β → Prop}

theorem drop_of_grows {b : List B} (h : L.out w' = L.out w ++ b) : (L.out w').drop (L.out w).length = b := by
  rw [h, List.drop_left]

/-- What was appended in two steps is appended in one. -/
theorem drop_append_drop {l l₁ l₂ : List B} (h : l <+: l₁) (h₁ : l₁ <+: l₂) :
    l₁.drop l.length ++ l₂.drop l₁.length = l₂.drop l.length := by
  obtain ⟨t, rfl⟩ := h
  obtain ⟨t', rfl⟩ := h₁
  rw [List.drop_left, List.drop_left, List.append_assoc, List.drop_left]

namespace Mirrors

theorem mono (h : Mirrors L w w' r Q) (hQ : ∀ a, Q a → Q' a) : Mirrors L w w' r Q' where
  result := h.result.imp hQ
  grows := h.grows
  sticky := h.sticky
  reads hf s hs := by
    obtain ⟨a, s', ha, hr, hs'⟩ := h.reads hf s hs
    exact ⟨a, s', hQ a ha, hr, hs'⟩

/-- A reader that reads nothing. -/
theorem silent {a : α} (ha : Q a) (h : ∀ s rest, r (L.feed s rest) = .ok (a, L.feed s rest)) :
    Mirrors L w w r Q where
  result := ⟨a, ha⟩
  grows := List.prefix_refl _
  sticky := id
  reads _ s hs := by
    refine ⟨a, s, ha, ?_, hs⟩
    rw [List.drop_length]
    exact .silent (h s)

theorem pure {a : α} (ha : Q a) : Mirrors L w w (Pure.pure a) Q := .silent ha fun _ _ => rfl

theorem bind (h : Mirrors L w w₁ r Q) (h' : ∀ a, Q a → Mirrors L w₁ w' (f a) P) : Mirrors L w w' (r >>= f) P := by
  obtain ⟨a₀, ha₀⟩ := h.result
  have h₀ := h' a₀ ha₀
  refine ⟨h₀.result, h.grows.trans h₀.grows, fun hf => h.sticky (h₀.sticky hf), ?_⟩
  intro hf s hs
  obtain ⟨a, s₁, ha, hr, hs₁⟩ := h.reads (h₀.sticky hf) s hs
  obtain ⟨b, s', hb, hr', hs'⟩ := (h' a ha).reads hf s₁ hs₁
  refine ⟨b, s', hb, ?_, hs'⟩
  rw [← drop_append_drop h.grows h₀.grows]
  exact hr.bind hr'

theorem map (g : α → β) (h : Mirrors L w w' r Q) (hP : ∀ a, Q a → P (g a)) :
    Mirrors L w w' (r >>= fun a => Pure.pure (g a)) P :=
  h.bind fun a ha => .pure (hP a ha)

end Mirrors

/-- The same where the stream ends after what was written. -/
structure MirrorsWhole (L : Link W S B E) (w w' : W) (r : StateT S (Except E) α) (Q : α → Prop) : Prop where
  result : ∃ a, Q a
  grows : L.out w <+: L.out w'
  sticky : L.fits w' → L.fits w
  reads : L.fits w' → ∀ s, L.inStep w s →
    ∃ a s', Q a ∧ r (L.feed s ((L.out w').drop (L.out w).length)) = .ok (a, s') ∧ L.inStep w' s'

theorem Mirrors.bindWhole (h : Mirrors L w w₁ r Q) (h' : ∀ a, Q a → MirrorsWhole L w₁ w' (f a) P) :
    MirrorsWhole L w w' (r >>= f) P := by
  obtain ⟨a₀, ha₀⟩ := h.result
  have h₀ := h' a₀ ha₀
  refine ⟨h₀.result, h.grows.trans h₀.grows, fun hf => h.sticky (h₀.sticky hf), ?_⟩
  intro hf s hs
  obtain ⟨a, s₁, ha, hr, hs₁⟩ := h.reads (h₀.sticky hf) s hs
  obtain ⟨b, s', hb, hr', hs'⟩ := (h' a ha).reads hf s₁ hs₁
  refine ⟨b, s', hb, ?_, hs'⟩
  rw [← drop_append_drop h.grows h₀.grows]
  change (r (L.feed s _) >>= fun p => f p.1 p.2) = _
  rw [hr.whole]
  exact hr'

/-- Run a reader a number of times. -/
def readTimes (r : StateT S (Except E) α) : Nat → StateT S (Except E) (List α)
  | 0 => pure []
  | n + 1 => do
    let a ← r
    let as ← readTimes r n
    pure (a :: as)

/-- One item after the other. -/
theorem Mirrors.times {step : W → ι → W} {R : ι → α → Prop} (items : List ι)
    (h : ∀ i ∈ items, ∀ w, Mirrors L w (step w i) r (R i)) (w : W) :
    Mirrors L w (items.foldl step w) (readTimes r items.length) (List.Forall₂ R items) := by
  induction items generalizing w with
  | nil => exact .pure .nil
  | cons i items ih =>
    refine (h i List.mem_cons_self w).bind fun a ha => ?_
    exact (ih (fun j hj => h j (List.mem_cons_of_mem i hj)) (step w i)).map (a :: ·) fun as has => .cons ha has

end Decoding
