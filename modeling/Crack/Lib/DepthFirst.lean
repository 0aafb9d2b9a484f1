import Crack.Lib.Loops
import Mathlib.Data.List.Nodup
import Mathlib.Data.Fintype.Card
import Mathlib.Order.WellFounded
import Mathlib.Logic.Relation

/-!
# Depth first orders

The nodes of a graph are listed, the dependencies of each before it. A node that is not
admitted is left out, with what only it depends on. On a graph without cycles a visit
returns with enough fuel, and keeps the order of the list it extends.
-/
namespace DepthFirst
open Relation

variable {α : Type} (deps : α → List α) (allowed : α → Bool)

/-- `d` is a dependency of `a`. -/
def Dep (d a : α) : Prop := d ∈ deps a

def Acyclic : Prop := ∀ a, ¬ TransGen (Dep deps) a a

def visit [DecidableEq α] : Nat → List α → α → Option (List α)
  | 0, _, _ => none
  | fuel + 1, done, a =>
    if a ∈ done ∨ allowed a = false then some done
    else ((deps a).foldlM (visit fuel) done).map (· ++ [a])

/-- No node twice, and the dependencies of each before it. -/
structure Ordered (done : List α) : Prop where
  nodup : done.Nodup
  closed : ∀ pre a suf, done = pre ++ a :: suf → ∀ d ∈ deps a, allowed d = true → d ∈ pre

/-- What visits of the nodes `as` do to the list. -/
structure Extends (done as done' : List α) : Prop where
  keeps : done <+: done'
  ordered : Ordered deps allowed done'
  visited : ∀ a ∈ as, allowed a = true → a ∈ done'
  below : ∀ b ∈ done', b ∈ done ∨ ∃ a ∈ as, ReflTransGen (Dep deps) b a

variable {deps allowed} {done done' done'' as as' : List α} {a : α} {fuel : Nat}

theorem Ordered.nil : Ordered deps allowed [] :=
  ⟨List.nodup_nil, fun pre a suf h => absurd h (by simp)⟩

theorem Ordered.concat (h : Ordered deps allowed done) (ha : a ∉ done) (hdeps : ∀ d ∈ deps a, allowed d = true → d ∈ done) :
    Ordered deps allowed (done ++ [a]) := by
  refine ⟨?_, ?_⟩
  · rw [List.nodup_append]
    refine ⟨h.nodup, List.nodup_singleton a, ?_⟩
    intro b hb c hc hbc
    exact ha (List.mem_singleton.mp hc ▸ hbc ▸ hb)
  · intro pre b suf hsplit
    rcases List.eq_nil_or_concat suf with rfl | ⟨suf, c, rfl⟩
    · obtain ⟨rfl, hab⟩ := List.append_inj' hsplit rfl
      obtain rfl := (List.cons.inj hab).1
      exact hdeps
    · have hassoc : done ++ [a] = (pre ++ b :: suf) ++ [c] := by simpa using hsplit
      exact h.closed pre b suf (List.append_inj' hassoc rfl).1

theorem Extends.refl (h : Ordered deps allowed done) : Extends deps allowed done [] done :=
  ⟨List.prefix_refl _, h, (fun _ ha => nomatch ha), fun _ hb => .inl hb⟩

theorem Extends.trans (h : Extends deps allowed done as done') (h' : Extends deps allowed done' as' done'') :
    Extends deps allowed done (as ++ as') done'' := by
  refine ⟨h.keeps.trans h'.keeps, h'.ordered, ?_, ?_⟩
  · intro a ha hallowed
    rcases List.mem_append.mp ha with ha | ha
    · exact h'.keeps.subset (h.visited a ha hallowed)
    · exact h'.visited a ha hallowed
  · intro b hb
    rcases h'.below b hb with hb | ⟨a, ha, hba⟩
    · rcases h.below b hb with hb | ⟨a, ha, hba⟩
      · exact .inl hb
      · exact .inr ⟨a, List.mem_append_left _ ha, hba⟩
    · exact .inr ⟨a, List.mem_append_right _ ha, hba⟩

theorem foldlM_extends {f : List α → α → Option (List α)}
    (h : ∀ a ∈ as, ∀ done, Ordered deps allowed done → ∃ done', f done a = some done' ∧ Extends deps allowed done [a] done')
    (hdone : Ordered deps allowed done) :
    ∃ done', as.foldlM f done = some done' ∧ Extends deps allowed done as done' := by
  induction as generalizing done with
  | nil => exact ⟨done, rfl, .refl hdone⟩
  | cons a as ih =>
    obtain ⟨done₁, hrun₁, hext₁⟩ := h a List.mem_cons_self done hdone
    obtain ⟨done₂, hrun₂, hext₂⟩ := ih (fun b hb => h b (List.mem_cons_of_mem _ hb)) hext₁.ordered
    refine ⟨done₂, ?_, hext₁.trans hext₂⟩
    rw [List.foldlM_cons, hrun₁]
    exact hrun₂

theorem Acyclic.wellFounded [Finite α] (h : Acyclic deps) : WellFounded (TransGen (Dep deps)) := by
  have : Std.Irrefl (TransGen (Dep deps)) := ⟨h⟩
  exact Finite.wellFounded_of_trans_of_irrefl _

/-- A visit returns with enough fuel, whatever has been listed before. -/
theorem visit_extends [DecidableEq α] [Finite α] (allowed : α → Bool) (h : Acyclic deps) (a : α) :
    ∃ n, ∀ fuel, n ≤ fuel → ∀ done, Ordered deps allowed done →
      ∃ done', visit deps allowed fuel done a = some done' ∧ Extends deps allowed done [a] done' := by
  induction a using h.wellFounded.induction with
  | _ a ih =>
    obtain ⟨n, hn⟩ := Fuel.forall_mem (deps a) (fun d hd => ih d (.single hd))
    refine ⟨n + 1, fun fuel hle done hdone => ?_⟩
    obtain ⟨fuel, rfl⟩ := Nat.exists_eq_add_of_le' (Nat.le_trans (Nat.le_add_left 1 n) hle)
    rw [visit]
    by_cases hskip : a ∈ done ∨ allowed a = false
    · rw [if_pos hskip]
      refine ⟨done, rfl, List.prefix_refl _, hdone, ?_, fun _ hb => .inl hb⟩
      intro b hb hallowed
      rw [List.mem_singleton] at hb
      subst hb
      exact hskip.resolve_right (by rw [hallowed]; decide)
    · obtain ⟨hnew, hallowed⟩ := not_or.mp hskip
      obtain ⟨done', hrun, hext⟩ := foldlM_extends (hn fuel (Nat.le_of_succ_le_succ hle)) hdone
      have ha : a ∉ done' := by
        intro ha
        rcases hext.below a ha with ha | ⟨d, hd, had⟩
        · exact hnew ha
        · exact h a (.tail' had hd)
      refine ⟨done' ++ [a], ?_, hext.keeps.trans (List.prefix_append _ _), hext.ordered.concat ha hext.visited, ?_, ?_⟩
      · rw [if_neg hskip, hrun]
        rfl
      · intro b hb _
        exact List.mem_append_right _ hb
      · intro b hb
        rcases List.mem_append.mp hb with hb | hb
        · rcases hext.below b hb with hb | ⟨d, hd, hbd⟩
          · exact .inl hb
          · exact .inr ⟨a, List.mem_singleton_self a, hbd.tail hd⟩
        · rw [List.mem_singleton.mp hb]
          exact .inr ⟨a, List.mem_singleton_self a, .refl⟩

end DepthFirst
