import Mathlib.Data.List.DropRight
import Mathlib.Data.List.Induction
import Mathlib.Data.List.Pairwise
import Mathlib.Data.List.Perm.Basic

/-!
# Sorting by insertion

The elements are inserted one after the other, each in front of those at the end that are
above it, so that it comes behind the ones that are equal to it.
-/
namespace Insertions

variable {α : Type} (above : α → α → Bool)

def insert (l : List α) (key : α) : List α := l.rdropWhile (above · key) ++ key :: l.rtakeWhile (above · key)

def sort (l : List α) : List α := l.foldl (insert above) []

@[simp] theorem sort_nil : sort above [] = [] := rfl

theorem sort_concat (l : List α) (key : α) : sort above (l ++ [key]) = insert above (sort above l) key := by
  rw [sort, List.foldl_append]
  rfl

variable {above} {l : List α} {key : α}

theorem insert_perm : (insert above l key).Perm (l ++ [key]) := by
  have hl : l.rdropWhile (above · key) ++ l.rtakeWhile (above · key) = l := List.rdropWhile_append_rtakeWhile
  calc (insert above l key).Perm (key :: (l.rdropWhile (above · key) ++ l.rtakeWhile (above · key))) :=
        List.perm_middle
    _ = key :: l := by rw [hl]
    List.Perm _ (l ++ [key]) := (List.perm_append_singleton key l).symm

theorem sort_perm : (sort above l).Perm l := by
  induction l using List.reverseRecOn with
  | nil => exact .refl _
  | append_singleton l key ih =>
    rw [sort_concat]
    exact insert_perm.trans (ih.append_right [key])

section Order

variable {le : α → α → Prop} (habove : ∀ x y, above x y = true → le y x) (hnot : ∀ x y, above x y = false → le x y)
  (htrans : ∀ x y z, le x y → le y z → le x z)

include habove hnot htrans

theorem insert_sorted (h : l.Pairwise le) : (insert above l key).Pairwise le := by
  have hl : l.rdropWhile (above · key) ++ l.rtakeWhile (above · key) = l := List.rdropWhile_append_rtakeWhile
  rw [← hl, List.pairwise_append] at h
  obtain ⟨hbefore, hbehind, hboth⟩ := h
  have hrefl : Std.Refl le := ⟨fun x => by
    cases hx : above x x with
    | true => exact habove x x hx
    | false => exact hnot x x hx⟩
  have hkey : ∀ x ∈ l.rdropWhile (above · key), le x key := by
    intro x hx
    have hlast := List.rdropWhile_last_not (above · key) l (List.ne_nil_of_mem hx)
    exact htrans _ _ _ (hbefore.rel_getLast hx) (hnot _ _ (Bool.eq_false_iff.mpr hlast))
  refine List.pairwise_append.mpr ⟨hbefore, List.pairwise_cons.mpr ⟨?_, hbehind⟩, ?_⟩
  · exact fun x hx => habove x key (List.mem_rtakeWhile_imp (p := (above · key)) hx)
  · intro x hx y hy
    rcases List.mem_cons.mp hy with rfl | hy
    · exact hkey x hx
    · exact hboth x hx y hy

theorem sort_sorted : (sort above l).Pairwise le := by
  induction l using List.reverseRecOn with
  | nil => exact .nil
  | append_singleton l key ih =>
    rw [sort_concat]
    exact insert_sorted habove hnot htrans ih

end Order

section Stability

variable {p : α → Bool} (hp : ∀ x y, p y = true → above x y = true → p x = false)

include hp

/-- An element is not moved in front of those that have the property with it. -/
theorem insert_stable : (insert above l key).filter p = (l ++ [key]).filter p := by
  have hl : l.filter p = (l.rdropWhile (above · key)).filter p ++ (l.rtakeWhile (above · key)).filter p := by
    rw [← List.filter_append, List.rdropWhile_append_rtakeWhile]
  rw [insert, List.filter_append, List.filter_append, List.filter_singleton, List.filter_cons, hl, List.append_assoc]
  cases hkey : p key with
  | true =>
    have hnone : (l.rtakeWhile (above · key)).filter p = [] :=
      List.filter_eq_nil_iff.mpr fun x hx => by
        rw [hp x key hkey (List.mem_rtakeWhile_imp (p := (above · key)) hx)]
        exact Bool.false_ne_true
    rw [hnone]
    rfl
  | false =>
    exact congrArg _ (List.append_nil _).symm

theorem sort_stable : (sort above l).filter p = l.filter p := by
  induction l using List.reverseRecOn with
  | nil => rfl
  | append_singleton l key ih =>
    rw [sort_concat, insert_stable hp, List.filter_append, List.filter_append, ih]

end Stability

end Insertions
