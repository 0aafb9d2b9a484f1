import Crack.Lang.Appending

/-!
# How much can be appended

A byte that is appended goes to an index of a `byteptr`, so that a buffer takes 2 ^ 31 bytes.
-/
namespace Crack

namespace ManagedBuffer

open Loops (bind_ok)

variable {b b' : ManagedBuffer} {cap : Nat} {xs ys : List UInt8} {f g : ManagedBuffer → Except Stop ManagedBuffer}

/-- A function that appends these bytes one by one, if and only if there is room for them. -/
structure Fills (f : ManagedBuffer → Except Stop ManagedBuffer) (xs : List UInt8) : Prop where
  fits : ∀ b : ManagedBuffer, b.size ≤ b.cap → b.size + xs.length ≤ 2 ^ 31 →
    ∃ b', f b = .ok b' ∧ b'.size ≤ b'.cap ∧ b'.data = b.data ++ xs
  fails : ∀ b : ManagedBuffer, b.size ≤ 2 ^ 31 → 2 ^ 31 < b.size + xs.length → ∀ b', f b ≠ .ok b'
  size : ∀ b b' : ManagedBuffer, f b = .ok b' → b'.size = b.size + xs.length

theorem fills_nil : Fills .ok [] := by
  refine ⟨fun b h _ => ⟨b, rfl, h, (List.append_nil _).symm⟩, fun b hle hlt => ?_, fun b b' he => ?_⟩
  · exact absurd hlt (Nat.not_lt_of_le hle)
  · cases he
    rfl

theorem fills_append (c : UInt8) : Fills (fun b => b.append c) [c] := by
  refine ⟨fun b h hlt => ?_, fun b hle hlt b' he => ?_, fun b b' he => size_append he⟩
  · obtain ⟨b₁, hroom, hsize₁, hcap₁, hdata₁⟩ := makeByteRoom_ok h (fun heq => heq ▸ hlt)
    have hfits : b₁.size + [c].length ≤ b₁.cap := show b₁.size + 1 ≤ b₁.cap from hsize₁ ▸ hcap₁
    refine ⟨b₁.receive b₁.size [c], ?_, ?_, ?_⟩
    · rw [append, hroom]
      exact deliver_ok (.inl (hsize₁ ▸ hlt)) hfits
    · rw [size_receive, cap_receive hfits]
      exact hfits
    · rw [data_receive hfits, hdata₁]
  · -- the index is 2 ^ 31
    have hfull : b.size = 2 ^ 31 := Nat.le_antisymm hle (Nat.le_of_lt_succ hlt)
    obtain ⟨b₁, hroom, he⟩ := bind_ok he
    have hsize₁ : b₁.size = 2 ^ 31 := (size_makeByteRoom hroom).trans hfull
    rw [appendByte, deliver, hsize₁] at he
    split at he
    next hin => exact absurd hin (by simp [InMemory, uint])
    next => cases he

/-- One after the other. -/
theorem Fills.bind (hf : Fills f xs) (hg : Fills g ys) : Fills (fun b => f b >>= g) (xs ++ ys) := by
  refine ⟨fun b h hlt => ?_, fun b hle hlt b' he => ?_, fun b b' he => ?_⟩
  · rw [List.length_append] at hlt
    obtain ⟨b₁, he₁, h₁, hdata₁⟩ := hf.fits b h (by omega)
    obtain ⟨b₂, he₂, h₂, hdata₂⟩ := hg.fits b₁ h₁ (by rw [hf.size b b₁ he₁]; omega)
    exact ⟨b₂, by rw [he₁]; exact he₂, h₂, by rw [hdata₂, hdata₁, List.append_assoc]⟩
  · rw [List.length_append] at hlt
    obtain ⟨b₁, he₁, he₂⟩ := bind_ok he
    have hsize₁ := hf.size b b₁ he₁
    by_cases hfits : b.size + xs.length ≤ 2 ^ 31
    · exact hg.fails b₁ (by omega) (by omega) b' he₂
    · exact hf.fails b hle (Nat.lt_of_not_le hfits) b₁ he₁
  · obtain ⟨b₁, he₁, he₂⟩ := bind_ok he
    rw [hg.size b₁ b' he₂, hf.size b b₁ he₁, List.length_append, Nat.add_assoc]

/-- A loop. -/
theorem Fills.foldlM {α : Type} {step : ManagedBuffer → α → Except Stop ManagedBuffer} {spell : α → List UInt8}
    (h : ∀ a, Fills (fun b => step b a) (spell a)) (l : List α) : Fills (fun b => l.foldlM step b) (l.flatMap spell) := by
  induction l with
  | nil => exact fills_nil
  | cons a l ih => exact (h a).bind ih

/-- What a new buffer holds afterwards. -/
theorem Fills.of_init (h : Fills f xs) (cap : Nat) :
    (xs.length ≤ 2 ^ 31 → ∃ b, f (.init cap) = .ok b ∧ b.data = xs) ∧
      (2 ^ 31 < xs.length → ∀ b, f (.init cap) ≠ .ok b) := by
  have hsize : (ManagedBuffer.init cap).size + xs.length = xs.length := Nat.zero_add _
  constructor
  · intro hle
    obtain ⟨b, he, -, hdata⟩ := h.fits (.init cap) (Nat.zero_le _) (by rw [hsize]; exact hle)
    exact ⟨b, he, hdata⟩
  · intro hlt
    exact h.fails (.init cap) (Nat.zero_le _) (by rw [hsize]; exact hlt)

end ManagedBuffer

end Crack
