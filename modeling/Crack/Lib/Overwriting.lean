import Mathlib.Data.List.Basic
import Mathlib.Tactic.Common

/-!
# Overwriting

A window is the front part of a memory. What is written into the memory shows in it, and
makes it longer if it goes beyond its end.
-/
namespace Overwriting

variable {α : Type}

/-- `ys` written from `start` on. What lies between the old end and `start` is left open. -/
structure Overwritten (xs xs' : List α) (start : Nat) (ys : List α) : Prop where
  length : xs'.length = max xs.length (start + ys.length)
  written : (xs'.drop start).take ys.length = ys
  kept : ∀ i < xs.length, i < start ∨ start + ys.length ≤ i → xs'[i]? = xs[i]?

def write (mem : List α) (start : Nat) (ys : List α) : List α := mem.take start ++ ys ++ mem.drop (start + ys.length)

variable {mem ys : List α} {start size : Nat}

theorem length_write (h : start + ys.length ≤ mem.length) : (write mem start ys).length = mem.length := by
  rw [write, List.length_append, List.length_append, List.length_take, List.length_drop]
  omega

theorem drop_write (h : start ≤ mem.length) :
    (write mem start ys).drop start = ys ++ mem.drop (start + ys.length) := by
  rw [write, List.append_assoc]
  exact List.drop_left' (List.length_take_of_le h)

theorem getElem?_write (h : start + ys.length ≤ mem.length) {i : Nat} (hi : i < start ∨ start + ys.length ≤ i) :
    (write mem start ys)[i]? = mem[i]? := by
  have hlen : (mem.take start).length = start := List.length_take_of_le (by omega)
  rcases hi with hi | hi
  · rw [write, List.append_assoc, List.getElem?_append_left (by omega), List.getElem?_take_of_lt hi]
  · have hboth : (mem.take start ++ ys).length = start + ys.length := by rw [List.length_append, hlen]
    rw [write, List.getElem?_append_right (by omega), hboth, List.getElem?_drop]
    congr 1
    omega

/-- A write that starts in the window overwrites it. -/
theorem take_write (hstart : start ≤ size) (h : start + ys.length ≤ mem.length) :
    (write mem start ys).take (max size (start + ys.length)) = write (mem.take size) start ys := by
  have hlen : (mem.take start ++ ys).length = start + ys.length := by
    rw [List.length_append, List.length_take_of_le (by omega)]
  have hrest : max size (start + ys.length) - (start + ys.length) = size - (start + ys.length) := by omega
  rw [write, write, List.take_append, hlen, List.take_of_length_le (by omega), hrest, List.drop_take, List.take_take,
    Nat.min_eq_left hstart]

/-- A write shows in a window that is as long as before or reaches to its end. -/
theorem overwritten_window (hsize : size ≤ mem.length) (h : start + ys.length ≤ mem.length) :
    Overwritten (mem.take size) ((write mem start ys).take (max size (start + ys.length))) start ys := by
  have hlen : (mem.take size).length = size := List.length_take_of_le hsize
  refine ⟨?_, ?_, fun i hi hout => ?_⟩
  · rw [hlen, List.length_take, length_write h]
    omega
  · rw [List.drop_take, List.take_take, drop_write (by omega), Nat.min_eq_left (by omega)]
    exact List.take_left
  · rw [hlen] at hi
    rw [List.getElem?_take_of_lt (by omega), List.getElem?_take_of_lt hi, getElem?_write h hout]

end Overwriting
