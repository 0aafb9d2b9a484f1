import Crack.Lib.Monitors

/-!
# `Queue2`

The queue of the threads library. `get` waits on a condition while there is no
element and `add` signals it, both under the mutex of the condition.
-/
namespace Crack.Queue2

open Monitors

variable {Elem : Type}

inductive Op (Elem : Type) where
  | get
  | getNonBlocking
  | add (elem : Elem)

/-- What the methods do from their `MutexLock` on, or from the test of the loop in
`get` when a wait is over. The array has room: there are less than 2 ^ 31 elements. -/
def run : Op Elem → List Elem → Option (List Elem × Option Elem)
  | .get, [] => none
  | .get, p :: elems => some (elems, some p)
  | .getNonBlocking, [] => some ([], none)
  | .getNonBlocking, p :: elems => some (elems, some p)
  | .add elem, elems => some (elems ++ [elem], none)

def signals : Op Elem → Bool
  | .add _ => true
  | _ => false

def waits : Op Elem → Bool
  | .get => true
  | _ => false

def queue (Elem : Type) : Monitor (List Elem) (Op Elem) (Option Elem) := ⟨run, signals⟩

theorem run_wait (op : Op Elem) (elems : List Elem) (h : run op elems = none) :
    waits op = true ∧ elems.length = 0 := by
  cases op with
  | get =>
    cases elems with
    | nil => exact ⟨rfl, rfl⟩
    | cons p elems => cases h
  | getNonBlocking => cases elems <;> cases h
  | add elem => cases h

theorem run_counts (op : Op Elem) (elems elems' : List Elem) (r : Option Elem) (h : run op elems = some (elems', r)) :
    elems'.length + (waits op).toNat ≤ elems.length + (signals op).toNat := by
  cases op with
  | get =>
    cases elems <;> cases h
    exact Nat.le_refl _
  | getNonBlocking =>
    cases elems <;> cases h
    · exact Nat.le_refl 0
    · exact Nat.le_succ _
  | add elem =>
    cases h
    rw [List.length_append]
    exact Nat.le_refl _

def account (Elem : Type) : Account (queue Elem) := ⟨List.length, waits, run_wait, run_counts⟩

/-- The elements added by operations, and those handed out. -/
def added (cs : List (Op Elem × Option Elem)) : List Elem :=
  cs.filterMap fun c => match c.1 with
    | .add elem => some elem
    | _ => none

def handed (cs : List (Op Elem × Option Elem)) : List Elem := cs.filterMap Prod.snd

/-- What an operation hands out is the first element. -/
theorem run_fifo {op : Op Elem} {elems elems' rest : List Elem} {r : Option Elem} (h : run op elems = some (elems', r))
    (cs : List (Op Elem × Option Elem)) (h' : elems' ++ added cs = handed cs ++ rest) :
    elems ++ added ((op, r) :: cs) = handed ((op, r) :: cs) ++ rest := by
  cases op with
  | get =>
    cases elems <;> cases h
    exact congrArg _ h'
  | getNonBlocking =>
    cases elems <;> cases h
    · exact h'
    · exact congrArg _ h'
  | add elem =>
    cases h
    rw [List.append_assoc] at h'
    exact h'

theorem atomic_fifo {s s' : Atomic (List Elem) (Op Elem) (Option Elem)} {ls : List (Label (Op Elem) (Option Elem))}
    {cs : List (Op Elem × Option Elem)} (h : AtomicRuns (queue Elem) s ls cs s') :
    s.shared ++ added cs = handed cs ++ s'.shared := by
  induction h with
  | nil s => exact List.append_nil _
  | call _ _ ih => exact ih
  | happen _ hrun _ ih => exact run_fifo hrun _ ih
  | ret _ _ ih => exact ih

variable {n : Nat} {ls : List (Label (Op Elem) (Option Elem))} {s : State (List Elem) (Op Elem) (Option Elem)}

/-- Whatever way the threads take turns, their calls and returns are those of
operations at one moment each, and in the order of these moments the elements
handed out and then those left are the ones added. -/
theorem runs_linearize (hruns : Runs (queue Elem) (.start [] n) ls s) :
    ∃ cs, AtomicRuns (queue Elem) (State.start [] n).atomic (ls.filter Label.visible) cs s.atomic ∧
      added cs = handed cs ++ s.shared := by
  obtain ⟨cs, hcs⟩ := hruns.atomic (exclusive_start [] n)
  exact ⟨cs, hcs, atomic_fifo hcs⟩

/-- No wake-up is lost: with no new calls the threads come to rest, and a thread
that waits then waits for an element to be added. -/
theorem comes_to_rest (hruns : Runs (queue Elem) (.start [] n) ls s) :
    (∀ ls' s', Runs (queue Elem) s ls' s' → (∀ l ∈ ls', l = .inner ∨ ∃ i r, l = .ret i r) →
      (ls'.filter (!·.visible)).length ≤ 8 * n) ∧
      ((∀ s', ¬ Step (queue Elem) s .inner s') → ∀ (i : Nat) t, s.threads[i]? = some t →
        t = .idle ∨ (∃ r, t = .done r) ∨ t = .waiting .get ∧ s.shared = []) := by
  have hlength : s.threads.length = n :=
    hruns.keeps (fun hlen hs => hs.length.trans hlen) (List.length_replicate ..)
  obtain ⟨-, hsignalled⟩ : Exclusive s ∧ Signalled (account Elem) s :=
    hruns.keeps (I := fun s => Exclusive s ∧ Signalled _ s) (fun h hs => ⟨h.1.step hs, h.2.step h.1 hs⟩) ⟨exclusive_start [] n, signalled_start [] n⟩
  refine ⟨fun ls' s' hruns' hinner => ?_, fun hquiet i t hi => ?_⟩
  · have hbound := hruns'.inner_count hinner
    have hle := total_left_le s.threads
    rw [hlength] at hle
    omega
  · rcases quiet_place hquiet hi with hidle | hdone | ⟨op, rfl⟩
    · exact .inl hidle
    · exact .inr (.inl hdone)
    · refine .inr (.inr ⟨?_, List.eq_nil_of_length_eq_zero (hsignalled.quiet hquiet hi)⟩)
      cases op with
      | get => rfl
      | getNonBlocking | add => cases hsignalled.waiters i _ hi

theorem free_of_two {s : State (List Elem) (Op Elem) (Option Elem)} {t u : Thread (List Elem) (Op Elem) (Option Elem)}
    (hs : s.threads = [t, u]) (ht : ¬ t.holds) (hu : ¬ u.holds) : s.Free := by
  intro i v hi
  rw [hs] at hi
  match i with
  | 0 => cases hi; exact ht
  | 1 => cases hi; exact hu
  | _ + 2 => cases hi

/-- One thread waits while another adds an element. -/
theorem get_waits : Runs (queue Nat) (.start [] 2)
    [.call 0 .get, .inner, .inner, .inner, .call 1 (.add 7), .inner, .inner, .inner]
    ⟨[7], [.waiting .get, .signalling none]⟩ := by
  refine .cons (.call (i := 0) rfl Op.get) (.cons (.lock (i := 0) rfl (free_of_two rfl id id)) ?_)
  refine .cons (.read (i := 0) rfl) (.cons (.wait (i := 0) rfl rfl) ?_)
  refine .cons (.call (i := 1) rfl (Op.add 7)) (.cons (.lock (i := 1) rfl (free_of_two rfl id id)) ?_)
  exact .cons (.read (i := 1) rfl) (.cons (.store (i := 1) rfl rfl) (.nil _))

theorem added_linearizes : ∃ cs, AtomicRuns (queue Nat) ⟨[], [.idle, .idle]⟩ [.call 0 .get, .call 1 (.add 7)] cs
    ⟨[7], [.pending .get, .done none]⟩ ∧ added cs = handed cs ++ [7] := runs_linearize get_waits

/-- The waiting thread is woken and returns the element. -/
theorem get_woken : Runs (queue Nat) ⟨[7], [.waiting .get, .signalling none]⟩ (.replicate 6 .inner ++ [.ret 0 (some 7)])
    ⟨[], [.idle, .done none]⟩ := by
  refine .cons (.signal (i := 1) (j := 0) rfl rfl) (.cons (.unlock (i := 1) rfl) ?_)
  refine .cons (.lock (i := 0) rfl (free_of_two rfl id id)) (.cons (.read (i := 0) rfl) ?_)
  exact .cons (.store (i := 0) rfl rfl) (.cons (.unlock (i := 0) rfl) (.cons (.ret (i := 0) rfl) (.nil _)))

/-- Where nothing is added the thread waits on. -/
theorem get_rests {s s' : State (List Nat) (Op Nat) (Option Nat)} (hthreads : s.threads = [.waiting .get, .idle]) :
    ¬ Step (queue Nat) s .inner s' := by
  have hall : ∀ (i : Nat) t, s.threads[i]? = some t → t = .waiting .get ∨ t = .idle := by
    intro i t hi
    rw [hthreads] at hi
    simpa using List.mem_of_getElem? hi
  intro hs
  cases hs with
  | lock hi | read hi | wait hi | store hi | signal hi | signalNone hi | unlock hi => simpa using hall _ _ hi

theorem waiter_rests :
    ((List.replicate 6 .inner ++ [.ret 0 (some 7)] : List (Label (Op Nat) (Option Nat))).filter (!·.visible)).length ≤ 8 * 2 ∧
      ∃ s : State (List Nat) (Op Nat) (Option Nat), s.threads[0]? = some (.waiting .get) ∧ s.shared = [] := by
  refine ⟨(comes_to_rest get_waits).1 _ _ get_woken fun l hl => ?_, ⟨[], [.waiting .get, .idle]⟩, rfl, ?_⟩
  · exact (List.mem_append.mp hl).imp List.eq_of_mem_replicate fun hret => ⟨0, some 7, List.mem_singleton.mp hret⟩
  have hruns : Runs (queue Nat) (.start [] 2) [.call 0 .get, .inner, .inner, .inner] ⟨[], [.waiting .get, .idle]⟩ :=
    .cons (.call (i := 0) rfl Op.get) (.cons (.lock (i := 0) rfl (free_of_two rfl id id))
      (.cons (.read (i := 0) rfl) (.cons (.wait (i := 0) rfl rfl) (.nil _))))
  obtain hidle | ⟨r, hdone⟩ | ⟨-, hempty⟩ := (comes_to_rest hruns).2 (fun _ => get_rests rfl) 0 _ rfl
  · cases hidle
  · cases hdone
  · exact hempty

end Crack.Queue2
