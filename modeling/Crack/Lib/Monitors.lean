import Mathlib.Data.List.Basic
import Mathlib.Tactic.Common

/-!
# Monitors

Threads share a state behind a mutex. An operation reads the state and waits on a
condition if it cannot go on; else it stores a new state, and it may signal the
condition. The threads take their steps in any order, and a thread may be woken
without a signal. Seen from outside every operation happens at once, and no signal
gets lost.
-/
namespace Monitors

variable {S Op R : Type} {op : Op} {x : S}

/-- The operations under the mutex. For a state in which it waits an operation has no result. -/
structure Monitor (S Op R : Type) where
  run : Op → S → Option (S × R)
  signals : Op → Bool

/-- The place of a thread in an operation. -/
inductive Thread (S Op R : Type) where
  | idle
  /-- Called or woken, without the mutex yet. -/
  | locking (op : Op)
  | inside (op : Op)
  | read (op : Op) (seen : S)
  | waiting (op : Op)
  | signalling (r : R)
  | unlocking (r : R)
  | done (r : R)

/-- The places at which a thread has the mutex. -/
def Thread.holds : Thread S Op R → Prop
  | .inside _ => True
  | .read _ _ => True
  | .signalling _ => True
  | .unlocking _ => True
  | _ => False

structure State (S Op R : Type) where
  shared : S
  threads : List (Thread S Op R)

inductive Label (Op R : Type) where
  | call (i : Nat) (op : Op)
  | ret (i : Nat) (r : R)
  | inner
  /-- A thread is woken without a signal. -/
  | spurious

def Label.visible : Label Op R → Bool
  | .call _ _ => true
  | .ret _ _ => true
  | _ => false

namespace State

variable (s : State S Op R)

/-- Nobody is in an operation. -/
def start (shared : S) (n : Nat) : State S Op R := ⟨shared, List.replicate n .idle⟩

def move (i : Nat) (t : Thread S Op R) : State S Op R := { s with threads := s.threads.set i t }

/-- Nobody has the mutex. -/
def Free : Prop := ∀ (i : Nat) t, s.threads[i]? = some t → ¬ t.holds

end State

inductive Step (m : Monitor S Op R) (s : State S Op R) : Label Op R → State S Op R → Prop where
  | call {i : Nat} (h : s.threads[i]? = some .idle) (op : Op) : Step m s (.call i op) (s.move i (.locking op))
  | lock {i : Nat} {op : Op} (h : s.threads[i]? = some (.locking op)) (hfree : s.Free) :
    Step m s .inner (s.move i (.inside op))
  | read {i : Nat} {op : Op} (h : s.threads[i]? = some (.inside op)) : Step m s .inner (s.move i (.read op s.shared))
  /-- The mutex is given up as the thread begins to wait. -/
  | wait {i : Nat} {op : Op} {seen : S} (h : s.threads[i]? = some (.read op seen)) (hrun : m.run op seen = none) :
    Step m s .inner (s.move i (.waiting op))
  | store {i : Nat} {op : Op} {seen x : S} {r : R} (h : s.threads[i]? = some (.read op seen))
    (hrun : m.run op seen = some (x, r)) :
    Step m s .inner { s.move i (if m.signals op then .signalling r else .unlocking r) with shared := x }
  | signal {i j : Nat} {op : Op} {r : R} (h : s.threads[i]? = some (.signalling r))
    (hj : s.threads[j]? = some (.waiting op)) : Step m s .inner ((s.move i (.unlocking r)).move j (.locking op))
  | signalNone {i : Nat} {r : R} (h : s.threads[i]? = some (.signalling r))
    (hnone : ∀ (j : Nat) op, s.threads[j]? ≠ some (.waiting op)) : Step m s .inner (s.move i (.unlocking r))
  | unlock {i : Nat} {r : R} (h : s.threads[i]? = some (.unlocking r)) : Step m s .inner (s.move i (.done r))
  | wake {i : Nat} {op : Op} (h : s.threads[i]? = some (.waiting op)) : Step m s .spurious (s.move i (.locking op))
  | ret {i : Nat} {r : R} (h : s.threads[i]? = some (.done r)) : Step m s (.ret i r) (s.move i .idle)

inductive Runs (m : Monitor S Op R) : State S Op R → List (Label Op R) → State S Op R → Prop where
  | nil (s : State S Op R) : Runs m s [] s
  | cons {s s' s'' : State S Op R} {l : Label Op R} {ls : List (Label Op R)} (h : Step m s l s') (hrest : Runs m s' ls s'') :
    Runs m s (l :: ls) s''

variable {m : Monitor S Op R} {s s' : State S Op R} {l : Label Op R} {ls : List (Label Op R)} {i j : Nat}
  {t t' t₀ : Thread S Op R}

/-- An invariant of the steps holds after every run. -/
theorem Runs.keeps {I : State S Op R → Prop} (hstep : ∀ {s l s'}, I s → Step m s l s' → I s') (hruns : Runs m s ls s')
    (h : I s) : I s' := by
  induction hruns with
  | nil s => exact h
  | cons hs _ ih => exact ih (hstep h hs)

theorem get_move (hi : s.threads[i]? = some t₀) :
    (s.move i t).threads[j]? = some t' ↔ (j = i ∧ t' = t) ∨ (j ≠ i ∧ s.threads[j]? = some t') := by
  obtain ⟨hlt, -⟩ := List.getElem?_eq_some_iff.mp hi
  rw [State.move, List.getElem?_set]
  by_cases hij : i = j
  · subst hij
    rw [if_pos rfl, if_pos hlt, Option.some_inj]
    exact ⟨fun h => .inl ⟨rfl, h.symm⟩, fun h => h.elim (fun h => h.2.symm) fun h => absurd rfl h.1⟩
  · rw [if_neg hij]
    exact ⟨fun h => .inr ⟨fun hji => hij hji.symm, h⟩, fun h => h.elim (fun h => absurd h.1.symm hij) And.right⟩

theorem get_other (hi : s.threads[i]? = some t₀) (hj : s.threads[j]? = some t') (hne : j ≠ i) :
    (s.move i t).threads[j]? = some t' := (get_move hi).mpr (.inr ⟨hne, hj⟩)

theorem signalled_ne {r : R} (hi : s.threads[i]? = some (.signalling r)) (hj : s.threads[j]? = some (.waiting op)) :
    j ≠ i := by
  rintro rfl
  rw [hi] at hj
  cases hj

/-- One thread at most has the mutex, and what it has read is what there is. -/
structure Exclusive (s : State S Op R) : Prop where
  one : ∀ (i j : Nat) t u, s.threads[i]? = some t → s.threads[j]? = some u → t.holds → u.holds → i = j
  fresh : ∀ (i : Nat) op seen, s.threads[i]? = some (.read op seen) → seen = s.shared

theorem get_start {n : Nat} (h : (State.start x n : State S Op R).threads[i]? = some t) : t = .idle :=
  List.eq_of_mem_replicate (List.mem_of_getElem? h)

theorem exclusive_start (x : S) (n : Nat) : Exclusive (State.start x n : State S Op R) := by
  refine ⟨fun i j t u ht hu hholds => ?_, fun i op seen ht => ?_⟩
  · rw [get_start ht] at hholds
    exact hholds.elim
  · cases get_start ht

/-- Only a thread with the mutex stores, and one gets it only when it is free. -/
theorem Exclusive.move (h : Exclusive s) (hi : s.threads[i]? = some t₀) (ht : t.holds → t₀.holds ∨ s.Free)
    (hread : ∀ op seen, t = .read op seen → seen = x) (hx : x = s.shared ∨ t₀.holds) :
    Exclusive { s.move i t with shared := x } := by
  have hother : ∀ (k : Nat) u, s.threads[k]? = some u → t.holds → u.holds → i = k := by
    intro k u hk hholds hu
    rcases ht hholds with ht₀ | hfree
    · exact h.one i k t₀ u hi hk ht₀ hu
    · exact absurd hu (hfree k u hk)
  refine ⟨fun j k u v hj hk hu hv => ?_, fun j op seen hj => ?_⟩
  · rcases (get_move hi).mp hj with ⟨rfl, rfl⟩ | ⟨-, hj'⟩ <;> rcases (get_move hi).mp hk with ⟨rfl, rfl⟩ | ⟨-, hk'⟩
    · rfl
    · exact hother k v hk' hu hv
    · exact (hother j u hj' hv hu).symm
    · exact h.one j k u v hj' hk' hu hv
  · rcases (get_move hi).mp hj with ⟨rfl, heq⟩ | ⟨hne, hj'⟩
    · exact hread op seen heq.symm
    · rcases hx with rfl | ht₀
      · exact h.fresh j op seen hj'
      · exact absurd (h.one j i _ t₀ hj' hi trivial ht₀) hne

/-- A thread that goes on and stores nothing. -/
theorem Exclusive.go (h : Exclusive s) (hi : s.threads[i]? = some t₀) (ht : t.holds → t₀.holds ∨ s.Free)
    (hread : ∀ op seen, t ≠ .read op seen) : Exclusive (s.move i t) :=
  h.move hi ht (fun op seen heq => absurd heq (hread op seen)) (.inl rfl)

theorem Exclusive.step (h : Exclusive s) (hs : Step m s l s') : Exclusive s' := by
  cases hs with
  | call hi | wait hi | unlock hi | wake hi | ret hi => exact h.go hi False.elim (by simp)
  | lock hi hfree => exact h.go hi (fun _ => .inr hfree) (by simp)
  | read hi => exact h.move (t := .read _ _) hi Or.inl (fun op seen heq => by cases heq; rfl) (.inl rfl)
  | store hi hrun =>
    refine h.move hi (fun _ => .inl trivial) (fun op seen heq => ?_) (.inr trivial)
    split at heq <;> cases heq
  | @signal i j op r hi hj =>
    have hfirst := h.go (t := .unlocking r) hi Or.inl (by simp)
    exact hfirst.go (get_other hi hj (signalled_ne hi hj)) False.elim (by simp)
  | signalNone hi => exact h.go hi Or.inl (by simp)

/-- How far a call is, seen from outside. -/
inductive Call (Op R : Type) where
  | idle
  | pending (op : Op)
  | done (r : R)

def Thread.call : Thread S Op R → Call Op R
  | .idle => .idle
  | .locking op | .inside op | .read op _ | .waiting op => .pending op
  | .signalling r | .unlocking r | .done r => .done r

structure Atomic (S Op R : Type) where
  shared : S
  calls : List (Call Op R)

/-- The runs in which every operation happens at one moment between its call and
its return, with the operations and their results in the order of these moments. -/
inductive AtomicRuns (m : Monitor S Op R) : Atomic S Op R → List (Label Op R) → List (Op × R) → Atomic S Op R → Prop where
  | nil (a : Atomic S Op R) : AtomicRuns m a [] [] a
  | call {a a' : Atomic S Op R} {i : Nat} {op : Op} {ls : List (Label Op R)} {cs : List (Op × R)}
    (h : a.calls[i]? = some .idle) (hrest : AtomicRuns m ⟨a.shared, a.calls.set i (.pending op)⟩ ls cs a') :
    AtomicRuns m a (.call i op :: ls) cs a'
  | happen {a a' : Atomic S Op R} {i : Nat} {op : Op} {x : S} {r : R} {ls : List (Label Op R)} {cs : List (Op × R)}
    (h : a.calls[i]? = some (.pending op)) (hrun : m.run op a.shared = some (x, r))
    (hrest : AtomicRuns m ⟨x, a.calls.set i (.done r)⟩ ls cs a') : AtomicRuns m a ls ((op, r) :: cs) a'
  | ret {a a' : Atomic S Op R} {i : Nat} {r : R} {ls : List (Label Op R)} {cs : List (Op × R)}
    (h : a.calls[i]? = some (.done r)) (hrest : AtomicRuns m ⟨a.shared, a.calls.set i .idle⟩ ls cs a') :
    AtomicRuns m a (.ret i r :: ls) cs a'

def State.atomic (s : State S Op R) : Atomic S Op R := ⟨s.shared, s.threads.map Thread.call⟩

theorem calls_get (hi : s.threads[i]? = some t₀) : s.atomic.calls[i]? = some t₀.call := by
  rw [State.atomic, List.getElem?_map, hi, Option.map_some]

theorem calls_move : (s.move i t).threads.map Thread.call = s.atomic.calls.set i t.call := by
  rw [State.move, List.map_set, State.atomic]

/-- A step inside of an operation is not seen. -/
theorem calls_stay (hi : s.threads[i]? = some t₀) (ht : t.call = t₀.call) :
    (s.move i t).threads.map Thread.call = s.atomic.calls := by
  rw [calls_move, ht]
  obtain ⟨hlt, heq⟩ := List.getElem?_eq_some_iff.mp (calls_get hi)
  rw [← heq]
  exact List.set_getElem_self hlt

theorem Runs.atomic (hruns : Runs m s ls s') (h : Exclusive s) :
    ∃ cs, AtomicRuns m s.atomic (ls.filter Label.visible) cs s'.atomic := by
  induction hruns with
  | nil s => exact ⟨[], .nil _⟩
  | @cons s s₁ s' l ls hs _ ih =>
    obtain ⟨cs, hcs⟩ := ih (h.step hs)
    have hstay : s₁.atomic = s.atomic → ∃ cs, AtomicRuns m s.atomic (ls.filter Label.visible) cs s'.atomic := by
      intro heq
      rw [heq] at hcs
      exact ⟨cs, hcs⟩
    rw [State.atomic] at hcs hstay
    cases hs with
    | call hi op =>
      rw [calls_move] at hcs
      exact ⟨cs, .call (calls_get hi) hcs⟩
    | lock hi | read hi | wait hi | signalNone hi | unlock hi | wake hi =>
      exact hstay (congrArg _ (calls_stay hi rfl))
    | @signal i j op r hi hj =>
      have hj' := get_other (t := .unlocking r) hi hj (signalled_ne hi hj)
      exact hstay (congrArg _ ((calls_stay (t := .locking op) hj' rfl).trans (calls_stay hi rfl)))
    | @store i op seen x r hi hrun =>
      have hx : m.run op s.shared = some (x, r) := by
        rw [← h.fresh i op seen hi]
        exact hrun
      have hcall : (if m.signals op then .signalling r else .unlocking r : Thread S Op R).call = .done r := by
        split <;> rfl
      change AtomicRuns m ⟨x, (s.move i _).threads.map Thread.call⟩ _ _ _ at hcs
      rw [calls_move, hcall] at hcs
      exact ⟨(op, r) :: cs, .happen (calls_get hi) hx hcs⟩
    | ret hi =>
      rw [calls_move] at hcs
      exact ⟨cs, .ret (calls_get hi) hcs⟩

/-- The sum of the weights of the threads. -/
def total (f : Thread S Op R → Nat) : List (Thread S Op R) → Nat
  | [] => 0
  | t :: ts => f t + total f ts

theorem total_set (f : Thread S Op R → Nat) {ts : List (Thread S Op R)} (hi : ts[i]? = some t₀) :
    total f (ts.set i t) + f t₀ = total f ts + f t := by
  induction ts generalizing i with
  | nil => cases hi
  | cons u ts ih =>
    cases i with
    | zero =>
      cases hi
      rw [List.set_cons_zero, total, total]
      omega
    | succ i =>
      have hset := ih (i := i) hi
      rw [List.set_cons_succ, total, total]
      omega

theorem total_move (f : Thread S Op R → Nat) (hi : s.threads[i]? = some t₀) :
    total f (s.move i t).threads + f t₀ = total f s.threads + f t := total_set f hi

/-- An operation waits only where nothing is available, one that waits takes one
away and one that signals adds no more than one. -/
structure Account (m : Monitor S Op R) where
  avail : S → Nat
  waits : Op → Bool
  wait : ∀ op x, m.run op x = none → waits op = true ∧ avail x = 0
  run : ∀ op x x' r, m.run op x = some (x', r) → avail x' + (waits op).toNat ≤ avail x + (m.signals op).toNat

/-- A thread that is on its way to take something, or to wake one that is. -/
def Account.active (a : Account m) : Thread S Op R → Nat
  | .locking op | .inside op | .read op _ => (a.waits op).toNat
  | .signalling _ => 1
  | _ => 0

/-- While a thread waits there is for everything available a thread on its way. -/
structure Signalled (a : Account m) (s : State S Op R) : Prop where
  waiters : ∀ (i : Nat) op, s.threads[i]? = some (.waiting op) → a.waits op = true
  count : ∀ (i : Nat) op, s.threads[i]? = some (.waiting op) → a.avail s.shared ≤ total a.active s.threads

variable {a : Account m}

theorem signalled_start (x : S) (n : Nat) : Signalled a (State.start x n) := by
  constructor <;>
  · intro i op h
    cases get_start h

theorem waiting_before (hi : s.threads[i]? = some t₀) (hne : ∀ op, t ≠ .waiting op)
    (hj : (s.move i t).threads[j]? = some (.waiting op)) : s.threads[j]? = some (.waiting op) := by
  rcases (get_move hi).mp hj with ⟨-, heq⟩ | ⟨-, hj'⟩
  · exact absurd heq.symm (hne op)
  · exact hj'

theorem Signalled.move (h : Signalled a s) (hi : s.threads[i]? = some t₀)
    (hle : a.avail x + a.active t₀ ≤ a.avail s.shared + a.active t) (hne : ∀ op, t ≠ .waiting op) :
    Signalled a { s.move i t with shared := x } := by
  refine ⟨fun j op hj => h.waiters j op (waiting_before hi hne hj), fun j op hj => ?_⟩
  have hcount := h.count j op (waiting_before hi hne hj)
  have htotal := total_move (t := t) a.active hi
  change a.avail x ≤ total a.active (s.move i t).threads
  omega

theorem Signalled.step (h : Signalled a s) (hx : Exclusive s) (hs : Step m s l s') : Signalled a s' := by
  cases hs with
  | call hi op => exact h.move hi (Nat.le_add_right _ _) (by simp)
  | lock hi | unlock hi | read hi | ret hi => exact h.move hi (Nat.le_refl _) (by simp)
  | wake hi => exact h.move hi (Nat.le_add_right _ _) (by simp)
  | @wait i op seen hi hrun =>
    obtain ⟨hwaits, hzero⟩ := a.wait op seen hrun
    rw [hx.fresh i op seen hi] at hzero
    refine ⟨fun j op' hj => ?_, fun j op' hj => hzero.symm ▸ Nat.zero_le _⟩
    rcases (get_move hi).mp hj with ⟨-, heq⟩ | ⟨-, hj'⟩
    · cases heq
      exact hwaits
    · exact h.waiters j op' hj'
  | @store i op seen x r hi hrun =>
    have hrun' := a.run op seen x r hrun
    rw [hx.fresh i op seen hi] at hrun'
    refine h.move hi ?_ fun op' heq => ?_
    · cases hsignals : m.signals op <;> rw [hsignals] at hrun' <;> exact hrun'
    · split at heq <;> cases heq
  | @signal i j op r hi hj =>
    have hj' := get_other (t := .unlocking r) hi hj (signalled_ne hi hj)
    have hfirst := total_move (t := .unlocking r) a.active hi
    have hsecond := total_move (t := .locking op) a.active hj'
    have hlocking : a.active (.locking op : Thread S Op R) = 1 := by
      change (a.waits op).toNat = 1
      rw [h.waiters j op hj]
      rfl
    rw [hlocking] at hsecond
    change _ + 1 = _ + 0 at hfirst
    change _ + 0 = _ at hsecond
    have hback : ∀ (k : Nat) op', ((s.move i (.unlocking r)).move j (.locking op)).threads[k]? = some (.waiting op') →
        s.threads[k]? = some (.waiting op') := by
      intro k op' hk
      have hk' := waiting_before hj' (by simp) hk
      exact waiting_before hi (by simp) hk'
    refine ⟨fun k op' hk => h.waiters k op' (hback k op' hk), fun k op' hk => ?_⟩
    have hcount := h.count k op' (hback k op' hk)
    change a.avail s.shared ≤ _
    omega
  | @signalNone i r hi hnone =>
    have hback : ∀ (j : Nat) op, (s.move i (.unlocking r)).threads[j]? ≠ some (.waiting op) :=
      fun j op hj => hnone j op (waiting_before hi (by simp) hj)
    exact ⟨fun j op hj => (hback j op hj).elim, fun j op hj => (hback j op hj).elim⟩

/-- A bound for the steps of a thread until it waits or has its result; the step
of one that waits is the signal of another. -/
def Thread.left : Thread S Op R → Nat
  | .locking _ => 8
  | .inside _ => 7
  | .read _ _ => 6
  | .waiting _ | .signalling _ => 5
  | .unlocking _ => 1
  | .idle | .done _ => 0

theorem left_move (hi : s.threads[i]? = some t₀) (hlt : t.left < t₀.left) :
    total Thread.left (s.move i t).threads < total Thread.left s.threads := by
  have htotal := total_move (t := t) Thread.left hi
  omega

theorem inner_left (hs : Step m s l s') (hl : l = .inner) :
    total Thread.left s'.threads < total Thread.left s.threads := by
  cases hs with
  | call | ret | wake => cases hl
  | lock hi => exact left_move hi (show 7 < 8 by decide)
  | read hi => exact left_move hi (show 6 < 7 by decide)
  | wait hi => exact left_move hi (show 5 < 6 by decide)
  | signalNone hi => exact left_move hi (show 1 < 5 by decide)
  | unlock hi => exact left_move hi (show 0 < 1 by decide)
  | store hi =>
    refine left_move hi ?_
    split
    · exact (show 5 < 6 by decide)
    · exact (show 1 < 6 by decide)
  | @signal i j op r hi hj =>
    have hfirst := total_move (t := .unlocking r) Thread.left hi
    have hsecond := total_move (t := .locking op) Thread.left (get_other (t := .unlocking r) hi hj (signalled_ne hi hj))
    change _ + 5 = _ + 1 at hfirst
    change _ + 5 = _ + 8 at hsecond
    omega

theorem ret_left {r : R} (hs : Step m s (.ret i r) s') : total Thread.left s'.threads = total Thread.left s.threads := by
  cases hs with
  | ret hi => exact total_move (t := .idle) Thread.left hi

/-- Without calls and spurious wake-ups the threads come to rest. -/
theorem Runs.inner_count (hruns : Runs m s ls s') (hls : ∀ l ∈ ls, l = .inner ∨ ∃ i r, l = .ret i r) :
    (ls.filter (!·.visible)).length + total Thread.left s'.threads ≤ total Thread.left s.threads := by
  induction hruns with
  | nil s => exact Nat.le_of_eq (Nat.zero_add _)
  | cons hs _ ih =>
    have hrest := ih fun l hl => hls l (List.mem_cons_of_mem _ hl)
    obtain rfl | ⟨i, r, rfl⟩ := hls _ List.mem_cons_self
    · have hlt := inner_left hs rfl
      rw [List.filter_cons_of_pos rfl, List.length_cons]
      omega
    · rw [List.filter_cons_of_neg (by simp [Label.visible]), ← ret_left hs]
      exact hrest

theorem total_left_le (ts : List (Thread S Op R)) : total Thread.left ts ≤ 8 * ts.length := by
  induction ts with
  | nil => exact Nat.le_refl 0
  | cons t ts ih =>
    have ht : t.left ≤ 8 := by
      cases t <;> simp [Thread.left]
    rw [total, List.length_cons]
    omega

theorem Step.length (hs : Step m s l s') : s'.threads.length = s.threads.length := by
  cases hs <;> simp only [State.move, List.length_set]

/-- At rest nobody has the mutex. -/
theorem quiet_free (hquiet : ∀ s', ¬ Step m s .inner s') : s.Free := by
  intro i t hi hholds
  cases t with
  | inside op => exact hquiet _ (.read hi)
  | read op seen =>
    cases hrun : m.run op seen with
    | none => exact hquiet _ (.wait hi hrun)
    | some p => exact hquiet _ (.store hi hrun)
  | signalling r =>
    by_cases hwait : ∃ (j : Nat) (op : Op), s.threads[j]? = some (.waiting op)
    · obtain ⟨j, op, hj⟩ := hwait
      exact hquiet _ (.signal hi hj)
    · exact hquiet _ (.signalNone hi fun j op hj => hwait ⟨j, op, hj⟩)
  | unlocking r => exact hquiet _ (.unlock hi)
  | idle | locking | waiting | done => exact hholds

theorem quiet_place (hquiet : ∀ s', ¬ Step m s .inner s') (hi : s.threads[i]? = some t) :
    t = .idle ∨ (∃ r, t = .done r) ∨ ∃ op, t = .waiting op := by
  have hfree := quiet_free hquiet
  cases t with
  | idle => exact .inl rfl
  | done r => exact .inr (.inl ⟨r, rfl⟩)
  | waiting op => exact .inr (.inr ⟨op, rfl⟩)
  | locking op => exact absurd (.lock hi hfree) (hquiet _)
  | inside | read | signalling | unlocking => exact absurd trivial (hfree i _ hi)

/-- At rest a thread waits only for what is not there. -/
theorem Signalled.quiet (h : Signalled a s) (hquiet : ∀ s', ¬ Step m s .inner s')
    (hi : s.threads[i]? = some (.waiting op)) : a.avail s.shared = 0 := by
  have hzero : ∀ ts : List (Thread S Op R), (∀ t ∈ ts, a.active t = 0) → total a.active ts = 0 := by
    intro ts hts
    induction ts with
    | nil => rfl
    | cons t ts ih =>
      rw [total, hts t List.mem_cons_self, ih fun t ht => hts t (List.mem_cons_of_mem _ ht)]
  have hcount := h.count i op hi
  rw [hzero s.threads] at hcount
  · exact Nat.le_zero.mp hcount
  · intro t ht
    obtain ⟨j, hj⟩ := List.getElem?_of_mem ht
    rcases quiet_place hquiet hj with rfl | ⟨r, rfl⟩ | ⟨op, rfl⟩ <;> rfl

end Monitors
