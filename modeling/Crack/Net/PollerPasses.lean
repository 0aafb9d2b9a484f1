import Crack.Net.PollerRuns

/-!
# Passes of a poller

The entries of the pollset stay with the handles, and a pass gives each ready handle once,
as long as no callback removes a handle at or before the one it is called for.
-/
namespace Crack.PollWorld

variable {F : Type} [DecidableEq F] {fd : F → Int} {w : PollWorld F} {p : F} {events : BitVec 32} {given : List F}
  {low : Int}

@[simp]
theorem note_given (r : PollRecord F) (op : PollOp F) (result : Except PollError Unit) :
    (r.note op result).given = r.given := by
  cases op <;> cases result <;> rfl

variable {r : PollRecord F}

theorem note_ready_none (h : r.ready = none) (op : PollOp F) (result : Except PollError Unit) :
    (r.note op result).ready = none := by
  cases op <;> cases result <;> simp [PollRecord.note, PollRecord.request, h]

theorem notes_ready_none (h : r.ready = none) (log : List (PollOp F × Except PollError Unit)) :
    (r.notes log).ready = none := by
  induction log generalizing r with
  | nil => exact h
  | cons entry log ih => exact ih (note_ready_none h entry.1 entry.2)

theorem notes_given (r : PollRecord F) (log : List (PollOp F × Except PollError Unit)) :
    (r.notes log).given = r.given := by
  induction log generalizing r with
  | nil => rfl
  | cons entry log ih => exact (ih _).trans (note_given r entry.1 entry.2)

theorem request_of_eq (h : r.requested p = events) : r.request p events = r := by
  have hsame : (fun q => if q = p then events else r.requested q) = r.requested := by
    funext q
    split
    · next heq => rw [heq, h]
    · rfl
  rw [PollRecord.request, hsame]

theorem called_ready (r : PollRecord F) (m : Poller F) (reaction : Reaction F) :
    (r.called m p reaction).ready = r.ready := by
  unfold PollRecord.called
  split
  · split <;> rfl
  · rfl

theorem called_given (r : PollRecord F) (m : Poller F) (reaction : Reaction F) :
    (r.called m p reaction).given = r.given := by
  unfold PollRecord.called
  split
  · split <;> rfl
  · rfl

variable (fd) in
/-- What holds between steps: a pass has still to give the ready handles from the iterator on. -/
structure Between (w : PollWorld F) : Prop where
  tidy : w.Tidy fd
  pending : w.Pending w.record.given w.poller.iter
  nonneg : w.record.ready ≠ none → 0 ≤ w.poller.iter

variable (fd) in
/-- What holds while a callback for the handle at `i` makes its calls. -/
structure Serving (w : PollWorld F) (given : List F) (low : Int) (i : Nat) (p : F) : Prop where
  tidy : w.Tidy fd
  pending : w.Pending given low
  served : w.poller.pollables[i]? = some p
  iter : w.poller.iter = i

omit [DecidableEq F] in
theorem Serving.of_calls {m : Poller F} {i : Nat} (h : w.Serving fd given low i p) (hiter : m.iter = w.poller.iter)
    (hkeeps : w.Keeps fd ⟨m, r⟩ given low low (i + 1)) : PollWorld.Serving fd ⟨m, r⟩ given low i p :=
  ⟨hkeeps.tidy, hkeeps.pending h.pending, hkeeps.place i (Nat.lt_succ_self i) p h.served, hiter.trans h.iter⟩

/-- One call of a callback. -/
theorem Serving.call {i : Nat} (h : w.Serving fd given low i p) (hlow : low ≤ i + 1) {served : Option F}
    {op : PollOp F} (hok : CallOk fd w (.callback served) op)
    (hgiven : ∀ q, q ∈ w.record.given ∨ served = some q → q ∈ given) :
    ∃ m result, w.poller.call fd op = .ok (m, result) ∧
      PollWorld.Serving fd ⟨m, w.record.note op result⟩ given low i p := by
  cases op with
  | add q events =>
    obtain ⟨m, result, hcall, hiter, hkeeps⟩ := (h.tidy.call_add hok).1
    exact ⟨m, result, hcall, h.of_calls hiter hkeeps⟩
  | register q events =>
    have hadd : CallOk fd w (.callback served) (.add q events) := hok
    obtain ⟨m, result, hcall, hiter, hkeeps⟩ := (h.tidy.call_add hadd).2
    exact ⟨m, result, hcall, h.of_calls hiter hkeeps⟩
  | setEvents q events =>
    have hgiven' : ∀ q, q ∈ w.record.given ∨ Caller.callback served = .callback (some q) → q ∈ given := by
      intro q hq
      refine hgiven q (hq.imp_right fun heq => ?_)
      injection heq
    obtain ⟨m, result, hcall, hiter, hkeeps⟩ := h.tidy.call_setEvents hok hgiven'
    exact ⟨m, result, hcall, h.of_calls hiter hkeeps⟩
  | remove q =>
    have hbehind : q ∈ w.poller.pollables → i < w.poller.pollables.idxOf q := by
      intro hmem
      have := hok hmem
      rw [h.iter] at this
      omega
    obtain ⟨m, result, hcall, hkeeps⟩ := h.tidy.call_remove hbehind
    refine ⟨m, result, hcall, ?_⟩
    rcases hkeeps with ⟨hiter, hkeeps⟩ | ⟨hmem, hiter, hkeeps⟩
    · exact h.of_calls hiter hkeeps
    · have hlt := hbehind hmem
      have hlow' : lowAfter low (w.poller.pollables.idxOf q) = low := by
        rw [lowAfter, if_neg (by omega)]
      rw [hlow'] at hkeeps
      rw [if_neg (by rw [h.iter]; omega)] at hiter
      exact h.of_calls hiter hkeeps

/-- All calls of a callback. -/
theorem Serving.calls {i : Nat} {served : Option F} (hlow : low ≤ i + 1) {ops : List (PollOp F)} {w : PollWorld F}
    (h : w.Serving fd given low i p) (hok : CallsOk fd (.callback served) w ops)
    (hgiven : ∀ q, q ∈ w.record.given ∨ served = some q → q ∈ given) :
    ∃ m log, w.poller.calls fd ops = .ok (m, log) ∧ PollWorld.Serving fd ⟨m, w.record.notes log⟩ given low i p := by
  induction ops generalizing w with
  | nil => exact ⟨w.poller, [], rfl, h⟩
  | cons op ops ih =>
    obtain ⟨m, result, hcall, hserving⟩ := h.call hlow hok.1 hgiven
    have hgiven' : ∀ q, q ∈ (w.record.note op result).given ∨ served = some q → q ∈ given := by
      rw [note_given]
      exact hgiven
    obtain ⟨m', log, hcalls, hserving'⟩ := ih hserving (hok.2 m result hcall) hgiven'
    refine ⟨m', (op, result) :: log, ?_, hserving'⟩
    rw [Poller.calls, hcall]
    dsimp only [bind, Except.bind] at hcalls ⊢
    rw [hcalls]
    rfl

omit [DecidableEq F] in
theorem Tidy.iter {m : Poller F} (h : PollWorld.Tidy fd ⟨m, r⟩) (iter : Int) :
    PollWorld.Tidy fd ⟨{ m with iter }, r⟩ :=
  ⟨h.aligned, h.distinct, h.le_capacity, h.capacity_le⟩

variable (fd) in
/-- What comes of `__callCallback` for the handle at `i`. -/
def CallsBack (w : PollWorld F) (i : Nat) (p : F) (events : BitVec 32) (reaction : Reaction F) : Prop :=
  ∃ m called log, w.poller.callCallback fd i p events reaction = .ok (m, called, log) ∧
    m.iter = w.poller.iter ∧ match called with
      | .ok _ =>
        PollWorld.Tidy fd ⟨m, (w.record.notes log).called w.poller p reaction⟩ ∧
          PollWorld.Pending ⟨m, (w.record.notes log).called w.poller p reaction⟩ (p :: w.record.given) (i + 1)
      | .error _ => PollWorld.Tidy fd ⟨m, w.record.notes log⟩ ∧
          PollWorld.Pending ⟨m, w.record.notes log⟩ w.record.given i

theorem Tidy.callsBack (h : w.Tidy fd) {i : Nat} (hi : w.poller.pollables[i]? = some p) {reaction : Reaction F}
    (hok : ReactionOk fd w i p reaction) (hbefore : w.Pending w.record.given i)
    (hafter : w.Pending (p :: w.record.given) (i + 1)) :
    w.CallsBack fd i p (w.record.requested p) reaction := by
  unfold CallsBack
  by_cases hcb : p ∈ w.poller.callbacks
  · obtain ⟨hcalls, hreturned⟩ := hok hcb
    cases hevents : reaction.events with
    | none =>
      rw [hevents] at hcalls
      have hserving : Serving fd ⟨{ w.poller with iter := i }, w.record⟩ w.record.given i i p :=
        ⟨h.iter i, hbefore, hi, rfl⟩
      obtain ⟨m, log, hrun, hserved⟩ := hserving.calls (by omega) hcalls (by simp)
      refine ⟨{ m with iter := w.poller.iter }, .error .callback, log, ?_, rfl, hserved.tidy.iter _, hserved.pending⟩
      rw [Poller.callCallback]
      simp only [if_pos hcb, hevents, bind, Except.bind] at hrun ⊢
      rw [hrun]
      rfl
    | some requested =>
      rw [hevents] at hcalls
      obtain ⟨hshort, hsame⟩ := hreturned requested hevents
      have hserving : Serving fd ⟨{ w.poller with iter := i }, w.record⟩ (p :: w.record.given) (i + 1) i p :=
        ⟨h.iter i, hafter, hi, rfl⟩
      have hgiven : ∀ q, q ∈ w.record.given ∨ (some requested).map (fun _ => p) = some q → q ∈ p :: w.record.given := by
        rintro q (hq | hq)
        · exact List.mem_cons_of_mem _ hq
        · rw [← Option.some.inj hq]
          exact List.mem_cons_self
      obtain ⟨m, log, hrun, hserved⟩ := hserving.calls (by omega) hcalls hgiven
      have hcalled : (w.record.notes log).called w.poller p reaction = (w.record.notes log).request p requested := by
        simp only [PollRecord.called, hevents, if_pos hcb]
      by_cases hne : requested = w.record.requested p
      · refine ⟨{ m with iter := w.poller.iter }, .ok (), log, ?_, rfl, ?_⟩
        · rw [Poller.callCallback]
          simp only [if_pos hcb, hevents, bind, Except.bind] at hrun ⊢
          rw [hrun]
          simp only [hne, ne_eq, not_true_eq_false, false_and, if_false]
          rfl
        · dsimp only
          rw [hcalled, request_of_eq (hsame m log hrun hne)]
          exact ⟨hserved.tidy.iter _, hserved.pending⟩
      · have hin : ∀ ready, (w.record.notes log).ready = some ready → p ∈ ready → p ∈ p :: w.record.given :=
          fun _ _ _ => List.mem_cons_self
        have hkeeps : Keeps fd ⟨m, w.record.notes log⟩
            ⟨{ m with fds := m.fds.set i ⟨fd p, requested.setWidth 16, 0⟩ }, (w.record.notes log).request p requested⟩
            (p :: w.record.given) (i + 1) (i + 1) 0 := hserved.tidy.keeps_set hserved.served hshort hin
        have hroom : i < m.fds.length := by
          have := lt_of_getElem? hserved.served
          have := hserved.tidy.aligned.1
          have := hserved.tidy.nextIndex_le
          dsimp only at *
          omega
        refine ⟨{ m with fds := m.fds.set i ⟨fd p, requested.setWidth 16, 0⟩, iter := w.poller.iter }, .ok (), log,
          ?_, rfl, ?_⟩
        · have hiter : m.iter = i := hserved.iter
          have hplace : m.pollables[i]? = some p := hserved.served
          rw [Poller.callCallback]
          simp only [if_pos hcb, hevents, bind, Except.bind] at hrun ⊢
          rw [hrun]
          simp [hne, hiter, hplace, PollSet.set, hroom, pure, Except.pure]
        · dsimp only
          rw [hcalled]
          exact ⟨hkeeps.tidy.iter _, hkeeps.pending hserved.pending⟩
  · refine ⟨w.poller, .ok (), [], ?_, rfl, ?_⟩
    · rw [Poller.callCallback]
      simp only [if_neg hcb]
      rfl
    · have hcalled : (w.record.notes []).called w.poller p reaction = w.record := by
        simp only [PollRecord.called, if_neg hcb, PollRecord.notes, List.foldl_nil]
        split <;> rfl
      dsimp only
      rw [hcalled]
      exact ⟨h, hafter⟩

/-- The first entry with an event. -/
theorem next_ok {set : List PollFd} {index count : Nat} (hroom : index + count ≤ set.length) :
    (∃ i elem, PollSet.next set index count = .ok (some i) ∧ index ≤ i ∧ i < index + count ∧ set[i]? = some elem ∧
      elem.revents ≠ 0 ∧ ∀ k, index ≤ k → k < i → ∀ elem, set[k]? = some elem → elem.revents = 0) ∨
    PollSet.next set index count = .ok none ∧
      ∀ k, index ≤ k → k < index + count → ∀ elem, set[k]? = some elem → elem.revents = 0 := by
  induction count generalizing index with
  | zero => exact .inr ⟨rfl, fun k hk hlt => absurd hlt (Nat.not_lt.mpr hk)⟩
  | succ count ih =>
    obtain ⟨elem, helem⟩ : ∃ elem, set[index]? = some elem :=
      ⟨_, List.getElem?_eq_getElem (by omega : index < set.length)⟩
    by_cases hrevents : elem.revents = 0
    · have hnext : PollSet.next set index (count + 1) = PollSet.next set (index + 1) count := by
        rw [PollSet.next, helem]
        exact if_neg (not_not_intro hrevents)
      have hfirst : ∀ k, index ≤ k → (index + 1 ≤ k → ∀ elem, set[k]? = some elem → elem.revents = 0) →
          ∀ elem, set[k]? = some elem → elem.revents = 0 := by
        intro k hk hrest elem' helem'
        rcases Nat.eq_or_lt_of_le hk with rfl | hlt
        · rw [← Option.some.inj (helem.symm.trans helem')]
          exact hrevents
        · exact hrest hlt elem' helem'
      rw [hnext]
      rcases ih (by omega : index + 1 + count ≤ set.length) with ⟨i, e, hi, hle, hlt, he, hne, hbefore⟩ | ⟨hi, hnone⟩
      · exact .inl ⟨i, e, hi, by omega, by omega, he, hne, fun k hk hki => hfirst k hk fun hk' => hbefore k hk' hki⟩
      · exact .inr ⟨hi, fun k hk hlt => hfirst k hk fun hk' => hnone k hk' (by omega)⟩
    · refine .inl ⟨index, elem, ?_, Nat.le_refl _, by omega, helem, hrevents, fun k hk hlt => by omega⟩
      rw [PollSet.next, helem]
      exact if_pos hrevents

/-- The search for the next event goes to the end of the entries in use. -/
theorem next_rest {set : List PollFd} {size : Nat} (hroom : size ≤ set.length) (index : Nat) :
    (∃ i elem, PollSet.next set index (size - index) = .ok (some i) ∧ index ≤ i ∧ i < size ∧ set[i]? = some elem ∧
      elem.revents ≠ 0 ∧ ∀ k, index ≤ k → k < i → ∀ elem, set[k]? = some elem → elem.revents = 0) ∨
    PollSet.next set index (size - index) = .ok none ∧
      ∀ k, index ≤ k → k < size → ∀ elem, set[k]? = some elem → elem.revents = 0 := by
  rcases Nat.lt_or_ge size index with hpast | hle
  · refine .inr ⟨?_, fun k hk hlt => by omega⟩
    rw [Nat.sub_eq_zero_of_le (Nat.le_of_lt hpast)]
    rfl
  · have hsum : index + (size - index) = size := Nat.add_sub_cancel' hle
    have hnext := next_ok (Nat.le_trans (Nat.le_of_eq hsum) hroom)
    rwa [hsum] at hnext

omit [DecidableEq F] in
theorem Pending.of_none (h : w.record.ready = none) : w.Pending given low := by
  intro ready hready
  rw [h] at hready
  cases hready

omit [DecidableEq F] in
/-- Entries without events may be passed over. -/
theorem Pending.skip (h : w.Pending given low) {low' : Int} (hle : low ≤ low')
    (hskip : ∀ k : Nat, low ≤ k → k < low' → ∀ elem : PollFd, w.poller.fds[k]? = some elem → elem.revents = 0) :
    w.Pending given low' := by
  intro ready hready q
  rw [h ready hready q]
  constructor
  · rintro ⟨k, elem, hk, he, hrevents, hlow⟩
    refine ⟨k, elem, hk, he, hrevents, ?_⟩
    by_contra hlt
    exact hrevents (hskip k hlow (by omega) elem he)
  · rintro ⟨k, elem, hk, he, hrevents, hlow⟩
    exact ⟨k, elem, hk, he, hrevents, by omega⟩

omit [DecidableEq F] in
/-- What remains of a pass when the handle at its place is given. -/
theorem Pending.give (h : w.Pending given low) (ht : w.Tidy fd) {i : Nat} (hi : w.poller.pollables[i]? = some p)
    (hlow : low = i) : w.Pending (p :: given) (i + 1) := by
  intro ready hready q
  have hiff := h ready hready q
  rw [List.mem_cons, not_or]
  constructor
  · rintro ⟨hin, hqp, hout⟩
    obtain ⟨k, elem, hk, he, hrevents, hle⟩ := hiff.mp ⟨hin, hout⟩
    have hki : k ≠ i := by
      rintro rfl
      exact hqp (Option.some.inj (hk.symm.trans hi))
    exact ⟨k, elem, hk, he, hrevents, by omega⟩
  · rintro ⟨k, elem, hk, he, hrevents, hle⟩
    obtain ⟨hin, hout⟩ := hiff.mpr ⟨k, elem, hk, he, hrevents, by omega⟩
    refine ⟨hin, ?_, hout⟩
    rintro rfl
    have := ht.inj hk hi
    omega

/-- A call of the program. -/
theorem Between.call (h : w.Between fd) {op : PollOp F} (hok : CallOk fd w .program op) :
    ∃ m result, w.poller.call fd op = .ok (m, result) ∧ PollWorld.Between fd ⟨m, w.record.note op result⟩ := by
  have hstay : ∀ {m : Poller F} {op : PollOp F} {result : Except PollError Unit}, m.iter = w.poller.iter →
      w.Keeps fd ⟨m, w.record.note op result⟩ w.record.given w.poller.iter w.poller.iter 0 →
        PollWorld.Between fd ⟨m, w.record.note op result⟩ := by
    intro m op result hiter hkeeps
    refine ⟨hkeeps.tidy, ?_, ?_⟩
    · dsimp only
      rw [note_given, hiter]
      exact hkeeps.pending h.pending
    · intro hready
      dsimp only at hready ⊢
      rw [hiter]
      exact h.nonneg fun hnone => hready (note_ready_none hnone op result)
  cases op with
  | add q events =>
    obtain ⟨m, result, hcall, hiter, hkeeps⟩ := (h.tidy.call_add hok).1
    exact ⟨m, result, hcall, hstay hiter hkeeps⟩
  | register q events =>
    have hadd : CallOk fd w .program (.add q events) := hok
    obtain ⟨m, result, hcall, hiter, hkeeps⟩ := (h.tidy.call_add hadd).2
    exact ⟨m, result, hcall, hstay hiter hkeeps⟩
  | setEvents q events =>
    have hgiven : ∀ q, q ∈ w.record.given ∨ Caller.program = .callback (some q) → q ∈ w.record.given := by
      rintro q (hq | hq)
      · exact hq
      · cases hq
    obtain ⟨m, result, hcall, hiter, hkeeps⟩ := h.tidy.call_setEvents hok hgiven
    exact ⟨m, result, hcall, hstay hiter hkeeps⟩
  | remove q =>
    obtain ⟨m, result, hcall, hkeeps⟩ := h.tidy.call_remove (fun _ => Nat.zero_le _)
    refine ⟨m, result, hcall, ?_⟩
    rcases hkeeps with ⟨hiter, hkeeps⟩ | ⟨hmem, hiter, hkeeps⟩
    · exact hstay hiter hkeeps
    · by_cases hready : w.record.ready = none
      · have hnone := note_ready_none hready (.remove q) result
        exact ⟨hkeeps.tidy, Pending.of_none hnone, fun hne => absurd hnone hne⟩
      · have hne := hok hmem hready
        have hnonneg := h.nonneg hready
        have hlow : lowAfter w.poller.iter (w.poller.pollables.idxOf q) = m.iter := by
          rw [lowAfter, hiter]
          split <;> split <;> omega
        refine ⟨hkeeps.tidy, ?_, fun _ => ?_⟩
        · dsimp only
          rw [note_given, ← hlow]
          exact hkeeps.pending h.pending
        · dsimp only
          rw [hiter]
          split <;> omega

/-- `nx` returns or throws, and gives what it has to. -/
theorem Between.nx (h : w.Between fd) {reaction : Reaction F} (hok : StepOk fd w (.nx reaction)) :
    ∃ w' result, w.step fd (.nx reaction) = .ok (w', some result) ∧ PollWorld.Between fd w' ∧ w.Gives result := by
  by_cases hend : w.poller.iter = -1
  · have hnone : w.record.ready = none := by
      by_contra hready
      have := h.nonneg hready
      omega
    refine ⟨⟨w.poller, { w.record with ready := none }⟩, .null, ?_, ?_, ?_⟩
    · rw [step, Poller.nx, if_pos hend]
      rfl
    · exact ⟨⟨h.tidy.aligned, h.tidy.distinct, h.tidy.le_capacity, h.tidy.capacity_le⟩, Pending.of_none rfl,
        fun hne => absurd rfl hne⟩
    · intro ready hready
      rw [hnone] at hready
      cases hready
  rcases next_rest h.tidy.nextIndex_le w.poller.iter.toNat with
    ⟨i, elem, hnext, hle, hlt, helem, hrevents, hbefore⟩ | ⟨hnext, hnone⟩
  · obtain ⟨p, hp⟩ : ∃ p, w.poller.pollables[i]? = some p :=
      ⟨_, List.getElem?_eq_getElem (h.tidy.aligned.1 ▸ hlt : i < w.poller.pollables.length)⟩
    obtain ⟨elem', helem', -, hevents⟩ := h.tidy.aligned.2 i p hp
    obtain rfl : elem = elem' := Option.some.inj (helem.symm.trans helem')
    have hpending : w.Pending w.record.given i :=
      h.pending.skip (by omega) fun k hk hki => hbefore k (by omega) (by omega)
    obtain ⟨m, called, log, hcall, hiter, hcalled⟩ : CallsBack fd ⟨{ w.poller with iter := i }, w.record⟩ i p
        (w.record.requested p) reaction :=
      (h.tidy.iter i).callsBack hp (hok i p hnext hp) hpending (hpending.give h.tidy hp rfl)
    cases called with
    | error e =>
      refine ⟨⟨m, w.record.notes log⟩, .thrown e, ?_, ⟨hcalled.1, ?_, ?_⟩, fun _ _ => trivial⟩
      · rw [step, Poller.nx, if_neg hend]
        simp only [hnext, helem, hp, hevents, bind, Except.bind] at hcall ⊢
        rw [hcall]
        rfl
      · dsimp only at hiter ⊢
        rw [notes_given, hiter]
        exact hcalled.2
      · intro _
        dsimp only at hiter ⊢
        omega
    | ok _ =>
      refine ⟨⟨{ m with iter := m.iter + 1 }, { (w.record.notes log).called w.poller p reaction with
        given := p :: ((w.record.notes log).called w.poller p reaction).given }⟩, .event p elem.revents, ?_,
        ⟨?_, ?_, ?_⟩, ?_⟩
      · rw [step, Poller.nx, if_neg hend]
        simp only [hnext, helem, hp, hevents, bind, Except.bind] at hcall ⊢
        rw [hcall]
        rfl
      · exact ⟨hcalled.1.aligned, hcalled.1.distinct, hcalled.1.le_capacity, hcalled.1.capacity_le⟩
      · dsimp only at hiter ⊢
        rw [called_given, notes_given, hiter]
        exact hcalled.2
      · intro _
        dsimp only at hiter ⊢
        omega
      · intro ready hready
        exact (hpending ready hready p).mpr ⟨i, elem, hp, helem, hrevents, Int.le_refl _⟩
  · refine ⟨⟨{ w.poller with iter := -1 }, { w.record with ready := none }⟩, .null, ?_, ?_, ?_⟩
    · rw [step, Poller.nx, if_neg hend]
      simp only [hnext, bind, Except.bind]
      rfl
    · exact ⟨⟨h.tidy.aligned, h.tidy.distinct, h.tidy.le_capacity, h.tidy.capacity_le⟩, Pending.of_none rfl,
        fun hne => absurd rfl hne⟩
    · intro ready hready q hq
      by_contra hgiven
      obtain ⟨k, elem, hk, helem, hrevents, hle⟩ := (h.pending ready hready q).mp ⟨hq, hgiven⟩
      exact hrevents (hnone k (by omega) (h.tidy.aligned.1.symm ▸ lt_of_getElem? hk) elem helem)

/-- A round of the loop of `waitAndProcess`, out of a pass. -/
theorem Between.check (h : w.Between fd) {reaction : Reaction F} (hok : StepOk fd w (.check reaction)) :
    ∃ w', w.step fd (.check reaction) = .ok (w', none) ∧ PollWorld.Between fd w' := by
  obtain ⟨hnone, hreaction⟩ := hok
  by_cases hround : 0 ≤ w.poller.iter ∧ w.poller.iter < w.poller.nextIndex
  · obtain ⟨i, hi⟩ := Int.eq_ofNat_of_zero_le hround.1
    have hlt : i < w.poller.pollables.length := by
      have := h.tidy.aligned.1
      omega
    obtain ⟨p, hp⟩ : ∃ p, w.poller.pollables[i]? = some p := ⟨_, List.getElem?_eq_getElem hlt⟩
    obtain ⟨elem, helem, -, hevents⟩ := h.tidy.aligned.2 i p hp
    obtain ⟨m, called, log, hcall, hiter, hcalled⟩ : CallsBack fd w i p (w.record.requested p) reaction :=
      h.tidy.callsBack hp (hreaction i p hi hp) (Pending.of_none hnone) (Pending.of_none hnone)
    have hplace : w.poller.iter.toNat = i := by omega
    have hready := notes_ready_none hnone log
    cases called with
    | error e =>
      refine ⟨⟨m, w.record.notes log⟩, ?_, hcalled.1, Pending.of_none hready, fun hne => absurd hready hne⟩
      rw [step, Poller.check, if_pos hround]
      simp only [hplace, helem, hp, hevents, hcall, bind, Except.bind]
      rfl
    | ok _ =>
      have hready' : ((w.record.notes log).called w.poller p reaction).ready = none :=
        (called_ready _ _ _).trans hready
      refine ⟨⟨{ m with iter := m.iter + 1 }, (w.record.notes log).called w.poller p reaction⟩, ?_,
        hcalled.1.iter _, Pending.of_none hready', fun hne => absurd hready' hne⟩
      rw [step, Poller.check, if_pos hround]
      simp only [hplace, helem, hp, hevents, hcall, bind, Except.bind]
      rfl
  · refine ⟨w, ?_, h⟩
    rw [step, Poller.check, if_neg hround]
    rfl

/-- The start of a pass, with what `poll` has found. -/
def polled (w : PollWorld F) (revents : Nat → BitVec 16) : PollWorld F where
  poller := { w.poller with
    iter := 0
    fds := w.poller.fds.mapIdx fun i elem =>
      if i < w.poller.nextIndex then { elem with revents := revents i } else elem }
  record := { w.record with
    ready := some ((List.range w.poller.nextIndex).filterMap fun i =>
      if revents i ≠ 0 then w.poller.pollables[i]? else none)
    given := [] }

omit [DecidableEq F] in
theorem polled_entry (w : PollWorld F) (revents : Nat → BitVec 16) {k : Nat} (hk : k < w.poller.nextIndex) :
    (w.polled revents).poller.fds[k]? = w.poller.fds[k]?.map fun elem => { elem with revents := revents k } := by
  rw [polled, List.getElem?_mapIdx]
  simp only [if_pos hk]

theorem Between.wait (h : w.Between fd) (revents : Nat → BitVec 16) :
    w.step fd (.wait revents) = .ok (w.polled revents, none) ∧ (w.polled revents).Between fd := by
  obtain ⟨hcount, hentry⟩ := h.tidy.aligned
  have hfound : ∀ (k : Nat) q, w.poller.pollables[k]? = some q → ∃ elem, w.poller.fds[k]? = some elem ∧
      (w.polled revents).poller.fds[k]? = some { elem with revents := revents k } := by
    intro k q hk
    obtain ⟨elem, he, -⟩ := hentry k q hk
    refine ⟨elem, he, ?_⟩
    rw [polled_entry w revents (hcount ▸ lt_of_getElem? hk), he]
    rfl
  refine ⟨?_, ⟨⟨hcount, fun k q hk => ?_⟩, h.tidy.distinct, h.tidy.le_capacity, ?_⟩, ?_, fun _ => Int.le_refl 0⟩
  · rw [PollWorld.step, Poller.wait, PollSet.poll, if_pos h.tidy.nextIndex_le]
    rfl
  · obtain ⟨elem, he, hfd, hevents⟩ := hentry k q hk
    obtain ⟨elem', he', hpolled⟩ := hfound k q hk
    obtain rfl := Option.some.inj (he.symm.trans he')
    exact ⟨_, hpolled, hfd, hevents⟩
  · rw [polled, List.length_mapIdx]
    exact h.tidy.capacity_le
  · intro ready hready q
    obtain rfl := Option.some.inj hready
    rw [List.mem_filterMap]
    constructor
    · rintro ⟨⟨k, hk, hq⟩, -⟩
      split at hq
      · next hne =>
        obtain ⟨elem, he, hpolled⟩ := hfound k q hq
        exact ⟨k, _, hq, hpolled, hne, Int.natCast_nonneg k⟩
      · cases hq
    · rintro ⟨k, elem, hk, he, hne, -⟩
      obtain ⟨old, hold, hpolled⟩ := hfound k q hk
      obtain rfl := Option.some.inj (hpolled.symm.trans he)
      refine ⟨⟨k, List.mem_range.mpr ?_, ?_⟩, List.not_mem_nil⟩
      · exact hcount ▸ lt_of_getElem? hk
      · rw [if_pos hne]
        exact hk

/-- A step that goes well. -/
theorem Between.step (h : w.Between fd) {s : PollStep F} (hok : StepOk fd w s) :
    ∃ w' result, w.step fd s = .ok (w', result) ∧ PollWorld.Between fd w' := by
  cases s with
  | call op =>
    obtain ⟨m, result, hcall, hbetween⟩ := h.call hok
    refine ⟨_, none, ?_, hbetween⟩
    simp only [PollWorld.step, hcall, bind, Except.bind]
    rfl
  | wait revents =>
    obtain ⟨hstep, hbetween⟩ := h.wait revents
    exact ⟨_, none, hstep, hbetween⟩
  | nx reaction =>
    obtain ⟨w', result, hstep, hbetween, -⟩ := h.nx hok
    exact ⟨w', some result, hstep, hbetween⟩
  | startCheck =>
    refine ⟨⟨{ w.poller with iter := 0 }, { w.record with ready := none }⟩, none, rfl, ?_, Pending.of_none rfl,
      fun hne => absurd rfl hne⟩
    exact ⟨h.tidy.aligned, h.tidy.distinct, h.tidy.le_capacity, h.tidy.capacity_le⟩
  | check reaction =>
    obtain ⟨w', hstep, hbetween⟩ := h.check hok
    exact ⟨w', none, hstep, hbetween⟩

omit [DecidableEq F] in
variable (fd) in
theorem between_init : Between fd (init : PollWorld F) := by
  refine ⟨⟨⟨rfl, fun i p hi => ?_⟩, List.nodup_nil, Nat.zero_le _, ?_⟩, Pending.of_none rfl, fun hne => absurd rfl hne⟩
  · cases hi
  · exact Nat.le_of_eq (List.length_replicate).symm

theorem Reached.between (h : Reached fd w) : w.Between fd := by
  induction h with
  | init => exact between_init fd
  | step _ hok hstep ih =>
    obtain ⟨w', result, hstep', hbetween⟩ := ih.step hok
    rw [hstep] at hstep'
    injection hstep' with heq
    injection heq with hw
    exact hw ▸ hbetween

/-- Whatever the poller was asked for in steps that go well, its entries are those of its
handles, it stays in its memory, and `nx` gives what it has to. -/
theorem aligned_and_gives_of_reached (h : Reached fd w) {s : PollStep F} (hok : StepOk fd w s) :
    w.Aligned fd ∧ ∃ w' result, w.step fd s = .ok (w', result) ∧ w'.Aligned fd ∧
      ∀ reaction, s = .nx reaction → ∃ r, result = some r ∧ w.Gives r := by
  refine ⟨h.between.tidy.aligned, ?_⟩
  obtain ⟨w', result, hstep, hbetween⟩ := h.between.step hok
  refine ⟨w', result, hstep, hbetween.tidy.aligned, ?_⟩
  rintro reaction rfl
  obtain ⟨w₁, r, hnx, -, hgives⟩ := h.between.nx hok
  rw [hstep] at hnx
  injection hnx with heq
  injection heq with _ hr
  exact ⟨r, hr, hgives⟩

set_option maxRecDepth 8000 in
/-- A pass over three handles. The callback of the first removes the last, adds one and changes its own events. -/
theorem register_wait_gives : ∃ w : PollWorld Int, w.record.ready = some [3, 4, 5] ∧ w.Aligned id ∧
    ∃ w' result, w.step id (.nx ⟨[.remove 5, .add 6 1], some 4⟩) = .ok (w', result) ∧ w'.Aligned id ∧
      ∀ reaction : Reaction Int, PollStep.nx ⟨[.remove 5, .add 6 1], some 4⟩ = .nx reaction → ∃ r, result = some r ∧ w.Gives r := by
  have hone : Short 1 := rfl
  have hfour : Short 4 := rfl
  have hroom : ∀ n < 4, n ≠ 256 := by omega
  have hregister : StepOk id (init : PollWorld Int) (.call (.register 3 1)) := fun _ => ⟨hone, hroom 0 (by decide)⟩
  have hfirst := Reached.step .init hregister (rfl : PollWorld.step id _ _ = .ok (_, none))
  have hsecond := Reached.step hfirst (s := .call (.add 4 1)) (fun _ => ⟨hone, hroom 1 (by decide)⟩)
    (rfl : PollWorld.step id _ (.call (.add 4 1)) = .ok (_, none))
  have hthird := Reached.step hsecond (s := .call (.add 5 1)) (fun _ => ⟨hone, hroom 2 (by decide)⟩)
    (rfl : PollWorld.step id _ (.call (.add 5 1)) = .ok (_, none))
  have hwaited := Reached.step hthird (s := .wait fun _ => 1) trivial (rfl : PollWorld.step id _ (.wait fun _ => 1) = .ok (_, none))
  refine ⟨_, rfl, aligned_and_gives_of_reached hwaited (s := .nx ⟨[.remove 5, .add 6 1], some 4⟩) ?_⟩
  rintro i p ⟨⟩ ⟨⟩ -
  refine ⟨⟨fun _ => ?_, ?_⟩, ?_⟩
  · exact (show (0 : Int) < 2 by decide)
  · rintro m result ⟨⟩
    exact ⟨fun _ => ⟨hone, hroom 2 (by decide)⟩, fun _ _ _ => trivial⟩
  · rintro events ⟨⟩
    refine ⟨hfour, ?_⟩
    rintro m log ⟨⟩ hevents
    exact absurd hevents (by decide)

set_option maxRecDepth 8000 in
/-- The callback of the first of three handles removes that handle; the second is skipped. -/
theorem callback_remove_skips : ∃ w ready,
    [.call (.register 3 1), .call (.add 4 1), .call (.add 5 1), .wait fun _ => 1, .nx ⟨[.remove 3], some 1⟩,
      .nx ⟨[], none⟩].foldlM (fun (w : PollWorld Int) s => Prod.fst <$> w.step id s) init = .ok w ∧
    w.record.ready = some ready ∧ 4 ∈ ready ∧ 4 ∉ w.record.given ∧
    Prod.snd <$> w.step id (.nx ⟨[], none⟩) = .ok (some .null) ∧ ¬ w.Gives .null := by
  refine ⟨_, _, rfl, rfl, ?_, ?_, rfl, ?_⟩
  · decide
  · decide
  · intro h
    exact absurd (h _ rfl 4 (by decide)) (by decide)

end Crack.PollWorld
