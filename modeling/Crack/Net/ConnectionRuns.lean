import Crack.Net.Connection
import Mathlib.Data.List.Count

/-!
# Runs of a connection

A connection is new until the poller gets it. Then it is live, with the socket that the poller
has, until it is terminated; after that the poller does not have it any more and it keeps
quiet.
-/
namespace Crack
namespace Comm

open ManagedBuffer

/-- A buffer to which the data can be added: it is small enough for its end to be written to, and its new size is a
`uint`. -/
def Room (b : ManagedBuffer) (data : List UInt8) : Prop :=
  (b.size < 2 ^ 31 ∨ data = []) ∧ b.size + data.length < 2 ^ 32

instance (b : ManagedBuffer) (data : List UInt8) : Decidable (Room b data) := inferInstanceAs (Decidable (_ ∧ _))

namespace World

variable {w w' : World} {e : PollEvent} {p sock : Nat} {data : List UInt8} {steps : List Step} {pollables : List Nat}

/-- The connection was neither connected nor closed before, and the poller does not have the socket. -/
def Fresh (w : World) (sock : Nat) : Prop := w.conn.sock = none ∧ w.conn.close = false ∧ sock ∉ w.pollables

instance (w : World) (sock : Nat) : Decidable (w.Fresh sock) := inferInstanceAs (Decidable (_ ∧ _ ∧ _))

/-- There is room for the data of a message, and a client that is to be connected is fresh. -/
def MeetsMessage (w : World) : Message → Prop
  | .sendData data => Room w.conn.outBuf data
  | .sendSync data _ => Room w.conn.outBuf data
  | .newClient sock => w.Fresh sock
  | _ => True

/-- The steps that go right. -/
def Meets (w : World) : Step → Prop
  | .poll p e => p ∈ w.callbacks ∧ e.revents.pollin = true → Room w.conn.inBuf (e.read.getD [])
  | .post (.sendData _) => w.conn.out = true
  | .close => w.conn.out = true
  | .message _ => ∀ m ∈ w.queue.head?, w.MeetsMessage m
  | .accept sock _ => w.conn.isClosed = false → w.Fresh sock
  | _ => True

/-- Every step goes right in the state that it is taken in. -/
def MeetsAll (w : World) : List Step → Prop
  | [] => True
  | step :: steps => w.Meets step ∧ match w.step step with
    | .ok w => w.MeetsAll steps
    | .error _ => True

instance decidableMeetsMessage (w : World) : (m : Message) → Decidable (w.MeetsMessage m)
  | .sendData data => inferInstanceAs (Decidable (Room w.conn.outBuf data))
  | .sendSync data _ => inferInstanceAs (Decidable (Room w.conn.outBuf data))
  | .stopClient => isTrue trivial
  | .newClient sock => inferInstanceAs (Decidable (w.Fresh sock))
  | .other => isTrue trivial

instance decidableMeets (w : World) : (step : Step) → Decidable (w.Meets step)
  | .poll p e => inferInstanceAs
    (Decidable (p ∈ w.callbacks ∧ e.revents.pollin = true → Room w.conn.inBuf (e.read.getD [])))
  | .post (.sendData _) => inferInstanceAs (Decidable (w.conn.out = true))
  | .post (.sendSync _ _) => isTrue trivial
  | .post .stopClient => isTrue trivial
  | .post (.newClient _) => isTrue trivial
  | .post .other => isTrue trivial
  | .close => inferInstanceAs (Decidable (w.conn.out = true))
  | .message _ => inferInstanceAs (Decidable (∀ m ∈ w.queue.head?, w.MeetsMessage m))
  | .accept sock _ => inferInstanceAs (Decidable (w.conn.isClosed = false → w.Fresh sock))
  | .associate => isTrue trivial
  | .addOther _ => isTrue trivial
  | .removeOther _ => isTrue trivial

instance decidableMeetsAll (w : World) : (steps : List Step) → Decidable (w.MeetsAll steps)
  | [] => isTrue trivial
  | step :: steps =>
    haveI : Decidable (match w.step step with
        | .ok w => w.MeetsAll steps
        | .error _ => True) :=
      match w.step step with
      | .ok w => decidableMeetsAll w steps
      | .error _ => isTrue trivial
    inferInstanceAs (Decidable (_ ∧ _))

/-- What was sent and what is to be sent are the data of the messages. -/
structure Ordered (w : World) : Prop where
  ordered : w.ran = w.sent ++ w.conn.outBuf.data
  outCap : w.conn.outBuf.size ≤ w.conn.outBuf.cap
  outSmall : w.conn.outBuf.size < 2 ^ 32
  inCap : w.conn.inBuf.size ≤ w.conn.inBuf.cap

/-- The poller does not have the connection. -/
structure New (w : World) : Prop where
  terminated : w.terminated = 0
  sock : w.conn.sock = none
  callbacks : w.callbacks = []

/-- The socket is there, and the poller has it once. -/
structure Live (w : World) (p : Nat) : Prop where
  terminated : w.terminated = 0
  close : w.conn.close = false
  sock : w.conn.sock = some p
  callbacks : w.callbacks = [p]
  registered : p ∈ w.pollables

/-- `terminate` was called, and the poller does not have the socket. -/
structure Dead (w : World) : Prop where
  terminated : w.terminated = 1
  close : w.conn.close = true
  sock : w.conn.sock = none
  callbacks : w.callbacks = []

def Alive (w : World) : Prop := w.New ∨ (∃ p, w.Live p) ∨ w.Dead

structure Kept (w : World) : Prop where
  ordered : w.Ordered
  alive : w.Alive

/-- Nothing was read, written or processed between two states. -/
structure Quiet (w w' : World) : Prop where
  sock : w'.conn.sock = none
  inBuf : w'.conn.inBuf = w.conn.inBuf
  sent : w'.sent = w.sent
  reads : w'.reads = w.reads
  processed : w'.processed = w.processed
  terminated : w'.terminated = w.terminated

theorem Live.removeFrom (h : w.Live p) (ho : w.Ordered) : w.removeFrom.Kept := by
  have hremove : w.removeFrom = { w with
      pollables := w.pollables.erase p
      callbacks := w.callbacks.erase p
      conn := { w.conn with close := true, sock := none }
      terminated := w.terminated + 1 } := by
    rw [World.removeFrom]
    simp only [h.sock, pollerRemove, if_pos h.registered]
  rw [hremove]
  refine ⟨⟨ho.ordered, ho.outCap, ho.outSmall, ho.inCap⟩, .inr (.inr ⟨?_, rfl, rfl, ?_⟩)⟩
  · exact congrArg (· + 1) h.terminated
  · change w.callbacks.erase p = []
    rw [h.callbacks, List.erase_cons_head]

/-- Without a socket there is nothing to remove. -/
theorem removeFrom_none (h : w.conn.sock = none) : w.removeFrom = { w with conn := { w.conn with close := true } } := by
  rw [World.removeFrom]
  simp only [h]

/-- Another `removeFrom` does nothing. -/
theorem Dead.removeFrom (h : w.Dead) : w.removeFrom = w := by
  rw [removeFrom_none h.sock]
  obtain ⟨⟨sock, close, out, owner, all, inBuf, outBuf⟩, pollables, callbacks, queue, ran, sent, reads, processed,
    terminated, responders⟩ := w
  obtain ⟨-, hclose, -, -⟩ := h
  change close = true at hclose
  subst hclose
  rfl

/-- The data of a message are added to the output. -/
theorem extend_room {b : ManagedBuffer} (h : b.size ≤ b.cap) (hroom : Room b data) :
    ∃ b', b.extend data = .ok b' ∧ b'.size ≤ b'.cap ∧ b'.size < 2 ^ 32 ∧ b'.data = b.data ++ data := by
  obtain ⟨b', he, hsize, hcap, hdata⟩ := extend_ok h hroom.1 hroom.2
  exact ⟨b', he, hcap, hsize ▸ hroom.2, hdata⟩

theorem Live.readInput (h : w.Live p) (ho : w.Ordered)
    (hroom : e.revents.pollin = true → Room w.conn.inBuf (e.read.getD [])) :
    ∃ w' ok, w.readInput e = .ok (w', ok) ∧ w'.Live p ∧ w'.Ordered := by
  have hsame : ({ w with reads := w.reads + 1 } : World).Live p ∧ ({ w with reads := w.reads + 1 } : World).Ordered :=
    ⟨⟨h.terminated, h.close, h.sock, h.callbacks, h.registered⟩, ⟨ho.ordered, ho.outCap, ho.outSmall, ho.inCap⟩⟩
  rw [World.readInput]
  by_cases hin : e.revents.pollin = true
  · rw [if_pos hin]
    have hfits := hroom hin
    match hread : e.read with
    | none => exact ⟨_, false, rfl, hsame⟩
    | some [] => exact ⟨_, false, rfl, hsame⟩
    | some (b :: data) =>
      rw [hread] at hfits
      change Room w.conn.inBuf (b :: data) at hfits
      obtain ⟨inBuf, he, hcap, -, -⟩ := extend_room ho.inCap hfits
      refine ⟨{ w with reads := w.reads + 1, conn := { w.conn with inBuf } }, true, ?_, ?_, ?_⟩
      · simp only [he]
        rfl
      · exact ⟨h.terminated, h.close, h.sock, h.callbacks, h.registered⟩
      · exact ⟨ho.ordered, ho.outCap, ho.outSmall, hcap⟩
  · rw [if_neg hin]
    exact ⟨w, true, rfl, h, ho⟩

/-- What `send` takes from the front of the buffer is sent. -/
theorem Live.sendOutput (h : w.Live p) (ho : w.Ordered) :
    ∃ w' ok, w.sendOutput e = .ok (w', ok) ∧ w'.Live p ∧ w'.Ordered := by
  rw [World.sendOutput]
  by_cases hout : e.revents.pollout = true
  · rw [if_pos hout]
    match e.send with
    | none => exact ⟨w, false, rfl, h, ho⟩
    | some rc =>
      have hrc := rc.isLt
      obtain ⟨outBuf, he, hsize, hcap, hdata⟩ := compact_ok
        (show min rc.val w.conn.outBuf.size ≤ _ from Nat.min_le_right _ _) ho.outCap (.inl (by omega)) ho.outSmall
      have hle := ho.outCap
      have hsmall := ho.outSmall
      refine ⟨{ w with
        sent := w.sent ++ w.conn.outBuf.data.take (min rc.val w.conn.outBuf.size)
        conn := { w.conn with outBuf } }, true, ?_, ?_, ⟨?_, ?_, ?_, ho.inCap⟩⟩
      · simp only [he]
        rfl
      · exact ⟨h.terminated, h.close, h.sock, h.callbacks, h.registered⟩
      · change w.ran = w.sent ++ w.conn.outBuf.data.take (min rc.val w.conn.outBuf.size) ++ outBuf.data
        rw [hdata, List.append_assoc, List.take_append_drop]
        exact ho.ordered
      · change outBuf.size ≤ outBuf.cap
        omega
      · change outBuf.size < 2 ^ 32
        omega
  · rw [if_neg hout]
    exact ⟨w, true, rfl, h, ho⟩

/-- Without a reason to close, the connection stays as it is. -/
theorem Live.finishCall (h : w.Live p) (ho : w.Ordered) : (w.finishCall e).2.Kept := by
  rw [World.finishCall]
  split
  · exact h.removeFrom ho
  · split
    · exact h.removeFrom ho
    · split
      · have hlive : (w.process e).Live p := ⟨h.terminated, h.close, h.sock, h.callbacks, h.registered⟩
        have hordered : (w.process e).Ordered := ⟨ho.ordered, ho.outCap, ho.outSmall, (e.process w.conn.inBuf).property⟩
        dsimp only
        rw [if_neg (by rw [hlive.close]; decide)]
        exact ⟨hordered, .inr (.inl ⟨p, hlive⟩)⟩
      · exact ⟨ho, .inr (.inl ⟨p, h⟩)⟩

theorem Live.call (h : w.Live p) (ho : w.Ordered) (q : Nat)
    (hroom : e.revents.pollin = true → Room w.conn.inBuf (e.read.getD [])) :
    ∃ events w', w.call q e = .ok (events, w') ∧ w'.Kept := by
  have hsock : w.conn.sock ≠ none := h.sock ▸ Option.some_ne_none _
  rw [World.call]
  simp only [if_neg hsock, h.close, Bool.false_eq_true, if_false]
  obtain ⟨w₁, ok₁, he₁, h₁, ho₁⟩ := h.readInput ho hroom
  simp only [he₁, bind, Except.bind]
  cases ok₁ with
  | false => exact ⟨_, _, rfl, h₁.removeFrom ho₁⟩
  | true =>
    obtain ⟨w₂, ok₂, he₂, h₂, ho₂⟩ := h₁.sendOutput (e := e) ho₁
    simp only [Bool.not_true, Bool.false_eq_true, if_false, he₂]
    cases ok₂ with
    | false => exact ⟨_, _, rfl, h₂.removeFrom ho₂⟩
    | true => exact ⟨_, _, rfl, h₂.finishCall ho₂⟩

/-- A fresh connection is live as soon as the poller has it. -/
theorem New.addTo (h : w.New) (ho : w.Ordered) (hfresh : w.Fresh sock) (e : PollEvent) :
    ∃ w', w.addTo sock e = .ok (w', true) ∧ w'.Live sock ∧ w'.Ordered := by
  obtain ⟨hnone, hclose, hnew⟩ := hfresh
  let w₁ : World := { w with conn := { w.conn with sock := some sock } }
  have hcall : w.call sock { e with revents := {} } = .ok (w₁.finishCall { e with revents := {} }) := by
    have hread : w₁.readInput { e with revents := {} } = .ok (w₁, true) := if_neg Bool.false_ne_true
    have hsend : w₁.sendOutput { e with revents := {} } = .ok (w₁, true) := if_neg Bool.false_ne_true
    rw [World.call, if_pos hnone]
    dsimp only
    rw [if_neg (by rw [hclose]; decide)]
    change (w₁.readInput { e with revents := {} } >>= _) = _
    rw [hread]
    change (w₁.sendOutput { e with revents := {} } >>= _) = _
    rw [hsend]
    rfl
  have hfinish : ∃ events w₂, w₁.finishCall { e with revents := {} } = (events, w₂) ∧ w₂.terminated = 0 ∧
      w₂.conn.close = false ∧ w₂.conn.sock = some sock ∧ w₂.callbacks = [] ∧ w₂.pollables = w.pollables ∧ w₂.Ordered := by
    rw [World.finishCall]
    simp only [Bool.false_eq_true, if_false, Bool.false_or]
    split
    · have hopen : ¬ (w₁.process { e with revents := {} }).conn.close = true := by
        change ¬ w.conn.close = true
        rw [hclose]
        decide
      rw [if_neg hopen]
      exact ⟨_, _, rfl, h.terminated, hclose, rfl, h.callbacks, rfl, ho.ordered, ho.outCap, ho.outSmall,
        (e.process w.conn.inBuf).property⟩
    · exact ⟨_, _, rfl, h.terminated, hclose, rfl, h.callbacks, rfl, ho.ordered, ho.outCap, ho.outSmall, ho.inCap⟩
  obtain ⟨events, w₂, he, hterminated, hopen, hsock, hcallbacks, hpollables, ho₂⟩ := hfinish
  refine ⟨{ w₂ with pollables := w₂.pollables ++ [sock], callbacks := w₂.callbacks ++ [sock] }, ?_,
    ⟨hterminated, hopen, hsock, ?_, ?_⟩, ⟨ho₂.ordered, ho₂.outCap, ho₂.outSmall, ho₂.inCap⟩⟩
  · rw [World.addTo, hcall, he]
    simp only [bind, Except.bind, pollerAdd, hpollables, if_neg hnew]
    rfl
  · change w₂.callbacks ++ [sock] = [sock]
    rw [hcallbacks, List.nil_append]
  · exact List.mem_append_right _ (List.mem_singleton_self _)

/-- A fresh connection is new: it has no socket, so that it is not live, and it isn't closed. -/
theorem Kept.fresh (h : w.Kept) (hfresh : w.Fresh sock) : w.New := by
  rcases h.alive with hnew | ⟨p, hlive⟩ | hdead
  · exact hnew
  · have hsock := hlive.sock
    rw [hfresh.1] at hsock
    cases hsock
  · have hclose := hdead.close
    rw [hfresh.2.1] at hclose
    cases hclose

/-- Once the connection is terminated nothing happens to it. -/
def Keeps (w w' : World) : Prop := w'.Kept ∧ (w.Dead → Quiet w w')

theorem Dead.quiet (h : w.Dead) : Quiet w w := ⟨h.sock, rfl, rfl, rfl, rfl, rfl⟩

section

variable (h : w.Kept)

include h

theorem Kept.keeps : Keeps w w := ⟨h, Dead.quiet⟩

/-- What else there is in the world has no influence on the connection. -/
theorem Kept.congr (hordered : w'.Ordered) (hterminated : w'.terminated = w.terminated)
    (hclose : w'.conn.close = w.conn.close) (hsock : w'.conn.sock = w.conn.sock) (hcallbacks : w'.callbacks = w.callbacks)
    (hpollables : ∀ p ∈ w.callbacks, p ∈ w.pollables → p ∈ w'.pollables) : w'.Kept := by
  refine ⟨hordered, ?_⟩
  rcases h.alive with hnew | ⟨p, hlive⟩ | hdead
  · exact .inl ⟨hterminated.trans hnew.terminated, hsock.trans hnew.sock, hcallbacks.trans hnew.callbacks⟩
  · refine .inr (.inl ⟨p, hterminated.trans hlive.terminated, hclose.trans hlive.close, hsock.trans hlive.sock,
      hcallbacks.trans hlive.callbacks, hpollables p ?_ hlive.registered⟩)
    rw [hlive.callbacks]
    exact List.mem_singleton_self p
  · exact .inr (.inr ⟨hterminated.trans hdead.terminated, hclose.trans hdead.close, hsock.trans hdead.sock,
      hcallbacks.trans hdead.callbacks⟩)

theorem Kept.removeFrom : Keeps w w.removeFrom := by
  have ho := h.ordered
  rcases h.alive with hnew | ⟨p, hlive⟩ | hdead
  · rw [removeFrom_none hnew.sock]
    refine ⟨⟨⟨ho.ordered, ho.outCap, ho.outSmall, ho.inCap⟩, .inl ⟨hnew.terminated, hnew.sock, hnew.callbacks⟩⟩, ?_⟩
    exact fun hdead => ⟨hdead.sock, rfl, rfl, rfl, rfl, rfl⟩
  · refine ⟨hlive.removeFrom ho, fun hdead => ?_⟩
    have hsock := hlive.sock
    rw [hdead.sock] at hsock
    cases hsock
  · rw [hdead.removeFrom]
    exact h.keeps

/-- The data of a message. -/
theorem Kept.ranData (hroom : Room w.conn.outBuf data) (responders : List Nat) :
    ∃ outBuf, w.conn.outBuf.extend data = .ok outBuf ∧
      Keeps w { w with responders, ran := w.ran ++ data, conn := { w.conn with outBuf } } := by
  have ho := h.ordered
  obtain ⟨outBuf, he, hcap, hsmall, hdata⟩ := extend_room ho.outCap hroom
  refine ⟨outBuf, he, h.congr ⟨?_, hcap, hsmall, ho.inCap⟩ rfl rfl rfl rfl fun _ _ => id, fun hdead => ?_⟩
  · change w.ran ++ data = w.sent ++ outBuf.data
    rw [hdata, ← List.append_assoc, ← ho.ordered]
  · exact ⟨hdead.sock, rfl, rfl, rfl, rfl, rfl⟩

theorem Kept.addTo (hfresh : w.Fresh sock) (e : PollEvent) :
    ∃ w', ({ w with conn := { w.conn with out := true } } : World).addTo sock e = .ok (w', true) ∧ Keeps w w' := by
  have ho := h.ordered
  have hnew := h.fresh hfresh
  have hnew' : ({ w with conn := { w.conn with out := true } } : World).New :=
    ⟨hnew.terminated, hnew.sock, hnew.callbacks⟩
  obtain ⟨w', he, hlive, ho'⟩ := hnew'.addTo ⟨ho.ordered, ho.outCap, ho.outSmall, ho.inCap⟩ hfresh e
  refine ⟨w', he, ⟨ho', .inr (.inl ⟨sock, hlive⟩)⟩, fun hdead => ?_⟩
  have hclose := hdead.close
  rw [hfresh.2.1] at hclose
  cases hclose

theorem Kept.runMessage {m : Message} (hmeets : w.MeetsMessage m) :
    ∃ w', w.runMessage e m = .ok w' ∧ Keeps w w' := by
  cases m with
  | sendData data =>
    obtain ⟨outBuf, he, hkeeps⟩ := h.ranData hmeets w.responders
    refine ⟨_, ?_, hkeeps⟩
    rw [World.runMessage, he]
    rfl
  | sendSync data waiter =>
    obtain ⟨outBuf, he, hkeeps⟩ := h.ranData hmeets (w.responders ++ [waiter])
    refine ⟨_, ?_, hkeeps⟩
    rw [World.runMessage, he]
    rfl
  | stopClient => exact ⟨_, rfl, h.removeFrom⟩
  | newClient sock =>
    obtain ⟨w', he, hkeeps⟩ := h.addTo hmeets e
    refine ⟨w', ?_, hkeeps⟩
    rw [World.runMessage, World.newClient, he]
    rfl
  | other => exact ⟨w, rfl, h.keeps⟩

theorem Kept.poll (hmem : p ∈ w.callbacks) (hroom : e.revents.pollin = true → Room w.conn.inBuf (e.read.getD [])) :
    ∃ events w', w.call p e = .ok (events, w') ∧ Keeps w w' := by
  have hnone {w : World} (hcallbacks : w.callbacks = []) : p ∉ w.callbacks := hcallbacks ▸ List.not_mem_nil
  rcases h.alive with hnew | ⟨q, hlive⟩ | hdead
  · exact absurd hmem (hnone hnew.callbacks)
  · obtain ⟨events, w', he, hkept⟩ := hlive.call h.ordered p hroom
    exact ⟨events, w', he, hkept, fun hdead => absurd hmem (hnone hdead.callbacks)⟩
  · exact absurd hmem (hnone hdead.callbacks)

/-- A queue, a control channel or an owner that changes. -/
theorem Kept.queued (queue : List Message) (out : Bool) (owner : Option Nat) :
    Keeps w { w with queue, conn := { w.conn with out, owner } } := by
  have ho := h.ordered
  refine ⟨h.congr ⟨ho.ordered, ho.outCap, ho.outSmall, ho.inCap⟩ rfl rfl rfl rfl fun _ _ => id, fun hdead => ?_⟩
  exact ⟨hdead.sock, rfl, rfl, rfl, rfl, rfl⟩

/-- Other pollables come and go. -/
theorem Kept.others (hpollables : ∀ p ∈ w.callbacks, p ∈ w.pollables → p ∈ pollables) :
    Keeps w { w with pollables } := by
  have ho := h.ordered
  refine ⟨h.congr ⟨ho.ordered, ho.outCap, ho.outSmall, ho.inCap⟩ rfl rfl rfl rfl hpollables, fun hdead => ?_⟩
  exact ⟨hdead.sock, rfl, rfl, rfl, rfl, rfl⟩

theorem Kept.step {step : Step} (hmeets : w.Meets step) : ∃ w', w.step step = .ok w' ∧ Keeps w w' := by
  cases step with
  | poll p e =>
    by_cases hmem : p ∈ w.callbacks
    · obtain ⟨events, w', he, hkeeps⟩ := h.poll hmem fun hin => hmeets ⟨hmem, hin⟩
      refine ⟨w', ?_, hkeeps⟩
      simp only [World.step, if_pos hmem, he]
      rfl
    · refine ⟨w, ?_, h.keeps⟩
      simp only [World.step, if_neg hmem]
      rfl
  | post m =>
    have hposted := h.queued (w.queue ++ [m]) w.conn.out w.conn.owner
    cases m with
    | sendData data => exact ⟨_, if_pos hmeets, hposted⟩
    | sendSync data waiter =>
      by_cases hout : w.conn.out = true
      · exact ⟨_, if_pos hout, hposted⟩
      · exact ⟨_, if_neg hout, h.keeps⟩
    | stopClient => exact ⟨_, rfl, hposted⟩
    | newClient sock => exact ⟨_, rfl, hposted⟩
    | other => exact ⟨_, rfl, hposted⟩
  | close => exact ⟨_, if_pos hmeets, h.queued _ w.conn.out none⟩
  | message e =>
    cases hqueue : w.queue with
    | nil =>
      refine ⟨w, ?_, h.keeps⟩
      simp only [World.step, hqueue]
    | cons m queue =>
      obtain ⟨hkept, hquiet⟩ := h.queued queue w.conn.out w.conn.owner
      have hmeets' : ({ w with queue } : World).MeetsMessage m := by
        have hhead : w.MeetsMessage m := hmeets m (by rw [hqueue]; rfl)
        cases m with
        | sendData data => exact hhead
        | sendSync data waiter => exact hhead
        | stopClient => trivial
        | newClient sock => exact hhead
        | other => trivial
      obtain ⟨w', he, hkept', hquiet'⟩ := hkept.runMessage (e := e) hmeets'
      refine ⟨w', ?_, hkept', fun hdead => ?_⟩
      · simp only [World.step, hqueue]
        exact he
      · have hmore := hquiet' ⟨hdead.terminated, hdead.close, hdead.sock, hdead.callbacks⟩
        exact ⟨hmore.sock, hmore.inBuf, hmore.sent, hmore.reads, hmore.processed, hmore.terminated⟩
  | accept sock e =>
    by_cases hclosed : w.conn.isClosed = true
    · refine ⟨_, ?_, h.queued w.queue true w.conn.owner⟩
      rw [World.step, World.accept]
      exact if_pos hclosed
    · obtain ⟨w', he, hkeeps⟩ := h.addTo (hmeets (Bool.eq_false_iff.mpr hclosed)) e
      refine ⟨w', ?_, hkeeps⟩
      rw [World.step, World.accept]
      refine (if_neg hclosed).trans ?_
      rw [he]
      rfl
  | associate => exact ⟨_, rfl, h.queued w.queue true w.conn.owner⟩
  | addOther p =>
    by_cases hp : p ∈ w.pollables
    · refine ⟨w, ?_, h.keeps⟩
      simp only [World.step, pollerAdd, if_pos hp]
    · refine ⟨{ w with pollables := w.pollables ++ [p] }, ?_, h.others fun q _ hq => List.mem_append_left _ hq⟩
      simp only [World.step, pollerAdd, if_neg hp]
  | removeOther p =>
    by_cases hmine : p ∈ w.callbacks
    · exact ⟨w, if_pos hmine, h.keeps⟩
    · by_cases hp : p ∈ w.pollables
      · have hothers := h.others fun q hq hin => (List.mem_erase_of_ne fun heq : q = p => hmine (heq ▸ hq)).mpr hin
        refine ⟨{ w with pollables := w.pollables.erase p }, ?_, hothers⟩
        simp only [World.step, if_neg hmine, pollerRemove, if_pos hp, List.erase_of_not_mem hmine]
      · refine ⟨w, ?_, h.keeps⟩
        simp only [World.step, if_neg hmine, pollerRemove, if_neg hp]

omit h in
theorem Quiet.trans {w₁ : World} (h : Quiet w w₁) (h' : Quiet w₁ w') : Quiet w w' :=
  ⟨h'.sock, h'.inBuf.trans h.inBuf, h'.sent.trans h.sent, h'.reads.trans h.reads, h'.processed.trans h.processed,
    h'.terminated.trans h.terminated⟩

theorem Kept.dead (hterminated : 0 < w.terminated) : w.Dead := by
  rcases h.alive with hnew | ⟨p, hlive⟩ | hdead
  · exact absurd hnew.terminated (Nat.ne_of_gt hterminated)
  · exact absurd hlive.terminated (Nat.ne_of_gt hterminated)
  · exact hdead

/-- The steps of a run, one by one. -/
theorem Kept.run {steps : List Step} (hmeets : w.MeetsAll steps) : ∃ w', w.run steps = .ok w' ∧ Keeps w w' := by
  induction steps generalizing w with
  | nil => exact ⟨w, rfl, h.keeps⟩
  | cons step steps ih =>
    obtain ⟨hfirst, hrest⟩ := hmeets
    obtain ⟨w₁, he₁, hkept₁, hquiet₁⟩ := h.step hfirst
    rw [he₁] at hrest
    obtain ⟨w', he, hkept, hquiet⟩ := ih hkept₁ hrest
    refine ⟨w', ?_, hkept, fun hdead => ?_⟩
    · rw [World.run, List.foldlM_cons, he₁]
      exact he
    · have hfirst := hquiet₁ hdead
      exact hfirst.trans (hquiet (hkept₁.dead (by rw [hfirst.terminated, hdead.terminated]; exact Nat.one_pos)))

end

theorem init_kept (blockSize : Nat) (pollables : List Nat) (owner : Option Nat) (processAllEvents : Bool) :
    (init blockSize pollables owner processAllEvents).Kept := by
  refine ⟨⟨?_, Nat.zero_le _, Nat.two_pow_pos 32, Nat.zero_le _⟩, .inl ⟨rfl, rfl, rfl⟩⟩
  rfl

/-- In every run whose steps go right the bytes that were sent are the first ones of the data of the messages,
`terminate` is called at most once, and then there is no socket and nothing is read, sent or processed any more. -/
theorem connection_safe {blockSize : Nat} {owner : Option Nat} {processAllEvents : Bool} {steps : List Step}
    (h : (init blockSize pollables owner processAllEvents).MeetsAll steps) :
    ∃ w, (init blockSize pollables owner processAllEvents).run steps = .ok w ∧
      w.sent <+: w.ran ∧ w.ran = w.sent ++ w.conn.outBuf.data ∧ w.terminated ≤ 1 ∧
      (w.terminated = 1 → w.conn.sock = none ∧ ∀ more, w.MeetsAll more → ∃ w', w.run more = .ok w' ∧ Quiet w w') := by
  obtain ⟨w, he, hkept, -⟩ := (init_kept blockSize pollables owner processAllEvents).run h
  refine ⟨w, he, ⟨_, hkept.ordered.ordered.symm⟩, hkept.ordered.ordered, ?_, fun hterminated => ?_⟩
  · rcases hkept.alive with hnew | ⟨p, hlive⟩ | hdead
    · exact Nat.le_of_eq hnew.terminated |>.trans (Nat.zero_le 1)
    · exact Nat.le_of_eq hlive.terminated |>.trans (Nat.zero_le 1)
    · exact Nat.le_of_eq hdead.terminated
  · have hdead := hkept.dead (hterminated ▸ Nat.one_pos)
    refine ⟨hdead.sock, fun more hmore => ?_⟩
    obtain ⟨w', he', -, hquiet⟩ := hkept.run hmore
    exact ⟨w', he', hquiet hdead⟩

/-- Two messages, of which the second one is cut off by a hang-up behind a partial `send`. -/
theorem hung_up_safe :
    let steps : List Step := [.post (.newClient 5), .message {}, .post (.sendData [1, 2]), .close, .post (.sendData [3]),
      .message {}, .poll 5 { revents := { pollin := true }, read := some [7, 8] },
      .poll 5 { revents := { pollout := true, pollhup := true }, send := some ⟨1, by decide⟩ }, .message {}, .message {}]
    ∃ w, (init 1 [4] none false).run steps = .ok w ∧
      w.sent <+: w.ran ∧ w.ran = w.sent ++ w.conn.outBuf.data ∧ w.terminated ≤ 1 ∧
      (w.terminated = 1 → w.conn.sock = none ∧ ∀ more, w.MeetsAll more → ∃ w', w.run more = .ok w' ∧ Quiet w w') :=
  connection_safe (by decide +kernel)

/-- A connection that is connected, closed and connected again: the second socket is removed as soon as the poller
calls the connection for it. -/
theorem reconnected_terminated_twice :
    ∃ w, (init 1 [4] none false).run [.post (.newClient 5), .message {}, .close, .message {}, .post (.newClient 6),
      .message {}] = .ok w ∧ ¬ w.terminated ≤ 1 :=
  ⟨_, rfl, by decide⟩

end World
end Comm
end Crack
