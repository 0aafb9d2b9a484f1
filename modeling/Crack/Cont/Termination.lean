import Crack.Cont.HashMap
import Crack.Cont.OrderedHashMap

/-!
# The probe loops end

The probe loops have no counter. They end because the table always keeps an empty
slot, whatever the hash function and the equality of the keys are. An operation
keeps it that way when it makes room in time.
-/
namespace Crack

open Probing (live FirstStop)

section

variable {α K : Type} [BEq K] {view : ItemView α K} {cap size : Nat} {items : Nat → Option α}

/-- A positive capacity and an empty slot, with which all probe loops end. -/
structure ProbesEnd (view : ItemView α K) (cap : Nat) (items : Nat → Option α) : Prop where
  pos : 0 < cap
  empty : ∃ i < cap, items i = none
  findSlot : ∀ hash key, ∃ i < cap, findSlot view cap items hash key = .ok i
  shift : ∀ i < cap, items i ≠ none →
    ∃ items', findNewOccupant view cap (Function.update items i none) i = .ok items'

theorem Sound.probesEnd (h : Sound view cap size items) : ProbesEnd view cap items := by
  refine ⟨h.pos, h.exists_empty, fun hash key => ?_, fun i hi hne => ?_⟩
  · obtain ⟨i, he, hf⟩ := h.findSlot_ok hash key
    exact ⟨i, hf.1, he⟩
  · obtain ⟨x, hx⟩ := Option.ne_none_iff_exists'.mp hne
    obtain ⟨items', he, _⟩ := h.remove hi hx
    exact ⟨items', he⟩

/-- A capacity that `clear` can be called with. -/
def CapacityOk (newcap : Nat) : Prop := 0 < newcap ∧ newcap ≤ 2 ^ 31

end

namespace HashMap

variable {K V : Type} [BEq K] [ToString K]

inductive Op (K V : Type) where
  | update (u : Update K V)
  | clear (newcap : Nat)
  deriving DecidableEq, Repr

def step (makeHashVal : K → Nat) (m : HashMap K V) : Op K V → Except Fault (HashMap K V × Except Exc (Option V))
  | .update u => update makeHashVal m u
  | .clear newcap => return (m.clear newcap, .ok none)

def steps (makeHashVal : K → Nat) (m : HashMap K V) : List (Op K V) → Except Fault (HashMap K V)
  | [] => return m
  | op :: ops => do
    let (m, _) ← step makeHashVal m op
    steps makeHashVal m ops

/-- The operation leaves an empty slot: a new key is stored where there is room,
and the table is cleared to a capacity that it can have. -/
def LeavesRoom (makeHashVal : K → Nat) (m : HashMap K V) : Op K V → Prop
  | .update (.set key _) =>
    (∃ i, findSlot makeHashVal m key = .ok i ∧ m.items i = none) → RoomFor m.cap m.size
  | .update (.delete _) => True
  | .clear newcap => CapacityOk newcap

def AllLeaveRoom (makeHashVal : K → Nat) : HashMap K V → List (Op K V) → Prop
  | _, [] => True
  | m, op :: ops => LeavesRoom makeHashVal m op ∧
      ∀ m' r, step makeHashVal m op = .ok (m', r) → AllLeaveRoom makeHashVal m' ops

variable {makeHashVal : K → Nat} {m : HashMap K V}

theorem step_sound (h : Sound view m.cap m.size m.items) (op : Op K V) (hop : LeavesRoom makeHashVal m op) :
    ∃ m' r, step makeHashVal m op = .ok (m', r) ∧ Sound view m'.cap m'.size m'.items := by
  cases op with
  | clear newcap => exact ⟨_, _, rfl, Sound.empty hop.1 hop.2⟩
  | update u =>
    cases u with
    | set key val =>
      obtain ⟨i, he, hf⟩ := h.findSlot_ok (makeHashVal key) key
      have hs := slotItem_ok h hf.1
      cases hit : m.items i with
      | some x =>
        refine ⟨{ m with items := Function.update m.items i (some { x with val }) }, .ok (some val), ?_,
          h.replace hf.1 hit rfl⟩
        simp only [step, update, set, findSlot, he, hs, hit, bind, Except.bind, pure, Except.pure]
        rfl
      | none =>
        rcases makeRoom_ok h (hop ⟨i, he, hit⟩) hf with ⟨e, _, _, hmr⟩ | ⟨cap', items', slot', hmr, hs', hlt, hf', _⟩
        · refine ⟨m, .error e, ?_, h⟩
          simp only [step, update, set, findSlot, he, hs, hit, hmr, bind, Except.bind, pure, Except.pure]
          rfl
        · refine ⟨⟨Function.update items' slot' (some ⟨makeHashVal key, key, val⟩), m.size + 1, cap'⟩,
            .ok (some val), ?_, hs'.store hlt hf'⟩
          simp only [step, update, set, findSlot, he, hs, hit, hmr, h.uint_succ, bind, Except.bind, pure, Except.pure]
          rfl
    | delete key =>
      obtain ⟨i, he, hf⟩ := h.findSlot_ok (makeHashVal key) key
      have hs := slotItem_ok h hf.1
      cases hit : m.items i with
      | some x =>
        obtain ⟨items', hfn, hpos, hs', _⟩ := h.remove hf.1 hit
        refine ⟨⟨items', m.size - 1, m.cap⟩, .ok none, ?_, hs'⟩
        simp only [step, update, delete, findSlot, he, hs, hit, hfn, h.uint_pred hpos, bind, Except.bind, pure,
          Except.pure]
        rfl
      | none =>
        refine ⟨m, .error (unknownKey key), ?_, h⟩
        simp only [step, update, delete, findSlot, he, hs, hit, bind, Except.bind, pure, Except.pure]
        rfl

theorem steps_sound (ops : List (Op K V)) (h : Sound view m.cap m.size m.items)
    (hops : AllLeaveRoom makeHashVal m ops) :
    ∃ m', steps makeHashVal m ops = .ok m' ∧ Sound view m'.cap m'.size m'.items := by
  induction ops generalizing m with
  | nil => exact ⟨m, rfl, h⟩
  | cons op ops ih =>
    obtain ⟨m₁, r, he₁, h₁⟩ := step_sound h op hops.1
    obtain ⟨m₂, he₂, h₂⟩ := ih h₁ (hops.2 m₁ r he₁)
    exact ⟨m₂, by rw [steps, he₁]; exact he₂, h₂⟩

end HashMap

namespace OrderedHashMap

variable {K V : Type} [BEq K] [ToString K]

inductive Op (K V : Type) where
  | update (u : Update K V)
  | clear (newcap : Nat)
  deriving DecidableEq, Repr

def step (makeHashVal : K → Nat) (m : OrderedHashMap K V) :
    Op K V → Except Fault (OrderedHashMap K V × Except Exc (Option K))
  | .update u => update makeHashVal m u
  | .clear newcap => return (m.clear newcap, .ok none)

def steps (makeHashVal : K → Nat) (m : OrderedHashMap K V) : List (Op K V) → Except Fault (OrderedHashMap K V)
  | [] => return m
  | op :: ops => do
    let (m, _) ← step makeHashVal m op
    steps makeHashVal m ops

/-- A new item of the key can be stored. -/
def RoomForKey (makeHashVal : K → Nat) (m : OrderedHashMap K V) (key : K) : Prop :=
  (∃ i, findSlot m (makeHashVal key) key = .ok i ∧ m.items i = none) → RoomFor m.cap m.size

def LeavesRoom (makeHashVal : K → Nat) (m : OrderedHashMap K V) : Op K V → Prop
  | .update (.append key _) | .update (.pushHead key _) => RoomForKey makeHashVal m key
  | .update (.insert index key _) => index ≤ m.size → RoomForKey makeHashVal m key
  | .clear newcap => CapacityOk newcap
  | _ => True

def AllLeaveRoom (makeHashVal : K → Nat) : OrderedHashMap K V → List (Op K V) → Prop
  | _, [] => True
  | m, op :: ops => LeavesRoom makeHashVal m op ∧
      ∀ m' r, step makeHashVal m op = .ok (m', r) → AllLeaveRoom makeHashVal m' ops

variable {makeHashVal : K → Nat} {m : OrderedHashMap K V} {m' : OrderedHashMap K V} {key : K}

section

omit [BEq K] [ToString K]

/-- A sound table is left behind, unless null is dereferenced on the way. -/
def Ends {β : Type} (r : Except Fault (OrderedHashMap K V × Except Exc β)) : Prop :=
  r = .error .nullDereference ∨ ∃ m' b, r = .ok (m', b) ∧ Sound view m'.cap m'.size m'.items

theorem Ends.of_ok {β : Type} {m : OrderedHashMap K V} (h : Sound view m.cap m.size m.items) (b : Except Exc β) :
    Ends (.ok (m, b)) := .inr ⟨m, b, rfl, h⟩

theorem Ends.map {β γ : Type} {r : Except Fault (OrderedHashMap K V × Except Exc β)} (h : Ends r)
    (f : Except Exc β → Except Exc γ) : Ends (do let (m, b) ← r; return (m, f b)) := by
  rcases h with h | ⟨m', b, h, hs⟩
  · exact .inl (by rw [h]; rfl)
  · exact .inr ⟨m', f b, by rw [h]; rfl, hs⟩

end

omit [ToString K] in
/-- Storing after the list of `m` has been changed, into the slot found before. -/
theorem setItemNew_ends (ht : SameTable m m') (h : Sound view m.cap m.size m.items) (hroom : RoomFor m.cap m.size)
    {slot : Nat} {item : Item K} (hf : FirstStop m.cap (stops view m.items item.key) (item.hash % m.cap) slot) :
    Ends (setItemNew m' slot item) := by
  have h' := ht.sound h
  rw [← ht.cap, ← ht.items] at hf
  rw [← ht.cap, ← ht.size] at hroom
  rcases makeRoom_ok h' hroom hf with ⟨e, _, _, hmr⟩ | ⟨cap', items', slot', hmr, hs', hlt, hf', _⟩
  · refine .inr ⟨m', .error e, ?_, h'⟩
    simp only [setItemNew, hmr, bind, Except.bind, pure, Except.pure]
  · refine .inr ⟨{ m' with cap := cap', items := Function.update items' slot' (some item), size := m'.size + 1 },
      .ok (), ?_, hs'.store hlt hf'⟩
    simp only [setItemNew, hmr, h'.uint_succ, bind, Except.bind, pure, Except.pure]

theorem deleteHash_ends (ht : SameTable m m') (h : Sound view m.cap m.size m.items) (key : K) :
    Ends (deleteHash m' makeHashVal key) := by
  have h' := ht.sound h
  obtain ⟨i, he, hf⟩ := h'.findSlot_ok (makeHashVal key) key
  have hs := slotItem_ok h' hf.1
  cases hit : m'.items i with
  | some x =>
    obtain ⟨items', hfn, hpos, hs', _⟩ := h'.remove hf.1 hit
    refine .inr ⟨{ m' with items := items', size := m'.size - 1 }, .ok (), ?_, hs'⟩
    simp only [deleteHash, findSlot, he, hs, hit, hfn, h'.uint_pred hpos, bind, Except.bind, pure, Except.pure]
  | none =>
    refine .inr ⟨m', .error (.keyError ("Unknown key: " ++ toString key)), ?_, h'⟩
    simp only [deleteHash, findSlot, he, hs, hit, bind, Except.bind, pure, Except.pure]

omit [ToString K] in
theorem append_ends (h : Sound view m.cap m.size m.items) (hroom : RoomForKey makeHashVal m key) (value : V) :
    Ends (append m makeHashVal key value) := by
  obtain ⟨i, he, hf⟩ := h.findSlot_ok (makeHashVal key) key
  have hs := slotItem_ok h hf.1
  cases hit : m.items i with
  | some temp =>
    rw [hit] at hs
    rw [append_present he hs]
    exact .of_ok (m := m.setVal temp value) h _
  | none =>
    rw [hit] at hs
    rw [append_absent he hs]
    exact (setItemNew_ends linkTail_table h (hroom ⟨i, he, hit⟩) hf).map _

section

variable (h : Sound view m.cap m.size m.items)

include h

theorem pushHead_ends (hroom : RoomForKey makeHashVal m key) (value : V) :
    Ends (pushHead m makeHashVal key value) := by
  obtain ⟨i, he, hf⟩ := h.findSlot_ok (makeHashVal key) key
  have hs := slotItem_ok h hf.1
  cases hit : m.items i with
  | some temp =>
    rw [hit] at hs
    rw [pushHead_present he hs]
    split
    · exact .of_ok (m := m.setVal temp value) h _
    · exact .of_ok h _
  | none =>
    rw [hit] at hs
    rw [pushHead_absent he hs]
    exact (setItemNew_ends linkHead_table h (hroom ⟨i, he, hit⟩) hf).map _

theorem insert_ends {index : Nat} (hroom : index ≤ m.size → RoomForKey makeHashVal m key) (value : V) :
    Ends (insert m makeHashVal index key value) := by
  by_cases h0 : index = 0
  · unfold insert
    rw [if_pos h0]
    exact (pushHead_ends h (hroom (by omega)) value).map _
  by_cases hi : index ≤ m.size
  · cases hfi : m.findItem (index - 1) with
    | error e =>
      unfold insert
      rw [if_neg h0, if_neg (Nat.not_lt.mpr hi), hfi]
      exact .of_ok h _
    | ok item =>
      obtain ⟨i, he, hf⟩ := h.findSlot_ok (makeHashVal key) key
      have hs := slotItem_ok h hf.1
      cases hit : m.items i with
      | some temp =>
        rw [hit] at hs
        rw [insert_present he h0 hi hfi hs]
        split
        · exact .of_ok (m := m.setVal temp value) h _
        · exact .of_ok h _
      | none =>
        rw [hit] at hs
        rw [insert_absent he h0 hi hfi hs]
        split
        · exact .inl rfl
        · exact setItemNew_ends linkAfter_table h (hroom hi ⟨i, he, hit⟩) hf
  · unfold insert
    rw [if_neg h0, if_pos (Nat.lt_of_not_le hi)]
    exact .of_ok h _

theorem popHead_ends : Ends (popHead m makeHashVal) := by
  unfold popHead
  split
  · exact .of_ok h _
  · exact (deleteHash_ends unlinkHead_table h _).map _

theorem popTail_ends : Ends (popTail m makeHashVal) := by
  unfold popTail
  split
  · exact .of_ok h _
  · exact (deleteHash_ends unlinkTail_table h _).map _

theorem deleteKey_ends (key : K) : Ends (deleteKey m makeHashVal key) := by
  obtain ⟨i, he, hf⟩ := h.findSlot_ok (makeHashVal key) key
  unfold deleteKey findSlot
  simp only [he, slotItem_ok h hf.1, bind, Except.bind]
  cases m.items i with
  | none => exact .of_ok h _
  | some item =>
    simp only
    split
    · exact (popTail_ends h).map _
    · split
      · exact (popHead_ends h).map _
      · split
        · exact deleteHash_ends unlinkBetween_table h _
        · exact .inl rfl

theorem delete_ends (index : Nat) : Ends (delete m makeHashVal index) := by
  unfold delete
  split
  · split
    · exact .of_ok h _
    · split
      · exact .of_ok h _
      · split
        · exact .inl rfl
        · exact deleteHash_ends unlinkAfter_table h _
  · split
    · exact .of_ok h _
    · exact (popHead_ends h).map _

theorem step_ends (op : Op K V) (hop : LeavesRoom makeHashVal m op) : Ends (step makeHashVal m op) := by
  cases op with
  | clear newcap => exact .of_ok (m := m.clear newcap) (Sound.empty hop.1 hop.2) _
  | update u =>
    cases u with
    | append key value => exact (append_ends h hop value).map _
    | pushHead key value => exact (pushHead_ends h hop value).map _
    | insert index key value => exact (insert_ends h hop value).map _
    | popHead => exact (popHead_ends h).map _
    | popTail => exact (popTail_ends h).map _
    | deleteKey key => exact (deleteKey_ends h key).map _
    | delete index => exact (delete_ends h index).map _

end

/-- A run ends with a sound table, or it has dereferenced null. -/
theorem steps_ends (ops : List (Op K V)) (h : Sound view m.cap m.size m.items)
    (hops : AllLeaveRoom makeHashVal m ops) :
    steps makeHashVal m ops = .error .nullDereference ∨
      ∃ m', steps makeHashVal m ops = .ok m' ∧ Sound view m'.cap m'.size m'.items := by
  induction ops generalizing m with
  | nil => exact .inr ⟨m, rfl, h⟩
  | cons op ops ih =>
    rcases step_ends h op hops.1 with he | ⟨m₁, r, he, h₁⟩
    · exact .inl (by rw [steps, he]; rfl)
    · rcases ih h₁ (hops.2 m₁ r he) with hs | ⟨m₂, hs, h₂⟩
      · exact .inl (by rw [steps, he]; exact hs)
      · exact .inr ⟨m₂, by rw [steps, he]; exact hs, h₂⟩

end OrderedHashMap

/-- In every state that operations which leave room lead to, the table of a
`HashMap` or `OrderedHashMap` has an empty slot, and none of its loops goes on
forever or computes a slot modulo zero. -/
theorem probe_loops_end {K V : Type} [BEq K] [ToString K] (makeHashVal : K → Nat) :
    (∀ ops : List (HashMap.Op K V), HashMap.AllLeaveRoom makeHashVal .init ops →
      ∃ m, HashMap.steps makeHashVal .init ops = .ok m ∧ ProbesEnd HashMap.view m.cap m.items) ∧
    ∀ ops : List (OrderedHashMap.Op K V), OrderedHashMap.AllLeaveRoom makeHashVal .init ops →
      OrderedHashMap.steps makeHashVal .init ops = .error .nullDereference ∨
        ∃ m, OrderedHashMap.steps makeHashVal .init ops = .ok m ∧
          ProbesEnd OrderedHashMap.view m.cap m.items := by
  constructor
  · intro ops hops
    obtain ⟨m, he, hs⟩ := HashMap.steps_sound ops (Sound.empty (by simp [HashMap.init]) (by simp [HashMap.init])) hops
    exact ⟨m, he, hs.probesEnd⟩
  · intro ops hops
    rcases OrderedHashMap.steps_ends ops
      (Sound.empty (by simp [OrderedHashMap.init]) (by simp [OrderedHashMap.init])) hops with he | ⟨m, he, hs⟩
    · exact .inl he
    · exact .inr ⟨m, he, hs.probesEnd⟩

theorem few_leave_room :
    HashMap.AllLeaveRoom (fun k : Nat => k) .init [.clear 5, .update (.set 7 1), .update (.delete 7)] ∧
      OrderedHashMap.AllLeaveRoom (fun k : Nat => k) .init [.clear 5, .update (.append 7 1), .update .popHead] := by
  have hcap : CapacityOk 5 := ⟨by decide, by decide⟩
  have hroom : RoomFor 5 0 := by
    unfold RoomFor
    rw [if_neg (by decide)]
    exact .inl (Nat.le_refl 5)
  constructor
  · refine ⟨hcap, fun m r he => ?_⟩
    cases he
    refine ⟨fun _ => hroom, fun m r he => ?_⟩
    cases he
    exact ⟨trivial, fun _ _ _ => trivial⟩
  · refine ⟨hcap, fun m r he => ?_⟩
    cases he
    refine ⟨fun _ => hroom, fun m r he => ?_⟩
    cases he
    exact ⟨trivial, fun _ _ _ => trivial⟩

theorem few_probe_loops_end :
    (∃ m, HashMap.steps (fun k : Nat => k) .init [.clear 5, .update (.set 7 1), .update (.delete 7)] = .ok m ∧
      ProbesEnd HashMap.view m.cap m.items) ∧
    ∃ m, OrderedHashMap.steps (fun k : Nat => k) .init [.clear 5, .update (.append 7 1), .update .popHead] = .ok m ∧
      ProbesEnd OrderedHashMap.view m.cap m.items := by
  obtain ⟨h₁, h₂⟩ := probe_loops_end (V := Nat) (fun k : Nat => k)
  refine ⟨h₁ _ few_leave_room.1, ?_⟩
  rcases h₂ _ few_leave_room.2 with he | hm
  · cases he
  · exact hm

/-- Cleared to no buckets, a map computes a slot modulo zero; cleared to three, it
fills up before the load test asks for more, and then probes forever. -/
theorem small_capacities_fault :
    (∃ m : HashMap Nat Nat, HashMap.steps (fun k => k) .init [.clear 0] = .ok m ∧
      ¬ ProbesEnd HashMap.view m.cap m.items ∧
      HashMap.steps (fun k => k) m [.update (.set 1 1)] = .error .moduloZero) ∧
    HashMap.steps (fun k => k) .init
      [.clear 3, .update (.set 0 0), .update (.set 1 1), .update (.set 2 2), .update (.set 3 3)] =
        .error .forever := by
  refine ⟨⟨_, rfl, fun h => absurd h.pos (Nat.lt_irrefl 0), rfl⟩, rfl⟩

end Crack
