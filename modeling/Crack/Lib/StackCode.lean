import Mathlib.Logic.Function.Basic
import Mathlib.Tactic.Common

/-!
# Blocks of code that use a stack

The code of a function is a graph of blocks. Its instructions enter values and
leave them again, and the last one goes to other blocks or returns. A table of
the stacks with which the blocks begin types the code: every execution then
leaves what it entered last, and what it entered is left when it returns. The
code is built block by block, at an insert point, while blocks that were created
wait to be filled.
-/
namespace StackCode

variable {V : Type}

inductive Instr (V : Type) where
  | enter (v : V)
  | leave (v : V)
  | br (b : Nat)
  | condBr (t f : Nat)
  | ret
  deriving DecidableEq, Repr

inductive Event (V : Type) where
  | enter (v : V)
  | leave (v : V)
  deriving DecidableEq, Repr

/-- What an execution does from one place of the code to another. -/
inductive Runs (blocks : Nat → List (Instr V)) : List (Instr V) → List (Event V) → List (Instr V) → Prop where
  | here (is : List (Instr V)) : Runs blocks is [] is
  | enter {v : V} {is l : List (Instr V)} {es : List (Event V)} (h : Runs blocks is es l) :
      Runs blocks (.enter v :: is) (.enter v :: es) l
  | leave {v : V} {is l : List (Instr V)} {es : List (Event V)} (h : Runs blocks is es l) :
      Runs blocks (.leave v :: is) (.leave v :: es) l
  | br {b : Nat} {is l : List (Instr V)} {es : List (Event V)} (h : Runs blocks (blocks b) es l) :
      Runs blocks (.br b :: is) es l
  | condTrue {t f : Nat} {is l : List (Instr V)} {es : List (Event V)} (h : Runs blocks (blocks t) es l) :
      Runs blocks (.condBr t f :: is) es l
  | condFalse {t f : Nat} {is l : List (Instr V)} {es : List (Event V)} (h : Runs blocks (blocks f) es l) :
      Runs blocks (.condBr t f :: is) es l

/-- The events on a stack. Only what is on top can be left. -/
def replay [DecidableEq V] : List V → List (Event V) → Option (List V)
  | st, [] => some st
  | st, .enter v :: es => replay (v :: st) es
  | [], .leave _ :: _ => none
  | top :: st, .leave v :: es => if top = v then replay st es else none

/-- The instructions go on to what follows them, with another stack. -/
def Leads : List V → List (Instr V) → List V → Prop
  | st, [], st' => st = st'
  | st, .enter v :: is, st' => Leads (v :: st) is st'
  | st, .leave v :: is, st' => ∃ rest, st = v :: rest ∧ Leads rest is st'
  | _, _ :: _, _ => False

/-- The instructions end a block: the stack is that of the blocks they go to, and empty
where they return. -/
def Ends (types : Nat → Option (List V)) : List V → List (Instr V) → Prop
  | _, [] => False
  | st, .enter v :: is => Ends types (v :: st) is
  | st, .leave v :: is => ∃ rest, st = v :: rest ∧ Ends types rest is
  | st, .br b :: is => types b = some st ∧ is = []
  | st, .condBr t f :: is => types t = some st ∧ types f = some st ∧ is = []
  | st, .ret :: is => st = [] ∧ is = []

variable {types types' : Nat → Option (List V)} {blocks : Nat → List (Instr V)} {st st' st'' : List V}
  {is is' l : List (Instr V)} {es : List (Event V)}

theorem Leads.append (h : Leads st is st') (h' : Leads st' is' st'') : Leads st (is ++ is') st'' := by
  induction is generalizing st with
  | nil => exact h ▸ h'
  | cons i is ih =>
    cases i with
    | enter v => exact ih h
    | leave v =>
      obtain ⟨rest, hst, h⟩ := h
      exact ⟨rest, hst, ih h⟩
    | br b => exact h.elim
    | condBr t f => exact h.elim
    | ret => exact h.elim

theorem Leads.ends (h : Leads st is st') (h' : Ends types st' is') : Ends types st (is ++ is') := by
  induction is generalizing st with
  | nil => exact h ▸ h'
  | cons i is ih =>
    cases i with
    | enter v => exact ih h
    | leave v =>
      obtain ⟨rest, hst, h⟩ := h
      exact ⟨rest, hst, ih h⟩
    | br b => exact h.elim
    | condBr t f => exact h.elim
    | ret => exact h.elim

/-- Leaving the topmost values, the top first. -/
theorem leads_leave (vs st : List V) : Leads (vs ++ st) (vs.map .leave) st := by
  induction vs with
  | nil => rfl
  | cons v vs ih => exact ⟨vs ++ st, rfl, ih⟩

/-- Leaving values ahead of the end of a block. -/
theorem Ends.leave (vs : List V) (h : Ends types st is) : Ends types (vs ++ st) (vs.map .leave ++ is) :=
  (leads_leave vs st).ends h

theorem leads_enter (vs st : List V) : Leads st (vs.map .enter) (vs.reverse ++ st) := by
  induction vs generalizing st with
  | nil => rfl
  | cons v vs ih =>
    rw [List.reverse_cons, List.append_assoc]
    exact ih (v :: st)

/-- More types. -/
def Extends (types types' : Nat → Option (List V)) : Prop := ∀ b st, types b = some st → types' b = some st

theorem Extends.refl (types : Nat → Option (List V)) : Extends types types := fun _ _ h => h

theorem Extends.trans {types'' : Nat → Option (List V)} (h : Extends types types') (h' : Extends types' types'') :
    Extends types types'' := fun b st hb => h' b st (h b st hb)

theorem Ends.mono (h : Ends types st is) (hext : Extends types types') : Ends types' st is := by
  induction is generalizing st with
  | nil => exact h
  | cons i is ih =>
    cases i with
    | enter v => exact ih h
    | leave v =>
      obtain ⟨rest, hst, h⟩ := h
      exact ⟨rest, hst, ih h⟩
    | br b => exact ⟨hext b st h.1, h.2⟩
    | condBr t f => exact ⟨hext t st h.1, hext f st h.2.1, h.2.2⟩
    | ret => exact h

/-- Every block with a type begins with its stack and ends. -/
def Typed (types : Nat → Option (List V)) (blocks : Nat → List (Instr V)) : Prop :=
  ∀ b st, types b = some st → Ends types st (blocks b)

/-- An execution of typed code takes back what it enters, the last one first. -/
theorem Typed.replay [DecidableEq V] (h : Typed types blocks) (hends : Ends types st is) (hruns : Runs blocks is es l) :
    ∃ st', replay st es = some st' ∧ Ends types st' l := by
  induction hruns generalizing st with
  | here is => exact ⟨st, rfl, hends⟩
  | enter _ ih => exact ih hends
  | @leave v is l es _ ih =>
    obtain ⟨rest, rfl, hends⟩ := hends
    obtain ⟨st', hst', hl⟩ := ih hends
    refine ⟨st', ?_, hl⟩
    rw [StackCode.replay, if_pos rfl]
    exact hst'
  | br _ ih => exact ih (h _ st hends.1)
  | condTrue _ ih => exact ih (h _ st hends.1)
  | condFalse _ ih => exact ih (h _ st hends.2.1)

/-- The blocks so far, and the insert point. -/
structure Code (V : Type) where
  blocks : Nat → List (Instr V)
  size : Nat
  current : Nat

namespace Code

def init : Code V := ⟨fun _ => [], 1, 0⟩

variable (c : Code V)

/-- Instructions at the end of the current block. -/
def emit (is : List (Instr V)) : Code V :=
  { c with blocks := Function.update c.blocks c.current (c.blocks c.current ++ is) }

/-- A new block. Its number is the old size. -/
def newBlock : Code V := { c with size := c.size + 1 }

def setInsertPoint (b : Nat) : Code V := { c with current := b }

end Code

/-- Code in the making. The blocks of `waiting` are to be filled; the stack is that at the
insert point, unless the current block has ended. -/
structure Building (types : Nat → Option (List V)) (c : Code V) (waiting : Nat → Prop) (top : Option (List V)) :
    Prop where
  typed : ∀ b, (types b).isSome ↔ b < c.size
  empty : ∀ b, c.size ≤ b → c.blocks b = []
  waits : ∀ b, waiting b → b < c.size ∧ c.blocks b = []
  ended : ∀ b st, types b = some st → ¬ waiting b → (top.isSome → b ≠ c.current) → Ends types st (c.blocks b)
  current : ∀ st, top = some st → c.current < c.size ∧ ¬ waiting c.current ∧
    ∃ st₀, types c.current = some st₀ ∧ Leads st₀ (c.blocks c.current) st

variable {c : Code V} {waiting waiting' : Nat → Prop} {top : Option (List V)} {b : Nat} {is : List (Instr V)}

theorem Building.congr (h : Building types c waiting top) (hw : ∀ b, waiting b ↔ waiting' b) :
    Building types c waiting' top :=
  (funext fun b => propext (hw b) : waiting = waiting') ▸ h

theorem Building.emit_other (hb : b ≠ c.current) : (c.emit is).blocks b = c.blocks b :=
  Function.update_of_ne hb _ _

theorem Building.emit_current : (c.emit is).blocks c.current = c.blocks c.current ++ is :=
  Function.update_self ..

section

variable (h : Building types c waiting (some st))

include h

/-- Instructions that go on. -/
theorem Building.emit (hl : Leads st is st') : Building types (c.emit is) waiting (some st') := by
  obtain ⟨hlt, hw, st₀, htype, hleads⟩ := h.current st rfl
  refine ⟨h.typed, fun b hb => ?_, fun b hb => ?_, fun b st₁ hb hb' hne => ?_, fun st₁ hst₁ => ?_⟩
  · have hb : c.size ≤ b := hb
    rw [emit_other (by omega)]
    exact h.empty b hb
  · rw [emit_other fun heq => hw (heq ▸ hb)]
    exact h.waits b hb
  · have hne : b ≠ c.current := hne rfl
    rw [emit_other hne]
    exact h.ended b st₁ hb hb' fun _ => hne
  · cases hst₁
    refine ⟨hlt, hw, st₀, htype, ?_⟩
    change Leads st₀ ((c.emit is).blocks c.current) st'
    rw [emit_current]
    exact hleads.append hl

/-- Instructions that end the block. -/
theorem Building.finish (hl : Ends types st is) : Building types (c.emit is) waiting none := by
  obtain ⟨hlt, hw, st₀, htype, hleads⟩ := h.current st rfl
  refine ⟨h.typed, fun b hb => ?_, fun b hb => ?_, fun b st₁ hb hb' _ => ?_, fun st₁ hst₁ => nomatch hst₁⟩
  · have hb : c.size ≤ b := hb
    rw [emit_other (by omega)]
    exact h.empty b hb
  · rw [emit_other fun heq => hw (heq ▸ hb)]
    exact h.waits b hb
  · by_cases hcur : b = c.current
    · subst hcur
      cases htype.symm.trans hb
      rw [emit_current]
      exact hleads.ends hl
    · rw [emit_other hcur]
      exact h.ended b st₁ hb hb' fun _ => hcur

theorem Building.br (hb : types b = some st) : Building types (c.emit [.br b]) waiting none := h.finish ⟨hb, rfl⟩

theorem Building.condBr {t f : Nat} (ht : types t = some st) (hf : types f = some st) :
    Building types (c.emit [.condBr t f]) waiting none := h.finish ⟨ht, hf, rfl⟩

end

/-- A block that begins with the stack `st`. -/
theorem Building.newBlock (h : Building types c waiting top) (st : List V) :
    ∃ types', Extends types types' ∧ types' c.size = some st ∧
      Building types' c.newBlock (fun b => b = c.size ∨ waiting b) top := by
  have hnone : types c.size = none := by
    have hsome := (h.typed c.size).not.mpr (Nat.lt_irrefl _)
    simpa using hsome
  have hext : Extends types (Function.update types c.size (some st)) := by
    intro b st' hb
    rw [Function.update_of_ne]
    · exact hb
    · rintro rfl
      rw [hnone] at hb
      cases hb
  refine ⟨_, hext, Function.update_self .., fun b => ?_, fun b hb => ?_, fun b hb => ?_, fun b st₁ hb hb' hne => ?_,
    fun st₁ hst₁ => ?_⟩
  · change _ ↔ b < c.size + 1
    by_cases hbc : b = c.size
    · rw [hbc, Function.update_self]
      exact ⟨fun _ => Nat.lt_succ_self _, fun _ => rfl⟩
    · rw [Function.update_of_ne hbc, h.typed]
      omega
  · have hb : c.size + 1 ≤ b := hb
    exact h.empty b (by omega)
  · rcases hb with rfl | hb
    · exact ⟨Nat.lt_succ_self _, h.empty _ (Nat.le_refl _)⟩
    · obtain ⟨hlt, hempty⟩ := h.waits b hb
      exact ⟨Nat.lt_succ_of_lt hlt, hempty⟩
  · have hbc : b ≠ c.size := fun hbc => hb' (.inl hbc)
    rw [Function.update_of_ne hbc] at hb
    exact (h.ended b st₁ hb (fun hw => hb' (.inr hw)) hne).mono hext
  · obtain ⟨hlt, hw, st₀, htype, hleads⟩ := h.current st₁ hst₁
    refine ⟨Nat.lt_succ_of_lt hlt, ?_, st₀, hext _ _ htype, hleads⟩
    rintro (heq | hw')
    · have heq : c.current = c.size := heq
      omega
    · exact hw hw'

/-- A block that waits is filled once the current one has ended. -/
theorem Building.setInsertPoint (h : Building types c waiting none) (hb : waiting b) (htype : types b = some st) :
    Building types (c.setInsertPoint b) (fun b' => waiting b' ∧ b' ≠ b) (some st) := by
  obtain ⟨hlt, hempty⟩ := h.waits b hb
  refine ⟨h.typed, h.empty, fun b' hb' => h.waits b' hb'.1, fun b' st₁ hb' hw hne => ?_, fun st₁ hst₁ => ?_⟩
  · exact h.ended b' st₁ hb' (fun hw' => hw ⟨hw', hne rfl⟩) fun hnone => nomatch hnone
  · cases hst₁
    refine ⟨hlt, fun hw => hw.2 rfl, st, htype, ?_⟩
    change Leads st (c.blocks b) st
    rw [hempty]
    rfl

/-- Code with a single block, to be filled. It begins with the stack `st`. -/
theorem building_init (st : List V) :
    Building (fun b => if b = 0 then some st else none) Code.init (fun _ => False) (some st) := by
  refine ⟨fun b => ?_, fun _ _ => rfl, fun _ hb => hb.elim, fun b st₁ hb _ hne => ?_, fun st₁ hst => ?_⟩
  · by_cases hb : b = 0
    · rw [if_pos hb, hb]
      exact ⟨fun _ => Nat.zero_lt_one, fun _ => rfl⟩
    · rw [if_neg hb]
      exact ⟨(fun hnone => nomatch hnone), fun hlt => absurd (Nat.lt_one_iff.mp hlt) hb⟩
  · by_cases hb' : b = 0
    · exact absurd hb' (hne rfl)
    · rw [if_neg hb'] at hb
      cases hb
  · cases hst
    exact ⟨Nat.zero_lt_one, id, st, rfl, rfl⟩

/-- Code in which no block waits any more is typed. -/
theorem Building.done (h : Building types c (fun _ => False) none) : Typed types c.blocks :=
  fun b st hb => h.ended b st hb id fun hnone => nomatch hnone

end StackCode
