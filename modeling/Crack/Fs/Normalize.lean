import Crack.Lang.Appending
import Crack.Lib.LexicalPaths
import Crack.Parser.Token
import Mathlib.Data.List.TakeWhile

/-!
# Normalized paths

The path is copied into a buffer of `PATH_MAX + 1` bytes, behind the current directory if it is relative. A `..` takes
back what is behind the last slash but one.
-/
namespace Crack

namespace Fs

open LexicalPaths (IsName step way text)

/-- How `normalize` ends other than by returning. -/
inductive Failure where
  | systemError (text : String)
  | invalidArgumentError (text : List UInt8)
  | assertionError (text : List UInt8)
  | stopped (stop : Stop)
  deriving DecidableEq, Repr

/-- The names that lead to the current directory. -/
structure Directory where
  names : List (List UInt8)
  isName : ∀ t ∈ names, IsName 47 46 t
  noNul : ∀ t ∈ names, 0 ∉ t

/-- An absolute path with these names. -/
def absolute (names : List (List UInt8)) : List UInt8 := if names = [] then [47] else text 47 names

/-- `getcwd` is `null` if the directory and a 0 do not fit into `size` bytes. -/
def getcwd (cwd : Directory) (size : Nat) : Option (List UInt8) :=
  if (absolute cwd.names).length < size then some (absolute cwd.names) else none

def strlen (mem : List UInt8) : Nat := (mem.takeWhile (· ≠ 0)).length

/-- `buf.buffer[buf.size++] = c` -/
def put (buf : ManagedBuffer) (c : UInt8) : Except Failure ManagedBuffer :=
  if buf.size < buf.cap then .ok ⟨buf.mem.set buf.size c, buf.size + 1⟩ else .error (.stopped .wildAccess)

/-- The path goes on with a `..`. -/
def AtParent (path : List UInt8) : Prop :=
  1 < path.length ∧ path[0]? = some 46 ∧ path[1]? = some 46 ∧ (path.length ≤ 2 ∨ path[2]? = some 47)

/-- The path goes on with a single dot. -/
def AtDot (path : List UInt8) : Prop := path[0]? = some 46 ∧ (path.length ≤ 1 ∨ path[1]? = some 47)

instance (path : List UInt8) : Decidable (AtParent path) := inferInstanceAs (Decidable (_ ∧ _))

instance (path : List UInt8) : Decidable (AtDot path) := inferInstanceAs (Decidable (_ ∧ _))

/-- The loop that backs up, on the size. -/
def backUpLoop (mem : List UInt8) : Nat → Except Failure Nat
  | 0 => .ok 0
  | size + 1 =>
    match ManagedBuffer.get ⟨mem, size⟩ (uint (uintzSub size 1)) with
    | .ok c => if c ≠ 47 then backUpLoop mem size else .ok size
    | .error stop => .error (.stopped stop)

/-- The exception for a path that leads above the root. -/
def belowRoor (path : List UInt8) : Failure :=
  .invalidArgumentError (ascii "Path " ++ path ++ ascii " refernces a value below the roor")

def backUp (path : List UInt8) (buf : ManagedBuffer) : Except Failure ManagedBuffer := do
  if buf.size < 2 then
    throw (belowRoor path)
  let size ← backUpLoop buf.mem buf.size
  if size = 0 then
    throw (.assertionError (ascii "Ran out of path while backing up! org path = " ++ path))
  return { buf with size }

/-- The loop over the path, from some place on. -/
def scan (path : List UInt8) : List UInt8 → Bool → ManagedBuffer → Except Failure (Bool × ManagedBuffer)
  | [], beginning, buf => .ok (beginning, buf)
  | c :: rest, beginning, buf =>
    if beginning then
      if AtParent (c :: rest) then do
        let buf ← backUp path buf
        scan path rest true buf
      else if AtDot (c :: rest) then scan path rest true buf
      else if c ≠ 47 then do
        let buf ← put buf c
        scan path rest false buf
      else scan path rest true buf
    else do
      let buf ← put buf c
      scan path rest (c = 47) buf

/-- The end of `normalize`: a slash goes, a 0 is put behind the path, and that is where the string ends. -/
def finish (beginning : Bool) (buf : ManagedBuffer) : Except Failure (List UInt8) :=
  let size := if beginning then uintzSub buf.size 1 else buf.size
  if size < buf.cap then
    let mem := buf.mem.set size 0
    .ok (mem.take (strlen mem))
  else .error (.stopped .wildAccess)

def normalize (PATH_MAX : Nat) (cwd : Directory) (path : List UInt8) : Except Failure (List UInt8) := do
  let buf := ManagedBuffer.init (PATH_MAX + 1)
  let buf ←
    if path ≠ [] ∧ path[0]? ≠ some 47 then
      match getcwd cwd buf.cap with
      | none => throw (.systemError "unable to getcwd")
      | some dir =>
        let buf := buf.put 0 (dir ++ [0])
        put { buf with size := strlen buf.mem } 47
    else if path ≠ [] then put buf 47
    else pure buf
  let (beginning, buf) ← scan path path true buf
  finish beginning buf

/-- The directory that a path starts from. -/
def base (cwd : Directory) (path : List UInt8) : List (List UInt8) := if path[0]? = some 47 then [] else cwd.names

/-- The path is resolved by its segments, and so is the result, or it leads above the root. -/
def Normalizes (PATH_MAX : Nat) (cwd : Directory) (path : List UInt8) : Prop :=
  match LexicalPaths.resolve 46 (base cwd path) (path.splitOn 47) with
  | some names => (∀ t ∈ names, IsName 47 46 t) ∧ normalize PATH_MAX cwd path = .ok (absolute names) ∧
      ∀ cwd', normalize PATH_MAX cwd' (absolute names) = .ok (absolute names)
  | none => normalize PATH_MAX cwd path = .error (belowRoor path)

/-- Where the code starts from: the root as the current directory is one with an empty name. -/
def start (cwd : Directory) (path : List UInt8) : List (List UInt8) :=
  if path[0]? = some 47 then [] else if cwd.names = [] then [[]] else cwd.names

/-- No directory on the way is longer than `PATH_MAX` bytes. -/
def Fits (PATH_MAX : Nat) (dirs segs : List (List UInt8)) : Prop :=
  ∀ d ∈ way 46 dirs segs, (text 47 d).length ≤ PATH_MAX

instance (PATH_MAX : Nat) (dirs segs : List (List UInt8)) : Decidable (Fits PATH_MAX dirs segs) :=
  inferInstanceAs (Decidable (∀ d ∈ _, _))

/-- The path does not lead to the root, or it leads above it. -/
def Meets (PATH_MAX : Nat) (cwd : Directory) (path : List UInt8) : Prop :=
  path ≠ [] ∧ (path[0]? ≠ some 47 → Fits PATH_MAX (start cwd path) (path.splitOn 47)) ∧
    match LexicalPaths.resolve 46 (start cwd path) (path.splitOn 47) with
    | some names => names ≠ [] ∧ (∀ t ∈ names, 0 ∉ t) ∧ (path[0]? = some 47 ∨ cwd.names ≠ [])
    | none => True

/-- What the code does with the segments from a directory on. -/
def outcome (PATH_MAX : Nat) (path : List UInt8) (dirs segs : List (List UInt8)) : Except Failure (List UInt8) :=
  if Fits PATH_MAX dirs segs then
    match LexicalPaths.resolve 46 dirs segs with
    | some names => .ok ((text 47 names).takeWhile (· ≠ 0))
    | none => .error (belowRoor path)
  else .error (.stopped .wildAccess)

section

variable {PATH_MAX : Nat} {path rest t : List UInt8} {dirs dirs' segs : List (List UInt8)} {buf : ManagedBuffer}
  {c : UInt8}

theorem outcome_long (h : PATH_MAX < (text 47 dirs).length) :
    outcome PATH_MAX path dirs segs = .error (.stopped .wildAccess) :=
  if_neg fun hfits => Nat.not_le_of_lt h (hfits dirs (LexicalPaths.self_mem_way _ _))

section

variable (h : (text 47 dirs).length ≤ PATH_MAX)

include h

theorem outcome_nil : outcome PATH_MAX path dirs [] = .ok ((text 47 dirs).takeWhile (· ≠ 0)) := by
  refine if_pos fun d hd => ?_
  obtain rfl := List.mem_singleton.mp hd
  exact h

theorem fits_cons (hstep : step 46 dirs t = some dirs') :
    Fits PATH_MAX dirs (t :: segs) ↔ Fits PATH_MAX dirs' segs := by
  rw [Fits, Fits, way, hstep]
  constructor
  · exact fun hall d hd => hall d (List.mem_cons_of_mem _ hd)
  · intro hall d hd
    rcases List.mem_cons.mp hd with rfl | hd
    · exact h
    · exact hall d hd

theorem outcome_cons (hstep : step 46 dirs t = some dirs') :
    outcome PATH_MAX path dirs (t :: segs) = outcome PATH_MAX path dirs' segs := by
  have hfits := @fits_cons _ _ _ _ segs h hstep
  rw [outcome, outcome, LexicalPaths.resolve_cons, hstep, Option.bind_some]
  by_cases hf : Fits PATH_MAX dirs' segs
  · rw [if_pos hf, if_pos (hfits.mpr hf)]
  · rw [if_neg hf, if_neg (mt hfits.mp hf)]

theorem outcome_above (hstep : step 46 dirs t = none) :
    outcome PATH_MAX path dirs (t :: segs) = .error (belowRoor path) := by
  have hfits : Fits PATH_MAX dirs (t :: segs) := by
    rw [Fits, way, hstep]
    intro d hd
    obtain rfl := List.mem_singleton.mp hd
    exact h
  rw [outcome, if_pos hfits, LexicalPaths.resolve_cons, hstep]
  rfl

end

theorem put_ok (hroom : buf.size < buf.cap) :
    ∃ buf', put buf c = .ok buf' ∧ buf'.cap = buf.cap ∧ buf'.size = buf.size + 1 ∧ buf'.data = buf.data ++ [c] := by
  refine ⟨_, if_pos hroom, List.length_set, rfl, ?_⟩
  have hset : buf.mem.set buf.size c = buf.data ++ c :: buf.mem.drop (buf.size + 1) := by
    exact List.set_eq_take_append_cons_drop.trans (if_pos hroom)
  rw [ManagedBuffer.data, hset, List.take_append, ManagedBuffer.length_data (Nat.le_of_lt hroom),
    Nat.add_sub_cancel_left, List.take_of_length_le]
  · rfl
  · rw [ManagedBuffer.length_data (Nat.le_of_lt hroom)]
    exact Nat.le_succ _

theorem put_full (hfull : buf.cap ≤ buf.size) : put buf c = .error (.stopped .wildAccess) :=
  if_neg (Nat.not_lt_of_le hfull)

/-- The directory is in the buffer, with a slash behind it. -/
structure Holds (PATH_MAX : Nat) (buf : ManagedBuffer) (dirs : List (List UInt8)) : Prop where
  cap : buf.cap = PATH_MAX + 1
  size : buf.size ≤ buf.cap
  data : buf.data = text 47 dirs ++ [47]

theorem Holds.size_eq (h : Holds PATH_MAX buf dirs) : buf.size = (text 47 dirs).length + 1 := by
  rw [← ManagedBuffer.length_data h.size, h.data, List.length_append, List.length_singleton]

theorem Holds.length_le (h : Holds PATH_MAX buf dirs) : (text 47 dirs).length ≤ PATH_MAX := by
  have hsize := h.size
  rw [h.size_eq, h.cap] at hsize
  exact Nat.le_of_succ_le_succ hsize

theorem take_strlen (mem : List UInt8) : mem.take (strlen mem) = mem.takeWhile (· ≠ 0) :=
  (List.prefix_iff_eq_take.mp (List.takeWhile_prefix _)).symm

theorem takeWhile_nul (A B : List UInt8) : (A ++ 0 :: B).takeWhile (· ≠ 0) = A.takeWhile (· ≠ 0) := by
  induction A with
  | nil => rfl
  | cons c A ih => rw [List.cons_append, List.takeWhile_cons, List.takeWhile_cons, ih]

/-- The string is what is in the buffer up to the first 0. -/
theorem finish_eq {beginning : Bool} {size : Nat} (hsize : (if beginning then uintzSub buf.size 1 else buf.size) = size)
    (hroom : size < buf.cap) : finish beginning buf = .ok ((buf.mem.take size).takeWhile (· ≠ 0)) := by
  rw [finish, hsize]
  dsimp only
  rw [if_pos hroom, take_strlen, List.set_eq_take_append_cons_drop.trans (if_pos hroom), takeWhile_nul]

theorem Holds.finish (h : Holds PATH_MAX buf dirs) : finish true buf = .ok ((text 47 dirs).takeWhile (· ≠ 0)) := by
  have hsize : (if true then uintzSub buf.size 1 else buf.size) = (text 47 dirs).length := by
    rw [if_pos rfl, uintzSub, if_pos (by rw [h.size_eq]; omega), h.size_eq, Nat.add_sub_cancel]
  have hdata : buf.mem.take (text 47 dirs).length = text 47 dirs := by
    have htake := congrArg (List.take (text 47 dirs).length) h.data
    rwa [List.take_left, ManagedBuffer.data, List.take_take, Nat.min_eq_left (by rw [h.size_eq]; omega)] at htake
  rw [finish_eq hsize, hdata]
  have hle := h.length_le
  rw [h.cap]
  omega

/-- The characters of a name are copied. -/
theorem copy_ok (t : List UInt8) (hslash : 47 ∉ t) (hsize : buf.size ≤ buf.cap) (hroom : buf.size + t.length ≤ buf.cap) :
    ∃ buf', scan path (t ++ rest) false buf = scan path rest false buf' ∧ buf'.cap = buf.cap ∧
      buf'.size = buf.size + t.length ∧ buf'.data = buf.data ++ t := by
  induction t generalizing buf with
  | nil => exact ⟨buf, rfl, rfl, rfl, (List.append_nil _).symm⟩
  | cons c t ih =>
    rw [List.length_cons] at hroom
    obtain ⟨hc, ht⟩ := not_or.mp (mt List.mem_cons.mpr hslash)
    obtain ⟨buf₁, hput, hcap₁, hsize₁, hdata₁⟩ := @put_ok buf c (by omega)
    obtain ⟨buf', hscan, hcap', hsize', hdata'⟩ := @ih buf₁ ht (by omega) (by omega)
    refine ⟨buf', ?_, hcap'.trans hcap₁, ?_, ?_⟩
    · rw [List.cons_append, scan, if_neg Bool.false_ne_true, hput, decide_eq_false (Ne.symm hc)]
      exact hscan
    · rw [hsize', hsize₁, List.length_cons]
      omega
    · rw [hdata', hdata₁, List.append_assoc]
      rfl

theorem copy_full (t : List UInt8) (hslash : 47 ∉ t) (hsize : buf.size ≤ buf.cap) (hfull : buf.cap < buf.size + t.length) :
    scan path (t ++ rest) false buf = .error (.stopped .wildAccess) := by
  induction t generalizing buf with
  | nil => exact absurd hsize (Nat.not_le_of_lt hfull)
  | cons c t ih =>
    rw [List.length_cons] at hfull
    obtain ⟨hc, ht⟩ := not_or.mp (mt List.mem_cons.mpr hslash)
    rw [List.cons_append, scan, if_neg Bool.false_ne_true]
    rcases Nat.lt_or_ge buf.size buf.cap with hroom | hge
    · obtain ⟨buf₁, hput, hcap₁, hsize₁, -⟩ := put_ok (c := c) hroom
      rw [hput, decide_eq_false (Ne.symm hc)]
      exact ih ht (by omega) (by omega)
    · rw [put_full hge]
      rfl

/-- A segment ends at a slash or at the end of the path. -/
def Ends (rest : List UInt8) : Prop := rest = [] ∨ rest[0]? = some 47

theorem Ends.not_head (h : Ends rest) : rest[0]? ≠ some 46 := by
  rcases h with rfl | h
  · exact fun hnone => by cases hnone
  · rw [h]
    decide

theorem Ends.length_or (h : Ends rest) (k : Nat) : rest.length + k ≤ k ∨ rest[0]? = some 47 := by
  rcases h with rfl | h
  · exact Or.inl (Nat.le_of_eq (Nat.zero_add k))
  · exact Or.inr h

theorem atParent_iff (ht : 47 ∉ t) (hrest : Ends rest) : AtParent (t ++ rest) ↔ t = [46, 46] := by
  constructor
  · rintro ⟨-, hfirst, hsecond, hbehind⟩
    match t, ht with
    | [], _ => exact absurd hfirst hrest.not_head
    | [_], _ => exact absurd hsecond hrest.not_head
    | [a, b], _ =>
      cases hfirst
      cases hsecond
      rfl
    | a :: b :: c :: t, ht =>
      rcases hbehind with hle | hslash
      · exact absurd hle (Nat.not_le_of_lt (Nat.lt_of_lt_of_le (show 2 < t.length + 3 by omega)
          (by rw [List.length_append]; exact Nat.le_add_right _ _)))
      · cases hslash
        exact absurd (List.mem_cons_of_mem _ (List.mem_cons_of_mem _ List.mem_cons_self)) ht
  · rintro rfl
    exact ⟨Nat.le_add_left _ _, rfl, rfl, hrest.length_or 2⟩

theorem atDot_iff (ht : 47 ∉ t) (hrest : Ends rest) : AtDot (t ++ rest) ↔ t = [46] := by
  constructor
  · rintro ⟨hfirst, hbehind⟩
    match t, ht with
    | [], _ => exact absurd hfirst hrest.not_head
    | [_], _ =>
      cases hfirst
      rfl
    | a :: b :: t, ht =>
      rcases hbehind with hle | hslash
      · exact absurd hle (Nat.not_le_of_lt (Nat.lt_of_lt_of_le (show 1 < t.length + 2 by omega)
          (by rw [List.length_append]; exact Nat.le_add_right _ _)))
      · cases hslash
        exact absurd (List.mem_cons_of_mem _ List.mem_cons_self) ht
  · rintro rfl
    exact ⟨rfl, hrest.length_or 1⟩

/-- An empty segment or a single dot is passed over. -/
theorem scan_skip (ht : t = [] ∨ t = [46]) (hrest : Ends rest) :
    scan path (t ++ rest) true buf = scan path rest true buf := by
  rcases ht with rfl | rfl
  · rfl
  · have hparent : ¬AtParent (46 :: rest) := mt (atParent_iff (t := [46]) (by decide) hrest).mp (by decide)
    have hdot : AtDot (46 :: rest) := (atDot_iff (t := [46]) (by decide) hrest).mpr rfl
    rw [List.singleton_append, scan, if_pos rfl, if_neg hparent, if_pos hdot]

/-- A slash at the beginning of a segment is passed over. -/
theorem scan_slash : scan path (47 :: rest) true buf = scan path rest true buf := by
  have hhead : (47 :: rest)[0]? ≠ some 46 := fun h => by cases h
  have hparent : ¬AtParent (47 :: rest) := fun h => hhead h.2.1
  have hdot : ¬AtDot (47 :: rest) := fun h => hhead h.1
  rw [scan, if_pos rfl, if_neg hparent, if_neg hdot, if_neg (not_not_intro rfl)]

/-- After two dots the second one is passed over like a single one. -/
theorem scan_parent (hrest : Ends rest) :
    scan path ([46, 46] ++ rest) true buf = backUp path buf >>= fun buf => scan path rest true buf := by
  have hparent : AtParent (46 :: ([46] ++ rest)) := (atParent_iff (t := [46, 46]) (by decide) hrest).mpr rfl
  rw [List.cons_append, scan, if_pos rfl, if_pos hparent]
  exact congrArg (backUp path buf >>= ·) (funext fun buf => scan_skip (Or.inr rfl) hrest)

/-- At the beginning of a name it is copied like the rest of it. -/
theorem scan_name (ht : IsName 47 46 t) (hrest : Ends rest) :
    scan path (t ++ rest) true buf = scan path (t ++ rest) false buf := by
  obtain ⟨c, t, rfl⟩ := List.exists_cons_of_ne_nil ht.ne_nil
  have hparent : ¬AtParent (c :: (t ++ rest)) := mt (atParent_iff ht.no_sep hrest).mp ht.ne_parent
  have hdot : ¬AtDot (c :: (t ++ rest)) := mt (atDot_iff ht.no_sep hrest).mp ht.ne_dot
  obtain ⟨hc, -⟩ := not_or.mp (mt List.mem_cons.mpr ht.no_sep)
  rw [List.cons_append, scan, if_pos rfl, if_neg hparent, if_neg hdot, if_pos (Ne.symm hc), scan,
    if_neg Bool.false_ne_true, decide_eq_false (Ne.symm hc)]

/-- The loop stops behind the last slash at a place below the size. -/
theorem backUpLoop_eq {mem : List UInt8} {place : Nat} (k : Nat) (hsmall : place + 1 + k < 2 ^ 31)
    (hslash : mem[place]? = some 47) (hname : ∀ i, place < i → i < place + 1 + k → ∃ c, mem[i]? = some c ∧ c ≠ 47) :
    backUpLoop mem (place + 1 + k + 1) = .ok (place + 1) := by
  have hplace : ∀ k, place + 1 + k < 2 ^ 31 → uint (uintzSub (place + 1 + k) 1) = place + k := by
    intro k hk
    rw [uintzSub, if_pos (by omega), uint, Nat.mod_eq_of_lt (by omega)]
    omega
  have hget : ∀ k c, place + 1 + k < 2 ^ 31 → mem[place + k]? = some c →
      ManagedBuffer.get ⟨mem, place + 1 + k⟩ (place + k) = .ok c := by
    intro k c hlt hc
    rw [ManagedBuffer.get, if_neg (by dsimp only; omega), if_neg (by omega), hc]
  induction k with
  | zero =>
    rw [backUpLoop, hplace 0 hsmall, hget 0 47 hsmall hslash]
    rfl
  | succ k ih =>
    obtain ⟨c, hc, hne⟩ := hname (place + (k + 1)) (by omega) (by omega)
    rw [backUpLoop, hplace (k + 1) hsmall, hget (k + 1) c hsmall hc]
    dsimp only
    rw [if_pos hne]
    exact ih (by omega) fun i hi hlt => hname i hi (by omega)

theorem backUp_root (h : Holds PATH_MAX buf []) : backUp path buf = .error (belowRoor path) := by
  have hsize : buf.size = 1 := h.size_eq
  rw [backUp, if_pos (by omega)]
  rfl

theorem backUp_ok (hmax : PATH_MAX < 2 ^ 31) (h : Holds PATH_MAX buf dirs) (hne : dirs ≠ [])
    (hslash : 47 ∉ dirs.getLast hne) : ∃ buf', backUp path buf = .ok buf' ∧ Holds PATH_MAX buf' dirs.dropLast := by
  have hlast : text 47 dirs.dropLast ++ 47 :: dirs.getLast hne = text 47 dirs := LexicalPaths.text_dropLast hne
  have hlen := congrArg List.length hlast
  rw [List.length_append, List.length_cons] at hlen
  have hle := h.length_le
  have hsize := h.size_eq
  generalize hplace : (text 47 dirs.dropLast).length = place at hlen
  generalize hk : (dirs.getLast hne).length = k at hlen
  have hdata : buf.data = text 47 dirs.dropLast ++ 47 :: (dirs.getLast hne ++ [47]) := by
    rw [h.data, ← hlast, List.append_assoc]
    rfl
  have hget : ∀ i < buf.size, buf.mem[i]? = buf.data[i]? := fun i hi =>
    (List.getElem?_take_of_lt hi).symm
  have hloop : backUpLoop buf.mem buf.size = .ok (place + 1) := by
    rw [hsize, ← hlen, ← Nat.add_assoc, Nat.add_right_comm place]
    refine backUpLoop_eq k (by omega) ?_ fun i hi hlt => ?_
    · rw [hget place (by omega), hdata, List.getElem?_append_right (Nat.le_of_eq hplace), hplace, Nat.sub_self]
      rfl
    · obtain ⟨m, rfl⟩ : ∃ m, i = place + (m + 1) := ⟨i - place - 1, by omega⟩
      have hm : m < (dirs.getLast hne).length := by omega
      refine ⟨(dirs.getLast hne)[m], ?_, fun heq => hslash (heq ▸ List.getElem_mem hm)⟩
      rw [hget _ (by omega), hdata, List.getElem?_append_right (by omega), hplace, Nat.add_sub_cancel_left,
        List.getElem?_cons_succ, List.getElem?_append_left hm, List.getElem?_eq_getElem hm]
  refine ⟨{ buf with size := place + 1 }, ?_, h.cap, ?_, ?_⟩
  · rw [backUp, if_neg (by omega), hloop]
    rfl
  · have := h.size
    change place + 1 ≤ buf.cap
    omega
  · have htake : buf.data.take (place + 1) = buf.mem.take (place + 1) := by
      rw [ManagedBuffer.data, List.take_take, Nat.min_eq_left (by omega)]
    have hslash : text 47 dirs.dropLast ++ 47 :: (dirs.getLast hne ++ [47]) =
        (text 47 dirs.dropLast ++ [47]) ++ (dirs.getLast hne ++ [47]) := by
      rw [List.append_assoc]
      rfl
    change buf.mem.take (place + 1) = _
    rw [← htake, hdata, hslash, List.take_left']
    rw [List.length_append, hplace]
    rfl

/-- A segment that is not a name leaves the directory, or leads to the one above. -/
theorem step_skip (ht : t = [] ∨ t = [46]) : step 46 dirs t = some dirs := if_pos ht

theorem step_parent : step 46 dirs [46, 46] = if dirs = [] then none else some dirs.dropLast := rfl

theorem not_name (h : 47 ∉ t) (hname : ¬IsName 47 46 t) : (t = [] ∨ t = [46]) ∨ t = [46, 46] := by
  by_contra hnot
  obtain ⟨hskip, hparent⟩ := not_or.mp hnot
  obtain ⟨hnil, hdot⟩ := not_or.mp hskip
  exact hname ⟨hnil, hdot, hparent, h⟩

/-- What the rest of the path comes to. -/
def ended (path rest : List UInt8) (buf : ManagedBuffer) : Except Failure (List UInt8) := do
  let (beginning, buf) ← scan path rest true buf
  finish beginning buf

theorem text_snoc (dirs : List (List UInt8)) (t : List UInt8) : text 47 (dirs ++ [t]) = text 47 dirs ++ 47 :: t := by
  rw [text, List.flatMap_append, List.flatMap_singleton, text]

/-- A name at the end of the path. -/
theorem ended_name (h : Holds PATH_MAX buf dirs) (ht : IsName 47 46 t) :
    ended path t buf = outcome PATH_MAX path (dirs ++ [t]) [] := by
  have hlen : (text 47 (dirs ++ [t])).length = (text 47 dirs).length + 1 + t.length := by
    rw [text_snoc, List.length_append, List.length_cons]
    omega
  have hscan := @scan_name path _ _ buf ht (Or.inl rfl)
  rw [List.append_nil] at hscan
  rw [ended, hscan, ← List.append_nil t]
  rcases Nat.lt_or_ge buf.cap (buf.size + t.length) with hfull | hroom
  · rw [copy_full t ht.no_sep h.size hfull, outcome_long]
    · rfl
    · rw [List.append_nil, hlen, ← h.size_eq]
      have := h.cap
      omega
  · obtain ⟨buf', hcopy, hcap', hsize', hdata'⟩ := copy_ok t ht.no_sep h.size hroom
    rw [hcopy, scan, List.append_nil]
    change finish false buf' = _
    rcases Nat.lt_or_ge buf'.size buf'.cap with hlt | hge
    · have hdata : buf'.mem.take buf'.size = text 47 (dirs ++ [t]) := by
        change buf'.data = _
        rw [hdata', h.data, text_snoc, List.append_assoc]
        rfl
      rw [@finish_eq buf' _ buf'.size rfl hlt, outcome_nil]
      · rw [← hdata]
      · rw [hlen, ← h.size_eq]
        have := h.cap
        omega
    · rw [outcome_long]
      · exact if_neg (Nat.not_lt_of_le hge)
      · rw [hlen, ← h.size_eq]
        have := h.cap
        omega

/-- A name and the slash behind it. -/
theorem ended_name_slash (h : Holds PATH_MAX buf dirs) (ht : IsName 47 46 t) (rest : List UInt8) :
    (PATH_MAX < (text 47 (dirs ++ [t])).length ∧ ended path (t ++ 47 :: rest) buf = .error (.stopped .wildAccess)) ∨
      ∃ buf', Holds PATH_MAX buf' (dirs ++ [t]) ∧ ended path (t ++ 47 :: rest) buf = ended path rest buf' := by
  have hlen : (text 47 (dirs ++ [t])).length = buf.size + t.length := by
    rw [text_snoc, List.length_append, List.length_cons, h.size_eq]
    omega
  have hcap := h.cap
  rw [ended, scan_name ht (Or.inr rfl)]
  rcases Nat.lt_or_ge buf.cap (buf.size + t.length) with hfull | hroom
  · refine Or.inl ⟨by omega, ?_⟩
    rw [copy_full t ht.no_sep h.size hfull]
    rfl
  · obtain ⟨buf₁, hcopy, hcap₁, hsize₁, hdata₁⟩ :=
      copy_ok t ht.no_sep h.size hroom
    rw [hcopy, scan, if_neg Bool.false_ne_true, decide_eq_true rfl]
    rcases Nat.lt_or_ge buf₁.size buf₁.cap with hlt | hge
    · obtain ⟨buf', hput, hcap', hsize', hdata'⟩ := put_ok (c := 47) hlt
      refine Or.inr ⟨buf', ⟨by omega, by omega, ?_⟩, ?_⟩
      · rw [hdata', hdata₁, h.data, text_snoc, List.append_assoc (text 47 dirs)]
        rfl
      · rw [hput]
        rfl
    · refine Or.inl ⟨by omega, ?_⟩
      rw [put_full hge]
      rfl

/-- Another segment leads to a directory on the way, or above the root. -/
theorem ended_other (hmax : PATH_MAX < 2 ^ 31) (h : Holds PATH_MAX buf dirs) (hdirs : ∀ d ∈ dirs, 47 ∉ d)
    (ht : 47 ∉ t) (hname : ¬IsName 47 46 t) (hrest : Ends rest) :
    (step 46 dirs t = none ∧ ended path (t ++ rest) buf = .error (belowRoor path)) ∨
      ∃ dirs' buf', step 46 dirs t = some dirs' ∧ Holds PATH_MAX buf' dirs' ∧ (∀ d ∈ dirs', 47 ∉ d) ∧
        ended path (t ++ rest) buf = ended path rest buf' := by
  rw [ended]
  rcases not_name ht hname with hskip | rfl
  · exact Or.inr ⟨dirs, buf, step_skip hskip, h, hdirs, by rw [scan_skip hskip hrest, ended]⟩
  · rw [scan_parent hrest]
    by_cases hnil : dirs = []
    · subst hnil
      refine Or.inl ⟨rfl, ?_⟩
      rw [backUp_root h]
      rfl
    · obtain ⟨buf', hback, h'⟩ := backUp_ok hmax h hnil (hdirs _ (List.getLast_mem hnil))
      refine Or.inr ⟨dirs.dropLast, buf', step_parent.trans (if_neg hnil), h',
        fun d hd => hdirs d (List.dropLast_subset dirs hd), ?_⟩
      rw [hback]
      rfl

theorem ended_nil (h : Holds PATH_MAX buf dirs) : ended path [] buf = outcome PATH_MAX path dirs [] :=
  h.finish.trans (outcome_nil h.length_le).symm

theorem ended_slash (rest : List UInt8) : ended path (47 :: rest) buf = ended path rest buf := by
  rw [ended, scan_slash, ended]

/-- The loop does with the path what its segments say. -/
theorem ended_eq (hmax : PATH_MAX < 2 ^ 31) (h : Holds PATH_MAX buf dirs) (hdirs : ∀ d ∈ dirs, 47 ∉ d)
    (rest : List UInt8) : ended path rest buf = outcome PATH_MAX path dirs (rest.splitOn 47) := by
  induction rest using LexicalPaths.induction generalizing buf dirs with
  | hlast t ht =>
    rw [List.splitOn_eq_singleton ht]
    by_cases hname : IsName 47 46 t
    · rw [ended_name h hname, outcome_cons h.length_le (LexicalPaths.step_of_name hname)]
    · have hother := @ended_other _ path _ _ _ _ hmax h hdirs ht hname (Or.inl rfl)
      rw [List.append_nil] at hother
      rcases hother with ⟨hstep, hended⟩ | ⟨dirs', buf', hstep, h', -, hended⟩
      · rw [hended, outcome_above h.length_le hstep]
      · rw [hended, outcome_cons h.length_le hstep, ended_nil h']
  | hsegment t rest ht ih =>
    rw [List.splitOn_append_cons_self_of_not_mem ht]
    by_cases hname : IsName 47 46 t
    · rw [outcome_cons h.length_le (LexicalPaths.step_of_name hname)]
      rcases ended_name_slash h hname rest with ⟨hlong, hended⟩ | ⟨buf', h', hended⟩
      · rw [hended, outcome_long hlong]
      · rw [hended]
        refine ih h' fun d hd => ?_
        rcases List.mem_append.mp hd with hd | hd
        · exact hdirs d hd
        · exact List.mem_singleton.mp hd ▸ ht
    · rcases @ended_other _ _ (47 :: rest) _ _ _ hmax h hdirs ht hname (Or.inr rfl) with
        ⟨hstep, hended⟩ | ⟨dirs', buf', hstep, h', hdirs', hended⟩
      · rw [hended, outcome_above h.length_le hstep]
      · rw [hended, outcome_cons h.length_le hstep, ended_slash, ih h' hdirs']

end

variable {PATH_MAX : Nat} {cwd : Directory} {path : List UInt8} {names : List (List UInt8)}

theorem noNul_absolute (cwd : Directory) : 0 ∉ absolute cwd.names := by
  rw [absolute]
  split
  · decide
  · intro hmem
    obtain ⟨t, ht, hmem⟩ := List.mem_flatMap.mp hmem
    rcases List.mem_cons.mp hmem with heq | hmem
    · exact absurd heq (by decide)
    · exact cwd.noNul t ht hmem

/-- What `getcwd` and `strlen` make of the buffer. -/
theorem put_dir {dir : List UInt8} (hnul : 0 ∉ dir) (hlt : dir.length < PATH_MAX + 1) :
    ((ManagedBuffer.init (PATH_MAX + 1)).put 0 (dir ++ [0])).cap = PATH_MAX + 1 ∧
      strlen ((ManagedBuffer.init (PATH_MAX + 1)).put 0 (dir ++ [0])).mem = dir.length ∧
      ((ManagedBuffer.init (PATH_MAX + 1)).put 0 (dir ++ [0])).mem.take dir.length = dir := by
  have hcap : (ManagedBuffer.init (PATH_MAX + 1)).cap = PATH_MAX + 1 := List.length_replicate
  have hmem : ((ManagedBuffer.init (PATH_MAX + 1)).put 0 (dir ++ [0])).mem =
      dir ++ 0 :: (ManagedBuffer.init (PATH_MAX + 1)).mem.drop (0 + (dir ++ [0]).length) := by
    rw [ManagedBuffer.put, List.take_zero, List.nil_append, List.append_assoc]
    rfl
  have hall : ∀ c ∈ dir, decide (c ≠ 0) = true := fun c hc => decide_eq_true fun heq => hnul (heq ▸ hc)
  refine ⟨?_, ?_, ?_⟩
  · rw [ManagedBuffer.cap_put, hcap]
    rw [hcap, List.length_append, List.length_singleton]
    omega
  · rw [hmem, strlen, takeWhile_nul, List.takeWhile_eq_self_iff.mpr hall]
  · rw [hmem, List.take_left]

/-- The buffer has the directory that the path starts from. -/
theorem normalize_eq_ended (hne : path ≠ []) :
    (PATH_MAX < (text 47 (start cwd path)).length ∧ path[0]? ≠ some 47 ∧
        normalize PATH_MAX cwd path = .error (.systemError "unable to getcwd")) ∨
      ∃ buf, Holds PATH_MAX buf (start cwd path) ∧ normalize PATH_MAX cwd path = ended path path buf := by
  have hcap : (ManagedBuffer.init (PATH_MAX + 1)).cap = PATH_MAX + 1 := List.length_replicate
  rw [normalize]
  by_cases habs : path[0]? = some 47
  · have hstart : start cwd path = [] := if_pos habs
    have hroom : (ManagedBuffer.init (PATH_MAX + 1)).size < (ManagedBuffer.init (PATH_MAX + 1)).cap := by
      rw [hcap]
      exact Nat.succ_pos _
    obtain ⟨buf, hput, hcap', hsize', hdata'⟩ := put_ok (c := 47) hroom
    refine Or.inr ⟨buf, ⟨hcap'.trans hcap, by omega, ?_⟩, ?_⟩
    · rw [hdata', hstart]
      rfl
    · dsimp only
      rw [if_neg (fun h => h.2 habs), if_pos hne, hput]
      rfl
  · have hstart : text 47 (start cwd path) = absolute cwd.names := by
      rw [start, if_neg habs, absolute]
      split
      · rfl
      · rfl
    dsimp only
    rw [if_pos ⟨hne, habs⟩, hcap, getcwd, hstart]
    rcases Nat.lt_or_ge (absolute cwd.names).length (PATH_MAX + 1) with hlt | hge
    · obtain ⟨hcap', hstrlen, htake⟩ := put_dir (noNul_absolute cwd) hlt
      rw [if_pos hlt]
      dsimp only
      generalize (ManagedBuffer.init (PATH_MAX + 1)).put 0 (absolute cwd.names ++ [0]) = filled at hcap' hstrlen htake
      have hroom : (absolute cwd.names).length < filled.cap := hcap' ▸ hlt
      obtain ⟨buf, hput, hcap₁, hsize₁, hdata₁⟩ :=
        @put_ok { filled with size := (absolute cwd.names).length } 47 hroom
      refine Or.inr ⟨buf, ⟨hcap₁.trans hcap', ?_, ?_⟩, ?_⟩
      · rw [hsize₁, hcap₁]
        exact hroom
      · rw [hdata₁, ManagedBuffer.data, hstart, htake]
      · rw [hstrlen, hput]
        rfl
    · rw [if_neg (Nat.not_lt_of_le hge)]
      exact Or.inl ⟨hge, habs, rfl⟩

theorem no_slash_start (cwd : Directory) (path : List UInt8) : ∀ d ∈ start cwd path, 47 ∉ d := by
  rw [start]
  split
  · exact fun d hd => absurd hd List.not_mem_nil
  · split
    · intro d hd
      obtain rfl := List.mem_singleton.mp hd
      exact List.not_mem_nil
    · exact fun d hd => (cwd.isName d hd).no_sep

section

variable (hmax : PATH_MAX < 2 ^ 31)

include hmax

theorem normalize_fits (hne : path ≠ []) (hfits : Fits PATH_MAX (start cwd path) (path.splitOn 47)) :
    normalize PATH_MAX cwd path =
      match LexicalPaths.resolve 46 (start cwd path) (path.splitOn 47) with
      | some names => .ok ((text 47 names).takeWhile (· ≠ 0))
      | none => .error (belowRoor path) := by
  rcases normalize_eq_ended hne with ⟨hlong, -⟩ | ⟨buf, h, hnormalize⟩
  · exact absurd (hfits _ (LexicalPaths.self_mem_way _ _)) (Nat.not_le_of_lt hlong)
  · rw [hnormalize, ended_eq hmax h (no_slash_start cwd path), outcome, if_pos hfits]

theorem normalize_long (hne : path ≠ []) (hlong : ¬Fits PATH_MAX (start cwd path) (path.splitOn 47)) :
    normalize PATH_MAX cwd path = .error (.systemError "unable to getcwd") ∨
      normalize PATH_MAX cwd path = .error (.stopped .wildAccess) := by
  rcases normalize_eq_ended hne with ⟨-, -, hnormalize⟩ | ⟨buf, h, hnormalize⟩
  · exact Or.inl hnormalize
  · exact Or.inr (by rw [hnormalize, ended_eq hmax h (no_slash_start cwd path), outcome, if_neg hlong])

/-- The size of the empty path is taken below 0. -/
theorem normalize_empty : normalize PATH_MAX cwd [] = .error (.stopped .wildAccess) := by
  have hcap : (ManagedBuffer.init (PATH_MAX + 1)).cap = PATH_MAX + 1 := List.length_replicate
  refine if_neg ?_
  rw [hcap]
  change ¬2 ^ 64 - 1 < PATH_MAX + 1
  omega

omit hmax in
/-- Nothing is cut off from names without a 0. -/
theorem takeWhile_text (hnul : ∀ t ∈ names, 0 ∉ t) : (text 47 names).takeWhile (· ≠ 0) = text 47 names := by
  refine List.takeWhile_eq_self_iff.mpr fun c hc => decide_eq_true ?_
  rintro rfl
  obtain ⟨t, ht, hc⟩ := List.mem_flatMap.mp hc
  rcases List.mem_cons.mp hc with heq | hc
  · exact absurd heq (by decide)
  · exact hnul t ht hc

/-- A path of names is not changed. -/
theorem normalize_text (hname : ∀ t ∈ names, IsName 47 46 t) (hnul : ∀ t ∈ names, 0 ∉ t) (hne : names ≠ [])
    (hlen : (text 47 names).length ≤ PATH_MAX) (cwd : Directory) :
    normalize PATH_MAX cwd (text 47 names) = .ok (text 47 names) := by
  have hhead : (text 47 names)[0]? = some 47 := by
    obtain ⟨t, names, rfl⟩ := List.exists_cons_of_ne_nil hne
    rfl
  have hstart : start cwd (text 47 names) = [] := if_pos hhead
  have hsegs : (text 47 names).splitOn 47 = [] :: names := LexicalPaths.splitOn_text fun t ht => (hname t ht).no_sep
  have hfits : Fits PATH_MAX [] ([] :: names) := by
    refine (fits_cons (Nat.zero_le _) (step_skip (Or.inl rfl))).mpr fun d hd => ?_
    have hle := @LexicalPaths.length_way _ _ 47 _ [] names d hd
    exact Nat.le_trans hle (by rw [text, List.flatMap_nil, List.length_nil, Nat.zero_add]; exact hlen)
  have hresolve : LexicalPaths.resolve 46 [] ([] :: names) = some names := by
    rw [LexicalPaths.resolve_cons, step_skip (Or.inl rfl), Option.bind_some, LexicalPaths.resolve_names hname]
    rfl
  rw [normalize_fits hmax (fun hnil => by rw [hnil] at hhead; cases hhead) (by rwa [hstart, hsegs]), hstart, hsegs,
    hresolve]
  dsimp only
  rw [takeWhile_text hnul]

/-- The root comes out empty. -/
theorem normalize_root (cwd : Directory) : normalize PATH_MAX cwd [47] = .ok [] := by
  have hfits : Fits PATH_MAX [] [[], []] := by
    intro d hd
    have hnil : d = [] := by
      change d ∈ [[], [], []] at hd
      simpa using hd
    rw [hnil]
    exact Nat.zero_le _
  exact normalize_fits hmax (by decide) hfits

omit hmax in
theorem fits_of_absolute (hpath : path.length < PATH_MAX + 1) (habs : path[0]? = some 47) :
    Fits PATH_MAX [] (path.splitOn 47) := by
  obtain ⟨rest, rfl⟩ : ∃ rest, path = 47 :: rest := by
    cases path with
    | nil => cases habs
    | cons c rest =>
      cases habs
      exact ⟨rest, rfl⟩
  have hsegs : (47 :: rest : List UInt8).splitOn 47 = [] :: rest.splitOn 47 :=
    List.splitOn_append_cons_self_of_not_mem List.not_mem_nil rest
  rw [hsegs]
  refine (fits_cons (Nat.zero_le _) (step_skip (Or.inl rfl))).mpr fun d hd => ?_
  have hle := @LexicalPaths.length_way _ _ 47 _ [] _ d hd
  rw [LexicalPaths.length_splitOn, show (text 47 ([] : List (List UInt8))).length = 0 from rfl, Nat.zero_add] at hle
  exact Nat.le_of_lt_succ (Nat.lt_of_le_of_lt hle hpath)

omit hmax in
theorem ne_zero_of_mem {c : UInt8} {xs : List UInt8} (h : c ∈ xs.takeWhile (· ≠ 0)) : c ≠ 0 := by
  have hp := List.mem_takeWhile_imp h
  exact of_decide_eq_true hp

omit hmax in
/-- With a doubled root in front a path is another one. -/
theorem doubled_root (h : (text 47 ([] :: names)).takeWhile (· ≠ 0) = absolute names) : names = [] := by
  by_contra hne
  have hdouble : text 47 ([] :: names) = 47 :: text 47 names := rfl
  rw [absolute, if_neg hne] at h
  have hall : ∀ c ∈ text 47 ([] :: names), decide (c ≠ 0) = true := by
    intro c hc
    refine decide_eq_true ?_
    rw [hdouble] at hc
    rcases List.mem_cons.mp hc with rfl | hc
    · decide
    · rw [← h] at hc
      exact ne_zero_of_mem hc
  rw [List.takeWhile_eq_self_iff.mpr hall, hdouble] at h
  exact absurd (congrArg List.length h) (Nat.succ_ne_self _)

/-- When the path starts where it is to start. -/
theorem normalizes_iff_of_base (hne : path ≠ []) (hfits : Fits PATH_MAX (base cwd path) (path.splitOn 47))
    (hbase : start cwd path = base cwd path) (hstart : path[0]? = some 47 ∨ cwd.names ≠ []) :
    Normalizes PATH_MAX cwd path ↔ Meets PATH_MAX cwd path := by
  have hnames : ∀ d ∈ base cwd path, IsName 47 46 d := by
    rw [base]
    split
    · exact fun d hd => absurd hd List.not_mem_nil
    · exact cwd.isName
  have hresult := normalize_fits hmax hne (hbase ▸ hfits)
  rw [Normalizes, Meets]
  rw [hbase] at hresult ⊢
  cases hresolve : LexicalPaths.resolve 46 (base cwd path) (path.splitOn 47) with
  | none =>
    rw [hresolve] at hresult
    exact ⟨fun _ => ⟨hne, fun _ => hfits, trivial⟩, fun _ => hresult⟩
  | some names =>
    rw [hresolve] at hresult
    have hisName := LexicalPaths.isName_resolve hnames (LexicalPaths.no_sep_splitOn path) hresolve
    have hlen : (text 47 names).length ≤ PATH_MAX := hfits names (LexicalPaths.mem_way hresolve)
    constructor
    · rintro ⟨-, hok, -⟩
      have htext : absolute names = (text 47 names).takeWhile (· ≠ 0) := Except.ok.inj (hok.symm.trans hresult)
      have hnames : names ≠ [] := by
        rintro rfl
        cases htext
      rw [absolute, if_neg hnames] at htext
      refine ⟨hne, fun _ => hfits, hnames, fun t ht hnul => ?_, hstart⟩
      have hmem : (0 : UInt8) ∈ text 47 names := List.mem_flatMap.mpr ⟨t, ht, List.mem_cons_of_mem _ hnul⟩
      rw [htext] at hmem
      exact ne_zero_of_mem hmem rfl
    · rintro ⟨-, -, hnames, hnul, -⟩
      have hself := normalize_text hmax hisName hnul hnames hlen
      have htext : absolute names = text 47 names := if_neg hnames
      change _ ∧ normalize PATH_MAX cwd path = .ok (absolute names) ∧ _
      rw [htext]
      exact ⟨hisName, hresult.trans (congrArg Except.ok (takeWhile_text hnul)), hself⟩

/-- A relative path in the root, which is taken for a directory with an empty name. -/
theorem normalizes_iff_of_root (hne : path ≠ []) (hrel : path[0]? ≠ some 47) (hroot : cwd.names = [])
    (hfits : Fits PATH_MAX (start cwd path) (path.splitOn 47)) :
    Normalizes PATH_MAX cwd path ↔ Meets PATH_MAX cwd path := by
  have hstart : start cwd path = [[]] := (if_neg hrel).trans (if_pos hroot)
  have hbase : base cwd path = [] := (if_neg hrel).trans hroot
  have hresult := normalize_fits hmax hne hfits
  rw [Normalizes, Meets]
  rw [hstart] at hresult hfits ⊢
  rw [hbase]
  have habove : ∀ {names}, LexicalPaths.resolve 46 [] (path.splitOn 47) = some names →
      LexicalPaths.resolve 46 [[]] (path.splitOn 47) = some ([] :: names) := fun h => LexicalPaths.resolve_above h [[]]
  cases hresolve : LexicalPaths.resolve 46 [] (path.splitOn 47) with
  | none =>
    cases hcode : LexicalPaths.resolve 46 [[]] (path.splitOn 47) with
    | none =>
      rw [hcode] at hresult
      exact ⟨fun _ => ⟨hne, fun _ => hfits, trivial⟩, fun _ => hresult⟩
    | some names =>
      rw [hcode] at hresult
      constructor
      · intro herror
        cases herror.symm.trans hresult
      · rintro ⟨-, -, -, -, hor⟩
        exact absurd hor (not_or.mpr ⟨hrel, not_not_intro hroot⟩)
  | some names =>
    rw [habove hresolve] at hresult ⊢
    constructor
    · rintro ⟨hname, hok, hself⟩
      have hnil : names = [] := doubled_root (Except.ok.inj (hresult.symm.trans hok))
      subst hnil
      cases (normalize_root hmax cwd).symm.trans (hself cwd)
    · rintro ⟨-, -, -, -, hor⟩
      exact absurd hor (not_or.mpr ⟨hrel, not_not_intro hroot⟩)

/-- A path is normalized just if it is not empty, fits with all directories on the way, and leads above the root or to
another directory than the root. A relative path in the root is not, unless it leads above the root twice. -/
theorem normalizes_iff (cwd : Directory) (path : List UInt8) (hpath : path.length < PATH_MAX + 1) :
    Normalizes PATH_MAX cwd path ↔ Meets PATH_MAX cwd path := by
  by_cases hne : path = []
  · subst hne
    refine ⟨fun h => ?_, fun h => absurd rfl h.1⟩
    rw [Normalizes, normalize_empty hmax] at h
    split at h
    · obtain ⟨-, hok, -⟩ := h
      cases hok
    · cases h
  by_cases hfits : Fits PATH_MAX (start cwd path) (path.splitOn 47)
  · by_cases hstart : path[0]? = some 47 ∨ cwd.names ≠ []
    · have hbase : start cwd path = base cwd path := by
        rw [start, base]
        split
        · rfl
        · exact if_neg (hstart.resolve_left ‹_›)
      exact normalizes_iff_of_base hmax hne (hbase ▸ hfits) hbase hstart
    · obtain ⟨hrel, hroot⟩ := not_or.mp hstart
      exact normalizes_iff_of_root hmax hne hrel (not_not.mp hroot) hfits
  · have hrel : path[0]? ≠ some 47 := fun habs => hfits (by rw [start, if_pos habs]; exact fits_of_absolute hpath habs)
    refine ⟨fun h => ?_, fun h => absurd (h.2.1 hrel) hfits⟩
    rw [Normalizes] at h
    rcases normalize_long hmax hne hfits with hlong | hlong
    all_goals
      rw [hlong] at h
      split at h
      · obtain ⟨-, hok, -⟩ := h
        cases hok
      · cases h

end

def home : Directory := ⟨[ascii "home", ascii "me"], by decide, by decide⟩

theorem sibling_normalized : Normalizes 4096 home (ascii ".././/you") :=
  (normalizes_iff (by decide) home _ (by decide)).mpr
    ⟨by decide, fun _ => by decide, by decide, by decide, Or.inr (by decide)⟩

/-- The root is normalized to nothing. -/
theorem root_not_normalized : ¬∀ (PATH_MAX : Nat) (cwd : Directory) (path : List UInt8), PATH_MAX < 2 ^ 31 →
    path.length < PATH_MAX + 1 → Normalizes PATH_MAX cwd path := by
  intro hall
  obtain ⟨-, hok, -⟩ := hall 4096 home [47] (by decide) (by decide)
  cases (normalize_root (by decide) home).symm.trans hok

end Fs

end Crack
