import Crack.Lang.ObjectDecisions
import Crack.Lib.Rearrange
import Crack.Lib.XorAll

/-!
# Hash values of equal objects

Two lists with equal elements are equal, and each is hashed by its address. The hash value
of an array is the exclusive or of those of its elements, so a list that an array holds
twice doesn't count. A float that stands for no number is equal to every other, and an
array of more elements than an `int` counts to every one that isn't longer.
-/
namespace Crack

namespace Ref

open Decision

mutual

/-- The objects whose addresses the hash value is made of. -/
def hashed : Ref → List Addr
  | .null => []
  | .object addr => [addr]
  | .buffer _ _ => []
  | .seq addr cls elems =>
    if cls.generic = .array then if Counted elems then hashedElems elems else []
    else [addr]
  | .values addr generic _ _ => if generic = .array then [] else [addr]

def hashedElems : List Ref → List Addr
  | [] => []
  | a :: elems => a.hashed ++ hashedElems elems

end

mutual

/-- The floats without a conversion that the hash value is made of. -/
def unconverted : Ref → List AnyFloat
  | .null => []
  | .object _ => []
  | .buffer _ _ => []
  | .seq _ cls elems => if cls.generic = .array ∧ Counted elems then unconvertedElems elems else []
  | .values _ generic t elems => if generic = .array ∧ Counted elems then elems.flatMap t.unconverted else []

def unconvertedElems : List Ref → List AnyFloat
  | [] => []
  | a :: elems => a.unconverted ++ unconvertedElems elems

end

mutual

/-- The rest of the hash value, which depends neither on where the objects lie nor on what
such floats become. -/
def contentHash : Ref → BitVec 32
  | .null => 0
  | .object _ => 0
  | .buffer _ bytes => bufferHash bytes
  | .seq _ cls elems => if cls.generic = .array ∧ Counted elems then contentElems elems else 0
  | .values _ generic t elems =>
    if generic = .array ∧ Counted elems then xorAll (Builtin.makeHashVal (fun _ => 0) t) elems else 0

def contentElems : List Ref → BitVec 32
  | [] => 0
  | a :: elems => a.contentHash ^^^ contentElems elems

end

theorem setWidth_hash (n : BitVec 32) : (n.setWidth 64).setWidth 32 = n := BitVec.setWidth_setWidth_of_le _ (by decide)

theorem hashLoop_eq {α : Type} (hash : α → BitVec 32) (result : BitVec 64) (elems : List α) :
    (hashLoop hash result elems).setWidth 32 = result.setWidth 32 ^^^ xorAll hash elems := by
  induction elems generalizing result with
  | nil => simp [hashLoop]
  | cons a elems ih => rw [hashLoop, ih, BitVec.setWidth_xor, setWidth_hash, xorAll_cons, BitVec.xor_assoc]

theorem hashElems_eq (fpToUI : AnyFloat → BitVec 32) (result : BitVec 64) (elems : List Ref) :
    hashElems fpToUI result elems = hashLoop (makeHashVal fpToUI) result elems := by
  induction elems generalizing result with
  | nil => rfl
  | cons a elems ih => rw [hashElems, ih, hashLoop]

theorem hashedElems_eq (elems : List Ref) : hashedElems elems = elems.flatMap hashed := by
  induction elems with
  | nil => rfl
  | cons a elems ih => rw [hashedElems, ih, List.flatMap_cons]

theorem unconvertedElems_eq (elems : List Ref) : unconvertedElems elems = elems.flatMap unconverted := by
  induction elems with
  | nil => rfl
  | cons a elems ih => rw [unconvertedElems, ih, List.flatMap_cons]

theorem contentElems_eq (elems : List Ref) : contentElems elems = xorAll contentHash elems := by
  induction elems with
  | nil => rfl
  | cons a elems ih => rw [contentElems, ih, xorAll_cons]

theorem makeHashVal_eq (fpToUI : AnyFloat → BitVec 32) (a : Ref) :
    a.makeHashVal fpToUI = xorAll objectHash a.hashed ^^^ (xorAll fpToUI a.unconverted ^^^ a.contentHash) := by
  induction a using byElems with | ofElems a ih =>
  cases a with
  | null => simp [makeHashVal, hashed, unconverted, contentHash]
  | object p => simp [makeHashVal, hashed, unconverted, contentHash]
  | buffer p s => simp [makeHashVal, hashed, unconverted, contentHash]
  | seq p cls elems =>
    rw [makeHashVal, hashed, unconverted, contentHash, hashedElems_eq, unconvertedElems_eq, contentElems_eq]
    cases cls.generic with
    | array =>
      simp only [seqHash, if_true, true_and]
      split
      · rw [hashElems_eq, hashLoop_eq, xorAll_congr ih, xorAll_xor, xorAll_xor, xorAll_flatMap, xorAll_flatMap]
        simp
      · simp
    | list => simp [seqHash]
    | dlist => simp [seqHash]
  | values p generic t elems =>
    rw [makeHashVal, hashed, unconverted, contentHash]
    cases generic with
    | array =>
      simp only [seqHash, if_true, true_and]
      split
      · rw [hashLoop_eq, xorAll_congr fun v _ => Builtin.makeHashVal_eq fpToUI v, xorAll_xor, xorAll_flatMap]
        simp
      · simp
    | list => simp [seqHash]
    | dlist => simp [seqHash]

/-- The elements are as many wherever they lie. -/
theorem counted_moveElems (σ : Equiv.Perm Addr) (elems : List Ref) : Counted (moveElems σ elems) ↔ Counted elems := by
  rw [Counted, Counted, moveElems_eq, List.length_map]

theorem flatMap_moveElems {β : Type} (σ : Equiv.Perm Addr) {f g : Ref → List β} {elems : List Ref}
    (h : ∀ a ∈ elems, f (a.move σ) = g a) : (moveElems σ elems).flatMap f = elems.flatMap g := by
  rw [moveElems_eq, List.flatMap_map, List.flatMap_congr h]

theorem hashed_move (σ : Equiv.Perm Addr) (a : Ref) : (a.move σ).hashed = a.hashed.map σ := by
  induction a using byElems with | ofElems a ih =>
  cases a with
  | seq p cls elems =>
    rw [move, hashed, hashed, hashedElems_eq, hashedElems_eq, flatMap_moveElems σ ih, ← List.map_flatMap]
    simp only [counted_moveElems]
    split
    · split <;> rfl
    · rfl
  | values p generic t elems =>
    rw [move, hashed, hashed]
    split <;> rfl
  | _ => rfl

theorem unconverted_move (σ : Equiv.Perm Addr) (a : Ref) : (a.move σ).unconverted = a.unconverted := by
  induction a using byElems with | ofElems a ih =>
  cases a with
  | seq p cls elems =>
    rw [move, unconverted, unconverted, unconvertedElems_eq, unconvertedElems_eq, flatMap_moveElems σ ih]
    simp only [counted_moveElems]
  | _ => rfl

theorem contentHash_move (σ : Equiv.Perm Addr) (a : Ref) : (a.move σ).contentHash = a.contentHash := by
  induction a using byElems with | ofElems a ih =>
  cases a with
  | seq p cls elems =>
    rw [move, contentHash, contentHash, contentElems_eq, contentElems_eq]
    simp only [counted_moveElems]
    rw [moveElems_eq, xorAll_map, xorAll_congr (f := contentHash ∘ move σ) ih]
  | _ => rfl

/-- What compares and is hashed like a list of numbers: no array is too long for an `int`,
and every value stands for a number. -/
def IsPlain : Ref → Prop
  | .seq _ cls elems => cls.generic = .array → Counted elems
  | .values _ generic t elems => (generic = .array → Counted elems) ∧ ∀ v ∈ elems, t.isNaN v = false
  | _ => True

instance : ∀ a : Ref, Decidable a.IsPlain
  | .null | .object _ | .buffer _ _ => .isTrue trivial
  | .seq _ cls elems => inferInstanceAs (Decidable (cls.generic = .array → Counted elems))
  | .values _ generic t elems =>
    decidable_of_iff ((generic = .array → Counted elems) ∧ elems.all fun v => !t.isNaN v) (by simp [IsPlain])

/-- All that can be reached is plain. -/
def Plain (roots : List Ref) : Prop := ∀ x ∈ partsElems roots, x.IsPlain

instance (roots : List Ref) : Decidable (Plain roots) :=
  decidable_of_iff ((partsElems roots).all fun x => x.IsPlain) (by simp [Plain])

/-- Two functions that agree on elements that are the same agree on the lists. -/
theorem eq_of_walk_same {α β : Type} {w : Nat} {f : α → α → Decision} {hash : α → BitVec w} {floats : α → List β}
    {elems others : List α} (h : ∀ a ∈ elems, ∀ b ∈ others, f a b = .same → hash a = hash b ∧ floats a = floats b)
    (hsame : walk f elems others = .same) :
    xorAll hash elems = xorAll hash others ∧ elems.flatMap floats = others.flatMap floats := by
  induction elems generalizing others with
  | nil =>
    cases others with
    | nil => exact ⟨rfl, rfl⟩
    | cons b others => cases hsame
  | cons a elems ih =>
    cases others with
    | nil => cases hsame
    | cons b others =>
      rw [walk, andThen_eq_same] at hsame
      obtain ⟨hhash, hfloats⟩ := h a List.mem_cons_self b List.mem_cons_self hsame.1
      obtain ⟨hrest, hrest'⟩ := ih (fun x hx y hy => h x (List.mem_cons_of_mem _ hx) y (List.mem_cons_of_mem _ hy)) hsame.2
      rw [xorAll_cons, xorAll_cons, List.flatMap_cons, List.flatMap_cons, hhash, hfloats, hrest, hrest']
      exact ⟨rfl, rfl⟩

/-- Of two sequences that are no arrays neither counts. -/
theorem same_of_array {α β : Type} {generic : SeqKind} {elems others : List α} {x y : BitVec 32} {l m : List β}
    (hcounted : generic = .array → Counted elems ∧ Counted others) (h : x = y ∧ l = m) :
    (if generic = .array ∧ Counted elems then x else 0) = (if generic = .array ∧ Counted others then y else 0) ∧
      (if generic = .array ∧ Counted elems then l else []) = if generic = .array ∧ Counted others then m else [] := by
  by_cases harray : generic = .array
  · obtain ⟨helems, hothers⟩ := hcounted harray
    rw [if_pos ⟨harray, helems⟩, if_pos ⟨harray, hothers⟩, if_pos ⟨harray, helems⟩, if_pos ⟨harray, hothers⟩]
    exact h
  · simp [harray]

/-- Apart from the addresses, the hash values of equal objects are equal. -/
theorem contentHash_of_same (a b : Ref) (hinj : ∀ x ∈ a.parts, ∀ y ∈ b.parts, x.uintz = y.uintz → x = y)
    (ha : ∀ x ∈ a.parts, x.IsPlain) (hb : ∀ y ∈ b.parts, y.IsPlain) (hsame : a.decision b = .same) :
    a.contentHash = b.contentHash ∧ a.unconverted = b.unconverted := by
  induction a using byElems generalizing b with | ofElems a ih =>
  by_cases h : a.uintz = b.uintz
  · rw [hinj a (mem_parts_self a) b (mem_parts_self b) h]
    exact ⟨rfl, rfl⟩
  rw [decision_of_ne h] at hsame
  have hplain := ha a (mem_parts_self a)
  have hplain' := hb b (mem_parts_self b)
  cases a with
  | null => cases hsame
  | object p => exact absurd hsame (beside_ne_same p b)
  | buffer p s =>
    rw [differ] at hsame
    cases b with
    | buffer q t =>
      rw [contentHash, contentHash, contentCmp_eq_zero (ofInt_eq_same.mp hsame)]
      exact ⟨rfl, rfl⟩
    | _ => cases hsame
  | seq p cls elems =>
    rw [differ] at hsame
    obtain ⟨others, hpeer, hwalk⟩ := peer_of_same hplain hsame
    obtain ⟨q, rfl⟩ := peerElems_eq_some.mp hpeer
    rw [decisions_eq] at hwalk
    have helems := eq_of_walk_same (fun x hx y hy => ih x hx y
      (fun u hu v hv => hinj u (parts_of_elem (List.Subset.refl _) hx hu) v (parts_of_elem (List.Subset.refl _) hy hv))
      (fun u hu => ha u (parts_of_elem (List.Subset.refl _) hx hu))
      (fun v hv => hb v (parts_of_elem (List.Subset.refl _) hy hv))) hwalk
    rw [contentHash, contentHash, unconverted, unconverted, contentElems_eq, contentElems_eq, unconvertedElems_eq,
      unconvertedElems_eq]
    exact same_of_array (fun harray => ⟨hplain harray, hplain' harray⟩) helems
  | values p generic t elems =>
    rw [differ] at hsame
    obtain ⟨others, hpeer, hwalk⟩ := peer_of_same hplain.1 hsame
    obtain ⟨q, rfl⟩ := peerValues_eq_some.mp hpeer
    have helems := eq_of_walk_same (fun v hv w hw heq =>
      (Builtin.makeHashVal_of_cmp (hplain.2 v hv) (hplain'.2 w hw) (ofInt_eq_same.mp heq)).imp_left fun h =>
        h fun _ => 0) hwalk
    rw [contentHash, contentHash, unconverted, unconverted]
    exact same_of_array (fun harray => ⟨hplain.1 harray, hplain'.1 harray⟩) helems

def IsArray : Ref → Prop
  | .seq _ cls _ => cls.generic = .array
  | .values _ generic _ _ => generic = .array
  | _ => False

/-- What is hashed by its address is reached, and is no array. -/
theorem exists_part_of_hashed {q : Addr} (a : Ref) (h : q ∈ a.hashed) :
    ∃ y ∈ a.parts, y.uintz = q.uintz ∧ ¬y.IsArray := by
  induction a using byElems with | ofElems a ih =>
  have hself : ∀ {p : Addr}, a.uintz = p.uintz → ¬a.IsArray → q ∈ [p] → ∃ y ∈ a.parts, y.uintz = q.uintz ∧ ¬y.IsArray := by
    intro p hp harray hq
    rw [List.mem_singleton] at hq
    exact ⟨a, mem_parts_self a, hq ▸ hp, harray⟩
  cases a with
  | null => cases h
  | object p => exact hself rfl id h
  | buffer p s => cases h
  | seq p cls elems =>
    rw [hashed] at h
    split at h
    · split at h
      · rw [hashedElems_eq] at h
        obtain ⟨x, hx, hq⟩ := List.mem_flatMap.mp h
        obtain ⟨y, hy, hq⟩ := ih x hx hq
        exact ⟨y, List.mem_cons_of_mem _ (parts_subset hx hy), hq⟩
      · cases h
    · next hlist => exact hself rfl hlist h
  | values p generic t elems =>
    rw [hashed] at h
    split at h
    · cases h
    · next hlist => exact hself rfl hlist h

/-- Two addresses that are hashed differently. -/
theorem exists_objectHash_ne : ∃ p q : Addr, p ≠ q ∧ objectHash p ≠ objectHash q :=
  ⟨⟨1, by decide⟩, ⟨2, by decide⟩, by decide, by decide⟩

variable {a b : Ref}

theorem makeHashVal_move (fpToUI : AnyFloat → BitVec 32) (σ : Equiv.Perm Addr) (a : Ref) :
    (a.move σ).makeHashVal fpToUI =
      xorAll (objectHash ∘ σ) a.hashed ^^^ (xorAll fpToUI a.unconverted ^^^ a.contentHash) := by
  rw [makeHashVal_eq, hashed_move, unconverted_move, contentHash_move, xorAll_map]

/-- An address that doesn't count can be exchanged with one that does. -/
theorem sameParity_of_spare {l m : List Addr} {q : Addr} (hl : q ∉ l) (hm : q ∉ m) {n : BitVec 32}
    (h : ∀ σ : Equiv.Perm Addr, xorAll (objectHash ∘ σ) (l ++ m) = n) : SameParity l m := by
  intro p
  by_contra hp
  have hodd : (l ++ m).count p % 2 = 1 := by
    rw [List.count_append]
    omega
  have heven : (l ++ m).count q % 2 = 0 := by
    rw [List.count_append, List.count_eq_zero.mpr hl, List.count_eq_zero.mpr hm]
  have hpq : p ≠ q := by
    rintro rfl
    omega
  obtain ⟨x, y, hxy, hne⟩ := exists_objectHash_ne
  obtain ⟨σ, hσp, hσq⟩ := exists_perm_pair hpq hxy
  have hexchange := xorAll_exchange (f := objectHash ∘ σ) (g := objectHash ∘ ((Equiv.swap p q).trans σ)) hodd heven
    (fun c hcp hcq => by simp [Equiv.swap_apply_of_ne_of_ne hcp hcq])
  rw [h, h, BitVec.xor_self] at hexchange
  have heq : objectHash x = objectHash y := by
    simpa [hσp, hσq] using BitVec.xor_eq_zero_iff.mp hexchange.symm
  exact hne heq

theorem exists_spare (p q : Addr) : ∃ r : Addr, r ≠ p ∧ r ≠ q := by
  by_contra h
  push Not at h
  have h1 := h ⟨1, by decide⟩
  have h2 := h ⟨2, by decide⟩
  have h3 := h ⟨3, by decide⟩
  by_cases hp : (⟨1, by decide⟩ : Addr) = p
  · subst hp
    exact absurd ((h2 (by decide)).trans (h3 (by decide)).symm) (by decide)
  · have hq := h1 hp
    subst hq
    by_cases hp' : (⟨2, by decide⟩ : Addr) = p
    · subst hp'
      exact absurd (h3 (by decide)) (by decide)
    · exact absurd (h2 hp') (by decide)

/-- An array's own address doesn't count. -/
theorem not_mem_hashed_of_array (hco : Coherent [a, b]) {p : Addr} (hp : a.uintz = p.uintz) (harray : a.IsArray)
    {c : Ref} (hc : c.parts ⊆ partsElems [a, b]) : p ∉ c.hashed := by
  intro hmem
  obtain ⟨y, hy, heq, hnot⟩ := exists_part_of_hashed c hmem
  have ha : a ∈ partsElems [a, b] := mem_partsElems (by simp)
  rw [hco y (hc hy) a ha (heq.trans hp.symm)] at hnot
  exact hnot harray

/-- For two objects that are equal, some address counts for neither. -/
theorem exists_spare_of_same (hsame : a.decision b = .same) (hco : Coherent [a, b]) (haddr : a.uintz ≠ b.uintz) :
    ∃ q, q ∉ a.hashed ∧ q ∉ b.hashed := by
  have ha : a.parts ⊆ partsElems [a, b] := parts_subset (by simp)
  have hb : b.parts ⊆ partsElems [a, b] := parts_subset (by simp)
  have hlists : ∀ {p q : Addr}, a.hashed = [p] → b.hashed = [q] → ∃ r, r ∉ a.hashed ∧ r ∉ b.hashed := by
    intro p q hp hq
    obtain ⟨r, hrp, hrq⟩ := exists_spare p q
    exact ⟨r, by simpa [hp], by simpa [hq]⟩
  rw [decision_of_ne haddr] at hsame
  match a with
  | .null => cases hsame
  | .object p => exact absurd hsame (beside_ne_same p b)
  | .buffer p s =>
    cases b with
    | buffer q t => exact ⟨p, List.not_mem_nil, List.not_mem_nil⟩
    | _ => cases hsame
  | .seq p cls elems =>
    by_cases harray : cls.generic = .array
    · exact ⟨p, not_mem_hashed_of_array hco rfl harray ha, not_mem_hashed_of_array hco rfl harray hb⟩
    · rw [differ] at hsame
      obtain ⟨others, hpeer, -⟩ := peer_of_same (fun h => absurd h harray) hsame
      obtain ⟨q, rfl⟩ := peerElems_eq_some.mp hpeer
      exact hlists (p := p) (q := q) (by rw [hashed, if_neg harray]) (by rw [hashed, if_neg harray])
  | .values p generic t elems =>
    by_cases harray : generic = .array
    · exact ⟨p, not_mem_hashed_of_array hco rfl harray ha, not_mem_hashed_of_array hco rfl harray hb⟩
    · rw [differ] at hsame
      obtain ⟨others, hpeer, -⟩ := peer_of_same (fun h => absurd h harray) hsame
      obtain ⟨q, rfl⟩ := peerValues_eq_some.mp hpeer
      exact hlists (p := p) (q := q) (by rw [hashed, if_neg harray]) (by rw [hashed, if_neg harray])

/-- Where the hash values are equal wherever the objects lie and whatever such floats become,
the three parts of them are. -/
theorem parts_of_makeHashVal_eq (hsame : a.decision b = .same) (hco : Coherent [a, b])
    (h : ∀ (fpToUI : AnyFloat → BitVec 32) (σ : Equiv.Perm Addr),
      (a.move σ).makeHashVal fpToUI = (b.move σ).makeHashVal fpToUI) :
    SameParity a.hashed b.hashed ∧ SameParity a.unconverted b.unconverted ∧ a.contentHash = b.contentHash := by
  by_cases haddr : a.uintz = b.uintz
  · rw [hco a (mem_partsElems (by simp)) b (mem_partsElems (by simp)) haddr]
    exact ⟨fun _ => rfl, fun _ => rfl, rfl⟩
  simp only [makeHashVal_move] at h
  obtain ⟨q, hqa, hqb⟩ := exists_spare_of_same hsame hco haddr
  -- first with floats that become 0, then at one place
  have hzero : ∀ n : BitVec 32, 0 ^^^ n = n := fun _ => BitVec.zero_xor
  have hcontent : ∀ σ : Equiv.Perm Addr,
      xorAll (objectHash ∘ σ) (a.hashed ++ b.hashed) = a.contentHash ^^^ b.contentHash := by
    intro σ
    have hσ := h (fun _ => 0) σ
    rw [xorAll_zero, xorAll_zero, hzero, hzero] at hσ
    rw [xorAll_append, ← BitVec.xor_eq_zero_iff]
    rw [← BitVec.xor_eq_zero_iff] at hσ
    rw [← hσ]
    ac_rfl
  have hparity := sameParity_of_spare hqa hqb hcontent
  have heq : a.contentHash = b.contentHash := by
    have h1 := hcontent 1
    rw [xorAll_append, xorAll_eq _ hparity, BitVec.xor_self] at h1
    exact BitVec.xor_eq_zero_iff.mp h1.symm
  refine ⟨hparity, sameParity_of_eq (w := 31) fun fpToUI => ?_, heq⟩
  have h1 := h fpToUI 1
  rwa [xorAll_eq _ hparity, heq, BitVec.xor_right_inj, BitVec.xor_left_inj] at h1

end Ref

open Ref

/-- Equal objects have equal hash values wherever they lie and whatever a float becomes that
has no conversion, provided that each list occurs, by way of arrays, in both of them an odd
or in both an even number of times; and where something is reached that isn't plain, so does
each such float, and the rest of the hash values is equal. -/
theorem equal_hash_iff {a b : Ref} (hco : Coherent [a, b]) (ha : a ≠ .null) (hcmp : a.cmp b = 0) :
    (∀ (fpToUI : AnyFloat → BitVec 32) (σ : Equiv.Perm Addr), (a.move σ).cmp (b.move σ) = 0 →
        (a.move σ).makeHashVal fpToUI = (b.move σ).makeHashVal fpToUI) ↔
      SameParity a.hashed b.hashed ∧
        (Plain [a, b] ∨ SameParity a.unconverted b.unconverted ∧ a.contentHash = b.contentHash) := by
  have hmem : ∀ c ∈ [a, b], c.parts ⊆ partsElems [a, b] := fun c => parts_subset
  have hinj : ∀ x ∈ a.parts, ∀ y ∈ b.parts, x.uintz = y.uintz → x = y := fun x hx y hy =>
    hco x (hmem a (by simp) hx) y (hmem b (by simp) hy)
  have hroots := hinj a (mem_parts_self a) b (mem_parts_self b)
  have hsame : a.decision b = .same := by
    have hsign := sign_cmp ha hroots
    rw [hcmp] at hsign
    exact (Decision.sign_eq_zero_iff (decision_proper a b) hsign).mp rfl
  have hmoved : ∀ σ : Equiv.Perm Addr, (a.move σ).cmp (b.move σ) = 0 := fun σ => by
    rw [← Int.sign_eq_zero_iff_zero, sign_cmp_move σ ha hroots, hsame]
    rfl
  constructor
  · intro h
    obtain ⟨hparity, hfloats, hcontent⟩ := parts_of_makeHashVal_eq hsame hco fun fpToUI σ => h fpToUI σ (hmoved σ)
    exact ⟨hparity, .inr ⟨hfloats, hcontent⟩⟩
  · rintro ⟨hparity, hrest⟩ fpToUI σ -
    obtain ⟨hfloats, hcontent⟩ : SameParity a.unconverted b.unconverted ∧ a.contentHash = b.contentHash := by
      refine hrest.elim (fun hplain => ?_) id
      obtain ⟨hcontent, hfloats⟩ := contentHash_of_same a b hinj (fun x hx => hplain x (hmem a (by simp) hx))
        (fun y hy => hplain y (hmem b (by simp) hy)) hsame
      exact ⟨fun _ => by rw [hfloats], hcontent⟩
    rw [makeHashVal_move, makeHashVal_move, xorAll_eq _ hparity, xorAll_eq _ hfloats, hcontent]

theorem sixteen_ne_zero : (16 : BitVec 64) ≠ 0 := by decide

/-- Each list of one string, at an address of its own. -/
def stringList (addr : Addr) : Ref := .seq addr ⟨.list, "String"⟩ [.buffer ⟨16, sixteen_ne_zero⟩ [97]]

/-- The list twice, and an array of one float. -/
def stringListTwice (addr list floats : Addr) (float : BitVec 64) : Ref :=
  .seq addr ⟨.array, "Object"⟩ [stringList list, stringList list, .values floats .array .float64 [float]]

def minusZero : BitVec 64 := BitVec.twoPow 64 63

def zeroTwice : Ref := stringListTwice ⟨64, by decide⟩ ⟨32, by decide⟩ ⟨96, by decide⟩ 0

def minusZeroTwice : Ref := stringListTwice ⟨80, by decide⟩ ⟨48, by decide⟩ ⟨112, by decide⟩ minusZero

/-- Arrays that hold one of two equal lists twice, and a zero of either sign. -/
theorem equal_hash_twice : zeroTwice.cmp minusZeroTwice = 0 ∧
    ∀ (fpToUI : AnyFloat → BitVec 32) (σ : Equiv.Perm Addr), (zeroTwice.move σ).cmp (minusZeroTwice.move σ) = 0 →
      (zeroTwice.move σ).makeHashVal fpToUI = (minusZeroTwice.move σ).makeHashVal fpToUI := by
  have hco : Coherent [zeroTwice, minusZeroTwice] := by
    simp [Coherent, zeroTwice, minusZeroTwice, stringListTwice, stringList, partsElems, parts, uintz]
  have hplain : Plain [zeroTwice, minusZeroTwice] := by decide
  refine ⟨by decide, (equal_hash_iff hco Ref.noConfusion (by decide)).mpr ⟨fun p => ?_, .inl hplain⟩⟩
  have hcount : ∀ q : Addr, [q, q].count p % 2 = 0 := fun q => by
    simp only [List.count_cons, List.count_nil]
    split <;> rfl
  exact (hcount ⟨32, by decide⟩).trans (hcount ⟨48, by decide⟩).symm

/-- Two equal lists, hashed by their addresses. -/
theorem lists_equal_hashed_apart :
    Coherent [stringList ⟨32, by decide⟩, stringList ⟨48, by decide⟩] ∧
      (stringList ⟨32, by decide⟩).cmp (stringList ⟨48, by decide⟩) = 0 ∧
      ∀ fpToUI : AnyFloat → BitVec 32, (stringList ⟨32, by decide⟩).makeHashVal fpToUI ≠
        (stringList ⟨48, by decide⟩).makeHashVal fpToUI := by
  refine ⟨?_, by decide, fun fpToUI => ?_⟩
  · simp [Coherent, stringList, partsElems, parts, uintz]
  · change objectHash ⟨32, by decide⟩ ≠ objectHash ⟨48, by decide⟩
    decide

end Crack
