import Crack.Lang.Buffers
import Crack.Lib.Pages

/-!
# Page buffers

A `PageBufferReader` reads a stream in pages and keeps all of them, with one of them as the current page.
-/
namespace Crack

open Pages (page)

structure PageBufferReader where
  /-- the current page -/
  buffer : Option (List UInt8)
  eof : Bool
  size : Nat
  reader : Source
  pageMap : Nat → Option (List UInt8)
  pageSize : Nat
  currentPage : Nat
  pages : Nat

namespace PageBufferReader

inductive Op where
  | get (i : UInt32)
  | substr (start len : UInt32)

variable (p : PageBufferReader)

/-- One page is read behind those that there are. -/
def readPage : PageBufferReader :=
  let (bytes, reader) := p.reader.read p.pageSize
  let p := { p with buffer := some bytes, reader, eof := p.eof || bytes.length < p.pageSize }
  if bytes = [] then p
  else
    let pages := uint (p.pages + 1)
    { p with
      size := uint (p.size + bytes.length), pageMap := Function.update p.pageMap p.pages (some bytes), pages,
      currentPage := if pages > 1 then uint (p.currentPage + 1) else p.currentPage }

/-- The loop of `_readTo`. -/
def readPages (bi : Nat) : Nat → PageBufferReader → Except Stop PageBufferReader
  | 0, _ => .error .forever
  | fuel + 1, p =>
    if p.currentPage < bi ∨ p.pages = 0 then
      if p.readPage.buffer = some [] then .ok p.readPage else readPages bi fuel p.readPage
    else .ok p

/-- Each round of the loop but the last one reads something. -/
def readTo (i : Nat) : Except Stop PageBufferReader :=
  let bi := i / p.pageSize
  if p.pages > 0 ∧ bi = p.currentPage then .ok p
  else if bi ≤ p.currentPage ∧ p.pages > 0 then
    match p.pageMap bi with
    | some buffer => .ok { p with buffer := some buffer, currentPage := bi }
    | none => .error (.thrown s!"Unknown key: {bi}")
  else readPages bi (p.reader.left.length + 1) p

/-- A page size of zero is divided by. -/
def init (r : Source) (cs : UInt32) : Except Stop PageBufferReader :=
  if cs = 0 then .error .abort
  else readTo ⟨none, false, 0, r, fun _ => none, cs.toNat, 0, 0⟩ 0

/-- The page of a place is read, if it has not been read yet. -/
def load (i : Nat) : Except Stop PageBufferReader :=
  if p.pages = 0 ∨ i / p.pageSize ≥ p.pages then p.readTo i else .ok p

/-- A byte of the current page. An index from 2 ^ 31 on is negative. -/
def current (j : Nat) : Except Stop (List UInt8) :=
  match p.buffer with
  | none => .error .wildAccess
  | some buffer =>
    match buffer[j]? with
    | some c => if j < 2 ^ 31 then .ok [c] else .error .wildAccess
    | none => .error (.indexError "string index out of bounds")

/-- `oper []` -/
def get (i : Nat) : Except Stop (List UInt8) × PageBufferReader :=
  let bi := i / p.pageSize
  match p.load i with
  | .error e => (.error e, p)
  | .ok p =>
    if bi ≥ p.pages then (.error (.indexError "buffer index out of bounds"), p)
    else if p.currentPage ≠ bi then
      let p := { p with currentPage := bi, buffer := p.pageMap bi }
      if p.buffer = none then (.error (.indexError "attempting to read from discarded page"), p)
      else (p.current (i % p.pageSize), p)
    else (p.current (i % p.pageSize), p)

/-- The part of a page that is in a range. -/
def part (start len i : Nat) : Except Stop (List UInt8) :=
  let stop := uint (start + len)
  let si := start / p.pageSize
  let ei := stop / p.pageSize
  match p.pageMap i with
  | none => .error (.thrown s!"Unknown key: {i}")
  | some cb =>
    let offset := if i = si then start % p.pageSize else 0
    let amount := if i = si then if i = ei then len else p.pageSize - start % p.pageSize
      else if i < ei then p.pageSize else stop % p.pageSize
    if amount = 0 ∨ offset < 2 ^ 31 ∧ offset + amount ≤ cb.length then .ok ((cb.drop offset).take amount)
    else .error .wildAccess

def substr (start len : Nat) : Except Stop (List UInt8) × PageBufferReader :=
  let stop := uint (start + len)
  let si := start / p.pageSize
  let ei := stop / p.pageSize
  match p.load start with
  | .error e => (.error e, p)
  | .ok p =>
    match p.load stop with
    | .error e => (.error e, p)
    | .ok p =>
      if si ≥ p.pages ∨ ei ≥ p.pages then (.error (.indexError "buffer index out of bounds"), p)
      else
        let retval := (List.range' si (ei + 1 - si)).foldlM (fun (retval : ManagedBuffer) i => do
          let bytes ← p.part start len i
          retval.extend bytes) (.init len)
        (retval.map ManagedBuffer.data, p)

def step : Op → Except Stop (List UInt8) × PageBufferReader
  | .get i => p.get i.toNat
  | .substr start len => p.substr start.toNat len.toNat

/-- What the accesses of a run return or throw. -/
def run (p : PageBufferReader) : List Op → List (Except Stop (List UInt8)) × PageBufferReader
  | [] => ([], p)
  | op :: ops => ((p.step op).1 :: (run (p.step op).2 ops).1, (run (p.step op).2 ops).2)

/-- What an access of the stream is to return. -/
def Answers (src : List UInt8) : Op → Except Stop (List UInt8) → Prop
  | .get i, result =>
    match src[i.toNat]? with
    | some c => result = .ok [c]
    | none => ∃ text, result = .error (.indexError text)
  | .substr start len, result =>
    if start.toNat + len.toNat ≤ src.length then result = .ok ((src.drop start.toNat).take len.toNat)
    else ∃ text, result = .error (.indexError text)

/-- The next reads return a whole page or all that is left. -/
def WholeReads (n : Nat) : Nat → Source → Prop
  | 0, _ => True
  | k + 1, s => (s.read n).1.length = min n s.left.length ∧ WholeReads n k (s.read n).2

/-- The pages up to a new one are read whole, and their number is a `uint`. -/
def ReadsOk (src : List UInt8) (p : PageBufferReader) (bi : Nat) : Prop :=
  p.pages ≤ bi → WholeReads p.pageSize (bi - p.currentPage) p.reader ∧
    (p.pages + (bi - p.currentPage) < 2 ^ 32 ∨ Pages.count p.pageSize src < 2 ^ 32)

/-- The current page is the one that is thought to be, and new pages are read from the last one on or to the
end. A substring does not end with the stream at the end of a page nor behind it in its last page. No index, in a
page or in the substring, is negative. -/
def OpOk (src : List UInt8) (p : PageBufferReader) : Op → Prop
  | .get i =>
    let bi := i.toNat / p.pageSize
    ReadsOk src p bi ∧
      (bi < p.pages → bi = p.currentPage → p.buffer = p.pageMap bi ∨ p.buffer = some [] ∧ src.length ≤ i.toNat) ∧
      (p.pages ≤ bi → p.pages = p.currentPage + 1 ∨ p.reader.left.length ≤ (bi - p.currentPage - 1) * p.pageSize) ∧
      (i.toNat < src.length → i.toNat % p.pageSize < 2 ^ 31)
  | .substr start len =>
    let stop := start.toNat + len.toNat
    if stop < 2 ^ 32 then
      ReadsOk src p (stop / p.pageSize) ∧ (stop = src.length → ¬p.pageSize ∣ stop) ∧
        (src.length < stop → Pages.count p.pageSize src * p.pageSize ≤ stop) ∧
        (0 < len.toNat → stop ≤ src.length → start.toNat % p.pageSize < 2 ^ 31 ∧
          (stop - 1) / p.pageSize * p.pageSize - start.toNat < 2 ^ 31)
    else ReadsOk src p (start.toNat / p.pageSize) ∧ Pages.count p.pageSize src * p.pageSize ≤ start.toNat

def RunOk (src : List UInt8) (p : PageBufferReader) : List Op → Prop
  | [] => True
  | op :: ops => OpOk src p op ∧ RunOk src (p.step op).2 ops

section

variable (src : List UInt8) (p : PageBufferReader)

instance decidableWholeReads (n : Nat) : ∀ k s, Decidable (WholeReads n k s)
  | 0, _ => .isTrue trivial
  | k + 1, s =>
    have := decidableWholeReads n k (s.read n).2
    inferInstanceAs (Decidable (_ ∧ _))

instance (bi : Nat) : Decidable (ReadsOk src p bi) := inferInstanceAs (Decidable (_ → _))

instance decidableOpOk : ∀ op, Decidable (OpOk src p op)
  | .get _ => inferInstanceAs (Decidable (_ ∧ _ ∧ _ ∧ _))
  | .substr start len =>
    inferInstanceAs (Decidable (if start.toNat + len.toNat < 2 ^ 32 then _ ∧ _ ∧ _ ∧ _ else _ ∧ _))

instance decidableRunOk : ∀ (p : PageBufferReader) ops, Decidable (RunOk src p ops)
  | _, [] => .isTrue trivial
  | p, op :: ops =>
    have := decidableRunOk (p.step op).2 ops
    inferInstanceAs (Decidable (_ ∧ _))

end

/-- The pages that have been read, with what is left behind them. -/
structure Laid (src : List UInt8) (p : PageBufferReader) : Prop where
  positive : 0 < p.pageSize
  small : p.pages < 2 ^ 32
  inside : p.pages ≤ Pages.count p.pageSize src
  map : ∀ k < p.pages, p.pageMap k = some (page p.pageSize src k)
  left : p.reader.left = src.drop (p.pages * p.pageSize)
  current : p.currentPage ≤ p.pages - 1

variable {p : PageBufferReader} {src : List UInt8} {n k bi : Nat} {s : Source} {p' : PageBufferReader} {ops : List Op}

theorem wholeReads_of_nil (h : s.left = []) (k : Nat) : WholeReads n k s := by
  induction k generalizing s with
  | zero => trivial
  | succ k ih =>
    have hread : s.read n = ([], ⟨[], fun i => s.splits (i + 1)⟩) := by
      rw [Source.read, h, List.take_nil, List.drop_nil]
    refine ⟨?_, ?_⟩
    · rw [hread, h]
      exact (Nat.min_zero n).symm
    · rw [hread]
      exact ih rfl

theorem WholeReads.mono {m : Nat} (h : WholeReads n m s) (hle : k ≤ m) : WholeReads n k s := by
  induction k generalizing s m with
  | zero => trivial
  | succ k ih =>
    obtain ⟨m, rfl⟩ := Nat.exists_eq_add_of_le' (Nat.lt_of_lt_of_le (Nat.succ_pos k) hle)
    exact ⟨h.1, ih h.2 (Nat.le_of_succ_le_succ hle)⟩

/-- A read that is not short. -/
theorem read_whole (h : (s.read n).1.length = min n s.left.length) :
    (s.read n).1 = s.left.take n ∧ (s.read n).2.left = s.left.drop n := by
  have hamount : min (s.amount n) s.left.length = min n s.left.length := by rw [← h, Source.read, List.length_take]
  exact ⟨List.take_eq_take_iff.mpr hamount, List.drop_eq_drop_iff.mpr hamount⟩

theorem Laid.readPage_end (h : Laid src p) (hleft : p.reader.left = []) :
    Laid src p.readPage ∧ p.readPage.buffer = some [] ∧ p.readPage.reader.left = [] ∧ p.readPage.pages = p.pages ∧
      p.readPage.currentPage = p.currentPage ∧ p.readPage.pageSize = p.pageSize := by
  have hread : p.reader.read p.pageSize = ([], ⟨[], fun i => p.reader.splits (i + 1)⟩) := by
    rw [Source.read, hleft, List.take_nil, List.drop_nil]
  have hrest : [] = src.drop (p.pages * p.pageSize) := hleft.symm.trans h.left
  rw [readPage, hread]
  exact ⟨⟨h.positive, h.small, h.inside, h.map, hrest, h.current⟩, rfl, rfl, rfl, rfl, rfl⟩

theorem Laid.lt_count (h : Laid src p) (hleft : p.reader.left ≠ []) : p.pages < Pages.count p.pageSize src := by
  rw [Pages.lt_count_iff h.positive]
  by_contra hnot
  rw [h.left, List.drop_eq_nil_of_le (Nat.le_of_not_lt hnot)] at hleft
  exact hleft rfl

/-- At the end of the stream there are all pages. -/
theorem Laid.count_eq (h : Laid src p) (hleft : p.reader.left = []) : Pages.count p.pageSize src = p.pages := by
  refine Nat.le_antisymm (Nat.le_of_not_lt fun hlt => ?_) h.inside
  have hlength := congrArg List.length (hleft.symm.trans h.left)
  rw [List.length_nil, List.length_drop] at hlength
  have hpages := (Pages.lt_count_iff h.positive).mp hlt
  omega

/-- A page that is read is the next one. -/
theorem Laid.readPage_next (h : Laid src p) (hleft : p.reader.left ≠ [])
    (hwhole : (p.reader.read p.pageSize).1.length = min p.pageSize p.reader.left.length)
    (hsmall : p.pages + 1 < 2 ^ 32) :
    Laid src p.readPage ∧ p.readPage.buffer = p.readPage.pageMap p.pages ∧ p.readPage.buffer ≠ some [] ∧
      p.readPage.reader = (p.reader.read p.pageSize).2 ∧ p.readPage.pages = p.pages + 1 ∧
      p.readPage.currentPage = (if p.pages = 0 then p.currentPage else p.currentPage + 1) ∧
      p.readPage.pageSize = p.pageSize := by
  obtain ⟨hbytes, hafter⟩ := read_whole hwhole
  have hne : (p.reader.read p.pageSize).1 ≠ [] := List.ne_nil_of_length_pos (Source.read_pos h.positive hleft)
  have hpage : (p.reader.read p.pageSize).1 = page p.pageSize src p.pages := by rw [hbytes, h.left, page]
  have hpages : uint (p.pages + 1) = p.pages + 1 := Nat.mod_eq_of_lt hsmall
  have hcurrent := h.current
  have hmoved : (if uint (p.pages + 1) > 1 then uint (p.currentPage + 1) else p.currentPage) =
      if p.pages = 0 then p.currentPage else p.currentPage + 1 := by
    rw [hpages]
    by_cases hzero : p.pages = 0
    · rw [if_neg (by omega), if_pos hzero]
    · rw [if_pos (by omega), if_neg hzero]
      exact Nat.mod_eq_of_lt (by omega)
  have hnext : p.readPage =
      { p with
        buffer := some (p.reader.read p.pageSize).1, reader := (p.reader.read p.pageSize).2,
        eof := p.eof || (p.reader.read p.pageSize).1.length < p.pageSize,
        size := uint (p.size + (p.reader.read p.pageSize).1.length),
        pageMap := Function.update p.pageMap p.pages (some (p.reader.read p.pageSize).1), pages := uint (p.pages + 1),
        currentPage := if uint (p.pages + 1) > 1 then uint (p.currentPage + 1) else p.currentPage } := if_neg hne
  rw [hnext, hmoved, hpages]
  refine ⟨⟨h.positive, hsmall, h.lt_count hleft, fun k hk => ?_, ?_, ?_⟩, ?_, ?_, rfl, rfl, rfl, rfl⟩
  · dsimp only at hk ⊢
    by_cases heq : k = p.pages
    · rw [heq, Function.update_self, hpage]
    · rw [Function.update_of_ne heq]
      exact h.map k (by omega)
  · dsimp only
    rw [hafter, h.left, List.drop_drop, Nat.succ_mul]
  · dsimp only
    split <;> omega
  · dsimp only
    rw [Function.update_self]
  · exact fun hsome => hne (Option.some.inj hsome)

/-- What the loop of `_readTo` leaves. -/
structure ReadTo (src : List UInt8) (p : PageBufferReader) (bi : Nat) (p' : PageBufferReader) : Prop where
  laid : Laid src p'
  pageSize : p'.pageSize = p.pageSize
  more : p.pages ≤ p'.pages
  moved : p'.currentPage + p.pages = p.currentPage + p'.pages
  /-- the loop gets to the page, or else to the end of the stream -/
  ended : p'.currentPage = bi ∧ p'.buffer = p'.pageMap (p'.pages - 1) ∨
    p'.currentPage < bi ∧ p'.buffer = some [] ∧ p'.reader.left = []
  whole : ∀ m, WholeReads p.pageSize (bi - p.currentPage + m) p.reader → WholeReads p.pageSize m p'.reader

theorem Laid.readPages_ok (h : Laid src p) (hpages : 0 < p.pages) (hle : p.currentPage ≤ bi)
    (hbuffer : p.currentPage = bi → p.buffer = p.pageMap (p.pages - 1))
    (hwhole : WholeReads p.pageSize (bi - p.currentPage) p.reader)
    (hsmall : p.pages + (bi - p.currentPage) < 2 ^ 32 ∨ Pages.count p.pageSize src < 2 ^ 32)
    {fuel : Nat} (hfuel : p.reader.left.length < fuel) :
    ∃ p', readPages bi fuel p = .ok p' ∧ ReadTo src p bi p' := by
  induction fuel generalizing p with
  | zero => exact absurd hfuel (Nat.not_lt_zero _)
  | succ fuel ih =>
    rw [readPages]
    by_cases hthere : p.currentPage = bi
    · refine ⟨p, if_neg (by omega), h, rfl, Nat.le_refl _, rfl, .inl ⟨hthere, hbuffer hthere⟩, fun m hm => ?_⟩
      rwa [hthere, Nat.sub_self, Nat.zero_add] at hm
    rw [if_pos (.inl (Nat.lt_of_le_of_ne hle hthere))]
    obtain ⟨m, hm⟩ : ∃ m, bi - p.currentPage = m + 1 := ⟨bi - p.currentPage - 1, by omega⟩
    by_cases hleft : p.reader.left = []
    · obtain ⟨hlaid, hempty, hleft', hpages', hcurrent, hsize⟩ := h.readPage_end hleft
      refine ⟨p.readPage, if_pos hempty, hlaid, hsize, Nat.le_of_eq hpages'.symm, by rw [hcurrent, hpages'],
        .inr ⟨by omega, hempty, hleft'⟩, fun m _ => wholeReads_of_nil hleft' m⟩
    · rw [hm] at hwhole
      have hlt := h.lt_count hleft
      have hpageless : p.pages + 1 < 2 ^ 32 := by omega
      obtain ⟨hlaid, hbuffer', hne, hreader, hpages', hcurrent, hsize⟩ := h.readPage_next hleft hwhole.1 hpageless
      rw [if_neg (show p.pages ≠ 0 by omega)] at hcurrent
      have hread := @Source.read_append p.reader p.pageSize
      have hpos := Source.read_pos h.positive hleft
      have hshort : p.readPage.reader.left.length < fuel := by
        have hlength := congrArg List.length hread
        rw [List.length_append] at hlength
        rw [hreader]
        omega
      have hrest : bi - p.readPage.currentPage = m := by omega
      obtain ⟨p', he, hto⟩ := ih hlaid (by omega) (by omega) (fun _ => by rw [hbuffer', hpages']; rfl)
        (by rw [hrest, hsize, hreader]; exact hwhole.2) (by rw [hsize]; omega) hshort
      refine ⟨p', ?_, hto.laid, hto.pageSize.trans hsize, ?_, ?_, hto.ended, fun k hk => ?_⟩
      · rw [if_neg hne, he]
      · have hmore := hto.more
        omega
      · have hmoved := hto.moved
        omega
      · have hnext := hto.whole k
        rw [hrest, hsize, hreader] at hnext
        rw [hm, Nat.add_right_comm] at hk
        exact hnext hk.2

/-- What the access to a page leaves. -/
structure Loaded (src : List UInt8) (p : PageBufferReader) (bi : Nat) (p' : PageBufferReader) : Prop where
  laid : Laid src p'
  pageSize : p'.pageSize = p.pageSize
  more : p.pages ≤ p'.pages
  there : bi < p'.pages ∨ p'.pages = Pages.count p.pageSize src

theorem Laid.load_ok (h : Laid src p) (hempty : p.pages = 0 → src = []) {i : Nat}
    (hok : ReadsOk src p (i / p.pageSize)) :
    ∃ p', p.load i = .ok p' ∧ Loaded src p (i / p.pageSize) p' ∧
      (p.pages ≤ i / p.pageSize → 0 < p.pages → ReadTo src p (i / p.pageSize) p') := by
  by_cases hzero : p.pages = 0
  · have hleft : p.reader.left = [] := by rw [h.left, hempty hzero, List.drop_nil]
    obtain ⟨hlaid, hbuffer, -, hpages, -, hsize⟩ := h.readPage_end hleft
    refine ⟨p.readPage, ?_, ⟨hlaid, hsize, Nat.le_of_eq hpages.symm, .inr ?_⟩, fun _ hpos => by omega⟩
    · rw [load, if_pos (.inl hzero), readTo, if_neg (by omega), if_neg (by omega), readPages, if_pos (.inr hzero)]
      exact if_pos hbuffer
    · rw [hpages, h.count_eq hleft]
  by_cases hin : i / p.pageSize < p.pages
  · refine ⟨p, if_neg (by omega), ⟨h, rfl, Nat.le_refl _, .inl hin⟩, fun hle _ => by omega⟩
  have hcurrent := h.current
  obtain ⟨hwhole, hsmall⟩ := hok (Nat.le_of_not_lt hin)
  obtain ⟨p', he, hto⟩ := @Laid.readPages_ok p src (i / p.pageSize) h (by omega) (by omega) (by omega) hwhole hsmall
    (p.reader.left.length + 1) (Nat.lt_succ_self _)
  refine ⟨p', ?_, ⟨hto.laid, hto.pageSize, hto.more, ?_⟩, fun _ _ => hto⟩
  · rw [load, if_pos (.inr (Nat.le_of_not_lt hin)), readTo, if_neg (by omega), if_neg (by omega), he]
  · have hmoved := hto.moved
    rcases hto.ended with ⟨hthere, -⟩ | ⟨-, -, hleft⟩
    · exact .inl (by omega)
    · exact .inr (by rw [← hto.laid.count_eq hleft, hto.pageSize])

theorem Laid.current_page (h : Laid src p) {i : Nat} (hbuffer : p.buffer = p.pageMap (i / p.pageSize))
    (hin : i / p.pageSize < p.pages) (hindex : i < src.length → i % p.pageSize < 2 ^ 31) :
    p.current (i % p.pageSize) = match src[i]? with
      | some c => .ok [c]
      | none => .error (.indexError "string index out of bounds") := by
  rw [PageBufferReader.current, hbuffer, h.map _ hin]
  dsimp only
  rw [Pages.getElem?_page h.positive]
  split
  next hget => exact if_pos (hindex (List.getElem?_eq_some_iff.mp hget).1)
  next => rfl

theorem answers_get {i : UInt32} {result : Except Stop (List UInt8)}
    (h : result = match src[i.toNat]? with
      | some c => .ok [c]
      | none => .error (.indexError "string index out of bounds")) : Answers src (.get i) result := by
  rw [h, Answers]
  split
  next => rfl
  next => exact ⟨_, rfl⟩

/-- Behind all pages there is nothing. -/
theorem Loaded.length_le {i : Nat} (h : Loaded src p (i / p.pageSize) p') (hout : p'.pages ≤ i / p.pageSize) :
    src.length ≤ i := by
  have hpages : p'.pages = Pages.count p.pageSize src := h.there.resolve_left (Nat.not_lt_of_le hout)
  have hall := @Pages.length_le _ _ src h.laid.positive
  rw [h.pageSize, ← hpages] at hall
  exact Nat.le_trans hall (Nat.le_trans (Nat.mul_le_mul_right _ hout) (Nat.div_mul_le_self i p.pageSize))

theorem Loaded.empty (h : Loaded src p bi p') (hzero : p'.pages = 0) : src = [] := by
  have hpages : p'.pages = Pages.count p.pageSize src := h.there.resolve_left (by omega)
  have hall := @Pages.length_le _ _ src h.laid.positive
  rw [h.pageSize, ← hpages, hzero, Nat.zero_mul] at hall
  exact List.eq_nil_of_length_eq_zero (Nat.le_zero.mp hall)

/-- The current page is the page of the place, in a state from which it may be read. -/
theorem Laid.loaded_current (h : Laid src p) (hempty : p.pages = 0 → src = []) {i : UInt32} (hok : OpOk src p (.get i))
    (he : p.load i.toNat = .ok p') (hloaded : Loaded src p (i.toNat / p.pageSize) p')
    (hto : p.pages ≤ i.toNat / p.pageSize → 0 < p.pages → ReadTo src p (i.toNat / p.pageSize) p')
    (hin : i.toNat / p.pageSize < p'.pages) (hcurrent : p'.currentPage = i.toNat / p.pageSize) :
    p'.buffer = p'.pageMap (i.toNat / p.pageSize) ∨ p'.buffer = some [] ∧ src.length ≤ i.toNat := by
  obtain ⟨-, hknown, hbehind, -⟩ := hok
  by_cases hold : i.toNat / p.pageSize < p.pages
  · rw [load, if_neg (by omega)] at he
    cases he
    exact hknown hold hcurrent.symm
  · have hnew := Nat.le_of_not_lt hold
    have hpos : 0 < p.pages := by
      by_contra hnot
      have hnone := hloaded.laid.inside
      rw [hempty (by omega), Pages.count, List.length_nil, Nat.zero_add] at hnone
      have hzero : (p'.pageSize - 1) / p'.pageSize = 0 := Nat.div_eq_of_lt (by have := hloaded.laid.positive; omega)
      omega
    have hmoved := (hto hnew hpos).moved
    rcases (hto hnew hpos).ended with ⟨-, hbuffer⟩ | ⟨hless, -⟩
    · rcases hbehind hnew with hlast | hshort
      · have hplace : p'.pages - 1 = i.toNat / p.pageSize := by omega
        exact .inl (hplace ▸ hbuffer)
      · exfalso
        have hread : p'.pages - 1 = p.pages + (i.toNat / p.pageSize - p.currentPage - 1) := by
          have := h.current
          omega
        have hlt : (p'.pages - 1) * p'.pageSize < src.length :=
          (Pages.lt_count_iff hloaded.laid.positive).mp (Nat.lt_of_lt_of_le (by omega) hloaded.laid.inside)
        rw [hread, hloaded.pageSize, Nat.add_mul] at hlt
        rw [h.left, List.length_drop] at hshort
        omega
    · exact absurd hcurrent (Nat.ne_of_lt hless)

theorem Laid.get_ok (h : Laid src p) (hempty : p.pages = 0 → src = []) {i : UInt32} (hok : OpOk src p (.get i)) :
    Answers src (.get i) (p.step (.get i)).1 ∧ Laid src (p.step (.get i)).2 ∧
      ((p.step (.get i)).2.pages = 0 → src = []) := by
  obtain ⟨p', he, hloaded, hto⟩ := h.load_ok hempty hok.1
  have hlaid := hloaded.laid
  have hsize := hloaded.pageSize
  rw [step, get, he]
  dsimp only
  by_cases hout : p'.pages ≤ i.toNat / p.pageSize
  · rw [if_pos hout]
    refine ⟨?_, hlaid, hloaded.empty⟩
    rw [Answers, List.getElem?_eq_none (hloaded.length_le hout)]
    exact ⟨_, rfl⟩
  rw [if_neg hout]
  have hin := Nat.lt_of_not_le hout
  by_cases hcurrent : p'.currentPage = i.toNat / p.pageSize
  · rw [if_neg (not_not_intro hcurrent)]
    refine ⟨answers_get ?_, hlaid, hloaded.empty⟩
    rcases h.loaded_current hempty hok he hloaded hto hin hcurrent with hbuffer | ⟨hbuffer, hlength⟩
    · rw [← hsize] at hbuffer hin
      exact hlaid.current_page hbuffer hin (by rw [hsize]; exact hok.2.2.2)
    · rw [PageBufferReader.current, hbuffer, List.getElem?_eq_none hlength]
      rfl
  · have hpage := hlaid.map _ hin
    rw [if_pos hcurrent, if_neg (by rw [hpage]; exact fun hnone => nomatch hnone)]
    have hmoved :
        Laid src { p' with currentPage := i.toNat / p.pageSize, buffer := p'.pageMap (i.toNat / p.pageSize) } :=
      ⟨hlaid.positive, hlaid.small, hlaid.inside, hlaid.map, hlaid.left, Nat.le_sub_one_of_lt hin⟩
    refine ⟨answers_get ?_, hmoved, hloaded.empty⟩
    exact hmoved.current_page (by dsimp only; rw [hsize]) (by dsimp only; rw [hsize]; exact hin)
      (by dsimp only; rw [hsize]; exact hok.2.2.2)

section substr

variable {start len i : Nat} {retval : ManagedBuffer} {ei : Nat}

/-- The part of a page is what the range and the page have in common. -/
theorem Laid.part_ok (h : Laid src p) (hsmall : start + len < 2 ^ 32) (hlength : start + len ≤ src.length)
    (hindex : 0 < len → start % p.pageSize < 2 ^ 31) (hin : (start + len) / p.pageSize < p.pages) (hsi : start / p.pageSize ≤ i) (hei : i ≤ (start + len) / p.pageSize) :
    p.part start len i = .ok ((src.drop (max start (i * p.pageSize))).take
      (min (start + len) ((i + 1) * p.pageSize) - max start (i * p.pageSize))) := by
  have hpos := h.positive
  have hstop : uint (start + len) = start + len := Nat.mod_eq_of_lt hsmall
  have hoffset := Pages.offset_eq hpos hsi
  have hamount := Pages.amount_eq hpos (Nat.le_add_right start len) hsi hei
  rw [Nat.add_sub_cancel_left] at hamount
  -- the range begins before the end of the page, and ends behind its start
  have hfirst : max start (i * p.pageSize) ≤ (i + 1) * p.pageSize := by
    have hbegin := Nat.lt_mul_of_div_lt (Nat.lt_succ_of_le hsi) hpos
    exact Nat.max_le.mpr ⟨Nat.le_of_lt hbegin, Nat.mul_le_mul_right _ (Nat.le_succ i)⟩
  have hlast : i * p.pageSize ≤ start + len := Nat.mul_le_of_le_div _ _ _ hei
  rw [part, h.map i (Nat.lt_of_le_of_lt hei hin), hstop]
  dsimp only
  have hplace : max start (i * p.pageSize) - i * p.pageSize ≤ start % p.pageSize := by
    rw [← hoffset]
    split
    next => exact Nat.le_refl _
    next => exact Nat.zero_le _
  rw [hoffset, hamount]
  have hbegin := Nat.le_max_left start (i * p.pageSize)
  have hstart := Nat.le_max_right start (i * p.pageSize)
  have hmax : max start (i * p.pageSize) ≤ start + len := Nat.max_le.mpr ⟨Nat.le_add_right start len, hlast⟩
  have hmin := Nat.min_le_left (start + len) ((i + 1) * p.pageSize)
  have hmin' := Nat.min_le_right (start + len) ((i + 1) * p.pageSize)
  have hle : max start (i * p.pageSize) ≤ min (start + len) ((i + 1) * p.pageSize) := Nat.le_min.mpr ⟨hmax, hfirst⟩
  generalize max start (i * p.pageSize) = first at hbegin hstart hle hplace ⊢
  generalize min (start + len) ((i + 1) * p.pageSize) = last at hmin hmin' hle ⊢
  rw [Nat.succ_mul] at hmin'
  have hsum : first - i * p.pageSize + (last - first) = last - i * p.pageSize := by omega
  have hlength' : last - i * p.pageSize ≤ min p.pageSize (src.length - i * p.pageSize) :=
    Nat.le_min.mpr ⟨by omega, by omega⟩
  have hmem : last - first = 0 ∨
      first - i * p.pageSize < 2 ^ 31 ∧ first - i * p.pageSize + (last - first) ≤ (page p.pageSize src i).length := by
    rcases Nat.eq_zero_or_pos len with h0 | hlen
    · exact .inl (by omega)
    · rw [Pages.length_page, hsum]
      exact .inr ⟨Nat.lt_of_le_of_lt hplace (hindex hlen), hlength'⟩
  rw [if_pos hmem, Pages.slice_page (by omega)]
  rw [Nat.add_sub_cancel' hstart]

/-- One round of the loop. -/
theorem Laid.part_added (h : Laid src p) (hsmall : start + len < 2 ^ 32) (hlength : start + len ≤ src.length)
    (hindex : 0 < len → start % p.pageSize < 2 ^ 31 ∧
      (start + len - 1) / p.pageSize * p.pageSize - start < 2 ^ 31) (hin : (start + len) / p.pageSize < p.pages) (hsi : start / p.pageSize ≤ i) (hei : i ≤ (start + len) / p.pageSize)
    (hsound : retval.size ≤ retval.cap)
    (hdata : retval.data = (src.drop start).take (max start (i * p.pageSize) - start)) :
    ∃ retval', (do let bytes ← p.part start len i; retval.extend bytes) = .ok retval' ∧ retval'.size ≤ retval'.cap ∧
      retval'.data = (src.drop start).take (min (start + len) ((i + 1) * p.pageSize) - start) := by
  have hfirst : max start (i * p.pageSize) ≤ min (start + len) ((i + 1) * p.pageSize) := by
    have hnext := Nat.lt_mul_of_div_lt (Nat.lt_succ_of_le hsi) h.positive
    have hle := Nat.mul_le_of_le_div _ _ _ hei
    rw [Nat.succ_mul]
    rw [Nat.succ_mul] at hnext
    omega
  have hpart := h.part_ok hsmall hlength (fun hlen => (hindex hlen).1) hin hsi hei
  have hstart : start ≤ max start (i * p.pageSize) := Nat.le_max_left _ _
  have hstop : min (start + len) ((i + 1) * p.pageSize) ≤ start + len := Nat.min_le_left _ _
  -- the last page with bytes of the range is not before this one, if this one has some
  have hlast : max start (i * p.pageSize) < min (start + len) ((i + 1) * p.pageSize) →
      max start (i * p.pageSize) - start < 2 ^ 31 := by
    intro hsome
    have hmore : i * p.pageSize ≤ (start + len - 1) / p.pageSize * p.pageSize :=
      Nat.mul_le_mul_right _ ((Nat.le_div_iff_mul_le h.positive).mpr (by omega))
    have hbelow := (hindex (by omega)).2
    omega
  generalize max start (i * p.pageSize) = first at hfirst hpart hdata hstart hlast
  generalize min (start + len) ((i + 1) * p.pageSize) = last at hfirst hpart hstop hlast ⊢
  have hsize : retval.size ≤ first - start := by
    rw [← ManagedBuffer.length_data hsound, hdata, List.length_take]
    exact Nat.min_le_left _ _
  have hbytes : ((src.drop first).take (last - first)).length ≤ last - first := by
    rw [List.length_take]
    exact Nat.min_le_left _ _
  have hplace : retval.size < 2 ^ 31 ∨ (src.drop first).take (last - first) = [] := by
    by_cases hsome : first < last
    · exact .inl (Nat.lt_of_le_of_lt hsize (hlast hsome))
    · exact .inr (List.eq_nil_of_length_eq_zero (by omega))
  obtain ⟨retval', he, -, hsound', hdata'⟩ :=
    @ManagedBuffer.extend_ok retval ((src.drop first).take (last - first)) hsound hplace (by omega)
  refine ⟨retval', ?_, hsound', ?_⟩
  · rw [hpart]
    exact he
  · have hplace : start + (first - start) = first := by omega
    have hall : last - start = first - start + (last - first) := by omega
    rw [hdata', hdata, hall, List.take_add, List.drop_drop, hplace]

theorem Laid.parts_ok (h : Laid src p) (hsmall : start + len < 2 ^ 32) (hlength : start + len ≤ src.length)
    (hindex : 0 < len → start % p.pageSize < 2 ^ 31 ∧
      (start + len - 1) / p.pageSize * p.pageSize - start < 2 ^ 31)
    (hin : (start + len) / p.pageSize < p.pages) {c : Nat} (hsi : start / p.pageSize ≤ i)
    (hei : i + c = (start + len) / p.pageSize) (hsound : retval.size ≤ retval.cap)
    (hdata : retval.data = (src.drop start).take (max start (i * p.pageSize) - start)) :
    ∃ retval', (List.range' i (c + 1)).foldlM (fun (retval : ManagedBuffer) i => do
        let bytes ← p.part start len i
        retval.extend bytes) retval = .ok retval' ∧ retval'.data = (src.drop start).take len := by
  induction c generalizing i retval with
  | zero =>
    obtain ⟨retval', he, -, hdata'⟩ := h.part_added hsmall hlength hindex hin hsi (Nat.le_of_eq hei) hsound hdata
    have hall : min (start + len) ((i + 1) * p.pageSize) - start = len := by
      have hnext := Nat.lt_mul_of_div_lt (Nat.lt_succ_of_le (Nat.le_of_eq hei.symm)) h.positive
      rw [Nat.min_eq_left (by rw [Nat.add_zero] at hnext; exact Nat.le_of_lt hnext)]
      omega
    rw [hall] at hdata'
    refine ⟨retval', ?_, hdata'⟩
    rw [List.range'_succ, List.foldlM_cons, he]
    rfl
  | succ c ih =>
    obtain ⟨retval', he, hsound', hdata'⟩ := h.part_added hsmall hlength hindex hin hsi (by omega) hsound hdata
    have hnext := Nat.lt_mul_of_div_lt (Nat.lt_succ_of_le hsi) h.positive
    have hle := Nat.mul_le_of_le_div _ _ _ (show i + 1 ≤ (start + len) / p.pageSize by omega)
    rw [Nat.min_eq_right hle, ← Nat.max_eq_right (Nat.le_of_lt hnext)] at hdata'
    obtain ⟨retval₂, he₂, hdata₂⟩ := ih (by omega) (by omega) hsound' hdata'
    refine ⟨retval₂, ?_, hdata₂⟩
    rw [List.range'_succ, List.foldlM_cons, he]
    exact he₂

/-- What the parts are together. -/
theorem Laid.joined_ok (h : Laid src p) (hsmall : start + len < 2 ^ 32) (hlength : start + len ≤ src.length)
    (hindex : 0 < len → start % p.pageSize < 2 ^ 31 ∧
      (start + len - 1) / p.pageSize * p.pageSize - start < 2 ^ 31)
    (hin : (start + len) / p.pageSize < p.pages) :
    ((List.range' (start / p.pageSize) ((start + len) / p.pageSize + 1 - start / p.pageSize)).foldlM
      (fun (retval : ManagedBuffer) i => do
        let bytes ← p.part start len i
        retval.extend bytes) (.init len)).map ManagedBuffer.data = .ok ((src.drop start).take len) := by
  have hle : start / p.pageSize ≤ (start + len) / p.pageSize := Nat.div_le_div_right (Nat.le_add_right _ _)
  have hnone : (ManagedBuffer.init len).data =
      (src.drop start).take (max start (start / p.pageSize * p.pageSize) - start) := by
    rw [Nat.max_eq_left (Nat.div_mul_le_self _ _), Nat.sub_self, List.take_zero]
    rfl
  obtain ⟨retval, he, hdata⟩ := h.parts_ok hsmall hlength hindex hin (c := (start + len) / p.pageSize - start / p.pageSize)
    (Nat.le_refl _) (by omega) (Nat.zero_le _) hnone
  rw [Nat.sub_add_comm hle, he]
  exact congrArg Except.ok hdata

theorem ReadsOk.mono (h : ReadsOk src p ei) (hle : bi ≤ ei) : ReadsOk src p bi := by
  intro hpages
  obtain ⟨hwhole, hsmall⟩ := h (Nat.le_trans hpages hle)
  exact ⟨hwhole.mono (Nat.sub_le_sub_right hle _), by omega⟩

theorem Laid.readsOk_of_all (h : Laid src p) (hall : p.pages = Pages.count p.pageSize src) : ReadsOk src p bi := by
  have hleft : p.reader.left = [] := by
    by_contra hne
    exact Nat.ne_of_lt (h.lt_count hne) hall
  exact fun _ => ⟨wholeReads_of_nil hleft _, .inr (hall ▸ h.small)⟩

/-- After the page where a substring starts, the page where it ends may be read. -/
theorem Laid.readsOk_load (h : Laid src p) (hempty : p.pages = 0 → src = []) (hok : ReadsOk src p ei)
    (hle : i / p.pageSize ≤ ei) (he : p.load i = .ok p') (hloaded : Loaded src p (i / p.pageSize) p')
    (hto : p.pages ≤ i / p.pageSize → 0 < p.pages → ReadTo src p (i / p.pageSize) p') : ReadsOk src p' ei := by
  by_cases hzero : p.pages = 0
  · refine hloaded.laid.readsOk_of_all (Nat.le_antisymm hloaded.laid.inside ?_)
    rw [hempty hzero, Pages.count, List.length_nil, Nat.zero_add,
      Nat.div_eq_of_lt (Nat.sub_lt hloaded.laid.positive Nat.one_pos)]
    exact Nat.zero_le _
  by_cases hold : i / p.pageSize < p.pages
  · rw [load, if_neg (by omega)] at he
    cases he
    exact hok
  have hread := hto (Nat.le_of_not_lt hold) (Nat.pos_of_ne_zero hzero)
  rcases hread.ended with ⟨hthere, -⟩ | ⟨-, -, hleft⟩
  · intro hpages
    have hmoved := hread.moved
    have hcurrent := h.current
    obtain ⟨hwhole, hsmall⟩ := hok (Nat.le_trans hread.more hpages)
    have hsteps : i / p.pageSize - p.currentPage + (ei - p'.currentPage) = ei - p.currentPage := by omega
    rw [hread.pageSize]
    exact ⟨hread.whole _ (hsteps ▸ hwhole), by omega⟩
  · exact hread.laid.readsOk_of_all (hread.laid.count_eq hleft).symm

theorem Laid.substr_ok (h : Laid src p) (hempty : p.pages = 0 → src = []) {start len : UInt32}
    (hok : OpOk src p (.substr start len)) :
    Answers src (.substr start len) (p.step (.substr start len)).1 ∧ Laid src (p.step (.substr start len)).2 ∧
      ((p.step (.substr start len)).2.pages = 0 → src = []) := by
  have hpos := h.positive
  have hmax := start.toNat_lt
  rw [step, substr]
  unfold OpOk at hok
  dsimp only at hok ⊢
  rw [Answers]
  generalize start.toNat = start at *
  generalize len.toNat = len at *
  by_cases hsmall : start + len < 2 ^ 32
  · have hstop : uint (start + len) = start + len := Nat.mod_eq_of_lt hsmall
    rw [if_pos hsmall] at hok
    obtain ⟨hreads, hend, hbehind, hindex⟩ := hok
    have hle : start / p.pageSize ≤ (start + len) / p.pageSize := Nat.div_le_div_right (Nat.le_add_right _ _)
    obtain ⟨p₁, he₁, hloaded₁, hto₁⟩ := h.load_ok hempty (hreads.mono hle)
    have hreads₁ := h.readsOk_load hempty hreads hle he₁ hloaded₁ hto₁
    have hsize₁ := hloaded₁.pageSize
    rw [← hsize₁] at hreads₁
    obtain ⟨p₂, he₂, hloaded₂, -⟩ := hloaded₁.laid.load_ok hloaded₁.empty hreads₁
    have hsize₂ : p₂.pageSize = p.pageSize := hloaded₂.pageSize.trans hsize₁
    have hlaid := hloaded₂.laid
    have hthere := hloaded₂.there
    have hinside := hlaid.inside
    have hiff := Pages.div_lt_count_iff hpos hend hbehind
    rw [hsize₁] at hthere
    rw [hsize₂] at hinside
    rw [he₁, hstop]
    dsimp only
    rw [he₂]
    dsimp only
    by_cases hin : (start + len) / p.pageSize < p₂.pages
    · have hlength := hiff.mp (Nat.lt_of_lt_of_le hin hinside)
      have hbefore : ¬(start / p.pageSize ≥ p₂.pages ∨ (start + len) / p.pageSize ≥ p₂.pages) := by omega
      rw [if_neg hbefore, if_pos hlength]
      rw [← hsize₂] at hin ⊢
      exact ⟨hlaid.joined_ok hsmall hlength (by rw [hsize₂]; exact fun hlen => hindex hlen hlength) hin, hlaid,
        hloaded₂.empty⟩
    · have hlength : ¬start + len ≤ src.length := fun hle => by
        have := hiff.mpr hle
        omega
      have hbehind : start / p.pageSize ≥ p₂.pages ∨ (start + len) / p.pageSize ≥ p₂.pages :=
        .inr (Nat.le_of_not_lt hin)
      rw [if_pos hbehind, if_neg hlength]
      exact ⟨⟨_, rfl⟩, hlaid, hloaded₂.empty⟩
  · rw [if_neg hsmall] at hok
    obtain ⟨hreads, hbehind⟩ := hok
    obtain ⟨p₁, he₁, hloaded₁, -⟩ := h.load_ok hempty hreads
    have hsize₁ := hloaded₁.pageSize
    have hall : p₁.pages = Pages.count p₁.pageSize src := by
      have hpages := (Nat.le_div_iff_mul_le hpos).mpr hbehind
      have hinside := hloaded₁.laid.inside
      have hthere := hloaded₁.there
      rw [hsize₁] at hinside ⊢
      omega
    obtain ⟨p₂, he₂, hloaded₂, -⟩ := hloaded₁.laid.load_ok hloaded₁.empty (i := uint (start + len))
      (hloaded₁.laid.readsOk_of_all hall)
    have hbehind₂ : start / p.pageSize ≥ p₂.pages := by
      have hinside := hloaded₂.laid.inside
      rw [hloaded₂.pageSize, hsize₁] at hinside
      exact Nat.le_trans hinside ((Nat.le_div_iff_mul_le hpos).mpr hbehind)
    have hlength : ¬start + len ≤ src.length := by
      have := @Pages.length_le _ _ src hpos
      omega
    rw [he₁]
    dsimp only
    rw [he₂]
    dsimp only
    rw [if_neg hlength, if_pos (.inl hbehind₂)]
    exact ⟨⟨_, rfl⟩, hloaded₂.laid, hloaded₂.empty⟩

end substr

theorem init_ok {r : Source} {cs : UInt32} (hcs : cs ≠ 0) (hwhole : WholeReads cs.toNat 1 r) :
    ∃ p, init r cs = .ok p ∧ Laid r.left p ∧ (p.pages = 0 → r.left = []) := by
  have hpos : 0 < cs.toNat := Nat.pos_of_ne_zero fun hzero => hcs (UInt32.toNat_inj.mp hzero)
  have hlaid : Laid r.left ⟨none, false, 0, r, fun _ => none, cs.toNat, 0, 0⟩ :=
    ⟨hpos, (by decide : 0 < 2 ^ 32), Nat.zero_le _, fun k hk => absurd hk (Nat.not_lt_zero k),
      by rw [Nat.zero_mul, List.drop_zero], Nat.le_refl 0⟩
  rw [init, if_neg hcs, readTo, if_neg fun h => Nat.lt_irrefl 0 h.1, if_neg fun h => Nat.lt_irrefl 0 h.2, Nat.zero_div,
    readPages, if_pos (.inr rfl)]
  by_cases hleft : r.left = []
  · obtain ⟨hlaid', hbuffer, -⟩ := hlaid.readPage_end hleft
    exact ⟨_, if_pos hbuffer, hlaid', fun _ => hleft⟩
  · obtain ⟨hlaid', -, hne, -, hpages, hcurrent, -⟩ := hlaid.readPage_next hleft hwhole.1 (by decide : 0 + 1 < 2 ^ 32)
    obtain ⟨fuel, hfuel⟩ := Nat.exists_eq_succ_of_ne_zero (mt List.eq_nil_of_length_eq_zero hleft)
    refine ⟨_, ?_, hlaid', fun hzero => absurd (hpages.symm.trans hzero) (Nat.succ_ne_zero 0)⟩
    rw [if_neg hne, hfuel, readPages]
    refine if_neg fun hmore => ?_
    rcases hmore with hless | hzero
    · exact Nat.not_lt_zero _ hless
    · exact absurd (hpages.symm.trans hzero) (Nat.succ_ne_zero 0)

theorem Laid.step_ok (h : Laid src p) (hempty : p.pages = 0 → src = []) {op : Op} (hok : OpOk src p op) :
    Answers src op (p.step op).1 ∧ Laid src (p.step op).2 ∧ ((p.step op).2.pages = 0 → src = []) := by
  cases op with
  | get i => exact h.get_ok hempty hok
  | substr start len => exact h.substr_ok hempty hok

theorem Laid.run_ok (h : Laid src p) (hempty : p.pages = 0 → src = []) (hok : RunOk src p ops) :
    List.Forall₂ (Answers src) ops (p.run ops).1 := by
  induction ops generalizing p with
  | nil => exact .nil
  | cons op ops ih =>
    obtain ⟨hanswer, hlaid, hempty'⟩ := h.step_ok hempty hok.1
    exact .cons hanswer (ih hlaid hempty' hok.2)

end PageBufferReader

end Crack
