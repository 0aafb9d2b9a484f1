import Crack.Serial.ShortReads

/-!
# Reads that are repeated

A read that reports an underflow instead of raising it may be repeated when the source has more.
-/
namespace Crack

namespace Serial

open Varint (value Terminated high_iff)
open Loops (bind_ok)

/-- What is read, and whether an underflow raises. -/
abbrev Call := Kind × Bool

/-- How a call reports an underflow: with `END`, or null. -/
def reported : Kind → Option Item
  | .uint => some (.uint (UInt32.ofNat endMark))
  | .string => none

namespace SerialReader

open ManagedBuffer

def call (r : SerialReader) : Call → Except Stop (Option Item × SerialReader)
  | (.uint, errorOnUnderflow) => do
    let (val, r) ← r.readUInt errorOnUnderflow
    return (some (.uint (UInt32.ofNat val)), r)
  | (.string, errorOnUnderflow) => do
    let (val, r) ← r.readString errorOnUnderflow
    return (val.map Item.string, r)

def calls (r : SerialReader) : List Call → Except Stop (List (Option Item) × SerialReader)
  | [] => return ([], r)
  | c :: cs => do
    let (item, r) ← r.call c
    let (items, r) ← calls r cs
    return (item :: items, r)

/-- The source has more data. -/
def feed (r : SerialReader) (more : List UInt8) (splits : Nat → Nat) : SerialReader :=
  { r with src := ⟨r.src.left ++ more, splits⟩ }

/-- `r'` is the reader after a call that reported an underflow. Where all calls return items of a reader
that had all the data at first, they return the same ones after it, the call that is repeated first.
The window has to be able to grow to the strings within the indexes of an `int`. -/
def Resumes (r r' : SerialReader) (kind : Kind) : Prop :=
  ∀ (more : List UInt8) (splits splits' : Nat → Nat) (item : Item) (items : List Item) (cs : List Call)
    (g : SerialReader),
    item.kind = kind → r.buf.cap + growth (item :: items) ≤ 2 ^ 31 →
    cs.map Prod.fst = (item :: items).map Item.kind →
    (r.feed more splits).calls ((item :: items).map fun i => (i.kind, true)) = .ok ((item :: items).map some, g) →
    ∃ g', (r'.feed more splits').calls cs = .ok ((item :: items).map some, g')

/-- No whole number is there. A string whose size is there has it in the window, or the window does not have to
be moved for it; or, of a size in more bytes than it needs, there is the same one where the window starts then;
or the window cannot grow to the string, or is larger than that. -/
def Stays (r : SerialReader) : Kind → Prop
  | .uint => 2 ^ 31 < r.buf.cap ∨ ¬ ∃ bs, bs <+: r.pending ∧ Terminated bs ∧ bs.length ≤ 5
  | .string => ∀ bs, bs <+: r.pending → Terminated bs → bs.length ≤ 5 →
    r.pos = 0 ∨ r.pos + bs.length ≤ r.buf.size ∨ value (bs.drop r.pos) % 2 ^ 32 = value bs % 2 ^ 32 ∨
      2 ^ 31 < r.buf.cap + (value bs % 2 ^ 32 + 1)

end SerialReader

/-- The bytes start with an item. -/
def Item.At (bs rest : List UInt8) : Item → Prop
  | .uint val => ∃ number, bs = number ++ rest ∧ Terminated number ∧ number.length ≤ 5 ∧
    value number % 2 ^ 32 = val.toNat
  | .string val => ∃ number, bs = number ++ (val ++ rest) ∧ Terminated number ∧ number.length ≤ 5 ∧
    value number % 2 ^ 32 = val.length ∧ val.length ≠ endMark

inductive ItemsAt : List UInt8 → List Item → Prop
  | nil (bs : List UInt8) : ItemsAt bs []
  | cons {bs rest : List UInt8} {item : Item} {items : List Item} : item.At bs rest → ItemsAt rest items →
    ItemsAt bs (item :: items)

variable {bs rest number str : List UInt8} {item : Item} {items : List Item}

theorem Item.At.length_lt (h : item.At bs rest) : rest.length < bs.length := by
  cases item with
  | uint val =>
    obtain ⟨number, rfl, hterm, -⟩ := h
    have hpos := hterm.length_pos
    rw [List.length_append]
    omega
  | string val =>
    obtain ⟨number, rfl, hterm, -⟩ := h
    have hpos := hterm.length_pos
    rw [List.length_append, List.length_append]
    omega

theorem ItemsAt.length_le (h : ItemsAt bs items) : items.length ≤ bs.length := by
  induction h with
  | nil bs => exact Nat.zero_le _
  | cons hitem _ ih => exact Nat.lt_of_le_of_lt ih hitem.length_lt

/-- A number of at most five bytes, a part of one, or bytes that go on beyond what a `uint` has. -/
theorem number_cases (bs : List UInt8) :
    (∃ number rest, bs = number ++ rest ∧ Terminated number ∧ number.length ≤ 5) ∨
      ((∀ b ∈ bs, 128 ≤ b.toNat) ∧ bs.length ≤ 5) ∨
      ∃ part b rest, bs = part ++ b :: rest ∧ part.length = 5 ∧ ∀ b ∈ part, 128 ≤ b.toNat := by
  rcases Varint.number_or_high (bs.take 5) with ⟨number, hnumber, hterm⟩ | hhigh
  · obtain ⟨rest, hrest⟩ := hnumber.trans (List.take_prefix 5 bs)
    refine .inl ⟨number, rest, hrest.symm, hterm, Nat.le_trans hnumber.length_le ?_⟩
    rw [List.length_take]
    exact Nat.min_le_left _ _
  · by_cases hlen : bs.length ≤ 5
    · rw [List.take_of_length_le hlen] at hhigh
      exact .inr (.inl ⟨hhigh, hlen⟩)
    · have htake : (bs.take 5).length = 5 := List.length_take_of_le (by omega)
      obtain ⟨b, rest, hrest⟩ := List.exists_cons_of_length_pos (l := bs.drop 5) (by rw [List.length_drop]; omega)
      refine .inr (.inr ⟨bs.take 5, b, rest, ?_, htake, hhigh⟩)
      rw [← hrest, List.take_append_drop]

namespace SerialReader

open ManagedBuffer

variable {r r' : SerialReader} {K n size v startPos val offset : Nat} {kind : Kind} {cs : List Call}

theorem Ready.readGroups_long (u : Bool) {b : UInt8} (startPos val offset : Nat) (h : Ready r (bs ++ b :: rest) K)
    (hbs : ∀ b ∈ bs, 128 ≤ b.toNat) (hstart : startPos ≤ r.pos) (hoffset : offset = 7 * (r.pos - startPos))
    (hlen : offset + 7 * bs.length = 35) (hn : bs.length < n) :
    r.readGroups u n startPos val offset = .error .undefinedShift := by
  induction bs generalizing r n startPos val offset with
  | nil =>
    rw [List.length_nil] at hlen
    obtain ⟨n, rfl⟩ := Nat.exists_eq_succ_of_ne_zero (Nat.ne_zero_of_lt hn)
    have hshort : r.pos - startPos < bufSize := by
      rw [bufSize]
      omega
    have hne : [] ++ b :: rest ≠ [] := List.cons_ne_nil _ _
    obtain ⟨r₁, startPos₁, he₁, h₁, -, -, hlt₁, -⟩ := h.ensureData hstart hshort
    obtain ⟨hget, -⟩ := h₁.get (hlt₁ hne)
    rw [SerialReader.readGroups, he₁]
    simp only [bind, Except.bind, hget, decide_eq_true hne, if_true, if_pos (show offset ≥ 32 by omega)]
  | cons c bs ih =>
    rw [List.length_cons] at hlen hn
    obtain ⟨n, rfl⟩ := Nat.exists_eq_succ_of_ne_zero (Nat.ne_zero_of_lt hn)
    obtain ⟨r₁, startPos₁, he₁, h₂, hstart₁, hoffset₁, -⟩ :=
      Ready.group u n startPos val offset h hstart hoffset (by omega)
    rw [he₁]
    rw [if_pos ((high_iff c).mpr (hbs c List.mem_cons_self))]
    exact ih _ _ _ h₂ (fun c hc => hbs c (List.mem_cons_of_mem _ hc)) hstart₁ hoffset₁ (by omega)
      (Nat.lt_of_succ_lt_succ hn)

/-- A call of `readUInt` that returns has read a number, or it reports an underflow and the reader stays
in front of the part that is there. -/
theorem Ready.of_readUInt {u : Bool} (h : Ready r bs K) (he : r.readUInt u = .ok (v, r')) :
    (∃ number rest, bs = number ++ rest ∧ Terminated number ∧ number.length ≤ 5 ∧ v = value number % 2 ^ 32 ∧
        Ready r' rest K ∧ Moved r r' r.pos number.length) ∨
      u = false ∧ v = endMark ∧ (∀ b ∈ bs, 128 ≤ b.toNat) ∧ Ready r' bs K ∧ r'.pos = 0 ∧ r'.buf.cap = r.buf.cap := by
  rcases number_cases bs with ⟨number, rest, rfl, hterm, hlen⟩ | ⟨hhigh, hlen⟩ | ⟨part, b, rest, rfl, hlen, hhigh⟩
  · obtain ⟨r'', he', h', hmoved⟩ := h.readNumber u hterm hlen
    rw [he] at he'
    cases he'
    exact .inl ⟨number, rest, rfl, hterm, hlen, rfl, h', hmoved⟩
  · obtain ⟨r'', he', h', hpos, hcap⟩ := h.readUInt_dry u hhigh hlen
    rw [he] at he'
    cases u with
    | true => cases he'
    | false =>
      cases he'
      exact .inr ⟨rfl, rfl, hhigh, h', hpos, hcap⟩
  · have hn : part.length < r.buf.size + r.src.left.length + 1 := by
      have hall := h.length_pending
      rw [List.length_append, List.length_cons] at hall
      omega
    have hlong := h.readGroups_long u r.pos 0 0 hhigh (Nat.le_refl _) (by omega) (by omega) hn
    rw [SerialReader.readUInt, hlong] at he
    cases he

/-- A string that is not read: the window has all that there is, from where it started. -/
theorem Ready.of_readFixedString_none (h : Ready r bs K) (hK : r.pos + size + 1 ≤ K)
    (he : r.readFixedString size false = .ok (none, r')) :
    Ready r' bs K ∧ r'.pos = r.pos ∧ r'.stream = r.stream ∧ r.buf.size ≤ r'.buf.size ∧ r'.src.left = [] ∧
      bs.length < size := by
  have hpos := h.pos
  have hsmall := h.small
  have hsub : uintzSub r.buf.size r.pos = r.buf.size - r.pos := if_pos hpos
  have hreq : uint (r.pos + size + 1) = r.pos + size + 1 := Nat.mod_eq_of_lt (by omega)
  rw [SerialReader.readFixedString, hsub, hreq] at he
  by_cases hge : r.buf.size - r.pos ≥ size
  · rw [if_pos hge] at he
    obtain ⟨result, -, he⟩ := bind_ok he
    cases he
  obtain ⟨buf, hbuf, h₁, hcap, hsize, hdata⟩ := h.ensureCap (r.pos + size + 1) hK
  obtain ⟨r₂, more, hmore⟩ := readMore_returns size (r.src.left.length + 1) h₁ (Nat.lt_succ_self _)
  obtain ⟨h₂, hpos₂, hstream₂, hcap₂, hsize₂, hend⟩ := h₁.readMore_spec _ hmore
  rw [if_neg hge, hbuf] at he
  simp only [bind, Except.bind, hmore] at he
  cases more with
  | true =>
    obtain ⟨result, -, he⟩ := bind_ok he
    obtain ⟨buf₂, -, he⟩ := bind_ok he
    cases he
  | false =>
    cases he
    obtain ⟨hless, hdry⟩ := hend
    change r'.buf.size < r.pos + size at hless
    change r'.pos = r.pos at hpos₂
    change r'.buf.cap = buf.cap at hcap₂
    change buf.size ≤ r'.buf.size at hsize₂
    have hleft := hdry (by omega)
    have hall := h₂.length_pending
    have hpos' := h₂.pos
    rw [hleft, List.length_nil] at hall
    refine ⟨h₂, hpos₂, hstream₂.trans ?_, by omega, hleft, by omega⟩
    rw [stream, stream, hdata]

/-- A string is read whose size is there, from a place from which the window can hold it. -/
theorem Ready.call_string (u : Bool) (h : Ready r (number ++ (str ++ rest)) K) (hterm : Terminated number)
    (hlen : number.length ≤ 5) (hvalue : value number % 2 ^ 32 = str.length) (hne : str.length ≠ endMark)
    (hK : r.pos + number.length + str.length + 1 ≤ K ∨
      r.buf.size < r.pos + number.length ∧ number.length + str.length + 1 ≤ K) :
    ∃ r', r.call (.string, u) = .ok (some (.string str), r') ∧ Ready r' rest K := by
  obtain ⟨r₁, he₁, h₁, hmoved⟩ := h.readNumber u hterm hlen
  have hsmall := h.small
  have hroom : r₁.pos + str.length + 1 ≤ K := by
    rw [Moved] at hmoved
    split at hmoved
    · subst hmoved
      change r.pos + number.length + str.length + 1 ≤ K
      omega
    · rw [hmoved.1]
      omega
  obtain ⟨r₂, he₂, h₂⟩ := h₁.readFixed (u := u) hroom
  refine ⟨r₂, ?_, h₂⟩
  rw [hvalue] at he₁
  rw [call, SerialReader.readString, he₁]
  simp only [bind, Except.bind, if_neg hne, he₂]
  rfl

theorem Ready.call_item (u : Bool) (h : Ready r bs K) (hitem : item.At bs rest) (hK : K + item.growth ≤ 2 ^ 31) :
    ∃ r', r.call (item.kind, u) = .ok (some item, r') ∧ Ready r' rest (K + item.growth) := by
  cases item with
  | uint val =>
    obtain ⟨number, rfl, hterm, hlen, hvalue⟩ := hitem
    obtain ⟨r', he, h', -⟩ := h.readNumber u hterm hlen
    refine ⟨r', ?_, h'⟩
    rw [hvalue] at he
    simp only [call, Item.kind, he, bind, Except.bind, UInt32.ofNat_toNat]
    rfl
  | string val =>
    obtain ⟨number, rfl, hterm, hlen, hvalue, hne⟩ := hitem
    have hpos := h.pos
    have hsize := h.size
    have hcap := h.cap
    have hleast := h.least
    rw [bufSize] at hleast
    have hgrow : (Item.string val).growth = val.length + 1 := rfl
    refine (h.mono (Nat.le_add_right K _) hK).call_string u hterm hlen hvalue hne ?_
    omega

theorem Ready.calls_items (h : Ready r bs K) (hitems : ItemsAt bs items)
    (hcs : cs.map Prod.fst = items.map Item.kind) (hK : K + growth items ≤ 2 ^ 31) :
    ∃ r', r.calls cs = .ok (items.map some, r') := by
  induction hitems generalizing r K cs with
  | nil bs =>
    rw [List.map_nil, List.map_eq_nil_iff] at hcs
    subst hcs
    exact ⟨r, rfl⟩
  | @cons bs rest item items hitem _ ih =>
    obtain ⟨⟨kind, u⟩, cs, rfl, hkind, htail⟩ := List.map_eq_cons_iff.mp hcs
    change kind = item.kind at hkind
    subst hkind
    have hgrowth : growth (item :: items) = item.growth + growth items := List.sum_cons
    rw [hgrowth, ← Nat.add_assoc] at hK
    obtain ⟨r₁, he₁, h₁⟩ := h.call_item u hitem (Nat.le_trans (Nat.le_add_right _ _) hK)
    obtain ⟨r₂, he₂⟩ := ih h₁ htail hK
    refine ⟨r₂, ?_⟩
    simp only [calls, he₁, he₂, bind, Except.bind, List.map_cons]
    rfl

theorem Moved.pos_le (h : Moved r r' r.pos n) : r'.pos ≤ r.pos + n := by
  rw [Moved] at h
  split at h
  · subst h
    exact Nat.le_refl _
  · rw [h.1]
    omega

/-- A call that returns a string has read a size, and so many bytes are there. -/
theorem Ready.of_call_string (h : Ready r bs K) (he : r.call (.string, true) = .ok (some (.string str), r')) :
    ∃ number rest r₁ r₂, bs = number ++ rest ∧ Terminated number ∧ number.length ≤ 5 ∧
      value number % 2 ^ 32 = str.length ∧ str.length ≠ endMark ∧ str.length ≤ rest.length ∧
      r₁.pos ≤ r.pos + number.length ∧ Ready r₁ rest K ∧ r₁.readFixedString str.length true = .ok (some str, r₂) := by
  obtain ⟨⟨result, r₁⟩, hstring, he⟩ := bind_ok he
  obtain ⟨size, r₁, hread, hsome⟩ := of_readString hstring
  obtain ⟨hresult, -⟩ := Prod.mk.inj (Except.ok.inj he)
  cases result with
  | none => cases hresult
  | some str' =>
    cases hresult
    split at hsome
    next => cases hsome.1
    next hend =>
      obtain ⟨r₂, hfixed, -⟩ := hsome
      rcases h.of_readUInt hread with ⟨number, rest, hbs, hterm, hlen, hsize, h₁, hmoved⟩ | ⟨hfalse, -⟩
      · have hall := h₁.length_pending
        obtain ⟨rfl, hle⟩ := length_of_readFixedString h₁.pos hfixed
        exact ⟨number, rest, r₁, r₂, hbs, hterm, hlen, hsize.symm, hend, by omega, hmoved.pos_le, h₁, hfixed⟩
      · cases hfalse

/-- A call that returns an item has found it in the bytes. -/
theorem Ready.at_of_call (h : Ready r bs K) (he : r.call (item.kind, true) = .ok (some item, r'))
    (hK : K + item.growth ≤ 2 ^ 31 ∨ r.pos + 5 + item.growth ≤ 2 ^ 31) :
    ∃ rest, item.At bs rest := by
  cases item with
  | uint val =>
    obtain ⟨⟨v, r₁⟩, hread, he⟩ := bind_ok he
    cases he
    rcases h.of_readUInt hread with ⟨number, rest, hbs, hterm, hlen, rfl, -⟩ | ⟨hfalse, -⟩
    · refine ⟨rest, number, hbs, hterm, hlen, ?_⟩
      rw [UInt32.toNat_ofNat']
      exact (Nat.mod_mod _ _).symm
    · cases hfalse
  | string val =>
    obtain ⟨number, rest, r₁, r₂, rfl, hterm, hlen, hsize, hend, -, hpos, h₁, hfixed⟩ := h.of_call_string he
    have hinside := Nat.le_trans h₁.pos (Nat.le_trans h₁.size h₁.cap)
    change K + (val.length + 1) ≤ 2 ^ 31 ∨ r.pos + 5 + (val.length + 1) ≤ 2 ^ 31 at hK
    obtain ⟨-, rest', rfl, -⟩ := (h₁.mono h₁.small (Nat.le_refl _)).of_readFixedString (by omega) hfixed
    exact ⟨rest', number, rfl, hterm, hlen, hsize, hend⟩

theorem calls_cons_ok {c : Call} {first : Option Item} {others : List (Option Item)}
    (he : r.calls (c :: cs) = .ok (first :: others, r')) :
    ∃ r₁, r.call c = .ok (first, r₁) ∧ r₁.calls cs = .ok (others, r') := by
  obtain ⟨⟨first', r₁⟩, hfirst, he⟩ := bind_ok he
  obtain ⟨⟨others', r₂⟩, hothers, he⟩ := bind_ok he
  cases he
  exact ⟨r₁, hfirst, hothers⟩

theorem Ready.of_calls (h : Ready r bs K)
    (he : r.calls (items.map fun i => (i.kind, true)) = .ok (items.map some, r')) (hK : K + growth items ≤ 2 ^ 31) :
    ItemsAt bs items := by
  induction items generalizing r bs K with
  | nil => exact .nil bs
  | cons item items ih =>
    have hgrowth : growth (item :: items) = item.growth + growth items := List.sum_cons
    rw [hgrowth, ← Nat.add_assoc] at hK
    obtain ⟨r₁, hfirst, hothers⟩ := calls_cons_ok he
    have hfits : K + item.growth ≤ 2 ^ 31 := Nat.le_trans (Nat.le_add_right _ _) hK
    obtain ⟨rest, hitem⟩ := h.at_of_call hfirst (.inl hfits)
    obtain ⟨r₁', hfirst', h₁⟩ := h.call_item true hitem hfits
    rw [hfirst] at hfirst'
    cases hfirst'
    exact .cons hitem (ih h₁ hothers hK)

variable {more : List UInt8} {splits : Nat → Nat}

theorem Ready.feed (h : Ready r bs K) (more : List UInt8) (splits : Nat → Nat) :
    Ready (r.feed more splits) (bs ++ more) K := by
  refine ⟨h.pos, h.size, h.least, h.cap, h.small, ?_⟩
  rw [← h.unread, pending, SerialReader.feed, pending, List.append_assoc]

theorem map_kinds (items : List Item) : (items.map fun i => (i.kind, true)).map Prod.fst = items.map Item.kind :=
  List.map_map ..

theorem ItemsAt.uints (h : ItemsAt rest (List.replicate n (.uint (UInt32.ofNat endMark)))) (hterm : Terminated number)
    (hlen : number.length ≤ 5) (hvalue : value number % 2 ^ 32 = endMark) :
    ItemsAt (number ++ rest) (List.replicate (n + 1) (.uint (UInt32.ofNat endMark))) := by
  rw [List.replicate_succ]
  exact .cons ⟨number, rfl, hterm, hlen, hvalue⟩ h

theorem growth_uints (n : Nat) (val : UInt32) : growth (List.replicate n (.uint val)) = 0 := by
  rw [growth, List.map_replicate, List.sum_replicate_nat]
  exact Nat.mul_zero n

/-- `END` that was read as a number is lost. -/
theorem Ready.not_resumes_end (h : Ready r (number ++ rest) r.buf.cap) (h' : Ready r' rest r.buf.cap)
    (hterm : Terminated number) (hlen : number.length ≤ 5) (hvalue : value number % 2 ^ 32 = endMark) :
    ¬ Resumes r r' .uint := by
  intro hresumes
  have hK : ∀ n, r.buf.cap + growth (List.replicate n (.uint (UInt32.ofNat endMark))) ≤ 2 ^ 31 := by
    intro n
    rw [growth_uints]
    exact h.small
  -- as many of them would follow as one likes
  have hall : ∀ n, ItemsAt rest (List.replicate n (.uint (UInt32.ofNat endMark))) := by
    intro n
    induction n with
    | zero => exact .nil rest
    | succ n ih =>
      have hmore := h.feed [] r.src.splits
      rw [List.append_nil] at hmore
      obtain ⟨g, hg⟩ := hmore.calls_items (ItemsAt.uints ih hterm hlen hvalue) (map_kinds _) (hK _)
      obtain ⟨g', hg'⟩ := hresumes [] r.src.splits r.src.splits (.uint _) (List.replicate n (.uint _)) _ g rfl
        (hK (n + 1)) (map_kinds _) hg
      have hfed := h'.feed [] r.src.splits
      rw [List.append_nil] at hfed
      have hnext : ItemsAt rest (.uint (UInt32.ofNat endMark) :: List.replicate n (.uint (UInt32.ofNat endMark))) :=
        hfed.of_calls hg' (hK (n + 1))
      exact hnext
  have hle := (hall (rest.length + 1)).length_le
  rw [List.length_replicate] at hle
  exact Nat.not_succ_le_self _ hle

theorem Ready.resumes_uint_iff (h : Ready r r.pending r.buf.cap)
    (he : r.call (.uint, false) = .ok (reported .uint, r')) : Resumes r r' .uint ↔ r.Stays .uint := by
  obtain ⟨v, hread, hv⟩ : ∃ v, r.readUInt false = .ok (v, r') ∧ UInt32.ofNat v = UInt32.ofNat endMark := by
    obtain ⟨⟨v, r₁⟩, hread, he⟩ := bind_ok he
    obtain ⟨hitem, hr⟩ := Prod.mk.inj (Except.ok.inj he)
    exact ⟨v, hr ▸ hread, Item.uint.inj (Option.some.inj hitem)⟩
  rcases h.of_readUInt hread with ⟨number, rest, hbs, hterm, hlen, rfl, h', -⟩ | ⟨-, -, hhigh, h', -, -⟩
  · have hvalue : value number % 2 ^ 32 = endMark := by
      have hnat := congrArg UInt32.toNat hv
      rw [UInt32.toNat_ofNat', UInt32.toNat_ofNat', Nat.mod_mod] at hnat
      exact hnat
    rw [hbs] at h
    refine ⟨fun hresumes => absurd hresumes (h.not_resumes_end h' hterm hlen hvalue), fun hstays => ?_⟩
    exact absurd ⟨number, ⟨rest, hbs.symm⟩, hterm, hlen⟩ (hstays.resolve_left (Nat.not_lt_of_le h.small))
  · constructor
    · intro _
      right
      rintro ⟨number, hpart, hterm, -⟩
      exact hterm.not_high hpart hhigh
    · intro _ more splits splits' item items cs g _ hK hcs hg
      exact (h'.feed more splits').calls_items ((h.feed more splits).of_calls hg hK) hcs hK

/-- A call of `readString` that reports an underflow: the size is cut off and the reader stays in front of it,
or the string is, and the reader goes to the place it had, wherever the window starts now. -/
theorem Ready.of_call_none (h : Ready r bs r.buf.cap) (he : r.call (.string, false) = .ok (none, r')) :
    (∀ b ∈ bs, 128 ≤ b.toNat) ∧ Ready r' bs r.buf.cap ∨
      ∃ number rest, bs = number ++ rest ∧ Terminated number ∧ number.length ≤ 5 ∧
        (r.buf.cap + (value number % 2 ^ 32 + 1) ≤ 2 ^ 31 →
          rest.length < value number % 2 ^ 32 ∧ r'.pos = r.pos ∧
          (∀ pos ≤ r'.buf.size, Ready { r' with pos } (r'.stream.drop pos) (r.buf.cap + (value number % 2 ^ 32 + 1))) ∧
          if r.pos + number.length ≤ r.buf.size then r'.stream = r.stream ∧ r.buf.size ≤ r'.buf.size
          else r'.stream = bs ∧ number.length ≤ r'.buf.size) := by
  obtain ⟨⟨result, r₁⟩, hstring, he⟩ := bind_ok he
  have hnone : result = none ∧ r₁ = r' := by
    cases result with
    | none =>
      cases he
      exact ⟨rfl, rfl⟩
    | some str => cases he
  obtain ⟨rfl, rfl⟩ := hnone
  obtain ⟨size, r₁, hread, hstring⟩ := of_readString hstring
  rcases h.of_readUInt hread with ⟨number, rest, rfl, hterm, hlen, hsize, h₁, hmoved⟩ | ⟨-, hend, hhigh, h₁, -, -⟩
  · refine .inr ⟨number, rest, rfl, hterm, hlen, fun hK => ?_⟩
    rw [← hsize] at hK ⊢
    have hne : size ≠ endMark := by
      rw [endMark]
      omega
    rw [if_neg hne] at hstring
    obtain ⟨r₂, hfixed, rfl⟩ := hstring
    have hpos₁ := Nat.le_trans h₁.pos (Nat.le_trans h₁.size h₁.cap)
    obtain ⟨h₂, hpos₂, hstream₂, hsize₂, -, hshort⟩ :=
      (h₁.mono (Nat.le_add_right _ (size + 1)) hK).of_readFixedString_none (by omega) hfixed
    refine ⟨hshort, rfl, fun pos hpos => h₂.at_pos hpos, ?_⟩
    have hinside := h₁.pos
    rw [Moved] at hmoved
    split at hmoved
    next hin =>
      subst hmoved
      rw [if_pos hin]
      exact ⟨hstream₂, hsize₂⟩
    next hout =>
      obtain ⟨hpos, hstream, -⟩ := hmoved
      rw [if_neg hout]
      exact ⟨hstream₂.trans (hstream.trans h.drop_stream), show number.length ≤ r₂.buf.size by omega⟩
  · rw [if_pos hend] at hstring
    obtain ⟨-, rfl⟩ := hstring
    exact .inl ⟨hhigh, h₁⟩

theorem Ready.resumes_string (h : Ready r r.pending r.buf.cap) (he : r.call (.string, false) = .ok (none, r'))
    (hstays : r.Stays .string) : Resumes r r' .string := by
  intro more splits splits' item items cs g hkind hK hcs hg
  have hall := (h.feed more splits).of_calls hg hK
  rcases h.of_call_none he with ⟨-, h'⟩ | ⟨number, rest, hbs, hterm, hlen, hwindow⟩
  · exact (h'.feed more splits').calls_items hall hcs hK
  cases item with
  | uint val => cases hkind
  | string str =>
    obtain _ | ⟨hitem, hitems⟩ := hall
    rename_i rest'
    obtain ⟨number', hfront, hterm', hlen', hvalue, hne⟩ := hitem
    have hnumber : number <+: r.pending ++ more := by
      rw [hbs, List.append_assoc]
      exact List.prefix_append _ _
    obtain rfl := hterm'.eq_of_prefix hterm ⟨_, hfront.symm⟩ hnumber
    have hgrowth : growth (.string str :: items) = str.length + 1 + growth items := List.sum_cons
    rw [hgrowth, ← Nat.add_assoc] at hK
    rw [hvalue] at hwindow
    obtain ⟨hshort, hpos', hready, hmoved⟩ := hwindow (Nat.le_trans (Nat.le_add_right _ _) hK)
    have hpos := h.pos
    have hsize := h.size
    have hleast := h.least
    have hpending := h.drop_stream
    rw [bufSize] at hleast
    -- what the reader finds where it is now
    obtain ⟨number, hthere, hterm₁, hlen₁, hvalue₁, hplace⟩ : ∃ number,
        Ready (r'.feed more splits') (number ++ (str ++ rest')) (r.buf.cap + (str.length + 1)) ∧ Terminated number ∧
          number.length ≤ 5 ∧ value number % 2 ^ 32 = str.length ∧ r.pos + number.length ≤ r.buf.cap := by
      have hback : r'.pos ≤ r'.buf.size → Ready r' (r'.stream.drop r.pos) (r.buf.cap + (str.length + 1)) := by
        intro hle
        rw [← hpos']
        exact hready r'.pos hle
      by_cases hin : r.pos + number'.length ≤ r.buf.size
      · rw [if_pos hin] at hmoved
        obtain ⟨hstream, hgrown⟩ := hmoved
        have hthere := hback (by omega)
        rw [hstream, hpending] at hthere
        exact ⟨number', hfront ▸ hthere.feed more splits', hterm, hlen, hvalue, by omega⟩
      · rw [if_neg hin] at hmoved
        obtain ⟨hstream, hinside⟩ := hmoved
        rcases hstays number' ⟨rest, hbs.symm⟩ hterm hlen with h0 | hin' | hsame | hlarge
        · have hthere := hback (by omega)
          rw [hstream, h0, List.drop_zero] at hthere
          exact ⟨number', hfront ▸ hthere.feed more splits', hterm, hlen, hvalue, by omega⟩
        · exact absurd hin' hin
        · have hlt : r.pos < number'.length := by
            by_contra hge
            rw [List.drop_eq_nil_of_le (Nat.le_of_not_lt hge), hvalue] at hsame
            change 0 = str.length at hsame
            omega
          have hthere := hback (by omega)
          have hdrop : r'.stream.drop r.pos ++ more = number'.drop r.pos ++ (str ++ rest') := by
            rw [hstream, ← List.drop_append_of_le_length, hfront, List.drop_append_of_le_length (Nat.le_of_lt hlt)]
            rw [hbs, List.length_append]
            omega
          refine ⟨number'.drop r.pos, hdrop ▸ hthere.feed more splits', hterm.drop hlt, ?_, hsame.trans hvalue, ?_⟩
          · rw [List.length_drop]
            omega
          · rw [List.length_drop]
            omega
        · omega
    obtain ⟨⟨kind, u⟩, cs, rfl, hkinds, htail⟩ := List.map_eq_cons_iff.mp hcs
    change kind = .string at hkinds
    subst hkinds
    obtain ⟨g₁, he₁, h₁⟩ := hthere.call_string u hterm₁ hlen₁ hvalue₁ hne (.inl (by
      change r'.pos + _ + _ + 1 ≤ _
      omega))
    obtain ⟨g₂, he₂⟩ := h₁.calls_items hitems htail hK
    refine ⟨g₂, ?_⟩
    simp only [calls, he₁, he₂, bind, Except.bind, List.map_cons]
    rfl

/-- There is nothing at a place behind the window. -/
theorem readUInt_behind (u : Bool) (h : r.buf.size < r.pos) :
    r.readUInt u = .error (.indexError "string index out of bounds") := by
  have hget : r.buf.get r.pos = .error (.indexError "string index out of bounds") := if_pos (Nat.le_of_lt h)
  rw [SerialReader.readUInt, SerialReader.readGroups, SerialReader.ensureData, if_neg (Nat.ne_of_gt h)]
  simp only [bind, Except.bind, pure, Except.pure, if_true, hget]

theorem Ready.stays_of_resumes (h : Ready r r.pending r.buf.cap) (he : r.call (.string, false) = .ok (none, r'))
    (hresumes : Resumes r r' .string) : r.Stays .string := by
  intro number hpart hterm hlen
  by_contra hnot
  obtain ⟨h0, hout, hother, hfits⟩ : r.pos ≠ 0 ∧ ¬ r.pos + number.length ≤ r.buf.size ∧
      value (number.drop r.pos) % 2 ^ 32 ≠ value number % 2 ^ 32 ∧
      r.buf.cap + (value number % 2 ^ 32 + 1) ≤ 2 ^ 31 := by
    refine ⟨fun h => hnot (.inl h), fun h => hnot (.inr (.inl h)), fun h => hnot (.inr (.inr (.inl h))), ?_⟩
    exact Nat.le_of_not_lt fun h => hnot (.inr (.inr (.inr h)))
  rcases h.of_call_none he with ⟨hhigh, -⟩ | ⟨number', rest, hbs, hterm', -, hwindow⟩
  · exact hterm.not_high hpart hhigh
  obtain rfl := hterm.eq_of_prefix hterm' hpart ⟨rest, hbs.symm⟩
  obtain ⟨hshort, hpos', hready, hmoved⟩ := hwindow hfits
  rw [if_neg hout] at hmoved
  obtain ⟨hstream, hinside⟩ := hmoved
  -- the source has no more than the rest of the string
  obtain ⟨more, hmore⟩ : ∃ more : List UInt8, rest.length + more.length = value number % 2 ^ 32 := by
    refine ⟨List.replicate (value number % 2 ^ 32 - rest.length) 0, ?_⟩
    rw [List.length_replicate]
    omega
  have hsize : value number % 2 ^ 32 = (rest ++ more).length := by
    rw [List.length_append, hmore]
  have hfront : r.pending ++ more = number ++ (rest ++ more ++ []) := by
    rw [hbs, List.append_nil, List.append_assoc]
  have hne : (rest ++ more).length ≠ endMark := by
    rw [← hsize, endMark]
    omega
  have hall : ItemsAt (r.pending ++ more) [.string (rest ++ more)] :=
    .cons ⟨number, hfront, hterm, hlen, hsize, hne⟩ (.nil _)
  have hK : r.buf.cap + growth [.string (rest ++ more)] ≤ 2 ^ 31 := by
    rw [hsize] at hfits
    exact hfits
  obtain ⟨g, hg⟩ := (h.feed more r.src.splits).calls_items hall (map_kinds _) hK
  obtain ⟨g', hg'⟩ := hresumes more r.src.splits r.src.splits _ [] _ g rfl hK (map_kinds _) hg
  obtain ⟨g₁, hcall, -⟩ := calls_cons_ok hg'
  by_cases hbehind : r'.buf.size < r.pos
  · have hfail := readUInt_behind (r := r'.feed more r.src.splits) true (by rw [← hpos'] at hbehind; exact hbehind)
    simp only [call, Item.kind, SerialReader.readString, hfail, bind, Except.bind] at hcall
    cases hcall
  · have hthere : Ready r' (r'.stream.drop r'.pos) _ := hready r'.pos (by omega)
    rw [hpos', hstream] at hthere
    have hfed := hthere.feed more r.src.splits
    obtain ⟨number', behind, r₁, r₂, hfront', hterm', hlen', hvalue', -, hle, -⟩ := hfed.of_call_string hcall
    have hlengths := congrArg List.length hfront'
    simp only [List.length_append, List.length_drop, hbs] at hlengths hle
    have hpos₁ := hterm'.length_pos
    have hlt : r.pos < number.length := by omega
    have hdrop : number.drop r.pos <+: r.pending.drop r.pos ++ more := by
      rw [hbs, List.drop_append_of_le_length (Nat.le_of_lt hlt), List.append_assoc]
      exact List.prefix_append _ _
    obtain rfl := hterm'.eq_of_prefix (hterm.drop hlt) ⟨_, hfront'.symm⟩ hdrop
    exact hother (hvalue'.trans hsize.symm)

/-- A reader whose window holds a number that has been read. The source has the first two of the five bytes
of a string. -/
def passed : SerialReader := ⟨⟨1 :: List.replicate 1023 0, 1⟩, 1, ⟨[4, 97], fun _ => 1⟩⟩

theorem passed_ready : Ready passed ([4] ++ [97]) bufSize := by
  have hcap : passed.buf.cap = bufSize := by
    change (1 :: List.replicate 1023 (0 : UInt8)).length = 1024
    rw [List.length_cons, List.length_replicate]
  refine ⟨Nat.le_refl _, ?_, Nat.le_of_eq hcap.symm, Nat.le_of_eq hcap, by decide, rfl⟩
  rw [hcap]
  decide

end SerialReader

end Serial

end Crack
