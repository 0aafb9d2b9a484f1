import Crack.Enc.Json2Text

/-!
# Reads of the parser

The parser on its buffer follows the one on the text until an ask is cut.
-/
namespace Crack

namespace Json2

open Effect Input

variable {F α β : Type} {bytes : Nat} {r : Except Failure α} {count : Nat} {n : Nat}

/-- What is thrown, without the bytes from the buffer. -/
def Failure.bare : Failure → Failure
  | .parseError message _ => .parseError message none
  | e => e

def Same (r r' : Except Failure α) : Prop := r.mapError Failure.bare = r'.mapError Failure.bare

theorem Same.of_ok {a : α} (h : Same r (.ok a)) : r = .ok a := by
  cases r with
  | ok b => exact h
  | error e => cases h

theorem Same.of_error {e' : Failure} (h : Same r (.error e')) : ∃ e, r = .error e ∧ e.bare = e'.bare := by
  cases r with
  | ok b => cases h
  | error e => exact ⟨e, rfl, Except.error.inj h⟩

theorem Same.error {e e' : Failure} (h : e.bare = e'.bare) : Same (.error e : Except Failure α) (.error e') :=
  congrArg Except.error h

def Parser.supply (p : Parser F) : Supply := ⟨p.buf.size - p.pos, p.src, p.far⟩

/-- The parser on its buffer is where the one on the text is, no ask was cut and no read began too far on. -/
structure Rel (s : Supply) (p : Parser F) (t : Text F) : Prop where
  cap : p.buf.cap = 1024
  size : p.buf.size ≤ 1024
  pos : p.pos ≤ p.buf.size
  left : t.left = p.buf.data.drop p.pos ++ p.src.left
  seen : t.seen ≤ p.buf.size - p.pos
  handler : p.handler = calls t.log
  whole : s.firstCut t.log = none
  supply : s.run t.log = p.supply
  near : ¬ s.Far t.log

/-- They are at one place, or an ask was cut, and the parser on the buffer has thrown there, or it has read too far. -/
def After (s : Supply) (r : Except Failure α × Parser F) (r' : Except Failure α × Text F) : Prop :=
  Same r.1 r'.1 ∧ Rel s r.2 r'.2 ∨
    (∃ n, s.firstCut r'.2.log = some n ∧ r.1 = .error (.parseError "Unexpected EOF" none) ∧
      r.2.handler = (calls r'.2.log).take n) ∨
    s.Far r'.2.log ∧ r.1 = .error (.stop .wildAccess)

/-- The log grows, by asks for at most five bytes at a time. -/
def Grows (log log' : List (Step F)) : Prop := ∃ more, log' = log ++ more ∧ ∀ bytes, .ask bytes ∈ more → bytes ≤ 5

structure Follows (s : Supply) (m : Effect Failure (Parser F) α) (m' : Effect Failure (Text F) α) : Prop where
  grows : ∀ t, Grows t.log (m' t).2.log
  after : ∀ p t, Rel s p t → (m' t).1 ≠ .error (.stop .wildAccess) → After s (m p) (m' t)

variable {s : Supply} {p p' : Parser F} {t t' : Text F} {m : Effect Failure (Parser F) α} {m' : Effect Failure (Text F) α}

theorem Grows.refl {log : List (Step F)} : Grows log log :=
  ⟨[], (List.append_nil log).symm, fun _ h => absurd h List.not_mem_nil⟩

theorem Grows.trans {log log' log'' : List (Step F)} (h : Grows log log') (h' : Grows log' log'') : Grows log log'' := by
  obtain ⟨more, rfl, hmore⟩ := h
  obtain ⟨more', rfl, hmore'⟩ := h'
  refine ⟨more ++ more', List.append_assoc .., fun bytes hbytes => ?_⟩
  rcases List.mem_append.mp hbytes with hbytes | hbytes
  · exact hmore bytes hbytes
  · exact hmore' bytes hbytes

theorem Grows.far {log log' : List (Step F)} (h : Grows log log') (hfar : s.Far log) : s.Far log' := by
  obtain ⟨more, rfl, -⟩ := h
  exact Supply.far_append.mpr (.inl hfar)

theorem Grows.one {log : List (Step F)} {a : Step F} (h : ∀ bytes, a = .ask bytes → bytes ≤ 5) : Grows log (log ++ [a]) :=
  ⟨[a], rfl, fun bytes hbytes => h bytes (List.mem_singleton.mp hbytes).symm⟩

theorem Follows.pure (a : α) : Follows s (pure a : Effect Failure (Parser F) α) (pure a) :=
  ⟨fun _ => Grows.refl, fun _ _ h _ => .inl ⟨rfl, h⟩⟩

theorem Follows.throw (e : Failure) : Follows s (throw e : Effect Failure (Parser F) α) (throw e) :=
  ⟨fun _ => Grows.refl, fun _ _ h _ => .inl ⟨rfl, h⟩⟩

/-- Nothing that comes later changes what was called before the first cut. -/
theorem After.cut_mono (hcut : s.firstCut t.log = some n) (hlog : Grows t.log t'.log)
    (hp : p.handler = (calls t.log).take n) : s.firstCut t'.log = some n ∧ p.handler = (calls t'.log).take n := by
  obtain ⟨more, hmore, -⟩ := hlog
  rw [hmore]
  refine ⟨Supply.firstCut_append_some hcut, ?_⟩
  rw [Supply.calls_append, List.take_append_of_le_length (Supply.firstCut_le hcut)]
  exact hp

theorem Follows.bind {f : α → Effect Failure (Parser F) β} {f' : α → Effect Failure (Text F) β}
    (h : Follows s m m') (hf : ∀ a, Follows s (f a) (f' a)) : Follows s (m >>= f) (m' >>= f') := by
  refine ⟨fun t => ?_, fun p t hrel hseen => ?_⟩
  · have hgrows := h.grows t
    cases hm : m' t with
    | mk r t' =>
      rw [hm] at hgrows
      cases r with
      | ok a =>
        rw [bind_ok hm]
        exact hgrows.trans ((hf a).grows t')
      | error e =>
        rw [bind_error hm]
        exact hgrows
  · cases hm' : m' t with
    | mk r t' =>
      cases hm : m p with
      | mk q p' =>
        have hafter := h.after p t hrel
        rw [hm, hm'] at hafter
        cases r with
        | ok a =>
          rw [bind_ok hm'] at hseen ⊢
          rcases hafter (fun he => nomatch he) with ⟨hsame, hrel'⟩ | ⟨n, hcut, hq, hp'⟩ | ⟨hfar, hq⟩
          · rw [bind_ok (hm.trans (congrArg (·, p') hsame.of_ok))]
            exact (hf a).after p' t' hrel' hseen
          · rw [bind_error (hm.trans (congrArg (·, p') hq))]
            obtain ⟨hcut', hhandler⟩ := After.cut_mono hcut ((hf a).grows t') hp'
            exact .inr (.inl ⟨n, hcut', rfl, hhandler⟩)
          · rw [bind_error (hm.trans (congrArg (·, p') hq))]
            exact .inr (.inr ⟨((hf a).grows t').far hfar, rfl⟩)
        | error e =>
          rw [bind_error hm'] at hseen ⊢
          rcases hafter (fun he => hseen (congrArg _ (Except.error.inj he))) with
            ⟨hsame, hrel'⟩ | ⟨n, hcut, hq, hp'⟩ | ⟨hfar, hq⟩
          · obtain ⟨e', he', hbare⟩ := hsame.of_error
            rw [bind_error (hm.trans (congrArg (·, p') he'))]
            exact .inl ⟨.error hbare, hrel'⟩
          · rw [bind_error (hm.trans (congrArg (·, p') hq))]
            exact .inr (.inl ⟨n, hcut, rfl, hp'⟩)
          · rw [bind_error (hm.trans (congrArg (·, p') hq))]
            exact .inr (.inr ⟨hfar, rfl⟩)

theorem Follows.ite {c : Prop} [Decidable c] {m₁ : Effect Failure (Parser F) α} {m₁' : Effect Failure (Text F) α}
    (h : Follows s m m') (h₁ : Follows s m₁ m₁') : Follows s (if c then m else m₁) (if c then m' else m₁') := by
  split
  · exact h
  · exact h₁

theorem Rel.length_left (h : Rel s p t) : t.left.length = p.supply.ahead + p.supply.src.left.length := by
  have hdata : p.buf.data.length = p.buf.size := ManagedBuffer.length_data (by rw [h.cap]; exact h.size)
  rw [h.left, List.length_append, List.length_drop, hdata]
  rfl

theorem read_eq {buf : ManagedBuffer} {src : Source} (hcap : buf.cap = 1024) (hsize : buf.size ≤ 1024) :
    Parser.read buf src =
      (buf.receive buf.size (src.read (1024 - buf.size)).1, (src.read (1024 - buf.size)).2) := by
  have hsub : uintzSub 1024 buf.size = 1024 - buf.size := if_pos hsize
  rw [Parser.read, hsub, hcap]
  split
  next => rfl
  next hempty =>
    have hzero : buf.size = 0 := Decidable.not_not.mp hempty
    rw [hzero]

/-- An ask of a parser that would make it read too far. -/
abbrev Parser.AsksFar (p : Parser F) (bytes : Nat) : Prop := p.supply.ahead < bytes ∧ Beyond p.src p.far

/-- `__want` keeps the bytes and reads as an ask does. -/
theorem Rel.want (h : Rel s p t) (hnear : ¬ p.AsksFar bytes) :
    ∃ p', Parser.want bytes p = (.ok (decide (bytes ≤ p'.supply.ahead)), p') ∧ p'.supply = p.supply.ask bytes ∧
      p'.buf.cap = 1024 ∧ p'.buf.size ≤ 1024 ∧ p'.pos ≤ p'.buf.size ∧
      t.left = p'.buf.data.drop p'.pos ++ p'.src.left ∧ p.supply.ahead ≤ p'.supply.ahead ∧ p'.handler = p.handler := by
  have hsub : uintzSub p.buf.size p.pos = p.buf.size - p.pos := if_pos h.pos
  rw [Parser.want, hsub]
  by_cases hfew : p.buf.size - p.pos < bytes
  · have hsmall := h.size
    have hpos := h.pos
    have hroom : p.buf.size ≤ p.buf.cap := by
      rw [h.cap]
      exact h.size
    obtain ⟨buf, hcompact, hsize, hcap, hdata⟩ := ManagedBuffer.compact_ok h.pos hroom (.inl (by omega)) (by omega)
    have hcap' : buf.cap = 1024 := hcap.trans h.cap
    have hsize' : buf.size ≤ 1024 := hsize ▸ Nat.le_trans (Nat.sub_le _ _) h.size
    have hlen : (p.src.read (1024 - buf.size)).1.length ≤ 1024 - buf.size := Source.length_read_le
    have hfits : buf.size + (p.src.read (1024 - buf.size)).1.length ≤ buf.cap := by omega
    rw [if_pos hfew, hcompact]
    dsimp only
    rw [if_neg (fun hbeyond => hnear ⟨hfew, hbeyond⟩), read_eq hcap' hsize']
    refine ⟨⟨0, buf.receive buf.size (p.src.read (1024 - buf.size)).1, (p.src.read (1024 - buf.size)).2, p.far,
      p.handler⟩, rfl, ?_, (ManagedBuffer.cap_receive hfits).trans hcap', ?_, Nat.zero_le _, ?_, ?_, rfl⟩
    · have hahead : p.supply.ahead = buf.size := hsize.symm
      rw [Supply.ask, if_pos (show p.supply.ahead < bytes from hfew), hahead]
      rfl
    · rw [ManagedBuffer.size_receive]
      omega
    · rw [ManagedBuffer.data_receive hfits, List.drop_zero, hdata, List.append_assoc, Source.read_append]
      exact h.left
    · change p.buf.size - p.pos ≤ buf.size + (p.src.read (1024 - buf.size)).1.length - 0
      omega
  · rw [if_neg hfew]
    refine ⟨p, ?_, (if_neg hfew).symm, h.cap, h.size, h.pos, h.left, Nat.le_refl _, rfl⟩
    rw [Parser.supply, decide_eq_true (Nat.le_of_not_lt hfew)]

theorem Text.log_want (bytes : Nat) (t : Text F) : (Text.want bytes t).2.log = t.log ++ [.ask bytes] := by
  rw [Text.want]
  split
  · rfl
  · rfl

theorem Text.left_want (bytes : Nat) (t : Text F) : (Text.want bytes t).2.left = t.left := by
  rw [Text.want]
  split
  · rfl
  · rfl

/-- An ask that is not cut brings the bytes that the text has. -/
theorem Rel.ask (h : Rel s p t) (hnear : ¬ p.AsksFar bytes) (hcut : ¬ p.supply.Cut bytes) :
    ∃ p', Parser.want bytes p = (.ok (decide (bytes ≤ t.left.length)), p') ∧ Rel s p' (Text.want bytes t).2 := by
  obtain ⟨p', hwant, hsupply, hcap, hsize, hpos, hleft, hahead, hhandler⟩ := h.want hnear
  have hlen : t.left.length = p'.supply.ahead + p'.src.left.length := by
    have hdata : p'.buf.data.length = p'.buf.size := ManagedBuffer.length_data (by rw [hcap]; exact hsize)
    rw [hleft, List.length_append, List.length_drop, hdata]
    rfl
  have hiff : bytes ≤ p'.supply.ahead ↔ bytes ≤ t.left.length := by
    refine ⟨fun hle => by omega, fun hle => ?_⟩
    by_contra hfew
    exact hcut ⟨by rw [h.length_left] at hle; exact hle, by rw [← hsupply]; exact Nat.lt_of_not_le hfew⟩
  have hlog := Text.log_want bytes t
  have hsame := Text.left_want bytes t
  refine ⟨p', ?_, hcap, hsize, hpos, hsame.trans hleft, ?_, ?_, ?_, ?_, ?_⟩
  · rw [hwant, decide_eq_decide.mpr hiff]
  · have hseen := h.seen
    change p.buf.size - p.pos ≤ p'.buf.size - p'.pos at hahead
    rw [Text.want]
    split
    next hhas => exact Nat.max_le.mpr ⟨Nat.le_trans hseen hahead, hiff.mpr hhas⟩
    next => exact Nat.le_trans hseen hahead
  · rw [hlog, Supply.calls_append, hhandler, h.handler]
    exact (List.append_nil _).symm
  · rw [hlog, Supply.firstCut_append h.whole, h.supply, Supply.firstCut, if_neg hcut]
    rfl
  · rw [hlog, Supply.run_append, h.supply, hsupply]
    rfl
  · rw [hlog, Supply.far_append, h.supply, Supply.far_ask, not_or]
    exact ⟨h.near, hnear⟩

theorem Rel.cut (h : Rel s p t) (hnear : ¬ p.AsksFar bytes) (hcut : p.supply.Cut bytes) :
    ∃ p', Parser.want bytes p = (.ok false, p') ∧ p'.handler = p.handler ∧
      s.firstCut (Text.want bytes t).2.log = some (calls t.log).length ∧ calls (Text.want bytes t).2.log = calls t.log := by
  obtain ⟨p', hwant, hsupply, -, -, -, -, -, hhandler⟩ := h.want hnear
  have hlog := Text.log_want bytes t
  refine ⟨p', ?_, hhandler, ?_, ?_⟩
  · rw [hwant, hsupply, decide_eq_false (Nat.not_le_of_lt hcut.2)]
  · rw [hlog, Supply.firstCut_append h.whole, h.supply, Supply.firstCut, if_pos hcut]
    rfl
  · rw [hlog, Supply.calls_append]
    exact List.append_nil _

theorem Rel.far (h : Rel s p t) (hfar : p.AsksFar bytes) :
    Parser.want bytes p = (.error (.stop .wildAccess), p) ∧ s.Far (Text.want bytes t).2.log := by
  have hroom : p.buf.size ≤ p.buf.cap := by
    rw [h.cap]
    exact h.size
  have hpos := h.pos
  have hsmall := h.size
  have hsub : uintzSub p.buf.size p.pos = p.buf.size - p.pos := if_pos hpos
  obtain ⟨buf, hcompact, -⟩ := ManagedBuffer.compact_ok hpos hroom (.inl (by omega)) (by omega)
  constructor
  · rw [Parser.want, hsub, if_pos (show p.buf.size - p.pos < bytes from hfar.1), hcompact]
    exact if_pos hfar.2
  · rw [Text.log_want, Supply.far_append, h.supply, Supply.far_ask]
    exact .inr hfar

theorem want_grows (h : bytes ≤ 5) (t : Text F) : Grows t.log (Text.want bytes t).2.log := by
  rw [Text.log_want]
  refine .one fun bytes' he => ?_
  cases he
  exact h

theorem want_one (t : Text F) : (Text.want 1 t).1 = .ok (decide (1 ≤ t.left.length)) := by
  rw [Text.want]
  split
  next h => rw [decide_eq_true h]
  next h => rw [decide_eq_false h]

theorem follows_want : Follows s (want 1 : Effect Failure (Parser F) Bool) (want 1) := by
  refine ⟨want_grows (by decide), fun p t hrel _ => ?_⟩
  change After s (Parser.want 1 p) (Text.want 1 t)
  by_cases hfar : p.AsksFar 1
  · obtain ⟨hwant, hlog⟩ := hrel.far hfar
    rw [hwant]
    exact .inr (.inr ⟨hlog, rfl⟩)
  obtain ⟨p', hwant, hrel'⟩ := hrel.ask hfar Supply.not_cut_one
  rw [hwant]
  refine .inl ⟨?_, hrel'⟩
  rw [want_one]
  rfl

theorem need_text (bytes : Nat) (t : Text F) : (need bytes : Effect Failure (Text F) Unit) t =
    if bytes ≤ t.left.length then (.ok (), (Text.want bytes t).2)
    else (.error (.parseError "Unexpected EOF" none), (Text.want bytes t).2) := by
  by_cases h : bytes ≤ t.left.length
  · have hwant : (want bytes : Effect Failure (Text F) Bool) t = (.ok true, (Text.want bytes t).2) := by
      change Text.want bytes t = _
      rw [Text.want, dif_pos h]
    rw [if_pos h, need, bind_ok hwant]
    rfl
  · have hwant : (want bytes : Effect Failure (Text F) Bool) t = (.ok false, (Text.want bytes t).2) := by
      change Text.want bytes t = _
      rw [Text.want, dif_neg h]
    rw [if_neg h, need, bind_ok hwant]
    rfl

theorem follows_need (h : bytes ≤ 5) : Follows s (need bytes : Effect Failure (Parser F) Unit) (need bytes) := by
  refine ⟨fun t => ?_, fun p t hrel _ => ?_⟩
  · rw [need_text]
    split
    · exact want_grows h t
    · exact want_grows h t
  · by_cases hfar : p.AsksFar bytes
    · obtain ⟨hwant, hlog⟩ := hrel.far hfar
      rw [need, bind_error (show (want bytes : Effect Failure (Parser F) Bool) p = _ from hwant), need_text]
      refine .inr (.inr ⟨?_, rfl⟩)
      split <;> exact hlog
    by_cases hcut : p.supply.Cut bytes
    · obtain ⟨p', hwant, hhandler, hfirst, hcalls⟩ := hrel.cut hfar hcut
      have hneed : (need bytes : Effect Failure (Parser F) Unit) p = (.error (.parseError "Unexpected EOF" none), p') := by
        rw [need, bind_ok (show (want bytes : Effect Failure (Parser F) Bool) p = _ from hwant)]
        rfl
      have hlen : bytes ≤ t.left.length := hrel.length_left ▸ hcut.1
      rw [hneed, need_text, if_pos hlen]
      refine .inr (.inl ⟨_, hfirst, rfl, ?_⟩)
      rw [hcalls, List.take_length, hhandler, hrel.handler]
    · obtain ⟨p', hwant, hrel'⟩ := hrel.ask hfar hcut
      rw [need, bind_ok (show (want bytes : Effect Failure (Parser F) Bool) p = _ from hwant), need_text]
      by_cases hlen : bytes ≤ t.left.length
      · rw [if_pos hlen, decide_eq_true hlen]
        exact .inl ⟨rfl, hrel'⟩
      · rw [if_neg hlen, decide_eq_false hlen]
        exact .inl ⟨rfl, hrel'⟩

/-- What only looks at bytes that were asked for. -/
theorem follows_look {f : Parser F → Except Failure α} {g : Text F → α}
    (h : ∀ p t, Rel s p t → count ≤ t.seen → f p = .ok (g t)) :
    Follows s (fun p => (f p, p)) (fun t => (t.ifSeen count (g t), t)) := by
  refine ⟨fun _ => Grows.refl, fun p t hrel hseen => ?_⟩
  rcases Nat.lt_or_ge t.seen count with hlt | hle
  · exact absurd (if_neg (Nat.not_le_of_lt hlt)) hseen
  · refine .inl ⟨?_, hrel⟩
    change Same (f p) (t.ifSeen count (g t))
    rw [h p t hrel hle, Text.ifSeen_of_le hle]
    rfl

theorem Rel.length_data (h : Rel s p t) : p.buf.data.length = p.buf.size :=
  ManagedBuffer.length_data (by rw [h.cap]; exact h.size)

theorem follows_get (i : Nat) : Follows s (get i : Effect Failure (Parser F) UInt8) (get i) := by
  refine follows_look fun p t hrel hseen => ?_
  have hlen := hrel.length_data
  have hsmall := hrel.size
  have hlt : p.pos + i < p.buf.data.length := by
    have hle := hrel.seen
    omega
  have hget := ManagedBuffer.get_ok (List.drop_eq_getElem_cons hlt) (by omega)
  have hleft : t.left.getD i 0 = p.buf.data[p.pos + i] := by
    rw [List.getD_eq_getElem?_getD, hrel.left, List.getElem?_append_left (by rw [List.length_drop]; omega),
      List.getElem?_drop, List.getElem?_eq_getElem hlt]
    rfl
  rw [Parser.ofBuffer, hget, hleft]
  rfl

theorem follows_memory (count : Nat) : Follows s (memory count : Effect Failure (Parser F) (List UInt8)) (memory count) := by
  refine follows_look fun p t hrel hseen => ?_
  have hlen := hrel.length_data
  have hle := hrel.seen
  have hpos := hrel.pos
  have hsmall := hrel.size
  have hstring : p.buf.string p.pos count = .ok ((p.buf.data.drop p.pos).take count) :=
    ManagedBuffer.string_ok (.inl (by omega)) (by omega) (by rw [hrel.cap]; exact hrel.size)
  rw [Parser.ofBuffer, hstring, hrel.left, List.take_append_of_le_length (by rw [List.length_drop]; omega)]
  rfl

theorem follows_inside : Follows s (inside : Effect Failure (Parser F) Bool) inside := by
  refine follows_look fun p t hrel hseen => ?_
  have hle := hrel.seen
  rw [decide_eq_true (by omega)]

theorem follows_skip (count : Nat) : Follows s (skip count : Effect Failure (Parser F) Unit) (skip count) := by
  refine ⟨fun t => ?_, fun p t hrel hseen => ?_⟩
  · change Grows t.log (Text.skip count t).2.log
    rw [Text.skip]
    split
    · exact .one (fun bytes he => nomatch he)
    · exact Grows.refl
  · change (Text.skip count t).1 ≠ _ at hseen
    change After s (.ok (), { p with pos := p.pos + count }) (Text.skip count t)
    by_cases hle : count ≤ t.seen
    · have hfew := hrel.seen
      have hlen := hrel.length_data
      have hpos := hrel.pos
      rw [Text.skip, if_pos hle]
      refine .inl ⟨rfl, hrel.cap, hrel.size, ?_, ?_, ?_, ?_, ?_, ?_, Supply.not_far_append hrel.near nofun⟩
      · change p.pos + count ≤ p.buf.size
        omega
      · change t.left.drop count = p.buf.data.drop (p.pos + count) ++ p.src.left
        rw [hrel.left, List.drop_append_of_le_length (by rw [List.length_drop]; omega), List.drop_drop]
      · change t.seen - count ≤ p.buf.size - (p.pos + count)
        omega
      · rw [Supply.calls_append, hrel.handler]
        exact (List.append_nil _).symm
      · rw [Supply.firstCut_append hrel.whole]
        rfl
      · rw [Supply.run_append, hrel.supply]
        change (⟨p.buf.size - p.pos - count, p.src, p.far⟩ : Supply) = ⟨p.buf.size - (p.pos + count), p.src, p.far⟩
        rw [Nat.sub_sub]
    · rw [Text.skip, if_neg hle] at hseen
      exact absurd rfl hseen

theorem follows_call (c : Call F) : Follows s (call c : Effect Failure (Parser F) Unit) (call c) := by
  refine ⟨fun t => .one (fun bytes he => nomatch he), fun p t hrel _ => ?_⟩
  refine .inl ⟨rfl, hrel.cap, hrel.size, hrel.pos, hrel.left, hrel.seen, ?_, ?_, ?_,
    Supply.not_far_append hrel.near nofun⟩
  · change p.handler ++ [c] = calls (t.log ++ [.call c])
    rw [Supply.calls_append, hrel.handler]
    rfl
  · change s.firstCut (t.log ++ [.call c]) = none
    rw [Supply.firstCut_append hrel.whole]
    rfl
  · change s.run (t.log ++ [.call c]) = _
    rw [Supply.run_append, hrel.supply]
    rfl

theorem follows_error (message : String) :
    Follows s (error message : Effect Failure (Parser F) Unit) (error message) := by
  refine ⟨fun t => Grows.refl, fun p t hrel _ => ?_⟩
  have hpos := hrel.pos
  have hsmall := hrel.size
  have hsub : uintzSub p.buf.size p.pos = p.buf.size - p.pos := if_pos hpos
  have hstring : p.buf.string p.pos (p.buf.size - p.pos) = .ok ((p.buf.data.drop p.pos).take (p.buf.size - p.pos)) :=
    ManagedBuffer.string_ok (.inl (by omega)) (by omega) (by rw [hrel.cap]; exact hrel.size)
  have hrest : (rest : Effect Failure (Parser F) (List UInt8)) p =
      (.ok ((p.buf.data.drop p.pos).take (p.buf.size - p.pos)), p) := by
    change (Parser.ofBuffer (p.buf.string p.pos (uintzSub p.buf.size p.pos)), p) = _
    rw [hsub, hstring]
    rfl
  rw [error, bind_ok hrest]
  exact .inl ⟨rfl, hrel⟩

theorem follows_liftExcept (r : Except Failure α) :
    Follows s (liftExcept r : Effect Failure (Parser F) α) (liftExcept r) :=
  ⟨fun _ => Grows.refl, fun _ _ hrel _ => .inl ⟨rfl, hrel⟩⟩

theorem follows_expect (c : Prop) [Decidable c] (message : String) :
    Follows s (expect c message : Effect Failure (Parser F) Unit) (expect c message) :=
  .ite (.pure ()) (follows_error message)

theorem follows_peek : Follows s (peek : Effect Failure (Parser F) UInt8) peek :=
  (follows_want).bind fun _ => .ite (follows_get 0) (.pure 0)

theorem follows_next : Follows s (next : Effect Failure (Parser F) UInt8) next :=
  (follows_inside).bind fun _ => .ite ((follows_skip 1).bind fun _ => follows_peek) (.throw _)

theorem follows_getch : Follows s (getch : Effect Failure (Parser F) UInt8) getch :=
  (follows_need (by decide)).bind fun _ => (follows_get 0).bind fun ch => (follows_skip 1).bind fun _ => .pure ch

theorem follows_hexDigit (i : Nat) : Follows s (hexDigit i : Effect Failure (Parser F) Nat) (hexDigit i) :=
  (follows_get i).bind fun ch => follows_liftExcept (hexDec ch)

theorem follows_uchar : Follows s (uchar : Effect Failure (Parser F) Nat) uchar :=
  (follows_hexDigit 0).bind fun _ => (follows_hexDigit 1).bind fun _ => (follows_hexDigit 2).bind fun _ =>
    (follows_hexDigit 3).bind fun _ => .pure _

theorem follows_append (result : List UInt8) (ch : UInt8) :
    Follows s (append result ch : Effect Failure (Parser F) (List UInt8)) (append result ch) :=
  .ite (.pure _) (.throw _)

theorem follows_appendUTF8Char (result : List UInt8) (char : Nat) :
    Follows s (appendUTF8Char result char : Effect Failure (Parser F) (List UInt8)) (appendUTF8Char result char) := by
  rw [appendUTF8Char, appendUTF8Char]
  generalize utf8Char char = bytes
  induction bytes generalizing result with
  | nil => exact .pure result
  | cons ch bytes ih => exact (follows_append result ch).bind ih

theorem follows_stringLoop (fuel : Nat) (result : List UInt8) :
    Follows s (stringLoop fuel result : Effect Failure (Parser F) (List UInt8)) (stringLoop fuel result) := by
  induction fuel generalizing result with
  | zero => exact .throw _
  | succ fuel ih =>
    refine (follows_getch).bind fun ch => .ite (.pure result)
      (.ite ((follows_getch).bind fun ch => .ite ?_ ((follows_append _ _).bind ih)) ((follows_append _ _).bind ih))
    exact (follows_need (by decide)).bind fun _ => (follows_uchar).bind fun _ => (follows_skip 4).bind fun _ =>
      (follows_appendUTF8Char _ _).bind ih

theorem follows_parseString (fuel : Nat) :
    Follows s (parseString fuel : Effect Failure (Parser F) Unit) (parseString fuel) :=
  (follows_skip 1).bind fun _ => (follows_stringLoop fuel []).bind fun _ => follows_call _

theorem follows_consumeSpace (fuel : Nat) :
    Follows s (consumeSpace fuel : Effect Failure (Parser F) Unit) (consumeSpace fuel) := by
  refine (follows_need (by decide)).bind fun _ => ?_
  induction fuel with
  | zero => exact .throw _
  | succ fuel ih =>
    exact (follows_get 0).bind fun _ =>
      .ite ((follows_skip 1).bind fun _ => (follows_need (by decide)).bind fun _ => ih) (.pure ())

theorem follows_separator (ch : UInt8) (message : String) (fuel : Nat) :
    Follows s (separator ch message fuel : Effect Failure (Parser F) Unit) (separator ch message fuel) :=
  (follows_get 0).bind fun _ => (follows_expect _ message).bind fun _ => (follows_skip 1).bind fun _ =>
    follows_consumeSpace fuel

theorem follows_isFalse (count : Nat) :
    Follows s (isFalse count : Effect Failure (Parser F) Bool) (isFalse count) :=
  .ite ((follows_memory 5).bind fun _ => .pure _) (.pure false)

theorem follows_parseKeyword (h : count ≤ 5) :
    Follows s (parseKeyword count : Effect Failure (Parser F) Unit) (parseKeyword count) := by
  have hcall (n : Nat) (c : Call F) :
      Follows s (do skip n; call c : Effect Failure (Parser F) Unit) (do skip n; call c) :=
    (follows_skip n).bind fun _ => follows_call c
  refine (follows_need h).bind fun _ => (follows_memory 4).bind fun _ => .ite (hcall _ _) ?_
  refine (follows_isFalse count).bind fun _ => .ite (hcall _ _) ?_
  exact (follows_memory 4).bind fun _ => .ite (hcall _ _) (follows_error _)

theorem follows_intLoop (fuel : Nat) (temp : List UInt8) (ch : UInt8) :
    Follows s (intLoop fuel temp ch : Effect Failure (Parser F) (List UInt8)) (intLoop fuel temp ch) := by
  induction fuel generalizing temp ch with
  | zero => exact .throw _
  | succ fuel ih =>
    exact .ite ((follows_next).bind fun _ => (follows_append _ _).bind fun temp => (follows_peek).bind fun _ => ih _ _)
      (.pure temp)

theorem follows_parseInt (fuel : Nat) (temp : List UInt8) :
    Follows s (parseInt fuel temp : Effect Failure (Parser F) (List UInt8)) (parseInt fuel temp) := by
  refine (follows_peek).bind fun ch => .ite ?_ (follows_intLoop fuel temp ch)
  exact (follows_append _ _).bind fun temp => (follows_next).bind fun ch => (follows_expect _ _).bind fun _ =>
    follows_intLoop fuel temp ch

theorem follows_fraction (fuel : Nat) (temp : List UInt8) :
    Follows s (fraction fuel temp : Effect Failure (Parser F) (List UInt8 × UInt8)) (fraction fuel temp) := by
  refine (follows_peek).bind fun ch =>
    .ite ((follows_append _ _).bind fun temp => (follows_next).bind fun _ => ?_) (.pure (temp, ch))
  induction fuel generalizing temp with
  | zero => exact .throw _
  | succ fuel ih =>
    exact (follows_peek).bind fun ch =>
      .ite ((follows_append _ _).bind fun temp => (follows_next).bind fun _ => ih temp) (.pure (temp, ch))

theorem follows_parseNumber (strtod : List UInt8 → F) (fuel : Nat) :
    Follows s (parseNumber strtod fuel : Effect Failure (Parser F) Unit) (parseNumber strtod fuel) := by
  refine (follows_parseInt fuel []).bind fun temp => (follows_fraction fuel temp).bind fun ⟨temp, ch⟩ => ?_
  refine Follows.bind ?_ fun temp => (follows_append temp 0).bind fun _ => follows_call _
  exact .ite ((follows_append _ _).bind fun temp => (follows_next).bind fun _ => follows_parseInt fuel temp) (.pure temp)

section Containers

variable {parse : Effect Failure (Parser F) Unit} {parse' : Effect Failure (Text F) Unit}

theorem follows_arrayLoop (h : Follows s parse parse') (fuel : Nat) :
    Follows s (arrayLoop parse fuel) (arrayLoop parse' fuel) := by
  induction fuel with
  | zero => exact .throw _
  | succ fuel ih =>
    refine h.bind fun _ => (follows_consumeSpace fuel).bind fun _ => (follows_get 0).bind fun _ => .ite (.pure ()) ?_
    exact (follows_separator _ _ fuel).bind fun _ => ih

theorem follows_parseArray (h : Follows s parse parse') (fuel : Nat) :
    Follows s (parseArray parse fuel) (parseArray parse' fuel) := by
  refine (follows_skip 1).bind fun _ => (follows_call _).bind fun _ => (follows_consumeSpace fuel).bind fun _ => ?_
  refine (follows_get 0).bind fun _ => Follows.bind (.ite (follows_arrayLoop h fuel) (.pure ())) fun _ => ?_
  exact (follows_skip 1).bind fun _ => follows_call _

theorem follows_objectLoop (h : Follows s parse parse') (fuel : Nat) :
    Follows s (objectLoop parse fuel) (objectLoop parse' fuel) := by
  induction fuel with
  | zero => exact .throw _
  | succ fuel ih =>
    refine (follows_get 0).bind fun _ => (follows_expect _ _).bind fun _ => (follows_parseString fuel).bind fun _ => ?_
    refine (follows_consumeSpace fuel).bind fun _ => (follows_separator _ _ fuel).bind fun _ => h.bind fun _ => ?_
    refine (follows_consumeSpace fuel).bind fun _ => (follows_get 0).bind fun _ => .ite (.pure ()) ?_
    exact (follows_separator _ _ fuel).bind fun _ => ih

theorem follows_parseObject (h : Follows s parse parse') (fuel : Nat) :
    Follows s (parseObject parse fuel) (parseObject parse' fuel) := by
  refine (follows_skip 1).bind fun _ => (follows_call _).bind fun _ => (follows_consumeSpace fuel).bind fun _ => ?_
  refine (follows_get 0).bind fun _ => Follows.bind (.ite (follows_objectLoop h fuel) (.pure ())) fun _ => ?_
  exact (follows_skip 1).bind fun _ => follows_call _

end Containers

/-- The parser on its buffer follows the one on the text. -/
theorem follows_parse (strtod : List UInt8 → F) (fuel : Nat) :
    Follows s (parse strtod fuel : Effect Failure (Parser F) Unit) (parse strtod fuel) := by
  induction fuel with
  | zero => exact .throw _
  | succ fuel ih =>
    refine (follows_consumeSpace fuel).bind fun _ => (follows_get 0).bind fun _ => ?_
    refine .ite (follows_parseString fuel) (.ite (follows_parseArray ih fuel) (.ite (follows_parseObject ih fuel) ?_))
    refine .ite (follows_parseKeyword (by decide)) (.ite (follows_parseKeyword (by decide)) (.ite (follows_parseNumber strtod fuel) ?_))
    exact follows_error _

/-- How the parser ends, with the calls to the handler before. -/
inductive Ending where
  | value
  | error
  /-- A byte of a string or a number is written where the memory for it isn't. -/
  | wild
  | forever
  deriving DecidableEq, Repr

def ending : Except Failure Unit → Ending
  | .ok _ => .value
  | .error .wildAppend => .wild
  | .error (.stop .forever) => .forever
  | .error _ => .error

def observe (strtod : List UInt8 → F) (text : List UInt8) (splits : Nat → Nat) : List (Call F) × Ending :=
  let r := parseText strtod text splits 0
  (r.2.handler, ending r.1)

/-- What the parser asks for on a text. -/
def log (strtod : List UInt8 → F) (text : List UInt8) : List (Step F) := (parse strtod (enough text) (Text.init text)).2.log

/-- What the parser does on the text itself. -/
def reference (strtod : List UInt8 → F) (text : List UInt8) : List (Call F) × Ending :=
  (calls (log strtod text), ending (parse strtod (enough text) (Text.init text : Text F)).1)

/-- The call, by its number, for which more bytes are asked than the buffer and one read have, although the
text has them. Behind the last call it counts only where the text goes on to a string or a number that is too long. -/
def cutCall (strtod : List UInt8 → F) (text : List UInt8) (splits : Nat → Nat) : Option Nat :=
  (Supply.firstCut ⟨0, ⟨text, splits⟩, 0⟩ (log strtod text)).filter fun n =>
    n < (calls (log strtod text)).length ∨ (reference strtod text).2 = .wild

variable {strtod : List UInt8 → F} {text : List UInt8} {splits splits' : Nat → Nat} {far : Nat}

theorem rel_init : Rel ⟨0, ⟨text, splits⟩, far⟩ (Parser.init ⟨text, splits⟩ far : Parser F) (Text.init text) := by
  refine ⟨List.length_replicate, Nat.zero_le _, Nat.le_refl _, ?_, Nat.le_refl _, rfl, rfl, rfl, id⟩
  exact (List.nil_append text).symm

theorem runs_text (strtod : List UInt8 → F) (text : List UInt8) :
    Runs (parse strtod (enough text)) (Text.init text : Text F) (fun _ t' => Supply.Closed t'.log) Thrown :=
  (runs_parse _ (Nat.le_refl _)).mono (fun _ _ h => h.closed Supply.closed_nil) (fun _ _ h => h)

/-- What is called, and how the parser ends, is up to the first cut what the text gives. -/
theorem after_parse (strtod : List UInt8 → F) (text : List UInt8) (splits : Nat → Nat) (far : Nat) :
    After ⟨0, ⟨text, splits⟩, far⟩ (parseText strtod text splits far) (parse strtod (enough text) (Text.init text)) := by
  refine (follows_parse strtod (enough text)).after _ _ rel_init fun he => ?_
  have hruns := runs_text strtod text
  cases hm : parse strtod (enough text) (Text.init text) with
  | mk r t' =>
    rw [hm] at he
    subst he
    exact hruns.error hm _ rfl

theorem ending_bare (r : Except Failure Unit) : ending (r.mapError Failure.bare) = ending r := by
  cases r with
  | ok a => rfl
  | error e => cases e <;> rfl

theorem ending_same {r r' : Except Failure Unit} (h : Same r r') : ending r = ending r' := by
  rw [← ending_bare r, h, ending_bare]

theorem ending_error {e : Failure} (h : ∀ stop, e ≠ .stop stop) : ending (.error e) = .error ∨ ending (.error e) = .wild := by
  cases e with
  | parseError message rest => exact .inl rfl
  | invalidArgument message => exact .inl rfl
  | stop stop => exact absurd rfl (h stop)
  | wildAppend => exact .inr rfl

/-- If no call is left behind the first cut, the text has an error there. -/
theorem ending_of_cut (hcut : Supply.firstCut ⟨0, ⟨text, splits⟩, far⟩ (log strtod text) = some n)
    (hn : ¬ n < (calls (log strtod text)).length) :
    (reference strtod text).2 = .error ∨ (reference strtod text).2 = .wild := by
  have hruns := runs_text strtod text
  change ending _ = _ ∨ ending _ = _
  cases hm : parse strtod (enough text) (Text.init text : Text F) with
  | mk r t' =>
    cases r with
    | ok a =>
      have hclosed := hruns.ok hm
      rw [log, hm] at hcut hn
      exact absurd (hclosed.firstCut_lt hcut) hn
    | error e => exact ending_error (hruns.error hm)

/-- The parser gets as far as the call that is cut. -/
theorem observe_eq : observe strtod text splits = match cutCall strtod text splits with
    | none => reference strtod text
    | some n => ((reference strtod text).1.take n, .error) := by
  rw [cutCall, observe]
  rcases after_parse strtod text splits 0 with ⟨hsame, hrel⟩ | ⟨n, hcut, he, hhandler⟩ | ⟨hfar, -⟩
  · have hwhole : Supply.firstCut ⟨0, ⟨text, splits⟩, 0⟩ (log strtod text) = none := hrel.whole
    rw [hwhole, hrel.handler, ending_same hsame]
    rfl
  · have hcut' : Supply.firstCut ⟨0, ⟨text, splits⟩, 0⟩ (log strtod text) = some n := hcut
    rw [hcut', hhandler, he]
    by_cases hn : n < (calls (log strtod text)).length ∨ (reference strtod text).2 = .wild
    · rw [Option.filter_some, if_pos (decide_eq_true hn)]
      rfl
    · obtain ⟨hlen, hwild⟩ := not_or.mp hn
      rw [Option.filter_some, if_neg (by rw [decide_eq_false hn]; decide)]
      refine Prod.ext ?_ ((ending_of_cut hcut' hlen).resolve_right hwild).symm
      exact List.take_of_length_le (Nat.le_of_not_lt hlen)
  · exact absurd hfar (Supply.not_far rfl)

theorem reference_ends : (reference strtod text).2 ≠ .forever := by
  have hruns := runs_text strtod text
  change ending _ ≠ _
  cases hm : parse strtod (enough text) (Text.init text : Text F) with
  | mk r t' =>
    cases r with
    | ok a => exact fun h => nomatch h
    | error e =>
      rcases ending_error (hruns.error hm) with he | he
      · rw [he]
        exact fun h => nomatch h
      · rw [he]
        exact fun h => nomatch h

/-- Reads that bring five bytes, where there are so many, cut nothing. -/
theorem firstCut_log (h : ∀ i, 4 ≤ splits i) : Supply.firstCut ⟨0, ⟨text, splits⟩, far⟩ (log strtod text) = none := by
  obtain ⟨more, hlog, hsmall⟩ :=
    (follows_parse (s := ⟨0, ⟨text, splits⟩, far⟩) strtod (enough text)).grows (Text.init text)
  refine Supply.firstCut_wide h fun bytes hbytes => hsmall bytes ?_
  rw [log, hlog] at hbytes
  exact hbytes

/-- The parser ends, and two ways to split a text agree exactly if the reads cut the bytes for the same call, or
for none. -/
theorem splits_agree_iff (strtod : List UInt8 → F) (text : List UInt8) (splits splits' : Nat → Nat) :
    (observe strtod text splits).2 ≠ .forever ∧
      (observe strtod text splits = observe strtod text splits' ↔
        cutCall strtod text splits = cutCall strtod text splits') := by
  have hlen {splits : Nat → Nat} {n : Nat} (h : cutCall strtod text splits = some n) :
      ((reference strtod text).1.take n).length = n ∧
        (n < (reference strtod text).1.length ∨ (reference strtod text).2 = .wild) := by
    obtain ⟨hcut, hcounts⟩ := Option.filter_eq_some_iff.mp h
    refine ⟨?_, of_decide_eq_true hcounts⟩
    rw [List.length_take]
    exact Nat.min_eq_left (Supply.firstCut_le hcut)
  -- what is not cut is not what is cut
  have hnone {splits : Nat → Nat} {n : Nat} (h : cutCall strtod text splits = some n) :
      reference strtod text ≠ ((reference strtod text).1.take n, .error) := by
    intro he
    obtain ⟨hn, hlt | hwild⟩ := hlen h
    · have hfirst := congrArg (·.1.length) he
      dsimp only at hfirst
      omega
    · have hend := congrArg Prod.snd he
      rw [hwild] at hend
      cases hend
  refine ⟨?_, fun h => ?_, fun h => ?_⟩
  · rw [observe_eq]
    split
    · exact reference_ends
    · exact fun h => nomatch h
  · rw [observe_eq, observe_eq] at h
    cases hc : cutCall strtod text splits with
    | none =>
      cases hc' : cutCall strtod text splits' with
      | none => rfl
      | some n' =>
        rw [hc, hc'] at h
        exact absurd h (hnone hc')
    | some n =>
      obtain ⟨hn, -⟩ := hlen hc
      cases hc' : cutCall strtod text splits' with
      | none =>
        rw [hc, hc'] at h
        exact absurd h.symm (hnone hc)
      | some n' =>
        rw [hc, hc'] at h
        obtain ⟨hn', -⟩ := hlen hc'
        have hfirst := congrArg (·.1.length) h
        dsimp only at hfirst
        rw [hn, hn'] at hfirst
        rw [hfirst]
  · rw [observe_eq, observe_eq, h]

/-- `true` in one read and in reads of one byte -/
theorem keyword_cut : observe (fun _ => ()) trueText (fun _ => 3) ≠ observe (fun _ => ()) trueText (fun _ => 0) := by
  rw [observe_eq, observe_eq]
  decide

end Json2

end Crack
