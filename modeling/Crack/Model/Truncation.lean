import Crack.Model.RoundTripLimits

/-!
# Truncated streams

A stream that was cut short gives the values that it still holds and then an error.
An integer read with an eof flag gives the end of the stream instead of the error.
-/
namespace Crack

open Decoding DeserializationError

section Runs

/-- One read after the other, up to the first error: the values that were returned
and the error. -/
def Kinds.run : Kinds → Deserializer → List Val × Option DeserializationError
  | done, _ => ([], none)
  | uint next, d => andThen (uint done).read next.run d
  | str next, d => andThen (str done).read next.run d
  | double next, d => andThen (double done).read next.run d
  | object body next, d => andThen (object body done).read next.run d
where
  andThen (r : Reader (List Val)) (next : Deserializer → List Val × Option DeserializationError) (d : Deserializer) :
      List Val × Option DeserializationError :=
    match r d with
    | .ok (vals, d) => (vals ++ (next d).1, (next d).2)
    | .error e => ([], some e)

/-- The first writes of a sequence. -/
def Writes.take : Nat → Writes → Writes
  | 0, _ => done
  | _, done => done
  | n + 1, uint v next => uint v (next.take n)
  | n + 1, str data next => str data (next.take n)
  | n + 1, double val next => double val (next.take n)
  | n + 1, object p body next => object p body (next.take n)

/-- The first write alone, and the others. -/
def Writes.first : Writes → Writes
  | done => done
  | uint v _ => uint v done
  | str data _ => str data done
  | double val _ => double val done
  | object p body _ => object p body done

def Writes.rest : Writes → Writes
  | done => done
  | uint _ next | str _ next | double _ next | object _ _ next => next

variable {w : Writes} {s : Serializer} {heap : Nat → Writes}

theorem write_first_rest (w : Writes) (s : Serializer) : w.write s = w.rest.write (w.first.write s) := by
  cases w with
  | object p body next =>
    simp only [Writes.first, Writes.rest, Writes.write]
    split <;> rfl
  | _ => rfl

theorem run_first_rest (hw : w ≠ .done) (d : Deserializer) :
    w.kinds.run d = Kinds.run.andThen w.first.kinds.read w.rest.kinds.run d := by
  cases w with
  | done => exact absurd rfl hw
  | _ => rfl

theorem take_first_rest (hw : w ≠ .done) (n : Nat) (s : Serializer) :
    (w.take (n + 1)).write s = (w.rest.take n).write (w.first.write s) := by
  rw [write_first_rest]
  cases w with
  | done => exact absurd rfl hw
  | _ => rfl

theorem ofHeap_first_rest (hw : w.OfHeap heap) : w.first.OfHeap heap ∧ w.rest.OfHeap heap := by
  cases w with
  | object p body next => exact ⟨⟨hw.1, hw.2.1, trivial⟩, hw.2.2⟩
  | _ => exact ⟨trivial, hw⟩

theorem short_first_rest (hs : w.Short) : w.first.Short ∧ w.rest.Short := by
  cases w with
  | str data next => exact ⟨⟨hs.1, trivial⟩, hs.2⟩
  | object p body next => exact ⟨⟨hs.1, trivial⟩, hs.2⟩
  | _ => exact ⟨trivial, hs⟩

theorem read_first_rest (w : Writes) :
    w.kinds.read = w.first.kinds.read >>= fun v => w.rest.kinds.read >>= fun vs => pure (v ++ vs) := by
  cases w <;> simp [Writes.first, Writes.rest, Writes.kinds, Kinds.read]

end Runs

section Cuts

variable {w : Writes} {s : Serializer} {heap : Nat → Writes} {d d' : Deserializer} {used : List UInt8} {vals : List Val}

/-- `n` is the number of values whose bytes are all among the first `len` bytes. -/
def Contained (w : Writes) (s : Serializer) (len n : Nat) : Prop :=
  ((w.take n).write s).dst.length ≤ s.dst.length + len ∧ s.dst.length + len < ((w.take (n + 1)).write s).dst.length

/-- The first write and the others are read back one after the other. -/
theorem readsBack_first_rest (h : Paired heap s d []) (hback : ReadsBack heap s d [] w used vals d')
    (hw : w.OfHeap heap) (hs : w.Short) (hov : (w.write s).overflow = false) :
    ∃ used₁ used₂ vals₁ vals₂ d₁ d₂, used = used₁ ++ used₂ ∧ vals = vals₁ ++ vals₂ ∧
      ReadsBack heap s d [] w.first used₁ vals₁ d₁ ∧
      ReadsBack heap (w.first.write s) d₁ [] w.rest used₂ vals₂ d₂ := by
  obtain ⟨hw₁, hw₂⟩ := ofHeap_first_rest hw
  obtain ⟨hs₁, hs₂⟩ := short_first_rest hs
  rw [write_first_rest] at hov
  have hnone : ∀ {w : Writes}, ∀ p ∈ w.ptrs, p ∉ ([] : List Nat) := fun _ _ => List.not_mem_nil
  have hwritten := written h.numbered hw₁ hnone
  have hov₁ := (written hwritten.numbered hw₂ hnone).sticky hov
  obtain ⟨used₁, vals₁, d₁, hback₁⟩ := readsBack h hw₁ hnone hs₁ hov₁
  obtain ⟨used₂, vals₂, d₂, hback₂⟩ := readsBack hback₁.paired hw₂ hnone hs₂ hov
  have hused : used = used₁ ++ used₂ := by
    have hdst := hback.dst
    rw [write_first_rest, hback₂.dst, hback₁.dst, List.append_assoc] at hdst
    exact (List.append_cancel_left hdst).symm
  have hread : Reads w.kinds.read d used (vals₁ ++ vals₂) d₂ := by
    rw [read_first_rest, hused]
    exact hback₁.reads.bind (f := fun v => w.rest.kinds.read >>= fun vs => pure (v ++ vs))
      (hback₂.reads.bind_pure fun vs => vals₁ ++ vs)
  obtain ⟨rfl, -⟩ := Prod.mk.inj (Except.ok.inj ((hback.reads.whole []).symm.trans (hread.whole [])))
  exact ⟨used₁, used₂, vals₁, vals₂, d₁, d₂, hused, rfl, hback₁, hback₂⟩

theorem length_first {ref : Nat → Nat → Prop} (hne : w ≠ .done) (hm : w.first.Matches ref vals) : vals.length = 1 := by
  cases w with
  | done => exact absurd rfl hne
  | _ =>
    obtain _ | ⟨_ | _ | _ | _, _ | ⟨_, _⟩⟩ := vals <;>
      simp_all [Writes.first, Writes.Matches]

/-- What is proved of a sequence whose bytes are cut short. -/
def RunsUpTo (heap : Nat → Writes) (w : Writes) : Prop :=
  ∀ {s d used vals d' part}, Paired heap s d [] → ReadsBack heap s d [] w used vals d' → w.OfHeap heap → w.Short →
    (w.write s).overflow = false → part <+: used → part ≠ used →
    ∃ n, Contained w s part.length n ∧ w.kinds.run (d.feed part) = (vals.take n, some eof)

/-- The cut is in the bytes of the first write or in those of the others. -/
theorem runsUpTo_first_rest (hne : w ≠ .done) (ih : RunsUpTo heap w.rest) : RunsUpTo heap w := by
  intro s d used vals d' part h hback hw hs hov hp hpne
  obtain ⟨used₁, used₂, vals₁, vals₂, d₁, d₂, rfl, rfl, hback₁, hback₂⟩ :=
    readsBack_first_rest h hback hw hs hov
  rw [run_first_rest hne]
  obtain ⟨hp, hpne⟩ | ⟨part', rfl, hp, hpne⟩ := prefix_append_cases hp hpne
  · refine ⟨0, ⟨Nat.le_add_right _ _, ?_⟩, ?_⟩
    · have hlt : part.length < used₁.length :=
        Nat.lt_of_le_of_ne hp.length_le fun he => hpne (hp.eq_of_length he)
      rw [take_first_rest hne]
      change _ < ((w.rest.take 0).write (w.first.write s)).dst.length
      rw [show w.rest.take 0 = .done by cases w.rest <;> rfl, Writes.write, hback₁.dst, List.length_append]
      omega
    · simp only [Kinds.run.andThen, hback₁.reads.cut part hp hpne, List.take_zero]
  · obtain ⟨hw₁, hw₂⟩ := ofHeap_first_rest hw
    obtain ⟨hs₁, hs₂⟩ := short_first_rest hs
    rw [write_first_rest] at hov
    obtain ⟨n, ⟨hle, hlt⟩, hrun⟩ := ih hback₁.paired hback₂ hw₂ hs₂ hov hp hpne
    rw [hback₁.dst, List.length_append] at hle hlt
    refine ⟨n + 1, ⟨?_, ?_⟩, ?_⟩
    · rw [take_first_rest hne, List.length_append]
      omega
    · rw [take_first_rest hne, List.length_append]
      omega
    · have hone := length_first hne hback₁.copied
      have htake : (vals₁ ++ vals₂).take (n + 1) = vals₁ ++ vals₂.take n := by
        rw [Nat.add_comm, ← hone, List.take_length_add_append]
      simp only [Kinds.run.andThen, hback₁.reads.whole part', hrun, htake]

theorem runsUpTo (w : Writes) : RunsUpTo heap w := by
  induction w with
  | done =>
    intro s d used vals d' part h hback hw hs hov hp hne
    have hnil : used = [] := List.append_cancel_left (hback.dst.symm.trans (List.append_nil _).symm)
    subst hnil
    exact absurd (List.prefix_nil.mp hp) hne
  | uint v next ih | str v next ih | double v next ih | object p body next ihb ih =>
    exact runsUpTo_first_rest (by simp) ih

end Cuts

section EofFlag

variable {v : Nat} {part : List UInt8}

/-- The flag is set in front of an integer and anywhere in it. -/
theorem readUIntEof_part (d : Deserializer) (hp : part <+: uintBytes v) (hne : part ≠ uintBytes v) :
    ∃ d', readUIntEof (d.feed part) = .ok ((0, true), d') := by
  have hloop := Deserializer.readLoop_part d v 0 0 part hp hne
  rw [readUIntEof]
  split
  · next h => rw [h] at hloop; cases hloop
  · exact ⟨_, rfl⟩

theorem readUIntEof_whole (d : Deserializer) (h : v < uintSize) (rest : List UInt8) :
    readUIntEof (d.feed (uintBytes v ++ rest)) = .ok ((v, false), (d.add (uintBytes v)).feed rest) := by
  have hloop := Deserializer.readLoop_uintBytes d v 0 0 rest (by decide) (by omega)
  rw [readUIntEof, hloop]
  simp

end EofFlag

/-- Of a stream that was cut short, the reads return the copies of the values that
it still holds and then fail; `readUInt` with an eof flag gives 0 and the flag
wherever the stream ends before the last byte of the integer. An object is given by its address alone. -/
theorem cut_stream (heap : Nat → Writes) (w : Writes) (hw : w.OfHeap heap) (hs : w.Short)
    (hcount : w.ptrs.dedup.length ≤ intMax) :
    (∃ (vals : List Val) (d : Deserializer), w.kinds.read (.new (w.write {}).dst) = .ok (vals, d) ∧
      Copied heap w vals d ∧
      ∀ part, part <+: (w.write {}).dst → part ≠ (w.write {}).dst → ∃ n, Contained w {} part.length n ∧
        w.kinds.run (.new part) = (vals.take n, some eof)) ∧
    ∀ v < uintSize, ∀ part, part <+: (Serializer.writeUInt {} v).dst →
      (part ≠ (Serializer.writeUInt {} v).dst → ∃ d, readUIntEof (.new part) = .ok ((0, true), d)) ∧
      (part = (Serializer.writeUInt {} v).dst → ∃ d, readUIntEof (.new part) = .ok ((v, false), d)) := by
  have hov := (overflow_iff hw).mpr hcount
  constructor
  · obtain ⟨used, vals, d, hback⟩ := readsBack (paired_empty []) hw (fun _ _ => List.not_mem_nil) hs hov
    have hdst : (w.write {}).dst = used := hback.dst
    have hread := hback.reads.whole []
    rw [List.append_nil, ← hdst] at hread
    obtain ⟨address, hcopied⟩ := copied_of_readsBack hw hback
    refine ⟨vals, d.feed [], hread, ⟨address, hcopied⟩, fun part hp hne => ?_⟩
    rw [hdst] at hp hne
    obtain ⟨n, hn, hrun⟩ := runsUpTo w (paired_empty []) hback hw hs hov hp hne
    exact ⟨n, hn, hrun⟩
  · intro v hv part hp
    have hbytes : (Serializer.writeUInt {} v).dst = uintBytes v := by
      rw [writeUInt_eq]
      rfl
    rw [hbytes] at hp ⊢
    refine ⟨readUIntEof_part (.new []) hp, ?_⟩
    rintro rfl
    have hwhole := readUIntEof_whole (.new []) hv []
    rw [List.append_nil] at hwhole
    exact ⟨_, hwhole⟩

/-- The number 300 and then a string whose only byte is missing. -/
theorem cut_string :
    let w : Writes := .uint ⟨300, by decide⟩ (.str [0x61] .done)
    ∃ (vals : List Val) (n : Nat), Contained w {} 3 n ∧ w.kinds.run (.new [0xac, 0x02, 0x01]) = (vals.take n, some eof) := by
  intro w
  have hdst : (w.write {}).dst = [0xac, 0x02, 0x01, 0x61] := by
    simp [w, Writes.write, writeUInt_eq, writeBlob_eq, uintBytes, uintSize]
  obtain ⟨⟨vals, d, -, -, hcut⟩, -⟩ :=
    cut_stream (fun _ => .done) w trivial ⟨by decide, trivial⟩ (Nat.zero_le _)
  rw [hdst] at hcut
  obtain ⟨n, hn, hrun⟩ := hcut [0xac, 0x02, 0x01] ⟨[0x61], rfl⟩ (by decide)
  exact ⟨vals, n, hn, hrun⟩

/-- The flag is also set after the first of the two bytes of 128. -/
theorem eof_inside_uint :
    ¬ ∀ v < uintSize, ∀ part, part <+: (Serializer.writeUInt {} v).dst → part ≠ (Serializer.writeUInt {} v).dst →
      (∃ d, readUIntEof (.new part) = .ok ((0, true), d)) → part = [] := by
  intro h
  have hbytes : (Serializer.writeUInt {} 128).dst = uintBytes 128 := by
    rw [writeUInt_eq]
    rfl
  have hp : [0x80] <+: uintBytes 128 := by
    rw [uintBytes]
    exact ⟨uintBytes 1, rfl⟩
  have hne : [0x80] ≠ uintBytes 128 := by
    simp [uintBytes]
  have hnil := h 128 (by decide) [0x80] (hbytes ▸ hp) (hbytes ▸ hne) (readUIntEof_part (.new []) hp hne)
  cases hnil

end Crack
