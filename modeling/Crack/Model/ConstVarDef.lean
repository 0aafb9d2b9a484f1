import Crack.Model.Sections

/-!
Constants in the cache: `ConstVarDef::serialize` and `ConstVarDef::deserialize`, with the
references to their types.
-/
namespace Crack

open Decoding DeserializationError

/-- A type of another module: the module's name and the names from there to the type. -/
structure ExternName where
  module : List UInt8
  path : List (List UInt8)

namespace ExternName

/-- The fields with the path. -/
def writePath (name : ExternName) (s : Serializer) : Serializer :=
  name.path.foldl (fun s n => (s.writeUInt (pbKey 3 pbString)).writeBlob n) s

/-- `VarDef::serializeExternCommon` of a type without parameters. -/
def serializeExternCommon (name : ExternName) (s : Serializer) : Serializer :=
  (s.writeBlob name.module).writeSub name.writePath

/-- What is read of the type. -/
def contents (name : ExternName) : List Val := .str name.module :: name.path.map .str

/-- The length of every string is an `unsigned int`, also of the one with the path. -/
structure Short (name : ExternName) : Prop where
  module : name.module.length < uintSize
  names : ∀ n ∈ name.path, n.length < uintSize
  path : ∀ s : Serializer, (name.writePath s.sub).dst.length < uintSize

end ExternName

/-- The switch over the fields in `deserializeAliasBody`. A type has no other field. -/
def externField (key : Int) (path : List (List UInt8)) : Reader (List (List UInt8)) :=
  if key = pbKey 3 pbString then do
    let name ← readString
    pure (path ++ [name])
  else pure path

/-- `VarDef::deserializeTypeAliasBody`, up to the look-up of the path. -/
def deserializeTypeAliasBody : Reader (List Val) := do
  let module ← readString
  let path ← optionalFields externField []
  pure (.str module :: path.map .str)

namespace TypeDef

/-- `TypeDef::deserializeRef`. -/
def deserializeRef : Reader Nat := do
  let (type, _) ← readObject (deserializeTypeAliasBody >>= create)
  pure type

/-- `TypeDef::serialize` of a type; those of the module have no name in `extern`. -/
def serialize (externs : Nat → Option ExternName) (type : Nat) (s : Serializer) : Except String Serializer :=
  match s.writeObject type with
  | (true, s) =>
    match externs type with
    | some name => .ok (name.serializeExternCommon s)
    | none => .error "Serializing full type from a reference."
  | (false, s) => .ok s

end TypeDef

/-- `IntConst` and `FloatConst`. -/
inductive StoredConst where
  | int (uval : BitVec 64) (reqUnsigned : Bool)
  | float (val : Double)
  deriving DecidableEq, Repr

structure ConstVarDef where
  name : List UInt8
  type : Nat
  expr : StoredConst

namespace ConstVarDef

def constInt := 1
def constIntReqUnsigned := 2
def constFloat := 3
def constVarId := 7

/-- The value of an integer constant is passed as an `unsigned int`. -/
def serializeExpr (expr : StoredConst) (s : Serializer) : Serializer :=
  match expr with
  | .int uval reqUnsigned =>
    (s.writeUInt (if reqUnsigned then constIntReqUnsigned else constInt)).writeUInt (uval.toNat % uintSize)
  | .float val => (s.writeUInt constFloat).writeDouble val

def serialize (externs : Nat → Option ExternName) (v : ConstVarDef) (writeKind : Bool) (s : Serializer) :
    Except String Serializer :=
  let s := if writeKind then s.writeUInt constVarId else s
  match TypeDef.serialize externs v.type (s.writeBlob v.name) with
  | .ok s => .ok (serializeExpr v.expr s)
  | .error e => .error e

def deserializeExpr : Reader StoredConst := do
  let kind ← readUInt
  if toInt kind = constIntReqUnsigned then do
    let val ← readUInt
    pure (.int (BitVec.ofNat 64 val) true)
  else if toInt kind = constInt then do
    let val ← readUInt
    pure (.int (BitVec.ofNat 64 val) false)
  else if toInt kind = constFloat then do
    let val ← readDouble
    pure (.float val)
  else throw (check "unexpected const var def kind")

def deserialize : Reader ConstVarDef := do
  let name ← readString
  let type ← TypeDef.deserializeRef
  let expr ← deserializeExpr
  pure ⟨name, type, expr⟩

/-- The case of `deserializeDefs` for a constant, where the kind was written. -/
def deserializeDef (writeKind : Bool) : Reader ConstVarDef := do
  if writeKind then do
    let kind ← readUInt
    if toInt kind = constVarId then deserialize else throw (check "Bad definition type id")
  else deserialize

end ConstVarDef

section Restoring

variable {externs : Nat → Option ExternName} {s s' : Serializer} {d : Deserializer} {c : Scope} {digest : Bool}

/-- The types of other modules are known by their names. -/
def typeScope (externs : Nat → Option ExternName) (digest : Bool) : Scope where
  Obj p contents := ∀ name, externs p = some name → contents = name.contents
  digest := digest

theorem ExternName.mirrors {name : ExternName} (h : name.Short) :
    Mirrors (stream c) s (name.serializeExternCommon s) deserializeTypeAliasBody (· = name.contents) := by
  refine (mirrors_string h.module).bind fun module hmodule => ?_
  subst hmodule
  refine (mirrors_orderedFields (k := fun _ => pbKey 3 pbString) (b := fun n s => s.writeBlob n)
    (R := fun done path => path = done) name.path (fun _ _ => by decide) ?_ (h.path _) [] rfl).map _ ?_
  · intro pre n post hsplit s path hpath
    subst hpath
    refine (mirrors_string (h.names n (by simp [hsplit]))).map _ fun n' hn' => ?_
    rw [hn']
  · intro path hpath
    rw [hpath]
    rfl

theorem TypeDef.serialize_ok {type : Nat} (h : TypeDef.serialize externs type s = .ok s') :
    s' = s.writeRef type ((externs type).getD ⟨[], []⟩).serializeExternCommon := by
  rw [TypeDef.serialize] at h
  rw [Serializer.writeRef]
  generalize s.writeObject type = w at h ⊢
  obtain ⟨isNew, t⟩ := w
  cases isNew with
  | true =>
    cases he : externs type with
    | none =>
      rw [he] at h
      cases h
    | some name =>
      rw [he] at h
      cases h
      rfl
  | false =>
    cases h
    rfl

theorem unnamed_short : (⟨[], []⟩ : ExternName).Short :=
  ⟨by decide, (fun _ hn => nomatch hn), fun _ => show 0 < uintSize by decide⟩

theorem TypeDef.reads_type (hshort : ∀ p name, externs p = some name → name.Short) {type : Nat}
    (h : TypeDef.serialize externs type s = .ok s') (hf : s'.overflow = false) (hd : InStep (typeScope externs digest) s d) :
    ∃ a d', Reads TypeDef.deserializeRef d (s'.dst.drop s.dst.length) a d' ∧ s.dst <+: s'.dst ∧
      RefersTo (typeScope externs digest) s' d' type a := by
  obtain rfl := TypeDef.serialize_ok h
  have hname : ((externs type).getD ⟨[], []⟩).Short := by
    cases he : externs type with
    | none => exact unnamed_short
    | some name => exact hshort type name he
  have hbody : ∀ s id, Mirrors (stream ((typeScope externs digest).open type id)) s
      (((externs type).getD ⟨[], []⟩).serializeExternCommon s) deserializeTypeAliasBody ((typeScope externs digest).Obj type) := by
    intro s id
    refine (ExternName.mirrors hname).mono fun contents hcontents name hext => ?_
    rw [hcontents, hext, Option.getD_some]
  obtain ⟨a, d', hr, -, hrefers⟩ := reads_ref List.not_mem_nil hbody hf hd
  exact ⟨a.1, d', hr.bind_pure Prod.fst, (mirrors_object List.not_mem_nil hbody).grows, hrefers⟩

end Restoring

namespace StoredConst

/-- What is left of a constant. -/
def restored : StoredConst → StoredConst
  | .int uval reqUnsigned => .int (BitVec.ofNat 64 (uval.toNat % uintSize)) reqUnsigned
  | .float val => .float val

/-- The value of an integer constant is an `unsigned int`. -/
def Fits : StoredConst → Prop
  | .int uval _ => uval.toNat < 2 ^ 32
  | .float _ => True

theorem restored_eq_iff (expr : StoredConst) : expr.restored = expr ↔ expr.Fits := by
  cases expr with
  | float val => exact iff_of_true rfl trivial
  | int uval reqUnsigned =>
    have hlt : uval.toNat % uintSize < 2 ^ 64 :=
      Nat.lt_of_lt_of_le (Nat.mod_lt _ (by decide)) (by decide)
    rw [restored, Fits, StoredConst.int.injEq, and_iff_left rfl]
    constructor
    · intro h
      have hval := congrArg BitVec.toNat h
      rw [BitVec.toNat_ofNat, Nat.mod_eq_of_lt hlt] at hval
      exact hval ▸ Nat.mod_lt _ (by decide)
    · intro h
      rw [Nat.mod_eq_of_lt (show uval.toNat < uintSize from h), BitVec.ofNat_toNat, BitVec.setWidth_eq]

end StoredConst

namespace ConstVarDef

variable {externs : Nat → Option ExternName} {v : ConstVarDef} {writeKind : Bool} {s s' : Serializer} {d : Deserializer}
  {digest : Bool}

/-- The constant alone. -/
theorem reads_expr (expr : StoredConst) :
    ∃ bytes, (∀ s, serializeExpr expr s = s.emit bytes) ∧
      ∀ d, Reads deserializeExpr d bytes expr.restored (d.add bytes) := by
  cases expr with
  | int uval reqUnsigned =>
    have hval : uval.toNat % uintSize < uintSize := Nat.mod_lt _ (by decide)
    have hread : ∀ d, Reads (do let val ← readUInt; pure (StoredConst.int (BitVec.ofNat 64 val) reqUnsigned) : Reader StoredConst) d
        (uintBytes (uval.toNat % uintSize)) (StoredConst.int uval reqUnsigned).restored
        (d.add (uintBytes (uval.toNat % uintSize))) :=
      fun d => (reads_uint d hval).bind_pure fun val => StoredConst.int (BitVec.ofNat 64 val) reqUnsigned
    refine ⟨uintBytes (if reqUnsigned then constIntReqUnsigned else constInt) ++ uintBytes (uval.toNat % uintSize),
      fun s => ?_, fun d => ?_⟩
    · rw [serializeExpr, writeUInt_eq, writeUInt_eq, emit_emit]
    · rw [← Deserializer.add_add]
      cases reqUnsigned with
      | true => exact (reads_uint d (v := 2) (by decide)).bind (hread _)
      | false => exact (reads_uint d (v := 1) (by decide)).bind (hread _)
  | float val =>
    refine ⟨uintBytes constFloat ++ val.1, fun s => ?_, fun d => ?_⟩
    · rw [serializeExpr, writeUInt_eq, Serializer.writeDouble, emit_emit]
    · have hread := (reads_double (d.add (uintBytes constFloat)) val).bind_pure StoredConst.float
      rw [← Deserializer.add_add]
      exact (reads_uint d (v := 3) (by decide)).bind hread

/-- A constant is read back, with what is left of its value. -/
theorem read_back (hshort : ∀ p name, externs p = some name → name.Short) (hname : v.name.length < uintSize)
    (h : v.serialize externs writeKind s = .ok s') (hf : s'.overflow = false) (hd : InStep (typeScope externs digest) s d) :
    ∃ v' d', (∀ rest, deserializeDef writeKind (d.feed (s'.dst.drop s.dst.length ++ rest)) = .ok (v', d'.feed rest)) ∧
      RefersTo (typeScope externs digest) s' d' v.type v'.type ∧ v'.expr = v.expr.restored := by
  let kind := if writeKind then uintBytes constVarId else []
  let name := uintBytes v.name.length ++ v.name
  obtain ⟨expr, hwrite, hread⟩ := reads_expr v.expr
  have hstart : (if writeKind then s.writeUInt constVarId else s).writeBlob v.name = s.emit (kind ++ name) := by
    rw [writeBlob_eq, Nat.mod_eq_of_lt hname]
    cases writeKind with
    | true => rw [if_pos rfl, writeUInt_eq, emit_emit]; rfl
    | false => rfl
  rw [serialize] at h
  simp only [hstart] at h
  cases htype : TypeDef.serialize externs v.type (s.emit (kind ++ name)) with
  | error e =>
    rw [htype] at h
    cases h
  | ok t =>
    rw [htype] at h
    obtain rfl : serializeExpr v.expr t = s' := Except.ok.inj h
    rw [hwrite] at hf ⊢
    obtain ⟨a, d', hr, hpre, hrefers⟩ := TypeDef.reads_type hshort htype hf (hd.emit (kind ++ name))
    have hall : Reads deserialize (d.add kind) (name ++ (t.dst.drop (s.emit (kind ++ name)).dst.length ++ expr))
        ⟨v.name, a, v.expr.restored⟩ (d'.add expr) := by
      have hstring := reads_string (d.add kind) v.name hname
      rw [Deserializer.add_add] at hstring
      refine hstring.bind (hr.bind ?_)
      have hlast := (hread d').bind_pure fun expr => (⟨v.name, a, expr⟩ : ConstVarDef)
      exact hlast
    have hbytes : (t.emit expr).dst.drop s.dst.length =
        kind ++ (name ++ (t.dst.drop (s.emit (kind ++ name)).dst.length ++ expr)) := by
      have hhead := drop_append_drop (List.prefix_append s.dst (kind ++ name)) hpre
      have hlast := drop_append_drop ((List.prefix_append s.dst (kind ++ name)).trans hpre) (List.prefix_append t.dst expr)
      rw [List.drop_left] at hhead hlast
      rw [Serializer.dst_emit, ← hlast, ← hhead, Serializer.dst_emit, List.append_assoc, List.append_assoc, List.append_assoc]
    refine ⟨⟨v.name, a, v.expr.restored⟩, d'.add expr, fun rest => ?_, ?_, rfl⟩
    · rw [hbytes]
      cases writeKind with
      | true =>
        have hkind := (reads_uint d (v := constVarId) (by decide)).bind
          (f := fun kind => if toInt kind = constVarId then deserialize else throw (check "Bad definition type id")) hall
        exact hkind.whole rest
      | false =>
        have hadd : d.add kind = d := by
          change d.add [] = d
          cases d
          simp [Deserializer.add]
        rw [hadd] at hall
        exact hall.whole rest
    · obtain ⟨id, contents, hid, ha, hcontents, hobj⟩ := hrefers
      exact ⟨id, contents, hid, ha, hcontents, hobj⟩

/-- A constant has its type, its value and its flag again just when its value, if it is
an integer, is an `unsigned int`. -/
theorem const_restored_iff (externs : Nat → Option ExternName) (hshort : ∀ p name, externs p = some name → name.Short)
    (v : ConstVarDef) (hname : v.name.length < uintSize) (writeKind digest : Bool) (s s' : Serializer) (d : Deserializer)
    (h : v.serialize externs writeKind s = .ok s') (hf : s'.overflow = false)
    (hd : InStep (typeScope externs digest) s d) :
    (∃ v' d', (∀ rest, deserializeDef writeKind (d.feed (s'.dst.drop s.dst.length ++ rest)) = .ok (v', d'.feed rest)) ∧
      RefersTo (typeScope externs digest) s' d' v.type v'.type ∧ v'.expr = v.expr) ↔ v.expr.Fits := by
  obtain ⟨v', d', hread, hrefers, hexpr⟩ := read_back hshort hname h hf hd
  rw [← v.expr.restored_eq_iff]
  constructor
  · rintro ⟨w, e, hread', -, hw⟩
    have hsame := (hread []).symm.trans (hread' [])
    have hvw : v' = w := congrArg Prod.fst (Except.ok.inj hsame)
    rw [← hexpr, hvw, hw]
  · intro hfits
    exact ⟨v', d', hread, hrefers, hexpr.trans hfits⟩

/-- The type `int` of the module `.builtin`. -/
def intType (p : Nat) : Option ExternName := if p = 0 then some ⟨[46, 98], [[105, 110, 116]]⟩ else none

theorem intType_short (p : Nat) (name : ExternName) (h : intType p = some name) : name.Short := by
  rw [intType] at h
  split at h
  · obtain rfl := Option.some.inj h
    refine ⟨by decide, ?_, fun s => ?_⟩
    · intro n hn
      obtain rfl := List.mem_singleton.mp hn
      decide
    · have hbytes : (ExternName.writePath ⟨[46, 98], [[105, 110, 116]]⟩ s.sub).dst =
          uintBytes (pbKey 3 pbString) ++ (uintBytes (3 % uintSize) ++ [105, 110, 116]) := by
        rw [ExternName.writePath, List.foldl_cons, List.foldl_nil, writeUInt_eq, writeBlob_eq, Serializer.dst_emit,
          Serializer.dst_emit]
        simp [Serializer.sub]
      rw [hbytes, uintBytes, if_pos (by decide), uintBytes, if_pos (by decide)]
      decide
  · cases h

/-- The start of a serializer and a deserializer, where no object is known. -/
theorem inStep_first (digest : Bool) :
    InStep (typeScope intType digest) { digestEnabled := digest } { src := { data := [] }, digestEnabled := digest } where
  enabled := rfl
  enabled' := rfl
  hashed := rfl
  ids _ := Nat.zero_le _
  lt p id h := by cases h
  inj p q id h := by cases h
  opens p id h := by cases h
  known p id h := by cases h

theorem serialize_first (v : ConstVarDef) (hv : v.type = 0) (writeKind digest : Bool) :
    ∃ s', v.serialize intType writeKind { digestEnabled := digest } = .ok s' ∧ s'.overflow = false := by
  obtain ⟨name, type, expr⟩ := v
  subst hv
  obtain ⟨bytes, hwrite, -⟩ := reads_expr expr
  have hstart : ∃ start, (if writeKind then Serializer.writeUInt { digestEnabled := digest } constVarId
      else { digestEnabled := digest }).writeBlob name = Serializer.emit { digestEnabled := digest } start := by
    cases writeKind with
    | true => exact ⟨_, by rw [if_pos rfl, writeUInt_eq, writeBlob_eq, emit_emit]⟩
    | false => exact ⟨_, writeBlob_eq _ _⟩
  obtain ⟨start, hstart⟩ := hstart
  have htype : ∃ t, TypeDef.serialize intType 0 (Serializer.emit { digestEnabled := digest } start) = .ok t ∧
      t.overflow = false := by
    rw [TypeDef.serialize, writeObject_new rfl]
    refine ⟨_, rfl, ?_⟩
    simp only [ExternName.serializeExternCommon, ExternName.writePath, List.foldl_cons, List.foldl_nil, Serializer.writeSub,
      writeBlob_eq, writeUInt_eq, Serializer.overflow_emit, Serializer.join, Serializer.sub]
    rfl
  obtain ⟨t, ht, hf⟩ := htype
  refine ⟨t.emit bytes, ?_, hf⟩
  rw [serialize]
  simp only [hstart, ht, hwrite]

theorem small_const_restored :
    ∃ s', serialize intType ⟨[120], 0, .int 7 true⟩ true { digestEnabled := true } = .ok s' ∧
      ∃ v' d', (∀ rest, deserializeDef true (Deserializer.feed { src := { data := [] }, digestEnabled := true }
          (s'.dst.drop 0 ++ rest)) = .ok (v', Deserializer.feed d' rest)) ∧
        RefersTo (typeScope intType true) s' d' 0 v'.type ∧ v'.expr = .int 7 true := by
  obtain ⟨s', hs', hf⟩ := serialize_first ⟨[120], 0, .int 7 true⟩ rfl true true
  exact ⟨s', hs', (const_restored_iff intType intType_short ⟨[120], 0, .int 7 true⟩ (by decide) true true
    { digestEnabled := true } s' { src := { data := [] }, digestEnabled := true } hs' hf (inStep_first true)).mpr (show (7 : BitVec 64).toNat < 2 ^ 32 by decide)⟩

/-- The constant -1 is read back as 4294967295. -/
theorem negative_const_lost :
    ∃ s', serialize intType ⟨[120], 0, .int (-1) false⟩ false { digestEnabled := false } = .ok s' ∧
      ∃ v' d', (∀ rest, deserializeDef false (Deserializer.feed { src := { data := [] }, digestEnabled := false }
          (s'.dst.drop 0 ++ rest)) = .ok (v', Deserializer.feed d' rest)) ∧
        v'.expr = .int 4294967295 false ∧ v'.expr ≠ .int (-1) false := by
  obtain ⟨s', hs', hf⟩ := serialize_first ⟨[120], 0, .int (-1) false⟩ rfl false false
  obtain ⟨v', d', hread, -, hexpr⟩ := read_back intType_short (by decide) hs' hf (inStep_first false)
  have hval : v'.expr = .int 4294967295 false := hexpr.trans (by decide)
  refine ⟨s', hs', v', d', hread, hval, ?_⟩
  rw [hval]
  decide

end ConstVarDef

end Crack
