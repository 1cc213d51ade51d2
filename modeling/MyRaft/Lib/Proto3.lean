/-
The wire format of proto3, for messages of varint and string fields.

The protobuf library is a parameter: what it serializes and parses of a message
type is given by the `Schema` of the type, which is what `protoc` makes of its
declaration. `WireFormat` is what the library promises. The parser stops at the
first field that it refuses, with the fields before it set and those behind it
at their defaults.
-/
import MyRaft.Lib.Varint
import MyRaft.Lib.Utf8
import MyRaft.Lib.Text
import Mathlib.Algebra.Group.Nat.Defs
import Mathlib.Algebra.Group.Int.Defs
import Mathlib.Data.List.Flatten

namespace Proto3

open Bytes (ofText text IsText)

/-! ## Fields -/

inductive FieldValue where
  | varint (n : Nat)
  | bytes (bs : Bytes)
deriving DecidableEq

structure Field where
  number : Nat
  value : FieldValue
deriving DecidableEq

namespace Field

/-- A tag is the number of the field and the wire type, which is in its three low bits. -/
def encode : Field → Bytes
  | ⟨number, .varint n⟩ => Varint.encode (8 * number) ++ Varint.encode n
  | ⟨number, .bytes bs⟩ => Varint.encode (8 * number + 2) ++ (Varint.encode bs.length ++ bs)

/-- The number of a field is of 29 bits, and a varint of 64. -/
def WellFormed : Field → Prop
  | ⟨number, .varint n⟩ => 1 ≤ number ∧ number < 2 ^ 29 ∧ n < 2 ^ 64
  | ⟨number, .bytes _⟩ => 1 ≤ number ∧ number < 2 ^ 29

end Field

def encode (fields : List Field) : Bytes := fields.flatMap Field.encode

/-! ## Messages -/

/-- A message type: the message without fields, the fields of a message in the order of
their numbers, and what a field does to the message it is read into. -/
structure Schema (M : Type) where
  initial : M
  fields : M → List Field
  /-- Whether the field is accepted, and the message after it. -/
  merge : Field → M → Bool × M

/-- The fields are read one by one, up to the first that is refused. -/
def Schema.mergeAll {M : Type} (schema : Schema M) : List Field → M → Bool × M
  | [], m => (true, m)
  | field :: fields, m =>
    match schema.merge field m with
    | (true, m') => schema.mergeAll fields m'
    | (false, m') => (false, m')

/-- The library, for every message type. -/
structure Protobuf where
  serializeToString : {M : Type} → Schema M → M → Bytes
  /-- What `ParseFromString` returns, and the message it leaves. -/
  parseFromString : {M : Type} → Schema M → Bytes → Bool × M

/-- The encoding of proto3. -/
structure Protobuf.WireFormat (pb : Protobuf) : Prop where
  serialize : ∀ {M : Type} (schema : Schema M) (m : M), pb.serializeToString schema m = encode (schema.fields m)
  parse : ∀ {M : Type} (schema : Schema M) (fields : List Field), (∀ f ∈ fields, f.WellFormed) →
    pb.parseFromString schema (encode fields) = schema.mergeAll fields schema.initial

/-! ## Types of fields -/

/-- The values of an `int32`. -/
def IsInt32 (v : Int) : Prop := -2 ^ 31 ≤ v ∧ v < 2 ^ 31

instance (v : Int) : Decidable (IsInt32 v) := inferInstanceAs (Decidable (-2 ^ 31 ≤ v ∧ v < 2 ^ 31))

/-- An `int32` is sign extended to 64 bits. -/
def ofInt32 (v : Int) : Nat := (v % 2 ^ 64).toNat

/-- The low 32 bits, with a sign. -/
def toInt32 (n : Nat) : Int := ((n : Int) + 2 ^ 31) % 2 ^ 32 - 2 ^ 31

theorem cast_ofInt32 (v : Int) : (ofInt32 v : Int) = v % 2 ^ 64 := by
  unfold ofInt32
  omega

theorem toInt32_ofInt32 {v : Int} (h : IsInt32 v) : toInt32 (ofInt32 v) = v := by
  unfold IsInt32 at h
  unfold toInt32
  rw [cast_ofInt32]
  omega

theorem ofInt32_lt (v : Int) : ofInt32 v < 2 ^ 64 := by
  unfold ofInt32
  omega

@[simp] theorem ofInt32_zero : ofInt32 0 = 0 := rfl

/-- A field that has its default is not written. -/
def int32Field (number : Nat) (v : Int) : List Field := if v = 0 then [] else [⟨number, .varint (ofInt32 v)⟩]

def boolField (number : Nat) (b : Bool) : List Field := if b then [⟨number, .varint 1⟩] else []

def stringField (number : Nat) (s : String) : List Field := if s = "" then [] else [⟨number, .bytes (ofText s)⟩]

/-- The bytes of a message within a message. -/
def messageField (number : Nat) (payload : Bytes) : Field := ⟨number, .bytes payload⟩

section Merge

variable {M : Type} {schema : Schema M} {number : Nat} {m : M} {rest : List Field}

theorem mergeAll_cons {field : Field} :
    schema.mergeAll (field :: rest) m =
      if (schema.merge field m).1 then schema.mergeAll rest
          (schema.merge field m).2 else (false, (schema.merge field m).2) := by
  rw [Schema.mergeAll]
  split <;> rename_i h <;> simp [h]

/-- An `int32` field is read back. -/
theorem mergeAll_int32Field {f : Int → M} {v : Int} (hv : IsInt32 v)
    (hmerge : ∀ n, schema.merge ⟨number, .varint n⟩ m = (true, f (toInt32 n))) (hzero : f 0 = m) :
    schema.mergeAll (int32Field number v ++ rest) m = schema.mergeAll rest (f v) := by
  unfold int32Field
  split
  · rename_i h
    rw [h, hzero, List.nil_append]
  · rw [List.singleton_append, mergeAll_cons, hmerge, toInt32_ofInt32 hv]
    rfl

theorem mergeAll_boolField {f : Bool → M} (b : Bool)
    (hmerge : ∀ n, schema.merge ⟨number, .varint n⟩ m = (true, f (n != 0))) (hfalse : f false = m) :
    schema.mergeAll (boolField number b ++ rest) m = schema.mergeAll rest (f b) := by
  cases b with
  | false => simp [boolField, hfalse]
  | true => simp [boolField, mergeAll_cons, hmerge]

/-- A `string` field is read back, and refused where it is no UTF-8. -/
theorem mergeAll_stringField {f : String → M} {s : String} (hs : IsText s)
    (hmerge : ∀ bs, schema.merge ⟨number, .bytes bs⟩ m = (decide (Utf8.Valid bs), f (text bs)))
    (hempty : f "" = m) :
    schema.mergeAll (stringField number s ++ rest) m =
      if Utf8.Valid (ofText s) then schema.mergeAll rest (f s) else (false, f s) := by
  unfold stringField
  split
  · rename_i h
    subst h
    rw [List.nil_append, hempty]
    exact (if_pos Utf8.valid_nil).symm
  · rw [List.singleton_append, mergeAll_cons, hmerge, Bytes.text_ofText hs]
    simp

end Merge

section WellFormed

variable {number : Nat} {f : Field}

theorem int32Field_wellFormed (h : 1 ≤ number ∧ number < 2 ^ 29) {v : Int} (hf : f ∈ int32Field number v) :
    f.WellFormed := by
  simp only [int32Field] at hf
  split at hf
  · cases hf
  · obtain rfl := List.mem_singleton.mp hf
    exact ⟨h.1, h.2, ofInt32_lt v⟩

theorem boolField_wellFormed (h : 1 ≤ number ∧ number < 2 ^ 29) {b : Bool} (hf : f ∈ boolField number b) :
    f.WellFormed := by
  simp only [boolField] at hf
  split at hf
  · obtain rfl := List.mem_singleton.mp hf
    exact ⟨h.1, h.2, by decide⟩
  · cases hf

theorem stringField_wellFormed (h : 1 ≤ number ∧ number < 2 ^ 29) {s : String} (hf : f ∈ stringField number s) :
    f.WellFormed := by
  simp only [stringField] at hf
  split at hf
  · cases hf
  · obtain rfl := List.mem_singleton.mp hf
    exact h

end WellFormed

/-- A varint ends in an ASCII byte, so what is behind it is on its own. -/
theorem valid_varint_append_iff {n : Nat} {bs : Bytes} :
    Utf8.Valid (Varint.encode n ++ bs) ↔ Utf8.Valid (Varint.encode n) ∧ Utf8.Valid bs := by
  obtain ⟨front, last, heq, hlast⟩ := Varint.encode_last n
  have hfront : Utf8.Valid (front ++ [last]) ↔ Utf8.Valid front := by
    have hsplit : Utf8.Valid (front ++ [last]) ↔ Utf8.Valid front ∧ Utf8.Valid [] :=
      Utf8.valid_append_ascii_iff hlast
    simp [hsplit]
  rw [heq, hfront, List.append_assoc, List.singleton_append, Utf8.valid_append_ascii_iff hlast]

/-! ## Sizes -/

/-- The bytes of a varint. -/
def varintSize (n : Nat) : Nat := Nat.log 128 n + 1

/-- The bytes of a field of a number below 16, which has a tag of one byte. -/
def int32Size (v : Int) : Nat := if v = 0 then 0 else 1 + varintSize (ofInt32 v)

def bytesSize (n : Nat) : Nat := 1 + varintSize n + n

def stringSize (s : String) : Nat := if s = "" then 0 else bytesSize s.length

theorem length_varint (n : Nat) : (Varint.encode n).length = varintSize n := Varint.length_encode n

theorem length_ofText (s : String) : (ofText s).length = s.length := by
  rw [ofText, List.length_map, String.length_toList]

theorem encode_append (fields fields' : List Field) :
    encode (fields ++ fields') = encode fields ++ encode fields' :=
  List.flatMap_append

theorem length_tag {n : Nat} (h : n < 128) : (Varint.encode n).length = 1 := by
  rw [Varint.encode_of_lt h]
  rfl

section Sizes

variable {number : Nat}

theorem length_int32Field (h : number < 16) (v : Int) : (encode (int32Field number v)).length = int32Size v := by
  unfold int32Field int32Size
  split
  · rfl
  · simp [encode, Field.encode, length_varint (ofInt32 v), length_tag (n := 8 * number) (by omega)]

theorem length_messageField (h : number < 16) (payload : Bytes) :
    (messageField number payload).encode.length = bytesSize payload.length := by
  simp only [messageField, Field.encode, bytesSize, List.length_append, length_varint payload.length,
    length_tag (n := 8 * number + 2) (by omega)]
  omega

theorem length_stringField (h : number < 16) (s : String) :
    (encode (stringField number s)).length = stringSize s := by
  unfold stringField stringSize
  split
  · rfl
  · have := length_messageField h (ofText s)
    simpa [encode, messageField, length_ofText] using this

theorem length_boolField_le (h : number < 16) (b : Bool) : (encode (boolField number b)).length ≤ 2 := by
  cases b with
  | false => simp [boolField, encode]
  | true => simp [boolField, encode, Field.encode, length_tag (n := 8 * number) (by omega), length_tag (n := 1)]

/-- A varint of seven bits a byte. -/
theorem varintSize_le {n k : Nat} (hk : 0 < k) (h : n < 128 ^ k) : varintSize n ≤ k := by
  unfold varintSize
  by_cases hn : n = 0
  · subst hn
    simp only [Nat.log_zero_right]
    exact hk
  · have := Nat.log_lt_of_lt_pow hn h
    omega

/-- An `int32` field has a tag and ten bytes at most. -/
theorem int32Size_le (v : Int) : int32Size v ≤ 11 := by
  unfold int32Size
  split
  · exact Nat.zero_le _
  · have := varintSize_le (n := ofInt32 v) (k := 10) (by decide) (Nat.lt_trans (ofInt32_lt v) (by decide))
    omega

theorem bytesSize_le {n k : Nat} (hk : 0 < k) (h : n < 128 ^ k) : bytesSize n ≤ 1 + k + n := by
  have := varintSize_le hk h
  unfold bytesSize
  omega

theorem stringSize_le {s : String} {k : Nat} (hk : 0 < k) (h : s.length < 128 ^ k) :
    stringSize s ≤ 1 + k + s.length := by
  unfold stringSize
  split
  · exact Nat.zero_le _
  · exact bytesSize_le hk h

end Sizes

/-! ## An implementation -/

/-- The field at the front, of one of the two wire types. -/
def Field.decode (bs : Bytes) : Option (Field × Bytes) := do
  let (tag, bs) ← Varint.decode bs
  let (n, bs) ← Varint.decode bs
  if tag / 8 = 0 then none
  else if tag % 8 = 0 then some (⟨tag / 8, .varint (n % 2 ^ 64)⟩, bs)
  else if tag % 8 = 2 ∧ n ≤ bs.length then some (⟨tag / 8, .bytes (bs.take n)⟩, bs.drop n)
  else none

theorem Field.decode_encode {f : Field} (h : f.WellFormed) (rest : Bytes) :
    Field.decode (f.encode ++ rest) = some (f, rest) := by
  obtain ⟨number, value⟩ := f
  cases value with
  | varint n =>
    obtain ⟨hpos, -, hn⟩ := h
    have htag : 8 * number / 8 = number := by omega
    simp [Field.decode, Field.encode, List.append_assoc, Varint.decode_encode, htag]
    omega
  | bytes bs =>
    obtain ⟨hpos, -⟩ := h
    have htag : (8 * number + 2) / 8 = number := by omega
    have hmod : (8 * number + 2) % 8 = 2 := by omega
    simp [Field.decode, Field.encode, List.append_assoc, Varint.decode_encode, htag, hmod]
    omega

/-- The parser, for at most `fuel` fields. -/
def parseFuel {M : Type} (schema : Schema M) : Nat → Bytes → M → Bool × M
  | _, [], m => (true, m)
  | 0, _ :: _, m => (false, m)
  | fuel + 1, b :: bs, m =>
    match Field.decode (b :: bs) with
    | none => (false, m)
    | some (field, rest) =>
      match schema.merge field m with
      | (true, m') => parseFuel schema fuel rest m'
      | (false, m') => (false, m')

/-- A library that does no more than the wire format. -/
def protobuf : Protobuf where
  serializeToString schema m := encode (schema.fields m)
  parseFromString schema bs := parseFuel schema bs.length bs schema.initial

theorem Field.encode_ne_nil (f : Field) : f.encode ≠ [] := by
  obtain ⟨number, value⟩ := f
  cases value <;> simp [Field.encode, Varint.encode_ne_nil]

theorem parseFuel_encode {M : Type} (schema : Schema M) {fields : List Field} (h : ∀ f ∈ fields, f.WellFormed) :
    ∀ {fuel : Nat} (m : M), (encode fields).length ≤ fuel →
      parseFuel schema fuel (encode fields) m = schema.mergeAll fields m := by
  induction fields with
  | nil => intro fuel m _; cases fuel <;> rfl
  | cons f fields ih =>
    intro fuel m hfuel
    have hcons : encode (f :: fields) = f.encode ++ encode fields := List.flatMap_cons
    obtain ⟨b, bs, hb⟩ := List.exists_cons_of_ne_nil f.encode_ne_nil
    have hdecode := Field.decode_encode (h f (by simp)) (encode fields)
    rw [hb, List.cons_append] at hdecode
    rw [hcons, hb, List.cons_append] at hfuel ⊢
    cases fuel with
    | zero => simp at hfuel
    | succ fuel =>
      have hle : (encode fields).length ≤ fuel := by
        simp only [List.length_cons, List.length_append] at hfuel
        omega
      rw [parseFuel, hdecode, Schema.mergeAll]
      simp only
      split
      · exact ih (fun f hf => h f (by simp [hf])) _ hle
      · rfl

theorem protobuf_wireFormat : protobuf.WireFormat where
  serialize _ _ := rfl
  parse schema _ h := parseFuel_encode schema h schema.initial (Nat.le_refl _)

end Proto3
