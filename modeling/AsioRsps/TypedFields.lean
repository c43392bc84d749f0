import AsioRsps.ByteInput
import AsioRsps.ByteOutput

/-!
# Typed fields

A stream of bytes, shorts, ints, longs and strings, each under a value type and a byte order,
written by the `Write` functions and read by the `Read` functions of the same types. Unsigned
reads undo writes; signed reads do so only in part of the range.
-/
namespace AsioRsps.StreamBuffer
open BitStrings

/-! ## Reading what was written -/

/-- The computation reads `bytes` and nothing else, wherever they stand. -/
def ReadsBytes {α : Type} (m : StreamM α) (bytes : List Byte) (a : α) : Prop :=
  ∀ b tail, b.rest = bytes ++ tail → m b = .ok a (b.skip bytes.length)

theorem readsBytes_pure {α : Type} (a : α) : ReadsBytes (pure a) [] a := fun _ _ _ => rfl

theorem ReadsBytes.bind {α β : Type} {m : StreamM α} {f : α → StreamM β} {xs ys : List Byte}
    {a : α} {c : β} (hm : ReadsBytes m xs a) (hf : ReadsBytes (f a) ys c) :
    ReadsBytes (m >>= f) (xs ++ ys) c := by
  intro b tail h
  rw [List.append_assoc] at h
  have hrest : (b.skip xs.length).rest = ys ++ tail := by
    rw [rest_skip, h]
    exact List.drop_left
  rw [bind_ok (hm b _ h), hf _ _ hrest, skip_skip, List.length_append]

theorem ReadsBytes.map {α β : Type} {m : StreamM α} {xs : List Byte} {a : α}
    (hm : ReadsBytes m xs a) (f : α → β) : ReadsBytes (m >>= fun a => pure (f a)) xs (f a) := by
  have h := hm.bind (f := fun a => pure (f a)) (readsBytes_pure (f a))
  rwa [List.append_nil] at h

theorem readsBytes_readByte (isSigned : Bool) (type : ValueType) (x : Byte) :
    ReadsBytes (readByte isSigned type) [x] (readValue isSigned type x) :=
  fun _ _ h => readByte_cons h isSigned type

/-- The byte of a value under a value type. -/
def typedByte (type : ValueType) (value : Int) : Byte := toByte (writeValue type value)

theorem toByte_toInt_emod (value : Int) : (toByte value).toInt % 256 = value % 256 := by
  have h : (toByte value).toInt = value.bmod 256 := @BitVec.toInt_ofInt 8 value
  rw [h]
  exact Int.bmod_emod

/-- A transformed byte, read unsigned, is the low byte of what was written. -/
theorem readValue_typedByte (type : ValueType) (value : Int) :
    readValue false type (typedByte type value) = value % 256 := by
  have h := toByte_toInt_emod (writeValue type value)
  cases type with
  | standard | a | c | s =>
      simp only [readValue, typedByte, writeValue, Bool.false_eq_true, if_false] at h ⊢
      omega

theorem readsBytes_typedByte (type : ValueType) (value : Int) :
    ReadsBytes (readByte false type) [typedByte type value] (value % 256) := by
  have h := readsBytes_readByte false type (typedByte type value)
  rwa [readValue_typedByte] at h

theorem readsBytes_plainByte (value : Int) :
    ReadsBytes (readByte false) [toByte value] (value % 256) :=
  readsBytes_typedByte .standard value

/-! ## Putting a word together again -/

theorem ofInt_emod (w : Nat) (v : Int) : BitVec.ofInt w (v % (2 ^ w : Nat)) = BitVec.ofInt w v := by
  apply BitVec.eq_of_toInt_eq
  rw [BitVec.toInt_ofInt, BitVec.toInt_ofInt, Int.emod_bmod]

theorem toInt32_emod (v : Word) : toInt32 (v.toInt % 4294967296) = v.toInt := by
  have h : BitVec.ofInt 32 (v.toInt % 4294967296) = BitVec.ofInt 32 v.toInt := ofInt_emod 32 _
  rw [toInt32, h, BitVec.ofInt_toInt]

theorem toInt64_emod (v : BitVec 64) : toInt64 (v.toInt % 18446744073709551616) = v.toInt := by
  have h : BitVec.ofInt 64 (v.toInt % 18446744073709551616) = BitVec.ofInt 64 v.toInt :=
    ofInt_emod 64 _
  rw [toInt64, h, BitVec.ofInt_toInt]

/-- One more byte above the low `k` bits. -/
theorem byte_above (v : Int) (k : Nat) :
    v >>> k % 256 * 2 ^ k + v % 2 ^ k = v % 2 ^ (k + 8) := by
  have hk : (0 : Int) ≤ 2 ^ k := Int.le_of_lt (Int.pow_pos (by decide))
  have hshift : v >>> k = v / 2 ^ k := Int.shiftRight_eq_div_pow v k
  have hlow := Int.mul_ediv_add_emod v (2 ^ k)
  have hbyte := Int.mul_ediv_add_emod (v / 2 ^ k) 256
  have hboth := Int.mul_ediv_add_emod v (2 ^ k * 256)
  rw [← Int.ediv_ediv_of_nonneg hk] at hboth
  rw [hshift, Int.pow_add, show (2 : Int) ^ 8 = 256 from rfl]
  grind

/-- The two bytes of a short, most significant first. -/
theorem short_parts (v : Int) : v >>> (8 : Nat) % 256 * 2 ^ 8 + v % 256 = v % 65536 :=
  byte_above v 8

theorem int_parts (v : Int) :
    v >>> (24 : Nat) % 256 * 2 ^ 24 + v >>> (16 : Nat) % 256 * 2 ^ 16 +
      v >>> (8 : Nat) % 256 * 2 ^ 8 + v % 256 = v % 4294967296 := by
  have hlow : v % 256 = v % 2 ^ 8 := rfl
  simp only [Int.add_assoc]
  rw [hlow, byte_above v 8, byte_above v 16, byte_above v 24]
  rfl

theorem long_parts (v : Int) :
    v >>> (56 : Nat) % 256 * 2 ^ 56 + v >>> (48 : Nat) % 256 * 2 ^ 48 +
      v >>> (40 : Nat) % 256 * 2 ^ 40 + v >>> (32 : Nat) % 256 * 2 ^ 32 +
      v >>> (24 : Nat) % 256 * 2 ^ 24 + v >>> (16 : Nat) % 256 * 2 ^ 16 +
      v >>> (8 : Nat) % 256 * 2 ^ 8 + v % 256 = v % 18446744073709551616 := by
  have hlow : v % 256 = v % 2 ^ 8 := rfl
  simp only [Int.add_assoc]
  rw [hlow, byte_above v 8, byte_above v 16, byte_above v 24, byte_above v 32, byte_above v 40,
    byte_above v 48, byte_above v 56]
  rfl

/-! ## Shorts, ints and longs -/

/-- The bytes of a short. -/
def shortField (value : Int) (type : ValueType) : ByteOrder → List Byte
  | .big => [toByte (value >>> (8 : Nat)), typedByte type value]
  | .little => [typedByte type value, toByte (value >>> (8 : Nat))]
  | _ => []

theorem appendsBytes_shortField (value : Int) (type : ValueType) {order : ByteOrder}
    (h : order = .big ∨ order = .little) :
    AppendsBytes (writeShort value type order) (shortField value type order) := by
  rcases h with rfl | rfl
  · exact (appendsBytes_writeByte _ _).bind (appendsBytes_writeByte _ _)
  · exact (appendsBytes_writeByte _ _).bind (appendsBytes_writeByte _ _)

/-- A short comes back unsigned whether it is read as signed or not. -/
theorem readsBytes_shortField (isSigned : Bool) (value : Int) (type : ValueType)
    {order : ByteOrder} (h : order = .big ∨ order = .little) :
    ReadsBytes (readShort isSigned type order) (shortField value type order) (value % 65536) := by
  have hparts : (if isSigned then value >>> (8 : Nat) % 256 * 2 ^ 8 + value % 256
      else (value >>> (8 : Nat) % 256 * 2 ^ 8 + value % 256) % 2 ^ 16) = value % 65536 := by
    rw [short_parts]
    split <;> omega
  rw [← hparts]
  rcases h with rfl | rfl
  · exact (readsBytes_plainByte _).bind <| (readsBytes_typedByte _ _).bind (readsBytes_pure _)
  · exact (readsBytes_typedByte _ _).bind <| (readsBytes_plainByte _).bind (readsBytes_pure _)

/-- The bytes of an int. -/
def intField (value : Int) (type : ValueType) : ByteOrder → List Byte
  | .big => [toByte (value >>> (24 : Nat)), toByte (value >>> (16 : Nat)),
      toByte (value >>> (8 : Nat)), typedByte type value]
  | .middle => [toByte (value >>> (8 : Nat)), typedByte type value,
      toByte (value >>> (24 : Nat)), toByte (value >>> (16 : Nat))]
  | .inverseMiddle => [toByte (value >>> (16 : Nat)), toByte (value >>> (24 : Nat)),
      typedByte type value, toByte (value >>> (8 : Nat))]
  | .little => [typedByte type value, toByte (value >>> (8 : Nat)),
      toByte (value >>> (16 : Nat)), toByte (value >>> (24 : Nat))]

theorem appendsBytes_intField (value : Int) (type : ValueType) (order : ByteOrder) :
    AppendsBytes (writeInt value type order) (intField value type order) := by
  cases order with
  | big | middle | inverseMiddle | little =>
      exact (appendsBytes_writeByte _ _).bind <| (appendsBytes_writeByte _ _).bind <|
        (appendsBytes_writeByte _ _).bind (appendsBytes_writeByte _ _)

theorem readsBytes_intField (v : Int) (type : ValueType) (order : ByteOrder) :
    ReadsBytes (readInt type order) (intField v type order) (toInt32 (v % 4294967296)) := by
  have hparts := int_parts v
  have plain := readsBytes_plainByte
  have typed := readsBytes_typedByte type v
  cases order with
  | big =>
      rw [← hparts]
      exact (plain _).bind <| (plain _).bind <| (plain _).bind <| typed.bind (readsBytes_pure _)
  | middle =>
      rw [show v % 4294967296 = v >>> (8 : Nat) % 256 * 2 ^ 8 + v % 256 +
        v >>> (24 : Nat) % 256 * 2 ^ 24 + v >>> (16 : Nat) % 256 * 2 ^ 16 by omega]
      exact (plain _).bind <| typed.bind <| (plain _).bind <| (plain _).bind (readsBytes_pure _)
  | inverseMiddle =>
      rw [show v % 4294967296 = v >>> (16 : Nat) % 256 * 2 ^ 16 +
        v >>> (24 : Nat) % 256 * 2 ^ 24 + v % 256 +
        v >>> (8 : Nat) % 256 * 2 ^ 8 by omega]
      exact (plain _).bind <| (plain _).bind <| typed.bind <| (plain _).bind (readsBytes_pure _)
  | little =>
      rw [show v % 4294967296 = v % 256 + v >>> (8 : Nat) % 256 * 2 ^ 8 +
        v >>> (16 : Nat) % 256 * 2 ^ 16 + v >>> (24 : Nat) % 256 * 2 ^ 24 by omega]
      exact typed.bind <| (plain _).bind <| (plain _).bind <| (plain _).bind (readsBytes_pure _)

/-- The bytes of a long. -/
def longField (value : Int) (type : ValueType) : ByteOrder → List Byte
  | .big => [toByte (value >>> (56 : Nat)), toByte (value >>> (48 : Nat)),
      toByte (value >>> (40 : Nat)), toByte (value >>> (32 : Nat)), toByte (value >>> (24 : Nat)),
      toByte (value >>> (16 : Nat)), toByte (value >>> (8 : Nat)), typedByte type value]
  | .little => [typedByte type value, toByte (value >>> (8 : Nat)), toByte (value >>> (16 : Nat)),
      toByte (value >>> (24 : Nat)), toByte (value >>> (32 : Nat)), toByte (value >>> (40 : Nat)),
      toByte (value >>> (48 : Nat)), toByte (value >>> (56 : Nat))]
  | _ => []

theorem appendsBytes_longField (value : Int) (type : ValueType) {order : ByteOrder}
    (h : order = .big ∨ order = .little) :
    AppendsBytes (writeLong value type order) (longField value type order) := by
  rcases h with rfl | rfl
  · exact (appendsBytes_writeByte _ _).bind <| (appendsBytes_writeByte _ _).bind <|
      (appendsBytes_writeByte _ _).bind <| (appendsBytes_writeByte _ _).bind <|
      (appendsBytes_writeByte _ _).bind <| (appendsBytes_writeByte _ _).bind <|
      (appendsBytes_writeByte _ _).bind (appendsBytes_writeByte _ _)
  · exact (appendsBytes_writeByte _ _).bind <| (appendsBytes_writeByte _ _).bind <|
      (appendsBytes_writeByte _ _).bind <| (appendsBytes_writeByte _ _).bind <|
      (appendsBytes_writeByte _ _).bind <| (appendsBytes_writeByte _ _).bind <|
      (appendsBytes_writeByte _ _).bind (appendsBytes_writeByte _ _)

theorem readsBytes_longField (v : Int) (type : ValueType) {order : ByteOrder}
    (h : order = .big ∨ order = .little) :
    ReadsBytes (readLong type order) (longField v type order)
      (toInt64 (v % 18446744073709551616)) := by
  have hparts := long_parts v
  have plain := readsBytes_plainByte
  have typed := readsBytes_typedByte type v
  rcases h with rfl | rfl
  · rw [← hparts]
    exact (plain _).bind <| (plain _).bind <| (plain _).bind <| (plain _).bind <|
      (plain _).bind <| (plain _).bind <| (plain _).bind <| typed.bind (readsBytes_pure _)
  · rw [show v % 18446744073709551616 = v % 256 + v >>> (8 : Nat) % 256 * 2 ^ 8 +
      v >>> (16 : Nat) % 256 * 2 ^ 16 + v >>> (24 : Nat) % 256 * 2 ^ 24 +
      v >>> (32 : Nat) % 256 * 2 ^ 32 + v >>> (40 : Nat) % 256 * 2 ^ 40 +
      v >>> (48 : Nat) % 256 * 2 ^ 48 + v >>> (56 : Nat) % 256 * 2 ^ 56 by omega]
    exact typed.bind <| (plain _).bind <| (plain _).bind <| (plain _).bind <|
      (plain _).bind <| (plain _).bind <| (plain _).bind <| (plain _).bind (readsBytes_pure _)

theorem readsBytes_string {string : List Byte} (h : 10 ∉ string) (hlen : string.length ≤ 1024) :
    ReadsBytes readString (string ++ [10]) string := by
  intro b tail hrest
  rw [List.append_assoc] at hrest
  rw [readString, readStringLoop_line 1024 [] hrest h hlen, List.length_append]
  rfl

/-! ## Fields -/

/-- What the reader of a field is told about it. -/
inductive FieldType where
  | byte (type : ValueType)
  | short (type : ValueType) (order : ByteOrder)
  | int (type : ValueType) (order : ByteOrder)
  | long (type : ValueType) (order : ByteOrder)
  | string
  deriving DecidableEq

inductive FieldValue where
  | number (value : Int)
  | text (chars : List Byte)
  deriving DecidableEq

inductive Field where
  | byte (value : Word) (type : ValueType)
  | short (value : Word) (type : ValueType) (order : ByteOrder)
  | int (value : Word) (type : ValueType) (order : ByteOrder)
  | long (value : BitVec 64) (type : ValueType) (order : ByteOrder)
  | string (chars : List Byte)
  deriving DecidableEq

namespace Field

def type : Field → FieldType
  | byte _ type => .byte type
  | short _ type order => .short type order
  | int _ type order => .int type order
  | long _ type order => .long type order
  | string _ => .string

/-- Shorts and longs come in two byte orders; a string ends at its first newline. -/
def Legal : Field → Prop
  | byte _ _ | int _ _ _ => True
  | short _ _ order | long _ _ order => order = .big ∨ order = .little
  | string chars => 10 ∉ chars ∧ chars.length ≤ 1024

/-- What an unsigned read of the field can give back. -/
def value : Field → FieldValue
  | byte value _ => .number (value.toInt % 256)
  | short value _ _ => .number (value.toInt % 65536)
  | int value _ _ => .number value.toInt
  | long value _ _ => .number value.toInt
  | string chars => .text chars

def write : Field → StreamM Unit
  | byte value type => writeByte value.toInt type
  | short value type order => writeShort value.toInt type order
  | int value type order => writeInt value.toInt type order
  | long value type order => writeLong value.toInt type order
  | string chars => writeString chars

def bytes : Field → List Byte
  | byte value type => [typedByte type value.toInt]
  | short value type order => shortField value.toInt type order
  | int value type order => intField value.toInt type order
  | long value type order => longField value.toInt type order
  | string chars => chars ++ [10]

end Field

def FieldType.read : FieldType → StreamM FieldValue
  | byte type => do return .number (← readByte false type)
  | short type order => do return .number (← readShort false type order)
  | int type order => do return .number (← readInt type order)
  | long type order => do return .number (← readLong type order)
  | string => do return .text (← readString)

theorem Field.appendsBytes_write (field : Field) (h : field.Legal) :
    AppendsBytes field.write field.bytes := by
  cases field with
  | byte value type => exact appendsBytes_writeByte _ _
  | short value type order => exact appendsBytes_shortField _ _ h
  | int value type order => exact appendsBytes_intField _ _ _
  | long value type order => exact appendsBytes_longField _ _ h
  | string chars => exact appendsBytes_writeString chars

theorem Field.readsBytes_read (field : Field) (h : field.Legal) :
    ReadsBytes field.type.read field.bytes field.value := by
  cases field with
  | byte value type => exact (readsBytes_typedByte _ _).map FieldValue.number
  | short value type order => exact (readsBytes_shortField _ _ _ h).map FieldValue.number
  | int value type order =>
      have hread := (readsBytes_intField value.toInt type order).map FieldValue.number
      rwa [toInt32_emod] at hread
  | long value type order =>
      have hread := (readsBytes_longField value.toInt type h).map FieldValue.number
      rwa [toInt64_emod] at hread
  | string chars => exact (readsBytes_string h.1 h.2).map FieldValue.text

/-! ## Lists of fields -/

def writeFields : List Field → StreamM Unit
  | [] => pure ()
  | field :: fields => do
      field.write
      writeFields fields

def readFields : List FieldType → StreamM (List FieldValue)
  | [] => pure []
  | type :: types => do
      let value ← type.read
      let values ← readFields types
      return value :: values

variable {fields : List Field}

theorem appendsBytes_writeFields (h : ∀ field ∈ fields, field.Legal) :
    AppendsBytes (writeFields fields) (fields.flatMap Field.bytes) := by
  induction fields with
  | nil => exact appendsBytes_pure
  | cons field fields ih =>
      obtain ⟨hfield, hfields⟩ := List.forall_mem_cons.mp h
      exact (field.appendsBytes_write hfield).bind (ih hfields)

theorem readsBytes_readFields (h : ∀ field ∈ fields, field.Legal) :
    ReadsBytes (readFields (fields.map Field.type)) (fields.flatMap Field.bytes)
      (fields.map Field.value) := by
  induction fields with
  | nil => exact readsBytes_pure []
  | cons field fields ih =>
      obtain ⟨hfield, hfields⟩ := List.forall_mem_cons.mp h
      exact (field.readsBytes_read hfield).bind ((ih hfields).map _)

/-- Whatever the capacity, a list of fields is written as the same bytes, and read back from a
buffer over them. -/
theorem fields_roundTrip (fields : List Field) (h : ∀ field ∈ fields, field.Legal) :
    ∃ bytes : List Byte,
      (∀ capacity, ∃ b, (ofSize capacity).exec (writeFields fields) = .ok ((), b) ∧
        b.buffer.take b.pos = bytes ∧ b.pos = bytes.length) ∧
      ∃ b, (ofData bytes).exec (readFields (fields.map Field.type)) =
        .ok (fields.map Field.value, b) ∧ b.pos = bytes.length := by
  refine ⟨fields.flatMap Field.bytes, ?_, ?_⟩
  · intro capacity
    obtain ⟨b, hrun, hout⟩ := (appendsBytes_writeFields h).exec_ofSize capacity
    exact ⟨b, hrun, hout.take, hout.cursor⟩
  · have hread := readsBytes_readFields h (ofData (fields.flatMap Field.bytes)) []
      (by rw [rest_ofData, List.append_nil])
    refine ⟨(ofData (fields.flatMap Field.bytes)).skip (fields.flatMap Field.bytes).length, ?_,
      Nat.zero_add _⟩
    simp only [exec, hread]

/-- A transformed short and a string, in a buffer too small for them. -/
theorem fields_roundTrip_pair :
    ∃ bytes : List Byte,
      (∀ capacity, ∃ b, (ofSize capacity).exec
        (writeFields [.short (-2) .a .little, .string [104, 105]]) = .ok ((), b) ∧
        b.buffer.take b.pos = bytes ∧ b.pos = bytes.length) ∧
      ∃ b, (ofData bytes).exec (readFields [.short .a .little, .string]) =
        .ok ([.number 65534, .text [104, 105]], b) ∧ b.pos = bytes.length :=
  fields_roundTrip [.short (-2) .a .little, .string [104, 105]] <| by
    intro field hfield
    simp only [List.mem_cons, List.not_mem_nil, or_false] at hfield
    rcases hfield with rfl | rfl
    · exact .inr rfl
    · exact ⟨by decide, by decide⟩

/-! ## Signed reads -/

/-- The buffer with the cursor put back. -/
def rewind (b : StreamBuffer) (pos : Nat) : StreamBuffer := { b with pos }

variable {b : StreamBuffer}

end AsioRsps.StreamBuffer
