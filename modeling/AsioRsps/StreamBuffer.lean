import AsioRsps.BitStrings
import AsioRsps.ISAACCipher

/-!
# StreamBuffer

The byte and bit buffer every packet is read from and every frame is written to. An
operation may throw, and what it did to the buffer before throwing stays, so operations
live in `EStateM`. An index past the end of the vector, undefined in the source, is the
failure `outOfBounds`. `int32_t` values are integers; where the source keeps only some low
bits of one, so does the model.
-/
namespace AsioRsps
open BitStrings (Byte)

inductive ByteOrder where
  | little | big | middle | inverseMiddle
  deriving DecidableEq, Repr

inductive ValueType where
  | standard | a | c | s
  deriving DecidableEq, Repr

inductive AccessType where
  | byteAccess | bitAccess
  deriving DecidableEq, Repr

inductive VariableHeaderSize where
  | none | byte | short
  deriving DecidableEq, Repr

/-- What can stop the program: a C++ exception, or an access the language leaves undefined. -/
inductive Fault where
  | outOfBounds
  | nullPointer
  | lengthError
  | invalidArgument (what : String)
  | outOfRange (what : String)
  | runtimeError (what : String)
  deriving DecidableEq, Repr

/-- `static_cast<int8_t>`, the low byte. -/
def toByte (value : Int) : Byte := BitVec.ofInt 8 value

/-- Conversion to `int32_t`. -/
def toInt32 (value : Int) : Int := (BitVec.ofInt 32 value).toInt

/-- Conversion to `int64_t`. -/
def toInt64 (value : Int) : Int := (BitVec.ofInt 64 value).toInt

/-- Conversion to `size_t`. -/
def toSize (value : Int) : Nat := (BitVec.ofInt 64 value).toNat

def defaultBufferSize : Nat := 512

structure StreamBuffer where
  accessType : AccessType := .byteAccess
  bitPosition : Nat := 0
  pos : Nat := 0
  frameSize : Nat := 0
  headerSize : VariableHeaderSize := .none
  buffer : List Byte
  deriving DecidableEq

abbrev StreamM := EStateM Fault StreamBuffer

namespace StreamBuffer

theorem getState_eq {σ : Type} (s : σ) : (EStateM.get : EStateM Fault σ σ) s = .ok s s := rfl

theorem setState_eq {σ : Type} (s s' : σ) :
    (EStateM.set s' : EStateM Fault σ PUnit) s = .ok ⟨⟩ s' := rfl

theorem modifyGetState_eq {σ α : Type} (f : σ → α × σ) (s : σ) :
    (EStateM.modifyGet f : EStateM Fault σ α) s = .ok (f s).1 (f s).2 := rfl

/-- `StreamBuffer(int32_t size)` -/
def ofSize (size : Nat) : StreamBuffer := { buffer := List.replicate size 0 }

/-- `StreamBuffer()` -/
def new : StreamBuffer := ofSize defaultBufferSize

/-- `StreamBuffer(const int8_t* data, int32_t length)` -/
def ofData (data : List Byte) : StreamBuffer := { buffer := data }

def hasRemaining (b : StreamBuffer) : Bool := b.pos < b.buffer.length

def remaining (b : StreamBuffer) : Int := (b.buffer.length : Int) - b.pos

/-- Runs an operation on a buffer that is local to its caller: when it throws, the buffer is
gone. -/
def exec {α : Type} (b : StreamBuffer) (m : StreamM α) : Except Fault (α × StreamBuffer) :=
  match m b with
  | .ok a b' => .ok (a, b')
  | .error e _ => .error e

/-- `std::vector::resize` -/
def resize (bytes : List Byte) (size : Nat) : List Byte :=
  bytes.take size ++ List.replicate (size - bytes.length) 0

def setAccessType (type : AccessType) : StreamM Unit :=
  modify fun b => match type with
    | .bitAccess => { b with accessType := type, bitPosition := b.pos * 8 }
    | .byteAccess => { b with accessType := type, pos := (b.bitPosition + 7) / 8 }

def clear : StreamM Unit := modify fun b => { b with buffer := [], pos := 0 }

/-! ## Read operations -/

/-- The value of a raw byte under a value type. -/
def readValue (isSigned : Bool) (type : ValueType) (raw : Byte) : Int :=
  let value := match type with
    | .standard => raw.toInt
    | .a => raw.toInt - 128
    | .c => -raw.toInt
    | .s => 128 - raw.toInt
  if isSigned then value else value % 256

def readByte (isSigned : Bool := true) (type : ValueType := .standard) : StreamM Int := do
  let b ← get
  match b.buffer[b.pos]? with
  | some raw =>
      set { b with pos := b.pos + 1 }
      return readValue isSigned type raw
  | none => throw .outOfBounds

/-- The bytes are read unsigned, so `|` of the shifted parts is their sum. -/
def readShort (isSigned : Bool := true) (type : ValueType := .standard)
    (order : ByteOrder := .big) : StreamM Int := do
  match order with
  | .big =>
      let high ← readByte false
      let low ← readByte false type
      return if isSigned then high * 2 ^ 8 + low else (high * 2 ^ 8 + low) % 2 ^ 16
  | .little =>
      let low ← readByte false type
      let high ← readByte false
      return if isSigned then high * 2 ^ 8 + low else (high * 2 ^ 8 + low) % 2 ^ 16
  | _ => throw (.invalidArgument "Unsupported ByteOrder for ReadShort")

/-- Both results of the final conditional are the same `int32_t`. -/
def readInt (type : ValueType := .standard) (order : ByteOrder := .big) : StreamM Int := do
  match order with
  | .big =>
      let b1 ← readByte false
      let b2 ← readByte false
      let b3 ← readByte false
      let b4 ← readByte false type
      return toInt32 (b1 * 2 ^ 24 + b2 * 2 ^ 16 + b3 * 2 ^ 8 + b4)
  | .middle =>
      let b1 ← readByte false
      let b2 ← readByte false type
      let b3 ← readByte false
      let b4 ← readByte false
      return toInt32 (b1 * 2 ^ 8 + b2 + b3 * 2 ^ 24 + b4 * 2 ^ 16)
  | .inverseMiddle =>
      let b1 ← readByte false
      let b2 ← readByte false
      let b3 ← readByte false type
      let b4 ← readByte false
      return toInt32 (b1 * 2 ^ 16 + b2 * 2 ^ 24 + b3 + b4 * 2 ^ 8)
  | .little =>
      let b1 ← readByte false type
      let b2 ← readByte false
      let b3 ← readByte false
      let b4 ← readByte false
      return toInt32 (b1 + b2 * 2 ^ 8 + b3 * 2 ^ 16 + b4 * 2 ^ 24)

def readLong (type : ValueType := .standard) (order : ByteOrder := .big) : StreamM Int := do
  match order with
  | .big =>
      let b1 ← readByte false
      let b2 ← readByte false
      let b3 ← readByte false
      let b4 ← readByte false
      let b5 ← readByte false
      let b6 ← readByte false
      let b7 ← readByte false
      let b8 ← readByte false type
      return toInt64 (b1 * 2 ^ 56 + b2 * 2 ^ 48 + b3 * 2 ^ 40 + b4 * 2 ^ 32 + b5 * 2 ^ 24
        + b6 * 2 ^ 16 + b7 * 2 ^ 8 + b8)
  | .little =>
      let b1 ← readByte false type
      let b2 ← readByte false
      let b3 ← readByte false
      let b4 ← readByte false
      let b5 ← readByte false
      let b6 ← readByte false
      let b7 ← readByte false
      let b8 ← readByte false
      return toInt64 (b1 + b2 * 2 ^ 8 + b3 * 2 ^ 16 + b4 * 2 ^ 24 + b5 * 2 ^ 32 + b6 * 2 ^ 40
        + b7 * 2 ^ 48 + b8 * 2 ^ 56)
  | _ => throw (.invalidArgument "Unsupported ByteOrder for ReadLong")

/-- The loop of `ReadString`; `left` is how many more characters fit below `maxLength`. -/
def readStringLoop : Nat → List Byte → StreamM (List Byte)
  | left, result => do
      let byte := toByte (← readByte false)
      if byte = 10 then
        return result
      else
        match left with
        | 0 => throw (.runtimeError "StreamBuffer::ReadString exceeded max allowed length")
        | left+1 => readStringLoop left (result ++ [byte])

def readString : StreamM (List Byte) := readStringLoop 1024 []

/-! ## Write operations -/

/-- The value whose low byte is stored under a value type. -/
def writeValue (type : ValueType) (value : Int) : Int :=
  match type with
  | .standard => value
  | .a => value + 128
  | .c => -value
  | .s => 128 - value

def writeByte (value : Int) (type : ValueType := .standard) : StreamM Unit := do
  let b ← get
  if b.accessType ≠ .byteAccess then
    throw (.invalidArgument "Illegal access type.")
  let grown := if b.buffer.length ≤ b.pos then resize b.buffer (b.pos + 1) else b.buffer
  let stored := grown.set b.pos (toByte (writeValue type value))
  set { b with buffer := stored, pos := b.pos + 1 }

/-- `memcpy` of the other buffer's first `m_Pos` bytes. -/
def writeBytes (other : StreamBuffer) : StreamM Unit := do
  let count := other.pos
  if count = 0 then
    return
  let b ← get
  let grown := if b.buffer.length < b.pos + count
    then resize b.buffer (b.pos + count + defaultBufferSize) else b.buffer
  if other.buffer.length < count then
    throw .outOfBounds
  set { b with
    buffer := grown.take b.pos ++ other.buffer.take count ++ grown.drop (b.pos + count)
    pos := b.pos + count }

def writeShort (value : Int) (type : ValueType := .standard) (order : ByteOrder := .big) :
    StreamM Unit := do
  match order with
  | .big =>
      writeByte (value >>> (8 : Nat))
      writeByte value type
  | .little =>
      writeByte value type
      writeByte (value >>> (8 : Nat))
  | _ => throw (.invalidArgument "Unsupported ByteOrder for WriteShort")

def writeInt (value : Int) (type : ValueType := .standard) (order : ByteOrder := .big) :
    StreamM Unit := do
  match order with
  | .big =>
      writeByte (value >>> (24 : Nat))
      writeByte (value >>> (16 : Nat))
      writeByte (value >>> (8 : Nat))
      writeByte value type
  | .middle =>
      writeByte (value >>> (8 : Nat))
      writeByte value type
      writeByte (value >>> (24 : Nat))
      writeByte (value >>> (16 : Nat))
  | .inverseMiddle =>
      writeByte (value >>> (16 : Nat))
      writeByte (value >>> (24 : Nat))
      writeByte value type
      writeByte (value >>> (8 : Nat))
  | .little =>
      writeByte value type
      writeByte (value >>> (8 : Nat))
      writeByte (value >>> (16 : Nat))
      writeByte (value >>> (24 : Nat))

/-- The three-argument overload, on `int64_t`. -/
def writeLong (value : Int) (type : ValueType) (order : ByteOrder) : StreamM Unit := do
  match order with
  | .big =>
      writeByte (value >>> (56 : Nat))
      writeByte (value >>> (48 : Nat))
      writeByte (value >>> (40 : Nat))
      writeByte (value >>> (32 : Nat))
      writeByte (value >>> (24 : Nat))
      writeByte (value >>> (16 : Nat))
      writeByte (value >>> (8 : Nat))
      writeByte value type
  | .little =>
      writeByte value type
      writeByte (value >>> (8 : Nat))
      writeByte (value >>> (16 : Nat))
      writeByte (value >>> (24 : Nat))
      writeByte (value >>> (32 : Nat))
      writeByte (value >>> (40 : Nat))
      writeByte (value >>> (48 : Nat))
      writeByte (value >>> (56 : Nat))
  | _ => throw (.invalidArgument "Unsupported ByteOrder for WriteLong")

/-- The one-argument overload takes an `int32_t`. -/
def writeLong1 (value : Int) : StreamM Unit := writeLong (toInt32 value) .standard .big

def writeString (string : List Byte) : StreamM Unit := do
  string.forM fun value => writeByte value.toNat
  writeByte 10

/-! ## Frames -/

/-- Runs a buffer operation beside a cipher. -/
def onBuffer (m : StreamM Unit) : EStateM Fault (StreamBuffer × ISAACCipher) Unit :=
  fun (b, cipher) => match m b with
    | .ok () b' => .ok () (b', cipher)
    | .error e b' => .error e (b', cipher)

def writeHeader (value : Int) (headerSize : VariableHeaderSize := .none) :
    EStateM Fault (StreamBuffer × ISAACCipher) Unit := do
  modify fun (b, cipher) => ({ b with headerSize }, cipher)
  let key ← modifyGet fun (b, cipher) => (cipher.nextKey, b, cipher.getNextKey.2)
  onBuffer (writeByte (value + key.toNat))
  match headerSize with
  | .byte =>
      onBuffer (modify fun b => { b with frameSize := b.pos })
      onBuffer (writeByte 0)
  | .short =>
      onBuffer (modify fun b => { b with frameSize := b.pos })
      onBuffer (writeShort 0)
  | .none => pure ()

/-- `size_t` arithmetic: a size larger than the position makes the offset wrap. -/
def writeFrameSizeShort (size : Int) : StreamM Unit := do
  let b ← get
  let offset := toSize ((b.pos : Int) - size - 2)
  if b.pos < toSize (size + 2) ∨ b.buffer.length ≤ toSize ((offset : Int) + 1) then
    throw (.outOfRange "WriteFrameSizeShort: Invalid offset or size")
  let high := b.buffer.set offset (toByte (size >>> (8 : Nat)))
  set { b with buffer := high.set (offset + 1) (toByte size) }

def writeFrameSizeByte (size : Int) : StreamM Unit := do
  let b ← get
  let offset := toSize ((b.pos : Int) - size - 1)
  if b.pos < toSize (size + 1) ∨ b.buffer.length ≤ offset then
    throw (.outOfRange "WriteFrameSizeByte: Invalid offset or size")
  set { b with buffer := b.buffer.set offset (toByte size) }

def finishVariableHeader : StreamM Unit := do
  let b ← get
  if b.frameSize = 0 then
    return
  let payloadSize := (b.pos : Int) - b.frameSize
  match b.headerSize with
  | .short => writeFrameSizeShort (payloadSize - 2)
  | .byte => writeFrameSizeByte (payloadSize - 1)
  | .none => pure ()
  modify fun b => { b with frameSize := 0 }

/-! ## Bits -/

/-- `BIT_MASK`, as 32-bit words. -/
def bitMask : Vector Word 33 := #v[
  0, 0x1, 0x3, 0x7, 0xf, 0x1f, 0x3f, 0x7f, 0xff,
  0x1ff, 0x3ff, 0x7ff, 0xfff, 0x1fff, 0x3fff, 0x7fff, 0xffff,
  0x1ffff, 0x3ffff, 0x7ffff, 0xfffff, 0x1fffff, 0x3fffff,
  0x7fffff, 0xffffff, 0x1ffffff, 0x3ffffff, 0x7ffffff,
  0xfffffff, 0x1fffffff, 0x3fffffff, 0x7fffffff, -1]

def maskAt (amount : Nat) : StreamM Word :=
  match bitMask[amount]? with
  | some mask => pure mask
  | none => throw .outOfBounds

/-- What `byte &= ~mask; byte |= bits;` leaves, with the byte promoted to a word each time. -/
def mergeBits (old : Byte) (mask bits : Word) : Byte :=
  let cleared : Byte := (old.signExtend 32 &&& ~~~mask).setWidth 8
  (cleared.signExtend 32 ||| bits).setWidth 8

def storeBits (index : Nat) (mask bits : Word) : StreamM Unit := do
  let b ← get
  match b.buffer[index]? with
  | some old => set { b with buffer := b.buffer.set index (mergeBits old mask bits) }
  | none => throw .outOfBounds

/-- The loop of `WriteBits` and the final partial byte. `bitOffset` counts the bits left in
the byte at `bytePos` and is never zero. -/
def writeBitsFrom (value : Word) (amount bitOffset bytePos : Nat) : StreamM Unit := do
  if h : 0 < bitOffset ∧ bitOffset < amount then
    let mask ← maskAt bitOffset
    storeBits bytePos mask ((value.sshiftRight (amount - bitOffset)) &&& mask)
    writeBitsFrom value (amount - bitOffset) 8 (bytePos + 1)
  else if amount = bitOffset then
    let mask ← maskAt bitOffset
    storeBits bytePos mask (value &&& mask)
  else
    let mask ← maskAt amount
    storeBits bytePos (mask <<< (bitOffset - amount)) ((value &&& mask) <<< (bitOffset - amount))
termination_by amount

def writeBits (amount : Nat) (value : Int) : StreamM Unit := do
  let b ← get
  let neededBytes := (b.bitPosition + amount + 7) / 8
  let grown := if b.buffer.length < neededBytes
    then resize b.buffer (neededBytes + defaultBufferSize) else b.buffer
  set { b with buffer := grown, bitPosition := b.bitPosition + amount }
  writeBitsFrom (BitVec.ofInt 32 value) amount (8 - b.bitPosition % 8) (b.bitPosition / 8)

def writeBit (flag : Bool) : StreamM Unit := writeBits 1 (if flag then 1 else 0)

end StreamBuffer
end AsioRsps
