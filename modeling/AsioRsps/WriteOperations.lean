import AsioRsps.ByteOutput
import AsioRsps.StateChanges

/-!
# Write operations

The public write and framing operations of `StreamBuffer` as one type, with a cipher beside
the buffer. All byte-level writes are sequences of `WriteByte`, which checks the access type
before it changes anything; so do they. `WriteHeader` stores the header kind and draws a key
before the check.
-/
namespace AsioRsps
open BitStrings StateChanges

/-- A C++ exception, unlike an access the language leaves undefined. -/
def Fault.isException : Fault → Prop
  | .outOfBounds | .nullPointer => False
  | _ => True

/-- Every key moves the keystream on. -/
theorem ISAACCipher.getNextKey_idx_ne (cipher : ISAACCipher) :
    cipher.getNextKey.2.keyArrayIdx ≠ cipher.keyArrayIdx := by
  unfold ISAACCipher.getNextKey
  split
  · rename_i h
    rw [h]
    have hne : (255 : Word) ≠ 0 := by decide
    exact hne
  · intro h
    have hone := BitVec.toNat_inj.mpr h
    simp only [BitVec.toNat_sub, show (1 : Word).toNat = 1 from rfl] at hone
    omega

namespace StreamBuffer

/-! ## Operations -/

inductive WriteOp where
  | byte (value : Int) (type : ValueType)
  | short (value : Int) (type : ValueType) (order : ByteOrder)
  | int (value : Int) (type : ValueType) (order : ByteOrder)
  | long (value : Int) (type : ValueType) (order : ByteOrder)
  | string (chars : List Byte)
  | bytes (other : StreamBuffer)
  | bits (amount : Nat) (value : Int)
  | header (value : Int) (headerSize : VariableHeaderSize)
  | finish
  | access (type : AccessType)

namespace WriteOp

def run : WriteOp → EStateM Fault (StreamBuffer × ISAACCipher) Unit
  | byte value type => onBuffer (writeByte value type)
  | short value type order => onBuffer (writeShort value type order)
  | int value type order => onBuffer (writeInt value type order)
  | long value type order => onBuffer (writeLong value type order)
  | string chars => onBuffer (writeString chars)
  | bytes other => onBuffer (writeBytes other)
  | bits amount value => onBuffer (writeBits amount value)
  | header value headerSize => writeHeader value headerSize
  | finish => onBuffer finishVariableHeader
  | access type => onBuffer (setAccessType type)

/-- `WriteHeader` with the key it has drawn. -/
def headerWith (key : Word) (value : Int) (headerSize : VariableHeaderSize) : StreamM Unit := do
  modify fun b => { b with headerSize }
  writeByte (value + key.toNat)
  match headerSize with
  | .byte =>
      modify fun b => { b with frameSize := b.pos }
      writeByte 0
  | .short =>
      modify fun b => { b with frameSize := b.pos }
      writeShort 0
  | .none => pure ()

/-- What the operation does to the buffer when the cipher's next key is `key`. -/
def withKey (key : Word) : WriteOp → StreamM Unit
  | byte value type => writeByte value type
  | short value type order => writeShort value type order
  | int value type order => writeInt value type order
  | long value type order => writeLong value type order
  | string chars => writeString chars
  | bytes other => writeBytes other
  | bits amount value => writeBits amount value
  | header value headerSize => headerWith key value headerSize
  | finish => finishVariableHeader
  | access type => setAccessType type

/-- Only a header draws a key, and it does so whether it succeeds or not. -/
def draws : WriteOp → Bool
  | header _ _ => true
  | _ => false

def cipherAfter (op : WriteOp) (cipher : ISAACCipher) : ISAACCipher :=
  if op.draws then cipher.getNextKey.2 else cipher

end WriteOp

theorem onBuffer_error {m : StreamM Unit} {b b' : StreamBuffer} {e : Fault} (cipher : ISAACCipher)
    (h : m b = .error e b') : onBuffer m (b, cipher) = .error e (b', cipher) := by
  simp only [onBuffer, h]

theorem onBuffer_bind (m n : StreamM Unit) :
    (onBuffer m >>= fun _ => onBuffer n) = onBuffer (m >>= fun _ => n) := by
  funext ⟨b, cipher⟩
  cases h : m b with
  | ok a b' => rw [bind_of_ok (onBuffer_ok cipher h), onBuffer, onBuffer, bind_of_ok h]
  | error e b' => rw [bind_of_error (onBuffer_error cipher h), onBuffer, bind_of_error h]

/-- A header is a write of the drawn key's opcode. -/
theorem writeHeader_eq (value : Int) (headerSize : VariableHeaderSize) (b : StreamBuffer)
    (cipher : ISAACCipher) : writeHeader value headerSize (b, cipher) =
      onBuffer (WriteOp.headerWith cipher.nextKey value headerSize)
        (b, cipher.getNextKey.2) := by
  cases headerSize with
  | byte | short | none =>
      simp only [WriteOp.headerWith, ← onBuffer_bind]
      rfl

/-- An operation acts on the buffer alone, with the key of the cipher it is passed. -/
theorem WriteOp.run_eq (op : WriteOp) (b : StreamBuffer) (cipher : ISAACCipher) :
    op.run (b, cipher) = onBuffer (op.withKey cipher.nextKey) (b, op.cipherAfter cipher) := by
  cases op with
  | header value headerSize => exact writeHeader_eq value headerSize b cipher
  | _ => rfl

/-! ## One byte -/

/-- The vector after a byte is stored at the cursor, grown by one when it is full. -/
def stored (b : StreamBuffer) (x : Byte) : List Byte :=
  (if b.buffer.length ≤ b.pos then resize b.buffer (b.pos + 1) else b.buffer).set b.pos x

def illegalAccess : Fault := .invalidArgument "Illegal access type."

theorem writeByte_byte {b : StreamBuffer} (h : b.accessType = .byteAccess) (value : Int)
    (type : ValueType) : writeByte value type b =
      .ok () { b with buffer := stored b (toByte (writeValue type value)), pos := b.pos + 1 } := by
  simp only [writeByte, bind, EStateM.bind, get, getThe, MonadStateOf.get, getState_eq, h]
  rfl

theorem writeByte_bit {b : StreamBuffer} (h : b.accessType ≠ .byteAccess) (value : Int)
    (type : ValueType) : writeByte value type b = .error illegalAccess b := by
  have hbit : b.accessType = .bitAccess := by
    cases ha : b.accessType with
    | byteAccess => exact absurd ha h
    | bitAccess => rfl
  simp only [writeByte, bind, EStateM.bind, get, getThe, MonadStateOf.get, getState_eq, hbit]
  rfl

theorem guarded_writeByte (value : Int) (type : ValueType) :
    Guarded (·.accessType = .byteAccess) illegalAccess (writeByte value type) :=
  ⟨fun _ h => ⟨_, _, writeByte_byte h value type, h⟩, fun _ h => writeByte_bit h value type⟩

/-! ## Byte-level writes -/

/-- A sequence of `WriteByte`. -/
inductive Writes : StreamM Unit → Prop where
  | byte (value : Int) (type : ValueType) : Writes (writeByte value type)
  | bind {m n : StreamM Unit} : Writes m → Writes n → Writes (m >>= fun _ => n)

theorem Writes.guarded {m : StreamM Unit} (h : Writes m) :
    Guarded (·.accessType = .byteAccess) illegalAccess m := by
  induction h with
  | byte value type => exact guarded_writeByte value type
  | bind _ _ ihm ihn => exact ihm.bind fun _ => ihn

theorem Writes.moves {R : StreamBuffer → StreamBuffer → Prop}
    (htrans : ∀ b b' b'', R b b' → R b' b'' → R b b'')
    (hbyte : ∀ value type, Moves R (writeByte value type)) {m : StreamM Unit} (h : Writes m) :
    Moves R m := by
  induction h with
  | byte value type => exact hbyte value type
  | bind _ _ ihm ihn => exact ihm.bind htrans fun _ => ihn

theorem Writes.agrees {R : StreamBuffer → StreamBuffer → Prop}
    (hbyte : ∀ value type, Agrees R (writeByte value type)) {m : StreamM Unit} (h : Writes m) :
    Agrees R m := by
  induction h with
  | byte value type => exact hbyte value type
  | bind _ _ ihm ihn => exact ihm.bind fun _ => ihn

theorem writes_writeString (chars : List Byte) : Writes (writeString chars) := by
  induction chars with
  | nil => exact .byte 10 .standard
  | cons c chars ih =>
      rw [writeString_cons]
      exact .bind (.byte _ _) ih

/-- Shorts and longs refuse two of the byte orders; everything else is a sequence of bytes. -/
def ByteLevel (m : StreamM Unit) : Prop := Writes m ∨ ∃ what, m = throw (.invalidArgument what)

theorem byteLevel_writeShort (value : Int) (type : ValueType) (order : ByteOrder) :
    ByteLevel (writeShort value type order) := by
  cases order with
  | big | little => exact .inl (.bind (.byte _ _) (.byte _ _))
  | middle | inverseMiddle => exact .inr ⟨_, rfl⟩

theorem writes_writeInt (value : Int) (type : ValueType) (order : ByteOrder) :
    Writes (writeInt value type order) := by
  cases order with
  | big | little | middle | inverseMiddle =>
      exact .bind (.byte _ _) (.bind (.byte _ _) (.bind (.byte _ _) (.byte _ _)))

theorem byteLevel_writeLong (value : Int) (type : ValueType) (order : ByteOrder) :
    ByteLevel (writeLong value type order) := by
  cases order with
  | big | little =>
      exact .inl (.bind (.byte _ _) (.bind (.byte _ _) (.bind (.byte _ _) (.bind (.byte _ _)
        (.bind (.byte _ _) (.bind (.byte _ _) (.bind (.byte _ _) (.byte _ _))))))))
  | middle | inverseMiddle => exact .inr ⟨_, rfl⟩

/-- The operation writes bytes at the cursor. -/
def WriteOp.writesBytes : WriteOp → Prop
  | byte _ _ | short _ _ _ | int _ _ _ | long _ _ _ | string _ => True
  | _ => False

theorem WriteOp.byteLevel (op : WriteOp) (h : op.writesBytes) (key : Word) :
    ByteLevel (op.withKey key) := by
  cases op with
  | byte value type => exact .inl (.byte value type)
  | short value type order => exact byteLevel_writeShort value type order
  | int value type order => exact .inl (writes_writeInt value type order)
  | long value type order => exact byteLevel_writeLong value type order
  | string chars => exact .inl (writes_writeString chars)
  | _ => exact h.elim

theorem ByteLevel.atomic {m : StreamM Unit} (h : ByteLevel m) : Atomic m := by
  rcases h with h | ⟨what, rfl⟩
  · exact h.guarded.atomic
  · intro b e b' hrun
    cases hrun
    rfl

/-! ## Failures -/

/-- An operation that overwrites bytes of the vector, or is refused. -/
def Overwrites (m : StreamM Unit) : Prop :=
  ∀ b, (∃ e, m b = .error e b) ∨
    ∃ buffer, m b = .ok () { b with buffer } ∧ buffer.length = b.buffer.length

theorem Overwrites.atomic {m : StreamM Unit} (h : Overwrites m) : Atomic m := by
  intro b e b' hrun
  rcases h b with ⟨e', herr⟩ | ⟨buffer, hok, -⟩
  · rw [herr] at hrun
    cases hrun
    rfl
  · rw [hok] at hrun
    cases hrun

theorem overwrites_writeFrameSizeShort (size : Int) : Overwrites (writeFrameSizeShort size) := by
  intro b
  let offset := toSize ((b.pos : Int) - size - 2)
  by_cases h : b.pos < toSize (size + 2) ∨ b.buffer.length ≤ toSize ((offset : Int) + 1)
  · refine .inl ⟨.outOfRange "WriteFrameSizeShort: Invalid offset or size", ?_⟩
    simp only [writeFrameSizeShort, bind, EStateM.bind, get, getThe, MonadStateOf.get, getState_eq]
    rw [if_pos h]
    rfl
  · refine .inr ⟨(b.buffer.set offset (toByte (size >>> (8 : Nat)))).set (offset + 1)
      (toByte size), ?_, by simp only [List.length_set]⟩
    simp only [writeFrameSizeShort, bind, EStateM.bind, get, getThe, MonadStateOf.get, getState_eq]
    rw [if_neg h]
    rfl

theorem overwrites_writeFrameSizeByte (size : Int) : Overwrites (writeFrameSizeByte size) := by
  intro b
  let offset := toSize ((b.pos : Int) - size - 1)
  by_cases h : b.pos < toSize (size + 1) ∨ b.buffer.length ≤ offset
  · refine .inl ⟨.outOfRange "WriteFrameSizeByte: Invalid offset or size", ?_⟩
    simp only [writeFrameSizeByte, bind, EStateM.bind, get, getThe, MonadStateOf.get, getState_eq]
    rw [if_pos h]
    rfl
  · refine .inr ⟨b.buffer.set offset (toByte size), ?_, List.length_set⟩
    simp only [writeFrameSizeByte, bind, EStateM.bind, get, getThe, MonadStateOf.get, getState_eq]
    rw [if_neg h]
    rfl

/-- A frame is closed by overwriting its size, if it has one. -/
theorem finishVariableHeader_cases (b : StreamBuffer) :
    b.frameSize = 0 ∧ finishVariableHeader b = .ok () b ∨
    b.frameSize ≠ 0 ∧ ((∃ e, finishVariableHeader b = .error e b) ∨
      ∃ buffer, finishVariableHeader b = .ok () { b with buffer, frameSize := 0 } ∧
        buffer.length = b.buffer.length) := by
  by_cases h : b.frameSize = 0
  · refine .inl ⟨h, ?_⟩
    simp only [finishVariableHeader, bind, EStateM.bind, get, getThe, MonadStateOf.get, getState_eq,
      h, if_true]
    rfl
  · refine .inr ⟨h, ?_⟩
    have hclose {m : StreamM Unit} (hm : Overwrites m)
        (hrun : finishVariableHeader b =
          (m >>= fun _ => modify fun b => { b with frameSize := 0 }) b) :
        (∃ e, finishVariableHeader b = .error e b) ∨
          ∃ buffer, finishVariableHeader b = .ok () { b with buffer, frameSize := 0 } ∧
            buffer.length = b.buffer.length := by
      rcases hm b with ⟨e, herr⟩ | ⟨buffer, hok, hlen⟩
      · exact .inl ⟨e, hrun.trans (bind_of_error herr)⟩
      · exact .inr ⟨buffer, hrun.trans (bind_of_ok hok), hlen⟩
    cases hh : b.headerSize with
    | short =>
        rw [← hh]
        refine hclose (overwrites_writeFrameSizeShort ((b.pos : Int) - b.frameSize - 2)) ?_
        simp only [finishVariableHeader, bind, EStateM.bind, get, getThe, MonadStateOf.get,
          getState_eq, h, if_false, hh]
    | byte =>
        rw [← hh]
        refine hclose (overwrites_writeFrameSizeByte ((b.pos : Int) - b.frameSize - 1)) ?_
        simp only [finishVariableHeader, bind, EStateM.bind, get, getThe, MonadStateOf.get,
          getState_eq, h, if_false, hh]
    | none =>
        refine .inr ⟨b.buffer, ?_, rfl⟩
        simp only [finishVariableHeader, bind, EStateM.bind, get, getThe, MonadStateOf.get,
          getState_eq, h, if_false, hh]
        rw [← hh]
        rfl

theorem atomic_finishVariableHeader : Atomic finishVariableHeader := by
  intro b e b' hrun
  rcases finishVariableHeader_cases b with ⟨-, hok⟩ | ⟨-, ⟨e', herr⟩ | ⟨buffer, hok, -⟩⟩
  · rw [hok] at hrun
    cases hrun
  · rw [herr] at hrun
    cases hrun
    rfl
  · rw [hok] at hrun
    cases hrun

theorem failsWith_maskAt (amount : Nat) : FailsWith (· = .outOfBounds) (maskAt amount) := by
  intro b e b' hrun
  rw [maskAt] at hrun
  cases h : bitMask[amount]? with
  | some mask =>
      rw [h] at hrun
      cases hrun
  | none =>
      rw [h] at hrun
      cases hrun
      rfl

theorem failsWith_storeBits (index : Nat) (mask bits : Word) :
    FailsWith (· = .outOfBounds) (storeBits index mask bits) := by
  intro b e b' hrun
  simp only [storeBits, bind, EStateM.bind, get, getThe, MonadStateOf.get, getState_eq] at hrun
  cases h : b.buffer[index]? with
  | some old =>
      rw [h] at hrun
      cases hrun
  | none =>
      rw [h] at hrun
      cases hrun
      rfl

theorem failsWith_writeBitsFrom (value : Word) (amount bitOffset bytePos : Nat) :
    FailsWith (· = .outOfBounds) (writeBitsFrom value amount bitOffset bytePos) := by
  induction amount, bitOffset, bytePos using writeBitsFrom.induct with
  | case1 amount bitOffset bytePos h ih =>
      rw [writeBitsFrom, dif_pos h]
      exact (failsWith_maskAt _).bind fun _ => (failsWith_storeBits _ _ _).bind fun _ => ih
  | case2 amount bytePos h =>
      rw [writeBitsFrom, dif_neg h, if_pos rfl]
      exact (failsWith_maskAt _).bind fun _ => failsWith_storeBits _ _ _
  | case3 amount bitOffset bytePos h hne =>
      rw [writeBitsFrom, dif_neg h, if_neg hne]
      exact (failsWith_maskAt _).bind fun _ => failsWith_storeBits _ _ _

/-- Writing bits throws nothing. -/
theorem failsWith_writeBits (amount : Nat) (value : Int) :
    FailsWith (· = .outOfBounds) (writeBits amount value) :=
  fun b e b' hrun => failsWith_writeBitsFrom (BitVec.ofInt 32 value) amount
    (8 - b.bitPosition % 8) (b.bitPosition / 8) _ e b' hrun

theorem failsWith_writeBytes (other : StreamBuffer) :
    FailsWith (· = .outOfBounds) (writeBytes other) := by
  intro b e b' hrun
  by_cases h0 : other.pos = 0
  · simp only [writeBytes, h0, if_true] at hrun
    cases hrun
  · simp only [writeBytes, h0, if_false, bind, EStateM.bind, get, getThe, MonadStateOf.get,
      getState_eq] at hrun
    by_cases hshort : other.buffer.length < other.pos
    · rw [if_pos hshort] at hrun
      cases hrun
      rfl
    · rw [if_neg hshort] at hrun
      cases hrun

/-- In byte access a header is written. -/
theorem succeeds_headerWith (key : Word) (value : Int) (headerSize : VariableHeaderSize) :
    Succeeds (·.accessType = .byteAccess) (WriteOp.headerWith key value headerSize) := by
  have hmodify : ∀ f : StreamBuffer → StreamBuffer, (∀ b, (f b).accessType = b.accessType) →
      Succeeds (·.accessType = .byteAccess) (modify f : StreamM Unit) :=
    fun f hf b hb => ⟨(), f b, rfl, (hf b).trans hb⟩
  have hbyte := fun value type => (guarded_writeByte value type).succeeds
  have hopen := hmodify (fun b => { b with frameSize := b.pos }) fun _ => rfl
  refine (hmodify (fun b => { b with headerSize }) fun _ => rfl).bind fun _ =>
    (hbyte _ .standard).bind fun _ => ?_
  cases headerSize with
  | byte => exact hopen.bind fun _ => hbyte 0 .standard
  | short => exact hopen.bind fun _ => (hbyte _ _).bind fun _ => hbyte _ _
  | none => exact fun b hb => ⟨(), b, rfl, hb⟩

/-- In bit access the header kind is stored before the opcode is refused. -/
theorem headerWith_bit {b : StreamBuffer} (h : b.accessType ≠ .byteAccess) (key : Word)
    (value : Int) (headerSize : VariableHeaderSize) :
    WriteOp.headerWith key value headerSize b = .error illegalAccess { b with headerSize } := by
  have hrefused := writeByte_bit (b := { b with headerSize }) h (value + key.toNat) .standard
  unfold WriteOp.headerWith
  exact (bind_of_ok rfl).trans (bind_of_error hrefused)

theorem access_of_header {b b' : StreamBuffer} {key : Word} {value : Int}
    {headerSize : VariableHeaderSize}
    (hrun : WriteOp.headerWith key value headerSize b = .ok () b') :
    b.accessType = .byteAccess := by
  by_contra hb
  rw [headerWith_bit hb] at hrun
  cases hrun

/-- An operation that is not a header and throws has changed nothing. -/
theorem WriteOp.eq_of_throws {op : WriteOp} (hop : op.draws = false) {b b' : StreamBuffer}
    {key : Word} {e : Fault} (hrun : op.withKey key b = .error e b') (he : e.isException) :
    b' = b := by
  have hub : e ≠ .outOfBounds := by
    rintro rfl
    exact he
  have hbytes (h : op.writesBytes) : b' = b := (op.byteLevel h key).atomic _ _ _ hrun
  cases op with
  | byte _ _ | short _ _ _ | int _ _ _ | long _ _ _ | string _ => exact hbytes trivial
  | bytes other => exact absurd (failsWith_writeBytes other b e b' hrun) hub
  | bits amount value => exact absurd (failsWith_writeBits amount value b e b' hrun) hub
  | header value headerSize => cases hop
  | finish => exact atomic_finishVariableHeader b e b' hrun
  | access type => cases hrun

/-- An operation that throws leaves the buffer and the keystream as they were, unless it is a
header in bit access. -/
theorem throw_leaves_no_trace_iff (op : WriteOp) (b : StreamBuffer) (cipher : ISAACCipher) :
    (∀ e state, op.run (b, cipher) = .error e state → e.isException → state = (b, cipher)) ↔
      ¬ (op.draws ∧ b.accessType = .bitAccess) := by
  rw [WriteOp.run_eq]
  constructor
  · rintro hall ⟨hdraws, hbit⟩
    cases op with
    | header value headerSize =>
        have hrun := onBuffer_error cipher.getNextKey.2
          (headerWith_bit (by rw [hbit]; decide) cipher.nextKey value headerSize)
        have hstate := congrArg Prod.snd (hall _ _ hrun trivial)
        exact cipher.getNextKey_idx_ne (congrArg ISAACCipher.keyArrayIdx hstate)
    | _ => cases hdraws
  · intro hcond e state hrun he
    cases hop : op.withKey cipher.nextKey b with
    | ok a b' =>
        rw [onBuffer_ok _ hop] at hrun
        cases hrun
    | error e' b' =>
        rw [onBuffer_error _ hop] at hrun
        cases hrun
        cases hdraws : op.draws with
        | false =>
            rw [op.eq_of_throws hdraws hop he, WriteOp.cipherAfter, hdraws]
            rfl
        | true =>
            cases op with
            | header value headerSize =>
                have hbyte : b.accessType = .byteAccess := by
                  cases hb : b.accessType with
                  | byteAccess => rfl
                  | bitAccess => exact absurd ⟨rfl, hb⟩ hcond
                obtain ⟨a, b'', hok, -⟩ :=
                  succeeds_headerWith cipher.nextKey value headerSize b hbyte
                rw [WriteOp.withKey, hok] at hop
                cases hop
            | _ => cases hdraws

/-- A header refused in bit access has stored its kind and drawn a key. -/
theorem refused_header_leaves_trace :
    let b : StreamBuffer := { ofSize 0 with accessType := .bitAccess }
    let cipher := ISAACCipher.new #v[0, 0, 0, 0]
    ∃ state, (WriteOp.header 0 .byte).run (b, cipher) = .error illegalAccess state ∧
      state.1.headerSize ≠ b.headerSize ∧ state.2.keyArrayIdx ≠ cipher.keyArrayIdx := by
  intro b cipher
  refine ⟨({ b with headerSize := .byte }, cipher.getNextKey.2), ?_, by decide,
    cipher.getNextKey_idx_ne⟩
  rw [WriteOp.run_eq]
  exact onBuffer_error _ (headerWith_bit (by decide) cipher.nextKey 0 .byte)

end StreamBuffer
end AsioRsps
