import AsioRsps.WriteOperations
import Mathlib.Data.List.GetD

/-!
# Buffer growth

What each write does to a buffer whatever it gives back: `Grows` for the byte cursor,
`GrowsBits` for the bit cursor. Both say that nothing before the cursor changes and that the
vector keeps up with it. Two operations are described exactly: a header written in byte
access, and the closing of a frame.
-/
namespace AsioRsps

/-- The bytes a header leaves for the size. -/
def VariableHeaderSize.width : VariableHeaderSize → Nat
  | none => 0
  | byte => 1
  | short => 2

namespace StreamBuffer
open BitStrings StateChanges

/-! ## Bytes -/

theorem getD_resize {bs : List Byte} {n : Nat} (h : bs.length ≤ n) (i : Nat) :
    (resize bs n).getD i 0 = bs.getD i 0 := by
  rw [resize, List.take_of_length_le h]
  by_cases hi : i < bs.length
  · rw [List.getD_append _ _ _ _ hi]
  · rw [List.getD_append_right _ _ _ _ (by omega), List.getD_eq_getElem?_getD,
      List.getElem?_getD_replicate_default_eq, List.getD_eq_default _ _ (by omega)]

theorem getD_set_ne {bs : List Byte} {k i : Nat} (x : Byte) (h : i ≠ k) :
    (bs.set k x).getD i 0 = bs.getD i 0 := by
  rw [List.getD_eq_getElem?_getD, List.getElem?_set_ne (Ne.symm h), ← List.getD_eq_getElem?_getD]

/-- A write at the byte cursor changes nothing before it. -/
structure Grows (b b' : StreamBuffer) : Prop where
  access : b'.accessType = b.accessType
  bitCursor : b'.bitPosition = b.bitPosition
  cursor : b.pos ≤ b'.pos
  length : b.buffer.length ≤ b'.buffer.length
  room : b.pos ≤ b.buffer.length → b'.pos ≤ b'.buffer.length
  bytes : ∀ i < b.pos, b'.buffer.getD i 0 = b.buffer.getD i 0

/-- The open frame is left alone. -/
def SameFrame (b b' : StreamBuffer) : Prop :=
  b'.frameSize = b.frameSize ∧ b'.headerSize = b.headerSize

theorem Grows.refl (b : StreamBuffer) : Grows b b :=
  ⟨rfl, rfl, Nat.le_refl _, Nat.le_refl _, id, fun _ _ => rfl⟩

theorem Grows.trans (b b' b'' : StreamBuffer) (h : Grows b b') (h' : Grows b' b'') :
    Grows b b'' where
  access := h'.access.trans h.access
  bitCursor := h'.bitCursor.trans h.bitCursor
  cursor := h.cursor.trans h'.cursor
  length := h.length.trans h'.length
  room hb := h'.room (h.room hb)
  bytes i hi := (h'.bytes i (Nat.lt_of_lt_of_le hi h.cursor)).trans (h.bytes i hi)

theorem Grows.bitAt {b b' : StreamBuffer} (h : Grows b b') {i : Nat} (hi : i < 8 * b.pos) :
    bitAt b'.buffer i = bitAt b.buffer i := by
  rw [BitStrings.bitAt, BitStrings.bitAt, h.bytes (i / 8) (by omega)]

theorem SameFrame.refl (b : StreamBuffer) : SameFrame b b := ⟨rfl, rfl⟩

theorem SameFrame.trans (b b' b'' : StreamBuffer) (h : SameFrame b b') (h' : SameFrame b' b'') :
    SameFrame b b'' := ⟨h'.1.trans h.1, h'.2.trans h.2⟩

theorem moves_writeByte {R : StreamBuffer → StreamBuffer → Prop} (hrefl : ∀ b, R b b)
    (h : ∀ b x, R b { b with buffer := stored b x, pos := b.pos + 1 }) (value : Int)
    (type : ValueType) : Moves R (writeByte value type) := by
  intro b
  by_cases hb : b.accessType = .byteAccess
  · rw [after_of_ok (writeByte_byte hb value type)]
    exact h b _
  · rw [after_of_error (writeByte_bit hb value type)]
    exact hrefl b

theorem grows_stored (b : StreamBuffer) (x : Byte) :
    Grows b { b with buffer := stored b x, pos := b.pos + 1 } := by
  let grown := if b.buffer.length ≤ b.pos then resize b.buffer (b.pos + 1) else b.buffer
  have hgrown : b.buffer.length ≤ grown.length ∧ b.pos < grown.length ∧
      ∀ i, grown.getD i 0 = b.buffer.getD i 0 := by
    simp only [grown]
    split
    · rename_i hfull
      refine ⟨?_, ?_, getD_resize (by omega)⟩ <;> rw [resize_length] <;> omega
    · exact ⟨Nat.le_refl _, by omega, fun _ => rfl⟩
  have hlen : (stored b x).length = grown.length := List.length_set
  refine ⟨rfl, rfl, Nat.le_succ _, ?_, fun _ => ?_, fun i hi => ?_⟩
  · exact hgrown.1.trans (Nat.le_of_eq hlen.symm)
  · exact (Nat.succ_le_of_lt hgrown.2.1).trans (Nat.le_of_eq hlen.symm)
  · exact (getD_set_ne x (by omega)).trans (hgrown.2.2 i)

/-- A byte is never stored outside the vector. -/
theorem pos_lt_stored (b : StreamBuffer) (x : Byte) : b.pos < (stored b x).length := by
  rw [stored, List.length_set]
  split
  · rw [resize_length]
    exact Nat.lt_succ_self _
  · omega

theorem Writes.grows {m : StreamM Unit} (h : Writes m) : Moves Grows m :=
  h.moves Grows.trans (moves_writeByte Grows.refl grows_stored)

theorem Writes.sameFrame {m : StreamM Unit} (h : Writes m) : Moves SameFrame m :=
  h.moves SameFrame.trans (moves_writeByte SameFrame.refl fun _ _ => ⟨rfl, rfl⟩)

theorem ByteLevel.grows {m : StreamM Unit} (h : ByteLevel m) : Moves Grows m := by
  rcases h with h | ⟨what, rfl⟩
  · exact h.grows
  · exact .throw Grows.refl _

theorem ByteLevel.sameFrame {m : StreamM Unit} (h : ByteLevel m) : Moves SameFrame m := by
  rcases h with h | ⟨what, rfl⟩
  · exact h.sameFrame
  · exact .throw SameFrame.refl _

/-- The vector after another buffer's bytes are copied to the cursor. -/
def copied (b other : StreamBuffer) : List Byte :=
  let grown := if b.buffer.length < b.pos + other.pos
    then resize b.buffer (b.pos + other.pos + defaultBufferSize) else b.buffer
  grown.take b.pos ++ other.buffer.take other.pos ++ grown.drop (b.pos + other.pos)

/-- `WriteBytes` does nothing, copies, or reads past the end of the other buffer. -/
theorem writeBytes_cases (other b : StreamBuffer) :
    other.pos = 0 ∧ writeBytes other b = .ok () b ∨
    other.pos ≠ 0 ∧ other.buffer.length < other.pos ∧ writeBytes other b = .error .outOfBounds b ∨
    other.pos ≠ 0 ∧ other.pos ≤ other.buffer.length ∧
      writeBytes other b =
        .ok () { b with buffer := copied b other, pos := b.pos + other.pos } := by
  by_cases h0 : other.pos = 0
  · refine .inl ⟨h0, ?_⟩
    simp only [writeBytes, h0, if_true]
    rfl
  · by_cases hshort : other.buffer.length < other.pos
    · refine .inr (.inl ⟨h0, hshort, ?_⟩)
      simp only [writeBytes, h0, if_false, bind, EStateM.bind, get, getThe, MonadStateOf.get,
        getState_eq, hshort, if_true]
      rfl
    · refine .inr (.inr ⟨h0, by omega, ?_⟩)
      simp only [writeBytes, h0, if_false, bind, EStateM.bind, get, getThe, MonadStateOf.get,
        getState_eq, hshort]
      rfl

theorem grows_copied (b : StreamBuffer) {other : StreamBuffer}
    (h : other.pos ≤ other.buffer.length) :
    Grows b { b with buffer := copied b other, pos := b.pos + other.pos } := by
  let grown := if b.buffer.length < b.pos + other.pos
    then resize b.buffer (b.pos + other.pos + defaultBufferSize) else b.buffer
  have hgrown : b.buffer.length ≤ grown.length ∧ b.pos + other.pos ≤ grown.length ∧
      ∀ i, grown.getD i 0 = b.buffer.getD i 0 := by
    simp only [grown]
    split
    · rename_i hshort
      refine ⟨?_, ?_, getD_resize (by omega)⟩ <;> rw [resize_length] <;> omega
    · exact ⟨Nat.le_refl _, by omega, fun _ => rfl⟩
  have hlen : (copied b other).length = grown.length := by
    change (grown.take b.pos ++ other.buffer.take other.pos ++
      grown.drop (b.pos + other.pos)).length = grown.length
    simp only [List.length_append, List.length_take, List.length_drop]
    omega
  refine ⟨rfl, rfl, Nat.le_add_right _ _, ?_, fun _ => ?_, fun i hi => ?_⟩
  · exact hgrown.1.trans (Nat.le_of_eq hlen.symm)
  · exact hgrown.2.1.trans (Nat.le_of_eq hlen.symm)
  · change (grown.take b.pos ++ other.buffer.take other.pos ++
      grown.drop (b.pos + other.pos)).getD i 0 = _
    have hi : i < b.pos := hi
    rw [List.append_assoc, List.getD_append _ _ _ _ (by rw [List.length_take]; omega),
      ← hgrown.2.2 i, List.getD_eq_getElem?_getD, List.getElem?_take_of_lt hi,
      ← List.getD_eq_getElem?_getD]

theorem grows_writeBytes (other : StreamBuffer) : Moves Grows (writeBytes other) := by
  intro b
  rcases writeBytes_cases other b with ⟨-, h⟩ | ⟨-, -, h⟩ | ⟨-, hfit, h⟩
  · rw [after_of_ok h]
    exact .refl b
  · rw [after_of_error h]
    exact .refl b
  · rw [after_of_ok h]
    exact grows_copied b hfit

theorem sameFrame_writeBytes (other : StreamBuffer) : Moves SameFrame (writeBytes other) := by
  intro b
  rcases writeBytes_cases other b with ⟨-, h⟩ | ⟨-, -, h⟩ | ⟨-, -, h⟩
  · rw [after_of_ok h]
    exact .refl b
  · rw [after_of_error h]
    exact .refl b
  · rw [after_of_ok h]
    exact ⟨rfl, rfl⟩

/-! ## Bits -/

/-- Stores that change nothing but bits from `start` on. -/
structure Stores (start : Nat) (b b' : StreamBuffer) : Prop where
  same : b' = { b with buffer := b'.buffer }
  length : b'.buffer.length = b.buffer.length
  bits : ∀ i < start, bitAt b'.buffer i = bitAt b.buffer i

theorem Stores.refl (start : Nat) (b : StreamBuffer) : Stores start b b :=
  ⟨rfl, rfl, fun _ _ => rfl⟩

theorem Stores.trans (start : Nat) (b b' b'' : StreamBuffer) (h : Stores start b b')
    (h' : Stores start b' b'') : Stores start b b'' where
  same := by rw [h'.same, h.same]
  length := h'.length.trans h.length
  bits i hi := (h'.bits i hi).trans (h.bits i hi)

theorem Stores.mono {start start' : Nat} (hle : start ≤ start') (b b' : StreamBuffer)
    (h : Stores start' b b') : Stores start b b' :=
  ⟨h.same, h.length, fun i hi => h.bits i (Nat.lt_of_lt_of_le hi hle)⟩

/-- A store into the byte at `k` of which the top `8 - offset` bits are masked out. -/
theorem moves_storeBits (k offset : Nat) (mask bits : Word)
    (hmask : ∀ i < 8, offset ≤ i → mask.getLsbD i = false)
    (hbits : ∀ i < 8, offset ≤ i → bits.getLsbD i = false) :
    Moves (Stores (8 * k + (8 - offset))) (storeBits k mask bits) := by
  intro b
  by_cases hk : k < b.buffer.length
  · rw [after_of_ok (storeBits_ok b k mask bits hk)]
    refine ⟨rfl, List.length_set, fun i hi => ?_⟩
    change bitAt (b.buffer.set k _) i = _
    rw [bitAt_set _ _ _ _ hk]
    by_cases hik : i / 8 = k
    · have hold : b.buffer[k].getLsbD (7 - i % 8) = bitAt b.buffer i := by
        simp [bitAt, hik, hk]
      rw [if_pos hik, mergeBits_getLsbD _ _ _ _ (by omega), hmask _ (by omega) (by omega),
        hbits _ (by omega) (by omega), hold, Bool.not_false, Bool.and_true, Bool.or_false]
    · rw [if_neg hik]
  · have hnone : b.buffer[k]? = none := List.getElem?_eq_none (by omega)
    have hrun : storeBits k mask bits b = .error .outOfBounds b := by
      simp only [storeBits, bind, EStateM.bind, get, getThe, MonadStateOf.get, getState_eq, hnone]
      rfl
    rw [after_of_error hrun]
    exact .refl _ b

theorem moves_maskAt_bind {R : StreamBuffer → StreamBuffer → Prop} {amount : Nat}
    (ha : amount ≤ 32) {f : Word → StreamM Unit}
    (h : ∀ mask, (∀ i < 32, mask.getLsbD i = decide (i < amount)) → Moves R (f mask)) :
    Moves R (maskAt amount >>= f) := by
  intro b
  obtain ⟨mask, hrun, hmask⟩ := maskAt_ok amount ha b
  rw [after, bind_of_ok hrun]
  exact h mask hmask b

/-- The loop of `WriteBits` changes nothing before the bit it starts at, for any amount. -/
theorem moves_writeBitsFrom (value : Word) (amount offset k : Nat) (ho : 0 < offset)
    (ho8 : offset ≤ 8) :
    Moves (Stores (8 * k + (8 - offset))) (writeBitsFrom value amount offset k) := by
  induction amount using Nat.strong_induction_on generalizing offset k with
  | _ amount ih =>
  unfold writeBitsFrom
  by_cases h : offset < amount
  · rw [dif_pos ⟨ho, h⟩]
    refine moves_maskAt_bind (by omega) fun mask hm => ?_
    have hmask : ∀ i < 8, offset ≤ i → mask.getLsbD i = false := fun i hi hoi => by
      rw [hm i (by omega), decide_eq_false (by omega)]
    refine Moves.bind (Stores.trans _) (moves_storeBits k offset mask _ hmask fun i hi hoi => ?_)
      fun _ => ?_
    · rw [BitVec.getLsbD_and, hmask i hi hoi, Bool.and_false]
    · exact (ih (amount - offset) (by omega) 8 (k + 1) (by decide) (Nat.le_refl _)).mono
        (Stores.mono (by omega))
  · rw [dif_neg fun hc => h hc.2]
    by_cases he : amount = offset
    · subst he
      rw [if_pos rfl]
      refine moves_maskAt_bind (by omega) fun mask hm => ?_
      have hmask : ∀ i < 8, amount ≤ i → mask.getLsbD i = false := fun i hi hoi => by
        rw [hm i (by omega), decide_eq_false (by omega)]
      exact moves_storeBits k amount mask _ hmask fun i hi hoi => by
        rw [BitVec.getLsbD_and, hmask i hi hoi, Bool.and_false]
    · -- the field ends inside this byte
      rw [if_neg he]
      refine moves_maskAt_bind (by omega) fun mask hm => ?_
      have hmask : ∀ i < 8, offset ≤ i → mask.getLsbD (i - (offset - amount)) = false :=
        fun i hi hoi => by rw [hm _ (by omega), decide_eq_false (by omega)]
      refine moves_storeBits k offset _ _ (fun i hi hoi => ?_) (fun i hi hoi => ?_)
      · rw [BitVec.getLsbD_shiftLeft, hmask i hi hoi, Bool.and_false]
      · rw [BitVec.getLsbD_shiftLeft, BitVec.getLsbD_and, hmask i hi hoi, Bool.and_false,
          Bool.and_false]

/-- Writing bits changes nothing before the bit cursor. -/
structure GrowsBits (b b' : StreamBuffer) : Prop where
  access : b'.accessType = b.accessType
  byteCursor : b'.pos = b.pos
  frame : SameFrame b b'
  cursor : b.bitPosition ≤ b'.bitPosition
  length : b.buffer.length ≤ b'.buffer.length
  room : b.bitPosition ≤ 8 * b.buffer.length → b'.bitPosition ≤ 8 * b'.buffer.length
  bits : ∀ i < b.bitPosition, bitAt b'.buffer i = bitAt b.buffer i

theorem GrowsBits.refl (b : StreamBuffer) : GrowsBits b b :=
  ⟨rfl, rfl, .refl b, Nat.le_refl _, Nat.le_refl _, id, fun _ _ => rfl⟩

theorem GrowsBits.trans (b b' b'' : StreamBuffer) (h : GrowsBits b b') (h' : GrowsBits b' b'') :
    GrowsBits b b'' where
  access := h'.access.trans h.access
  byteCursor := h'.byteCursor.trans h.byteCursor
  frame := .trans _ _ _ h.frame h'.frame
  cursor := h.cursor.trans h'.cursor
  length := h.length.trans h'.length
  room hb := h'.room (h.room hb)
  bits i hi := (h'.bits i (Nat.lt_of_lt_of_le hi h.cursor)).trans (h.bits i hi)

theorem growsBits_writeBits (amount : Nat) (value : Int) :
    Moves GrowsBits (writeBits amount value) := by
  intro b
  let needed := (b.bitPosition + amount + 7) / 8
  let grown := if b.buffer.length < needed then resize b.buffer (needed + defaultBufferSize)
    else b.buffer
  let b₁ := { b with buffer := grown, bitPosition := b.bitPosition + amount }
  have hgrown : b.bitPosition + amount ≤ 8 * grown.length ∧ b.buffer.length ≤ grown.length ∧
      ∀ i, bitAt grown i = bitAt b.buffer i := by
    simp only [grown]
    split
    · rename_i hlt
      refine ⟨?_, ?_, fun i => bitAt_resize _ _ _ (by omega)⟩ <;> rw [resize_length] <;> omega
    · exact ⟨by omega, Nat.le_refl _, fun i => rfl⟩
  have hstart : 8 * (b.bitPosition / 8) + (8 - (8 - b.bitPosition % 8)) = b.bitPosition := by omega
  have hput := moves_writeBitsFrom (BitVec.ofInt 32 value) amount (8 - b.bitPosition % 8)
    (b.bitPosition / 8) (by omega) (by omega) b₁
  rw [hstart] at hput
  have hrun : after (writeBits amount value) b = after (writeBitsFrom (BitVec.ofInt 32 value) amount
      (8 - b.bitPosition % 8) (b.bitPosition / 8)) b₁ := rfl
  rw [hrun]
  generalize after (writeBitsFrom _ _ _ _) b₁ = b' at hput
  rw [hput.same]
  exact ⟨rfl, rfl, ⟨rfl, rfl⟩, Nat.le_add_right _ _,
    hgrown.2.1.trans (Nat.le_of_eq hput.length.symm),
    fun _ => hgrown.1.trans (Nat.le_of_eq (congrArg (8 * ·) hput.length.symm)),
    fun i hi => (hput.bits i hi).trans (hgrown.2.2 i)⟩

/-! ## Frames -/

/-- A header written in byte access leaves its zero bytes and remembers where they are. -/
theorem headerWith_ok {b : StreamBuffer} (h : b.accessType = .byteAccess) (key : Word)
    (value : Int) (headerSize : VariableHeaderSize) :
    ∃ b', WriteOp.headerWith key value headerSize b = .ok () b' ∧ Grows b b' ∧
      b'.pos = b.pos + 1 + headerSize.width ∧ b'.headerSize = headerSize ∧
      (b'.frameSize = if headerSize = .none then b.frameSize else b.pos + 1) ∧
      b'.pos ≤ b'.buffer.length := by
  let opcode := toByte (writeValue .standard (value + key.toNat))
  let b₁ : StreamBuffer := { b with headerSize, buffer := stored b opcode, pos := b.pos + 1 }
  have hgrows : Grows b b₁ := by
    have hg := grows_stored b opcode
    exact ⟨hg.access, hg.bitCursor, hg.cursor, hg.length, hg.room, hg.bytes⟩
  have hopcode : writeByte (value + key.toNat) .standard { b with headerSize } = .ok () b₁ :=
    writeByte_byte (b := { b with headerSize }) h (value + key.toNat) .standard
  let b₂ : StreamBuffer := { b₁ with frameSize := b₁.pos }
  have hopened : Grows b b₂ :=
    ⟨hgrows.access, hgrows.bitCursor, hgrows.cursor, hgrows.length, hgrows.room, hgrows.bytes⟩
  let b₃ : StreamBuffer := { b₂ with buffer := stored b₂ 0, pos := b₂.pos + 1 }
  have hfirst : writeByte 0 .standard b₂ = .ok () b₃ :=
    writeByte_byte (b := b₂) h 0 .standard
  have hgrows₃ : Grows b b₃ := hopened.trans _ _ _ (grows_stored b₂ 0)
  unfold WriteOp.headerWith
  cases headerSize with
  | none =>
      exact ⟨b₁, (bind_of_ok rfl).trans (bind_of_ok hopcode), hgrows, rfl, rfl, rfl,
        pos_lt_stored b opcode⟩
  | byte =>
      refine ⟨b₃, ?_, hgrows₃, rfl, rfl, rfl, pos_lt_stored b₂ 0⟩
      exact (bind_of_ok rfl).trans ((bind_of_ok hopcode).trans ((bind_of_ok rfl).trans hfirst))
  | short =>
      let b₄ : StreamBuffer := { b₃ with buffer := stored b₃ 0, pos := b₃.pos + 1 }
      have hsecond : writeByte 0 .standard b₃ = .ok () b₄ :=
        writeByte_byte (b := b₃) h 0 .standard
      refine ⟨b₄, ?_, hgrows₃.trans _ _ _ (grows_stored b₃ 0), rfl, rfl, rfl, pos_lt_stored b₃ 0⟩
      refine (bind_of_ok rfl).trans ((bind_of_ok hopcode).trans ?_)
      exact (bind_of_ok rfl).trans ((bind_of_ok hfirst).trans hsecond)

/-- The vector after the size of a frame is stored in front of its payload. -/
def putSize (headerSize : VariableHeaderSize) (buffer : List Byte) (offset : Nat) (size : Int) :
    List Byte :=
  match headerSize with
  | .short => (buffer.set offset (toByte (size >>> (8 : Nat)))).set (offset + 1) (toByte size)
  | .byte => buffer.set offset (toByte size)
  | .none => buffer

/-- A closed frame. -/
def closed (b : StreamBuffer) : StreamBuffer :=
  { b with
    buffer := putSize b.headerSize b.buffer b.frameSize
      ((b.pos : Int) - b.frameSize - b.headerSize.width)
    frameSize := 0 }

/-- The check of `WriteFrameSizeShort` and `WriteFrameSizeByte`, when they are called to close
a frame. -/
def SizeRefused (b : StreamBuffer) : Prop :=
  b.pos < toSize ((b.pos : Int) - b.frameSize) ∨
    b.buffer.length < b.frameSize + b.headerSize.width

theorem finishVariableHeader_none {b : StreamBuffer} (h : b.frameSize = 0) :
    finishVariableHeader b = .ok () b := by
  rcases finishVariableHeader_cases b with ⟨-, hok⟩ | ⟨hopen, -⟩
  · exact hok
  · exact absurd h hopen

/-- An open frame is closed, or its size is refused and nothing changes. -/
theorem finishVariableHeader_open {b : StreamBuffer} (h0 : b.frameSize ≠ 0)
    (hf : b.frameSize < 2 ^ 63) :
    (b.headerSize = .none ∨ ¬ SizeRefused b → finishVariableHeader b = .ok () b.closed) ∧
    (b.headerSize ≠ .none → SizeRefused b →
      ∃ what, finishVariableHeader b = .error (.outOfRange what) b) := by
  have hoff : toSize (b.frameSize : Int) = b.frameSize := toSize_of_lt (by omega)
  have hnext : toSize ((b.frameSize : Int) + 1) = b.frameSize + 1 := by
    exact_mod_cast toSize_of_lt (n := b.frameSize + 1) (by omega)
  cases hh : b.headerSize with
  | none =>
      refine ⟨fun _ => ?_, fun hne => absurd rfl hne⟩
      simp only [finishVariableHeader, bind, EStateM.bind, get, getThe, MonadStateOf.get,
        getState_eq, h0, if_false, hh, closed, putSize]
      rw [← hh]
      rfl
  | byte =>
      have harg : (b.pos : Int) - ((b.pos : Int) - b.frameSize - 1) - 1 = b.frameSize := by omega
      have hneed : (b.pos : Int) - b.frameSize - 1 + 1 = (b.pos : Int) - b.frameSize := by omega
      have hlen : b.buffer.length < b.frameSize + 1 ↔ b.buffer.length ≤ b.frameSize := by omega
      simp only [finishVariableHeader, bind, EStateM.bind, get, getThe, MonadStateOf.get,
        getState_eq, h0, if_false, hh, closed, putSize, SizeRefused, VariableHeaderSize.width,
        writeFrameSizeByte, harg, hneed, hoff, hlen]
      constructor
      · intro h
        rw [if_neg (h.resolve_left (by decide))]
        rfl
      · intro _ h
        rw [if_pos h]
        exact ⟨_, rfl⟩
  | short =>
      have harg : (b.pos : Int) - ((b.pos : Int) - b.frameSize - 2) - 2 = b.frameSize := by omega
      have hneed : (b.pos : Int) - b.frameSize - 2 + 2 = (b.pos : Int) - b.frameSize := by omega
      have hlen : b.buffer.length < b.frameSize + 2 ↔ b.buffer.length ≤ b.frameSize + 1 := by omega
      simp only [finishVariableHeader, bind, EStateM.bind, get, getThe, MonadStateOf.get,
        getState_eq, h0, if_false, hh, closed, putSize, SizeRefused, VariableHeaderSize.width,
        writeFrameSizeShort, harg, hneed, hoff, hnext, hlen]
      constructor
      · intro h
        rw [if_neg (h.resolve_left (by decide))]
        rfl
      · intro _ h
        rw [if_pos h]
        exact ⟨_, rfl⟩

/-- A header is refused in bit access only, with its kind stored. -/
theorem headerWith_error {b b' : StreamBuffer} {key : Word} {value : Int}
    {headerSize : VariableHeaderSize} {e : Fault}
    (hrun : WriteOp.headerWith key value headerSize b = .error e b') :
    b' = { b with headerSize } := by
  by_cases hb : b.accessType = .byteAccess
  · obtain ⟨b'', hok, -⟩ := headerWith_ok hb key value headerSize
    rw [hok] at hrun
    cases hrun
  · rw [headerWith_bit hb] at hrun
    cases hrun
    rfl

end StreamBuffer
end AsioRsps
