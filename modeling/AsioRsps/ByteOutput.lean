import AsioRsps.BitOutput

/-!
# Byte output and frames

The byte-level companion of `AppendsBits`, the passage between the two access types, and the
life of a frame: `WriteHeader` leaves a gap for the size, `FinishVariableHeader` fills it.
-/
namespace AsioRsps.StreamBuffer
open BitStrings

/-- `bytes` are the bytes before the cursor of a buffer in byte access. -/
structure ByteOutput (b : StreamBuffer) (bytes : List Byte) : Prop where
  access : b.accessType = .byteAccess
  cursor : b.pos = bytes.length
  written : bytes <+: b.buffer

/-- `m`, started in byte access, succeeds, appends `bytes` and leaves the open frame alone. -/
def AppendsBytes (m : StreamM Unit) (bytes : List Byte) : Prop :=
  ∀ b w, ByteOutput b w → ∃ b', m b = .ok () b' ∧ ByteOutput b' (w ++ bytes) ∧
    b'.frameSize = b.frameSize ∧ b'.headerSize = b.headerSize

theorem byteOutput_ofSize (n : Nat) : ByteOutput (ofSize n) [] :=
  ⟨rfl, rfl, List.nil_prefix⟩

/-- What `Send` copies out of a finished buffer. -/
theorem ByteOutput.take {b : StreamBuffer} {bytes : List Byte} (h : ByteOutput b bytes) :
    b.buffer.take b.pos = bytes := by
  obtain ⟨rest, hr⟩ := h.written
  rw [h.cursor, ← hr, List.take_left']
  rfl

theorem appendsBytes_pure : AppendsBytes (pure ()) [] := by
  intro b w h
  exact ⟨b, rfl, by simpa using h, rfl, rfl⟩

theorem AppendsBytes.bind {m n : StreamM Unit} {xs ys : List Byte} (hm : AppendsBytes m xs)
    (hn : AppendsBytes n ys) : AppendsBytes (m >>= fun _ => n) (xs ++ ys) := by
  intro b w h
  obtain ⟨b₁, hrun₁, hout₁, hf₁, hh₁⟩ := hm b w h
  obtain ⟨b₂, hrun₂, hout₂, hf₂, hh₂⟩ := hn b₁ _ hout₁
  refine ⟨b₂, ?_, ?_, hf₂.trans hf₁, hh₂.trans hh₁⟩
  · rw [bind_ok hrun₁, hrun₂]
  · rwa [← List.append_assoc]

theorem AppendsBytes.exec_ofSize {m : StreamM Unit} {bytes : List Byte} (h : AppendsBytes m bytes)
    (n : Nat) : ∃ b, (ofSize n).exec m = .ok ((), b) ∧ ByteOutput b bytes := by
  obtain ⟨b, hrun, hout, -, -⟩ := h _ _ (byteOutput_ofSize n)
  exact ⟨b, by simp only [exec, hrun], hout⟩

theorem prefix_resize {w bs : List Byte} (n : Nat) (h : w <+: bs) (hn : bs.length ≤ n) :
    w <+: resize bs n := by
  rw [resize, List.take_of_length_le hn]
  exact h.trans (List.prefix_append _ _)

theorem prefix_set {w bs : List Byte} (x : Byte) (h : w <+: bs) (hlt : w.length < bs.length) :
    w ++ [x] <+: bs.set w.length x := by
  obtain ⟨rest, rfl⟩ := h
  cases rest with
  | nil => simp at hlt
  | cons y rest =>
      rw [List.set_append_right _ _ (Nat.le_refl _), Nat.sub_self, List.set_cons_zero]
      exact ⟨rest, by simp⟩

theorem appendsBytes_writeByte (value : Int) (type : ValueType) :
    AppendsBytes (writeByte value type) [toByte (writeValue type value)] := by
  intro b w h
  let grown := if b.buffer.length ≤ b.pos then resize b.buffer (b.pos + 1) else b.buffer
  have hgrown : w <+: grown ∧ w.length < grown.length := by
    have hle := h.written.length_le
    simp only [grown]
    split
    · rename_i hfull
      refine ⟨prefix_resize _ h.written (by omega), ?_⟩
      rw [resize_length, h.cursor]
      exact Nat.lt_succ_self _
    · rename_i hroom
      exact ⟨h.written, by rw [← h.cursor]; omega⟩
  let stored := grown.set b.pos (toByte (writeValue type value))
  refine ⟨{ b with buffer := stored, pos := b.pos + 1 }, ?_, ⟨h.access, by simp [h.cursor], ?_⟩,
    rfl, rfl⟩
  · simp only [writeByte, bind, EStateM.bind, get, getThe, MonadStateOf.get, getState_eq, h.access]
    rfl
  · have hp := prefix_set (toByte (writeValue type value)) hgrown.1 hgrown.2
    simpa only [stored, h.cursor] using hp

/-- The two bytes of a big-endian short. -/
def shortBytes (value : Int) : List Byte := [toByte (value >>> (8 : Nat)), toByte value]

theorem appendsBytes_writeShort (value : Int) :
    AppendsBytes (writeShort value) (shortBytes value) :=
  (appendsBytes_writeByte _ _).bind (appendsBytes_writeByte _ _)

theorem appendsBytes_writeShortA (value : Int) :
    AppendsBytes (writeShort value .a) [toByte (value >>> (8 : Nat)), toByte (value + 128)] :=
  (appendsBytes_writeByte _ _).bind (appendsBytes_writeByte _ _)

/-- The eight bytes of a big-endian long. -/
def longBytes (value : Int) : List Byte :=
  [toByte (value >>> (56 : Nat)), toByte (value >>> (48 : Nat)), toByte (value >>> (40 : Nat)),
    toByte (value >>> (32 : Nat)), toByte (value >>> (24 : Nat)), toByte (value >>> (16 : Nat)),
    toByte (value >>> (8 : Nat)), toByte value]

theorem appendsBytes_writeLong (value : Int) :
    AppendsBytes (writeLong value .standard .big) (longBytes value) :=
  (appendsBytes_writeByte _ _).bind <| (appendsBytes_writeByte _ _).bind <|
  (appendsBytes_writeByte _ _).bind <| (appendsBytes_writeByte _ _).bind <|
  (appendsBytes_writeByte _ _).bind <| (appendsBytes_writeByte _ _).bind <|
  (appendsBytes_writeByte _ _).bind (appendsBytes_writeByte _ _)

theorem toByte_toNat (c : Byte) : toByte (c.toNat : Int) = c := by
  rw [toByte, BitVec.ofInt_natCast, BitVec.ofNat_toNat, BitVec.setWidth_eq]

theorem writeString_cons (c : Byte) (string : List Byte) :
    writeString (c :: string) = (writeByte c.toNat >>= fun _ => writeString string) := by
  funext b
  simp only [writeString, bind, EStateM.bind, List.forM]
  cases writeByte (c.toNat : Int) .standard b <;> rfl

/-- A string is its bytes and a newline. -/
theorem appendsBytes_writeString (string : List Byte) :
    AppendsBytes (writeString string) (string ++ [10]) := by
  induction string with
  | nil => exact appendsBytes_pure.bind (appendsBytes_writeByte 10 .standard)
  | cons c string ih =>
      have hc := appendsBytes_writeByte c.toNat .standard
      rw [show writeValue .standard (c.toNat : Int) = c.toNat from rfl, toByte_toNat] at hc
      rw [writeString_cons]
      exact hc.bind ih

/-- `WriteBytes` copies exactly what was written to the other buffer. -/
theorem appendsBytes_writeBytes {other : StreamBuffer} {bytes : List Byte}
    (ho : ByteOutput other bytes) : AppendsBytes (writeBytes other) bytes := by
  intro b w h
  by_cases h0 : other.pos = 0
  · have hb : bytes = [] := List.eq_nil_of_length_eq_zero (by rw [← ho.cursor, h0])
    refine ⟨b, ?_, by simpa [hb] using h, rfl, rfl⟩
    simp only [writeBytes, h0, if_true]
    rfl
  · let grown := if b.buffer.length < b.pos + other.pos
      then resize b.buffer (b.pos + other.pos + defaultBufferSize) else b.buffer
    have hgrown : w <+: grown := by
      simp only [grown]
      split
      · exact prefix_resize _ h.written (by omega)
      · exact h.written
    have hfit : ¬ other.buffer.length < other.pos := by
      have := ho.written.length_le
      rw [ho.cursor]
      omega
    refine ⟨{ b with
      buffer := grown.take b.pos ++ other.buffer.take other.pos ++ grown.drop (b.pos + other.pos)
      pos := b.pos + other.pos }, ?_, ⟨h.access, ?_, ?_⟩, rfl, rfl⟩
    · simp only [writeBytes, h0, if_false, bind, EStateM.bind, get, getThe, MonadStateOf.get,
        getState_eq, hfit]
      rfl
    · simp [h.cursor, ho.cursor]
    · obtain ⟨rest, hr⟩ := hgrown
      rw [ho.take, ← hr, h.cursor, List.take_left' rfl]
      exact List.prefix_append _ _

/-! ## Changing the access type -/

theorem setAccessType_bit {b : StreamBuffer} {w : List Byte} (h : ByteOutput b w) :
    ∃ b', setAccessType .bitAccess b = .ok () b' ∧ BitOutput b' (bytesBits w) ∧
      b'.frameSize = b.frameSize ∧ b'.headerSize = b.headerSize := by
  refine ⟨_, rfl, ⟨rfl, ?_, ?_⟩, rfl, rfl⟩
  · rw [bytesBits_length, ← h.cursor]
    exact Nat.mul_comm _ _
  · obtain ⟨rest, hr⟩ := h.written
    change bytesBits w <+: bytesBits b.buffer
    rw [← hr, bytesBits_append]
    exact List.prefix_append _ _

/-- Back in byte access the bits written are padded to whole bytes. -/
theorem setAccessType_byte {b : StreamBuffer} {bits : List Bool} (h : BitOutput b bits) :
    ∃ b' bytes pad, setAccessType .byteAccess b = .ok () b' ∧ ByteOutput b' bytes ∧
      bytesBits bytes = bits ++ pad ∧ pad.length < 8 ∧
      b'.frameSize = b.frameSize ∧ b'.headerSize = b.headerSize := by
  let n := (b.bitPosition + 7) / 8
  have hle : bits.length ≤ 8 * b.buffer.length := by
    have := h.written.length_le
    rwa [bytesBits_length] at this
  have hn : n ≤ b.buffer.length := by
    have := h.cursor
    omega
  obtain ⟨rest, hr⟩ := h.written
  refine ⟨_, b.buffer.take n, rest.take (8 * n - bits.length), rfl, ⟨rfl, ?_, ?_⟩, ?_, ?_, rfl, rfl⟩
  · rw [List.length_take, Nat.min_eq_left hn]
  · exact List.take_prefix _ _
  · rw [bytesBits_take, ← hr, List.take_append, List.take_of_length_le]
    have := h.cursor
    omega
  · rw [List.length_take]
    have := h.cursor
    omega

/-! ## Frames -/

theorem onBuffer_ok {m : StreamM Unit} {b b' : StreamBuffer} (cipher : ISAACCipher)
    (h : m b = .ok () b') : onBuffer m (b, cipher) = .ok () (b', cipher) := by
  simp only [onBuffer, h]

/-- The opcode byte of a frame. -/
def opcodeByte (opcode : Int) (cipher : ISAACCipher) : Byte :=
  toByte (opcode + cipher.nextKey.toNat)

/-- A fixed header draws one key and writes one byte. -/
theorem writeHeader_none (n : Nat) (opcode : Int) (cipher : ISAACCipher) :
    ∃ b, writeHeader opcode .none (ofSize n, cipher) = .ok () (b, cipher.getNextKey.2) ∧
      ByteOutput b [opcodeByte opcode cipher] := by
  have h0 : ByteOutput { ofSize n with headerSize := .none } [] := byteOutput_ofSize n
  obtain ⟨b₁, hrun₁, hout₁, -, -⟩ := appendsBytes_writeByte (opcode + cipher.nextKey.toNat)
    .standard _ _ h0
  refine ⟨b₁, ?_, hout₁⟩
  simp only [writeHeader, bind, EStateM.bind, modify, modifyGet, MonadStateOf.modifyGet,
    modifyGetState_eq, onBuffer_ok _ hrun₁, pure, EStateM.pure]

/-- A header with a one-byte size leaves one zero byte for it. -/
theorem writeHeader_byte (n : Nat) (opcode : Int) (cipher : ISAACCipher) :
    ∃ b, writeHeader opcode .byte (ofSize n, cipher) = .ok () (b, cipher.getNextKey.2) ∧
      ByteOutput b [opcodeByte opcode cipher, 0] ∧ b.frameSize = 1 ∧ b.headerSize = .byte := by
  have h0 : ByteOutput { ofSize n with headerSize := .byte } [] := ⟨rfl, rfl, List.nil_prefix⟩
  obtain ⟨b₁, hrun₁, hout₁, -, hh₁⟩ := appendsBytes_writeByte (opcode + cipher.nextKey.toNat)
    .standard _ _ h0
  have h1 : ByteOutput { b₁ with frameSize := b₁.pos } [opcodeByte opcode cipher] :=
    ⟨hout₁.access, hout₁.cursor, hout₁.written⟩
  obtain ⟨b₂, hrun₂, hout₂, hf₂, hh₂⟩ := appendsBytes_writeByte 0 .standard _ _ h1
  refine ⟨b₂, ?_, hout₂, hf₂.trans hout₁.cursor, hh₂.trans hh₁⟩
  simp only [writeHeader, bind, EStateM.bind, modify, modifyGet, MonadStateOf.modifyGet,
    modifyGetState_eq, onBuffer_ok _ hrun₁]
  simp only [onBuffer, modifyGetState_eq, hrun₂]

/-- A header with a two-byte size leaves two zero bytes for it. -/
theorem writeHeader_short (n : Nat) (opcode : Int) (cipher : ISAACCipher) :
    ∃ b, writeHeader opcode .short (ofSize n, cipher) = .ok () (b, cipher.getNextKey.2) ∧
      ByteOutput b [opcodeByte opcode cipher, 0, 0] ∧ b.frameSize = 1 ∧ b.headerSize = .short := by
  have h0 : ByteOutput { ofSize n with headerSize := .short } [] := ⟨rfl, rfl, List.nil_prefix⟩
  obtain ⟨b₁, hrun₁, hout₁, -, hh₁⟩ := appendsBytes_writeByte (opcode + cipher.nextKey.toNat)
    .standard _ _ h0
  have h1 : ByteOutput { b₁ with frameSize := b₁.pos } [opcodeByte opcode cipher] :=
    ⟨hout₁.access, hout₁.cursor, hout₁.written⟩
  obtain ⟨b₂, hrun₂, hout₂, hf₂, hh₂⟩ := appendsBytes_writeShort 0 _ _ h1
  refine ⟨b₂, ?_, hout₂, hf₂.trans hout₁.cursor, hh₂.trans hh₁⟩
  simp only [writeHeader, bind, EStateM.bind, modify, modifyGet, MonadStateOf.modifyGet,
    modifyGetState_eq, onBuffer_ok _ hrun₁]
  simp only [onBuffer, modifyGetState_eq, hrun₂]

theorem toSize_of_lt {n : Nat} (h : n < 2 ^ 64) : toSize n = n := by
  rw [toSize, BitVec.ofInt_natCast, BitVec.toNat_ofNat, Nat.mod_eq_of_lt h]

/-- Closing a frame with a one-byte size stores the size in front of the payload. -/
theorem finishVariableHeader_byte {b : StreamBuffer} {pre body : List Byte} {gap : Byte}
    (h : ByteOutput b (pre ++ gap :: body)) (hpre : pre ≠ []) (hf : b.frameSize = pre.length)
    (hh : b.headerSize = .byte) (hsmall : (pre ++ gap :: body).length < 2 ^ 31) :
    ∃ b', finishVariableHeader b = .ok () b' ∧
      ByteOutput b' (pre ++ toByte body.length :: body) := by
  have hlen := h.cursor
  simp only [List.length_append, List.length_cons] at hlen hsmall
  have hpos : pre.length ≠ 0 := fun h0 => hpre (List.eq_nil_of_length_eq_zero h0)
  have hsize : ((b.pos : Int) - (b.frameSize : Int) - 1) = (body.length : Int) := by
    rw [hf, hlen]; push_cast; ring
  have hoff : toSize ((b.pos : Int) - (body.length : Int) - 1) = pre.length := by
    rw [show (b.pos : Int) - (body.length : Int) - 1 = (pre.length : Int)
      by rw [hlen]; push_cast; ring]
    exact toSize_of_lt (by omega)
  have hneed : toSize ((body.length : Int) + 1) = body.length + 1 := by
    exact_mod_cast toSize_of_lt (n := body.length + 1) (by omega)
  obtain ⟨rest, hr⟩ := h.written
  have hbuf : pre.length < b.buffer.length := by rw [← hr]; simp
  have hframe : b.frameSize ≠ 0 := by rw [hf]; exact hpos
  refine ⟨{ b with buffer := b.buffer.set pre.length (toByte body.length), frameSize := 0 }, ?_, ?_⟩
  · have hguard : ¬ (b.pos < body.length + 1 ∨ b.buffer.length ≤ pre.length) := by omega
    simp only [finishVariableHeader, bind, EStateM.bind, get, getThe, MonadStateOf.get, getState_eq,
      hframe, if_false, hh, hsize, writeFrameSizeByte, hoff, hneed, hguard]
    rfl
  · refine ⟨h.access, by simp [h.cursor], ⟨rest, ?_⟩⟩
    change _ = b.buffer.set pre.length _
    rw [← hr]
    simp

/-- Closing a frame with a two-byte size. -/
theorem finishVariableHeader_short {b : StreamBuffer} {pre body : List Byte} {g₁ g₂ : Byte}
    (h : ByteOutput b (pre ++ g₁ :: g₂ :: body)) (hpre : pre ≠ []) (hf : b.frameSize = pre.length)
    (hh : b.headerSize = .short) (hsmall : (pre ++ g₁ :: g₂ :: body).length < 2 ^ 31) :
    ∃ b', finishVariableHeader b = .ok () b' ∧
      ByteOutput b' (pre ++ shortBytes body.length ++ body) := by
  have hlen := h.cursor
  simp only [List.length_append, List.length_cons] at hlen hsmall
  have hpos : pre.length ≠ 0 := fun h0 => hpre (List.eq_nil_of_length_eq_zero h0)
  have hsize : ((b.pos : Int) - (b.frameSize : Int) - 2) = (body.length : Int) := by
    rw [hf, hlen]; push_cast; ring
  have hoff : toSize ((b.pos : Int) - (body.length : Int) - 2) = pre.length := by
    rw [show (b.pos : Int) - (body.length : Int) - 2 = (pre.length : Int)
      by rw [hlen]; push_cast; ring]
    exact toSize_of_lt (by omega)
  have hneed : toSize ((body.length : Int) + 2) = body.length + 2 := by
    exact_mod_cast toSize_of_lt (n := body.length + 2) (by omega)
  have hnext : toSize ((pre.length : Int) + 1) = pre.length + 1 := by
    exact_mod_cast toSize_of_lt (n := pre.length + 1) (by omega)
  obtain ⟨rest, hr⟩ := h.written
  have hbuf : pre.length + 1 < b.buffer.length := by rw [← hr]; simp
  have hframe : b.frameSize ≠ 0 := by rw [hf]; exact hpos
  let sized := (b.buffer.set pre.length (toByte ((body.length : Int) >>> (8 : Nat)))).set
    (pre.length + 1)
    (toByte body.length)
  refine ⟨{ b with buffer := sized, frameSize := 0 }, ?_, ?_⟩
  · have hguard : ¬ (b.pos < body.length + 2 ∨ b.buffer.length ≤ pre.length + 1) := by omega
    simp only [finishVariableHeader, bind, EStateM.bind, get, getThe, MonadStateOf.get, getState_eq,
      hframe, if_false, hh, hsize, writeFrameSizeShort, hoff, hneed, hnext, hguard]
    rfl
  · refine ⟨h.access, by simp [h.cursor, shortBytes], ⟨rest, ?_⟩⟩
    change _ = sized
    simp only [sized]
    rw [← hr]
    simp [shortBytes, List.set_append_right]

end AsioRsps.StreamBuffer
