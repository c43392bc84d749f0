import AsioRsps.ByteOutput
import AsioRsps.PrefixReader

/-!
# Bit sections

A section of `WriteBits` calls between two changes of the access type. The fields can be cut
off again in order from where the section began, no other bit of the buffer changes, and the
cursor ends behind the last byte the section reaches.
-/
namespace AsioRsps.StreamBuffer
open BitStrings PrefixReader

/-! ## What a section leaves alone -/

/-- The computation succeeds, moves the bit cursor `n` bits on and changes no bit outside
those; a buffer never gets shorter. -/
def FramesBits (m : StreamM Unit) (n : Nat) : Prop :=
  ∀ b, ∃ b', m b = .ok () b' ∧ b'.bitPosition = b.bitPosition + n ∧
    b.buffer.length ≤ b'.buffer.length ∧
    ∀ i, i < b.bitPosition ∨ b.bitPosition + n ≤ i → bitAt b'.buffer i = bitAt b.buffer i

theorem framesBits_pure : FramesBits (pure ()) 0 := fun b =>
  ⟨b, rfl, rfl, Nat.le_refl _, fun _ _ => rfl⟩

theorem FramesBits.bind {m m' : StreamM Unit} {n n' : Nat} (hm : FramesBits m n)
    (hm' : FramesBits m' n') : FramesBits (m >>= fun _ => m') (n + n') := by
  intro b
  obtain ⟨b₁, hrun₁, hpos₁, hlen₁, hsame₁⟩ := hm b
  obtain ⟨b₂, hrun₂, hpos₂, hlen₂, hsame₂⟩ := hm' b₁
  refine ⟨b₂, by rw [bind_ok hrun₁, hrun₂], by omega, Nat.le_trans hlen₁ hlen₂, ?_⟩
  intro i hi
  rw [hsame₂ i (by omega), hsame₁ i (by omega)]

theorem framesBits_writeBits {amount : Nat} (value : Int) (hpos : 0 < amount) (ha : amount ≤ 32) :
    FramesBits (writeBits amount value) amount := by
  intro b
  obtain ⟨buffer, hrun, -, hlen, hbits⟩ := writeBits_ok b amount value hpos ha
  refine ⟨_, hrun, rfl, hlen, ?_⟩
  intro i hi
  change bitAt buffer i = _
  rw [hbits i, if_neg (by omega)]

/-! ## The fields of a section -/

/-- A field is how many bits of a value are written, and the value. -/
abbrev BitField := Nat × Word

variable {fields : List BitField}

def writeBitFields : List BitField → StreamM Unit
  | [] => pure ()
  | (amount, value) :: fields => do
      writeBits amount value.toInt
      writeBitFields fields

def totalBits (fields : List BitField) : Nat := (fields.map Prod.fst).sum

/-- The bits of the fields in order. -/
def sectionBits (fields : List BitField) : List Bool :=
  fields.flatMap fun field => fieldBits field.1 field.2.toInt

theorem framesBits_writeBitFields (h : ∀ field ∈ fields, 1 ≤ field.1 ∧ field.1 ≤ 32) :
    FramesBits (writeBitFields fields) (totalBits fields) := by
  induction fields with
  | nil => exact framesBits_pure
  | cons field fields ih =>
      obtain ⟨⟨hpos, ha⟩, hfields⟩ := List.forall_mem_cons.mp h
      exact (framesBits_writeBits field.2.toInt hpos ha).bind (ih hfields)

theorem appendsBits_writeBitFields (h : ∀ field ∈ fields, 1 ≤ field.1 ∧ field.1 ≤ 32) :
    AppendsBits (writeBitFields fields) (sectionBits fields) := by
  induction fields with
  | nil => exact appendsBits_pure
  | cons field fields ih =>
      obtain ⟨⟨hpos, ha⟩, hfields⟩ := List.forall_mem_cons.mp h
      exact (appendsBits_writeBits _ field.2.toInt hpos ha).bind (ih hfields)

/-! ## Cutting the fields off again -/

/-- Fields of the given widths, each read as an unsigned number. -/
def takeFields : List Nat → Reader Bool (List Nat)
  | [] => pure []
  | width :: widths => do
      let value ← takeBits width
      let values ← takeFields widths
      return value :: values

theorem reads_fieldBits_word (amount : Nat) (ha : amount ≤ 32) (value : Word) :
    Reads (takeBits amount) (fieldBits amount value.toInt) (value.toNat % 2 ^ amount) := by
  have hword : (value.toInt % 2 ^ 32).toNat = value.toNat := by
    have h : (BitVec.ofInt 32 value.toInt).toNat = (value.toInt % 2 ^ 32).toNat :=
      BitVec.toNat_ofInt _
    rw [← h, BitVec.ofInt_toInt]
  intro rest
  rw [fieldBits, ← emod_two_pow_toNat amount _ ha, hword, takeBits_append, Nat.mod_mod]

theorem reads_takeFields (h : ∀ field ∈ fields, 1 ≤ field.1 ∧ field.1 ≤ 32) :
    Reads (takeFields (fields.map Prod.fst)) (sectionBits fields)
      (fields.map fun field => field.2.toNat % 2 ^ field.1) := by
  induction fields with
  | nil => exact reads_pure []
  | cons field fields ih =>
      obtain ⟨⟨-, ha⟩, hfields⟩ := List.forall_mem_cons.mp h
      have hrest := (ih hfields).map (field.2.toNat % 2 ^ field.1 :: ·)
      exact Reads.bind (f := fun value => takeFields (fields.map Prod.fst) >>= fun values =>
        pure (value :: values)) (reads_fieldBits_word field.1 ha field.2) hrest

/-! ## The section -/

/-- The fields between `SetAccessType(BIT_ACCESS)` and `SetAccessType(BYTE_ACCESS)`. -/
def bitSection (fields : List BitField) : StreamM Unit := do
  setAccessType .bitAccess
  writeBitFields fields
  setAccessType .byteAccess

/-- The bits read from the start of a section are the fields in order, all other bits are as
before (zero in the bytes a section adds), and the cursor is on the next whole byte. -/
theorem bitSection_roundTrip (b : StreamBuffer) (fields : List BitField)
    (hstart : b.pos ≤ b.buffer.length) (hfields : ∀ field ∈ fields, 1 ≤ field.1 ∧ field.1 ≤ 32)
    (hsize : b.pos + (totalBits fields + 7) / 8 < 2 ^ 28) :
    ∃ b', bitSection fields b = .ok () b' ∧ b'.accessType = .byteAccess ∧
      (∃ rest, takeFields (fields.map Prod.fst) ((bytesBits b'.buffer).drop (8 * b.pos)) =
        some (fields.map fun field => field.2.toNat % 2 ^ field.1, rest)) ∧
      (∀ i, i < 8 * b.pos ∨ 8 * b.pos + totalBits fields ≤ i →
        bitAt b'.buffer i = bitAt b.buffer i) ∧
      b'.pos = b.pos + (totalBits fields + 7) / 8 ∧
      b'.pos ≤ b'.buffer.length ∧ b'.bitPosition < 2 ^ 31 := by
  let opened := { b with accessType := .bitAccess, bitPosition := b.pos * 8 }
  have hopened : BitOutput opened (bytesBits (b.buffer.take b.pos)) := by
    refine ⟨rfl, ?_, ?_⟩
    · rw [bytesBits_length, List.length_take, Nat.min_eq_left hstart, Nat.mul_comm]
    · rw [bytesBits_take]
      exact List.take_prefix _ _
  obtain ⟨closed, hrun, hout, -, -⟩ := appendsBits_writeBitFields hfields opened _ hopened
  obtain ⟨closed', hrun', hpos, hlen, hsame⟩ := framesBits_writeBitFields hfields opened
  obtain rfl := (EStateM.Result.ok.inj (hrun.symm.trans hrun')).2
  change closed.bitPosition = b.pos * 8 + totalBits fields at hpos
  have hend : (b.pos * 8 + totalBits fields + 7) / 8 = b.pos + (totalBits fields + 7) / 8 := by
    omega
  have hreach : closed.bitPosition ≤ 8 * closed.buffer.length := by
    have h := hout.written.length_le
    rwa [← hout.cursor, bytesBits_length] at h
  refine ⟨{ closed with accessType := .byteAccess, pos := (closed.bitPosition + 7) / 8 }, ?_, rfl,
    ?_, ?_, ?_, ?_, ?_⟩
  · have hopen : setAccessType .bitAccess b = .ok () opened := rfl
    rw [bitSection, bind_ok hopen, bind_ok hrun]
    rfl
  · obtain ⟨rest, hr⟩ := hout.written
    have hdrop : (bytesBits closed.buffer).drop (8 * b.pos) = sectionBits fields ++ rest := by
      rw [← hr, List.append_assoc]
      apply List.drop_left'
      rw [bytesBits_length, List.length_take, Nat.min_eq_left hstart]
    exact ⟨rest, by rw [hdrop]; exact reads_takeFields hfields rest⟩
  · intro i hi
    exact hsame i (by change i < b.pos * 8 ∨ b.pos * 8 + _ ≤ i; omega)
  · change (closed.bitPosition + 7) / 8 = _
    rw [hpos, hend]
  · change (closed.bitPosition + 7) / 8 ≤ closed.buffer.length
    omega
  · change closed.bitPosition < 2 ^ 31
    omega

/-- Three fields after the first of two bytes, the last of them a negative word. -/
theorem bitSection_roundTrip_three :
    ∃ b', bitSection [(3, 5), (11, 2047), (32, -1)] { buffer := [0x55, 0x55], pos := 1 } =
        .ok () b' ∧ b'.accessType = .byteAccess ∧
      (∃ rest, takeFields [3, 11, 32] ((bytesBits b'.buffer).drop 8) =
        some ([5, 2047, 4294967295], rest)) ∧
      (∀ i, i < 8 ∨ 54 ≤ i → bitAt b'.buffer i = bitAt [0x55, 0x55] i) ∧
      b'.pos = 7 ∧ b'.pos ≤ b'.buffer.length ∧ b'.bitPosition < 2 ^ 31 :=
  bitSection_roundTrip { buffer := [0x55, 0x55], pos := 1 } [(3, 5), (11, 2047), (32, -1)]
    (by decide) (by decide) (by decide)

end AsioRsps.StreamBuffer
