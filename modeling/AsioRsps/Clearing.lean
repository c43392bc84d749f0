import AsioRsps.AppendOnly

/-!
# Clearing a buffer

`Clear` empties the vector and resets the byte cursor. A buffer that was in byte access with
its bit cursor at the start and no frame open is then a new one, up to the header kind, which
no operation looks at while no frame is open. Whatever else survives shows later.
-/
namespace AsioRsps.StreamBuffer
open BitStrings StateChanges

/-- The public operations that write, with the two that store a frame's size. -/
inductive WriteSide where
  | call (call : Call)
  | frameSizeShort (size : Int)
  | frameSizeByte (size : Int)

def WriteSide.run : WriteSide → StreamM Unit
  | .call c => c.run
  | .frameSizeShort size => writeFrameSizeShort size
  | .frameSizeByte size => writeFrameSizeByte size

/-- What `Send` copies out. -/
def output (b : StreamBuffer) : List Byte := b.buffer.take b.pos

/-! ## The header kind of a closed frame -/

/-- The buffers differ in the header kind only, and not while a frame is open. -/
def SameButKind (b b' : StreamBuffer) : Prop :=
  ∃ headerSize, b' = { b with headerSize } ∧ (b.frameSize = 0 ∨ headerSize = b.headerSize)

theorem SameButKind.refl (b : StreamBuffer) : SameButKind b b := ⟨b.headerSize, rfl, .inr rfl⟩

theorem agrees_writeByte (value : Int) (type : ValueType) :
    Agrees SameButKind (writeByte value type) := by
  rintro b _ ⟨headerSize, rfl, hkind⟩
  by_cases hb : b.accessType = .byteAccess
  · rw [writeByte_byte hb, writeByte_byte (b := { b with headerSize }) hb]
    exact .ok () ⟨headerSize, rfl, hkind⟩
  · rw [writeByte_bit hb, writeByte_bit (b := { b with headerSize }) hb]
    exact .error _ ⟨headerSize, rfl, hkind⟩

theorem agrees_writeBytes (other : StreamBuffer) : Agrees SameButKind (writeBytes other) := by
  rintro b _ ⟨headerSize, rfl, hkind⟩
  have hkind' : SameButKind b { b with headerSize } := ⟨headerSize, rfl, hkind⟩
  by_cases h0 : other.pos = 0
  · simp only [writeBytes, h0, if_true]
    exact .ok () hkind'
  · by_cases hshort : other.buffer.length < other.pos
    · simp only [writeBytes, h0, if_false, bind, EStateM.bind, get, getThe, MonadStateOf.get,
        getState_eq, hshort, if_true]
      exact .error _ hkind'
    · simp only [writeBytes, h0, if_false, bind, EStateM.bind, get, getThe, MonadStateOf.get,
        getState_eq, hshort]
      exact .ok () ⟨headerSize, rfl, hkind⟩

theorem agrees_maskAt (amount : Nat) : Agrees SameButKind (maskAt amount) := by
  rw [maskAt]
  cases bitMask[amount]? with
  | some mask => exact .pure mask
  | none => exact .throw _

theorem agrees_storeBits (index : Nat) (mask bits : Word) :
    Agrees SameButKind (storeBits index mask bits) := by
  rintro b _ ⟨headerSize, rfl, hkind⟩
  simp only [storeBits, bind, EStateM.bind, get, getThe, MonadStateOf.get, getState_eq]
  cases b.buffer[index]? with
  | some old => exact .ok () ⟨headerSize, rfl, hkind⟩
  | none => exact .error _ ⟨headerSize, rfl, hkind⟩

theorem agrees_writeBitsFrom (value : Word) (amount bitOffset bytePos : Nat) :
    Agrees SameButKind (writeBitsFrom value amount bitOffset bytePos) := by
  induction amount, bitOffset, bytePos using writeBitsFrom.induct with
  | case1 amount bitOffset bytePos h ih =>
      rw [writeBitsFrom, dif_pos h]
      exact (agrees_maskAt _).bind fun _ => (agrees_storeBits _ _ _).bind fun _ => ih
  | case2 amount bytePos h =>
      rw [writeBitsFrom, dif_neg h, if_pos rfl]
      exact (agrees_maskAt _).bind fun _ => agrees_storeBits _ _ _
  | case3 amount bitOffset bytePos h hne =>
      rw [writeBitsFrom, dif_neg h, if_neg hne]
      exact (agrees_maskAt _).bind fun _ => agrees_storeBits _ _ _

theorem agrees_writeBits (amount : Nat) (value : Int) :
    Agrees SameButKind (writeBits amount value) := by
  rintro b _ ⟨headerSize, rfl, hkind⟩
  exact agrees_writeBitsFrom (BitVec.ofInt 32 value) amount (8 - b.bitPosition % 8)
    (b.bitPosition / 8) _ _ ⟨headerSize, rfl, hkind⟩

/-- A header sets the kind before anything else. -/
theorem agrees_headerWith (key : Word) (value : Int) (headerSize : VariableHeaderSize) :
    Agrees SameButKind (WriteOp.headerWith key value headerSize) := by
  rintro b _ ⟨kind, rfl, hkind⟩
  exact Alike.refl SameButKind.refl (WriteOp.headerWith key value headerSize b)

theorem agrees_writeFrameSizeShort (size : Int) :
    Agrees SameButKind (writeFrameSizeShort size) := by
  rintro b _ ⟨headerSize, rfl, hkind⟩
  simp only [writeFrameSizeShort, bind, EStateM.bind, get, getThe, MonadStateOf.get, getState_eq]
  split
  · exact .error _ ⟨headerSize, rfl, hkind⟩
  · exact .ok () ⟨headerSize, rfl, hkind⟩

theorem agrees_writeFrameSizeByte (size : Int) :
    Agrees SameButKind (writeFrameSizeByte size) := by
  rintro b _ ⟨headerSize, rfl, hkind⟩
  simp only [writeFrameSizeByte, bind, EStateM.bind, get, getThe, MonadStateOf.get, getState_eq]
  split
  · exact .error _ ⟨headerSize, rfl, hkind⟩
  · exact .ok () ⟨headerSize, rfl, hkind⟩

/-- Without an open frame the kind is not looked at; with one it is the same. -/
theorem agrees_finishVariableHeader : Agrees SameButKind finishVariableHeader := by
  rintro b _ ⟨headerSize, rfl, hkind⟩
  by_cases h0 : b.frameSize = 0
  · rw [finishVariableHeader_none h0, finishVariableHeader_none (b := { b with headerSize }) h0]
    exact .ok () ⟨headerSize, rfl, hkind⟩
  · rw [hkind.resolve_left h0]
    exact Alike.refl SameButKind.refl _

theorem agrees_setAccessType (type : AccessType) : Agrees SameButKind (setAccessType type) := by
  rintro b _ ⟨headerSize, rfl, hkind⟩
  cases type with
  | byteAccess | bitAccess => exact .ok () ⟨headerSize, rfl, hkind⟩

theorem agrees_withKey (key : Word) (op : WriteOp) : Agrees SameButKind (op.withKey key) := by
  have hbytes (h : op.writesBytes) : Agrees SameButKind (op.withKey key) := by
    rcases op.byteLevel h key with hw | ⟨what, hthrow⟩
    · exact hw.agrees agrees_writeByte
    · rw [hthrow]
      exact .throw _
  cases op with
  | byte _ _ | short _ _ _ | int _ _ _ | long _ _ _ | string _ => exact hbytes trivial
  | bytes other => exact agrees_writeBytes other
  | bits amount value => exact agrees_writeBits amount value
  | header value headerSize => exact agrees_headerWith key value headerSize
  | finish => exact agrees_finishVariableHeader
  | access type => exact agrees_setAccessType type

theorem WriteSide.agrees (op : WriteSide) : Agrees SameButKind op.run := by
  cases op with
  | call c =>
      rw [run, c.run_eq]
      exact agrees_withKey _ _
  | frameSizeShort size => exact agrees_writeFrameSizeShort size
  | frameSizeByte size => exact agrees_writeFrameSizeByte size

/-! ## The cursors stay inside the vector -/

/-- Both cursors are inside the vector, or at its end. -/
def Fits (b : StreamBuffer) : Prop :=
  b.pos ≤ b.buffer.length ∧ b.bitPosition ≤ 8 * b.buffer.length

/-- Neither the cursors nor the length of the vector change. -/
def SameSize (b b' : StreamBuffer) : Prop :=
  b'.pos = b.pos ∧ b'.bitPosition = b.bitPosition ∧ b'.buffer.length = b.buffer.length

theorem SameSize.fits {b b' : StreamBuffer} (h : SameSize b b') (hb : b.Fits) : b'.Fits := by
  obtain ⟨hpos, hbits, hlen⟩ := h
  rw [Fits, hpos, hbits, hlen]
  exact hb

theorem Grows.fits {b b' : StreamBuffer} (h : Grows b b') (hb : b.Fits) : b'.Fits := by
  have hlen := h.length
  exact ⟨h.room hb.1, by rw [h.bitCursor]; exact hb.2.trans (Nat.mul_le_mul_left 8 hlen)⟩

theorem GrowsBits.fits {b b' : StreamBuffer} (h : GrowsBits b b') (hb : b.Fits) : b'.Fits :=
  ⟨by rw [h.byteCursor]; exact hb.1.trans h.length, h.room hb.2⟩

theorem Overwrites.sameSize {m : StreamM Unit} (hm : Overwrites m) : Moves SameSize m := by
  intro b
  rcases hm b with ⟨e, herr⟩ | ⟨buffer, hok, hlen⟩
  · rw [after_of_error herr]
    exact ⟨rfl, rfl, rfl⟩
  · rw [after_of_ok hok]
    exact ⟨rfl, rfl, hlen⟩

theorem sameSize_finishVariableHeader : Moves SameSize finishVariableHeader := by
  intro b
  rcases finishVariableHeader_cases b with ⟨-, hok⟩ | ⟨-, ⟨e, herr⟩ | ⟨buffer, hok, hlen⟩⟩
  · rw [after_of_ok hok]
    exact ⟨rfl, rfl, rfl⟩
  · rw [after_of_error herr]
    exact ⟨rfl, rfl, rfl⟩
  · rw [after_of_ok hok]
    exact ⟨rfl, rfl, hlen⟩

/-- Every write keeps the cursors inside the vector. -/
theorem fits_withKey (key : Word) (op : WriteOp) {b : StreamBuffer} (hb : b.Fits) :
    (after (op.withKey key) b).Fits := by
  have hbytes (h : op.writesBytes) : (after (op.withKey key) b).Fits :=
    ((op.byteLevel h key).grows b).fits hb
  cases op with
  | byte _ _ | short _ _ _ | int _ _ _ | long _ _ _ | string _ => exact hbytes trivial
  | bytes other => exact (grows_writeBytes other b).fits hb
  | bits amount value => exact (growsBits_writeBits amount value b).fits hb
  | header value headerSize =>
      cases hrun : WriteOp.headerWith key value headerSize b with
      | ok a b' =>
          obtain ⟨b'', hok, hgrows, -⟩ :=
            headerWith_ok (access_of_header hrun) key value headerSize
          rw [WriteOp.withKey, after_of_ok hok]
          exact hgrows.fits hb
      | error e b' =>
          rw [WriteOp.withKey, after_of_error hrun, headerWith_error hrun]
          exact hb
  | finish => exact (sameSize_finishVariableHeader b).fits hb
  | access type =>
      obtain ⟨hpos, hbits⟩ := hb
      cases type with
      | byteAccess =>
          refine ⟨?_, hbits⟩
          change (b.bitPosition + 7) / 8 ≤ b.buffer.length
          omega
      | bitAccess =>
          refine ⟨hpos, ?_⟩
          change b.pos * 8 ≤ 8 * b.buffer.length
          omega

theorem WriteSide.fits (op : WriteSide) {b : StreamBuffer} (hb : b.Fits) :
    (after op.run b).Fits := by
  cases op with
  | call c =>
      rw [run, c.run_eq]
      exact fits_withKey _ _ hb
  | frameSizeShort size => exact ((overwrites_writeFrameSizeShort size).sameSize b).fits hb
  | frameSizeByte size => exact ((overwrites_writeFrameSizeByte size).sameSize b).fits hb

/-! ## Clearing -/

/-- From both buffers the operations give the same results and the same output, and never move
the cursor past the vector. -/
def Indistinguishable (b b' : StreamBuffer) : Prop :=
  ∀ ops : List WriteSide,
    outcomes (ops.map WriteSide.run) b = outcomes (ops.map WriteSide.run) b' ∧
    (carryOn (ops.map WriteSide.run) b).output = (carryOn (ops.map WriteSide.run) b').output ∧
    (carryOn (ops.map WriteSide.run) b).pos = (carryOn (ops.map WriteSide.run) b').pos ∧
    (carryOn (ops.map WriteSide.run) b).pos ≤ (carryOn (ops.map WriteSide.run) b).buffer.length

theorem indistinguishable_of_sameButKind {b b' : StreamBuffer} (h : SameButKind b b')
    (hb : b.Fits) : Indistinguishable b b' := by
  intro ops
  have hagree : ∀ m ∈ ops.map WriteSide.run, Agrees SameButKind m := by
    intro m hm
    obtain ⟨op, -, rfl⟩ := List.mem_map.mp hm
    exact op.agrees
  have hfits : ∀ m ∈ ops.map WriteSide.run, Moves (fun b b' => b.Fits → b'.Fits) m := by
    intro m hm b
    obtain ⟨op, -, rfl⟩ := List.mem_map.mp hm
    exact op.fits
  obtain ⟨hsame, headerSize, hend, -⟩ := Agrees.outcomes hagree h
  have hend' := Moves.carryOn (fun _ => id) (fun _ _ _ h h' hb => h' (h hb)) hfits b hb
  exact ⟨hsame, by rw [hend]; rfl, by rw [hend], hend'.1⟩

/-- Closing a frame of a buffer that holds nothing is refused. -/
theorem finish_empty {b : StreamBuffer} (h0 : b.frameSize ≠ 0) (hkind : b.headerSize = .short)
    (hempty : b.buffer = []) : outcome finishVariableHeader b ≠ .ok () := by
  have hguard : b.buffer.length ≤
      toSize ((toSize ((b.pos : Int) - ((b.pos : Int) - b.frameSize - 2) - 2) : Int) + 1) := by
    rw [hempty]
    exact Nat.zero_le _
  simp only [outcome, finishVariableHeader, bind, EStateM.bind, get, getThe, MonadStateOf.get,
    getState_eq, h0, if_false, hkind, writeFrameSizeShort, hguard, or_true, if_true]
  intro hok
  cases hok

/-- A frame opened before `Clear`: a refused header sets the kind, and closing is refused. -/
def probe (cipher : ISAACCipher) : List WriteSide :=
  [.call ⟨.access .bitAccess, cipher⟩, .call ⟨.header 0 .short, cipher⟩, .call ⟨.finish, cipher⟩]

theorem outcomes_probe (cipher : ISAACCipher) (b : StreamBuffer) :
    outcomes ((probe cipher).map WriteSide.run) b = [.ok (), .error illegalAccess,
      outcome finishVariableHeader
        { b with accessType := .bitAccess, bitPosition := b.pos * 8, headerSize := .short }] := by
  have hheader := headerWith_bit
    (b := { b with accessType := .bitAccess, bitPosition := b.pos * 8 }) nofun
    cipher.nextKey 0 .short
  simp only [probe, List.map_cons, List.map_nil, WriteSide.run, Call.run_eq, WriteOp.withKey,
    outcomes]
  rw [show after (setAccessType .bitAccess) b =
    { b with accessType := .bitAccess, bitPosition := b.pos * 8 } from rfl, after_of_error hheader,
    outcome, outcome, hheader]
  rfl

/-- `Clear` makes a buffer a new one exactly when byte access, a bit cursor at the start and no
open frame are what it has already. -/
theorem clear_resets_iff (b : StreamBuffer) :
    Indistinguishable (after clear b) (ofSize 0) ↔
      b.accessType = .byteAccess ∧ b.bitPosition = 0 ∧ b.frameSize = 0 := by
  let cipher := ISAACCipher.new #v[0, 0, 0, 0]
  have hclear : after clear b = { b with buffer := [], pos := 0 } := rfl
  rw [hclear]
  constructor
  · intro h
    refine ⟨?_, ?_, ?_⟩
    · by_contra hbit
      obtain ⟨hsame, -⟩ := h [.call ⟨.byte 0 .standard, cipher⟩]
      simp only [List.map_cons, List.map_nil, WriteSide.run, Call.run_eq, WriteOp.withKey,
        outcomes, outcome] at hsame
      rw [writeByte_bit (b := { b with buffer := [], pos := 0 }) hbit] at hsame
      cases hsame
    · obtain ⟨-, -, hpos, -⟩ := h [.call ⟨.access .byteAccess, cipher⟩]
      simp only [List.map_cons, List.map_nil, WriteSide.run, Call.run_eq, WriteOp.withKey] at hpos
      have hpos : (b.bitPosition + 7) / 8 = (0 + 7) / 8 := hpos
      omega
    · by_contra h0
      obtain ⟨hsame, -⟩ := h (probe cipher)
      rw [outcomes_probe, outcomes_probe] at hsame
      have hlast := List.head_eq_of_cons_eq
        (List.tail_eq_of_cons_eq (List.tail_eq_of_cons_eq hsame))
      exact finish_empty (b := { b with
        accessType := .bitAccess, bitPosition := 0, pos := 0, headerSize := .short, buffer := [] })
        h0 rfl rfl hlast
  · rintro ⟨haccess, hbits, hframe⟩
    refine indistinguishable_of_sameButKind ⟨.none, ?_, .inl hframe⟩ ⟨Nat.le_refl _, ?_⟩
    · rw [haccess, hbits, hframe]
      rfl
    · exact Nat.le_of_eq hbits

/-- Bit access survives `Clear`, and the first byte is refused. -/
theorem clear_keeps_bit_access :
    ∃ ops : List WriteSide, let b := after (setAccessType .bitAccess) (ofSize 0)
      outcomes (ops.map WriteSide.run) (after clear b) ≠
        outcomes (ops.map WriteSide.run) (ofSize 0) := by
  refine ⟨[.call ⟨.byte 0 .standard, .new #v[0, 0, 0, 0]⟩], ?_⟩
  simp only [List.map_cons, List.map_nil, WriteSide.run, Call.run_eq, WriteOp.withKey]
  intro hsame
  cases hsame

end AsioRsps.StreamBuffer
