import AsioRsps.BufferGrowth
import AsioRsps.TypedFields

/-!
# Frames with a size field

A frame with a size field around any payload: byte-level writes, other buffers appended, and
bit sections that return to byte access. None of them touches what the header has stored, and
all of them leave the cursor behind the size field, so the offset that is found again when the
frame is closed is the one the header left.
-/
namespace AsioRsps.StreamBuffer
open BitStrings StateChanges

/-- A part of a frame's payload. -/
inductive Part where
  | write (field : Field)
  | append (other : StreamBuffer)
  | bits (fields : List (Nat × Int))

def Part.run : Part → StreamM Unit
  | .write field => field.write
  | .append other => writeBytes other
  | .bits fields => do
      setAccessType .bitAccess
      fields.forM fun (amount, value) => writeBits amount value
      setAccessType .byteAccess

/-- Parts written one after another; the writer may catch what a part throws and go on. -/
inductive Written : StreamBuffer → List Part → StreamBuffer → Prop where
  | nil {b : StreamBuffer} : Written b [] b
  | done {b b' b'' : StreamBuffer} {part : Part} {parts : List Part} :
      part.run b = .ok () b' → Written b' parts b'' → Written b (part :: parts) b''
  | thrown {b b' b'' : StreamBuffer} {part : Part} {parts : List Part} {e : Fault} :
      part.run b = .error e b' → e.isException → Written b' parts b'' →
      Written b (part :: parts) b''

/-- What every part does to a buffer in byte access. -/
structure Carries (b b' : StreamBuffer) : Prop where
  access : b'.accessType = .byteAccess
  frame : SameFrame b b'
  cursor : b.pos ≤ b'.pos
  length : b.buffer.length ≤ b'.buffer.length

theorem Carries.refl {b : StreamBuffer} (h : b.accessType = .byteAccess) : Carries b b :=
  ⟨h, .refl b, Nat.le_refl _, Nat.le_refl _⟩

theorem Carries.trans {b b' b'' : StreamBuffer} (h : Carries b b') (h' : Carries b' b'') :
    Carries b b'' :=
  ⟨h'.access, .trans _ _ _ h.frame h'.frame, h.cursor.trans h'.cursor, h.length.trans h'.length⟩

theorem carries_of_grows {b b' : StreamBuffer} (hb : b.accessType = .byteAccess) (h : Grows b b')
    (hframe : SameFrame b b') : Carries b b' :=
  ⟨h.access.trans hb, hframe, h.cursor, h.length⟩

theorem Field.byteLevel (field : Field) : ByteLevel field.write := by
  cases field with
  | byte value type => exact .inl (.byte _ _)
  | short value type order => exact byteLevel_writeShort _ _ _
  | int value type order => exact .inl (writes_writeInt _ _ _)
  | long value type order => exact byteLevel_writeLong _ _ _
  | string chars => exact .inl (writes_writeString chars)

theorem growsBits_section (fields : List (Nat × Int)) :
    Moves GrowsBits (fields.forM fun (amount, value) => writeBits amount value) := by
  induction fields with
  | nil => exact GrowsBits.refl
  | cons field fields ih =>
      exact (growsBits_writeBits field.1 field.2).bind GrowsBits.trans fun _ => ih

theorem failsWith_section (fields : List (Nat × Int)) :
    FailsWith (· = .outOfBounds) (fields.forM fun (amount, value) => writeBits amount value) := by
  induction fields with
  | nil => exact nofun
  | cons field fields ih => exact (failsWith_writeBits field.1 field.2).bind fun _ => ih

/-- A bit section ends in byte access, with the byte cursor behind the bits. -/
theorem carries_section (fields : List (Nat × Int)) (b : StreamBuffer) :
    (∃ b', (Part.bits fields).run b = .ok () b' ∧ Carries b b') ∨
      ∃ b', (Part.bits fields).run b = .error .outOfBounds b' := by
  let b₁ : StreamBuffer := { b with accessType := .bitAccess, bitPosition := b.pos * 8 }
  let writes : StreamM PUnit := fields.forM fun (amount, value) => writeBits amount value
  have hgrows : GrowsBits b₁ (after writes b₁) := growsBits_section fields b₁
  have hrun : (Part.bits fields).run b = (writes >>= fun _ => setAccessType .byteAccess) b₁ := rfl
  cases hw : writes b₁ with
  | error e b' =>
      have he := failsWith_section fields b₁ e b' hw
      exact .inr ⟨b', hrun.trans ((bind_of_error hw).trans (by rw [he]))⟩
  | ok a b₂ =>
      rw [after_of_ok hw] at hgrows
      refine .inl ⟨{ b₂ with accessType := .byteAccess, pos := (b₂.bitPosition + 7) / 8 },
        hrun.trans ((bind_of_ok hw).trans rfl), rfl, hgrows.frame, ?_, hgrows.length⟩
      have hcursor : b.pos * 8 ≤ b₂.bitPosition := hgrows.cursor
      change b.pos ≤ (b₂.bitPosition + 7) / 8
      omega

theorem Part.carries {part : Part} {b b' : StreamBuffer} (hb : b.accessType = .byteAccess)
    (hrun : part.run b = .ok () b' ∨ ∃ e, part.run b = .error e b' ∧ e.isException) :
    Carries b b' := by
  have hafter : after part.run b = b' := by
    rcases hrun with hok | ⟨e, herr, -⟩
    · exact after_of_ok hok
    · exact after_of_error herr
  cases part with
  | write field =>
      rw [← hafter]
      exact carries_of_grows hb (field.byteLevel.grows b) (field.byteLevel.sameFrame b)
  | append other =>
      rw [← hafter]
      exact carries_of_grows hb (grows_writeBytes other b) (sameFrame_writeBytes other b)
  | bits fields =>
      rcases carries_section fields b with ⟨b₁, hok, hcarries⟩ | ⟨b₁, hub⟩
      · rwa [← hafter, after_of_ok hok]
      · rcases hrun with hok | ⟨e, herr, he⟩
        · rw [hub] at hok
          cases hok
        · rw [hub] at herr
          cases herr
          exact he.elim

theorem Written.carries {b b' : StreamBuffer} {parts : List Part} (h : Written b parts b')
    (hb : b.accessType = .byteAccess) : Carries b b' := by
  induction h with
  | nil => exact .refl hb
  | done hrun _ ih =>
      have hfirst := Part.carries hb (.inl hrun)
      exact hfirst.trans (ih hfirst.access)
  | thrown hrun he _ ih =>
      have hfirst := Part.carries hb (.inr ⟨_, hrun, he⟩)
      exact hfirst.trans (ih hfirst.access)

/-- Appended buffers hold what their cursor announces, and bit fields fit a word. -/
def Part.Sound : Part → Prop
  | .write _ => True
  | .append other => other.pos ≤ other.buffer.length
  | .bits fields => ∀ field ∈ fields, 0 < field.1 ∧ field.1 ≤ 32

theorem exists_section {fields : List (Nat × Int)}
    (h : ∀ field ∈ fields, 0 < field.1 ∧ field.1 ≤ 32) (b : StreamBuffer) :
    ∃ a b', (fields.forM fun (amount, value) => writeBits amount value : StreamM PUnit) b =
      .ok a b' := by
  induction fields generalizing b with
  | nil => exact ⟨⟨⟩, b, rfl⟩
  | cons field fields ih =>
      obtain ⟨hpos, hle⟩ := h field List.mem_cons_self
      obtain ⟨buffer, hfirst, -⟩ := writeBits_ok b field.1 field.2 hpos hle
      obtain ⟨a, b', hrest⟩ := ih (fun f hf => h f (List.mem_cons_of_mem _ hf))
        { b with buffer, bitPosition := b.bitPosition + field.1 }
      exact ⟨a, b', (bind_of_ok hfirst).trans hrest⟩

/-- Sound parts can be written after anything. -/
theorem exists_written {parts : List Part} (h : ∀ part ∈ parts, part.Sound) {b : StreamBuffer}
    (hb : b.accessType = .byteAccess) : ∃ b', Written b parts b' := by
  induction parts generalizing b with
  | nil => exact ⟨b, .nil⟩
  | cons part parts ih =>
      have ih := fun {b : StreamBuffer} => @ih (fun p hp => h p (List.mem_cons_of_mem _ hp)) b
      have hsound := h part List.mem_cons_self
      have go {b₁ : StreamBuffer} (hrun : part.run b = .ok () b₁) :
          ∃ b', Written b (part :: parts) b' := by
        obtain ⟨b', hrest⟩ := ih (Part.carries hb (.inl hrun)).access
        exact ⟨b', .done hrun hrest⟩
      cases part with
      | write field =>
          rcases field.byteLevel with hw | ⟨what, hthrow⟩
          · obtain ⟨a, b₁, hrun, -⟩ := hw.guarded.succeeds b hb
            exact go hrun
          · have hrun : (Part.write field).run b = .error (.invalidArgument what) b := by
              rw [Part.run, hthrow]
              rfl
            obtain ⟨b', hrest⟩ := ih hb
            exact ⟨b', .thrown hrun trivial hrest⟩
      | append other =>
          rcases writeBytes_cases other b with ⟨-, hrun⟩ | ⟨-, hshort, -⟩ | ⟨-, -, hrun⟩
          · exact go hrun
          · exact absurd hsound (Nat.not_le_of_lt hshort)
          · exact go hrun
      | bits fields =>
          obtain ⟨a, b₁, hrun⟩ := exists_section hsound
            { b with accessType := .bitAccess, bitPosition := b.pos * 8 }
          exact go ((bind_of_ok rfl).trans ((bind_of_ok hrun).trans rfl))

/-! ## The size field -/

theorem toByte_natCast_toNat (n : Nat) : (toByte (n : Int)).toNat = n % 256 := by
  rw [toByte, BitVec.ofInt_natCast, BitVec.toNat_ofNat]

end AsioRsps.StreamBuffer
