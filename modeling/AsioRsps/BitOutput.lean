import AsioRsps.StreamBuffer

/-!
# Bit output

What `WriteBits` does to a buffer, bit by bit, and the calculus the frame writers are
verified in: `AppendsBits m bits` says that `m`, started in bit access, succeeds and appends
exactly `bits`. It composes along sequencing, so the layers above never see a mask.
-/
namespace AsioRsps.StreamBuffer
open BitStrings

theorem bind_ok {α β : Type} {m : StreamM α} {f : α → StreamM β} {b b' : StreamBuffer} {a : α}
    (h : m b = .ok a b') : (m >>= f) b = f a b' := by
  simp only [bind, EStateM.bind, h]

/-- Entry `amount` of the mask table has exactly its low `amount` bits set. -/
theorem bitMask_getLsbD : ∀ (amount : Fin 33) (i : Fin 32),
    bitMask[amount.val].getLsbD i.val = decide (i.val < amount.val) := by
  decide

theorem maskAt_ok (amount : Nat) (ha : amount ≤ 32) (b : StreamBuffer) :
    ∃ mask, maskAt amount b = .ok mask b ∧ ∀ i < 32, mask.getLsbD i = decide (i < amount) := by
  have hlt : amount < 33 := by omega
  refine ⟨bitMask[amount], ?_, fun i hi => bitMask_getLsbD ⟨amount, hlt⟩ ⟨i, hi⟩⟩
  simp only [maskAt, Vector.getElem?_eq_getElem hlt]
  rfl

theorem mergeBits_getLsbD (old : Byte) (mask bits : Word) (i : Nat) (hi : i < 8) :
    (mergeBits old mask bits).getLsbD i = (old.getLsbD i && !mask.getLsbD i || bits.getLsbD i) := by
  have h32 : i < 32 := by omega
  simp only [mergeBits, BitVec.getLsbD_setWidth, BitVec.getLsbD_or, BitVec.getLsbD_and,
    BitVec.getLsbD_not, BitVec.getLsbD_signExtend, hi, h32, if_true, decide_true, Bool.true_and]

theorem storeBits_ok (b : StreamBuffer) (k : Nat) (mask bits : Word) (hk : k < b.buffer.length) :
    storeBits k mask bits b =
      .ok () { b with buffer := b.buffer.set k (mergeBits b.buffer[k] mask bits) } := by
  have hget : b.buffer[k]? = some b.buffer[k] := List.getElem?_eq_getElem hk
  simp only [storeBits, bind, EStateM.bind, get, getThe, MonadStateOf.get, getState_eq, hget, set,
    setState_eq]

theorem bitAt_set (bs : List Byte) (k i : Nat) (x : Byte) (hk : k < bs.length) :
    bitAt (bs.set k x) i = if i / 8 = k then x.getLsbD (7 - i % 8) else bitAt bs i := by
  by_cases h : i / 8 = k
  · subst h
    simp [bitAt, hk]
  · simp [bitAt, h, List.getElem?_set_ne (Ne.symm h)]

/-- `b'` differs from `b` in bits only, and there in exactly the `amount` bits from `start`,
which hold the low bits of `value`. -/
structure BitsPut (b b' : StreamBuffer) (start amount : Nat) (value : Word) : Prop where
  same : b' = { b with buffer := b'.buffer }
  length : b'.buffer.length = b.buffer.length
  bits : ∀ i, bitAt b'.buffer i =
    if start ≤ i ∧ i < start + amount then value.getLsbD (start + amount - 1 - i)
    else bitAt b.buffer i

/-- One store of `amount` bits into the byte at `k`, of which `offset` are still free. -/
theorem bitsPut_mergeBits (b : StreamBuffer) (k offset amount : Nat) (mask bits value : Word)
    (hk : k < b.buffer.length) (hoffset : offset ≤ 8) (hamount : amount ≤ offset)
    (hmask : ∀ i < 8, mask.getLsbD i = decide (offset - amount ≤ i ∧ i < offset))
    (hbits : ∀ i < 8, bits.getLsbD i =
      (decide (offset - amount ≤ i ∧ i < offset) && value.getLsbD (i - (offset - amount)))) :
    BitsPut b { b with buffer := b.buffer.set k (mergeBits b.buffer[k] mask bits) }
      (8 * k + (8 - offset)) amount value := by
  refine ⟨rfl, by simp, fun i => ?_⟩
  rw [bitAt_set _ _ _ _ hk]
  by_cases hi : i / 8 = k
  · rw [if_pos hi, mergeBits_getLsbD _ _ _ _ (by omega), hmask _ (by omega), hbits _ (by omega)]
    have hold : b.buffer[k].getLsbD (7 - i % 8) = bitAt b.buffer i := by
      simp [bitAt, hi, hk]
    rw [hold]
    by_cases hin : 8 * k + (8 - offset) ≤ i ∧ i < 8 * k + (8 - offset) + amount
    · rw [if_pos hin]
      have hr : offset - amount ≤ 7 - i % 8 ∧ 7 - i % 8 < offset := by omega
      have he : 7 - i % 8 - (offset - amount) = 8 * k + (8 - offset) + amount - 1 - i := by omega
      simp [hr, he]
    · rw [if_neg hin]
      have hr : ¬ (offset - amount ≤ 7 - i % 8 ∧ 7 - i % 8 < offset) := by omega
      simp only [hr, decide_false, Bool.not_false, Bool.and_true, Bool.false_and, Bool.or_false]
  · rw [if_neg hi, if_neg (by omega)]

theorem BitsPut.trans {b b' b'' : StreamBuffer} {start n m : Nat} {v w value : Word}
    (h : BitsPut b b' start n v) (h' : BitsPut b' b'' (start + n) m w)
    (hv : ∀ i < n, v.getLsbD i = value.getLsbD (m + i))
    (hw : ∀ i < m, w.getLsbD i = value.getLsbD i) :
    BitsPut b b'' start (n + m) value := by
  refine ⟨?_, h'.length.trans h.length, fun i => ?_⟩
  · rw [h'.same, h.same]
  · rw [h'.bits, h.bits]
    by_cases h1 : start + n ≤ i ∧ i < start + n + m
    · rw [if_pos h1, if_pos (by omega), hw _ (by omega)]
      congr 1
      omega
    · rw [if_neg h1]
      by_cases h2 : start ≤ i ∧ i < start + n
      · rw [if_pos h2, if_pos (by omega), hv _ (by omega)]
        congr 1
        omega
      · rw [if_neg h2, if_neg (by omega)]

theorem writeBitsFrom_ok (value : Word) (amount offset k : Nat) (b : StreamBuffer)
    (ha : amount ≤ 32) (ho : 0 < offset) (ho8 : offset ≤ 8) (hpos : 0 < amount)
    (hlen : 8 * k + (8 - offset) + amount ≤ 8 * b.buffer.length) :
    ∃ b', writeBitsFrom value amount offset k b = .ok () b' ∧
      BitsPut b b' (8 * k + (8 - offset)) amount value := by
  induction amount using Nat.strong_induction_on generalizing offset k b with
  | _ amount ih =>
  have hk : k < b.buffer.length := by omega
  unfold writeBitsFrom
  by_cases h : offset < amount
  · -- a whole byte's rest is filled and the loop goes on in the next byte
    obtain ⟨mask, hmask, hm⟩ := maskAt_ok offset (by omega) b
    let shifted := value.sshiftRight (amount - offset)
    let b₁ := { b with buffer := b.buffer.set k (mergeBits b.buffer[k] mask (shifted &&& mask)) }
    have hput : BitsPut b b₁ (8 * k + (8 - offset)) offset shifted := by
      apply bitsPut_mergeBits b k offset offset mask _ _ hk ho8 (Nat.le_refl _)
      · intro i hi
        rw [hm i (by omega)]
        simp
      · intro i hi
        rw [BitVec.getLsbD_and, hm i (by omega)]
        simp [Bool.and_comm]
    have hlen₁ : b₁.buffer.length = b.buffer.length := by simp [b₁]
    obtain ⟨b', hrun, hrest⟩ := ih (amount - offset) (by omega) 8 (k + 1) b₁ (by omega)
      (by decide) (Nat.le_refl _) (by omega) (by omega)
    refine ⟨b', ?_, ?_⟩
    · rw [dif_pos ⟨ho, h⟩, bind_ok hmask, bind_ok (storeBits_ok b k mask _ hk)]
      exact hrun
    · have hstart : 8 * (k + 1) + (8 - 8) = 8 * k + (8 - offset) + offset := by omega
      rw [hstart] at hrest
      have htotal : offset + (amount - offset) = amount := by omega
      rw [← htotal]
      refine hput.trans hrest (fun i hi => ?_) (fun i _ => rfl)
      simp only [shifted, BitVec.getLsbD_sshiftRight]
      have h32 : amount - offset + i < 32 := by omega
      simp [h32, show i < 32 by omega]
  · rw [dif_neg (fun hc => h hc.2)]
    obtain ⟨mask, hmask, hm⟩ := maskAt_ok amount ha b
    by_cases he : amount = offset
    · subst he
      have hput := bitsPut_mergeBits b k amount amount mask (value &&& mask) value hk ho8
        (Nat.le_refl _) (fun i hi => by rw [hm i (by omega)]; simp)
        (fun i hi => by rw [BitVec.getLsbD_and, hm i (by omega)]; simp [Bool.and_comm])
      refine ⟨_, ?_, hput⟩
      rw [if_pos rfl, bind_ok hmask, storeBits_ok b k mask _ hk]
    · -- the field ends inside this byte
      let shift := offset - amount
      have hput := bitsPut_mergeBits b k offset amount (mask <<< shift)
        ((value &&& mask) <<< shift) value hk ho8 (by omega)
        (fun i hi => by
          rw [BitVec.getLsbD_shiftLeft, hm _ (by omega)]
          by_cases hi' : i < shift
          · simp [hi', show ¬ offset - amount ≤ i by omega]
          · simp [hi', show i < 32 by omega, show offset - amount ≤ i by omega]
            omega)
        (fun i hi => by
          rw [BitVec.getLsbD_shiftLeft, BitVec.getLsbD_and, hm _ (by omega)]
          by_cases hi' : i < shift
          · simp [hi', show ¬ offset - amount ≤ i by omega]
          · have hiff : i - shift < amount ↔ i < offset := by omega
            simp [hi', show i < 32 by omega, show offset - amount ≤ i by omega, hiff,
              Bool.and_comm, shift])
      refine ⟨_, ?_, hput⟩
      rw [if_neg he, bind_ok hmask, storeBits_ok b k _ _ hk]

theorem bitAt_resize (bs : List Byte) (n i : Nat) (h : bs.length ≤ n) :
    bitAt (resize bs n) i = bitAt bs i := by
  simp only [bitAt, resize, List.take_of_length_le h]
  congr 1
  by_cases hi : i / 8 < bs.length
  · simp [List.getElem?_append_left hi]
  · have hi' := Nat.le_of_not_lt hi
    rw [List.getD_eq_getElem?_getD, List.getD_eq_getElem?_getD, List.getElem?_append_right hi',
      List.getElem?_eq_none hi', List.getElem?_replicate]
    split <;> rfl

@[simp] theorem resize_length (bs : List Byte) (n : Nat) : (resize bs n).length = n := by
  simp only [resize, List.length_append, List.length_take, List.length_replicate]
  omega

/-- `WriteBits` replaces the `amount` bits at the bit cursor by the low bits of the value, keeps
every other bit and every other member, and never leaves the vector. -/
theorem writeBits_ok (b : StreamBuffer) (amount : Nat) (value : Int) (hpos : 0 < amount)
    (ha : amount ≤ 32) :
    ∃ buffer, writeBits amount value b =
        .ok () { b with buffer, bitPosition := b.bitPosition + amount } ∧
      b.bitPosition + amount ≤ 8 * buffer.length ∧ b.buffer.length ≤ buffer.length ∧
      ∀ i, bitAt buffer i =
        if b.bitPosition ≤ i ∧ i < b.bitPosition + amount
        then (BitVec.ofInt 32 value).getLsbD (b.bitPosition + amount - 1 - i)
        else bitAt b.buffer i := by
  let needed := (b.bitPosition + amount + 7) / 8
  let grown := if b.buffer.length < needed then resize b.buffer (needed + defaultBufferSize)
    else b.buffer
  let b₁ := { b with buffer := grown, bitPosition := b.bitPosition + amount }
  have hgrown : b.bitPosition + amount ≤ 8 * grown.length ∧ b.buffer.length ≤ grown.length ∧
      ∀ i, bitAt grown i = bitAt b.buffer i := by
    simp only [grown]
    split
    · rename_i hlt
      refine ⟨?_, ?_, fun i => bitAt_resize _ _ _ (by omega)⟩ <;> rw [resize_length] <;> omega
    · exact ⟨by omega, Nat.le_refl _, fun i => rfl⟩
  have hstart : 8 * (b.bitPosition / 8) + (8 - (8 - b.bitPosition % 8)) = b.bitPosition := by omega
  obtain ⟨b', hrun, hput⟩ := writeBitsFrom_ok (BitVec.ofInt 32 value) amount
    (8 - b.bitPosition % 8) (b.bitPosition / 8) b₁ ha (by omega) (by omega) hpos
    (by rw [hstart]; exact hgrown.1)
  rw [hstart] at hput
  refine ⟨b'.buffer, ?_, ?_, ?_, fun i => ?_⟩
  · have hb' : b' = { b with buffer := b'.buffer, bitPosition := b.bitPosition + amount } :=
      hput.same
    rw [← hb', ← hrun]
    rfl
  · rw [hput.length]
    exact hgrown.1
  · rw [hput.length]
    exact hgrown.2.1
  · rw [hput.bits, show bitAt b₁.buffer i = bitAt b.buffer i from hgrown.2.2 i]

/-! ## The bits written so far -/

/-- `bits` are the bits before the cursor of a buffer in bit access. -/
structure BitOutput (b : StreamBuffer) (bits : List Bool) : Prop where
  access : b.accessType = .bitAccess
  cursor : b.bitPosition = bits.length
  written : bits <+: bytesBits b.buffer

/-- `m`, started in bit access, succeeds, appends `bits` and leaves the open frame alone. -/
def AppendsBits (m : StreamM Unit) (bits : List Bool) : Prop :=
  ∀ b w, BitOutput b w → ∃ b', m b = .ok () b' ∧ BitOutput b' (w ++ bits) ∧
    b'.frameSize = b.frameSize ∧ b'.headerSize = b.headerSize

theorem appendsBits_pure : AppendsBits (pure ()) [] := by
  intro b w h
  exact ⟨b, rfl, by simpa using h, rfl, rfl⟩

theorem AppendsBits.bind {m n : StreamM Unit} {xs ys : List Bool} (hm : AppendsBits m xs)
    (hn : AppendsBits n ys) : AppendsBits (m >>= fun _ => n) (xs ++ ys) := by
  intro b w h
  obtain ⟨b₁, hrun₁, hout₁, hf₁, hh₁⟩ := hm b w h
  obtain ⟨b₂, hrun₂, hout₂, hf₂, hh₂⟩ := hn b₁ _ hout₁
  refine ⟨b₂, ?_, ?_, hf₂.trans hf₁, hh₂.trans hh₁⟩
  · rw [bind_ok hrun₁, hrun₂]
  · rwa [← List.append_assoc]

/-- The low `n` bits of an integer, most significant first. -/
def fieldBits (n : Nat) (value : Int) : List Bool := bitsOf n (value % 2 ^ n).toNat

@[simp] theorem fieldBits_length (n : Nat) (value : Int) : (fieldBits n value).length = n :=
  bitsOf_length n _

theorem emod_two_pow_toNat (n : Nat) (value : Int) (hn : n ≤ 32) :
    (value % 2 ^ 32).toNat % 2 ^ n = (value % 2 ^ n).toNat := by
  have hdvd : ((2 ^ n : Nat) : Int) ∣ ((2 ^ 32 : Nat) : Int) :=
    Int.natCast_dvd_natCast.mpr (pow_dvd_pow 2 hn)
  have hpos : (0 : Int) < ((2 ^ n : Nat) : Int) := by positivity
  have hmod : (value % ((2 ^ 32 : Nat) : Int)).toNat % 2 ^ n =
      (value % ((2 ^ n : Nat) : Int)).toNat := by
    have h1 : 0 ≤ value % ((2 ^ 32 : Nat) : Int) := Int.emod_nonneg _ (by decide)
    have h2 : 0 ≤ value % ((2 ^ n : Nat) : Int) := Int.emod_nonneg _ (by omega)
    have key : (((value % ((2 ^ 32 : Nat) : Int)).toNat % 2 ^ n : Nat) : Int) =
        ((value % ((2 ^ n : Nat) : Int)).toNat : Int) := by
      rw [Int.natCast_emod, Int.toNat_of_nonneg h1, Int.toNat_of_nonneg h2,
        Int.emod_emod_of_dvd _ hdvd]
    exact Int.ofNat.inj key
  rwa [Nat.cast_pow, Nat.cast_pow] at hmod

theorem ofInt_getLsbD (n i : Nat) (value : Int) (hn : n ≤ 32) (hi : i < n) :
    (BitVec.ofInt 32 value).getLsbD i = ((value % 2 ^ n).toNat).testBit i := by
  rw [← emod_two_pow_toNat n value hn, Nat.testBit_mod_two_pow, BitVec.getLsbD,
    BitVec.toNat_ofInt]
  simp [hi]

theorem appendsBits_writeBits (n : Nat) (value : Int) (hpos : 0 < n) (hn : n ≤ 32) :
    AppendsBits (writeBits n value) (fieldBits n value) := by
  intro b w h
  obtain ⟨buffer, hrun, hlen, -, hbits⟩ := writeBits_ok b n value hpos hn
  refine ⟨_, hrun, ⟨h.access, by simp [h.cursor], ?_⟩, rfl, rfl⟩
  rw [List.prefix_iff_getElem?]
  intro i hi
  simp only [List.length_append, fieldBits_length] at hi
  rw [h.cursor] at hlen hbits
  change (bytesBits buffer)[i]? = _
  rw [bytesBits_getElem? _ _ (by omega), hbits i]
  by_cases hiw : i < w.length
  · have hold : (bytesBits b.buffer)[i]? = some w[i] := by
      rw [List.prefix_iff_getElem?.mp h.written i hiw]
    have hib : i < 8 * b.buffer.length := by
      have := h.written.length_le
      rw [bytesBits_length] at this
      omega
    rw [bytesBits_getElem? _ _ hib] at hold
    rw [if_neg (by omega), hold, List.getElem_append_left hiw]
  · have hfield : i - w.length < n := by omega
    rw [if_pos (by omega), List.getElem_append_right (by omega)]
    have hlt : i - w.length < (fieldBits n value).length := by simpa using hfield
    have hget := bitsOf_getElem? n (value % 2 ^ n).toNat (i - w.length) hfield
    have hidx : w.length + n - 1 - i = n - 1 - (i - w.length) := by omega
    rw [← List.getElem?_eq_getElem hlt, fieldBits, hget, hidx,
      ofInt_getLsbD n _ value hn (by omega)]

theorem appendsBits_writeBit (flag : Bool) : AppendsBits (writeBit flag) [flag] := by
  have h := appendsBits_writeBits 1 (if flag then 1 else 0) (by decide) (by decide)
  cases flag <;> exact h

end AsioRsps.StreamBuffer
