import AsioRsps.BitOutput

/-!
# Byte input

Reading seen through the bytes that are left: a read succeeds exactly when there is a byte
left and moves the cursor past it, so the bytes a computation has read are the ones between
the cursor before and the cursor after.
-/
namespace AsioRsps.StreamBuffer
open BitStrings

/-- The bytes from the cursor on. -/
def rest (b : StreamBuffer) : List Byte := b.buffer.drop b.pos

/-- The buffer with the cursor moved `n` bytes on. -/
def skip (b : StreamBuffer) (n : Nat) : StreamBuffer := { b with pos := b.pos + n }

@[simp] theorem skip_zero (b : StreamBuffer) : b.skip 0 = b := rfl

@[simp] theorem skip_skip (b : StreamBuffer) (m n : Nat) : (b.skip m).skip n = b.skip (m + n) := by
  simp only [skip, Nat.add_assoc]

@[simp] theorem skip_pos (b : StreamBuffer) (n : Nat) : (b.skip n).pos = b.pos + n := rfl

@[simp] theorem skip_buffer (b : StreamBuffer) (n : Nat) : (b.skip n).buffer = b.buffer := rfl

@[simp] theorem rest_skip (b : StreamBuffer) (n : Nat) : (b.skip n).rest = b.rest.drop n := by
  simp only [rest, skip, List.drop_drop]

theorem rest_ofData (data : List Byte) : (ofData data).rest = data := rfl

theorem hasRemaining_iff (b : StreamBuffer) : b.hasRemaining = true ↔ b.rest ≠ [] := by
  simp only [hasRemaining, rest, decide_eq_true_eq, ne_eq, List.drop_eq_nil_iff, Nat.not_le]

theorem remaining_eq_length {b : StreamBuffer} (h : b.pos ≤ b.buffer.length) :
    b.remaining = b.rest.length := by
  simp only [remaining, rest, List.length_drop]
  omega

/-- Up to the end of the buffer `Remaining` counts the bytes left, beyond it it is negative. -/
theorem le_remaining_iff {b : StreamBuffer} {n : Nat} (h : b.pos ≤ b.buffer.length) :
    (n : Int) ≤ b.remaining ↔ n ≤ b.rest.length := by
  rw [remaining_eq_length h]
  exact Int.ofNat_le

theorem readByte_cons {b : StreamBuffer} {x : Byte} {xs : List Byte} (h : b.rest = x :: xs)
    (isSigned : Bool) (type : ValueType) :
    readByte isSigned type b = .ok (readValue isSigned type x) (b.skip 1) := by
  have hget : b.buffer[b.pos]? = some x := by
    rw [← List.head?_drop]
    simp only [rest] at h
    rw [h, List.head?_cons]
  simp only [readByte, bind, EStateM.bind, get, getThe, MonadStateOf.get, getState_eq, hget]
  rfl

theorem readByte_nil {b : StreamBuffer} (h : b.rest = []) (isSigned : Bool) (type : ValueType) :
    readByte isSigned type b = .error .outOfBounds b := by
  have hget : b.buffer[b.pos]? = none := by
    rw [← List.head?_drop]
    simp only [rest] at h
    rw [h, List.head?_nil]
  simp only [readByte, bind, EStateM.bind, get, getThe, MonadStateOf.get, getState_eq, hget]
  rfl

/-- The signed little-endian short of two bytes, the low one under a value type. -/
def shortLittle (type : ValueType) (low high : Byte) : Int :=
  readValue false .standard high * 2 ^ 8 + readValue false type low

theorem readShort_little {b : StreamBuffer} {x y : Byte} {xs : List Byte}
    (h : b.rest = x :: y :: xs) (type : ValueType) :
    readShort true type .little b = .ok (shortLittle type x y) (b.skip 2) := by
  have h1 : (b.skip 1).rest = y :: xs := by rw [rest_skip, h]; rfl
  simp only [readShort, bind_ok (readByte_cons h false type),
    bind_ok (readByte_cons h1 false .standard)]
  rfl

theorem readValue_standard_unsigned (x : Byte) : readValue false .standard x = x.toNat := by
  simp only [readValue, Bool.false_eq_true, if_false]
  have h := BitVec.toInt_eq_toNat_cond x
  have hx := x.isLt
  split at h <;> omega

/-- Read as a byte a value is the byte itself. -/
theorem toByte_readValue (isSigned : Bool) (x : Byte) :
    toByte (readValue isSigned .standard x) = x := by
  cases isSigned with
  | false =>
      rw [readValue_standard_unsigned, toByte, BitVec.ofInt_natCast, BitVec.ofNat_toNat,
        BitVec.setWidth_eq]
  | true => exact BitVec.ofInt_toInt

/-! ## Readers of a fixed size -/

/-- The computation reads exactly `k` bytes, of which its result is a function, and fails when
they are not all there. -/
structure Takes {α : Type} (m : StreamM α) (k : Nat) (value : List Byte → α) : Prop where
  ok : ∀ b, k ≤ b.rest.length → m b = .ok (value b.rest) (b.skip k)
  error : ∀ b, b.rest.length < k → ∃ e b', m b = .error e b'

theorem takes_pure {α : Type} (a : α) : Takes (pure a) 0 fun _ => a where
  ok _ _ := rfl
  error _ h := absurd h (Nat.not_lt_zero _)

theorem Takes.bind {α β : Type} {m : StreamM α} {f : α → StreamM β} {k l : Nat}
    {v : List Byte → α} {w : α → List Byte → β} (hm : Takes m k v) (hf : ∀ a, Takes (f a) l (w a)) :
    Takes (m >>= f) (k + l) fun bytes => w (v bytes) (bytes.drop k) where
  ok b h := by
    have hrest : l ≤ (b.skip k).rest.length := by
      rw [rest_skip, List.length_drop]
      omega
    rw [bind_ok (hm.ok b (by omega)), (hf _).ok _ hrest, skip_skip, rest_skip]
  error b h := by
    by_cases hk : k ≤ b.rest.length
    · rw [bind_ok (hm.ok b hk)]
      apply (hf _).error
      rw [rest_skip, List.length_drop]
      omega
    · obtain ⟨e, b', hrun⟩ := hm.error b (by omega)
      exact ⟨e, b', by simp only [Bind.bind, EStateM.bind, hrun]⟩

theorem takes_readByte (isSigned : Bool) (type : ValueType) :
    Takes (readByte isSigned type) 1 fun bytes => readValue isSigned type (bytes.headD 0) where
  ok b h := by
    obtain ⟨x, xs, hx⟩ := List.exists_cons_of_length_pos h
    rw [readByte_cons hx, hx]
    rfl
  error b h := ⟨.outOfBounds, b,
    readByte_nil (List.eq_nil_of_length_eq_zero (Nat.lt_one_iff.mp h)) isSigned type⟩

theorem takes_readShort : ∃ value, Takes readShort 2 value ∧ ∀ x y xs,
    value (x :: y :: xs) = 256 * x.toNat + y.toNat := by
  refine ⟨_, (takes_readByte false .standard).bind fun high =>
    ((takes_readByte false .standard).bind fun low => takes_pure (high * 2 ^ 8 + low)), ?_⟩
  intro x y xs
  simp only [List.headD_cons, List.drop_one, List.tail_cons, readValue_standard_unsigned]
  omega

theorem takes_readInt : ∃ value, Takes readInt 4 value :=
  ⟨_, (takes_readByte false .standard).bind fun b1 =>
    (takes_readByte false .standard).bind fun b2 =>
    (takes_readByte false .standard).bind fun b3 => (takes_readByte false .standard).bind fun b4 =>
      takes_pure (toInt32 (b1 * 2 ^ 24 + b2 * 2 ^ 16 + b3 * 2 ^ 8 + b4))⟩

theorem takes_readLong : ∃ value, Takes readLong 8 value :=
  ⟨_, (takes_readByte false .standard).bind fun b1 =>
    (takes_readByte false .standard).bind fun b2 =>
    (takes_readByte false .standard).bind fun b3 => (takes_readByte false .standard).bind fun b4 =>
    (takes_readByte false .standard).bind fun b5 => (takes_readByte false .standard).bind fun b6 =>
    (takes_readByte false .standard).bind fun b7 => (takes_readByte false .standard).bind fun b8 =>
      takes_pure (toInt64 (b1 * 2 ^ 56 + b2 * 2 ^ 48 + b3 * 2 ^ 40 + b4 * 2 ^ 32 + b5 * 2 ^ 24
        + b6 * 2 ^ 16 + b7 * 2 ^ 8 + b8))⟩

/-! ## Strings -/

/-- A line of at most `left` more characters is read with its terminator. -/
theorem readStringLoop_line (left : Nat) (acc : List Byte) {line tail : List Byte}
    {b : StreamBuffer}
    (h : b.rest = line ++ 10 :: tail) (hline : 10 ∉ line) (hleft : line.length ≤ left) :
    readStringLoop left acc b = .ok (acc ++ line) (b.skip (line.length + 1)) := by
  induction line generalizing left acc b with
  | nil =>
      rw [readStringLoop, bind_ok (readByte_cons h false .standard), toByte_readValue, if_pos rfl,
        List.append_nil]
      rfl
  | cons x line ih =>
      obtain ⟨hx, hline⟩ := not_or.mp (mt List.mem_cons.mpr hline)
      have hrest : (b.skip 1).rest = line ++ 10 :: tail := by rw [rest_skip, h]; rfl
      cases left with
      | zero => simp at hleft
      | succ left =>
          rw [readStringLoop, bind_ok (readByte_cons h false .standard), toByte_readValue,
            if_neg (Ne.symm hx)]
          simp only
          rw [ih left (acc ++ [x]) hrest hline (by simpa using hleft), skip_skip,
            List.append_assoc, List.length_cons,
            Nat.add_comm 1]
          rfl

/-- Without a terminator in reach the string fails. -/
theorem readStringLoop_error (left : Nat) (acc : List Byte) {b : StreamBuffer}
    (h : 10 ∉ b.rest.take (left + 1)) : ∃ e b', readStringLoop left acc b = .error e b' := by
  induction left generalizing acc b with
  | zero =>
      cases hb : b.rest with
      | nil =>
          refine ⟨.outOfBounds, b, ?_⟩
          simp only [readStringLoop, Bind.bind, EStateM.bind, readByte_nil hb]
      | cons x xs =>
          rw [hb] at h
          have hx : x ≠ 10 := fun hx => h (by simp [hx])
          rw [readStringLoop, bind_ok (readByte_cons hb false .standard), toByte_readValue,
            if_neg hx]
          exact ⟨_, _, rfl⟩
  | succ left ih =>
      cases hb : b.rest with
      | nil =>
          refine ⟨.outOfBounds, b, ?_⟩
          simp only [readStringLoop, Bind.bind, EStateM.bind, readByte_nil hb]
      | cons x xs =>
          rw [hb, List.take_succ_cons, List.mem_cons, not_or] at h
          have hrest : (b.skip 1).rest = xs := by rw [rest_skip, hb]; rfl
          rw [readStringLoop, bind_ok (readByte_cons hb false .standard), toByte_readValue,
            if_neg (Ne.symm h.1)]
          exact ih (acc ++ [x]) (by rw [hrest]; exact h.2)

/-! ## How far a computation reads -/

/-- The computation returns normally with the cursor no further than `limit`. Reading only
moves the cursor forward, past each byte it takes, so no read was at or past `limit`. -/
def EndsBy {α : Type} (m : StreamM α) (b : StreamBuffer) (limit : Nat) : Prop :=
  ∃ a b', m b = .ok a b' ∧ b'.pos ≤ limit

theorem Takes.endsBy_bind {α β : Type} {m : StreamM α} {k : Nat} {v : List Byte → α}
    (hm : Takes m k v) {f : α → StreamM β} {b : StreamBuffer} {limit : Nat} :
    EndsBy (m >>= f) b limit ↔
      k ≤ b.rest.length ∧ EndsBy (f (v b.rest)) (b.skip k) limit := by
  by_cases hk : k ≤ b.rest.length
  · simp only [EndsBy, bind_ok (hm.ok b hk), hk, true_and]
  · obtain ⟨e, b', hrun⟩ := hm.error b (by omega)
    simp only [EndsBy, Bind.bind, EStateM.bind, hrun, hk, false_and, reduceCtorEq, exists_false]

theorem endsBy_readString_bind {β : Type} {f : List Byte → StreamM β} {b : StreamBuffer}
    {limit : Nat} : EndsBy (readString >>= f) b limit ↔
      ∃ line tail, b.rest = line ++ 10 :: tail ∧ 10 ∉ line ∧ line.length ≤ 1024 ∧
        EndsBy (f line) (b.skip (line.length + 1)) limit := by
  constructor
  · intro h
    by_cases hmem : 10 ∈ b.rest.take 1025
    · obtain ⟨line, tail, hline, hnot⟩ := List.eq_append_cons_of_mem hmem
      have hlen := congrArg List.length hline
      rw [List.length_take, List.length_append, List.length_cons] at hlen
      have hrest : b.rest = line ++ 10 :: (tail ++ b.rest.drop 1025) := by
        rw [← List.cons_append, ← List.append_assoc, ← hline, List.take_append_drop]
      have hrun := readStringLoop_line 1024 [] hrest hnot (by omega)
      rw [List.nil_append] at hrun
      refine ⟨line, _, hrest, hnot, by omega, ?_⟩
      simp only [EndsBy, readString, bind_ok hrun] at h
      exact h
    · obtain ⟨e, b', hrun⟩ := readStringLoop_error 1024 [] hmem
      obtain ⟨a, b'', hok, -⟩ := h
      simp only [readString, Bind.bind, EStateM.bind, hrun, reduceCtorEq] at hok
  · rintro ⟨line, tail, hrest, hnot, hlen, h⟩
    have hrun := readStringLoop_line 1024 [] hrest hnot hlen
    rw [List.nil_append] at hrun
    simp only [EndsBy, readString, bind_ok hrun]
    exact h

/-! ## Two steps in a row -/

theorem exec_bind_eq_ok {α β : Type} {m : StreamM α} {f : α → StreamM β} {b : StreamBuffer}
    {r : β × StreamBuffer} : b.exec (m >>= f) = .ok r ↔
      ∃ a b', b.exec m = .ok (a, b') ∧ b'.exec (f a) = .ok r := by
  simp only [exec, Bind.bind, EStateM.bind]
  cases m b with
  | ok a b' => simp
  | error e b' => simp

theorem exec_bind_eq_error {α β : Type} {m : StreamM α} {f : α → StreamM β} {b : StreamBuffer}
    {e : Fault} : b.exec (m >>= f) = .error e ↔
      b.exec m = .error e ∨ ∃ a b', b.exec m = .ok (a, b') ∧ b'.exec (f a) = .error e := by
  simp only [exec, Bind.bind, EStateM.bind]
  cases m b with
  | ok a b' => simp
  | error e' b' => simp

theorem get_bind {α : Type} (f : StreamBuffer → StreamM α) (b : StreamBuffer) :
    (get >>= f) b = f b b := rfl

end AsioRsps.StreamBuffer
