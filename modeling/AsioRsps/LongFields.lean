import AsioRsps.LoginInput
import AsioRsps.TypedFields
import AsioRsps.UpdateOutput

/-!
# Long fields

The two longs the server sends go through the overload of `WriteLong` that takes an
`int32_t`: the name in an appearance block and the session key in the reply to a connection
request. Of each only the low half is sent, under its sign.
-/
namespace AsioRsps
open StreamBuffer
open BitStrings (Byte)

/-! ## One long -/

theorem toInt32_eq_iff {value : Int} :
    toInt32 value = value ↔ -2147483648 ≤ value ∧ value < 2147483648 := by
  have h : toInt32 value = value.bmod 4294967296 := @BitVec.toInt_ofInt 32 value
  rw [h, Int.bmod_def]
  split <;> omega

theorem toInt32_bounds (value : Int) :
    -2147483648 ≤ toInt32 value ∧ toInt32 value < 2147483648 := by
  have h : toInt32 value = value.bmod 4294967296 := @BitVec.toInt_ofInt 32 value
  rw [h, Int.bmod_def]
  split <;> omega

theorem toInt64_emod_of_bounds {value : Int} (hlo : -2147483648 ≤ value)
    (hhi : value < 2147483648) : toInt64 (value % 18446744073709551616) = value := by
  have h : toInt64 (value % 18446744073709551616) =
    (value % 18446744073709551616).bmod 18446744073709551616 :=
      @BitVec.toInt_ofInt 64 (value % 18446744073709551616)
  rw [h, Int.bmod_def]
  split <;> omega

/-- A long written from an `int32_t` is read back as that `int32_t`. -/
theorem readLong_longBytes {b : StreamBuffer} {pre post : List Byte} {value : Int}
    (h : ByteOutput b (pre ++ (longBytes (toInt32 value) ++ post))) :
    ∃ b', readLong .standard .big (b.rewind pre.length) = .ok (toInt32 value) b' := by
  have hbounds := toInt32_bounds value
  have hread := readsBytes_longField (toInt32 value) .standard (.inl rfl : ByteOrder.big = _ ∨ _)
  rw [toInt64_emod_of_bounds hbounds.1 hbounds.2] at hread
  obtain ⟨tail, htail⟩ := h.written
  have hrest : (b.rewind pre.length).rest = longBytes (toInt32 value) ++ (post ++ tail) := by
    simp only [rest, rewind, ← htail, List.append_assoc, List.drop_left]
  exact ⟨_, hread _ _ hrest⟩

/-- So it is the value itself only in the range of an `int32_t`. -/
theorem readLong_longBytes_iff {b : StreamBuffer} {pre post : List Byte} {value : Int}
    (h : ByteOutput b (pre ++ (longBytes (toInt32 value) ++ post))) :
    (∃ b', readLong .standard .big (b.rewind pre.length) = .ok value b') ↔
      -2147483648 ≤ value ∧ value < 2147483648 := by
  obtain ⟨b₁, hrun⟩ := readLong_longBytes h
  rw [← toInt32_eq_iff, hrun]
  simp only [EStateM.Result.ok.injEq, exists_and_left, exists_eq', and_true]

/-! ## The two longs of the server -/

namespace PlayerUpdating

/-- What stands before the name in an appended appearance block. -/
def beforeName (player : Player) : List Byte :=
  toByte (-((appearanceBytes player).length : Int)) ::
    ([0, 0] ++ (lookBytes player ++ (colorBytes player ++ animationBytes)))

theorem appendAppearance_name (player : Player) {b : StreamBuffer} {w : List Byte}
    (h : ByteOutput b w) : ∃ b', appendAppearance player b = .ok () b' ∧
      b'.pos = (w ++ beforeName player).length + 11 ∧
      ByteOutput b' ((w ++ beforeName player) ++
        (longBytes (toInt32 (playerNameToInt64 player.username)) ++ [3, 0, 0])) := by
  obtain ⟨b', hrun, hout, -, -⟩ := appendsBytes_appendAppearance player b w h
  have hbytes : w ++ ([toByte (-((appearanceBytes player).length : Int))] ++
      appearanceBytes player) = (w ++ beforeName player) ++
        (longBytes (toInt32 (playerNameToInt64 player.username)) ++ [3, 0, 0]) := by
    simp only [beforeName, appearanceBytes, List.append_assoc, List.cons_append, List.nil_append]
    rfl
  rw [hbytes] at hout
  exact ⟨b', hrun, by rw [hout.cursor, List.length_append]; rfl, hout⟩

end PlayerUpdating

namespace LoginHandler

theorem connectedReply_key (gen : Int) :
    ∃ out, StreamBuffer.new.exec (connectedReply gen) = .ok ((), out) ∧
      ByteOutput out ((longBytes (toInt32 0) ++ [0]) ++ (longBytes (toInt32 gen) ++ [])) := by
  have hreply := (appendsBytes_writeLong (toInt32 0)).bind
    ((appendsBytes_writeByte 0 .standard).bind (appendsBytes_writeLong (toInt32 gen)))
  obtain ⟨out, hrun, hout⟩ := hreply.exec_ofSize defaultBufferSize
  exact ⟨out, hrun, hout⟩

end LoginHandler

/-- The name in an appearance block, eleven bytes before its end, and the session key, nine
bytes into the reply, are read back exactly when they fit in an `int32_t`. -/
theorem longFields_survive_iff (player : Player) {b : StreamBuffer} {w : List Byte}
    (h : ByteOutput b w) (gen : BitVec 64) :
    (∃ b', PlayerUpdating.appendAppearance player b = .ok () b' ∧
      ((∃ b'', readLong .standard .big (b'.rewind (b'.pos - 11)) =
          .ok (playerNameToInt64 player.username) b'') ↔
        playerNameToInt64 player.username < 2147483648)) ∧
    ∃ out, StreamBuffer.new.exec (LoginHandler.connectedReply gen.toInt) = .ok ((), out) ∧
      ((∃ b'', readLong .standard .big (out.rewind 9) = .ok gen.toInt b'') ↔
        -2147483648 ≤ gen.toInt ∧ gen.toInt < 2147483648) := by
  constructor
  · obtain ⟨b', hrun, hpos, hout⟩ := PlayerUpdating.appendAppearance_name player h
    refine ⟨b', hrun, ?_⟩
    rw [hpos, Nat.add_sub_cancel, readLong_longBytes_iff hout]
    omega
  · obtain ⟨out, hrun, hout⟩ := LoginHandler.connectedReply_key gen.toInt
    exact ⟨out, hrun, readLong_longBytes_iff hout⟩

/-- A name of one letter and a small key survive. -/
theorem longFields_survive_letter :
    (∃ b', PlayerUpdating.appendAppearance { username := [97], client := 0 } (ofSize 0) =
      .ok () b' ∧ ∃ b'', readLong .standard .big (b'.rewind (b'.pos - 11)) = .ok 1 b'') ∧
    ∃ out, StreamBuffer.new.exec (LoginHandler.connectedReply 5) = .ok ((), out) ∧
      ∃ b'', readLong .standard .big (out.rewind 9) = .ok 5 b'' := by
  have hname : playerNameToInt64 [97] = 1 := by
    rw [playerNameToInt64, show (([97] : List Byte).take 12).foldl
      (fun l c => (l * 37 + nameDigit c) % 2 ^ 64) 0 = 1 by decide, stripZeros, dif_neg (by decide)]
  obtain ⟨⟨b', hrun, hiff⟩, out, hreply, hkey⟩ :=
    longFields_survive_iff { username := [97], client := 0 } (byteOutput_ofSize 0) 5
  simp only [hname] at hiff
  exact ⟨⟨b', hrun, hiff.mpr (by decide)⟩, out, hreply, hkey.mpr (by decide)⟩

/-- A name of seven letters does not survive, nor does a key of `2 ^ 31`. -/
theorem longFields_lost :
    (¬ ∃ b b', PlayerUpdating.appendAppearance { username := List.replicate 7 97, client := 0 }
      (ofSize 0) = .ok () b ∧ readLong .standard .big (b.rewind (b.pos - 11)) =
        .ok 2636996587 b') ∧
    playerNameToInt64 (List.replicate 7 97) = 2636996587 ∧
    ¬ ∃ out b', StreamBuffer.new.exec (LoginHandler.connectedReply 2147483648) = .ok ((), out) ∧
      readLong .standard .big (out.rewind 9) = .ok 2147483648 b' := by
  have hname : playerNameToInt64 (List.replicate 7 97) = 2636996587 := by
    rw [playerNameToInt64, show ((List.replicate 7 97 : List Byte).take 12).foldl
      (fun l c => (l * 37 + nameDigit c) % 2 ^ 64) 0 = 2636996587 by decide, stripZeros,
      dif_neg (by decide)]
  refine ⟨?_, hname, ?_⟩
  · rintro ⟨b, b'', hrun, hread⟩
    obtain ⟨b', hrun', hpos, hout⟩ := PlayerUpdating.appendAppearance_name
      { username := List.replicate 7 97, client := 0 } (byteOutput_ofSize 0)
    obtain rfl := (EStateM.Result.ok.inj (hrun.symm.trans hrun')).2
    rw [hpos, Nat.add_sub_cancel] at hread
    simp only [hname] at hout
    have hlt := (readLong_longBytes_iff hout).mp ⟨_, hread⟩
    exact absurd hlt.2 (by decide)
  · rintro ⟨out, b'', hrun, hread⟩
    obtain ⟨out', hrun', hout⟩ := LoginHandler.connectedReply_key 2147483648
    obtain rfl := congrArg Prod.snd (Except.ok.inj (hrun.symm.trans hrun'))
    have hlt := (readLong_longBytes_iff hout).mp ⟨_, hread⟩
    exact absurd hlt.2 (by decide)

end AsioRsps
