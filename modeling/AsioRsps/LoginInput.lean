import AsioRsps.Registration

/-!
# What the login parser reads

The one length the login checks is that the declared block has arrived; nothing it reads is
checked against the block. How far each stage reads, as a condition on the bytes.
-/
namespace AsioRsps
open BitStrings (Byte)
open StreamBuffer

namespace StreamBuffer

theorem endsBy_lift_ok {α : Type} {r : Except Fault α} (h : ∃ a, r = .ok a) {b : StreamBuffer}
    {limit : Nat} : EndsBy (lift r) b limit ↔ b.pos ≤ limit := by
  obtain ⟨a, rfl⟩ := h
  constructor
  · rintro ⟨a', b', hrun, hle⟩
    obtain ⟨rfl, rfl⟩ := EStateM.Result.ok.inj hrun
    exact hle
  · exact fun hle => ⟨a, b, rfl, hle⟩

/-- The first of the terminators among the first `n` bytes. -/
theorem exists_line {bytes : List Byte} {n : Nat} (h : 0 < (bytes.take n).count 10) :
    ∃ line tail, bytes = line ++ 10 :: tail ∧ 10 ∉ line ∧ line.length + 1 ≤ n ∧
      (bytes.take n).count 10 = (tail.take (n - (line.length + 1))).count 10 + 1 := by
  obtain ⟨line, tail, hline, hnot⟩ := List.eq_append_cons_of_mem (List.count_pos_iff.mp h)
  have hlen := congrArg List.length hline
  rw [List.length_take, List.length_append, List.length_cons] at hlen
  have hbytes : bytes = line ++ 10 :: (tail ++ bytes.drop n) := by
    rw [← List.cons_append, ← List.append_assoc, ← hline, List.take_append_drop]
  generalize tail ++ bytes.drop n = more at hbytes
  subst hbytes
  have hn : n - line.length = n - (line.length + 1) + 1 := by omega
  refine ⟨line, more, rfl, hnot, by omega, ?_⟩
  rw [List.take_append, List.take_of_length_le (by omega), hn, List.take_succ_cons,
    List.count_append, List.count_eq_zero_of_not_mem hnot, List.count_cons_self, Nat.zero_add]

/-- Two strings that end within `m` bytes are two terminators among them. -/
theorem two_strings_iff {bytes : List Byte} {m : Nat} (hm : m ≤ 1024) :
    (∃ line tail, bytes = line ++ 10 :: tail ∧ 10 ∉ line ∧ line.length ≤ 1024 ∧
      ∃ line' tail', tail = line' ++ 10 :: tail' ∧ 10 ∉ line' ∧ line'.length ≤ 1024 ∧
        line.length + 1 + (line'.length + 1) ≤ m) ↔ 2 ≤ (bytes.take m).count 10 := by
  constructor
  · rintro ⟨line, -, rfl, -, -, line', tail, rfl, -, -, hle⟩
    have hsplit : line ++ 10 :: (line' ++ 10 :: tail) =
        (line ++ [10] ++ line' ++ [10]) ++ tail := by simp
    have hlen : (line ++ [10] ++ line' ++ [10]).length ≤ m := by
      simp only [List.length_append, List.length_singleton]
      omega
    rw [hsplit, List.take_append, List.take_of_length_le hlen, List.count_append,
      List.count_append, List.count_append, List.count_append, List.count_singleton_self]
    omega
  · intro hcount
    obtain ⟨line, tail, rfl, hnot, hle, hrest⟩ :=
      exists_line (Nat.lt_of_lt_of_le Nat.zero_lt_two hcount)
    rw [hrest] at hcount
    obtain ⟨line', tail', rfl, hnot', hle', -⟩ :=
      exists_line (Nat.lt_of_succ_le (Nat.le_of_succ_le_succ hcount))
    exact ⟨line, _, rfl, hnot, by omega, line', tail', rfl, hnot', by omega, by omega⟩

/-- Two strings and nothing that can fail after them. -/
theorem endsBy_strings {α : Type} {r : List Byte → List Byte → Except Fault α}
    (hr : ∀ line line', ∃ a, r line line' = .ok a) {b : StreamBuffer} {limit : Nat}
    (hlimit : limit ≤ b.pos + 1024) :
    EndsBy (readString >>= fun line => readString >>= fun line' => lift (r line line')) b limit ↔
      2 ≤ (b.rest.take (limit - b.pos)).count 10 := by
  rw [← two_strings_iff (by omega), endsBy_readString_bind]
  refine exists_congr fun line => exists_congr fun tail => and_congr_right fun hrest =>
    and_congr_right fun _ => and_congr_right fun _ => ?_
  have htail : (b.skip (line.length + 1)).rest = tail := by
    rw [rest_skip, hrest, List.append_cons]
    apply List.drop_left'
    rw [List.length_append, List.length_singleton]
  rw [endsBy_readString_bind, htail]
  refine exists_congr fun line' => exists_congr fun tail' => and_congr_right fun _ =>
    and_congr_right fun _ => and_congr_right fun _ => ?_
  rw [endsBy_lift_ok (hr line line'), skip_pos, skip_pos]
  omega

end StreamBuffer

namespace LoginHandler

theorem takes_skipInts (n : Nat) : ∃ value, Takes (skipInts n) (4 * n) value := by
  induction n with
  | zero => exact ⟨_, takes_pure ()⟩
  | succ n ih =>
      obtain ⟨v, hv⟩ := takes_readInt
      obtain ⟨w, hw⟩ := ih
      have hsize : 4 * (n + 1) = 4 + 4 * n := by omega
      rw [hsize]
      exact ⟨_, hv.bind fun _ => hw⟩

/-- Of a client without a player every disconnect succeeds. -/
theorem disconnect_ok {s : Server} {c : ClientId} {client : Client}
    (hc : s.clients c = some client) (hp : client.player = none) :
    ∃ s', Client.disconnect s c = .ok s' := by
  cases hd : client.disconnected with
  | true => exact ⟨_, Client.disconnect_again hc hd⟩
  | false => exact ⟨_, Client.disconnect_absent hc hd (by rw [hp]; rfl)⟩

theorem endsBy_readCredentials {s : Server} {c : ClientId} {client : Client}
    (hc : s.clients c = some client) (hp : client.player = none) {b : StreamBuffer} {limit : Nat}
    (hlimit : limit ≤ b.pos + 1024) :
    EndsBy (readCredentials s c) b limit ↔
      39 ≤ b.rest.length ∧
        if (b.rest.drop 38).headD 0 ≠ 10 then b.pos + 39 ≤ limit
        else 59 ≤ b.rest.length ∧
          2 ≤ ((b.rest.drop 59).take (limit - (b.pos + 59))).count 10 := by
  obtain ⟨_, hints⟩ := takes_skipInts 9
  obtain ⟨_, hlong⟩ := takes_readLong
  obtain ⟨_, hint⟩ := takes_readInt
  have hbyte := takes_readByte true .standard
  have henter (clientHalf serverHalf : Int) (username : Name) :
      ∃ s', enterWorld (setCiphers s c clientHalf serverHalf) c username = .ok s' := by
    rw [setCiphers, Server.modifyClient_eq hc]
    exact enterWorld_ok username (Server.setClient_clients_self ..) rfl
  rw [readCredentials, hbyte.endsBy_bind, hints.endsBy_bind, hbyte.endsBy_bind, hbyte.endsBy_bind]
  simp only [rest_skip, skip_skip, List.length_drop, toByte_readValue, Nat.reduceMul,
    Nat.reduceAdd]
  by_cases hrsa : (b.rest.drop 38).headD 0 ≠ 10
  · rw [if_pos hrsa, if_pos hrsa, endsBy_lift_ok (disconnect_ok hc hp), skip_pos]
    omega
  · rw [if_neg hrsa, if_neg hrsa, hlong.endsBy_bind, hlong.endsBy_bind, hint.endsBy_bind,
      endsBy_strings (fun username _ => henter _ _ username) (by simp only [skip_pos]; omega)]
    simp only [rest_skip, skip_skip, skip_pos, List.length_drop, Nat.reduceAdd]
    omega

/-! ## The two stages -/

theorem exec_connectedReply (gen : Int) :
    ∃ out bytes, StreamBuffer.new.exec (connectedReply gen) = .ok ((), out) ∧
      ByteOutput out bytes := by
  have hreply := (appendsBytes_writeLong (toInt32 0)).bind
    ((appendsBytes_writeByte 0 .standard).bind (appendsBytes_writeLong (toInt32 gen)))
  obtain ⟨out, hrun, hout, -, -⟩ := Client.exec_ok hreply (byteOutput_ofSize defaultBufferSize)
  exact ⟨out, _, hrun, hout⟩

theorem endsBy_get_bind {α : Type} {f : StreamBuffer → StreamM α} {b : StreamBuffer}
    {limit : Nat} : EndsBy (get >>= f) b limit ↔ EndsBy (f b) b limit := Iff.rfl

/-- Nothing is read past two bytes. -/
theorem endsBy_handleConnectedStage {s : Server} {c : ClientId} {client : Client}
    (hc : s.clients c = some client) (hp : client.player = none) (gen : Int)
    (chunk : List Byte) : EndsBy (handleConnectedStage s c gen) (ofData chunk) chunk.length := by
  have hbyte := takes_readByte true .standard
  have hrest : (ofData chunk).rest.length = chunk.length := rfl
  have hremaining : (ofData chunk).remaining = chunk.length := remaining_eq_length (Nat.zero_le _)
  rw [handleConnectedStage, endsBy_get_bind, hremaining]
  by_cases hshort : (chunk.length : Int) < 2
  · rw [if_pos hshort, endsBy_lift_ok (disconnect_ok hc hp)]
    exact Nat.zero_le _
  · rw [if_neg hshort, hbyte.endsBy_bind, hbyte.endsBy_bind, rest_skip, List.length_drop, hrest,
      skip_skip]
    refine ⟨by omega, by omega, ?_⟩
    split
    · rw [endsBy_lift_ok (disconnect_ok hc hp)]
      change 0 + 2 ≤ chunk.length
      omega
    · obtain ⟨out, bytes, hrun, hout⟩ := exec_connectedReply gen
      rw [hrun, lift_ok, pure_bind]
      simp only [Client.send_ok hc hout, lift_ok, pure_bind]
      refine ⟨_, _, rfl, ?_⟩
      change 0 + 2 ≤ chunk.length
      omega

/-- The version of a login block. -/
def clientVersion (block : List Byte) : Nat :=
  256 * (block.getD 1 0).toNat + (block.getD 2 0).toNat

/-- The login block suffices for what is read of it: the version always, the RSA block if the
version is right, and the strings if the RSA opcode is. -/
def BlockSuffices : List Byte → Prop
  | loginType :: length :: block =>
      (loginType ≠ 16 ∧ loginType ≠ 18) ∨ block.length < length.toNat ∨
        if clientVersion block ≠ 317 then 3 ≤ length.toNat
        else if block.getD 41 0 ≠ 10 then 42 ≤ length.toNat
        else 2 ≤ ((block.take length.toNat).drop 62).count 10
  | _ => True

instance : DecidablePred BlockSuffices
  | [] => isTrue trivial
  | [_] => isTrue trivial
  | _ :: _ :: _ => inferInstanceAs (Decidable (_ ∨ _ ∨ _))

/-- The end of the login block: its declared length behind the two bytes of type and length. -/
def blockEnd : List Byte → Nat
  | _ :: length :: _ => 2 + length.toNat
  | chunk => chunk.length

theorem clientVersion_short {block : List Byte} (h : block.length < 3) :
    clientVersion block ≠ 317 := by
  have hlow : block.getD 2 0 = 0 := by
    rw [List.getD_eq_getElem?_getD, List.getElem?_eq_none (by omega), Option.getD_none]
  have hzero : (0 : Byte).toNat = 0 := rfl
  rw [clientVersion, hlow, hzero]
  omega

/-- The version as the parser reads it. -/
theorem clientVersion_eq {value : List Byte → Int}
    (hvalue : ∀ x y xs, value (x :: y :: xs) = 256 * x.toNat + y.toNat) {block : List Byte}
    (h : 3 ≤ block.length) : value (block.drop 1) % 2 ^ 16 = clientVersion block := by
  rcases block with _ | ⟨magic, _ | ⟨high, _ | ⟨low, block⟩⟩⟩
  · simp at h
  · simp at h
  · simp at h
  · have hhigh := high.isLt
    have hlow := low.isLt
    have hversion : clientVersion (magic :: high :: low :: block) =
        256 * high.toNat + low.toNat := rfl
    rw [List.drop_one, List.tail_cons, hvalue, hversion]
    omega

/-- The rest of a login block whose declared length has arrived. -/
theorem endsBy_block {s : Server} {c : ClientId} {client : Client}
    (hc : s.clients c = some client) (hp : client.player = none) {block : List Byte} {n : Nat}
    (hn : n ≤ 255) (hle : n ≤ block.length) {b : StreamBuffer} (hpos : b.pos = 2)
    (hrest : b.rest = block) :
    EndsBy (readByte >>= fun _ => readShort >>= fun clientVersion =>
        if clientVersion % 2 ^ 16 ≠ 317 then lift (Client.disconnect s c)
        else readCredentials s c) b (2 + n) ↔
      if clientVersion block ≠ 317 then 3 ≤ n
      else if block.getD 41 0 ≠ 10 then 42 ≤ n
      else 2 ≤ ((block.take n).drop 62).count 10 := by
  obtain ⟨value, hshort, hvalue⟩ := takes_readShort
  rw [(takes_readByte true .standard).endsBy_bind, hshort.endsBy_bind, skip_skip, rest_skip, hrest,
    List.length_drop]
  by_cases h3 : 3 ≤ block.length
  · have hversion := clientVersion_eq hvalue h3
    rw [hversion]
    by_cases hwrong : clientVersion block ≠ 317
    · have hwrong' : (clientVersion block : Int) ≠ 317 := by exact_mod_cast hwrong
      rw [if_pos hwrong, if_pos hwrong', endsBy_lift_ok (disconnect_ok hc hp), skip_pos, hpos]
      omega
    · have hright' : ¬ (clientVersion block : Int) ≠ 317 := by exact_mod_cast hwrong
      have hrsa : (block.drop 41).headD 0 = block.getD 41 0 := by
        rw [List.headD_eq_head?_getD, List.head?_drop, List.getD_eq_getElem?_getD]
      rw [if_neg hwrong, if_neg hright', endsBy_readCredentials hc hp (by rw [skip_pos]; omega)]
      simp only [rest_skip, hrest, skip_pos, hpos, List.drop_drop, List.length_drop,
        Nat.reduceAdd, hrsa, List.drop_take]
      have hlimit : 2 + n - 64 = n - 62 := by omega
      rw [hlimit]
      by_cases hopcode : block.getD 41 0 ≠ 10
      · rw [if_pos hopcode, if_pos hopcode]
        omega
      · rw [if_neg hopcode, if_neg hopcode]
        have hfew : 2 ≤ ((block.drop 62).take (n - 62)).count 10 → 62 ≤ block.length := by
          intro hcount
          have hlen := hcount.trans List.count_le_length
          rw [List.length_take, List.length_drop] at hlen
          omega
        constructor
        · exact fun h => h.2.2.2.2
        · exact fun h => ⟨by have := hfew h; omega, by omega, by have := hfew h; omega,
            by have := hfew h; omega, h⟩
  · rw [if_pos (clientVersion_short (by omega))]
    omega

theorem endsBy_handleLoggingInStage {s : Server} {c : ClientId} {client : Client}
    (hc : s.clients c = some client) (hp : client.player = none) (chunk : List Byte) :
    EndsBy (handleLoggingInStage s c) (ofData chunk) (min chunk.length (blockEnd chunk)) ↔
      BlockSuffices chunk := by
  have hdisconnect := disconnect_ok hc hp
  have hremaining : (ofData chunk).remaining = chunk.length := remaining_eq_length (Nat.zero_le _)
  rw [handleLoggingInStage, endsBy_get_bind, hremaining]
  rcases chunk with _ | ⟨loginType, _ | ⟨length, block⟩⟩
  · rw [if_pos (by decide), endsBy_lift_ok hdisconnect]
    exact ⟨fun _ => trivial, fun _ => Nat.zero_le _⟩
  · rw [if_pos (by simp), endsBy_lift_ok hdisconnect]
    exact ⟨fun _ => trivial, fun _ => Nat.zero_le _⟩
  · have hbyte := takes_readByte true .standard
    rw [if_neg (by simp only [List.length_cons]; omega), hbyte.endsBy_bind]
    have hrest : (ofData (loginType :: length :: block)).rest = loginType :: length :: block := rfl
    have htail : ((ofData (loginType :: length :: block)).skip 1).rest = length :: block := rfl
    have hlimit : min (loginType :: length :: block).length
        (blockEnd (loginType :: length :: block)) = min (block.length + 2) (2 + length.toNat) := rfl
    have hleft : ((ofData (loginType :: length :: block)).skip 2).remaining = block.length := by
      simp only [remaining, skip_pos, skip_buffer, ofData, List.length_cons]
      omega
    rw [hlimit]
    simp only [hrest, toByte_readValue, List.headD_cons, List.length_cons, Nat.le_add_left,
      true_and, BlockSuffices]
    by_cases htype : loginType ≠ 16 ∧ loginType ≠ 18
    · rw [if_pos htype, endsBy_lift_ok hdisconnect, skip_pos]
      exact ⟨fun _ => .inl htype, fun _ => by change 0 + 1 ≤ _; omega⟩
    · rw [if_neg htype, hbyte.endsBy_bind, htail, endsBy_get_bind, skip_skip]
      simp only [toByte_readValue, List.headD_cons, hleft, Nat.cast_lt, List.length_cons,
        Nat.le_add_left, true_and, htype, false_or]
      by_cases hshort : block.length < length.toNat
      · rw [if_pos hshort, endsBy_lift_ok hdisconnect, skip_pos]
        exact ⟨fun _ => .inl hshort, fun _ => by change 0 + 2 ≤ _; omega⟩
      · have hn := length.isLt
        have hmin : min (block.length + 2) (2 + length.toNat) = 2 + length.toNat := by omega
        simp only [hshort, if_false, false_or]
        rw [hmin]
        exact endsBy_block hc hp (by omega) (by omega) rfl rfl

/-- `Process` returns normally and every read was inside the chunk, in the second stage also
inside the declared block. -/
def ReadsInside (s : Server) (c : ClientId) (stage : NetworkStage) (gen : Int)
    (chunk : List Byte) : Prop :=
  EndsBy (process s c gen) (ofData chunk)
    (if stage = .loggingIn then min chunk.length (blockEnd chunk) else chunk.length)

theorem process_connected {s : Server} {c : ClientId} {client : Client}
    (hc : s.clients c = some client) (h : client.stage = .connected) (gen : Int) :
    process s c gen = handleConnectedStage s c gen := by
  simp only [process, Server.lockClient_eq hc, lift_ok, pure_bind, h]

theorem process_loggingIn {s : Server} {c : ClientId} {client : Client}
    (hc : s.clients c = some client) (h : client.stage = .loggingIn) (gen : Int) :
    process s c gen = handleLoggingInStage s c := by
  simp only [process, Server.lockClient_eq hc, lift_ok, pure_bind, h]

theorem process_loggedOut {s : Server} {c : ClientId} {client : Client}
    (hc : s.clients c = some client) (h : client.stage = .loggedOut) (gen : Int) :
    process s c gen = pure s := by
  simp only [process, Server.lockClient_eq hc, lift_ok, pure_bind, h]

/-- The parser reads inside the bytes it was given exactly when a login block, if it gets to
one, suffices. -/
theorem process_readsInside_iff {s : Server} {c : ClientId} {client : Client}
    (hc : s.clients c = some client) (hp : client.player = none)
    (hstage : client.stage = .connected ∨ client.stage = .loggingIn) (gen : Int)
    (chunk : List Byte) :
    ReadsInside s c client.stage gen chunk ↔
      (client.stage = .loggingIn → BlockSuffices chunk) := by
  rcases hstage with h | h
  · rw [ReadsInside, process_connected hc h, h, if_neg (by decide)]
    exact ⟨fun _ hne => (nomatch hne), fun _ => endsBy_handleConnectedStage hc hp gen chunk⟩
  · rw [ReadsInside, process_loggingIn hc h, h, if_pos rfl, endsBy_handleLoggingInStage hc hp]
    exact ⟨fun hb _ => hb, fun hb => hb rfl⟩

/-- A server with one client, about to send its login block. -/
def newcomer : Server := Server.initial.setClient 0 { stage := .loggingIn }

theorem newcomer_client : newcomer.clients 0 = some { stage := .loggingIn } :=
  Server.setClient_clients_self ..

/-- A login block with everything in it that is read. -/
def fullBlock : List Byte :=
  [16, 64, 255, 1, 61, 0] ++ List.replicate 36 0 ++ [0, 10] ++ List.replicate 20 0 ++ [10, 10]

theorem newcomer_fullBlock_readsInside : ReadsInside newcomer 0 .loggingIn 0 fullBlock :=
  (process_readsInside_iff newcomer_client rfl (.inr rfl) 0 fullBlock).mpr fun _ => by decide

/-- Of a block of length zero the first byte is already past the end. -/
theorem newcomer_emptyBlock_overreads :
    newcomer.clients 0 = some { stage := .loggingIn } ∧
      (∃ b, process newcomer 0 0 (ofData [16, 0]) = .error .outOfBounds b) ∧
      ¬ ReadsInside newcomer 0 .loggingIn 0 [16, 0] := by
  have hrun : ∃ b, process newcomer 0 0 (ofData [16, 0]) = .error .outOfBounds b := ⟨_, rfl⟩
  refine ⟨newcomer_client, hrun, ?_⟩
  rintro ⟨s', b', hok, -⟩
  obtain ⟨b, herr⟩ := hrun
  rw [herr] at hok
  cases hok

end LoginHandler
end AsioRsps
