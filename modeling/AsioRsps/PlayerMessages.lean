import AsioRsps.ClientFrames
import AsioRsps.BufferGrowth
import AsioRsps.UpdateDecoder

/-!
# Player messages

What a client makes of the frame of `SendPlayerMessage`. The size of the payload is one byte
and the text ends at its first newline, so the frame says what was meant as long as the text
has no newline of its own and the size is not cut.
-/
namespace AsioRsps
open StreamBuffer BitStrings PrefixReader Client

namespace PlayerMessage

/-- A line up to its newline, which must be there. -/
def readLine : List Byte → Option (List Byte)
  | [] => none
  | c :: rest => if c = 10 then some [] else (readLine rest).map (c :: ·)

/-- The receiver decrypts the opcode, reads the size, takes that many bytes and reads a line from
them. -/
def receive (cipher : ISAACCipher) : Reader Byte (List Byte) := do
  let opcode ← PlayerUpdate.readByte
  let size ← PlayerUpdate.readByte
  let payload ← PlayerUpdate.takeBytes size
  if BitVec.ofNat 8 opcode - toByte cipher.nextKey.toNat = 253 then
    StateT.lift (readLine payload)
  else failure

theorem readLine_eq_some {payload message : List Byte} :
    readLine payload = some message ↔ 10 ∉ message ∧ message ++ [10] <+: payload := by
  induction payload generalizing message with
  | nil => simp [readLine]
  | cons c rest ih =>
      by_cases hc : c = 10
      · subst hc
        rw [readLine, if_pos rfl]
        constructor
        · rintro ⟨⟩
          exact ⟨List.not_mem_nil, rest, rfl⟩
        · rintro ⟨hmem, hpre⟩
          cases message with
          | nil => rfl
          | cons m message =>
              have hm := (List.cons_prefix_cons.mp hpre).1
              exact absurd (hm ▸ List.mem_cons_self) hmem
      · rw [readLine, if_neg hc]
        cases message with
        | nil =>
            constructor
            · intro h
              cases hr : readLine rest <;> rw [hr] at h <;> cases h
            · rintro ⟨-, hpre⟩
              exact absurd (List.cons_prefix_cons.mp hpre).1.symm hc
        | cons m message =>
            rw [Option.map_eq_some_iff]
            constructor
            · rintro ⟨line, hline, heq⟩
              obtain ⟨rfl, rfl⟩ := List.cons.inj heq
              obtain ⟨hmem, hpre⟩ := ih.mp hline
              exact ⟨List.not_mem_cons_of_ne_of_not_mem (Ne.symm hc) hmem,
                List.cons_prefix_cons.mpr ⟨rfl, hpre⟩⟩
            · rintro ⟨hmem, hpre⟩
              obtain ⟨rfl, hrest⟩ := List.cons_prefix_cons.mp hpre
              exact ⟨message, ih.mpr ⟨fun h => hmem (List.mem_cons_of_mem _ h), hrest⟩, rfl⟩

/-- The decrypted opcode is the one that was encrypted. -/
theorem opcodeByte_sub_key (cipher : ISAACCipher) :
    opcodeByte 253 cipher - toByte cipher.nextKey.toNat = 253 := by
  rw [opcodeByte, toByte, toByte, BitVec.ofInt_add, BitVec.add_sub_cancel]
  rfl

theorem receive_cons (cipher : ISAACCipher) (size : Byte) (rest : List Byte) :
    receive cipher (opcodeByte 253 cipher :: size :: rest) =
      if size.toNat ≤ rest.length then
        (readLine (rest.take size.toNat)).map fun line => (line, rest.drop size.toNat)
      else none := by
  have hopcode : BitVec.ofNat 8 (opcodeByte 253 cipher).toNat - toByte cipher.nextKey.toNat =
      253 := by rw [BitVec.ofNat_toNat, BitVec.setWidth_eq, opcodeByte_sub_key]
  simp only [receive, PlayerUpdate.readByte, PlayerUpdate.takeBytes, bind, StateT.bind, Option.bind]
  by_cases h : size.toNat ≤ rest.length
  · simp only [if_pos h, hopcode, if_true, StateT.lift, bind, Option.bind, pure]
    cases readLine (rest.take size.toNat) <;> rfl
  · simp only [if_neg h]

/-- The receiver gets the message and the end of the frame exactly when the message has no
newline and its size fits the byte. -/
theorem reads_receive_iff (cipher : ISAACCipher) (message : List Byte) :
    Reads (receive cipher) ((messageFrame message).encrypt cipher) message ↔
      10 ∉ message ∧ message.length ≤ 254 := by
  let size := toByte (message.length + 1)
  have hsize : size.toNat = (message.length + 1) % 256 := by
    simp only [size, toByte, ← Nat.cast_succ, BitVec.ofInt_natCast, BitVec.toNat_ofNat]
  have hframe : (messageFrame message).encrypt cipher =
      opcodeByte 253 cipher :: size :: (message ++ [10]) := rfl
  rw [hframe]
  constructor
  · intro h
    have hrun := h []
    rw [List.append_nil, receive_cons] at hrun
    have hlen : size.toNat ≤ (message ++ [10]).length := by
      by_contra hlong
      rw [if_neg hlong] at hrun
      cases hrun
    rw [if_pos hlen, Option.map_eq_some_iff] at hrun
    obtain ⟨line, hline, heq⟩ := hrun
    obtain ⟨rfl, hdrop⟩ := Prod.mk.inj heq
    refine ⟨(readLine_eq_some.mp hline).1, ?_⟩
    rw [List.drop_eq_nil_iff] at hdrop
    simp only [List.length_append, List.length_singleton] at hdrop
    omega
  · rintro ⟨hmem, hshort⟩ tail
    have hall : size.toNat = (message ++ [10]).length := by
      rw [List.length_append, List.length_singleton, hsize]
      omega
    rw [List.cons_append, List.cons_append, receive_cons, hall,
      if_pos (List.prefix_append _ _).length_le, List.take_left,
      List.drop_left, readLine_eq_some.mpr ⟨hmem, List.prefix_rfl⟩]
    rfl

/-! ## Sending -/

theorem toSize_natCast (n : Nat) : toSize (n : Int) = n % 2 ^ 64 := by
  rw [toSize, BitVec.ofInt_natCast, BitVec.toNat_ofNat]

/-- The frame of a message is closed whatever its length; only the low byte of the size is
kept. -/
theorem finish_message {b : StreamBuffer} {op : Byte} {message : List Byte}
    (h : ByteOutput b (op :: 0 :: (message ++ [10]))) (hframe : b.frameSize = 1)
    (hkind : b.headerSize = .byte) :
    finishVariableHeader b = .ok () b.closed ∧
      ByteOutput b.closed (op :: toByte (message.length + 1) :: (message ++ [10])) := by
  have hpos : b.pos = message.length + 3 := by
    rw [h.cursor]
    simp
  obtain ⟨rest, hrest⟩ := h.written
  have haccepted : ¬ SizeRefused b := by
    have hlen : b.frameSize + b.headerSize.width ≤ b.buffer.length := by
      rw [hframe, hkind, ← hrest]
      simp [VariableHeaderSize.width]
    have hsize : (b.pos : Int) - b.frameSize = ((message.length + 2 : Nat) : Int) := by
      rw [hpos, hframe]
      push_cast
      ring
    rw [SizeRefused, hsize, toSize_natCast]
    have := Nat.mod_le (message.length + 2) (2 ^ 64)
    omega
  refine ⟨(finishVariableHeader_open (by omega) (by omega)).1 (.inr haccepted), h.access, ?_, ?_⟩
  · change b.pos = _
    rw [hpos]
    simp
  · have hsize : (b.pos : Int) - (1 : Nat) - (1 : Nat) = message.length + 1 := by
      rw [hpos]
      push_cast
      ring
    change _ <+: putSize b.headerSize b.buffer b.frameSize
      ((b.pos : Int) - b.frameSize - b.headerSize.width)
    rw [hkind, hframe, VariableHeaderSize.width, hsize, ← hrest]
    exact ⟨rest, rfl⟩

/-- Every message whose buffer can be constructed is sent. -/
theorem sendPlayerMessage_sends {s : Server} {c : ClientId} {client : Client} {cipher : ISAACCipher}
    (hc : s.clients c = some client) (he : client.encryptor = some cipher) {message : List Byte}
    (hsize : ¬ toInt32 (message.length + 3) < 0) :
    sendPlayerMessage s c message =
      .ok (s.setClient c (client.pushFrame cipher (messageFrame message))) := by
  obtain ⟨b₀, hw, h₀, hf₀, hh₀⟩ :=
    writeHeader_byte (toInt32 ((message.length : Int) + 3)).toNat 253 cipher
  obtain ⟨b₁, hx, h₁, hf₁, hh₁⟩ := exec_ok (appendsBytes_writeString message) h₀
  obtain ⟨hy, h₂⟩ := finish_message h₁ (hf₁.trans hf₀) (hh₁.trans hh₀)
  have hyx : b₁.exec finishVariableHeader = .ok ((), b₁.closed) := by simp only [exec, hy]
  simp only [sendPlayerMessage, hsize, if_false, openFrame_eq hc he hw, bind, Except.bind, hx, hyx]
  rw [send_ok (Server.setClient_clients_self ..) h₂, Server.setClient_setClient]
  rfl

/-- The call throws, or posts one frame from which the receiver gets the message. -/
def Delivers (s : Server) (c : ClientId) (client : Client) (cipher : ISAACCipher)
    (message : List Byte) : Prop :=
  match sendPlayerMessage s c message with
  | .error e => e.isException
  | .ok s' => ∃ frame,
      s' = s.setClient c
        { client.drawKey cipher with strand := client.strand ++ [.push frame] } ∧
      Reads (receive cipher) frame message

/-- What is posted is what the receiver must get the message from. -/
theorem delivers_of_sent {s : Server} {c : ClientId} {client : Client} {cipher : ISAACCipher}
    (hc : s.clients c = some client) (he : client.encryptor = some cipher) {message : List Byte}
    (hsize : ¬ toInt32 (message.length + 3) < 0) : Delivers s c client cipher message ↔
      Reads (receive cipher) ((messageFrame message).encrypt cipher) message := by
  rw [Delivers, sendPlayerMessage_sends hc he hsize]
  constructor
  · rintro ⟨frame, hposted, hreads⟩
    have hclient := congrFun (congrArg Server.clients hposted) c
    rw [Server.setClient_clients_self, Server.setClient_clients_self] at hclient
    have hstrand := congrArg Client.strand (Option.some.inj hclient)
    have hframe := List.append_cancel_left hstrand
    cases hframe
    exact hreads
  · exact fun hreads => ⟨_, rfl, hreads⟩

/-- A message is delivered exactly when it fits the size byte and has no newline of its own, or
is so long that the buffer is refused. -/
theorem delivers_iff {s : Server} {c : ClientId} {client : Client} {cipher : ISAACCipher}
    (hc : s.clients c = some client) (he : client.encryptor = some cipher) (message : List Byte) :
    Delivers s c client cipher message ↔
      10 ∉ message ∧ message.length ≤ 254 ∨ toInt32 (message.length + 3) < 0 := by
  by_cases hsize : toInt32 (message.length + 3) < 0
  · have hrefused : sendPlayerMessage s c message = .error .lengthError := by
      simp only [sendPlayerMessage, hsize, if_true]
      rfl
    rw [Delivers, hrefused]
    exact ⟨fun _ => .inr hsize, fun _ => trivial⟩
  · rw [delivers_of_sent hc he hsize, or_iff_left hsize, reads_receive_iff]

/-- A client that has logged in, alone on its server. -/
def keyedClient (cipher : ISAACCipher) : Client := { stage := .loggedIn, encryptor := some cipher }

theorem delivers_greeting :
    Delivers (Server.initial.setClient 0 (keyedClient (.new #v[0, 0, 0, 0]))) 0
      (keyedClient (.new #v[0, 0, 0, 0])) (.new #v[0, 0, 0, 0]) [72, 105] :=
  (delivers_iff (Server.setClient_clients_self ..) rfl [72, 105]).mpr
    (.inl ⟨by decide, by decide⟩)

theorem newline_lost (cipher : ISAACCipher) :
    ¬ Delivers (Server.initial.setClient 0 (keyedClient cipher)) 0 (keyedClient cipher) cipher
      [72, 10, 105] := by
  have hsize : ¬ toInt32 (([72, 10, 105] : List Byte).length + 3) < 0 := by decide
  have hnewline : (10 : Byte) ∈ ([72, 10, 105] : List Byte) := by decide
  rw [delivers_of_sent (Server.setClient_clients_self ..) rfl hsize, reads_receive_iff]
  exact fun h => h.1 hnewline

/-- A newline in a message ends it for the receiver. -/
theorem newline_not_delivered :
    ¬ Delivers (Server.initial.setClient 0 (keyedClient (.new #v[0, 0, 0, 0]))) 0
      (keyedClient (.new #v[0, 0, 0, 0])) (.new #v[0, 0, 0, 0]) [72, 10, 105] :=
  newline_lost (.new #v[0, 0, 0, 0])

end PlayerMessage
end AsioRsps
