import AsioRsps.ByteOutput
import AsioRsps.Server

/-!
# Frames sent to a client

`Client::Send` and the frame builders of `Client`. Every encrypted frame is built the same
way: `WriteHeader` draws one key for the opcode byte, the body follows, and `Send` posts the
finished bytes to the strand.
-/
namespace AsioRsps
open BitStrings (Byte)
open StreamBuffer

namespace Client

/-- `Send` posts a copy of the written part of the buffer. -/
def send (s : Server) (c : ClientId) (out : StreamBuffer) : Except Fault Server :=
  if out.buffer.length < out.pos then .error .outOfBounds
  else .ok (s.modifyClient c fun client =>
    { client with strand := client.strand ++ [.push (out.buffer.take out.pos)] })

/-- `StreamBuffer outStream(size); outStream.WriteHeader(opcode, *m_Encryptor, headerSize);` -/
def openFrame (s : Server) (c : ClientId) (size : Nat) (opcode : Int)
    (headerSize : VariableHeaderSize) : Except Fault (StreamBuffer × Server) := do
  let client ← s.lockClient c
  let encryptor ← Server.deref client.encryptor
  match writeHeader opcode headerSize (ofSize size, encryptor) with
  | .ok () (out, encryptor) =>
      return (out, s.setClient c { client with encryptor := some encryptor })
  | .error e _ => throw e

def sendMapRegion (s : Server) (c : ClientId) : Except Fault Server := do
  let (out, s) ← openFrame s c 5 73 .none
  let client ← s.lockClient c
  let p ← Server.deref (s.lockPlayer client.player)
  let position := (s.players p).position
  let (_, out) ← out.exec (writeShort (position.regionX + 6).toInt .a)
  let (_, out) ← out.exec (writeShort (position.regionY + 6).toInt)
  send s c out

/-- The size of the buffer is an `int32_t`; a vector of a negative size is refused. -/
def sendPlayerMessage (s : Server) (c : ClientId) (message : List Byte) : Except Fault Server := do
  let size := toInt32 (message.length + 3)
  if size < 0 then throw .lengthError
  let (out, s) ← openFrame s c size.toNat 253 .byte
  let (_, out) ← out.exec (writeString message)
  let (_, out) ← out.exec finishVariableHeader
  send s c out

def sendSidebarInterface (s : Server) (c : ClientId) (menuId form : Int) : Except Fault Server := do
  let (out, s) ← openFrame s c 4 71 .none
  let (_, out) ← out.exec (writeShort form)
  let (_, out) ← out.exec (writeByte menuId .a)
  send s c out

/-! ## What the builders queue -/

/-- A frame before its opcode is encrypted. -/
structure OutFrame where
  opcode : Int
  body : List Byte
  deriving DecidableEq

def OutFrame.encrypt (f : OutFrame) (cipher : ISAACCipher) : List Byte :=
  opcodeByte f.opcode cipher :: f.body

/-- The frames posted to the client, in order. -/
def queued (client : Client) : List (List Byte) :=
  client.strand.filterMap fun posted => match posted with
    | .push data => some data
    | .requestDisconnect => none

/-- The effect of writing a header: one key drawn. -/
def drawKey (client : Client) (cipher : ISAACCipher) : Client :=
  { client with encryptor := some cipher.getNextKey.2 }

/-- The effect of sending one frame: one key drawn, one frame posted. -/
def pushFrame (client : Client) (cipher : ISAACCipher) (f : OutFrame) : Client :=
  { client.drawKey cipher with strand := client.strand ++ [.push (f.encrypt cipher)] }

/-- The effect of sending several frames. -/
def pushFrames (client : Client) (cipher : ISAACCipher) : List OutFrame → Client
  | [] => client
  | f :: fs => (client.pushFrame cipher f).pushFrames cipher.getNextKey.2 fs

/-- Frames encrypted with successive keys. -/
def encryptAll (cipher : ISAACCipher) : List OutFrame → List (List Byte)
  | [] => []
  | f :: fs => f.encrypt cipher :: encryptAll cipher.getNextKey.2 fs

@[simp] theorem encryptAll_length (cipher : ISAACCipher) (fs : List OutFrame) :
    (encryptAll cipher fs).length = fs.length := by
  induction fs generalizing cipher with
  | nil => rfl
  | cons f fs ih => simp only [encryptAll, List.length_cons, ih]

theorem encryptAll_append (cipher : ISAACCipher) (fs gs : List OutFrame) :
    encryptAll cipher (fs ++ gs) =
      encryptAll cipher fs ++ encryptAll (cipher.advance fs.length) gs := by
  induction fs generalizing cipher with
  | nil => rfl
  | cons f fs ih => simp only [List.cons_append, encryptAll, ih, List.length_cons,
      ISAACCipher.advance_succ]

theorem pushFrames_append (client : Client) (cipher : ISAACCipher) (fs gs : List OutFrame) :
    client.pushFrames cipher (fs ++ gs) =
      (client.pushFrames cipher fs).pushFrames (cipher.advance fs.length) gs := by
  induction fs generalizing client cipher with
  | nil => rfl
  | cons f fs ih => simp only [List.cons_append, pushFrames, ih, List.length_cons,
      ISAACCipher.advance_succ]

/-- Sending changes the encryptor and the strand and nothing else. -/
theorem pushFrames_eq (client : Client) (cipher : ISAACCipher) (fs : List OutFrame)
    (h : client.encryptor = some cipher) :
    client.pushFrames cipher fs = { client with
      encryptor := some (cipher.advance fs.length)
      strand := client.strand ++ (encryptAll cipher fs).map .push } := by
  induction fs generalizing client cipher with
  | nil => simp only [pushFrames, encryptAll, List.map_nil, List.append_nil, List.length_nil,
      ISAACCipher.advance_zero, ← h]
  | cons f fs ih =>
      rw [pushFrames, ih _ _ rfl]
      simp only [pushFrame, drawKey, encryptAll, List.map_cons, List.append_assoc,
        List.singleton_append,
        List.length_cons, ISAACCipher.advance_succ]

theorem pushFrames_encryptor {client : Client} {cipher : ISAACCipher} (fs : List OutFrame)
    (h : client.encryptor = some cipher) :
    (client.pushFrames cipher fs).encryptor = some (cipher.advance fs.length) := by
  rw [pushFrames_eq client cipher fs h]

theorem queued_pushFrames (client : Client) (cipher : ISAACCipher) (fs : List OutFrame)
    (h : client.encryptor = some cipher) :
    (client.pushFrames cipher fs).queued = client.queued ++ encryptAll cipher fs := by
  rw [pushFrames_eq client cipher fs h]
  simp only [queued, List.filterMap_append, List.filterMap_map, Function.comp_def,
    List.filterMap_some]

theorem send_ok {s : Server} {c : ClientId} {client : Client} {out : StreamBuffer}
    {bytes : List Byte} (hc : s.clients c = some client) (ho : ByteOutput out bytes) :
    send s c out = .ok (s.setClient c
      { client with strand := client.strand ++ [.push bytes] }) := by
  have hle := ho.written.length_le
  have hfit : ¬ out.buffer.length < out.pos := by rw [ho.cursor]; omega
  simp only [send, hfit, if_false, Server.modifyClient_eq hc, ho.take]

/-- A client with an encryptor can open any frame. -/
theorem openFrame_eq {s : Server} {c : ClientId} {client : Client} {cipher : ISAACCipher}
    {size : Nat} {opcode : Int} {headerSize : VariableHeaderSize} {out : StreamBuffer}
    (hc : s.clients c = some client) (he : client.encryptor = some cipher)
    (hw : writeHeader opcode headerSize (ofSize size, cipher) =
      .ok () (out, cipher.getNextKey.2)) :
    openFrame s c size opcode headerSize =
      .ok (out, s.setClient c (client.drawKey cipher)) := by
  simp only [openFrame, Server.lockClient_eq hc, he, Server.deref_some, bind, Except.bind, hw, pure,
    Except.pure, drawKey]

theorem exec_ok {m : StreamM Unit} {bytes w : List Byte} {b : StreamBuffer}
    (hm : AppendsBytes m bytes) (hb : ByteOutput b w) :
    ∃ b', b.exec m = .ok ((), b') ∧ ByteOutput b' (w ++ bytes) ∧ b'.frameSize = b.frameSize ∧
      b'.headerSize = b.headerSize := by
  obtain ⟨b', hrun, hout, hf, hh⟩ := hm b w hb
  exact ⟨b', by simp only [exec, hrun], hout, hf, hh⟩

def mapRegionFrame (position : Position) : OutFrame where
  opcode := 73
  body :=
    let x := (position.regionX + 6).toInt
    [toByte (x >>> (8 : Nat)), toByte (x + 128)] ++ shortBytes (position.regionY + 6).toInt

def sidebarFrame (menuId form : Int) : OutFrame where
  opcode := 71
  body := shortBytes form ++ [toByte (menuId + 128)]

def messageFrame (message : List Byte) : OutFrame where
  opcode := 253
  body := toByte (message.length + 1) :: (message ++ [10])

theorem sendMapRegion_ok {s : Server} {c : ClientId} {client : Client} {cipher : ISAACCipher}
    {p : PlayerId} (hc : s.clients c = some client) (he : client.encryptor = some cipher)
    (hp : s.lockPlayer client.player = some p) :
    sendMapRegion s c = .ok (s.setClient c
      (client.pushFrame cipher (mapRegionFrame (s.players p).position))) := by
  obtain ⟨b₀, hw, h₀⟩ := writeHeader_none 5 73 cipher
  obtain ⟨b₁, hx, h₁, -, -⟩ := exec_ok (appendsBytes_writeShortA
    ((s.players p).position.regionX + 6).toInt) h₀
  obtain ⟨b₂, hy, h₂, -, -⟩ := exec_ok (appendsBytes_writeShort
    ((s.players p).position.regionY + 6).toInt) h₁
  have hlock : (s.setClient c (client.drawKey cipher)).lockPlayer
      (client.drawKey cipher).player = some p := hp
  simp only [sendMapRegion, openFrame_eq hc he hw, bind, Except.bind, Server.lockClient,
    Server.setClient_clients_self, hlock, Server.deref_some, Server.setClient_players, hx, hy]
  rw [send_ok (Server.setClient_clients_self ..) h₂, Server.setClient_setClient]
  rfl

theorem sendSidebarInterface_ok {s : Server} {c : ClientId} {client : Client}
    {cipher : ISAACCipher} (hc : s.clients c = some client) (he : client.encryptor = some cipher)
    (menuId form : Int) :
    sendSidebarInterface s c menuId form =
      .ok (s.setClient c (client.pushFrame cipher (sidebarFrame menuId form))) := by
  obtain ⟨b₀, hw, h₀⟩ := writeHeader_none 4 71 cipher
  obtain ⟨b₁, hx, h₁, -, -⟩ := exec_ok (appendsBytes_writeShort form) h₀
  obtain ⟨b₂, hy, h₂, -, -⟩ := exec_ok (appendsBytes_writeByte menuId .a) h₁
  simp only [sendSidebarInterface, openFrame_eq hc he hw, bind, Except.bind, hx, hy]
  rw [send_ok (Server.setClient_clients_self ..) h₂, Server.setClient_setClient]
  rfl

/-- Messages short enough for the buffer arithmetic of the source. -/
theorem sendPlayerMessage_ok {s : Server} {c : ClientId} {client : Client} {cipher : ISAACCipher}
    (hc : s.clients c = some client) (he : client.encryptor = some cipher) (message : List Byte)
    (hlen : message.length < 2 ^ 30) :
    sendPlayerMessage s c message =
      .ok (s.setClient c (client.pushFrame cipher (messageFrame message))) := by
  have hsize : toInt32 ((message.length : Int) + 3) = message.length + 3 := by
    rw [toInt32, BitVec.toInt_ofInt, Int.bmod_eq_of_le (by omega) (by omega)]
  have hnonneg : ¬ (message.length : Int) + 3 < 0 := by omega
  obtain ⟨b₀, hw, h₀, hf₀, hh₀⟩ := writeHeader_byte ((message.length : Int) + 3).toNat 253 cipher
  obtain ⟨b₁, hx, h₁, hf₁, hh₁⟩ := exec_ok (appendsBytes_writeString message) h₀
  have h₁' : ByteOutput b₁ ([opcodeByte 253 cipher] ++ 0 :: (message ++ [10])) := h₁
  obtain ⟨b₂, hy, h₂⟩ := finishVariableHeader_byte h₁' (by simp) (hf₁.trans hf₀)
    (hh₁.trans hh₀) (by simp; omega)
  rw [List.length_append, List.length_singleton, Nat.cast_add, Nat.cast_one] at h₂
  have hyx : b₁.exec finishVariableHeader = .ok ((), b₂) := by simp only [exec, hy]
  simp only [sendPlayerMessage, hsize, hnonneg, if_false, openFrame_eq hc he hw, bind, Except.bind,
    hx, hyx]
  rw [send_ok (Server.setClient_clients_self ..) h₂, Server.setClient_setClient]
  rfl

end Client
end AsioRsps
