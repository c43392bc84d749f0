import AsioRsps.ByteInput
import AsioRsps.World

/-!
# LoginHandler

The two stages of a login, read from the buffer the client's bytes arrived in.
-/
namespace AsioRsps
open StreamBuffer

/-- A computation beside the buffer. -/
def StreamBuffer.lift {α : Type} : Except Fault α → StreamM α
  | .ok a => pure a
  | .error e => throw e

@[simp] theorem StreamBuffer.lift_ok {α : Type} (a : α) :
    StreamBuffer.lift (.ok a) = pure a := rfl

@[simp] theorem StreamBuffer.lift_error {α : Type} (e : Fault) :
    StreamBuffer.lift (.error e : Except Fault α) = throw e := rfl

namespace LoginResponse

def ok : Int := 2
def accountOnline : Int := 5
def reconnect : Int := 15

end LoginResponse

namespace LoginHandler

/-- `WriteLong` with one argument takes an `int32_t`, so of the random number only the low
half is sent. -/
def connectedReply (gen : Int) : StreamM Unit := do
  writeLong1 0
  writeByte 0
  writeLong1 gen

def handleConnectedStage (s : Server) (c : ClientId) (gen : Int) : StreamM Server := do
  if (← get).remaining < 2 then lift (Client.disconnect s c)
  else
    let request ← readByte
    let _ ← readByte
    if toByte request ≠ 14 then lift (Client.disconnect s c)
    else
      let (_, out) ← lift (StreamBuffer.new.exec (connectedReply gen))
      let s ← lift (Client.send s c out)
      return s.modifyClient c fun client => { client with stage := .loggingIn }

/-- The cipher seed of the two halves, each word offset by the same amount. -/
def seed (clientHalf serverHalf : Int) (offset : Word) : Vector Word 4 :=
  #v[BitVec.ofInt 32 (clientHalf >>> (32 : Nat)) + offset, BitVec.ofInt 32 clientHalf + offset,
    BitVec.ofInt 32 (serverHalf >>> (32 : Nat)) + offset, BitVec.ofInt 32 serverHalf + offset]

def setCiphers (s : Server) (c : ClientId) (clientHalf serverHalf : Int) : Server :=
  s.modifyClient c fun client =>
    { client with
      decryptor := some (ISAACCipher.new (seed clientHalf serverHalf 0))
      encryptor := some (ISAACCipher.new (seed clientHalf serverHalf 50)) }

/-- The response to a username. -/
def response (s : Server) (c : ClientId) (username : Name) : Int :=
  match World.getPlayer s username with
  | none => LoginResponse.ok
  | some existing =>
      let existingClient := (s.players existing).client
      if (s.clients existingClient).isNone ∨ existingClient = c then LoginResponse.reconnect
      else LoginResponse.accountOnline

def reply (response : Int) : StreamM Unit := do
  writeByte response
  if response = LoginResponse.ok then
    writeByte 0
    writeByte 0

/-- The end of `HandleLoggingInStage`, after everything has been read. -/
def enterWorld (s : Server) (c : ClientId) (username : Name) : Except Fault Server := do
  let s := s.modifyClient c fun client => { client with username }
  let response := response s c username
  let (_, out) ← StreamBuffer.new.exec (reply response)
  let s ← Client.send s c out
  if response ≠ LoginResponse.ok ∧ response ≠ LoginResponse.reconnect then
    return Client.requestDisconnect s c
  else
    let player := s.nextPlayer
    let s := { s.setPlayer player { username, client := c } with nextPlayer := player + 1 }
    let s := s.modifyClient c fun client =>
      { client with player := some player, stage := .loggedIn }
    World.registerPlayer s player

/-- `for (int i = 0; i < 9; i++) inStream.ReadInt();` -/
def skipInts : Nat → StreamM Unit
  | 0 => pure ()
  | n+1 => do
      let _ ← readInt
      skipInts n

/-- The rest of the login block after the version. -/
def readCredentials (s : Server) (c : ClientId) : StreamM Server := do
  let _ ← readByte
  skipInts 9
  let _ ← readByte
  let rsaOpcode ← readByte
  if toByte rsaOpcode ≠ 10 then lift (Client.disconnect s c)
  else
    let clientHalf ← readLong
    let serverHalf ← readLong
    let s := setCiphers s c clientHalf serverHalf
    let _ ← readInt
    let username ← readString
    let _password ← readString
    lift (enterWorld s c username)

def handleLoggingInStage (s : Server) (c : ClientId) : StreamM Server := do
  if (← get).remaining < 2 then lift (Client.disconnect s c)
  else
    let loginType ← readByte
    if toByte loginType ≠ 16 ∧ toByte loginType ≠ 18 then lift (Client.disconnect s c)
    else
      let blockLength := (toByte (← readByte)).toNat
      if (← get).remaining < blockLength then lift (Client.disconnect s c)
      else
        let _magic ← readByte
        let clientVersion ← readShort
        if clientVersion % 2 ^ 16 ≠ 317 then lift (Client.disconnect s c)
        else readCredentials s c

/-- `Process`; the random number of the connected stage is an argument. -/
def process (s : Server) (c : ClientId) (gen : Int) : StreamM Server := do
  let client ← lift (s.lockClient c)
  match client.stage with
  | .connected => handleConnectedStage s c gen
  | .loggingIn => handleLoggingInStage s c
  | _ => return s

end LoginHandler
end AsioRsps
