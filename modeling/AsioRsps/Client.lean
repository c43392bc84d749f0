import AsioRsps.FallibleLoop
import AsioRsps.LoginHandler

/-!
# Incoming data

The packet loop of `Client`: the flood check, the opcode and length of each packet, and the
handling of its payload. The loop may be entered in any state of its two locals, and is not
assumed to end.
-/
namespace AsioRsps
open BitStrings (Byte)
open StreamBuffer

set_option maxRecDepth 2000 in
/-- `PacketLengths`; `-1` marks a packet whose length is sent in a byte. -/
def packetLengths : Vector Int 256 := #v[
  0, 0, 0, 1, -1, 0, 0, 0, 0, 0,
  0, 0, 0, 0, 8, 0, 6, 2, 2, 0,
  0, 2, 0, 6, 0, 12, 0, 0, 0, 0,
  0, 0, 0, 0, 0, 8, 4, 0, 0, 2,
  2, 6, 0, 6, 0, -1, 0, 0, 0, 0,
  0, 0, 0, 12, 0, 0, 0, 0, 8, 0,
  0, 8, 0, 0, 0, 0, 0, 0, 0, 0,
  6, 0, 2, 2, 8, 6, 0, -1, 0, 6,
  0, 0, 0, 0, 0, 1, 4, 6, 0, 0,
  0, 0, 0, 0, 0, 3, 0, 0, -1, 0,
  0, 13, 0, -1, 0, 0, 0, 0, 0, 0,
  0, 0, 0, 0, 0, 0, 0, 6, 0, 0,
  1, 0, 6, 0, 0, 0, -1, 0, 2, 6,
  0, 4, 6, 8, 0, 6, 0, 0, 0, 2,
  0, 0, 0, 0, 0, 6, 0, 0, 0, 0,
  0, 0, 1, 2, 0, 2, 6, 0, 0, 0,
  0, 0, 0, 0, -1, -1, 0, 0, 0, 0,
  0, 0, 0, 0, 0, 0, 0, 0, 0, 0,
  0, 8, 0, 3, 0, 2, 0, 0, 8, 1,
  0, 0, 12, 0, 0, 0, 0, 0, 0, 0,
  2, 0, 0, 0, 0, 0, 0, 0, 4, 0,
  4, 0, 0, 0, 7, 8, 0, 0, 10, 0,
  0, 0, 0, 0, 0, 0, -1, 0, 6, 0,
  1, 0, 0, 0, 6, 0, 6, 8, 1, 0,
  0, 4, 0, 0, 0, 0, -1, 0, -1, 4,
  0, 0, 6, 6, 0, 0]

namespace Client

/-! ## One packet -/

/-- `int32_t steps = (length - 5) / 2` -/
def movementSteps (packetOpcode packetLength : Int) : Int :=
  let length := if packetOpcode = 248 then packetLength - 14 else packetLength
  (length - 5).tdiv 2

/-- The offsets of the path after its first tile. -/
def readPath : Nat → StreamM (List (Int × Int))
  | 0 => return []
  | n+1 => do
      let x ← readByte
      let y ← readByte
      let path ← readPath n
      return (x, y) :: path

/-- The tile at an offset from the first one. -/
def pathTile (firstStepX firstStepY : Int) (offset : Int × Int) : Position :=
  { x := BitVec.ofInt 32 (firstStepX + offset.1), y := BitVec.ofInt 32 (firstStepY + offset.2) }

/-- The calls on the movement handler. -/
def walkPath (player : Player) (runPath : Bool) (tiles : List Position) : Player :=
  let m := (player.movementHandler.reset player.position).setRunPath runPath
  let m := tiles.foldl (fun m tile => m.addToPath player.position tile) m
  { player with movementHandler := m.finish }

/-- The second half of the movement case: `GetPlayer()` is dereferenced once the path has been
read, and the run flag is read last. -/
def movePlayer (s : Server) (c : ClientId) (firstStepX firstStepY : Int)
    (path : List (Int × Int)) : StreamM Server := do
  let client ← lift (s.lockClient c)
  let p ← lift (Server.deref (s.lockPlayer client.player))
  let runPath := (← readByte true .c) = 1
  let tiles := pathTile firstStepX firstStepY (0, 0) :: path.map (pathTile firstStepX firstStepY)
  return s.modifyPlayer p fun player => walkPath player runPath tiles

/-- The movement case of `HandlePacket`. A vector of negative size throws. -/
def handleMovement (s : Server) (c : ClientId) (packetOpcode packetLength : Int) :
    StreamM Server := do
  let steps := movementSteps packetOpcode packetLength
  if steps < 0 then throw .lengthError
  let firstStepX ← readShort true .a .little
  let path ← readPath steps.toNat
  let firstStepY ← readShort true .standard .little
  movePlayer s c firstStepX firstStepY path

/-- The three opcodes of the movement case. -/
def IsMovement (packetOpcode : Int) : Prop :=
  packetOpcode = 248 ∨ packetOpcode = 164 ∨ packetOpcode = 98

instance (packetOpcode : Int) : Decidable (IsMovement packetOpcode) :=
  inferInstanceAs (Decidable (_ ∨ _))

/-- `for (int i = read; i < packetLength; i++) inStream.ReadByte();` -/
def skipBytes : Nat → StreamM Unit
  | 0 => pure ()
  | n+1 => do
      let _ ← readByte
      skipBytes n

def handlePacket (s : Server) (c : ClientId) (packetOpcode packetLength : Int) :
    StreamM Server := do
  let positionBefore := (← get).pos
  let s ← if IsMovement packetOpcode then handleMovement s c packetOpcode packetLength else pure s
  let read := (← get).pos - positionBefore
  skipBytes (packetLength - read).toNat
  return s

/-! ## The packet loop -/

/-- What the loop does that a reader of the stream can see; the source keeps no such record. -/
inductive Effect where
  | drawKey
  | dispatch (packetOpcode : Int) (payload : List Byte)
  deriving DecidableEq

/-- The locals of `HandleIncomingData` in the loop, and the record of its effects. -/
structure Incoming where
  server : Server
  inStream : StreamBuffer
  packetOpcode : Int := -1
  packetLength : Int := -1
  effects : List Effect := []

/-- Decode the packet opcode. -/
def decodeOpcode (c : ClientId) (st : Incoming) : Except Fault Incoming := do
  let (raw, inStream) ← st.inStream.exec readByte
  let client ← st.server.lockClient c
  let decryptor ← Server.deref client.decryptor
  let (key, decryptor) := decryptor.getNextKey
  return { st with
    server := st.server.setClient c { client with decryptor := some decryptor }
    inStream
    packetOpcode := (raw % 256 - key.toNat) % 256
    effects := st.effects ++ [.drawKey] }

/-- Decode the packet length; without a byte left for it the loop is left. -/
def decodeLength (st : Incoming) : Except Fault (ForInStep Incoming) := do
  match packetLengths[st.packetOpcode.toNat]? with
  | none => throw .outOfBounds
  | some packetLength =>
      if packetLength = -1 then
        if st.inStream.hasRemaining then
          let (length, inStream) ← st.inStream.exec readByte
          return .yield { st with inStream, packetLength := length % 256 }
        else return .done { st with packetLength }
      else return .yield { st with packetLength }

/-- Decode the packet payload, if all of it is there. -/
def dispatch (c : ClientId) (st : Incoming) : Except Fault Incoming := do
  if st.inStream.remaining ≥ st.packetLength then
    let payload := st.inStream.rest.take st.packetLength.toNat
    let (server, inStream) ←
      st.inStream.exec (handlePacket st.server c st.packetOpcode st.packetLength)
    return { st with
      server, inStream, packetOpcode := -1, packetLength := -1
      effects := st.effects ++ [.dispatch st.packetOpcode payload] }
  else return st

/-- One iteration of `while (inStream.HasRemaining())`. -/
def packetIteration (c : ClientId) (gen : Int) (st : Incoming) :
    Except Fault (ForInStep Incoming) := do
  if st.inStream.hasRemaining then
    let client ← st.server.lockClient c
    if client.stage ≠ .loggedIn then
      let (server, inStream) ← st.inStream.exec (LoginHandler.process st.server c gen)
      return .done { st with server, inStream }
    else
      let st ← if st.packetOpcode = -1 then decodeOpcode c st else pure st
      match ← if st.packetLength = -1 then decodeLength st else pure (.yield st) with
      | .done st => return .done st
      | .yield st => return .yield (← dispatch c st)
  else return .done st

/-! ## A whole read -/

def nanosPerSecond : Int := 1000000000

/-- The rate limit at the start of `HandleIncomingData`; `true` when the client floods. -/
def countPacket (client : Client) (now : Int) : Client × Bool :=
  let client := if client.lastPacketSecond = 0
    then { client with lastPacketSecond := now, lastActivityTime := now } else client
  let client := if (now - client.lastPacketSecond).tdiv nanosPerSecond ≥ 1
    then { client with packetsThisSecond := 0, lastPacketSecond := now } else client
  let client := { client with
    packetsThisSecond := (client.packetsThisSecond + 1) % 2 ^ 32
    lastActivityTime := now }
  (client, client.packetsThisSecond > maxPacketsPerSecond)

/-- `HandleIncomingData`, with the loop given some number of iterations. The buffer is cleared
at the end. -/
def handleIncomingData (fuel : Nat) (s : Server) (c : ClientId) (now gen : Int)
    (inStream : StreamBuffer) : Option (Except Fault Incoming) :=
  match s.clients c with
  | none => some (.error .nullPointer)
  | some client =>
      let (client, flood) := countPacket client now
      let s := s.setClient c client
      if flood then
        some ((disconnect s c).map fun server => { server, inStream })
      else
        (FallibleLoop.run (packetIteration c gen) fuel { server := s, inStream }).map fun r =>
          r.map fun st => { st with inStream := { st.inStream with buffer := [], pos := 0 } }

/-- The completion of one read of `ReadIncomingData`. -/
def readIncomingData (fuel : Nat) (s : Server) (c : ClientId) (now gen : Int)
    (data : List Byte) : Option (Except Fault Incoming) :=
  handleIncomingData fuel s c now gen (ofData data)

end Client
end AsioRsps
