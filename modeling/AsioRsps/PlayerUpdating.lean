import AsioRsps.MovementHandler

/-!
# PlayerUpdating

The player-update frame, as the source builds it: movement bits go to `out`, state blocks to
`block`, and the two are joined at the end.
-/
namespace AsioRsps
open StreamBuffer

namespace Constants

def equipmentSlotHead : Fin 14 := 0
def equipmentSlotCape : Fin 14 := 1
def equipmentSlotAmulet : Fin 14 := 2
def equipmentSlotWeapon : Fin 14 := 3
def equipmentSlotChest : Fin 14 := 4
def equipmentSlotShield : Fin 14 := 5
def equipmentSlotLegs : Fin 14 := 7
def equipmentSlotHands : Fin 14 := 9
def equipmentSlotFeet : Fin 14 := 10

def appearanceSlotChest : Fin 7 := 0
def appearanceSlotArms : Fin 7 := 1
def appearanceSlotLegs : Fin 7 := 2
def appearanceSlotHead : Fin 7 := 3
def appearanceSlotHands : Fin 7 := 4
def appearanceSlotFeet : Fin 7 := 5
def appearanceSlotBeard : Fin 7 := 6

end Constants

/-- The value a character adds in base 37. -/
def nameDigit (c : BitStrings.Byte) : Nat :=
  let c := c.toNat
  if 65 ≤ c ∧ c ≤ 90 then 1 + c - 65
  else if 97 ≤ c ∧ c ≤ 122 then 1 + c - 97
  else if 48 ≤ c ∧ c ≤ 57 then 27 + c - 48
  else 0

/-- `while (l % 37 == 0 && l != 0) l /= 37;` -/
def stripZeros (l : Nat) : Nat :=
  if h : l % 37 = 0 ∧ l ≠ 0 then stripZeros (l / 37) else l
termination_by l
decreasing_by exact Nat.div_lt_self (Nat.pos_of_ne_zero h.2) (by decide)

/-- `PlayerNameToInt64`, on `uint64_t`. -/
def playerNameToInt64 (s : Name) : Nat :=
  stripZeros ((s.take 12).foldl (fun l c => (l * 37 + nameDigit c) % 2 ^ 64) 0)

namespace PlayerUpdating
open Constants

/-! ## State blocks -/

/-- A worn item, or nothing. -/
def appendItem (player : Player) (slot : Fin 14) : StreamM Unit :=
  let item := player.equipment.get slot
  if item > 1 then writeShort ((0x200 + item).toInt) else writeByte 0

/-- A worn item, or the body part shown in its place. -/
def appendItemOrPart (player : Player) (slot : Fin 14) (part : Fin 7) : StreamM Unit :=
  let item := player.equipment.get slot
  if item > 1 then writeShort ((0x200 + item).toInt)
  else writeShort ((0x100 + player.appearance.get part).toInt)

def appendPart (player : Player) (part : Fin 7) : StreamM Unit :=
  writeShort ((0x100 + player.appearance.get part).toInt)

/-- The equipment and body parts of `AppendAppearance`, or the NPC shown instead. -/
def appendLook (player : Player) : StreamM Unit := do
  if player.npcCosplayId = -1 then
    appendItem player equipmentSlotHead
    appendItem player equipmentSlotCape
    appendItem player equipmentSlotAmulet
    appendItem player equipmentSlotWeapon
    appendItemOrPart player equipmentSlotChest appearanceSlotChest
    appendItem player equipmentSlotShield
    appendItemOrPart player equipmentSlotChest appearanceSlotArms
    appendItemOrPart player equipmentSlotLegs appearanceSlotLegs
    appendPart player appearanceSlotHead
    appendItemOrPart player equipmentSlotHands appearanceSlotHands
    appendItemOrPart player equipmentSlotFeet appearanceSlotFeet
    appendPart player appearanceSlotBeard
  else
    writeShort (-1)
    writeShort player.npcCosplayId.toInt

/-- The local `block` of `AppendAppearance`. -/
def appearanceBlock (player : Player) : StreamM Unit := do
  writeByte 0
  writeByte 0
  appendLook player
  writeByte (player.colors.get 0).toInt
  writeByte (player.colors.get 1).toInt
  writeByte (player.colors.get 2).toInt
  writeByte (player.colors.get 3).toInt
  writeByte (player.colors.get 4).toInt
  writeShort 0x328
  writeShort 0x337
  writeShort 0x333
  writeShort 0x334
  writeShort 0x335
  writeShort 0x336
  writeShort 0x338
  writeLong1 (playerNameToInt64 player.username)
  writeByte 3
  writeShort 0

def appendAppearance (player : Player) : StreamM Unit := do
  match (ofSize 128).exec (appearanceBlock player) with
  | .ok ((), block) =>
      writeByte block.pos .c
      writeBytes block
  | .error e => throw e

/-- The argument `noChat` of the source is not used. -/
def updateState (player : Player) (forceAppearance : Bool) : StreamM Unit := do
  let showAppearance := player.hasFlag UpdateFlag.appearance || forceAppearance
  let mask : Nat := if showAppearance then 0x10 else 0x0
  if mask ≥ 0x100 then
    writeShort (mask ||| 0x40 : Nat) .standard .little
  else
    writeByte mask
  if showAppearance then
    appendAppearance player

/-! ## Movement -/

def appendPlacement (localX localY z : Int) (discardMovementQueue attributesUpdate : Bool) :
    StreamM Unit := do
  writeBits 2 3
  writeBits 2 z
  writeBit discardMovementQueue
  writeBit attributesUpdate
  writeBits 7 localY
  writeBits 7 localX

def appendRun (direction direction2 : Int) (attributesUpdate : Bool) : StreamM Unit := do
  writeBits 2 2
  writeBits 3 direction
  writeBits 3 direction2
  writeBit attributesUpdate

def appendWalk (direction : Int) (attributesUpdate : Bool) : StreamM Unit := do
  writeBits 2 1
  writeBits 3 direction
  writeBit attributesUpdate

def appendStand : StreamM Unit := writeBits 2 0

/-- Movement of a player whose position is not placed anew. -/
def updateOtherPlayerMovement (player : Player) : StreamM Unit := do
  let updateRequired := player.needsUpdate
  let pDir := player.primaryDirection
  let sDir := player.secondaryDirection
  if pDir ≠ -1 then
    writeBit true
    if sDir ≠ -1 then appendRun pDir sDir updateRequired
    else appendWalk pDir updateRequired
  else if updateRequired then
    writeBit true
    appendStand
  else
    writeBit false

/-- `AppendPlacement` is passed the address of `updateRequired`, which is never null, so the
attribute bit of a placement is always set. -/
def updateLocalPlayerMovement (player : Player) : StreamM Unit := do
  if player.hasFlag UpdateFlag.needsPlacement then
    writeBit true
    let posX := (player.position.localX player.currentRegion).toInt
    let posY := (player.position.localY player.currentRegion).toInt
    appendPlacement posX posY player.position.z.toInt
      (player.hasFlag UpdateFlag.resetMovement) true
  else
    let updateRequired := player.needsUpdate
    let pDir := player.primaryDirection
    let sDir := player.secondaryDirection
    if pDir ≠ -1 then
      writeBit true
      if sDir ≠ -1 then appendRun pDir sDir updateRequired
      else appendWalk pDir updateRequired
    else if updateRequired then
      writeBit true
      appendStand
    else
      writeBit false

def addPlayer (player other : Player) : StreamM Unit := do
  writeBits 11 other.index
  writeBit true
  writeBit true
  writeBits 5 (other.position.y - player.position.y).toInt
  writeBits 5 (other.position.x - player.position.x).toInt

/-! ## The update of one player -/

/-- The two buffers of an update and the local list so far. -/
structure Update where
  out : StreamBuffer
  block : StreamBuffer
  localPlayers : List PlayerId

def writeOut (u : Update) (m : StreamM Unit) : Except Fault Update := do
  let (_, out) ← u.out.exec m
  return { u with out }

def writeBlock (u : Update) (m : StreamM Unit) : Except Fault Update := do
  let (_, block) ← u.block.exec m
  return { u with block }

/-- The entry stays in the list. -/
def keeps (player other : Player) : Bool :=
  other.position.isViewableFrom player.position && !other.hasFlag UpdateFlag.needsPlacement

/-- One step of the loop over the local list; `localPlayers` collects the entries kept. -/
def pruneEntry (players : PlayerId → Player) (player : Player) (u : Update) (q : PlayerId) :
    Except Fault Update := do
  let other := players q
  if keeps player other then
    let u ← writeOut u (updateOtherPlayerMovement other)
    let u ← if other.needsUpdate then writeBlock u (updateState other false) else pure u
    return { u with localPlayers := u.localPlayers ++ [q] }
  else
    let u ← writeOut u (writeBit true)
    writeOut u (writeBits 2 3)

/-- One step of the loop over the world; after the limit is reached the loop has been left,
so the remaining players change nothing. The map holds no null pointers. -/
def addEntry (players : PlayerId → Player) (p : PlayerId) (u : Update) (q : PlayerId) :
    Except Fault Update := do
  if u.localPlayers.length ≥ 255 then return u
  else if q = p then return u
  else if q ∉ u.localPlayers ∧ (players q).position.isViewableFrom (players p).position then
    let u := { u with localPlayers := u.localPlayers ++ [q] }
    let u ← writeOut u (addPlayer (players p) (players q))
    writeBlock u (updateState (players q) true)
  else return u

/-- The frame is completed: the state blocks follow the bits, byte aligned. -/
def finishUpdate (u : Update) : Except Fault StreamBuffer := do
  let u ← if u.block.pos > 0 then do
      let u ← writeOut u (writeBits 11 2047)
      let u ← writeOut u (setAccessType .byteAccess)
      writeOut u (writeBytes u.block)
    else writeOut u (setAccessType .byteAccess)
  let u ← writeOut u finishVariableHeader
  return u.out

/-- The first half of `UpdatePlayer`: the header, the player's own movement and state, and the
loop over the local list. -/
def openUpdate (s : Server) (p : PlayerId) : Except Fault (Update × Server) := do
  let player := s.players p
  let (out, s) ← Client.openFrame s player.client 2048 81 .short
  let u : Update := { out, block := ofSize 1024, localPlayers := [] }
  let u ← writeOut u (setAccessType .bitAccess)
  let u ← writeOut u (updateLocalPlayerMovement player)
  let u ← if player.needsUpdate then writeBlock u (updateState player false) else pure u
  let u ← writeOut u (writeBits 8 player.localPlayers.length)
  let u ← player.localPlayers.foldlM (pruneEntry s.players player) u
  return (u, s)

def updatePlayer (s : Server) (p : PlayerId) : Except Fault Server := do
  let player := s.players p
  let (u, s) ← openUpdate s p
  let s := s.setLocalPlayers p u.localPlayers
  if u.localPlayers.length ≥ 255 then return s
  let u ← s.registered.foldlM (addEntry s.players p) u
  let s := s.setLocalPlayers p u.localPlayers
  let out ← finishUpdate u
  let _ ← s.lockClient player.client
  Client.send s player.client out

/-- `Update` -/
def update (s : Server) (players : List PlayerId) : Except Fault Server :=
  players.foldlM updatePlayer s

end PlayerUpdating
end AsioRsps
