import AsioRsps.PlayerUpdating

/-!
# World

Registration, removal and the tick. A new entry of the map is put in front; where the hash
map really puts it, and how it reorders its entries when it grows, is left to the runs, which
may permute the entries.
-/
namespace AsioRsps

namespace World

/-- `GetFreeIndex` -/
def getFreeIndex (w : World) : Option (Fin maxPlayers × World) :=
  match (List.finRange maxPlayers).find? fun i => !w.occupiedIndices i with
  | some i => some (i, { w with occupiedIndices := Function.update w.occupiedIndices i true })
  | none => none

def getPlayer (s : Server) (username : Name) : Option PlayerId := s.world.players.lookup username

/-- A full world registers nobody. -/
def registerPlayer (s : Server) (p : PlayerId) : Except Fault Server :=
  match getFreeIndex s.world with
  | none => .ok s
  | some (index, world) =>
      let s := { s with world }.modifyPlayer p fun player => { player with index := index.val }
      let players := world.players.insert (s.players p).username p
      Player.login { s with world := { world with players } } p

/-- `std::bitset::reset` throws when the position is out of range. -/
def resetIndex (w : World) (slot : Int) : Except Fault World :=
  if slot = -1 then .ok w
  else if h : 0 ≤ slot ∧ slot < maxPlayers then
    .ok { w with occupiedIndices := Function.update w.occupiedIndices ⟨slot.toNat, by omega⟩ false }
  else .error (.outOfRange "bitset::reset")

/-- `Logout` only writes to the log. -/
def removePlayer (s : Server) (username : Name) : Except Fault Server :=
  match getPlayer s username with
  | none => .ok s
  | some p => do
      let world ← resetIndex s.world (s.players p).index
      return { s with world := { world with players := world.players.erase username } }

/-- The tick: every player is processed, then every player is updated, then every player is
reset. -/
def process (s : Server) : Except Fault Server := do
  let playerList := s.registered
  let s ← playerList.foldlM Player.process s
  let s ← PlayerUpdating.update s playerList
  return playerList.foldl (fun s p => s.modifyPlayer p Player.reset) s

end World

namespace Client

def disconnect (s : Server) (c : ClientId) : Except Fault Server := do
  let client ← s.lockClient c
  if client.disconnected then return s
  let s := s.setClient c { client with disconnected := true, socketOpen := false }
  let s ← match s.lockPlayer client.player with
    | some _ => World.removePlayer s client.username
    | none => pure s
  let s := s.modifyClient c fun client => { client with stage := .loggedOut }
  return { s with sessions := s.sessions.erase c }

/-- `RequestDisconnect` -/
def requestDisconnect (s : Server) (c : ClientId) : Server :=
  s.modifyClient c fun client => { client with strand := client.strand ++ [.requestDisconnect] }

end Client
end AsioRsps
