import Mathlib.Data.List.AList
import Mathlib.Logic.Function.Basic
import AsioRsps.StreamBuffer
import AsioRsps.Position

/-!
# Server state

The objects the program keeps: clients, players, the world, and the sessions of the server.
A `shared_ptr<Player>` is the player's identity and never dangles; a `weak_ptr` locks as long
as its object lives: a client until it is destroyed, a player while the world or some local
list holds it. The order of `m_Players` is the iteration order of the hash map, which the
program does not control.
-/
namespace AsioRsps

abbrev ClientId := Nat
abbrev PlayerId := Nat

/-- `std::string` -/
abbrev Name := List BitStrings.Byte

def maxPlayers : Nat := 2048
def maxPacketsPerSecond : Nat := 100

inductive NetworkStage where
  | connected | loggingIn | loggedIn | loggedOut
  deriving DecidableEq, Repr

/-- A function posted to a client's strand. -/
inductive Posted where
  | push (data : List BitStrings.Byte)
  | requestDisconnect
  deriving DecidableEq

structure Client where
  stage : NetworkStage := .connected
  username : Name := []
  socketOpen : Bool := true
  disconnected : Bool := false
  encryptor : Option ISAACCipher := none
  decryptor : Option ISAACCipher := none
  packetsThisSecond : Nat := 0
  lastPacketSecond : Int := 0
  lastActivityTime : Int := 0
  strand : List Posted := []
  writeQueue : List (List BitStrings.Byte) := []
  writing : Bool := false
  pendingDisconnect : Bool := false
  player : Option PlayerId := none
  /-- The buffers handed to `async_write`, in order, and how many of the writes have completed. -/
  asyncWrites : List (List BitStrings.Byte) := []
  completedWrites : Nat := 0

structure Point extends Position where
  direction : Int
  deriving DecidableEq, Repr

structure MovementHandler where
  waypoints : List Point := []
  runToggled : Bool := false
  runPath : Bool := false
  deriving DecidableEq, Repr

namespace UpdateFlag

def none : Word := 0
def appearance : Word := 1
def resetMovement : Word := 1 <<< 6
def needsPlacement : Word := 1 <<< 7
def all : Word := 0xFFFFFFFF

end UpdateFlag

def Player.defaultColors : Vector Word 5 := #v[7, 8, 9, 5, 0]
def Player.defaultAppearance : Vector Word 7 := #v[18, 26, 36, 0, 33, 42, 10]

structure Player where
  username : Name
  client : ClientId
  equipment : Vector Word 14 := Vector.replicate 14 0
  colors : Vector Word 5 := Player.defaultColors
  appearance : Vector Word 7 := Player.defaultAppearance
  primaryDirection : Int := -1
  secondaryDirection : Int := -1
  npcCosplayId : Word := -1
  position : Position := { x := 3200, y := 3200 }
  currentRegion : Position := {}
  updateFlags : Word := UpdateFlag.none
  movementHandler : MovementHandler := {}
  index : Int := -1
  localPlayers : List PlayerId := []

namespace Player

def needsUpdate (player : Player) : Bool := player.updateFlags ≠ 0

/-- `NeedsUpdate(flag)` -/
def hasFlag (player : Player) (flag : Word) : Bool := player.updateFlags &&& flag ≠ 0

def setUpdateFlag (player : Player) (flag : Word) : Player :=
  { player with updateFlags := player.updateFlags ||| flag }

def reset (player : Player) : Player :=
  { player with
    primaryDirection := -1
    secondaryDirection := -1
    updateFlags := UpdateFlag.none }

/-- A flagged player needs an update. -/
theorem needsUpdate_of_hasFlag {player : Player} {flag : Word} (h : player.hasFlag flag = true) :
    player.needsUpdate = true := by
  simp only [needsUpdate, hasFlag, decide_eq_true_eq] at *
  intro h0
  rw [h0] at h
  simp at h

/-- After `ClearUpdateFlags` no flag is set. -/
theorem hasFlag_none {player : Player} (h : player.updateFlags = UpdateFlag.none) (flag : Word) :
    player.hasFlag flag = false := by
  simp [hasFlag, h, UpdateFlag.none]

end Player

structure World where
  players : AList (fun _ : Name => PlayerId) := ∅
  occupiedIndices : Fin maxPlayers → Bool := fun _ => false

structure Server where
  clients : ClientId → Option Client
  players : PlayerId → Player
  nextPlayer : PlayerId
  world : World
  sessions : List ClientId

namespace Server

/-- Nobody connected, nobody registered. -/
def initial : Server where
  clients := fun _ => none
  players := fun _ => { username := [], client := 0 }
  nextPlayer := 0
  world := {}
  sessions := []

def setClient (s : Server) (c : ClientId) (client : Client) : Server :=
  { s with clients := Function.update s.clients c (some client) }

def setPlayer (s : Server) (p : PlayerId) (player : Player) : Server :=
  { s with players := Function.update s.players p player }

/-- A change of one client, made by the client's own member functions. -/
def modifyClient (s : Server) (c : ClientId) (f : Client → Client) : Server :=
  match s.clients c with
  | some client => s.setClient c (f client)
  | none => s

def modifyPlayer (s : Server) (p : PlayerId) (f : Player → Player) : Server :=
  s.setPlayer p (f (s.players p))

def setLocalPlayers (s : Server) (p : PlayerId) (localPlayers : List PlayerId) : Server :=
  s.modifyPlayer p fun player => { player with localPlayers }

/-- The registered players in the iteration order of the map. -/
def registered (s : Server) : List PlayerId := s.world.players.entries.map (·.2)

/-- Some `shared_ptr` still holds the player. The lists of removed players count as well. -/
def owns (s : Server) (p : PlayerId) : Bool :=
  p ∈ s.registered || (List.range s.nextPlayer).any fun q => p ∈ (s.players q).localPlayers

/-- `m_Player.lock()` -/
def lockPlayer (s : Server) (weak : Option PlayerId) : Option PlayerId := weak.filter s.owns

/-- Dereferencing `m_Client.lock()` or a client's own `this`. -/
def lockClient (s : Server) (c : ClientId) : Except Fault Client :=
  match s.clients c with
  | some client => .ok client
  | none => .error .nullPointer

/-- Dereferencing a pointer that may be null. -/
def deref {α : Type} : Option α → Except Fault α
  | some a => .ok a
  | none => .error .nullPointer

@[simp] theorem setClient_clients_self (s : Server) (c : ClientId) (client : Client) :
    (s.setClient c client).clients c = some client := Function.update_self ..

theorem setClient_clients_of_ne (s : Server) {c d : ClientId} (client : Client) (h : d ≠ c) :
    (s.setClient c client).clients d = s.clients d := Function.update_of_ne h ..

@[simp] theorem setClient_players (s : Server) (c : ClientId) (client : Client) :
    (s.setClient c client).players = s.players := rfl

@[simp] theorem setClient_nextPlayer (s : Server) (c : ClientId) (client : Client) :
    (s.setClient c client).nextPlayer = s.nextPlayer := rfl

@[simp] theorem setClient_world (s : Server) (c : ClientId) (client : Client) :
    (s.setClient c client).world = s.world := rfl

@[simp] theorem setClient_sessions (s : Server) (c : ClientId) (client : Client) :
    (s.setClient c client).sessions = s.sessions := rfl

@[simp] theorem setClient_setClient (s : Server) (c : ClientId) (client client' : Client) :
    (s.setClient c client).setClient c client' = s.setClient c client' := by
  simp only [setClient, Function.update_idem]

theorem setClient_eq_self {s : Server} {c : ClientId} {client : Client}
    (h : s.clients c = some client) : s.setClient c client = s := by
  simp only [setClient, ← h, Function.update_eq_self]

@[simp] theorem setPlayer_players_self (s : Server) (p : PlayerId) (player : Player) :
    (s.setPlayer p player).players p = player := Function.update_self ..

theorem setPlayer_players_of_ne (s : Server) {p q : PlayerId} (player : Player) (h : q ≠ p) :
    (s.setPlayer p player).players q = s.players q := Function.update_of_ne h ..

@[simp] theorem setPlayer_clients (s : Server) (p : PlayerId) (player : Player) :
    (s.setPlayer p player).clients = s.clients := rfl

@[simp] theorem setPlayer_nextPlayer (s : Server) (p : PlayerId) (player : Player) :
    (s.setPlayer p player).nextPlayer = s.nextPlayer := rfl

@[simp] theorem setPlayer_world (s : Server) (p : PlayerId) (player : Player) :
    (s.setPlayer p player).world = s.world := rfl

@[simp] theorem setPlayer_sessions (s : Server) (p : PlayerId) (player : Player) :
    (s.setPlayer p player).sessions = s.sessions := rfl

@[simp] theorem setPlayer_setPlayer (s : Server) (p : PlayerId) (player player' : Player) :
    (s.setPlayer p player).setPlayer p player' = s.setPlayer p player' := by
  simp only [setPlayer, Function.update_idem]

@[simp] theorem setLocalPlayers_clients (s : Server) (p : PlayerId) (l : List PlayerId) :
    (s.setLocalPlayers p l).clients = s.clients := rfl

@[simp] theorem setLocalPlayers_world (s : Server) (p : PlayerId) (l : List PlayerId) :
    (s.setLocalPlayers p l).world = s.world := rfl

@[simp] theorem setLocalPlayers_self (s : Server) (p : PlayerId) (l : List PlayerId) :
    (s.setLocalPlayers p l).players p = { s.players p with localPlayers := l } :=
  Function.update_self ..

theorem setLocalPlayers_of_ne (s : Server) {p q : PlayerId} (l : List PlayerId) (h : q ≠ p) :
    (s.setLocalPlayers p l).players q = s.players q := Function.update_of_ne h ..

@[simp] theorem setLocalPlayers_setLocalPlayers (s : Server) (p : PlayerId)
    (l l' : List PlayerId) : (s.setLocalPlayers p l).setLocalPlayers p l' =
      s.setLocalPlayers p l' := by
  simp only [setLocalPlayers, modifyPlayer, setPlayer_players_self, setPlayer_setPlayer]

theorem setLocalPlayers_setClient (s : Server) (p : PlayerId) (l : List PlayerId) (c : ClientId)
    (client : Client) : (s.setClient c client).setLocalPlayers p l =
      (s.setLocalPlayers p l).setClient c client := rfl

theorem modifyClient_eq {s : Server} {c : ClientId} {client : Client}
    (h : s.clients c = some client) (f : Client → Client) :
    s.modifyClient c f = s.setClient c (f client) := by
  simp only [modifyClient, h]

theorem lockClient_eq {s : Server} {c : ClientId} {client : Client}
    (h : s.clients c = some client) : s.lockClient c = .ok client := by
  simp only [lockClient, h]

theorem clients_of_lockClient {s : Server} {c : ClientId} {client : Client}
    (h : s.lockClient c = .ok client) : s.clients c = some client := by
  simp only [lockClient] at h
  split at h
  · rename_i found
    rw [found, Except.ok.inj h]
  · cases h

@[simp] theorem deref_some {α : Type} (a : α) : deref (some a) = .ok a := rfl

theorem owns_of_registered {s : Server} {p : PlayerId} (h : p ∈ s.registered) :
    s.owns p = true := by
  simp only [owns, h, decide_true, Bool.true_or]

theorem lockPlayer_of_registered {s : Server} {p : PlayerId} (h : p ∈ s.registered) :
    s.lockPlayer (some p) = some p := by
  simp only [lockPlayer, Option.filter, owns_of_registered h, if_true]

/-- A change of a player that leaves its list alone changes no ownership. -/
theorem owns_setPlayer (s : Server) {p : PlayerId} {player : Player}
    (h : player.localPlayers = (s.players p).localPlayers) :
    (s.setPlayer p player).owns = s.owns := by
  funext q
  have hlists (r : PlayerId) :
      ((s.setPlayer p player).players r).localPlayers = (s.players r).localPlayers := by
    by_cases hr : r = p
    · rw [hr, setPlayer_players_self, h]
    · rw [setPlayer_players_of_ne s player hr]
  simp only [owns, hlists]
  rfl

theorem lockPlayer_setPlayer (s : Server) {p : PlayerId} {player : Player}
    (h : player.localPlayers = (s.players p).localPlayers) :
    (s.setPlayer p player).lockPlayer = s.lockPlayer := by
  funext weak
  simp only [lockPlayer, owns_setPlayer s h]

theorem mem_registered_of_lookup {s : Server} {name : Name} {p : PlayerId}
    (h : s.world.players.lookup name = some p) : p ∈ s.registered := by
  have he := AList.mem_lookup_iff.mp h
  exact List.mem_map.mpr ⟨⟨name, p⟩, he, rfl⟩

theorem lookup_of_mem_registered {s : Server} {p : PlayerId} (h : p ∈ s.registered) :
    ∃ name, s.world.players.lookup name = some p := by
  obtain ⟨⟨name, q⟩, he, rfl⟩ := List.mem_map.mp h
  exact ⟨name, AList.mem_lookup_iff.mpr he⟩

/-! ## A crowd -/

def crowdCipher : ISAACCipher := ISAACCipher.new (Vector.replicate 4 50)

def crowdDecryptor : ISAACCipher := ISAACCipher.new (Vector.replicate 4 0)

def crowdClient (c : ClientId) : Client :=
  { stage := .loggedIn
    username := List.replicate c 0
    encryptor := some crowdCipher
    decryptor := some crowdDecryptor
    player := some c }

/-- `n + 1` players on one tile, the first of whom has all the others in its list. -/
def crowd (n : Nat) : Server where
  clients c := if c ≤ n then some (crowdClient c) else none
  players p :=
    { username := List.replicate p 0
      client := p
      index := p
      localPlayers := if p = 0 then (List.range n).map (· + 1) else [] }
  nextPlayer := n + 1
  world :=
    { players := ⟨(List.range (n + 1)).map fun p => ⟨List.replicate p 0, p⟩, by
        rw [List.NodupKeys, List.keys, List.map_map]
        exact List.nodup_range.map fun a b h => by simpa using congrArg List.length h⟩
      occupiedIndices := fun i => i.val ≤ n }
  sessions := List.range (n + 1)

theorem crowd_client {n : Nat} {c : ClientId} (h : c ≤ n) :
    (crowd n).clients c = some (crowdClient c) := if_pos h

theorem crowd_registered (n : Nat) : (crowd n).registered = List.range (n + 1) := by
  simp only [Server.registered, crowd, List.map_map]
  exact (List.map_congr_left fun _ _ => rfl).trans (List.map_id _)

end Server
end AsioRsps
