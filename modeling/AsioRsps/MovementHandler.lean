import AsioRsps.ClientFrames

/-!
# MovementHandler and Player

A player's queue of waypoints, filled by movement packets and consumed by the tick, and the
member functions of `Player` the tick and the login call.
-/
namespace AsioRsps

namespace Player

/-- `UpdateMapRegion` -/
def updateMapRegion (s : Server) (p : PlayerId) : Except Fault Server :=
  let s := s.modifyPlayer p fun player =>
    { player with currentRegion := player.position }.setUpdateFlag UpdateFlag.needsPlacement
  Client.sendMapRegion s (s.players p).client

/-- The menu and form of each `SendSidebarInterface` call of `Login`. -/
def sidebarInterfaces : List (Int × Int) :=
  [(1, 3917), (2, 638), (3, 3213), (4, 1644), (5, 5608), (6, 1151), (8, 5065), (9, 5715),
    (10, 2449), (11, 4445), (12, 147), (13, 6299), (0, 2423)]

def welcome : Name := "Welcome to AsioRSPS!".toList.map fun c => BitVec.ofNat 8 c.toNat

def login (s : Server) (p : PlayerId) : Except Fault Server := do
  let s ← updateMapRegion s p
  let s := s.modifyPlayer p fun player => player.setUpdateFlag UpdateFlag.all
  let s ← sidebarInterfaces.foldlM (fun s (menuId, form) =>
    Client.sendSidebarInterface s (s.players p).client menuId form) s
  Client.sendPlayerMessage s (s.players p).client welcome

end Player

namespace MovementHandler

/-! ## Building a path -/

/-- `Reset`, given the position of the player the handler belongs to. -/
def reset (m : MovementHandler) (position : Position) : MovementHandler :=
  { m with
    waypoints := [{ x := position.x, y := position.y, direction := -1 }]
    runPath := false }

def finish (m : MovementHandler) : MovementHandler := { m with waypoints := m.waypoints.tail }

def setRunPath (m : MovementHandler) (runPath : Bool) : MovementHandler := { m with runPath }

def addStep (x y : Word) (waypoints : List Point) : List Point :=
  if 100 ≤ waypoints.length then waypoints
  else
    match waypoints.getLast? with
    | none => waypoints
    | some last =>
        let direction := Position.direction (x - last.x).toInt (y - last.y).toInt
        if direction > -1 then waypoints ++ [{ x, y, direction }] else waypoints

/-- One step of a delta towards zero. -/
def towardZero (delta : Int) : Int :=
  if delta < 0 then delta + 1 else if delta > 0 then delta - 1 else delta

def addSteps (target : Position) : Nat → Int → Int → List Point → List Point
  | 0, _, _, waypoints => waypoints
  | n+1, deltaX, deltaY, waypoints =>
      let deltaX := towardZero deltaX
      let deltaY := towardZero deltaY
      addSteps target n deltaX deltaY
        (addStep (target.x - BitVec.ofInt 32 deltaX) (target.y - BitVec.ofInt 32 deltaY) waypoints)

/-- `std::abs` on `int32_t`; the least value is its own negation. -/
def absInt32 (v : Int) : Int := toInt32 |v|

def addToPath (m : MovementHandler) (position target : Position) : MovementHandler :=
  let m := if m.waypoints = [] then m.reset position else m
  match m.waypoints.getLast? with
  | none => m
  | some last =>
      let deltaX := (target.x - last.x).toInt
      let deltaY := (target.y - last.y).toInt
      let steps := max (absInt32 deltaX) (absInt32 deltaY)
      { m with waypoints := addSteps target steps.toNat deltaX deltaY m.waypoints }

/-! ## Following it -/

/-- Moves the player onto a waypoint and records the direction; waypoints without a direction
and absent ones are ignored. -/
def follow (player : Player) (point : Option Point) (record : Player → Int → Player) :
    Except Fault Player :=
  match point with
  | none => .ok player
  | some point =>
      if point.direction = -1 then .ok player
      else
        match player.position.stepTo point.direction with
        | some position => .ok (record { player with position } point.direction)
        | none => .error .outOfBounds

/-- The first part of `Process`: consume one waypoint, or two when running. -/
def advance (player : Player) : Except Fault Player := do
  let m := player.movementHandler
  let walkPoint := m.waypoints.head?
  let waypoints := m.waypoints.tail
  let running := m.runToggled || m.runPath
  let runPoint := if running then waypoints.head? else none
  let waypoints := if running then waypoints.tail else waypoints
  let player := { player with movementHandler := { m with waypoints } }
  let player ← follow player walkPoint fun player d => { player with primaryDirection := d }
  follow player runPoint fun player d => { player with secondaryDirection := d }

/-- The player is far enough from the border of the region its client has loaded. -/
def insideRegion (player : Player) : Bool :=
  let deltaX := (player.position.x - player.currentRegion.regionX * 8).toInt
  let deltaY := (player.position.y - player.currentRegion.regionY * 8).toInt
  !(deltaX < 16 || deltaX ≥ 88 || deltaY < 16 || deltaY ≥ 88)

def process (s : Server) (p : PlayerId) : Except Fault Server := do
  let player ← advance (s.players p)
  let s := s.setPlayer p player
  if insideRegion player then return s
  else Player.updateMapRegion s p

end MovementHandler

namespace Player

/-- `Player::Process` -/
def process (s : Server) (p : PlayerId) : Except Fault Server := MovementHandler.process s p

end Player
end AsioRsps
