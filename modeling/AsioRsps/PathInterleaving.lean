import AsioRsps.LabelledRuns
import AsioRsps.Client
import AsioRsps.Waypoints

/-!
# A movement packet and a tick

The calls that a movement packet makes on the network thread, and those of a tick on the world
thread, for the player that walks. Between `Reset` and `Finish` a point without a direction
stands at the front of the queue, and a tick that consumes it leaves `Finish` to drop the first
step of the path instead.
-/
namespace AsioRsps
open LabelledRuns MovementHandler
open PlayerUpdate (stepOf)

namespace PathInterleaving

/-! ## The two threads -/

/-- The next call of the movement case of `HandlePacket`, and what it has read. After the last
tile comes `Finish`. -/
inductive PacketThread where
  | idle
  | reset (runPath : Bool) (tiles : List Position)
  | setRunPath (runPath : Bool) (tiles : List Position)
  | addToPath (tiles : List Position)

/-- Between `Reset` and `Finish`. -/
def PacketThread.Building : PacketThread → Prop
  | .idle => False
  | .reset _ _ => False
  | .setRunPath _ _ => True
  | .addToPath _ => True

/-- The tiles that have not been added yet. -/
def PacketThread.left : PacketThread → List Position
  | .idle => []
  | .reset _ tiles => tiles
  | .setRunPath _ tiles => tiles
  | .addToPath tiles => tiles

/-- The last phase of the tick that reached the player. -/
inductive TickThread where
  | sleeping
  | processed
  | updated

/-- The player and the two threads. The source keeps no record of the tiles of the last packet
and the position its `Reset` found, of the position before the tick, and of the movement that
the update announced. -/
structure Walk where
  player : Player
  packet : PacketThread := .idle
  tick : TickThread := .sleeping
  tiles : List Position := []
  origin : Position := {}
  before : Position := {}
  announced : PlayerUpdate.Step := .idle

def Walk.modifyHandler (w : Walk) (f : MovementHandler → MovementHandler) : Walk :=
  { w with player := { w.player with movementHandler := f w.player.movementHandler } }

inductive WalkEvent where
  | receive (firstStepX firstStepY : Int) (path : List (Int × Int)) (runPath : Bool)
  | reset
  | setRunPath
  | addToPath
  | finish
  | process
  | update
  | resetPlayer

/-- The tiles of a movement packet. -/
def packetTiles (firstStepX firstStepY : Int) (path : List (Int × Int)) : List Position :=
  Client.pathTile firstStepX firstStepY (0, 0) :: path.map (Client.pathTile firstStepX firstStepY)

/-- The network thread handles one packet after the other. An update shows the player to its own
client and to every viewer, so it comes more than once in a tick. -/
inductive WalkStep : Walk → WalkEvent → Walk → Prop where
  | receive {w : Walk} {x y : Int} {path : List (Int × Int)} {runPath : Bool} :
      w.packet = .idle → WalkStep w (.receive x y path runPath)
        { w with packet := .reset runPath (packetTiles x y path), tiles := packetTiles x y path }
  | reset {w : Walk} {runPath : Bool} {tiles : List Position} :
      w.packet = .reset runPath tiles → WalkStep w .reset
        { w.modifyHandler fun m => m.reset w.player.position with
          packet := .setRunPath runPath tiles
          origin := w.player.position }
  | setRunPath {w : Walk} {runPath : Bool} {tiles : List Position} :
      w.packet = .setRunPath runPath tiles → WalkStep w .setRunPath
        { w.modifyHandler fun m => m.setRunPath runPath with packet := .addToPath tiles }
  | addToPath {w : Walk} {tile : Position} {tiles : List Position} :
      w.packet = .addToPath (tile :: tiles) → WalkStep w .addToPath
        { w.modifyHandler fun m => m.addToPath w.player.position tile with
          packet := .addToPath tiles }
  | finish {w : Walk} : w.packet = .addToPath [] → WalkStep w .finish
      { w.modifyHandler MovementHandler.finish with packet := .idle }
  | process {w : Walk} : w.tick = .sleeping → WalkStep w .process
      { w with
        player := processed w.player
        tick := .processed
        before := w.player.position }
  | update {w : Walk} : w.tick ≠ .sleeping → WalkStep w .update
      { w with tick := .updated, announced := stepOf w.player }
  | resetPlayer {w : Walk} : w.tick ≠ .sleeping → WalkStep w .resetPlayer
      { w with player := w.player.reset, tick := .sleeping }

theorem reachable_addToPath {w : Walk} {tiles : List Position} (h : w.packet = .addToPath tiles) :
    ∃ w', Reachable WalkStep w w' ∧ w'.packet = .addToPath [] ∧
      w'.player = { w.player with
        movementHandler := tiles.foldl (fun m tile => m.addToPath w.player.position tile)
          w.player.movementHandler } := by
  induction tiles generalizing w with
  | nil => exact ⟨w, .start WalkStep w, h, rfl⟩
  | cons tile tiles ih =>
      have hadded := (Reachable.start WalkStep w).snoc (.addToPath h)
      obtain ⟨w', hrest, hpacket, hplayer⟩ := @ih
        { w.modifyHandler fun m => m.addToPath w.player.position tile with
          packet := .addToPath tiles } rfl
      exact ⟨w', hadded.trans hrest, hpacket, hplayer⟩

/-- Without interruption the calls of a packet are those of `HandlePacket`. -/
theorem reachable_walkPath {w : Walk} {runPath : Bool} {tiles : List Position}
    (h : w.packet = .reset runPath tiles) : ∃ w', Reachable WalkStep w w' ∧
      w'.packet = .idle ∧ w'.player = Client.walkPath w.player runPath tiles := by
  have hreset := (Reachable.start WalkStep w).snoc (.reset h)
  obtain ⟨w₁, hbuilding, hpacket₁, hplayer₁⟩ : ∃ w₁, Reachable WalkStep w w₁ ∧
      w₁.packet = .addToPath tiles ∧ w₁.player = { w.player with
        movementHandler :=
          (w.player.movementHandler.reset w.player.position).setRunPath runPath } :=
    ⟨_, hreset.snoc (.setRunPath rfl), rfl, rfl⟩
  obtain ⟨w', hadded, hpacket, hplayer⟩ := reachable_addToPath hpacket₁
  refine ⟨_, (hbuilding.trans hadded).snoc (.finish hpacket), rfl, ?_⟩
  rw [Walk.modifyHandler, hplayer, hplayer₁]
  rfl

/-! ## What is promised -/

/-- The number of steps of a path. -/
def pathSteps (p : Position) : List Position → Nat
  | [] => 0
  | tile :: tiles => stepsBetween p tile + pathSteps tile tiles

/-- Once the last packet is handled and the queue consumed, the player stands on the packet's
last tile. -/
def Arrived (w : Walk) : Prop :=
  w.packet = .idle → w.player.movementHandler.waypoints = [] → pathSteps w.origin w.tiles ≤ 99 →
    ∀ tile, w.tiles.getLast? = some tile → w.player.position = tile

/-- `Process` does not come between `Reset` and `Finish` of a packet of which the queue holds a
step already. -/
def Clear (w : Walk) : WalkEvent → Prop
  | .process => w.packet.Building → w.player.movementHandler.waypoints.length ≤ 1
  | _ => True

/-! ## The path being built -/

/-- After `n` steps the path is at `stop`, and the tiles that are left lead to the last one. -/
def Aims (origin : Position) (tiles : List Position) (stop : Position) (left : List Position)
    (n : Nat) : Prop :=
  (pathSteps origin tiles ≤ 99 → n + pathSteps stop left ≤ 99 ∧
    ∀ tile, tiles.getLast? = some tile → (stop :: left).getLast? = some tile) ∧
  ∀ tile ∈ left, tile.z = 0

/-- `AddToPath` brings the path to the next tile. -/
theorem Aims.addToPath {m : MovementHandler} {position tile stop origin : Position}
    {steps : List Point} {left tiles : List Position} (haims : Aims origin tiles stop (tile :: left)
      steps.length) (h : Holds position m.waypoints steps) (hz : position.z = 0)
    (hleads : Leads position steps stop) :
    ∃ steps' stop', Holds position (m.addToPath position tile).waypoints steps' ∧
      Leads position steps' stop' ∧ Aims origin tiles stop' left steps'.length := by
  obtain ⟨haims, hflat⟩ := haims
  obtain ⟨more, stop', hholds, hleads', hend⟩ := h.addToPath tile hz hleads
  refine ⟨steps ++ more, stop', hholds, hleads', fun hshort => ?_,
    fun other hmem => hflat other (List.mem_cons_of_mem _ hmem)⟩
  obtain ⟨hroom, hgoal⟩ := haims hshort
  rw [pathSteps] at hroom
  obtain ⟨hlength, hx, hy⟩ := hend (by omega)
  have hstop : stop' = tile := by
    have hz' : stop'.z = tile.z :=
      (hleads'.z.trans hz).trans (hflat tile List.mem_cons_self).symm
    calc stop' = ⟨stop'.x, stop'.y, stop'.z⟩ := rfl
      _ = ⟨tile.x, tile.y, tile.z⟩ := by rw [hx, hy, hz']
  rw [hstop, List.length_append, hlength]
  exact ⟨by omega, fun other hother => hgoal other hother⟩

/-! ## The invariant -/

/-- The tick has moved the player along the directions recorded. -/
structure TickSound (w : Walk) : Prop where
  sleeping : w.tick = .sleeping →
    w.player.primaryDirection = -1 ∧ w.player.secondaryDirection = -1
  moved : w.tick ≠ .sleeping →
    w.before.stepAlong (stepOf w.player).directions = some w.player.position ∧
      (w.player.secondaryDirection ≠ -1 → w.player.primaryDirection ≠ -1)
  updated : w.tick = .updated → w.announced.directions = (stepOf w.player).directions

/-- The queue leads to the last tile of the last packet, once that is handled and unless the path
is too long. -/
structure PathSound (w : Walk) : Prop where
  flat : w.player.position.z = 0
  tiles : ∀ tile ∈ w.tiles, tile.z = 0
  received : ∀ runPath tiles, w.packet = .reset runPath tiles → tiles = w.tiles
  resting : ¬ w.packet.Building → ∃ stop,
    Leads w.player.position w.player.movementHandler.waypoints stop ∧
      (w.packet = .idle → pathSteps w.origin w.tiles ≤ 99 →
        ∀ tile, w.tiles.getLast? = some tile → stop = tile)
  building : w.packet.Building → ∃ steps stop,
    Holds w.player.position w.player.movementHandler.waypoints steps ∧
      Leads w.player.position steps stop ∧
      Aims w.origin w.tiles stop w.packet.left steps.length

/-- A player as its constructor leaves it, and the login, as far as movement is concerned. -/
structure Fresh (player : Player) : Prop where
  flat : player.position.z = 0
  waypoints : player.movementHandler.waypoints = []
  primary : player.primaryDirection = -1
  secondary : player.secondaryDirection = -1

theorem TickSound.start {player : Player} (h : Fresh player) : TickSound { player } where
  sleeping _ := ⟨h.primary, h.secondary⟩
  moved hne := absurd rfl hne
  updated hupdated := nomatch hupdated

theorem PathSound.start {player : Player} (h : Fresh player) : PathSound { player } where
  flat := h.flat
  tiles _ hmem := nomatch hmem
  received _ _ hpacket := nomatch hpacket
  resting _ := by
    refine ⟨player.position, ?_, fun _ _ _ hlast => nomatch hlast⟩
    change Leads player.position player.movementHandler.waypoints player.position
    rw [h.waypoints]
    rfl
  building hbuilding := hbuilding.elim

/-! ## Steps -/

/-- Outside the building of a path the player follows its queue, and inside it stands still. -/
theorem TickSound.process {w : Walk} (h : TickSound w) (hpath : PathSound w)
    (hsleeping : w.tick = .sleeping) (hclear : Clear w .process) : TickSound { w with
      player := processed w.player
      tick := .processed
      before := w.player.position } := by
  obtain ⟨hp, hs⟩ := h.sleeping hsleeping
  refine ⟨fun h => (nomatch h), fun _ => ?_, fun h => (nomatch h)⟩
  change w.player.position.stepAlong (stepOf (processed w.player)).directions =
    some (processed w.player).position ∧
      ((processed w.player).secondaryDirection ≠ -1 → (processed w.player).primaryDirection ≠ -1)
  by_cases hbuilding : w.packet.Building
  · obtain ⟨steps, stop, hholds, -, -⟩ := hpath.building hbuilding
    obtain ⟨-, hd⟩ := hholds.length_le_one (hclear hbuilding)
    obtain ⟨-, hposition, hp', hs'⟩ := processed_placeholder (hclear hbuilding) hd
    rw [directions_congr hp' hs', hposition, hs']
    refine ⟨?_, fun hne => absurd hs hne⟩
    rw [directions_stepOf (hp ▸ by decide) (hs ▸ by decide), if_pos hp]
    rfl
  · obtain ⟨stop, hleads, -⟩ := hpath.resting hbuilding
    have hfollowed := followed_processed hleads hp hs
    exact ⟨hfollowed.announced, hfollowed.walks⟩

theorem TickSound.step {w w' : Walk} {e : WalkEvent} (h : TickSound w) (hpath : PathSound w)
    (hs : WalkStep w e w') (hclear : Clear w e) : TickSound w' := by
  cases hs with
  | receive _ => exact ⟨h.sleeping, h.moved, h.updated⟩
  | reset _ => exact ⟨h.sleeping, h.moved, h.updated⟩
  | setRunPath _ => exact ⟨h.sleeping, h.moved, h.updated⟩
  | addToPath _ => exact ⟨h.sleeping, h.moved, h.updated⟩
  | finish _ => exact ⟨h.sleeping, h.moved, h.updated⟩
  | process hsleeping => exact h.process hpath hsleeping hclear
  | update hne => exact ⟨fun hsleeping => (nomatch hsleeping), fun _ => h.moved hne, fun _ => rfl⟩
  | resetPlayer _ => exact ⟨fun _ => ⟨rfl, rfl⟩, fun h => absurd rfl h, fun h => (nomatch h)⟩

theorem PathSound.process {w : Walk} (h : PathSound w) (htick : TickSound w)
    (hsleeping : w.tick = .sleeping) (hclear : Clear w .process) : PathSound { w with
      player := processed w.player
      tick := .processed
      before := w.player.position } := by
  obtain ⟨hp, hs⟩ := htick.sleeping hsleeping
  by_cases hbuilding : w.packet.Building
  · obtain ⟨steps, stop, hholds, hleads, haims⟩ := h.building hbuilding
    obtain ⟨rfl, hd⟩ := hholds.length_le_one (hclear hbuilding)
    obtain ⟨hnil, hposition, -, -⟩ := processed_placeholder (hclear hbuilding) hd
    refine ⟨?_, h.tiles, h.received, fun hrest => absurd hbuilding hrest, fun _ => ?_⟩
    · exact (congrArg Position.z hposition).trans h.flat
    · exact ⟨[], stop, .inl ⟨hnil, rfl⟩, hposition.trans hleads, haims⟩
  · obtain ⟨stop, hleads, hgoal⟩ := h.resting hbuilding
    have hleads' := (followed_processed hleads hp hs).leads
    refine ⟨?_, h.tiles, h.received, fun _ => ⟨stop, hleads', hgoal⟩,
      fun hbuilding' => absurd hbuilding' hbuilding⟩
    exact (hleads'.z.symm.trans hleads.z).trans h.flat

theorem PathSound.step {w w' : Walk} {e : WalkEvent} (h : PathSound w) (htick : TickSound w)
    (hs : WalkStep w e w') (hclear : Clear w e) : PathSound w' := by
  cases hs with
  | @receive x y path runPath hidle =>
      have hrest : ¬ w.packet.Building := by
        rw [hidle]
        exact id
      obtain ⟨stop, hleads, -⟩ := h.resting hrest
      refine ⟨h.flat, ?_, ?_, fun _ => ⟨stop, hleads, fun h => (nomatch h)⟩, fun h => h.elim⟩
      · intro tile hmem
        rcases List.mem_cons.mp hmem with rfl | hmem
        · rfl
        · obtain ⟨offset, -, rfl⟩ := List.mem_map.mp hmem
          rfl
      · rintro _ _ ⟨⟩
        rfl
  | @reset runPath tiles hpacket =>
      obtain rfl := h.received runPath tiles hpacket
      refine ⟨h.flat, h.tiles, fun _ _ h => (nomatch h), fun h => absurd trivial h, fun _ => ?_⟩
      refine ⟨[], w.player.position, holds_reset _ h.flat, rfl, fun hshort => ⟨?_, ?_⟩, h.tiles⟩
      · rw [List.length_nil, Nat.zero_add]
        exact hshort
      · intro tile hlast
        change w.tiles.getLast? = some tile at hlast
        change (w.player.position :: w.tiles).getLast? = some tile
        rw [List.getLast?_cons, hlast]
        rfl
  | @setRunPath runPath tiles hpacket =>
      obtain ⟨steps, stop, hholds, hleads, haims⟩ := h.building (by rw [hpacket]; trivial)
      rw [hpacket] at haims
      exact ⟨h.flat, h.tiles, fun _ _ h => (nomatch h), fun h => absurd trivial h,
        fun _ => ⟨steps, stop, hholds, hleads, haims⟩⟩
  | @addToPath tile tiles hpacket =>
      obtain ⟨steps, stop, hholds, hleads, haims⟩ := h.building (by rw [hpacket]; trivial)
      rw [hpacket] at haims
      exact ⟨h.flat, h.tiles, fun _ _ h => (nomatch h), fun h => absurd trivial h,
        fun _ => haims.addToPath hholds h.flat hleads⟩
  | finish hpacket =>
      obtain ⟨steps, stop, hholds, hleads, haims, -⟩ := h.building (by rw [hpacket]; trivial)
      rw [hpacket] at haims
      refine ⟨h.flat, h.tiles, fun _ _ h => (nomatch h), fun _ => ⟨stop, ?_, ?_⟩, fun h => h.elim⟩
      · change Leads w.player.position w.player.movementHandler.waypoints.tail stop
        rw [hholds.tail]
        exact hleads
      · intro _ hshort tile hlast
        exact Option.some.inj ((haims hshort).2 tile hlast)
  | process hsleeping => exact h.process htick hsleeping hclear
  | update _ => exact ⟨h.flat, h.tiles, h.received, h.resting, h.building⟩
  | resetPlayer _ => exact ⟨h.flat, h.tiles, h.received, h.resting, h.building⟩

/-- A player that a packet sends two tiles to the east, running. -/
def walker : Player := { username := [], client := 0 }

end PathInterleaving
end AsioRsps
