import AsioRsps.KingPaths
import AsioRsps.PacketHandling
import AsioRsps.Waypoints

/-!
# Routes

The queue of waypoints as a path over the grid. `HandlePacket` turns the tiles of a movement
payload into the king path through them, cut to its first 99 steps, and `Process` walks along it,
one tile or two at a time, recording the directions it takes.
-/
namespace AsioRsps
open BitStrings (Byte)
open StreamBuffer
open KingPaths

namespace MovementHandler

/-! ## Points of a path -/

/-- The tile a position is on. -/
def tileOf (p : Position) : Tile := ⟨p.x.toNat, p.y.toNat⟩

/-- The coordinates are those of the tile, modulo `2 ^ 32`. -/
def AtTile (p : Position) (t : Tile) : Prop :=
  p.x = BitVec.ofInt 32 t.x ∧ p.y = BitVec.ofInt 32 t.y

/-- The waypoint of a step, with its direction. -/
def pointTo (p q : Tile) : Point where
  x := BitVec.ofInt 32 q.x
  y := BitVec.ofInt 32 q.y
  direction := Position.direction (q.x - p.x) (q.y - p.y)

/-- A waypoint for every step of a path. -/
def pointsFrom : Tile → List Tile → List Point
  | _, [] => []
  | p, q :: qs => pointTo p q :: pointsFrom q qs

theorem atTile_tileOf (p : Position) : AtTile p (tileOf p) := by
  simp only [AtTile, tileOf, BitVec.ofInt_natCast, BitVec.ofNat_toNat, BitVec.setWidth_eq, and_self]

theorem pointsFrom_append (p : Tile) (ps qs : List Tile) :
    pointsFrom p (ps ++ qs) = pointsFrom p ps ++ pointsFrom (ps.getLastD p) qs := by
  induction ps generalizing p with
  | nil => rfl
  | cons q ps ih =>
      rw [List.cons_append, pointsFrom, ih, List.getLastD_cons]
      rfl

theorem pointsFrom_length (p : Tile) (ps : List Tile) : (pointsFrom p ps).length = ps.length := by
  induction ps generalizing p with
  | nil => rfl
  | cons q ps ih => rw [pointsFrom, List.length_cons, List.length_cons, ih]

theorem pointsFrom_take (p : Tile) (ps : List Tile) (n : Nat) :
    (pointsFrom p ps).take n = pointsFrom p (ps.take n) := by
  induction ps generalizing p n with
  | nil => rw [pointsFrom, List.take_nil, List.take_nil]; rfl
  | cons q ps ih =>
      cases n with
      | zero => rfl
      | succ n => rw [pointsFrom, List.take_succ_cons, List.take_succ_cons, ih]; rfl

theorem pointsFrom_drop (p : Tile) (ps : List Tile) (n : Nat) :
    (pointsFrom p ps).drop n = pointsFrom ((ps.take n).getLastD p) (ps.drop n) := by
  induction ps generalizing p n with
  | nil => rw [pointsFrom, List.drop_nil, List.drop_nil]; rfl
  | cons q ps ih =>
      cases n with
      | zero => rfl
      | succ n =>
          rw [pointsFrom, List.drop_succ_cons, List.drop_succ_cons, ih, List.take_succ_cons,
            List.getLastD_cons]

theorem pointsFrom_isDirection (p : Tile) (ps : List Tile) :
    ∀ point ∈ pointsFrom p ps, Position.IsDirection point.direction := by
  induction ps generalizing p with
  | nil => exact fun _ hmem => (nomatch hmem)
  | cons q ps ih =>
      intro point hmem
      rcases List.mem_cons.mp hmem with rfl | hmem
      · exact Position.direction_isDirection _ _
      · exact ih q point hmem

/-- The queue ends on the tile its last step goes to. -/
theorem exists_getLast_pointsFrom {base : List Point} {p : Tile} {last : Point}
    (hlast : base.getLast? = some last) (hat : AtTile last.toPosition p) (ps : List Tile) :
    ∃ last', (base ++ pointsFrom p ps).getLast? = some last' ∧
      AtTile last'.toPosition (ps.getLastD p) := by
  induction ps generalizing base p last with
  | nil => exact ⟨last, by rwa [pointsFrom, List.append_nil], hat⟩
  | cons q ps ih =>
      rw [pointsFrom, List.getLastD_cons, List.append_cons]
      exact ih List.getLast?_concat ⟨rfl, rfl⟩

/-! ## Building the path -/

theorem towardZero_eq (d : Int) : towardZero d = d - d.sign := by
  have h := towardZero_cases d
  have hsign := sign_cases d
  omega

/-- One round of the loop of `AddToPath` with some way to go. -/
theorem addStep_towards {target : Position} {p q : Tile} {queue : List Point} {last : Point}
    (hlast : queue.getLast? = some last) (hat : AtTile last.toPosition p)
    (htarget : AtTile target q)
    (hway : distance p q ≠ 0) (hroom : queue.length < 100) :
    addStep (target.x - BitVec.ofInt 32 (towardZero (q.x - p.x)))
        (target.y - BitVec.ofInt 32 (towardZero (q.y - p.y))) queue =
      queue ++ pointsFrom p [towards p q] := by
  have hback (w : Word) {a b : Int} (hw : w = BitVec.ofInt 32 b) :
      w - BitVec.ofInt 32 (towardZero (b - a)) = BitVec.ofInt 32 (a + (b - a).sign) := by
    rw [hw, towardZero_eq, BitVec.sub_eq_add_neg, ← BitVec.ofInt_neg, ← BitVec.ofInt_add]
    congr 1
    omega
  have hnext {w : Word} {a : Int} (d : Int) (hw : w = BitVec.ofInt 32 a) :
      BitVec.ofInt 32 (a + d) = w + BitVec.ofInt 32 d := by rw [hw, BitVec.ofInt_add]
  have hx := sign_cases (q.x - p.x)
  have hy := sign_cases (q.y - p.y)
  have hne : (q.x - p.x).sign ≠ 0 ∨ (q.y - p.y).sign ≠ 0 := by
    rw [distance] at hway
    omega
  have hdx : p.x + (q.x - p.x).sign - p.x = (q.x - p.x).sign := by omega
  have hdy : p.y + (q.y - p.y).sign - p.y = (q.y - p.y).sign := by omega
  rw [hback target.x htarget.1, hback target.y htarget.2,
    addStep_neighbour hroom hlast (hnext _ hat.1) (hnext _ hat.2) (by omega) (by omega) hne]
  simp only [pointsFrom, pointTo, towards, hdx, hdy]

/-- One leg, as far as there is room for it. -/
theorem addSteps_leg {target : Position} {n : Nat} {p q : Tile} {queue : List Point} {last : Point}
    (hlast : queue.getLast? = some last) (hat : AtTile last.toPosition p)
    (htarget : AtTile target q)
    (hn : n ≤ distance p q) (hlength : queue.length ≤ 100) :
    addSteps target n (q.x - p.x) (q.y - p.y) queue =
      (queue ++ pointsFrom p (leg n p q)).take 100 := by
  induction n generalizing p queue last with
  | zero =>
      rw [addSteps, leg, pointsFrom, List.append_nil, List.take_of_length_le hlength]
  | succ n ih =>
      by_cases hroom : queue.length < 100
      · have hway : distance p q ≠ 0 := by omega
        have hdelta (a b : Int) : towardZero (b - a) = b - (a + (b - a).sign) := by
          rw [towardZero_eq]
          omega
        obtain ⟨last', hlast', hat'⟩ := exists_getLast_pointsFrom hlast hat [towards p q]
        have hrest := ih hlast' hat' (by
            change n ≤ distance (towards p q) q
            rw [distance_towards]
            omega)
          (by rw [List.length_append, pointsFrom_length]; exact hroom)
        rw [addSteps, addStep_towards hlast hat htarget hway hroom, hdelta p.x, hdelta p.y, leg]
        rw [List.append_assoc] at hrest
        exact hrest
      · rw [addSteps_full (Nat.not_lt.mp hroom),
          List.take_append_of_le_length (Nat.not_lt.mp hroom), List.take_of_length_le hlength]

/-- The tiles of the map. -/
def InGrid (t : Tile) : Prop := (0 ≤ t.x ∧ t.x < 65536) ∧ (0 ≤ t.y ∧ t.y < 65536)

theorem inGrid_tileOf {p : Position} (h : OnMap p) : InGrid (tileOf p) := by
  obtain ⟨hx, hy⟩ := h
  simp only [InGrid, tileOf]
  omega

theorem toInt_sub_ofInt {a b : Int} (ha : 0 ≤ a ∧ a < 65536) (hb : 0 ≤ b ∧ b < 65536) :
    (BitVec.ofInt 32 b - BitVec.ofInt 32 a).toInt = b - a := by
  rw [BitVec.sub_eq_add_neg, ← BitVec.ofInt_neg, ← BitVec.ofInt_add, BitVec.toInt_ofInt]
  exact Int.bmod_eq_of_le (by omega) (by omega)

theorem addToPath_leg {m : MovementHandler} {position target : Position} {p q : Tile}
    {last : Point} (hlast : m.waypoints.getLast? = some last) (hat : AtTile last.toPosition p)
    (htarget : AtTile target q) (hp : InGrid p) (hq : InGrid q)
    (hlength : m.waypoints.length ≤ 100) :
    m.addToPath position target = { m with
      waypoints := (m.waypoints ++ pointsFrom p (leg (distance p q) p q)).take 100 } := by
  have hne : m.waypoints ≠ [] := by
    intro hnil
    rw [hnil] at hlast
    cases hlast
  have hx : (target.x - last.x).toInt = q.x - p.x := by
    rw [htarget.1, hat.1, toInt_sub_ofInt hp.1 hq.1]
  have hy : (target.y - last.y).toInt = q.y - p.y := by
    rw [htarget.2, hat.2, toInt_sub_ofInt hp.2 hq.2]
  obtain ⟨-, heq⟩ := max_absInt32 (a := target.x - last.x) (b := target.y - last.y)
  have hsteps : (max (absInt32 (q.x - p.x)) (absInt32 (q.y - p.y))).toNat = distance p q := by
    rw [hx, hy] at heq
    obtain ⟨hpx, hpy⟩ := hp
    obtain ⟨hqx, hqy⟩ := hq
    exact heq (by omega)
  rw [addToPath, if_neg hne, hlast]
  dsimp only
  rw [hx, hy, hsteps, addSteps_leg hlast hat htarget (Nat.le_refl _) hlength]

theorem addToPath_full {m : MovementHandler} (h : 100 ≤ m.waypoints.length)
    (position target : Position) : m.addToPath position target = m := by
  have hne : m.waypoints ≠ [] := by
    intro hnil
    rw [hnil] at h
    cases h
  rw [addToPath, if_neg hne]
  dsimp only
  split
  · rfl
  · rw [addSteps_full h]

/-- All the legs of a packet. Once the queue is full, the steps that are left are dropped. -/
theorem addToPath_path (position : Position) (tiles : List Position) {m : MovementHandler}
    {queue : List Point} {p : Tile} {last : Point} (hwaypoints : m.waypoints = queue.take 100)
    (hlast : queue.getLast? = some last) (hat : AtTile last.toPosition p) (hp : InGrid p)
    (htiles : ∀ tile ∈ tiles, OnMap tile) :
    tiles.foldl (fun m tile => m.addToPath position tile) m = { m with
      waypoints := (queue ++ pointsFrom p (path p (tiles.map tileOf))).take 100 } := by
  induction tiles generalizing m queue p last with
  | nil => rw [List.foldl_nil, List.map_nil, path, pointsFrom, List.append_nil, ← hwaypoints]
  | cons tile tiles ih =>
      have hq := inGrid_tileOf (htiles tile List.mem_cons_self)
      have hadd : m.addToPath position tile = { m with waypoints :=
          (queue ++ pointsFrom p (leg (distance p (tileOf tile)) p (tileOf tile))).take 100 } := by
        by_cases hroom : queue.length ≤ 100
        · rw [List.take_of_length_le hroom] at hwaypoints
          rw [← hwaypoints] at hlast hroom ⊢
          exact addToPath_leg hlast hat (atTile_tileOf tile) hp hq hroom
        · have hcut : 100 ≤ queue.length := Nat.le_of_lt (Nat.not_le.mp hroom)
          have hfull : 100 ≤ m.waypoints.length := by
            rw [hwaypoints, List.length_take]
            omega
          rw [addToPath_full hfull, List.take_append_of_le_length hcut, ← hwaypoints]
      obtain ⟨last', hlast', hat'⟩ := exists_getLast_pointsFrom hlast hat
        (leg (distance p (tileOf tile)) p (tileOf tile))
      rw [leg_getLastD rfl] at hat'
      rw [List.foldl_cons, hadd,
        ih rfl hlast' hat' hq fun other hmem => htiles other (List.mem_cons_of_mem _ hmem),
        List.map_cons, path, pointsFrom_append, leg_getLastD rfl, List.append_assoc]

/-! ## The route of a packet -/

/-- The king path from a position through some tiles, cut to its first 99 steps. -/
def routeOf (position : Position) (tiles : List Position) : List Tile :=
  (path (tileOf position) (tiles.map tileOf)).take 99

/-- A path is built from an empty queue: what was queued before is gone. -/
theorem walkPath_route {player : Player} {tiles : List Position} (runPath : Bool)
    (hposition : OnMap player.position) (htiles : ∀ tile ∈ tiles, OnMap tile) :
    Client.walkPath player runPath tiles = { player with
      movementHandler := { player.movementHandler with
        waypoints := pointsFrom (tileOf player.position) (routeOf player.position tiles)
        runPath } } := by
  obtain ⟨placeholder, hplaceholder⟩ : ∃ point : Point,
      point = { x := player.position.x, y := player.position.y, direction := -1 } := ⟨_, rfl⟩
  have hat : AtTile placeholder.toPosition (tileOf player.position) := by
    rw [hplaceholder]
    exact atTile_tileOf player.position
  have hreset : ((player.movementHandler.reset player.position).setRunPath runPath).waypoints =
      [placeholder].take 100 := by
    rw [hplaceholder]
    rfl
  have hpath := addToPath_path player.position tiles hreset rfl hat (inGrid_tileOf hposition) htiles
  rw [Client.walkPath]
  dsimp only
  rw [hpath, routeOf, ← pointsFrom_take]
  rfl

/-! ## Walking the route -/

/-- How many waypoints a tick takes. -/
def stride (m : MovementHandler) : Nat := if m.runToggled || m.runPath then 2 else 1

theorem exists_stepTo_pointTo {position : Position} {p q : Tile} (hat : AtTile position p)
    (hmove : distance p q = 1) : (pointTo p q).direction ≠ -1 ∧
      ∃ position', position.stepTo (pointTo p q).direction = some position' ∧
        AtTile position' q ∧ position'.z = position.z := by
  have hnext {w : Word} {a b : Int} (hw : w = BitVec.ofInt 32 a) :
      w + BitVec.ofInt 32 (b - a) = BitVec.ofInt 32 b := by
    rw [hw, ← BitVec.ofInt_add]
    congr 1
    omega
  rw [distance] at hmove
  have hx : -1 ≤ q.x - p.x ∧ q.x - p.x ≤ 1 := by omega
  have hy : -1 ≤ q.y - p.y ∧ q.y - p.y ≤ 1 := by omega
  obtain ⟨hd, hstep⟩ := Position.stepTo_direction position hx hy (by omega)
  exact ⟨hd, _, hstep, ⟨hnext hat.1, hnext hat.2⟩, rfl⟩

/-- What a tick does to a player on a route: it takes as many waypoints as its stride, or all
there are, and the directions of the first two become its own. -/
structure Walks (player player' : Player) (p : Tile) (route : List Tile) : Prop where
  handler : player'.movementHandler = { player.movementHandler with
    waypoints := (pointsFrom p route).drop player.movementHandler.stride }
  position : AtTile player'.position ((route.take player.movementHandler.stride).getLastD p)
  height : player'.position.z = player.position.z
  primary : player'.primaryDirection =
    (((pointsFrom p route).take player.movementHandler.stride).map Point.direction)[0]?.getD
      player.primaryDirection
  secondary : player'.secondaryDirection =
    (((pointsFrom p route).take player.movementHandler.stride).map Point.direction)[1]?.getD
      player.secondaryDirection

theorem advance_route {player : Player} {p : Tile} {route : List Tile}
    (hat : AtTile player.position p) (hmoves : KingMoves p route)
    (hwaypoints : player.movementHandler.waypoints = pointsFrom p route) :
    ∃ player', advance player = .ok player' ∧ Walks player player' p route := by
  cases route with
  | nil =>
      refine ⟨{ player with
        movementHandler := { player.movementHandler with waypoints := [] } }, ?_, ?_⟩
      · rw [advance, hwaypoints]
        dsimp only [pointsFrom, List.head?_nil, List.tail_nil]
        split <;> rfl
      · constructor
        · rw [pointsFrom, List.drop_nil]
        · rw [List.take_nil]
          exact hat
        · rfl
        · rw [pointsFrom, List.take_nil]
          rfl
        · rw [pointsFrom, List.take_nil]
          rfl
  | cons q route =>
      obtain ⟨hmove, hrest⟩ := hmoves
      obtain ⟨hwalk, position, hstep, hat', hz⟩ := exists_stepTo_pointTo hat hmove
      rw [advance_cons hwaypoints hwalk hstep]
      split
      · rename_i hrun
        have hstride : player.movementHandler.stride = 2 := if_pos hrun
        cases route with
        | nil =>
            refine ⟨_, rfl, ?_, ?_, hz, ?_, ?_⟩
            · rw [hstride]
              rfl
            · rw [hstride]
              exact hat'
            · rw [hstride]
              rfl
            · rw [hstride]
              rfl
        | cons r route =>
            obtain ⟨hrun', position', hstep', hat'', hz'⟩ := exists_stepTo_pointTo hat' hrest.1
            refine ⟨_, follow_point _ hrun' hstep', ?_, ?_, hz'.trans hz, ?_, ?_⟩
            · rw [hstride]
              rfl
            · rw [hstride]
              exact hat''
            · rw [hstride]
              rfl
            · rw [hstride]
              rfl
      · rename_i hrun
        have hstride : player.movementHandler.stride = 1 := if_neg hrun
        refine ⟨_, rfl, ?_, ?_, hz, ?_, ?_⟩
        · rw [hstride]
          rfl
        · rw [hstride]
          exact hat'
        · rw [hstride]
          rfl
        · rw [hstride]
          rfl

theorem processed_route {player : Player} {p : Tile} {route : List Tile}
    (hat : AtTile player.position p) (hmoves : KingMoves p route)
    (hwaypoints : player.movementHandler.waypoints = pointsFrom p route) :
    Walks player (processed player) p route := by
  obtain ⟨player', hm, hwalks⟩ := advance_route hat hmoves hwaypoints
  have hmoved : moved player = player' := by rw [moved, hm]
  rw [processed_eq, hmoved]
  exact ⟨hwalks.handler, hwalks.position, hwalks.height, hwalks.primary, hwalks.secondary⟩

end MovementHandler
end AsioRsps
