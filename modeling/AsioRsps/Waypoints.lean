import AsioRsps.Tick
import AsioRsps.UpdateRoundTrip

/-!
# Waypoints

Queues in which every waypoint is one step from the one before it. `AddToPath` keeps the queue
so and leads to its target, as long as there is room for all the steps, and following such a
queue moves the player along the directions it then announces.
-/
namespace AsioRsps

namespace PlayerUpdate

/-- The directions a movement announces. -/
def Step.directions : Step → List Int
  | .idle => []
  | .stand => []
  | .walk direction _ => [direction]
  | .run direction direction2 _ => [direction, direction2]

end PlayerUpdate

namespace Position

/-- The position some directions lead to. -/
def stepAlong (p : Position) (directions : List Int) : Option Position :=
  directions.foldlM stepTo p

theorem stepAlong_cons {p q : Position} {d : Int} (h : p.stepTo d = some q)
    (directions : List Int) : p.stepAlong (d :: directions) = q.stepAlong directions := by
  rw [stepAlong, List.foldlM_cons, h]
  rfl

theorem stepTo_nonneg {p q : Position} {d : Int} (h : p.stepTo d = some q) : 0 ≤ d := by
  by_contra hneg
  rw [stepTo, if_neg hneg] at h
  cases h

theorem stepTo_isDirection {p q : Position} {d : Int} (h : p.stepTo d = some q) :
    IsDirection d := by
  have hlow := stepTo_nonneg h
  rw [stepTo, if_pos hlow] at h
  refine ⟨by omega, ?_⟩
  by_contra hhigh
  have hnone : directionDeltaX[d.toNat]? = none := Vector.getElem?_eq_none (by omega)
  rw [hnone] at h
  cases h

theorem stepTo_z {p q : Position} {d : Int} (h : p.stepTo d = some q) : q.z = p.z := by
  rw [stepTo] at h
  split at h
  · split at h
    · rw [← Option.some.inj h]
      rfl
    · cases h
  · cases h

theorem stepAlong_z {p q : Position} {directions : List Int}
    (h : p.stepAlong directions = some q) : q.z = p.z := by
  induction directions generalizing p with
  | nil => rw [← Option.some.inj h]
  | cons d directions ih =>
      rw [stepAlong, List.foldlM_cons] at h
      obtain ⟨next, hnext, hrest⟩ := Option.bind_eq_some_iff.mp h
      exact (ih hrest).trans (stepTo_z hnext)

/-- A step towards any of the eight neighbours. -/
theorem stepTo_direction (p : Position) {dx dy : Int} (hx : -1 ≤ dx ∧ dx ≤ 1)
    (hy : -1 ≤ dy ∧ dy ≤ 1) (hne : dx ≠ 0 ∨ dy ≠ 0) :
    direction dx dy ≠ -1 ∧ p.stepTo (direction dx dy) = some (p.move dx dy) := by
  have hdx : dx = -1 ∨ dx = 0 ∨ dx = 1 := by omega
  have hdy : dy = -1 ∨ dy = 0 ∨ dy = 1 := by omega
  rcases hdx with rfl | rfl | rfl <;> rcases hdy with rfl | rfl | rfl
  all_goals first
    | exact ⟨by decide, rfl⟩
    | exact absurd hne (by decide)

end Position

namespace MovementHandler

/-! ## Steps -/

/-- The points lie one step after the other. -/
def Leads : Position → List Point → Position → Prop
  | p, [], q => p = q
  | p, point :: points, q => point.direction ≠ -1 ∧
      p.stepTo point.direction = some point.toPosition ∧ Leads point.toPosition points q

theorem Leads.append {p q r : Position} {points more : List Point} (h : Leads p points q)
    (h' : Leads q more r) : Leads p (points ++ more) r := by
  induction points generalizing p with
  | nil =>
      obtain rfl : p = q := h
      exact h'
  | cons point points ih => exact ⟨h.1, h.2.1, ih h.2.2⟩

/-- The last point, if there is one, is where they lead. -/
theorem Leads.getLast {p q : Position} {points : List Point} (h : Leads p points q) {last : Point}
    (hlast : points.getLast? = some last) : last.toPosition = q := by
  induction points generalizing p with
  | nil => cases hlast
  | cons point points ih =>
      cases points with
      | nil =>
          obtain rfl := Option.some.inj hlast
          exact h.2.2
      | cons next points =>
          rw [List.getLast?_cons_cons] at hlast
          exact ih h.2.2 hlast

theorem Leads.z {p q : Position} {points : List Point} (h : Leads p points q) : q.z = p.z := by
  induction points generalizing p with
  | nil =>
      obtain rfl : p = q := h
      rfl
  | cons point points ih => exact (ih h.2.2).trans (Position.stepTo_z h.2.1)

/-- Every point of the queue can be followed. -/
theorem Leads.isDirection {p q : Position} {points : List Point} (h : Leads p points q) :
    ∀ point ∈ points, point.direction ≠ -1 ∧ Position.IsDirection point.direction := by
  induction points generalizing p with
  | nil => exact fun _ hmem => (nomatch hmem)
  | cons point points ih =>
      intro other hmem
      rcases List.mem_cons.mp hmem with rfl | hmem
      · exact ⟨h.1, Position.stepTo_isDirection h.2.1⟩
      · exact ih h.2.2 other hmem

/-! ## Adding to the path -/

theorem towardZero_cases (delta : Int) : (delta = 0 ∧ towardZero delta = 0) ∨
    (delta < 0 ∧ towardZero delta = delta + 1) ∨ (0 < delta ∧ towardZero delta = delta - 1) := by
  rw [towardZero]
  split_ifs
  · exact .inr (.inl ⟨by omega, rfl⟩)
  · exact .inr (.inr ⟨by omega, rfl⟩)
  · exact .inl ⟨by omega, by omega⟩

theorem natAbs_towardZero (delta : Int) : (towardZero delta).natAbs = delta.natAbs - 1 := by
  have hcase := towardZero_cases delta
  omega

theorem max_towardZero (deltaX deltaY : Int) :
    max (towardZero deltaX).natAbs (towardZero deltaY).natAbs =
      max deltaX.natAbs deltaY.natAbs - 1 := by
  rw [natAbs_towardZero, natAbs_towardZero]
  exact (Nat.sub_max_sub_right ..)

theorem addStep_full {waypoints : List Point} (h : 100 ≤ waypoints.length) (x y : Word) :
    addStep x y waypoints = waypoints := if_pos h

theorem addSteps_full {waypoints : List Point} (h : 100 ≤ waypoints.length) (target : Position)
    (n : Nat) (deltaX deltaY : Int) : addSteps target n deltaX deltaY waypoints = waypoints := by
  induction n generalizing deltaX deltaY with
  | zero => rfl
  | succ n ih =>
      rw [addSteps, addStep_full h]
      exact ih _ _

/-- With room for it, a step to a neighbour of the last point is added. -/
theorem addStep_neighbour {waypoints : List Point} {last : Point} {x y : Word} {dx dy : Int}
    (hroom : waypoints.length < 100) (hlast : waypoints.getLast? = some last)
    (hx : x = last.x + BitVec.ofInt 32 dx) (hy : y = last.y + BitVec.ofInt 32 dy)
    (hdx : -1 ≤ dx ∧ dx ≤ 1) (hdy : -1 ≤ dy ∧ dy ≤ 1) (hne : dx ≠ 0 ∨ dy ≠ 0) :
    addStep x y waypoints = waypoints ++ [{ x, y, direction := Position.direction dx dy }] := by
  have hsmall (d : Int) (hd : -1 ≤ d ∧ d ≤ 1) : (BitVec.ofInt 32 d).toInt = d := by
    rw [BitVec.toInt_ofInt]
    exact Int.bmod_eq_of_le (by omega) (by omega)
  have hsubX : (x - last.x).toInt = dx := by
    rw [hx, BitVec.add_comm, BitVec.add_sub_cancel, hsmall dx hdx]
  have hsubY : (y - last.y).toInt = dy := by
    rw [hy, BitVec.add_comm, BitVec.add_sub_cancel, hsmall dy hdy]
  obtain ⟨hd, -⟩ := Position.stepTo_direction {} hdx hdy hne
  have hpos : Position.direction dx dy > -1 := by
    have h := (Position.direction_isDirection dx dy).1
    omega
  rw [addStep, if_neg (Nat.not_le_of_lt hroom), hlast]
  dsimp only
  rw [hsubX, hsubY, if_pos hpos]

/-- The next step lies one further from the last point. -/
theorem sub_towardZero {last target : Word} {delta : Int}
    (h : last = target - BitVec.ofInt 32 delta) :
    target - BitVec.ofInt 32 (towardZero delta) =
      last + BitVec.ofInt 32 (delta - towardZero delta) := by
  rw [h, Int.sub_eq_add_neg, BitVec.ofInt_add, BitVec.ofInt_neg, BitVec.sub_eq_add_neg,
    BitVec.sub_eq_add_neg, BitVec.add_assoc, ← BitVec.add_assoc (-_), BitVec.add_left_neg,
    BitVec.zero_add]

/-- The number of steps between two tiles. -/
def stepsBetween (p q : Position) : Nat := max (q.x - p.x).toInt.natAbs (q.y - p.y).toInt.natAbs

/-- One round of the loop of `AddToPath`, with room for a step and some way to go. -/
theorem exists_addStep {target : Position} {deltaX deltaY : Int} {queue : List Point}
    {last : Point} (hroom : queue.length < 100) (hlast : queue.getLast? = some last)
    (hz : last.z = 0) (hx : last.x = target.x - BitVec.ofInt 32 deltaX)
    (hy : last.y = target.y - BitVec.ofInt 32 deltaY)
    (hway : 0 < max deltaX.natAbs deltaY.natAbs) :
    ∃ point : Point, addStep (target.x - BitVec.ofInt 32 (towardZero deltaX))
        (target.y - BitVec.ofInt 32 (towardZero deltaY)) queue = queue ++ [point] ∧
      point.direction ≠ -1 ∧
      last.toPosition.stepTo point.direction = some point.toPosition ∧
      point.toPosition = ⟨target.x - BitVec.ofInt 32 (towardZero deltaX),
        target.y - BitVec.ofInt 32 (towardZero deltaY), 0⟩ := by
  have hcaseX := towardZero_cases deltaX
  have hcaseY := towardZero_cases deltaY
  have hne : deltaX - towardZero deltaX ≠ 0 ∨ deltaY - towardZero deltaY ≠ 0 := by omega
  have hstepX := sub_towardZero hx
  have hstepY := sub_towardZero hy
  obtain ⟨hd, hstep⟩ := Position.stepTo_direction last.toPosition (by omega) (by omega) hne
  refine ⟨_, addStep_neighbour hroom hlast hstepX hstepY (by omega) (by omega) hne, hd, ?_, rfl⟩
  rw [hstep, Position.move, hstepX, hstepY, hz]

/-- The loop of `AddToPath` appends steps that follow the last point, and ends at the target when
there is room for all of them. -/
theorem addSteps_leads {target : Position} {n : Nat} {deltaX deltaY : Int} {queue : List Point}
    {last : Point} (hlast : queue.getLast? = some last) (hz : last.z = 0)
    (hx : last.x = target.x - BitVec.ofInt 32 deltaX)
    (hy : last.y = target.y - BitVec.ofInt 32 deltaY)
    (hn : n ≤ max deltaX.natAbs deltaY.natAbs) :
    ∃ steps stop, addSteps target n deltaX deltaY queue = queue ++ steps ∧
      Leads last.toPosition steps stop ∧
      (queue.length + n ≤ 100 → steps.length = n ∧
        (n = max deltaX.natAbs deltaY.natAbs → stop.x = target.x ∧ stop.y = target.y)) := by
  induction n generalizing deltaX deltaY queue last with
  | zero =>
      refine ⟨[], last.toPosition, (List.append_nil _).symm, rfl, fun _ => ⟨rfl, fun hzero => ?_⟩⟩
      obtain rfl : deltaX = 0 := by omega
      obtain rfl : deltaY = 0 := by omega
      rw [hx, hy]
      exact ⟨BitVec.sub_zero _, BitVec.sub_zero _⟩
  | succ n ih =>
      rw [addSteps]
      by_cases hroom : queue.length < 100
      · obtain ⟨point, hadd, hd, hstep, hpoint⟩ :=
          exists_addStep hroom hlast hz hx hy (by omega)
        have hnext := max_towardZero deltaX deltaY
        have hlast' : (queue ++ [point]).getLast? = some point := List.getLast?_concat
        obtain ⟨steps, stop, hsteps, hleads, hend⟩ := ih hlast' (congrArg Position.z hpoint)
          (congrArg Position.x hpoint) (congrArg Position.y hpoint)
          (by rw [hnext]; exact Nat.le_sub_one_of_lt hn)
        refine ⟨point :: steps, stop, ?_, ⟨hd, hstep, hleads⟩, fun hle => ?_⟩
        · rw [hadd, hsteps, List.append_assoc]
          rfl
        · rw [List.length_append, List.length_singleton] at hend
          obtain ⟨hlength, htarget⟩ := hend (by omega)
          rw [List.length_cons, hlength]
          exact ⟨rfl, fun hmax => htarget (by omega)⟩
      · refine ⟨[], last.toPosition, ?_, rfl, fun hle => by omega⟩
        rw [addStep_full (Nat.not_lt.mp hroom), addSteps_full (Nat.not_lt.mp hroom),
          List.append_nil]

/-- The loop runs at most once for every step between the two tiles, and as often when that is
less than `2 ^ 31`. -/
theorem max_absInt32 {a b : Word} :
    (max (absInt32 a.toInt) (absInt32 b.toInt)).toNat ≤ max a.toInt.natAbs b.toInt.natAbs ∧
      (max a.toInt.natAbs b.toInt.natAbs < 2 ^ 31 →
        (max (absInt32 a.toInt) (absInt32 b.toInt)).toNat = max a.toInt.natAbs b.toInt.natAbs) := by
  have habs (w : Word) : absInt32 w.toInt = w.toInt.natAbs ∨
      w.toInt.natAbs = 2 ^ 31 ∧ absInt32 w.toInt < 0 := by
    have hlow := BitVec.le_toInt w
    have hhigh := BitVec.toInt_lt (x := w)
    rw [absInt32, toInt32, BitVec.toInt_ofInt, Int.abs_eq_natAbs]
    by_cases hmin : w.toInt.natAbs < 2 ^ 31
    · left
      exact Int.bmod_eq_of_le (by omega) (by omega)
    · right
      have heq : w.toInt.natAbs = 2 ^ 31 := by omega
      rw [heq]
      exact ⟨rfl, by decide⟩
  have ha := habs a
  have hb := habs b
  generalize absInt32 a.toInt = u, a.toInt.natAbs = m at ha
  generalize absInt32 b.toInt = v, b.toInt.natAbs = n at hb
  rcases ha with rfl | ⟨rfl, ha⟩ <;> rcases hb with rfl | ⟨rfl, hb⟩
  · exact ⟨by omega, fun _ => by omega⟩
  · exact ⟨by omega, fun _ => by omega⟩
  · exact ⟨by omega, fun _ => by omega⟩
  · exact ⟨by omega, fun _ => by omega⟩

theorem addToPath_of_last {m : MovementHandler} {last : Point} (position target : Position)
    (hlast : m.waypoints.getLast? = some last) (hz : last.z = 0) :
    ∃ steps stop, m.addToPath position target = { m with waypoints := m.waypoints ++ steps } ∧
      Leads last.toPosition steps stop ∧
      (m.waypoints.length + stepsBetween last.toPosition target ≤ 100 →
        steps.length = stepsBetween last.toPosition target ∧ stop.x = target.x ∧
          stop.y = target.y) := by
  have hne : m.waypoints ≠ [] := by
    intro hnil
    rw [hnil] at hlast
    cases hlast
  have hback (a b : Word) : b = a - BitVec.ofInt 32 (a - b).toInt := by
    rw [BitVec.ofInt_toInt, BitVec.eq_sub_iff_add_eq, BitVec.add_comm, BitVec.sub_add_cancel]
  obtain ⟨hle, heq⟩ := max_absInt32 (a := target.x - last.x) (b := target.y - last.y)
  obtain ⟨steps, stop, hsteps, hleads, hend⟩ :=
    addSteps_leads hlast hz (hback target.x last.x) (hback target.y last.y) hle
  refine ⟨steps, stop, ?_, hleads, fun hroom => ?_⟩
  · rw [addToPath, if_neg hne, hlast]
    dsimp only
    rw [hsteps]
  · rw [stepsBetween] at hroom ⊢
    have hcount := heq (by omega)
    obtain ⟨hlength, htarget⟩ := hend (by omega)
    obtain ⟨hx, hy⟩ := htarget hcount
    exact ⟨hlength.trans hcount, hx, hy⟩

/-! ## The path being built -/

/-- The point that stands at the front of the queue while a path is built. -/
def IsPlaceholder (position : Position) (point : Point) : Prop :=
  point.toPosition = position ∧ point.direction = -1

/-- A queue during the building of a path: the placeholder and the steps so far, or nothing at
all. -/
def Holds (position : Position) (waypoints steps : List Point) : Prop :=
  (waypoints = [] ∧ steps = []) ∨
    ∃ placeholder, IsPlaceholder position placeholder ∧ waypoints = placeholder :: steps

theorem holds_reset (m : MovementHandler) {position : Position} (hz : position.z = 0) :
    Holds position (m.reset position).waypoints [] := by
  refine .inr ⟨_, ⟨?_, rfl⟩, rfl⟩
  rw [← hz]

/-- `AddToPath` puts the placeholder back when the queue is empty. -/
theorem Holds.exists_placeholder {m : MovementHandler} {position : Position} {steps : List Point}
    (h : Holds position m.waypoints steps) (hz : position.z = 0) (tile : Position) :
    ∃ (m' : MovementHandler) (placeholder : Point),
      m.addToPath position tile = m'.addToPath position tile ∧
      IsPlaceholder position placeholder ∧ m'.waypoints = placeholder :: steps := by
  rcases h with ⟨hnil, rfl⟩ | ⟨placeholder, hplaceholder, hwaypoints⟩
  · rcases holds_reset m hz with ⟨hnil', -⟩ | ⟨placeholder, hplaceholder, hwaypoints⟩
    · cases hnil'
    · refine ⟨m.reset position, placeholder, ?_, hplaceholder, hwaypoints⟩
      have hne : (m.reset position).waypoints ≠ [] := List.cons_ne_nil _ _
      rw [MovementHandler.addToPath, MovementHandler.addToPath, if_pos hnil, if_neg hne]
  · exact ⟨m, placeholder, rfl, hplaceholder, hwaypoints⟩

theorem exists_last {position stop : Position} {placeholder : Point} {steps : List Point}
    (h : IsPlaceholder position placeholder) (hleads : Leads position steps stop) :
    ∃ last, (placeholder :: steps).getLast? = some last ∧ last.toPosition = stop := by
  cases steps with
  | nil => exact ⟨placeholder, rfl, h.1.trans hleads⟩
  | cons point points =>
      rw [List.getLast?_cons_cons]
      have hlast := List.getLast?_eq_some_getLast (List.cons_ne_nil point points)
      exact ⟨_, hlast, hleads.getLast hlast⟩

/-- `AddToPath` adds steps towards the next tile, and all of them when there is room. -/
theorem Holds.addToPath {m : MovementHandler} {position stop : Position} {steps : List Point}
    (h : Holds position m.waypoints steps) (tile : Position) (hz : position.z = 0)
    (hleads : Leads position steps stop) :
    ∃ more stop', Holds position (m.addToPath position tile).waypoints (steps ++ more) ∧
      Leads position (steps ++ more) stop' ∧
      (steps.length + stepsBetween stop tile ≤ 99 →
        more.length = stepsBetween stop tile ∧ stop'.x = tile.x ∧ stop'.y = tile.y) := by
  obtain ⟨m', placeholder, hsame, hplaceholder, hwaypoints⟩ := h.exists_placeholder hz tile
  obtain ⟨last, hlast, rfl⟩ := exists_last hplaceholder hleads
  rw [← hwaypoints] at hlast
  obtain ⟨more, stop', hadd, hleads', hend⟩ :=
    addToPath_of_last position tile hlast (hleads.z.trans hz)
  refine ⟨more, stop', .inr ⟨placeholder, hplaceholder, ?_⟩, hleads.append hleads', fun hroom => ?_⟩
  · rw [hsame, hadd, hwaypoints]
    rfl
  · rw [hwaypoints, List.length_cons] at hend
    exact hend (by omega)

theorem Holds.length_le_one {position : Position} {waypoints steps : List Point}
    (h : Holds position waypoints steps) (hlength : waypoints.length ≤ 1) :
    steps = [] ∧ ∀ point ∈ waypoints, point.direction = -1 := by
  rcases h with ⟨rfl, rfl⟩ | ⟨placeholder, hplaceholder, rfl⟩
  · exact ⟨rfl, fun _ hmem => (nomatch hmem)⟩
  · obtain rfl : steps = [] := List.eq_nil_of_length_eq_zero (by simpa using hlength)
    exact ⟨rfl, fun point hmem => by rw [List.mem_singleton.mp hmem, hplaceholder.2]⟩

theorem Holds.tail {position : Position} {waypoints steps : List Point}
    (h : Holds position waypoints steps) : waypoints.tail = steps := by
  rcases h with ⟨rfl, rfl⟩ | ⟨placeholder, -, rfl⟩
  · rfl
  · rfl

/-! ## Following the queue -/

open PlayerUpdate (stepOf LegalDirections)

/-- The directions a player announces are those recorded since the last reset. -/
theorem directions_stepOf {player : Player} (hp : Position.IsDirection player.primaryDirection)
    (hs : Position.IsDirection player.secondaryDirection) :
    (stepOf player).directions =
      if player.primaryDirection = -1 then []
      else if player.secondaryDirection = -1 then [player.primaryDirection]
      else [player.primaryDirection, player.secondaryDirection] := by
  obtain ⟨hp0, -⟩ := hp
  obtain ⟨hs0, -⟩ := hs
  rw [stepOf]
  by_cases hwalk : player.primaryDirection = -1
  · rw [if_neg (not_not.mpr hwalk), if_pos hwalk]
    split <;> rfl
  · have hcast : (player.primaryDirection.toNat : Int) = player.primaryDirection := by omega
    rw [if_pos hwalk, if_neg hwalk]
    by_cases hrun : player.secondaryDirection = -1
    · rw [if_neg (not_not.mpr hrun), if_pos hrun, PlayerUpdate.Step.directions, hcast]
    · have hcast' : (player.secondaryDirection.toNat : Int) = player.secondaryDirection := by omega
      rw [if_pos hrun, if_neg hrun, PlayerUpdate.Step.directions, hcast, hcast']

/-- What consuming waypoints leaves of a player that has not moved in this tick. -/
structure Followed (player player' : Player) (stop : Position) : Prop where
  leads : Leads player'.position player'.movementHandler.waypoints stop
  announced : player.position.stepAlong (stepOf player').directions = some player'.position
  walks : player'.secondaryDirection ≠ -1 → player'.primaryDirection ≠ -1
  legal : LegalDirections player'
  consumed : ∃ walked, player.movementHandler.waypoints =
      walked ++ player'.movementHandler.waypoints ∧
    (player'.position = player.position ∨
      ∃ point ∈ walked, point.toPosition = player'.position)

theorem follow_point {player : Player} {point : Point} {position : Position}
    (record : Player → Int → Player) (hd : point.direction ≠ -1)
    (hstep : player.position.stepTo point.direction = some position) :
    follow player (some point) record = .ok (record { player with position } point.direction) := by
  rw [follow, if_neg hd, hstep]

/-- A waypoint with a direction is walked to, and with running the one after it is run to. -/
theorem advance_cons {player : Player} {walkPoint : Point} {rest : List Point} {position : Position}
    (hwaypoints : player.movementHandler.waypoints = walkPoint :: rest)
    (hd : walkPoint.direction ≠ -1)
    (hstep : player.position.stepTo walkPoint.direction = some position) :
    advance player =
      if player.movementHandler.runToggled || player.movementHandler.runPath then
        follow { player with
          movementHandler := { player.movementHandler with waypoints := rest.tail }
          position
          primaryDirection := walkPoint.direction } rest.head?
          fun player d => { player with secondaryDirection := d }
      else .ok { player with
        movementHandler := { player.movementHandler with waypoints := rest }
        position
        primaryDirection := walkPoint.direction } := by
  rw [advance, hwaypoints, List.head?_cons, List.tail_cons]
  dsimp only
  rw [follow_point _ hd (by exact hstep)]
  split <;> rfl

theorem advance_leads {player : Player} {stop : Position}
    (h : Leads player.position player.movementHandler.waypoints stop)
    (hp : player.primaryDirection = -1) (hs : player.secondaryDirection = -1) :
    ∃ player', advance player = .ok player' ∧ Followed player player' stop := by
  have hstay : Position.IsDirection (-1) := by decide
  generalize hwaypoints : player.movementHandler.waypoints = waypoints at h
  cases waypoints with
  | nil =>
      obtain rfl : player.position = stop := h
      refine ⟨{ player with
        movementHandler := { player.movementHandler with waypoints := [] } }, ?_, rfl, ?_, ?_,
        ⟨hp ▸ hstay, hs ▸ hstay⟩, [], hwaypoints, .inl rfl⟩
      · rw [advance, hwaypoints]
        dsimp only [List.head?_nil, List.tail_nil]
        split <;> rfl
      · rw [directions_stepOf (hp ▸ hstay) (hs ▸ hstay), if_pos hp]
        rfl
      · exact fun hne => absurd hs hne
  | cons walkPoint rest =>
      obtain ⟨hwalk, hstep, hrest⟩ := h
      have hwalkPoint := Position.stepTo_isDirection hstep
      have hwalked : ∃ point ∈ [walkPoint], point.toPosition = walkPoint.toPosition :=
        ⟨walkPoint, List.mem_singleton_self _, rfl⟩
      rw [advance_cons hwaypoints hwalk hstep]
      split
      · cases rest with
        | nil =>
            refine ⟨_, rfl, hrest, ?_, fun _ => hwalk, ⟨hwalkPoint, hs ▸ hstay⟩, [walkPoint],
              hwaypoints, .inr hwalked⟩
            rw [directions_stepOf hwalkPoint (hs ▸ hstay), if_neg hwalk, if_pos hs,
              Position.stepAlong_cons hstep]
            rfl
        | cons runPoint rest =>
            obtain ⟨hrun, hstep', hrest⟩ := hrest
            have hrunPoint := Position.stepTo_isDirection hstep'
            have hran : ∃ point ∈ [walkPoint, runPoint],
                point.toPosition = runPoint.toPosition :=
              ⟨runPoint, List.mem_cons_of_mem _ (List.mem_singleton_self _), rfl⟩
            refine ⟨_, follow_point _ hrun hstep', hrest, ?_, fun _ => hwalk,
              ⟨hwalkPoint, hrunPoint⟩, [walkPoint, runPoint], hwaypoints, .inr hran⟩
            rw [directions_stepOf hwalkPoint hrunPoint, if_neg hwalk, if_neg hrun,
              Position.stepAlong_cons hstep, Position.stepAlong_cons hstep']
            rfl
      · refine ⟨_, rfl, hrest, ?_, fun _ => hwalk, ⟨hwalkPoint, hs ▸ hstay⟩, [walkPoint],
          hwaypoints, .inr hwalked⟩
        rw [directions_stepOf hwalkPoint (hs ▸ hstay), if_neg hwalk, if_pos hs,
          Position.stepAlong_cons hstep]
        rfl

theorem directions_congr {player player' : Player}
    (hp : player'.primaryDirection = player.primaryDirection)
    (hs : player'.secondaryDirection = player.secondaryDirection) :
    (stepOf player').directions = (stepOf player).directions := by
  simp only [stepOf, hp, hs]
  split
  · split <;> rfl
  · split <;> split <;> rfl

/-- The rest of `Process` leaves what was followed as it is. -/
theorem followed_processed {player : Player} {stop : Position}
    (h : Leads player.position player.movementHandler.waypoints stop)
    (hp : player.primaryDirection = -1) (hs : player.secondaryDirection = -1) :
    Followed player (processed player) stop := by
  obtain ⟨player', hm, hleads, hannounced, hwalks, hlegal, hconsumed⟩ := advance_leads h hp hs
  have hmoved : moved player = player' := by rw [moved, hm]
  have hdirections : (stepOf (processed player)).directions = (stepOf player').directions :=
    directions_congr (by rw [processed_eq, hmoved]) (by rw [processed_eq, hmoved])
  refine ⟨?_, ?_, ?_, ?_, ?_⟩
  · rw [processed_eq, hmoved]
    exact hleads
  · rw [hdirections, hannounced, processed_position, hmoved]
  · rw [processed_eq, hmoved]
    exact hwalks
  · rw [processed_eq, hmoved]
    exact ⟨hlegal.primary, hlegal.secondary⟩
  · rw [processed_eq, hmoved]
    exact hconsumed

/-- At most one point, and that without a direction, moves nobody. -/
theorem processed_placeholder {player : Player}
    (hlength : player.movementHandler.waypoints.length ≤ 1)
    (hd : ∀ point ∈ player.movementHandler.waypoints, point.direction = -1) :
    (processed player).movementHandler.waypoints = [] ∧
      (processed player).position = player.position ∧
      (processed player).primaryDirection = player.primaryDirection ∧
      (processed player).secondaryDirection = player.secondaryDirection := by
  have hm : advance player = .ok { player with
      movementHandler := { player.movementHandler with waypoints := [] } } := by
    rw [advance]
    match hwaypoints : player.movementHandler.waypoints with
    | [] =>
        dsimp only [List.head?_nil, List.tail_nil]
        split <;> rfl
    | [point] =>
        have hpoint := hd point (by rw [hwaypoints]; exact List.mem_cons_self)
        dsimp only [List.head?_cons, List.tail_cons, List.head?_nil, List.tail_nil]
        rw [follow, if_pos hpoint]
        split <;> rfl
    | _ :: _ :: _ =>
        rw [hwaypoints] at hlength
        exact absurd hlength (by simp)
  rw [processed_eq, moved, hm]
  exact ⟨rfl, rfl, rfl, rfl⟩

/-! ## Coordinates -/

/-- A tile of the map. -/
def OnMap (p : Position) : Prop := p.x.toNat < 65536 ∧ p.y.toNat < 65536

instance (p : Position) : Decidable (OnMap p) := inferInstanceAs (Decidable (_ ∧ _))

theorem toNat_sub_ofInt {w : Word} {d : Int} (h0 : 0 ≤ (w.toNat : Int) - d)
    (h : (w.toNat : Int) - d < 65536) :
    ((w - BitVec.ofInt 32 d).toNat : Int) = (w.toNat : Int) - d := by
  rw [BitVec.toNat_sub, BitVec.toNat_ofInt]
  omega

theorem addStep_onMap {x y : Word} {queue : List Point}
    (hqueue : ∀ point ∈ queue, OnMap point.toPosition) (hx : x.toNat < 65536)
    (hy : y.toNat < 65536) : ∀ point ∈ addStep x y queue, OnMap point.toPosition := by
  rw [addStep]
  split
  · exact hqueue
  · split
    · exact hqueue
    · dsimp only
      split
      · intro point hmem
        rcases List.mem_append.mp hmem with hmem | hmem
        · exact hqueue point hmem
        · rw [List.mem_singleton.mp hmem]
          exact ⟨hx, hy⟩
      · exact hqueue

/-- The steps lie between the last point and the target. -/
theorem addSteps_onMap {target : Position} {n : Nat} {deltaX deltaY : Int} {queue : List Point}
    (hqueue : ∀ point ∈ queue, OnMap point.toPosition) (htarget : OnMap target)
    (hx : 0 ≤ (target.x.toNat : Int) - deltaX ∧ (target.x.toNat : Int) - deltaX < 65536)
    (hy : 0 ≤ (target.y.toNat : Int) - deltaY ∧ (target.y.toNat : Int) - deltaY < 65536) :
    ∀ point ∈ addSteps target n deltaX deltaY queue, OnMap point.toPosition := by
  induction n generalizing deltaX deltaY queue with
  | zero => exact hqueue
  | succ n ih =>
      have hnext {w : Word} {delta : Int} (hw : w.toNat < 65536)
          (h : 0 ≤ (w.toNat : Int) - delta ∧ (w.toNat : Int) - delta < 65536) :
          0 ≤ (w.toNat : Int) - towardZero delta ∧
            (w.toNat : Int) - towardZero delta < 65536 := by
        have hcase := towardZero_cases delta
        omega
      obtain ⟨hx0, hx1⟩ := hnext htarget.1 hx
      obtain ⟨hy0, hy1⟩ := hnext htarget.2 hy
      have hcastX := toNat_sub_ofInt hx0 hx1
      have hcastY := toNat_sub_ofInt hy0 hy1
      rw [addSteps]
      exact ih (addStep_onMap hqueue (by omega) (by omega)) ⟨hx0, hx1⟩ ⟨hy0, hy1⟩

theorem toInt_sub_onMap {a b : Word} (ha : a.toNat < 65536) (hb : b.toNat < 65536) :
    (a - b).toInt = (a.toNat : Int) - b.toNat := by
  rw [BitVec.toInt_sub, BitVec.toInt_eq_toNat_of_lt (by omega),
    BitVec.toInt_eq_toNat_of_lt (by omega)]
  exact Int.bmod_eq_of_le (by omega) (by omega)

theorem addToPath_onMap {m : MovementHandler} {position target : Position}
    (hqueue : ∀ point ∈ m.waypoints, OnMap point.toPosition) (hposition : OnMap position)
    (htarget : OnMap target) :
    ∀ point ∈ (m.addToPath position target).waypoints, OnMap point.toPosition := by
  have hstart : ∀ point ∈ (if m.waypoints = [] then m.reset position else m).waypoints,
      OnMap point.toPosition := by
    split
    · intro point hmem
      rw [List.mem_singleton.mp hmem]
      exact hposition
    · exact hqueue
  rw [addToPath]
  generalize (if m.waypoints = [] then m.reset position else m) = m' at hstart
  dsimp only
  split
  · exact hstart
  · rename_i last hlast
    have honMap := hstart last (List.mem_of_getLast? hlast)
    refine addSteps_onMap hstart htarget ?_ ?_
    · rw [toInt_sub_onMap htarget.1 honMap.1]
      have h := honMap.1
      omega
    · rw [toInt_sub_onMap htarget.2 honMap.2]
      have h := honMap.2
      omega

/-- Following the queue stays on the map. -/
theorem Followed.onMap {player player' : Player} {stop : Position}
    (h : Followed player player' stop) (hposition : OnMap player.position)
    (hqueue : ∀ point ∈ player.movementHandler.waypoints, OnMap point.toPosition) :
    OnMap player'.position ∧
      ∀ point ∈ player'.movementHandler.waypoints, OnMap point.toPosition := by
  obtain ⟨walked, hwaypoints, hcase⟩ := h.consumed
  rw [hwaypoints] at hqueue
  refine ⟨?_, fun point hmem => hqueue point (List.mem_append_right _ hmem)⟩
  rcases hcase with hsame | ⟨point, hmem, hat⟩
  · rw [hsame]
    exact hposition
  · rw [← hat]
    exact hqueue point (List.mem_append_left _ hmem)

end MovementHandler
end AsioRsps
