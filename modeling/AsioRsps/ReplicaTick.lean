import AsioRsps.Ghosts
import AsioRsps.RegionWindow
import AsioRsps.Replica

/-!
# A tick as a client sees it

What one tick sends is the player's directions or its placement in the region loaded, an entry for
each player that was listed, and the additions. Applied to a replica that shows the state before
the tick it gives one that shows the state after it, with the list in its order.
-/
namespace AsioRsps
open BitStrings (Byte)
open MovementHandler PlayerUpdate PlayerUpdating
open Replica (chunk)

/-! ## Players on the map -/

/-- The player is on the map and stays there. -/
structure Mapped (player : Player) : Prop where
  position : OnMap player.position
  waypoints : ∀ point ∈ player.movementHandler.waypoints, OnMap point.toPosition

theorem mapped_constructed (username : Name) (c : ClientId) :
    Mapped { username, client := c } :=
  ⟨⟨(by decide : (3200 : Word).toNat < 65536), (by decide : (3200 : Word).toNat < 65536)⟩,
    fun _ hmem => (nomatch hmem)⟩

theorem mapped_entered (c : ClientId) (username : Name) (index : Fin maxPlayers) :
    Mapped (LoginHandler.enteredPlayer c username index) :=
  ⟨(mapped_constructed username c).position, (mapped_constructed username c).waypoints⟩

theorem Mapped.walkPath {player : Player} (h : Mapped player) (runPath : Bool)
    {tiles : List Position} (htiles : ∀ tile ∈ tiles, OnMap tile) :
    Mapped (Client.walkPath player runPath tiles) := by
  have hadded (m : MovementHandler) (hm : ∀ point ∈ m.waypoints, OnMap point.toPosition) :
      ∀ point ∈ (tiles.foldl (fun m tile => m.addToPath player.position tile) m).waypoints,
        OnMap point.toPosition := by
    induction tiles generalizing m with
    | nil => exact hm
    | cons tile tiles ih =>
        exact ih (fun tile hmem => htiles tile (List.mem_cons_of_mem _ hmem)) _
          (addToPath_onMap hm h.position (htiles tile List.mem_cons_self))
  refine ⟨h.position, fun point hmem => ?_⟩
  refine hadded _ (fun point hreset => ?_) point (List.mem_of_mem_tail hmem)
  rw [List.mem_singleton.mp hreset]
  exact h.position

theorem Mapped.processed {player : Player} (h : Mapped player) (hwalker : Walker player) :
    Mapped (processed player) := by
  obtain ⟨stop, hfollowed⟩ := hwalker.followed
  obtain ⟨hposition, hwaypoints⟩ := hfollowed.onMap h.position h.waypoints
  exact ⟨hposition, hwaypoints⟩

/-! ## What a replica shows -/

/-- A player as an entry of a list. -/
def neighbourOf (players : PlayerId → Player) (q : PlayerId) : Neighbour where
  slot := (players q).index
  position := (players q).position

/-- The replica knows the region, the list, and unless the player is to be placed its position. -/
structure Shows (players : PlayerId → Player) (p : PlayerId) (r : Replica) : Prop where
  region : r.region = some (chunk (players p).currentRegion.x, chunk (players p).currentRegion.y)
  position : (players p).hasFlag UpdateFlag.needsPlacement = false →
    r.position = some (players p).position
  others : r.others = (players p).localPlayers.map (neighbourOf players)

namespace Replica

/-! ## The region -/

theorem hasFlag_regionUpdated (player : Player) :
    player.regionUpdated.hasFlag UpdateFlag.needsPlacement = true := by
  have hself : (player.updateFlags ||| UpdateFlag.needsPlacement) &&&
      UpdateFlag.needsPlacement = UpdateFlag.needsPlacement := by
    ext i hi
    simp only [BitVec.getElem_and, BitVec.getElem_or, Bool.and_eq_right_iff_imp,
      Bool.or_eq_true]
    exact Or.inr
  change decide ((player.updateFlags ||| UpdateFlag.needsPlacement) &&&
    UpdateFlag.needsPlacement ≠ 0) = true
  rw [hself]
  rfl

/-- The frames of the first phase keep the region of the replica up to date. -/
theorem receive_regionFrames {player : Player} {r : Replica}
    (hregion : r.region = some (chunk player.currentRegion.x, chunk player.currentRegion.y))
    (hmapped : OnMap (moved player).position) :
    r.receiveAll (regionFrames player) = some { r with
      region := some (chunk (processed player).currentRegion.x,
        chunk (processed player).currentRegion.y) } := by
  rw [regionFrames, processed]
  split
  · have hsame : (moved player).currentRegion = player.currentRegion := by rw [moved_eq]
    rw [hsame, ← hregion]
    rfl
  · rw [receiveAll_cons]
    change Option.bind (r.receive 73 (Client.mapRegionFrame (moved player).position).body) _ = _
    rw [receive_mapRegion r hmapped]
    rfl

/-- A coordinate is recovered from its offset to the region. -/
theorem word_of_local (x base : Word) :
    BitVec.ofNat 32 (8 * chunk base + (x - (8 : Word) * ((base >>> 3) - 6)).toNat) - 48 = x := by
  rw [BitVec.ofNat_add, BitVec.ofNat_mul, chunk, BitVec.ofNat_toNat, BitVec.ofNat_toNat,
    BitVec.setWidth_eq, BitVec.setWidth_eq]
  generalize base >>> 3 = c
  bv_omega

/-- Where the replica is placed. -/
theorem moveSelf_placement {player : Player} {r : Replica}
    (hregion : r.region = some (chunk player.currentRegion.x, chunk player.currentRegion.y))
    (discard updated : Bool) :
    r.moveSelf (.placement player.position.z.toNat discard updated
      (player.position.localY player.currentRegion).toNat
      (player.position.localX player.currentRegion).toNat) = some player.position := by
  have hx := word_of_local player.position.x player.currentRegion.x
  have hy := word_of_local player.position.y player.currentRegion.y
  rw [moveSelf, hregion]
  change some (Position.mk _ _ _) = _
  rw [Position.localX, Position.localY, Position.regionX, Position.regionY, hx, hy,
    BitVec.ofNat_toNat, BitVec.setWidth_eq]

/-- The replica follows the player's own movement. -/
theorem moveSelf_selfOf {player : Player} {r : Replica} (h : Walker player)
    (hregion : r.region = some (chunk (processed player).currentRegion.x,
      chunk (processed player).currentRegion.y))
    (hposition : player.hasFlag UpdateFlag.needsPlacement = false →
      r.position = some player.position) :
    r.moveSelf (selfOf (processed player)) = some (processed player).position := by
  obtain ⟨stop, hfollowed⟩ := h.followed
  rw [selfOf]
  split
  · exact moveSelf_placement hregion _ _
  · rename_i hplaced
    have hflag : player.hasFlag UpdateFlag.needsPlacement = false := by
      rw [Bool.not_eq_true] at hplaced
      rw [processed] at hplaced
      split at hplaced
      · rw [moved_eq] at hplaced
        exact hplaced
      · rw [hasFlag_regionUpdated] at hplaced
        cases hplaced
    rw [moveSelf, hposition hflag]
    exact hfollowed.announced

/-! ## The other players -/

/-- The players of a list between two moments: nobody changes its slot, and everybody moves as it
announces. -/
def Announces (players players' : PlayerId → Player) (q : PlayerId) : Prop :=
  (players' q).index = (players q).index ∧
    (players q).position.stepAlong (stepOf (players' q)).directions = some (players' q).position

theorem moveOthers_ok {players players' : PlayerId → Player} (p : PlayerId) {qs : List PlayerId}
    (h : ∀ q ∈ qs, Announces players players' q) :
    moveOthers (qs.map (neighbourOf players))
        (qs.map fun q => entryOf (players' p) (players' q)) =
      some ((qs.filter fun q => keeps (players' p) (players' q)).map (neighbourOf players')) := by
  induction qs with
  | nil => rfl
  | cons q qs ih =>
      have hrest := ih fun r hr => h r (List.mem_cons_of_mem _ hr)
      obtain ⟨hindex, hannounced⟩ := h q List.mem_cons_self
      rw [List.map_cons, List.map_cons, entryOf, List.filter_cons]
      split
      · rw [moveOthers]
        change Option.bind ((players q).position.stepAlong _) _ = _
        rw [hannounced, Option.bind_some, hrest, List.map_cons, neighbourOf, neighbourOf, hindex]
        rfl
      · rw [moveOthers]
        exact hrest

/-- An addition gives the position of the player added. -/
theorem neighbour_additionOf {players : PlayerId → Player} {p q : PlayerId}
    (hindex : 0 ≤ (players q).index) (hz : (players q).position.z = (players p).position.z) :
    neighbour (players p).position (additionOf (players p) (players q)) =
      neighbourOf players q := by
  have hback (a b : Word) : b + BitVec.ofInt 32 (a - b).toInt = a := by
    rw [BitVec.ofInt_toInt, BitVec.add_comm, BitVec.sub_add_cancel]
  rw [neighbour, additionOf, neighbourOf, Position.move, hback, hback, ← hz,
    Int.toNat_of_nonneg hindex]

end Replica

/-! ## One tick -/

theorem Server.Sound.index_nonneg {s : Server} (h : s.Sound) {p : PlayerId}
    (hp : p ∈ s.registered) : 0 ≤ (s.players p).index := by
  obtain ⟨name, hname⟩ := Server.mem_registered_iff.mp hp
  obtain ⟨i, hi, -⟩ := (h.players name p hname).slot
  rw [hi]
  exact Int.natCast_nonneg _

namespace World

/-- Between two moments of a tick everybody announces the way it goes. -/
theorem announces_afterProcess {s : Server} (hwalkers : ∀ p, Walker (s.players p)) (q : PlayerId) :
    Replica.Announces s.players (afterProcess s).players q := by
  by_cases hq : q ∈ s.registered
  · obtain ⟨stop, hfollowed⟩ := (hwalkers q).followed
    rw [Replica.Announces, afterProcess_of_mem hq]
    exact ⟨processed_index _, hfollowed.announced⟩
  · have hstand : (stepOf (s.players q)).directions = [] := by
      have hdirection : Position.IsDirection (-1) := by decide
      rw [directions_stepOf ((hwalkers q).primary ▸ hdirection)
        ((hwalkers q).secondary ▸ hdirection), if_pos (hwalkers q).primary]
    rw [Replica.Announces, afterProcess_of_not_mem hq, hstand]
    exact ⟨rfl, rfl⟩

theorem flat_afterProcess {s : Server} (hwalkers : ∀ p, Walker (s.players p)) (q : PlayerId) :
    ((afterProcess s).players q).position.z = 0 :=
  (Position.stepAlong_z (announces_afterProcess hwalkers q).2).trans (hwalkers q).flat

/-- A player that is to be placed has the region around it or is well inside the old one. -/
theorem legalPlacement_processed {player : Player} (hz : (processed player).position.z = 0) :
    LegalPlacement (processed player) := by
  intro _
  have hwindow := inWindow_processed player
  rw [hz]
  exact ⟨Nat.lt_of_le_of_lt hwindow.localX.2 (by decide),
    Nat.lt_of_le_of_lt hwindow.localY.2 (by decide), by decide⟩

/-- The update of a tick can be decoded. -/
theorem legalUpdate_afterProcess {s : Server} (h : s.Sound) (hwalkers : ∀ p, Walker (s.players p))
    (hindex : ∀ q ∈ s.registered, (s.players q).index < 2047) {p : PlayerId}
    (hp : p ∈ s.registered) : LegalUpdate (afterProcess s) p where
  directions q _ := by
    by_cases hq : q ∈ s.registered
    · obtain ⟨stop, hfollowed⟩ := (hwalkers q).followed
      rw [afterProcess_of_mem hq]
      exact hfollowed.legal
    · have hdirection : Position.IsDirection (-1) := by decide
      rw [afterProcess_of_not_mem hq]
      exact ⟨(hwalkers q).primary ▸ hdirection, (hwalkers q).secondary ▸ hdirection⟩
  placement := by
    have hz := flat_afterProcess hwalkers p
    rw [afterProcess_of_mem hp] at hz ⊢
    exact legalPlacement_processed hz
  index q hq := by
    rw [afterProcess_registered] at hq
    rw [LegalIndex, afterProcess_of_mem hq, processed_index]
    exact ⟨h.index_nonneg hq, hindex q hq⟩
  list := by
    rw [afterProcess_of_mem hp, processed_localPlayers]
    exact (h.lists p).1

/-- What the update of a tick makes of a replica that has been told the region. -/
theorem update_afterProcess {s : Server} (h : s.Sound) (hwalkers : ∀ p, Walker (s.players p))
    {p : PlayerId} (hp : p ∈ s.registered) {r : Replica} (hshows : Shows s.players p r)
    {region : Option (Nat × Nat)}
    (hregion : region = some (chunk ((afterProcess s).players p).currentRegion.x,
      chunk ((afterProcess s).players p).currentRegion.y)) :
    ({ r with region } : Replica).update (updateOf (afterProcess s) p) = some {
      region
      position := some ((afterProcess s).players p).position
      others := (listed s p).map (neighbourOf (afterProcess s).players) } := by
  have hself : ({ r with region } : Replica).moveSelf (selfOf ((afterProcess s).players p)) =
      some ((afterProcess s).players p).position := by
    rw [afterProcess_of_mem hp] at hregion ⊢
    exact Replica.moveSelf_selfOf (hwalkers p) hregion hshows.position
  have hlocals : ((afterProcess s).players p).localPlayers = (s.players p).localPlayers := by
    rw [afterProcess_of_mem hp, processed_localPlayers]
  have hothers := Replica.moveOthers_ok p fun q (_ : q ∈ (s.players p).localPlayers) =>
    announces_afterProcess hwalkers q
  have hadded : (additionsOf (afterProcess s) p).map
      (Replica.neighbour ((afterProcess s).players p).position) =
        (addedPlayers (afterProcess s) p).map (neighbourOf (afterProcess s).players) := by
    rw [additionsOf, List.map_map]
    refine List.map_congr_left fun q hq => Replica.neighbour_additionOf ?_ ?_
    · have hregistered : q ∈ s.registered := (mem_additions hq).1
      rw [afterProcess_of_mem hregistered, processed_index]
      exact h.index_nonneg hregistered
    · rw [flat_afterProcess hwalkers, flat_afterProcess hwalkers]
  rw [Replica.update, updateOf, entriesOf, hlocals]
  dsimp only
  rw [hself]
  change Option.bind (Replica.moveOthers r.others _) _ = _
  rw [hshows.others, hothers]
  change some (Replica.mk _ _ (_ ++ _)) = _
  rw [hadded, listed, List.map_append, keptPlayers, hlocals]

/-- A tick leaves the slot of every player, and where its first phase has moved it. -/
theorem Ticked.neighbourOf {s s' : Server} (h : Ticked s s') (q : PlayerId) :
    AsioRsps.neighbourOf s'.players q = AsioRsps.neighbourOf (afterProcess s).players q := by
  rw [AsioRsps.neighbourOf, AsioRsps.neighbourOf]
  by_cases hq : q ∈ s.registered
  · rw [h.player q hq, afterProcess_of_mem hq]
    rfl
  · rw [h.absent q hq, afterProcess_of_not_mem hq]

/-- With the frames of a tick a replica goes on to show what it is to show. -/
theorem Ticked.shows {s s' : Server} (ht : Ticked s s') (h : s.Sound)
    (hwalkers : ∀ p, Walker (s.players p)) (hmapped : ∀ p, Mapped (s.players p))
    (hindex : ∀ q ∈ s.registered, (s.players q).index < 2047) {p : PlayerId}
    (hp : p ∈ s.registered) {r : Replica} (hshows : Shows s.players p r) {body : List Byte}
    (hbody : UpdateBody (afterProcess s) p body) :
    ∃ r', r.receiveAll (regionFrames (s.players p) ++ [⟨81, body⟩]) = some r' ∧
      Shows s'.players p r' ∧ r'.position = some (s'.players p).position := by
  have hplayer := ht.player p hp
  have hposition := ((hmapped p).processed (hwalkers p)).position
  rw [processed_position] at hposition
  have hregion := Replica.receive_regionFrames hshows.region hposition
  have hdecode := decode_ok (legalUpdate_afterProcess h hwalkers hindex hp) hbody
  have hknown : some (chunk (processed (s.players p)).currentRegion.x,
      chunk (processed (s.players p)).currentRegion.y) =
        some (chunk ((afterProcess s).players p).currentRegion.x,
          chunk ((afterProcess s).players p).currentRegion.y) := by
    rw [afterProcess_of_mem hp]
  have hupdate := update_afterProcess h hwalkers hp hshows hknown
  refine ⟨{
    region := some (chunk (processed (s.players p)).currentRegion.x,
      chunk (processed (s.players p)).currentRegion.y)
    position := some ((afterProcess s).players p).position
    others := (listed s p).map (AsioRsps.neighbourOf (afterProcess s).players) }, ?_,
    ⟨?_, fun _ => ?_, ?_⟩, ?_⟩
  · rw [Replica.receiveAll_append, hregion, Option.bind_some, Replica.receiveAll_cons,
      Replica.receive_update _ hdecode, hupdate]
    rfl
  · rw [hplayer]
    rfl
  · rw [hplayer, afterProcess_of_mem hp]
    rfl
  · rw [ht.localPlayers hp, List.map_congr_left fun q _ => ht.neighbourOf q]
  · rw [hplayer, afterProcess_of_mem hp]
    rfl

end World
end AsioRsps
