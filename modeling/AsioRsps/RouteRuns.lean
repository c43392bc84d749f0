import AsioRsps.GameRuns
import AsioRsps.LocalList
import AsioRsps.Routes

/-!
# Walking a route

A movement packet from packet to standstill. `HandlePacket` leaves the king path through its
tiles in the queue, and with no further packet every tick takes its stride along it, whatever
else happens in the world, until the player stands on the last tile.
-/
namespace AsioRsps
open BitStrings (Byte)
open StreamBuffer
open FallibleLoop (foldlM_invariant bind_eq_ok)
open KingPaths LabelledRuns MovementHandler

/-! ## The payload -/

namespace Client

/-- The tiles of a movement payload with `n` steps: the first one and those at the offsets. -/
def payloadTiles (n : Nat) : List Byte → List Position
  | lowX :: highX :: bytes =>
      match bytes.drop (2 * n) with
      | lowY :: highY :: _ => tilesOf lowX highX lowY highY (bytes.take (2 * n))
      | _ => []
  | _ => []

/-- Its run flag. -/
def payloadRuns (n : Nat) (payload : List Byte) : Bool :=
  (payload[4 + 2 * n]?.map runsOf).getD false

/-- The tiles and the run flag of a movement packet. -/
def movementTiles (packetOpcode : Int) (payload : List Byte) : List Position :=
  payloadTiles (movementSteps packetOpcode payload.length).toNat payload

def movementRuns (packetOpcode : Int) (payload : List Byte) : Bool :=
  payloadRuns (movementSteps packetOpcode payload.length).toNat payload

theorem walkPayload_tiles (player : Player) {n : Nat} {payload : List Byte}
    (h : 5 + 2 * n ≤ payload.length) : walkPayload player n payload =
      walkPath player (payloadRuns n payload) (payloadTiles n payload) := by
  obtain ⟨lowX, highX, path, lowY, highY, rest, hpath, rfl⟩ :=
    exists_movement (show 4 + 2 * n ≤ payload.length by omega)
  simp only [List.length_cons, List.length_append] at h
  obtain ⟨run, rest, rfl⟩ := List.exists_cons_of_length_pos (l := rest) (by omega)
  have hrun : (lowX :: highX :: (path ++ lowY :: highY :: run :: rest))[4 + 2 * n]? = some run := by
    have hindex : 4 + 2 * n = path.length + 2 + 1 + 1 := by omega
    rw [hindex, List.getElem?_cons_succ, List.getElem?_cons_succ,
      List.getElem?_append_right (by omega), Nat.add_sub_cancel_left]
    rfl
  rw [walkPayload_eq player lowX highX lowY highY run hpath, payloadRuns, hrun]
  simp only [payloadTiles, List.drop_left' hpath, List.take_left' hpath]
  rfl

end Client

/-! ## One tick -/

namespace World

/-- The tick of a registered player: it is processed, and at the end it is reset. -/
theorem process_player {s s' : Server} {p : PlayerId} (hnodup : s.registered.Nodup)
    (hp : p ∈ s.registered) (h : process s = .ok s') :
    ∃ t l, s.registered.foldlM Player.process s = .ok t ∧ t.players p = processed (s.players p) ∧
      s'.players p = { (processed (s.players p)).reset with localPlayers := l } := by
  obtain ⟨t, hphase₁, h⟩ := bind_eq_ok.mp h
  obtain ⟨u, hphase₂, h⟩ := bind_eq_ok.mp h
  have ht : Walked s s.registered t := foldlM_invariant hphase₁ (walked_nil s)
    fun done q rest t t' hl ht hq => ht.step (not_mem_of_split hnodup hl) hq
  have hu : PlayerUpdating.SameButLists t.players u.players :=
    foldlM_invariant (P := fun _ u => PlayerUpdating.SameButLists t.players u.players) hphase₂
      (fun q => ⟨(t.players q).localPlayers, rfl⟩) fun done q rest u u' hl hu hq r => by
        obtain ⟨l, hl⟩ := hu r
        obtain ⟨l', hl'⟩ := (PlayerUpdating.sameButLists_of_updatePlayer hq).1 r
        exact ⟨l', by rw [hl', hl]⟩
  obtain ⟨l, hl⟩ := hu p
  refine ⟨t, l, hphase₁, ht.player p hp, ?_⟩
  have hs' : s' = resetAll u s.registered := (Except.ok.inj h).symm
  rw [hs', resetAll_players, if_pos hp, hl, ht.player p hp]
  rfl

end World

/-! ## Many ticks -/

/-- What a change must not touch of a player for it to walk on. -/
structure SameWalk (player player' : Player) : Prop where
  handler : player'.movementHandler = player.movementHandler
  position : player'.position = player.position
  primary : player'.primaryDirection = player.primaryDirection
  secondary : player'.secondaryDirection = player.secondaryDirection

/-- From `s` to `s'` in `n` ticks that process `p`. Between them anything may happen that leaves
its walk alone. -/
inductive Ticks (p : PlayerId) (s : Server) : Nat → Server → Prop where
  | start : Ticks p s 0 s
  | other {n : Nat} {t t' : Server} :
      Ticks p s n t → SameWalk (t.players p) (t'.players p) → Ticks p s n t'
  | tick {n : Nat} {t t' : Server} : Ticks p s n t → t.registered.Nodup → p ∈ t.registered →
      World.process t = .ok t' → Ticks p s (n + 1) t'

/-- On the route, with so many of its steps taken. -/
structure OnRoute (player : Player) (p : Tile) (route : List Tile) (taken : Nat) : Prop where
  position : AtTile player.position ((route.take taken).getLastD p)
  waypoints : player.movementHandler.waypoints = (pointsFrom p route).drop taken

theorem OnRoute.walks {player : Player} {p : Tile} {route : List Tile} {taken : Nat}
    (h : OnRoute player p route taken) (hmoves : KingMoves p route) :
    Walks player (processed player) ((route.take taken).getLastD p) (route.drop taken) :=
  processed_route h.position (hmoves.drop taken) (by rw [h.waypoints, pointsFrom_drop])

theorem OnRoute.tick {player : Player} {p : Tile} {route : List Tile} {taken : Nat}
    (h : OnRoute player p route taken) (hmoves : KingMoves p route) :
    OnRoute (processed player) p route (taken + player.movementHandler.stride) := by
  have hwalks := h.walks hmoves
  constructor
  · rw [← getLastD_take_add]
    exact hwalks.position
  · rw [hwalks.handler, ← pointsFrom_drop, List.drop_drop]

/-- A player that is walked on `n` times. -/
structure WalksOn (player player' : Player) (p : Tile) (route : List Tile) (n : Nat) : Prop where
  onRoute : OnRoute player' p route (n * player.movementHandler.stride)
  stride : player'.movementHandler.stride = player.movementHandler.stride
  height : player'.position.z = player.position.z
  idle : 0 < n → player'.primaryDirection = -1 ∧ player'.secondaryDirection = -1

theorem Ticks.walksOn {p : PlayerId} {s t : Server} {n : Nat} {start : Tile} {route : List Tile}
    (h : Ticks p s n t) (hstart : OnRoute (s.players p) start route 0)
    (hmoves : KingMoves start route) : WalksOn (s.players p) (t.players p) start route n := by
  induction h with
  | start =>
      exact ⟨by rw [Nat.zero_mul]; exact hstart, rfl, rfl, fun hn => absurd hn (Nat.lt_irrefl 0)⟩
  | other _ hsame ih =>
      refine ⟨⟨?_, ?_⟩, ?_, ?_, ?_⟩
      · rw [hsame.position]
        exact ih.onRoute.position
      · rw [hsame.handler]
        exact ih.onRoute.waypoints
      · rw [hsame.handler]
        exact ih.stride
      · rw [hsame.position]
        exact ih.height
      · rw [hsame.primary, hsame.secondary]
        exact ih.idle
  | @tick n t t' _ hnodup hp hrun ih =>
      obtain ⟨-, l, -, -, hplayer⟩ := World.process_player hnodup hp hrun
      have hwalks := ih.onRoute.walks hmoves
      have honRoute := ih.onRoute.tick hmoves
      rw [ih.stride, ← Nat.succ_mul] at honRoute
      rw [hplayer]
      refine ⟨⟨honRoute.position, honRoute.waypoints⟩, ?_, hwalks.height.trans ih.height,
        fun _ => ⟨rfl, rfl⟩⟩
      change (processed (t.players p)).movementHandler.stride = _
      rw [hwalks.handler, ← ih.stride]
      rfl

theorem Ticks.walked {p : PlayerId} {s t t' : Server} {n : Nat} {start : Tile} {route : List Tile}
    (h : Ticks p s n t) (hstart : OnRoute (s.players p) start route 0)
    (hmoves : KingMoves start route) (hnodup : t.registered.Nodup) (hp : p ∈ t.registered)
    (hrun : World.process t = .ok t') : ∃ m, t.registered.foldlM Player.process t = .ok m ∧
      Walks (t.players p) (m.players p)
        ((route.take (n * (s.players p).movementHandler.stride)).getLastD start)
        (route.drop (n * (s.players p).movementHandler.stride)) := by
  obtain ⟨m, l, hphase, hplayer, -⟩ := World.process_player hnodup hp hrun
  refine ⟨m, hphase, ?_⟩
  rw [hplayer]
  exact (h.walksOn hstart hmoves).onRoute.walks hmoves

/-- All of the route taken: the player stands on its last tile. -/
theorem OnRoute.arrived {player : Player} {p : Tile} {route : List Tile} {taken : Nat}
    (h : OnRoute player p route taken) (hlength : route.length ≤ taken) :
    AtTile player.position (route.getLastD p) ∧ player.movementHandler.waypoints = [] := by
  constructor
  · rw [← List.take_of_length_le hlength]
    exact h.position
  · rw [h.waypoints]
    exact List.drop_of_length_le (by rw [pointsFrom_length]; exact hlength)

/-! ## Runs without a packet of the player -/

/-- The step moves the player `p`. -/
def MovesPlayer (p : PlayerId) (t : Taken Game GameEvent) : Prop :=
  ∃ c runPath tiles client, t.label = .move c runPath tiles ∧
    t.before.server.clients c = some client ∧ t.before.server.lockPlayer client.player = some p

def GameEvent.isTick : GameEvent → Bool
  | .tick => true
  | _ => false

theorem sameWalk_refl (player : Player) : SameWalk player player := ⟨rfl, rfl, rfl, rfl⟩

theorem GameStep.sameWalk {g g' : Game} {e : GameEvent} (hs : GameStep g e g') (h : GameSound g)
    {p : PlayerId} (hp : p < g.server.nextPlayer) (htick : e.isTick = false)
    (hmove : ¬ MovesPlayer p ⟨g, e, g'⟩) :
    SameWalk (g.server.players p) (g'.server.players p) ∧ p < g'.server.nextPlayer := by
  cases hs with
  | connect _ => exact ⟨sameWalk_refl _, hp⟩
  | @login c username client cipher _ hc hstage he hdec hrun =>
      have hnot : client.stage ≠ .loggedIn := by
        rw [hstage]
        decide
      obtain ⟨t, hrun', ho⟩ := LoginHandler.enterWorld_outcome h.sound hc hnot he _
      obtain rfl := Except.ok.inj (hrun.symm.trans hrun')
      have hnew (player : Player) : SameWalk (g.server.players p)
          ((g.server.newPlayer player).players p) := by
        rw [Server.newPlayer_players player hp]
        exact sameWalk_refl _
      cases ho with
      | refused _ => exact ⟨sameWalk_refl _, hp⟩
      | full _ _ => exact ⟨hnew _, Nat.lt_succ_of_lt hp⟩
      | entered _ _ => exact ⟨hnew _, Nat.lt_succ_of_lt hp⟩
  | logout hc hrun =>
      cases Client.departure_of_disconnect h.sound hc hrun with
      | again _ => exact ⟨sameWalk_refl _, hp⟩
      | absent _ _ => exact ⟨sameWalk_refl _, hp⟩
      | present _ _ _ _ _ => exact ⟨sameWalk_refl _, hp⟩
  | @move c runPath tiles client q hc hq =>
      have hqp : p ≠ q := by
        rintro rfl
        exact hmove ⟨c, runPath, tiles, client, rfl, hc, hq⟩
      refine ⟨?_, hp⟩
      have hkept := Server.setPlayer_players_of_ne g.server
        (Client.walkPath (g.server.players q) runPath tiles) hqp
      exact hkept ▸ sameWalk_refl _
  | tick _ => cases htick
  | reorder _ => exact ⟨sameWalk_refl _, hp⟩

/-- In a run in which the player gets no packet and stays registered, its walk sees nothing but
the ticks. -/
theorem run_ticks {g₀ g : Game} {trace : List (Taken Game GameEvent)} (h₀ : GameSound g₀)
    (h : Run GameStep g₀ trace g) {p : PlayerId} (hp : p < g₀.server.nextPlayer)
    (hmove : ∀ t ∈ trace, ¬ MovesPlayer p t)
    (htick : ∀ t ∈ trace, t.label.isTick = true → p ∈ t.before.server.registered) :
    Ticks p g₀.server (trace.countP fun t => t.label.isTick) g.server ∧ GameSound g ∧
      p < g.server.nextPlayer := by
  induction h with
  | start => exact ⟨.start, h₀, hp⟩
  | @snoc trace g g' e _ hs ih =>
      obtain ⟨hticks, hg, hfresh⟩ := ih (fun t ht => hmove t (List.mem_append_left _ ht))
        fun t ht => htick t (List.mem_append_left _ ht)
      have hlast : ⟨g, e, g'⟩ ∈ trace ++ [⟨g, e, g'⟩] :=
        List.mem_append_right _ List.mem_cons_self
      rw [List.countP_append, List.countP_singleton]
      cases hcase : e.isTick with
      | false =>
          obtain ⟨hsame, hfresh'⟩ := hs.sameWalk hg hfresh hcase (hmove _ hlast)
          exact ⟨hticks.other hsame, hs.sound hg, hfresh'⟩
      | true =>
          have hregistered := htick _ hlast hcase
          have hg' := hs.sound hg
          cases hs with
          | tick hrun =>
              have hsame := (World.process_ticked hg.sound hrun).nextPlayer
              refine ⟨hticks.tick hg.sound.registered_nodup hregistered hrun, hg', ?_⟩
              rw [hsame]
              exact hfresh
          | _ => cases hcase

/-! ## From the packet on -/

/-- What a movement packet sets going: `n` ticks later the player has taken `n` strides along the
route, and the next tick takes one more and announces the directions of its steps. -/
structure Routed (s : Server) (p : PlayerId) (start : Tile) (route : List Tile) : Prop where
  moves : KingMoves start route
  queued : (s.players p).movementHandler.waypoints = pointsFrom start route
  walks : ∀ n t, Ticks p s n t → WalksOn (s.players p) (t.players p) start route n
  announces : ∀ n t t', Ticks p s n t → t.registered.Nodup → p ∈ t.registered →
    World.process t = .ok t' → ∃ m, t.registered.foldlM Player.process t = .ok m ∧
      Walks (t.players p) (m.players p)
        ((route.take (n * (s.players p).movementHandler.stride)).getLastD start)
        (route.drop (n * (s.players p).movementHandler.stride))
  arrives : ∀ n t, Ticks p s n t → route.length ≤ n * (s.players p).movementHandler.stride →
    AtTile (t.players p).position (route.getLastD start) ∧
      (t.players p).movementHandler.waypoints = []

theorem routed_of_queued {s : Server} {p : PlayerId} {start : Tile} {route : List Tile}
    (hat : AtTile (s.players p).position start) (hmoves : KingMoves start route)
    (hqueued : (s.players p).movementHandler.waypoints = pointsFrom start route) :
    Routed s p start route := by
  have hstart : OnRoute (s.players p) start route 0 := ⟨hat, hqueued⟩
  exact {
    moves := hmoves
    queued := hqueued
    walks := fun _ _ h => h.walksOn hstart hmoves
    announces := fun _ _ _ h hnodup hp hrun => h.walked hstart hmoves hnodup hp hrun
    arrives := fun _ _ h hlength => (h.walksOn hstart hmoves).onRoute.arrived hlength }

namespace Client

/-- The player after a movement packet. -/
def routedPlayer (player : Player) (packetOpcode : Int) (payload : List Byte) : Player :=
  { player with movementHandler := { player.movementHandler with
      waypoints := pointsFrom (tileOf player.position)
        (routeOf player.position (movementTiles packetOpcode payload))
      runPath := movementRuns packetOpcode payload } }

theorem handled_players {s : Server} {p : PlayerId} {packetOpcode : Int} {payload : List Byte}
    (hop : IsMovement packetOpcode) (hfit : Fits packetOpcode payload.length)
    (hposition : OnMap (s.players p).position)
    (htiles : ∀ tile ∈ movementTiles packetOpcode payload, OnMap tile) :
    (handled s p packetOpcode payload).players p =
      routedPlayer (s.players p) packetOpcode payload := by
  obtain ⟨n, hsteps, hlength⟩ := fits_steps hop hfit
  have hnat : (movementSteps packetOpcode payload.length).toNat = n := by
    rw [hsteps, Int.toNat_natCast]
  simp only [movementTiles, hnat] at htiles
  simp only [handled, hop, if_true, routedPlayer, movementTiles, movementRuns, hnat]
  rw [Server.modifyPlayer, Server.setPlayer_players_self, walkPayload_tiles _ hlength,
    walkPath_route _ hposition htiles]

/-- A movement packet queues the king path through its tiles, cut to 99 steps, in place of what was
queued before, and the ticks walk along it to its end. -/
theorem handlePacket_routed {s : Server} {c : ClientId} {client : Client} {p : PlayerId}
    {packetOpcode : Int} {payload tail : List Byte} {b : StreamBuffer}
    (hc : s.clients c = some client) (hp : s.lockPlayer client.player = some p)
    (hop : IsMovement packetOpcode) (hfit : Fits packetOpcode payload.length)
    (hposition : OnMap (s.players p).position)
    (htiles : ∀ tile ∈ movementTiles packetOpcode payload, OnMap tile)
    (h : b.rest = payload ++ tail) :
    ∃ s', handlePacket s c packetOpcode payload.length b = .ok s' (b.skip payload.length) ∧
      s'.players p = routedPlayer (s.players p) packetOpcode payload ∧
      Routed s' p (tileOf (s.players p).position)
        (routeOf (s.players p).position (movementTiles packetOpcode payload)) := by
  have hplayer := handled_players hop hfit hposition htiles
  refine ⟨_, handlePacket_fits hc hp hfit h, hplayer, routed_of_queued ?_ ?_ ?_⟩
  · rw [hplayer]
    exact atTile_tileOf _
  · exact (kingMoves_path _ _).take 99
  · rw [hplayer]
    rfl

/-- A routed player can be ticked. -/
theorem wellFormed_handled {s : Server} {p : PlayerId} {packetOpcode : Int} {payload : List Byte}
    (h : World.WellFormed s) (hplayer : (handled s p packetOpcode payload).players p =
      routedPlayer (s.players p) packetOpcode payload) (hop : IsMovement packetOpcode) :
    World.WellFormed (handled s p packetOpcode payload) := by
  have hcases (q : PlayerId) : (handled s p packetOpcode payload).players q = s.players q ∨
      q = p ∧ (handled s p packetOpcode payload).players q =
        routedPlayer (s.players p) packetOpcode payload := by
    by_cases hq : q = p
    · rw [hq]
      exact .inr ⟨rfl, hplayer⟩
    · left
      simp only [handled, hop, if_true]
      rw [Server.modifyPlayer, Server.setPlayer_players_of_ne _ _ hq]
  have hworld : (handled s p packetOpcode payload).world = s.world := by
    simp only [handled, hop, if_true]
    rfl
  have hregistered : (handled s p packetOpcode payload).registered = s.registered := by
    rw [Server.registered, Server.registered, hworld]
  refine ⟨fun name q hname => ?_, fun q hq => ?_, fun q hq => ?_⟩
  · rw [hworld] at hname
    rcases hcases q with hsame | ⟨rfl, hrouted⟩
    · rw [hsame]
      exact h.named name q hname
    · rw [hrouted]
      exact h.named name q hname
  · rw [hregistered] at hq
    rcases hcases q with hsame | ⟨rfl, hrouted⟩
    · rw [hsame]
      exact h.legal q hq
    · rw [hrouted]
      exact pointsFrom_isDirection _ _
  · rw [hregistered] at hq
    rcases hcases q with hsame | ⟨rfl, hrouted⟩
    · rw [hsame]
      exact h.lists q hq
    · rw [hrouted]
      exact h.lists q hq

/-- Two tiles east, running: one tick is enough. -/
theorem handlePacket_routed_east : ∃ s' t,
    handlePacket (Server.crowd 0) 0 98 5 (ofData [2, 12, 128, 12, 255]) =
      .ok s' ((ofData [2, 12, 128, 12, 255]).skip 5) ∧
    Routed s' 0 ⟨3200, 3200⟩ [⟨3201, 3200⟩, ⟨3202, 3200⟩] ∧ Ticks 0 s' 1 t ∧
    AtTile (t.players 0).position ⟨3202, 3200⟩ := by
  have hfit : Fits 98 [2, 12, 128, 12, (255 : Byte)].length :=
    ⟨fun _ => by decide, fun h => by omega⟩
  have hlock : (Server.crowd 0).lockPlayer (Server.crowdClient 0).player = some 0 :=
    crowd_lockPlayer 0
  have hrest : (ofData [2, 12, 128, 12, 255]).rest = [2, 12, 128, 12, 255] ++ [] := rfl
  obtain ⟨s', hrun, hplayer, hrouted⟩ := handlePacket_routed (Server.crowd_client (Nat.le_refl 0))
    hlock (by decide) hfit (by decide) (by decide) hrest
  have hs' : s' = handled (Server.crowd 0) 0 98 [2, 12, 128, 12, 255] := by
    have hfits := handlePacket_fits (Server.crowd_client (Nat.le_refl 0)) hlock hfit hrest
    exact (EStateM.Result.ok.inj (hrun.symm.trans hfits)).1
  have hregistered : s'.registered = [0] := by rw [hs']; rfl
  have hwell : World.WellFormed s' := by
    rw [hs'] at hplayer ⊢
    exact wellFormed_handled (World.crowd_wellFormed (by decide)) hplayer (by decide)
  obtain ⟨t, htick⟩ := World.process_of_hasClient hwell fun p hp => by
    rw [hregistered, List.mem_singleton] at hp
    subst hp
    refine ⟨Server.crowdClient 0, Server.crowdCipher, ?_, rfl, fun _ => ⟨0, ?_⟩⟩
    · rw [hplayer, hs']
      rfl
    · exact Server.lockPlayer_of_registered (by rw [hregistered]; exact List.mem_cons_self)
  have hticks : Ticks 0 s' 1 t := by
    refine Ticks.start.tick hwell.nodup ?_ htick
    rw [hregistered]
    exact List.mem_cons_self
  refine ⟨s', t, hrun, hrouted, hticks, (hrouted.arrives 1 t hticks ?_).1⟩
  rw [hplayer]
  decide

end Client
end AsioRsps
