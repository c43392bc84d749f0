import AsioRsps.RouteRuns
import AsioRsps.UpdateRoundTrip

/-!
# Players that are gone

A player that logs out stays in the lists it is in. An update drops it only when it is out of the
viewer's sight, as anybody else, since nothing looks at whether a listed player is registered.
-/
namespace AsioRsps
open BitStrings (Byte)
open KingPaths LabelledRuns MovementHandler PlayerUpdating
open PlayerUpdate (entryOf)

namespace World

/-- The viewer's update is sent, the entry of the player in it is a removal, and the player is
dropped from the list. -/
structure Dropped (s s' : Server) (p q : PlayerId) : Prop where
  frame : ∃ body, UpdateBody (afterProcess s) p body ∧
    Delivered s s' (s.players p).client (regionFrames (s.players p) ++ [⟨81, body⟩])
  removal : entryOf ((afterProcess s).players p) ((afterProcess s).players q) = .removal
  gone : q ∉ (s'.players p).localPlayers

/-- What is promised of a tick: the lists hold registered players only, of different slots, and
those that have logged out are dropped. -/
structure CleanTick (s s' : Server) : Prop where
  registered : ∀ p ∈ s'.registered, ∀ q ∈ (s'.players p).localPlayers, q ∈ s'.registered
  slots : ∀ p ∈ s'.registered,
    ((s'.players p).localPlayers.map fun q => (s'.players q).index).Nodup
  dropped : ∀ p ∈ s.registered, ∀ q ∈ (s.players p).localPlayers, q ∉ s.registered →
    Dropped s s' p q

/-- Whoever has logged out is out of sight of the viewers that list it, once these have moved, or
is flagged for placement. -/
def OutOfSight (s : Server) : Prop :=
  ∀ p ∈ s.registered, ∀ q ∈ (s.players p).localPlayers, q ∉ s.registered →
    (s.players q).position.isViewableFrom (moved (s.players p)).position = false ∨
      (s.players q).hasFlag UpdateFlag.needsPlacement = true

theorem keeps_eq_false {s : Server} {p q : PlayerId} (hp : p ∈ s.registered)
    (hq : q ∉ s.registered) :
    keeps ((afterProcess s).players p) ((afterProcess s).players q) = false ↔
      (s.players q).position.isViewableFrom (moved (s.players p)).position = false ∨
        (s.players q).hasFlag UpdateFlag.needsPlacement = true := by
  rw [afterProcess_of_mem hp, afterProcess_of_not_mem hq, keeps, processed_position,
    Bool.and_eq_false_iff, Bool.not_eq_false']

/-- The entries that stay are those that were listed and are kept. -/
theorem mem_keptPlayers {s : Server} {p q : PlayerId} (hp : p ∈ s.registered) :
    q ∈ keptPlayers (afterProcess s) p ↔ q ∈ (s.players p).localPlayers ∧
      keeps ((afterProcess s).players p) ((afterProcess s).players q) = true := by
  rw [keptPlayers, List.mem_filter, afterProcess_of_mem hp, processed_localPlayers]

theorem Ticked.localPlayers {s s' : Server} (h : Ticked s s') {p : PlayerId}
    (hp : p ∈ s.registered) : (s'.players p).localPlayers = listed s p := by
  rw [h.player p hp]

theorem Ticked.position {s s' : Server} (h : Ticked s s') {p : PlayerId}
    (hp : p ∈ s.registered) : (s'.players p).position = (processed (s.players p)).position := by
  rw [h.player p hp]
  rfl

/-- Whom a tick leaves in a list without being registered. -/
theorem Ticked.mem_of_not_registered {s s' : Server} (h : Ticked s s') {p q : PlayerId}
    (hp : p ∈ s.registered) (hq : q ∉ s.registered) :
    q ∈ (s'.players p).localPlayers ↔ q ∈ (s.players p).localPlayers ∧
      keeps ((afterProcess s).players p) ((afterProcess s).players q) = true := by
  rw [h.localPlayers hp, listed, List.mem_append, mem_keptPlayers hp]
  constructor
  · rintro (hkept | hadded)
    · exact hkept
    · exact absurd (mem_additions hadded).1 hq
  · exact .inl

/-- With room left, everybody registered and in view is listed. -/
theorem Ticked.mem_of_viewable {s s' : Server} (h : Ticked s s') {p q : PlayerId}
    (hp : p ∈ s.registered) (hq : q ∈ s.registered) (hne : q ≠ p)
    (hview : (s'.players q).position.isViewableFrom (s'.players p).position = true)
    (hroom : (s'.players p).localPlayers.length < 255) : q ∈ (s'.players p).localPlayers := by
  rw [h.localPlayers hp] at hroom ⊢
  rw [h.position hq, h.position hp, ← afterProcess_of_mem hq, ← afterProcess_of_mem hp] at hview
  rw [listed, List.length_append] at hroom
  by_cases hkept : q ∈ keptPlayers (afterProcess s) p
  · exact List.mem_append_left _ hkept
  · exact List.mem_append_right _ (mem_additions_of_room hq hne hkept hview hroom)

theorem Ticked.outOfSight {s s' : Server} (h : Ticked s s')
    (hclean : ∀ p ∈ s'.registered, ∀ q ∈ (s'.players p).localPlayers, q ∈ s'.registered) :
    OutOfSight s := by
  intro p hp q hlisted hq
  rw [← keeps_eq_false hp hq]
  by_contra hkeeps
  rw [Bool.not_eq_false] at hkeeps
  rw [h.registered_eq] at hclean
  exact hq (hclean p hp q ((h.mem_of_not_registered hp hq).mpr ⟨hlisted, hkeeps⟩))

theorem Ticked.registered {s s' : Server} (h : Ticked s s') (hsight : OutOfSight s) :
    ∀ p ∈ s'.registered, ∀ q ∈ (s'.players p).localPlayers, q ∈ s'.registered := by
  rw [h.registered_eq]
  intro p hp q hmem
  by_contra hq
  obtain ⟨hlisted, hkeeps⟩ := (h.mem_of_not_registered hp hq).mp hmem
  rw [(keeps_eq_false hp hq).mpr (hsight p hp q hlisted hq)] at hkeeps
  cases hkeeps

theorem Ticked.dropped {s s' : Server} (h : Ticked s s') (hs : s.Sound) (hsight : OutOfSight s)
    {p q : PlayerId} (hp : p ∈ s.registered) (hlisted : q ∈ (s.players p).localPlayers)
    (hq : q ∉ s.registered) : Dropped s s' p q := by
  have hkeeps := (keeps_eq_false hp hq).mpr (hsight p hp q hlisted hq)
  refine ⟨?_, ?_, fun hmem => ?_⟩
  · refine h.sent p hp ?_
    have hlength : ((afterProcess s).players p).localPlayers.length ≤ 255 := by
      rw [afterProcess_of_mem hp, processed_localPlayers]
      exact (hs.lists p).1
    refine Nat.lt_of_lt_of_le (List.length_filter_lt_length_iff_exists.mpr ⟨q, ?_, ?_⟩) hlength
    · rw [afterProcess_of_mem hp, processed_localPlayers]
      exact hlisted
    · rw [hkeeps]
      exact Bool.false_ne_true
  · rw [entryOf, hkeeps]
    rfl
  · obtain ⟨-, hkept⟩ := (h.mem_of_not_registered hp hq).mp hmem
    rw [hkeeps] at hkept
    cases hkept

end World

/-- A tick is clean exactly when everybody who has logged out is out of sight. -/
theorem GameSound.cleanTick_iff {g : Game} (h : GameSound g) {s' : Server}
    (hrun : World.process g.server = .ok s') :
    World.CleanTick g.server s' ↔ World.OutOfSight g.server := by
  have ht := World.process_ticked h.sound hrun
  constructor
  · exact fun hclean => ht.outOfSight hclean.registered
  · intro hsight
    have hregistered := ht.registered hsight
    have hsound := h.tick hrun
    refine ⟨hregistered, fun p hp => ?_, fun p hp q => ht.dropped h.sound hsight hp⟩
    refine (hsound.lists p).map_on fun q hq r hr => ?_
    exact hsound.sound.slots q (hregistered p hp q hq) r (hregistered p hp r hr)

theorem run_cleanTick_iff {trace : List (Taken Game GameEvent)} {g : Game}
    (h : Run GameStep Game.start trace g) :
    (∀ t ∈ trace, t.label = .tick → World.CleanTick t.before.server t.after.server) ↔
      ∀ t ∈ trace, t.label = .tick → World.OutOfSight t.before.server := by
  have hticks : ∀ t ∈ trace, t.label = .tick →
      (World.CleanTick t.before.server t.after.server ↔ World.OutOfSight t.before.server) := by
    refine h.forall_steps (P := GameSound) gameSound_start (fun _ _ _ hg hs => hs.sound hg) ?_
    intro g e g' hg hs he
    cases hs with
    | tick hrun => exact hg.cleanTick_iff hrun
    | connect _ => cases he
    | login _ _ _ _ _ => cases he
    | logout _ _ => cases he
    | move _ _ => cases he
    | reorder _ => cases he
  exact forall₂_congr fun t ht => forall_congr' fun he => hticks t ht he

/-! ## Two players in one place -/

theorem World.keptPlayers_nil {s : Server} {p : PlayerId} (hp : p ∈ s.registered)
    (hnil : (s.players p).localPlayers = []) : keptPlayers (World.afterProcess s) p = [] := by
  rw [keptPlayers, World.afterProcess_of_mem hp, processed_localPlayers, hnil]
  rfl

/-- A player that has just entered is processed without moving. -/
theorem processed_entered (c : ClientId) (username : Name) (index : Fin maxPlayers) :
    (processed (LoginHandler.enteredPlayer c username index)).movementHandler.waypoints = [] ∧
      (processed (LoginHandler.enteredPlayer c username index)).position =
        { x := 3200, y := 3200 } := by
  have hnil : (LoginHandler.enteredPlayer c username index).movementHandler.waypoints = [] := rfl
  generalize hplayer : LoginHandler.enteredPlayer c username index = player at hnil
  have hat : player.position = { x := 3200, y := 3200 } := by
    rw [← hplayer]
    rfl
  have hstill := processed_placeholder (by rw [hnil]; decide)
    (by rw [hnil]; exact List.forall_mem_nil _)
  exact ⟨hstill.1, hstill.2.1.trans hat⟩

/-- After a tick the first of two players that have just entered lists the second, which is in its
place. -/
theorem World.Ticked.listed_entered {s s' : Server} {i j : Fin maxPlayers}
    (ht : World.Ticked s s') (hregistered : s.registered = [1, 0])
    (h0 : s.players 0 = LoginHandler.enteredPlayer 0 [97] i)
    (h1 : s.players 1 = LoginHandler.enteredPlayer 1 [98] j) :
    1 ∈ (s'.players 0).localPlayers ∧
      (processed (s'.players 0)).position = (s'.players 1).position ∧
      (s'.players 1).hasFlag UpdateFlag.needsPlacement = false := by
  have hp0 : 0 ∈ s.registered := by
    rw [hregistered]
    decide
  have hp1 : 1 ∈ s.registered := by
    rw [hregistered]
    decide
  obtain ⟨hwaypoints, hposition₀⟩ := processed_entered 0 [97] i
  obtain ⟨-, hposition₁⟩ := processed_entered 1 [98] j
  rw [← h0] at hwaypoints hposition₀
  rw [← h1] at hposition₁
  refine ⟨?_, ?_, ?_⟩
  · have hnil := World.keptPlayers_nil hp0 (by rw [h0]; rfl)
    rw [ht.localPlayers hp0, World.listed, hnil, addedPlayers, hnil, World.afterProcess_registered,
      hregistered]
    refine mem_additions_of_room (by decide) (by decide) (by decide) ?_ ?_
    · rw [World.afterProcess_of_mem hp0, World.afterProcess_of_mem hp1, hposition₀, hposition₁]
      decide
    · have hle := ((additions_nodup (World.afterProcess s).players 0 [] [1, 0]).subperm
        fun q hq => (mem_additions hq).1).length_le
      exact Nat.lt_of_le_of_lt (Nat.add_le_add_left hle _) (by decide)
  · have hnil : (s'.players 0).movementHandler.waypoints = [] := by
      rw [ht.player 0 hp0]
      exact hwaypoints
    have hstill := processed_placeholder (by rw [hnil]; decide)
      (by rw [hnil]; exact List.forall_mem_nil _)
    rw [hstill.2.1, ht.position hp0, ht.position hp1, hposition₀, hposition₁]
  · rw [ht.player 1 hp1]
    exact Player.hasFlag_none rfl _

theorem PairSteps.listed {g₁ g₂ g₃ g₄ : Game} {i j : Fin maxPlayers} {cipher : ISAACCipher}
    (h : PairSteps g₁ g₂ g₃ g₄ i j cipher) {s' : Server} (ht : World.Ticked g₄.server s') :
    1 ∈ (s'.players 0).localPlayers ∧
      (processed (s'.players 0)).position = (s'.players 1).position ∧
      (s'.players 1).hasFlag UpdateFlag.needsPlacement = false :=
  ht.listed_entered h.registered h.players.1 h.players.2

theorem Client.Departure.registered_cases {s s' : Server} (h : s.Sound) {c : ClientId}
    {client : Client}
    (hc : s.clients c = some client) (hstage : client.stage = .loggedIn) {p : PlayerId}
    (hplayer : client.player = some p) (hp : p ∈ s.registered)
    (hd : Client.Departure s c client s') :
    s'.players = s.players ∧ p ∉ s'.registered ∧ (∀ q ∈ s'.registered, q ∈ s.registered) ∧
      ∀ q ∈ s.registered, q ≠ p → q ∈ s'.registered := by
  have hdisconnected := h.connected hc (by rw [hstage]; decide)
  cases hd with
  | again hd => cases hdisconnected.symm.trans hd
  | absent _ hlock =>
      rw [hplayer, Server.lockPlayer_of_registered hp] at hlock
      cases hlock
  | @present q index _ _ hq hr _ =>
      obtain rfl := Option.some.inj (hplayer.symm.trans hq)
      refine ⟨rfl, fun hstill => ?_, fun r hr' => ?_, fun r hr' hne => ?_⟩
      · obtain ⟨name, hname⟩ := Server.mem_registered_iff.mp hstill
        obtain ⟨hsame, hold⟩ := World.lookup_withoutPlayer.mp hname
        exact hsame (h.name_unique hold hr.lookup)
      · obtain ⟨name, hname⟩ := Server.mem_registered_iff.mp hr'
        exact Server.mem_registered_of_lookup (World.lookup_withoutPlayer.mp hname).2
      · obtain ⟨name, hname⟩ := Server.mem_registered_iff.mp hr'
        have hsame : name ≠ client.username := by
          rintro rfl
          exact hne (Option.some.inj (hname.symm.trans hr.lookup))
        exact Server.mem_registered_of_lookup (World.lookup_withoutPlayer.mpr ⟨hsame, hname⟩)

/-- A registered player logs out. -/
theorem GameSound.exists_logout {g : Game} (h : GameSound g) {p : PlayerId}
    (hp : p ∈ g.server.registered) : ∃ c s', GameStep g (.logout c) { g with server := s' } ∧
      s'.players = g.server.players ∧ p ∉ s'.registered ∧
      (∀ q ∈ s'.registered, q ∈ g.server.registered) ∧
      ∀ q ∈ g.server.registered, q ≠ p → q ∈ s'.registered := by
  obtain ⟨client, _, hc, hstage, hplayer, -, -⟩ := h.sound.client_of_registered hp
  obtain ⟨s', hdisconnect, hdeparture⟩ := Client.disconnect_outcome h.sound hc
  exact ⟨_, s', .logout hc hdisconnect,
    hdeparture.registered_cases h.sound hc hstage hplayer hp⟩

theorem PairSteps.outOfSight {g₁ g₂ g₃ g₄ : Game} {i j : Fin maxPlayers} {cipher : ISAACCipher}
    (h : PairSteps g₁ g₂ g₃ g₄ i j cipher) : World.OutOfSight g₄.server := by
  obtain ⟨h0, h1⟩ := h.players
  intro p hp q hq _
  rw [h.registered, List.mem_cons, List.mem_singleton] at hp
  rcases hp with rfl | rfl
  · rw [h1] at hq
    cases hq
  · rw [h0] at hq
    cases hq

/-- Two players in one place, after a tick: the first one lists the second. -/
structure Settled (g : Game) : Prop where
  sound : GameSound g
  registered : g.server.registered = [1, 0]
  nextPlayer : g.server.nextPlayer = 2
  listed : 1 ∈ (g.server.players 0).localPlayers
  together : (processed (g.server.players 0)).position = (g.server.players 1).position
  unflagged : (g.server.players 1).hasFlag UpdateFlag.needsPlacement = false
  still : (g.server.players 1).movementHandler.waypoints = []
  place : (g.server.players 0).position = { x := 3200, y := 3200 } ∧
    (g.server.players 1).position = { x := 3200, y := 3200 }

theorem exists_settled : ∃ trace g, Run GameStep Game.start trace g ∧
    (∀ t ∈ trace, t.label = .tick → World.OutOfSight t.before.server) ∧ Settled g := by
  obtain ⟨g₁, g₂, g₃, g₄, i, j, hpair⟩ := exists_pair (ISAACCipher.new (Vector.replicate 4 0))
  have hrun₄ := (((Run.start.snoc hpair.connect₀).snoc hpair.login₀).snoc hpair.connect₁).snoc
    hpair.login₁
  have hsound₄ := hrun₄.invariant gameSound_start fun _ _ _ hg hs => hs.sound hg
  obtain ⟨s₅, hprocess⟩ := hsound₄.exists_tick
  have htick : GameStep g₄ .tick { g₄ with server := s₅ } := .tick hprocess
  have hticked := World.process_ticked hsound₄.sound hprocess
  obtain ⟨hlisted, htogether, hflag⟩ := hpair.listed hticked
  have hp0 : 0 ∈ g₄.server.registered := by
    rw [hpair.registered]
    decide
  have hp1 : 1 ∈ g₄.server.registered := by
    rw [hpair.registered]
    decide
  have hnext : s₅.nextPlayer = 2 := by
    rw [hticked.nextPlayer, hpair.joined₁.nextPlayer, hpair.joined₀.nextPlayer]
    rfl
  have hplace₀ : (s₅.players 0).position = { x := 3200, y := 3200 } := by
    rw [hticked.position hp0, hpair.players.1]
    exact (processed_entered 0 [97] i).2
  have hplace₁ : (s₅.players 1).position = { x := 3200, y := 3200 } := by
    rw [hticked.position hp1, hpair.players.2]
    exact (processed_entered 1 [98] j).2
  have hstill : (s₅.players 1).movementHandler.waypoints = [] := by
    have hprocessed := (processed_entered 1 [98] j).1
    rw [← hpair.players.2] at hprocessed
    rw [hticked.player 1 hp1]
    exact hprocessed
  have hquiet (t : Taken Game GameEvent) (hne : t.label ≠ .tick) :
      t.label = .tick → World.OutOfSight t.before.server := fun h => absurd h hne
  refine ⟨_, _, hrun₄.snoc htick, ?_, htick.sound hsound₄,
    hticked.registered_eq.trans hpair.registered, hnext, hlisted, htogether, hflag, hstill,
    hplace₀, hplace₁⟩
  refine forall_snoc (forall_snoc (forall_snoc (forall_snoc (forall_snoc (forall_nil _) ?_) ?_) ?_)
    ?_) fun _ => hpair.outOfSight
  · exact hquiet _ (fun h => nomatch h)
  · exact hquiet _ (fun h => nomatch h)
  · exact hquiet _ (fun h => nomatch h)
  · exact hquiet _ (fun h => nomatch h)

theorem Settled.mem_registered {g : Game} (h : Settled g) :
    0 ∈ g.server.registered ∧ 1 ∈ g.server.registered := by
  rw [h.registered]
  decide

/-- The second player logs out in sight of the first one, and the next tick keeps it listed. -/
theorem exists_ghost : ∃ trace g, Run GameStep Game.start trace g ∧
    ∃ t ∈ trace, t.label = .tick ∧ ¬ World.CleanTick t.before.server t.after.server := by
  obtain ⟨trace, g, hrun, -, h⟩ := exists_settled
  obtain ⟨hp0, hp1⟩ := h.mem_registered
  obtain ⟨_, s', hlogout, hplayers, hgone, -, hrest⟩ := h.sound.exists_logout hp1
  have hsound := hlogout.sound h.sound
  obtain ⟨s'', hprocess⟩ := hsound.exists_tick
  have htick : GameStep { g with server := s' } .tick { g with server := s'' } := .tick hprocess
  refine ⟨_, _, (hrun.snoc hlogout).snoc htick, _, List.mem_append_right _ List.mem_cons_self, rfl,
    fun hclean => ?_⟩
  have hsight := (hsound.cleanTick_iff hprocess).mp hclean
  rcases hsight 0 (hrest 0 hp0 (by decide)) 1 (by rw [hplayers]; exact h.listed) hgone with
    hout | hflagged
  · change (s'.players 1).position.isViewableFrom (moved (s'.players 0)).position = false at hout
    rw [hplayers, ← processed_position, h.together, Position.isViewableFrom_self] at hout
    cases hout
  · change (s'.players 1).hasFlag UpdateFlag.needsPlacement = true at hflagged
    rw [hplayers, h.unflagged] at hflagged
    cases hflagged

/-! ### A player that logs out unseen -/

/-- Sixteen tiles east. -/
def eastRoute : List Tile := routeOf { x := 3200, y := 3200 } [{ x := 3216, y := 3200 }]

theorem isViewableFrom_atTile {p q : Position} {tile : Tile} (h : AtTile q tile) :
    p.isViewableFrom q =
      p.isViewableFrom { x := BitVec.ofInt 32 tile.x, y := BitVec.ofInt 32 tile.y } := by
  simp only [Position.isViewableFrom, h.1, h.2]

/-- After `n` strides along the route. -/
def eastTile (n : Nat) : Tile := (eastRoute.take (n * 2)).getLastD ⟨3200, 3200⟩

/-- Of two players the first one has run east for `n` ticks, and still lists the second, which has
not moved. -/
structure Parting (start : Server) (n : Nat) (g : Game) : Prop where
  sound : GameSound g
  ticks : Ticks 0 start n g.server
  registered : g.server.registered = [1, 0]
  nextPlayer : g.server.nextPlayer = 2
  listed : 1 ∈ (g.server.players 0).localPlayers
  still : (g.server.players 1).movementHandler.waypoints = []
  place : (g.server.players 1).position = { x := 3200, y := 3200 }

section parting

variable {start : Server} {n : Nat} {g : Game}

theorem Parting.known (h : Parting start n g) {p q : PlayerId}
    (hq : q ∈ (g.server.players p).localPlayers) : q = 0 ∨ q = 1 := by
  have hlt := (h.sound.sound.lists p).2 q hq
  rw [h.nextPlayer] at hlt
  exact Nat.le_one_iff_eq_zero_or_eq_one.mp (Nat.lt_succ_iff.mp hlt)

theorem Parting.outOfSight (h : Parting start n g) : World.OutOfSight g.server := by
  intro p _ q hq hgone
  rw [h.registered] at hgone
  rcases h.known hq with rfl | rfl <;> exact absurd (by decide) hgone

/-- Up to the seventh tick the second player is in view. -/
theorem Parting.tick (hroute : Routed start 0 ⟨3200, 3200⟩ eastRoute)
    (hstride : (start.players 0).movementHandler.stride = 2) (h : Parting start n g) (hn : n < 7) :
    ∃ g', GameStep g .tick g' ∧ Parting start (n + 1) g' := by
  obtain ⟨s', hprocess⟩ := h.sound.exists_tick
  have hstep : GameStep g .tick { g with server := s' } := .tick hprocess
  have hsound := hstep.sound h.sound
  have ht := World.process_ticked h.sound.sound hprocess
  have hp0 : 0 ∈ g.server.registered := by
    rw [h.registered]
    decide
  have hp1 : 1 ∈ g.server.registered := by
    rw [h.registered]
    decide
  have hticks := h.ticks.tick h.sound.sound.registered_nodup hp0 hprocess
  have hat := (hroute.walks _ _ hticks).onRoute.position
  rw [hstride] at hat
  have hstill := processed_placeholder (show (g.server.players 1).movementHandler.waypoints.length
    ≤ 1 by rw [h.still]; decide) (by rw [h.still]; exact List.forall_mem_nil _)
  have hplace : (s'.players 1).position = { x := 3200, y := 3200 } := by
    rw [ht.position hp1, hstill.2.1, h.place]
  have hnext : s'.nextPlayer = 2 := ht.nextPlayer.trans h.nextPlayer
  refine ⟨_, hstep, hsound, hticks, ht.registered_eq.trans h.registered, hnext, ?_, ?_, hplace⟩
  · refine ht.mem_of_viewable hp0 hp1 (by decide) ?_ ?_
    · have hview : ∀ m < 8, ({ x := 3200, y := 3200 } : Position).isViewableFrom
          { x := BitVec.ofInt 32 (eastTile m).x, y := BitVec.ofInt 32 (eastTile m).y } = true := by
        decide
      rw [hplace, isViewableFrom_atTile hat]
      exact hview (n + 1) (by omega)
    · have hfew : (s'.players 0).localPlayers ⊆ List.range 2 := fun q hq =>
        List.mem_range.mpr (hnext ▸ (hsound.sound.lists 0).2 q hq)
      exact Nat.lt_of_le_of_lt ((hsound.lists 0).subperm hfew).length_le (by decide)
  · rw [ht.player 1 hp1]
    exact hstill.1

theorem Parting.exists_run (hroute : Routed start 0 ⟨3200, 3200⟩ eastRoute)
    (hstride : (start.players 0).movementHandler.stride = 2) (h : Parting start 0 g) (hn : n ≤ 7) :
    ∃ trace g', Run GameStep g trace g' ∧ (∀ t ∈ trace, World.OutOfSight t.before.server) ∧
      Parting start n g' := by
  induction n with
  | zero => exact ⟨[], g, .start, forall_nil _, h⟩
  | succ n ih =>
      obtain ⟨trace, g₁, hrun, hsight, h₁⟩ := ih (by omega)
      obtain ⟨g₂, hstep, h₂⟩ := h₁.tick hroute hstride (by omega)
      exact ⟨_, g₂, hrun.snoc hstep, forall_snoc hsight h₁.outOfSight, h₂⟩

end parting

/-- Two players join, see each other, and the first one sets out east. -/
theorem exists_parting : ∃ trace g, Run GameStep Game.start trace g ∧
    (∀ t ∈ trace, t.label = .tick → World.OutOfSight t.before.server) ∧
    Routed g.server 0 ⟨3200, 3200⟩ eastRoute ∧
    (g.server.players 0).movementHandler.stride = 2 ∧ Parting g.server 0 g := by
  obtain ⟨trace, g, hrun, hsight, h⟩ := exists_settled
  obtain ⟨client, _, hc, -, hplayer, -, -⟩ :=
    h.sound.sound.client_of_registered h.mem_registered.1
  have hlock : g.server.lockPlayer client.player = some 0 := by
    rw [hplayer]
    exact Server.lockPlayer_of_registered h.mem_registered.1
  have hmove : GameStep g (.move _ true [{ x := 3216, y := 3200 }]) _ := .move hc hlock
  have hzero := (Server.setPlayer_players_self g.server 0 (Client.walkPath (g.server.players 0)
    true [{ x := 3216, y := 3200 }])).trans
      (walkPath_route true (h.place.1 ▸ by decide) (by decide))
  have hone := Server.setPlayer_players_of_ne g.server (Client.walkPath (g.server.players 0) true
    [{ x := 3216, y := 3200 }]) (show (1 : PlayerId) ≠ 0 by decide)
  rw [h.place.1] at hzero
  refine ⟨_, _, hrun.snoc hmove, forall_snoc hsight fun htick => ?_, ?_, ?_,
    ⟨hmove.sound h.sound, .start, h.registered, h.nextPlayer, ?_, ?_, ?_⟩⟩
  · cases htick
  · refine routed_of_queued ?_ ((kingMoves_path _ _).take 99) ?_
    · change AtTile ((g.server.setPlayer 0 _).players 0).position _
      rw [hzero]
      exact ⟨rfl, rfl⟩
    · change ((g.server.setPlayer 0 _).players 0).movementHandler.waypoints = _
      rw [hzero]
      rfl
  · change ((g.server.setPlayer 0 _).players 0).movementHandler.stride = 2
    rw [hzero, MovementHandler.stride, Bool.or_true]
    rfl
  · change 1 ∈ ((g.server.setPlayer 0 _).players 0).localPlayers
    rw [hzero]
    exact h.listed
  · change ((g.server.setPlayer 0 _).players 1).movementHandler.waypoints = []
    rw [hone, h.still]
  · change ((g.server.setPlayer 0 _).players 1).position = _
    rw [hone, h.place.2]

/-- The second of two players logs out when the first one, which lists it, walks out of its
sight. -/
theorem run_cleanTick_unseen : ∃ trace g, Run GameStep Game.start trace g ∧
    (∃ t ∈ trace, t.label = .tick ∧ 0 ∈ t.before.server.registered ∧
      1 ∈ (t.before.server.players 0).localPlayers ∧ 1 ∉ t.before.server.registered) ∧
    ∀ t ∈ trace, t.label = .tick → World.CleanTick t.before.server t.after.server := by
  obtain ⟨before, g₀, hrun₀, hsight₀, hroute, hstride, hparting⟩ := exists_parting
  obtain ⟨walk, g, hrun, hsight, h⟩ := hparting.exists_run hroute hstride (Nat.le_refl 7)
  obtain ⟨c, s', hlogout, hplayers, hgone, hold, hrest⟩ :=
    h.sound.exists_logout (show 1 ∈ g.server.registered by rw [h.registered]; decide)
  have hsound := hlogout.sound h.sound
  obtain ⟨s'', hprocess⟩ := hsound.exists_tick
  have hlast : GameStep { g with server := s' } .tick { g with server := s'' } := .tick hprocess
  have hp0 : 0 ∈ g.server.registered := by
    rw [h.registered]
    decide
  have hlisted : 1 ∈ (s'.players 0).localPlayers := by
    rw [hplayers]
    exact h.listed
  -- the eighth stride takes it out of sight
  have hat := (((hroute.walks _ _ h.ticks).onRoute.tick hroute.moves).position)
  rw [(hroute.walks _ _ h.ticks).stride, hstride] at hat
  have hout : World.OutOfSight s' := by
    intro p hp q hq hunregistered
    have hp' := hold p hp
    rw [h.registered, List.mem_cons, List.mem_singleton] at hp'
    obtain rfl := hp'.resolve_left fun hp1 => hgone (hp1 ▸ hp)
    rw [hplayers] at hq
    rcases h.known hq with rfl | rfl
    · exact absurd hp hunregistered
    · left
      rw [hplayers, ← processed_position, h.place, isViewableFrom_atTile hat]
      decide
  have hall := ((hrun₀.append hrun).snoc hlogout).snoc hlast
  refine ⟨_, _, hall, ⟨_, List.mem_append_right _ List.mem_cons_self, rfl,
    hrest 0 hp0 (by decide), hlisted, hgone⟩, (run_cleanTick_iff hall).mpr ?_⟩
  refine forall_snoc (forall_snoc (List.forall_mem_append.mpr
    ⟨hsight₀, fun t ht _ => hsight t ht⟩) fun hlabel => ?_) fun _ => hout
  cases hlabel

end AsioRsps
