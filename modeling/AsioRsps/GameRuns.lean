import AsioRsps.LabelledRuns
import AsioRsps.PacketEffects
import AsioRsps.SessionSteps
import AsioRsps.Tolerance
import AsioRsps.Waypoints

/-!
# Logins, logouts, movement and ticks

Runs in which nothing happens in the middle of a tick. Between two ticks clients log in and out,
their movement packets come, and the map of the players may be reordered.
-/
namespace AsioRsps
open BitStrings (Byte)
open LabelledRuns MovementHandler

/-! ## The runs -/

/-- What a client has been sent when its player is registered, and the cipher of the frames that
follow. -/
structure Joined where
  queued : List (List Byte)
  cipher : ISAACCipher

/-- The server, and for each client how its last login found it. The source keeps no record of
that. -/
structure Game where
  server : Server
  joined : ClientId → Option Joined

def Game.start : Game := { server := Server.initial, joined := fun _ => none }

inductive GameEvent where
  | connect (c : ClientId) (encryptor decryptor : ISAACCipher)
  | login (c : ClientId) (username : Name)
  | logout (c : ClientId)
  | move (c : ClientId) (runPath : Bool) (tiles : List Position)
  | tick
  | reorder

/-- A client that has exchanged its keys. -/
def keyed (encryptor decryptor : ISAACCipher) : Client :=
  { stage := .loggingIn, encryptor := some encryptor, decryptor := some decryptor }

/-- A client that has exchanged its keys logs in under any name. The effect of a movement packet
is that of `handlePacket_inv`. -/
inductive GameStep : Game → GameEvent → Game → Prop where
  | connect {g : Game} {c : ClientId} {encryptor decryptor : ISAACCipher} :
      g.server.Unused c → GameStep g (.connect c encryptor decryptor)
        { g with server := (g.server.accept c).setClient c (keyed encryptor decryptor) }
  | login {g : Game} {c : ClientId} {username : Name} {client : Client} {cipher : ISAACCipher}
      {s' : Server} : g.server.clients c = some client → client.stage = .loggingIn →
      client.encryptor = some cipher → client.decryptor.isSome = true →
      LoginHandler.enterWorld g.server c username = .ok s' → GameStep g (.login c username)
        { server := s'
          joined := Function.update g.joined c (some
            { queued := client.queued ++ [LoginHandler.replyBytes LoginResponse.ok], cipher }) }
  | logout {g : Game} {c : ClientId} {client : Client} {s' : Server} :
      g.server.clients c = some client → Client.disconnect g.server c = .ok s' →
      GameStep g (.logout c) { g with server := s' }
  | move {g : Game} {c : ClientId} {runPath : Bool} {tiles : List Position} {client : Client}
      {p : PlayerId} : g.server.clients c = some client →
      g.server.lockPlayer client.player = some p →
      GameStep g (.move c runPath tiles)
        { g with server := g.server.modifyPlayer p fun player =>
            Client.walkPath player runPath tiles }
  | tick {g : Game} {s' : Server} : World.process g.server = .ok s' →
      GameStep g .tick { g with server := s' }
  | reorder {g : Game} {players : AList fun _ : Name => PlayerId} :
      players.entries.Perm g.server.world.players.entries → GameStep g .reorder
        { g with server := { g.server with world := { g.server.world with players } } }

/-! ## Players between two ticks -/

/-- A player that stands still and can follow its queue. -/
structure Walker (player : Player) : Prop where
  primary : player.primaryDirection = -1
  secondary : player.secondaryDirection = -1
  flat : player.position.z = 0
  leads : ∃ stop, Leads player.position player.movementHandler.waypoints stop

theorem Walker.congr {player player' : Player} (h : Walker player)
    (hp : player'.primaryDirection = player.primaryDirection)
    (hs : player'.secondaryDirection = player.secondaryDirection)
    (hposition : player'.position = player.position)
    (hwaypoints : player'.movementHandler.waypoints = player.movementHandler.waypoints) :
    Walker player' where
  primary := hp.trans h.primary
  secondary := hs.trans h.secondary
  flat := hposition ▸ h.flat
  leads := by
    rw [hposition, hwaypoints]
    exact h.leads

theorem walker_constructed (username : Name) (c : ClientId) :
    Walker { username, client := c } where
  primary := rfl
  secondary := rfl
  flat := rfl
  leads := ⟨_, rfl⟩

theorem walker_entered (c : ClientId) (username : Name) (index : Fin maxPlayers) :
    Walker (LoginHandler.enteredPlayer c username index) :=
  (walker_constructed username c).congr rfl rfl rfl rfl

/-- The calls of `AddToPath` of a packet. -/
theorem exists_added {position : Position} (hz : position.z = 0) (tiles : List Position)
    {m : MovementHandler} {steps : List Point} {stop : Position}
    (h : Holds position m.waypoints steps) (hleads : Leads position steps stop) :
    ∃ steps' stop', Holds position
        (tiles.foldl (fun m tile => m.addToPath position tile) m).waypoints steps' ∧
      Leads position steps' stop' := by
  induction tiles generalizing m steps stop with
  | nil => exact ⟨steps, stop, h, hleads⟩
  | cons tile tiles ih =>
      obtain ⟨more, stop', h', hleads', -⟩ := h.addToPath tile hz hleads
      exact ih h' hleads'

theorem Walker.walkPath {player : Player} (h : Walker player) (runPath : Bool)
    (tiles : List Position) : Walker (Client.walkPath player runPath tiles) := by
  have hreset : Holds player.position
      ((player.movementHandler.reset player.position).setRunPath runPath).waypoints [] :=
    holds_reset player.movementHandler h.flat
  obtain ⟨steps, stop, hholds, hleads⟩ := exists_added h.flat tiles hreset rfl
  refine ⟨h.primary, h.secondary, h.flat, stop, ?_⟩
  rw [← hholds.tail] at hleads
  exact hleads

theorem Walker.followed {player : Player} (h : Walker player) :
    ∃ stop, Followed player (processed player) stop := by
  obtain ⟨stop, hleads⟩ := h.leads
  exact ⟨stop, followed_processed hleads h.primary h.secondary⟩

/-- A tick leaves a walker. -/
theorem Walker.processed {player : Player} (h : Walker player) :
    Walker (processed player).reset := by
  obtain ⟨stop, hfollowed⟩ := h.followed
  have hz := (Position.stepAlong_z hfollowed.announced).trans h.flat
  exact ⟨rfl, rfl, hz, stop, hfollowed.leads⟩

/-! ## The invariant -/

theorem World.listed_nodup {s : Server} {p : PlayerId} (h : (s.players p).localPlayers.Nodup) :
    (World.listed s p).Nodup := by
  have hsame : ((World.afterProcess s).players p).localPlayers = (s.players p).localPlayers := by
    by_cases hp : p ∈ s.registered
    · rw [World.afterProcess_of_mem hp, processed_localPlayers]
    · rw [World.afterProcess_of_not_mem hp]
  refine List.nodup_append.mpr ⟨?_, PlayerUpdating.additions_nodup _ _ _ _, ?_⟩
  · rw [PlayerUpdating.keptPlayers, hsame]
    exact h.filter _
  · rintro q hkept _ hadded rfl
    exact (PlayerUpdating.mem_additions hadded).2.2.1 hkept

/-- The sessions are sound, and every player is a walker, lists nobody twice and is filed under its
own name. -/
structure GameSound (g : Game) : Prop where
  sound : g.server.Sound
  walkers : ∀ p, Walker (g.server.players p)
  lists : ∀ p, (g.server.players p).localPlayers.Nodup
  named : ∀ name p, g.server.world.players.lookup name = some p →
    (g.server.players p).username = name

theorem gameSound_start : GameSound Game.start where
  sound := Server.sound_initial
  walkers _ := walker_constructed [] 0
  lists _ := List.nodup_nil
  named _ _ h := nomatch h

/-- The players after a login or a refused one. -/
theorem newPlayer_cases {P : Player → Prop} {s : Server} {player : Player} (hnew : P player)
    (h : ∀ p, P (s.players p)) (p : PlayerId) : P ((s.newPlayer player).players p) := by
  by_cases hp : p = s.nextPlayer
  · rw [hp, Server.newPlayer]
    change P ((s.setPlayer s.nextPlayer player).players s.nextPlayer)
    rw [Server.setPlayer_players_self]
    exact hnew
  · change P ((s.setPlayer s.nextPlayer player).players p)
    rw [Server.setPlayer_players_of_ne s player hp]
    exact h p

theorem GameSound.login {g : Game} (h : GameSound g) {c : ClientId} {username : Name}
    {client : Client} {cipher : ISAACCipher} {s' : Server}
    (hc : g.server.clients c = some client) (hstage : client.stage = .loggingIn)
    (he : client.encryptor = some cipher) (hdec : client.decryptor.isSome = true)
    (ho : LoginHandler.Outcome g.server c client cipher username s')
    (joined : ClientId → Option Joined) : GameSound { server := s', joined } := by
  have hsound := ho.sound h.sound hc hstage he hdec
  cases ho with
  | refused _ => exact ⟨hsound, h.walkers, h.lists, h.named⟩
  | full _ _ =>
      refine ⟨hsound, newPlayer_cases (walker_constructed username c) h.walkers,
        newPlayer_cases (P := fun player => player.localPlayers.Nodup) List.nodup_nil h.lists,
          fun name p hname => ?_⟩
      have hfresh := (h.sound.players name p hname).fresh
      change ((g.server.newPlayer _).players p).username = name
      rw [Server.newPlayer_players _ hfresh]
      exact h.named name p hname
  | @entered index _ _ =>
      refine ⟨hsound, newPlayer_cases (walker_entered c username index) h.walkers,
        newPlayer_cases (P := fun player => player.localPlayers.Nodup) List.nodup_nil h.lists,
          fun name p hname => ?_⟩
      change ((g.server.newPlayer _).players p).username = name
      rcases Server.lookup_register hname with ⟨rfl, rfl⟩ | ⟨-, hold⟩
      · exact congrArg Player.username (Server.setPlayer_players_self ..)
      · rw [Server.newPlayer_players _ (h.sound.players name p hold).fresh]
        exact h.named name p hold

theorem GameSound.logout {g : Game} (h : GameSound g) {c : ClientId} {client : Client}
    {s' : Server} (hc : g.server.clients c = some client)
    (hd : Client.Departure g.server c client s') : GameSound { g with server := s' } := by
  have hsound := hd.sound h.sound hc
  cases hd with
  | again _ => exact h
  | absent _ _ => exact ⟨hsound, h.walkers, h.lists, h.named⟩
  | present _ _ _ _ _ =>
      refine ⟨hsound, h.walkers, h.lists, fun name p hname => ?_⟩
      exact h.named name p (World.lookup_withoutPlayer.mp hname).2

theorem modifyPlayer_cases {P : Player → Prop} {s : Server} {p q : PlayerId} {f : Player → Player}
    (hf : ∀ player, P player → P (f player)) (h : P (s.players q)) :
    P ((s.modifyPlayer p f).players q) := by
  rw [Server.modifyPlayer]
  by_cases hq : q = p
  · rw [hq, Server.setPlayer_players_self]
    exact hf _ (hq ▸ h)
  · rw [Server.setPlayer_players_of_ne _ _ hq]
    exact h

theorem GameSound.move {g : Game} (h : GameSound g) (p : PlayerId) (runPath : Bool)
    (tiles : List Position) :
    GameSound { g with server :=
      g.server.modifyPlayer p fun player => Client.walkPath player runPath tiles } where
  sound := h.sound.quiet (Client.quiet_walkPath ..)
  walkers q := modifyPlayer_cases (fun _ hwalker => hwalker.walkPath runPath tiles) (h.walkers q)
  lists q := modifyPlayer_cases (P := fun player => player.localPlayers.Nodup)
    (f := fun player => Client.walkPath player runPath tiles) (fun _ hnodup => hnodup) (h.lists q)
  named name q hname := modifyPlayer_cases (P := fun player => player.username = name)
    (f := fun player => Client.walkPath player runPath tiles) (fun _ hname => hname)
    (h.named name q hname)

theorem GameSound.tick {g : Game} (h : GameSound g) {s' : Server}
    (hrun : World.process g.server = .ok s') : GameSound { g with server := s' } := by
  have ht := World.process_ticked h.sound hrun
  have hplayer (p : PlayerId) : s'.players p = g.server.players p ∨
      s'.players p = { (processed (g.server.players p)).reset with
        localPlayers := World.listed g.server p } := by
    by_cases hp : p ∈ g.server.registered
    · exact .inr (ht.player p hp)
    · exact .inl (ht.absent p hp)
  refine ⟨h.sound.quiet (World.quiet_process h.sound hrun), fun p => ?_, fun p => ?_,
    fun name p hname => ?_⟩
  · rcases hplayer p with hsame | hticked
    · change Walker (s'.players p)
      rw [hsame]
      exact h.walkers p
    · exact (h.walkers p).processed.congr (by rw [hticked]) (by rw [hticked]) (by rw [hticked])
        (by rw [hticked])
  · change (s'.players p).localPlayers.Nodup
    rcases hplayer p with hsame | hticked
    · rw [hsame]
      exact h.lists p
    · rw [hticked]
      exact World.listed_nodup (h.lists p)
  · have hold : g.server.world.players.lookup name = some p := by
      rw [← ht.world]
      exact hname
    change (s'.players p).username = name
    rw [← h.named name p hold]
    rcases hplayer p with hsame | hticked
    · rw [hsame]
    · rw [hticked, processed_eq, moved_eq]
      rfl

theorem GameStep.sound {g g' : Game} {e : GameEvent} (hs : GameStep g e g') (h : GameSound g) :
    GameSound g' := by
  cases hs with
  | @connect c encryptor decryptor hc =>
      have haccept := h.sound.accept hc
      refine ⟨haccept.setClient_idle (Server.setClient_clients_self ..) (by decide)
        ⟨fun _ => rfl, ⟨fun hd => (nomatch hd), fun hs => (nomatch hs)⟩, fun hs => (nomatch hs)⟩,
        h.walkers, h.lists, h.named⟩
  | @login c username client cipher _ hc hstage he hdec hrun =>
      have hnot : client.stage ≠ .loggedIn := by
        rw [hstage]
        decide
      obtain ⟨t, hrun', ho⟩ := LoginHandler.enterWorld_outcome h.sound hc hnot he _
      obtain rfl := Except.ok.inj (hrun.symm.trans hrun')
      exact h.login hc hstage he hdec ho _
  | logout hc hrun =>
      exact h.logout hc (Client.departure_of_disconnect h.sound hc hrun)
  | move _ _ => exact h.move _ _ _
  | tick hrun => exact h.tick hrun
  | @reorder players hperm =>
      refine ⟨h.sound.quiet (Server.quiet_reorder hperm), h.walkers, h.lists,
        fun name p hname => ?_⟩
      exact h.named name p ((AList.perm_lookup hperm).symm.trans hname)

/-- After any run the next tick goes through. -/
theorem GameSound.exists_tick {g : Game} (h : GameSound g) :
    ∃ s', World.process g.server = .ok s' := by
  have hwell : World.WellFormed g.server := by
    refine ⟨h.named, fun p _ point hmem => ?_, fun p _ => (h.sound.lists p).1⟩
    obtain ⟨stop, hleads⟩ := (h.walkers p).leads
    exact (hleads.isDirection point hmem).2
  refine World.process_of_hasClient hwell fun p hp => ?_
  obtain ⟨client, cipher, hc, -, -, he, hlock⟩ := h.sound.client_of_registered hp
  exact ⟨client, cipher, hc, he, fun _ => ⟨p, hlock⟩⟩

/-! ## Between two ticks -/

/-- The game after a login that is given a slot. -/
def Game.entered (g : Game) (c : ClientId) (client : Client) (cipher : ISAACCipher)
    (username : Name) (index : Fin maxPlayers) : Game where
  server := g.server.register (LoginHandler.enteredPlayer c username index) c
    ((LoginHandler.admitted client username LoginResponse.ok g.server.nextPlayer).pushFrames cipher
      (Player.loginFrames { x := 3200, y := 3200 })) username index
  joined := Function.update g.joined c (some
    { queued := client.queued ++ [LoginHandler.replyBytes LoginResponse.ok], cipher })

theorem Game.entered_player (g : Game) (c : ClientId) (client : Client) (cipher : ISAACCipher)
    (username : Name) (index : Fin maxPlayers) :
    (g.entered c client cipher username index).server.players g.server.nextPlayer =
      LoginHandler.enteredPlayer c username index := Server.setPlayer_players_self ..

/-- A disconnect leaves the players, and the clients of those that stay registered. -/
theorem Client.Departure.clients_of_registered {s s' : Server} {c : ClientId} {client : Client}
    (hd : Client.Departure s c client s') (h : s.Sound) (hc : s.clients c = some client)
    {p : PlayerId} (hp : p ∈ s'.registered) : s'.players = s.players ∧
      s'.clients (s.players p).client = s.clients (s.players p).client := by
  obtain ⟨other, -, hother, hstage, -, -, -⟩ := (hd.sound h hc).client_of_registered hp
  have hne (hclosed : s'.clients c = some client.closed) (hplayers : s'.players = s.players) :
      (s.players p).client ≠ c := by
    intro howner
    rw [hplayers, howner, hclosed] at hother
    obtain rfl := Option.some.inj hother
    cases hstage
  cases hd with
  | again _ => exact ⟨rfl, rfl⟩
  | absent _ _ =>
      exact ⟨rfl, Server.setClient_clients_of_ne _ _ (hne (Server.setClient_clients_self ..) rfl)⟩
  | present _ _ _ _ _ =>
      exact ⟨rfl, Server.setClient_clients_of_ne _ _ (hne (Server.setClient_clients_self ..) rfl)⟩

/-- What a step leaves of a registered player: its client, and all but the waypoints of
everybody. -/
structure Kept (g g' : Game) (p : PlayerId) : Prop where
  client : g'.server.clients (g.server.players p).client =
    g.server.clients (g.server.players p).client
  joined : g'.joined (g.server.players p).client = g.joined (g.server.players p).client
  players : ∀ q < g.server.nextPlayer,
    ∃ m, g'.server.players q = { g.server.players q with movementHandler := m }

theorem GameStep.registered_cases {g g' : Game} {e : GameEvent} (hs : GameStep g e g')
    (h : GameSound g) (htick : e ≠ .tick) {p : PlayerId} (hp : p ∈ g'.server.registered) :
    (p ∈ g.server.registered ∧ Kept g g' p) ∨
      ∃ c client cipher username index, client.encryptor = some cipher ∧
        p = g.server.nextPlayer ∧ g' = g.entered c client cipher username index := by
  cases hs with
  | @connect c encryptor decryptor hc =>
      have hne : (g.server.players p).client ≠ c := hc.2 p (h.sound.fresh_of_registered hp)
      refine .inl ⟨hp, ?_, rfl, fun q _ => ⟨_, rfl⟩⟩
      exact (Server.setClient_clients_of_ne _ _ hne).trans (Server.setClient_clients_of_ne _ _ hne)
  | @login c username client cipher _ hc hstage he hdec hrun =>
      have hnot : client.stage ≠ .loggedIn := by
        rw [hstage]
        decide
      have hjoined (d : ClientId) (hd : d ≠ c) (joined : Option Joined) :
          Function.update g.joined c joined d = g.joined d := Function.update_of_ne hd ..
      obtain ⟨t, hrun', ho⟩ := LoginHandler.enterWorld_outcome h.sound hc hnot he _
      obtain rfl := Except.ok.inj (hrun.symm.trans hrun')
      have hother {q : PlayerId} (hq : q ∈ g.server.registered) :
          (g.server.players q).client ≠ c := by
        obtain ⟨name, hname⟩ := Server.mem_registered_iff.mp hq
        exact h.sound.not_owner hc hnot hname
      cases ho with
      | refused _ =>
          exact .inl ⟨hp, Server.setClient_clients_of_ne _ _ (hother hp), hjoined _ (hother hp) _,
            fun q _ => ⟨_, rfl⟩⟩
      | full _ _ =>
          exact .inl ⟨hp, Server.setClient_clients_of_ne _ _ (hother hp), hjoined _ (hother hp) _,
            fun q hq => ⟨_, Server.newPlayer_players _ hq⟩⟩
      | @entered index hname hfree =>
          obtain ⟨name, hlookup⟩ := Server.mem_registered_iff.mp hp
          rcases Server.lookup_register hlookup with ⟨-, rfl⟩ | ⟨-, hold⟩
          · exact .inr ⟨c, client, cipher, username, index, he, rfl, rfl⟩
          · have hbefore := Server.mem_registered_of_lookup hold
            exact .inl ⟨hbefore, Server.setClient_clients_of_ne _ _ (hother hbefore),
              hjoined _ (hother hbefore) _, fun q hq => ⟨_, Server.newPlayer_players _ hq⟩⟩
  | logout hc hrun =>
      have hd := Client.departure_of_disconnect h.sound hc hrun
      obtain ⟨hplayers, hclients⟩ := hd.clients_of_registered h.sound hc hp
      exact .inl ⟨hd.mem_registered hp, hclients, rfl, fun q _ => ⟨_, congrFun hplayers q⟩⟩
  | @move c runPath tiles client q hc hq =>
      refine .inl ⟨hp, rfl, rfl, fun r _ => ?_⟩
      have hkept : ∀ player : Player,
          (∃ m, player = { g.server.players r with movementHandler := m }) →
            ∃ m, Client.walkPath player runPath tiles =
              { g.server.players r with movementHandler := m } := by
        rintro player ⟨m, rfl⟩
        exact ⟨_, rfl⟩
      exact modifyPlayer_cases hkept ⟨_, rfl⟩
  | tick _ => exact absurd rfl htick
  | reorder hperm =>
      have hbefore := (Server.mem_registered_congr fun _ => AList.perm_lookup hperm).mp hp
      exact .inl ⟨hbefore, rfl, rfl, fun q _ => ⟨_, rfl⟩⟩

/-! ## Joining -/

/-- The next player has joined. -/
structure JoinedBy (g : Game) (c : ClientId) (username : Name) (index : Fin maxPlayers)
    (g' : Game) : Prop where
  nextPlayer : g'.server.nextPlayer = g.server.nextPlayer + 1
  players : g'.server.players = Function.update g.server.players g.server.nextPlayer
    (LoginHandler.enteredPlayer c username index)
  world : g'.server.world =
    (Server.occupy g.server.world index).insertPlayer username g.server.nextPlayer
  clients : ∀ d, d ≠ c → g'.server.clients d = g.server.clients d

/-- A new client can connect and log in under a free name, and gets the first free slot. -/
theorem exists_joinedBy {g : Game} (h : GameSound g) {c : ClientId} (hc : g.server.Unused c)
    (username : Name) (hname : g.server.world.players.lookup username = none)
    (hfree : ∃ i, g.server.world.occupiedIndices i = false) (cipher : ISAACCipher) :
    ∃ g₁ g' index, GameStep g (.connect c cipher cipher) g₁ ∧ GameStep g₁ (.login c username) g' ∧
      JoinedBy g c username index g' ∧ g.server.world.occupiedIndices index = false ∧
      ∀ j, j < index → g.server.world.occupiedIndices j = true := by
  have hconnect : GameStep g (.connect c cipher cipher) _ := .connect hc
  generalize hg₁ : ({ g with server :=
    (g.server.accept c).setClient c (keyed cipher cipher) } : Game) = g₁ at hconnect
  have hsound := hconnect.sound h
  have hfound : g₁.server.clients c = some (keyed cipher cipher) := by
    rw [← hg₁]
    exact Server.setClient_clients_self ..
  have hplayers : g₁.server.players = g.server.players := by rw [← hg₁]; rfl
  have hworld : g₁.server.world = g.server.world := by rw [← hg₁]; rfl
  have hnext : g₁.server.nextPlayer = g.server.nextPlayer := by rw [← hg₁]; rfl
  have hclients (d : ClientId) (hd : d ≠ c) : g₁.server.clients d = g.server.clients d := by
    rw [← hg₁]
    exact (Server.setClient_clients_of_ne _ _ hd).trans (Server.setClient_clients_of_ne _ _ hd)
  have hresponse : LoginHandler.response g₁.server c username ≠ LoginResponse.accountOnline := by
    rw [LoginHandler.response_eq hsound.sound hfound
      (show NetworkStage.loggingIn ≠ .loggedIn by decide), hworld, if_pos hname]
    decide
  cases hslot : World.getFreeIndex g₁.server.world with
  | none =>
      obtain ⟨i, hi⟩ := hfree
      have htaken := World.getFreeIndex_eq_none.mp hslot i
      rw [hworld, hi] at htaken
      cases htaken
  | some slot =>
      obtain ⟨index, w⟩ := slot
      obtain ⟨hindex, rfl⟩ := World.getFreeIndex_some hslot
      have hrun := LoginHandler.enterWorld_entered hfound rfl hresponse hslot
      refine ⟨g₁, _, index, hconnect, .login hfound rfl rfl rfl hrun, ⟨?_, ?_, ?_, ?_⟩, ?_, ?_⟩
      · rw [← hnext]
        rfl
      · rw [← hnext, ← hplayers]
        exact Function.update_idem ..
      · rw [← hnext, ← hworld]
        rfl
      · intro d hd
        rw [← hclients d hd]
        exact (Server.setClient_clients_of_ne _ _ hd).trans (Server.setClient_clients_of_ne _ _ hd)
      · rw [← hworld]
        exact hindex
      · rw [← hworld]
        exact fun j => World.getFreeIndex_first hslot

/-- The steps in which two players join an empty world. -/
structure PairSteps (g₁ g₂ g₃ g₄ : Game) (i j : Fin maxPlayers) (cipher : ISAACCipher) : Prop where
  connect₀ : GameStep Game.start (.connect 0 cipher cipher) g₁
  login₀ : GameStep g₁ (.login 0 [97]) g₂
  connect₁ : GameStep g₂ (.connect 1 cipher cipher) g₃
  login₁ : GameStep g₃ (.login 1 [98]) g₄
  joined₀ : JoinedBy Game.start 0 [97] i g₂
  joined₁ : JoinedBy g₂ 1 [98] j g₄
  slots : i.val = 0 ∧ j.val ≤ 1

theorem exists_pair (cipher : ISAACCipher) : ∃ g₁ g₂ g₃ g₄ i j,
    PairSteps g₁ g₂ g₃ g₄ i j cipher := by
  have hzero : ∃ k, Game.start.server.world.occupiedIndices k = false := ⟨⟨0, by decide⟩, rfl⟩
  have hunused₀ : Game.start.server.Unused 0 := ⟨rfl, fun _ hp => absurd hp (Nat.not_lt_zero _)⟩
  obtain ⟨g₁, g₂, i, hconnect₀, hlogin₀, hjoined₀, -, hfirst₀⟩ :=
    exists_joinedBy gameSound_start hunused₀ [97] rfl hzero cipher
  have hi : i.val = 0 := by
    by_contra hne
    have htaken := hfirst₀ ⟨0, by decide⟩ (Nat.pos_of_ne_zero hne)
    cases htaken
  have hsound₂ := hlogin₀.sound (hconnect₀.sound gameSound_start)
  have hunused : g₂.server.Unused 1 := by
    refine ⟨hjoined₀.clients 1 (by decide), fun p hp => ?_⟩
    rw [hjoined₀.players]
    by_cases hp0 : p = Game.start.server.nextPlayer
    · rw [hp0, Function.update_self]
      exact (by decide : (0 : ClientId) ≠ 1)
    · rw [Function.update_of_ne hp0]
      exact (by decide : (0 : ClientId) ≠ 1)
  have hname : g₂.server.world.players.lookup [98] = none := by
    rw [hjoined₀.world]
    exact AList.lookup_insert_ne (by decide)
  have hother (k : Fin maxPlayers) (hk : k.val = 1) :
      g₂.server.world.occupiedIndices k = false := by
    rw [hjoined₀.world]
    exact Function.update_of_ne (fun h => by omega) _ _
  obtain ⟨g₃, g₄, j, hconnect₁, hlogin₁, hjoined₁, -, hfirst₁⟩ :=
    exists_joinedBy hsound₂ hunused [98] hname ⟨⟨1, by decide⟩, hother _ rfl⟩ cipher
  have hj : j.val ≤ 1 := by
    by_contra hgt
    have htaken := hfirst₁ ⟨1, by decide⟩ (by omega : 1 < j.val)
    rw [hother _ rfl] at htaken
    cases htaken
  exact ⟨g₁, g₂, g₃, g₄, i, j, hconnect₀, hlogin₀, hconnect₁, hlogin₁, hjoined₀, hjoined₁, hi, hj⟩

/-- The two of them, in the order of the map. -/
theorem PairSteps.registered {g₁ g₂ g₃ g₄ : Game} {i j : Fin maxPlayers} {cipher : ISAACCipher}
    (h : PairSteps g₁ g₂ g₃ g₄ i j cipher) : g₄.server.registered = [1, 0] := by
  have hnext : g₂.server.nextPlayer = 1 := h.joined₀.nextPlayer
  rw [Server.registered, h.joined₁.world, h.joined₀.world, hnext]
  rfl

theorem PairSteps.players {g₁ g₂ g₃ g₄ : Game} {i j : Fin maxPlayers} {cipher : ISAACCipher}
    (h : PairSteps g₁ g₂ g₃ g₄ i j cipher) :
    g₄.server.players 0 = LoginHandler.enteredPlayer 0 [97] i ∧
      g₄.server.players 1 = LoginHandler.enteredPlayer 1 [98] j := by
  have hnext : g₂.server.nextPlayer = 1 := h.joined₀.nextPlayer
  rw [h.joined₁.players, hnext, Function.update_self, Function.update_of_ne (by decide),
    h.joined₀.players]
  exact ⟨Function.update_self .., rfl⟩

end AsioRsps
