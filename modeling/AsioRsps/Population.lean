import AsioRsps.ConversationRuns
import AsioRsps.GameRuns

/-!
# Who is there

What a step does to the sessions, to the world and to the players, whoever is concerned: it lets
players stroll, somebody is accepted or destroyed, leaves or logs in, or the world ticks. In all
the states of a run the sessions are those clients that have not been disconnected, and every
player can follow its waypoints.
-/
namespace AsioRsps
open BitStrings (Byte)
open StreamBuffer LabelledRuns
open FallibleLoop (bind_eq_ok)

/-! ## Strolling -/

/-- Nothing of a player has changed but its waypoints, and it can follow them as before. -/
structure Strolled (player player' : Player) : Prop where
  others : ∃ m, player' = { player with movementHandler := m }
  walker : Walker player → Walker player'

theorem Strolled.refl (player : Player) : Strolled player player := ⟨⟨_, rfl⟩, id⟩

theorem Strolled.trans {a b d : Player} (h : Strolled a b) (h' : Strolled b d) : Strolled a d := by
  obtain ⟨m, rfl⟩ := h.others
  obtain ⟨m', rfl⟩ := h'.others
  exact ⟨⟨m', rfl⟩, fun hwalker => h'.walker (h.walker hwalker)⟩

theorem strolled_walkPath (player : Player) (runPath : Bool) (tiles : List Position) :
    Strolled player (Client.walkPath player runPath tiles) :=
  ⟨⟨_, rfl⟩, fun h => h.walkPath runPath tiles⟩

namespace Server

/-- What a client is to the others: whether it is connected, and which player it has under which
name. -/
def role (s : Server) (c : ClientId) : Option (Bool × Option PlayerId × Name) :=
  (s.clients c).map fun client => (!client.disconnected, client.player, client.username)

/-- Whether a client is there, and not disconnected. -/
def living (s : Server) (c : ClientId) : Option Bool :=
  (s.clients c).map fun client => !client.disconnected

/-- The client whose bytes are read. -/
def Event.reader : Event → Option ClientId
  | .receive c _ _ _ => some c
  | _ => none

/-- The player is the client's own. -/
def Steers (s : Server) (who : Option ClientId) (p : PlayerId) : Prop :=
  ∃ c client, who = some c ∧ s.clients c = some client ∧ client.player = some p

/-- Nobody comes or goes, and only the client's own player gets new waypoints. -/
structure Strolls (s : Server) (who : Option ClientId) (s' : Server) : Prop where
  roles : s'.role = s.role
  sessions : s'.sessions = s.sessions
  nextPlayer : s'.nextPlayer = s.nextPlayer
  lookup : ∀ name, s'.world.players.lookup name = s.world.players.lookup name
  players : ∀ p, Strolled (s.players p) (s'.players p)
  steered : ∀ p, s'.players p = s.players p ∨ s.Steers who p

variable {s t u : Server} {who : Option ClientId}

theorem steers_congr (h : t.role = s.role) {p : PlayerId} (hp : t.Steers who p) :
    s.Steers who p := by
  obtain ⟨c, client, hwho, hc, hplayer⟩ := hp
  have hrole : s.role c = some (!client.disconnected, client.player, client.username) := by
    rw [← h, role, hc]
    rfl
  obtain ⟨old, hold, heq⟩ := Option.map_eq_some_iff.mp hrole
  refine ⟨c, old, hwho, hold, ?_⟩
  rw [← hplayer]
  exact congrArg (fun r => r.2.1) heq

theorem living_eq (s : Server) (c : ClientId) : s.living c = (s.role c).map Prod.fst := by
  rw [role, Option.map_map]
  rfl

theorem Strolls.living (h : s.Strolls who t) : t.living = s.living := by
  funext c
  rw [living_eq, living_eq, h.roles]

theorem Strolls.refl (s : Server) : s.Strolls who s :=
  ⟨rfl, rfl, rfl, fun _ => rfl, fun _ => .refl _, fun _ => .inl rfl⟩

theorem Strolls.trans (h : s.Strolls who t) (h' : t.Strolls who u) : s.Strolls who u where
  roles := h'.roles.trans h.roles
  sessions := h'.sessions.trans h.sessions
  nextPlayer := h'.nextPlayer.trans h.nextPlayer
  lookup name := (h'.lookup name).trans (h.lookup name)
  players p := (h.players p).trans (h'.players p)
  steered p := by
    rcases h'.steered p with hsame | hsteers
    · exact (h.steered p).imp_left hsame.trans
    · exact .inr (steers_congr h.roles hsteers)

/-- Nothing has changed that the others know of a client. -/
structure SameRole (old new : Client) : Prop where
  disconnected : new.disconnected = old.disconnected
  player : new.player = old.player
  username : new.username = old.username

theorem sameRole_of_quiet {old new : Client} (h : QuietClient old new) : SameRole old new :=
  ⟨h.disconnected, h.player, h.username⟩

theorem role_setClient {c : ClientId} {old new : Client} (hc : s.clients c = some old)
    (h : SameRole old new) : (s.setClient c new).role = s.role := by
  funext d
  rw [role, role]
  by_cases hdc : d = c
  · rw [hdc, setClient_clients_self, hc, Option.map_some, Option.map_some, h.disconnected,
      h.player, h.username]
  · rw [setClient_clients_of_ne s new hdc]

theorem strolls_setClient {c : ClientId} {old new : Client} (hc : s.clients c = some old)
    (h : SameRole old new) : s.Strolls who (s.setClient c new) :=
  ⟨role_setClient hc h, rfl, rfl, fun _ => rfl, fun _ => .refl _, fun _ => .inl rfl⟩

theorem strolls_modifyClient (s : Server) (c : ClientId) {f : Client → Client}
    (hf : ∀ client, SameRole client (f client)) : s.Strolls who (s.modifyClient c f) := by
  cases hc : s.clients c with
  | none =>
      rw [modifyClient, hc]
      exact .refl s
  | some client =>
      rw [modifyClient_eq hc]
      exact strolls_setClient hc (hf client)

theorem strolls_walkPath {p : PlayerId} (hp : s.Steers who p) (runPath : Bool)
    (tiles : List Position) :
    s.Strolls who (s.modifyPlayer p fun player => Client.walkPath player runPath tiles) where
  roles := rfl
  sessions := rfl
  nextPlayer := rfl
  lookup _ := rfl
  players q := modifyPlayer_cases (P := Strolled (s.players q))
    (fun _ h => h.trans (strolled_walkPath _ _ _)) (.refl _)
  steered q := by
    by_cases hq : q = p
    · exact .inr (hq ▸ hp)
    · exact .inl (setPlayer_players_of_ne s _ hq)

theorem strolls_reorder {players : AList fun _ : Name => PlayerId}
    (h : players.entries.Perm s.world.players.entries) :
    s.Strolls who { s with world := { s.world with players } } :=
  { Strolls.refl s with lookup := fun _ => AList.perm_lookup h }

/-! ## What a step does -/

inductive Moves (s : Server) (e : Event) : Server → Prop where
  | strolls {s' : Server} : s.Strolls e.reader s' → Moves s e s'
  | accept {c : ClientId} : e = .accept c → s.Unused c → Moves s e (s.accept c)
  | destroy {c : ClientId} {client : Client} : e = .destroy c → s.clients c = some client →
      client.disconnected = true → Moves s e (s.destroyClient c)
  | leaves {t u s' : Server} {c : ClientId} {client : Client} : e.client = some c →
      s.Strolls e.reader t → t.Sound → t.clients c = some client →
      Client.disconnect t c = .ok u → u.Strolls e.reader s' → Moves s e s'
  | logsIn {t s' : Server} {c : ClientId} {old client : Client} {now gen : Int}
      {data : List Byte} {r : LoginRequest} : e = .receive c now gen data →
      LoginHandler.loginRequest data = some r → s.clients c = some old → old.stage = .loggingIn →
      s.Strolls e.reader t → t.Sound → (∀ d, d ≠ c → t.clients d = s.clients d) →
      t.clients c = some client → client.stage = .loggingIn → Client.SameQueue old client →
      client.encryptor = some (Conversation.outCipher r) → client.decryptor.isSome = true →
      LoginHandler.Outcome t c client (Conversation.outCipher r) r.username s' → Moves s e s'
  | ticked {s' : Server} : e = .tick → World.process s = .ok s' → Moves s e s'

end Server

namespace Client
open Server

theorem moves_disconnect {s s' : Server} {e : Event} (hs : s.Sound) {c : ClientId}
    (he : e.client = some c) (h : disconnect s c = .ok s') : s.Moves e s' := by
  obtain ⟨client, hlock, -⟩ := bind_eq_ok.mp h
  exact .leaves he (.refl s) hs (clients_of_lockClient hlock) h (.refl s')

/-- A disconnect of a client that has changed quietly. -/
theorem moves_closing {s s' t : Server} {e : Event} (hs : s.Sound) {c : ClientId}
    (he : e.client = some c) {old mid : Client} (hc : s.clients c = some old)
    (hq : QuietClient old mid) (h : disconnect (s.setClient c mid) c = .ok t)
    (h' : t.Strolls e.reader s') : s.Moves e s' :=
  .leaves he (strolls_setClient hc (sameRole_of_quiet hq)) (hs.quiet (quiet_setClient hc hq))
    (setClient_clients_self ..) h h'

theorem moves_runPosted {s s' : Server} {e : Event} (hs : s.Sound) {c : ClientId}
    (he : e.client = some c) (h : runPosted s c = .ok s') : s.Moves e s' := by
  obtain ⟨client, hlock, h⟩ := bind_eq_ok.mp h
  have hc := clients_of_lockClient hlock
  split at h
  · obtain rfl := Except.ok.inj h
    exact .strolls (.refl s)
  · obtain ⟨client', hpush, h⟩ := bind_eq_ok.mp h
    obtain rfl := Except.ok.inj h
    have hquiet := quietClient_push hpush
    exact .strolls (strolls_setClient hc ⟨hquiet.disconnected, hquiet.player, hquiet.username⟩)
  · rename_i strand _
    have hpending : QuietClient client { client with strand, pendingDisconnect := true } :=
      ⟨rfl, rfl, rfl, rfl, id, id⟩
    split at h
    · exact moves_closing hs he hc hpending h (.refl s')
    · obtain rfl := Except.ok.inj h
      exact .strolls (strolls_setClient hc ⟨rfl, rfl, rfl⟩)

theorem moves_written {s s' : Server} {e : Event} (hs : s.Sound) {c : ClientId}
    (he : e.client = some c) (h : written s c = .ok s') : s.Moves e s' := by
  obtain ⟨client, hlock, h⟩ := bind_eq_ok.mp h
  have hc := clients_of_lockClient hlock
  split at h
  · cases h
  · rename_i writeQueue _
    dsimp only at h
    split at h
    · obtain ⟨client', hwrite, h⟩ := bind_eq_ok.mp h
      obtain rfl := Except.ok.inj h
      have hquiet := quietClient_doWrite hwrite
      exact .strolls (strolls_setClient hc ⟨hquiet.disconnected, hquiet.player, hquiet.username⟩)
    · have hidle : QuietClient client { client with
          writeQueue, completedWrites := client.completedWrites + 1, writing := false } :=
        ⟨rfl, rfl, rfl, rfl, id, id⟩
      split at h
      · obtain ⟨t, hdisconnect, h⟩ := bind_eq_ok.mp h
        obtain rfl := Except.ok.inj h
        exact moves_closing hs he hc hidle hdisconnect
          (strolls_modifyClient t c fun _ => ⟨rfl, rfl, rfl⟩)
      · obtain rfl := Except.ok.inj h
        exact .strolls (strolls_setClient hc ⟨rfl, rfl, rfl⟩)

theorem moves_writeFailed {s s' : Server} {e : Event} (hs : s.Sound) {c : ClientId}
    (he : e.client = some c) (h : writeFailed s c = .ok s') : s.Moves e s' := by
  obtain ⟨client, hlock, h⟩ := bind_eq_ok.mp h
  have hdone : QuietClient client { client with completedWrites := client.completedWrites + 1 } :=
    ⟨rfl, rfl, rfl, rfl, id, id⟩
  exact moves_closing hs he (clients_of_lockClient hlock) hdone h (.refl s')

/-! ## Reads -/

theorem strolls_decodeOpcode {who : Option ClientId} {c : ClientId} {st st' : Incoming}
    (h : decodeOpcode c st = .ok st') : st.server.Strolls who st'.server := by
  obtain ⟨⟨raw, inStream⟩, -, h⟩ := bind_eq_ok.mp h
  obtain ⟨client, hlock, h⟩ := bind_eq_ok.mp h
  obtain ⟨decryptor, -, h⟩ := bind_eq_ok.mp h
  obtain rfl := Except.ok.inj h
  exact strolls_setClient (clients_of_lockClient hlock) ⟨rfl, rfl, rfl⟩

theorem strolls_dispatch {c : ClientId} {st st' : Incoming} (h : dispatch c st = .ok st') :
    st.server.Strolls (some c) st'.server := by
  simp only [dispatch] at h
  split at h
  · obtain ⟨⟨server, inStream⟩, hpacket, h⟩ := bind_eq_ok.mp h
    obtain rfl := Except.ok.inj h
    rcases handlePacket_inv hpacket with rfl | ⟨client, p, runPath, tiles, hc, hlock, rfl⟩
    · exact .refl _
    · have hplayer := Option.eq_some_of_filter_eq_some hlock
      exact strolls_walkPath ⟨c, client, rfl, hc, hplayer⟩ runPath tiles
  · obtain rfl := Except.ok.inj h
    exact .refl _

theorem strolls_packetIteration {c : ClientId} {gen : Int} {st : Incoming} {client : Client}
    {it : ForInStep Incoming} (hc : st.server.clients c = some client)
    (hstage : client.stage = .loggedIn) (h : packetIteration c gen st = .ok it) :
    st.server.Strolls (some c) it.value.server := by
  cases packetIteration_inv h with
  | empty _ => exact .refl _
  | login hc' hnot _ =>
      obtain rfl := Option.some.inj (hc.symm.trans hc')
      exact absurd hstage hnot
  | @packet _ st₁ it₁ _ _ _ hopcode hlength hdispatch =>
      have h₁ : st.server.Strolls (some c) st₁.server := by
        rcases hopcode with ⟨-, hop⟩ | ⟨-, rfl⟩
        · exact strolls_decodeOpcode hop
        · exact .refl _
      have h₂ : st.server.Strolls (some c) it₁.value.server := by
        rcases hlength with ⟨-, hlen⟩ | ⟨-, rfl⟩
        · rw [server_decodeLength hlen]
          exact h₁
        · exact h₁
      rcases hdispatch with ⟨st₂, rfl, rfl⟩ | ⟨st₂, st₃, rfl, hd, rfl⟩
      · exact h₂
      · exact h₂.trans (strolls_dispatch hd)

theorem strolls_counted {s : Server} {who : Option ClientId} {c : ClientId} {client : Client}
    (hc : s.clients c = some client) (now : Int) : s.Strolls who (counted s c client now) :=
  strolls_setClient hc (sameRole_of_quiet (quietClient_countPacket client now))

/-- The packet loop as a stroll. -/
structure Strolling (s : Server) (c : ClientId) (st : Incoming) : Prop where
  strolls : s.Strolls (some c) st.server
  looping : Looping s c st

theorem Strolling.iteration {s : Server} {c : ClientId} {gen : Int} {st : Incoming}
    {it : ForInStep Incoming} (h : Strolling s c st) (hit : packetIteration c gen st = .ok it) :
    Strolling s c it.value := by
  obtain ⟨client, hc, hstage⟩ := h.looping.2
  exact ⟨h.strolls.trans (strolls_packetIteration hc hstage hit), h.looping.iteration hit⟩

theorem moves_process {s s' : Server} (hs : s.Sound) {c : ClientId} {client : Client}
    {now gen : Int} {data : List Byte} {b : StreamBuffer} (hc : s.clients c = some client)
    (hnot : client.stage ≠ .loggedIn) (h : (ofData data).exec
      (LoginHandler.process (counted s c client now) c gen) = .ok (s', b)) :
    s.Moves (.receive c now gen data) s' := by
  have hcounted : s.Strolls (some c) (counted s c client now) := strolls_counted hc now
  have hsound := hs.quiet (quiet_counted hc now)
  have hsame := sameOutput_countPacket client now
  have hfound : (counted s c client now).clients c = some (countPacket client now).1 :=
    setClient_clients_self ..
  cases hstage : client.stage with
  | connected =>
      simp only [StreamBuffer.exec,
        LoginHandler.process_connected hfound (hsame.stage.trans hstage)] at h
      rcases LoginHandler.handleConnectedStage_inv hfound h with hdisconnect | ⟨bytes, rfl⟩
      · exact .leaves rfl hcounted hsound hfound hdisconnect (.refl s')
      · exact .strolls (hcounted.trans (strolls_setClient hfound ⟨rfl, rfl, rfl⟩))
  | loggingIn =>
      have hmid := hsame.stage.trans hstage
      simp only [StreamBuffer.exec, LoginHandler.process_loggingIn hfound hmid] at h
      rcases LoginHandler.handleLoggingInStage_outcome hsound hfound hmid h with
        ⟨-, hdisconnect⟩ | ⟨r, hr, ho⟩
      · exact .leaves rfl hcounted hsound hfound hdisconnect (.refl s')
      · have hciphered : SameQueue (countPacket client now).1
            (LoginHandler.ciphered (countPacket client now).1 r) :=
          ⟨rfl, rfl, rfl, rfl, rfl, rfl, rfl⟩
        have hstroll : (counted s c client now).Strolls (some c)
            ((counted s c client now).setClient c
              (LoginHandler.ciphered (countPacket client now).1 r)) :=
          strolls_setClient hfound ⟨rfl, rfl, rfl⟩
        refine .logsIn rfl hr hc hstage (hcounted.trans hstroll)
          (hsound.quiet (LoginHandler.quiet_ciphered hfound r)) (fun d hd => ?_)
          (setClient_clients_self ..) hmid (hsame.toSameQueue.trans hciphered) rfl rfl ho
        exact (setClient_clients_of_ne _ _ hd).trans (setClient_clients_of_ne s _ hd)
  | loggedIn => exact absurd hstage hnot
  | loggedOut =>
      rw [LoginHandler.process_loggedOut hfound (hsame.stage.trans hstage)] at h
      obtain ⟨rfl, -⟩ := Prod.mk.inj (Except.ok.inj h)
      exact .strolls hcounted

theorem moves_read {s : Server} (hs : s.Sound) {c : ClientId} {client : Client} {fuel : Nat}
    {now gen : Int} {data : List Byte} {st : Incoming} (hc : s.clients c = some client)
    (hdata : data ≠ []) (h : readIncomingData fuel s c now gen data = some (.ok st)) :
    s.Moves (.receive c now gen data) st.server := by
  have hcounted : s.Strolls (some c) (counted s c client now) := strolls_counted hc now
  cases readIncomingData_outcome hc hdata h with
  | flood _ hdisconnect =>
      exact .leaves rfl hcounted (hs.quiet (quiet_counted hc now)) (setClient_clients_self ..)
        hdisconnect (.refl _)
  | packets hflood hlogged _ =>
      obtain ⟨st', hends, hserver, -⟩ := readIncomingData_ends hc hflood h
      have hlast := hends.invariant (P := Strolling (counted s c client now) c)
        (Q := Strolling (counted s c client now) c) (fun _ _ ha hit => ha.iteration hit)
        (fun _ _ ha hit => ha.iteration hit) ⟨.refl _, looping_start hlogged now data⟩
      rw [hserver]
      exact .strolls (hcounted.trans hlast.strolls)
  | login _ hnot hrun => exact moves_process hs hc hnot hrun

end Client

namespace Server

theorem Step.moves {s s' : Server} {e : Event} (h : Step s e s') (hs : s.Sound) :
    s.Moves e s' := by
  cases h with
  | accept hc => exact .accept rfl hc
  | receive hdata _ hread =>
      obtain ⟨client, hc⟩ := Client.exists_reader hread
      exact Client.moves_read hs hc hdata hread
  | readFailed hrun => exact Client.moves_disconnect hs rfl hrun
  | runPosted hrun => exact Client.moves_runPosted hs rfl hrun
  | written _ _ hrun => exact Client.moves_written hs rfl hrun
  | writeFailed _ _ hrun => exact Client.moves_writeFailed hs rfl hrun
  | destroy hc hd _ _ => exact .destroy rfl hc hd
  | tick hrun => exact .ticked rfl hrun
  | reorder hperm => exact .strolls (strolls_reorder hperm)

/-- What a step does to one player. -/
inductive PlayerMoves (s : Server) (e : Event) (s' : Server) (p : PlayerId) : Prop where
  | strolled : Strolled (s.players p) (s'.players p) →
      s'.players p = s.players p ∨ s.Steers e.reader p → PlayerMoves s e s' p
  | created {username : Name} {c : ClientId} : p = s.nextPlayer →
      s'.players p = { username, client := c } → PlayerMoves s e s' p
  | entered {username : Name} {c : ClientId} {index : Fin maxPlayers} : p = s.nextPlayer →
      s'.players p = LoginHandler.enteredPlayer c username index → PlayerMoves s e s' p
  | ticked : e = .tick → p ∈ s.registered → World.Ticked s s' → PlayerMoves s e s' p

theorem newPlayer_player (s : Server) (player : Player) (p : PlayerId) :
    p = s.nextPlayer ∧ (s.newPlayer player).players p = player ∨
      (s.newPlayer player).players p = s.players p := by
  by_cases hp : p = s.nextPlayer
  · subst hp
    exact .inl ⟨rfl, setPlayer_players_self ..⟩
  · exact .inr (setPlayer_players_of_ne s player hp)

theorem steers_of_departure {s s' : Server} {who : Option ClientId} {c : ClientId}
    {client : Client} (hc : s.clients c = some client) (h : Client.Departure s c client s')
    {p : PlayerId} (hp : s'.Steers who p) : s.Steers who p := by
  obtain ⟨d, new, hwho, hd, hplayer⟩ := hp
  have hclosed {t : Server} (ht : t.clients = s.clients)
      (hd : (t.setClient c client.closed).clients d = some new) : s.Steers who p := by
    by_cases hdc : d = c
    · rw [hdc, setClient_clients_self] at hd
      obtain rfl := Option.some.inj hd
      exact ⟨c, client, hdc ▸ hwho, hc, hplayer⟩
    · rw [setClient_clients_of_ne t _ hdc, ht] at hd
      exact ⟨d, new, hwho, hd, hplayer⟩
  cases h with
  | again _ => exact ⟨d, new, hwho, hd, hplayer⟩
  | absent _ _ => exact hclosed rfl hd
  | present _ _ _ _ _ => exact hclosed rfl hd

theorem Moves.player {s s' : Server} {e : Event} (hm : s.Moves e s') (hs : s.Sound)
    (p : PlayerId) : s.PlayerMoves e s' p := by
  cases hm with
  | strolls hstroll => exact .strolled (hstroll.players p) (hstroll.steered p)
  | accept _ _ => exact .strolled (.refl _) (.inl rfl)
  | destroy _ _ _ => exact .strolled (.refl _) (.inl rfl)
  | @leaves t u _ c client _ hstroll ht hc hrun hstroll' =>
      have hdeparture := Client.departure_of_disconnect ht hc hrun
      have hplayers : u.players = t.players := by cases hdeparture <;> rfl
      have hleft := hstroll.players p
      have hsteered := hstroll.steered p
      rw [← hplayers] at hleft hsteered
      refine .strolled (hleft.trans (hstroll'.players p)) ?_
      rcases hstroll'.steered p with hsame | hsteers
      · exact hsteered.imp_left hsame.trans
      · exact .inr (steers_congr hstroll.roles (steers_of_departure hc hdeparture hsteers))
  | @logsIn t _ c _ _ _ _ _ r _ _ _ _ hstroll _ _ _ _ _ _ _ ho =>
      have hstrolled := hstroll.players p
      have hsteered := hstroll.steered p
      cases ho with
      | refused _ => exact .strolled hstrolled hsteered
      | full _ _ =>
          rcases newPlayer_player t { username := r.username, client := c } p with
            ⟨hp, hnew⟩ | hold
          · exact .created (hp.trans hstroll.nextPlayer) hnew
          · rw [← hold] at hstrolled hsteered
            exact .strolled hstrolled hsteered
      | @entered index _ _ =>
          rcases newPlayer_player t (LoginHandler.enteredPlayer c r.username index) p with
            ⟨hp, hnew⟩ | hold
          · exact .entered (hp.trans hstroll.nextPlayer) hnew
          · rw [← hold] at hstrolled hsteered
            exact .strolled hstrolled hsteered
  | ticked htick hrun =>
      have ht := World.process_ticked hs hrun
      by_cases hp : p ∈ s.registered
      · exact .ticked htick hp ht
      · have hsame := ht.absent p hp
        exact .strolled (hsame ▸ .refl _) (.inl hsame)

/-! ## Sessions -/

/-- The sessions are the clients that are there and not disconnected, each of them once. -/
structure Attended (s : Server) : Prop where
  nodup : s.sessions.Nodup
  sessions : ∀ c, c ∈ s.sessions ↔ s.living c = some true

theorem attended_initial : Attended initial := ⟨List.nodup_nil, fun _ => ⟨nofun, nofun⟩⟩

theorem living_eq_some {s : Server} {c : ClientId} {alive : Bool} :
    s.living c = some alive ↔
      ∃ client, s.clients c = some client ∧ client.disconnected = !alive := by
  rw [living, Option.map_eq_some_iff]
  refine exists_congr fun client => and_congr_right fun _ => ?_
  cases client.disconnected <;> cases alive <;> simp

theorem Quiet.living {s s' : Server} (h : s.Quiet s') : s'.living = s.living := by
  funext c
  have hrel := h.clients c
  rw [Server.living, Server.living]
  generalize s.clients c = old at hrel
  generalize s'.clients c = new at hrel
  cases hrel with
  | none => rfl
  | some hclient => rw [Option.map_some, Option.map_some, hclient.disconnected]

theorem Attended.strolls {s s' : Server} {who : Option ClientId} (h : s.Attended)
    (hs : s.Strolls who s') : s'.Attended := by
  refine ⟨hs.sessions ▸ h.nodup, fun c => ?_⟩
  rw [hs.sessions, hs.living]
  exact h.sessions c

theorem Attended.departure {s s' : Server} (h : s.Attended) {c : ClientId} {client : Client}
    (hd : Client.Departure s c client s') : s'.Attended := by
  have hgone {t : Server} (ht : t.clients = s.clients)
      (hsessions : t.sessions = s.sessions.erase c) :
      (t.setClient c client.closed).Attended := by
    refine ⟨?_, fun d => ?_⟩
    · rw [setClient_sessions, hsessions]
      exact h.nodup.erase c
    · rw [setClient_sessions, hsessions, h.nodup.mem_erase_iff, h.sessions, living, living]
      by_cases hdc : d = c
      · rw [hdc, setClient_clients_self]
        exact ⟨fun hne => absurd rfl hne.1,
          fun hlast => absurd (Option.some.inj hlast) Bool.false_ne_true⟩
      · rw [setClient_clients_of_ne t _ hdc, ht]
        exact and_iff_right hdc
  cases hd with
  | again _ => exact h
  | absent _ _ => exact hgone rfl rfl
  | present _ _ _ _ _ => exact hgone rfl rfl

theorem living_setClient {s : Server} {c : ClientId} {old new : Client}
    (hc : s.clients c = some old) (hd : new.disconnected = old.disconnected) :
    (s.setClient c new).living = s.living := by
  funext d
  rw [living, living]
  by_cases hdc : d = c
  · rw [hdc, setClient_clients_self, hc, Option.map_some, Option.map_some, hd]
  · rw [setClient_clients_of_ne s new hdc]

theorem Attended.setClient {s t : Server} (h : s.Attended) {c : ClientId} {old new : Client}
    (ht : t.clients = s.clients) (hsessions : t.sessions = s.sessions)
    (hc : s.clients c = some old) (hd : new.disconnected = old.disconnected) :
    (t.setClient c new).Attended := by
  have hliving : (t.setClient c new).living = s.living := by
    rw [living_setClient (ht ▸ hc) hd]
    funext d
    rw [living, living, ht]
  refine ⟨hsessions ▸ h.nodup, fun d => ?_⟩
  rw [setClient_sessions, hsessions, hliving]
  exact h.sessions d

theorem Attended.outcome {s s' : Server} (h : s.Attended) {c : ClientId} {client : Client}
    {cipher : ISAACCipher} {username : Name} (hc : s.clients c = some client)
    (he : client.encryptor = some cipher)
    (ho : LoginHandler.Outcome s c client cipher username s') : s'.Attended := by
  cases ho with
  | refused _ => exact h.setClient rfl rfl hc rfl
  | full _ _ => exact h.setClient rfl rfl hc rfl
  | entered _ _ =>
      have hadmitted : (LoginHandler.admitted client username LoginResponse.ok
          s.nextPlayer).encryptor = some cipher := he
      exact h.setClient rfl rfl hc (World.quietClient_pushFrames hadmitted _).disconnected

theorem Attended.accept {s : Server} (h : s.Attended) {c : ClientId} (hc : s.Unused c) :
    (s.accept c).Attended := by
  have hnew : c ∉ s.sessions := by
    rw [h.sessions, living, hc.1]
    exact nofun
  refine ⟨List.nodup_cons.mpr ⟨hnew, h.nodup⟩, fun d => ?_⟩
  change d ∈ c :: s.sessions ↔ (s.setClient c {}).living d = some true
  rw [List.mem_cons, h.sessions, living, living]
  by_cases hdc : d = c
  · rw [hdc, setClient_clients_self]
    exact ⟨fun _ => rfl, fun _ => .inl rfl⟩
  · rw [setClient_clients_of_ne s _ hdc]
    exact or_iff_right hdc

theorem Attended.destroy {s : Server} (h : s.Attended) {c : ClientId} {client : Client}
    (hc : s.clients c = some client) (hd : client.disconnected = true) :
    (s.destroyClient c).Attended := by
  refine ⟨h.nodup, fun d => ?_⟩
  change d ∈ s.sessions ↔ _
  rw [h.sessions, living, living]
  by_cases hdc : d = c
  · rw [hdc, destroyClient_self, hc, Option.map_some, hd]
    exact ⟨nofun, nofun⟩
  · rw [destroyClient_of_ne s hdc]

theorem Attended.moves {s s' : Server} {e : Event} (h : s.Attended) (hs : s.Sound)
    (hm : s.Moves e s') : s'.Attended := by
  cases hm with
  | strolls hstroll => exact h.strolls hstroll
  | accept _ hc => exact h.accept hc
  | destroy _ hc hd => exact h.destroy hc hd
  | leaves _ hstroll ht hc hrun hstroll' =>
      have hdeparture := Client.departure_of_disconnect ht hc hrun
      exact ((h.strolls hstroll).departure hdeparture).strolls hstroll'
  | logsIn _ _ _ _ hstroll _ _ hc _ _ he _ ho => exact (h.strolls hstroll).outcome hc he ho
  | ticked _ hrun =>
      have hsessions := (World.process_ticked hs hrun).sessions
      refine ⟨hsessions ▸ h.nodup, fun c => ?_⟩
      rw [hsessions, (World.quiet_process hs hrun).living]
      exact h.sessions c

theorem reachable_attended {s : Server} (h : Reachable Step initial s) : s.Attended := by
  obtain ⟨trace, hrun⟩ := h
  have hboth := hrun.invariant (P := fun s => s.Sound ∧ s.Attended)
    ⟨sound_initial, attended_initial⟩ fun _ _ _ hs hstep =>
      ⟨(step_sound_live hs.1 hstep).1, hs.2.moves hs.1 (hstep.moves hs.1)⟩
  exact hboth.2

/-! ## Players -/

/-- What `GameSound` says of a server. -/
def Populated (s : Server) : Prop := GameSound { server := s, joined := fun _ => none }

theorem Populated.sound {s : Server} (h : s.Populated) : s.Sound := GameSound.sound h

theorem Populated.strolls {s s' : Server} {who : Option ClientId} (h : s.Populated) (hs' : s'.Sound)
    (hstroll : s.Strolls who s') : s'.Populated where
  sound := hs'
  walkers p := (hstroll.players p).walker (h.walkers p)
  lists p := by
    obtain ⟨m, hp⟩ := (hstroll.players p).others
    change (s'.players p).localPlayers.Nodup
    rw [hp]
    exact h.lists p
  named name p hname := by
    obtain ⟨m, hp⟩ := (hstroll.players p).others
    change (s'.players p).username = name
    rw [hp]
    exact h.named name p ((hstroll.lookup name).symm.trans hname)

theorem Populated.moves {s s' : Server} {e : Event} (h : s.Populated) (hs' : s'.Sound)
    (hm : s.Moves e s') : s'.Populated := by
  cases hm with
  | strolls hstroll => exact h.strolls hs' hstroll
  | accept _ _ => exact ⟨hs', h.walkers, h.lists, h.named⟩
  | destroy _ _ _ => exact ⟨hs', h.walkers, h.lists, h.named⟩
  | leaves _ hstroll ht hc hrun hstroll' =>
      have hdeparture := Client.departure_of_disconnect ht hc hrun
      have hleft : Server.Populated _ := GameSound.logout (h.strolls ht hstroll) hc hdeparture
      exact hleft.strolls hs' hstroll'
  | logsIn _ _ _ _ hstroll ht _ hc hstage _ he hdec ho =>
      exact GameSound.login (h.strolls ht hstroll) hc hstage he hdec ho _
  | ticked _ hrun => exact GameSound.tick h hrun

theorem populated_initial : Populated initial :=
  ⟨sound_initial, gameSound_start.walkers, gameSound_start.lists, gameSound_start.named⟩

theorem Populated.step {s s' : Server} {e : Event} (h : s.Populated) (hs : Step s e s') :
    s'.Populated :=
  h.moves (step_sound_live h.sound hs).1 (hs.moves h.sound)

theorem reachable_populated {s : Server} (h : Reachable Step initial s) : s.Populated := by
  obtain ⟨trace, hrun⟩ := h
  exact hrun.invariant populated_initial fun _ _ _ hs hstep => hs.step hstep

/-! ## Players of one's own -/

section owning
variable {s t : Server} {c : ClientId}

/-- Nobody steers the player of another client. -/
def Owning (s : Server) : Prop :=
  ∀ c p, s.Steers (some c) p → p < s.nextPlayer ∧ (s.players p).client = c

theorem steers_self {client : Client} {p : PlayerId} (hc : s.clients c = some client)
    (hp : client.player = some p) : s.Steers (some c) p := ⟨c, client, rfl, hc, hp⟩

theorem Owning.strolls {who : Option ClientId} (h : s.Owning) (hs : s.Strolls who t) :
    t.Owning := by
  intro c p hp
  obtain ⟨hlt, howner⟩ := h c p (steers_congr hs.roles hp)
  obtain ⟨m, heq⟩ := (hs.players p).others
  exact ⟨hs.nextPlayer ▸ hlt, by rw [heq]; exact howner⟩

theorem Owning.setClient (h : s.Owning) {new : Client}
    (hnew : ∀ p, new.player = some p → p < s.nextPlayer ∧ (s.players p).client = c) :
    (s.setClient c new).Owning := by
  rintro d p ⟨_, client, heq, hd, hp⟩
  obtain rfl := Option.some.inj heq
  by_cases hdc : d = c
  · subst hdc
    rw [setClient_clients_self] at hd
    obtain rfl := Option.some.inj hd
    exact hnew p hp
  · rw [setClient_clients_of_ne s new hdc] at hd
    exact h d p (steers_self hd hp)

theorem Owning.newPlayer (h : s.Owning) (player : Player) : (s.newPlayer player).Owning := by
  intro c p hp
  obtain ⟨hlt, howner⟩ := h c p hp
  refine ⟨Nat.lt_succ_of_lt hlt, ?_⟩
  rw [Server.newPlayer, setPlayer_players_of_ne s player (Nat.ne_of_lt hlt)]
  exact howner

theorem newPlayer_owned (s : Server) {player : Player} (h : player.client = c) (p : PlayerId)
    (hp : some s.nextPlayer = some p) :
    p < (s.newPlayer player).nextPlayer ∧ ((s.newPlayer player).players p).client = c := by
  obtain rfl := Option.some.inj hp
  refine ⟨Nat.lt_succ_self _, ?_⟩
  rw [Server.newPlayer, setPlayer_players_self]
  exact h

theorem Owning.outcome (h : s.Owning) {client : Client} {cipher : ISAACCipher} {username : Name}
    (hc : s.clients c = some client) (he : client.encryptor = some cipher)
    (ho : LoginHandler.Outcome s c client cipher username t) : t.Owning := by
  cases ho with
  | refused _ => exact h.setClient fun p hp => h c p (steers_self hc hp)
  | full _ _ => exact (h.newPlayer _).setClient (newPlayer_owned s rfl)
  | @entered index _ _ =>
      have hadmitted : (LoginHandler.admitted client username LoginResponse.ok
          s.nextPlayer).encryptor = some cipher := he
      have hplayer := (World.quietClient_pushFrames hadmitted
        (Player.loginFrames { x := 3200, y := 3200 })).player
      exact (h.newPlayer (LoginHandler.enteredPlayer c username index)).setClient fun p hp =>
        newPlayer_owned s rfl p (hplayer.symm.trans hp)

theorem Owning.departure (h : s.Owning) {client : Client} (hc : s.clients c = some client)
    (hd : Client.Departure s c client t) : t.Owning := by
  intro d p hp
  have hsame : t.players = s.players ∧ t.nextPlayer = s.nextPlayer := by
    cases hd <;> exact ⟨rfl, rfl⟩
  rw [hsame.1, hsame.2]
  exact h d p (steers_of_departure hc hd hp)

theorem Owning.moves {e : Event} (h : s.Owning) (hs : s.Sound) (hm : s.Moves e t) : t.Owning := by
  cases hm with
  | strolls hstroll => exact h.strolls hstroll
  | accept _ _ => exact h.setClient nofun
  | @destroy c _ _ hc _ =>
      rintro d p ⟨_, client, heq, hd, hp⟩
      obtain rfl := Option.some.inj heq
      by_cases hdc : d = c
      · rw [hdc, destroyClient_self] at hd
        cases hd
      · rw [destroyClient_of_ne s hdc] at hd
        exact h d p (steers_self hd hp)
  | leaves _ hstroll ht hc hrun hstroll' =>
      have hdeparture := Client.departure_of_disconnect ht hc hrun
      exact ((h.strolls hstroll).departure hc hdeparture).strolls hstroll'
  | logsIn _ _ _ _ hstroll _ _ hc _ _ he _ ho => exact (h.strolls hstroll).outcome hc he ho
  | ticked _ hrun =>
      have hquiet := World.quiet_process hs hrun
      rintro c p ⟨_, client, heq, hc, hp⟩
      obtain ⟨old, hold, hclient⟩ := hquiet.client_before hc
      obtain ⟨hlt, howner⟩ := h c p ⟨_, old, heq, hold, hclient.player ▸ hp⟩
      exact ⟨hquiet.nextPlayer ▸ hlt, (hquiet.owner p).trans howner⟩

theorem reachable_owning {s : Server} (h : Reachable Step initial s) : s.Owning := by
  obtain ⟨trace, hrun⟩ := h
  have hstart : initial.Owning := by
    rintro c p ⟨_, client, -, hc, -⟩
    cases hc
  have hboth := hrun.invariant (P := fun s => s.Sound ∧ s.Owning) ⟨sound_initial, hstart⟩
    fun _ _ _ hs hstep => ⟨(step_sound_live hs.1 hstep).1, hs.2.moves hs.1 (hstep.moves hs.1)⟩
  exact hboth.2

end owning

/-! ## The first players -/

/-- Under a new name a client gets the first slot that is free. -/
theorem enterWorld_new {t s : Server} (ht : t.Sound) {c : ClientId} {client : Client}
    {cipher : ISAACCipher} (hc : t.clients c = some client) (hstage : client.stage = .loggingIn)
    (he : client.encryptor = some cipher) {username : Name}
    (hname : t.world.players.lookup username = none) {k : Fin maxPlayers}
    (hk : t.world.occupiedIndices k = false)
    (henter : LoginHandler.enterWorld t c username = .ok s) : ∃ index new, index ≤ k ∧
      s = t.register (LoginHandler.enteredPlayer c username index) c new username index := by
  have hnot : client.stage ≠ .loggedIn := by
    rw [hstage]
    decide
  have hresponse : LoginHandler.response t c username ≠ LoginResponse.accountOnline := by
    rw [LoginHandler.response_eq ht hc hnot, if_pos hname]
    decide
  cases hslot : World.getFreeIndex t.world with
  | none => cases hk.symm.trans (World.getFreeIndex_eq_none.mp hslot k)
  | some slot =>
      obtain ⟨index, w⟩ := slot
      obtain ⟨-, rfl⟩ := World.getFreeIndex_some hslot
      rw [LoginHandler.enterWorld_entered hc he hresponse hslot] at henter
      obtain rfl := Except.ok.inj henter
      refine ⟨index, (LoginHandler.admitted client username
        (LoginHandler.response t c username) t.nextPlayer).pushFrames cipher
          (Player.loginFrames { x := 3200, y := 3200 }), ?_, ?_⟩
      · by_contra hlater
        cases hk.symm.trans (World.getFreeIndex_first hslot (lt_of_not_ge hlater))
      · simp only [LoginHandler.entered, LoginHandler.withPlayer, Server.register,
          Server.newPlayer, Server.setClient, Server.setPlayer, Function.update_idem]
        rfl

/-- A client connects and logs in under a new name, without a tick. -/
theorem exists_newcomer {s : Server} (h : Reachable Step initial s) {c : ClientId}
    (hc : s.Unused c) {username : Name} (hname : 10 ∉ username) (hlen : username.length ≤ 400)
    (hnew : s.world.players.lookup username = none) {k : Fin maxPlayers}
    (hk : s.world.occupiedIndices k = false) : ∃ more t index new,
      Run Step s more
        (t.register (LoginHandler.enteredPlayer c username index) c new username index) ∧
      (∀ u ∈ more, u.label ≠ .tick) ∧ SameBut s t c ∧ index ≤ k := by
  obtain ⟨more, t, client, cipher, s', hrun, hquiet, ht, hsame, hclient, hstage, he, -, henter⟩ :=
    exists_login_run h hc hname hlen
  obtain ⟨index, new, hindex, rfl⟩ := enterWorld_new ht hclient hstage he
    (hsame.world ▸ hnew) (hsame.world ▸ hk) henter
  exact ⟨more, t, index, new, hrun, fun u hu => (hquiet u hu).1, hsame, hindex⟩

/-- The first client logs in, before any tick. -/
theorem exists_firstNewcomer : ∃ trace t index new,
    Run Step initial trace
      (t.register (LoginHandler.enteredPlayer 0 [97] index) 0 new [97] index) ∧
    (∀ u ∈ trace, u.label ≠ .tick) ∧ SameBut initial t 0 ∧ index ≤ ⟨0, by decide⟩ :=
  exists_newcomer (.start Step initial) ⟨rfl, fun p hp => absurd hp (Nat.not_lt_zero p)⟩
    (by decide) (by decide) rfl rfl

/-- Two clients have logged in, and nothing else has happened. -/
structure Couple (trace : List (Taken Server Event)) (s : Server) (i j : Fin maxPlayers) :
    Prop where
  run : Run Step initial trace s
  quiet : ∀ t ∈ trace, t.label ≠ .tick
  slots : i.val = 0 ∧ j.val ≤ 1
  registered : s.registered = [1, 0]
  players : s.players = Function.update
    (Function.update initial.players 0 (LoginHandler.enteredPlayer 0 [97] i)) 1
    (LoginHandler.enteredPlayer 1 [98] j)

theorem exists_couple : ∃ trace s i j, Couple trace s i j := by
  obtain ⟨trace, t, i, new, hrun, hquiet, hsame, hi⟩ := exists_firstNewcomer
  have hnext : t.nextPlayer = 0 := hsame.nextPlayer
  have hplayers : (t.register (LoginHandler.enteredPlayer 0 [97] i) 0 new [97] i).players =
      Function.update initial.players 0 (LoginHandler.enteredPlayer 0 [97] i) := by
    rw [register_players, ← hsame.players, ← hnext]
    rfl
  have hworld : (t.register (LoginHandler.enteredPlayer 0 [97] i) 0 new [97] i).world =
      (occupy initial.world i).insertPlayer [97] 0 := by
    rw [← hsame.world, ← hnext]
    rfl
  have hafter : (t.register (LoginHandler.enteredPlayer 0 [97] i) 0 new [97] i).nextPlayer = 1 :=
    congrArg (· + 1) hnext
  have hunused :
      (t.register (LoginHandler.enteredPlayer 0 [97] i) 0 new [97] i).Unused 1 := by
    refine ⟨(setClient_clients_of_ne _ _ (by decide)).trans (hsame.clients 1 (by decide)), ?_⟩
    intro p hp
    rw [hafter, Nat.lt_one_iff] at hp
    rw [hplayers, hp, Function.update_self]
    exact Nat.zero_ne_one
  generalize t.register (LoginHandler.enteredPlayer 0 [97] i) 0 new [97] i = s
    at hrun hplayers hworld hafter hunused
  have hfree : s.world.occupiedIndices ⟨1, by decide⟩ = false := by
    rw [hworld]
    exact Function.update_of_ne (fun h => absurd (h ▸ hi) (by decide)) _ _
  have hname : s.world.players.lookup [98] = none := by
    rw [hworld]
    exact AList.lookup_insert_ne (by decide)
  obtain ⟨more, t', j, new', hrun', hquiet', hsame', hj⟩ :=
    exists_newcomer ⟨trace, hrun⟩ hunused (by decide) (by decide) hname hfree
  have hnext' : t'.nextPlayer = 1 := hsame'.nextPlayer.trans hafter
  refine ⟨trace ++ more, _, i, j, hrun.append hrun', List.forall_mem_append.mpr ⟨hquiet, hquiet'⟩,
    ⟨Nat.le_zero.mp hi, hj⟩, ?_, ?_⟩
  · change ((occupy t'.world j).insertPlayer [98] t'.nextPlayer).players.entries.map
      Sigma.snd = _
    rw [hsame'.world, hworld, hnext']
    rfl
  · rw [register_players, ← hplayers, ← hsame'.players, ← hnext']
    rfl

theorem Couple.newcomers {trace : List (Taken Server Event)} {s : Server} {i j : Fin maxPlayers}
    (h : Couple trace s i j) : s.players 0 = LoginHandler.enteredPlayer 0 [97] i ∧
      s.players 1 = LoginHandler.enteredPlayer 1 [98] j := by
  rw [h.players]
  exact ⟨rfl, rfl⟩

/-! ## Newcomers -/

/-- The client is logged in, with a registered player on the first tile and few reads behind it. -/
structure Fresh (s : Server) (c : ClientId) (client : Client) (p : PlayerId) : Prop where
  found : s.clients c = some client
  stage : client.stage = .loggedIn
  player : client.player = some p
  registered : p ∈ s.registered
  position : (s.players p).position = { x := 3200, y := 3200 }
  few : client.packetsThisSecond ≤ 2

/-- The client that has just entered is fresh. -/
theorem exists_fresh_entered {t : Server} {c : ClientId} {client : Client} {cipher : ISAACCipher}
    {username : Name} (he : client.encryptor = some cipher) (hfew : client.packetsThisSecond ≤ 2)
    (index : Fin maxPlayers) : ∃ new,
      (t.register (LoginHandler.enteredPlayer c username index) c
        ((LoginHandler.admitted client username LoginResponse.ok t.nextPlayer).pushFrames cipher
          (Player.loginFrames { x := 3200, y := 3200 })) username index).Fresh c new
        t.nextPlayer := by
  have hadmitted : (LoginHandler.admitted client username LoginResponse.ok
      t.nextPlayer).encryptor = some cipher := he
  have hquiet := World.quietClient_pushFrames hadmitted
    (Player.loginFrames { x := 3200, y := 3200 })
  have hnew : (t.newPlayer (LoginHandler.enteredPlayer c username index)).players t.nextPlayer =
      LoginHandler.enteredPlayer c username index := setPlayer_players_self ..
  refine ⟨_, setClient_clients_self .., hquiet.stage, hquiet.player,
    mem_registered_of_lookup (AList.lookup_insert ..), congrArg Player.position hnew, ?_⟩
  rw [Client.pushFrames_eq _ cipher _ hadmitted]
  exact hfew

/-- The others stay so when somebody enters. -/
theorem Fresh.register {s t : Server} {c d : ClientId} {client : Client} {p : PlayerId}
    (h : s.Fresh d client p) (hs : s.Sound) (hsame : SameBut s t c) (hne : d ≠ c) {username : Name}
    (hname : t.world.players.lookup username = none) (player : Player) (new : Client)
    (index : Fin maxPlayers) : (t.register player c new username index).Fresh d client p := by
  obtain ⟨name, hold⟩ := lookup_of_mem_registered h.registered
  have hlt := (hs.players name p hold).fresh
  refine { h with found := ?_, registered := ?_, position := ?_ }
  · exact (setClient_clients_of_ne _ _ hne).trans ((hsame.clients d hne).trans h.found)
  · exact mem_registered_of_lookup (lookup_register_old hname (hsame.world ▸ hold))
  · rw [register_players, newPlayer_players _ (hsame.nextPlayer.symm ▸ hlt), hsame.players]
    exact h.position

theorem exists_fresh (n : Nat) (hn : n ≤ 2048) :
    ∃ s, Filled n s ∧ ∀ c < n, ∃ client p, s.Fresh c client p := by
  induction n with
  | zero => exact ⟨initial, filled_zero, fun c hc => absurd hc (Nat.not_lt_zero c)⟩
  | succ n ih =>
      obtain ⟨s, hs, hfresh⟩ := ih (by omega)
      obtain ⟨more, t, client, cipher, s', hmore, -, ht, hsame, hc, hstage, he, -, hfew, -,
        henter⟩ := exists_login_counted hs.reachable (hs.unused n (Nat.le_refl n))
          (newline_notMem_nthName (Nat.le_of_lt hn)) (by simp [nthName])
      have hnot : client.stage ≠ .loggedIn := by
        rw [hstage]
        decide
      obtain ⟨_, henter', houtcome⟩ := LoginHandler.enterWorld_outcome ht hc hnot he (nthName n)
      obtain rfl := Except.ok.inj (henter.symm.trans henter')
      have hfilled := hs.entered hn (hs.reachable.trans ⟨more, hmore⟩) hsame houtcome
      refine ⟨s', hfilled, fun d hd => ?_⟩
      -- a login that takes no slot would leave one too few taken
      have htaken (hworld : s'.world.occupiedIndices = t.world.occupiedIndices) : False := by
        have hcard := hfilled.taken
        rw [hworld, hsame.world, hs.taken] at hcard
        exact absurd hcard (Nat.ne_of_lt (Nat.lt_succ_self n))
      cases houtcome with
      | refused _ => exact (htaken rfl).elim
      | full _ _ => exact (htaken rfl).elim
      | @entered index hname _ =>
          by_cases hdn : d = n
          · subst hdn
            obtain ⟨new, hnew⟩ := exists_fresh_entered he hfew index
            exact ⟨new, t.nextPlayer, hnew⟩
          · obtain ⟨other, p, hother⟩ := hfresh d (by omega)
            exact ⟨other, p, hother.register (reachable_sound hs.reachable) hsame hdn hname ..⟩

/-! ## Counts -/

/-- How many of the slots are taken. -/
def occupiedCount (w : World) : Nat := (Finset.univ.filter fun i => w.occupiedIndices i = true).card

theorem getFreeIndex_eq_none_iff_card {w : World} :
    World.getFreeIndex w = none ↔ occupiedCount w = maxPlayers := by
  have hall : occupiedCount w = maxPlayers ↔ occupiedCount w =
      (Finset.univ : Finset (Fin maxPlayers)).card := by rw [Finset.card_fin]
  rw [World.getFreeIndex_eq_none, hall, occupiedCount, Finset.card_filter_eq_iff]
  exact ⟨fun h i _ => h i, fun h i => h i (Finset.mem_univ i)⟩

/-- Every registered player has a slot of its own, and nobody else has one. -/
theorem Sound.occupiedCount_eq {s : Server} (h : s.Sound) :
    occupiedCount s.world = s.registered.length := by
  have hslots : (s.registered.map fun p => (s.players p).index).Nodup :=
    h.registered_nodup.map_on h.slots
  have himage : (Finset.univ.filter fun i => s.world.occupiedIndices i = true).image
      (fun i => (i.val : Int)) = (s.registered.map fun p => (s.players p).index).toFinset := by
    ext index
    simp only [Finset.mem_image, Finset.mem_filter, Finset.mem_univ, true_and, List.mem_toFinset,
      List.mem_map]
    refine ⟨fun ⟨i, hi, heq⟩ => ?_, fun ⟨p, hp, heq⟩ => ?_⟩
    · obtain ⟨p, hp, hindex⟩ := h.occupied i hi
      exact ⟨p, hp, hindex.trans heq⟩
    · obtain ⟨name, hname⟩ := lookup_of_mem_registered hp
      obtain ⟨i, hindex, hi⟩ := (h.players name p hname).slot
      exact ⟨i, hi, hindex.symm.trans heq⟩
  have hinjective : Function.Injective fun i : Fin maxPlayers => (i.val : Int) :=
    fun i j hij => Fin.ext (Int.ofNat_inj.mp hij)
  rw [occupiedCount, ← Finset.card_image_of_injective _ hinjective, himage,
    List.toFinset_card_of_nodup hslots, List.length_map]

/-- Every registered player has a session of its own. -/
theorem Attended.registered_le {s : Server} (h : s.Attended) (hs : s.Sound) :
    s.registered.length ≤ s.sessions.length := by
  have howners : (s.registered.map fun p => (s.players p).client).Nodup :=
    hs.registered_nodup.map_on fun p hp q hq => hs.client_injective hp hq
  have hsubset : (s.registered.map fun p => (s.players p).client) ⊆ s.sessions := by
    intro c hc
    obtain ⟨p, hp, rfl⟩ := List.mem_map.mp hc
    obtain ⟨client, _, hclient, hstage, -⟩ := hs.client_of_registered hp
    have hconnected := hs.connected hclient (by rw [hstage]; decide)
    exact (h.sessions _).mpr (living_eq_some.mpr ⟨client, hclient, hconnected⟩)
  have hlength := (howners.subperm hsubset).length_le
  rw [List.length_map] at hlength
  exact hlength

/-- In every state of a run the sessions are the clients that are not disconnected, there are no
more players than sessions, and the world has no slot left only when it is full of players. -/
theorem reachable_population {s : Server} (h : Reachable Step initial s) :
    s.sessions.Nodup ∧
    (∀ c, c ∈ s.sessions ↔ ∃ client, s.clients c = some client ∧ client.disconnected = false) ∧
    s.registered.length ≤ s.sessions.length ∧
    (World.getFreeIndex s.world = none ↔ s.registered.length = maxPlayers) := by
  have hattended := reachable_attended h
  have hs := reachable_sound h
  refine ⟨hattended.nodup, fun c => ?_, hattended.registered_le hs, ?_⟩
  · rw [hattended.sessions, living_eq_some]
    rfl
  · rw [getFreeIndex_eq_none_iff_card, hs.occupiedCount_eq]

/-- The session of a client that is logged in. -/
theorem reachable_population_login : ∃ (s : Server) (client : Client), s.clients 0 = some client ∧
    client.stage = .loggedIn ∧ 0 ∈ s.sessions := by
  obtain ⟨trace, s, client, hrun, hc, hstage⟩ := exists_loggedIn
  have h : Reachable Step initial s := ⟨trace, hrun⟩
  obtain ⟨-, hsessions, -⟩ := reachable_population h
  have hconnected := (reachable_sound h).connected hc (by rw [hstage]; decide)
  exact ⟨s, client, hc, hstage, (hsessions 0).mpr ⟨client, hc, hconnected⟩⟩

end Server
end AsioRsps
