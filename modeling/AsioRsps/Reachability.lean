import Mathlib.Data.Fintype.Card
import AsioRsps.LabelledRuns
import AsioRsps.Tick
import AsioRsps.Turns

/-!
# Every run of the server

The server as a transition system: connections come, send, are written to and go, the world
ticks, and the map of the players may be reordered, in any order and for any number of
clients. In all the states of a run a logged-in client has a live, registered player exactly
when no login of the run is granted while the world is full.
-/
namespace AsioRsps
open BitStrings (Byte)
open StreamBuffer LabelledRuns
open FallibleLoop (bind_eq_ok)

namespace Server

inductive Event where
  | accept (c : ClientId)
  | receive (c : ClientId) (now gen : Int) (data : List Byte)
  | readFailed (c : ClientId)
  | runPosted (c : ClientId)
  | written (c : ClientId)
  | writeFailed (c : ClientId)
  | destroy (c : ClientId)
  | tick
  | reorder

/-- A handler that throws or does not return takes no step. -/
inductive Step : Server → Event → Server → Prop where
  | accept {s : Server} {c : ClientId} : s.Unused c → Step s (.accept c) (s.accept c)
  | receive {s : Server} {c : ClientId} {now gen : Int} {data : List Byte} {fuel : Nat}
      {st : Client.Incoming} : data ≠ [] → data.length ≤ 512 →
      Client.readIncomingData fuel s c now gen data = some (.ok st) →
      Step s (.receive c now gen data) st.server
  | readFailed {s s' : Server} {c : ClientId} : Client.disconnect s c = .ok s' →
      Step s (.readFailed c) s'
  | runPosted {s s' : Server} {c : ClientId} : Client.runPosted s c = .ok s' →
      Step s (.runPosted c) s'
  | written {s s' : Server} {c : ClientId} {client : Client} : s.clients c = some client →
      client.outstanding ≠ [] → Client.written s c = .ok s' → Step s (.written c) s'
  | writeFailed {s s' : Server} {c : ClientId} {client : Client} : s.clients c = some client →
      client.outstanding ≠ [] → Client.writeFailed s c = .ok s' → Step s (.writeFailed c) s'
  | destroy {s : Server} {c : ClientId} {client : Client} : s.clients c = some client →
      client.disconnected = true → client.strand = [] → client.outstanding = [] →
      Step s (.destroy c) (s.destroyClient c)
  | tick {s s' : Server} : World.process s = .ok s' → Step s .tick s'
  | reorder {s : Server} {players : AList fun _ : Name => PlayerId} :
      players.entries.Perm s.world.players.entries →
      Step s .reorder { s with world := { s.world with players } }

/-- What is expected of a logged-in client. -/
structure Playing (s : Server) (c : ClientId) (client : Client) : Prop where
  encryptor : client.encryptor.isSome = true
  decryptor : client.decryptor.isSome = true
  player : ∃ p, s.lockPlayer client.player = some p ∧
    s.world.players.lookup client.username = some p ∧
    0 ≤ (s.players p).index ∧ (s.players p).index ≤ 2047
  handlePacket : ∀ (packetOpcode packetLength : Int) (inStream : StreamBuffer),
    inStream.exec (Client.handlePacket s c packetOpcode packetLength) ≠ .error .nullPointer
  read : ∀ fuel now gen data,
    Client.readIncomingData fuel s c now gen data ≠ some (.error .nullPointer)

def AllPlaying (s : Server) : Prop :=
  ∀ c client, s.clients c = some client → client.stage = .loggedIn → s.Playing c client

/-- The event is not a login that is granted while every slot is taken. -/
def HasRoom (s : Server) : Event → Prop
  | .receive c now _ data => ∀ client name, s.clients c = some client →
      client.stage = .loggingIn → (Client.countPacket client now).2 = false →
      LoginHandler.loginName data = some name → s.world.players.lookup name = none →
      ∃ i, s.world.occupiedIndices i = false
  | _ => True

/-! ## Logged-in clients -/

/-- Every logged-in client has a registered player. -/
def Live (s : Server) : Prop :=
  ∀ c client, s.clients c = some client → client.stage = .loggedIn →
    ∃ p, client.player = some p ∧ s.Registered c client p

theorem Live.allPlaying {s : Server} (h : s.Sound) (hl : s.Live) : s.AllPlaying := by
  intro c client hc hstage
  obtain ⟨p, hplayer, hr⟩ := hl c client hc hstage
  obtain ⟨_, -, -, he, hdec, -⟩ := (h.clients c client hc).session hstage
  obtain ⟨i, hi, -⟩ := (h.players _ p hr.lookup).slot
  have hp := mem_registered_of_lookup hr.lookup
  have hlock : s.lockPlayer client.player = some p := by
    rw [hplayer]
    exact lockPlayer_of_registered hp
  refine ⟨he, hdec, ⟨p, hlock, hr.lookup, ?_⟩, ?_, ?_⟩
  · rw [hi]
    have hlt : i.val < 2048 := i.isLt
    omega
  · exact fun packetOpcode packetLength =>
      Client.neverNull_handlePacket hc hlock packetOpcode packetLength
  · exact Client.readIncomingData_neverNull h hc ⟨client, p, hc, hstage, hdec, hplayer, hp⟩

theorem AllPlaying.live {s : Server} (h : s.Sound) (ha : s.AllPlaying) : s.Live := by
  intro c client hc hstage
  obtain ⟨p, hlock, -⟩ := (ha c client hc hstage).player
  have hd : client.disconnected = false := h.connected hc (by rw [hstage]; decide)
  obtain ⟨-, hplayer, hr⟩ := Client.registered_of_lockPlayer h hc hd hlock
  exact ⟨p, hplayer, hr⟩

theorem Live.quiet {s s' : Server} (h : s.Live) (hq : s.Quiet s') : s'.Live := by
  intro c client' hc' hstage
  obtain ⟨client, hc, hclient⟩ := hq.client_before hc'
  obtain ⟨p, hplayer, hr⟩ := h c client hc (hclient.stage ▸ hstage)
  exact ⟨p, hclient.player.trans hplayer, hq.registered hclient hr⟩

/-- A client that is not logged in may be put in the place of any. -/
theorem Live.setClient {s : Server} (h : s.Live) (c : ClientId) {new : Client}
    (hnew : new.stage ≠ .loggedIn) : (s.setClient c new).Live := by
  intro d client hd hstage
  by_cases hdc : d = c
  · subst hdc
    obtain rfl := Option.some.inj ((setClient_clients_self ..).symm.trans hd)
    exact absurd hstage hnew
  · rw [setClient_clients_of_ne s new hdc] at hd
    obtain ⟨p, hplayer, hr⟩ := h d client hd hstage
    exact ⟨p, hplayer, hr.owner, hr.lookup⟩

theorem Live.destroyClient {s : Server} (h : s.Live) (c : ClientId) : (s.destroyClient c).Live := by
  intro d client hd hstage
  have hdc : d ≠ c := by
    rintro rfl
    rw [destroyClient_self] at hd
    cases hd
  rw [destroyClient_of_ne s hdc] at hd
  obtain ⟨p, hplayer, hr⟩ := h d client hd hstage
  exact ⟨p, hplayer, hr.owner, hr.lookup⟩

theorem Live.departure {s s' : Server} (h : s.Live) {c : ClientId} {client : Client}
    (hd : Client.Departure s c client s') : s'.Live := by
  have hclosed : client.closed.stage ≠ .loggedIn := nofun
  cases hd with
  | again _ => exact h
  | absent _ _ =>
      have hsessions : Live { s with sessions := s.sessions.erase c } := fun d other hother hs => by
        obtain ⟨p, hplayer, hr⟩ := h d other hother hs
        exact ⟨p, hplayer, hr.owner, hr.lookup⟩
      exact hsessions.setClient c hclosed
  | @present p index _ _ _ hr _ =>
      intro d other hother hs
      by_cases hdc : d = c
      · subst hdc
        obtain rfl := Option.some.inj ((setClient_clients_self ..).symm.trans hother)
        exact absurd hs hclosed
      · have hother' : s.clients d = some other :=
          (setClient_clients_of_ne _ _ hdc).symm.trans hother
        obtain ⟨q, hq, hr'⟩ := h d other hother' hs
        refine ⟨q, hq, hr'.owner, ?_⟩
        exact (AList.lookup_erase_ne (hr'.username_ne hr hdc)).trans hr'.lookup

/-! ## Logins -/

/-- A login is granted a live player unless the world is full. -/
theorem Live.outcome {s s' : Server} (hs : s.Sound) (h : s.Live) {c : ClientId} {client : Client}
    {cipher : ISAACCipher} {username : Name} (hc : s.clients c = some client)
    (hstage : client.stage = .loggingIn) (he : client.encryptor = some cipher)
    (hdec : client.decryptor.isSome = true)
    (ho : LoginHandler.Outcome s c client cipher username s') :
    s'.Live ↔ (s.world.players.lookup username = none →
      ∃ i, s.world.occupiedIndices i = false) := by
  cases ho with
  | refused hname =>
      refine ⟨fun _ hnone => ?_, fun _ => h.setClient c ?_⟩
      · rw [hname] at hnone
        cases hnone
      · change client.stage ≠ .loggedIn
        rw [hstage]
        decide
  | full hname hfull =>
      constructor
      · intro hlive
        obtain ⟨p, -, hr⟩ := hlive c _ (setClient_clients_self ..) rfl
        have hlookup : s.world.players.lookup username = some p := hr.lookup
        rw [hname] at hlookup
        cases hlookup
      · intro hroom
        obtain ⟨i, hi⟩ := hroom hname
        rw [hfull i] at hi
        cases hi
  | @entered index hname hfree =>
      refine ⟨fun _ _ => ⟨index, hfree⟩, fun _ => ?_⟩
      intro d other hother hother'
      by_cases hdc : d = c
      · subst hdc
        obtain rfl := Option.some.inj ((setClient_clients_self ..).symm.trans hother)
        have hd := hs.connected hc (by rw [hstage]; decide)
        have hjoins : Joins _ username s.nextPlayer := LoginHandler.joins_entered
          (Player.loginFrames { x := 3200, y := 3200 }) hd he hdec
        exact ⟨s.nextPlayer, hjoins.player, registered_register rfl hjoins.username⟩
      · have hd : s.clients d = some other := (setClient_clients_of_ne _ _ hdc).symm.trans hother
        obtain ⟨p, hp, hr⟩ := h d other hd hother'
        refine ⟨p, hp, ?_, lookup_register_old hname hr.lookup⟩
        rw [register_players, newPlayer_players _ (hs.fresh_of_registered
          (mem_registered_of_lookup hr.lookup))]
        exact hr.owner

/-! ## Steps -/

/-- A change after which the sessions are as sound and as live as before. -/
structure Keeps (s s' : Server) : Prop where
  sound : s.Sound → s'.Sound
  live : s.Sound → s.Live → s'.Live

theorem Keeps.trans {s t u : Server} (h : s.Keeps t) (h' : t.Keeps u) : s.Keeps u where
  sound hs := h'.sound (h.sound hs)
  live hs hl := h'.live (h.sound hs) (h.live hs hl)

theorem Quiet.keeps {s s' : Server} (h : s.Quiet s') : s.Keeps s' where
  sound hs := hs.quiet h
  live _ hl := hl.quiet h

theorem keeps_disconnect {s s' : Server} {c : ClientId}
    (hrun : Client.disconnect s c = .ok s') : s.Keeps s' := by
  obtain ⟨client, hc, -⟩ := bind_eq_ok.mp hrun
  have hdeparture (hs : s.Sound) : Client.Departure s c client s' :=
    Client.departure_of_disconnect hs (clients_of_lockClient hc) hrun
  exact ⟨fun hs => (hdeparture hs).sound hs (clients_of_lockClient hc),
    fun hs hl => hl.departure (hdeparture hs)⟩

theorem Closing.keeps {s s' : Server} {c : ClientId} (h : Closing c s s') : s.Keeps s' := by
  cases h with
  | quiet h => exact h.keeps
  | leaves h _ _ hrun h' => exact (h.keeps.trans (keeps_disconnect hrun)).trans h'.keeps

/-- A client that is not logged in is replaced by one that is not logged in either. -/
theorem keeps_setClient_early {s : Server} {c : ClientId} {old new : Client}
    (hc : s.clients c = some old) (hold : old.stage ≠ .loggedIn) (hnew : new.stage ≠ .loggedIn)
    (hsound : s.Sound → s.ClientSound c new) : s.Keeps (s.setClient c new) where
  sound hs := hs.setClient_idle hc hold (hsound hs)
  live _ hl := hl.setClient c hnew

theorem keeps_accept {s : Server} {c : ClientId} (hc : s.Unused c) : s.Keeps (s.accept c) where
  sound hs := hs.accept hc
  live _ hl := by
    intro d client hd hstage
    have hconnected : Client.stage {} ≠ .loggedIn := nofun
    obtain ⟨p, hplayer, hr⟩ := hl.setClient c hconnected d client hd hstage
    exact ⟨p, hplayer, hr.owner, hr.lookup⟩

/-! ### Reads -/

/-- The answer to the handshake keeps the sessions. -/
theorem keeps_handshake {s : Server} {c : ClientId} {client : Client} {bytes : List Byte}
    (hc : s.clients c = some client) (hstage : client.stage = .connected) :
    s.Keeps (s.setClient c { client with
      strand := client.strand ++ [.push bytes], stage := .loggingIn }) := by
  refine keeps_setClient_early hc (by rw [hstage]; decide) nofun fun hs => ?_
  have hplayer := (hs.clients c client hc).early (.inl hstage)
  have hd := hs.connected hc (by rw [hstage]; decide)
  refine ⟨fun _ => hplayer, ⟨fun hdis => ?_, fun hout => ?_⟩, fun hin => ?_⟩
  · exact absurd (hd.symm.trans hdis) (by decide)
  · cases hout
  · cases hin

theorem Turn.sound_live {s : Server} {c : ClientId} {client : Client} {now : Int} (gen : Int)
    {data : List Byte} {s' : Server} (hs : s.Sound) (hc : s.clients c = some client)
    (h : Turn s c client now data s') :
    s'.Sound ∧ (s.Live → (s'.Live ↔ s.HasRoom (.receive c now gen data))) := by
  -- every outcome but a login that is granted keeps the sessions
  have hother (hkeeps : s.Keeps s') (hroom : s.HasRoom (.receive c now gen data)) :
      s'.Sound ∧ (s.Live → (s'.Live ↔ s.HasRoom (.receive c now gen data))) :=
    ⟨hkeeps.sound hs, fun hl => ⟨fun _ => hroom, fun _ => hkeeps.live hs hl⟩⟩
  cases h with
  | closing hclosing hnone =>
      refine hother hclosing.keeps ?_
      intro client' name hc' hstage hflood hname
      obtain rfl := Option.some.inj (hc.symm.trans hc')
      rw [hnone hstage hflood] at hname
      cases hname
  | handshake hstage hq hc' hstage' =>
      refine hother (hq.keeps.trans (keeps_handshake hc' hstage')) ?_
      intro found name hfound hearly
      obtain rfl := Option.some.inj (hc.symm.trans hfound)
      exact absurd (hstage.symm.trans hearly) (by decide)
  | @login t _ client' cipher username hstage hflood hname hq hc' hstage' he hdec ho =>
      have ht := hs.quiet hq
      refine ⟨ho.sound ht hc' hstage' he hdec, fun hl => ?_⟩
      rw [(hl.quiet hq).outcome ht hc' hstage' he hdec ho, hq.lookup, hq.occupied]
      constructor
      · intro hroom found name hfound _ _ hsome hnone
        obtain rfl := Option.some.inj (hname.symm.trans hsome)
        exact hroom hnone
      · intro hroom hnone
        exact hroom client username hc hstage hflood hname hnone

/-- A step keeps the sessions sound, and keeps them live unless it is a login that is granted
while the world is full. -/
theorem step_sound_live {s s' : Server} {e : Event} (hs : s.Sound) (h : Step s e s') :
    s'.Sound ∧ (s.Live → (s'.Live ↔ s.HasRoom e)) := by
  have hkeep (hkeeps : s.Keeps s') (hroom : s.HasRoom e) :
      s'.Sound ∧ (s.Live → (s'.Live ↔ s.HasRoom e)) :=
    ⟨hkeeps.sound hs, fun hl => ⟨fun _ => hroom, fun _ => hkeeps.live hs hl⟩⟩
  cases h with
  | accept hc => exact hkeep (keeps_accept hc) trivial
  | @receive c now gen data fuel st hdata _ hrun =>
      obtain ⟨client, hc⟩ := Client.exists_reader hrun
      have hturn := turn_of_read hs hc (Client.readIncomingData_outcome hc hdata hrun)
      exact hturn.sound_live gen hs hc
  | readFailed hrun => exact hkeep (keeps_disconnect hrun) trivial
  | runPosted hrun => exact hkeep (closing_runPosted hrun).keeps trivial
  | written _ _ hrun => exact hkeep (closing_written hrun).keeps trivial
  | writeFailed _ _ hrun => exact hkeep (closing_writeFailed hrun).keeps trivial
  | destroy hc hd _ _ =>
      exact hkeep ⟨fun hs => hs.destroyClient hc hd, fun _ hl => hl.destroyClient _⟩ trivial
  | tick hrun => exact hkeep (World.quiet_process hs hrun).keeps trivial
  | reorder hperm => exact hkeep (quiet_reorder hperm).keeps trivial

/-- Along a run, logged-in clients have live, registered players exactly as long as no login
is granted while the world is full. -/
theorem run_allPlaying_iff {trace : List (Taken Server Event)} {s : Server}
    (h : Run Step initial trace s) :
    (∀ t ∈ trace, t.after.AllPlaying) ↔ ∀ t ∈ trace, t.before.HasRoom t.label := by
  have hlive : initial.Live := fun _ _ hc => (nomatch hc)
  have hallPlaying {t : Server} (ht : t.Sound) : t.AllPlaying ↔ t.Live :=
    ⟨fun ha => ha.live ht, fun hl => hl.allPlaying ht⟩
  refine h.holds_iff sound_initial (hlive.allPlaying sound_initial)
    (fun _ _ _ hs hstep => (step_sound_live hs hstep).1) fun s e s' hs ha hstep => ?_
  obtain ⟨hs', hiff⟩ := step_sound_live hs hstep
  rw [hallPlaying hs']
  exact hiff (ha.live hs)

theorem reachable_sound {s : Server} (h : Reachable Step initial s) : s.Sound := by
  obtain ⟨trace, hrun⟩ := h
  exact hrun.invariant sound_initial fun _ _ _ hs hstep => (step_sound_live hs hstep).1

/-! ## A client that logs in -/

/-- A read of a client that is not logged in is one call of the login handler. -/
theorem readIncomingData_login {s s' : Server} {c : ClientId} {client : Client} {now gen : Int}
    {data : List Byte} {b : StreamBuffer} (hc : s.clients c = some client)
    (hstage : client.stage ≠ .loggedIn) (hflood : (Client.countPacket client now).2 = false)
    (hdata : data ≠ []) (h : (ofData data).exec
      (LoginHandler.process (Client.counted s c client now) c gen) = .ok (s', b)) :
    ∃ st, Client.readIncomingData 1 s c now gen data = some (.ok st) ∧ st.server = s' ∧
      st.effects = [] := by
  have hstage₁ : (Client.countPacket client now).1.stage ≠ .loggedIn := by
    rw [(Client.quietClient_countPacket client now).stage]
    exact hstage
  have hmore : (ofData data).hasRemaining = true := by
    rw [hasRemaining_iff]
    exact hdata
  have hiteration : Client.packetIteration c gen
      { server := Client.counted s c client now, inStream := ofData data } =
      .ok (.done { server := s', inStream := b }) := by
    simp only [Client.packetIteration, hmore, if_true, Client.counted,
      lockClient_eq (setClient_clients_self ..), bind, Except.bind, ne_eq, hstage₁,
      not_false_eq_true]
    simp only [Client.counted] at h
    rw [h]
    rfl
  refine ⟨{ server := s', inStream := { b with buffer := [], pos := 0 } }, ?_, rfl, rfl⟩
  simp only [Client.counted] at hiteration
  simp only [Client.readIncomingData, Client.handleIncomingData, hc, hflood, Bool.false_eq_true,
    if_false, FallibleLoop.run, hiteration]
  rfl

/-- A client that has sent little does not flood. -/
theorem countPacket_calm {client : Client} (h : client.packetsThisSecond < 100) (now : Int) :
    (Client.countPacket client now).2 = false ∧
      (Client.countPacket client now).1.packetsThisSecond ≤ client.packetsThisSecond + 1 := by
  have hcount := Client.countPacket_count client now
  have hflood : (Client.countPacket client now).2 = decide
      ((Client.countPacket client now).1.packetsThisSecond > maxPacketsPerSecond) := rfl
  rw [hflood, decide_eq_false_iff_not, maxPacketsPerSecond]
  omega

/-- The request of the connected stage, whatever the name hash behind it. -/
theorem exec_handshake {s : Server} {c : ClientId} {client : Client}
    (hc : s.clients c = some client) (nameHash : Byte) (gen : Int) : ∃ bytes b',
    (ofData [14, nameHash]).exec (LoginHandler.handleConnectedStage s c gen) =
      .ok (s.setClient c
        { client with strand := client.strand ++ [.push bytes], stage := .loggingIn }, b') := by
  obtain ⟨out, bytes, hreply, hout⟩ := LoginHandler.exec_connectedReply gen
  refine ⟨bytes, (ofData [14, nameHash]).skip 2, ?_⟩
  have hsend := Client.send_ok hc hout
  simp only [exec]
  rw [LoginHandler.handleConnectedStage, get_bind, if_neg (by simp [remaining, ofData]),
    bind_ok (readByte_cons (rest_ofData [14, nameHash]) true .standard),
    bind_ok (readByte_cons rfl true .standard), skip_skip, toByte_readValue, if_neg (by decide)]
  rw [hreply, lift_ok, pure_bind]
  simp only [hsend, lift_ok, pure_bind, modifyClient_eq (setClient_clients_self ..),
    setClient_setClient]
  rfl

/-- Two servers that differ in one client at most. -/
structure SameBut (s t : Server) (c : ClientId) : Prop where
  players : t.players = s.players
  nextPlayer : t.nextPlayer = s.nextPlayer
  world : t.world = s.world
  clients : ∀ d, d ≠ c → t.clients d = s.clients d

theorem SameBut.setClient {s t : Server} {c : ClientId} (h : SameBut s t c) (client : Client) :
    SameBut s (t.setClient c client) c where
  players := h.players
  nextPlayer := h.nextPlayer
  world := h.world
  clients d hd := (setClient_clients_of_ne t client hd).trans (h.clients d hd)

/-- Nothing has been written to the client, and this is what its strand has to do. -/
structure Unwritten (client : Client) (posted : List Posted) : Prop where
  writing : client.writing = false
  writeQueue : client.writeQueue = []
  asyncWrites : client.asyncWrites = []
  strand : client.strand = posted

theorem unwritten_countPacket {client : Client} {posted : List Posted}
    (h : Unwritten client posted) (now : Int) :
    Unwritten (Client.countPacket client now).1 posted := by
  simp only [Client.countPacket]
  split_ifs <;> exact ⟨h.writing, h.writeQueue, h.asyncWrites, h.strand⟩

/-- In any reachable state a new client can connect and ask to be logged in under any name. -/
theorem exists_login_counted {s : Server} (h : Reachable Step initial s) {c : ClientId}
    (hc : s.Unused c) {username : Name} (hname : 10 ∉ username) (hlen : username.length ≤ 400) :
    ∃ more t client cipher s', Run Step s more s' ∧
      (∀ u ∈ more, u.label ≠ .tick ∧ u.before.world = s.world) ∧ t.Sound ∧ SameBut s t c ∧
      t.clients c = some client ∧ client.stage = .loggingIn ∧ client.encryptor = some cipher ∧
      client.decryptor.isSome = true ∧ client.packetsThisSecond ≤ 2 ∧
      (∃ greeting, Unwritten client [.push greeting]) ∧
      LoginHandler.enterWorld t c username = .ok s' := by
  have haccept := h.snoc (.accept hc)
  have hc₁ : (s.accept c).clients c = some {} := setClient_clients_self ..
  have hsame₁ : SameBut s (s.accept c) c :=
    ⟨rfl, rfl, rfl, fun d hd => setClient_clients_of_ne s {} hd⟩
  -- the handshake
  obtain ⟨hcalm₁, hcount₁⟩ :=
    countPacket_calm (show ({} : Client).packetsThisSecond < 100 by decide) 1
  have hquiet₁ := Client.quietClient_countPacket {} 1
  have hunwritten₁ := unwritten_countPacket (show Unwritten {} [] from ⟨rfl, rfl, rfl, rfl⟩) 1
  generalize hclient₁ : (Client.countPacket {} 1).1 = client₁ at hcount₁ hquiet₁ hunwritten₁
  have hcounted₁ : Client.counted (s.accept c) c {} 1 = (s.accept c).setClient c client₁ := by
    rw [Client.counted, hclient₁]
  have hc₁' : ((s.accept c).setClient c client₁).clients c = some client₁ :=
    setClient_clients_self ..
  obtain ⟨bytes, b₁, hshake⟩ := exec_handshake hc₁' 0 0
  rw [setClient_setClient] at hshake
  generalize hclient₂ : { client₁ with
    strand := client₁.strand ++ [Posted.push bytes], stage := .loggingIn } = client₂ at hshake
  have hstage₂ : client₂.stage = .loggingIn := by rw [← hclient₂]
  have hunwritten₂ : Unwritten client₂ [.push bytes] := by
    rw [← hclient₂]
    exact ⟨hunwritten₁.writing, hunwritten₁.writeQueue, hunwritten₁.asyncWrites,
      congrArg (· ++ [Posted.push bytes]) hunwritten₁.strand⟩
  have hprocess₁ : (ofData LoginHandler.handshake).exec
      (LoginHandler.process (Client.counted (s.accept c) c {} 1) c 0) =
      .ok ((s.accept c).setClient c client₂, b₁) := by
    rw [hcounted₁, LoginHandler.process_connected hc₁' hquiet₁.stage]
    exact hshake
  obtain ⟨st₁, hread₁, hst₁, -⟩ :=
    readIncomingData_login hc₁ (by decide) hcalm₁ (by decide) hprocess₁
  have hstep₂ := Step.receive (by decide) (by decide) hread₁
  rw [hst₁] at hstep₂
  have hreach₂ := haccept.snoc hstep₂
  have hc₂ : ((s.accept c).setClient c client₂).clients c = some client₂ :=
    setClient_clients_self ..
  have hsame₂ := hsame₁.setClient client₂
  -- the login block
  have hfew : client₂.packetsThisSecond ≤ 1 := by
    rw [← hclient₂]
    exact hcount₁
  obtain ⟨hcalm₂, hcount₂⟩ := countPacket_calm (Nat.lt_of_le_of_lt hfew (by decide)) 1
  have hquiet₂ := Client.quietClient_countPacket client₂ 1
  have hunwritten₃ := unwritten_countPacket hunwritten₂ 1
  generalize hclient₃ : (Client.countPacket client₂ 1).1 = client₃ at hquiet₂ hcount₂ hunwritten₃
  have hcounted₂ : Client.counted ((s.accept c).setClient c client₂) c client₂ 1 =
      (s.accept c).setClient c client₃ := by
    rw [Client.counted, hclient₃, setClient_setClient]
  have hc₃ : ((s.accept c).setClient c client₃).clients c = some client₃ :=
    setClient_clients_self ..
  have hstage₃ := hquiet₂.stage.trans hstage₂
  obtain ⟨r, b₃, hlogin, hr⟩ := LoginHandler.readLogin_loginBlock hname (by omega)
  let client₄ : Client := { client₃ with
    decryptor := some (ISAACCipher.new (LoginHandler.seed r.clientHalf r.serverHalf 0))
    encryptor := some (ISAACCipher.new (LoginHandler.seed r.clientHalf r.serverHalf 50)) }
  have hciphers := setCiphers_eq hc₃ r.clientHalf r.serverHalf
  rw [setClient_setClient] at hciphers
  have hquiet : ((s.accept c).setClient c client₂).Quiet ((s.accept c).setClient c client₄) := by
    rw [← setClient_setClient (s.accept c) c client₂ client₄]
    refine quiet_setClient hc₂ (hquiet₂.trans ?_)
    exact ⟨rfl, rfl, rfl, rfl, fun _ => rfl, fun _ => rfl⟩
  have hsound := (reachable_sound hreach₂).quiet hquiet
  have hc₄ : ((s.accept c).setClient c client₄).clients c = some client₄ :=
    setClient_clients_self ..
  have hnot₄ : client₄.stage ≠ .loggedIn := by
    change client₃.stage ≠ .loggedIn
    rw [hstage₃]
    decide
  obtain ⟨s', henter, -⟩ :=
    LoginHandler.enterWorld_outcome hsound hc₄ hnot₄ rfl username
  have hprocess₂ : (ofData (LoginHandler.loginBlock username)).exec (LoginHandler.process
      (Client.counted ((s.accept c).setClient c client₂) c client₂ 1) c 0) = .ok (s', b₃) := by
    have hanswer : LoginHandler.answer ((s.accept c).setClient c client₃) c (some r) = .ok s' := by
      rw [LoginHandler.answer, hciphers, hr]
      exact henter
    rw [hcounted₂, LoginHandler.process_loggingIn hc₃ hstage₃, LoginHandler.handleLoggingInStage_eq]
    refine exec_bind_eq_ok.mpr ⟨_, _, hlogin, ?_⟩
    rw [hanswer]
    rfl
  have hdata : LoginHandler.loginBlock username ≠ [] := List.cons_ne_nil _ _
  obtain ⟨st₃, hread₃, hst₃, -⟩ :=
    readIncomingData_login hc₂ (by rw [hstage₂]; decide) hcalm₂ hdata hprocess₂
  have hsize : (LoginHandler.loginBlock username).length ≤ 512 := by
    simp only [LoginHandler.loginBlock, List.length_append, List.length_replicate, List.length_cons,
      List.length_nil]
    omega
  have hstep₃ := Step.receive hdata hsize hread₃
  rw [hst₃] at hstep₃
  refine ⟨_, _, client₄, _, s', ((Run.start.snoc (.accept hc)).snoc hstep₂).snoc hstep₃,
    forall_snoc (forall_snoc (forall_snoc (forall_nil _) ⟨?_, rfl⟩) ⟨?_, hsame₁.world⟩)
      ⟨?_, hsame₂.world⟩, hsound, hsame₁.setClient client₄, hc₄, hstage₃, rfl, rfl,
    hcount₂.trans (Nat.succ_le_succ hfew), ⟨bytes, hunwritten₃.writing, hunwritten₃.writeQueue,
      hunwritten₃.asyncWrites, hunwritten₃.strand⟩, henter⟩ <;> intro htick <;> cases htick

theorem exists_login_run {s : Server} (h : Reachable Step initial s) {c : ClientId}
    (hc : s.Unused c) {username : Name} (hname : 10 ∉ username) (hlen : username.length ≤ 400) :
    ∃ more t client cipher s', Run Step s more s' ∧
      (∀ u ∈ more, u.label ≠ .tick ∧ u.before.world = s.world) ∧ t.Sound ∧ SameBut s t c ∧
      t.clients c = some client ∧ client.stage = .loggingIn ∧ client.encryptor = some cipher ∧
      client.decryptor.isSome = true ∧ LoginHandler.enterWorld t c username = .ok s' := by
  obtain ⟨more, t, client, cipher, s', hmore, hquiet, ht, hsame, hclient, hstage, he, hdec, -, -,
    henter⟩ := exists_login_counted h hc hname hlen
  exact ⟨more, t, client, cipher, s', hmore, hquiet, ht, hsame, hclient, hstage, he, hdec, henter⟩

theorem exists_login {s : Server} (h : Reachable Step initial s) {c : ClientId}
    (hc : s.Unused c) {username : Name} (hname : 10 ∉ username) (hlen : username.length ≤ 400) :
    ∃ t client cipher s', Reachable Step initial s' ∧ t.Sound ∧ SameBut s t c ∧
      t.clients c = some client ∧ client.stage = .loggingIn ∧ client.encryptor = some cipher ∧
      client.decryptor.isSome = true ∧ LoginHandler.Outcome t c client cipher username s' := by
  obtain ⟨more, t, client, cipher, s', hmore, -, ht, hsame, hclient, hstage, he, hdec, henter⟩ :=
    exists_login_run h hc hname hlen
  have hnot : client.stage ≠ .loggedIn := by
    rw [hstage]
    decide
  obtain ⟨s'', henter', houtcome⟩ := LoginHandler.enterWorld_outcome ht hclient hnot he username
  obtain rfl := Except.ok.inj (henter.symm.trans henter')
  exact ⟨t, client, cipher, s', h.trans ⟨more, hmore⟩, ht, hsame, hclient, hstage, he, hdec,
    houtcome⟩

/-- The first client to come finds room, and is logged in with a player. -/
theorem exists_run_playing : ∃ trace s client, Run Step initial trace s ∧
    s.clients 0 = some client ∧ client.stage = .loggedIn ∧ ∀ t ∈ trace, t.after.AllPlaying := by
  have hunused : initial.Unused 0 := ⟨rfl, fun p hp => absurd hp (Nat.not_lt_zero p)⟩
  have hname : (10 : Byte) ∉ ([97] : Name) := by decide
  obtain ⟨trace, t, client, cipher, s, hrun, hworld, ht, hsame, hc, hstage, he, -, henter⟩ :=
    exists_login_run (.start Step initial) hunused hname (by decide)
  have hnot : client.stage ≠ .loggedIn := by
    rw [hstage]
    decide
  obtain ⟨s', henter', houtcome⟩ := LoginHandler.enterWorld_outcome ht hc hnot he [97]
  obtain rfl := Except.ok.inj (henter.symm.trans henter')
  have hlast : ∃ client', s.clients 0 = some client' ∧ client'.stage = .loggedIn := by
    cases houtcome with
    | refused hname =>
        rw [hsame.world] at hname
        cases hname
    | full _ _ => exact ⟨_, setClient_clients_self .., rfl⟩
    | entered _ _ =>
        have hadmitted : (LoginHandler.admitted client [97] LoginResponse.ok
            t.nextPlayer).encryptor = some cipher := he
        exact ⟨_, setClient_clients_self .., (World.quietClient_pushFrames hadmitted _).stage⟩
  have hroom : ∀ u ∈ trace, u.before.HasRoom u.label := by
    intro u hu
    cases hlabel : u.label with
    | receive d now gen data =>
        intro client name _ _ _ _ _
        refine ⟨⟨0, by decide⟩, ?_⟩
        rw [(hworld u hu).2]
        rfl
    | _ => trivial
  obtain ⟨client', hc', hstage'⟩ := hlast
  exact ⟨trace, s, client', hrun, hc', hstage', (run_allPlaying_iff hrun).mpr hroom⟩

/-! ## A full world -/

/-- A different name for each of the clients that fill the world. -/
def nthName (n : Nat) : Name := [BitVec.ofNat 8 (n % 64 + 65), BitVec.ofNat 8 (n / 64 + 65)]

theorem nthName_injective {m n : Nat} (hm : m ≤ 2048) (hn : n ≤ 2048)
    (h : nthName m = nthName n) : m = n := by
  obtain ⟨hlow, hhigh⟩ := List.cons_eq_cons.mp h
  have hlow := congrArg BitVec.toNat hlow
  have hhigh := congrArg BitVec.toNat (List.cons_eq_cons.mp hhigh).1
  simp only [BitVec.toNat_ofNat] at hlow hhigh
  omega

theorem newline_notMem_nthName {n : Nat} (hn : n ≤ 2048) : 10 ∉ nthName n := by
  intro hmem
  have hcases : (10 : Byte) = BitVec.ofNat 8 (n % 64 + 65) ∨
      (10 : Byte) = BitVec.ofNat 8 (n / 64 + 65) := by simpa [nthName] using hmem
  have hten : (10 : Byte).toNat = 10 := rfl
  rcases hcases with h | h
  · have hval := congrArg BitVec.toNat h
    rw [BitVec.toNat_ofNat, hten] at hval
    omega
  · have hval := congrArg BitVec.toNat h
    rw [BitVec.toNat_ofNat, hten] at hval
    omega

/-- `n` clients have logged in, and the next ones may follow. -/
structure Filled (n : Nat) (s : Server) : Prop where
  reachable : Reachable Step initial s
  taken : (Finset.univ.filter fun i => s.world.occupiedIndices i = true).card = n
  unused : ∀ c, n ≤ c → s.Unused c
  names : ∀ m, n ≤ m → m ≤ 2048 → s.world.players.lookup (nthName m) = none

theorem filled_zero : Filled 0 initial where
  reachable := .start Step initial
  taken := by
    rw [Finset.card_eq_zero, Finset.filter_eq_empty_iff]
    exact fun i _ => nofun
  unused _ _ := ⟨rfl, fun p hp => absurd hp (Nat.not_lt_zero p)⟩
  names _ _ _ := rfl

theorem Filled.login {n : Nat} {s : Server} (h : Filled n s) (hn : n ≤ 2048) :
    ∃ t client cipher s', Reachable Step initial s' ∧ SameBut s t n ∧
      client.encryptor = some cipher ∧
      LoginHandler.Outcome t n client cipher (nthName n) s' := by
  obtain ⟨t, client, cipher, s', hreach, -, hsame, -, -, he, -, houtcome⟩ :=
    exists_login h.reachable (h.unused n (Nat.le_refl n)) (newline_notMem_nthName hn) (by
      simp [nthName])
  exact ⟨t, client, cipher, s', hreach, hsame, he, houtcome⟩

theorem Filled.entered {n : Nat} {s t s' : Server} {client : Client} {cipher : ISAACCipher}
    (h : Filled n s) (hn : n < 2048) (hreach : Reachable Step initial s') (hsame : SameBut s t n)
    (houtcome : LoginHandler.Outcome t n client cipher (nthName n) s') : Filled (n + 1) s' := by
  have hnone := h.names n (Nat.le_refl n) (Nat.le_of_lt hn)
  cases houtcome with
  | refused hname =>
      rw [hsame.world, hnone] at hname
      cases hname
  | full _ hfull =>
      have hcard := h.taken
      rw [← hsame.world, Finset.filter_true_of_mem fun i _ => hfull i, Finset.card_univ,
        Fintype.card_fin] at hcard
      exact absurd hcard (Nat.ne_of_gt hn)
  | @entered index hname hfree =>
      refine ⟨hreach, ?_, fun c hc => ⟨?_, fun p hp => ?_⟩, fun m hm hm' => ?_⟩
      · have hinsert : (Finset.univ.filter fun i =>
            Function.update t.world.occupiedIndices index true i = true) =
            insert index (Finset.univ.filter fun i => t.world.occupiedIndices i = true) := by
          ext i
          simp only [Finset.mem_filter, Finset.mem_univ, true_and, Finset.mem_insert]
          by_cases hi : i = index
          · simp [hi]
          · simp [hi]
        change (Finset.univ.filter fun i =>
          Function.update t.world.occupiedIndices index true i = true).card = n + 1
        rw [hinsert, Finset.card_insert_of_notMem (by simp [hfree]), hsame.world, h.taken]
      · have hne : c ≠ n := by omega
        exact (setClient_clients_of_ne _ _ hne).trans
          ((hsame.clients c hne).trans (h.unused c (by omega)).1)
      · rw [register_players]
        by_cases hlast : p = t.nextPlayer
        · subst hlast
          have hnow : (t.newPlayer (LoginHandler.enteredPlayer n (nthName n) index)).players
              t.nextPlayer = LoginHandler.enteredPlayer n (nthName n) index :=
            setPlayer_players_self ..
          rw [hnow]
          change n ≠ c
          omega
        · have hold : p < t.nextPlayer := Nat.lt_of_le_of_ne (Nat.le_of_lt_succ hp) hlast
          rw [newPlayer_players _ hold, hsame.players]
          exact (h.unused c (by omega)).2 p (hsame.nextPlayer ▸ hold)
      · have hne : nthName m ≠ nthName n := fun heq => by
          have hmn := nthName_injective hm' (Nat.le_of_lt hn) heq
          omega
        refine (AList.lookup_insert_ne hne).trans ?_
        rw [hsame.world]
        exact h.names m (by omega) hm'

theorem Filled.succ {n : Nat} {s : Server} (h : Filled n s) (hn : n < 2048) :
    ∃ s', Filled (n + 1) s' := by
  obtain ⟨t, client, cipher, s', hreach, hsame, -, houtcome⟩ := h.login (Nat.le_of_lt hn)
  exact ⟨s', h.entered hn hreach hsame houtcome⟩

theorem exists_filled (n : Nat) (hn : n ≤ 2048) : ∃ s, Filled n s := by
  induction n with
  | zero => exact ⟨initial, filled_zero⟩
  | succ n ih =>
      obtain ⟨s, hs⟩ := ih (by omega)
      exact hs.succ (by omega)

/-- The 2049th client is logged in without a player. -/
theorem exists_run_not_allPlaying : ∃ trace s client, Run Step initial trace s ∧
    s.clients 2048 = some client ∧ client.stage = .loggedIn ∧
    s.lockPlayer client.player = none ∧ ¬ s.AllPlaying := by
  obtain ⟨s, hs⟩ := exists_filled 2048 (Nat.le_refl _)
  obtain ⟨t, client, cipher, s', ⟨trace, hrun⟩, hsame, -, houtcome⟩ := hs.login (Nat.le_refl _)
  have hnone := hs.names 2048 (Nat.le_refl _) (Nat.le_refl _)
  have hall : ∀ i, t.world.occupiedIndices i = true := by
    have hcard : (Finset.univ.filter fun i => s.world.occupiedIndices i = true).card =
        Fintype.card (Fin maxPlayers) := by
      rw [hs.taken, Fintype.card_fin]
      rfl
    have huniv := Finset.card_eq_iff_eq_univ _ |>.mp hcard
    intro i
    rw [hsame.world]
    have hi : i ∈ Finset.univ.filter fun i => s.world.occupiedIndices i = true := by
      rw [huniv]
      exact Finset.mem_univ i
    exact (Finset.mem_filter.mp hi).2
  cases houtcome with
  | refused hname =>
      rw [hsame.world, hnone] at hname
      cases hname
  | entered _ hfree =>
      rw [hall] at hfree
      cases hfree
  | full hname _ =>
      have hlookup (p : PlayerId) : t.world.players.lookup (nthName 2048) ≠ some p := by
        rw [hname]
        exact nofun
      have hc := setClient_clients_self (t.newPlayer { username := nthName 2048, client := 2048 })
        2048 (LoginHandler.admitted client (nthName 2048) LoginResponse.ok t.nextPlayer)
      refine ⟨trace, _, _, hrun, hc, rfl, ?_, fun hplaying => ?_⟩
      · obtain ⟨p, hplayer, -, -, -, hcase⟩ :=
          ((reachable_sound ⟨trace, hrun⟩).clients 2048 _ hc).session rfl
        rw [hplayer]
        rcases hcase with hr | hstranded
        · exact absurd hr.lookup (hlookup p)
        · exact lockPlayer_of_stranded hstranded
      · obtain ⟨p, -, hfound, -⟩ := (hplaying 2048 _ hc rfl).player
        exact hlookup p hfound

end Server
end AsioRsps
