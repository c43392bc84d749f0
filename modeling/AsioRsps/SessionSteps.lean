import AsioRsps.Arrivals

/-!
# Logins and logouts

What a login and a disconnect come to in a server whose sessions are sound: one of three
outcomes each, and all of them leave the sessions sound.
-/
namespace AsioRsps
open BitStrings (Byte)
open StreamBuffer

namespace LoginHandler

/-- In a sound server a name is either free or its player is online. -/
theorem response_eq {s : Server} (h : s.Sound) {c : ClientId} {client : Client}
    (hc : s.clients c = some client) (hstage : client.stage ≠ .loggedIn) (username : Name) :
    response s c username =
      if s.world.players.lookup username = none then LoginResponse.ok
      else LoginResponse.accountOnline := by
  simp only [response, World.getPlayer]
  cases hname : s.world.players.lookup username with
  | none => rfl
  | some p =>
      obtain ⟨owner, howner, -⟩ := (h.players username p hname).owner
      have hne := h.not_owner hc hstage hname
      simp only [howner, Option.isNone_some, Bool.false_eq_true, hne, or_self, if_false,
        reduceCtorEq]

/-- The outcomes of a login. -/
inductive Outcome (s : Server) (c : ClientId) (client : Client) (cipher : ISAACCipher)
    (username : Name) : Server → Prop where
  | refused {p : PlayerId} : s.world.players.lookup username = some p →
      Outcome s c client cipher username (s.setClient c
        { answered client username LoginResponse.accountOnline with
          strand := (answered client username LoginResponse.accountOnline).strand ++
            [.requestDisconnect] })
  | full : s.world.players.lookup username = none → (∀ i, s.world.occupiedIndices i = true) →
      Outcome s c client cipher username ((s.newPlayer { username, client := c }).setClient c
        (admitted client username LoginResponse.ok s.nextPlayer))
  | entered {index : Fin maxPlayers} : s.world.players.lookup username = none →
      s.world.occupiedIndices index = false →
      Outcome s c client cipher username (s.register (enteredPlayer c username index) c
        ((admitted client username LoginResponse.ok s.nextPlayer).pushFrames cipher
          (Player.loginFrames { x := 3200, y := 3200 })) username index)

/-- A login in a sound server never fails. -/
theorem enterWorld_outcome {s : Server} (h : s.Sound) {c : ClientId} {client : Client}
    {cipher : ISAACCipher} (hc : s.clients c = some client) (hstage : client.stage ≠ .loggedIn)
    (he : client.encryptor = some cipher) (username : Name) :
    ∃ s', enterWorld s c username = .ok s' ∧ Outcome s c client cipher username s' := by
  have hresponse := response_eq h hc hstage username
  cases hname : s.world.players.lookup username with
  | some p =>
      have hr : response s c username = LoginResponse.accountOnline := by
        rw [hresponse, hname]
        rfl
      refine ⟨_, enterWorld_refused hc hr, ?_⟩
      rw [Client.requestDisconnect, Server.modifyClient_eq (Server.setClient_clients_self ..),
        Server.setClient_setClient]
      exact .refused hname
  | none =>
      have hok : response s c username = LoginResponse.ok := by
        rw [hresponse, if_pos hname]
      have hr : response s c username ≠ LoginResponse.accountOnline := by
        rw [hok]
        decide
      cases hfree : World.getFreeIndex s.world with
      | none =>
          refine ⟨_, enterWorld_full hc hr hfree, ?_⟩
          rw [hok]
          exact .full hname (World.getFreeIndex_eq_none.mp hfree)
      | some slot =>
          obtain ⟨index, w⟩ := slot
          obtain ⟨hfree', rfl⟩ := World.getFreeIndex_some hfree
          refine ⟨_, enterWorld_entered hc he hr hfree, ?_⟩
          have hentered : entered s c client cipher username index (Server.occupy s.world index) =
              s.register (enteredPlayer c username index) c
                ((admitted client username LoginResponse.ok s.nextPlayer).pushFrames cipher
                  (Player.loginFrames { x := 3200, y := 3200 })) username index := by
            simp only [entered, withPlayer, Server.register, Server.newPlayer, hok,
              Server.setClient, Server.setPlayer, Function.update_idem]
          change Outcome s c client cipher username
            (entered s c client cipher username index (Server.occupy s.world index))
          rw [hentered]
          exact .entered hname hfree'

theorem joins_entered {client : Client} {cipher : ISAACCipher} {username : Name} {p : PlayerId}
    (frames : List Client.OutFrame) (hd : client.disconnected = false)
    (he : client.encryptor = some cipher) (hdec : client.decryptor.isSome = true) :
    Server.Joins ((admitted client username LoginResponse.ok p).pushFrames cipher frames)
      username p := by
  have hadmitted : (admitted client username LoginResponse.ok p).encryptor = some cipher := he
  rw [Client.pushFrames_eq _ cipher frames hadmitted]
  exact ⟨rfl, hd, rfl, rfl, rfl, hdec⟩

theorem Outcome.sound {s s' : Server} (h : s.Sound) {c : ClientId} {client : Client}
    {cipher : ISAACCipher} {username : Name} (hc : s.clients c = some client)
    (hstage : client.stage = .loggingIn) (he : client.encryptor = some cipher)
    (hdec : client.decryptor.isSome = true) (ho : Outcome s c client cipher username s') :
    s'.Sound := by
  have hsound := h.clients c client hc
  have hnot : client.stage ≠ .loggedIn := by
    rw [hstage]
    decide
  have hd : client.disconnected = false := h.connected hc (by rw [hstage]; decide)
  cases ho with
  | refused _ =>
      refine h.setClient_idle hc hnot ⟨fun _ => hsound.early (.inr hstage), ?_, fun hs => ?_⟩
      · exact hsound.disconnected
      · exact absurd hs hnot
  | full hname _ =>
      have hnew : (s.newPlayer { username, client := c }).Sound := h.newPlayer rfl
      refine hnew.setClient_idle hc hnot ⟨fun hs => ?_, ⟨fun hs => ?_, fun hs => ?_⟩, fun _ => ?_⟩
      · rcases hs with hs | hs <;> cases hs
      · exact absurd (hd.symm.trans hs) Bool.false_ne_true
      · cases hs
      · refine ⟨s.nextPlayer, rfl, Nat.lt_succ_self _, ?_, hdec, .inr ?_⟩
        · change client.encryptor.isSome = true
          rw [he]
          rfl
        · exact h.stranded_newPlayer rfl
  | entered hname hfree =>
      exact h.register hc hnot ⟨rfl, rfl, rfl, hname, hfree⟩ (joins_entered _ hd he hdec)

end LoginHandler

namespace Client

/-- The outcomes of a disconnect. -/
inductive Departure (s : Server) (c : ClientId) (client : Client) : Server → Prop where
  | again : client.disconnected = true → Departure s c client s
  | absent : client.disconnected = false → s.lockPlayer client.player = none →
      Departure s c client
        ({ s with sessions := s.sessions.erase c }.setClient c client.closed)
  | present {p : PlayerId} {index : Fin maxPlayers} : client.disconnected = false →
      client.stage = .loggedIn → client.player = some p → s.Registered c client p →
      (s.players p).index = index.val →
      Departure s c client ({ s with
        sessions := s.sessions.erase c
        world := s.world.withoutPlayer client.username index }.setClient c client.closed)

/-- In a sound server the live player of a client is registered under its username. -/
theorem registered_of_lockPlayer {s : Server} (h : s.Sound) {c : ClientId} {client : Client}
    (hc : s.clients c = some client) (hd : client.disconnected = false) {p : PlayerId}
    (hp : s.lockPlayer client.player = some p) :
    client.stage = .loggedIn ∧ client.player = some p ∧ s.Registered c client p := by
  have hsound := h.clients c client hc
  have hplayer : client.player = some p := by
    cases hclient : client.player with
    | none =>
        rw [hclient] at hp
        cases hp
    | some q =>
        rw [hclient, Server.lockPlayer, Option.filter] at hp
        split at hp
        · exact hp
        · cases hp
  have hstage : client.stage = .loggedIn := by
    cases hs : client.stage with
    | connected =>
        exact absurd (hsound.early (.inl hs)) (by rw [hplayer]; exact Option.some_ne_none p)
    | loggingIn =>
        exact absurd (hsound.early (.inr hs)) (by rw [hplayer]; exact Option.some_ne_none p)
    | loggedIn => rfl
    | loggedOut => exact absurd (hd.symm.trans (hsound.disconnected.mpr hs)) Bool.false_ne_true
  obtain ⟨q, hq, -, -, -, hcase⟩ := hsound.session hstage
  obtain rfl := Option.some.inj (hplayer.symm.trans hq)
  rcases hcase with hr | hs
  · exact ⟨hstage, hplayer, hr⟩
  · rw [hplayer, Server.lockPlayer_of_stranded hs] at hp
    cases hp

/-- A disconnect in a sound server never fails. -/
theorem disconnect_outcome {s : Server} (h : s.Sound) {c : ClientId} {client : Client}
    (hc : s.clients c = some client) :
    ∃ s', disconnect s c = .ok s' ∧ Departure s c client s' := by
  cases hd : client.disconnected with
  | true => exact ⟨s, disconnect_again hc hd, .again hd⟩
  | false =>
      cases hp : s.lockPlayer client.player with
      | none => exact ⟨_, disconnect_absent hc hd hp, .absent hd hp⟩
      | some p =>
          obtain ⟨hstage, hplayer, hr⟩ := registered_of_lockPlayer h hc hd hp
          obtain ⟨index, hindex, -⟩ := (h.players _ p hr.lookup).slot
          exact ⟨_, disconnect_present hc hd hp hr.lookup hindex,
            .present hd hstage hplayer hr hindex⟩

theorem departure_of_disconnect {s s' : Server} (h : s.Sound) {c : ClientId} {client : Client}
    (hc : s.clients c = some client) (hrun : disconnect s c = .ok s') :
    Departure s c client s' := by
  obtain ⟨t, hrun', hd⟩ := disconnect_outcome h hc
  obtain rfl := Except.ok.inj (hrun.symm.trans hrun')
  exact hd

/-- A disconnect registers nobody. -/
theorem Departure.mem_registered {s s' : Server} {c : ClientId} {client : Client}
    (h : Departure s c client s') {p : PlayerId} (hp : p ∈ s'.registered) : p ∈ s.registered := by
  cases h with
  | again _ => exact hp
  | absent _ _ => exact hp
  | present _ _ _ _ _ =>
      obtain ⟨name, hname⟩ := Server.mem_registered_iff.mp hp
      exact Server.mem_registered_of_lookup (World.lookup_withoutPlayer.mp hname).2

theorem Departure.sound {s s' : Server} (h : s.Sound) {c : ClientId} {client : Client}
    (hc : s.clients c = some client) (hd : Departure s c client s') : s'.Sound := by
  cases hd with
  | again _ => exact h
  | absent hd hp =>
      have hs := h.sessions (s.sessions.erase c)
      refine hs.setClient (Server.clientSound_closed _ c client) fun name p hname howner => ?_
      obtain ⟨owner, hfound, -, hplayer, -⟩ := (h.players name p hname).owner
      rw [howner, hc] at hfound
      obtain rfl := Option.some.inj hfound
      have hlive : s.lockPlayer (some p) = some p :=
        Server.lockPlayer_of_registered (Server.mem_registered_of_lookup hname)
      rw [hplayer, hlive] at hp
      cases hp
  | present hd hstage hplayer hr hindex =>
      exact (h.remove hc hr hindex).sessions (s.sessions.erase c)

end Client
end AsioRsps
