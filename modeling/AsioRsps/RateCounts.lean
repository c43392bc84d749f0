import AsioRsps.LoginSegmentation

/-!
# Who counts

The counters of the rate limit belong to the reads of their client: nothing else the server
does changes them, and nothing at all brings a client back that has been logged out.
-/
namespace AsioRsps
open BitStrings (Byte)
open StreamBuffer FallibleLoop

namespace Client

/-- The rate limit has counted nothing, and a client that was logged out still is. -/
structure KeepsCount (old new : Client) : Prop extends SameCount old new where
  out : old.stage = .loggedOut → new.stage = .loggedOut

theorem KeepsCount.refl (client : Client) : KeepsCount client client := ⟨⟨rfl, rfl⟩, id⟩

theorem KeepsCount.trans {a b d : Client} (h : KeepsCount a b) (h' : KeepsCount b d) :
    KeepsCount a d where
  packets := h'.packets.trans h.packets
  second := h'.second.trans h.second
  out := h'.out ∘ h.out

theorem keepsCount_closed (client : Client) : KeepsCount client client.closed :=
  ⟨⟨rfl, rfl⟩, fun _ => rfl⟩

theorem keepsCount_pushFrames {client : Client} {cipher : ISAACCipher}
    (he : client.encryptor = some cipher) (frames : List OutFrame) :
    KeepsCount client (client.pushFrames cipher frames) := by
  rw [pushFrames_eq client cipher frames he]
  exact ⟨⟨rfl, rfl⟩, id⟩

theorem keepsCount_doWrite {client client' : Client} (h : client.doWrite = .ok client') :
    KeepsCount client client' := by
  obtain ⟨front, rest, -, rfl⟩ := doWrite_inv h
  exact ⟨⟨rfl, rfl⟩, id⟩

theorem keepsCount_push {client client' : Client} {data : List Byte}
    (h : client.push data = .ok client') : KeepsCount client client' := by
  rw [push] at h
  dsimp only at h
  split at h
  · obtain rfl := Except.ok.inj h
    exact ⟨⟨rfl, rfl⟩, id⟩
  · have hkeeps := keepsCount_doWrite h
    exact ⟨⟨hkeeps.packets, hkeeps.second⟩, hkeeps.out⟩

end Client

namespace Server

/-- Whoever is there afterwards was there before, and kept its count. -/
def KeepsCounts (s s' : Server) : Prop :=
  ∀ c client', s'.clients c = some client' →
    ∃ client, s.clients c = some client ∧ client.KeepsCount client'

theorem keepsCounts_of_clients {s s' : Server} (h : s'.clients = s.clients) : s.KeepsCounts s' :=
  fun c client' hc' => ⟨client', by rw [← h]; exact hc', .refl client'⟩

theorem KeepsCounts.refl (s : Server) : s.KeepsCounts s := keepsCounts_of_clients rfl

theorem KeepsCounts.trans {s t u : Server} (h : s.KeepsCounts t) (h' : t.KeepsCounts u) :
    s.KeepsCounts u := by
  intro c client'' hc''
  obtain ⟨client', hc', hkeeps'⟩ := h' c client'' hc''
  obtain ⟨client, hc, hkeeps⟩ := h c client' hc'
  exact ⟨client, hc, hkeeps.trans hkeeps'⟩

/-- A change of one client, in a server whose clients are those of `s`. -/
theorem keepsCounts_setClient {s t : Server} (ht : t.clients = s.clients) {c : ClientId}
    {old new : Client} (hc : s.clients c = some old) (h : old.KeepsCount new) :
    s.KeepsCounts (t.setClient c new) := by
  intro d client' hd
  by_cases hdc : d = c
  · subst hdc
    obtain rfl := Option.some.inj ((setClient_clients_self ..).symm.trans hd)
    exact ⟨old, hc, h⟩
  · rw [setClient_clients_of_ne t new hdc, ht] at hd
    exact ⟨client', hd, .refl client'⟩

theorem keepsCounts_of_rel {s s' : Server}
    (h : ∀ c, Option.Rel Client.KeepsCount (s.clients c) (s'.clients c)) : s.KeepsCounts s' := by
  intro c client' hc'
  have hrel := h c
  rw [hc'] at hrel
  generalize s.clients c = found at hrel
  cases hrel with
  | some hrel => exact ⟨_, rfl, hrel⟩

/-! ## Closings and writes -/

theorem keepsCounts_disconnect {s s' : Server} (hs : s.Sound) {c : ClientId}
    (h : Client.disconnect s c = .ok s') : s.KeepsCounts s' := by
  obtain ⟨client, hlock, -⟩ := bind_eq_ok.mp h
  have hc := clients_of_lockClient hlock
  cases Client.departure_of_disconnect hs hc h with
  | again _ => exact .refl s
  | absent _ _ => exact keepsCounts_setClient rfl hc (Client.keepsCount_closed client)
  | present _ _ _ _ _ => exact keepsCounts_setClient rfl hc (Client.keepsCount_closed client)

theorem keepsCounts_runPosted {s s' : Server} (hs : s.Sound) {c : ClientId}
    (h : Client.runPosted s c = .ok s') : s.KeepsCounts s' := by
  obtain ⟨client, hlock, h⟩ := bind_eq_ok.mp h
  have hc := clients_of_lockClient hlock
  split at h
  · obtain rfl := Except.ok.inj h
    exact .refl s
  · obtain ⟨client', hpush, h⟩ := bind_eq_ok.mp h
    obtain rfl := Except.ok.inj h
    have hkeeps := Client.keepsCount_push hpush
    exact keepsCounts_setClient rfl hc ⟨⟨hkeeps.packets, hkeeps.second⟩, hkeeps.out⟩
  · rename_i strand _
    have hpending : s.KeepsCounts
        (s.setClient c { client with strand, pendingDisconnect := true }) :=
      keepsCounts_setClient rfl hc ⟨⟨rfl, rfl⟩, id⟩
    have hquiet : s.Quiet (s.setClient c { client with strand, pendingDisconnect := true }) :=
      quiet_setClient hc ⟨rfl, rfl, rfl, rfl, id, id⟩
    split at h
    · exact hpending.trans (keepsCounts_disconnect (hs.quiet hquiet) h)
    · obtain rfl := Except.ok.inj h
      exact hpending

theorem keepsCounts_modifyClient (s : Server) (c : ClientId) {f : Client → Client}
    (h : ∀ client : Client, client.KeepsCount (f client)) : s.KeepsCounts (s.modifyClient c f) := by
  cases hc : s.clients c with
  | none =>
      rw [modifyClient, hc]
      exact .refl s
  | some client =>
      rw [modifyClient_eq hc]
      exact keepsCounts_setClient rfl hc (h client)

theorem keepsCounts_written {s s' : Server} (hs : s.Sound) {c : ClientId}
    (h : Client.written s c = .ok s') : s.KeepsCounts s' := by
  obtain ⟨client, hlock, h⟩ := bind_eq_ok.mp h
  have hc := clients_of_lockClient hlock
  split at h
  · cases h
  · rename_i writeQueue _
    dsimp only at h
    split at h
    · obtain ⟨client', hwrite, h⟩ := bind_eq_ok.mp h
      obtain rfl := Except.ok.inj h
      have hkeeps := Client.keepsCount_doWrite hwrite
      exact keepsCounts_setClient rfl hc ⟨⟨hkeeps.packets, hkeeps.second⟩, hkeeps.out⟩
    · have hidle : s.KeepsCounts (s.setClient c { client with
          writeQueue, completedWrites := client.completedWrites + 1, writing := false }) :=
        keepsCounts_setClient rfl hc ⟨⟨rfl, rfl⟩, id⟩
      have hquiet : s.Quiet (s.setClient c { client with
          writeQueue, completedWrites := client.completedWrites + 1, writing := false }) :=
        quiet_setClient hc ⟨rfl, rfl, rfl, rfl, id, id⟩
      split at h
      · obtain ⟨t, hdisconnect, h⟩ := bind_eq_ok.mp h
        obtain rfl := Except.ok.inj h
        have hclosing := keepsCounts_disconnect (hs.quiet hquiet) hdisconnect
        refine (hidle.trans hclosing).trans ?_
        exact keepsCounts_modifyClient t c fun _ => ⟨⟨rfl, rfl⟩, id⟩
      · obtain rfl := Except.ok.inj h
        exact hidle

theorem keepsCounts_writeFailed {s s' : Server} (hs : s.Sound) {c : ClientId}
    (h : Client.writeFailed s c = .ok s') : s.KeepsCounts s' := by
  obtain ⟨client, hlock, h⟩ := bind_eq_ok.mp h
  have hc := clients_of_lockClient hlock
  have hquiet : s.Quiet (s.setClient c
      { client with completedWrites := client.completedWrites + 1 }) :=
    quiet_setClient hc ⟨rfl, rfl, rfl, rfl, id, id⟩
  have hdone : s.KeepsCounts (s.setClient c
      { client with completedWrites := client.completedWrites + 1 }) :=
    keepsCounts_setClient rfl hc ⟨⟨rfl, rfl⟩, id⟩
  exact hdone.trans (keepsCounts_disconnect (hs.quiet hquiet) h)

/-! ## Ticks -/

theorem keepsCounts_process {s s' : Server} (hs : s.Sound) (h : World.process s = .ok s') :
    s.KeepsCounts s' := by
  obtain ⟨t, u, ht, hu, -, rfl⟩ := World.process_phases hs h
  have htSound := hs.quiet (ht.quiet hs)
  -- the first phase sends regions, the second updates, and the third touches players only
  have hfirst : s.KeepsCounts t := by
    refine keepsCounts_of_rel (World.rel_clients .refl hs ?_ ht.others)
    intro p hp client cipher hc he
    exact ⟨_, ht.sent p hp client cipher hc he, Client.keepsCount_pushFrames he _⟩
  have hsecond : t.KeepsCounts u := by
    refine keepsCounts_of_rel (World.rel_clients .refl htSound ?_ hu.others)
    intro p hp client cipher hc he
    by_cases hroom : (PlayerUpdating.keptPlayers t p).length < 255
    · obtain ⟨body, -, hdelivered⟩ := hu.sent p hp hroom
      exact ⟨_, hdelivered client cipher hc he, Client.keepsCount_pushFrames he _⟩
    · exact ⟨_, hu.silent p hp (Nat.not_lt.mp hroom) client cipher hc he, ⟨⟨rfl, rfl⟩, id⟩⟩
  have hthird : u.KeepsCounts (World.resetAll u s.registered) :=
    keepsCounts_of_clients (World.resetAll_frame u s.registered).1
  exact (hfirst.trans hsecond).trans hthird

/-! ## Reads -/

theorem keepsCounts_outcome {s s' : Server} {c : ClientId} {client : Client}
    {cipher : ISAACCipher} {username : Name} (hc : s.clients c = some client)
    (hstage : client.stage = .loggingIn) (he : client.encryptor = some cipher)
    (ho : LoginHandler.Outcome s c client cipher username s') : s.KeepsCounts s' := by
  have hnot (stage : NetworkStage) : client.stage = .loggedOut → stage = .loggedOut := by
    rw [hstage]
    exact nofun
  cases ho with
  | refused _ => exact keepsCounts_setClient rfl hc ⟨⟨rfl, rfl⟩, hnot _⟩
  | full _ _ =>
      exact keepsCounts_setClient (t := s.newPlayer { username, client := c }) rfl hc
        ⟨⟨rfl, rfl⟩, hnot _⟩
  | entered _ _ =>
      have hencryptor : (LoginHandler.admitted client username LoginResponse.ok
          s.nextPlayer).encryptor = some cipher := he
      have hadmitted : client.KeepsCount
          (LoginHandler.admitted client username LoginResponse.ok s.nextPlayer) :=
        ⟨⟨rfl, rfl⟩, hnot _⟩
      rw [register]
      exact keepsCounts_setClient rfl hc
        (hadmitted.trans (Client.keepsCount_pushFrames hencryptor _))

end Server

namespace LoginHandler
open Server

theorem keepsCounts_process {s s' : Server} (hs : s.Sound) {c : ClientId} {client : Client}
    {gen : Int} {data : List Byte} {b : StreamBuffer} (hc : s.clients c = some client)
    (hnot : client.stage ≠ .loggedIn)
    (h : (ofData data).exec (process s c gen) = .ok (s', b)) : s.KeepsCounts s' := by
  cases hstage : client.stage with
  | connected =>
      simp only [StreamBuffer.exec, process_connected hc hstage] at h
      rcases handleConnectedStage_inv hc h with hdisconnect | ⟨bytes, rfl⟩
      · exact keepsCounts_disconnect hs hdisconnect
      · refine keepsCounts_setClient rfl hc ⟨⟨rfl, rfl⟩, fun hout => ?_⟩
        exact absurd (hstage.symm.trans hout) (by decide)
  | loggingIn =>
      simp only [StreamBuffer.exec, process_loggingIn hc hstage] at h
      rcases handleLoggingInStage_outcome hs hc hstage h with ⟨-, hdisconnect⟩ | ⟨r, -, ho⟩
      · exact keepsCounts_disconnect hs hdisconnect
      · have hciphers : s.KeepsCounts (s.setClient c (ciphered client r)) :=
          keepsCounts_setClient rfl hc ⟨⟨rfl, rfl⟩, id⟩
        exact hciphers.trans (keepsCounts_outcome (setClient_clients_self ..) hstage rfl ho)
  | loggedIn => exact absurd hstage hnot
  | loggedOut =>
      rw [process_loggedOut hc hstage] at h
      obtain ⟨rfl, -⟩ := Prod.mk.inj (Except.ok.inj h)
      exact .refl s

end LoginHandler

namespace Client
open Server

theorem keepsCounts_handlePacket {s s' : Server} {c : ClientId} {packetOpcode packetLength : Int}
    {b b' : StreamBuffer}
    (h : b.exec (handlePacket s c packetOpcode packetLength) = .ok (s', b')) :
    s.KeepsCounts s' := by
  rcases handlePacket_inv h with rfl | ⟨_, p, runPath, tiles, -, -, rfl⟩
  · exact .refl _
  · exact keepsCounts_of_clients rfl

theorem keepsCounts_decodeOpcode {c : ClientId} {st st' : Incoming}
    (h : decodeOpcode c st = .ok st') : st.server.KeepsCounts st'.server := by
  obtain ⟨⟨raw, inStream⟩, -, h⟩ := bind_eq_ok.mp h
  obtain ⟨client, hc, h⟩ := bind_eq_ok.mp h
  obtain ⟨decryptor, -, h⟩ := bind_eq_ok.mp h
  obtain rfl := Except.ok.inj h
  exact keepsCounts_setClient rfl (clients_of_lockClient hc) ⟨⟨rfl, rfl⟩, id⟩

theorem keepsCounts_dispatch {c : ClientId} {st st' : Incoming} (h : dispatch c st = .ok st') :
    st.server.KeepsCounts st'.server := by
  simp only [dispatch] at h
  split at h
  · obtain ⟨⟨server, inStream⟩, hpacket, h⟩ := bind_eq_ok.mp h
    obtain rfl := Except.ok.inj h
    exact keepsCounts_handlePacket hpacket
  · obtain rfl := Except.ok.inj h
    exact .refl _

theorem keepsCounts_packetIteration {c : ClientId} {gen : Int} {st : Incoming} {client : Client}
    {it : ForInStep Incoming} (hc : st.server.clients c = some client)
    (hstage : client.stage = .loggedIn) (h : packetIteration c gen st = .ok it) :
    st.server.KeepsCounts it.value.server := by
  cases packetIteration_inv h with
  | empty _ => exact .refl _
  | login hc' hnot _ =>
      obtain rfl := Option.some.inj (hc.symm.trans hc')
      exact absurd hstage hnot
  | @packet _ st₁ it₁ _ _ _ hopcode hlength hdispatch =>
      have h₁ : st.server.KeepsCounts st₁.server := by
        rcases hopcode with ⟨-, hop⟩ | ⟨-, rfl⟩
        · exact keepsCounts_decodeOpcode hop
        · exact .refl _
      have h₂ : st.server.KeepsCounts it₁.value.server := by
        rcases hlength with ⟨-, hlen⟩ | ⟨-, rfl⟩
        · rw [server_decodeLength hlen]
          exact h₁
        · exact h₁
      rcases hdispatch with ⟨st₂, rfl, rfl⟩ | ⟨st₂, st₃, rfl, hd, rfl⟩
      · exact h₂
      · exact h₂.trans (keepsCounts_dispatch hd)

/-- A read that does not flood is the loop, and the buffer cleared behind it. -/
theorem readIncomingData_ends {s : Server} {c : ClientId} {client : Client} {fuel : Nat}
    {now gen : Int} {data : List Byte} {st : Incoming} (hc : s.clients c = some client)
    (hflood : (countPacket client now).2 = false)
    (h : readIncomingData fuel s c now gen data = some (.ok st)) :
    ∃ st', Ends (packetIteration c gen)
        { server := counted s c client now, inStream := ofData data } (.ok st') ∧
      st.server = st'.server ∧ st.effects = st'.effects := by
  simp only [readIncomingData, handleIncomingData, hc, hflood] at h
  obtain ⟨r, hr, hst⟩ := Option.map_eq_some_iff.mp h
  obtain ⟨st', rfl, rfl⟩ := map_eq_ok.mp hst
  exact ⟨st', ⟨fuel, hr⟩, rfl, rfl⟩

/-- A read counts once for its client, and for nobody else. -/
theorem keepsCounts_read {s : Server} (hs : s.Sound) {c : ClientId} {client : Client} {fuel : Nat}
    {now gen : Int} {data : List Byte} {st : Incoming} (hc : s.clients c = some client)
    (hdata : data ≠ []) (h : readIncomingData fuel s c now gen data = some (.ok st)) :
    (counted s c client now).KeepsCounts st.server := by
  have hcounted := hs.quiet (quiet_counted hc now)
  have hstage := (countPacket_fields client now).1
  cases readIncomingData_outcome hc hdata h with
  | flood _ hdisconnect => exact keepsCounts_disconnect hcounted hdisconnect
  | packets hflood hlogged _ =>
      obtain ⟨st', hends, hserver, -⟩ := readIncomingData_ends hc hflood h
      rw [hserver]
      have hstep {a : Incoming} {it : ForInStep Incoming}
          (ha : Looping (counted s c client now) c a ∧
            (counted s c client now).KeepsCounts a.server)
          (hit : packetIteration c gen a = .ok it) :
          Looping (counted s c client now) c it.value ∧
            (counted s c client now).KeepsCounts it.value.server := by
        obtain ⟨-, found, hfound, hin⟩ := id ha.1
        exact ⟨ha.1.iteration hit, ha.2.trans (keepsCounts_packetIteration hfound hin hit)⟩
      have hlast := hends.invariant
        (P := fun a => Looping (counted s c client now) c a ∧
          (counted s c client now).KeepsCounts a.server)
        (Q := fun a => Looping (counted s c client now) c a ∧
          (counted s c client now).KeepsCounts a.server)
        (fun _ _ ha hit => hstep ha hit) (fun _ _ ha hit => hstep ha hit)
        ⟨looping_start hlogged now data, .refl _⟩
      exact hlast.2
  | login _ hnot hrun =>
      exact LoginHandler.keepsCounts_process hcounted (setClient_clients_self ..)
        (by rw [hstage]; exact hnot) hrun

/-- The client as the event finds it: counted, if the event is a read of its own. -/
def metered (client : Client) (c : ClientId) : Event → Client
  | .receive d now _ _ => if d = c then (countPacket client now).1 else client
  | _ => client

end Client

/-! ## Steps -/

namespace Server

/-- A step counts the reads of a client that was there before, and nothing else. -/
theorem Step.metered {s s' : Server} {e : Event} (h : Step s e s') (hs : s.Sound) {c : ClientId}
    (hne : e ≠ .accept c) {client' : Client} (hc' : s'.clients c = some client') :
    ∃ client, s.clients c = some client ∧ (client.metered c e).KeepsCount client' := by
  cases h with
  | @accept d _ =>
      have hcd : c ≠ d := fun hcd => hne (congrArg Event.accept hcd.symm)
      exact ⟨client', (setClient_clients_of_ne s {} hcd).symm.trans hc', .refl client'⟩
  | @receive d now gen data fuel st hdata _ hread =>
      obtain ⟨client, hd⟩ := Client.exists_reader hread
      obtain ⟨found, hfound, hkeeps⟩ :=
        Client.keepsCounts_read hs hd hdata hread c client' hc'
      by_cases hdc : d = c
      · subst hdc
        refine ⟨client, hd, ?_⟩
        rw [Client.metered, if_pos rfl]
        obtain rfl := Option.some.inj ((setClient_clients_self ..).symm.trans hfound)
        exact hkeeps
      · refine ⟨found, ?_, ?_⟩
        · exact (setClient_clients_of_ne s _ (Ne.symm hdc)).symm.trans hfound
        · rw [Client.metered, if_neg hdc]
          exact hkeeps
  | readFailed hrun => exact keepsCounts_disconnect hs hrun c client' hc'
  | runPosted hrun => exact keepsCounts_runPosted hs hrun c client' hc'
  | written _ _ hrun => exact keepsCounts_written hs hrun c client' hc'
  | writeFailed _ _ hrun => exact keepsCounts_writeFailed hs hrun c client' hc'
  | @destroy d _ _ _ _ _ =>
      have hcd : c ≠ d := by
        rintro rfl
        rw [destroyClient_self] at hc'
        cases hc'
      exact ⟨client', (destroyClient_of_ne s hcd).symm.trans hc', .refl client'⟩
  | tick hrun => exact keepsCounts_process hs hrun c client' hc'
  | reorder _ => exact ⟨client', hc', .refl client'⟩

end Server
end AsioRsps
