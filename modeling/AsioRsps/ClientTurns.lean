import AsioRsps.Conversation
import AsioRsps.LongFields
import AsioRsps.Ownership
import AsioRsps.RateCounts
import AsioRsps.WriteQueue

/-!
# One client's part in a step

What a step of the server is to one of its clients: nothing at all, an answer to what it has
sent, the frames of a tick, or something that happens to its connection. No step touches a
client that it does not concern.
-/
namespace AsioRsps
open BitStrings (Byte)
open StreamBuffer FallibleLoop

namespace Client

/-- The client has gone on with the cipher it reads with. -/
def GoesOn (old new : Client) : Prop := ∃ n, new.decryptor = old.decryptor.map (·.advance n)

theorem goesOn_of_eq {old new : Client} (h : new.decryptor = old.decryptor) : GoesOn old new :=
  ⟨0, h.trans (congrFun Option.map_id _).symm⟩

theorem GoesOn.trans {a b d : Client} (h : GoesOn a b) (h' : GoesOn b d) : GoesOn a d := by
  obtain ⟨m, hm⟩ := h
  obtain ⟨n, hn⟩ := h'
  refine ⟨m + n, ?_⟩
  rw [hn, hm, Option.map_map]
  exact congrArg (Option.map · _) (funext fun cipher => (cipher.advance_add m n).symm)

/-- What a client says and who it is are the same. -/
structure SameOutput (old new : Client) : Prop extends SameQueue old new where
  stage : new.stage = old.stage
  username : new.username = old.username
  encryptor : new.encryptor = old.encryptor
  player : new.player = old.player
  decryptor : old.GoesOn new

theorem SameQueue.refl (client : Client) : SameQueue client client :=
  ⟨rfl, rfl, rfl, rfl, rfl, rfl, rfl⟩

theorem SameQueue.trans {a b d : Client} (h : SameQueue a b) (h' : SameQueue b d) :
    SameQueue a d where
  disconnected := h'.disconnected.trans h.disconnected
  strand := h'.strand.trans h.strand
  writeQueue := h'.writeQueue.trans h.writeQueue
  writing := h'.writing.trans h.writing
  pendingDisconnect := h'.pendingDisconnect.trans h.pendingDisconnect
  asyncWrites := h'.asyncWrites.trans h.asyncWrites
  completedWrites := h'.completedWrites.trans h.completedWrites

theorem SameOutput.refl (client : Client) : SameOutput client client :=
  ⟨.refl client, rfl, rfl, rfl, rfl, goesOn_of_eq rfl⟩

theorem SameOutput.trans {a b d : Client} (h : SameOutput a b) (h' : SameOutput b d) :
    SameOutput a d where
  toSameQueue := h.toSameQueue.trans h'.toSameQueue
  stage := h'.stage.trans h.stage
  username := h'.username.trans h.username
  encryptor := h'.encryptor.trans h.encryptor
  player := h'.player.trans h.player
  decryptor := h.decryptor.trans h'.decryptor

/-- The client has the name, the cipher and the stage it had, or is logged out. -/
structure Settled (old new : Client) : Prop where
  username : new.username = old.username
  encryptor : new.encryptor = old.encryptor
  decryptor : old.GoesOn new
  stage : new.stage = old.stage ∨ new.stage = .loggedOut

theorem settled_of_eq {old new : Client} (husername : new.username = old.username)
    (he : new.encryptor = old.encryptor) (hd : new.decryptor = old.decryptor)
    (hstage : new.stage = old.stage ∨ new.stage = .loggedOut) : old.Settled new :=
  ⟨husername, he, goesOn_of_eq hd, hstage⟩

theorem Settled.trans {a b d : Client} (h : a.Settled b) (h' : b.Settled d) : a.Settled d where
  username := h'.username.trans h.username
  encryptor := h'.encryptor.trans h.encryptor
  decryptor := h.decryptor.trans h'.decryptor
  stage := h'.stage.elim (fun hstage => h.stage.imp hstage.trans hstage.trans) .inr

theorem SameOutput.settled {old new : Client} (h : SameOutput old new) : old.Settled new :=
  ⟨h.username, h.encryptor, h.decryptor, .inl h.stage⟩

theorem settled_disconnect (client : Client) :
    client.Settled (if client.disconnected then client else client.closed) := by
  split
  · exact settled_of_eq rfl rfl rfl (.inl rfl)
  · exact settled_of_eq rfl rfl rfl (.inr rfl)

theorem settled_doWrite {client client' : Client} (h : client.doWrite = .ok client') :
    client.Settled client' := by
  obtain ⟨front, rest, -, rfl⟩ := doWrite_inv h
  exact settled_of_eq rfl rfl rfl (.inl rfl)

theorem settled_push {client client' : Client} {data : List Byte}
    (h : client.push data = .ok client') : client.Settled client' := by
  rw [push] at h
  dsimp only at h
  split at h
  · obtain rfl := Except.ok.inj h
    exact settled_of_eq rfl rfl rfl (.inl rfl)
  · refine .trans ?_ (settled_doWrite h)
    exact settled_of_eq rfl rfl rfl (.inl rfl)

theorem sameOutput_countPacket (client : Client) (now : Int) :
    SameOutput client (countPacket client now).1 := by
  rw [countPacket_eq]
  exact ⟨⟨rfl, rfl, rfl, rfl, rfl, rfl, rfl⟩, rfl, rfl, rfl, rfl, goesOn_of_eq rfl⟩

end Client

namespace Server

/-- The clients are as before but for one. -/
def Puts (s : Server) (c : ClientId) (new : Client) (s' : Server) : Prop :=
  s'.clients = Function.update s.clients c (some new)

theorem puts_setClient {s t : Server} (h : t.clients = s.clients) (c : ClientId) (new : Client) :
    s.Puts c new (t.setClient c new) := by
  rw [Puts, ← h]
  rfl

theorem puts_self {s s' : Server} {c : ClientId} {client : Client}
    (hc : s.clients c = some client) (h : s'.clients = s.clients) : s.Puts c client s' := by
  rw [Puts, ← hc, Function.update_eq_self, h]

theorem Puts.trans {s t s' : Server} {c : ClientId} {mid new : Client} (h : s.Puts c mid t)
    (h' : t.Puts c new s') : s.Puts c new s' := by
  rw [Puts, h', h, Function.update_idem]

theorem Puts.clients {s s' : Server} {c : ClientId} {new : Client} (h : s.Puts c new s') :
    s'.clients c = some new := by
  rw [h, Function.update_self]

theorem Puts.others {s s' : Server} {c d : ClientId} {new : Client} (h : s.Puts c new s')
    (hd : d ≠ c) : s'.clients d = s.clients d := by
  rw [h, Function.update_of_ne hd]

theorem puts_modifyClient {s : Server} {c : ClientId} {client : Client}
    (hc : s.clients c = some client) (f : Client → Client) :
    s.Puts c (f client) (s.modifyClient c f) := by
  rw [modifyClient_eq hc]
  exact puts_setClient rfl c _

theorem puts_disconnect {s s' : Server} {c : ClientId} {client : Client}
    (hc : s.clients c = some client) (h : Client.disconnect s c = .ok s') :
    s.Puts c (if client.disconnected then client else client.closed) s' := by
  obtain ⟨found, hlock, h⟩ := bind_eq_ok.mp h
  obtain rfl := Option.some.inj (hc.symm.trans (clients_of_lockClient hlock))
  split at h
  · rename_i hd
    obtain rfl := Except.ok.inj h
    rw [if_pos hd]
    exact puts_self hc rfl
  · rename_i hd
    rw [if_neg hd]
    have hshut := puts_setClient (rfl : s.clients = s.clients) c client.shutDown
    have hlogOut {t : Server} (ht : s.Puts c client.shutDown t) : s.Puts c client.closed
        (t.modifyClient c fun client => { client with stage := .loggedOut }) :=
      ht.trans (puts_modifyClient ht.clients _)
    dsimp only at h
    split at h
    · obtain ⟨t, hremove, h⟩ := bind_eq_ok.mp h
      obtain rfl := Except.ok.inj h
      refine hlogOut ?_
      rw [World.removePlayer] at hremove
      split at hremove
      · obtain rfl := Except.ok.inj hremove
        exact hshut
      · obtain ⟨world, -, hremove⟩ := bind_eq_ok.mp hremove
        obtain rfl := Except.ok.inj hremove
        exact hshut
    · obtain rfl := Except.ok.inj h
      exact hlogOut hshut

theorem exists_puts_runPosted {s s' : Server} {c : ClientId} {client : Client}
    (hc : s.clients c = some client) (h : Client.runPosted s c = .ok s') :
    ∃ new, s.Puts c new s' ∧ client.Settled new := by
  obtain ⟨found, hlock, h⟩ := bind_eq_ok.mp h
  obtain rfl := Option.some.inj (hc.symm.trans (clients_of_lockClient hlock))
  split at h
  · obtain rfl := Except.ok.inj h
    exact ⟨client, puts_self hc rfl, Client.settled_of_eq rfl rfl rfl (.inl rfl)⟩
  · obtain ⟨new, hpush, h⟩ := bind_eq_ok.mp h
    obtain rfl := Except.ok.inj h
    refine ⟨new, puts_setClient rfl c new, .trans ?_ (Client.settled_push hpush)⟩
    exact Client.settled_of_eq rfl rfl rfl (.inl rfl)
  · rename_i strand _
    have hpending : s.Puts c { client with strand, pendingDisconnect := true } _ :=
      puts_setClient rfl c _
    have hsettled : client.Settled { client with strand, pendingDisconnect := true } :=
      Client.settled_of_eq rfl rfl rfl (.inl rfl)
    split at h
    · exact ⟨_, hpending.trans (puts_disconnect hpending.clients h),
        hsettled.trans (Client.settled_disconnect _)⟩
    · obtain rfl := Except.ok.inj h
      exact ⟨_, hpending, hsettled⟩

theorem exists_puts_written {s s' : Server} {c : ClientId} {client : Client}
    (hc : s.clients c = some client) (h : Client.written s c = .ok s') :
    ∃ new, s.Puts c new s' ∧ client.Settled new := by
  obtain ⟨found, hlock, h⟩ := bind_eq_ok.mp h
  obtain rfl := Option.some.inj (hc.symm.trans (clients_of_lockClient hlock))
  split at h
  · cases h
  · rename_i writeQueue _
    dsimp only at h
    split at h
    · obtain ⟨new, hwrite, h⟩ := bind_eq_ok.mp h
      obtain rfl := Except.ok.inj h
      refine ⟨new, puts_setClient rfl c new, .trans ?_ (Client.settled_doWrite hwrite)⟩
      exact Client.settled_of_eq rfl rfl rfl (.inl rfl)
    · have hidle : s.Puts c { client with
          writeQueue, completedWrites := client.completedWrites + 1, writing := false } _ :=
        puts_setClient rfl c _
      split at h
      · obtain ⟨t, hdisconnect, h⟩ := bind_eq_ok.mp h
        obtain rfl := Except.ok.inj h
        have ht := hidle.trans (puts_disconnect hidle.clients hdisconnect)
        have hsettled := Client.settled_disconnect { client with
          writeQueue, completedWrites := client.completedWrites + 1, writing := false }
        exact ⟨_, ht.trans (puts_modifyClient ht.clients _), hsettled.username,
          hsettled.encryptor, hsettled.decryptor, hsettled.stage⟩
      · obtain rfl := Except.ok.inj h
        exact ⟨_, hidle, Client.settled_of_eq rfl rfl rfl (.inl rfl)⟩

theorem exists_puts_writeFailed {s s' : Server} {c : ClientId} {client : Client}
    (hc : s.clients c = some client) (h : Client.writeFailed s c = .ok s') :
    ∃ new, s.Puts c new s' ∧ client.Settled new := by
  obtain ⟨found, hlock, h⟩ := bind_eq_ok.mp h
  obtain rfl := Option.some.inj (hc.symm.trans (clients_of_lockClient hlock))
  have hdone : s.Puts c { client with completedWrites := client.completedWrites + 1 } _ :=
    puts_setClient rfl c _
  have hsettled : client.Settled { client with completedWrites := client.completedWrites + 1 } :=
    Client.settled_of_eq rfl rfl rfl (.inl rfl)
  exact ⟨_, hdone.trans (puts_disconnect hdone.clients h),
    hsettled.trans (Client.settled_disconnect _)⟩

end Server

/-! ## Reads -/

namespace LoginHandler
open Server

/-- The handshake is answered with the greeting, or the client is disconnected. -/
theorem handleConnectedStage_greets {s s' : Server} {c : ClientId} {client : Client} {gen : Int}
    {b b' : StreamBuffer} (hc : s.clients c = some client)
    (h : b.exec (handleConnectedStage s c gen) = .ok (s', b')) :
    Client.disconnect s c = .ok s' ∨ s.Puts c { client with
      strand := client.strand ++ [.push (Conversation.greetingBytes (BitVec.ofInt 32 gen))]
      stage := .loggingIn } s' := by
  obtain ⟨b₀, b₁, -, h⟩ := exec_bind_eq_ok.mp h
  split at h
  · exact .inl (exec_lift_eq_ok h)
  · obtain ⟨request, b₂, -, h⟩ := exec_bind_eq_ok.mp h
    obtain ⟨_, b₃, -, h⟩ := exec_bind_eq_ok.mp h
    split at h
    · exact .inl (exec_lift_eq_ok h)
    · right
      obtain ⟨out, hreply, hout⟩ := connectedReply_key gen
      have hbytes : (longBytes (toInt32 0) ++ [0]) ++ (longBytes (toInt32 gen) ++ []) =
          Conversation.greetingBytes (BitVec.ofInt 32 gen) := by
        rw [List.append_nil]
        rfl
      rw [hbytes] at hout
      rw [hreply, lift_ok, pure_bind] at h
      simp only [Client.send_ok hc hout, lift_ok, pure_bind] at h
      obtain ⟨rfl, -⟩ := Prod.mk.inj (Except.ok.inj h)
      have hsent := puts_setClient (rfl : s.clients = s.clients) c { client with
        strand := client.strand ++ [.push (Conversation.greetingBytes (BitVec.ofInt 32 gen))] }
      exact hsent.trans (puts_modifyClient hsent.clients _)

end LoginHandler

namespace Client
open Server

theorem puts_decodeOpcode {c : ClientId} {st st' : Incoming} {client : Client}
    (hc : st.server.clients c = some client) (h : decodeOpcode c st = .ok st') :
    ∃ new, SameOutput client new ∧ st.server.Puts c new st'.server := by
  obtain ⟨⟨raw, inStream⟩, -, h⟩ := bind_eq_ok.mp h
  obtain ⟨found, hlock, h⟩ := bind_eq_ok.mp h
  obtain rfl := Option.some.inj (hc.symm.trans (clients_of_lockClient hlock))
  obtain ⟨decryptor, hdecryptor, h⟩ := bind_eq_ok.mp h
  obtain rfl := Except.ok.inj h
  have hnew : st.server.Puts c { client with decryptor := some decryptor.getNextKey.2 }
      (st.server.setClient c { client with decryptor := some decryptor.getNextKey.2 }) :=
    puts_setClient rfl c _
  have hgoes : client.GoesOn { client with decryptor := some decryptor.getNextKey.2 } := by
    refine ⟨1, ?_⟩
    rw [deref_eq_ok.mp hdecryptor]
    rfl
  exact ⟨{ client with decryptor := some decryptor.getNextKey.2 },
    ⟨⟨rfl, rfl, rfl, rfl, rfl, rfl, rfl⟩, rfl, rfl, rfl, rfl, hgoes⟩, hnew⟩

theorem clients_dispatch {c : ClientId} {st st' : Incoming} (h : dispatch c st = .ok st') :
    st'.server.clients = st.server.clients := by
  simp only [dispatch] at h
  split at h
  · obtain ⟨⟨server, inStream⟩, hpacket, h⟩ := bind_eq_ok.mp h
    obtain rfl := Except.ok.inj h
    rcases handlePacket_inv hpacket with rfl | ⟨_, p, runPath, tiles, -, -, rfl⟩
    · rfl
    · rfl
  · obtain rfl := Except.ok.inj h
    rfl

/-- One iteration of the packet loop says nothing to its client. -/
theorem puts_packetIteration {c : ClientId} {gen : Int} {st : Incoming} {client : Client}
    {it : ForInStep Incoming} (hc : st.server.clients c = some client)
    (hstage : client.stage = .loggedIn) (h : packetIteration c gen st = .ok it) :
    ∃ new, SameOutput client new ∧ st.server.Puts c new it.value.server := by
  cases packetIteration_inv h with
  | empty _ => exact ⟨client, .refl client, puts_self hc rfl⟩
  | login hc' hnot _ =>
      obtain rfl := Option.some.inj (hc.symm.trans hc')
      exact absurd hstage hnot
  | @packet _ st₁ it₁ _ _ _ hopcode hlength hdispatch =>
      obtain ⟨new, hsame, h₁⟩ : ∃ new, SameOutput client new ∧
          st.server.Puts c new st₁.server := by
        rcases hopcode with ⟨-, hop⟩ | ⟨-, rfl⟩
        · exact puts_decodeOpcode hc hop
        · exact ⟨client, .refl client, puts_self hc rfl⟩
      have h₂ : st.server.Puts c new it₁.value.server := by
        rcases hlength with ⟨-, hlen⟩ | ⟨-, rfl⟩
        · rw [server_decodeLength hlen]
          exact h₁
        · exact h₁
      rcases hdispatch with ⟨st₂, rfl, rfl⟩ | ⟨st₂, st₃, rfl, hd, rfl⟩
      · exact ⟨new, hsame, h₂⟩
      · exact ⟨new, hsame, h₂.trans (puts_self h₂.clients (clients_dispatch hd))⟩

/-- What a read comes to for its client. -/
inductive Reply (s : Server) (c : ClientId) (old : Client) (gen : Int) (data : List Byte)
    (s' : Server) : Prop where
  | quiet {new : Client} : SameOutput old new → s.Puts c new s' → Reply s c old gen data s'
  | closing {t : Server} {mid : Client} : SameOutput old mid → s.Puts c mid t →
      disconnect t c = .ok s' → Reply s c old gen data s'
  | greeting {mid : Client} : old.stage = .connected → SameOutput old mid → s.Puts c { mid with
      strand := mid.strand ++ [.push (Conversation.greetingBytes (BitVec.ofInt 32 gen))]
      stage := .loggingIn } s' → Reply s c old gen data s'
  | refusal {t : Server} {mid : Client} {r : LoginRequest} : old.stage = .loggingIn →
      LoginHandler.loginRequest data = some r → SameQueue old mid → mid.stage = .loggingIn →
      s.Puts c mid t → LoginHandler.response t c r.username = LoginResponse.accountOnline →
      LoginHandler.enterWorld t c r.username = .ok s' → Reply s c old gen data s'
  | admission {mid : Client} {r : LoginRequest} {p : PlayerId} {frames : List OutFrame} :
      old.stage = .loggingIn → LoginHandler.loginRequest data = some r → SameQueue old mid →
      mid.encryptor = some (Conversation.outCipher r) →
      mid.decryptor = some (ISAACCipher.new (LoginHandler.seed r.clientHalf r.serverHalf 0)) →
      (∀ f ∈ frames, Conversation.Framed f) →
      s.Puts c ((LoginHandler.admitted mid r.username LoginResponse.ok p).pushFrames
        (Conversation.outCipher r) frames) s' → Reply s c old gen data s'

theorem framed_loginFrames (position : Position) :
    ∀ f ∈ Player.loginFrames position, Conversation.Framed f := by
  intro f hf
  rcases List.mem_cons.mp hf with rfl | hf
  · exact .mapRegion position
  · rcases List.mem_append.mp hf with hf | hf
    · obtain ⟨⟨menuId, form⟩, -, rfl⟩ := List.mem_map.mp hf
      exact .sidebar menuId form
    · rw [List.mem_singleton.mp hf]
      exact .message (by decide)

theorem puts_counted {s : Server} (c : ClientId) (client : Client) (now : Int) :
    s.Puts c (countPacket client now).1 (counted s c client now) := puts_setClient rfl c _

/-- A login that succeeds refuses the client or admits it. -/
theorem reply_outcome {s t s' : Server} {c : ClientId} {old mid : Client} {gen : Int}
    {data : List Byte} {r : LoginRequest} (ht : t.Sound) (hold : old.stage = .loggingIn)
    (hr : LoginHandler.loginRequest data = some r) (hsame : SameQueue old mid)
    (hmid : mid.stage = .loggingIn) (he : mid.encryptor = some (Conversation.outCipher r))
    (hd : mid.decryptor = some (ISAACCipher.new (LoginHandler.seed r.clientHalf r.serverHalf 0)))
    (hput : s.Puts c mid t)
    (ho : LoginHandler.Outcome t c mid (Conversation.outCipher r) r.username s') :
    Reply s c old gen data s' := by
  cases ho with
  | @refused p hname =>
      have hnot : mid.stage ≠ .loggedIn := by
        rw [hmid]
        decide
      have hresponse := LoginHandler.response_eq ht hput.clients hnot r.username
      rw [hname, if_neg (Option.some_ne_none p)] at hresponse
      refine .refusal hold hr hsame hmid hput hresponse ?_
      rw [LoginHandler.enterWorld_refused hput.clients hresponse, requestDisconnect,
        modifyClient_eq (setClient_clients_self ..), setClient_setClient]
  | full _ _ =>
      have hframes : ∀ f ∈ ([] : List OutFrame), Conversation.Framed f := by
        intro f hf
        cases hf
      have hadmitted : s.Puts c ((LoginHandler.admitted mid r.username LoginResponse.ok
          t.nextPlayer).pushFrames (Conversation.outCipher r) []) _ :=
        hput.trans (puts_setClient rfl c _)
      exact .admission hold hr hsame he hd hframes hadmitted
  | entered _ _ =>
      exact .admission hold hr hsame he hd (framed_loginFrames { x := 3200, y := 3200 })
        (hput.trans (puts_setClient rfl c _))

theorem reply_login {s t s' : Server} {c : ClientId} {old mid : Client} {gen : Int}
    {data : List Byte} {b : StreamBuffer} (ht : t.Sound) (hsame : SameOutput old mid)
    (hput : s.Puts c mid t) (hnot : old.stage ≠ .loggedIn)
    (h : (ofData data).exec (LoginHandler.process t c gen) = .ok (s', b)) :
    Reply s c old gen data s' := by
  have hc := hput.clients
  cases hstage : old.stage with
  | connected =>
      have hmid := hsame.stage.trans hstage
      simp only [StreamBuffer.exec, LoginHandler.process_connected hc hmid] at h
      rcases LoginHandler.handleConnectedStage_greets hc h with hdisconnect | hgreets
      · exact .closing hsame hput hdisconnect
      · exact .greeting hstage hsame (hput.trans hgreets)
  | loggingIn =>
      have hmid := hsame.stage.trans hstage
      simp only [StreamBuffer.exec, LoginHandler.process_loggingIn hc hmid] at h
      rcases LoginHandler.handleLoggingInStage_outcome ht hc hmid h with
        ⟨-, hdisconnect⟩ | ⟨r, hr, ho⟩
      · exact .closing hsame hput hdisconnect
      · have hciphered : SameQueue mid (LoginHandler.ciphered mid r) :=
          ⟨rfl, rfl, rfl, rfl, rfl, rfl, rfl⟩
        exact reply_outcome (ht.quiet (LoginHandler.quiet_ciphered hc r)) hstage hr
          (hsame.toSameQueue.trans hciphered) hmid rfl rfl (hput.trans (puts_setClient rfl c _)) ho
  | loggedIn => exact absurd hstage hnot
  | loggedOut =>
      rw [LoginHandler.process_loggedOut hc (hsame.stage.trans hstage)] at h
      obtain ⟨rfl, -⟩ := Prod.mk.inj (Except.ok.inj h)
      exact .quiet hsame hput

/-- The packet loop leaves its client logged in and says nothing to it. -/
structure Listening (s : Server) (c : ClientId) (old : Client) (st : Incoming) : Prop where
  puts : ∃ new, SameOutput old new ∧ s.Puts c new st.server
  logged : old.stage = .loggedIn

theorem Listening.iteration {s : Server} {c : ClientId} {old : Client} {gen : Int} {st : Incoming}
    {it : ForInStep Incoming} (h : Listening s c old st)
    (hit : packetIteration c gen st = .ok it) : Listening s c old it.value := by
  obtain ⟨⟨mid, hsame, hput⟩, hlogged⟩ := h
  obtain ⟨new, hsame', hput'⟩ :=
    puts_packetIteration hput.clients (hsame.stage.trans hlogged) hit
  exact ⟨⟨new, hsame.trans hsame', hput.trans hput'⟩, hlogged⟩

theorem reply_read {s : Server} (hs : s.Sound) {c : ClientId} {client : Client} {fuel : Nat}
    {now gen : Int} {data : List Byte} {st : Incoming} (hc : s.clients c = some client)
    (hdata : data ≠ []) (h : readIncomingData fuel s c now gen data = some (.ok st)) :
    Reply s c client gen data st.server := by
  have hcounted := hs.quiet (quiet_counted hc now)
  have hsame := sameOutput_countPacket client now
  have hput := puts_counted (s := s) c client now
  cases readIncomingData_outcome hc hdata h with
  | flood _ hdisconnect => exact .closing hsame hput hdisconnect
  | packets hflood hlogged _ =>
      obtain ⟨st', hends, hserver, -⟩ := readIncomingData_ends hc hflood h
      obtain ⟨⟨new, hnew, hputs⟩, -⟩ := hends.invariant (P := Listening s c client)
        (Q := Listening s c client) (fun _ _ ha hit => ha.iteration hit)
        (fun _ _ ha hit => ha.iteration hit) ⟨⟨_, hsame, hput⟩, hlogged⟩
      rw [hserver]
      exact .quiet hnew hputs
  | login _ hnot hrun => exact reply_login hcounted hsame hput hnot hrun

theorem Reply.exists_puts {s s' : Server} {c : ClientId} {old : Client} {gen : Int}
    {data : List Byte} (h : Reply s c old gen data s') : ∃ new, s.Puts c new s' := by
  cases h with
  | quiet _ hput => exact ⟨_, hput⟩
  | closing _ hput hdisconnect => exact ⟨_, hput.trans (puts_disconnect hput.clients hdisconnect)⟩
  | greeting _ _ hput => exact ⟨_, hput⟩
  | @refusal t mid r _ _ _ _ hput hresponse henter =>
      rw [LoginHandler.enterWorld_refused hput.clients hresponse] at henter
      obtain rfl := Except.ok.inj henter
      have hanswered := hput.trans (puts_setClient (rfl : t.clients = t.clients) c
        (LoginHandler.answered mid r.username LoginResponse.accountOnline))
      exact ⟨_, hanswered.trans (puts_modifyClient hanswered.clients _)⟩
  | admission _ _ _ _ _ _ hput => exact ⟨_, hput⟩

end Client

/-! ## Ticks -/

namespace MovementHandler

theorem framed_regionFrames (player : Player) :
    ∀ f ∈ regionFrames player, Conversation.Framed f := by
  intro f hf
  rw [regionFrames] at hf
  split at hf
  · cases hf
  · rw [List.mem_singleton.mp hf]
    exact .mapRegion _

end MovementHandler

namespace PlayerUpdating

/-- An update announces its own size. -/
theorem framed_update {s : Server} {p : PlayerId} {body : List Byte}
    (hlist : (s.players p).localPlayers.length ≤ 255) (hb : UpdateBody s p body) :
    Conversation.Framed ⟨81, body⟩ := by
  obtain ⟨bitBytes, pad, hbits, hpad, rfl⟩ := hb.exists_bits
  have hsmall := updateBits_length_le hlist
  have hsmall' := updateBlock_length_le hlist
  have hlength := congrArg List.length hbits
  rw [BitStrings.bytesBits_length, List.length_append] at hlength
  refine .update ?_
  rw [List.length_append]
  omega

end PlayerUpdating

namespace Server
open World MovementHandler PlayerUpdating

/-- The local list of the client's player has 255 entries. -/
def ListFull (s : Server) (c : ClientId) : Prop :=
  ∃ p ∈ s.registered, (s.players p).client = c ∧ (s.players p).localPlayers.length = 255

/-- The frames of a tick reach the client. When its player's list is full, a key may have been
drawn behind them for an update that was given up. -/
inductive Ticking (s : Server) (c : ClientId) (old : Client) : Client → Prop where
  | updated {cipher : ISAACCipher} {frames : List Client.OutFrame} :
      old.encryptor = some cipher → (∀ f ∈ frames, Conversation.Framed f) →
      Ticking s c old (old.pushFrames cipher frames)
  | skipped {cipher : ISAACCipher} {frames : List Client.OutFrame} :
      old.encryptor = some cipher → (∀ f ∈ frames, Conversation.Framed f) → s.ListFull c →
      Ticking s c old ((old.pushFrames cipher frames).drawKey (cipher.advance frames.length))

/-- A tick speaks to the clients of the registered players only. -/
theorem ticking_of_process {s s' : Server} (hs : s.Sound) (hrun : World.process s = .ok s')
    {c : ClientId} {old : Client} (hc : s.clients c = some old) :
    s'.clients c = some old ∨ old.stage = .loggedIn ∧
      ∃ new, s'.clients c = some new ∧ Ticking s c old new := by
  obtain ⟨t, u, ht, hu, hregistered, rfl⟩ := process_phases hs hrun
  have htSound := hs.quiet (ht.quiet hs)
  have howner (p : PlayerId) : (t.players p).client = (s.players p).client := (ht.quiet hs).owner p
  rw [(resetAll_frame u s.registered).1]
  by_cases howned : ∃ p ∈ s.registered, (s.players p).client = c
  · obtain ⟨p, hp, rfl⟩ := howned
    obtain ⟨client, cipher, hfound, hstage, -, he, -⟩ := hs.client_of_registered hp
    obtain rfl := Option.some.inj (hc.symm.trans hfound)
    have hp' : p ∈ t.registered := hregistered ▸ hp
    have hregion := framed_regionFrames (s.players p)
    have hsent := ht.sent p hp old cipher hc he
    have he' := Client.pushFrames_encryptor (regionFrames (s.players p)) he
    right
    refine ⟨hstage, ?_⟩
    rw [← howner] at hsent
    by_cases hroom : (keptPlayers t p).length < 255
    · obtain ⟨body, hbody, hdelivered⟩ := hu.sent p hp' hroom
      have hclient := hdelivered _ _ hsent he'
      rw [← Client.pushFrames_append] at hclient
      refine ⟨_, howner p ▸ hclient, .updated he fun f hf => ?_⟩
      rcases List.mem_append.mp hf with hf | hf
      · exact hregion f hf
      · rw [List.mem_singleton.mp hf]
        exact framed_update (htSound.lists p).1 hbody
    · have hclient := hu.silent p hp' (Nat.not_lt.mp hroom) _ _ hsent he'
      have hlist : (t.players p).localPlayers = (s.players p).localPlayers := by
        rw [ht.player p hp, processed_localPlayers]
      have hfilter : (keptPlayers t p).length ≤ (t.players p).localPlayers.length :=
        List.length_filter_le ..
      rw [hlist] at hfilter
      have hfull : s.ListFull (s.players p).client :=
        ⟨p, hp, rfl, Nat.le_antisymm (hs.lists p).1 ((Nat.not_lt.mp hroom).trans hfilter)⟩
      exact ⟨_, howner p ▸ hclient, .skipped he hregion hfull⟩
  · left
    rw [hu.others c fun p hp howner' => howned ⟨p, hregistered ▸ hp, (howner p).symm.trans howner'⟩,
      ht.others c fun p hp howner' => howned ⟨p, hp, howner'⟩, hc]

/-! ## Steps -/

/-- What a step is to a client. -/
inductive Part (s : Server) (e : Event) (c : ClientId) (old : Client) (s' : Server) : Prop where
  | apart : e.client ≠ some c → s'.clients c = some old → Part s e c old s'
  | ticking {new : Client} : e = .tick → old.stage = .loggedIn → s'.clients c = some new →
      Ticking s c old new → Part s e c old s'
  | read {now gen : Int} {data : List Byte} : e = .receive c now gen data →
      Client.Reply s c old gen data s' → Part s e c old s'
  | readFailed : e = .readFailed c → Client.disconnect s c = .ok s' → Part s e c old s'
  | runPosted : e = .runPosted c → Client.runPosted s c = .ok s' → Part s e c old s'
  | written : e = .written c → old.outstanding ≠ [] → Client.written s c = .ok s' →
      Part s e c old s'
  | writeFailed : e = .writeFailed c → old.outstanding ≠ [] → Client.writeFailed s c = .ok s' →
      Part s e c old s'

theorem part_of_puts {s s' : Server} {e : Event} {c d : ClientId} {old new : Client}
    (hc : s.clients c = some old) (h : s.Puts d new s') (he : e.client = some d) (hd : c ≠ d) :
    Part s e c old s' := by
  refine .apart (fun hc' => ?_) ((h.others hd).trans hc)
  exact hd (Option.some.inj (hc'.symm.trans he))

theorem Step.part {s s' : Server} {e : Event} (h : Step s e s') (hs : s.Sound) {c : ClientId}
    {old : Client} (hc : s.clients c = some old) (hkept : e ≠ .destroy c) : Part s e c old s' := by
  cases h with
  | @accept d hunused =>
      have hd : c ≠ d := by
        rintro rfl
        cases hc.symm.trans hunused.1
      exact part_of_puts hc (puts_setClient (rfl : s.clients = s.clients) d {}) rfl hd
  | @receive d now gen data fuel st hdata _ hread =>
      obtain ⟨client, hd⟩ := Client.exists_reader hread
      have hreply := Client.reply_read hs hd hdata hread
      by_cases hcd : c = d
      · subst hcd
        obtain rfl := Option.some.inj (hc.symm.trans hd)
        exact .read rfl hreply
      · obtain ⟨new, hput⟩ := hreply.exists_puts
        exact part_of_puts hc hput rfl hcd
  | @readFailed _ d hrun =>
      by_cases hcd : c = d
      · subst hcd
        exact .readFailed rfl hrun
      · obtain ⟨client, hlock, -⟩ := bind_eq_ok.mp hrun
        exact part_of_puts hc (puts_disconnect (clients_of_lockClient hlock) hrun) rfl hcd
  | @runPosted _ d hrun =>
      by_cases hcd : c = d
      · subst hcd
        exact .runPosted rfl hrun
      · obtain ⟨client, hlock, -⟩ := bind_eq_ok.mp hrun
        obtain ⟨new, hput, -⟩ := exists_puts_runPosted (clients_of_lockClient hlock) hrun
        exact part_of_puts hc hput rfl hcd
  | @written _ d client hd hout hrun =>
      by_cases hcd : c = d
      · subst hcd
        obtain rfl := Option.some.inj (hc.symm.trans hd)
        exact .written rfl hout hrun
      · obtain ⟨new, hput, -⟩ := exists_puts_written hd hrun
        exact part_of_puts hc hput rfl hcd
  | @writeFailed _ d client hd hout hrun =>
      by_cases hcd : c = d
      · subst hcd
        obtain rfl := Option.some.inj (hc.symm.trans hd)
        exact .writeFailed rfl hout hrun
      · obtain ⟨new, hput, -⟩ := exists_puts_writeFailed hd hrun
        exact part_of_puts hc hput rfl hcd
  | @destroy d client _ _ _ _ =>
      have hd : c ≠ d := fun hcd => hkept (congrArg Event.destroy hcd.symm)
      refine .apart (fun hc' => hd (Option.some.inj hc').symm) ?_
      exact (destroyClient_of_ne s hd).trans hc
  | tick hrun =>
      rcases ticking_of_process hs hrun hc with hsame | ⟨hstage, new, hnew, hticking⟩
      · exact .apart (Option.some_ne_none c).symm hsame
      · exact .ticking rfl hstage hnew hticking
  | reorder _ => exact .apart (Option.some_ne_none c).symm hc

/-- Only ticks and reads before the login do more to a client than log it out. -/
theorem Part.settled {s s' : Server} {e : Event} {c : ClientId} {old new : Client}
    (h : s.Part e c old s') (hc : s.clients c = some old) (hc' : s'.clients c = some new) :
    old.Settled new ∨ (e = .tick ∧ old.stage = .loggedIn ∧ Ticking s c old new) ∨
      ∃ now gen data, e = .receive c now gen data ∧ old.stage ≠ .loggedIn ∧
        Client.Reply s c old gen data s' := by
  have hput {mid : Client} (hput : s.Puts c mid s') (hsettled : old.Settled mid) :
      old.Settled new := by
    obtain rfl := Option.some.inj (hc'.symm.trans hput.clients)
    exact hsettled
  cases h with
  | apart _ hsame =>
      obtain rfl := Option.some.inj (hc'.symm.trans hsame)
      exact .inl (Client.SameOutput.refl new).settled
  | ticking htick hlogged hnew hticking =>
      obtain rfl := Option.some.inj (hc'.symm.trans hnew)
      exact .inr (.inl ⟨htick, hlogged, hticking⟩)
  | @read now gen data hread hreply =>
      have hearly {stage : NetworkStage} (h : old.stage = stage) (hne : stage ≠ .loggedIn) :
          old.stage ≠ .loggedIn := fun hlogged => hne (h.symm.trans hlogged)
      cases hreply with
      | quiet hsame h => exact .inl (hput h hsame.settled)
      | @closing t mid hsame h hdisconnect =>
          exact .inl (hput (h.trans (puts_disconnect h.clients hdisconnect))
            (hsame.settled.trans (Client.settled_disconnect mid)))
      | greeting h hsame hput =>
          exact .inr (.inr ⟨now, gen, data, hread, hearly h (by decide), .greeting h hsame hput⟩)
      | refusal h hr hsame hmid hput hresponse henter =>
          exact .inr (.inr ⟨now, gen, data, hread, hearly h (by decide),
            .refusal h hr hsame hmid hput hresponse henter⟩)
      | admission h hr hsame he hd hframed hput =>
          exact .inr (.inr ⟨now, gen, data, hread, hearly h (by decide),
            .admission h hr hsame he hd hframed hput⟩)
  | readFailed _ hrun =>
      exact .inl (hput (puts_disconnect hc hrun) (Client.settled_disconnect old))
  | runPosted _ hrun =>
      obtain ⟨mid, h, hsettled⟩ := exists_puts_runPosted hc hrun
      exact .inl (hput h hsettled)
  | written _ _ hrun =>
      obtain ⟨mid, h, hsettled⟩ := exists_puts_written hc hrun
      exact .inl (hput h hsettled)
  | writeFailed _ _ hrun =>
      obtain ⟨mid, h, hsettled⟩ := exists_puts_writeFailed hc hrun
      exact .inl (hput h hsettled)

end Server
end AsioRsps
