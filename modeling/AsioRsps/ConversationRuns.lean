import AsioRsps.ClientTurns
import AsioRsps.Simulations

/-!
# Connections in runs of the server

Every run of the whole server is, for each of its clients, a run of the client's connection
alone, and what the server says to the client on the way is a conversation: the write queue
carries nothing else, and carries it in order.
-/
namespace AsioRsps
open BitStrings (Byte)
open StreamBuffer LabelledRuns
open FallibleLoop (bind_eq_ok)
open Conversation (Message Phase Speak Framed spoken outCipher greetingBytes messages protocol)

namespace Client

/-- What has been handed over, what is queued behind it, and what is still posted. -/
def transcript (client : Client) : List (List Byte) :=
  client.asyncWrites ++ (client.writeQueue.tail ++ snapshots client.strand)

/-- What the strand and the completed writes do to a connection. -/
inductive Transport where
  | runPosted | written | writeFailed
  deriving DecidableEq

def LinkEvent.transport : LinkEvent → Option Transport
  | .runPosted => some .runPosted
  | .written => some .written
  | .writeFailed => some .writeFailed
  | _ => none

def transports (links : List (Taken Link LinkEvent)) : List Transport :=
  links.filterMap fun t => t.label.transport

theorem transports_append (links more : List (Taken Link LinkEvent)) :
    transports (links ++ more) = transports links ++ transports more := List.filterMap_append

/-- Where the conversation with the client has got to. -/
def InPhase (client : Client) (phase : Phase) : Prop :=
  match client.stage with
  | .connected => phase = .silent
  | .loggingIn => phase = .greeted
  | .loggedIn => ∃ cipher, client.encryptor = some cipher ∧ phase = .playing cipher
  | .loggedOut => True

theorem InPhase.settled {old new : Client} {phase : Phase} (h : old.InPhase phase)
    (hnew : old.Settled new) : new.InPhase phase := by
  rcases hnew.stage with hstage | hstage
  · rw [InPhase, hstage, hnew.encryptor]
    exact h
  · rw [InPhase, hstage]
    trivial

theorem inPhase_greeted {client : Client} (hstage : client.stage = .loggingIn) :
    client.InPhase .greeted := by
  rw [InPhase, hstage]

theorem InPhase.silent {client : Client} {phase : Phase} (h : client.InPhase phase)
    (hstage : client.stage = .connected) : phase = .silent := by
  rwa [InPhase, hstage] at h

theorem InPhase.greeted {client : Client} {phase : Phase} (h : client.InPhase phase)
    (hstage : client.stage = .loggingIn) : phase = .greeted := by
  rwa [InPhase, hstage] at h

theorem inPhase_playing {client : Client} {cipher : ISAACCipher} (hstage : client.stage = .loggedIn)
    (he : client.encryptor = some cipher) : client.InPhase (.playing cipher) := by
  rw [InPhase, hstage]
  exact ⟨cipher, he, rfl⟩

theorem InPhase.playing {client : Client} {cipher : ISAACCipher} {phase : Phase}
    (h : client.InPhase phase) (hstage : client.stage = .loggedIn)
    (he : client.encryptor = some cipher) : phase = .playing cipher := by
  rw [InPhase, hstage] at h
  obtain ⟨cipher', he', rfl⟩ := h
  rw [Option.some.inj (he.symm.trans he')]

end Client

namespace Server

def Event.transport (c : ClientId) : Event → Option Client.Transport
  | .runPosted d => if d = c then some .runPosted else none
  | .written d => if d = c then some .written else none
  | .writeFailed d => if d = c then some .writeFailed else none
  | _ => none

/-- The step is a reason to say this to the client: a greeting answers one of its reads with
the key that the read has drawn, a refusal or an admission answers a read of a login request, and
an update is given up, with its key, only when there is no room for it. -/
def Prompts (c : ClientId) (s : Server) (e : Event) : Message → Prop
  | .greeting key => ∃ now gen data, e = .receive c now gen data ∧ key = BitVec.ofInt 32 gen
  | .refusal => ∃ now gen data r, e = .receive c now gen data ∧
      LoginHandler.loginRequest data = some r
  | .admission r => ∃ now gen data, e = .receive c now gen data ∧
      LoginHandler.loginRequest data = some r
  | .frame _ => e = .tick ∨ ∃ now gen data, e = .receive c now gen data
  | .skip => e = .tick ∧ s.ListFull c

/-- Only ticks and the reads of clients that are not logged in make the server say anything. -/
inductive Speaks (c : ClientId) (s : Server) : Event → Prop where
  | tick : Speaks c s .tick
  | receive {client : Client} {now gen : Int} {data : List Byte} : s.clients c = some client →
      client.stage ≠ .loggedIn → Speaks c s (.receive c now gen data)

end Server

/-! ## Steps of a connection -/

namespace Client

/-- Sends, one after another. -/
theorem run_sends {c : ClientId} (bytes : List (List Byte)) {l : Link} {client : Client}
    (hc : l.server.clients c = some client) : ∃ more, Run (LinkStep c) l more
      { l with
        server := l.server.setClient c
          { client with strand := client.strand ++ bytes.map .push }
        sent := l.sent ++ bytes } ∧ transports more = [] := by
  induction bytes generalizing l client with
  | nil =>
      rw [List.map_nil, List.append_nil, List.append_nil, Server.setClient_eq_self hc]
      exact ⟨[], .start, rfl⟩
  | cons data bytes ih =>
      let out : StreamBuffer := { buffer := data, pos := data.length }
      have htake : out.buffer.take out.pos = data := List.take_length
      have hsend : send l.server c out = .ok (l.server.setClient c
          { client with strand := client.strand ++ [.push data] }) := by
        rw [send, if_neg (Nat.lt_irrefl _), htake, Server.modifyClient_eq hc]
      have hstep := LinkStep.send (l := l) hsend
      rw [htake] at hstep
      obtain ⟨more, hmore, htransport⟩ := ih (l := { l with
        server := l.server.setClient c { client with strand := client.strand ++ [.push data] }
        sent := l.sent ++ [data] }) (Server.setClient_clients_self ..)
      have hrun := (Run.start.snoc hstep).append hmore
      rw [Server.setClient_setClient, List.append_assoc client.strand, List.append_assoc l.sent]
        at hrun
      refine ⟨_, hrun, ?_⟩
      rw [transports_append, htransport]
      rfl

/-- A change after which some more has been posted. -/
theorem run_posts {c : ClientId} {bytes : List (List Byte)} {l : Link} {client client' : Client}
    {s' : Server} (hc : l.server.clients c = some client) (hc' : s'.clients c = some client')
    (h : SameQueue { client with strand := client.strand ++ bytes.map .push } client') :
    ∃ more, Run (LinkStep c) l more { l with server := s', sent := l.sent ++ bytes } ∧
      transports more = [] := by
  let before : Client := { client' with strand := client.strand }
  have hother : LinkStep c l .other { l with server := s'.setClient c before } :=
    .other hc (Server.setClient_clients_self ..) ⟨h.disconnected, rfl, h.writeQueue, h.writing,
      h.pendingDisconnect, h.asyncWrites, h.completedWrites⟩
  obtain ⟨more, hmore, htransport⟩ := run_sends bytes
    (l := { l with server := s'.setClient c before }) (Server.setClient_clients_self ..)
  have hafter : { before with strand := before.strand ++ bytes.map .push } = client' := by
    have hstrand : client'.strand = client.strand ++ bytes.map .push := h.strand
    change { client' with strand := client.strand ++ bytes.map .push } = client'
    rw [← hstrand]
  rw [hafter, Server.setClient_setClient, Server.setClient_eq_self hc'] at hmore
  refine ⟨_, (Run.start.snoc hother).append hmore, ?_⟩
  rw [transports_append, htransport]
  rfl

/-- Frames encrypted one after another. -/
theorem run_frames {frames : List OutFrame} (h : ∀ f ∈ frames, Framed f) (cipher : ISAACCipher) :
    ∃ words, Run Speak (.playing cipher) words (.playing (cipher.advance frames.length)) ∧
      spoken words = encryptAll cipher frames ∧
      ∀ t ∈ words, ∃ f, t.label = .frame f := by
  induction frames generalizing cipher with
  | nil => exact ⟨[], .start, rfl, fun t ht => by cases ht⟩
  | cons f frames ih =>
      obtain ⟨words, hwords, hspoken, hlabels⟩ :=
        ih (fun g hg => h g (List.mem_cons_of_mem _ hg)) cipher.getNextKey.2
      have hfirst := Run.start.snoc (Speak.frame cipher (h f List.mem_cons_self))
      refine ⟨_, hfirst.append hwords, ?_, ?_⟩
      · rw [Conversation.spoken_append, hspoken]
        rfl
      · intro t ht
        rcases List.mem_append.mp ht with ht | ht
        · rw [List.mem_singleton.mp ht]
          exact ⟨f, rfl⟩
        · exact hlabels t ht

/-! ## One step of the server -/

/-- The connection and the conversation go on from `l` and `phase` as the event has it. -/
structure Carried (c : ClientId) (e : Server.Event) (l : Link) (phase : Phase) (s' : Server)
    (more : List (Taken Link LinkEvent)) (l' : Link) (words : List (Taken Phase Message))
    (phase' : Phase) : Prop where
  run : Run (LinkStep c) l more l'
  server : l'.server = s'
  transport : transports more = (e.transport c).toList
  talk : Run Speak phase words phase'
  sent : l'.sent = l.sent ++ spoken words
  prompted : ∀ t ∈ words, Server.Prompts c l.server e t.label
  speaks : words = [] ∨ Server.Speaks c l.server e
  client : ∃ client, s'.clients c = some client ∧ client.InPhase phase'

/-- Nothing is said. -/
theorem carried_silent {c : ClientId} {e : Server.Event} {l l' : Link} {phase : Phase}
    {more : List (Taken Link LinkEvent)} (hrun : Run (LinkStep c) l more l')
    (htransport : transports more = (e.transport c).toList) (hsent : l'.sent = l.sent)
    {client : Client} (hc : l'.server.clients c = some client) (hphase : client.InPhase phase) :
    Carried c e l phase l'.server more l' [] phase where
  run := hrun
  server := rfl
  transport := htransport
  talk := .start
  sent := by
    rw [hsent]
    exact (List.append_nil _).symm
  prompted t ht := by cases ht
  speaks := .inl rfl
  client := ⟨client, hc, hphase⟩

/-- Something is posted and nothing else happens. -/
theorem carried_posts {c : ClientId} {e : Server.Event} {l : Link} {phase phase' : Phase}
    {s' : Server} {old new : Client} {words : List (Taken Phase Message)}
    (htalk : Run Speak phase words phase') (htransport : e.transport c = none)
    (hspeaks : Server.Speaks c l.server e)
    (hc : l.server.clients c = some old) (hc' : s'.clients c = some new)
    (hsame : SameQueue { old with strand := old.strand ++ (spoken words).map .push } new)
    (hphase : new.InPhase phase') (hprompted : ∀ t ∈ words, Server.Prompts c l.server e t.label) :
    ∃ more l', Carried c e l phase s' more l' words phase' := by
  obtain ⟨more, hmore, hnone⟩ := run_posts hc hc' hsame
  exact ⟨more, _, hmore, rfl, by rw [hnone, htransport]; rfl, htalk, rfl, hprompted,
    .inr hspeaks, new, hc', hphase⟩

/-- What was posted to the client by `pushFrames`. -/
theorem sameQueue_pushFrames {client : Client} {cipher : ISAACCipher}
    (he : client.encryptor = some cipher) (frames : List OutFrame) :
    SameQueue { client with strand := client.strand ++ (encryptAll cipher frames).map .push }
      (client.pushFrames cipher frames) := by
  rw [pushFrames_eq client cipher frames he]
  exact ⟨rfl, rfl, rfl, rfl, rfl, rfl, rfl⟩

theorem carried_ticking {c : ClientId} {l : Link} {phase : Phase} {s' : Server}
    {old new : Client} (hc : l.server.clients c = some old) (hphase : old.InPhase phase)
    (hstage : old.stage = .loggedIn) (hc' : s'.clients c = some new)
    (h : Server.Ticking l.server c old new) :
    ∃ more l' words phase', Carried c .tick l phase s' more l' words phase' := by
  cases h with
  | @updated cipher frames he hframed =>
      obtain rfl := hphase.playing hstage he
      obtain ⟨words, hwords, hspoken, hlabels⟩ := run_frames hframed cipher
      have hsame := sameQueue_pushFrames he frames
      rw [← hspoken] at hsame
      have hphase' : (old.pushFrames cipher frames).InPhase
          (.playing (cipher.advance frames.length)) := by
        refine inPhase_playing ?_ (pushFrames_encryptor frames he)
        rw [(World.quietClient_pushFrames he frames).stage, hstage]
      obtain ⟨more, l', hcarried⟩ := carried_posts hwords (e := .tick) rfl .tick hc hc' hsame
        hphase' fun t ht => by
        obtain ⟨f, hf⟩ := hlabels t ht
        rw [hf]
        exact .inl rfl
      exact ⟨more, l', words, _, hcarried⟩
  | @skipped cipher frames he hframed hfull =>
      obtain rfl := hphase.playing hstage he
      obtain ⟨words, hwords, hspoken, hlabels⟩ := run_frames hframed cipher
      have htalk := hwords.snoc (Speak.skip (cipher.advance frames.length))
      have hsame := sameQueue_pushFrames he frames
      have hspoken' (phase phase' : Phase) :
          spoken (words ++ [⟨phase, .skip, phase'⟩]) = encryptAll cipher frames := by
        rw [Conversation.spoken_append, hspoken]
        exact List.append_nil _
      have hphase' : ((old.pushFrames cipher frames).drawKey (cipher.advance frames.length)).InPhase
          (.playing (cipher.advance frames.length).getNextKey.2) := by
        refine inPhase_playing ?_ rfl
        change (old.pushFrames cipher frames).stage = .loggedIn
        rw [(World.quietClient_pushFrames he frames).stage, hstage]
      obtain ⟨more, l', hcarried⟩ := carried_posts htalk (e := .tick) rfl .tick hc hc'
        (by rw [hspoken']; exact ⟨hsame.disconnected, hsame.strand, hsame.writeQueue,
          hsame.writing, hsame.pendingDisconnect, hsame.asyncWrites, hsame.completedWrites⟩)
        hphase' fun t ht => by
          rcases List.mem_append.mp ht with ht | ht
          · obtain ⟨f, hf⟩ := hlabels t ht
            rw [hf]
            exact .inl rfl
          · rw [List.mem_singleton.mp ht]
            exact ⟨rfl, hfull⟩
      exact ⟨more, l', _, _, hcarried⟩

theorem transport_of_apart {c : ClientId} {e : Server.Event} (h : e.client ≠ some c) :
    e.transport c = none := by
  cases e with
  | runPosted d => exact if_neg fun hd => h (congrArg some hd)
  | written d => exact if_neg fun hd => h (congrArg some hd)
  | writeFailed d => exact if_neg fun hd => h (congrArg some hd)
  | _ => rfl

/-- A disconnect on the way of a read or at its failure. -/
theorem carried_disconnect {c : ClientId} {e : Server.Event} {l : Link} {phase : Phase}
    {t s' : Server} {old mid : Client} (hc : l.server.clients c = some old)
    (hphase : old.InPhase phase) (htransport : e.transport c = none) (hsame : SameOutput old mid)
    (hput : l.server.Puts c mid t) (h : disconnect t c = .ok s') :
    ∃ more l', Carried c e l phase s' more l' [] phase := by
  have hother : LinkStep c l .other { l with server := t } :=
    .other hc hput.clients hsame.toSameQueue
  have hrun := (Run.start.snoc hother).snoc (LinkStep.disconnect h)
  have hclient := (Server.puts_disconnect hput.clients h).clients
  exact ⟨_, _, carried_silent hrun (by rw [htransport]; rfl) rfl hclient
    ((hphase.settled hsame.settled).settled (settled_disconnect mid))⟩

/-- What is posted to a client that is admitted. -/
theorem sameQueue_admitted {old mid : Client} {r : LoginRequest} (hsame : SameQueue old mid)
    (he : mid.encryptor = some (outCipher r)) (p : PlayerId) (frames : List OutFrame) :
    SameQueue { old with strand := old.strand ++
        (LoginHandler.replyBytes LoginResponse.ok :: encryptAll (outCipher r) frames).map .push }
      ((LoginHandler.admitted mid r.username LoginResponse.ok p).pushFrames (outCipher r)
        frames) := by
  have hadmitted : (LoginHandler.admitted mid r.username LoginResponse.ok p).encryptor =
      some (outCipher r) := he
  have hpushed := sameQueue_pushFrames hadmitted frames
  have hstrand : (mid.strand ++ [.push (LoginHandler.replyBytes LoginResponse.ok)]) ++
      (encryptAll (outCipher r) frames).map .push = old.strand ++
        (LoginHandler.replyBytes LoginResponse.ok ::
          encryptAll (outCipher r) frames).map .push := by
    rw [hsame.strand, List.append_assoc]
    rfl
  exact ⟨hpushed.disconnected.trans hsame.disconnected, hpushed.strand.trans hstrand,
    hpushed.writeQueue.trans hsame.writeQueue, hpushed.writing.trans hsame.writing,
    hpushed.pendingDisconnect.trans hsame.pendingDisconnect,
    hpushed.asyncWrites.trans hsame.asyncWrites,
    hpushed.completedWrites.trans hsame.completedWrites⟩

theorem inPhase_admitted {mid : Client} {r : LoginRequest}
    (he : mid.encryptor = some (outCipher r)) (p : PlayerId) (frames : List OutFrame) :
    ((LoginHandler.admitted mid r.username LoginResponse.ok p).pushFrames (outCipher r)
      frames).InPhase (.playing ((outCipher r).advance frames.length)) := by
  have hadmitted : (LoginHandler.admitted mid r.username LoginResponse.ok p).encryptor =
      some (outCipher r) := he
  exact inPhase_playing (World.quietClient_pushFrames hadmitted frames).stage
    (pushFrames_encryptor frames hadmitted)

theorem carried_reply {c : ClientId} {now gen : Int} {data : List Byte} {l : Link} {phase : Phase}
    {s' : Server} {old : Client} (hc : l.server.clients c = some old)
    (hphase : old.InPhase phase) (h : Reply l.server c old gen data s') :
    ∃ more l' words phase',
      Carried c (.receive c now gen data) l phase s' more l' words phase' := by
  cases h with
  | @quiet new hsame hput =>
      have hother : LinkStep c l .other { l with server := s' } :=
        .other hc hput.clients hsame.toSameQueue
      exact ⟨_, _, _, _, carried_silent (Run.start.snoc hother) rfl rfl hput.clients
        (hphase.settled hsame.settled)⟩
  | closing hsame hput hdisconnect =>
      obtain ⟨more, l', hcarried⟩ := carried_disconnect
        (e := .receive c now gen data) hc hphase rfl hsame hput hdisconnect
      exact ⟨more, l', _, _, hcarried⟩
  | @greeting mid hstage hsame hput =>
      obtain rfl := hphase.silent hstage
      have htalk := Run.start.snoc (Speak.greeting (BitVec.ofInt 32 gen))
      have hposted : SameQueue { old with strand := old.strand ++
          [.push (greetingBytes (BitVec.ofInt 32 gen))] } { mid with
          strand := mid.strand ++ [.push (greetingBytes (BitVec.ofInt 32 gen))]
          stage := .loggingIn } :=
        ⟨hsame.disconnected, congrArg (· ++ _) hsame.strand, hsame.writeQueue, hsame.writing,
          hsame.pendingDisconnect, hsame.asyncWrites, hsame.completedWrites⟩
      obtain ⟨more, l', hcarried⟩ := carried_posts htalk (e := .receive c now gen data) rfl
        (.receive hc (by rw [hstage]; decide)) hc hput.clients hposted (inPhase_greeted rfl)
        fun t ht => by
          rw [List.mem_singleton.mp ht]
          exact ⟨now, gen, data, rfl, rfl⟩
      exact ⟨more, l', _, _, hcarried⟩
  | @refusal t mid r hstage hr hsame hmid hput hresponse henter =>
      obtain rfl := hphase.greeted hstage
      have hother : LinkStep c l .other { l with server := t } := .other hc hput.clients hsame
      have hrun := (Run.start.snoc hother).snoc (LinkStep.reject hresponse henter)
      rw [LoginHandler.enterWorld_refused hput.clients hresponse] at henter
      obtain rfl := Except.ok.inj henter
      refine ⟨_, _, [⟨.greeted, .refusal, .greeted⟩], .greeted, hrun, rfl, rfl,
        Run.start.snoc .refusal, rfl, fun u hu => ?_,
        .inr (.receive hc (by rw [hstage]; decide)), _, requestDisconnect_client
          (Server.setClient_clients_self ..), inPhase_greeted hmid⟩
      rw [List.mem_singleton.mp hu]
      exact ⟨now, gen, data, r, rfl, hr⟩
  | @admission mid r p frames hstage hr hsame he _ hframed hput =>
      obtain rfl := hphase.greeted hstage
      obtain ⟨words, hwords, hspoken, hlabels⟩ := run_frames hframed (outCipher r)
      have htalk := (Run.start.snoc (Speak.admission r)).append hwords
      have hposted := sameQueue_admitted hsame he p frames
      rw [← hspoken] at hposted
      obtain ⟨more, l', hcarried⟩ := carried_posts htalk (e := .receive c now gen data) rfl
        (.receive hc (by rw [hstage]; decide)) hc hput.clients hposted
        (inPhase_admitted he p frames) fun t ht => by
          rcases List.mem_append.mp ht with ht | ht
          · rw [List.mem_singleton.mp ht]
            exact ⟨now, gen, data, rfl, hr⟩
          · obtain ⟨f, hf⟩ := hlabels t ht
            rw [hf]
            exact .inr ⟨now, gen, data, rfl⟩
      exact ⟨more, l', _, _, hcarried⟩

/-- A step of the server goes on with the connection and with the conversation. -/
theorem carried_part {c : ClientId} {e : Server.Event} {l : Link} {phase : Phase} {s' : Server}
    {old : Client} (hc : l.server.clients c = some old) (hphase : old.InPhase phase)
    (h : Server.Part l.server e c old s') :
    ∃ more l' words phase', Carried c e l phase s' more l' words phase' := by
  cases h with
  | apart hother hc' =>
      have hstep : LinkStep c l .other { l with server := s' } := .other hc hc' (.refl old)
      refine ⟨_, _, _, _, carried_silent (Run.start.snoc hstep) ?_ rfl hc' hphase⟩
      rw [transport_of_apart hother]
      rfl
  | ticking htick hlogged hc' hticking =>
      subst htick
      exact carried_ticking hc hphase hlogged hc' hticking
  | read hread hreply =>
      subst hread
      exact carried_reply hc hphase hreply
  | readFailed hfailed hrun =>
      subst hfailed
      obtain ⟨more, l', hcarried⟩ := carried_disconnect (e := .readFailed c) hc hphase rfl
        (.refl old) (Server.puts_self hc rfl) hrun
      exact ⟨more, l', _, _, hcarried⟩
  | runPosted hposted hrun =>
      subst hposted
      obtain ⟨new, hput, hsettled⟩ := Server.exists_puts_runPosted hc hrun
      refine ⟨_, _, _, _, carried_silent (Run.start.snoc (.runPosted hc hrun)) ?_ rfl hput.clients
        (hphase.settled hsettled)⟩
      rw [Server.Event.transport, if_pos rfl]
      rfl
  | written hwritten hout hrun =>
      subst hwritten
      obtain ⟨new, hput, hsettled⟩ := Server.exists_puts_written hc hrun
      refine ⟨_, _, _, _, carried_silent (Run.start.snoc (.written hc hout hrun)) ?_ rfl
        hput.clients (hphase.settled hsettled)⟩
      rw [Server.Event.transport, if_pos rfl]
      rfl
  | writeFailed hfailed hout hrun =>
      subst hfailed
      obtain ⟨new, hput, hsettled⟩ := Server.exists_puts_writeFailed hc hrun
      refine ⟨_, _, _, _, carried_silent (Run.start.snoc (.writeFailed hc hout hrun)) ?_ rfl
        hput.clients (hphase.settled hsettled)⟩
      rw [Server.Event.transport, if_pos rfl]
      rfl

end Client

/-! ## Runs -/

namespace Server
open Client (Link LinkEvent LinkStep transports carried_part)

theorem accept_client (s : Server) (c : ClientId) : (s.accept c).clients c = some {} :=
  setClient_clients_self ..

/-- A client that is there has been accepted, and not destroyed since. -/
theorem exists_accepted {trace : List (Taken Server Event)} {s : Server}
    (h : Run Step initial trace s) {c : ClientId} {client : Client}
    (hc : s.clients c = some client) : ∃ before s₀ after,
      trace = before ++ ⟨s₀, .accept c, s₀.accept c⟩ :: after ∧
      ∀ t ∈ after, t.label ≠ .destroy c := by
  induction h generalizing client with
  | start => cases hc
  | @snoc trace s s' e hrun hs ih =>
      by_cases haccept : e = .accept c
      · subst haccept
        cases hs with
        | accept _ => exact ⟨trace, s, [], rfl, forall_nil _⟩
      · obtain ⟨old, hold, -⟩ := hs.metered (reachable_sound ⟨trace, hrun⟩) haccept hc
        obtain ⟨before, s₀, after, rfl, hkept⟩ := ih hold
        refine ⟨before, s₀, after ++ [⟨s, e, s'⟩], List.append_assoc .., forall_snoc hkept ?_⟩
        intro hdestroy
        subst hdestroy
        cases hs with
        | destroy _ _ _ _ => cases (destroyClient_self s c).symm.trans hc

/-- The connection and the conversation have followed the steps of the server. -/
structure Followed (c : ClientId) (past : List (Taken Server Event)) (s : Server)
    (links : List (Taken Link LinkEvent)) (l : Link) : Prop where
  server : l.server = s
  transport : transports links = past.filterMap fun t => t.label.transport c
  talk : ∃ words phase client, Run Speak .silent words phase ∧ l.sent = spoken words ∧
    s.clients c = some client ∧ client.InPhase phase ∧
    ∀ w ∈ words, ∃ t ∈ past, Prompts c t.before t.label w.label

theorem Followed.step {c : ClientId} {past : List (Taken Server Event)} {s s' : Server}
    {e : Event} {links : List (Taken Link LinkEvent)} {l : Link} (h : Followed c past s links l)
    (hs : s.Sound) (hstep : Step s e s') (hkept : e ≠ .destroy c) :
    ∃ more l', Run (LinkStep c) l more l' ∧
      Followed c (past ++ [⟨s, e, s'⟩]) s' (links ++ more) l' ∧
      (l'.sent = l.sent ∨ Speaks c s e) := by
  obtain ⟨rfl, htransport, words, phase, old, htalk, hsent, hc, hphase, hprompted⟩ := h
  obtain ⟨more, l', spoke, phase', hcarried⟩ := carried_part hc hphase (hstep.part hs hc hkept)
  obtain ⟨hlinks, hserver, htransport', htalk', hsent', hprompted', hspeaks, new, hnew, hphase'⟩ :=
    hcarried
  refine ⟨more, l', hlinks, ⟨hserver, ?_, words ++ spoke, phase', new, htalk.append htalk', ?_,
    hnew, hphase', ?_⟩, ?_⟩
  · rw [Client.transports_append, htransport, htransport', List.filterMap_append]
    congr 1
  · rw [hsent', hsent, Conversation.spoken_append]
  · intro w hw
    rcases List.mem_append.mp hw with hw | hw
    · obtain ⟨t, ht, hprompts⟩ := hprompted w hw
      exact ⟨t, List.mem_append_left _ ht, hprompts⟩
    · exact ⟨_, List.mem_append_right _ List.mem_cons_self, hprompted' w hw⟩
  · refine hspeaks.imp_left fun hnil => ?_
    rw [hsent', hnil]
    exact List.append_nil _

/-- What has happened to a client since it was accepted is a run of its connection. -/
theorem run_followed {trace : List (Taken Server Event)} {s : Server}
    (h : Run Step initial trace s) {c : ClientId} {client : Client}
    (hc : s.clients c = some client) : ∃ before s₀ after links l,
      trace = before ++ ⟨s₀, .accept c, s₀.accept c⟩ :: after ∧
      Run (LinkStep c) { server := s₀.accept c } links l ∧ Followed c after s links l := by
  obtain ⟨before, s₀, after, rfl, hkept⟩ := exists_accepted h hc
  obtain ⟨hbefore, haccept, hafter⟩ := h.split rfl
  have hs₁ := (step_sound_live (reachable_sound ⟨before, hbefore⟩) haccept).1
  have hfollowed : Followed c [] (s₀.accept c) [] { server := s₀.accept c } :=
    ⟨rfl, rfl, [], .silent, {}, .start, rfl, accept_client s₀ c, rfl, forall_nil _⟩
  obtain ⟨links, l, hlinks, hl⟩ := hafter.simulated (Followed c) (fun t => t.label ≠ .destroy c)
    hfollowed (fun past s e s' links l hpast hl hstep hne => by
      have hs := hpast.invariant hs₁ fun _ _ _ hs hstep => (step_sound_live hs hstep).1
      obtain ⟨more, l', hmore, hl', -⟩ := hl.step hs hstep hne
      exact ⟨more, l', hmore, hl'⟩) hkept
  exact ⟨before, s₀, after, links, l, rfl, hlinks, hl⟩

/-- A client connects and is logged in. -/
theorem exists_loggedIn : ∃ trace s client, Run Step initial trace s ∧
    s.clients 0 = some client ∧ client.stage = .loggedIn := by
  have hunused : initial.Unused 0 := ⟨rfl, fun p hp => absurd hp (Nat.not_lt_zero p)⟩
  have hname : (10 : Byte) ∉ ([97] : Name) := by decide
  obtain ⟨t, client, cipher, s, ⟨trace, hrun⟩, -, hsame, hc, -, he, -, houtcome⟩ :=
    exists_login (.start Step initial) hunused hname (by decide)
  cases houtcome with
  | refused hname =>
      rw [hsame.world] at hname
      cases hname
  | full _ _ => exact ⟨trace, _, _, hrun, setClient_clients_self .., rfl⟩
  | entered _ _ =>
      have hadmitted : (LoginHandler.admitted client [97] LoginResponse.ok
          t.nextPlayer).encryptor = some cipher := he
      exact ⟨trace, _, _, hrun, setClient_clients_self ..,
        (World.quietClient_pushFrames hadmitted _).stage⟩

/-- A step that says nothing to the client leaves its transcript. -/
theorem Step.transcript_eq {s s' : Server} {e : Event} (hs : Step s e s')
    (h : Reachable Step initial s) {c : ClientId} {old new : Client}
    (hc : s.clients c = some old) (hc' : s'.clients c = some new) (hquiet : ¬ Speaks c s e) :
    new.transcript = old.transcript := by
  obtain ⟨trace, hrun⟩ := h
  have hkept : e ≠ .destroy c := by
    rintro rfl
    cases hs with
    | destroy _ _ _ _ => cases (destroyClient_self s c).symm.trans hc'
  obtain ⟨_, s₀, _, links, l, -, hlinks, hl⟩ := run_followed hrun hc
  obtain ⟨more, l', hmore, hl', hsent⟩ := hl.step (reachable_sound ⟨trace, hrun⟩) hs hkept
  obtain ⟨client, hfound, hqueue, -⟩ := Client.run_linkSound (accept_client s₀ c) hlinks
  obtain ⟨client', hfound', hqueue', -⟩ :=
    Client.run_linkSound (accept_client s₀ c) (hlinks.append hmore)
  rw [hl.server] at hfound
  rw [hl'.server] at hfound'
  obtain rfl := Option.some.inj (hc.symm.trans hfound)
  obtain rfl := Option.some.inj (hc'.symm.trans hfound')
  rw [Client.transcript, ← hqueue'.sent, hsent.resolve_right hquiet, hqueue.sent, Client.transcript]

/-- A run of the server is, for each of its clients, a run of the client's connection, through
the same completions, in which exactly what the client's transcript has is sent. -/
theorem run_connection {trace : List (Taken Server Event)} {s : Server}
    (h : Run Step initial trace s) {c : ClientId} {client : Client}
    (hc : s.clients c = some client) : ∃ before s₀ after links l,
      trace = before ++ ⟨s₀, .accept c, s₀.accept c⟩ :: after ∧
      Run (LinkStep c) { server := s₀.accept c } links l ∧ l.server = s ∧
      transports links = (after.filterMap fun t => t.label.transport c) ∧
      l.sent = client.transcript := by
  obtain ⟨before, s₀, after, links, l, htrace, hlinks, hl⟩ := run_followed h hc
  obtain ⟨client', hc', hqueue, -⟩ := Client.run_linkSound (accept_client s₀ c) hlinks
  rw [hl.server] at hc'
  obtain rfl := Option.some.inj (hc.symm.trans hc')
  exact ⟨before, s₀, after, links, l, htrace, hlinks, hl.server, hl.transport, hqueue.sent⟩

theorem run_connection_login : ∃ trace s client, Run Step initial trace s ∧
    s.clients 0 = some client ∧ client.stage = .loggedIn ∧ ∃ (s₀ : Server) (links : _) (l : _),
      Run (LinkStep 0) { server := s₀.accept 0 } links l ∧ l.server = s ∧
      l.sent = client.transcript := by
  obtain ⟨trace, s, client, hrun, hc, hstage⟩ := exists_loggedIn
  obtain ⟨_, s₀, _, links, l, -, hlinks, hserver, -, hsent⟩ := run_connection hrun hc
  exact ⟨trace, s, client, hrun, hc, hstage, s₀, links, l, hlinks, hserver, hsent⟩

/-- The transcript of a client is a conversation, each word of it with its reason in what has
happened since the client was accepted. -/
theorem run_talk {trace : List (Taken Server Event)} {s : Server}
    (h : Run Step initial trace s) {c : ClientId} {client : Client}
    (hc : s.clients c = some client) : ∃ before s₀ after words phase,
      trace = before ++ ⟨s₀, .accept c, s₀.accept c⟩ :: after ∧
      Run Speak .silent words phase ∧ client.transcript = spoken words ∧ client.InPhase phase ∧
      ∀ w ∈ words, ∃ t ∈ after, Prompts c t.before t.label w.label := by
  obtain ⟨before, s₀, after, links, l, htrace, hlinks, hl⟩ := run_followed h hc
  obtain ⟨client', hc', hqueue, -⟩ := Client.run_linkSound (accept_client s₀ c) hlinks
  obtain ⟨hserver, -, words, phase, found, htalk, hsent, hfound, hphase, hprompted⟩ := hl
  rw [hserver] at hc'
  obtain rfl := Option.some.inj (hc.symm.trans hc')
  obtain rfl := Option.some.inj (hc.symm.trans hfound)
  exact ⟨before, s₀, after, words, phase, htrace, htalk, hqueue.sent.symm.trans hsent, hphase,
    hprompted⟩

/-- What a client has been told is a conversation, each word of it with its reason in what has
happened since the client was accepted. A client whose player's list is never full at a tick gets
all of it: from however much of what was written has arrived, its receiver takes exactly the
messages that are whole. When it has got them all, it is where the server is, with the same
cipher. -/
theorem run_conversation {trace : List (Taken Server Event)} {s : Server}
    (h : Run Step initial trace s) {c : ClientId} {client : Client}
    (hc : s.clients c = some client) : ∃ before s₀ after words phase r,
      trace = before ++ ⟨s₀, .accept c, s₀.accept c⟩ :: after ∧
      Run Speak .silent words phase ∧ client.transcript = spoken words ∧ client.InPhase phase ∧
      (∀ w ∈ words, ∃ t ∈ after, Prompts c t.before t.label w.label) ∧
      ((∀ t ∈ after, t.label = .tick → ¬ t.before.ListFull c) →
        (protocol r).encodeAll .silent (messages words) = client.transcript.flatten ∧
        (protocol r).state .silent (messages words) = phase ∧
        ∀ bytes, bytes <+: client.asyncWrites.flatten → ∃ got later left,
          messages words = got ++ later ∧
          (protocol r).receive bytes.length .silent bytes = (got, left) ∧
          (protocol r).Pending ((protocol r).state .silent got) left later) := by
  obtain ⟨before, s₀, after, words, phase, htrace, htalk, htranscript, hphase, hprompted⟩ :=
    run_talk h hc
  obtain ⟨r, hown⟩ := Conversation.exists_own htalk
  refine ⟨before, s₀, after, words, phase, r, htrace, htalk, htranscript, hphase, hprompted,
    fun hroom => ?_⟩
  have hclear : Conversation.Clear r words := by
    refine ⟨fun w hw hskip => ?_, hown⟩
    obtain ⟨t, ht, hprompts⟩ := hprompted w hw
    rw [hskip] at hprompts
    exact hroom t ht hprompts.1 hprompts.2
  obtain ⟨-, hencode, hstate⟩ := Conversation.run_audible htalk hclear
  rw [hstate, hencode, htranscript]
  refine ⟨rfl, rfl, fun bytes hbytes => Conversation.run_received htalk hclear ?_⟩
  rw [← htranscript, Client.transcript, List.flatten_append]
  exact hbytes.trans (List.prefix_append _ _)

/-- A client is logged in, and the write of its greeting has begun. -/
theorem exists_greeted : ∃ trace s client greeting, Run Step initial trace s ∧
    (∀ t ∈ trace, t.label ≠ .tick) ∧ s.clients 0 = some client ∧ client.stage = .loggedIn ∧
    client.asyncWrites = [greeting] := by
  have hunused : initial.Unused 0 := ⟨rfl, fun p hp => absurd hp (Nat.not_lt_zero p)⟩
  have hname : (10 : Byte) ∉ ([97] : Name) := by decide
  obtain ⟨trace, t, client, cipher, s, hrun, hquiet, ht, hsame, hc, hstage, he, -, -,
    ⟨greeting, hunwritten⟩, henter⟩ :=
    exists_login_counted (.start Step initial) hunused hname (by decide)
  have hnot : client.stage ≠ .loggedIn := by
    rw [hstage]
    decide
  have hentered : ∃ new, s.clients 0 = some new ∧ new.stage = .loggedIn ∧
      ∃ rest, Unwritten new (.push greeting :: rest) := by
    obtain ⟨_, henter', houtcome⟩ := LoginHandler.enterWorld_outcome ht hc hnot he [97]
    obtain rfl := Except.ok.inj (henter.symm.trans henter')
    cases houtcome with
    | refused hname =>
        rw [hsame.world] at hname
        cases hname
    | full _ _ =>
        exact ⟨_, setClient_clients_self .., rfl, _, hunwritten.writing, hunwritten.writeQueue,
          hunwritten.asyncWrites, congrArg (· ++ _) hunwritten.strand⟩
    | entered _ _ =>
        have hadmitted : (LoginHandler.admitted client [97] LoginResponse.ok
            t.nextPlayer).encryptor = some cipher := he
        refine ⟨_, setClient_clients_self .., ?_⟩
        rw [Client.pushFrames_eq _ cipher _ hadmitted]
        exact ⟨rfl, _, hunwritten.writing, hunwritten.writeQueue, hunwritten.asyncWrites,
          congrArg (· ++ _ ++ _) hunwritten.strand⟩
  obtain ⟨new, hnew, hstage', rest, hunwritten'⟩ := hentered
  let written : Client := { new with
    strand := rest, writeQueue := [greeting], writing := true, asyncWrites := [greeting] }
  have hpush : Client.push { new with strand := rest } greeting = .ok written := by
    simp only [Client.push, Client.doWrite, hunwritten'.writing, hunwritten'.writeQueue,
      hunwritten'.asyncWrites, List.nil_append]
    rfl
  have hposted : Client.runPosted s 0 = .ok (s.setClient 0 written) := by
    simp only [Client.runPosted, lockClient_eq hnew, bind, Except.bind, hunwritten'.strand, hpush]
    rfl
  refine ⟨_, _, written, greeting, hrun.snoc (.runPosted hposted),
    forall_snoc (fun u hu => (hquiet u hu).1) ?_, setClient_clients_self .., hstage', rfl⟩
  intro htick
  cases htick

/-- Whoever is logged in has been admitted, and is encrypted to with the cipher of its request;
the receiver takes what it has been sent of the greeting. -/
theorem run_conversation_greeted : ∃ trace s client greeting, Run Step initial trace s ∧
    s.clients 0 = some client ∧ client.stage = .loggedIn ∧ client.asyncWrites = [greeting] ∧
    ∃ words cipher r got later left, Run Speak .silent words (.playing cipher) ∧
      client.encryptor = some cipher ∧
      (protocol r).encodeAll .silent (messages words) = client.transcript.flatten ∧
      messages words = got ++ later ∧
      (protocol r).receive greeting.length .silent greeting = (got, left) ∧
      (protocol r).Pending ((protocol r).state .silent got) left later := by
  obtain ⟨trace, s, client, greeting, hrun, hquiet, hc, hstage, hwrites⟩ := exists_greeted
  obtain ⟨_, _, _, words, phase, r, htrace, htalk, -, hphase, -, hreceiver⟩ :=
    run_conversation hrun hc
  rw [Client.InPhase, hstage] at hphase
  obtain ⟨cipher, hcipher, rfl⟩ := hphase
  obtain ⟨hencode, -, hreceive⟩ := hreceiver fun t ht htick => by
    refine absurd htick (hquiet t ?_)
    rw [htrace]
    exact List.mem_append_right _ (List.mem_cons_of_mem _ ht)
  have hprefix : greeting <+: client.asyncWrites.flatten := by
    rw [hwrites, List.flatten_singleton]
  obtain ⟨got, later, left, hmessages, hgot, hpending⟩ := hreceive greeting hprefix
  exact ⟨trace, s, client, greeting, hrun, hc, hstage, hwrites, words, cipher, r, got, later, left,
    htalk, hcipher, hencode, hmessages, hgot, hpending⟩

end Server
end AsioRsps
