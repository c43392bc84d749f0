import AsioRsps.Population
import AsioRsps.ReplicaRuns

/-!
# What the clients see

From the bytes that have been written to it, the client of every registered player can follow the
whole conversation, decrypt the frames and decode the updates in them; after each tick the replica
it gets shows its player where it is, and the players in its list where they are.
-/
namespace AsioRsps
open BitStrings (Byte)
open LabelledRuns MovementHandler PlayerUpdating
open Conversation (Message Phase Speak outCipher protocol messages Framed)

namespace Conversation

def Message.toFrame : Message → Option Client.OutFrame
  | .frame f => some f
  | _ => none

/-- What the frames among the messages make of an empty replica. -/
def picture (ms : List Message) : Option Replica :=
  Replica.receiveAll {} (ms.filterMap Message.toFrame)

theorem picture_append (ms : List Message) (frames : List Client.OutFrame) :
    picture (ms ++ frames.map .frame) = (picture ms).bind fun view => view.receiveAll frames := by
  have hframes : (frames.map Message.frame).filterMap Message.toFrame = frames := by
    rw [List.filterMap_map]
    exact List.filterMap_some
  rw [picture, List.filterMap_append, hframes, Replica.receiveAll_append, picture]

/-- Before the admission there is nothing to be seen. -/
theorem picture_early {ms : List Message} (h : ∀ m ∈ ms, m.Early) (r : LoginRequest) :
    picture (ms ++ [Message.admission r]) = some {} := by
  have hnone : (ms ++ [Message.admission r]).filterMap Message.toFrame = [] := by
    rw [List.filterMap_eq_nil_iff]
    intro m hm
    rcases List.mem_append.mp hm with hm | hm
    · cases h m hm <;> rfl
    · rw [List.mem_singleton.mp hm]
      rfl
  rw [picture, hnone]
  rfl

theorem picture_admitted {words : List (Taken Phase Message)}
    (h : Run Speak .silent words .greeted) (r : LoginRequest) :
    picture (messages words ++ [Message.admission r]) = some {} := by
  refine picture_early (fun m hm => ?_) r
  obtain ⟨w, hw, rfl⟩ := List.mem_map.mp hm
  exact run_early h (fun _ h => by cases h) w hw

end Conversation

namespace Client

theorem snapshots_map_push (bytes : List (List Byte)) : snapshots (bytes.map .push) = bytes := by
  induction bytes with
  | nil => rfl
  | cons data bytes ih => rw [List.map_cons, snapshots_push, ih]

/-- What is posted ends up in the transcript. -/
theorem transcript_posts {bytes : List (List Byte)} {old new : Client}
    (h : SameQueue { old with strand := old.strand ++ bytes.map .push } new) :
    new.transcript = old.transcript ++ bytes := by
  rw [transcript, transcript, h.asyncWrites, h.writeQueue, h.strand, snapshots_append,
    snapshots_map_push, List.append_assoc, List.append_assoc]

end Client

/-- Strolling changes nothing that a replica shows. -/
theorem Shows.strolled {players players' : PlayerId → Player} {p : PlayerId} {view : Replica}
    (h : Shows players p view)
    (hplayers : ∀ q, q = p ∨ q ∈ (players p).localPlayers → Strolled (players q) (players' q)) :
    Shows players' p view := by
  obtain ⟨m, hp⟩ := (hplayers p (.inl rfl)).others
  refine ⟨?_, ?_, ?_⟩
  · rw [hp]
    exact h.region
  · rw [hp]
    exact h.position
  · rw [h.others, hp]
    refine List.map_congr_left fun q hq => ?_
    obtain ⟨m', hq'⟩ := (hplayers q (.inr hq)).others
    rw [neighbourOf, neighbourOf, hq']

/-- A player that has just entered sees nobody, and is to be placed. -/
theorem shows_entered {players : PlayerId → Player} {p : PlayerId} {c : ClientId} {username : Name}
    {index : Fin maxPlayers}
    (h : players p = LoginHandler.enteredPlayer c username index) :
    Shows players p { region := some (Replica.chunk 3200, Replica.chunk 3200) } := by
  refine ⟨?_, fun hflag => ?_, ?_⟩
  · rw [h]
    rfl
  · rw [h, LoginHandler.enteredPlayer, Player.loggedIn, hasFlag_all] at hflag
    cases hflag
  · rw [h]
    rfl

namespace Server

/-! ## Views -/

/-- The client can make out everything it has been sent, and sees what it is to see. -/
structure Viewing (s : Server) (p : PlayerId) (client : Client) (r : LoginRequest)
    (ms : List Message) (cipher : ISAACCipher) (view : Replica) : Prop where
  found : s.clients (s.players p).client = some client
  legal : (protocol r).Legal .silent ms
  sent : (protocol r).encodeAll .silent ms = client.transcript.flatten
  encryptor : client.encryptor = some cipher
  state : (protocol r).state .silent ms = .playing cipher
  pictured : Conversation.picture ms = some view
  shows : Shows s.players p view

def Viewed (s : Server) (p : PlayerId) : Prop :=
  ∃ client r ms cipher view, s.Viewing p client r ms cipher view

/-- More frames reach the client. -/
theorem Viewing.push {s s' : Server} {p : PlayerId} {client : Client} {r : LoginRequest}
    {ms : List Message} {cipher : ISAACCipher} {view view' : Replica}
    (h : s.Viewing p client r ms cipher view) {frames : List Client.OutFrame}
    (hframed : ∀ f ∈ frames, Framed f)
    (hclient : s'.clients (s'.players p).client = some (client.pushFrames cipher frames))
    (hreceived : view.receiveAll frames = some view') (hshows : Shows s'.players p view') :
    s'.Viewing p (client.pushFrames cipher frames) r (ms ++ frames.map .frame)
      (cipher.advance frames.length) view' := by
  obtain ⟨hlegal, hencode, hstate⟩ := Conversation.legal_push h.legal h.state hframed
  refine ⟨hclient, hlegal, ?_, Client.pushFrames_encryptor frames h.encryptor, hstate, ?_, hshows⟩
  · rw [hencode, h.sent, ← List.flatten_append,
      Client.transcript_posts (Client.sameQueue_pushFrames h.encryptor frames)]
  · rw [Conversation.picture_append, h.pictured]
    exact hreceived

/-- The client has been sent nothing, and what its replica shows has not changed. -/
theorem Viewing.kept {s s' : Server} {p : PlayerId} {client client' : Client} {r : LoginRequest}
    {ms : List Message} {cipher : ISAACCipher} {view : Replica} (hs : s.Sound)
    (hp : p ∈ s.registered) (h : s.Viewing p client r ms cipher view)
    (hplayers : ∀ q < s.nextPlayer, Strolled (s.players q) (s'.players q))
    (hclient : s'.clients (s'.players p).client = some client')
    (htranscript : client'.transcript = client.transcript)
    (hencryptor : client'.encryptor = client.encryptor) :
    s'.Viewing p client' r ms cipher view where
  found := hclient
  legal := h.legal
  sent := htranscript ▸ h.sent
  encryptor := hencryptor.trans h.encryptor
  state := h.state
  pictured := h.pictured
  shows := h.shows.strolled fun q hq => hplayers q (by
    rcases hq with rfl | hq
    · exact hs.fresh_of_registered hp
    · exact (hs.lists p).2 q hq)

/-! ## Steps between two ticks -/

/-- A cipher is kept by a client that is logged in until the next tick. -/
theorem Part.encryptor_eq {s s' : Server} {e : Event} {c : ClientId} {old new : Client}
    (h : s.Part e c old s') (htick : e ≠ .tick) (hstage : old.stage = .loggedIn)
    (hc : s.clients c = some old) (hc' : s'.clients c = some new) :
    new.encryptor = old.encryptor := by
  rcases h.settled hc hc' with hsettled | ⟨he, -⟩ | ⟨_, _, _, -, hearly, -⟩
  · exact hsettled.encryptor
  · exact absurd he htick
  · exact absurd hstage hearly

/-- The player is the one that a login has just registered. -/
inductive Debuts (s : Server) (e : Event) (p : PlayerId) : Server → Prop where
  | mk {t : Server} {c : ClientId} {old client : Client} {now gen : Int} {data : List Byte}
      {r : LoginRequest} {index : Fin maxPlayers} : e = .receive c now gen data →
      s.clients c = some old → old.stage = .loggingIn → Client.SameQueue old client →
      client.encryptor = some (outCipher r) → p = t.nextPlayer →
      Debuts s e p (t.register (LoginHandler.enteredPlayer c r.username index) c
        ((LoginHandler.admitted client r.username LoginResponse.ok t.nextPlayer).pushFrames
          (outCipher r) (Player.loginFrames { x := 3200, y := 3200 })) r.username index)

/-- Between two ticks the registered players stroll, or have just logged in. -/
theorem Moves.registered_cases {s s' : Server} {e : Event} (hm : s.Moves e s') (htick : e ≠ .tick)
    {p : PlayerId} (hp : p ∈ s'.registered) : (p ∈ s.registered ∧
      ∀ q < s.nextPlayer, Strolled (s.players q) (s'.players q)) ∨ s.Debuts e p s' := by
  have hbefore {t : Server} (hstroll : s.Strolls e.reader t) (ht : p ∈ t.registered) :
      p ∈ s.registered :=
    (mem_registered_congr hstroll.lookup).mp ht
  cases hm with
  | strolls hstroll => exact .inl ⟨hbefore hstroll hp, fun q _ => hstroll.players q⟩
  | accept _ _ => exact .inl ⟨hp, fun q _ => .refl _⟩
  | destroy _ _ _ => exact .inl ⟨hp, fun q _ => .refl _⟩
  | @leaves t u _ c client _ hstroll ht hc hrun hstroll' =>
      have hdeparture := Client.departure_of_disconnect ht hc hrun
      have hplayers : u.players = t.players := by cases hdeparture <;> rfl
      have hpu := (mem_registered_congr hstroll'.lookup).mp hp
      refine .inl ⟨hbefore hstroll (hdeparture.mem_registered hpu), fun q _ => ?_⟩
      exact ((hplayers ▸ hstroll.players q : Strolled (s.players q) (u.players q))).trans
        (hstroll'.players q)
  | @logsIn t _ c old client now gen data r he _ hold hstage hstroll _ _ _ _ hsame hcipher _ ho =>
      have hkept (player : Player) (q : PlayerId) (hq : q < s.nextPlayer) :
          Strolled (s.players q) ((t.newPlayer player).players q) := by
        rw [newPlayer_players player (hstroll.nextPlayer ▸ hq)]
        exact hstroll.players q
      cases ho with
      | refused _ => exact .inl ⟨hbefore hstroll hp, fun q _ => hstroll.players q⟩
      | full _ _ => exact .inl ⟨hbefore hstroll hp, hkept _⟩
      | entered _ _ =>
          rcases mem_registered_register hp with rfl | hold'
          · exact .inr (.mk he hold hstage hsame hcipher rfl)
          · exact .inl ⟨hbefore hstroll hold', hkept _⟩
  | ticked he _ => exact absurd he htick

/-- The client of a player that has just been registered sees nobody and is not yet placed. -/
theorem Debuts.viewed {s s' : Server} {e : Event} {p : PlayerId} (h : s.Debuts e p s')
    (hreach : Reachable Step initial s) : s'.Viewed p := by
  obtain ⟨trace, hrun⟩ := hreach
  cases h with
  | @mk t c old client now gen data r index _ hold hstage hsame hcipher hp =>
      subst hp
      obtain ⟨_, _, _, words, phase, -, htalk, htranscript, hphase, -⟩ := run_talk hrun hold
      obtain rfl := hphase.greeted hstage
      obtain ⟨hlegal, hencode, hstate⟩ := Conversation.run_admitted htalk r
      obtain ⟨hlegal', hencode', hstate'⟩ := Conversation.legal_push hlegal hstate
        (Client.framed_loginFrames { x := 3200, y := 3200 })
      have hposted := Client.transcript_posts (Client.sameQueue_admitted hsame hcipher t.nextPlayer
        (Player.loginFrames { x := 3200, y := 3200 }))
      have hmap : OnMap { x := 3200, y := 3200 } :=
        ⟨(by decide : (3200 : Word).toNat < 65536), (by decide : (3200 : Word).toNat < 65536)⟩
      have hadmitted : (LoginHandler.admitted client r.username LoginResponse.ok
          t.nextPlayer).encryptor = some (outCipher r) := hcipher
      have hplayer : ((t.register (LoginHandler.enteredPlayer c r.username index) c
          ((LoginHandler.admitted client r.username LoginResponse.ok t.nextPlayer).pushFrames
            (outCipher r) (Player.loginFrames { x := 3200, y := 3200 })) r.username
          index).players t.nextPlayer) = LoginHandler.enteredPlayer c r.username index :=
        setPlayer_players_self ..
      refine ⟨_, r, _, _, _, ?_, hlegal', ?_,
        Client.pushFrames_encryptor (Player.loginFrames { x := 3200, y := 3200 }) hadmitted,
        hstate', ?_, shows_entered hplayer⟩
      · rw [hplayer]
        exact setClient_clients_self ..
      · rw [hencode', hencode, hposted, htranscript, ← List.flatten_append, List.append_assoc]
        rfl
      · rw [Conversation.picture_append, Conversation.picture_admitted htalk r]
        exact receiveAll_loginFrames hmap

/-! ## Ticks -/

/-- There is room, and everybody has waypoints on the map. -/
structure Charted (s : Server) : Prop extends Room s where
  waypoints : ∀ p, ∀ point ∈ (s.players p).movementHandler.waypoints, OnMap point.toPosition

def Placed (s : Server) : Prop := ∀ p, OnMap (s.players p).position

theorem Placed.mapped {s : Server} (h : s.Placed) (hcharted : s.Charted) (p : PlayerId) :
    Mapped (s.players p) := ⟨h p, hcharted.waypoints p⟩

theorem Moves.placed {s s' : Server} {e : Event} (hm : s.Moves e s') (h : s.Placed)
    (hpop : s.Populated) (hcharted : e = .tick → s.Charted) : s'.Placed := by
  intro p
  cases hm.player hpop.sound p with
  | strolled hstrolled _ =>
      obtain ⟨m, hp⟩ := hstrolled.others
      rw [hp]
      exact h p
  | created _ hp =>
      rw [hp]
      exact (mapped_constructed _ _).position
  | entered _ hp =>
      rw [hp]
      exact (mapped_entered _ _ _).position
  | ticked htick hp ht =>
      rw [ht.player p hp]
      exact ((h.mapped (hcharted htick) p).processed (hpop.walkers p)).position

/-- A tick shows the client of a registered player what has happened. -/
theorem Viewing.ticked {s s' : Server} {p : PlayerId} {client : Client} {r : LoginRequest}
    {ms : List Message} {cipher : ISAACCipher} {view : Replica}
    (h : s.Viewing p client r ms cipher view) (hpop : s.Populated) (hplaced : s.Placed)
    (hcharted : s.Charted) (ht : World.Ticked s s') (hp : p ∈ s.registered) :
    ∃ client' ms' cipher' view', s'.Viewing p client' r ms' cipher' view' ∧
      view'.position = some (s'.players p).position := by
  have hlist : (World.afterProcess s).players p = processed (s.players p) :=
    World.afterProcess_of_mem hp
  have hshort : ((World.afterProcess s).players p).localPlayers.length < 255 := by
    rw [hlist, processed_localPlayers]
    exact hcharted.lists p hp
  have hkept : (keptPlayers (World.afterProcess s) p).length < 255 :=
    Nat.lt_of_le_of_lt (List.length_filter_le _ _) hshort
  obtain ⟨body, hbody, hdelivered⟩ := ht.sent p hp hkept
  obtain ⟨view', hreceived, hshows, hposition⟩ := ht.shows hpop.sound hpop.walkers
    (hplaced.mapped hcharted) hcharted.slots hp h.shows hbody
  have hframed : ∀ f ∈ regionFrames (s.players p) ++ [⟨81, body⟩], Framed f := by
    intro f hf
    rcases List.mem_append.mp hf with hf | hf
    · exact framed_regionFrames (s.players p) f hf
    · rw [List.mem_singleton.mp hf]
      exact framed_update (Nat.le_of_lt hshort) hbody
  have howner : (s'.players p).client = (s.players p).client := by
    rw [ht.player p hp]
    exact processed_client _
  have hclient := hdelivered client cipher h.found h.encryptor
  rw [← howner] at hclient
  exact ⟨_, _, _, view', h.push hframed hclient hreceived hshows, hposition⟩

/-! ## Runs -/

theorem Step.viewed {s s' : Server} {e : Event} (hs : Step s e s') (h : Reachable Step initial s)
    (hplaced : s.Placed) (hcharted : e = .tick → s.Charted)
    (hviewed : ∀ p ∈ s.registered, s.Viewed p) : ∀ p ∈ s'.registered, s'.Viewed p := by
  intro p hp
  have hpop := reachable_populated h
  have hmoves := hs.moves hpop.sound
  by_cases htick : e = .tick
  · subst htick
    cases hs with
    | tick hrun =>
        have ht := World.process_ticked hpop.sound hrun
        have hbefore : p ∈ s.registered := ht.registered_eq ▸ hp
        obtain ⟨client, r, ms, cipher, view, hview⟩ := hviewed p hbefore
        obtain ⟨client', ms', cipher', view', hview', -⟩ :=
          hview.ticked hpop hplaced (hcharted rfl) ht hbefore
        exact ⟨client', r, ms', cipher', view', hview'⟩
  · rcases hmoves.registered_cases htick hp with ⟨hbefore, hplayers⟩ | hdebut
    · obtain ⟨old, r, ms, cipher, view, hview⟩ := hviewed p hbefore
      obtain ⟨client, _, hclient, hlogged, -⟩ := hpop.sound.client_of_registered hbefore
      obtain rfl := Option.some.inj (hview.found.symm.trans hclient)
      obtain ⟨client', _, hclient', -⟩ := (hpop.step hs).sound.client_of_registered hp
      obtain ⟨m, hplayer⟩ := (hplayers p (hpop.sound.fresh_of_registered hbefore)).others
      have hfound : s'.clients (s.players p).client = some client' := by
        rw [hplayer] at hclient'
        exact hclient'
      have hkept : e ≠ .destroy (s.players p).client := by
        rintro rfl
        cases hs with
        | destroy _ _ _ _ => cases (destroyClient_self s _).symm.trans hfound
      have hsilent : ¬ Speaks (s.players p).client s e := by
        rintro (_ | ⟨hclient, hnot⟩)
        · exact htick rfl
        · obtain rfl := Option.some.inj (hview.found.symm.trans hclient)
          exact hnot hlogged
      have hpart := hs.part hpop.sound hview.found hkept
      exact ⟨client', r, ms, cipher, view, hview.kept hpop.sound hbefore hplayers hclient'
        (hs.transcript_eq h hview.found hfound hsilent)
        (hpart.encryptor_eq htick hlogged hview.found hfound)⟩
    · exact hdebut.viewed h

/-- From the bytes that its client has been sent a receiver gets a replica that shows the player
where it is, and the players in its list where they are. -/
def Seen (s : Server) (p : PlayerId) : Prop :=
  ∃ client r ms view, s.clients (s.players p).client = some client ∧
    (protocol r).receive client.transcript.flatten.length .silent client.transcript.flatten =
      (ms, []) ∧
    Conversation.picture ms = some view ∧ view.position = some (s.players p).position ∧
    view.others = (s.players p).localPlayers.map (neighbourOf s.players)

theorem Viewing.seen {s : Server} {p : PlayerId} {client : Client} {r : LoginRequest}
    {ms : List Message} {cipher : ISAACCipher} {view : Replica}
    (h : s.Viewing p client r ms cipher view)
    (hposition : view.position = some (s.players p).position) : s.Seen p := by
  refine ⟨client, r, ms, view, h.found, ?_, h.pictured, hposition, h.shows.others⟩
  have hnone : (protocol r).reader ((protocol r).state .silent ms) [] = none := by
    rw [h.state]
    rfl
  have hall := MessageStreams.Protocol.receive_encodeAll h.legal
    (MessageStreams.Protocol.length_le_encodeAll h.legal) hnone
  rw [List.append_nil] at hall
  rw [← h.sent]
  exact hall

/-- While everybody's waypoints are on the map and the lists are short, every tick shows the
client of every registered player what there is to see. -/
theorem run_viewed {trace : List (Taken Server Event)} {s : Server}
    (h : Run Step initial trace s) (hcharted : ∀ t ∈ trace, t.label = .tick → t.before.Charted) :
    ∀ t ∈ trace, t.label = .tick → ∀ p ∈ t.after.registered, t.after.Seen p := by
  have hstart : Reachable Step initial initial ∧ Placed initial ∧
      ∀ p ∈ initial.registered, initial.Viewed p :=
    ⟨.start Step initial, fun _ => (mapped_constructed [] 0).position, fun _ hp => (nomatch hp)⟩
  have hbefore : ∀ t ∈ trace, (Reachable Step initial t.before ∧ t.before.Placed ∧
      ∀ p ∈ t.before.registered, t.before.Viewed p) ∧ Step t.before t.label t.after := by
    refine h.before_of_guarded (P := fun s => Reachable Step initial s ∧ s.Placed ∧
      ∀ p ∈ s.registered, s.Viewed p) hstart ?_ hcharted
    rintro s e s' ⟨hreach, hplaced, hviewed⟩ hs hguard
    have hpop := reachable_populated hreach
    exact ⟨hreach.snoc hs, (hs.moves hpop.sound).placed hplaced hpop hguard,
      hs.viewed hreach hplaced hguard hviewed⟩
  rintro ⟨before, label, after⟩ ht rfl p hp
  obtain ⟨⟨hreach, hplaced, hviewed⟩, hstep⟩ := hbefore _ ht
  change Step before .tick after at hstep
  have hpop := reachable_populated hreach
  cases hstep with
  | tick hrun =>
      have htick := World.process_ticked hpop.sound hrun
      have hregistered : p ∈ before.registered := htick.registered_eq ▸ hp
      obtain ⟨client, r, ms, cipher, view, hview⟩ := hviewed p hregistered
      obtain ⟨client', ms', cipher', view', hview', hposition⟩ :=
        hview.ticked hpop hplaced (hcharted _ ht rfl) htick hregistered
      exact hview'.seen hposition

/-- Two players that have just entered are on the map, and list nobody. -/
theorem Couple.charted {trace : List (Taken Server Event)} {s : Server} {i j : Fin maxPlayers}
    (h : Couple trace s i j) : s.Charted := by
  obtain ⟨hi, hj⟩ := h.slots
  have hcases {P : Player → Prop} (hfirst : P (LoginHandler.enteredPlayer 0 [97] i))
      (hsecond : P (LoginHandler.enteredPlayer 1 [98] j))
      (hold : P { username := [], client := 0 }) (p : PlayerId) : P (s.players p) := by
    rw [h.players]
    by_cases h1 : p = 1
    · rw [h1, Function.update_self]
      exact hsecond
    · rw [Function.update_of_ne h1]
      by_cases h0 : p = 0
      · rw [h0, Function.update_self]
        exact hfirst
      · rw [Function.update_of_ne h0]
        exact hold
  refine ⟨⟨fun p _ => ?_, fun p _ => ?_⟩, ?_⟩
  · exact hcases (P := fun player => player.localPlayers.length < 255) (Nat.zero_lt_succ _)
      (Nat.zero_lt_succ _) (Nat.zero_lt_succ _) p
  · have hslot (c : ClientId) (username : Name) (index : Fin maxPlayers) (hindex : index.val ≤ 1) :
        (LoginHandler.enteredPlayer c username index).index < 2047 := by
      change ((index.val : Nat) : Int) < 2047
      omega
    exact hcases (P := fun player => player.index < 2047) (hslot 0 [97] i (by omega))
      (hslot 1 [98] j hj) (by decide) p
  · exact hcases (P := fun player => ∀ point ∈ player.movementHandler.waypoints,
      OnMap point.toPosition) (mapped_entered 0 [97] i).waypoints
      (mapped_entered 1 [98] j).waypoints (mapped_constructed [] 0).waypoints

/-- Two clients log in, and at the first tick the first one is shown the second. -/
theorem run_viewed_couple : ∃ trace s, Run Step initial trace s ∧ s.registered = [1, 0] ∧
    1 ∈ (s.players 0).localPlayers ∧ s.Seen 0 := by
  obtain ⟨trace, s, i, j, hcouple⟩ := exists_couple
  have hreach : Reachable Step initial s := ⟨trace, hcouple.run⟩
  obtain ⟨s', hprocess⟩ := GameSound.exists_tick (reachable_populated hreach)
  have htick := World.process_ticked (reachable_sound hreach) hprocess
  have hregistered : s'.registered = [1, 0] := htick.registered_eq.trans hcouple.registered
  have hlisted := (htick.listed_entered hcouple.registered hcouple.newcomers.1
    hcouple.newcomers.2).1
  have hrun' := hcouple.run.snoc (.tick hprocess)
  refine ⟨_, s', hrun', hregistered, hlisted, ?_⟩
  refine run_viewed hrun' (forall_snoc (fun u hu hlabel => ?_) fun _ => ?_) _
    (List.mem_append_right _ List.mem_cons_self) rfl 0 (by rw [hregistered]; decide)
  · exact absurd hlabel (hcouple.quiet u hu)
  · exact hcouple.charted

end Server
end AsioRsps
