import AsioRsps.ReplicaTick

/-!
# Replicas over whole runs

The reference client of a registered player is given every frame its client is sent after the
login, and shows the player and its list after each tick, whatever logins, logouts and movement
came before. Nothing between two ticks changes what it shows.
-/
namespace AsioRsps
open BitStrings (Byte)
open LabelledRuns MovementHandler PlayerUpdating
open Replica (chunk LegalOpcode)

/-! ## What a client has been sent -/

/-- The frames a client has been sent since it joined, and the replica they make. -/
structure Served (g : Game) (c : ClientId) (client : Client) (joined : Joined)
    (frames : List Client.OutFrame) (r : Replica) : Prop where
  found : g.server.clients c = some client
  noted : g.joined c = some joined
  queued : client.queued = joined.queued ++ Client.encryptAll joined.cipher frames
  encryptor : client.encryptor = some (joined.cipher.advance frames.length)
  legal : ∀ f ∈ frames, LegalOpcode f
  received : Replica.receiveAll {} frames = some r

theorem Served.replay {g : Game} {c : ClientId} {client : Client} {joined : Joined}
    {frames : List Client.OutFrame} {r : Replica} (h : Served g c client joined frames r) :
    Replica.replay joined.cipher {} (Client.encryptAll joined.cipher frames) = some r := by
  rw [Replica.replay_encryptAll _ _ h.legal]
  exact h.received

/-- More frames reach the client. -/
theorem Served.push {g g' : Game} {c : ClientId} {client : Client} {joined : Joined}
    {frames more : List Client.OutFrame} {r r' : Replica} (h : Served g c client joined frames r)
    (hclient : g'.server.clients c =
      some (client.pushFrames (joined.cipher.advance frames.length) more))
    (hjoined : g'.joined c = g.joined c) (hlegal : ∀ f ∈ more, LegalOpcode f)
    (hreceived : r.receiveAll more = some r') :
    Served g' c (client.pushFrames (joined.cipher.advance frames.length) more) joined
      (frames ++ more) r' where
  found := hclient
  noted := hjoined.trans h.noted
  queued := by
    rw [Client.queued_pushFrames _ _ _ h.encryptor, h.queued, Client.encryptAll_append,
      List.append_assoc]
  encryptor := by
    rw [Client.pushFrames_encryptor _ h.encryptor, List.length_append, ISAACCipher.advance_add]
  legal f hf := by
    rcases List.mem_append.mp hf with hf | hf
    · exact h.legal f hf
    · exact hlegal f hf
  received := by
    rw [Replica.receiveAll_append, h.received]
    exact hreceived

/-- The replica of a player's client shows what it is to show. -/
def Following (g : Game) (p : PlayerId) : Prop :=
  ∃ client joined frames r, Served g (g.server.players p).client client joined frames r ∧
    Shows g.server.players p r

/-- Nothing of what a replica shows has changed. -/
theorem Following.congr {g g' : Game} {p : PlayerId} (h : Following g p)
    (hclient : g'.server.clients (g.server.players p).client =
      g.server.clients (g.server.players p).client)
    (hjoined : g'.joined (g.server.players p).client = g.joined (g.server.players p).client)
    (hplayers : ∀ q, q = p ∨ q ∈ (g.server.players p).localPlayers →
      ∃ m, g'.server.players q = { g.server.players q with movementHandler := m }) :
    Following g' p := by
  obtain ⟨client, joined, frames, r, hserved, hshows⟩ := h
  obtain ⟨m, hp⟩ := hplayers p (.inl rfl)
  refine ⟨client, joined, frames, r, ?_, ?_⟩
  · rw [hp]
    exact ⟨hclient.trans hserved.found, hjoined.trans hserved.noted, hserved.queued,
      hserved.encryptor, hserved.legal, hserved.received⟩
  · refine ⟨?_, ?_, ?_⟩
    · rw [hp]
      exact hshows.region
    · rw [hp]
      exact hshows.position
    · rw [hshows.others, hp]
      refine List.map_congr_left fun q hq => ?_
      obtain ⟨m', hq'⟩ := hplayers q (.inr hq)
      rw [neighbourOf, neighbourOf, hq']

/-! ## The invariant -/

/-- Everybody is on the map, and the replicas of the registered players follow them. -/
structure Mirrored (g : Game) : Prop where
  mapped : ∀ p, Mapped (g.server.players p)
  following : ∀ p ∈ g.server.registered, Following g p

theorem mirrored_start : Mirrored Game.start where
  mapped _ := mapped_constructed [] 0
  following _ hp := nomatch hp

/-- Nothing that a replica shows changes between two ticks. -/
theorem Following.kept {g g' : Game} {p : PlayerId} (h : Following g p) (hsound : GameSound g)
    (hp : p ∈ g.server.registered) (hk : Kept g g' p) : Following g' p := by
  refine h.congr hk.client hk.joined fun q hq => hk.players q ?_
  rcases hq with rfl | hq
  · exact hsound.sound.fresh_of_registered hp
  · exact (hsound.sound.lists p).2 q hq

/-- The frames of a login fit, and tell the region. -/
theorem legalOpcode_loginFrames (position : Position) :
    ∀ f ∈ Player.loginFrames position, LegalOpcode f := by
  intro f hf
  rcases List.mem_cons.mp hf with rfl | hf
  · exact ⟨(by decide : (0 : Int) ≤ 73), (by decide : (73 : Int) < 256)⟩
  · rcases List.mem_append.mp hf with hf | hf
    · obtain ⟨⟨menuId, form⟩, -, rfl⟩ := List.mem_map.mp hf
      exact ⟨(by decide : (0 : Int) ≤ 71), (by decide : (71 : Int) < 256)⟩
    · rw [List.mem_singleton.mp hf]
      exact ⟨(by decide : (0 : Int) ≤ 253), (by decide : (253 : Int) < 256)⟩

theorem receiveAll_loginFrames {position : Position} (h : OnMap position) :
    Replica.receiveAll {} (Player.loginFrames position) =
      some { region := some (chunk position.x, chunk position.y) } := by
  rw [Player.loginFrames, Replica.receiveAll_cons]
  change Option.bind (Replica.receive {} 73 (Client.mapRegionFrame position).body) _ = _
  rw [Replica.receive_mapRegion _ h, Option.bind_some]
  refine Replica.receiveAll_other _ fun f hf => ?_
  rcases List.mem_append.mp hf with hf | hf
  · obtain ⟨⟨menuId, form⟩, -, rfl⟩ := List.mem_map.mp hf
    exact ⟨(by decide : (71 : Int) ≠ 73), (by decide : (71 : Int) ≠ 81)⟩
  · rw [List.mem_singleton.mp hf]
    exact ⟨(by decide : (253 : Int) ≠ 73), (by decide : (253 : Int) ≠ 81)⟩

theorem hasFlag_all (player : Player) :
    (player.setUpdateFlag UpdateFlag.all).hasFlag UpdateFlag.needsPlacement = true := by
  change decide ((player.updateFlags ||| 0xFFFFFFFF) &&& 0x80 ≠ 0) = true
  have hall : player.updateFlags ||| 0xFFFFFFFF = 0xFFFFFFFF := BitVec.or_allOnes
  rw [hall]
  rfl

/-- The client of a player that has just been registered has been sent the frames of the login. -/
theorem Game.served_entered (g : Game) (c : ClientId) {client : Client} {cipher : ISAACCipher}
    (he : client.encryptor = some cipher) (username : Name) (index : Fin maxPlayers) :
    Served (g.entered c client cipher username index) c
      ((LoginHandler.admitted client username LoginResponse.ok g.server.nextPlayer).pushFrames
        cipher (Player.loginFrames { x := 3200, y := 3200 }))
      { queued := client.queued ++ [LoginHandler.replyBytes LoginResponse.ok], cipher }
      (Player.loginFrames { x := 3200, y := 3200 })
      { region := some (chunk 3200, chunk 3200) } where
  found := Server.setClient_clients_self ..
  noted := Function.update_self ..
  queued := by
    have hadmitted : (LoginHandler.admitted client username LoginResponse.ok
        g.server.nextPlayer).encryptor = some cipher := he
    rw [Client.queued_pushFrames _ cipher _ hadmitted]
    simp only [LoginHandler.admitted, LoginHandler.answered, Client.queued,
      List.filterMap_append, List.filterMap_cons, List.filterMap_nil]
  encryptor := Client.pushFrames_encryptor _ he
  legal := legalOpcode_loginFrames _
  received := receiveAll_loginFrames
    ⟨(by decide : (3200 : Word).toNat < 65536), (by decide : (3200 : Word).toNat < 65536)⟩

theorem following_entered (g : Game) (c : ClientId) {client : Client} {cipher : ISAACCipher}
    (he : client.encryptor = some cipher) (username : Name) (index : Fin maxPlayers) :
    Following (g.entered c client cipher username index) g.server.nextPlayer := by
  have hserved := g.served_entered c he username index
  have hplayer := g.entered_player c client cipher username index
  generalize g.entered c client cipher username index = g' at hserved hplayer ⊢
  have howner : (g'.server.players g.server.nextPlayer).client = c := by
    rw [hplayer]
    rfl
  rw [← howner] at hserved
  refine ⟨_, _, _, _, hserved, ?_, fun hflag => ?_, ?_⟩
  · rw [hplayer]
    rfl
  · rw [hplayer, LoginHandler.enteredPlayer, Player.loggedIn, hasFlag_all] at hflag
    cases hflag
  · rw [hplayer]
    rfl

/-- Everybody stays on the map when the tiles of the movement packets are on it. -/
theorem GameStep.mapped {g g' : Game} {e : GameEvent} (hs : GameStep g e g') (hsound : GameSound g)
    (htiles : ∀ c runPath tiles, e = .move c runPath tiles → ∀ tile ∈ tiles, OnMap tile)
    (h : ∀ p, Mapped (g.server.players p)) (p : PlayerId) : Mapped (g'.server.players p) := by
  cases hs with
  | connect _ => exact h p
  | @login c username client cipher _ hc hstage he hdec hrun =>
      have hnot : client.stage ≠ .loggedIn := by
        rw [hstage]
        decide
      obtain ⟨t, hrun', ho⟩ := LoginHandler.enterWorld_outcome hsound.sound hc hnot he _
      obtain rfl := Except.ok.inj (hrun.symm.trans hrun')
      cases ho with
      | refused _ => exact h p
      | full _ _ => exact newPlayer_cases (mapped_constructed username c) h p
      | entered _ _ => exact newPlayer_cases (mapped_entered c username _) h p
  | logout hc hrun =>
      cases Client.departure_of_disconnect hsound.sound hc hrun with
      | again _ => exact h p
      | absent _ _ => exact h p
      | present _ _ _ _ _ => exact h p
  | move _ _ =>
      exact modifyPlayer_cases (fun _ hmapped => hmapped.walkPath _ (htiles _ _ _ rfl)) (h p)
  | tick hrun =>
      have ht := World.process_ticked hsound.sound hrun
      by_cases hp : p ∈ g.server.registered
      · obtain ⟨hposition, hwaypoints⟩ := (h p).processed (hsound.walkers p)
        rw [ht.player p hp]
        exact ⟨hposition, hwaypoints⟩
      · rw [ht.absent p hp]
        exact h p
  | reorder _ => exact h p

/-! ## Ticks -/

/-- The lists are short, and no slot is that of the end marker. -/
structure Room (s : Server) : Prop where
  lists : ∀ p ∈ s.registered, (s.players p).localPlayers.length < 255
  slots : ∀ p ∈ s.registered, (s.players p).index < 2047

theorem legalOpcode_tick (player : Player) (body : List Byte) :
    ∀ f ∈ regionFrames player ++ [⟨81, body⟩], LegalOpcode f := by
  intro f hf
  rcases List.mem_append.mp hf with hf | hf
  · rw [regionFrames] at hf
    split at hf
    · cases hf
    · rw [List.mem_singleton.mp hf]
      exact ⟨(by decide : (0 : Int) ≤ 73), (by decide : (73 : Int) < 256)⟩
  · rw [List.mem_singleton.mp hf]
    exact ⟨(by decide : (0 : Int) ≤ 81), (by decide : (81 : Int) < 256)⟩

/-- A tick sends the client of a registered player what its replica needs. -/
theorem Following.ticked {g : Game} {p : PlayerId} (h : Following g p) (hsound : GameSound g)
    (hmapped : ∀ p, Mapped (g.server.players p)) (hroom : Room g.server) {s' : Server}
    (ht : World.Ticked g.server s') (hp : p ∈ g.server.registered) :
    ∃ client joined frames r, Served { g with server := s' } (s'.players p).client client joined
      frames r ∧ Shows s'.players p r ∧ r.position = some (s'.players p).position := by
  obtain ⟨client, joined, frames, r, hserved, hshows⟩ := h
  have hkept : (keptPlayers (World.afterProcess g.server) p).length < 255 := by
    refine Nat.lt_of_le_of_lt (List.length_filter_le _ _) ?_
    rw [World.afterProcess_of_mem hp, processed_localPlayers]
    exact hroom.lists p hp
  obtain ⟨body, hbody, hdelivered⟩ := ht.sent p hp hkept
  obtain ⟨r', hreceived, hshows', hposition⟩ :=
    ht.shows hsound.sound hsound.walkers hmapped hroom.slots hp hshows hbody
  have howner : (s'.players p).client = (g.server.players p).client := by
    rw [ht.player p hp]
    exact processed_client _
  rw [howner]
  exact ⟨_, _, _, r', hserved.push (hdelivered _ _ hserved.found hserved.encryptor) rfl
    (legalOpcode_tick _ body) hreceived, hshows', hposition⟩

/-! ## Runs -/

/-- The tiles of the movement packets are on the map, and the state reached has room. -/
structure Ordinary (t : Taken Game GameEvent) : Prop where
  tiles : ∀ c runPath tiles, t.label = .move c runPath tiles → ∀ tile ∈ tiles, OnMap tile
  room : Room t.after.server

theorem GameStep.mirrored {g g' : Game} {e : GameEvent} (hs : GameStep g e g')
    (hsound : GameSound g) (hroom : Room g.server) (h : Mirrored g)
    (hordinary : Ordinary ⟨g, e, g'⟩) : Mirrored g' where
  mapped := hs.mapped hsound hordinary.tiles h.mapped
  following p hp := by
    by_cases htick : e = .tick
    · subst htick
      cases hs with
      | tick hrun =>
          have ht := World.process_ticked hsound.sound hrun
          have hbefore : p ∈ g.server.registered := by
            rw [← ht.registered_eq]
            exact hp
          obtain ⟨client, joined, frames, r, hserved, hshows, -⟩ :=
            (h.following p hbefore).ticked hsound h.mapped hroom ht hbefore
          exact ⟨client, joined, frames, r, hserved, hshows⟩
    · rcases hs.registered_cases hsound htick hp with ⟨hbefore, hkept⟩ |
        ⟨c, client, cipher, username, index, he, rfl, rfl⟩
      · exact (h.following p hbefore).kept hsound hbefore hkept
      · exact following_entered g c he username index

/-- The frames that the player's client has been sent since it joined, decrypted and applied in
order to an empty replica, show the player's position and its list. -/
def Shown (g : Game) (p : PlayerId) : Prop :=
  ∃ client joined sent r, g.server.clients (g.server.players p).client = some client ∧
    g.joined (g.server.players p).client = some joined ∧ client.queued = joined.queued ++ sent ∧
    Replica.replay joined.cipher {} sent = some r ∧
    r.position = some (g.server.players p).position ∧
    r.others = (g.server.players p).localPlayers.map (neighbourOf g.server.players)

theorem run_shown {trace : List (Taken Game GameEvent)} {g : Game}
    (h : Run GameStep Game.start trace g) (hordinary : ∀ t ∈ trace, Ordinary t) :
    ∀ t ∈ trace, t.label = .tick → ∀ p ∈ t.after.server.registered, Shown t.after p := by
  have hstart : GameSound Game.start ∧ Room Game.start.server ∧ Mirrored Game.start :=
    ⟨gameSound_start, ⟨fun _ hp => (nomatch hp), fun _ hp => (nomatch hp)⟩, mirrored_start⟩
  have hbefore : ∀ t ∈ trace, (GameSound t.before ∧ Room t.before.server ∧ Mirrored t.before) ∧
      GameStep t.before t.label t.after := by
    refine h.before_of_guarded (P := fun g => GameSound g ∧ Room g.server ∧ Mirrored g) hstart ?_
      hordinary
    rintro g e g' ⟨hsound, hroom, hmirrored⟩ hs ho
    exact ⟨hs.sound hsound, ho.room, hs.mirrored hsound hroom hmirrored ho⟩
  rintro ⟨before, label, after⟩ ht rfl p hp
  obtain ⟨⟨hsound, hroom, hmirrored⟩, hstep⟩ := hbefore _ ht
  change GameStep before .tick after at hstep
  cases hstep with
  | tick hrun =>
      have htick := World.process_ticked hsound.sound hrun
      have hregistered : p ∈ before.server.registered := by
        rw [← htick.registered_eq]
        exact hp
      obtain ⟨client, joined, frames, r, hserved, hshows, hposition⟩ :=
        (hmirrored.following p hregistered).ticked hsound hmirrored.mapped hroom htick hregistered
      exact ⟨client, joined, _, r, hserved.found, hserved.noted, hserved.queued, hserved.replay,
        hposition, hshows.others⟩

/-! ## Two players -/

/-- A list holds nobody twice, so few players make short lists. -/
theorem GameSound.room {g : Game} (h : GameSound g) (hfew : g.server.nextPlayer < 255)
    (hslots : ∀ p < g.server.nextPlayer, (g.server.players p).index < 2047) : Room g.server where
  lists p _ := by
    have hsubset : (g.server.players p).localPlayers ⊆ List.range g.server.nextPlayer :=
      fun q hq => List.mem_range.mpr ((h.sound.lists p).2 q hq)
    have hlength := ((h.lists p).subperm hsubset).length_le
    rw [List.length_range] at hlength
    exact Nat.lt_of_le_of_lt hlength hfew
  slots p hp := hslots p (h.sound.fresh_of_registered hp)

theorem GameStep.connect_players {g g' : Game} {c : ClientId} {encryptor decryptor : ISAACCipher}
    (hs : GameStep g (.connect c encryptor decryptor) g') :
    g'.server.players = g.server.players ∧ g'.server.nextPlayer = g.server.nextPlayer := by
  cases hs with
  | connect _ => exact ⟨rfl, rfl⟩

theorem PairSteps.rooms {g₁ g₂ g₃ g₄ : Game} {i j : Fin maxPlayers} {cipher : ISAACCipher}
    (h : PairSteps g₁ g₂ g₃ g₄ i j cipher) : Room g₁.server ∧ Room g₂.server ∧
      Room g₃.server ∧ GameSound g₄ ∧ g₄.server.nextPlayer = 2 ∧
        ∀ p < 2, (g₄.server.players p).index < 2047 := by
  have hsound₁ := h.connect₀.sound gameSound_start
  have hsound₂ := h.login₀.sound hsound₁
  have hsound₃ := h.connect₁.sound hsound₂
  have hsound₄ := h.login₁.sound hsound₃
  obtain ⟨hi, hj⟩ := h.slots
  obtain ⟨-, hnext₁⟩ := h.connect₀.connect_players
  obtain ⟨hplayers₃, hnext₃⟩ := h.connect₁.connect_players
  have hnext₂ : g₂.server.nextPlayer = 1 := h.joined₀.nextPlayer
  have hnext₄ : g₄.server.nextPlayer = 2 := by
    rw [h.joined₁.nextPlayer, hnext₂]
  have hentered (c : ClientId) (username : Name) (index : Fin maxPlayers) (hindex : index.val ≤ 1) :
      (LoginHandler.enteredPlayer c username index).index < 2047 := by
    change ((index.val : Nat) : Int) < 2047
    omega
  have hslots₂ : ∀ p < g₂.server.nextPlayer, (g₂.server.players p).index < 2047 := by
    intro p hp
    rw [hnext₂] at hp
    have hfirst : p = Game.start.server.nextPlayer := Nat.lt_one_iff.mp hp
    rw [h.joined₀.players, hfirst, Function.update_self]
    exact hentered 0 [97] i (by omega)
  refine ⟨hsound₁.room ?_ ?_, hsound₂.room ?_ hslots₂, hsound₃.room ?_ ?_, hsound₄, hnext₄, ?_⟩
  · rw [hnext₁]
    decide
  · intro p hp
    rw [hnext₁] at hp
    exact absurd hp (Nat.not_lt_zero p)
  · rw [hnext₂]
    decide
  · rw [hnext₃, hnext₂]
    decide
  · rw [hplayers₃, hnext₃]
    exact hslots₂
  · intro p hp
    obtain ⟨h0, h1⟩ := h.players
    rcases Nat.le_one_iff_eq_zero_or_eq_one.mp (Nat.lt_succ_iff.mp hp) with rfl | rfl
    · rw [h0]
      exact hentered 0 [97] i (by omega)
    · rw [h1]
      exact hentered 1 [98] j hj

/-- Two players join, and after the first tick the first one's client shows the second. -/
theorem run_shown_pair : ∃ trace g, Run GameStep Game.start trace g ∧
    1 ∈ (g.server.players 0).localPlayers ∧ Shown g 0 := by
  obtain ⟨g₁, g₂, g₃, g₄, i, j, hpair⟩ := exists_pair (ISAACCipher.new (Vector.replicate 4 0))
  obtain ⟨hroom₁, hroom₂, hroom₃, hsound₄, hnext, hslots⟩ := hpair.rooms
  have hrun₂ := (Run.start.snoc hpair.connect₀).snoc hpair.login₀
  have hrun₄ := (hrun₂.snoc hpair.connect₁).snoc hpair.login₁
  obtain ⟨s₅, hprocess⟩ := hsound₄.exists_tick
  have htick : GameStep g₄ .tick { g₄ with server := s₅ } := .tick hprocess
  have hticked := World.process_ticked hsound₄.sound hprocess
  obtain ⟨hlisted, -, -⟩ := hpair.listed hticked
  have hroom₄ : Room g₄.server :=
    hsound₄.room (by rw [hnext]; decide) (by rw [hnext]; exact hslots)
  have hroom₅ : Room s₅ := by
    have hsound₅ := htick.sound hsound₄
    refine hsound₅.room ?_ fun p hp => ?_
    · change s₅.nextPlayer < 255
      rw [hticked.nextPlayer, hnext]
      decide
    · change p < s₅.nextPlayer at hp
      rw [hticked.nextPlayer, hnext] at hp
      change (neighbourOf s₅.players p).slot < 2047
      rw [hticked.neighbourOf]
      change ((World.afterProcess g₄.server).players p).index < 2047
      by_cases hregistered : p ∈ g₄.server.registered
      · rw [World.afterProcess_of_mem hregistered, processed_index]
        exact hslots p hp
      · rw [World.afterProcess_of_not_mem hregistered]
        exact hslots p hp
  have hrun₅ := hrun₄.snoc htick
  refine ⟨_, _, hrun₅, hlisted, ?_⟩
  have hordinary (t : Taken Game GameEvent) (hroom : Room t.after.server)
      (hquiet : ∀ c runPath tiles, t.label ≠ .move c runPath tiles) : Ordinary t :=
    ⟨fun c runPath tiles h => absurd h (hquiet c runPath tiles), hroom⟩
  refine run_shown hrun₅ (forall_snoc (forall_snoc (forall_snoc (forall_snoc (forall_snoc
    (forall_nil _) ?_) ?_) ?_) ?_) ?_) _ (List.mem_append_right _ List.mem_cons_self) rfl 0 ?_
  · exact hordinary _ hroom₁ fun _ _ _ h => nomatch h
  · exact hordinary _ hroom₂ fun _ _ _ h => nomatch h
  · exact hordinary _ hroom₃ fun _ _ _ h => nomatch h
  · exact hordinary _ hroom₄ fun _ _ _ h => nomatch h
  · exact hordinary _ hroom₅ fun _ _ _ h => nomatch h
  · change 0 ∈ s₅.registered
    rw [hticked.registered_eq, hpair.registered]
    decide

end AsioRsps
