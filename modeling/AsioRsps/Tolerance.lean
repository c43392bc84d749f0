import AsioRsps.Connection
import AsioRsps.Tick
import AsioRsps.Transmission

/-!
# Players without a client

The tick in any state of the world, also one in which the client of a registered player is
gone. It goes through, and then serves everybody, exactly when every registered player has a
client: a single one without is enough to end it with a null pointer.
-/
namespace AsioRsps
open StreamBuffer (opcodeByte)
open FallibleLoop (foldlM_invariant exists_foldlM bind_eq_ok)
open MovementHandler PlayerUpdating

namespace MovementHandler

/-- The points of a queue lead into one of the eight directions, or nowhere. -/
def Legal (m : MovementHandler) : Prop :=
  ∀ point ∈ m.waypoints, Position.IsDirection point.direction

theorem exists_stepTo {d : Int} (h : Position.IsDirection d) (hd : d ≠ -1) (position : Position) :
    ∃ position', position.stepTo d = some position' := by
  have hlow : 0 ≤ d := by
    have h1 := h.1
    omega
  obtain ⟨n, rfl⟩ := Int.eq_ofNat_of_zero_le hlow
  have hn : n < 8 := by
    have h2 := h.2
    omega
  simp only [Position.stepTo, hlow, if_true, Int.toNat_natCast, Vector.getElem?_eq_getElem hn]
  exact ⟨_, rfl⟩

theorem exists_follow (player : Player) {point : Option Point} (record : Player → Int → Player)
    (h : ∀ p ∈ point, Position.IsDirection p.direction) :
    ∃ player', follow player point record = .ok player' := by
  cases point with
  | none => exact ⟨player, rfl⟩
  | some point =>
      by_cases hd : point.direction = -1
      · exact ⟨player, by simp only [follow, hd, if_true]⟩
      · obtain ⟨position, hstep⟩ := exists_stepTo (h point rfl) hd player.position
        exact ⟨_, by simp only [follow, hd, if_false, hstep]; rfl⟩

theorem exists_advance {player : Player} (h : player.movementHandler.Legal) :
    ∃ player', advance player = .ok player' := by
  have hhead : ∀ p ∈ player.movementHandler.waypoints.head?, Position.IsDirection p.direction :=
    fun p hp => h p (List.mem_of_mem_head? hp)
  have hnext : ∀ p ∈ (if (player.movementHandler.runToggled || player.movementHandler.runPath)
      then player.movementHandler.waypoints.tail.head? else none),
      Position.IsDirection p.direction := by
    intro p hp
    split at hp
    · exact h p (List.mem_of_mem_tail (List.mem_of_mem_head? hp))
    · cases hp
  obtain ⟨player₁, hwalk⟩ := exists_follow { player with
    movementHandler := { player.movementHandler with
      waypoints := if (player.movementHandler.runToggled || player.movementHandler.runPath)
        then player.movementHandler.waypoints.tail.tail
        else player.movementHandler.waypoints.tail } }
    (fun player d => { player with primaryDirection := d }) hhead
  obtain ⟨player₂, hrun⟩ :=
    exists_follow player₁ (fun player d => { player with secondaryDirection := d }) hnext
  exact ⟨player₂, bind_eq_ok.mpr ⟨player₁, hwalk, hrun⟩⟩

/-- What a player that has been processed says of the server before it. -/
theorem process_inv {s s' : Server} {p : PlayerId} (h : process s p = .ok s') :
    insideRegion (moved (s.players p)) = true ∧
        s' = s.setPlayer p (processed (s.players p)) ∨
      Client.Sent (s.setPlayer p (processed (s.players p))) (s.players p).client s' ∧
        ∃ client q, s.clients (s.players p).client = some client ∧
          s.lockPlayer client.player = some q := by
  obtain ⟨player, hm, h⟩ := bind_eq_ok.mp h
  have hmoved : moved (s.players p) = player := by rw [moved, hm]
  split at h
  · rename_i hin
    left
    rw [processed, hmoved, if_pos hin]
    exact ⟨hin, (Except.ok.inj h).symm⟩
  · rename_i hin
    right
    obtain ⟨hsent, client, q, hc, hlock⟩ := Player.updateMapRegion_inv h
    have hclient : player.client = (s.players p).client := by rw [← hmoved, moved_client]
    have hlocals : player.localPlayers = (s.players p).localPlayers := by
      rw [← hmoved, moved_localPlayers]
    rw [Server.setPlayer_players_self, Server.setPlayer_setPlayer, hclient] at hsent
    rw [Server.setPlayer_players_self, hclient] at hc
    rw [Server.lockPlayer_setPlayer s hlocals] at hlock
    rw [processed, hmoved, if_neg hin]
    exact ⟨hsent, client, q, hc, hlock⟩

/-- A player with legal waypoints and a client is processed without an error. -/
theorem exists_process {s : Server} {p : PlayerId} {client : Client} {cipher : ISAACCipher}
    (hlegal : (s.players p).movementHandler.Legal)
    (hc : s.clients (s.players p).client = some client) (he : client.encryptor = some cipher)
    (hregion : insideRegion (moved (s.players p)) = false →
      ∃ q, s.lockPlayer client.player = some q) : ∃ s', process s p = .ok s' := by
  obtain ⟨player, hm⟩ := exists_advance hlegal
  have hmoved : moved (s.players p) = player := by rw [moved, hm]
  have hclient : player.client = (s.players p).client := by rw [← hmoved, moved_client]
  have hlocals : player.localPlayers = (s.players p).localPlayers := by
    rw [← hmoved, moved_localPlayers]
  cases hin : insideRegion player with
  | true =>
      refine ⟨s.setPlayer p player, bind_eq_ok.mpr ⟨player, hm, ?_⟩⟩
      rw [if_pos hin]
      rfl
  | false =>
      obtain ⟨q, hq⟩ := hregion (by rw [hmoved, hin])
      let s₁ := (s.setPlayer p player).setPlayer p player.regionUpdated
      have hlocals₁ : player.regionUpdated.localPlayers =
          ((s.setPlayer p player).players p).localPlayers := by
        rw [Server.setPlayer_players_self]
        rfl
      have hlock : s₁.lockPlayer client.player = some q := by
        rw [Server.lockPlayer_setPlayer _ hlocals₁, Server.lockPlayer_setPlayer s hlocals]
        exact hq
      have hplayer : s₁.players p = player.regionUpdated := Server.setPlayer_players_self ..
      have hfound : s₁.clients (s₁.players p).client = some client := by
        rw [hplayer]
        exact (congrArg s.clients hclient).trans hc
      have hupdate : Player.updateMapRegion (s.setPlayer p player) p =
          Client.sendMapRegion s₁ (s₁.players p).client := by
        rw [Player.updateMapRegion, Server.modifyPlayer, Server.setPlayer_players_self]
        rfl
      have hsend := hupdate.trans (Client.sendMapRegion_ok hfound he hlock)
      refine ⟨_, bind_eq_ok.mpr ⟨player, hm, Eq.trans ?_ hsend⟩⟩
      rw [hin, if_neg Bool.false_ne_true]

end MovementHandler

namespace Server

/-! ## Clients that are posted to -/

/-- The client has been posted to, and is as alive as before. -/
structure Fed (old new : Client) : Prop where
  player : new.player = old.player
  encryptor : new.encryptor.isSome = old.encryptor.isSome
  strand : ∃ posted, new.strand = old.strand ++ posted

theorem Fed.refl (client : Client) : Fed client client := ⟨rfl, rfl, [], (List.append_nil _).symm⟩

theorem Fed.trans {a b c : Client} (h : Fed a b) (h' : Fed b c) : Fed a c where
  player := h'.player.trans h.player
  encryptor := h'.encryptor.trans h.encryptor
  strand := by
    obtain ⟨posted, hab⟩ := h.strand
    obtain ⟨posted', hbc⟩ := h'.strand
    exact ⟨posted ++ posted', by rw [hbc, hab, List.append_assoc]⟩

/-- The same clients are there, and some have been posted to. -/
structure Feeds (s t : Server) : Prop where
  world : t.world = s.world
  nextPlayer : t.nextPlayer = s.nextPlayer
  after : ∀ c client, s.clients c = some client →
    ∃ client', t.clients c = some client' ∧ Fed client client'
  before : ∀ c client', t.clients c = some client' →
    ∃ client, s.clients c = some client ∧ Fed client client'

theorem feeds_of_same {s t : Server} (hworld : t.world = s.world)
    (hnext : t.nextPlayer = s.nextPlayer) (hclients : t.clients = s.clients) : s.Feeds t where
  world := hworld
  nextPlayer := hnext
  after c client hc := ⟨client, by rw [hclients]; exact hc, .refl client⟩
  before c client hc := ⟨client, by rw [← hclients]; exact hc, .refl client⟩

theorem Feeds.trans {s t u : Server} (h : s.Feeds t) (h' : t.Feeds u) : s.Feeds u where
  world := h'.world.trans h.world
  nextPlayer := h'.nextPlayer.trans h.nextPlayer
  after c client hc := by
    obtain ⟨client', hc', hfed⟩ := h.after c client hc
    obtain ⟨client'', hc'', hfed'⟩ := h'.after c client' hc'
    exact ⟨client'', hc'', hfed.trans hfed'⟩
  before c client'' hc'' := by
    obtain ⟨client', hc', hfed'⟩ := h'.before c client'' hc''
    obtain ⟨client, hc, hfed⟩ := h.before c client' hc'
    exact ⟨client, hc, hfed.trans hfed'⟩

theorem feeds_setClient {s : Server} {c : ClientId} {old new : Client}
    (hc : s.clients c = some old) (h : Fed old new) : s.Feeds (s.setClient c new) where
  world := rfl
  nextPlayer := rfl
  after d client hd := by
    by_cases hdc : d = c
    · subst hdc
      obtain rfl := Option.some.inj (hc.symm.trans hd)
      exact ⟨new, setClient_clients_self .., h⟩
    · exact ⟨client, (setClient_clients_of_ne s new hdc).trans hd, .refl client⟩
  before d client hd := by
    by_cases hdc : d = c
    · subst hdc
      obtain rfl := Option.some.inj ((setClient_clients_self ..).symm.trans hd)
      exact ⟨old, hc, h⟩
    · exact ⟨client, (setClient_clients_of_ne s new hdc).symm.trans hd, .refl client⟩

theorem feeds_of_sent {s s' : Server} {c : ClientId} (h : Client.Sent s c s') : s.Feeds s' := by
  obtain ⟨client, cipher, cipher', bytes, hc, he, rfl⟩ := h
  refine feeds_setClient hc ⟨rfl, ?_, _, rfl⟩
  rw [he]
  rfl

/-- Something new has been posted to the client. -/
def PostedTo (s t : Server) (c : ClientId) (f : Posted) : Prop :=
  ∃ client client' posted, s.clients c = some client ∧ t.clients c = some client' ∧
    client'.strand = client.strand ++ posted ∧ f ∈ posted

theorem PostedTo.after {s t u : Server} {c : ClientId} {f : Posted} (h : PostedTo s t c f)
    (h' : t.Feeds u) : PostedTo s u c f := by
  obtain ⟨client, client', posted, hc, hc', hstrand, hf⟩ := h
  obtain ⟨client'', hc'', hfed⟩ := h'.after c client' hc'
  obtain ⟨posted', hstrand'⟩ := hfed.strand
  refine ⟨client, client'', posted ++ posted', hc, hc'', ?_, List.mem_append_left _ hf⟩
  rw [hstrand', hstrand, List.append_assoc]

theorem PostedTo.before {s t u : Server} {c : ClientId} {f : Posted} (h : s.Feeds t)
    (h' : PostedTo t u c f) : PostedTo s u c f := by
  obtain ⟨client', client'', posted', hc', hc'', hstrand', hf⟩ := h'
  obtain ⟨client, hc, hfed⟩ := h.before c client' hc'
  obtain ⟨posted, hstrand⟩ := hfed.strand
  refine ⟨client, client'', posted ++ posted', hc, hc'', ?_, List.mem_append_right _ hf⟩
  rw [hstrand', hstrand, List.append_assoc]

theorem lockPlayer_congr {s t : Server} (hworld : t.world = s.world)
    (hnext : t.nextPlayer = s.nextPlayer)
    (hlists : ∀ p, (t.players p).localPlayers = (s.players p).localPlayers) :
    t.lockPlayer = s.lockPlayer := by
  funext weak
  have howns : t.owns = s.owns := by
    funext p
    simp only [owns, registered, hworld, hnext, hlists]
    rfl
  simp only [lockPlayer, howns]

end Server

namespace World
open Server (Feeds PostedTo)

/-- What the tick relies on besides the clients: a player is filed under its own name, its
waypoints are those of a path, and its list fits the byte that counts it. -/
structure WellFormed (s : Server) : Prop where
  named : ∀ name p, s.world.players.lookup name = some p → (s.players p).username = name
  legal : ∀ p ∈ s.registered, (s.players p).movementHandler.Legal
  lists : ∀ p ∈ s.registered, (s.players p).localPlayers.length ≤ 255

theorem WellFormed.nodup {s : Server} (h : WellFormed s) : s.registered.Nodup :=
  Server.registered_nodup fun name name' p hn hn' =>
    (h.named name p hn).symm.trans (h.named name' p hn')

/-- The player has a client that has an encryptor; and where the player's move loads a new map
region, the client's own player is alive. -/
def HasClient (s : Server) (p : PlayerId) : Prop :=
  ∃ client cipher, s.clients (s.players p).client = some client ∧
    client.encryptor = some cipher ∧
    (insideRegion (moved (s.players p)) = false → ∃ q, s.lockPlayer client.player = some q)

/-! ## The first phase -/

structure Walked (s : Server) (done : List PlayerId) (t : Server) : Prop where
  feeds : s.Feeds t
  player : ∀ p ∈ done, t.players p = processed (s.players p)
  waiting : ∀ p, p ∉ done → t.players p = s.players p
  region : ∀ p ∈ done, insideRegion (moved (s.players p)) = false →
    ∃ client q, s.clients (s.players p).client = some client ∧ s.lockPlayer client.player = some q

theorem walked_nil (s : Server) : Walked s [] s where
  feeds := Server.feeds_of_same rfl rfl rfl
  player _ hp := (nomatch hp)
  waiting _ _ := rfl
  region _ hp := (nomatch hp)

theorem Walked.lockPlayer {s t : Server} {done : List PlayerId} (h : Walked s done t) :
    t.lockPlayer = s.lockPlayer := by
  refine Server.lockPlayer_congr h.feeds.world h.feeds.nextPlayer fun p => ?_
  by_cases hp : p ∈ done
  · rw [h.player p hp, processed_localPlayers]
  · rw [h.waiting p hp]

/-- One player has been changed, and clients have been posted to. -/
theorem Walked.change {s t t' : Server} {done : List PlayerId} {p : PlayerId} (h : Walked s done t)
    (hnot : p ∉ done) (hfeeds : t.Feeds t')
    (hplayers : t'.players = (t.setPlayer p (processed (t.players p))).players)
    (hregion : insideRegion (moved (s.players p)) = false → ∃ client q,
      s.clients (s.players p).client = some client ∧ s.lockPlayer client.player = some q) :
    Walked s (done ++ [p]) t' where
  feeds := h.feeds.trans hfeeds
  player q hq := by
    rw [hplayers]
    by_cases hqp : q = p
    · rw [hqp, Server.setPlayer_players_self, h.waiting p hnot]
    · rw [Server.setPlayer_players_of_ne t _ hqp]
      exact h.player q (by simpa [hqp] using hq)
  waiting q hq := by
    have hqp : q ≠ p := by
      rintro rfl
      exact hq (List.mem_append_right _ List.mem_cons_self)
    rw [hplayers, Server.setPlayer_players_of_ne t _ hqp]
    exact h.waiting q fun hmem => hq (List.mem_append_left _ hmem)
  region q hq := by
    by_cases hqp : q = p
    · rw [hqp]
      exact hregion
    · exact h.region q (by simpa [hqp] using hq)

theorem Walked.step {s t t' : Server} {done : List PlayerId} {p : PlayerId} (h : Walked s done t)
    (hnot : p ∉ done) (hrun : Player.process t p = .ok t') : Walked s (done ++ [p]) t' := by
  have hsame : t.players p = s.players p := h.waiting p hnot
  rcases process_inv hrun with ⟨hin, rfl⟩ | ⟨hsent, client, q, hc, hlock⟩
  · rw [hsame] at hin
    refine h.change hnot (Server.feeds_of_same rfl rfl rfl) rfl fun hout => ?_
    rw [hin] at hout
    cases hout
  · have hfeeds : t.Feeds (t.setPlayer p (processed (t.players p))) :=
      Server.feeds_of_same rfl rfl rfl
    refine h.change hnot (hfeeds.trans (Server.feeds_of_sent hsent)) hsent.sameRest.players
      fun _ => ?_
    rw [hsame] at hc
    rw [h.lockPlayer] at hlock
    obtain ⟨old, hold, hfed⟩ := h.feeds.before _ client hc
    rw [hfed.player] at hlock
    exact ⟨old, q, hold, hlock⟩

theorem Walked.exists_step {s t : Server} (hs : WellFormed s) {done : List PlayerId} {p : PlayerId}
    (h : Walked s done t) (hp : p ∈ s.registered) (hnot : p ∉ done) (hclient : HasClient s p) :
    ∃ t', Player.process t p = .ok t' ∧ Walked s (done ++ [p]) t' := by
  have hsame : t.players p = s.players p := h.waiting p hnot
  obtain ⟨client, cipher, hc, he, hregion⟩ := hclient
  obtain ⟨client', hc', hfed⟩ := h.feeds.after _ client hc
  have he' : client'.encryptor.isSome = true := by
    rw [hfed.encryptor, he]
    rfl
  obtain ⟨cipher', he'⟩ := Option.isSome_iff_exists.mp he'
  rw [← hsame] at hc' hregion
  have hlegal : (t.players p).movementHandler.Legal := by
    rw [hsame]
    exact hs.legal p hp
  obtain ⟨t', hrun⟩ := exists_process hlegal hc' he' (by
    rw [h.lockPlayer, hfed.player]
    exact hregion)
  exact ⟨t', hrun, h.step hnot hrun⟩

/-! ## The second phase -/

structure Listed (t : Server) (done : List PlayerId) (u : Server) : Prop where
  feeds : t.Feeds u
  player : ∀ p ∈ done, u.players p =
    { t.players p with localPlayers := keptPlayers t p ++ addedPlayers t p }
  waiting : ∀ p, p ∉ done → u.players p = t.players p
  client : ∀ p ∈ done, ∃ client cipher, t.clients (t.players p).client = some client ∧
    client.encryptor = some cipher
  sent : ∀ p ∈ done, (keptPlayers t p).length < 255 → ∃ body cipher, UpdateBody t p body ∧
    PostedTo t u (t.players p).client (.push (opcodeByte 81 cipher :: body))

theorem listed_nil (t : Server) : Listed t [] t where
  feeds := Server.feeds_of_same rfl rfl rfl
  player _ hp := (nomatch hp)
  waiting _ _ := rfl
  client _ hp := (nomatch hp)
  sent _ hp := (nomatch hp)

theorem Listed.sameView {t u : Server} {done : List PlayerId} (h : Listed t done u) {p : PlayerId}
    (hnot : p ∉ done) : SameView u t p where
  players q := by
    by_cases hq : q ∈ done
    · exact ⟨_, h.player q hq⟩
    · exact ⟨_, h.waiting q hq⟩
  own := h.waiting p hnot
  registered := by rw [Server.registered, Server.registered, h.feeds.world]

theorem updatePlayer_client {s s' : Server} {p : PlayerId} (h : updatePlayer s p = .ok s') :
    ∃ client cipher, s.clients (s.players p).client = some client ∧
      client.encryptor = some cipher := by
  obtain ⟨⟨u, t⟩, hopen, -⟩ := bind_eq_ok.mp h
  obtain ⟨⟨out, t'⟩, hframe, -⟩ := bind_eq_ok.mp hopen
  obtain ⟨client, cipher, -, hc, he, -⟩ := Client.openFrame_inv hframe
  exact ⟨client, cipher, hc, he⟩

/-- A player with a client is updated: its list is the one the first half of the tick leads to,
and with room in it the frame is posted. -/
theorem Listed.update {t u : Server} {done : List PlayerId} {p : PlayerId} {client : Client}
    {cipher : ISAACCipher} (h : Listed t done u) (hnot : p ∉ done)
    (hlist : (t.players p).localPlayers.length ≤ 255)
    (hc : u.clients (u.players p).client = some client) (he : client.encryptor = some cipher) :
    ∃ u', updatePlayer u p = .ok u' ∧ u.Feeds u' ∧
      u'.players = (u.setLocalPlayers p (keptPlayers t p ++ addedPlayers t p)).players ∧
      ((keptPlayers t p).length < 255 → ∃ body, UpdateBody t p body ∧
        PostedTo u u' (t.players p).client (.push (opcodeByte 81 cipher :: body))) := by
  have hview := h.sameView hnot
  have hkept := hview.keptPlayers_eq
  have hadded := hview.addedPlayers_eq
  have hlists (l : List PlayerId) : u.Feeds (u.setLocalPlayers p l) :=
    Server.feeds_of_same rfl rfl rfl
  rw [← hview.own] at hlist ⊢
  by_cases hroom : (keptPlayers t p).length < 255
  · rw [← hkept] at hroom
    obtain ⟨body, hbody, hrun⟩ := updatePlayer_ok hc he hlist hroom
    have hfed : Server.Fed client (client.pushFrame cipher ⟨81, body⟩) :=
      ⟨rfl, by rw [he]; rfl, _, rfl⟩
    refine ⟨_, hrun, ?_, ?_, fun _ => ⟨body, hview.updateBody hbody, ?_⟩⟩
    · exact (hlists _).trans (Server.feeds_setClient hc hfed)
    · rw [hkept, hadded]
      rfl
    · exact ⟨client, _, _, hc, Server.setClient_clients_self .., rfl, List.mem_singleton_self _⟩
  · have hfull := Nat.not_lt.mp hroom
    rw [← hkept] at hfull
    have hfed : Server.Fed client (client.drawKey cipher) :=
      ⟨rfl, by rw [he]; rfl, [], (List.append_nil _).symm⟩
    refine ⟨_, updatePlayer_full hc he hfull, ?_, ?_, fun hlt => absurd hlt hroom⟩
    · exact (hlists _).trans (Server.feeds_setClient hc hfed)
    · have hnone : addedPlayers t p = [] := by
        rw [addedPlayers]
        cases t.registered with
        | nil => rfl
        | cons q qs => rw [additions, if_pos (Nat.not_lt.mp hroom)]
      rw [hnone, List.append_nil, hkept]
      rfl

theorem Listed.step {t u u' : Server} {done : List PlayerId} {p : PlayerId} (h : Listed t done u)
    (hnot : p ∉ done) (hlist : (t.players p).localPlayers.length ≤ 255)
    (hrun : updatePlayer u p = .ok u') : Listed t (done ++ [p]) u' := by
  obtain ⟨client, cipher, hc, he⟩ := updatePlayer_client hrun
  obtain ⟨u'', hrun', hfeeds, hplayers, hsent⟩ := h.update hnot hlist hc he
  obtain rfl := Except.ok.inj (hrun.symm.trans hrun')
  have hcases {q : PlayerId} (hq : q ∈ done ++ [p]) : q = p ∨ q ≠ p ∧ q ∈ done := by
    by_cases hqp : q = p
    · exact .inl hqp
    · exact .inr ⟨hqp, by simpa [hqp] using hq⟩
  refine ⟨h.feeds.trans hfeeds, fun q hq => ?_, fun q hq => ?_, fun q hq => ?_,
    fun q hq hroom => ?_⟩
  · rw [hplayers]
    rcases hcases hq with rfl | ⟨hqp, hq⟩
    · rw [Server.setLocalPlayers_self, h.waiting q hnot]
    · rw [Server.setLocalPlayers_of_ne u _ hqp]
      exact h.player q hq
  · have hqp : q ≠ p := by
      rintro rfl
      exact hq (List.mem_append_right _ List.mem_cons_self)
    rw [hplayers, Server.setLocalPlayers_of_ne u _ hqp]
    exact h.waiting q fun hmem => hq (List.mem_append_left _ hmem)
  · rcases hcases hq with rfl | ⟨-, hq⟩
    · rw [h.waiting q hnot] at hc
      obtain ⟨old, hold, hfed⟩ := h.feeds.before _ client hc
      have hsome : old.encryptor.isSome = true := by
        rw [← hfed.encryptor, he]
        rfl
      obtain ⟨cipher', he'⟩ := Option.isSome_iff_exists.mp hsome
      exact ⟨old, cipher', hold, he'⟩
    · exact h.client q hq
  · rcases hcases hq with rfl | ⟨-, hq⟩
    · obtain ⟨body, hbody, hposted⟩ := hsent hroom
      exact ⟨body, cipher, hbody, hposted.before h.feeds⟩
    · obtain ⟨body, cipher', hbody, hposted⟩ := h.sent q hq hroom
      exact ⟨body, cipher', hbody, hposted.after hfeeds⟩

theorem Listed.exists_step {t u : Server} {done : List PlayerId} {p : PlayerId}
    (h : Listed t done u) (hnot : p ∉ done) (hlist : (t.players p).localPlayers.length ≤ 255)
    {client : Client} {cipher : ISAACCipher} (hc : t.clients (t.players p).client = some client)
    (he : client.encryptor = some cipher) :
    ∃ u', updatePlayer u p = .ok u' ∧ Listed t (done ++ [p]) u' := by
  obtain ⟨client', hc', hfed⟩ := h.feeds.after _ client hc
  have hsome : client'.encryptor.isSome = true := by
    rw [hfed.encryptor, he]
    rfl
  obtain ⟨cipher', he'⟩ := Option.isSome_iff_exists.mp hsome
  rw [← h.waiting p hnot] at hc'
  obtain ⟨u', hrun, -⟩ := h.update hnot hlist hc' he'
  exact ⟨u', hrun, h.step hnot hlist hrun⟩

/-! ## The tick -/

/-- The tick has served the player: it is moved, updated and reset, and with room in its list
its frame 81 has been posted. -/
structure Attended (s s' : Server) (p : PlayerId) : Prop where
  player : s'.players p = { (processed (s.players p)).reset with localPlayers := listed s p }
  sent : (keptPlayers (afterProcess s) p).length < 255 → ∃ body cipher,
    UpdateBody (afterProcess s) p body ∧
      PostedTo s s' (s.players p).client (.push (opcodeByte 81 cipher :: body))

/-- The tick goes through and serves every registered player whose client is alive. -/
def Tolerates (s : Server) : Prop :=
  ∃ s', process s = .ok s' ∧ ∀ p ∈ s.registered,
    (∃ client, s.clients (s.players p).client = some client) → Attended s s' p

theorem Walked.sameView {s t : Server} (h : Walked s s.registered t) (p : PlayerId) :
    SameView t (afterProcess s) p := by
  have hplayers (q : PlayerId) : t.players q = (afterProcess s).players q := by
    by_cases hq : q ∈ s.registered
    · rw [h.player q hq, afterProcess_of_mem hq]
    · rw [h.waiting q hq, afterProcess_of_not_mem hq]
  refine ⟨fun q => ⟨_, hplayers q⟩, hplayers p, ?_⟩
  rw [Server.registered, h.feeds.world]
  rfl

theorem Walked.lists {s t : Server} (hs : WellFormed s) (h : Walked s s.registered t)
    {p : PlayerId} (hp : p ∈ s.registered) : (t.players p).localPlayers.length ≤ 255 := by
  rw [h.player p hp, processed_localPlayers]
  exact hs.lists p hp

/-- A tick that goes through has found a client for every registered player, and has served
them all. -/
theorem process_attends {s s' : Server} (hs : WellFormed s) (h : process s = .ok s')
    {p : PlayerId} (hp : p ∈ s.registered) : HasClient s p ∧ Attended s s' p := by
  obtain ⟨t, hphase₁, h⟩ := bind_eq_ok.mp h
  obtain ⟨u, hphase₂, h⟩ := bind_eq_ok.mp h
  have hs' : s' = resetAll u s.registered := (Except.ok.inj h).symm
  have ht : Walked s s.registered t := foldlM_invariant hphase₁ (walked_nil s)
    fun done q rest t t' hl ht hq => ht.step (not_mem_of_split hs.nodup hl) hq
  have hu : Listed t s.registered u := foldlM_invariant hphase₂ (listed_nil t)
    fun done q rest u u' hl hu hq => by
      have hq' : q ∈ s.registered := by simp [hl]
      exact hu.step (not_mem_of_split hs.nodup hl) (ht.lists hs hq') hq
  have hview := ht.sameView p
  have howner : (t.players p).client = (s.players p).client := by
    rw [ht.player p hp, processed_client]
  constructor
  · obtain ⟨client', cipher', hc', he'⟩ := hu.client p hp
    rw [howner] at hc'
    obtain ⟨client, hc, hfed⟩ := ht.feeds.before _ client' hc'
    have hsome : client.encryptor.isSome = true := by
      rw [← hfed.encryptor, he']
      rfl
    obtain ⟨cipher, he⟩ := Option.isSome_iff_exists.mp hsome
    refine ⟨client, cipher, hc, he, fun hout => ?_⟩
    obtain ⟨other, q, hother, hlock⟩ := ht.region p hp hout
    obtain rfl := Option.some.inj (hc.symm.trans hother)
    exact ⟨q, hlock⟩
  · constructor
    · rw [hs', resetAll_players, if_pos hp, hu.player p hp, hview.keptPlayers_eq,
        hview.addedPlayers_eq, ht.player p hp]
      rfl
    · intro hroom
      rw [← hview.keptPlayers_eq] at hroom
      obtain ⟨body, cipher, hbody, hposted⟩ := hu.sent p hp hroom
      rw [howner] at hposted
      obtain ⟨hclients, hworld, hnext, -⟩ := resetAll_frame u s.registered
      refine ⟨body, cipher, hview.updateBody hbody, ?_⟩
      rw [hs']
      exact (hposted.before ht.feeds).after (Server.feeds_of_same hworld hnext hclients)

theorem process_of_hasClient {s : Server} (hs : WellFormed s)
    (h : ∀ p ∈ s.registered, HasClient s p) : ∃ s', process s = .ok s' := by
  obtain ⟨t, hphase₁, ht⟩ := exists_foldlM (f := Player.process) (P := Walked s)
    (l := s.registered) (walked_nil s) fun done p rest t hl ht => by
      have hp : p ∈ s.registered := by simp [hl]
      exact ht.exists_step hs hp (not_mem_of_split hs.nodup hl) (h p hp)
  obtain ⟨u, hphase₂, -⟩ := exists_foldlM (f := updatePlayer) (P := Listed t)
    (l := s.registered) (listed_nil t) fun done p rest u hl hu => by
      have hp : p ∈ s.registered := by simp [hl]
      obtain ⟨client, cipher, hc, he, -⟩ := h p hp
      obtain ⟨client', hc', hfed⟩ := ht.feeds.after _ client hc
      have hsome : client'.encryptor.isSome = true := by
        rw [hfed.encryptor, he]
        rfl
      obtain ⟨cipher', he'⟩ := Option.isSome_iff_exists.mp hsome
      rw [← processed_client (s.players p), ← ht.player p hp] at hc'
      exact hu.exists_step (not_mem_of_split hs.nodup hl) (ht.lists hs hp) hc' he'
  exact ⟨_, bind_eq_ok.mpr ⟨t, hphase₁, bind_eq_ok.mpr ⟨u, hphase₂, rfl⟩⟩⟩

/-- The tick tolerates no registered player without a client. -/
theorem tolerates_iff {s : Server} (hs : WellFormed s) :
    Tolerates s ↔ ∀ p ∈ s.registered, HasClient s p := by
  constructor
  · rintro ⟨s', hrun, -⟩ p hp
    exact (process_attends hs hrun hp).1
  · intro h
    obtain ⟨s', hrun⟩ := process_of_hasClient hs h
    exact ⟨s', hrun, fun p hp _ => (process_attends hs hrun hp).2⟩

theorem crowd_wellFormed {n : Nat} (h : n ≤ 255) : WellFormed (Server.crowd n) where
  named name p hname := by
    obtain ⟨q, -, hq⟩ := List.mem_map.mp (AList.mem_lookup_iff.mp hname)
    obtain ⟨rfl, hqp⟩ := Sigma.mk.inj hq
    rw [← eq_of_heq hqp]
    rfl
  legal p _ point hpoint := nomatch hpoint
  lists p _ := by
    by_cases hp : p = 0
    · rw [hp, crowd_local_length]
      exact h
    · have hnil : ((Server.crowd n).players p).localPlayers = [] := if_neg hp
      rw [hnil]
      exact Nat.zero_le 255

/-- In a crowd everybody has a client. -/
theorem crowd_tolerates : Tolerates (Server.crowd 1) := by
  refine (tolerates_iff (crowd_wellFormed (by decide))).mpr fun p hp => ?_
  have hle : p ≤ 1 := by
    rw [Server.crowd_registered, List.mem_range] at hp
    exact Nat.le_of_lt_succ hp
  refine ⟨Server.crowdClient p, Server.crowdCipher, Server.crowd_client hle, rfl, fun _ => ?_⟩
  exact ⟨p, Server.lockPlayer_of_registered hp⟩

/-- Two players in the region they have loaded; the client of the first is gone. -/
def abandoned : Server :=
  { (Server.crowd 1).destroyClient 0 with
    players := fun p =>
      { (Server.crowd 1).players p with currentRegion := { x := 3200, y := 3200 } } }

/-- The tick dereferences the null client, and the other player is not served. -/
theorem abandoned_tick : WellFormed abandoned ∧ 0 ∈ abandoned.registered ∧
    abandoned.clients (abandoned.players 0).client = none ∧
    process abandoned = .error .nullPointer ∧ ¬ Tolerates abandoned := by
  have hcrowd := crowd_wellFormed (show 1 ≤ 255 by decide)
  have hrun : process abandoned = .error .nullPointer := by rfl
  refine ⟨⟨hcrowd.named, hcrowd.legal, hcrowd.lists⟩, List.mem_cons_self, rfl, hrun, ?_⟩
  rintro ⟨s', hok, -⟩
  rw [hrun] at hok
  cases hok

end World
end AsioRsps
