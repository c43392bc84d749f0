import AsioRsps.Slots
import AsioRsps.UpdateFrame

/-!
# Ticks and registrations

The world thread in its tick and the network thread in a registration, each advancing by one
call at a time. A player is in the map before its flags are set, and `Reset` clears whatever
is set: a flag set between a player's update and its reset is lost.
-/
namespace AsioRsps
open LabelledRuns
open FallibleLoop (bind_eq_ok)

namespace World

/-- `RegisterPlayer` up to the call of `Login`; nothing happens in a full world. -/
def publish (s : Server) (p : PlayerId) : Option Server :=
  match getFreeIndex s.world with
  | none => none
  | some (index, world) =>
      let s := { s with world }.modifyPlayer p fun player => { player with index := index.val }
      let players := world.players.insert (s.players p).username p
      some { s with world := { world with players } }

theorem publish_full {s : Server} (hfull : getFreeIndex s.world = none) (p : PlayerId) :
    publish s p = none := by
  unfold publish
  rw [hfull]

theorem publish_free {s : Server} {index : Fin maxPlayers} {w : World}
    (hfree : getFreeIndex s.world = some (index, w)) (p : PlayerId) :
    publish s p = some { s.setPlayer p { s.players p with index := index.val } with
      world := { w with players := w.players.insert (s.players p).username p } } := by
  unfold publish
  rw [hfree]
  simp only [Server.modifyPlayer, Server.setPlayer_players_self]
  rfl

theorem registerPlayer_eq (s : Server) (p : PlayerId) : registerPlayer s p =
    (publish s p).elim (.ok s) fun s => Player.login s p := by
  cases hfree : getFreeIndex s.world with
  | none =>
      rw [publish_full hfree, registerPlayer_full hfree]
      rfl
  | some slot =>
      unfold registerPlayer publish
      rw [hfree]
      rfl

theorem publish_updateFlags {s s' : Server} {p : PlayerId} (h : publish s p = some s')
    (q : PlayerId) : (s'.players q).updateFlags = (s.players q).updateFlags := by
  cases hfree : getFreeIndex s.world with
  | none => cases h.symm.trans (publish_full hfree p)
  | some slot =>
      obtain rfl := Option.some.inj (h.symm.trans (publish_free hfree p))
      change ((s.setPlayer p _).players q).updateFlags = _
      by_cases hq : q = p
      · subst hq
        rw [Server.setPlayer_players_self]
      · rw [Server.setPlayer_players_of_ne s _ hq]

end World

namespace Player

/-- `Login` after the flags have been set. -/
def greet (s : Server) (p : PlayerId) : Except Fault Server := do
  let s ← sidebarInterfaces.foldlM (fun s (menuId, form) =>
    Client.sendSidebarInterface s (s.players p).client menuId form) s
  Client.sendPlayerMessage s (s.players p).client welcome

theorem login_eq (s : Server) (p : PlayerId) : login s p = (do
    let s ← updateMapRegion s p
    greet (s.modifyPlayer p fun player => player.setUpdateFlag UpdateFlag.all) p) := rfl

theorem greet_sameRest {s s' : Server} {p : PlayerId} (h : greet s p = .ok s') : s.SameRest s' := by
  obtain ⟨t, hsidebars, hmessage⟩ := bind_eq_ok.mp h
  refine (FallibleLoop.foldlM_invariant (P := fun _ v => s.SameRest v) hsidebars (.refl s) ?_).trans
    (Client.sendPlayerMessage_inv hmessage).sameRest
  exact fun _ _ _ _ _ _ hv hsend => hv.trans (Client.sendSidebarInterface_inv hsend).sameRest

end Player

namespace PlayerUpdating

theorem openUpdate_sameRest {s s' : Server} {p : PlayerId} {u : Update}
    (h : openUpdate s p = .ok (u, s')) : s.SameRest s' := by
  obtain ⟨⟨out, t⟩, hframe, h⟩ := bind_eq_ok.mp h
  have ht : s.SameRest t := by
    obtain ⟨client, cipher, cipher', -, -, rfl⟩ := Client.openFrame_inv hframe
    exact Server.sameRest_setClient ..
  obtain ⟨u₁, -, h⟩ := bind_eq_ok.mp h
  obtain ⟨u₂, -, h⟩ := bind_eq_ok.mp h
  have hrest {u₃ : Update} (h : (do
      let u ← writeOut u₃ (StreamBuffer.writeBits 8 (s.players p).localPlayers.length)
      let u ← (s.players p).localPlayers.foldlM (pruneEntry t.players (s.players p)) u
      return (u, t)) = Except.ok (u, s')) : s.SameRest s' := by
    obtain ⟨u₄, -, h⟩ := bind_eq_ok.mp h
    obtain ⟨u₅, -, h⟩ := bind_eq_ok.mp h
    obtain ⟨-, rfl⟩ := Prod.mk.inj (Except.ok.inj h)
    exact ht
  dsimp only at h
  split at h
  · obtain ⟨u₃, -, h⟩ := bind_eq_ok.mp h
    exact hrest h
  · exact hrest h

/-- `UpdatePlayer` changes the list of the player and its client. -/
theorem updatePlayer_sameRest {s s' : Server} {p : PlayerId} (h : updatePlayer s p = .ok s') :
    ∃ localPlayers, (s.setLocalPlayers p localPlayers).SameRest s' := by
  obtain ⟨⟨u, t⟩, hopen, h⟩ := bind_eq_ok.mp h
  have ht := openUpdate_sameRest hopen
  have hlist (l : List PlayerId) : (s.setLocalPlayers p l).SameRest (t.setLocalPlayers p l) := by
    refine ⟨?_, ht.nextPlayer, ht.world, ht.sessions⟩
    simp only [Server.setLocalPlayers, Server.modifyPlayer, Server.setPlayer, ht.players]
  dsimp only at h
  split at h
  · obtain rfl := Except.ok.inj h
    exact ⟨_, hlist _⟩
  · obtain ⟨u', -, h⟩ := bind_eq_ok.mp h
    obtain ⟨out, -, h⟩ := bind_eq_ok.mp h
    obtain ⟨client, -, hsend⟩ := bind_eq_ok.mp h
    rw [Server.setLocalPlayers_setLocalPlayers] at hsend
    exact ⟨_, (hlist _).trans (Client.send_sameRest hsend)⟩

end PlayerUpdating

namespace Interleaving

/-! ## The two threads -/

/-- Where the world thread is in `World::Process`. -/
inductive WorldThread where
  | sleeping
  | processing (todo playerList : List PlayerId)
  | updating (todo playerList : List PlayerId)
  | resetting (todo : List PlayerId)

/-- Where the network thread is in `World::RegisterPlayer`. -/
inductive NetworkThread where
  | idle
  | inserted (p : PlayerId)
  | placed (p : PlayerId)
  | flagged (p : PlayerId)

/-- `seen` holds the flags that `UpdatePlayer` has run with for a player since its last `Reset`;
the source keeps no such record. -/
structure Threads where
  server : Server
  world : WorldThread := .sleeping
  network : NetworkThread := .idle
  seen : PlayerId → Word := fun _ => UpdateFlag.none

inductive Call where
  | beginTick
  | process (p : PlayerId)
  | endProcess
  | update (p : PlayerId)
  | endUpdate
  | reset (p : PlayerId)
  | endTick
  | insert (p : PlayerId)
  | updateMapRegion (p : PlayerId)
  | setUpdateFlag (p : PlayerId)
  | greet (p : PlayerId)

/-- A walk through the map may or may not meet a player that is put into it meanwhile, and may
miss the one it takes the place of. -/
inductive Meets (p : PlayerId) : WorldThread → WorldThread → Prop where
  | elsewhere (world : WorldThread) : Meets p world world
  | walking {todo todo' playerList : List PlayerId} : (∀ q ∈ todo', q ∈ todo ∨ q = p) →
      Meets p (.processing todo playerList) (.processing todo' playerList)

inductive Calls : Threads → Call → Threads → Prop where
  | beginTick {l : Threads} : l.world = .sleeping →
      Calls l .beginTick { l with world := .processing l.server.registered [] }
  | process {l : Threads} {p : PlayerId} {todo playerList : List PlayerId} {s' : Server} :
      l.world = .processing (p :: todo) playerList → Player.process l.server p = .ok s' →
      Calls l (.process p)
        { l with server := s', world := .processing todo (playerList ++ [p]) }
  | endProcess {l : Threads} {playerList : List PlayerId} : l.world = .processing [] playerList →
      Calls l .endProcess { l with world := .updating playerList playerList }
  | update {l : Threads} {p : PlayerId} {todo playerList : List PlayerId} {s' : Server} :
      l.world = .updating (p :: todo) playerList →
      PlayerUpdating.updatePlayer l.server p = .ok s' →
      Calls l (.update p)
        { l with
          server := s'
          world := .updating todo playerList
          seen := Function.update l.seen p (l.seen p ||| (l.server.players p).updateFlags) }
  | endUpdate {l : Threads} {playerList : List PlayerId} : l.world = .updating [] playerList →
      Calls l .endUpdate { l with world := .resetting playerList }
  | reset {l : Threads} {p : PlayerId} {todo : List PlayerId} :
      l.world = .resetting (p :: todo) →
      Calls l (.reset p)
        { l with
          server := l.server.modifyPlayer p Player.reset
          world := .resetting todo
          seen := Function.update l.seen p UpdateFlag.none }
  | endTick {l : Threads} : l.world = .resetting [] → Calls l .endTick { l with world := .sleeping }
  | insert {l : Threads} {p : PlayerId} {s' : Server} {world : WorldThread} : l.network = .idle →
      p ∉ l.server.registered → World.publish l.server p = some s' → Meets p l.world world →
      Calls l (.insert p) { l with server := s', world, network := .inserted p }
  | updateMapRegion {l : Threads} {p : PlayerId} {s' : Server} : l.network = .inserted p →
      Player.updateMapRegion l.server p = .ok s' →
      Calls l (.updateMapRegion p) { l with server := s', network := .placed p }
  | setUpdateFlag {l : Threads} {p : PlayerId} : l.network = .placed p →
      Calls l (.setUpdateFlag p)
        { l with
          server := l.server.modifyPlayer p fun player => player.setUpdateFlag UpdateFlag.all
          network := .flagged p }
  | greet {l : Threads} {p : PlayerId} {s' : Server} : l.network = .flagged p →
      Player.greet l.server p = .ok s' →
      Calls l (.greet p) { l with server := s', network := .idle }

/-! ## Without interruption -/

/-- The calls of the network thread in a row are a registration. -/
theorem reachable_registerPlayer {l : Threads} {p : PlayerId} {t s' : Server}
    (hidle : l.network = .idle) (hp : p ∉ l.server.registered)
    (hpublish : World.publish l.server p = some t)
    (h : World.registerPlayer l.server p = .ok s') :
    Reachable Calls l { l with server := s', network := .idle } := by
  rw [World.registerPlayer_eq, hpublish] at h
  obtain ⟨u, hregion, hgreet⟩ := bind_eq_ok.mp h
  have hinserted := (Reachable.start Calls l).snoc (.insert hidle hp hpublish (.elsewhere _))
  exact ((hinserted.snoc (.updateMapRegion rfl hregion)).snoc (.setUpdateFlag rfl)).snoc
    (.greet rfl hgreet)

theorem reachable_processing (todo playerList : List PlayerId) (l : Threads) {s' : Server}
    (hw : l.world = .processing todo playerList)
    (h : todo.foldlM Player.process l.server = .ok s') :
    Reachable Calls l
      { l with server := s', world := .processing [] (playerList ++ todo) } := by
  induction todo generalizing playerList l with
  | nil =>
      obtain rfl := Except.ok.inj h
      rw [List.append_nil, ← hw]
      exact .start Calls l
  | cons p todo ih =>
      rw [List.foldlM_cons] at h
      obtain ⟨t, hp, h⟩ := bind_eq_ok.mp h
      have hrest := ih (playerList ++ [p])
        { l with server := t, world := .processing todo (playerList ++ [p]) } rfl h
      rw [List.append_assoc] at hrest
      exact ((Reachable.start Calls l).snoc (.process hw hp)).trans hrest

theorem reachable_updating (todo playerList : List PlayerId) (l : Threads) {s' : Server}
    (hw : l.world = .updating todo playerList)
    (h : todo.foldlM PlayerUpdating.updatePlayer l.server = .ok s') : ∃ seen,
    Reachable Calls l { l with server := s', world := .updating [] playerList, seen } := by
  induction todo generalizing l with
  | nil =>
      obtain rfl := Except.ok.inj h
      refine ⟨l.seen, ?_⟩
      rw [← hw]
      exact .start Calls l
  | cons p todo ih =>
      rw [List.foldlM_cons] at h
      obtain ⟨t, hp, h⟩ := bind_eq_ok.mp h
      obtain ⟨seen, hrest⟩ := ih { l with
        server := t
        world := .updating todo playerList
        seen := Function.update l.seen p (l.seen p ||| (l.server.players p).updateFlags) } rfl h
      exact ⟨seen, ((Reachable.start Calls l).snoc (.update hw hp)).trans hrest⟩

theorem reachable_resetting (todo : List PlayerId) (l : Threads) (hw : l.world = .resetting todo) :
    ∃ seen, Reachable Calls l { l with
      server := todo.foldl (fun s p => s.modifyPlayer p Player.reset) l.server
      world := .resetting []
      seen } := by
  induction todo generalizing l with
  | nil =>
      refine ⟨l.seen, ?_⟩
      rw [← hw]
      exact .start Calls l
  | cons p todo ih =>
      obtain ⟨seen, hrest⟩ := ih { l with
        server := l.server.modifyPlayer p Player.reset
        world := .resetting todo
        seen := Function.update l.seen p UpdateFlag.none } rfl
      exact ⟨seen, ((Reachable.start Calls l).snoc (.reset hw)).trans hrest⟩

/-- The calls of the world thread in a row are a tick. -/
theorem reachable_process {l : Threads} {s' : Server} (hw : l.world = .sleeping)
    (h : World.process l.server = .ok s') :
    ∃ seen, Reachable Calls l { l with server := s', world := .sleeping, seen } := by
  obtain ⟨t, hprocess, h⟩ := bind_eq_ok.mp h
  obtain ⟨u, hupdate, h⟩ := bind_eq_ok.mp h
  obtain rfl := Except.ok.inj h
  have hbegin := (Reachable.start Calls l).snoc (.beginTick hw)
  have hprocessed := (hbegin.trans (reachable_processing _ [] _ rfl hprocess)).snoc
    (.endProcess rfl)
  rw [List.nil_append] at hprocessed
  obtain ⟨seen, hupdated⟩ := reachable_updating l.server.registered l.server.registered
    { l with server := t, world := .updating l.server.registered l.server.registered } rfl hupdate
  have hend := (hprocessed.trans hupdated).snoc (.endUpdate rfl)
  obtain ⟨seen', hreset⟩ := reachable_resetting l.server.registered
    { l with server := u, world := .resetting l.server.registered, seen } rfl
  exact ⟨seen', (hend.trans hreset).snoc (.endTick rfl)⟩

/-! ## Flags that have been seen -/

/-- The player has been updated in this tick and is yet to be reset. -/
def Threads.AwaitsReset (l : Threads) (p : PlayerId) : Prop :=
  match l.world with
  | .updating todo playerList => p ∈ playerList ∧ p ∉ todo
  | .resetting todo => p ∈ todo
  | _ => False

/-- Every set flag of the player is one that `UpdatePlayer` has run with. -/
def Threads.FlagsSeen (l : Threads) (p : PlayerId) : Prop :=
  ∀ i, (l.server.players p).updateFlags.getLsbD i = true → (l.seen p).getLsbD i = true

/-- The network thread sets no new flag of a player that has been updated in this tick and is
yet to be reset. -/
def Timely (l : Threads) : Call → Prop
  | .updateMapRegion p => l.AwaitsReset p →
      ((l.server.players p).setUpdateFlag UpdateFlag.needsPlacement).updateFlags =
        (l.server.players p).updateFlags
  | .setUpdateFlag p => l.AwaitsReset p →
      ((l.server.players p).setUpdateFlag UpdateFlag.all).updateFlags =
        (l.server.players p).updateFlags
  | _ => True

/-- What awaits a reset has been seen. -/
def Seen (l : Threads) : Prop := ∀ p, l.AwaitsReset p → l.FlagsSeen p

theorem Threads.FlagsSeen.congr {l l' : Threads} {p : PlayerId} (h : l.FlagsSeen p)
    (hflags : (l'.server.players p).updateFlags = (l.server.players p).updateFlags)
    (hseen : l'.seen p = l.seen p) : l'.FlagsSeen p := by
  intro i hi
  rw [hseen]
  exact h i (hflags ▸ hi)

/-- The flags of one player may change, if it does not await a reset. -/
theorem Seen.flags {l : Threads} (h : Seen l) (s' : Server) (network : NetworkThread)
    {p : PlayerId} (hothers : ∀ q, q ≠ p → s'.players q = l.server.players q)
    (hself : l.AwaitsReset p → (s'.players p).updateFlags = (l.server.players p).updateFlags) :
    Seen { l with server := s', network } := by
  intro q hq
  have hq' : l.AwaitsReset q := hq
  refine (h q hq').congr ?_ rfl
  by_cases hqp : q = p
  · subst hqp
    exact hself hq'
  · exact congrArg Player.updateFlags (hothers q hqp)

theorem updateMapRegion_players {s s' : Server} {p : PlayerId}
    (h : Player.updateMapRegion s p = .ok s') :
    s'.players = (s.setPlayer p (s.players p).regionUpdated).players :=
  (Player.updateMapRegion_inv h).1.sameRest.players

theorem Seen.calls {l l' : Threads} {call : Call} (h : Seen l) (hcall : Calls l call l')
    (htimely : Timely l call) : Seen l' := by
  cases hcall with
  | beginTick _ => exact fun _ hq => hq.elim
  | process _ _ => exact fun _ hq => hq.elim
  | endProcess _ => exact fun q hq => absurd hq.1 hq.2
  | @update p todo playerList s' hw hrun =>
      obtain ⟨localPlayers, hrest⟩ := PlayerUpdating.updatePlayer_sameRest hrun
      have hflags (q : PlayerId) :
          (s'.players q).updateFlags = (l.server.players q).updateFlags := by
        rw [hrest.players]
        by_cases hq : q = p
        · subst hq
          rw [Server.setLocalPlayers_self]
        · rw [Server.setLocalPlayers_of_ne l.server _ hq]
      rintro q ⟨hmem, hnot⟩
      by_cases hq : q = p
      · subst hq
        intro i hi
        have hi' : (l.server.players q).updateFlags.getLsbD i = true := hflags q ▸ hi
        change (Function.update l.seen q _ q).getLsbD i = true
        rw [Function.update_self, BitVec.getLsbD_or, hi', Bool.or_true]
      · have hbefore : l.AwaitsReset q := by
          rw [Threads.AwaitsReset, hw]
          refine ⟨hmem, fun htodo => ?_⟩
          rcases List.mem_cons.mp htodo with heq | htail
          · exact hq heq
          · exact hnot htail
        exact (h q hbefore).congr (hflags q) (Function.update_of_ne hq ..)
  | endUpdate hw =>
      intro q hq
      have hbefore : l.AwaitsReset q := by
        rw [Threads.AwaitsReset, hw]
        exact ⟨hq, List.not_mem_nil⟩
      exact (h q hbefore).congr rfl rfl
  | @reset p todo hw =>
      intro q hq
      by_cases hqp : q = p
      · subst hqp
        intro i hi
        change (((l.server.modifyPlayer q Player.reset).players q).updateFlags).getLsbD i = true
          at hi
        rw [Server.modifyPlayer, Server.setPlayer_players_self] at hi
        have hzero : (UpdateFlag.none : Word).getLsbD i = false := BitVec.getLsbD_zero
        cases hi.symm.trans hzero
      · have hbefore : l.AwaitsReset q := by
          rw [Threads.AwaitsReset, hw]
          exact List.mem_cons_of_mem p hq
        refine (h q hbefore).congr ?_ (Function.update_of_ne hqp ..)
        exact congrArg Player.updateFlags (Server.setPlayer_players_of_ne l.server _ hqp)
  | endTick _ => exact fun _ hq => hq.elim
  | @insert p s' world _ _ hpublish hmeets =>
      intro q hq
      have hbefore : l.AwaitsReset q := by
        rw [Threads.AwaitsReset]
        rw [Threads.AwaitsReset] at hq
        generalize l.world = old at hmeets
        cases hmeets with
        | elsewhere => exact hq
        | walking _ => exact hq.elim
      exact (h q hbefore).congr (World.publish_updateFlags hpublish q) rfl
  | @updateMapRegion p s' _ hrun =>
      refine h.flags s' _ (p := p) (fun q hq => ?_) fun hawaits => ?_
      · rw [updateMapRegion_players hrun, Server.setPlayer_players_of_ne l.server _ hq]
      · rw [updateMapRegion_players hrun, Server.setPlayer_players_self]
        exact htimely hawaits
  | @setUpdateFlag p _ =>
      refine h.flags _ _ (p := p) (fun q hq => Server.setPlayer_players_of_ne l.server _ hq)
        fun hawaits => ?_
      rw [Server.modifyPlayer, Server.setPlayer_players_self]
      exact htimely hawaits
  | @greet p s' _ hrun =>
      refine h.flags s' _ (p := p) (fun q _ => ?_) fun _ => ?_
      · rw [(Player.greet_sameRest hrun).players]
      · rw [(Player.greet_sameRest hrun).players]

/-- When no flag is set between the update and the reset of its player, `Reset` clears only
flags that `UpdatePlayer` has run with. -/
theorem run_flagsSeen {s : Server} {trace : List (Taken Threads Call)} {l : Threads}
    (h : Run Calls { server := s } trace l)
    (htimely : ∀ t ∈ trace, Timely t.before t.label) :
    ∀ t ∈ trace, ∀ p, t.label = .reset p → t.before.FlagsSeen p := by
  intro t ht p hlabel
  obtain ⟨hseen, hcall⟩ := h.before_of_guarded (P := Seen) (fun _ hq => hq.elim)
    (fun _ _ _ hseen hcall htimely => hseen.calls hcall htimely) htimely t ht
  refine hseen p ?_
  rw [hlabel] at hcall
  generalize t.before = before at hcall
  generalize t.after = after at hcall
  cases hcall with
  | reset hw =>
      rw [Threads.AwaitsReset, hw]
      exact List.mem_cons_self

/-! ## A player alone in the world -/

/-- The player stands still, is the only one, and has a live client. -/
structure Alone (s : Server) (p : PlayerId) : Prop where
  client : ∃ client cipher, s.clients (s.players p).client = some client ∧
    client.encryptor = some cipher ∧ client.player = some p
  registered : s.registered = [p]
  still : (s.players p).movementHandler = {}
  list : (s.players p).localPlayers = []

theorem Alone.lockPlayer {s : Server} {p : PlayerId} (h : Alone s p) :
    s.lockPlayer (some p) = some p :=
  Server.lockPlayer_of_registered (by rw [h.registered]; exact List.mem_singleton_self p)

/-- A change of the player's flags, and of its client. -/
theorem Alone.change {s s' : Server} {p : PlayerId} (h : Alone s p) (player : Player)
    (client : Client) {cipher : ISAACCipher} (he : client.encryptor = some cipher)
    (hp : client.player = some p) (howner : player.client = (s.players p).client)
    (hstill : player.movementHandler = (s.players p).movementHandler)
    (hlist : player.localPlayers = (s.players p).localPlayers)
    (hs' : s' = (s.setPlayer p player).setClient (s.players p).client client) :
    Alone s' p ∧ (s'.players p).updateFlags = player.updateFlags := by
  subst hs'
  have hplayer : ((s.setPlayer p player).setClient (s.players p).client client).players p =
      player := Server.setPlayer_players_self ..
  refine ⟨⟨⟨client, cipher, ?_, he, hp⟩, h.registered, ?_, ?_⟩, by rw [hplayer]⟩
  · rw [hplayer, howner]
    exact Server.setClient_clients_self ..
  · rw [hplayer, hstill, h.still]
  · rw [hplayer, hlist, h.list]

theorem Alone.updateMapRegion {s : Server} {p : PlayerId} (h : Alone s p) :
    ∃ s', Player.updateMapRegion s p = .ok s' ∧ Alone s' p ∧
      (s'.players p).updateFlags = (s.players p).regionUpdated.updateFlags := by
  obtain ⟨client, cipher, hc, he, hp⟩ := h.client
  have hlock : s.lockPlayer client.player = some p := by
    rw [hp]
    exact h.lockPlayer
  refine ⟨_, Player.updateMapRegion_ok hc he hlock, ?_⟩
  exact h.change (s.players p).regionUpdated
    (client.pushFrame cipher (Client.mapRegionFrame (s.players p).position)) rfl hp rfl rfl rfl rfl

theorem Alone.process {s : Server} {p : PlayerId} (h : Alone s p) :
    ∃ s', Player.process s p = .ok s' ∧ Alone s' p ∧
      ((s'.players p).updateFlags = (s.players p).updateFlags ∨
        (s'.players p).updateFlags = (s.players p).regionUpdated.updateFlags) := by
  have hstay : MovementHandler.advance (s.players p) = .ok (s.players p) := by
    have hsame : { s.players p with movementHandler := {} } = s.players p := by
      rw [← h.still]
    rw [← hsame]
    rfl
  have hset : s.setPlayer p (s.players p) = s := by
    rw [Server.setPlayer, Function.update_eq_self]
  have hprocess : Player.process s p = if MovementHandler.insideRegion (s.players p) then .ok s
      else Player.updateMapRegion s p := by
    simp only [Player.process, MovementHandler.process, hstay, bind, Except.bind, hset]
    rfl
  rw [hprocess]
  split
  · exact ⟨s, rfl, h, .inl rfl⟩
  · obtain ⟨s', hrun, hs', hflags⟩ := h.updateMapRegion
    exact ⟨s', hrun, hs', .inr hflags⟩

theorem Alone.updatePlayer {s : Server} {p : PlayerId} (h : Alone s p) :
    ∃ s', PlayerUpdating.updatePlayer s p = .ok s' ∧ Alone s' p ∧
      (s'.players p).updateFlags = (s.players p).updateFlags := by
  obtain ⟨client, cipher, hc, he, hp⟩ := h.client
  have hkept : PlayerUpdating.keptPlayers s p = [] := by
    rw [PlayerUpdating.keptPlayers, h.list]
    rfl
  have hadded : PlayerUpdating.addedPlayers s p = [] := by
    rw [PlayerUpdating.addedPlayers, hkept, h.registered, PlayerUpdating.additions,
      if_neg (by decide), if_neg (fun hne => hne.1 rfl)]
    rfl
  obtain ⟨body, -, hrun⟩ := PlayerUpdating.updatePlayer_ok hc he
    (by rw [h.list]; exact Nat.zero_le _) (by rw [hkept]; decide)
  refine ⟨_, hrun, ?_⟩
  rw [hkept, hadded]
  exact h.change { s.players p with localPlayers := [] } (client.pushFrame cipher ⟨81, body⟩)
    rfl hp rfl rfl h.list.symm rfl

theorem Alone.setUpdateFlag {s : Server} {p : PlayerId} (h : Alone s p) (flag : Word) :
    Alone (s.modifyPlayer p fun player => player.setUpdateFlag flag) p := by
  obtain ⟨client, cipher, hc, he, hp⟩ := h.client
  refine (h.change ((s.players p).setUpdateFlag flag) client he hp rfl rfl rfl ?_).1
  exact (Server.setClient_eq_self (s := s.setPlayer p ((s.players p).setUpdateFlag flag)) hc).symm

/-- The first player to be registered. -/
theorem outside_publish : ∃ s', World.publish (World.outside 0) 0 = some s' ∧ Alone s' 0 ∧
    (s'.players 0).updateFlags = UpdateFlag.none := by
  cases hfree : World.getFreeIndex (World.outside 0).world with
  | none =>
      have htaken := World.getFreeIndex_eq_none.mp hfree ⟨0, by decide⟩
      cases htaken
  | some slot =>
      obtain ⟨index, w⟩ := slot
      obtain ⟨-, rfl⟩ := World.getFreeIndex_some hfree
      refine ⟨_, World.publish_free hfree 0, ⟨⟨_, _, rfl, rfl, rfl⟩, rfl, ?_, ?_⟩, ?_⟩
      · exact congrArg Player.movementHandler (Server.setPlayer_players_self ..)
      · exact congrArg Player.localPlayers (Server.setPlayer_players_self ..)
      · exact congrArg Player.updateFlags (Server.setPlayer_players_self ..)

/-- A player is registered, and a tick follows. -/
theorem outside_flagsSeen : ∃ trace l t, Run Calls { server := World.outside 0 } trace l ∧
    t ∈ trace ∧ t.label = .reset 0 ∧
    (t.before.server.players 0).updateFlags = UpdateFlag.all ∧ t.before.FlagsSeen 0 := by
  obtain ⟨s₁, hpublish, hs₁, -⟩ := outside_publish
  obtain ⟨s₂, hregion, hs₂, -⟩ := hs₁.updateMapRegion
  have hs₃ := hs₂.setUpdateFlag UpdateFlag.all
  obtain ⟨s₄, hprocess, hs₄, hflags₄⟩ := hs₃.process
  obtain ⟨s₅, hupdate, -, hflags₅⟩ := hs₄.updatePlayer
  have hstart : Run Calls { server := World.outside 0 } [] _ := .start
  have hflagged := ((hstart.snoc (.insert rfl List.not_mem_nil hpublish (.elsewhere _))).snoc
    (.updateMapRegion rfl hregion)).snoc (.setUpdateFlag rfl)
  have hprocessed := ((hflagged.snoc (.beginTick rfl)).snoc
    (.process (congrArg (WorldThread.processing · []) hs₃.registered) hprocess)).snoc
    (.endProcess rfl)
  have hrun := ((hprocessed.snoc (.update rfl hupdate)).snoc (.endUpdate rfl)).snoc (.reset rfl)
  have hseen := run_flagsSeen hrun
    (forall_snoc (forall_snoc (forall_snoc (forall_snoc (forall_snoc (forall_snoc (forall_snoc
      (forall_snoc (forall_snoc (forall_nil _) trivial) fun hawaits => False.elim hawaits)
      fun hawaits => False.elim hawaits) trivial) trivial) trivial) trivial) trivial) trivial)
  refine ⟨_, _, _, hrun, List.mem_append_right _ (List.mem_singleton_self _), rfl, ?_, ?_⟩
  · refine hflags₅.trans ?_
    have hset : ((s₂.modifyPlayer 0 fun player =>
        player.setUpdateFlag UpdateFlag.all).players 0).updateFlags = UpdateFlag.all := by
      rw [Server.modifyPlayer, Server.setPlayer_players_self]
      exact BitVec.or_allOnes
    rcases hflags₄ with h | h
    · exact h.trans hset
    · have hregion : ((s₂.modifyPlayer 0 fun player =>
          player.setUpdateFlag UpdateFlag.all).players 0).regionUpdated.updateFlags =
          ((s₂.modifyPlayer 0 fun player => player.setUpdateFlag UpdateFlag.all).players
            0).updateFlags ||| UpdateFlag.needsPlacement := rfl
      rw [h, hregion, hset]
      decide
  · exact hseen _ (List.mem_append_right _ (List.mem_singleton_self _)) 0 rfl

/-- A player is updated as soon as it is in the map, and its appearance flag, set afterwards,
is cleared without having been seen. -/
theorem outside_appearance_lost : ∃ trace l t, Run Calls { server := World.outside 0 } trace l ∧
    t ∈ trace ∧ t.label = .reset 0 ∧
    (t.before.server.players 0).hasFlag UpdateFlag.appearance = true ∧
    ¬ t.before.FlagsSeen 0 := by
  obtain ⟨s₁, hpublish, hs₁, hflags₁⟩ := outside_publish
  obtain ⟨s₂, hprocess, hs₂, hflags₂⟩ := hs₁.process
  obtain ⟨s₃, hupdate, hs₃, -⟩ := hs₂.updatePlayer
  obtain ⟨s₄, hregion, hs₄, -⟩ := hs₃.updateMapRegion
  have hstart : Run Calls { server := World.outside 0 } [] _ := .start
  have hinserted := hstart.snoc (.insert rfl List.not_mem_nil hpublish (.elsewhere _))
  have hprocessed := ((hinserted.snoc (.beginTick rfl)).snoc
    (.process (congrArg (WorldThread.processing · []) hs₁.registered) hprocess)).snoc
    (.endProcess rfl)
  have hflagged := ((hprocessed.snoc (.update rfl hupdate)).snoc
    (.updateMapRegion rfl hregion)).snoc (.setUpdateFlag rfl)
  have hrun := (hflagged.snoc (.endUpdate rfl)).snoc (.reset rfl)
  have hall : ((s₄.modifyPlayer 0 fun player =>
      player.setUpdateFlag UpdateFlag.all).players 0).updateFlags = UpdateFlag.all := by
    rw [Server.modifyPlayer, Server.setPlayer_players_self]
    exact BitVec.or_allOnes
  refine ⟨_, _, _, hrun, List.mem_append_right _ (List.mem_singleton_self _), rfl, ?_, ?_⟩
  · rw [Player.hasFlag]
    change decide (((s₄.modifyPlayer 0 fun player =>
      player.setUpdateFlag UpdateFlag.all).players 0).updateFlags &&& _ ≠ 0) = true
    rw [hall]
    decide
  · intro hseen
    have hset : ((s₄.modifyPlayer 0 fun player =>
        player.setUpdateFlag UpdateFlag.all).players 0).updateFlags.getLsbD 0 = true := by
      rw [hall]
      decide
    have hbit := hseen 0 hset
    dsimp only at hbit
    rw [Function.update_self] at hbit
    rcases hflags₂ with h | h
    · rw [h, hflags₁] at hbit
      cases hbit
    · have hregion : (s₁.players 0).regionUpdated.updateFlags =
          (s₁.players 0).updateFlags ||| UpdateFlag.needsPlacement := rfl
      rw [h, hregion, hflags₁] at hbit
      cases hbit

end Interleaving
end AsioRsps
