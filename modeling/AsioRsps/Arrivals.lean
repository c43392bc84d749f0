import AsioRsps.Connection
import AsioRsps.Sessions

/-!
# Arrivals and departures

The changes of the server that the invariant of the sessions does see: a client accepted,
replaced or destroyed, a player made, registered or removed.
-/
namespace AsioRsps

namespace Server

/-- The invariant of a client reads the players and the world only. -/
theorem ClientSound.congr {s s' : Server} {c : ClientId} {client : Client}
    (h : s.ClientSound c client) (hplayers : s'.players = s.players)
    (hnext : s'.nextPlayer = s.nextPlayer) (hworld : s'.world = s.world) :
    s'.ClientSound c client where
  early := h.early
  disconnected := h.disconnected
  session hstage := by
    obtain ⟨p, hplayer, hfresh, he, hd, hp⟩ := h.session hstage
    refine ⟨p, hplayer, hnext ▸ hfresh, he, hd, ?_⟩
    refine hp.imp (fun hr => ⟨?_, ?_⟩) fun hs => ⟨?_, ?_⟩
    · rw [hplayers]
      exact hr.owner
    · rw [hworld]
      exact hr.lookup
    · rw [registered, hworld]
      exact hs.1
    · rw [hplayers]
      exact hs.2

theorem Sound.sessions {s : Server} (h : s.Sound) (sessions : List ClientId) :
    { s with sessions }.Sound where
  clients c client hc := (h.clients c client hc).congr rfl rfl rfl
  players name p hname := ⟨(h.players name p hname).fresh, (h.players name p hname).owner,
    (h.players name p hname).slot⟩
  slots := h.slots
  occupied := h.occupied
  lists := h.lists

/-- A client is replaced by one that still owns what the old one owned. -/
theorem Sound.setClient {s : Server} (h : s.Sound) {c : ClientId} {new : Client}
    (hnew : s.ClientSound c new)
    (howns : ∀ name p, s.world.players.lookup name = some p → (s.players p).client = c →
      new.stage = .loggedIn ∧ new.player = some p ∧ new.username = name) :
    (s.setClient c new).Sound where
  clients d client hd := by
    refine ClientSound.congr (s := s) ?_ rfl rfl rfl
    by_cases hdc : d = c
    · subst hdc
      rw [setClient_clients_self] at hd
      obtain rfl := Option.some.inj hd
      exact hnew
    · rw [setClient_clients_of_ne s new hdc] at hd
      exact h.clients d client hd
  players name p hname := by
    have hsound := h.players name p hname
    refine ⟨hsound.fresh, ?_, hsound.slot⟩
    by_cases howner : (s.players p).client = c
    · refine ⟨new, ?_, howns name p hname howner⟩
      rw [setClient_players, howner, setClient_clients_self]
    · obtain ⟨client, hc, hclient⟩ := hsound.owner
      refine ⟨client, ?_, hclient⟩
      rw [setClient_players, setClient_clients_of_ne s new howner]
      exact hc
  slots := h.slots
  occupied := h.occupied
  lists := h.lists

/-- Without a player a client owns nothing, before and after. -/
theorem Sound.setClient_idle {s : Server} (h : s.Sound) {c : ClientId} {old new : Client}
    (hc : s.clients c = some old) (hold : old.stage ≠ .loggedIn) (hnew : s.ClientSound c new) :
    (s.setClient c new).Sound :=
  h.setClient hnew fun _ _ hname howner => absurd howner (h.not_owner hc hold hname)

theorem Sound.accept {s : Server} (h : s.Sound) {c : ClientId} (hc : s.Unused c) :
    (s.accept c).Sound := by
  refine Sound.sessions (s := s.setClient c {}) ?_ _
  refine h.setClient ⟨fun _ => rfl, ⟨fun hd => (nomatch hd), fun hs => (nomatch hs)⟩,
    fun hs => (nomatch hs)⟩ fun name p hname howner => ?_
  exact absurd howner (hc.2 p (h.players name p hname).fresh)

theorem Sound.destroyClient {s : Server} (h : s.Sound) {c : ClientId} {client : Client}
    (hc : s.clients c = some client) (hd : client.disconnected = true) :
    (s.destroyClient c).Sound where
  clients d other hother := by
    refine ClientSound.congr (s := s) ?_ rfl rfl rfl
    by_cases hdc : d = c
    · subst hdc
      rw [destroyClient_self] at hother
      cases hother
    · rw [destroyClient_of_ne s hdc] at hother
      exact h.clients d other hother
  players name p hname := by
    have hsound := h.players name p hname
    refine ⟨hsound.fresh, ?_, hsound.slot⟩
    obtain ⟨owner, howner, hrest⟩ := hsound.owner
    have hstage : client.stage ≠ .loggedIn := by
      rw [(h.clients c client hc).disconnected.mp hd]
      decide
    have hne := h.not_owner hc hstage hname
    exact ⟨owner, (destroyClient_of_ne s hne).trans howner, hrest⟩
  slots := h.slots
  occupied := h.occupied
  lists := h.lists

/-- A player newly made. -/
def newPlayer (s : Server) (player : Player) : Server :=
  { s.setPlayer s.nextPlayer player with nextPlayer := s.nextPlayer + 1 }

theorem newPlayer_players {s : Server} (player : Player) {p : PlayerId} (hp : p < s.nextPlayer) :
    (s.newPlayer player).players p = s.players p :=
  setPlayer_players_of_ne s player (Nat.ne_of_lt hp)

theorem Sound.fresh_of_registered {s : Server} (h : s.Sound) {p : PlayerId}
    (hp : p ∈ s.registered) : p < s.nextPlayer := by
  obtain ⟨name, hname⟩ := lookup_of_mem_registered hp
  exact (h.players name p hname).fresh

/-- The lists of the players, after one more player with an empty list. -/
theorem newPlayer_lists {s : Server} {player : Player} (hl : player.localPlayers = [])
    (q : PlayerId) : ((s.newPlayer player).players q).localPlayers = [] ∨
      ((s.newPlayer player).players q).localPlayers = (s.players q).localPlayers := by
  by_cases hq : q = s.nextPlayer
  · subst hq
    left
    exact (congrArg Player.localPlayers (setPlayer_players_self ..)).trans hl
  · right
    exact congrArg Player.localPlayers (setPlayer_players_of_ne s player hq)

theorem Sound.stranded_newPlayer {s : Server} (h : s.Sound) {player : Player}
    (hl : player.localPlayers = []) : (s.newPlayer player).Stranded s.nextPlayer := by
  constructor
  · intro hreg
    exact Nat.lt_irrefl _ (h.fresh_of_registered hreg)
  · intro q hq
    rcases newPlayer_lists (s := s) hl q with hnil | hsame
    · rw [hnil] at hq
      cases hq
    · rw [hsame] at hq
      exact Nat.lt_irrefl _ ((h.lists q).2 _ hq)

theorem Sound.newPlayer {s : Server} (h : s.Sound) {player : Player}
    (hl : player.localPlayers = []) : (s.newPlayer player).Sound where
  clients c client hc := by
    have hsound := h.clients c client hc
    refine ⟨hsound.early, hsound.disconnected, fun hstage => ?_⟩
    obtain ⟨p, hplayer, hfresh, he, hd, hp⟩ := hsound.session hstage
    refine ⟨p, hplayer, Nat.lt_succ_of_lt hfresh, he, hd, ?_⟩
    refine hp.imp (fun hr => ⟨?_, hr.lookup⟩) fun hs => ⟨hs.1, fun q hq => ?_⟩
    · rw [newPlayer_players player hfresh]
      exact hr.owner
    · rcases newPlayer_lists (s := s) hl q with hnil | hsame
      · rw [hnil] at hq
        cases hq
      · exact hs.2 q (hsame ▸ hq)
  players name p hname := by
    have hsound := h.players name p hname
    refine ⟨Nat.lt_succ_of_lt hsound.fresh, ?_, ?_⟩
    · rw [newPlayer_players player hsound.fresh]
      exact hsound.owner
    · rw [newPlayer_players player hsound.fresh]
      exact hsound.slot
  slots p hp q hq := by
    rw [newPlayer_players player (h.fresh_of_registered hp),
      newPlayer_players player (h.fresh_of_registered hq)]
    exact h.slots p hp q hq
  occupied i hi := by
    obtain ⟨p, hp, hindex⟩ := h.occupied i hi
    refine ⟨p, hp, ?_⟩
    rw [newPlayer_players player (h.fresh_of_registered hp)]
    exact hindex
  lists q := by
    rcases newPlayer_lists (s := s) hl q with hnil | hsame
    · rw [hnil]
      exact ⟨Nat.zero_le _, fun _ hr => (nomatch hr)⟩
    · rw [hsame]
      exact ⟨(h.lists q).1, fun r hr => Nat.lt_succ_of_lt ((h.lists q).2 r hr)⟩

/-- The client a player has just been made for. -/
structure Joins (new : Client) (username : Name) (p : PlayerId) : Prop where
  stage : new.stage = .loggedIn
  connected : new.disconnected = false
  player : new.player = some p
  username : new.username = username
  encryptor : new.encryptor.isSome = true
  decryptor : new.decryptor.isSome = true

/-- A new player in a free slot, under a free name. -/
structure Enters (s : Server) (player : Player) (c : ClientId) (username : Name)
    (index : Fin maxPlayers) : Prop where
  owner : player.client = c
  slot : player.index = index.val
  list : player.localPlayers = []
  name : s.world.players.lookup username = none
  free : s.world.occupiedIndices index = false

def occupy (w : World) (index : Fin maxPlayers) : World :=
  { w with occupiedIndices := Function.update w.occupiedIndices index true }

/-- The server with a new player of a client, registered. -/
def register (s : Server) (player : Player) (c : ClientId) (new : Client) (username : Name)
    (index : Fin maxPlayers) : Server :=
  { s.newPlayer player with
    world := (occupy s.world index).insertPlayer username s.nextPlayer }.setClient c new

theorem register_players (s : Server) (player : Player) (c : ClientId) (new : Client)
    (username : Name) (index : Fin maxPlayers) :
    (s.register player c new username index).players = (s.newPlayer player).players := rfl

theorem lookup_register {s : Server} {player : Player} {c : ClientId} {new : Client}
    {username : Name} {index : Fin maxPlayers} {name : Name} {p : PlayerId}
    (h : (s.register player c new username index).world.players.lookup name = some p) :
    name = username ∧ p = s.nextPlayer ∨
      name ≠ username ∧ s.world.players.lookup name = some p := by
  by_cases hname : name = username
  · subst hname
    left
    exact ⟨rfl, Option.some.inj (h.symm.trans (AList.lookup_insert ..))⟩
  · right
    exact ⟨hname, (AList.lookup_insert_ne hname).symm.trans h⟩

theorem lookup_register_old {s : Server} {player : Player} {c : ClientId} {new : Client}
    {username : Name} {index : Fin maxPlayers} (hfree : s.world.players.lookup username = none)
    {name : Name} {p : PlayerId} (h : s.world.players.lookup name = some p) :
    (s.register player c new username index).world.players.lookup name = some p := by
  have hname : name ≠ username := by
    intro heq
    rw [heq, hfree] at h
    cases h
  exact (AList.lookup_insert_ne hname).trans h

theorem mem_registered_register {s : Server} {player : Player} {c : ClientId} {new : Client}
    {username : Name} {index : Fin maxPlayers} {p : PlayerId}
    (h : p ∈ (s.register player c new username index).registered) :
    p = s.nextPlayer ∨ p ∈ s.registered := by
  obtain ⟨name, hname⟩ := lookup_of_mem_registered h
  rcases lookup_register hname with ⟨-, rfl⟩ | ⟨-, hold⟩
  · exact .inl rfl
  · exact .inr (mem_registered_of_lookup hold)

/-- The new player is registered under the client's username. -/
theorem registered_register {s : Server} {player : Player} {c : ClientId} {new : Client}
    {username : Name} {index : Fin maxPlayers} (howner : player.client = c)
    (hname : new.username = username) :
    (s.register player c new username index).Registered c new s.nextPlayer where
  owner := by
    have hnow : (s.newPlayer player).players s.nextPlayer = player := setPlayer_players_self ..
    rw [register_players, hnow]
    exact howner
  lookup := by
    rw [hname]
    exact AList.lookup_insert ..

theorem Sound.register {s : Server} (h : s.Sound) {player : Player} {c : ClientId}
    {old new : Client} {username : Name} {index : Fin maxPlayers} (hc : s.clients c = some old)
    (hold : old.stage ≠ .loggedIn) (hplayer : s.Enters player c username index)
    (hnew : Joins new username s.nextPlayer) :
    (s.register player c new username index).Sound := by
  have hnow : (s.newPlayer player).players s.nextPlayer = player := setPlayer_players_self ..
  have hbefore {p : PlayerId} (hp : p ∈ s.registered) :
      (s.newPlayer player).players p = s.players p :=
    newPlayer_players player (h.fresh_of_registered hp)
  -- a registered player of the old server does not sit in the new player's slot
  have hslot {p : PlayerId} (hp : p ∈ s.registered) : (s.players p).index ≠ player.index := by
    intro hsame
    obtain ⟨name, hname⟩ := lookup_of_mem_registered hp
    obtain ⟨i, hi, hi'⟩ := (h.players name p hname).slot
    have hval : i = index := by
      apply Fin.ext
      have hcast : (i.val : Int) = index.val := hi.symm.trans (hsame.trans hplayer.slot)
      exact Int.ofNat_inj.mp hcast
    rw [hval, hplayer.free] at hi'
    cases hi'
  refine ⟨?_, ?_, ?_, ?_, ?_⟩
  · intro d client hd
    by_cases hdc : d = c
    · subst hdc
      obtain rfl := Option.some.inj ((setClient_clients_self ..).symm.trans hd)
      refine ⟨fun hearly => ?_, ⟨fun hdis => ?_, fun hout => ?_⟩, fun _ => ?_⟩
      · rw [hnew.stage] at hearly
        rcases hearly with hearly | hearly <;> cases hearly
      · rw [hnew.connected] at hdis
        cases hdis
      · rw [hnew.stage] at hout
        cases hout
      · exact ⟨s.nextPlayer, hnew.player, Nat.lt_succ_self _, hnew.encryptor, hnew.decryptor,
          .inl (registered_register hplayer.owner hnew.username)⟩
    · have hd' : s.clients d = some client := (setClient_clients_of_ne _ new hdc).symm.trans hd
      have hsound := h.clients d client hd'
      refine ⟨hsound.early, hsound.disconnected, fun hstage => ?_⟩
      obtain ⟨p, hp, hfresh, he, hdec, hcase⟩ := hsound.session hstage
      refine ⟨p, hp, Nat.lt_succ_of_lt hfresh, he, hdec, ?_⟩
      refine hcase.imp (fun hr => ⟨?_, ?_⟩) fun hs => ⟨fun hreg => ?_, fun q hq => ?_⟩
      · rw [register_players, newPlayer_players player hfresh]
        exact hr.owner
      · exact lookup_register_old hplayer.name hr.lookup
      · rcases mem_registered_register hreg with rfl | hreg
        · exact Nat.lt_irrefl _ hfresh
        · exact hs.1 hreg
      · rw [register_players] at hq
        rcases newPlayer_lists (s := s) hplayer.list q with hnil | hsame
        · rw [hnil] at hq
          cases hq
        · exact hs.2 q (hsame ▸ hq)
  · intro name p hname
    rcases lookup_register hname with ⟨rfl, rfl⟩ | ⟨-, hname⟩
    · refine ⟨Nat.lt_succ_self _, ⟨new, ?_, hnew.stage, hnew.player, hnew.username⟩, index, ?_, ?_⟩
      · rw [register_players, hnow, hplayer.owner]
        exact setClient_clients_self ..
      · rw [register_players, hnow]
        exact hplayer.slot
      · exact Function.update_self ..
    · have hsound := h.players name p hname
      have hp := hbefore (mem_registered_of_lookup hname)
      have hne := h.not_owner hc hold hname
      refine ⟨Nat.lt_succ_of_lt hsound.fresh, ?_, ?_⟩
      · rw [register_players, hp, Server.register, setClient_clients_of_ne _ new hne]
        exact hsound.owner
      · rw [register_players, hp]
        obtain ⟨i, hi, hi'⟩ := hsound.slot
        refine ⟨i, hi, ?_⟩
        have hne' : i ≠ index := by
          intro heq
          rw [heq, hplayer.free] at hi'
          cases hi'
        exact (Function.update_of_ne hne' ..).trans hi'
  · intro p hp q hq
    rw [register_players]
    rcases mem_registered_register hp with rfl | hp <;>
      rcases mem_registered_register hq with rfl | hq
    · intro _
      rfl
    · rw [hnow, hbefore hq]
      intro hsame
      exact absurd hsame.symm (hslot hq)
    · rw [hnow, hbefore hp]
      intro hsame
      exact absurd hsame (hslot hp)
    · rw [hbefore hp, hbefore hq]
      exact h.slots p hp q hq
  · intro i hi
    by_cases hne : i = index
    · subst hne
      refine ⟨s.nextPlayer, mem_registered_of_lookup (AList.lookup_insert ..), ?_⟩
      rw [register_players, hnow]
      exact hplayer.slot
    · obtain ⟨p, hp, hindex⟩ := h.occupied i ((Function.update_of_ne hne ..).symm.trans hi)
      obtain ⟨name, hname⟩ := lookup_of_mem_registered hp
      refine ⟨p, mem_registered_of_lookup (lookup_register_old hplayer.name hname), ?_⟩
      rw [register_players, hbefore hp]
      exact hindex
  · intro q
    rw [register_players]
    exact (h.newPlayer hplayer.list).lists q

theorem clientSound_closed (s : Server) (c : ClientId) (client : Client) :
    s.ClientSound c client.closed where
  early h := by rcases h with h | h <;> cases h
  disconnected := ⟨fun _ => rfl, fun _ => rfl⟩
  session h := by cases h

/-- The server after the player of a username, who sits in a slot, has been removed and its
client closed. -/
theorem Sound.remove {s : Server} (h : s.Sound) {c : ClientId} {client : Client} {p : PlayerId}
    {index : Fin maxPlayers} (hc : s.clients c = some client) (hp : s.Registered c client p)
    (hindex : (s.players p).index = index.val) :
    ({ s with world := s.world.withoutPlayer client.username index }.setClient c
      client.closed).Sound := by
  have hmem {q : PlayerId} (hq : q ∈ ({ s with
      world := s.world.withoutPlayer client.username index } : Server).registered) :
      q ∈ s.registered ∧ q ≠ p := by
    obtain ⟨name, hname⟩ := lookup_of_mem_registered hq
    obtain ⟨hne, hold⟩ := World.lookup_withoutPlayer.mp hname
    refine ⟨mem_registered_of_lookup hold, ?_⟩
    rintro rfl
    exact hne (h.name_unique hold hp.lookup)
  have hregistered := mem_registered_of_lookup hp.lookup
  refine ⟨?_, ?_, ?_, ?_, h.lists⟩
  · intro d other hd
    by_cases hdc : d = c
    · subst hdc
      obtain rfl := Option.some.inj ((setClient_clients_self ..).symm.trans hd)
      exact clientSound_closed _ d client
    · have hd' : s.clients d = some other := (setClient_clients_of_ne _ _ hdc).symm.trans hd
      have hsound := h.clients d other hd'
      refine ⟨hsound.early, hsound.disconnected, fun hstage => ?_⟩
      obtain ⟨q, hq, hfresh, he, hdec, hcase⟩ := hsound.session hstage
      refine ⟨q, hq, hfresh, he, hdec, ?_⟩
      refine hcase.imp (fun hr => ⟨hr.owner, ?_⟩) fun hs => ⟨fun hreg => ?_, hs.2⟩
      · exact (AList.lookup_erase_ne (hr.username_ne hp hdc)).trans hr.lookup
      · exact hs.1 (hmem hreg).1
  · intro name q hname
    obtain ⟨hne, hold⟩ := World.lookup_withoutPlayer.mp hname
    have hsound := h.players name q hold
    refine ⟨hsound.fresh, ?_, ?_⟩
    · obtain ⟨owner, howner, hstage, hplayer, hname'⟩ := hsound.owner
      refine ⟨owner, ?_, hstage, hplayer, hname'⟩
      have hqc : (s.players q).client ≠ c := by
        intro hsame
        have hq := h.client_injective (mem_registered_of_lookup hold) hregistered
          (hsame.trans hp.owner.symm)
        subst hq
        exact hne (h.name_unique hold hp.lookup)
      exact (setClient_clients_of_ne _ _ hqc).trans howner
    · obtain ⟨i, hi, hi'⟩ := hsound.slot
      refine ⟨i, hi, ?_⟩
      have hne' : i ≠ index := by
        rintro rfl
        have hq := h.slots q (mem_registered_of_lookup hold) p hregistered
          (hi.trans hindex.symm)
        subst hq
        exact hne (h.name_unique hold hp.lookup)
      exact (Function.update_of_ne hne' ..).trans hi'
  · intro q hq r hr
    exact h.slots q (hmem hq).1 r (hmem hr).1
  · intro i hi
    have hne : i ≠ index := by
      rintro rfl
      have hfalse : Function.update s.world.occupiedIndices i false i = true := hi
      rw [Function.update_self] at hfalse
      cases hfalse
    obtain ⟨q, hq, hqi⟩ := h.occupied i ((Function.update_of_ne hne ..).symm.trans hi)
    obtain ⟨name, hname⟩ := lookup_of_mem_registered hq
    refine ⟨q, mem_registered_iff.mpr ⟨name, ?_⟩, hqi⟩
    have hne' : name ≠ client.username := by
      rintro rfl
      obtain rfl := Option.some.inj (hname.symm.trans hp.lookup)
      have hcast : (i.val : Int) = index.val := hqi.symm.trans hindex
      exact hne (Fin.ext (Int.ofNat_inj.mp hcast))
    exact (AList.lookup_erase_ne hne').trans hname

end Server
end AsioRsps
