import AsioRsps.Registration

/-!
# Sessions and slots

The invariant that ties the clients' stages, their player pointers, the world's map and its
slots together, and the changes of the server that keep it. A logged-in client has a player
that is either registered under its username or was never registered at all, because the
world was full; which of the two is decided once, when it logs in.
-/
namespace AsioRsps
open BitStrings (Byte)

namespace Server

/-- The player of a client is registered under the client's username. -/
structure Registered (s : Server) (c : ClientId) (client : Client) (p : PlayerId) : Prop where
  owner : (s.players p).client = c
  lookup : s.world.players.lookup client.username = some p

/-- No pointer keeps the player alive. -/
def Stranded (s : Server) (p : PlayerId) : Prop :=
  p ∉ s.registered ∧ ∀ q, p ∉ (s.players q).localPlayers

structure ClientSound (s : Server) (c : ClientId) (client : Client) : Prop where
  early : client.stage = .connected ∨ client.stage = .loggingIn → client.player = none
  disconnected : client.disconnected = true ↔ client.stage = .loggedOut
  session : client.stage = .loggedIn → ∃ p, client.player = some p ∧ p < s.nextPlayer ∧
    client.encryptor.isSome = true ∧ client.decryptor.isSome = true ∧
    (s.Registered c client p ∨ s.Stranded p)

structure PlayerSound (s : Server) (name : Name) (p : PlayerId) : Prop where
  fresh : p < s.nextPlayer
  owner : ∃ client, s.clients (s.players p).client = some client ∧ client.stage = .loggedIn ∧
    client.player = some p ∧ client.username = name
  slot : ∃ i : Fin maxPlayers, (s.players p).index = i.val ∧ s.world.occupiedIndices i = true

structure Sound (s : Server) : Prop where
  clients : ∀ c client, s.clients c = some client → s.ClientSound c client
  players : ∀ name p, s.world.players.lookup name = some p → s.PlayerSound name p
  slots : ∀ p ∈ s.registered, ∀ q ∈ s.registered,
    (s.players p).index = (s.players q).index → p = q
  occupied : ∀ i, s.world.occupiedIndices i = true →
    ∃ p ∈ s.registered, (s.players p).index = i.val
  lists : ∀ p, (s.players p).localPlayers.length ≤ 255 ∧
    ∀ q ∈ (s.players p).localPlayers, q < s.nextPlayer

theorem mem_registered_iff {s : Server} {p : PlayerId} :
    p ∈ s.registered ↔ ∃ name, s.world.players.lookup name = some p :=
  ⟨lookup_of_mem_registered, fun ⟨_, h⟩ => mem_registered_of_lookup h⟩

theorem not_owns_of_stranded {s : Server} {p : PlayerId} (h : s.Stranded p) : s.owns p = false := by
  simp only [owns, h.1, decide_false, Bool.false_or, List.any_eq_false]
  intro q _
  simpa using h.2 q

theorem lockPlayer_of_stranded {s : Server} {p : PlayerId} (h : s.Stranded p) :
    s.lockPlayer (some p) = none := by
  simp only [lockPlayer, Option.filter, not_owns_of_stranded h, Bool.false_eq_true, if_false]

theorem sound_initial : Sound initial where
  clients _ _ h := by cases h
  players _ _ h := by cases h
  slots _ h := by cases h
  occupied _ h := by cases h
  lists _ := ⟨Nat.zero_le _, fun _ h => by cases h⟩

/-! ## Consequences -/

/-- Two registered names never stand for the same player. -/
theorem Sound.name_unique {s : Server} (h : s.Sound) {name name' : Name} {p : PlayerId}
    (hn : s.world.players.lookup name = some p) (hn' : s.world.players.lookup name' = some p) :
    name = name' := by
  obtain ⟨client, hc, -, -, hname⟩ := (h.players name p hn).owner
  obtain ⟨client', hc', -, -, hname'⟩ := (h.players name' p hn').owner
  obtain rfl := Option.some.inj (hc.symm.trans hc')
  rw [← hname, ← hname']

/-- A player that has one name is listed once. -/
theorem registered_nodup {s : Server} (h : ∀ name name' p, s.world.players.lookup name = some p →
    s.world.players.lookup name' = some p → name = name') : s.registered.Nodup := by
  have hkeys : s.world.players.entries.Nodup := s.world.players.nodupKeys.nodup
  refine List.Nodup.map_on ?_ hkeys
  rintro ⟨name, p⟩ hp ⟨name', q⟩ hq (rfl : p = q)
  rw [h name name' p (AList.mem_lookup_iff.mpr hp) (AList.mem_lookup_iff.mpr hq)]

theorem Sound.registered_nodup {s : Server} (h : s.Sound) : s.registered.Nodup :=
  Server.registered_nodup fun _ _ _ hn hn' => h.name_unique hn hn'

/-- A registered player's client is logged in and has its ciphers. -/
theorem Sound.client_of_registered {s : Server} (h : s.Sound) {p : PlayerId}
    (hp : p ∈ s.registered) : ∃ client cipher, s.clients (s.players p).client = some client ∧
      client.stage = .loggedIn ∧ client.player = some p ∧ client.encryptor = some cipher ∧
      s.lockPlayer client.player = some p := by
  obtain ⟨name, hname⟩ := lookup_of_mem_registered hp
  obtain ⟨client, hc, hstage, hplayer, -⟩ := (h.players name p hname).owner
  obtain ⟨q, -, -, he, -, -⟩ := (h.clients _ client hc).session hstage
  obtain ⟨cipher, he⟩ := Option.isSome_iff_exists.mp he
  exact ⟨client, cipher, hc, hstage, hplayer, he,
    by rw [hplayer]; exact lockPlayer_of_registered hp⟩

/-- Different registered players have different clients. -/
theorem Sound.client_injective {s : Server} (h : s.Sound) {p q : PlayerId}
    (hp : p ∈ s.registered) (hq : q ∈ s.registered)
    (hsame : (s.players p).client = (s.players q).client) : p = q := by
  obtain ⟨client, -, hc, -, hplayer, -, -⟩ := h.client_of_registered hp
  obtain ⟨client', -, hc', -, hplayer', -, -⟩ := h.client_of_registered hq
  rw [hsame, hc'] at hc
  obtain rfl := Option.some.inj hc
  exact Option.some.inj (hplayer.symm.trans hplayer')

/-- Different clients have their players under different names. -/
theorem Registered.username_ne {s : Server} {c d : ClientId} {client other : Client}
    {p q : PlayerId} (h : s.Registered d other q) (h' : s.Registered c client p) (hdc : d ≠ c) :
    other.username ≠ client.username := by
  intro hsame
  have hlookup := h.lookup
  rw [hsame, h'.lookup] at hlookup
  obtain rfl := Option.some.inj hlookup
  exact hdc (h.owner.symm.trans h'.owner)

theorem Sound.connected {s : Server} (h : s.Sound) {c : ClientId} {client : Client}
    (hc : s.clients c = some client) (hstage : client.stage ≠ .loggedOut) :
    client.disconnected = false := by
  cases hd : client.disconnected with
  | false => rfl
  | true => exact absurd ((h.clients c client hc).disconnected.mp hd) hstage

/-- A client that is not logged in owns no registered player. -/
theorem Sound.not_owner {s : Server} (h : s.Sound) {c : ClientId} {client : Client}
    (hc : s.clients c = some client) (hstage : client.stage ≠ .loggedIn) {name : Name}
    {p : PlayerId} (hname : s.world.players.lookup name = some p) : (s.players p).client ≠ c := by
  intro howner
  obtain ⟨client', hc', hlogged, -, -⟩ := (h.players name p hname).owner
  rw [howner, hc] at hc'
  exact hstage (Option.some.inj hc' ▸ hlogged)

/-! ## Changes the invariant does not see -/

/-- What the invariant reads of a client is the same; a cipher may have been set or drawn
from. -/
structure QuietClient (old new : Client) : Prop where
  stage : new.stage = old.stage
  disconnected : new.disconnected = old.disconnected
  username : new.username = old.username
  player : new.player = old.player
  encryptor : old.encryptor.isSome = true → new.encryptor.isSome = true
  decryptor : old.decryptor.isSome = true → new.decryptor.isSome = true

theorem QuietClient.refl (client : Client) : QuietClient client client :=
  ⟨rfl, rfl, rfl, rfl, id, id⟩

theorem QuietClient.trans {a b c : Client} (h : QuietClient a b) (h' : QuietClient b c) :
    QuietClient a c where
  stage := h'.stage.trans h.stage
  disconnected := h'.disconnected.trans h.disconnected
  username := h'.username.trans h.username
  player := h'.player.trans h.player
  encryptor := h'.encryptor ∘ h.encryptor
  decryptor := h'.decryptor ∘ h.decryptor

/-- Nobody comes or goes. A list may only have gained registered players. -/
structure Quiet (s s' : Server) : Prop where
  nextPlayer : s'.nextPlayer = s.nextPlayer
  lookup : ∀ name, s'.world.players.lookup name = s.world.players.lookup name
  occupied : s'.world.occupiedIndices = s.world.occupiedIndices
  clients : ∀ c, Option.Rel QuietClient (s.clients c) (s'.clients c)
  owner : ∀ p, (s'.players p).client = (s.players p).client
  index : ∀ p, (s'.players p).index = (s.players p).index
  list : ∀ p, (s'.players p).localPlayers = (s.players p).localPlayers ∨
    (s'.players p).localPlayers.length ≤ 255 ∧
      ∀ q ∈ (s'.players p).localPlayers, q ∈ (s.players p).localPlayers ∨ q ∈ s.registered

theorem mem_registered_congr {s s' : Server}
    (h : ∀ name, s'.world.players.lookup name = s.world.players.lookup name) {p : PlayerId} :
    p ∈ s'.registered ↔ p ∈ s.registered := by
  simp only [mem_registered_iff, h]

theorem rel_quietClient_refl (client : Option Client) : Option.Rel QuietClient client client := by
  cases client with
  | none => exact .none
  | some client => exact .some (.refl client)

theorem Quiet.refl (s : Server) : s.Quiet s where
  nextPlayer := rfl
  lookup _ := rfl
  occupied := rfl
  clients c := rel_quietClient_refl (s.clients c)
  owner _ := rfl
  index _ := rfl
  list _ := .inl rfl

theorem Quiet.trans {s t u : Server} (h : s.Quiet t) (h' : t.Quiet u) : s.Quiet u where
  nextPlayer := h'.nextPlayer.trans h.nextPlayer
  lookup name := (h'.lookup name).trans (h.lookup name)
  occupied := h'.occupied.trans h.occupied
  clients c := by
    have hc := h.clients c
    have hc' := h'.clients c
    generalize s.clients c = a at hc
    generalize t.clients c = b at hc hc'
    generalize u.clients c = d at hc'
    cases hc with
    | none =>
        cases hc'
        exact .none
    | some hc =>
        cases hc' with
        | some hc' => exact .some (hc.trans hc')
  owner p := (h'.owner p).trans (h.owner p)
  index p := (h'.index p).trans (h.index p)
  list p := by
    rcases h'.list p with hsame | ⟨hlen, hmem⟩
    · rw [hsame]
      exact h.list p
    · refine .inr ⟨hlen, fun q hq => ?_⟩
      rcases hmem q hq with hold | hreg
      · rcases h.list p with hsame | ⟨-, hmem'⟩
        · exact .inl (hsame ▸ hold)
        · exact hmem' q hold
      · exact .inr ((mem_registered_congr h.lookup).mp hreg)

theorem Quiet.client {s s' : Server} (h : s.Quiet s') {c : ClientId} {client : Client}
    (hc : s.clients c = some client) :
    ∃ client', s'.clients c = some client' ∧ QuietClient client client' := by
  have hrel := h.clients c
  rw [hc] at hrel
  generalize s'.clients c = found at hrel
  cases hrel with
  | some hrel => exact ⟨_, rfl, hrel⟩

theorem Quiet.client_before {s s' : Server} (h : s.Quiet s') {c : ClientId} {client' : Client}
    (hc : s'.clients c = some client') :
    ∃ client, s.clients c = some client ∧ QuietClient client client' := by
  have hrel := h.clients c
  rw [hc] at hrel
  generalize s.clients c = found at hrel
  cases hrel with
  | some hrel => exact ⟨_, rfl, hrel⟩

theorem Quiet.stranded {s s' : Server} (h : s.Quiet s') {p : PlayerId} (hp : s.Stranded p) :
    s'.Stranded p := by
  refine ⟨fun hreg => hp.1 ((mem_registered_congr h.lookup).mp hreg), fun q hq => ?_⟩
  rcases h.list q with hsame | ⟨-, hmem⟩
  · exact hp.2 q (hsame ▸ hq)
  · rcases hmem p hq with hold | hreg
    · exact hp.2 q hold
    · exact hp.1 hreg

theorem Quiet.registered {s s' : Server} (h : s.Quiet s') {c : ClientId} {client client' : Client}
    (hq : QuietClient client client') {p : PlayerId} (hp : s.Registered c client p) :
    s'.Registered c client' p where
  owner := (h.owner p).trans hp.owner
  lookup := by
    rw [hq.username, h.lookup]
    exact hp.lookup

theorem Sound.quiet {s s' : Server} (h : s.Sound) (hq : s.Quiet s') : s'.Sound where
  clients c client' hc' := by
    obtain ⟨client, hc, hclient⟩ := hq.client_before hc'
    have hsound := h.clients c client hc
    refine ⟨?_, ?_, ?_⟩
    · rw [hclient.stage, hclient.player]
      exact hsound.early
    · rw [hclient.stage, hclient.disconnected]
      exact hsound.disconnected
    · rw [hclient.stage]
      intro hstage
      obtain ⟨p, hplayer, hfresh, he, hd, hp⟩ := hsound.session hstage
      refine ⟨p, hclient.player.trans hplayer, hq.nextPlayer ▸ hfresh, hclient.encryptor he,
        hclient.decryptor hd, ?_⟩
      exact hp.imp (hq.registered hclient) hq.stranded
  players name p hname := by
    rw [hq.lookup] at hname
    have hsound := h.players name p hname
    obtain ⟨client, hc, hstage, hplayer, hname'⟩ := hsound.owner
    obtain ⟨client', hc', hclient⟩ := hq.client hc
    refine ⟨hq.nextPlayer ▸ hsound.fresh, ⟨client', ?_, ?_, ?_, ?_⟩, ?_⟩
    · rw [hq.owner]
      exact hc'
    · exact hclient.stage.trans hstage
    · exact hclient.player.trans hplayer
    · exact hclient.username.trans hname'
    · rw [hq.index, hq.occupied]
      exact hsound.slot
  slots p hp q hq' := by
    rw [hq.index, hq.index]
    exact h.slots p ((mem_registered_congr hq.lookup).mp hp) q
      ((mem_registered_congr hq.lookup).mp hq')
  occupied i hi := by
    rw [hq.occupied] at hi
    obtain ⟨p, hp, hindex⟩ := h.occupied i hi
    exact ⟨p, (mem_registered_congr hq.lookup).mpr hp, (hq.index p).trans hindex⟩
  lists p := by
    rw [hq.nextPlayer]
    rcases hq.list p with hsame | ⟨hlen, hmem⟩
    · rw [hsame]
      exact h.lists p
    · refine ⟨hlen, fun q hmemq => ?_⟩
      rcases hmem q hmemq with hold | hreg
      · exact (h.lists p).2 q hold
      · obtain ⟨name, hname⟩ := lookup_of_mem_registered hreg
        exact (h.players name q hname).fresh

theorem quiet_setClient {s : Server} {c : ClientId} {old new : Client}
    (hc : s.clients c = some old) (h : QuietClient old new) : s.Quiet (s.setClient c new) :=
  { Quiet.refl s with
    clients := by
      intro d
      by_cases hd : d = c
      · rw [hd, hc, setClient_clients_self]
        exact .some h
      · rw [setClient_clients_of_ne s new hd]
        exact rel_quietClient_refl _ }

theorem quiet_modifyPlayer {s : Server} {p : PlayerId} {f : Player → Player}
    (howner : ∀ player, (f player).client = player.client)
    (hindex : ∀ player, (f player).index = player.index)
    (hlist : ∀ player, (f player).localPlayers = player.localPlayers) :
    s.Quiet (s.modifyPlayer p f) := by
  have hsame {α : Type} (field : Player → α) (hf : ∀ player, field (f player) = field player)
      (q : PlayerId) : field ((s.modifyPlayer p f).players q) = field (s.players q) := by
    by_cases hq : q = p
    · rw [hq, modifyPlayer, setPlayer_players_self, hf]
    · rw [modifyPlayer, setPlayer_players_of_ne s _ hq]
  exact { Quiet.refl s with
    owner := hsame Player.client howner
    index := hsame Player.index hindex
    list := fun q => .inl (hsame Player.localPlayers hlist q) }

/-- The map may be traversed in another order. -/
theorem quiet_reorder {s : Server} {players : AList fun _ : Name => PlayerId}
    (h : players.entries.Perm s.world.players.entries) :
    s.Quiet { s with world := { s.world with players } } :=
  { Quiet.refl s with lookup := fun _ => AList.perm_lookup h }

end Server
end AsioRsps
