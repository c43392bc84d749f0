import AsioRsps.FallibleLoop
import AsioRsps.LoginHandler

/-!
# Registration

What a login, a registration, a removal and a disconnect do to the server: one equation for
each, under the conditions the reachable states meet.
-/
namespace AsioRsps
open BitStrings (Byte)
open StreamBuffer
open FallibleLoop (bind_eq_ok)

namespace World

/-- The first free slot of a list of slots. -/
theorem getFreeIndex_eq (w : World) : ∃ slots : List (Fin maxPlayers), (∀ i, i ∈ slots) ∧
    slots.Pairwise (· < ·) ∧ getFreeIndex w = match slots.find? fun i => !w.occupiedIndices i with
      | some i => some (i, { w with occupiedIndices := Function.update w.occupiedIndices i true })
      | none => none := by
  refine ⟨List.finRange maxPlayers, List.mem_finRange, List.pairwise_lt_finRange maxPlayers, ?_⟩
  unfold getFreeIndex
  generalize List.finRange maxPlayers = slots
  cases slots.find? fun i => !w.occupiedIndices i <;> rfl

theorem getFreeIndex_some {w w' : World} {i : Fin maxPlayers}
    (h : getFreeIndex w = some (i, w')) : w.occupiedIndices i = false ∧
      w' = { w with occupiedIndices := Function.update w.occupiedIndices i true } := by
  obtain ⟨slots, -, -, heq⟩ := getFreeIndex_eq w
  rw [heq] at h
  cases hfind : slots.find? fun i => !w.occupiedIndices i with
  | none =>
      rw [hfind] at h
      cases h
  | some j =>
      rw [hfind] at h
      obtain ⟨rfl, rfl⟩ := Prod.mk.inj (Option.some.inj h)
      have hfree := List.find?_some hfind
      rw [Bool.not_eq_true'] at hfree
      exact ⟨hfree, rfl⟩

/-- The slots before the one found are taken. -/
theorem getFreeIndex_first {w w' : World} {i j : Fin maxPlayers}
    (h : getFreeIndex w = some (i, w')) (hj : j < i) : w.occupiedIndices j = true := by
  obtain ⟨slots, hall, hsorted, heq⟩ := getFreeIndex_eq w
  rw [heq] at h
  cases hfind : slots.find? fun i => !w.occupiedIndices i with
  | none =>
      rw [hfind] at h
      cases h
  | some k =>
      rw [hfind] at h
      obtain ⟨rfl, -⟩ := Prod.mk.inj (Option.some.inj h)
      obtain ⟨-, before, after, rfl, htaken⟩ := List.find?_eq_some_iff_append.mp hfind
      have hbefore : j ∈ before := by
        rcases List.mem_append.mp (hall j) with hmem | hmem
        · exact hmem
        · have hle : k ≤ j := by
            rcases List.mem_cons.mp hmem with rfl | hafter
            · exact le_refl j
            · have htail := (List.pairwise_append.mp hsorted).2.1
              exact le_of_lt ((List.pairwise_cons.mp htail).1 j hafter)
          exact absurd hj (not_lt_of_ge hle)
      simpa using htaken j hbefore

/-- No slot is found exactly when every slot is taken. -/
theorem getFreeIndex_eq_none {w : World} :
    getFreeIndex w = none ↔ ∀ i, w.occupiedIndices i = true := by
  obtain ⟨slots, hall, -, heq⟩ := getFreeIndex_eq w
  have hfind : getFreeIndex w = none ↔ slots.find? (fun i => !w.occupiedIndices i) = none := by
    rw [heq]
    cases slots.find? fun i => !w.occupiedIndices i with
    | none => exact ⟨fun _ => rfl, fun _ => rfl⟩
    | some j => exact ⟨fun h => (nomatch h), fun h => (nomatch h)⟩
  rw [hfind, List.find?_eq_none]
  constructor
  · intro h i
    simpa using h i (hall i)
  · intro h i _
    simp only [h i, Bool.not_true, Bool.false_eq_true, not_false_eq_true]

end World

namespace Player

/-- What `UpdateMapRegion` does to the player. -/
def regionUpdated (player : Player) : Player :=
  { player with currentRegion := player.position }.setUpdateFlag UpdateFlag.needsPlacement

/-- What `Login` does to the player. -/
def loggedIn (player : Player) : Player := player.regionUpdated.setUpdateFlag UpdateFlag.all

/-- What it sends. -/
def loginFrames (position : Position) : List Client.OutFrame :=
  Client.mapRegionFrame position ::
    (sidebarInterfaces.map (fun (menuId, form) => Client.sidebarFrame menuId form) ++
      [Client.messageFrame welcome])

theorem updateMapRegion_ok {s : Server} {p : PlayerId} {client : Client} {cipher : ISAACCipher}
    (hc : s.clients (s.players p).client = some client) (he : client.encryptor = some cipher)
    (hp : s.lockPlayer client.player = some p) :
    updateMapRegion s p = .ok ((s.setPlayer p (s.players p).regionUpdated).setClient
      (s.players p).client
      (client.pushFrame cipher (Client.mapRegionFrame (s.players p).position))) := by
  have hlock : (s.setPlayer p (s.players p).regionUpdated).lockPlayer client.player = some p := by
    rw [Server.lockPlayer_setPlayer]
    · exact hp
    · rfl
  have hsame : ((s.setPlayer p (s.players p).regionUpdated).players p).client =
      (s.players p).client := by
    rw [Server.setPlayer_players_self]
    rfl
  have hposition : ((s.setPlayer p (s.players p).regionUpdated).players p).position =
      (s.players p).position := by
    rw [Server.setPlayer_players_self]
    rfl
  have hsend := Client.sendMapRegion_ok
    (s := s.setPlayer p (s.players p).regionUpdated) hc he hlock
  rw [hposition] at hsend
  rw [← hsend, ← hsame]
  rfl

theorem sendSidebarInterfaces_ok {s : Server} {p : PlayerId} {client : Client}
    {cipher : ISAACCipher} (hc : s.clients (s.players p).client = some client)
    (he : client.encryptor = some cipher) (interfaces : List (Int × Int)) :
    interfaces.foldlM (fun s (menuId, form) =>
      Client.sendSidebarInterface s (s.players p).client menuId form) s =
      .ok (s.setClient (s.players p).client (client.pushFrames cipher
        (interfaces.map fun (menuId, form) => Client.sidebarFrame menuId form))) := by
  induction interfaces generalizing s client cipher with
  | nil =>
      simp only [List.foldlM_nil, List.map_nil, Client.pushFrames, Server.setClient_eq_self hc]
      rfl
  | cons i interfaces ih =>
      obtain ⟨menuId, form⟩ := i
      have hnext := ih (s := s.setClient (s.players p).client
        (client.pushFrame cipher (Client.sidebarFrame menuId form)))
        (Server.setClient_clients_self ..) rfl
      rw [Server.setClient_players, Server.setClient_setClient] at hnext
      simp only [List.foldlM_cons, Client.sendSidebarInterface_ok hc he, bind, Except.bind]
      exact hnext

theorem login_ok {s : Server} {p : PlayerId} {client : Client} {cipher : ISAACCipher}
    (hc : s.clients (s.players p).client = some client) (he : client.encryptor = some cipher)
    (hp : s.lockPlayer client.player = some p) :
    login s p = .ok ((s.setPlayer p (s.players p).loggedIn).setClient (s.players p).client
      (client.pushFrames cipher (loginFrames (s.players p).position))) := by
  let client₁ := client.pushFrame cipher (Client.mapRegionFrame (s.players p).position)
  let s₁ := (s.setPlayer p (s.players p).loggedIn).setClient (s.players p).client client₁
  let sidebars := sidebarInterfaces.map fun (menuId, form) => Client.sidebarFrame menuId form
  have hflag : ((s.setPlayer p (s.players p).regionUpdated).setClient (s.players p).client
      client₁).modifyPlayer p (fun player => player.setUpdateFlag UpdateFlag.all) = s₁ := by
    rw [Server.modifyPlayer, Server.setClient_players, Server.setPlayer_players_self]
    exact congrArg (fun s => Server.setClient s _ _) (Server.setPlayer_setPlayer ..)
  have hclient : (s₁.players p).client = (s.players p).client := by
    rw [Server.setClient_players, Server.setPlayer_players_self]
    rfl
  have hfound₁ : s₁.clients (s₁.players p).client = some client₁ := by
    rw [hclient]
    exact Server.setClient_clients_self ..
  have hsidebars := sendSidebarInterfaces_ok hfound₁ rfl sidebarInterfaces
  rw [hclient] at hsidebars
  let client₂ := client₁.pushFrames cipher.getNextKey.2 sidebars
  have hencryptor : client₂.encryptor = some (cipher.getNextKey.2.advance sidebars.length) :=
    Client.pushFrames_encryptor sidebars rfl
  have hfound₂ : (s₁.setClient (s.players p).client client₂).clients (s.players p).client =
      some client₂ := Server.setClient_clients_self ..
  have hmessage := Client.sendPlayerMessage_ok hfound₂ hencryptor welcome (by decide)
  have hlast : ((s₁.setClient (s.players p).client client₂).players p).client =
      (s.players p).client := hclient
  simp only [login, updateMapRegion_ok hc he hp, bind, Except.bind]
  rw [hflag]
  rw [show sidebarInterfaces.foldlM _ s₁ = _ from hsidebars]
  change Client.sendPlayerMessage (s₁.setClient (s.players p).client client₂)
    ((s₁.setClient (s.players p).client client₂).players p).client welcome = _
  rw [hlast, hmessage, Server.setClient_setClient, Server.setClient_setClient, loginFrames,
    Client.pushFrames, Client.pushFrames_append]
  rfl

end Player

namespace World

/-- The world with a player under a username. -/
def insertPlayer (w : World) (username : Name) (p : PlayerId) : World :=
  { w with players := w.players.insert username p }

theorem mem_registered_insertPlayer (s : Server) (w : World) (username : Name) (p : PlayerId) :
    p ∈ { s with world := w.insertPlayer username p }.registered :=
  Server.mem_registered_of_lookup (AList.lookup_insert w.players)

/-- With a free slot the player gets it and is logged in. -/
theorem registerPlayer_ok {s : Server} {p : PlayerId} {client : Client} {cipher : ISAACCipher}
    {index : Fin maxPlayers} {w : World} (hfree : getFreeIndex s.world = some (index, w))
    (hc : s.clients (s.players p).client = some client) (he : client.encryptor = some cipher)
    (hp : client.player = some p) :
    registerPlayer s p = .ok
      (({ s with world := w.insertPlayer (s.players p).username p }.setPlayer p
        ({ s.players p with index := index.val } : Player).loggedIn).setClient
        (s.players p).client
        (client.pushFrames cipher (Player.loginFrames (s.players p).position))) := by
  let player : Player := { s.players p with index := index.val }
  let s₁ : Server :=
    { s.setPlayer p player with world := w.insertPlayer (s.players p).username p }
  have hplayer : s₁.players p = player := Server.setPlayer_players_self ..
  have hlock : s₁.lockPlayer client.player = some p := by
    rw [hp]
    exact Server.lockPlayer_of_registered (mem_registered_insertPlayer (s.setPlayer p player) _ _ p)
  have hfound : s₁.clients (s₁.players p).client = some client := by
    rw [hplayer]
    exact hc
  have hlogin := Player.login_ok hfound he hlock
  have hrun : registerPlayer s p = Player.login s₁ p := by
    have hname : ((({ s with world := w } : Server).setPlayer p player).players p).username =
        (s.players p).username := by
      rw [Server.setPlayer_players_self]
    unfold registerPlayer
    rw [hfree]
    exact congrArg (fun name => Player.login
      { s.setPlayer p player with world := w.insertPlayer name p } p) hname
  rw [hrun, hlogin, hplayer]
  exact congrArg (fun s => Except.ok (Server.setClient s _ _))
    (Server.setPlayer_setPlayer { s with world := w.insertPlayer (s.players p).username p } ..)

theorem registerPlayer_full {s : Server} {p : PlayerId} (hfull : getFreeIndex s.world = none) :
    registerPlayer s p = .ok s := by
  unfold registerPlayer
  rw [hfull]

/-- The world without the player of a username, whose slot is free again. -/
def withoutPlayer (w : World) (username : Name) (index : Fin maxPlayers) : World where
  players := w.players.erase username
  occupiedIndices := Function.update w.occupiedIndices index false

theorem removePlayer_ok {s : Server} {username : Name} {p : PlayerId} {index : Fin maxPlayers}
    (hp : s.world.players.lookup username = some p) (hi : (s.players p).index = index.val) :
    removePlayer s username = .ok { s with world := s.world.withoutPlayer username index } := by
  have hne : ¬ (index.val : Int) = -1 := by omega
  have hrange : (0 : Int) ≤ index.val ∧ (index.val : Int) < maxPlayers := by
    have hlt := index.isLt
    omega
  have hslot : (⟨((index.val : Nat) : Int).toNat, by simp⟩ : Fin maxPlayers) = index := rfl
  simp only [removePlayer, getPlayer, hp, hi, resetIndex, hne, if_false, hrange, and_self, dif_pos,
    hslot]
  rfl

/-- Who is registered after a removal. -/
theorem lookup_withoutPlayer {w : World} {username name : Name} {i : Fin maxPlayers}
    {q : PlayerId} : (w.withoutPlayer username i).players.lookup name = some q ↔
      name ≠ username ∧ w.players.lookup name = some q := by
  by_cases hname : name = username
  · subst hname
    simp only [withoutPlayer, AList.lookup_erase, ne_eq, not_true_eq_false, false_and, reduceCtorEq]
  · simp only [withoutPlayer, AList.lookup_erase_ne hname, ne_eq, hname, not_false_eq_true,
      true_and]

end World

namespace LoginHandler

def replyBytes (response : Int) : List Byte :=
  [toByte response] ++ if response = LoginResponse.ok then [0, 0] else []

theorem appendsBytes_reply (response : Int) :
    AppendsBytes (reply response) (replyBytes response) := by
  refine (appendsBytes_writeByte response .standard).bind ?_
  split
  · exact (appendsBytes_writeByte 0 .standard).bind (appendsBytes_writeByte 0 .standard)
  · exact appendsBytes_pure

/-- The client with its username and the reply posted. -/
def answered (client : Client) (username : Name) (response : Int) : Client :=
  { client with username, strand := client.strand ++ [.push (replyBytes response)] }

/-- The client as it is given a player. -/
def admitted (client : Client) (username : Name) (response : Int) (p : PlayerId) : Client :=
  { answered client username response with player := some p, stage := .loggedIn }

/-- A change of the client itself does not change the response. -/
theorem response_setClient {s : Server} {c : ClientId} {client : Client}
    (hc : s.clients c = some client) (client' : Client) (username : Name) :
    response (s.setClient c client') c username = response s c username := by
  have hnone (d : ClientId) :
      ((s.setClient c client').clients d).isNone = (s.clients d).isNone := by
    by_cases hd : d = c
    · rw [hd, Server.setClient_clients_self, hc, Option.isNone_some, Option.isNone_some]
    · rw [Server.setClient_clients_of_ne s client' hd]
  simp only [response, World.getPlayer, Server.setClient_world, Server.setClient_players, hnone]

theorem response_cases (s : Server) (c : ClientId) (username : Name) :
    response s c username = LoginResponse.ok ∨ response s c username = LoginResponse.reconnect ∨
      response s c username = LoginResponse.accountOnline := by
  simp only [response]
  split
  · exact .inl rfl
  · split
    · exact .inr (.inl rfl)
    · exact .inr (.inr rfl)

theorem exec_reply (response : Int) : ∃ out, StreamBuffer.new.exec (reply response) =
    .ok ((), out) ∧ ByteOutput out (replyBytes response) := by
  obtain ⟨out, hrun, hout, -, -⟩ := Client.exec_ok (appendsBytes_reply response)
    (byteOutput_ofSize defaultBufferSize)
  exact ⟨out, hrun, hout⟩

/-- The server with a player newly made for a client. -/
def withPlayer (s : Server) (c : ClientId) (client : Client) (username : Name)
    (response : Int) : Server :=
  { s.setPlayer s.nextPlayer { username, client := c } with
    nextPlayer := s.nextPlayer + 1 }.setClient c (admitted client username response s.nextPlayer)

/-- A login is refused, or gets a player that is then registered. -/
theorem enterWorld_eq {s : Server} {c : ClientId} {client : Client}
    (hc : s.clients c = some client) (username : Name) :
    enterWorld s c username =
      if response s c username = LoginResponse.accountOnline then
        .ok (Client.requestDisconnect (s.setClient c
          (answered client username LoginResponse.accountOnline)) c)
      else World.registerPlayer (withPlayer s c client username (response s c username))
        s.nextPlayer := by
  have hname := Server.modifyClient_eq hc fun client => { client with username }
  have hresponse := response_setClient hc { client with username } username
  obtain ⟨out, hrun, hout⟩ := exec_reply (response s c username)
  have hsend : Client.send (s.setClient c { client with username }) c out =
      .ok (s.setClient c (answered client username (response s c username))) := by
    rw [Client.send_ok (Server.setClient_clients_self ..) hout, Server.setClient_setClient]
    rfl
  have hplayer := Server.modifyClient_eq
    (s := { (s.setClient c (answered client username (response s c username))).setPlayer
      s.nextPlayer { username, client := c } with nextPlayer := s.nextPlayer + 1 })
    (Server.setClient_clients_self ..) fun client =>
      { client with player := some s.nextPlayer, stage := .loggedIn }
  have hsame : (({ (s.setClient c (answered client username (response s c username))).setPlayer
      s.nextPlayer { username, client := c } with
        nextPlayer := s.nextPlayer + 1 } : Server).setClient c
      (admitted client username (response s c username) s.nextPlayer)) =
      withPlayer s c client username (response s c username) := by
    simp only [withPlayer, Server.setClient, Server.setPlayer, Function.update_idem]
  have haccepted (h : ¬ (response s c username ≠ LoginResponse.ok ∧
      response s c username ≠ LoginResponse.reconnect))
      (h' : response s c username ≠ LoginResponse.accountOnline) :
      enterWorld s c username =
        if response s c username = LoginResponse.accountOnline then
          .ok (Client.requestDisconnect (s.setClient c
            (answered client username LoginResponse.accountOnline)) c)
        else World.registerPlayer (withPlayer s c client username (response s c username))
          s.nextPlayer := by
    simp only [enterWorld, hname, hresponse, hrun, bind, Except.bind, hsend]
    rw [if_neg h, if_neg h', ← hsame]
    exact congrArg (fun s' => World.registerPlayer s' s.nextPlayer) hplayer
  rcases response_cases s c username with h | h | h
  · exact haccepted (fun hne => hne.1 h) (by rw [h]; decide)
  · exact haccepted (fun hne => hne.2 h) (by rw [h]; decide)
  · simp only [enterWorld, hname, hresponse, hrun, bind, Except.bind, hsend]
    rw [h]
    rfl

/-- The player of a login, in its slot. -/
def enteredPlayer (c : ClientId) (username : Name) (index : Fin maxPlayers) : Player :=
  ({ username, client := c, index := index.val } : Player).loggedIn

/-- The server after a login that is given a slot. -/
def entered (s : Server) (c : ClientId) (client : Client) (cipher : ISAACCipher) (username : Name)
    (index : Fin maxPlayers) (w : World) : Server :=
  ({ withPlayer s c client username (response s c username) with
    world := w.insertPlayer username s.nextPlayer }.setPlayer s.nextPlayer
      (enteredPlayer c username index)).setClient c
    ((admitted client username (response s c username) s.nextPlayer).pushFrames cipher
      (Player.loginFrames { x := 3200, y := 3200 }))

theorem enterWorld_entered {s : Server} {c : ClientId} {client : Client} {cipher : ISAACCipher}
    {username : Name} {index : Fin maxPlayers} {w : World} (hc : s.clients c = some client)
    (he : client.encryptor = some cipher)
    (hr : response s c username ≠ LoginResponse.accountOnline)
    (hfree : World.getFreeIndex s.world = some (index, w)) :
    enterWorld s c username = .ok (entered s c client cipher username index w) := by
  let s₁ := withPlayer s c client username (response s c username)
  have hplayer : s₁.players s.nextPlayer = { username, client := c } :=
    Server.setPlayer_players_self ..
  have hfound : s₁.clients (s₁.players s.nextPlayer).client =
      some (admitted client username (response s c username) s.nextPlayer) := by
    rw [hplayer]
    exact Server.setClient_clients_self ..
  have hrun := World.registerPlayer_ok (s := s₁) hfree hfound he rfl
  rw [hplayer] at hrun
  rw [enterWorld_eq hc, if_neg hr, hrun]
  rfl

/-- A login that finds every slot taken leaves a client that is logged in all the same. -/
theorem enterWorld_full {s : Server} {c : ClientId} {client : Client} {username : Name}
    (hc : s.clients c = some client) (hr : response s c username ≠ LoginResponse.accountOnline)
    (hfull : World.getFreeIndex s.world = none) :
    enterWorld s c username =
      .ok (withPlayer s c client username (response s c username)) := by
  rw [enterWorld_eq hc, if_neg hr]
  exact World.registerPlayer_full hfull

theorem enterWorld_refused {s : Server} {c : ClientId} {client : Client} {username : Name}
    (hc : s.clients c = some client) (hr : response s c username = LoginResponse.accountOnline) :
    enterWorld s c username = .ok (Client.requestDisconnect (s.setClient c
      (answered client username LoginResponse.accountOnline)) c) := by
  rw [enterWorld_eq hc, if_pos hr]

theorem enterWorld_ok {s : Server} {c : ClientId} {client : Client} {cipher : ISAACCipher}
    (username : Name) (hc : s.clients c = some client) (he : client.encryptor = some cipher) :
    ∃ s', enterWorld s c username = .ok s' := by
  by_cases hr : response s c username = LoginResponse.accountOnline
  · exact ⟨_, enterWorld_refused hc hr⟩
  · cases hfree : World.getFreeIndex s.world with
    | none => exact ⟨_, enterWorld_full hc hr hfree⟩
    | some slot => exact ⟨_, enterWorld_entered hc he hr hfree⟩

end LoginHandler

namespace Client

/-- The client after the first half of a disconnect, and after all of it. -/
def shutDown (client : Client) : Client :=
  { client with disconnected := true, socketOpen := false }

def closed (client : Client) : Client := { client.shutDown with stage := .loggedOut }

theorem disconnect_again {s : Server} {c : ClientId} {client : Client}
    (hc : s.clients c = some client) (hd : client.disconnected = true) :
    disconnect s c = .ok s := by
  simp only [disconnect, Server.lockClient_eq hc, bind, Except.bind, hd, if_true]
  rfl

/-- The second half of a disconnect. -/
theorem logOut_eq {s : Server} {c : ClientId} {client : Client}
    (hc : s.clients c = some client.shutDown) :
    { s.modifyClient c (fun client => { client with stage := .loggedOut }) with
      sessions := (s.modifyClient c fun client =>
        { client with stage := .loggedOut }).sessions.erase c } =
      { s with sessions := s.sessions.erase c }.setClient c client.closed := by
  rw [Server.modifyClient_eq hc]
  rfl

/-- Without a live player only the client is changed. -/
theorem disconnect_absent {s : Server} {c : ClientId} {client : Client}
    (hc : s.clients c = some client) (hd : client.disconnected = false)
    (hp : s.lockPlayer client.player = none) :
    disconnect s c =
      .ok ({ s with sessions := s.sessions.erase c }.setClient c client.closed) := by
  have hlock : (s.setClient c client.shutDown).lockPlayer client.player = none := hp
  have hlogOut := logOut_eq (Server.setClient_clients_self s c client.shutDown)
  have hshut : s.setClient c { client with disconnected := true, socketOpen := false } =
      s.setClient c client.shutDown := rfl
  simp only [disconnect, Server.lockClient_eq hc, bind, Except.bind, hd, hshut, hlock, pure,
    Except.pure]
  rw [if_neg Bool.false_ne_true, hlogOut]
  simp only [Server.setClient, Function.update_idem]

/-- With a live player the world forgets the client's username. -/
theorem disconnect_present {s : Server} {c : ClientId} {client : Client} {p q : PlayerId}
    {index : Fin maxPlayers} (hc : s.clients c = some client) (hd : client.disconnected = false)
    (hp : s.lockPlayer client.player = some p)
    (hq : s.world.players.lookup client.username = some q)
    (hi : (s.players q).index = index.val) :
    disconnect s c = .ok ({ s with
      sessions := s.sessions.erase c
      world := s.world.withoutPlayer client.username index }.setClient c client.closed) := by
  have hlock : (s.setClient c client.shutDown).lockPlayer client.player = some p := hp
  have hremove : World.removePlayer (s.setClient c client.shutDown) client.username =
      .ok { s.setClient c client.shutDown with
        world := s.world.withoutPlayer client.username index } :=
    World.removePlayer_ok hq hi
  have hfound : ({ s.setClient c client.shutDown with
      world := s.world.withoutPlayer client.username index } : Server).clients c =
      some client.shutDown := Server.setClient_clients_self ..
  have hlogOut := logOut_eq hfound
  have hshut : s.setClient c { client with disconnected := true, socketOpen := false } =
      s.setClient c client.shutDown := rfl
  simp only [disconnect, Server.lockClient_eq hc, bind, Except.bind, hd, hshut, hlock, hremove,
    pure, Except.pure]
  rw [if_neg Bool.false_ne_true, hlogOut]
  simp only [Server.setClient, Function.update_idem]

/-- A client that is not disconnected yet is closed. -/
theorem disconnect_client {s s' : Server} {c : ClientId} {client : Client}
    (hc : s.clients c = some client) (h : disconnect s c = .ok s') :
    s'.clients c = some (if client.disconnected then client else client.closed) := by
  obtain ⟨found, hlock, h⟩ := bind_eq_ok.mp h
  obtain rfl := Option.some.inj (hc.symm.trans (Server.clients_of_lockClient hlock))
  split at h
  · rename_i hd
    obtain rfl := Except.ok.inj h
    rw [hc, if_pos hd]
  · rename_i hd
    have hlogOut {t : Server} (ht : t.clients c = some client.shutDown) :
        (t.modifyClient c fun client => { client with stage := .loggedOut }).clients c =
          some client.closed := by
      rw [Server.modifyClient_eq ht]
      exact Server.setClient_clients_self ..
    rw [if_neg hd]
    dsimp only at h
    split at h
    · obtain ⟨t, hremove, h⟩ := bind_eq_ok.mp h
      obtain rfl := Except.ok.inj h
      refine hlogOut ?_
      rw [World.removePlayer] at hremove
      split at hremove
      · obtain rfl := Except.ok.inj hremove
        exact Server.setClient_clients_self ..
      · obtain ⟨world, -, hremove⟩ := bind_eq_ok.mp hremove
        obtain rfl := Except.ok.inj hremove
        exact Server.setClient_clients_self ..
    · obtain rfl := Except.ok.inj h
      exact hlogOut (Server.setClient_clients_self ..)

end Client
end AsioRsps
