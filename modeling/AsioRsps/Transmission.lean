import AsioRsps.FallibleLoop
import AsioRsps.Sessions

/-!
# Transmission

What a frame that has been sent without an error says of the server before it, whatever the
state of the sessions: its client was there and had an encryptor, and nothing but the client
has changed.
-/
namespace AsioRsps
open StreamBuffer
open FallibleLoop (bind_eq_ok)

namespace Server

theorem deref_eq_ok {α : Type} {pointer : Option α} {a : α} :
    deref pointer = .ok a ↔ pointer = some a := by
  cases pointer with
  | none => exact ⟨fun h => (nomatch h), fun h => (nomatch h)⟩
  | some b =>
      constructor
      · exact fun h => congrArg some (Except.ok.inj h)
      · exact fun h => congrArg Except.ok (Option.some.inj h)

/-- The servers differ in their clients only. -/
structure SameRest (s s' : Server) : Prop where
  players : s'.players = s.players
  nextPlayer : s'.nextPlayer = s.nextPlayer
  world : s'.world = s.world
  sessions : s'.sessions = s.sessions

theorem SameRest.refl (s : Server) : s.SameRest s := ⟨rfl, rfl, rfl, rfl⟩

theorem SameRest.trans {s t u : Server} (h : s.SameRest t) (h' : t.SameRest u) : s.SameRest u where
  players := h'.players.trans h.players
  nextPlayer := h'.nextPlayer.trans h.nextPlayer
  world := h'.world.trans h.world
  sessions := h'.sessions.trans h.sessions

theorem sameRest_setClient (s : Server) (c : ClientId) (client : Client) :
    s.SameRest (s.setClient c client) := ⟨rfl, rfl, rfl, rfl⟩

theorem sameRest_modifyClient (s : Server) (c : ClientId) (f : Client → Client) :
    s.SameRest (s.modifyClient c f) := by
  rw [modifyClient]
  split
  · exact sameRest_setClient ..
  · exact .refl s

end Server

namespace Client

theorem send_sameRest {s s' : Server} {c : ClientId} {out : StreamBuffer}
    (h : send s c out = .ok s') : s.SameRest s' := by
  rw [send] at h
  split at h
  · cases h
  · obtain rfl := Except.ok.inj h
    exact Server.sameRest_modifyClient ..

/-- A client that has an encryptor was sent one frame. -/
def Sent (s : Server) (c : ClientId) (s' : Server) : Prop :=
  ∃ client cipher cipher' bytes, s.clients c = some client ∧ client.encryptor = some cipher ∧
    s' = s.setClient c { client with
      encryptor := some cipher'
      strand := client.strand ++ [.push bytes] }

theorem Sent.sameRest {s s' : Server} {c : ClientId} (h : Sent s c s') : s.SameRest s' := by
  obtain ⟨client, cipher, cipher', bytes, -, -, rfl⟩ := h
  exact Server.sameRest_setClient ..

theorem Sent.quiet {s s' : Server} {c : ClientId} (h : Sent s c s') : s.Quiet s' := by
  obtain ⟨client, cipher, cipher', bytes, hc, -, rfl⟩ := h
  exact Server.quiet_setClient hc ⟨rfl, rfl, rfl, rfl, fun _ => rfl, id⟩

theorem openFrame_inv {s s' : Server} {c : ClientId} {size : Nat} {opcode : Int}
    {headerSize : VariableHeaderSize} {out : StreamBuffer}
    (h : openFrame s c size opcode headerSize = .ok (out, s')) :
    ∃ client cipher cipher', s.clients c = some client ∧ client.encryptor = some cipher ∧
      s' = s.setClient c { client with encryptor := some cipher' } := by
  obtain ⟨client, hlock, h⟩ := bind_eq_ok.mp h
  obtain ⟨cipher, hderef, h⟩ := bind_eq_ok.mp h
  refine ⟨client, cipher, ?_⟩
  split at h
  · rename_i out' cipher' _
    obtain ⟨-, rfl⟩ := Prod.mk.inj (Except.ok.inj h)
    exact ⟨cipher', Server.clients_of_lockClient hlock, Server.deref_eq_ok.mp hderef, rfl⟩
  · cases h

theorem sent_of_openFrame {s t s' : Server} {c : ClientId} {size : Nat} {opcode : Int}
    {headerSize : VariableHeaderSize} {out out' : StreamBuffer}
    (hopen : openFrame s c size opcode headerSize = .ok (out, t))
    (hsend : send t c out' = .ok s') : Sent s c s' := by
  obtain ⟨client, cipher, cipher', hc, he, rfl⟩ := openFrame_inv hopen
  refine ⟨client, cipher, cipher', out'.buffer.take out'.pos, hc, he, ?_⟩
  rw [send] at hsend
  split at hsend
  · cases hsend
  · rw [Server.modifyClient_eq (Server.setClient_clients_self ..), Server.setClient_setClient]
      at hsend
    exact (Except.ok.inj hsend).symm

/-- `SendMapRegion` also dereferences the player. -/
theorem sendMapRegion_inv {s s' : Server} {c : ClientId} (h : sendMapRegion s c = .ok s') :
    Sent s c s' ∧ ∃ client p, s.clients c = some client ∧ s.lockPlayer client.player = some p := by
  obtain ⟨⟨out, t⟩, hopen, h⟩ := bind_eq_ok.mp h
  obtain ⟨client', hlock, h⟩ := bind_eq_ok.mp h
  obtain ⟨p, hderef, h⟩ := bind_eq_ok.mp h
  obtain ⟨⟨_, out₁⟩, _, h⟩ := bind_eq_ok.mp h
  obtain ⟨⟨_, out₂⟩, _, hsend⟩ := bind_eq_ok.mp h
  refine ⟨sent_of_openFrame hopen hsend, ?_⟩
  obtain ⟨client, cipher, cipher', hc, -, rfl⟩ := openFrame_inv hopen
  have hc' := Server.clients_of_lockClient hlock
  rw [Server.setClient_clients_self] at hc'
  obtain rfl := Option.some.inj hc'
  exact ⟨client, p, hc, Server.deref_eq_ok.mp hderef⟩

theorem sendPlayerMessage_inv {s s' : Server} {c : ClientId} {message : List BitStrings.Byte}
    (h : sendPlayerMessage s c message = .ok s') : Sent s c s' := by
  by_cases hsize : toInt32 (message.length + 3) < 0
  · simp only [sendPlayerMessage, hsize, if_true] at h
    cases h
  simp only [sendPlayerMessage, hsize, if_false] at h
  obtain ⟨⟨out, t⟩, hopen, h⟩ := bind_eq_ok.mp h
  obtain ⟨⟨_, out₁⟩, _, h⟩ := bind_eq_ok.mp h
  obtain ⟨⟨_, out₂⟩, _, hsend⟩ := bind_eq_ok.mp h
  exact sent_of_openFrame hopen hsend

theorem sendSidebarInterface_inv {s s' : Server} {c : ClientId} {menuId form : Int}
    (h : sendSidebarInterface s c menuId form = .ok s') : Sent s c s' := by
  obtain ⟨⟨out, t⟩, hopen, h⟩ := bind_eq_ok.mp h
  obtain ⟨⟨_, out₁⟩, _, h⟩ := bind_eq_ok.mp h
  obtain ⟨⟨_, out₂⟩, _, hsend⟩ := bind_eq_ok.mp h
  exact sent_of_openFrame hopen hsend

end Client

namespace Player

/-- `UpdateMapRegion` changes the player, and sends one frame to its client. -/
theorem updateMapRegion_inv {s s' : Server} {p : PlayerId} (h : updateMapRegion s p = .ok s') :
    Client.Sent (s.setPlayer p (s.players p).regionUpdated) (s.players p).client s' ∧
      ∃ client q, s.clients (s.players p).client = some client ∧
        s.lockPlayer client.player = some q := by
  have hsend : Client.sendMapRegion (s.setPlayer p (s.players p).regionUpdated)
      ((s.setPlayer p (s.players p).regionUpdated).players p).client = .ok s' := h
  rw [Server.setPlayer_players_self] at hsend
  obtain ⟨hsent, client, q, hc, hlock⟩ := Client.sendMapRegion_inv hsend
  rw [Server.lockPlayer_setPlayer] at hlock
  · exact ⟨hsent, client, q, hc, hlock⟩
  · rfl

/-- `Login` changes the player and its client. -/
theorem login_sameRest {s s' : Server} {p : PlayerId} (h : login s p = .ok s') :
    (s.setPlayer p (s.players p).loggedIn).SameRest s' := by
  obtain ⟨t, hregion, h⟩ := bind_eq_ok.mp h
  obtain ⟨u, hsidebars, hmessage⟩ := bind_eq_ok.mp h
  have hrest := (updateMapRegion_inv hregion).1.sameRest
  have hplayer : t.players p = (s.players p).regionUpdated := by
    rw [hrest.players, Server.setPlayer_players_self]
  have hflag : (s.setPlayer p (s.players p).loggedIn).SameRest
      (t.modifyPlayer p fun player => player.setUpdateFlag UpdateFlag.all) := by
    refine ⟨?_, hrest.nextPlayer, hrest.world, hrest.sessions⟩
    simp only [Server.modifyPlayer, Server.setPlayer, hplayer, hrest.players, Function.update_idem]
    rfl
  refine hflag.trans ((FallibleLoop.foldlM_invariant
    (P := fun _ v => Server.SameRest (t.modifyPlayer p fun player =>
      player.setUpdateFlag UpdateFlag.all) v) hsidebars (.refl _) ?_).trans
    (Client.sendPlayerMessage_inv hmessage).sameRest)
  exact fun _ _ _ v v' _ hv hsend => hv.trans (Client.sendSidebarInterface_inv hsend).sameRest

end Player
end AsioRsps
