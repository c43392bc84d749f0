import AsioRsps.FallibleLoop
import AsioRsps.UpdateFrame

/-!
# The order of updates

What `UpdatePlayer` does to a player and its client is a function of the other players' data
except their local lists, and of nothing another `UpdatePlayer` writes. Updates of different
players with different clients therefore commute, and so does `Update` over any order of a
list of them.
-/
namespace AsioRsps
open StreamBuffer FallibleLoop

namespace PlayerUpdating

/-! ## What an update is a function of -/

/-- An update up to the loop over the world. -/
def openDraft (players : PlayerId → Player) (p : PlayerId) (out : StreamBuffer) :
    Except Fault Update := do
  let u : Update := { out, block := ofSize 1024, localPlayers := [] }
  let u ← writeOut u (setAccessType .bitAccess)
  let u ← writeOut u (updateLocalPlayerMovement (players p))
  let u ← if (players p).needsUpdate then writeBlock u (updateState (players p) false) else pure u
  let u ← writeOut u (writeBits 8 (players p).localPlayers.length)
  (players p).localPlayers.foldlM (pruneEntry players (players p)) u

/-- The list an update leaves, and the finished frame if there is room in the list. -/
def draft (players : PlayerId → Player) (registered : List PlayerId) (p : PlayerId)
    (out : StreamBuffer) : Except Fault (List PlayerId × Option StreamBuffer) := do
  let u ← openDraft players p out
  if u.localPlayers.length ≥ 255 then return (u.localPlayers, none)
  let u ← registered.foldlM (addEntry players p) u
  let out ← finishUpdate u
  return (u.localPlayers, some out)

/-- The client after `Send`, if a frame is sent. -/
def deliver (client : Client) : Option StreamBuffer → Except Fault Client
  | none => .ok client
  | some out =>
      if out.buffer.length < out.pos then .error .outOfBounds
      else .ok { client with strand := client.strand ++ [.push (out.buffer.take out.pos)] }

/-- The new list and the new state of the client of an update. -/
def outcome (players : PlayerId → Player) (registered : List PlayerId) (p : PlayerId)
    (client : Client) : Except Fault (List PlayerId × Client) := do
  let encryptor ← Server.deref client.encryptor
  match StreamBuffer.writeHeader 81 .short (ofSize 2048, encryptor) with
  | .error e _ => throw e
  | .ok () (out, encryptor) =>
      let (locals, frame) ← draft players registered p out
      let client ← deliver { client with encryptor := some encryptor } frame
      return (locals, client)

theorem openUpdate_eq {s t : Server} {p : PlayerId} {out : StreamBuffer}
    (h : Client.openFrame s (s.players p).client 2048 81 .short = .ok (out, t))
    (ht : t.players = s.players) :
    openUpdate s p = openDraft s.players p out >>= fun u => pure (u, t) := by
  cases hn : (s.players p).needsUpdate with
  | true =>
      simp only [openUpdate, h, openDraft, hn, if_true, bind_assoc]
      simp only [← ht]
      rfl
  | false =>
      simp only [openUpdate, h, openDraft, hn, Bool.false_eq_true, if_false, bind_assoc, pure_bind]
      simp only [← ht]
      rfl

/-- Sending a frame changes the client as `deliver` says. -/
theorem send_eq_deliver {s : Server} {c : ClientId} {client : Client}
    (hc : s.clients c = some client) (frame : StreamBuffer) :
    Client.send s c frame = deliver client (some frame) >>= fun client =>
      pure (s.setClient c client) := by
  simp only [Client.send, deliver, Server.modifyClient_eq hc]
  by_cases hfit : frame.buffer.length < frame.pos
  · simp only [hfit, if_true, bind, Except.bind]
  · simp only [hfit, if_false]
    rfl

/-- The loop over the world reads neither the list being built nor the client. -/
theorem addEntries_setClient (s : Server) (p : PlayerId) (c : ClientId) (client : Client)
    (u : Update) :
    ((s.setClient c client).setLocalPlayers p u.localPlayers).registered.foldlM
      (addEntry ((s.setClient c client).setLocalPlayers p u.localPlayers).players p) u =
    s.registered.foldlM (addEntry s.players p) u := by
  rw [← addEntry_setLocalPlayers s p u.localPlayers]
  rfl

theorem outcome_eq {players : PlayerId → Player} {registered : List PlayerId} {p : PlayerId}
    {client : Client} {cipher : ISAACCipher} {out : StreamBuffer}
    (he : client.encryptor = some cipher)
    (hw : StreamBuffer.writeHeader 81 .short (ofSize 2048, cipher) =
      .ok () (out, cipher.getNextKey.2)) :
    outcome players registered p client = do
      let (locals, frame) ← draft players registered p out
      let client ← deliver (client.drawKey cipher) frame
      return (locals, client) := by
  simp only [outcome, he, Server.deref_some]
  rw [show (Except.ok cipher : Except Fault ISAACCipher) = pure cipher from rfl, pure_bind, hw]
  rfl

theorem updatePlayer_eq (s : Server) (p : PlayerId) : updatePlayer s p = do
    let client ← s.lockClient (s.players p).client
    let (locals, client) ← outcome s.players s.registered p client
    return (s.setLocalPlayers p locals).setClient (s.players p).client client := by
  cases hlock : s.lockClient (s.players p).client with
  | error e => simp only [updatePlayer, openUpdate, Client.openFrame, hlock, bind, Except.bind]
  | ok client =>
      have hc := Server.clients_of_lockClient hlock
      cases he : client.encryptor with
      | none => simp only [updatePlayer, openUpdate, Client.openFrame, hlock, he, outcome,
          Server.deref, bind, Except.bind]
      | some cipher =>
          obtain ⟨out, hw, -, -, -⟩ := writeHeader_short 2048 81 cipher
          have hopen := openUpdate_eq (Client.openFrame_eq hc he hw)
            (Server.setClient_players s (s.players p).client (client.drawKey cipher))
          rw [show (Except.ok client : Except Fault Client) = pure client from rfl, pure_bind,
            outcome_eq he hw]
          simp only [updatePlayer, hopen, draft, bind_assoc, pure_bind, addEntries_setClient]
          refine bind_congr fun u => ?_
          by_cases hfull : u.localPlayers.length ≥ 255
          · simp only [hfull, if_true, pure_bind]
            rfl
          · simp only [hfull, if_false, bind_assoc, pure_bind,
              Server.setLocalPlayers_setLocalPlayers]
            refine bind_congr fun v => bind_congr fun frame => ?_
            have hdrawn : ((s.setClient (s.players p).client
                (client.drawKey cipher)).setLocalPlayers p v.localPlayers).clients
                (s.players p).client = some (client.drawKey cipher) :=
              Server.setClient_clients_self ..
            rw [Server.lockClient_eq hdrawn, send_eq_deliver hdrawn]
            simp only [Server.setLocalPlayers_setClient, Server.setClient_setClient]
            rfl

/-! ## What it does not depend on -/

section
variable {players players' : PlayerId → Player}

/-- Two views of the players that differ in local lists only. -/
def SameButLists (players players' : PlayerId → Player) : Prop :=
  ∀ q, ∃ l, players' q = { players q with localPlayers := l }

theorem pruneEntry_congr (h : SameButLists players players') (player : Player) :
    pruneEntry players' player = pruneEntry players player := by
  funext u q
  obtain ⟨l, hl⟩ := h q
  simp only [pruneEntry, hl]
  rfl

theorem addEntry_congr (h : SameButLists players players') (p : PlayerId) :
    addEntry players' p = addEntry players p := by
  funext u q
  obtain ⟨l, hl⟩ := h q
  obtain ⟨k, hk⟩ := h p
  simp only [addEntry, hl, hk]
  rfl

theorem outcome_congr {p : PlayerId} (h : SameButLists players players')
    (hp : players' p = players p) (registered : List PlayerId) (client : Client) :
    outcome players' registered p client = outcome players registered p client := by
  simp only [outcome, draft, openDraft, hp, pruneEntry_congr h, addEntry_congr h]

end

theorem sameButLists_setLocalPlayers (s : Server) (p : PlayerId) (l : List PlayerId) :
    SameButLists s.players (s.setLocalPlayers p l).players := by
  intro q
  by_cases hq : q = p
  · exact ⟨l, by rw [hq, Server.setLocalPlayers_self]⟩
  · exact ⟨(s.players q).localPlayers, by rw [Server.setLocalPlayers_of_ne s l hq]⟩

/-! ## Two updates -/

theorem setLocalPlayers_comm (s : Server) {p q : PlayerId} (h : p ≠ q) (l m : List PlayerId) :
    (s.setLocalPlayers p l).setLocalPlayers q m = (s.setLocalPlayers q m).setLocalPlayers p l := by
  have hq := Server.setLocalPlayers_of_ne s l h.symm
  have hp := Server.setLocalPlayers_of_ne s m h
  change (s.setLocalPlayers p l).setPlayer q
      { (s.setLocalPlayers p l).players q with localPlayers := m } =
    (s.setLocalPlayers q m).setPlayer p
      { (s.setLocalPlayers q m).players p with localPlayers := l }
  rw [hq, hp]
  simp only [Server.setLocalPlayers, Server.modifyPlayer, Server.setPlayer, Function.update_comm h]

theorem setClient_comm (s : Server) {c d : ClientId} (h : c ≠ d) (client client' : Client) :
    (s.setClient c client).setClient d client' = (s.setClient d client').setClient c client := by
  simp only [Server.setClient, Function.update_comm h]

/-- What a successful update leaves behind. -/
def updated (s : Server) (p : PlayerId) (locals : List PlayerId) (client : Client) : Server :=
  (s.setLocalPlayers p locals).setClient (s.players p).client client

theorem updatePlayer_eq_ok {s t : Server} {p : PlayerId} : updatePlayer s p = .ok t ↔
    ∃ client locals client', s.lockClient (s.players p).client = .ok client ∧
      outcome s.players s.registered p client = .ok (locals, client') ∧
      updated s p locals client' = t := by
  rw [updatePlayer_eq, bind_eq_ok]
  refine exists_congr fun client => ?_
  constructor
  · rintro ⟨hlock, h⟩
    obtain ⟨⟨locals, client'⟩, hout, ht⟩ := bind_eq_ok.mp h
    exact ⟨locals, client', hlock, hout, Except.ok.inj ht⟩
  · rintro ⟨locals, client', hlock, hout, ht⟩
    exact ⟨hlock, bind_eq_ok.mpr ⟨(locals, client'), hout, congrArg Except.ok ht⟩⟩

variable {s : Server} {p q : PlayerId}

/-- An update changes nothing that the update of another player of another client sees. -/
theorem updatePlayer_updated (hne : q ≠ p)
    (hclient : (s.players q).client ≠ (s.players p).client) (locals : List PlayerId)
    (client : Client) {t : Server} : updatePlayer (updated s p locals client) q = .ok t ↔
      ∃ client₁ locals' client', s.lockClient (s.players q).client = .ok client₁ ∧
        outcome s.players s.registered q client₁ = .ok (locals', client') ∧
        updated (updated s p locals client) q locals' client' = t := by
  have hq : (updated s p locals client).players q = s.players q :=
    Server.setLocalPlayers_of_ne s locals hne
  have hlock : (updated s p locals client).lockClient (s.players q).client =
      s.lockClient (s.players q).client := by
    simp only [updated, Server.lockClient, Server.setClient_clients_of_ne _ _ hclient,
      Server.setLocalPlayers_clients]
  have hregistered : (updated s p locals client).registered = s.registered := rfl
  rw [updatePlayer_eq_ok, hq, hlock, hregistered]
  simp only [outcome_congr (sameButLists_setLocalPlayers s p locals) hq, updated,
    Server.setClient_players]

theorem updated_comm (hne : p ≠ q) (hclient : (s.players p).client ≠ (s.players q).client)
    (l m : List PlayerId) (client client' : Client) :
    updated (updated s p l client) q m client' = updated (updated s q m client') p l client := by
  have hq : (updated s p l client).players q = s.players q :=
    Server.setLocalPlayers_of_ne s l hne.symm
  have hp : (updated s q m client').players p = s.players p := Server.setLocalPlayers_of_ne s m hne
  rw [updated, hq, updated, updated, hp, updated, Server.setLocalPlayers_setClient,
    Server.setLocalPlayers_setClient, setLocalPlayers_comm s hne, setClient_comm _ hclient]

theorem updatePlayer_swap {s₁ t : Server} (hne : p ≠ q)
    (hclient : (s.players p).client ≠ (s.players q).client) (hp : updatePlayer s p = .ok s₁)
    (hq : updatePlayer s₁ q = .ok t) :
    ∃ s₂, updatePlayer s q = .ok s₂ ∧ updatePlayer s₂ p = .ok t := by
  obtain ⟨client, l, client', hlock, hout, rfl⟩ := updatePlayer_eq_ok.mp hp
  obtain ⟨client₁, m, client₁', hlock', hout', rfl⟩ :=
    (updatePlayer_updated hne.symm hclient.symm l client').mp hq
  exact ⟨updated s q m client₁', updatePlayer_eq_ok.mpr ⟨_, _, _, hlock', hout', rfl⟩,
    (updatePlayer_updated hne hclient m client₁').mpr
      ⟨_, _, _, hlock, hout, (updated_comm hne hclient l m client' client₁').symm⟩⟩

theorem updatePlayer_comm (hne : p ≠ q) (hclient : (s.players p).client ≠ (s.players q).client) :
    SameResult (updatePlayer s p >>= (updatePlayer · q))
      (updatePlayer s q >>= (updatePlayer · p)) := by
  intro t
  rw [bind_eq_ok, bind_eq_ok]
  constructor
  · rintro ⟨s₁, hp, hq⟩
    exact updatePlayer_swap hne hclient hp hq
  · rintro ⟨s₁, hq, hp⟩
    exact updatePlayer_swap hne.symm hclient.symm hq hp

/-! ## Any number of updates -/

theorem updatePlayer_players_client {s' : Server} (h : updatePlayer s p = .ok s') (q : PlayerId) :
    (s'.players q).client = (s.players q).client := by
  obtain ⟨client, l, client', -, -, rfl⟩ := updatePlayer_eq_ok.mp h
  obtain ⟨k, hk⟩ := sameButLists_setLocalPlayers s p l q
  rw [updated, Server.setClient_players, hk]

/-- An update of a player whose client is alive with an encryptor succeeds. -/
theorem exists_updatePlayer {client : Client} {cipher : ISAACCipher}
    (hc : s.clients (s.players p).client = some client) (he : client.encryptor = some cipher)
    (hlist : (s.players p).localPlayers.length ≤ 255) : ∃ s', updatePlayer s p = .ok s' := by
  by_cases hroom : (keptPlayers s p).length < 255
  · obtain ⟨body, -, hrun⟩ := updatePlayer_ok hc he hlist hroom
    exact ⟨_, hrun⟩
  · exact ⟨_, updatePlayer_full hc he (Nat.le_of_not_lt hroom)⟩

/-- The player can be updated: its client is alive with an encryptor and its list has not
outgrown a frame. -/
def Updatable (s : Server) (p : PlayerId) : Prop :=
  (s.players p).localPlayers.length ≤ 255 ∧ ∃ client cipher,
    s.clients (s.players p).client = some client ∧ client.encryptor = some cipher

theorem exists_update {l : List PlayerId} (hdistinct : (l.map fun p => (s.players p).client).Nodup)
    (h : ∀ p ∈ l, Updatable s p) : ∃ t, update s l = .ok t := by
  -- the players still to come are as they were, and so are their clients
  let P (done : List PlayerId) (s' : Server) : Prop := ∀ q ∈ l, q ∉ done →
    s'.players q = s.players q ∧ s'.clients (s.players q).client = s.clients (s.players q).client
  obtain ⟨t, hrun, -⟩ := exists_foldlM (f := updatePlayer) (P := P) (l := l) (s := s)
    (fun q _ _ => ⟨rfl, rfl⟩) fun done p rest s' hl hP => by
      have hp : p ∈ l := by rw [hl]; exact List.mem_append_right done List.mem_cons_self
      have hnodup : l.Nodup := List.Nodup.of_map _ hdistinct
      have hdone : p ∉ done := by
        rw [hl] at hnodup
        exact fun hmem => List.disjoint_of_nodup_append hnodup hmem List.mem_cons_self
      obtain ⟨hplayer, hclient⟩ := hP p hp hdone
      obtain ⟨hlist, client, cipher, hc, he⟩ := h p hp
      obtain ⟨s'', hrun⟩ := exists_updatePlayer (s := s') (p := p)
        (by rw [hplayer, hclient]; exact hc) he (by rw [hplayer]; exact hlist)
      refine ⟨s'', hrun, ?_⟩
      intro q hq hqdone
      obtain ⟨hqdone, hqp⟩ := not_or.mp (mt List.mem_append.mpr hqdone)
      have hne : q ≠ p := fun heq => hqp (List.mem_singleton.mpr heq)
      have hother : (s.players q).client ≠ (s.players p).client := fun heq =>
        hne (List.inj_on_of_nodup_map hdistinct hq hp heq)
      obtain ⟨hqplayer, hqclient⟩ := hP q hq hqdone
      obtain ⟨-, k, client', -, -, rfl⟩ := updatePlayer_eq_ok.mp hrun
      refine ⟨?_, ?_⟩
      · rw [← hqplayer]
        exact Server.setLocalPlayers_of_ne s' k hne
      · rw [← hqclient, updated, hplayer]
        exact Server.setClient_clients_of_ne _ _ hother
  exact ⟨t, hrun⟩

/-- `Update` over players of different clients succeeds in every order or in none, and leaves
the same server. -/
theorem update_perm (s : Server) {l₁ l₂ : List PlayerId} (hperm : l₁.Perm l₂)
    (hdistinct : (l₁.map fun p => (s.players p).client).Nodup) :
    (∀ t, update s l₁ = .ok t ↔ update s l₂ = .ok t) ∧
      ((∀ p ∈ l₁, Updatable s p) → ∃ t, update s l₁ = .ok t) := by
  have hpair : l₁.Pairwise fun p q => p ≠ q ∧ (s.players p).client ≠ (s.players q).client := by
    refine (List.pairwise_map.mp hdistinct).imp fun hclient => ⟨?_, hclient⟩
    rintro rfl
    exact hclient rfl
  refine ⟨fun t => ?_, exists_update hdistinct⟩
  refine foldlM_perm (P := fun s' => ∀ q, (s'.players q).client = (s.players q).client)
    (fun p q h => ⟨h.1.symm, h.2.symm⟩) ?_ ?_ hperm hpair (fun q => rfl) t
  · intro p s₁ s₂ hs hrun q
    rw [updatePlayer_players_client hrun q, hs q]
  · intro p q s₁ h hs
    exact updatePlayer_comm h.1 (by rw [hs p, hs q]; exact h.2)

/-- Two players on one tile, updated in either order. -/
theorem update_perm_pair :
    (∀ t, update (Server.crowd 1) [0, 1] = .ok t ↔ update (Server.crowd 1) [1, 0] = .ok t) ∧
      ∃ t, update (Server.crowd 1) [0, 1] = .ok t := by
  have h := update_perm (Server.crowd 1) (List.Perm.swap 1 0 []) (by decide)
  refine ⟨h.1, h.2 ?_⟩
  intro p hp
  simp only [List.mem_cons, List.not_mem_nil, or_false] at hp
  rcases hp with rfl | rfl
  · exact ⟨by decide, Server.crowdClient 0, Server.crowdCipher, rfl, rfl⟩
  · exact ⟨by decide, Server.crowdClient 1, Server.crowdCipher, rfl, rfl⟩

end PlayerUpdating

end AsioRsps
