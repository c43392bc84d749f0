import AsioRsps.Lockstep
import AsioRsps.Population

/-!
# What belongs to a client

The packets of a client that is logged in, and the work of its strand and its socket, touch the
client's record and the waypoints of its player only, and depend on nothing that other clients
do between two ticks.
-/
namespace AsioRsps
open BitStrings (Byte)
open StreamBuffer Lockstep
open FallibleLoop (bind_eq_ok)

namespace Server

/-- The record of a client and the waypoints of its player are replaced. -/
def put (s : Server) (c : ClientId) (client : Client) (p : PlayerId) (m : MovementHandler) :
    Server :=
  (s.setClient c client).modifyPlayer p fun player => { player with movementHandler := m }

section put
variable (s : Server) (c : ClientId) (client : Client) (p : PlayerId) (m : MovementHandler)

@[simp] theorem put_clients_self : (s.put c client p m).clients c = some client :=
  setClient_clients_self ..

theorem put_clients_of_ne {d : ClientId} (h : d ≠ c) :
    (s.put c client p m).clients d = s.clients d := setClient_clients_of_ne s client h

@[simp] theorem put_players_self :
    (s.put c client p m).players p = { s.players p with movementHandler := m } :=
  setPlayer_players_self ..

theorem put_players_of_ne {q : PlayerId} (h : q ≠ p) :
    (s.put c client p m).players q = s.players q := setPlayer_players_of_ne _ _ h

@[simp] theorem put_lockPlayer : (s.put c client p m).lockPlayer = s.lockPlayer :=
  lockPlayer_setPlayer (s.setClient c client) rfl

theorem put_comm {d : ClientId} (hcd : c ≠ d) (client' : Client) {q : PlayerId} (hpq : p ≠ q)
    (m' : MovementHandler) :
    (s.put c client p m).put d client' q m' = (s.put d client' q m').put c client p m := by
  simp only [put, modifyPlayer, setClient, setPlayer, Function.update_of_ne hpq.symm,
    Function.update_of_ne hpq, Function.update_comm hcd, Function.update_comm hpq]

theorem setClient_put (client' : Client) :
    (s.put c client p m).setClient c client' = s.put c client' p m := by
  simp only [put, modifyPlayer, setClient, setPlayer, Function.update_idem]

theorem walkPath_put (runPath : Bool) (tiles : List Position) :
    (s.put c client p m).modifyPlayer p (fun player => Client.walkPath player runPath tiles) =
      s.put c client p
        (Client.walkPath { s.players p with movementHandler := m } runPath
          tiles).movementHandler := by
  simp only [put, modifyPlayer, setClient, setPlayer, Function.update_idem, Function.update_self]
  rfl

end put

theorem put_eq_self {s : Server} {c : ClientId} {client : Client} (hc : s.clients c = some client)
    (p : PlayerId) : s.put c client p (s.players p).movementHandler = s := by
  have hclients : Function.update s.clients c (some client) = s.clients := by
    rw [← hc, Function.update_eq_self]
  have hplayers : Function.update s.players p (s.players p) = s.players :=
    Function.update_eq_self ..
  simp only [put, modifyPlayer, setClient, setPlayer, hclients, hplayers]

/-- Two servers in which a client finds the same. -/
structure Agrees (c : ClientId) (p : PlayerId) (s t : Server) : Prop where
  client : t.clients c = s.clients c
  player : t.players p = s.players p
  lock : t.lockPlayer (some p) = s.lockPlayer (some p)

theorem agrees_put {c d : ClientId} (hcd : c ≠ d) {p q : PlayerId} (hpq : p ≠ q) (s : Server)
    (client : Client) (m : MovementHandler) : Agrees c p s (s.put d client q m) :=
  ⟨put_clients_of_ne s d client q m hcd, put_players_of_ne s d client q m hpq,
    congrFun (put_lockPlayer s d client q m) _⟩

theorem Agrees.symm {c : ClientId} {p : PlayerId} {s t : Server} (h : Agrees c p s t) :
    Agrees c p t s := ⟨h.client.symm, h.player.symm, h.lock.symm⟩

/-- Two servers in which a client that is logged in has done the same. -/
structure Beside (s t : Server) (c : ClientId) (p : PlayerId) (u v : Server) : Prop where
  done : ∃ client m, client.stage = .loggedIn ∧ client.player = some p ∧ u = s.put c client p m ∧
    v = t.put c client p m

variable {s t : Server} {c : ClientId} {p : PlayerId}

theorem beside_start (h : Agrees c p s t) {client : Client} (hc : s.clients c = some client)
    (hstage : client.stage = .loggedIn) (hplayer : client.player = some p) :
    Beside s t c p s t := by
  refine ⟨client, (s.players p).movementHandler, hstage, hplayer, (put_eq_self hc p).symm, ?_⟩
  rw [← h.player, put_eq_self (h.client.trans hc)]

theorem Beside.lockClient {u v : Server} (h : Beside s t c p u v) :
    ∃ client, u.lockClient c = .ok client ∧ v.lockClient c = .ok client ∧
      client.stage = .loggedIn ∧ client.player = some p := by
  obtain ⟨client, m, hstage, hplayer, rfl, rfl⟩ := h.done
  exact ⟨client, lockClient_eq (put_clients_self ..), lockClient_eq (put_clients_self ..), hstage,
    hplayer⟩

/-- The client's record changes. -/
theorem Beside.setClient {u v : Server} (h : Beside s t c p u v) {client : Client}
    (hstage : client.stage = .loggedIn) (hplayer : client.player = some p) :
    Beside s t c p (u.setClient c client) (v.setClient c client) := by
  obtain ⟨old, m, -, -, rfl, rfl⟩ := h.done
  exact ⟨client, m, hstage, hplayer, setClient_put .., setClient_put ..⟩

/-- The client's player gets other waypoints. -/
theorem Beside.walkPath (hagree : Agrees c p s t) {u v : Server} (h : Beside s t c p u v)
    (runPath : Bool) (tiles : List Position) : Beside s t c p
      (u.modifyPlayer p fun player => Client.walkPath player runPath tiles)
      (v.modifyPlayer p fun player => Client.walkPath player runPath tiles) := by
  obtain ⟨client, m, hstage, hplayer, rfl, rfl⟩ := h.done
  refine ⟨client, _, hstage, hplayer, walkPath_put .., ?_⟩
  rw [walkPath_put, hagree.player]

end Server

namespace Client
open Server

variable {s t : Server} {c : ClientId} {p : PlayerId}

/-! ## Packets -/

theorem alike_movePlayer (hagree : Agrees c p s t) {u v : Server} (h : Beside s t c p u v)
    (firstStepX firstStepY : Int) (path : List (Int × Int)) :
    AlikeM (Beside s t c p) (movePlayer u c firstStepX firstStepY path)
      (movePlayer v c firstStepX firstStepY path) := by
  obtain ⟨client, hu, hv, -, hplayer⟩ := h.lockClient
  have hlock : v.lockPlayer client.player = u.lockPlayer client.player := by
    obtain ⟨_, _, -, -, rfl, rfl⟩ := h.done
    rw [put_lockPlayer, put_lockPlayer, hplayer, hagree.lock]
  simp only [movePlayer, hu, hv, lift_ok, pure_bind, hlock]
  cases hfound : u.lockPlayer client.player with
  | none => exact fun _ => .error
  | some q =>
      obtain rfl : p = q := by
        rw [hplayer] at hfound
        exact Option.some.inj (Option.eq_some_of_filter_eq_some hfound)
      simp only [deref, lift_ok, pure_bind]
      exact .after _ fun _ => .pure (h.walkPath hagree _ _)

theorem alike_handleMovement (hagree : Agrees c p s t) {u v : Server} (h : Beside s t c p u v)
    (packetOpcode packetLength : Int) :
    AlikeM (Beside s t c p) (handleMovement u c packetOpcode packetLength)
      (handleMovement v c packetOpcode packetLength) := by
  rw [handleMovement, handleMovement]
  dsimp only
  split
  · exact fun _ => .error
  · exact .after _ fun _ => .after _ fun _ => .after _ fun _ => alike_movePlayer hagree h _ _ _

theorem alike_handlePacket (hagree : Agrees c p s t) {u v : Server} (h : Beside s t c p u v)
    (packetOpcode packetLength : Int) :
    AlikeM (Beside s t c p) (handlePacket u c packetOpcode packetLength)
      (handlePacket v c packetOpcode packetLength) := by
  have hrest (before : Nat) {u v : Server} (h : Beside s t c p u v) :
      AlikeM (Beside s t c p)
        (get >>= fun b => skipBytes (packetLength - (b.pos - before : Nat)).toNat >>= fun _ =>
          pure u)
        (get >>= fun b => skipBytes (packetLength - (b.pos - before : Nat)).toNat >>= fun _ =>
          pure v) := .after _ fun _ => .after _ fun _ => .pure h
  refine .after _ fun b => ?_
  dsimp only
  split
  · exact (alike_handleMovement hagree h packetOpcode packetLength).bind fun _ _ => hrest b.pos
  · exact (AlikeM.pure h).bind fun _ _ => hrest b.pos

theorem alike_exec {α α' : Type} {R : α → α' → Prop} {x : StreamM α} {x' : StreamM α'}
    (h : AlikeM R x x') (b : StreamBuffer) :
    Alike (fun r r' => R r.1 r'.1 ∧ r'.2 = r.2) (b.exec x) (b.exec x') := by
  have hb := h b
  rw [StreamBuffer.exec, StreamBuffer.exec]
  generalize x b = r at hb
  generalize x' b = r' at hb
  cases hb with
  | error => exact .error
  | ok ha => exact .ok ⟨ha, rfl⟩

/-! ## The packet loop -/

/-- The same place in the loop, next to another server. -/
structure Abreast (s t : Server) (c : ClientId) (p : PlayerId) (st st' : Incoming) : Prop where
  server : Beside s t c p st.server st'.server
  same : st' = { st with server := st'.server }

theorem alike_decodeOpcode {st st' : Incoming} (h : Abreast s t c p st st') :
    Alike (Abreast s t c p) (decodeOpcode c st) (decodeOpcode c st') := by
  obtain ⟨hserver, hsame⟩ := h
  obtain ⟨client, hu, hv, hstage, hplayer⟩ := hserver.lockClient
  rw [hsame]
  simp only [decodeOpcode, hu, hv]
  refine (Alike.refl _).bind fun r _ heq => heq ▸ ?_
  have hfound : Alike (fun found found' => found = client ∧ found' = client)
      (.ok client : Except Fault Client) (.ok client) := .ok ⟨rfl, rfl⟩
  refine hfound.bind fun found found' heqs => ?_
  obtain ⟨rfl, rfl⟩ := heqs
  exact (Alike.refl _).bind fun decryptor _ heq => heq ▸ .ok ⟨hserver.setClient hstage hplayer, rfl⟩

theorem alike_decodeLength {st st' : Incoming} (h : Abreast s t c p st st') :
    Alike (AlikeStep (Abreast s t c p)) (decodeLength st) (decodeLength st') := by
  obtain ⟨hserver, hsame⟩ := h
  rw [hsame]
  simp only [decodeLength]
  split
  · exact .error
  · split
    · split
      · exact (Alike.refl _).bind fun r _ heq => heq ▸ .ok (.yield ⟨hserver, rfl⟩)
      · exact .ok (.done ⟨hserver, rfl⟩)
    · exact .ok (.yield ⟨hserver, rfl⟩)

theorem alike_dispatch (hagree : Agrees c p s t) {st st' : Incoming}
    (h : Abreast s t c p st st') :
    Alike (Abreast s t c p) (dispatch c st) (dispatch c st') := by
  obtain ⟨hserver, hsame⟩ := h
  rw [hsame]
  simp only [dispatch]
  split
  · refine (alike_exec (alike_handlePacket hagree hserver _ _) _).bind fun r r' hr => ?_
    obtain ⟨hserver', hstream⟩ := hr
    refine .ok ⟨hserver', ?_⟩
    rw [hstream]
  · exact .ok ⟨hserver, rfl⟩

theorem alike_packetIteration (hagree : Agrees c p s t) (gen : Int) {st st' : Incoming}
    (h : Abreast s t c p st st') :
    Alike (AlikeStep (Abreast s t c p)) (packetIteration c gen st) (packetIteration c gen st') := by
  obtain ⟨client, hu, hv, hstage, -⟩ := h.server.lockClient
  have hstream : st'.inStream = st.inStream := by rw [h.same]
  have hcode : st'.packetOpcode = st.packetOpcode := by rw [h.same]
  cases hmore : st.inStream.hasRemaining with
  | false =>
      simp only [packetIteration, hstream, hmore]
      exact .ok (.done h)
  | true =>
      rw [packetIteration_parts hmore (clients_of_lockClient hu) hstage,
        packetIteration_parts (hstream ▸ hmore) (clients_of_lockClient hv) hstage, hcode]
      have hopcode : Alike (Abreast s t c p)
          (if st.packetOpcode = -1 then decodeOpcode c st else .ok st)
          (if st.packetOpcode = -1 then decodeOpcode c st' else .ok st') := by
        split
        · exact alike_decodeOpcode h
        · exact .ok h
      refine hopcode.bind fun st₁ st₁' h₁ => ?_
      have hlen : st₁'.packetLength = st₁.packetLength := by rw [h₁.same]
      have hlength : Alike (AlikeStep (Abreast s t c p))
          (if st₁.packetLength = -1 then decodeLength st₁ else .ok (.yield st₁))
          (if st₁'.packetLength = -1 then decodeLength st₁' else .ok (.yield st₁')) := by
        rw [hlen]
        split
        · exact alike_decodeLength h₁
        · exact .ok (.yield h₁)
      refine hlength.bind fun it it' hit => ?_
      cases hit with
      | done h₂ => exact .ok (.done h₂)
      | yield h₂ => exact (alike_dispatch hagree h₂).map fun _ _ => .yield

end Client
end AsioRsps
