import AsioRsps.LoginRequest
import AsioRsps.PacketStream
import AsioRsps.SessionSteps

/-!
# What a read does to the server

A packet changes the waypoints of its sender at most, a whole read of a logged-in client is
quiet, and as long as the client's player is alive no packet dereferences a null pointer. The
outcome of any read follows.
-/
namespace AsioRsps
open BitStrings (Byte)
open StreamBuffer FallibleLoop

namespace StreamBuffer

/-- No run of the computation dereferences a null pointer. -/
def NeverNull {α : Type} (m : StreamM α) : Prop :=
  ∀ b : StreamBuffer, b.exec m ≠ .error .nullPointer

theorem NeverNull.bind {α β : Type} {m : StreamM α} {f : α → StreamM β} (hm : NeverNull m)
    (hf : ∀ a, NeverNull (f a)) : NeverNull (m >>= f) := by
  intro b h
  rcases exec_bind_eq_error.mp h with h | ⟨a, b', -, h⟩
  · exact hm b h
  · exact hf a b' h

theorem neverNull_pure {α : Type} (a : α) : NeverNull (pure a) := fun _ => nofun

theorem neverNull_throw {α : Type} {e : Fault} (h : e ≠ .nullPointer) :
    NeverNull (throw e : StreamM α) := fun _ he => h (Except.error.inj he)

theorem neverNull_get : NeverNull (get : StreamM StreamBuffer) := fun _ => nofun

theorem neverNull_readByte (isSigned : Bool) (type : ValueType) :
    NeverNull (readByte isSigned type) := by
  intro b h
  simp only [exec, readByte, Bind.bind, EStateM.bind, get, getThe, MonadStateOf.get,
    getState_eq] at h
  cases hb : b.buffer[b.pos]? with
  | none =>
      simp only [hb] at h
      cases h
  | some raw =>
      simp only [hb] at h
      cases h

theorem neverNull_readShort_little (type : ValueType) :
    NeverNull (readShort true type .little) := by
  refine (neverNull_readByte false type).bind fun low => ?_
  exact (neverNull_readByte false .standard).bind fun high => neverNull_pure _

end StreamBuffer

namespace Client

/-! ## One packet -/

theorem neverNull_readPath (n : Nat) : NeverNull (readPath n) := by
  induction n with
  | zero => exact neverNull_pure []
  | succ n ih =>
      refine (neverNull_readByte true .standard).bind fun x => ?_
      refine (neverNull_readByte true .standard).bind fun y => ?_
      exact ih.bind fun path => neverNull_pure _

theorem neverNull_skipBytes (n : Nat) : NeverNull (skipBytes n) := by
  induction n with
  | zero => exact neverNull_pure ()
  | succ n ih => exact (neverNull_readByte true .standard).bind fun _ => ih

/-- With a live player `HandlePacket` never dereferences a null pointer. -/
theorem neverNull_handlePacket {s : Server} {c : ClientId} {client : Client} {p : PlayerId}
    (hc : s.clients c = some client) (hp : s.lockPlayer client.player = some p)
    (packetOpcode packetLength : Int) : NeverNull (handlePacket s c packetOpcode packetLength) := by
  have hmove (firstStepX firstStepY : Int) (path : List (Int × Int)) :
      NeverNull (movePlayer s c firstStepX firstStepY path) := by
    simp only [movePlayer, Server.lockClient_eq hc, lift_ok, pure_bind, hp, Server.deref_some]
    exact (neverNull_readByte true .c).bind fun _ => neverNull_pure _
  have hwalk (steps : Nat) : NeverNull (do
      let firstStepX ← readShort true .a .little
      let path ← readPath steps
      let firstStepY ← readShort true .standard .little
      movePlayer s c firstStepX firstStepY path) := by
    refine (neverNull_readShort_little .a).bind fun firstStepX => ?_
    refine (neverNull_readPath steps).bind fun path => ?_
    exact (neverNull_readShort_little .standard).bind fun firstStepY => hmove _ _ _
  have hmovement : NeverNull (handleMovement s c packetOpcode packetLength) := by
    rw [handleMovement]
    split
    · exact (neverNull_throw (by decide)).bind fun _ => hwalk _
    · exact hwalk _
  have hskip (count : StreamBuffer → Nat) (s' : Server) :
      NeverNull (get >>= fun b => skipBytes (count b) >>= fun _ => pure s') :=
    neverNull_get.bind fun _ => (neverNull_skipBytes _).bind fun _ => neverNull_pure s'
  rw [handlePacket]
  refine neverNull_get.bind fun _ => ?_
  split
  · exact hmovement.bind fun _ => hskip _ _
  · exact (neverNull_pure s).bind fun _ => hskip _ _

/-- A packet that is handled changes the waypoints of its sender, or nothing. -/
theorem handlePacket_inv {s s' : Server} {c : ClientId} {packetOpcode packetLength : Int}
    {b b' : StreamBuffer}
    (h : b.exec (handlePacket s c packetOpcode packetLength) = .ok (s', b')) :
    s' = s ∨ ∃ client p runPath tiles, s.clients c = some client ∧
      s.lockPlayer client.player = some p ∧
      s' = s.modifyPlayer p fun player => walkPath player runPath tiles := by
  have hskip {count : StreamBuffer → Nat} {s₁ : Server} {b₀ : StreamBuffer}
      (h : b₀.exec (get >>= fun b => skipBytes (count b) >>= fun _ => pure s₁) = .ok (s', b')) :
      s₁ = s' := by
    obtain ⟨_, b₁, -, h⟩ := exec_bind_eq_ok.mp h
    obtain ⟨_, b₂, -, h⟩ := exec_bind_eq_ok.mp h
    exact (Prod.mk.inj (Except.ok.inj h)).1
  obtain ⟨_, b₀, -, h⟩ := exec_bind_eq_ok.mp h
  split at h
  · right
    obtain ⟨s₁, b₁, hmovement, h⟩ := exec_bind_eq_ok.mp h
    obtain rfl := hskip h
    rw [handleMovement] at hmovement
    split at hmovement
    · obtain ⟨_, b₄, hthrow, -⟩ := exec_bind_eq_ok.mp hmovement
      cases hthrow
    obtain ⟨firstStepX, b₅, -, hmovement⟩ := exec_bind_eq_ok.mp hmovement
    obtain ⟨path, b₆, -, hmovement⟩ := exec_bind_eq_ok.mp hmovement
    obtain ⟨firstStepY, b₇, -, hmovement⟩ := exec_bind_eq_ok.mp hmovement
    obtain ⟨client, b₈, hclient, hmovement⟩ := exec_bind_eq_ok.mp hmovement
    obtain ⟨p, b₉, hplayer, hmovement⟩ := exec_bind_eq_ok.mp hmovement
    obtain ⟨run, b₁₀, -, hmovement⟩ := exec_bind_eq_ok.mp hmovement
    obtain ⟨rfl, -⟩ := Prod.mk.inj (Except.ok.inj hmovement)
    have hlive := exec_lift_eq_ok hplayer
    refine ⟨client, p, _, _, Server.clients_of_lockClient (exec_lift_eq_ok hclient), ?_, rfl⟩
    cases hlock : s.lockPlayer client.player with
    | none =>
        rw [hlock] at hlive
        cases hlive
    | some q =>
        rw [hlock] at hlive
        rw [Except.ok.inj hlive]
  · obtain ⟨s₁, b₁, hsame, h⟩ := exec_bind_eq_ok.mp h
    obtain ⟨rfl, -⟩ := Prod.mk.inj (Except.ok.inj hsame)
    exact .inl (hskip h).symm

theorem quiet_walkPath (s : Server) (p : PlayerId) (runPath : Bool) (tiles : List Position) :
    s.Quiet (s.modifyPlayer p fun player => walkPath player runPath tiles) :=
  Server.quiet_modifyPlayer (fun _ => rfl) (fun _ => rfl) fun _ => rfl

theorem quiet_handlePacket {s s' : Server} {c : ClientId} {packetOpcode packetLength : Int}
    {b b' : StreamBuffer}
    (h : b.exec (handlePacket s c packetOpcode packetLength) = .ok (s', b')) : s.Quiet s' := by
  rcases handlePacket_inv h with rfl | ⟨_, p, runPath, tiles, -, -, rfl⟩
  · exact .refl _
  · exact quiet_walkPath s p runPath tiles

/-! ## The packet loop -/

theorem quiet_decodeOpcode {c : ClientId} {st st' : Incoming} (h : decodeOpcode c st = .ok st') :
    st.server.Quiet st'.server := by
  obtain ⟨⟨raw, inStream⟩, -, h⟩ := bind_eq_ok.mp h
  obtain ⟨client, hc, h⟩ := bind_eq_ok.mp h
  obtain ⟨decryptor, -, h⟩ := bind_eq_ok.mp h
  obtain rfl := Except.ok.inj h
  exact Server.quiet_setClient (Server.clients_of_lockClient hc)
    ⟨rfl, rfl, rfl, rfl, id, fun _ => rfl⟩

theorem server_decodeLength {st : Incoming} {it : ForInStep Incoming}
    (h : decodeLength st = .ok it) : it.value.server = st.server := by
  simp only [decodeLength] at h
  split at h
  · cases h
  · split at h
    · split at h
      · obtain ⟨⟨length, inStream⟩, -, h⟩ := bind_eq_ok.mp h
        obtain rfl := Except.ok.inj h
        rfl
      · obtain rfl := Except.ok.inj h
        rfl
    · obtain rfl := Except.ok.inj h
      rfl

theorem quiet_dispatch {c : ClientId} {st st' : Incoming} (h : dispatch c st = .ok st') :
    st.server.Quiet st'.server := by
  simp only [dispatch] at h
  split at h
  · obtain ⟨⟨server, inStream⟩, hpacket, h⟩ := bind_eq_ok.mp h
    obtain rfl := Except.ok.inj h
    exact quiet_handlePacket hpacket
  · obtain rfl := Except.ok.inj h
    exact .refl _

/-- The header of a packet, decoded or left from the iteration before, is quiet. -/
theorem quiet_header {c : ClientId} {st st₁ : Incoming} {it₁ : ForInStep Incoming}
    (hopcode : st.packetOpcode = -1 ∧ decodeOpcode c st = .ok st₁ ∨
      st.packetOpcode ≠ -1 ∧ st₁ = st)
    (hlength : st₁.packetLength = -1 ∧ decodeLength st₁ = .ok it₁ ∨
      st₁.packetLength ≠ -1 ∧ it₁ = .yield st₁) : st.server.Quiet it₁.value.server := by
  have h₁ : st.server.Quiet st₁.server := by
    rcases hopcode with ⟨-, hop⟩ | ⟨-, rfl⟩
    · exact quiet_decodeOpcode hop
    · exact .refl _
  rcases hlength with ⟨-, hlen⟩ | ⟨-, rfl⟩
  · rw [server_decodeLength hlen]
    exact h₁
  · exact h₁

theorem quiet_packetIteration {c : ClientId} {gen : Int} {st : Incoming} {client : Client}
    {it : ForInStep Incoming} (hc : st.server.clients c = some client)
    (hstage : client.stage = .loggedIn) (h : packetIteration c gen st = .ok it) :
    st.server.Quiet it.value.server := by
  cases packetIteration_inv h with
  | empty _ => exact .refl _
  | login hc' hnot _ =>
      obtain rfl := Option.some.inj (hc.symm.trans hc')
      exact absurd hstage hnot
  | packet _ _ hopcode hlength hdispatch =>
      have hheader := quiet_header hopcode hlength
      rcases hdispatch with ⟨st₂, rfl, rfl⟩ | ⟨st₂, st₃, rfl, hd, rfl⟩
      · exact hheader
      · exact hheader.trans (quiet_dispatch hd)

/-! ## A whole read -/

/-- The server once a packet of the client has been counted. -/
def counted (s : Server) (c : ClientId) (client : Client) (now : Int) : Server :=
  s.setClient c (countPacket client now).1

theorem quietClient_countPacket (client : Client) (now : Int) :
    Server.QuietClient client (countPacket client now).1 := by
  rw [countPacket_eq]
  exact ⟨rfl, rfl, rfl, rfl, id, id⟩

theorem quiet_counted {s : Server} {c : ClientId} {client : Client}
    (hc : s.clients c = some client) (now : Int) : s.Quiet (counted s c client now) :=
  Server.quiet_setClient hc (quietClient_countPacket client now)

/-- The outcomes of a read that returns. -/
inductive ReadOutcome (s : Server) (c : ClientId) (client : Client) (now gen : Int)
    (data : List Byte) (s' : Server) : Prop where
  | flood : (countPacket client now).2 = true →
      disconnect (counted s c client now) c = .ok s' → ReadOutcome s c client now gen data s'
  | packets : (countPacket client now).2 = false → client.stage = .loggedIn →
      (counted s c client now).Quiet s' → ReadOutcome s c client now gen data s'
  | login {b : StreamBuffer} : (countPacket client now).2 = false → client.stage ≠ .loggedIn →
      (ofData data).exec (LoginHandler.process (counted s c client now) c gen) = .ok (s', b) →
      ReadOutcome s c client now gen data s'

/-- The loop of a logged-in client as a read enters it, or some iterations later. -/
def Looping (s : Server) (c : ClientId) (st : Incoming) : Prop :=
  s.Quiet st.server ∧ ∃ client, st.server.clients c = some client ∧ client.stage = .loggedIn

theorem Looping.iteration {s : Server} {c : ClientId} {gen : Int} {st : Incoming}
    {it : ForInStep Incoming} (h : Looping s c st) (hrun : packetIteration c gen st = .ok it) :
    Looping s c it.value := by
  obtain ⟨hquiet, client, hc, hstage⟩ := h
  have hstep := quiet_packetIteration hc hstage hrun
  obtain ⟨client', hc', hclient⟩ := hstep.client hc
  exact ⟨hquiet.trans hstep, client', hc', hclient.stage.trans hstage⟩

theorem looping_start {s : Server} {c : ClientId} {client : Client}
    (hstage : client.stage = .loggedIn) (now : Int) (data : List Byte) :
    Looping (counted s c client now) c
      { server := counted s c client now, inStream := ofData data } :=
  ⟨.refl _, _, Server.setClient_clients_self .., (quietClient_countPacket client now).stage.trans
    hstage⟩

/-- Only a client that is there completes a read. -/
theorem exists_reader {s : Server} {c : ClientId} {fuel : Nat} {now gen : Int} {data : List Byte}
    {st : Incoming} (h : readIncomingData fuel s c now gen data = some (.ok st)) :
    ∃ client, s.clients c = some client := by
  cases hc : s.clients c with
  | none =>
      simp only [readIncomingData, handleIncomingData, hc] at h
      cases h
  | some client => exact ⟨client, rfl⟩

theorem readIncomingData_outcome {s : Server} {c : ClientId} {client : Client} {fuel : Nat}
    {now gen : Int} {data : List Byte} {st : Incoming} (hc : s.clients c = some client)
    (hdata : data ≠ []) (h : readIncomingData fuel s c now gen data = some (.ok st)) :
    ReadOutcome s c client now gen data st.server := by
  simp only [readIncomingData, handleIncomingData, hc] at h
  split at h
  · rename_i hflood
    obtain ⟨server, hrun, rfl⟩ := map_eq_ok.mp (Option.some.inj h)
    exact .flood hflood hrun
  · rename_i hflood
    have hflood := (Bool.not_eq_true _).mp hflood
    obtain ⟨r, hr, hst⟩ := Option.map_eq_some_iff.mp h
    obtain ⟨st', rfl, rfl⟩ := map_eq_ok.mp hst
    have hends : Ends (packetIteration c gen)
        { server := counted s c client now, inStream := ofData data } (.ok st') := ⟨fuel, hr⟩
    have hfound : (counted s c client now).clients c = some (countPacket client now).1 :=
      Server.setClient_clients_self ..
    have hmore : (ofData data).hasRemaining = true := by
      rw [hasRemaining_iff]
      exact hdata
    by_cases hstage : client.stage = .loggedIn
    · refine .packets hflood hstage ?_
      have hlast := hends.invariant (P := Looping (counted s c client now) c)
        (Q := Looping (counted s c client now) c) (fun _ _ ha hab => ha.iteration hab)
        (fun _ _ ha hab => ha.iteration hab) (looping_start hstage now data)
      exact hlast.1
    · have hnot : (countPacket client now).1.stage ≠ .loggedIn := by
        rw [(quietClient_countPacket client now).stage]
        exact hstage
      -- the first iteration hands the buffer to the login handler and leaves the loop
      have hfirst {it : ForInStep Incoming} (hrun : packetIteration c gen
          { server := counted s c client now, inStream := ofData data } = .ok it) :
          ∃ server b, it = .done { server, inStream := b } ∧ (ofData data).exec
            (LoginHandler.process (counted s c client now) c gen) = .ok (server, b) := by
        cases packetIteration_inv hrun with
        | empty hempty => exact absurd (hmore.symm.trans hempty) (by decide)
        | login _ _ hlogin => exact ⟨_, _, rfl, hlogin⟩
        | packet hc' hlogged _ _ _ =>
            obtain rfl := Option.some.inj (hfound.symm.trans hc')
            exact absurd hlogged hnot
      refine hends.invariant (Q := fun st => ReadOutcome s c client now gen data st.server)
        (P := fun st => st = { server := counted s c client now, inStream := ofData data })
        (fun a b ha hab => ?_) (fun a b ha hab => ?_) rfl
      · subst ha
        obtain ⟨_, _, hit, -⟩ := hfirst hab
        cases hit
      · subst ha
        obtain ⟨server, b, hit, hlogin⟩ := hfirst hab
        obtain rfl := ForInStep.done.inj hit
        exact .login hflood hstage hlogin

/-- The client is logged in, can decrypt, and its player is registered. -/
def Alive (s : Server) (c : ClientId) : Prop :=
  ∃ client p, s.clients c = some client ∧ client.stage = .loggedIn ∧
    client.decryptor.isSome = true ∧ client.player = some p ∧ p ∈ s.registered

theorem Alive.quiet {s s' : Server} {c : ClientId} (h : Alive s c) (hq : s.Quiet s') :
    Alive s' c := by
  obtain ⟨client, p, hc, hstage, hdec, hplayer, hp⟩ := h
  obtain ⟨client', hc', hclient⟩ := hq.client hc
  exact ⟨client', p, hc', hclient.stage.trans hstage, hclient.decryptor hdec,
    hclient.player.trans hplayer, (Server.mem_registered_congr hq.lookup).mpr hp⟩

theorem decodeOpcode_neverNull {c : ClientId} {st : Incoming} (h : Alive st.server c) :
    decodeOpcode c st ≠ .error .nullPointer := by
  intro hrun
  obtain ⟨client, p, hc, -, hdec, -, -⟩ := h
  obtain ⟨decryptor, hdec⟩ := Option.isSome_iff_exists.mp hdec
  rcases bind_eq_error.mp hrun with hread | ⟨_, -, hrun⟩
  · exact neverNull_readByte true .standard _ hread
  · simp only [Server.lockClient_eq hc, bind, Except.bind, hdec, Server.deref_some] at hrun
    cases hrun

theorem decodeLength_neverNull (st : Incoming) : decodeLength st ≠ .error .nullPointer := by
  intro hrun
  simp only [decodeLength] at hrun
  split at hrun
  · cases hrun
  · split at hrun
    · split at hrun
      · rcases bind_eq_error.mp hrun with hread | ⟨_, -, hrun⟩
        · exact neverNull_readByte true .standard _ hread
        · cases hrun
      · cases hrun
    · cases hrun

theorem dispatch_neverNull {c : ClientId} {st : Incoming} (h : Alive st.server c) :
    dispatch c st ≠ .error .nullPointer := by
  intro hrun
  obtain ⟨client, p, hc, -, -, hplayer, hp⟩ := h
  have hlive : st.server.lockPlayer client.player = some p := by
    rw [hplayer]
    exact Server.lockPlayer_of_registered hp
  simp only [dispatch] at hrun
  split at hrun
  · rcases bind_eq_error.mp hrun with hpacket | ⟨_, -, hrun⟩
    · exact neverNull_handlePacket hc hlive _ _ _ hpacket
    · cases hrun
  · cases hrun

/-- An iteration for a client whose player is registered dereferences no null pointer. -/
theorem packetIteration_neverNull {c : ClientId} {gen : Int} {st : Incoming}
    (h : Alive st.server c) : packetIteration c gen st ≠ .error .nullPointer := by
  intro hrun
  obtain ⟨client, p, hc, hstage, -⟩ := id h
  cases hmore : st.inStream.hasRemaining with
  | false =>
      simp only [packetIteration, hmore] at hrun
      cases hrun
  | true =>
      rw [packetIteration_parts hmore hc hstage] at hrun
      rcases bind_eq_error.mp hrun with hop | ⟨st₁, hop, hrun⟩
      · split at hop
        · exact decodeOpcode_neverNull h hop
        · cases hop
      rcases bind_eq_error.mp hrun with hlen | ⟨it₁, hlen, hrun⟩
      · split at hlen
        · exact decodeLength_neverNull _ hlen
        · cases hlen
      cases it₁ with
      | done st₂ => cases hrun
      | yield st₂ =>
          have hquiet : st.server.Quiet (ForInStep.yield st₂).value.server := by
            refine @quiet_header c st st₁ _ ?_ ?_
            · split at hop
              · exact .inl ⟨‹_›, hop⟩
              · exact .inr ⟨‹_›, (Except.ok.inj hop).symm⟩
            · split at hlen
              · exact .inl ⟨‹_›, hlen⟩
              · exact .inr ⟨‹_›, (Except.ok.inj hlen).symm⟩
          cases hd : dispatch c st₂ with
          | error e =>
              simp only [hd, Except.map] at hrun
              rw [Except.error.inj hrun] at hd
              exact dispatch_neverNull (h.quiet hquiet) hd
          | ok st₃ =>
              simp only [hd, Except.map] at hrun
              cases hrun

/-- Nor does any read of such a client. -/
theorem readIncomingData_neverNull {s : Server} (h : s.Sound) {c : ClientId} {client : Client}
    (hc : s.clients c = some client) (halive : Alive s c) (fuel : Nat) (now gen : Int)
    (data : List Byte) : readIncomingData fuel s c now gen data ≠ some (.error .nullPointer) := by
  intro hrun
  have hquiet := quiet_counted hc now
  simp only [readIncomingData, handleIncomingData, hc] at hrun
  split at hrun
  · have hfound : (counted s c client now).clients c = some (countPacket client now).1 :=
      Server.setClient_clients_self ..
    obtain ⟨s', hdisconnect, -⟩ := disconnect_outcome (h.quiet hquiet) hfound
    rw [counted] at hdisconnect
    rw [hdisconnect] at hrun
    cases hrun
  · obtain ⟨r, hr, hst⟩ := Option.map_eq_some_iff.mp hrun
    cases r with
    | ok st => cases hst
    | error e =>
        obtain rfl := Except.error.inj hst
        have hends : Ends (packetIteration c gen)
            { server := counted s c client now, inStream := ofData data }
            (.error .nullPointer) := ⟨fuel, hr⟩
        obtain ⟨st, hst, hfault⟩ := hends.exists_error (P := fun st => Alive st.server c)
          (fun a b ha hab => by
            obtain ⟨client, p, hc, hstage, -⟩ := id ha
            exact ha.quiet (quiet_packetIteration hc hstage hab))
          (halive.quiet hquiet)
        exact packetIteration_neverNull hst hfault

end Client
end AsioRsps
