import AsioRsps.FloodControl
import AsioRsps.Population
import AsioRsps.RouteRuns

/-!
# What a read does to a player

The packets of a read are handled one after another, and of the movement packets among them the
last one counts.
-/
namespace AsioRsps
open BitStrings (Byte)
open StreamBuffer KingPaths LabelledRuns MovementHandler
open FallibleLoop (Yields Reaches Ends ends_iff_of_reaches ends_of_done)

namespace Client

/-! ## The packets of a read -/

/-- The player after a packet. -/
def packetHandled (player : Player) (pk : Packet) : Player :=
  if IsMovement pk.packetOpcode.val then
    walkPayload player (movementSteps pk.packetOpcode.val pk.payload.length).toNat pk.payload
  else player

theorem handled_player (s : Server) (p : PlayerId) (pk : Packet) :
    (handled s p pk.packetOpcode.val pk.payload).players p = packetHandled (s.players p) pk := by
  rw [handled, packetHandled]
  split
  · rw [Server.modifyPlayer, Server.setPlayer_players_self]
  · rfl

theorem receiving_player {c : ClientId} (gen : Int) {client : Client} {cipher : ISAACCipher}
    {p : PlayerId} {pk : Packet} {tail : List Byte} {st : Incoming} (hwf : pk.WellFormed)
    (hst : Receiving c client cipher p (pk.encode cipher ++ tail) st) :
    ∃ st', Yields (packetIteration c gen) st st' ∧
      Receiving c (keyDrawn client cipher) cipher.getNextKey.2 p tail st' ∧
      st'.server.players p = packetHandled (st.server.players p) pk := by
  obtain ⟨st', hyield, hst', -⟩ := receiving_packet gen hwf hst
  refine ⟨st', hyield, hst', ?_⟩
  have hh : readHeader cipher (pk.encode cipher ++ tail) =
      some (pk.header (pk.payload ++ tail)) := by
    rw [Packet.encode, List.cons_append, List.append_assoc]
    exact Packet.readHeader_encode hwf cipher (pk.payload ++ tail)
  have hlen : (pk.header (pk.payload ++ tail)).packetLength ≤
      (pk.header (pk.payload ++ tail)).rest.length := by
    simp only [Packet.header, List.length_append]
    omega
  obtain ⟨hrest, -⟩ := behindHeader_rest hst.toBetween hh
  have hfound : (st.server.setClient c (keyDrawn client cipher)).clients c =
      some (keyDrawn client cipher) := Server.setClient_clients_self ..
  have hlock : (st.server.setClient c (keyDrawn client cipher)).lockPlayer
      (keyDrawn client cipher).player = some p := hst.player
  have hrun := handlePacket_fits hfound hlock (Packet.fits hwf) hrest
  have hyield' := (packetIteration_packet gen hst.toBetween hh hlen).1 hrun
  obtain rfl := ForInStep.yield.inj (Except.ok.inj (hyield.symm.trans hyield'))
  exact handled_player _ p pk

theorem receiving_players {c : ClientId} (gen : Int) {client : Client} {cipher : ISAACCipher}
    {p : PlayerId} {pks : List Packet} {tail : List Byte} {st : Incoming}
    (hwf : ∀ pk ∈ pks, pk.WellFormed)
    (hst : Receiving c client cipher p (Packet.encodeAll cipher pks ++ tail) st) :
    ∃ st' client' cipher', Reaches (packetIteration c gen) st st' ∧
      Receiving c client' cipher' p tail st' ∧
      st'.server.players p = pks.foldl packetHandled (st.server.players p) := by
  induction pks generalizing client cipher st with
  | nil => exact ⟨st, client, cipher, .refl, hst, rfl⟩
  | cons pk pks ih =>
      rw [Packet.encodeAll, List.append_assoc] at hst
      obtain ⟨st₁, hyield, hst₁, hplayer₁⟩ := receiving_player gen (hwf pk List.mem_cons_self) hst
      obtain ⟨st', client', cipher', hreach, hst', hplayer⟩ :=
        ih (fun q hq => hwf q (List.mem_cons_of_mem pk hq)) hst₁
      refine ⟨st', client', cipher', .head hyield hreach, hst', ?_⟩
      rw [hplayer, hplayer₁]
      rfl

/-- A read of whole packets has them handled, in their order. -/
theorem readIncomingData_player {s : Server} {c : ClientId} {client : Client}
    {cipher : ISAACCipher} {p : PlayerId} (hc : s.clients c = some client)
    (hstage : client.stage = .loggedIn) (hd : client.decryptor = some cipher)
    (hp : s.lockPlayer client.player = some p) {pks : List Packet}
    (hwf : ∀ pk ∈ pks, pk.WellFormed) {now gen : Int}
    (hflood : (countPacket client now).2 = false) {fuel : Nat} {st : Incoming}
    (h : readIncomingData fuel s c now gen (Packet.encodeAll cipher pks) = some (.ok st)) :
    st.server.players p = pks.foldl packetHandled (s.players p) := by
  obtain ⟨last, hends, hserver, -⟩ := readIncomingData_ends hc hflood h
  have hstart := receiving_start (c := c) hstage hd hp now (Packet.encodeAll cipher pks)
  rw [← List.append_nil (Packet.encodeAll cipher pks)] at hstart
  obtain ⟨st', _, _, hreach, hst', hplayer⟩ := receiving_players gen hwf hstart
  rw [List.append_nil] at hreach
  have hends' : Ends (packetIteration c gen) _ (.ok st') :=
    (ends_iff_of_reaches hreach _).mpr (ends_of_done (packetIteration_nil hst'.rest))
  obtain rfl := Except.ok.inj (hends.unique hends')
  rw [hserver, hplayer]
  rfl

/-! ## The last movement packet -/

theorem walkPayload_others (player : Player) (n : Nat) (payload : List Byte) :
    ∃ m, walkPayload player n payload = { player with movementHandler := m } := by
  unfold walkPayload
  split
  · split
    · exact ⟨_, rfl⟩
    · exact ⟨_, rfl⟩
  · exact ⟨_, rfl⟩

theorem foldl_packetHandled_others (pks : List Packet) (player : Player) :
    ∃ m, pks.foldl packetHandled player = { player with movementHandler := m } := by
  induction pks generalizing player with
  | nil => exact ⟨_, rfl⟩
  | cons pk pks ih =>
      have hone : ∃ m, packetHandled player pk = { player with movementHandler := m } := by
        rw [packetHandled]
        split
        · exact walkPayload_others player _ pk.payload
        · exact ⟨_, rfl⟩
      obtain ⟨m, hm⟩ := hone
      obtain ⟨m', hm'⟩ := ih (packetHandled player pk)
      exact ⟨m', by rw [List.foldl_cons, hm', hm]⟩

theorem foldl_packetHandled_idle {pks : List Packet}
    (h : ∀ pk ∈ pks, ¬ IsMovement pk.packetOpcode.val) (player : Player) :
    pks.foldl packetHandled player = player := by
  induction pks with
  | nil => rfl
  | cons pk pks ih =>
      rw [List.foldl_cons, packetHandled, if_neg (h pk List.mem_cons_self)]
      exact ih fun q hq => h q (List.mem_cons_of_mem pk hq)

theorem packetHandled_routed {player : Player} {pk : Packet} (hwf : pk.WellFormed)
    (hop : IsMovement pk.packetOpcode.val) (hposition : OnMap player.position)
    (htiles : ∀ tile ∈ movementTiles pk.packetOpcode.val pk.payload, OnMap tile) :
    packetHandled player pk = routedPlayer player pk.packetOpcode.val pk.payload := by
  obtain ⟨n, hsteps, hlength⟩ := fits_steps hop (Packet.fits hwf)
  have hnat : (movementSteps pk.packetOpcode.val pk.payload.length).toNat = n := by
    rw [hsteps, Int.toNat_natCast]
  simp only [movementTiles, hnat] at htiles
  rw [packetHandled, if_pos hop, hnat, walkPayload_tiles _ hlength,
    walkPath_route _ hposition htiles]
  simp only [routedPlayer, movementTiles, movementRuns, hnat]

/-- Only the last movement packet of a read counts. -/
theorem foldl_packetHandled_routed {player : Player} {before after : List Packet} {pk : Packet}
    (hwf : pk.WellFormed) (hop : IsMovement pk.packetOpcode.val)
    (hafter : ∀ q ∈ after, ¬ IsMovement q.packetOpcode.val) (hposition : OnMap player.position)
    (htiles : ∀ tile ∈ movementTiles pk.packetOpcode.val pk.payload, OnMap tile) :
    ∃ m : MovementHandler, (before ++ pk :: after).foldl packetHandled player =
      routedPlayer { player with movementHandler := m } pk.packetOpcode.val pk.payload := by
  obtain ⟨m, hm⟩ := foldl_packetHandled_others before player
  refine ⟨m, ?_⟩
  rw [List.foldl_append, List.foldl_cons, foldl_packetHandled_idle hafter, hm]
  exact packetHandled_routed hwf hop hposition htiles

end Client

/-! ## A player on its way -/

namespace Server
open Client

/-- Two tiles east, running. -/
def eastPacket : Packet where
  packetOpcode := ⟨98, Nat.le_add_left 99 157⟩
  payload := [2, 12, 128, 12, 255]

theorem eastPacket_wellFormed : eastPacket.WellFormed := by
  have hlength : packetLengths[98] = -1 := by decide +kernel
  exact ⟨fun h => absurd hlength h, fun _ => by decide, fun _ => by decide,
    fun h => absurd h (by decide)⟩

theorem encode_eastPacket_length (cipher : ISAACCipher) :
    (Packet.encodeAll cipher [eastPacket]).length ≤ 512 := by
  have hone : ((if eastPacket.tableLength = -1 then
      [BitVec.ofNat 8 eastPacket.payload.length] else []) : List Byte).length ≤ 1 := by
    split <;> decide
  change (eastPacket.encode cipher ++ []).length ≤ 512
  rw [List.append_nil, Packet.encode, List.length_cons, List.length_append]
  change _ + 5 + 1 ≤ 512
  omega

/-- A newcomer sends a movement packet, and is still registered. -/
structure Eastbound (s s₁ : Server) (client : Client) (cipher : ISAACCipher) (p : PlayerId) :
    Prop where
  reachable : Reachable Step initial s
  fresh : s.Fresh 0 client p
  decryptor : client.decryptor = some cipher
  calm : (countPacket client 1).2 = false
  read : Step s (.receive 0 1 0 (Packet.encodeAll cipher [eastPacket])) s₁
  stays : p ∈ s₁.registered
  routed : s₁.players p = routedPlayer (s.players p) 98 eastPacket.payload

theorem exists_eastbound : ∃ s s₁ client cipher p, Eastbound s s₁ client cipher p := by
  obtain ⟨s, hfilled, hfresh⟩ := exists_fresh 1 (by decide)
  obtain ⟨client, p, hnew⟩ := hfresh 0 Nat.one_pos
  obtain ⟨_, -, -, -, hdec, -⟩ :=
    ((reachable_sound hfilled.reachable).clients 0 client hnew.found).session hnew.stage
  obtain ⟨cipher, hcipher⟩ := Option.isSome_iff_exists.mp hdec
  have hlock : s.lockPlayer client.player = some p := by
    rw [hnew.player]
    exact lockPlayer_of_registered hnew.registered
  have hflood := (countPacket_calm (Nat.lt_of_le_of_lt hnew.few (by decide)) 1).1
  have hwf : ∀ q ∈ [eastPacket], q.WellFormed :=
    fun q hq => List.mem_singleton.mp hq ▸ eastPacket_wellFormed
  let r : Client.Read := ⟨1, 0, Packet.encodeAll cipher [eastPacket]⟩
  obtain ⟨fuel, st, hread, -⟩ := readIncomingData_aligned (r := r) hnew.found hnew.stage hcipher
    hlock hwf hflood rfl
  have hplayer := readIncomingData_player hnew.found hnew.stage hcipher hlock hwf hflood hread
  rw [List.foldl_cons, List.foldl_nil, packetHandled_routed eastPacket_wellFormed (by decide)
    (hnew.position ▸ by decide) (by decide)] at hplayer
  refine ⟨s, st.server, client, cipher, p, hfilled.reachable, hnew, hcipher, hflood,
    .receive (List.cons_ne_nil _ _) (encode_eastPacket_length cipher) hread, ?_, hplayer⟩
  cases readIncomingData_outcome hnew.found (List.cons_ne_nil _ _) hread with
  | flood hover _ => cases hflood.symm.trans hover
  | packets _ _ hquiet => exact (mem_registered_congr hquiet.lookup).mpr hnew.registered
  | login _ hnot _ => exact absurd hnew.stage hnot

theorem Eastbound.position {s s₁ : Server} {client : Client} {cipher : ISAACCipher} {p : PlayerId}
    (h : Eastbound s s₁ client cipher p) : (s₁.players p).position = { x := 3200, y := 3200 } := by
  rw [h.routed]
  exact h.fresh.position

/-- One tick later it is there. -/
theorem Eastbound.arrives {s s₁ s₂ : Server} {client : Client} {cipher : ISAACCipher}
    {p : PlayerId} (h : Eastbound s s₁ client cipher p) (hprocess : World.process s₁ = .ok s₂) :
    AtTile (s₂.players p).position ⟨3202, 3200⟩ := by
  have hsound := reachable_sound (h.reachable.snoc h.read)
  have hticks : Ticks p s₁ 1 s₂ := Ticks.start.tick hsound.registered_nodup h.stays hprocess
  have hroute : Routed s₁ p (tileOf (s.players p).position)
      (routeOf (s.players p).position (movementTiles 98 eastPacket.payload)) := by
    refine routed_of_queued ?_ ((kingMoves_path _ _).take 99) ?_
    · rw [h.routed]
      exact atTile_tileOf _
    · rw [h.routed]
      rfl
  have hruns : (s₁.players p).movementHandler.runPath = true := by
    rw [h.routed]
    exact (by decide : movementRuns 98 eastPacket.payload = true)
  have hstride : (s₁.players p).movementHandler.stride = 2 := by
    rw [stride, hruns, Bool.or_true]
    rfl
  have harrives := hroute.arrives _ _ hticks
  rw [hstride, h.fresh.position] at harrives
  exact (harrives (by decide)).1

end Server
end AsioRsps
