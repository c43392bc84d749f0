import AsioRsps.PacketLoop

/-!
# Streams of packets

A client's encoding of a list of packets, and its reception in one read: every packet is
dispatched once, in order, with one key each, and nothing is left over.
-/
namespace AsioRsps
open BitStrings (Byte)
open StreamBuffer FallibleLoop
open Server (crowd crowdClient crowdDecryptor crowd_client)

namespace Client

/-- A packet as the client means it. -/
structure Packet where
  packetOpcode : Fin 256
  payload : List Byte

namespace Packet

def tableLength (pk : Packet) : Int := packetLengths[pk.packetOpcode.val]

/-- The payload has the length of the table, or one that fits the length byte, and a movement
packet has room for its path. -/
structure WellFormed (pk : Packet) : Prop where
  fixed : pk.tableLength ≠ -1 → (pk.payload.length : Int) = pk.tableLength
  sized : pk.tableLength = -1 → pk.payload.length ≤ 255
  walk : pk.packetOpcode = 98 ∨ pk.packetOpcode = 164 → 5 ≤ pk.payload.length
  minimap : pk.packetOpcode = 248 → 19 ≤ pk.payload.length

/-- The encrypted opcode, the length byte if there is one, and the payload. -/
def encode (cipher : ISAACCipher) (pk : Packet) : List Byte :=
  opcodeByte pk.packetOpcode.val cipher ::
    ((if pk.tableLength = -1 then [BitVec.ofNat 8 pk.payload.length] else []) ++ pk.payload)

/-- Packets encrypted with successive keys. -/
def encodeAll (cipher : ISAACCipher) : List Packet → List Byte
  | [] => []
  | pk :: pks => pk.encode cipher ++ encodeAll cipher.getNextKey.2 pks

/-- What the loop does for a packet. -/
def effects (pk : Packet) : List Effect :=
  [.drawKey, .dispatch (pk.packetOpcode.val : Int) pk.payload]

/-- The header of an encoded packet, with the payload behind it. -/
def header (pk : Packet) (rest : List Byte) : Header where
  packetOpcode := pk.packetOpcode.val
  packetLength := pk.payload.length
  rest

theorem openOpcode_encode (pk : Packet) (cipher : ISAACCipher) :
    openOpcode cipher (opcodeByte pk.packetOpcode.val cipher) = pk.packetOpcode.val :=
  openOpcode_opcodeByte cipher (by omega) (by have h := pk.packetOpcode.isLt; omega)

/-- The bytes before the payload are read as the packet's header. -/
theorem readHeader_encode {pk : Packet} (hwf : pk.WellFormed) (cipher : ISAACCipher)
    (rest : List Byte) :
    readHeader cipher (opcodeByte pk.packetOpcode.val cipher ::
      ((if pk.tableLength = -1 then [BitVec.ofNat 8 pk.payload.length] else []) ++ rest)) =
      some (pk.header rest) := by
  have htable : packetLengths[((pk.packetOpcode.val : Nat) : Int).toNat]? = some pk.tableLength :=
    Vector.getElem?_eq_getElem pk.packetOpcode.isLt
  simp only [readHeader, openOpcode_encode, htable]
  by_cases hvar : pk.tableLength = -1
  · have hle := hwf.sized hvar
    have hlength : (BitVec.ofNat 8 pk.payload.length).toNat = pk.payload.length := by
      rw [BitVec.toNat_ofNat]
      omega
    simp only [hvar, if_true, List.cons_append, List.nil_append, hlength]
    rfl
  · have hlength : pk.tableLength.toNat = pk.payload.length := by
      rw [← hwf.fixed hvar]
      rfl
    simp only [hvar, if_false, List.nil_append, hlength]
    rfl

theorem fits {pk : Packet} (hwf : pk.WellFormed) : Fits pk.packetOpcode.val pk.payload.length := by
  constructor
  · intro h
    apply hwf.walk
    rcases h with h | h
    · exact .inl (Fin.ext (by exact_mod_cast h))
    · exact .inr (Fin.ext (by exact_mod_cast h))
  · intro h
    have h19 := hwf.minimap (Fin.ext (by exact_mod_cast h))
    omega

end Packet

/-! ## Reception -/

/-- The loop between packets, for a client with a player. -/
structure Receiving (c : ClientId) (client : Client) (cipher : ISAACCipher) (p : PlayerId)
    (bytes : List Byte) (st : Incoming) : Prop extends Between c client cipher bytes st where
  player : st.server.lockPlayer client.player = some p

/-- A packet at the front is dispatched. -/
theorem receiving_packet {c : ClientId} (gen : Int) {client : Client} {cipher : ISAACCipher}
    {p : PlayerId} {pk : Packet} {tail : List Byte} {st : Incoming} (hwf : pk.WellFormed)
    (hst : Receiving c client cipher p (pk.encode cipher ++ tail) st) :
    ∃ st', Yields (packetIteration c gen) st st' ∧
      Receiving c (keyDrawn client cipher) cipher.getNextKey.2 p tail st' ∧
      st'.effects = st.effects ++ pk.effects := by
  have hh : readHeader cipher (pk.encode cipher ++ tail) =
      some (pk.header (pk.payload ++ tail)) := by
    rw [Packet.encode, List.cons_append, List.append_assoc]
    exact Packet.readHeader_encode hwf cipher (pk.payload ++ tail)
  have hlen : (pk.header (pk.payload ++ tail)).packetLength ≤
      (pk.header (pk.payload ++ tail)).rest.length := by
    simp only [Packet.header, List.length_append]
    omega
  obtain ⟨hrest, -⟩ := behindHeader_rest hst.toBetween hh
  have hfound : (st.server.setClient c (keyDrawn client cipher)).clients c =
      some (keyDrawn client cipher) := Server.setClient_clients_self ..
  have hlock : (st.server.setClient c (keyDrawn client cipher)).lockPlayer
      (keyDrawn client cipher).player = some p := hst.player
  have hrun := handlePacket_fits hfound hlock (Packet.fits hwf) hrest
  have hsame : Undisturbed (st.server.setClient c (keyDrawn client cipher))
      (handled (st.server.setClient c (keyDrawn client cipher)) p pk.packetOpcode.val
        pk.payload) := by
    simp only [handled]
    split
    · exact undisturbed_handled _ _
    · exact ⟨rfl, rfl⟩
  have hnext := between_next (st.effects ++ pk.effects) hst.toBetween hh hlen hsame
  have hdrop : (pk.header (pk.payload ++ tail)).rest.drop
      (pk.header (pk.payload ++ tail)).packetLength = tail := by
    simp only [Packet.header, List.drop_left']
  have htake : (pk.header (pk.payload ++ tail)).rest.take
      (pk.header (pk.payload ++ tail)).packetLength = pk.payload := by
    simp only [Packet.header, List.take_left']
  have hyield := (packetIteration_packet gen hst.toBetween hh hlen).1 hrun
  rw [hdrop] at hnext
  rw [htake] at hyield
  refine ⟨_, hyield, ⟨hnext, ?_⟩, rfl⟩
  change (handled _ _ _ _).lockPlayer _ = _
  rw [hsame.lockPlayer]
  exact hlock

/-- The client after drawing some keys. -/
def keysDrawn (client : Client) (cipher : ISAACCipher) (n : Nat) : Client :=
  { client with decryptor := some (cipher.advance n) }

/-- All packets at the front are dispatched in order. -/
theorem receiving_packets {c : ClientId} (gen : Int) {client : Client} {cipher : ISAACCipher}
    {p : PlayerId} {pks : List Packet} {tail : List Byte} {st : Incoming}
    (hwf : ∀ pk ∈ pks, pk.WellFormed)
    (hst : Receiving c client cipher p (Packet.encodeAll cipher pks ++ tail) st) :
    ∃ st', Reaches (packetIteration c gen) st st' ∧
      Receiving c (keysDrawn client cipher pks.length) (cipher.advance pks.length) p tail st' ∧
      st'.effects = st.effects ++ pks.flatMap Packet.effects := by
  induction pks generalizing client cipher st with
  | nil =>
      refine ⟨st, .refl, ?_, by simp⟩
      have hclient : keysDrawn client cipher 0 = client := by
        rw [keysDrawn, ISAACCipher.advance_zero, ← hst.decryptor]
      rw [List.length_nil, hclient]
      exact hst
  | cons pk pks ih =>
      rw [Packet.encodeAll, List.append_assoc] at hst
      obtain ⟨st₁, hyield, hst₁, heffects₁⟩ := receiving_packet gen
        (hwf pk List.mem_cons_self) hst
      obtain ⟨st', hreach, hst', heffects⟩ := ih (fun q hq => hwf q (List.mem_cons_of_mem pk hq))
        hst₁
      refine ⟨st', .head hyield hreach, hst', ?_⟩
      rw [heffects, heffects₁, List.flatMap_cons, List.append_assoc]

/-! ## One read -/

/-- The rate limit changes its own counters and nothing else. -/
theorem countPacket_eq (client : Client) (now : Int) :
    (countPacket client now).1 = { client with
      packetsThisSecond := (countPacket client now).1.packetsThisSecond
      lastPacketSecond := (countPacket client now).1.lastPacketSecond
      lastActivityTime := now } := by
  simp only [countPacket]
  split_ifs <;> rfl

/-- The count starts again or goes on. -/
theorem countPacket_count (client : Client) (now : Int) :
    (countPacket client now).1.packetsThisSecond = (0 + 1) % 2 ^ 32 ∨
      (countPacket client now).1.packetsThisSecond = (client.packetsThisSecond + 1) % 2 ^ 32 := by
  simp only [countPacket]
  split_ifs
  · exact .inl rfl
  · exact .inr rfl
  · exact .inl rfl
  · exact .inr rfl

theorem countPacket_fields (client : Client) (now : Int) :
    (countPacket client now).1.stage = client.stage ∧
      (countPacket client now).1.decryptor = client.decryptor ∧
      (countPacket client now).1.player = client.player := by
  rw [countPacket_eq]
  exact ⟨rfl, rfl, rfl⟩

/-- The loop as a read enters it. -/
theorem receiving_start {s : Server} {c : ClientId} {client : Client} {cipher : ISAACCipher}
    {p : PlayerId} (hstage : client.stage = .loggedIn) (hd : client.decryptor = some cipher)
    (hp : s.lockPlayer client.player = some p) (now : Int) (data : List Byte) :
    Receiving c (countPacket client now).1 cipher p data
      { server := s.setClient c (countPacket client now).1, inStream := ofData data } := by
  obtain ⟨h1, h2, h3⟩ := countPacket_fields client now
  refine ⟨⟨Server.setClient_clients_self .., h1.trans hstage, h2.trans hd, rfl, rfl,
    rest_ofData data, Nat.zero_le _⟩, ?_⟩
  rw [h3]
  exact hp

/-- A read that does not flood runs the loop and then clears the buffer. -/
theorem handleIncomingData_of_ends {s : Server} {c : ClientId} {client : Client} {now gen : Int}
    {b : StreamBuffer} {r : Except Fault Incoming} (hc : s.clients c = some client)
    (hflood : (countPacket client now).2 = false)
    (h : Ends (packetIteration c gen)
      { server := s.setClient c (countPacket client now).1, inStream := b } r) :
    ∃ fuel, handleIncomingData fuel s c now gen b =
      some (r.map fun st =>
        { st with inStream := { st.inStream with buffer := [], pos := 0 } }) := by
  obtain ⟨fuel, hrun⟩ := h
  refine ⟨fuel, ?_⟩
  simp only [handleIncomingData, hc, hflood, hrun]
  rfl

/-- The packets dispatched, with their payloads. -/
def dispatched (effects : List Effect) : List (Int × List Byte) :=
  effects.filterMap fun e => match e with
    | .drawKey => none
    | .dispatch packetOpcode payload => some (packetOpcode, payload)

/-- How far the keystream has been used. -/
def keysUsed (effects : List Effect) : Nat := effects.count .drawKey

theorem dispatched_effects (pks : List Packet) :
    dispatched (pks.flatMap Packet.effects) =
      pks.map fun pk => ((pk.packetOpcode.val : Int), pk.payload) := by
  induction pks with
  | nil => rfl
  | cons pk pks ih =>
      simp only [List.flatMap_cons, List.map_cons, ← ih]
      rfl

theorem keysUsed_effects (pks : List Packet) :
    keysUsed (pks.flatMap Packet.effects) = pks.length := by
  induction pks with
  | nil => rfl
  | cons pk pks ih =>
      rw [keysUsed] at ih
      rw [keysUsed, List.flatMap_cons, List.count_append, ih, List.length_cons, Nat.add_comm]
      rfl

/-- A whole encoding in one read: each packet is dispatched once, in order, with its opcode and
its payload, one key is drawn for each, and no byte is left over. -/
theorem handleIncomingData_packets {s : Server} {c : ClientId} {client : Client}
    {cipher : ISAACCipher} {p : PlayerId} (hc : s.clients c = some client)
    (hstage : client.stage = .loggedIn) (hd : client.decryptor = some cipher)
    (hp : s.lockPlayer client.player = some p) {pks : List Packet}
    (hwf : ∀ pk ∈ pks, pk.WellFormed) {now : Int} (hflood : (countPacket client now).2 = false)
    (gen : Int) :
    ∃ st client', Ends (packetIteration c gen)
        { server := s.setClient c (countPacket client now).1
          inStream := ofData (Packet.encodeAll cipher pks) } (.ok st) ∧
      st.inStream.rest = [] ∧
      dispatched st.effects = pks.map (fun pk => ((pk.packetOpcode.val : Int), pk.payload)) ∧
      keysUsed st.effects = pks.length ∧ st.server.clients c = some client' ∧
      client'.decryptor = some (cipher.advance pks.length) ∧
      ∃ fuel, handleIncomingData fuel s c now gen (ofData (Packet.encodeAll cipher pks)) =
        some (.ok { st with inStream := { st.inStream with buffer := [], pos := 0 } }) := by
  have hstart := receiving_start (c := c) hstage hd hp now (Packet.encodeAll cipher pks)
  rw [← List.append_nil (Packet.encodeAll cipher pks)] at hstart
  obtain ⟨st, hreach, hst, heffects⟩ := receiving_packets gen hwf hstart
  rw [List.append_nil] at hreach
  have hends : Ends (packetIteration c gen) _ (.ok st) :=
    (ends_iff_of_reaches hreach _).mpr (ends_of_done (packetIteration_nil hst.rest))
  rw [List.nil_append] at heffects
  exact ⟨st, _, hends, hst.rest, by rw [heffects, dispatched_effects],
    by rw [heffects, keysUsed_effects], hst.found, rfl, handleIncomingData_of_ends hc hflood hends⟩

/-- A packet of eight bytes. -/
def eightBytes : Packet := ⟨14, List.replicate 8 1⟩

def somePackets : List Packet := [eightBytes, ⟨98, List.replicate 5 0⟩, ⟨0, []⟩]

theorem somePackets_wellFormed : ∀ pk ∈ somePackets, pk.WellFormed := by
  have hlengths : packetLengths[14] = 8 ∧ packetLengths[98] = -1 ∧ packetLengths[0] = 0 := by
    decide +kernel
  obtain ⟨h14, h98, h0⟩ := hlengths
  intro pk hpk
  simp only [somePackets, List.mem_cons, List.not_mem_nil, or_false] at hpk
  rcases hpk with rfl | rfl | rfl
  · exact ⟨fun _ => h14.symm, fun _ => by decide, fun h => absurd h (by decide),
      fun h => absurd h (by decide)⟩
  · exact ⟨fun h => absurd h98 h, fun _ => by decide, fun _ => by decide, fun h => by simp at h⟩
  · exact ⟨fun _ => h0.symm, fun _ => by decide, fun h => by simp at h, fun h => by simp at h⟩

theorem crowd_receives_packets :
    ∃ st client', Ends (packetIteration 0 0)
        { server := (crowd 0).setClient 0 (countPacket (crowdClient 0) 5).1
          inStream := ofData (Packet.encodeAll crowdDecryptor somePackets) } (.ok st) ∧
      st.inStream.rest = [] ∧
      dispatched st.effects =
        somePackets.map (fun pk => ((pk.packetOpcode.val : Int), pk.payload)) ∧
      keysUsed st.effects = somePackets.length ∧ st.server.clients 0 = some client' ∧
      client'.decryptor = some (crowdDecryptor.advance somePackets.length) ∧
      ∃ fuel, handleIncomingData fuel (crowd 0) 0 5 0
        (ofData (Packet.encodeAll crowdDecryptor somePackets)) =
          some (.ok { st with inStream := { st.inStream with buffer := [], pos := 0 } }) :=
  handleIncomingData_packets (crowd_client (Nat.le_refl 0)) rfl rfl (crowd_lockPlayer 0)
    somePackets_wellFormed (by decide) 0

end Client
end AsioRsps
