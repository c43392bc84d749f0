import AsioRsps.PacketStream

/-!
# A stream cut into reads

The bytes of a packet that arrive in different reads are not put together again: the pending
opcode and length are locals of one read, and the buffer is cleared at its end. Reads that
end between packets are received as one read would be; any other cut draws a key for a packet
that is never dispatched, or never returns.
-/
namespace AsioRsps
open BitStrings (Byte)
open StreamBuffer FallibleLoop
open Server (crowd crowdClient crowdDecryptor crowd_client)

namespace Client

/-- One completed read: when it is handled, the random number a login would draw, and its
bytes. -/
structure Read where
  now : Int
  gen : Int
  data : List Byte

/-- The reads are handled one after another and every call returns. -/
inductive Feeds (c : ClientId) : Server → List Read → List Effect → Server → Prop where
  | nil (s : Server) : Feeds c s [] [] s
  | cons {s s' : Server} {r : Read} {rs : List Read} {fuel : Nat} {st : Incoming}
      {effects : List Effect} :
      readIncomingData fuel s c r.now r.gen r.data = some (.ok st) →
      Feeds c st.server rs effects s' → Feeds c s (r :: rs) (st.effects ++ effects) s'

/-- No read of the list reaches the flood limit. -/
def BelowFlood (client : Client) : List Read → Prop
  | [] => True
  | r :: rs => (countPacket client r.now).2 = false ∧ BelowFlood (countPacket client r.now).1 rs

/-- A way of cutting the stream into reads of a socket buffer, below the flood limit. -/
structure Cut (client : Client) (stream : List Byte) (reads : List Read) : Prop where
  data : reads.flatMap Read.data = stream
  sizes : ∀ r ∈ reads, r.data ≠ [] ∧ r.data.length ≤ 512
  below : BelowFlood client reads

/-- Every read ends where a packet ends. -/
inductive Aligned : ISAACCipher → List Packet → List Read → Prop where
  | nil (cipher : ISAACCipher) : Aligned cipher [] []
  | cons {cipher : ISAACCipher} {qs pks : List Packet} {r : Read} {rs : List Read} :
      r.data = Packet.encodeAll cipher qs → Aligned (cipher.advance qs.length) pks rs →
      Aligned cipher (qs ++ pks) (r :: rs)

/-- Both cuts are received, with the same packets dispatched in the same order and the
decryptor left at the same position. -/
def SameReception (s : Server) (c : ClientId) (reads reads' : List Read) : Prop :=
  ∃ effects effects' t t', Feeds c s reads effects t ∧ Feeds c s reads' effects' t' ∧
    dispatched effects = dispatched effects' ∧ keysUsed effects = keysUsed effects' ∧
    (t.clients c).map Client.decryptor = (t'.clients c).map Client.decryptor

/-! ## Keys and packets -/

theorem dispatched_append (effects effects' : List Effect) :
    dispatched (effects ++ effects') = dispatched effects ++ dispatched effects' :=
  List.filterMap_append

theorem keysUsed_append (effects effects' : List Effect) :
    keysUsed (effects ++ effects') = keysUsed effects + keysUsed effects' :=
  List.count_append

/-- A header has been decoded, with a key more drawn than packets dispatched. -/
def Pending (st : Incoming) : Prop :=
  st.packetOpcode ≠ -1 ∧ (dispatched st.effects).length < keysUsed st.effects

/-- A key has been drawn for every packet dispatched and for the one pending. -/
def Covered (st : Incoming) : Prop :=
  (dispatched st.effects).length ≤ keysUsed st.effects ∧ (st.packetOpcode ≠ -1 → Pending st)

theorem decodeOpcode_pending {c : ClientId} {st st' : Incoming} (h : Covered st)
    (hrun : decodeOpcode c st = .ok st') : Pending st' := by
  simp only [decodeOpcode, bind, Except.bind] at hrun
  split at hrun
  · cases hrun
  · split at hrun
    · cases hrun
    · split at hrun
      · cases hrun
      · obtain rfl := Except.ok.inj hrun
        constructor
        · simp only [ne_eq]
          omega
        · have hkey : keysUsed [.drawKey] = 1 := rfl
          have hnone : dispatched [.drawKey] = [] := rfl
          simp only [dispatched_append, keysUsed_append, hkey, hnone, List.append_nil]
          exact Nat.lt_succ_of_le h.1

theorem decodeLength_pending {st : Incoming} {it : ForInStep Incoming} (h : Pending st)
    (hrun : decodeLength st = .ok it) : Pending it.value := by
  simp only [decodeLength] at hrun
  split at hrun
  · cases hrun
  · split at hrun
    · split at hrun
      · simp only [bind, Except.bind] at hrun
        split at hrun
        · cases hrun
        · obtain rfl := Except.ok.inj hrun
          exact h
      · obtain rfl := Except.ok.inj hrun
        exact h
    · obtain rfl := Except.ok.inj hrun
      exact h

theorem covered_of_pending {st : Incoming} (h : Pending st) : Covered st :=
  ⟨Nat.le_of_lt h.2, fun _ => h⟩

theorem dispatch_covered {c : ClientId} {st st' : Incoming} (h : Pending st)
    (hrun : dispatch c st = .ok st') : Covered st' := by
  simp only [dispatch] at hrun
  split at hrun
  · simp only [bind, Except.bind] at hrun
    split at hrun
    · cases hrun
    · obtain rfl := Except.ok.inj hrun
      constructor
      · have hone (op : Int) (payload : List Byte) :
            (dispatched [.dispatch op payload]).length = 1 := rfl
        have hkey (op : Int) (payload : List Byte) : keysUsed [.dispatch op payload] = 0 := rfl
        simp only [dispatched_append, keysUsed_append, List.length_append, hone, hkey]
        exact h.2
      · exact fun hne => absurd rfl hne
  · obtain rfl := Except.ok.inj hrun
    exact covered_of_pending h

theorem packetIteration_covered {c : ClientId} {gen : Int} {st : Incoming}
    {it : ForInStep Incoming} (h : Covered st) (hrun : packetIteration c gen st = .ok it) :
    Covered it.value := by
  cases packetIteration_inv hrun with
  | empty _ => exact h
  | login _ _ _ => exact h
  | @packet _ st₁ it₁ _ _ _ hopcode hlength hdispatch =>
      have h₁ : Pending st₁ := by
        rcases hopcode with ⟨-, hop⟩ | ⟨hne, rfl⟩
        · exact decodeOpcode_pending h hop
        · exact h.2 hne
      have h₂ : Pending it₁.value := by
        rcases hlength with ⟨-, hlen⟩ | ⟨-, rfl⟩
        · exact decodeLength_pending h₁ hlen
        · exact h₁
      rcases hdispatch with ⟨st₂, rfl, rfl⟩ | ⟨st₂, st₃, rfl, hd, rfl⟩
      · exact covered_of_pending h₂
      · exact dispatch_covered h₂ hd

/-- The effects of a read, however it goes: those of the loop, or none. -/
theorem readIncomingData_effects {P : List Effect → Prop} {fuel : Nat} {s : Server} {c : ClientId}
    {now gen : Int} {data : List Byte} {st : Incoming}
    (h : readIncomingData fuel s c now gen data = some (.ok st)) (hnil : P [])
    (hloop : ∀ s' st', Ends (packetIteration c gen) { server := s', inStream := ofData data }
      (.ok st') → P st'.effects) : P st.effects := by
  simp only [readIncomingData, handleIncomingData] at h
  split at h
  · cases h
  · split at h
    · obtain ⟨server, -, rfl⟩ := map_eq_ok.mp (Option.some.inj h)
      exact hnil
    · obtain ⟨r, hr, hst⟩ := Option.map_eq_some_iff.mp h
      obtain ⟨st', rfl, rfl⟩ := map_eq_ok.mp hst
      exact hloop _ st' ⟨fuel, hr⟩

/-- However the reads are cut, no more packets are dispatched than keys drawn. -/
theorem feeds_covered {c : ClientId} {s t : Server} {reads : List Read} {effects : List Effect}
    (h : Feeds c s reads effects t) : (dispatched effects).length ≤ keysUsed effects := by
  induction h with
  | nil s => exact Nat.le_refl 0
  | @cons s t r rs fuel st effects hread _ ih =>
      have hfirst : (dispatched st.effects).length ≤ keysUsed st.effects := by
        refine readIncomingData_effects (P := fun e => (dispatched e).length ≤ keysUsed e) hread
          (Nat.le_refl 0) fun s' st' hends => ?_
        have hcovered := hends.invariant (P := Covered) (Q := Covered)
          (fun _ _ ha hab => packetIteration_covered ha hab)
          (fun _ _ ha hab => packetIteration_covered ha hab)
          ⟨Nat.le_refl 0, fun hne => absurd rfl hne⟩
        exact hcovered.1
      rw [dispatched_append, keysUsed_append, List.length_append]
      omega

/-! ## Reads that end between packets -/

/-- The client after a read that took `n` keys. -/
def afterRead (client : Client) (cipher : ISAACCipher) (now : Int) (n : Nat) : Client :=
  keysDrawn (countPacket client now).1 cipher n

theorem readIncomingData_aligned {s : Server} {c : ClientId} {client : Client}
    {cipher : ISAACCipher} {p : PlayerId} (hc : s.clients c = some client)
    (hstage : client.stage = .loggedIn) (hd : client.decryptor = some cipher)
    (hp : s.lockPlayer client.player = some p) {qs : List Packet}
    (hwf : ∀ pk ∈ qs, pk.WellFormed) {r : Read} (hflood : (countPacket client r.now).2 = false)
    (hr : r.data = Packet.encodeAll cipher qs) :
    ∃ fuel st, readIncomingData fuel s c r.now r.gen r.data = some (.ok st) ∧
      st.effects = qs.flatMap Packet.effects ∧
      st.server.clients c = some (afterRead client cipher r.now qs.length) ∧
      st.server.lockPlayer client.player = some p := by
  have hstart := receiving_start (c := c) hstage hd hp r.now r.data
  rw [hr, ← List.append_nil (Packet.encodeAll cipher qs)] at hstart
  obtain ⟨st, hreach, hst, heffects⟩ := receiving_packets r.gen hwf hstart
  rw [List.append_nil, ← hr] at hreach
  have hends : Ends (packetIteration c r.gen) _ (.ok st) :=
    (ends_iff_of_reaches hreach _).mpr (ends_of_done (packetIteration_nil hst.rest))
  obtain ⟨fuel, hrun⟩ := handleIncomingData_of_ends hc hflood hends
  refine ⟨fuel, _, hrun, heffects, hst.found, ?_⟩
  have hplayer := hst.player
  rwa [keysDrawn, (countPacket_fields client r.now).2.2] at hplayer

/-- The counters of the rate limit decide which reads flood. -/
theorem belowFlood_congr {client client' : Client} {reads : List Read}
    (h : BelowFlood client reads) (hcount : client'.packetsThisSecond = client.packetsThisSecond)
    (hlast : client'.lastPacketSecond = client.lastPacketSecond) : BelowFlood client' reads := by
  induction reads generalizing client client' with
  | nil => trivial
  | cons r rs ih =>
      have hsame : (countPacket client' r.now).1.packetsThisSecond =
            (countPacket client r.now).1.packetsThisSecond ∧
          (countPacket client' r.now).1.lastPacketSecond =
            (countPacket client r.now).1.lastPacketSecond ∧
          (countPacket client' r.now).2 = (countPacket client r.now).2 := by
        by_cases h0 : client.lastPacketSecond = 0
        · simp only [countPacket, h0, hlast.trans h0, if_true, hcount]
          split_ifs <;> exact ⟨rfl, rfl, rfl⟩
        · by_cases hlate : (r.now - client.lastPacketSecond).tdiv nanosPerSecond ≥ 1
          · simp only [countPacket, hlast, h0, hlate, if_false, if_true, and_self]
          · simp only [countPacket, hlast, h0, hlate, if_false, hcount, and_self]
      exact ⟨hsame.2.2.trans h.1, ih h.2 hsame.1 hsame.2.1⟩

/-- Aligned reads are received packet by packet. -/
theorem feeds_aligned {c : ClientId} {cipher : ISAACCipher} {pks : List Packet}
    {reads : List Read} (ha : Aligned cipher pks reads) {s : Server} {client : Client}
    {p : PlayerId} (hc : s.clients c = some client) (hstage : client.stage = .loggedIn)
    (hd : client.decryptor = some cipher) (hp : s.lockPlayer client.player = some p)
    (hwf : ∀ pk ∈ pks, pk.WellFormed) (hbelow : BelowFlood client reads) :
    ∃ t client', Feeds c s reads (pks.flatMap Packet.effects) t ∧
      t.clients c = some client' ∧ client'.decryptor = some (cipher.advance pks.length) := by
  induction ha generalizing s client with
  | nil cipher => exact ⟨s, client, .nil s, hc, hd⟩
  | @cons cipher qs pks r rs hr _ ih =>
      obtain ⟨fuel, st, hread, heffects, hclient, hplayer⟩ := readIncomingData_aligned hc hstage
        hd hp (fun pk hpk => hwf pk (List.mem_append_left pks hpk)) hbelow.1 hr
      obtain ⟨hstage', -, hplayer'⟩ := countPacket_fields client r.now
      obtain ⟨t, client', hfeeds, hfound, hdecryptor⟩ := ih hclient (hstage'.trans hstage) rfl
        (by rw [afterRead, keysDrawn, hplayer']; exact hplayer)
        (fun pk hpk => hwf pk (List.mem_append_right qs hpk))
        (belowFlood_congr hbelow.2 rfl rfl)
      refine ⟨t, client', ?_, hfound, ?_⟩
      · rw [List.flatMap_append, ← heffects]
        exact .cons hread hfeeds
      · rw [hdecryptor, List.length_append, ISAACCipher.advance_add]

/-! ## Reads that end inside a packet -/

/-- A read from the front of a stream ends between packets or inside one. -/
theorem read_cases {cipher : ISAACCipher} {pks : List Packet} {data more : List Byte}
    (h : data ++ more = Packet.encodeAll cipher pks) :
    (∃ qs rest, pks = qs ++ rest ∧ data = Packet.encodeAll cipher qs ∧
      more = Packet.encodeAll (cipher.advance qs.length) rest) ∨
    (∃ qs pk rest part missing, pks = qs ++ pk :: rest ∧
      data = Packet.encodeAll cipher qs ++ part ∧ part ≠ [] ∧ missing ≠ [] ∧
      pk.encode (cipher.advance qs.length) = part ++ missing) := by
  induction pks generalizing cipher data with
  | nil =>
      obtain ⟨rfl, rfl⟩ := List.append_eq_nil_iff.mp h
      exact .inl ⟨[], [], rfl, rfl, rfl⟩
  | cons pk pks ih =>
      by_cases hnil : data = []
      · subst hnil
        exact .inl ⟨[], pk :: pks, rfl, rfl, h⟩
      · rcases List.append_eq_append_iff.mp h with ⟨missing, hpk, hmore⟩ | ⟨data', rfl, htail⟩
        · by_cases hmissing : missing = []
          · subst hmissing
            rw [List.append_nil] at hpk
            refine .inl ⟨[pk], pks, rfl, ?_, hmore⟩
            rw [← hpk, Packet.encodeAll, Packet.encodeAll, List.append_nil]
          · exact .inr ⟨[], pk, pks, data, missing, rfl, rfl, hnil, hmissing, hpk⟩
        · rcases ih htail.symm with ⟨qs, rest, rfl, rfl, rfl⟩ |
            ⟨qs, pk', rest, part, missing, rfl, rfl, hpart, hmissing, hpk'⟩
          · exact .inl ⟨pk :: qs, rest, rfl, rfl, rfl⟩
          · refine .inr ⟨pk :: qs, pk', rest, part, missing, rfl, ?_, hpart, hmissing, hpk'⟩
            rw [Packet.encodeAll, List.append_assoc]

/-- Part of a packet has no header, or one that announces more than is there. -/
theorem readHeader_part {cipher : ISAACCipher} {pk : Packet} (hwf : pk.WellFormed)
    {part missing : List Byte} (hpk : pk.encode cipher = part ++ missing) (hpart : part ≠ [])
    (hmissing : missing ≠ []) :
    readHeader cipher part = none ∨
      ∃ h, readHeader cipher part = some h ∧ h.rest.length < h.packetLength := by
  have whole (payload : List Byte) (hpayload : pk.payload = payload ++ missing) :
      (pk.header payload).rest.length < (pk.header payload).packetLength := by
    have hlen := congrArg List.length hpayload
    have hpos := List.length_pos_of_ne_nil hmissing
    rw [List.length_append] at hlen
    simp only [Packet.header]
    omega
  cases part with
  | nil => exact absurd rfl hpart
  | cons op part =>
      rw [Packet.encode, List.cons_append] at hpk
      obtain ⟨rfl, htail⟩ := List.cons.inj hpk
      by_cases hvar : pk.tableLength = -1
      · rw [if_pos hvar, List.singleton_append] at htail
        cases part with
        | nil =>
            left
            have htable : packetLengths[((pk.packetOpcode.val : Nat) : Int).toNat]? =
                some pk.tableLength := Vector.getElem?_eq_getElem pk.packetOpcode.isLt
            simp only [readHeader, Packet.openOpcode_encode, htable, hvar, if_true]
        | cons length payload =>
            right
            obtain ⟨rfl, hpayload⟩ := List.cons.inj htail
            have hh := Packet.readHeader_encode hwf cipher payload
            rw [if_pos hvar, List.singleton_append] at hh
            exact ⟨_, hh, whole payload hpayload⟩
      · right
        rw [if_neg hvar, List.nil_append] at htail
        have hh := Packet.readHeader_encode hwf cipher part
        rw [if_neg hvar, List.nil_append] at hh
        exact ⟨_, hh, whole part htail⟩

/-- In front of an incomplete packet the loop takes a key and dispatches nothing, if it ends. -/
theorem ends_part {c : ClientId} {gen : Int} {client : Client} {cipher : ISAACCipher}
    {pk : Packet} (hwf : pk.WellFormed) {part missing : List Byte}
    (hpk : pk.encode cipher = part ++ missing) (hpart : part ≠ []) (hmissing : missing ≠ [])
    {st st' : Incoming} (hst : Between c client cipher part st)
    (hends : Ends (packetIteration c gen) st (.ok st')) :
    st'.effects = st.effects ++ [.drawKey] := by
  rcases readHeader_part hwf hpk hpart hmissing with hnone | ⟨h, hh, hshort⟩
  · obtain ⟨st₁, hdone, heffects⟩ := packetIteration_noHeader gen hst hpart hnone
    obtain rfl := Except.ok.inj (hends.unique (ends_of_done hdone))
    exact heffects
  · have hfirst := packetIteration_short gen hst hh hshort
    obtain ⟨hrest, -⟩ := behindHeader_rest hst hh
    by_cases hnil : h.rest = []
    · have hlast := (ends_iff_of_yields hfirst _).mpr
        (ends_of_done (packetIteration_nil (hrest.trans hnil)))
      obtain rfl := Except.ok.inj (hends.unique hlast)
      rfl
    · -- with some of the payload there the loop never ends
      exact absurd ⟨_, (ends_iff_of_yields hfirst _).mp hends⟩
        (not_halts_of_fixed (packetIteration_fixed hst hh hnil hshort))

theorem readIncomingData_part {s : Server} {c : ClientId} {client : Client}
    {cipher : ISAACCipher} {p : PlayerId} (hc : s.clients c = some client)
    (hstage : client.stage = .loggedIn) (hd : client.decryptor = some cipher)
    (hp : s.lockPlayer client.player = some p) {qs : List Packet}
    (hwf : ∀ pk ∈ qs, pk.WellFormed) {pk : Packet} (hpkwf : pk.WellFormed)
    {part missing : List Byte} (hpk : pk.encode (cipher.advance qs.length) = part ++ missing)
    (hpart : part ≠ []) (hmissing : missing ≠ []) {fuel : Nat} {now gen : Int} {st : Incoming}
    (hflood : (countPacket client now).2 = false)
    (hread : readIncomingData fuel s c now gen (Packet.encodeAll cipher qs ++ part) =
      some (.ok st)) :
    st.effects = qs.flatMap Packet.effects ++ [.drawKey] := by
  have hstart := receiving_start (c := c) hstage hd hp now (Packet.encodeAll cipher qs ++ part)
  obtain ⟨st₁, hreach, hst₁, heffects₁⟩ := receiving_packets gen hwf hstart
  simp only [readIncomingData, handleIncomingData, hc, hflood] at hread
  obtain ⟨r, hr, hmap⟩ := Option.map_eq_some_iff.mp hread
  obtain ⟨st', rfl, rfl⟩ := map_eq_ok.mp hmap
  have hends := (ends_iff_of_reaches hreach _).mp ⟨fuel, hr⟩
  have heffects := ends_part hpkwf hpk hpart hmissing hst₁.toBetween hends
  rw [heffects₁, List.nil_append] at heffects
  exact heffects

/-- The outcome of a read does not depend on how many iterations its loop is given. -/
theorem readIncomingData_unique {fuel fuel' : Nat} {s : Server} {c : ClientId} {now gen : Int}
    {data : List Byte} {r r' : Except Fault Incoming}
    (h : readIncomingData fuel s c now gen data = some r)
    (h' : readIncomingData fuel' s c now gen data = some r') : r = r' := by
  simp only [readIncomingData, handleIncomingData] at h h'
  cases hc : s.clients c with
  | none =>
      rw [hc] at h h'
      exact Option.some.inj (h.symm.trans h')
  | some client =>
      simp only [hc] at h h'
      cases hflood : (countPacket client now).2 with
      | true =>
          simp only [hflood, if_true] at h h'
          exact Option.some.inj (h.symm.trans h')
      | false =>
          simp only [hflood] at h h'
          obtain ⟨r₁, hr, rfl⟩ := Option.map_eq_some_iff.mp h
          obtain ⟨r₂, hr', rfl⟩ := Option.map_eq_some_iff.mp h'
          rw [Ends.unique ⟨fuel, hr⟩ ⟨fuel', hr'⟩]

theorem feeds_unique {c : ClientId} {s t t' : Server} {reads : List Read}
    {effects effects' : List Effect} (h : Feeds c s reads effects t)
    (h' : Feeds c s reads effects' t') : effects = effects' := by
  induction h generalizing effects' with
  | nil s =>
      cases h'
      rfl
  | cons hread _ ih =>
      cases h' with
      | cons hread' hfeeds =>
          obtain rfl := Except.ok.inj (readIncomingData_unique hread hread')
          rw [ih hfeeds]

/-- A cut is aligned, or draws a key for a packet that is not dispatched. -/
theorem feeds_cases {c : ClientId} {cipher : ISAACCipher} {pks : List Packet}
    {reads : List Read} {s t : Server} {effects : List Effect} {client : Client} {p : PlayerId}
    (hc : s.clients c = some client) (hstage : client.stage = .loggedIn)
    (hd : client.decryptor = some cipher) (hp : s.lockPlayer client.player = some p)
    (hwf : ∀ pk ∈ pks, pk.WellFormed)
    (hdata : reads.flatMap Read.data = Packet.encodeAll cipher pks)
    (hbelow : BelowFlood client reads) (hfeeds : Feeds c s reads effects t) :
    Aligned cipher pks reads ∨ (dispatched effects).length < keysUsed effects := by
  induction reads generalizing s client cipher pks effects with
  | nil =>
      cases pks with
      | nil => exact .inl (.nil cipher)
      | cons pk pks => cases hdata
  | cons r rs ih =>
      cases hfeeds with
      | @cons _ _ _ _ fuel st effects hread hfeeds =>
      rw [List.flatMap_cons] at hdata
      rcases read_cases hdata with ⟨qs, rest, rfl, hr, hmore⟩ |
        ⟨qs, pk, rest, part, missing, rfl, hr, hpart, hmissing, hpk⟩
      · obtain ⟨fuel', st', hread', heffects, hclient, hplayer⟩ := readIncomingData_aligned hc
          hstage hd hp (fun pk hpk => hwf pk (List.mem_append_left rest hpk)) hbelow.1 hr
        obtain rfl := Except.ok.inj (readIncomingData_unique hread' hread)
        obtain ⟨hstage', -, hplayer'⟩ := countPacket_fields client r.now
        rcases ih hclient (hstage'.trans hstage) rfl
          (by rw [afterRead, keysDrawn, hplayer']; exact hplayer)
          (fun pk hpk => hwf pk (List.mem_append_right qs hpk)) hmore
          (belowFlood_congr hbelow.2 rfl rfl) hfeeds with haligned | hless
        · exact .inl (.cons hr haligned)
        · right
          rw [heffects, dispatched_append, keysUsed_append, List.length_append,
            dispatched_effects, keysUsed_effects, List.length_map]
          omega
      · right
        rw [hr] at hread
        have heffects := readIncomingData_part hc hstage hd hp
          (fun pk hpk => hwf pk (List.mem_append_left _ hpk))
          (hwf pk (List.mem_append_right qs List.mem_cons_self)) hpk hpart hmissing hbelow.1 hread
        have hrest := feeds_covered hfeeds
        have hkey : keysUsed [.drawKey] = 1 := rfl
        have hnone : dispatched [.drawKey] = [] := rfl
        rw [heffects, dispatched_append, dispatched_append, keysUsed_append, keysUsed_append,
          dispatched_effects, keysUsed_effects, hkey, hnone, List.append_nil, List.length_append,
          List.length_map]
        omega

/-! ## Cuts of a stream -/

/-- Reads a second apart. -/
def everySecond (start : Int) : List (List Byte) → List Read
  | [] => []
  | data :: chunks => ⟨start, 0, data⟩ :: everySecond (start + nanosPerSecond) chunks

/-- The encodings of the packets one by one. -/
def encodeEach (cipher : ISAACCipher) : List Packet → List (List Byte)
  | [] => []
  | pk :: pks => pk.encode cipher :: encodeEach cipher.getNextKey.2 pks

theorem everySecond_data (start : Int) (chunks : List (List Byte)) :
    (everySecond start chunks).flatMap Read.data = chunks.flatten := by
  induction chunks generalizing start with
  | nil => rfl
  | cons data chunks ih => rw [everySecond, List.flatMap_cons, ih, List.flatten_cons]

theorem mem_everySecond {start : Int} {chunks : List (List Byte)} {r : Read}
    (h : r ∈ everySecond start chunks) : r.data ∈ chunks := by
  induction chunks generalizing start with
  | nil => cases h
  | cons data chunks ih =>
      rcases List.mem_cons.mp h with rfl | h
      · exact List.mem_cons_self
      · exact List.mem_cons_of_mem data (ih h)

/-- A second later the count starts anew. -/
theorem countPacket_later {client : Client} {now : Int} (h0 : client.lastPacketSecond ≠ 0)
    (h : client.lastPacketSecond + nanosPerSecond ≤ now) :
    (countPacket client now).2 = false ∧ (countPacket client now).1.lastPacketSecond = now := by
  have hlate : (now - client.lastPacketSecond).tdiv nanosPerSecond ≥ 1 := by
    rw [nanosPerSecond] at h ⊢
    rw [Int.tdiv_eq_ediv_of_nonneg (by omega)]
    omega
  simp only [countPacket, h0, hlate, if_false, if_true]
  exact ⟨by decide, trivial⟩

/-- The first read of a client starts its clock. -/
theorem countPacket_first {client : Client} (h0 : client.lastPacketSecond = 0) (now : Int) :
    (countPacket client now).1.lastPacketSecond = now ∧
      ∀ now', (countPacket client now).2 = (countPacket client now').2 := by
  have hsoon (t : Int) : ¬ (t - t).tdiv nanosPerSecond ≥ 1 := by
    rw [Int.sub_self, Int.zero_tdiv]
    decide
  simp only [countPacket, h0, if_true, hsoon, if_false]
  exact ⟨trivial, fun _ => trivial⟩

theorem belowFlood_later {client : Client} {start : Int} (chunks : List (List Byte))
    (h0 : 0 < client.lastPacketSecond) (h : client.lastPacketSecond + nanosPerSecond ≤ start) :
    BelowFlood client (everySecond start chunks) := by
  induction chunks generalizing client start with
  | nil => trivial
  | cons data chunks ih =>
      obtain ⟨hflood, hlast⟩ := countPacket_later (Int.ne_of_gt h0) h
      have hpos : 0 < nanosPerSecond := by decide
      have hstart : 0 < start := by omega
      exact ⟨hflood, ih (lt_of_lt_of_eq hstart hlast.symm)
        (le_of_eq (congrArg (· + nanosPerSecond) hlast))⟩

/-- A client that may read at all may read a chunk every second. -/
theorem belowFlood_everySecond {client : Client} {now : Int}
    (hflood : (countPacket client now).2 = false) (chunks : List (List Byte)) :
    BelowFlood client
      (everySecond (|client.lastPacketSecond| + nanosPerSecond) chunks) := by
  have hpos : 0 < nanosPerSecond := by decide
  cases chunks with
  | nil => trivial
  | cons data chunks =>
      have habs := le_abs_self client.lastPacketSecond
      have habs0 := abs_nonneg client.lastPacketSecond
      have hstart : 0 < |client.lastPacketSecond| + nanosPerSecond := by omega
      obtain ⟨hfirst, hlast⟩ :
          (countPacket client (|client.lastPacketSecond| + nanosPerSecond)).2 = false ∧
          (countPacket client (|client.lastPacketSecond| + nanosPerSecond)).1.lastPacketSecond =
            |client.lastPacketSecond| + nanosPerSecond := by
        by_cases h0 : client.lastPacketSecond = 0
        · obtain ⟨hlast, hsame⟩ :=
            countPacket_first h0 (|client.lastPacketSecond| + nanosPerSecond)
          exact ⟨(hsame now).trans hflood, hlast⟩
        · exact countPacket_later h0 (by omega)
      exact ⟨hfirst, belowFlood_later chunks (lt_of_lt_of_eq hstart hlast.symm)
        (le_of_eq (congrArg (· + nanosPerSecond) hlast))⟩

theorem encodeEach_flatten (cipher : ISAACCipher) (pks : List Packet) :
    (encodeEach cipher pks).flatten = Packet.encodeAll cipher pks := by
  induction pks generalizing cipher with
  | nil => rfl
  | cons pk pks ih => rw [encodeEach, List.flatten_cons, ih, Packet.encodeAll]

theorem aligned_encodeEach (cipher : ISAACCipher) (pks : List Packet) (start : Int) :
    Aligned cipher pks (everySecond start (encodeEach cipher pks)) := by
  induction pks generalizing cipher start with
  | nil => exact .nil cipher
  | cons pk pks ih =>
      have hrest := ih cipher.getNextKey.2 (start + nanosPerSecond)
      refine @Aligned.cons cipher [pk] pks _ _ ?_ hrest
      rw [Packet.encodeAll, Packet.encodeAll, List.append_nil]

theorem packetLengths_le : ∀ n ∈ packetLengths.toList, n ≤ 255 := by
  decide +kernel

theorem encode_length (cipher : ISAACCipher) (pk : Packet) :
    (pk.encode cipher).length =
      1 + (if pk.tableLength = -1 then 1 else 0) + pk.payload.length := by
  rw [Packet.encode, List.length_cons, List.length_append]
  split <;> simp only [List.length_cons, List.length_nil] <;> omega

/-- An encoded packet fits into one read. -/
theorem encode_length_le {pk : Packet} (hwf : pk.WellFormed) (cipher : ISAACCipher) :
    (pk.encode cipher).length ≤ 512 := by
  have hpayload : pk.payload.length ≤ 255 := by
    by_cases hvar : pk.tableLength = -1
    · exact hwf.sized hvar
    · have hfixed := hwf.fixed hvar
      have hle := packetLengths_le pk.tableLength
        (Vector.mem_toList_iff.mpr (Vector.getElem_mem pk.packetOpcode.isLt))
      omega
  rw [encode_length]
  split <;> omega

/-- A packet is a lone opcode byte exactly when the table gives its opcode no payload. -/
theorem encode_length_one_iff {pk : Packet} (hwf : pk.WellFormed) (cipher : ISAACCipher) :
    (pk.encode cipher).length = 1 ↔ pk.tableLength = 0 := by
  rw [encode_length]
  constructor
  · intro h
    by_cases hvar : pk.tableLength = -1
    · rw [if_pos hvar] at h
      omega
    · rw [if_neg hvar] at h
      have hfixed := hwf.fixed hvar
      omega
  · intro h0
    have hvar : pk.tableLength ≠ -1 := by omega
    have hfixed := hwf.fixed hvar
    rw [if_neg hvar]
    omega

theorem mem_encodeEach {cipher : ISAACCipher} {pks : List Packet} {data : List Byte}
    (h : data ∈ encodeEach cipher pks) : ∃ pk ∈ pks, ∃ cipher', data = pk.encode cipher' := by
  induction pks generalizing cipher with
  | nil => cases h
  | cons pk pks ih =>
      rcases List.mem_cons.mp h with rfl | h
      · exact ⟨pk, List.mem_cons_self, cipher, rfl⟩
      · obtain ⟨pk', hpk', hdata⟩ := ih h
        exact ⟨pk', List.mem_cons_of_mem pk hpk', hdata⟩

/-- One read for each packet. -/
theorem cut_packets {client : Client} {cipher : ISAACCipher} {pks : List Packet} {start : Int}
    (hwf : ∀ pk ∈ pks, pk.WellFormed)
    (hbelow : BelowFlood client (everySecond start (encodeEach cipher pks))) :
    Cut client (Packet.encodeAll cipher pks) (everySecond start (encodeEach cipher pks)) where
  data := by rw [everySecond_data, encodeEach_flatten]
  sizes r hr := by
    obtain ⟨pk, hpk, cipher', hdata⟩ := mem_encodeEach (mem_everySecond hr)
    rw [hdata]
    exact ⟨List.cons_ne_nil _ _, encode_length_le (hwf pk hpk) cipher'⟩
  below := hbelow

/-- One read for each byte. -/
theorem cut_bytes {client : Client} {stream : List Byte} {start : Int}
    (hbelow : BelowFlood client (everySecond start (stream.map fun byte => [byte]))) :
    Cut client stream (everySecond start (stream.map fun byte => [byte])) where
  data := by rw [everySecond_data, ← List.flatMap_def, List.flatMap_singleton']
  sizes r hr := by
    obtain ⟨byte, -, hdata⟩ := List.mem_map.mp (mem_everySecond hr)
    rw [← hdata]
    exact ⟨List.cons_ne_nil _ _, by simp⟩
  below := hbelow

/-! ## Which cuts are received alike -/

/-- Byte by byte a stream is aligned only if it has no payloads. -/
theorem aligned_bytes {cipher : ISAACCipher} {pks : List Packet} {reads : List Read}
    (h : Aligned cipher pks reads) (hwf : ∀ pk ∈ pks, pk.WellFormed)
    (hbytes : ∀ r ∈ reads, r.data.length = 1) : ∀ pk ∈ pks, pk.tableLength = 0 := by
  induction h with
  | nil cipher =>
      intro pk hpk
      cases hpk
  | @cons cipher qs pks r rs hr _ ih =>
      intro pk hpk
      rcases List.mem_append.mp hpk with hq | hpk
      · have hlen := hbytes r List.mem_cons_self
        rw [hr] at hlen
        cases qs with
        | nil => cases hq
        | cons q qs =>
            have hone := encode_length cipher q
            rw [Packet.encodeAll, List.length_append] at hlen
            have hnone : (Packet.encodeAll cipher.getNextKey.2 qs).length = 0 := by omega
            have hqs : qs = [] := by
              cases qs with
              | nil => rfl
              | cons q' qs => cases hnone
            subst hqs
            obtain rfl := List.mem_singleton.mp hq
            exact (encode_length_one_iff (hwf pk (List.mem_append_left pks hq)) cipher).mp
              (by omega)
      · exact ih (fun pk h => hwf pk (List.mem_append_right qs h))
          (fun r h => hbytes r (List.mem_cons_of_mem _ h)) pk hpk

/-- A stream without payloads is aligned however it is cut. -/
theorem aligned_of_single {cipher : ISAACCipher} {pks : List Packet} {reads : List Read}
    (hwf : ∀ pk ∈ pks, pk.WellFormed) (hsingle : ∀ pk ∈ pks, pk.tableLength = 0)
    (hdata : reads.flatMap Read.data = Packet.encodeAll cipher pks) : Aligned cipher pks reads := by
  induction reads generalizing cipher pks with
  | nil =>
      cases pks with
      | nil => exact .nil cipher
      | cons pk pks => cases hdata
  | cons r rs ih =>
      rw [List.flatMap_cons] at hdata
      rcases read_cases hdata with ⟨qs, rest, rfl, hr, hmore⟩ |
        ⟨qs, pk, rest, part, missing, rfl, hr, hpart, hmissing, hpk⟩
      · exact .cons hr (ih (fun pk h => hwf pk (List.mem_append_right qs h))
          (fun pk h => hsingle pk (List.mem_append_right qs h)) hmore)
      · have hmem : pk ∈ qs ++ pk :: rest := List.mem_append_right qs List.mem_cons_self
        have hlen := (encode_length_one_iff (hwf pk hmem) (cipher.advance qs.length)).mpr
          (hsingle pk hmem)
        have hpart' := List.length_pos_of_ne_nil hpart
        have hmissing' := List.length_pos_of_ne_nil hmissing
        rw [hpk, List.length_append] at hlen
        omega

theorem sameReception_of_aligned {s : Server} {c : ClientId} {client : Client}
    {cipher : ISAACCipher} {p : PlayerId} (hc : s.clients c = some client)
    (hstage : client.stage = .loggedIn) (hd : client.decryptor = some cipher)
    (hp : s.lockPlayer client.player = some p) {pks : List Packet}
    (hwf : ∀ pk ∈ pks, pk.WellFormed) {reads reads' : List Read}
    (hbelow : BelowFlood client reads) (hbelow' : BelowFlood client reads')
    (h : Aligned cipher pks reads) (h' : Aligned cipher pks reads') :
    SameReception s c reads reads' := by
  obtain ⟨t, client₁, hfeeds, hfound, hd₁⟩ := feeds_aligned h hc hstage hd hp hwf hbelow
  obtain ⟨t', client₂, hfeeds', hfound', hd₂⟩ := feeds_aligned h' hc hstage hd hp hwf hbelow'
  exact ⟨_, _, t, t', hfeeds, hfeeds', rfl, rfl,
    by rw [hfound, hfound', Option.map_some, Option.map_some, hd₁, hd₂]⟩

/-- A cut that is received like an aligned one is aligned. -/
theorem aligned_of_sameReception {s : Server} {c : ClientId} {client : Client}
    {cipher : ISAACCipher} {p : PlayerId} (hc : s.clients c = some client)
    (hstage : client.stage = .loggedIn) (hd : client.decryptor = some cipher)
    (hp : s.lockPlayer client.player = some p) {pks : List Packet}
    (hwf : ∀ pk ∈ pks, pk.WellFormed) {reads reads' : List Read}
    (hcut : Cut client (Packet.encodeAll cipher pks) reads)
    (hcut' : Cut client (Packet.encodeAll cipher pks) reads') (h : Aligned cipher pks reads)
    (hsame : SameReception s c reads reads') : Aligned cipher pks reads' := by
  obtain ⟨effects, effects', t, t', hfeeds, hfeeds', hdispatched, hkeys, -⟩ := hsame
  obtain ⟨u, -, hfed, -, -⟩ := feeds_aligned h hc hstage hd hp hwf hcut.below
  have heffects := feeds_unique hfeeds hfed
  rcases feeds_cases hc hstage hd hp hwf hcut'.data hcut'.below hfeeds' with haligned | hless
  · exact haligned
  · rw [← hdispatched, ← hkeys, heffects, dispatched_effects, keysUsed_effects,
      List.length_map] at hless
    exact absurd hless (Nat.lt_irrefl _)

/-- Segmentation does not matter between packets, and only there: a cut is received like an
aligned one exactly when it is aligned, and all cuts of a stream are received alike exactly
when no packet of the stream has anything behind its opcode. -/
theorem readIncomingData_segmentation_iff {s : Server} {c : ClientId} {client : Client}
    {cipher : ISAACCipher} {p : PlayerId} (hc : s.clients c = some client)
    (hstage : client.stage = .loggedIn) (hd : client.decryptor = some cipher)
    (hp : s.lockPlayer client.player = some p) {pks : List Packet}
    (hwf : ∀ pk ∈ pks, pk.WellFormed) {now : Int} (hflood : (countPacket client now).2 = false) :
    (∀ reads reads', Cut client (Packet.encodeAll cipher pks) reads →
      Cut client (Packet.encodeAll cipher pks) reads' → Aligned cipher pks reads →
      (SameReception s c reads reads' ↔ Aligned cipher pks reads')) ∧
    ((∀ reads reads', Cut client (Packet.encodeAll cipher pks) reads →
      Cut client (Packet.encodeAll cipher pks) reads' → SameReception s c reads reads') ↔
      ∀ pk ∈ pks, pk.tableLength = 0) := by
  constructor
  · intro reads reads' hcut hcut' h
    exact ⟨aligned_of_sameReception hc hstage hd hp hwf hcut hcut' h,
      sameReception_of_aligned hc hstage hd hp hwf hcut.below hcut'.below h⟩
  · constructor
    · intro hall
      have hcut := cut_packets hwf (belowFlood_everySecond hflood (encodeEach cipher pks))
      have hcut' := cut_bytes (belowFlood_everySecond hflood
        ((Packet.encodeAll cipher pks).map fun byte => [byte]))
      have haligned := aligned_of_sameReception hc hstage hd hp hwf hcut hcut'
        (aligned_encodeEach cipher pks _) (hall _ _ hcut hcut')
      refine aligned_bytes haligned hwf fun r hr => ?_
      obtain ⟨byte, -, hdata⟩ := List.mem_map.mp (mem_everySecond hr)
      rw [← hdata, List.length_singleton]
    · intro hsingle reads reads' hcut hcut'
      exact sameReception_of_aligned hc hstage hd hp hwf hcut.below hcut'.below
        (aligned_of_single hwf hsingle hcut.data) (aligned_of_single hwf hsingle hcut'.data)

theorem crowd_segmentation_iff :
    (∀ reads reads', Cut (crowdClient 0) (Packet.encodeAll crowdDecryptor somePackets) reads →
      Cut (crowdClient 0) (Packet.encodeAll crowdDecryptor somePackets) reads' →
      Aligned crowdDecryptor somePackets reads →
      (SameReception (crowd 0) 0 reads reads' ↔ Aligned crowdDecryptor somePackets reads')) ∧
    ((∀ reads reads', Cut (crowdClient 0) (Packet.encodeAll crowdDecryptor somePackets) reads →
      Cut (crowdClient 0) (Packet.encodeAll crowdDecryptor somePackets) reads' →
      SameReception (crowd 0) 0 reads reads') ↔ ∀ pk ∈ somePackets, pk.tableLength = 0) :=
  readIncomingData_segmentation_iff (crowd_client (Nat.le_refl 0)) rfl rfl
    (crowd_lockPlayer 0) somePackets_wellFormed
    (show (countPacket (crowdClient 0) 5).2 = false by decide)

/-! ### A packet that is lost -/

/-- The packet in one read, and in one read for each byte. -/
def wholeReads : List Read := everySecond nanosPerSecond (encodeEach crowdDecryptor [eightBytes])

def splitReads : List Read :=
  everySecond nanosPerSecond
    ((Packet.encodeAll crowdDecryptor [eightBytes]).map fun byte => [byte])

/-- A packet cut behind its opcode is not received like the packet in one read. -/
theorem crowd_split_lost :
    (crowd 0).clients 0 = some (crowdClient 0) ∧ (crowdClient 0).stage = .loggedIn ∧
      (crowdClient 0).decryptor = some crowdDecryptor ∧
      (crowd 0).lockPlayer (crowdClient 0).player = some 0 ∧ eightBytes.WellFormed ∧
      Cut (crowdClient 0) (Packet.encodeAll crowdDecryptor [eightBytes]) wholeReads ∧
      Cut (crowdClient 0) (Packet.encodeAll crowdDecryptor [eightBytes]) splitReads ∧
      ¬ SameReception (crowd 0) 0 wholeReads splitReads := by
  have hwf : ∀ pk ∈ [eightBytes], pk.WellFormed := by
    intro pk hpk
    obtain rfl := List.mem_singleton.mp hpk
    exact somePackets_wellFormed eightBytes List.mem_cons_self
  have htable : eightBytes.tableLength = 8 :=
    ((hwf eightBytes List.mem_cons_self).fixed (by decide +kernel)).symm
  have hflood : (countPacket (crowdClient 0) 5).2 = false := by decide
  have hstart : |(crowdClient 0).lastPacketSecond| + nanosPerSecond = nanosPerSecond := by
    simp [crowdClient]
  have hbelow := belowFlood_everySecond hflood
  rw [hstart] at hbelow
  have hcut : Cut (crowdClient 0) _ wholeReads := cut_packets hwf (hbelow _)
  have hcut' : Cut (crowdClient 0) _ splitReads := cut_bytes (hbelow _)
  refine ⟨rfl, rfl, rfl, crowd_lockPlayer 0, hwf eightBytes List.mem_cons_self, hcut, hcut',
    fun hsame => ?_⟩
  have haligned := aligned_of_sameReception (crowd_client (Nat.le_refl 0)) rfl rfl
    (crowd_lockPlayer 0) hwf hcut hcut' (aligned_encodeEach crowdDecryptor [eightBytes] _) hsame
  have hzero := aligned_bytes haligned hwf (fun r hr => by
    obtain ⟨byte, -, hdata⟩ := List.mem_map.mp (mem_everySecond hr)
    rw [← hdata, List.length_singleton]) eightBytes List.mem_cons_self
  rw [htable] at hzero
  cases hzero

end Client
end AsioRsps
