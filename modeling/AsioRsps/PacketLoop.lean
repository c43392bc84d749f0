import AsioRsps.PacketHandling

/-!
# The packet loop

One iteration of the loop, seen through the bytes that are left: the header is decoded, and
the payload is dispatched if all of it is there. When part of it is there the iteration
changes nothing, so that the loop never ends.
-/
namespace AsioRsps
open BitStrings (Byte)
open StreamBuffer FallibleLoop
open Server (crowd crowdClient crowdDecryptor crowd_client)

namespace Client

/-! ## Headers -/

/-- The opcode a byte stands for under the next key. -/
def openOpcode (cipher : ISAACCipher) (raw : Byte) : Int :=
  ((raw.toNat : Int) - cipher.nextKey.toNat) % 256

/-- A decoded header and the bytes behind it. -/
structure Header where
  packetOpcode : Int
  packetLength : Nat
  rest : List Byte

def readHeader (cipher : ISAACCipher) : List Byte → Option Header
  | [] => none
  | raw :: bytes =>
      let packetOpcode := openOpcode cipher raw
      match packetLengths[packetOpcode.toNat]? with
      | none => none
      | some packetLength =>
          if packetLength = -1 then
            match bytes with
            | [] => none
            | length :: rest => some { packetOpcode, packetLength := length.toNat, rest }
          else some { packetOpcode, packetLength := packetLength.toNat, rest := bytes }

theorem openOpcode_bound (cipher : ISAACCipher) (raw : Byte) :
    0 ≤ openOpcode cipher raw ∧ openOpcode cipher raw < 256 := by
  simp only [openOpcode]
  omega

theorem packetLengths_range : ∀ n ∈ packetLengths.toList, n = -1 ∨ 0 ≤ n := by
  decide +kernel

/-- Every opcode has an entry in the table, a length or the marker. -/
theorem packetLengths_some (cipher : ISAACCipher) (raw : Byte) :
    ∃ n, packetLengths[(openOpcode cipher raw).toNat]? = some n ∧ (n = -1 ∨ 0 ≤ n) := by
  have hlt : (openOpcode cipher raw).toNat < 256 := by
    have h := openOpcode_bound cipher raw
    omega
  exact ⟨_, Vector.getElem?_eq_getElem hlt,
    packetLengths_range _ (Vector.mem_toList_iff.mpr (Vector.getElem_mem hlt))⟩

/-- A header takes at least the opcode byte off the front. -/
theorem readHeader_suffix {cipher : ISAACCipher} {bytes : List Byte} {h : Header}
    (hh : readHeader cipher bytes = some h) : ∃ raw pre, bytes = raw :: (pre ++ h.rest) := by
  cases bytes with
  | nil => cases hh
  | cons raw bytes =>
      simp only [readHeader] at hh
      split at hh
      · cases hh
      · split at hh
        · split at hh
          · cases hh
          · obtain rfl := Option.some.inj hh
            exact ⟨raw, [_], rfl⟩
        · obtain rfl := Option.some.inj hh
          exact ⟨raw, [], rfl⟩

theorem readHeader_length {cipher : ISAACCipher} {bytes : List Byte} {h : Header}
    (hh : readHeader cipher bytes = some h) : h.rest.length < bytes.length := by
  obtain ⟨raw, pre, rfl⟩ := readHeader_suffix hh
  simp only [List.length_cons, List.length_append]
  omega

theorem readHeader_opcode {cipher : ISAACCipher} {bytes : List Byte} {h : Header}
    (hh : readHeader cipher bytes = some h) : 0 ≤ h.packetOpcode := by
  cases bytes with
  | nil => cases hh
  | cons raw bytes =>
      simp only [readHeader] at hh
      split at hh
      · cases hh
      · split at hh
        · split at hh
          · cases hh
          · obtain rfl := Option.some.inj hh
            exact (openOpcode_bound cipher raw).1
        · obtain rfl := Option.some.inj hh
          exact (openOpcode_bound cipher raw).1

/-! ## One iteration -/

/-- What an iteration that does not fail has done. -/
inductive Iteration (c : ClientId) (gen : Int) (st : Incoming) : ForInStep Incoming → Prop where
  | empty : st.inStream.hasRemaining = false → Iteration c gen st (.done st)
  | login {client : Client} {server : Server} {inStream : StreamBuffer} :
      st.server.clients c = some client → client.stage ≠ .loggedIn →
      st.inStream.exec (LoginHandler.process st.server c gen) = .ok (server, inStream) →
      Iteration c gen st (.done { st with server, inStream })
  | packet {client : Client} {st₁ : Incoming} {it₁ it : ForInStep Incoming} :
      st.server.clients c = some client → client.stage = .loggedIn →
      (st.packetOpcode = -1 ∧ decodeOpcode c st = .ok st₁ ∨ st.packetOpcode ≠ -1 ∧ st₁ = st) →
      (st₁.packetLength = -1 ∧ decodeLength st₁ = .ok it₁ ∨
        st₁.packetLength ≠ -1 ∧ it₁ = .yield st₁) →
      (∃ st₂, it₁ = .done st₂ ∧ it = .done st₂) ∨
        (∃ st₂ st₃, it₁ = .yield st₂ ∧ dispatch c st₂ = .ok st₃ ∧ it = .yield st₃) →
      Iteration c gen st it

/-- The iteration of a logged-in client, in its three parts. -/
theorem packetIteration_parts {c : ClientId} {gen : Int} {st : Incoming} {client : Client}
    (hmore : st.inStream.hasRemaining = true) (hc : st.server.clients c = some client)
    (hstage : client.stage = .loggedIn) :
    packetIteration c gen st =
      (if st.packetOpcode = -1 then decodeOpcode c st else .ok st) >>= fun st₁ =>
      (if st₁.packetLength = -1 then decodeLength st₁ else .ok (.yield st₁)) >>= fun it₁ =>
      match it₁ with
      | .done st₂ => .ok (.done st₂)
      | .yield st₂ => (dispatch c st₂).map .yield := by
  have hnot : ¬ client.stage ≠ .loggedIn := fun hne => hne hstage
  simp only [packetIteration, hmore, if_true, Server.lockClient_eq hc, bind, Except.bind, hnot,
    if_false]
  by_cases hop : st.packetOpcode = -1
  · simp only [hop, if_true]
    cases decodeOpcode c st with
    | error e => rfl
    | ok st₁ =>
        by_cases hlen : st₁.packetLength = -1
        · simp only [hlen, if_true]
          cases decodeLength st₁ with
          | error e => rfl
          | ok it₁ =>
              cases it₁ with
              | done st₂ => rfl
              | yield st₂ => cases dispatch c st₂ <;> rfl
        · simp only [pure, Except.pure, hlen, if_false]
          cases dispatch c st₁ <;> rfl
  · simp only [hop, if_false]
    by_cases hlen : st.packetLength = -1
    · simp only [pure, Except.pure, hlen, if_true]
      cases decodeLength st with
      | error e => rfl
      | ok it₁ =>
          cases it₁ with
          | done st₂ => rfl
          | yield st₂ => cases dispatch c st₂ <;> rfl
    · simp only [pure, Except.pure, hlen, if_false]
      cases dispatch c st <;> rfl

/-- An iteration that does not fail is one of the three kinds. -/
theorem packetIteration_inv {c : ClientId} {gen : Int} {st : Incoming} {it : ForInStep Incoming}
    (h : packetIteration c gen st = .ok it) : Iteration c gen st it := by
  cases hmore : st.inStream.hasRemaining with
  | false =>
      simp only [packetIteration, hmore] at h
      obtain rfl := Except.ok.inj h
      exact .empty hmore
  | true =>
      cases hc : st.server.lockClient c with
      | error e => simp [packetIteration, hmore, hc, bind, Except.bind] at h
      | ok client =>
          have hfound := Server.clients_of_lockClient hc
          by_cases hstage : client.stage = .loggedIn
          · rw [packetIteration_parts hmore hfound hstage] at h
            obtain ⟨st₁, h₁, h⟩ := bind_eq_ok.mp h
            obtain ⟨it₁, h₂, h⟩ := bind_eq_ok.mp h
            refine @Iteration.packet c gen st client st₁ it₁ it hfound hstage ?_ ?_ ?_
            · split at h₁
              · exact .inl ⟨‹_›, h₁⟩
              · exact .inr ⟨‹_›, (Except.ok.inj h₁).symm⟩
            · split at h₂
              · exact .inl ⟨‹_›, h₂⟩
              · exact .inr ⟨‹_›, (Except.ok.inj h₂).symm⟩
            · cases it₁ with
              | done st₂ => exact .inl ⟨st₂, rfl, (Except.ok.inj h).symm⟩
              | yield st₂ =>
                  obtain ⟨st₃, hd, rfl⟩ := map_eq_ok.mp h
                  exact .inr ⟨st₂, st₃, rfl, hd, rfl⟩
          · simp only [packetIteration, hmore, if_true, hc, bind, Except.bind, ne_eq, hstage,
              not_false_eq_true] at h
            split at h
            · cases h
            · rename_i r hr
              obtain rfl := Except.ok.inj h
              exact .login hfound hstage hr

/-- The loop between two packets: the client is logged in, no header is pending, and `bytes`
are left. -/
structure Between (c : ClientId) (client : Client) (cipher : ISAACCipher) (bytes : List Byte)
    (st : Incoming) : Prop where
  found : st.server.clients c = some client
  stage : client.stage = .loggedIn
  decryptor : client.decryptor = some cipher
  packetOpcode : st.packetOpcode = -1
  packetLength : st.packetLength = -1
  rest : st.inStream.rest = bytes
  pos_le : st.inStream.pos ≤ st.inStream.buffer.length

def keyDrawn (client : Client) (cipher : ISAACCipher) : Client :=
  { client with decryptor := some cipher.getNextKey.2 }

/-- The loop behind a header. -/
def behindHeader (c : ClientId) (client : Client) (cipher : ISAACCipher) (h : Header)
    (st : Incoming) : Incoming :=
  { st with
    server := st.server.setClient c (keyDrawn client cipher)
    inStream := st.inStream.skip (st.inStream.rest.length - h.rest.length)
    packetOpcode := h.packetOpcode
    packetLength := h.packetLength
    effects := st.effects ++ [.drawKey] }

theorem packetIteration_nil {c : ClientId} {gen : Int} {st : Incoming}
    (h : st.inStream.rest = []) : packetIteration c gen st = .ok (.done st) := by
  have hno : ¬ st.inStream.hasRemaining = true := by
    rw [hasRemaining_iff, h]
    exact fun hc => hc rfl
  simp only [packetIteration, hno]
  rfl

/-- The loop behind an opcode. -/
def behindOpcode (c : ClientId) (client : Client) (cipher : ISAACCipher) (raw : Byte)
    (st : Incoming) : Incoming :=
  { st with
    server := st.server.setClient c (keyDrawn client cipher)
    inStream := st.inStream.skip 1
    packetOpcode := openOpcode cipher raw
    effects := st.effects ++ [.drawKey] }

theorem decodeOpcode_ok {c : ClientId} {client : Client} {cipher : ISAACCipher} {raw : Byte}
    {bytes : List Byte} {st : Incoming} (hc : st.server.clients c = some client)
    (hd : client.decryptor = some cipher) (hr : st.inStream.rest = raw :: bytes) :
    decodeOpcode c st = .ok (behindOpcode c client cipher raw st) := by
  have hraw : readValue true .standard raw % 256 = raw.toNat := by
    rw [← readValue_standard_unsigned raw]
    rfl
  simp only [decodeOpcode, exec, readByte_cons hr true .standard, bind, Except.bind,
    Server.lockClient_eq hc, hd, Server.deref_some, hraw]
  rfl

/-- The length follows the table or the next byte, and its absence leaves the loop. -/
theorem decodeLength_eq (c : ClientId) (client : Client) {cipher : ISAACCipher} {raw : Byte}
    {bytes : List Byte} {st : Incoming} (hr : st.inStream.rest = raw :: bytes) :
    (∀ h, readHeader cipher (raw :: bytes) = some h →
      decodeLength (behindOpcode c client cipher raw st) =
        .ok (.yield (behindHeader c client cipher h st))) ∧
    (readHeader cipher (raw :: bytes) = none →
      ∃ st', decodeLength (behindOpcode c client cipher raw st) = .ok (.done st') ∧
        st'.effects = st.effects ++ [.drawKey]) := by
  obtain ⟨n, hn, hrange⟩ := packetLengths_some cipher raw
  have htable : packetLengths[(behindOpcode c client cipher raw st).packetOpcode.toNat]? =
      some n := hn
  have hrest : (behindOpcode c client cipher raw st).inStream.rest = bytes := by
    simp only [behindOpcode, rest_skip, hr, List.drop_one, List.tail_cons]
  simp only [readHeader, hn, decodeLength, htable]
  by_cases hvar : n = -1
  · simp only [hvar, if_true]
    cases bytes with
    | nil =>
        have hno : ¬ (behindOpcode c client cipher raw st).inStream.hasRemaining = true := by
          rw [hasRemaining_iff, hrest]
          exact fun hc => hc rfl
        refine ⟨fun h hh => (nomatch hh), fun _ =>
          ⟨{ behindOpcode c client cipher raw st with packetLength := -1 }, ?_, rfl⟩⟩
        simp only [hno]
        rfl
    | cons length rest =>
        have hmore : (behindOpcode c client cipher raw st).inStream.hasRemaining = true := by
          rw [hasRemaining_iff, hrest]
          exact List.cons_ne_nil length rest
        have hlength : readValue true .standard length % 256 = length.toNat := by
          rw [← readValue_standard_unsigned length]
          rfl
        have hskip : st.inStream.rest.length - rest.length = 2 := by
          rw [hr]
          simp only [List.length_cons]
          omega
        simp only [hmore, if_true, exec, readByte_cons hrest true .standard, bind, Except.bind,
          hlength]
        refine ⟨fun h hh => ?_, fun hh => by cases hh⟩
        obtain rfl := Option.some.inj hh
        simp only [behindHeader, hskip]
        rfl
  · have hnonneg : ((n.toNat : Nat) : Int) = n := by omega
    have hskip : st.inStream.rest.length - bytes.length = 1 := by
      rw [hr]
      simp only [List.length_cons]
      omega
    simp only [hvar, if_false]
    refine ⟨fun h hh => ?_, fun hh => by cases hh⟩
    obtain rfl := Option.some.inj hh
    simp only [behindHeader, hskip, hnonneg]
    rfl

/-- With a header the iteration comes down to the payload. -/
theorem packetIteration_header {c : ClientId} {gen : Int} {client : Client}
    {cipher : ISAACCipher} {bytes : List Byte} {st : Incoming} {h : Header}
    (hst : Between c client cipher bytes st) (hh : readHeader cipher bytes = some h) :
    packetIteration c gen st =
      (dispatch c (behindHeader c client cipher h st)).map .yield := by
  cases bytes with
  | nil => cases hh
  | cons raw bytes =>
      have hmore : st.inStream.hasRemaining = true := by
        rw [hasRemaining_iff, hst.rest]
        exact List.cons_ne_nil raw bytes
      have hstage : ¬ client.stage ≠ .loggedIn := fun hne => hne hst.stage
      have hlength : (behindOpcode c client cipher raw st).packetLength = -1 := hst.packetLength
      simp only [packetIteration, hmore, if_true, Server.lockClient_eq hst.found, bind, Except.bind,
        hstage, if_false, hst.packetOpcode, decodeOpcode_ok hst.found hst.decryptor hst.rest,
        hlength, (decodeLength_eq c client hst.rest).1 h hh]
      cases dispatch c (behindHeader c client cipher h st) <;> rfl

/-- A header that cannot be completed: the opcode's key is drawn and the loop is left. -/
theorem packetIteration_noHeader {c : ClientId} (gen : Int) {client : Client}
    {cipher : ISAACCipher} {bytes : List Byte} {st : Incoming}
    (hst : Between c client cipher bytes st) (hne : bytes ≠ [])
    (hh : readHeader cipher bytes = none) :
    ∃ st', packetIteration c gen st = .ok (.done st') ∧
      st'.effects = st.effects ++ [.drawKey] := by
  cases bytes with
  | nil => exact absurd rfl hne
  | cons raw bytes =>
      have hmore : st.inStream.hasRemaining = true := by
        rw [hasRemaining_iff, hst.rest]
        exact hne
      have hstage : ¬ client.stage ≠ .loggedIn := fun hne => hne hst.stage
      have hlength : (behindOpcode c client cipher raw st).packetLength = -1 := hst.packetLength
      obtain ⟨st', hdone, heffects⟩ := (decodeLength_eq c client hst.rest).2 hh
      refine ⟨st', ?_, heffects⟩
      simp only [packetIteration, hmore, if_true, Server.lockClient_eq hst.found, bind, Except.bind,
        hstage, if_false, hst.packetOpcode, decodeOpcode_ok hst.found hst.decryptor hst.rest,
        hlength, hdone]
      rfl

/-! ## The payload -/

theorem behindHeader_rest {c : ClientId} {client : Client} {cipher : ISAACCipher}
    {bytes : List Byte} {st : Incoming} {h : Header} (hst : Between c client cipher bytes st)
    (hh : readHeader cipher bytes = some h) :
    (behindHeader c client cipher h st).inStream.rest = h.rest ∧
      (behindHeader c client cipher h st).inStream.pos ≤
        (behindHeader c client cipher h st).inStream.buffer.length := by
  obtain ⟨raw, pre, rfl⟩ := readHeader_suffix hh
  have hlen := congrArg List.length hst.rest
  have hpos := hst.pos_le
  simp only [rest, List.length_drop, List.length_cons, List.length_append] at hlen
  constructor
  · simp only [behindHeader, rest_skip, hst.rest]
    change List.drop _ ((raw :: pre) ++ h.rest) = h.rest
    apply List.drop_left'
    simp only [List.length_cons, List.length_append]
    omega
  · simp only [behindHeader, skip_pos, skip_buffer, hst.rest, List.length_cons, List.length_append]
    omega

/-- Too little of the payload is there: nothing is dispatched, and the iteration behind the
header is repeated unchanged. -/
theorem dispatch_short {c : ClientId} {st : Incoming} {n : Nat}
    (hpos : st.inStream.pos ≤ st.inStream.buffer.length) (hlen : st.packetLength = n)
    (h : st.inStream.rest.length < n) : dispatch c st = .ok st := by
  have hno : ¬ st.inStream.remaining ≥ st.packetLength := by
    rw [hlen, ge_iff_le, le_remaining_iff hpos]
    omega
  simp only [dispatch, hno, if_false]
  rfl

theorem packetIteration_short {c : ClientId} (gen : Int) {client : Client}
    {cipher : ISAACCipher} {bytes : List Byte} {st : Incoming} {h : Header}
    (hst : Between c client cipher bytes st) (hh : readHeader cipher bytes = some h)
    (hshort : h.rest.length < h.packetLength) :
    Yields (packetIteration c gen) st (behindHeader c client cipher h st) := by
  obtain ⟨hrest, hpos⟩ := behindHeader_rest hst hh
  rw [Yields, packetIteration_header hst hh,
    dispatch_short (n := h.packetLength) hpos rfl (by rwa [hrest])]
  rfl

theorem packetIteration_fixed {c : ClientId} {gen : Int} {client : Client}
    {cipher : ISAACCipher} {bytes : List Byte} {st : Incoming} {h : Header}
    (hst : Between c client cipher bytes st) (hh : readHeader cipher bytes = some h)
    (hne : h.rest ≠ []) (hshort : h.rest.length < h.packetLength) :
    Yields (packetIteration c gen) (behindHeader c client cipher h st)
      (behindHeader c client cipher h st) := by
  obtain ⟨hrest, hpos⟩ := behindHeader_rest hst hh
  have hmore : (behindHeader c client cipher h st).inStream.hasRemaining = true := by
    rw [hasRemaining_iff, hrest]
    exact hne
  have hfound : (behindHeader c client cipher h st).server.clients c =
      some (keyDrawn client cipher) := Server.setClient_clients_self ..
  have hstage : ¬ (keyDrawn client cipher).stage ≠ .loggedIn := fun hne => hne hst.stage
  have hopcode : (behindHeader c client cipher h st).packetOpcode ≠ -1 := by
    have h0 := readHeader_opcode hh
    change h.packetOpcode ≠ -1
    omega
  have hlength : (behindHeader c client cipher h st).packetLength ≠ -1 := by
    change (h.packetLength : Int) ≠ -1
    omega
  have hdispatch := dispatch_short (c := c) (n := h.packetLength) hpos rfl (by rwa [hrest])
  simp only [Yields, packetIteration, hmore, if_true, Server.lockClient_eq hfound, bind,
    Except.bind, hstage, if_false, hopcode, hlength, pure, Except.pure, hdispatch]

/-- All of the payload is there: the packet is handled, and the loop is between packets
again, or has failed. -/
theorem packetIteration_packet {c : ClientId} (gen : Int) {client : Client}
    {cipher : ISAACCipher} {bytes : List Byte} {st : Incoming} {h : Header}
    (hst : Between c client cipher bytes st) (hh : readHeader cipher bytes = some h)
    (hlen : h.packetLength ≤ h.rest.length) :
    (∀ {s' : Server} {k : Nat}, handlePacket (st.server.setClient c (keyDrawn client cipher)) c
        h.packetOpcode h.packetLength (behindHeader c client cipher h st).inStream =
        .ok s' ((behindHeader c client cipher h st).inStream.skip k) →
      Yields (packetIteration c gen) st { st with
        server := s'
        inStream := (behindHeader c client cipher h st).inStream.skip k
        effects := st.effects ++
          [.drawKey, .dispatch h.packetOpcode (h.rest.take h.packetLength)] }) ∧
    (∀ {e b'}, handlePacket (st.server.setClient c (keyDrawn client cipher)) c
        h.packetOpcode h.packetLength (behindHeader c client cipher h st).inStream = .error e b' →
      packetIteration c gen st = .error e) := by
  obtain ⟨hrest, hpos⟩ := behindHeader_rest hst hh
  have hroom : (behindHeader c client cipher h st).inStream.remaining ≥
      (behindHeader c client cipher h st).packetLength := by
    change (h.packetLength : Int) ≤ _
    rw [le_remaining_iff hpos, hrest]
    exact hlen
  have htake : (behindHeader c client cipher h st).packetLength.toNat = h.packetLength := rfl
  constructor
  · intro s' k hrun
    rw [Yields, packetIteration_header hst hh]
    simp only [dispatch, hroom, if_true, exec, htake, hrest]
    rw [show handlePacket (behindHeader c client cipher h st).server c
      (behindHeader c client cipher h st).packetOpcode
      (behindHeader c client cipher h st).packetLength
      (behindHeader c client cipher h st).inStream = _ from hrun]
    simp only [bind, Except.bind, pure, Except.pure, Except.map, behindHeader, List.append_assoc,
      List.cons_append, List.nil_append, hst.packetOpcode, hst.packetLength]
  · intro e b' hrun
    rw [packetIteration_header hst hh]
    simp only [dispatch, hroom, if_true, exec]
    rw [show handlePacket (behindHeader c client cipher h st).server c
      (behindHeader c client cipher h st).packetOpcode
      (behindHeader c client cipher h st).packetLength
      (behindHeader c client cipher h st).inStream = _ from hrun]
    rfl

/-! ## Termination -/

/-- The bytes lead the loop to a header with some of its payload behind it, but not all.
`live` says whether the client has a player. -/
inductive Stalls (live : Bool) : ISAACCipher → List Byte → Prop where
  | here {cipher : ISAACCipher} {bytes : List Byte} {h : Header} :
      readHeader cipher bytes = some h → h.rest ≠ [] → h.rest.length < h.packetLength →
      Stalls live cipher bytes
  | later {cipher : ISAACCipher} {bytes : List Byte} {h : Header} {k : Nat} :
      readHeader cipher bytes = some h → h.packetLength ≤ h.rest.length →
      packetSpan live h.packetOpcode h.packetLength h.rest.length = some k →
      Stalls live cipher.getNextKey.2 (h.rest.drop k) → Stalls live cipher bytes

theorem packetSpan_le {live : Bool} {packetOpcode : Int} {n available k : Nat}
    (hn : n ≤ available) (h : packetSpan live packetOpcode n available = some k) :
    k ≤ available := by
  simp only [packetSpan] at h
  split_ifs at h <;> simp only [Option.some.injEq] at h <;> omega

/-- After a packet the loop is between packets again. -/
theorem between_next (effects : List Effect) {c : ClientId} {client : Client} {cipher : ISAACCipher}
    {bytes : List Byte}
    {st : Incoming} {h : Header} {k : Nat} {s' : Server}
    (hst : Between c client cipher bytes st) (hh : readHeader cipher bytes = some h)
    (hk : k ≤ h.rest.length)
    (hs : Undisturbed (st.server.setClient c (keyDrawn client cipher)) s') :
    Between c (keyDrawn client cipher) cipher.getNextKey.2 (h.rest.drop k)
      { st with
        server := s'
        inStream := (behindHeader c client cipher h st).inStream.skip k
        effects } := by
  obtain ⟨hrest, hpos⟩ := behindHeader_rest hst hh
  refine ⟨?_, hst.stage, rfl, hst.packetOpcode, hst.packetLength, ?_, ?_⟩
  · rw [hs.clients]
    exact Server.setClient_clients_self ..
  · rw [rest_skip, hrest]
  · have hlen := congrArg List.length hrest
    simp only [rest, List.length_drop] at hlen
    simp only [skip_pos, skip_buffer]
    omega

/-- One packet of the loop: it fails, or goes on between packets. -/
theorem packet_cases {c : ClientId} (gen : Int) {client : Client} {cipher : ISAACCipher}
    {bytes : List Byte} {st : Incoming} {h : Header} (hst : Between c client cipher bytes st)
    (hh : readHeader cipher bytes = some h) (hlen : h.packetLength ≤ h.rest.length) :
    (∀ k, packetSpan (st.server.lockPlayer client.player).isSome h.packetOpcode h.packetLength
        h.rest.length = some k →
      ∃ st', Yields (packetIteration c gen) st st' ∧
        Between c (keyDrawn client cipher) cipher.getNextKey.2 (h.rest.drop k) st' ∧
        st'.server.lockPlayer = st.server.lockPlayer) ∧
    (packetSpan (st.server.lockPlayer client.player).isSome h.packetOpcode h.packetLength
        h.rest.length = none → ∃ e, packetIteration c gen st = .error e) := by
  obtain ⟨hrest, -⟩ := behindHeader_rest hst hh
  obtain ⟨hyield, hfail⟩ := packetIteration_packet gen hst hh hlen
  have hfound : (st.server.setClient c (keyDrawn client cipher)).clients c =
      some (keyDrawn client cipher) := Server.setClient_clients_self ..
  obtain ⟨hok, herr⟩ := handlePacket_span h.packetOpcode (n := h.packetLength)
    (b := (behindHeader c client cipher h st).inStream) hfound (by rwa [hrest])
  rw [hrest] at hok herr
  constructor
  · intro k hk
    obtain ⟨s', hrun, hsame⟩ := hok k hk
    exact ⟨_, hyield hrun, between_next _ hst hh (packetSpan_le hlen hk) hsame, hsame.lockPlayer⟩
  · intro hnone
    obtain ⟨e, b', hrun⟩ := herr hnone
    exact ⟨e, hfail hrun⟩

theorem not_halts_of_stalls {c : ClientId} {gen : Int} {live : Bool} {cipher : ISAACCipher}
    {bytes : List Byte} (h : Stalls live cipher bytes) {client : Client} {st : Incoming}
    (hst : Between c client cipher bytes st)
    (hlive : (st.server.lockPlayer client.player).isSome = live) :
    ¬ Halts (packetIteration c gen) st := by
  induction h generalizing client st with
  | @here cipher bytes h hh hne hshort =>
      rw [halts_iff_of_reaches (Relation.ReflTransGen.single
        (packetIteration_short gen hst hh hshort))]
      exact not_halts_of_fixed (packetIteration_fixed hst hh hne hshort)
  | @later cipher bytes h k hh hlen hk _ ih =>
      obtain ⟨st', hyield, hst', hlock⟩ := (packet_cases gen hst hh hlen).1 k
        (by rw [hlive]; exact hk)
      rw [halts_iff_of_reaches (Relation.ReflTransGen.single hyield)]
      exact ih hst' (by rw [hlock]; exact hlive)

theorem halts_of_not_stalls {c : ClientId} {gen : Int} {live : Bool} {cipher : ISAACCipher}
    {bytes : List Byte} (h : ¬ Stalls live cipher bytes) {client : Client} {st : Incoming}
    (hst : Between c client cipher bytes st)
    (hlive : (st.server.lockPlayer client.player).isSome = live) :
    Halts (packetIteration c gen) st := by
  induction hn : bytes.length using Nat.strong_induction_on
    generalizing bytes cipher client st with
  | _ n ih =>
  by_cases hnil : bytes = []
  · exact ⟨_, ends_of_done (packetIteration_nil (by rw [hst.rest, hnil]))⟩
  · cases hh : readHeader cipher bytes with
    | none =>
        obtain ⟨st', hdone, -⟩ := packetIteration_noHeader gen hst hnil hh
        exact ⟨_, ends_of_done hdone⟩
    | some header =>
        rcases Nat.lt_or_ge header.rest.length header.packetLength with hshort | hlen
        · -- only a header with nothing behind it is left
          have hempty : header.rest = [] := by
            by_contra hne
            exact h (.here hh hne hshort)
          obtain ⟨hrest, -⟩ := behindHeader_rest hst hh
          rw [halts_iff_of_reaches (Relation.ReflTransGen.single
            (packetIteration_short gen hst hh hshort))]
          exact ⟨_, ends_of_done (packetIteration_nil (by rw [hrest, hempty]))⟩
        · obtain ⟨hyield, hfail⟩ := packet_cases gen hst hh hlen
          rw [hlive] at hyield hfail
          cases hk : packetSpan live header.packetOpcode header.packetLength
              header.rest.length with
          | none =>
              obtain ⟨e, herr⟩ := hfail hk
              exact ⟨_, ends_of_error herr⟩
          | some k =>
              obtain ⟨st', hy, hst', hlock⟩ := hyield k hk
              rw [halts_iff_of_reaches (Relation.ReflTransGen.single hy)]
              have hshorter : (header.rest.drop k).length < n := by
                have hless := readHeader_length hh
                rw [List.length_drop]
                omega
              exact ih _ hshorter (fun hs => h (.later hh hlen hk hs)) hst'
                (by rw [hlock]; exact hlive) rfl

/-- The packet loop over a chunk ends exactly when the chunk does not stall. -/
theorem packetLoop_halts_iff {s : Server} {c : ClientId} {client : Client} {cipher : ISAACCipher}
    (hc : s.clients c = some client) (hstage : client.stage = .loggedIn)
    (hd : client.decryptor = some cipher) (gen : Int) (chunk : List Byte) :
    Halts (packetIteration c gen) { server := s, inStream := ofData chunk } ↔
      ¬ Stalls (s.lockPlayer client.player).isSome cipher chunk := by
  have hst : Between c client cipher chunk { server := s, inStream := ofData chunk } :=
    ⟨hc, hstage, hd, rfl, rfl, rest_ofData chunk, Nat.zero_le _⟩
  exact ⟨fun hhalts hs => not_halts_of_stalls hs hst rfl hhalts,
    fun hs => halts_of_not_stalls hs hst rfl⟩

/-! ### A chunk that hangs -/

theorem openOpcode_opcodeByte (cipher : ISAACCipher) {packetOpcode : Int} (h0 : 0 ≤ packetOpcode)
    (h : packetOpcode < 256) :
      openOpcode cipher (opcodeByte packetOpcode cipher) = packetOpcode := by
  simp only [openOpcode, opcodeByte, toByte, BitVec.toNat_ofInt]
  omega

/-- Opcode 14 announces eight bytes of payload. -/
theorem readHeader_fourteen (cipher : ISAACCipher) (rest : List Byte) :
    readHeader cipher (opcodeByte 14 cipher :: rest) =
      some { packetOpcode := 14, packetLength := 8, rest } := by
  have htable : packetLengths[(14 : Int).toNat]? = some 8 := by decide +kernel
  simp only [readHeader, openOpcode_opcodeByte cipher (show (0 : Int) ≤ 14 by decide) (by decide),
    htable]
  rfl

theorem not_stalls_header_only (live : Bool) (cipher : ISAACCipher) :
    ¬ Stalls live cipher [opcodeByte 14 cipher] := by
  intro h
  cases h with
  | here hh hne _ =>
      rw [readHeader_fourteen] at hh
      obtain rfl := Option.some.inj hh
      exact hne rfl
  | later hh hlen _ _ =>
      rw [readHeader_fourteen] at hh
      obtain rfl := Option.some.inj hh
      exact absurd hlen (by decide)

theorem stalls_part_of_payload (live : Bool) (cipher : ISAACCipher) :
    Stalls live cipher [opcodeByte 14 cipher, 0] :=
  .here (readHeader_fourteen _ _) (List.cons_ne_nil _ _) (by decide : 1 < 8)

/-- A whole packet, and behind it the header of a second one. -/
def packetThenHeader (cipher : ISAACCipher) : List Byte :=
  opcodeByte 14 cipher :: (List.replicate 8 0 ++ [opcodeByte 14 cipher.getNextKey.2])

theorem not_stalls_packetThenHeader (live : Bool) (cipher : ISAACCipher) :
    ¬ Stalls live cipher (packetThenHeader cipher) := by
  intro h
  cases h with
  | here hh _ hshort =>
      rw [packetThenHeader, readHeader_fourteen] at hh
      obtain rfl := Option.some.inj hh
      exact absurd (show 9 < 8 from hshort) (by decide)
  | later hh _ hspan hrest =>
      rw [packetThenHeader, readHeader_fourteen] at hh
      obtain rfl := Option.some.inj hh
      obtain rfl := Option.some.inj hspan
      exact not_stalls_header_only live _ hrest

/-- The packet is handled, and with nothing behind the second header the loop ends. -/
theorem packetLoop_halts_packetThenHeader :
    Halts (packetIteration 0 0)
      { server := crowd 0, inStream := ofData (packetThenHeader crowdDecryptor) } :=
  (packetLoop_halts_iff (crowd_client (Nat.le_refl 0)) rfl rfl 0 _).mpr
    (not_stalls_packetThenHeader _ _)

/-- With one of eight bytes behind it the loop never ends. -/
theorem packetLoop_hangs :
    (crowd 0).clients 0 = some (crowdClient 0) ∧ (crowdClient 0).stage = .loggedIn ∧
      (crowdClient 0).decryptor = some crowdDecryptor ∧
      ¬ Halts (packetIteration 0 0)
        { server := crowd 0, inStream := ofData [opcodeByte 14 crowdDecryptor, 0] } := by
  have hst : Between 0 (crowdClient 0) crowdDecryptor [opcodeByte 14 crowdDecryptor, 0]
      { server := crowd 0, inStream := ofData [opcodeByte 14 crowdDecryptor, 0] } :=
    ⟨rfl, rfl, rfl, rfl, rfl, rest_ofData _, Nat.zero_le _⟩
  exact ⟨rfl, rfl, rfl, not_halts_of_stalls (stalls_part_of_payload _ _) hst rfl⟩

end Client
end AsioRsps
