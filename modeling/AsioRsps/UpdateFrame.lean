import AsioRsps.UpdateOutput

/-!
# One call of UpdatePlayer

The outcome of a whole call: with room left in the list after pruning, one frame 81 is sent,
and the frame's body is determined up to the padding of its bits; with no room left the call
returns early, with the header's key drawn and nothing sent.
-/
namespace AsioRsps
open StreamBuffer BitStrings
open Server (crowd crowdClient crowdCipher crowd_client crowd_registered)

namespace PlayerUpdating

/-! ## Sizes -/

theorem itemBytes_length_le (player : Player) (slot : Fin 14) :
    (itemBytes player slot).length ≤ 2 := by
  simp only [itemBytes]
  split <;> simp [shortBytes]

theorem itemOrPartBytes_length (player : Player) (slot : Fin 14) (part : Fin 7) :
    (itemOrPartBytes player slot part).length = 2 := by
  simp only [itemOrPartBytes]
  split <;> rfl

theorem lookBytes_length_le (player : Player) : (lookBytes player).length ≤ 24 := by
  have item := itemBytes_length_le player
  have head := item Constants.equipmentSlotHead
  have cape := item Constants.equipmentSlotCape
  have amulet := item Constants.equipmentSlotAmulet
  have weapon := item Constants.equipmentSlotWeapon
  have shield := item Constants.equipmentSlotShield
  have part (i : Fin 7) : (partBytes player i).length = 2 := rfl
  simp only [lookBytes]
  split
  · simp only [List.length_append, itemOrPartBytes_length, part]
    omega
  · simp [shortBytes]

theorem appearanceBytes_length_le (player : Player) : (appearanceBytes player).length ≤ 56 := by
  have h := lookBytes_length_le player
  have hanim : animationBytes.length = 14 := rfl
  simp only [appearanceBytes, List.length_append, List.length_cons, List.length_nil, colorBytes,
    List.length_ofFn, hanim, longBytes, shortBytes]
  omega

theorem stateBytes_length_le (player : Player) (forceAppearance : Bool) :
    (stateBytes player forceAppearance).length ≤ 58 := by
  have h := appearanceBytes_length_le player
  simp only [stateBytes]
  split
  · simp only [List.length_append, List.length_cons, List.length_nil]
    omega
  · simp

theorem movementBits_length_le (player : Player) : (movementBits player).length ≤ 10 := by
  simp only [movementBits, walkOrRunBits]
  split_ifs <;> simp

theorem localMovementBits_length_le (player : Player) :
    (localMovementBits player).length ≤ 21 := by
  have h := movementBits_length_le player
  simp only [localMovementBits]
  split
  · simp
  · omega

theorem entryBits_length_le (player other : Player) :
    (entryBits player other).length ≤ 10 := by
  have h := movementBits_length_le other
  simp only [entryBits]
  split
  · exact h
  · simp

theorem entryBytes_length_le (player other : Player) : (entryBytes player other).length ≤ 58 := by
  have h := stateBytes_length_le other false
  simp only [entryBytes]
  split
  · exact h
  · simp

theorem addBits_length (player other : Player) : (addBits player other).length = 23 := by
  simp [addBits]

theorem length_flatMap_le {α β : Type} (f : α → List β) (n : Nat) (xs : List α)
    (h : ∀ x, (f x).length ≤ n) : (xs.flatMap f).length ≤ n * xs.length := by
  induction xs with
  | nil => simp
  | cons x xs ih =>
      have hx := h x
      rw [List.flatMap_cons, List.length_append, List.length_cons, Nat.mul_succ]
      omega

theorem additions_length_le (players : PlayerId → Player) (p : PlayerId)
    (listed qs : List PlayerId) (h : listed.length ≤ 255) :
    listed.length + (additions players p listed qs).length ≤ 255 := by
  induction qs generalizing listed with
  | nil => exact h
  | cons q qs ih =>
      rw [additions]
      split_ifs with hfull hadd
      · exact h
      · have hq := ih (listed ++ [q]) (by simp; omega)
        simp only [List.length_append, List.length_cons, List.length_nil] at hq ⊢
        omega
      · exact ih listed h

/-! ## The parts of an update -/

/-- The entries an update leaves in the list of `p`. -/
def keptPlayers (s : Server) (p : PlayerId) : List PlayerId :=
  (s.players p).localPlayers.filter fun q => keeps (s.players p) (s.players q)

/-- The entries it adds. -/
def addedPlayers (s : Server) (p : PlayerId) : List PlayerId :=
  additions s.players p (keptPlayers s p) s.registered

/-- The state blocks, in announcement order. -/
def updateBlock (s : Server) (p : PlayerId) : List Byte :=
  (if (s.players p).needsUpdate then stateBytes (s.players p) false else []) ++
    ((s.players p).localPlayers.flatMap (fun q => entryBytes (s.players p) (s.players q)) ++
    (addedPlayers s p).flatMap fun q => stateBytes (s.players q) true)

/-- The bits, up to the padding. -/
def updateBits (s : Server) (p : PlayerId) : List Bool :=
  localMovementBits (s.players p) ++ (fieldBits 8 (s.players p).localPlayers.length ++
    ((s.players p).localPlayers.flatMap (fun q => entryBits (s.players p) (s.players q)) ++
    ((addedPlayers s p).flatMap (fun q => addBits (s.players p) (s.players q)) ++
    if updateBlock s p = [] then [] else fieldBits 11 2047)))

theorem addedPlayers_length_le {s : Server} {p : PlayerId} (h : (keptPlayers s p).length ≤ 255) :
    (keptPlayers s p).length + (addedPlayers s p).length ≤ 255 :=
  additions_length_le _ _ _ _ h

theorem updateBlock_length_le {s : Server} {p : PlayerId}
    (hlist : (s.players p).localPlayers.length ≤ 255) : (updateBlock s p).length ≤ 29638 := by
  have hown := stateBytes_length_le (s.players p) false
  have hentries := length_flatMap_le (fun q => entryBytes (s.players p) (s.players q)) 58
    (s.players p).localPlayers fun q => entryBytes_length_le _ _
  have hadded := length_flatMap_le (fun q => stateBytes (s.players q) true) 58
    (addedPlayers s p) fun q => stateBytes_length_le _ _
  have hcount := addedPlayers_length_le (s := s) (p := p)
    ((List.length_filter_le _ _).trans hlist)
  simp only [updateBlock, List.length_append]
  split
  · omega
  · rw [List.length_nil]
    omega

theorem updateBits_length_le {s : Server} {p : PlayerId}
    (hlist : (s.players p).localPlayers.length ≤ 255) : (updateBits s p).length ≤ 8455 := by
  have hown := localMovementBits_length_le (s.players p)
  have hentries := length_flatMap_le (fun q => entryBits (s.players p) (s.players q)) 10
    (s.players p).localPlayers fun q => entryBits_length_le _ _
  have hadded := length_flatMap_le (fun q => addBits (s.players p) (s.players q)) 23
    (addedPlayers s p) fun q => (addBits_length _ _).le
  have hcount := addedPlayers_length_le (s := s) (p := p)
    ((List.length_filter_le _ _).trans hlist)
  simp only [updateBits, List.length_append, fieldBits_length]
  split
  · rw [List.length_nil]
    omega
  · rw [fieldBits_length]
    omega

/-! ## The frame -/

/-- The body of the frame 81 for `p`: its size and its payload, the padded bits and then the
state blocks. -/
structure UpdateBody (s : Server) (p : PlayerId) (body : List Byte) : Prop where
  exists_bits : ∃ bitBytes pad, bytesBits bitBytes = updateBits s p ++ pad ∧ pad.length < 8 ∧
    body = shortBytes (bitBytes ++ updateBlock s p).length ++ (bitBytes ++ updateBlock s p)

/-- An open update becomes a finished frame. -/
theorem finishUpdate_ok {u : Update} {op : Byte} {bits : List Bool} {bytes : List Byte}
    {locals : List PlayerId} (h : Holds u (bytesBits [op, 0, 0] ++ bits) bytes locals)
    (hbits : bits.length < 2 ^ 16) (hbytes : bytes.length < 2 ^ 16) :
    ∃ out bitBytes pad, finishUpdate u = .ok out ∧
      bytesBits bitBytes = bits ++ (if bytes = [] then [] else fieldBits 11 2047) ++ pad ∧
      pad.length < 8 ∧
      ByteOutput out (op :: (shortBytes (bitBytes ++ bytes).length ++ (bitBytes ++ bytes))) := by
  -- closing the buffer in byte access, whatever was written to it
  have close {u : Update} {bits' : List Bool} (hu : Holds u (bytesBits [op, 0, 0] ++ bits') bytes
      locals) (hbits' : bits'.length < 2 ^ 16 + 11) :
      ∃ u' bitBytes pad, writeOut u (setAccessType .byteAccess) = .ok u' ∧
        bytesBits bitBytes = bits' ++ pad ∧ pad.length < 8 ∧
        ByteOutput u'.out ([op] ++ 0 :: 0 :: bitBytes) ∧ u'.out.frameSize = 1 ∧
        u'.out.headerSize = .short ∧ ByteOutput u'.block bytes ∧ bitBytes.length < 2 ^ 16 := by
    obtain ⟨out, all, pad, hrun, hout, hall, hpad, hf, hh⟩ := setAccessType_byte hu.out
    rw [List.append_assoc] at hall
    obtain ⟨bitBytes, rfl, hb⟩ := bytesBits_prefix hall
    have hlen := congrArg List.length hb
    rw [bytesBits_length, List.length_append] at hlen
    refine ⟨{ u with out }, bitBytes, pad, ?_, hb, hpad, hout, hf.trans hu.frameSize,
      hh.trans hu.headerSize, hu.block, by omega⟩
    simp only [writeOut, exec, hrun]
    rfl
  by_cases hnil : bytes = []
  · obtain ⟨u₁, bitBytes, pad, hrun₁, hb, hpad, hout₁, hf₁, hh₁, -, hsmall⟩ := close h (by omega)
    obtain ⟨out, hrun, hout⟩ := finishVariableHeader_short hout₁ (by simp) hf₁ hh₁
      (by simp; omega)
    have hpos : ¬ u.block.pos > 0 := by rw [h.block.cursor, hnil]; simp
    refine ⟨out, bitBytes, pad, ?_, by simpa [hnil] using hb, hpad, by simpa [hnil] using hout⟩
    simp only [finishUpdate, hpos, if_false, hrun₁, bind, Except.bind]
    simp only [writeOut, exec, hrun, bind, Except.bind]
    rfl
  · obtain ⟨u₀, hrun₀, h₀⟩ := h.writeOut (appendsBits_field 11 2047)
    rw [List.append_assoc] at h₀
    obtain ⟨u₁, bitBytes, pad, hrun₁, hb, hpad, hout₁, hf₁, hh₁, hblock₁, hsmall⟩ := close h₀
      (by rw [List.length_append, fieldBits_length]; omega)
    obtain ⟨out₂, hrun₂, hout₂, hf₂, hh₂⟩ := appendsBytes_writeBytes hblock₁ _ _ hout₁
    have hout₂' : ByteOutput out₂ ([op] ++ 0 :: 0 :: (bitBytes ++ bytes)) := by simpa using hout₂
    obtain ⟨out, hrun, hout⟩ := finishVariableHeader_short hout₂' (by simp) (hf₂.trans hf₁)
      (hh₂.trans hh₁) (by simp; omega)
    have hpos : u.block.pos > 0 := by
      rw [h.block.cursor]
      exact List.length_pos_of_ne_nil hnil
    have hwrite : writeOut u₁ (writeBytes u₁.block) = .ok { u₁ with out := out₂ } := by
      simp only [writeOut, exec, hrun₂]
      rfl
    have hfinish : writeOut { u₁ with out := out₂ } finishVariableHeader = .ok { u₁ with out } := by
      simp only [writeOut, exec, hrun]
      rfl
    refine ⟨out, bitBytes, pad, ?_, by simpa [hnil] using hb, hpad, by simpa using hout⟩
    simp only [finishUpdate, hpos, if_true, hrun₀, hrun₁, hwrite, hfinish, bind, Except.bind]
    rfl

/-- The bits written before the loop over the world. -/
def openBits (s : Server) (p : PlayerId) : List Bool :=
  localMovementBits (s.players p) ++ (fieldBits 8 (s.players p).localPlayers.length ++
    (s.players p).localPlayers.flatMap fun q => entryBits (s.players p) (s.players q))

/-- The state blocks written before it. -/
def openBlock (s : Server) (p : PlayerId) : List Byte :=
  (if (s.players p).needsUpdate then stateBytes (s.players p) false else []) ++
    (s.players p).localPlayers.flatMap fun q => entryBytes (s.players p) (s.players q)

/-- A player whose client is alive and has an encryptor gets as far as the loop over the
world, with one key drawn. -/
theorem openUpdate_ok {s : Server} {p : PlayerId} {client : Client} {cipher : ISAACCipher}
    (hc : s.clients (s.players p).client = some client) (he : client.encryptor = some cipher) :
    ∃ u, openUpdate s p = .ok (u, s.setClient (s.players p).client (client.drawKey cipher)) ∧
      Holds u (bytesBits [opcodeByte 81 cipher, 0, 0] ++ openBits s p) (openBlock s p)
        (keptPlayers s p) := by
  obtain ⟨out₀, hw, hout₀, hf₀, hh₀⟩ := writeHeader_short 2048 81 cipher
  obtain ⟨out₁, hbit, hout₁, hf₁, hh₁⟩ := setAccessType_bit hout₀
  have h₁ : Holds { out := out₁, block := ofSize 1024, localPlayers := [] }
      (bytesBits [opcodeByte 81 cipher, 0, 0]) [] [] :=
    ⟨hout₁, hf₁.trans hf₀, hh₁.trans hh₀, byteOutput_ofSize 1024, rfl⟩
  obtain ⟨u₂, hrun₂, h₂⟩ := h₁.writeOut (appendsBits_updateLocalPlayerMovement (s.players p))
  obtain ⟨u₃, hrun₃, h₃⟩ : ∃ u₃,
      (if (s.players p).needsUpdate then writeBlock u₂ (updateState (s.players p) false)
        else pure u₂) = .ok u₃ ∧
      Holds u₃ (bytesBits [opcodeByte 81 cipher, 0, 0] ++ localMovementBits (s.players p))
        (if (s.players p).needsUpdate then stateBytes (s.players p) false else []) [] := by
    split
    · exact h₂.writeBlock (appendsBytes_updateState (s.players p) false)
    · exact ⟨u₂, rfl, h₂⟩
  obtain ⟨u₄, hrun₄, h₄⟩ := h₃.writeOut
    (appendsBits_field 8 ((s.players p).localPlayers.length : Int))
  obtain ⟨u₅, hrun₅, h₅⟩ := pruneEntries_ok s.players (s.players p)
    (s.players p).localPlayers h₄
  refine ⟨u₅, ?_, ?_⟩
  · have hset : writeOut { out := out₀, block := ofSize 1024, localPlayers := [] }
        (setAccessType .bitAccess) =
        .ok { out := out₁, block := ofSize 1024, localPlayers := [] } := by
      simp only [writeOut, exec, hbit]
      rfl
    simp only [openUpdate, Client.openFrame_eq hc he hw, bind, Except.bind, hset, hrun₂]
    split at hrun₃
    · rename_i hn
      simp only [hn, if_true, hrun₃, hrun₄, Server.setClient_players, hrun₅]
      rfl
    · rename_i hn
      simp only [hn, hrun₃, hrun₄, Server.setClient_players, hrun₅]
      rfl
  · simpa only [openBits, openBlock, keptPlayers, List.append_assoc, List.nil_append] using h₅

/-- Whether an entry is added does not depend on the list the player is left with. -/
theorem addEntry_setLocalPlayers (s : Server) (p : PlayerId) (locals : List PlayerId) :
    addEntry (s.setLocalPlayers p locals).players p = addEntry s.players p := by
  funext u q
  by_cases hq : q = p
  · subst hq
    simp only [addEntry, if_true]
  · simp only [addEntry, Server.setLocalPlayers_self, Server.setLocalPlayers_of_ne s _ hq,
      addPlayer]

/-- With room left in the list, one key is drawn and one frame 81 is sent. -/
theorem updatePlayer_ok {s : Server} {p : PlayerId} {client : Client} {cipher : ISAACCipher}
    (hc : s.clients (s.players p).client = some client) (he : client.encryptor = some cipher)
    (hlist : (s.players p).localPlayers.length ≤ 255) (hroom : (keptPlayers s p).length < 255) :
    ∃ body, UpdateBody s p body ∧
      updatePlayer s p = .ok ((s.setLocalPlayers p (keptPlayers s p ++ addedPlayers s p)).setClient
        (s.players p).client (client.pushFrame cipher ⟨81, body⟩)) := by
  obtain ⟨u, hrun, h⟩ := openUpdate_ok hc he
  obtain ⟨u', hrun', h'⟩ := addEntries_ok s.players p s.registered h
  rw [← addedPlayers, List.append_assoc] at h'
  have hblock : openBlock s p ++ (addedPlayers s p).flatMap (fun q => stateBytes (s.players q) true)
      = updateBlock s p := by
    simp only [openBlock, updateBlock, List.append_assoc]
  have hbits : openBits s p ++
      (addedPlayers s p).flatMap (fun q => addBits (s.players p) (s.players q)) ++
      (if updateBlock s p = [] then [] else fieldBits 11 2047) = updateBits s p := by
    simp only [openBits, updateBits, List.append_assoc]
  have hsmall := updateBits_length_le hlist
  rw [← hbits, List.length_append] at hsmall
  have hsmall' := updateBlock_length_le hlist
  rw [hblock] at h'
  obtain ⟨out, bitBytes, pad, hfinish, hpadded, hpad, hout⟩ := finishUpdate_ok h'
    (by omega) (by omega)
  rw [hbits] at hpadded
  refine ⟨_, ⟨bitBytes, pad, hpadded, hpad, rfl⟩, ?_⟩
  have hnot : ¬ 255 ≤ (keptPlayers s p).length := by omega
  rw [← addEntry_setLocalPlayers s p (keptPlayers s p)] at hrun'
  have hentries : ((s.setClient (s.players p).client (client.drawKey cipher)).setLocalPlayers p
      (keptPlayers s p)).registered.foldlM (addEntry ((s.setClient (s.players p).client
      (client.drawKey cipher)).setLocalPlayers p (keptPlayers s p)).players p) u = .ok u' := hrun'
  have hclient : ((s.setLocalPlayers p (keptPlayers s p ++ addedPlayers s p)).setClient
      (s.players p).client (client.drawKey cipher)).clients (s.players p).client =
      some (client.drawKey cipher) := Server.setClient_clients_self ..
  simp only [updatePlayer, hrun, bind, Except.bind, ge_iff_le, h.localPlayers, hnot, if_false,
    hentries]
  simp only [hfinish, h'.localPlayers, Server.setLocalPlayers_setLocalPlayers,
    Server.setLocalPlayers_setClient, Server.lockClient_eq hclient]
  rw [Client.send_ok hclient hout, Server.setClient_setClient]
  rfl

/-- With no room left, the key is drawn and the list pruned, but nothing is sent. -/
theorem updatePlayer_full {s : Server} {p : PlayerId} {client : Client} {cipher : ISAACCipher}
    (hc : s.clients (s.players p).client = some client) (he : client.encryptor = some cipher)
    (hfull : 255 ≤ (keptPlayers s p).length) :
    updatePlayer s p = .ok ((s.setLocalPlayers p (keptPlayers s p)).setClient
      (s.players p).client (client.drawKey cipher)) := by
  obtain ⟨u, hrun, h⟩ := openUpdate_ok hc he
  simp only [updatePlayer, hrun, bind, Except.bind, ge_iff_le, h.localPlayers, hfull, if_true]
  rfl

/-! ## The keystream and the wire -/

/-- The call draws exactly one key and sends exactly one finished frame 81, encrypted with it. -/
def SendsOneFrame (s : Server) (p : PlayerId) (client : Client) (cipher : ISAACCipher) : Prop :=
  ∃ s' client' payload, updatePlayer s p = .ok s' ∧
    s'.clients (s.players p).client = some client' ∧
    client'.encryptor = some (cipher.advance 1) ∧
    client'.queued = client.queued ++
      [toByte (81 + cipher.nextKey.toNat) :: (shortBytes payload.length ++ payload)]

/-- The keystream stays in step with the wire exactly when pruning leaves room in the list. -/
theorem updatePlayer_sendsOneFrame_iff {s : Server} {p : PlayerId} {client : Client}
    {cipher : ISAACCipher} (hc : s.clients (s.players p).client = some client)
    (he : client.encryptor = some cipher) (hlist : (s.players p).localPlayers.length ≤ 255) :
    SendsOneFrame s p client cipher ↔
      ((s.players p).localPlayers.filter fun q =>
        (s.players q).position.isViewableFrom (s.players p).position &&
          !(s.players q).hasFlag UpdateFlag.needsPlacement).length < 255 := by
  constructor
  · rintro ⟨s', client', payload, hrun, hclient, -, hqueued⟩
    by_contra hfull
    rw [updatePlayer_full hc he (Nat.le_of_not_lt hfull)] at hrun
    obtain rfl := Except.ok.inj hrun
    rw [Server.setClient_clients_self] at hclient
    obtain rfl := Option.some.inj hclient
    have hsame : (client.drawKey cipher).queued = client.queued := rfl
    rw [hsame] at hqueued
    have hlen := congrArg List.length hqueued
    simp at hlen
  · intro hroom
    obtain ⟨body, ⟨bitBytes, pad, -, -, rfl⟩, hrun⟩ := updatePlayer_ok hc he hlist hroom
    refine ⟨_, _, bitBytes ++ updateBlock s p, hrun, Server.setClient_clients_self .., rfl, ?_⟩
    exact Client.queued_pushFrames client cipher [⟨81, _⟩] he

theorem crowd_local_length (n : Nat) : ((crowd n).players 0).localPlayers.length = n := by
  simp [crowd]

theorem crowd_hasFlag (n : Nat) (p : PlayerId) (flag : Word) :
    ((crowd n).players p).hasFlag flag = false := Player.hasFlag_none rfl flag

/-- Everybody in a crowd is in view of everybody and nobody has been placed anew. -/
theorem crowd_keeps (n : Nat) (p q : PlayerId) :
    keeps ((crowd n).players p) ((crowd n).players q) = true := by
  have hp : ((crowd n).players p).position = { x := 3200, y := 3200 } := rfl
  have hq : ((crowd n).players q).position = { x := 3200, y := 3200 } := rfl
  simp only [keeps, hp, hq, crowd_hasFlag]
  decide

theorem crowd_kept_length (n : Nat) : (keptPlayers (crowd n) 0).length = n := by
  rw [keptPlayers, List.filter_eq_self.mpr fun q _ => crowd_keeps n 0 q, crowd_local_length]

/-- Two players on one tile: the frame is sent. -/
theorem crowd_one_sendsOneFrame : SendsOneFrame (crowd 1) 0 (crowdClient 0) crowdCipher :=
  (updatePlayer_sendsOneFrame_iff rfl rfl (by rw [crowd_local_length]; decide)).mpr (by
      have h := crowd_kept_length 1
      simp only [keptPlayers, keeps] at h
      omega)

/-- With 256 players on one tile and 255 of them listed, the key is drawn and no frame is
sent. -/
theorem crowd_full_silent :
    0 ∈ (crowd 255).registered ∧ (crowd 255).clients 0 = some (crowdClient 0) ∧
      ((crowd 255).players 0).localPlayers.length ≤ 255 ∧
      ∃ s' client', updatePlayer (crowd 255) 0 = .ok s' ∧ s'.clients 0 = some client' ∧
        client'.encryptor = some (crowdCipher.advance 1) ∧ client'.queued = [] ∧
        ¬ SendsOneFrame (crowd 255) 0 (crowdClient 0) crowdCipher := by
  have hclient0 : (crowd 255).clients ((crowd 255).players 0).client = some (crowdClient 0) :=
    crowd_client (Nat.zero_le 255)
  have hrun := updatePlayer_full (s := crowd 255) (p := 0) hclient0
    (show (crowdClient 0).encryptor = some crowdCipher from rfl) (by rw [crowd_kept_length])
  refine ⟨by rw [crowd_registered]; decide, rfl, by rw [crowd_local_length], _, _, hrun,
    Server.setClient_clients_self .., rfl, rfl, ?_⟩
  rintro ⟨s', client', payload, hrun', hclient, -, hqueued⟩
  obtain rfl := Except.ok.inj (hrun.symm.trans hrun')
  obtain rfl := Option.some.inj ((Server.setClient_clients_self ..).symm.trans hclient)
  have hlen := congrArg List.length hqueued
  rw [List.length_append] at hlen
  exact absurd hlen (Nat.ne_of_lt (Nat.lt_succ_self _))

end PlayerUpdating
end AsioRsps
