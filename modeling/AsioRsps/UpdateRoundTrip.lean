import AsioRsps.UpdateDecoder

/-!
# The player update is decodable

Each writer of the update is read back by the matching reader, and from these the frame that
`UpdatePlayer` sends is decoded to the update it was built from.
-/
namespace AsioRsps
open StreamBuffer BitStrings PrefixReader
open Server (crowd crowdClient crowdCipher crowd_registered)

namespace PlayerUpdate
open PlayerUpdating

/-! ## Fields -/

theorem reads_takeBits {n value : Nat} (h : value < 2 ^ n) :
    Reads (takeBits n) (bitsOf n value) value :=
  fun rest => takeBits_of_lt rest h

theorem reads_field (n : Nat) (value : Int) :
    Reads (takeBits n) (fieldBits n value) (value % 2 ^ n).toNat := by
  apply reads_takeBits
  have h1 := Int.emod_nonneg value (b := 2 ^ n) (by positivity)
  have h2 := Int.emod_lt_of_pos value (b := 2 ^ n) (by positivity)
  have hcast : ((2 ^ n : Nat) : Int) = 2 ^ n := by norm_cast
  omega

/-- A value that fits is read back unchanged. -/
theorem reads_field_of_lt {n : Nat} {value : Int} (h0 : 0 ≤ value) (h : value < 2 ^ n) :
    Reads (takeBits n) (fieldBits n value) value.toNat := by
  have hread := reads_field n value
  rwa [Int.emod_eq_of_lt h0 h] at hread

theorem reads_flag (b : Bool) : Reads flag [b] b := by
  have h := (reads_takeBits (show b.toNat < 2 ^ 1 by cases b <;> decide)).map
    (fun bit => decide (bit ≠ 0))
  rw [bitsOf_one_toNat] at h
  cases b <;> exact h

theorem reads_direction {d : Int} (hd : Position.IsDirection d) (h : d ≠ -1) :
    Reads (takeBits 3) (fieldBits 3 d) d.toNat := by
  obtain ⟨hlo, hhi⟩ := hd
  exact reads_field_of_lt (by omega) (by omega)

/-! ## Movements -/

/-- The step a player's directions and flags announce. -/
def stepOf (player : Player) : Step :=
  if player.primaryDirection ≠ -1 then
    if player.secondaryDirection ≠ -1 then
      .run player.primaryDirection.toNat player.secondaryDirection.toNat player.needsUpdate
    else .walk player.primaryDirection.toNat player.needsUpdate
  else if player.needsUpdate then .stand
  else .idle

/-- The movement directions of a player are `-1` or one of the eight directions. -/
structure LegalDirections (player : Player) : Prop where
  primary : Position.IsDirection player.primaryDirection
  secondary : Position.IsDirection player.secondaryDirection

theorem reads_movement {α : Type} (step : Step → α) (third : Reader Bool α) {player : Player}
    (h : LegalDirections player) :
    Reads (readMovement step third) (movementBits player) (step (stepOf player)) := by
  have htype (n : Nat) (hn : n < 4) : Reads (takeBits 2) (fieldBits 2 n) n :=
    reads_field_of_lt (by omega) (by omega)
  simp only [movementBits, walkOrRunBits, stepOf]
  by_cases hp : player.primaryDirection ≠ -1
  · rw [if_pos hp, if_pos hp]
    refine (reads_flag true).bind ?_
    by_cases hs : player.secondaryDirection ≠ -1
    · rw [if_pos hs, if_pos hs]
      refine (htype 2 (by decide)).bind ((reads_direction h.primary hp).bind ?_)
      exact (reads_direction h.secondary hs).bind ((reads_flag _).map _)
    · rw [if_neg hs, if_neg hs]
      refine (htype 1 (by decide)).bind ((reads_direction h.primary hp).bind ?_)
      exact (reads_flag _).map _
  · rw [if_neg hp, if_neg hp]
    by_cases hn : player.needsUpdate = true
    · rw [if_pos hn, if_pos hn]
      exact (reads_flag true).bind ((htype 0 (by decide)).bind (reads_pure (step .stand)))
    · rw [if_neg hn, if_neg hn]
      exact (reads_flag false).bind (reads_pure (step .idle))

theorem reads_third {α : Type} (step : Step → α) {third : Reader Bool α} {bits : List Bool}
    {a : α} (h : Reads third bits a) :
    Reads (readMovement step third) ([true] ++ (fieldBits 2 3 ++ bits)) a := by
  have htype : Reads (takeBits 2) (fieldBits 2 3) 3 :=
    reads_field_of_lt (show (0 : Int) ≤ 3 by decide) (by decide)
  exact (reads_flag true).bind (htype.bind h)

theorem stepOf_updated (player : Player) : (stepOf player).updated = player.needsUpdate := by
  simp only [stepOf]
  split_ifs with h1 h2 h3
  · rfl
  · rfl
  · exact h3.symm
  · exact (Bool.not_eq_true _).mp h3 |>.symm

/-! ### The viewer -/

/-- What the viewer is told about its own movement. -/
def selfOf (player : Player) : SelfMovement :=
  if player.hasFlag UpdateFlag.needsPlacement then
    .placement player.position.z.toNat (player.hasFlag UpdateFlag.resetMovement) true
      (player.position.localY player.currentRegion).toNat
      (player.position.localX player.currentRegion).toNat
  else .step (stepOf player)

/-- A player that is to be placed stands inside the region of 128 by 128 tiles around it. -/
def LegalPlacement (player : Player) : Prop :=
  player.hasFlag UpdateFlag.needsPlacement = true →
    (player.position.localX player.currentRegion).toNat < 128 ∧
    (player.position.localY player.currentRegion).toNat < 128 ∧ player.position.z.toNat < 4

theorem reads_word {n : Nat} {w : Word} (hn : n ≤ 31) (h : w.toNat < 2 ^ n) :
    Reads (takeBits n) (fieldBits n w.toInt) w.toNat := by
  have hle : 2 ^ n ≤ 2 ^ 31 := Nat.pow_le_pow_right (by decide) hn
  have hint : w.toInt = (w.toNat : Int) := by
    rw [BitVec.toInt_eq_toNat_cond, if_pos (by omega)]
  have hcast : ((2 ^ n : Nat) : Int) = 2 ^ n := by norm_cast
  have hread := reads_field_of_lt (n := n) (show 0 ≤ w.toInt by omega) (by omega)
  rwa [hint, Int.toNat_natCast, ← hint] at hread

theorem reads_self {player : Player} (hd : LegalDirections player) (hp : LegalPlacement player) :
    Reads (readMovement .step readPlacement) (localMovementBits player) (selfOf player) := by
  simp only [localMovementBits, selfOf]
  by_cases h : player.hasFlag UpdateFlag.needsPlacement = true
  · obtain ⟨hx, hy, hz⟩ := hp h
    have hreadZ := reads_word (n := 2) (by decide) hz
    have hreadY := reads_word (n := 7) (by decide) hy
    have hreadX := reads_word (n := 7) (by decide) hx
    rw [if_pos h, if_pos h]
    refine reads_third SelfMovement.step ?_
    exact hreadZ.bind ((reads_flag _).bind ((reads_flag true).bind (hreadY.bind (hreadX.map _))))
  · rw [if_neg h, if_neg h]
    exact reads_movement SelfMovement.step readPlacement hd

theorem selfOf_updated (player : Player) : (selfOf player).updated = player.needsUpdate := by
  simp only [selfOf]
  split
  · rename_i h
    exact (Player.needsUpdate_of_hasFlag h).symm
  · exact stepOf_updated player

/-! ### The listed players -/

/-- What the viewer is told about a listed player. -/
def entryOf (player other : Player) : ListEntry :=
  if keeps player other then .step (stepOf other) else .removal

theorem reads_entry (player : Player) {other : Player} (h : LegalDirections other) :
    Reads (readMovement .step (pure .removal)) (entryBits player other)
      (entryOf player other) := by
  simp only [entryBits, entryOf]
  split
  · exact reads_movement ListEntry.step _ h
  · have h3 := reads_third ListEntry.step (reads_pure (τ := Bool) ListEntry.removal)
    rwa [List.append_nil] at h3

theorem entryOf_updated (player other : Player) :
    (entryOf player other).updated = (keeps player other && other.needsUpdate) := by
  simp only [entryOf]
  split
  · rename_i h
    rw [h, Bool.true_and]
    exact stepOf_updated other
  · rename_i h
    rw [(Bool.not_eq_true _).mp h, Bool.false_and]
    rfl

/-! ### The additions -/

/-- What the viewer is told about a player it has not listed yet. -/
def additionOf (player other : Player) : Addition where
  slot := other.index.toNat
  updated := true
  discard := true
  deltaY := (other.position.y - player.position.y).toInt
  deltaX := (other.position.x - player.position.x).toInt

/-- The slot index of a player is one the end marker is not mistaken for. -/
def LegalIndex (player : Player) : Prop := 0 ≤ player.index ∧ player.index < 2047

/-- The addition of a player in view is read back, its slot first. -/
theorem reads_addition {player other : Player} (hi : LegalIndex other)
    (hv : other.position.isViewableFrom player.position = true) :
    ∃ bits, addBits player other = fieldBits 11 other.index ++ bits ∧
      Reads (takeBits 11) (fieldBits 11 other.index) other.index.toNat ∧
      Reads (readAddition other.index.toNat) bits (additionOf player other) := by
  obtain ⟨⟨hx1, hx2⟩, hy1, hy2⟩ := Position.isViewableFrom_offset hv
  obtain ⟨hi1, hi2⟩ := hi
  refine ⟨_, rfl, reads_field_of_lt hi1 (by omega), ?_⟩
  have hread : Reads (readAddition other.index.toNat) _
      { slot := other.index.toNat, updated := true, discard := true
        deltaY := toSigned 5 ((other.position.y - player.position.y).toInt % 2 ^ 5).toNat
        deltaX := toSigned 5 ((other.position.x - player.position.x).toInt % 2 ^ 5).toNat } :=
    (reads_flag true).bind ((reads_flag true).bind
      ((reads_field 5 _).bind ((reads_field 5 _).map _)))
  rwa [toSigned_emod (by decide) (by omega) (by omega),
    toSigned_emod (by decide) (by omega) (by omega)] at hread

/-- What follows the additions: the end marker, or too few bits for another slot. -/
def Ends (bits left : List Bool) : Prop :=
  bits = fieldBits 11 2047 ++ left ∨ bits = left ∧ left.length < 11

theorem readAdditions_ends {bits left : List Bool} (h : Ends bits left) (fuel : Nat) :
    readAdditions (fuel + 1) bits = some ([], left) := by
  rcases h with rfl | ⟨rfl, hshort⟩
  · have hlong : ¬ (fieldBits 11 2047 ++ left).length < 11 := by simp
    have hread : takeBits 11 (fieldBits 11 2047 ++ left) = some (2047, left) :=
      reads_takeBits (show 2047 < 2 ^ 11 by decide) left
    simp only [readAdditions, bind, StateT.bind, get, getThe, MonadStateOf.get, StateT.get, pure,
      Option.bind, hlong, if_false, hread, if_true]
    rfl
  · simp only [readAdditions, bind, StateT.bind, get, getThe, MonadStateOf.get, StateT.get, pure,
      Option.bind, hshort, if_true]
    rfl

theorem readAdditions_ok {player : Player} {players : PlayerId → Player} (qs : List PlayerId)
    (h : ∀ q ∈ qs, LegalIndex (players q) ∧
      (players q).position.isViewableFrom player.position = true)
    (fuel : Nat) (hf : qs.length < fuel) {bits left : List Bool} (he : Ends bits left) :
    readAdditions fuel (qs.flatMap (fun q => addBits player (players q)) ++ bits) =
      some (qs.map fun q => additionOf player (players q), left) := by
  obtain ⟨fuel, rfl⟩ : ∃ n, fuel = n + 1 := ⟨fuel - 1, by omega⟩
  induction qs generalizing fuel with
  | nil => exact readAdditions_ends he fuel
  | cons q qs ih =>
      obtain ⟨hindex, hview⟩ := h q List.mem_cons_self
      obtain ⟨more, hbits, hslot, hread⟩ := reads_addition hindex hview
      obtain ⟨fuel, rfl⟩ : ∃ n, fuel = n + 1 := ⟨fuel - 1, by simp at hf; omega⟩
      have hrest := ih (fun r hr => h r (List.mem_cons_of_mem q hr)) fuel
        (by simp at hf ⊢; omega)
      have hlong : ¬ (fieldBits 11 (players q).index ++ (more ++
          (qs.flatMap (fun q => addBits player (players q)) ++ bits))).length < 11 := by simp
      have hmarker : (players q).index.toNat ≠ 2047 := by
        obtain ⟨h0, h1⟩ := hindex
        omega
      rw [List.flatMap_cons, hbits, List.append_assoc, List.append_assoc, readAdditions]
      simp only [bind, StateT.bind, get, getThe, MonadStateOf.get, StateT.get, pure,
        Option.bind, hlong, if_false, hslot _, hmarker, hread _, hrest]
      rfl

/-! ### All the bits -/

/-- A state whose update of `p` stays inside the format. -/
structure LegalUpdate (s : Server) (p : PlayerId) : Prop where
  directions : ∀ q, q = p ∨ q ∈ (s.players p).localPlayers → LegalDirections (s.players q)
  placement : LegalPlacement (s.players p)
  index : ∀ q ∈ s.registered, LegalIndex (s.players q)
  list : (s.players p).localPlayers.length ≤ 255

/-- The update the server means to send. -/
def entriesOf (s : Server) (p : PlayerId) : List ListEntry :=
  (s.players p).localPlayers.map fun q => entryOf (s.players p) (s.players q)

def additionsOf (s : Server) (p : PlayerId) : List Addition :=
  (addedPlayers s p).map fun q => additionOf (s.players p) (s.players q)

theorem readMovements_ok {s : Server} {p : PlayerId} (h : LegalUpdate s p) {pad : List Bool}
    (hpad : pad.length < 8) :
    readMovements (updateBits s p ++ (pad ++ bytesBits (updateBlock s p))) =
      some ((selfOf (s.players p), entriesOf s p, additionsOf s p),
        pad ++ bytesBits (updateBlock s p)) := by
  let marker := if updateBlock s p = [] then [] else fieldBits 11 2047
  have hends : Ends (marker ++ (pad ++ bytesBits (updateBlock s p)))
      (pad ++ bytesBits (updateBlock s p)) := by
    by_cases hnil : updateBlock s p = []
    · right
      simp only [marker, hnil, if_true, bytesBits_nil, List.append_nil, List.nil_append, true_and]
      omega
    · left
      simp only [marker, hnil, if_false]
  have hself := reads_self (h.directions p (.inl rfl)) h.placement
  have hcount : Reads (takeBits 8) (fieldBits 8 (s.players p).localPlayers.length)
      (s.players p).localPlayers.length := by
    have hlist := h.list
    exact reads_field_of_lt (by omega) (by omega)
  have hentries := reads_readMany (s.players p).localPlayers
    fun q hq => reads_entry (s.players p) (h.directions q (.inr hq))
  have hlegal : ∀ q ∈ addedPlayers s p, LegalIndex (s.players q) ∧
      (s.players q).position.isViewableFrom (s.players p).position = true := fun q hq =>
    ⟨h.index q (mem_additions hq).1, (mem_additions hq).2.2.2⟩
  have hadditions := readAdditions_ok (addedPlayers s p) hlegal
    (((addedPlayers s p).flatMap (fun q => addBits (s.players p) (s.players q)) ++
      (marker ++ (pad ++ bytesBits (updateBlock s p)))).length + 1) (by
      rw [List.length_append, List.length_flatMap]
      simp only [addBits_length, List.map_const', List.sum_replicate_nat]
      omega) hends
  simp only [updateBits, List.append_assoc, readMovements]
  rw [hself.run_bind, hcount.run_bind, hentries.run_bind]
  simp only [bind, StateT.bind, Option.bind, get, getThe, MonadStateOf.get, StateT.get, pure]
  rw [hadditions]
  rfl

/-! ## State blocks -/

/-- The state block of a player. -/
def blockOf (player : Player) (forceAppearance : Bool) : StateBlock :=
  if player.hasFlag UpdateFlag.appearance || forceAppearance then
    { mask := 0x10, appearance := some (appearanceBytes player) }
  else { mask := 0, appearance := none }

theorem reads_byte (b : Byte) : Reads readByte [b] b.toNat := fun _ => rfl

theorem reads_takeBytes (bytes : List Byte) : Reads (takeBytes bytes.length) bytes bytes := by
  intro rest
  simp only [takeBytes, List.length_append, Nat.le_add_right, if_true, List.take_left',
    List.drop_left']

/-- The size of the appearance block is stored negated. -/
theorem size_of_negated {n : Nat} (h : n < 256) :
    (256 - (toByte (-(n : Int))).toNat) % 256 = n := by
  have hb : (toByte (-(n : Int))).toNat = (256 - n) % 256 := by
    rw [toByte, BitVec.toNat_ofInt]
    omega
  rw [hb]
  omega

theorem reads_block (player : Player) (forceAppearance : Bool) :
    Reads readBlock (stateBytes player forceAppearance) (blockOf player forceAppearance) := by
  simp only [stateBytes, blockOf]
  split
  · have hlen := appearanceBytes_length_le player
    have hsize := size_of_negated (n := (appearanceBytes player).length) (by omega)
    have happearance := reads_takeBytes (appearanceBytes player)
    refine (reads_byte 0x10).bind ?_
    refine (reads_byte (toByte (-((appearanceBytes player).length : Int)))).bind ?_
    rw [hsize]
    exact happearance.map _
  · exact (reads_byte 0).bind (reads_pure _)

/-- The players whose state the update carries, and whether with a forced appearance. -/
def announcedPlayers (s : Server) (p : PlayerId) : List (PlayerId × Bool) :=
  (if (s.players p).needsUpdate then [(p, false)] else []) ++
    ((((s.players p).localPlayers.filter fun q =>
      keeps (s.players p) (s.players q) && (s.players q).needsUpdate).map (·, false)) ++
    (addedPlayers s p).map (·, true))

theorem flatMap_entryBytes (player : Player) (players : PlayerId → Player) (qs : List PlayerId) :
    qs.flatMap (fun q => entryBytes player (players q)) =
      (qs.filter fun q => keeps player (players q) && (players q).needsUpdate).flatMap
        fun q => stateBytes (players q) false := by
  induction qs with
  | nil => rfl
  | cons q qs ih =>
      rw [List.flatMap_cons, ih, entryBytes, List.filter_cons]
      split
      · rw [List.flatMap_cons]
      · rw [List.nil_append]

theorem updateBlock_eq (s : Server) (p : PlayerId) :
    updateBlock s p =
      (announcedPlayers s p).flatMap fun a => stateBytes (s.players a.1) a.2 := by
  simp only [updateBlock, announcedPlayers, List.flatMap_append, List.flatMap_map,
    flatMap_entryBytes]
  congr 1
  split <;> simp

theorem count_announced (s : Server) (p : PlayerId) :
    (announced (selfOf (s.players p)) (entriesOf s p) (additionsOf s p)).count true =
      (announcedPlayers s p).length := by
  have hentries : ((entriesOf s p).map ListEntry.updated).count true =
      ((s.players p).localPlayers.filter fun q =>
        keeps (s.players p) (s.players q) && (s.players q).needsUpdate).length := by
    rw [entriesOf, List.map_map, List.count, List.countP_map, List.countP_eq_length_filter]
    congr 2
    funext q
    simp only [Function.comp, entryOf_updated, beq_true]
  have hadditions : ((additionsOf s p).map Addition.updated).count true =
      (addedPlayers s p).length := by
    rw [additionsOf, List.map_map, List.count, List.countP_map]
    exact List.countP_eq_length.mpr fun _ _ => rfl
  rw [announced, List.count_cons, List.count_append, hentries, hadditions, selfOf_updated]
  simp only [announcedPlayers, List.length_append, List.length_map]
  by_cases hn : (s.players p).needsUpdate = true
  · simp only [hn, if_true, beq_self_eq_true, List.length_singleton]
    omega
  · rw [Bool.not_eq_true] at hn
    simp [hn]

/-! ## The frame -/

/-- The update the server means to send to `p`. -/
def updateOf (s : Server) (p : PlayerId) : PlayerUpdate where
  self := selfOf (s.players p)
  entries := entriesOf s p
  additions := additionsOf s p
  blocks := (announcedPlayers s p).map fun a => blockOf (s.players a.1) a.2

theorem decodePayload_ok {s : Server} {p : PlayerId} (h : LegalUpdate s p)
    {bitBytes : List Byte} {pad : List Bool} (hb : bytesBits bitBytes = updateBits s p ++ pad)
    (hpad : pad.length < 8) :
    decodePayload (bitBytes ++ updateBlock s p) = some (updateOf s p) := by
  have hbits : bytesBits (bitBytes ++ updateBlock s p) =
      updateBits s p ++ (pad ++ bytesBits (updateBlock s p)) := by
    rw [bytesBits_append, hb, List.append_assoc]
  have halign : (bitBytes ++ updateBlock s p).drop ((bitBytes ++ updateBlock s p).length -
      (pad ++ bytesBits (updateBlock s p)).length / 8) = updateBlock s p := by
    apply List.drop_left'
    simp only [List.length_append, bytesBits_length]
    omega
  have hblocks := (reads_readMany (announcedPlayers s p)
    fun a _ => reads_block (s.players a.1) a.2).run
  rw [← updateBlock_eq] at hblocks
  simp only [decodePayload, hbits, readMovements_ok h hpad, bind, Option.bind, halign,
    count_announced, hblocks, if_true]
  rfl

theorem shortBytes_natCast {n : Nat} (h : n < 2 ^ 16) :
    ∃ high low, shortBytes n = [high, low] ∧ n = 256 * high.toNat + low.toNat := by
  refine ⟨_, _, rfl, ?_⟩
  simp only [toByte, BitVec.toNat_ofInt, Int.shiftRight_eq_div_pow]
  omega

theorem decode_ok {s : Server} {p : PlayerId} {body : List Byte} (h : LegalUpdate s p)
    (hb : UpdateBody s p body) : decode body = some (updateOf s p) := by
  obtain ⟨bitBytes, pad, hbits, hpad, rfl⟩ := hb.exists_bits
  have hsmall := updateBlock_length_le h.list
  have hsmall' := updateBits_length_le h.list
  have hlen := congrArg List.length hbits
  rw [bytesBits_length, List.length_append] at hlen
  obtain ⟨high, low, hsize, hvalue⟩ := shortBytes_natCast
    (n := (bitBytes ++ updateBlock s p).length) (by rw [List.length_append]; omega)
  rw [hsize, List.cons_append, List.cons_append, List.nil_append, decode, if_pos hvalue,
    decodePayload_ok h hbits hpad]

/-- The frame an update sends is decoded to the update the server meant. -/
theorem updatePlayer_decodable {s : Server} {p : PlayerId} {client : Client}
    {cipher : ISAACCipher} (hc : s.clients (s.players p).client = some client)
    (he : client.encryptor = some cipher) (h : LegalUpdate s p)
    (hroom : (keptPlayers s p).length < 255) :
    ∃ s' client' body, updatePlayer s p = .ok s' ∧
      s'.clients (s.players p).client = some client' ∧
      client'.queued = client.queued ++ [opcodeByte 81 cipher :: body] ∧
      decode body = some (updateOf s p) := by
  obtain ⟨body, hbody, hrun⟩ := updatePlayer_ok hc he h.list hroom
  refine ⟨_, _, body, hrun, Server.setClient_clients_self .., ?_, decode_ok h hbody⟩
  exact Client.queued_pushFrames client cipher [⟨81, body⟩] he

theorem crowd_legalUpdate (n : Nat) (h : n < 256) : LegalUpdate (crowd n) 0 where
  directions q _ := ⟨(by decide : Position.IsDirection (-1)),
    (by decide : Position.IsDirection (-1))⟩
  placement := by
    intro hflag
    rw [crowd_hasFlag] at hflag
    contradiction
  index q hq := by
    rw [crowd_registered, List.mem_range] at hq
    have hindex : ((crowd n).players q).index = (q : Int) := rfl
    rw [LegalIndex, hindex]
    omega
  list := by
    rw [crowd_local_length]
    omega

/-- Two players on one tile. -/
theorem crowd_one_decodable :
    ∃ s' client' body, updatePlayer (crowd 1) 0 = .ok s' ∧
      s'.clients ((crowd 1).players 0).client = some client' ∧
      client'.queued = (crowdClient 0).queued ++ [opcodeByte 81 crowdCipher :: body] ∧
      decode body = some (updateOf (crowd 1) 0) :=
  updatePlayer_decodable rfl rfl (crowd_legalUpdate 1 (by decide))
    (by rw [crowd_kept_length]; decide)

end PlayerUpdate
end AsioRsps
