import AsioRsps.PlayerUpdating

/-!
# What an update writes

Every function of `PlayerUpdating` as an equation on the bits and bytes it appends, and from
these the outcome of a whole call of `UpdatePlayer`: the frame it sends, or the early return
when the list is full.
-/
namespace AsioRsps
open StreamBuffer BitStrings

namespace PlayerUpdating
open Constants

/-! ## State blocks -/

def itemBytes (player : Player) (slot : Fin 14) : List Byte :=
  let item := player.equipment.get slot
  if item > 1 then shortBytes (0x200 + item).toInt else [0]

def itemOrPartBytes (player : Player) (slot : Fin 14) (part : Fin 7) : List Byte :=
  let item := player.equipment.get slot
  if item > 1 then shortBytes (0x200 + item).toInt
  else shortBytes (0x100 + player.appearance.get part).toInt

def partBytes (player : Player) (part : Fin 7) : List Byte :=
  shortBytes (0x100 + player.appearance.get part).toInt

/-- The equipment and body parts, or the NPC shown instead. -/
def lookBytes (player : Player) : List Byte :=
  if player.npcCosplayId = -1 then
    itemBytes player equipmentSlotHead ++
    (itemBytes player equipmentSlotCape ++
    (itemBytes player equipmentSlotAmulet ++
    (itemBytes player equipmentSlotWeapon ++
    (itemOrPartBytes player equipmentSlotChest appearanceSlotChest ++
    (itemBytes player equipmentSlotShield ++
    (itemOrPartBytes player equipmentSlotChest appearanceSlotArms ++
    (itemOrPartBytes player equipmentSlotLegs appearanceSlotLegs ++
    (partBytes player appearanceSlotHead ++
    (itemOrPartBytes player equipmentSlotHands appearanceSlotHands ++
    (itemOrPartBytes player equipmentSlotFeet appearanceSlotFeet ++
    partBytes player appearanceSlotBeard))))))))))
  else shortBytes (-1) ++ shortBytes player.npcCosplayId.toInt

def colorBytes (player : Player) : List Byte :=
  List.ofFn fun i : Fin 5 => toByte (player.colors.get i).toInt

def animationBytes : List Byte :=
  shortBytes 0x328 ++ (shortBytes 0x337 ++ (shortBytes 0x333 ++ (shortBytes 0x334 ++
    (shortBytes 0x335 ++ (shortBytes 0x336 ++ shortBytes 0x338)))))

/-- The appearance block without its size. -/
def appearanceBytes (player : Player) : List Byte :=
  [0, 0] ++ (lookBytes player ++ (colorBytes player ++ (animationBytes ++
    (longBytes (toInt32 (playerNameToInt64 player.username)) ++ ([3] ++ shortBytes 0)))))

theorem appendsBytes_appendItem (player : Player) (slot : Fin 14) :
    AppendsBytes (appendItem player slot) (itemBytes player slot) := by
  simp only [appendItem, itemBytes]
  split
  · exact appendsBytes_writeShort _
  · exact appendsBytes_writeByte 0 .standard

theorem appendsBytes_appendItemOrPart (player : Player) (slot : Fin 14) (part : Fin 7) :
    AppendsBytes (appendItemOrPart player slot part) (itemOrPartBytes player slot part) := by
  simp only [appendItemOrPart, itemOrPartBytes]
  split <;> exact appendsBytes_writeShort _

theorem appendsBytes_appendPart (player : Player) (part : Fin 7) :
    AppendsBytes (appendPart player part) (partBytes player part) :=
  appendsBytes_writeShort _

theorem appendsBytes_appendLook (player : Player) :
    AppendsBytes (appendLook player) (lookBytes player) := by
  have item := appendsBytes_appendItem player
  have itemOrPart := appendsBytes_appendItemOrPart player
  have part := appendsBytes_appendPart player
  by_cases h : player.npcCosplayId = -1
  · simp only [appendLook, lookBytes, h, if_true]
    exact (item _).bind <| (item _).bind <| (item _).bind <| (item _).bind <|
      (itemOrPart _ _).bind <| (item _).bind <| (itemOrPart _ _).bind <|
      (itemOrPart _ _).bind <| (part _).bind <| (itemOrPart _ _).bind <|
      (itemOrPart _ _).bind (part _)
  · simp only [appendLook, lookBytes, h, if_false]
    exact (appendsBytes_writeShort _).bind (appendsBytes_writeShort _)

theorem appendsBytes_appearanceBlock (player : Player) :
    AppendsBytes (appearanceBlock player) (appearanceBytes player) := by
  have hcolors (i : Fin 5) := appendsBytes_writeByte (player.colors.get i).toInt .standard
  exact (appendsBytes_writeByte 0 .standard).bind <| (appendsBytes_writeByte 0 .standard).bind <|
    (appendsBytes_appendLook player).bind <| (hcolors 0).bind <| (hcolors 1).bind <|
    (hcolors 2).bind <| (hcolors 3).bind <| (hcolors 4).bind <|
    (appendsBytes_writeShort 0x328).bind <| (appendsBytes_writeShort 0x337).bind <|
    (appendsBytes_writeShort 0x333).bind <| (appendsBytes_writeShort 0x334).bind <|
    (appendsBytes_writeShort 0x335).bind <| (appendsBytes_writeShort 0x336).bind <|
    (appendsBytes_writeShort 0x338).bind <|
    (appendsBytes_writeLong (toInt32 (playerNameToInt64 player.username))).bind <|
    (appendsBytes_writeByte 3 .standard).bind (appendsBytes_writeShort 0)

/-- The block of one player: a mask byte, and under mask `0x10` the size of the appearance
block in `C` form and the block. -/
def stateBytes (player : Player) (forceAppearance : Bool) : List Byte :=
  if player.hasFlag UpdateFlag.appearance || forceAppearance then
    [0x10] ++ ([toByte (-((appearanceBytes player).length : Int))] ++ appearanceBytes player)
  else [0]

theorem appendsBytes_appendAppearance (player : Player) :
    AppendsBytes (appendAppearance player)
      ([toByte (-((appearanceBytes player).length : Int))] ++ appearanceBytes player) := by
  obtain ⟨block, hrun, hout⟩ := (appendsBytes_appearanceBlock player).exec_ofSize 128
  simp only [appendAppearance, hrun, hout.cursor]
  exact (appendsBytes_writeByte _ .c).bind (appendsBytes_writeBytes hout)

theorem appendsBytes_updateState (player : Player) (forceAppearance : Bool) :
    AppendsBytes (updateState player forceAppearance) (stateBytes player forceAppearance) := by
  simp only [updateState, stateBytes]
  split
  · exact (appendsBytes_writeByte 0x10 .standard).bind (appendsBytes_appendAppearance player)
  · exact (appendsBytes_writeByte 0 .standard).bind appendsBytes_pure

/-! ## Movement bits -/

def walkOrRunBits (player : Player) : List Bool :=
  if player.secondaryDirection ≠ -1 then
    fieldBits 2 2 ++ (fieldBits 3 player.primaryDirection ++
      (fieldBits 3 player.secondaryDirection ++ [player.needsUpdate]))
  else fieldBits 2 1 ++ (fieldBits 3 player.primaryDirection ++ [player.needsUpdate])

/-- What `UpdateOtherPlayerMovement` writes. -/
def movementBits (player : Player) : List Bool :=
  if player.primaryDirection ≠ -1 then [true] ++ walkOrRunBits player
  else if player.needsUpdate then [true] ++ fieldBits 2 0
  else [false]

/-- What `UpdateLocalPlayerMovement` writes. -/
def localMovementBits (player : Player) : List Bool :=
  if player.hasFlag UpdateFlag.needsPlacement then
    [true] ++ (fieldBits 2 3 ++ (fieldBits 2 player.position.z.toInt ++
      ([player.hasFlag UpdateFlag.resetMovement] ++ ([true] ++
      (fieldBits 7 (player.position.localY player.currentRegion).toInt ++
      fieldBits 7 (player.position.localX player.currentRegion).toInt)))))
  else movementBits player

def addBits (player other : Player) : List Bool :=
  fieldBits 11 other.index ++ ([true] ++ ([true] ++
    (fieldBits 5 (other.position.y - player.position.y).toInt ++
    fieldBits 5 (other.position.x - player.position.x).toInt)))

theorem appendsBits_field (n : Nat) (value : Int) (hpos : 0 < n := by decide)
    (hn : n ≤ 32 := by decide) : AppendsBits (writeBits n value) (fieldBits n value) :=
  appendsBits_writeBits n value hpos hn

theorem appendsBits_updateOtherPlayerMovement (player : Player) :
    AppendsBits (updateOtherPlayerMovement player) (movementBits player) := by
  simp only [updateOtherPlayerMovement, movementBits, walkOrRunBits]
  split
  · refine (appendsBits_writeBit true).bind ?_
    split
    · exact (appendsBits_field 2 2).bind <| (appendsBits_field 3 _).bind <|
        (appendsBits_field 3 _).bind (appendsBits_writeBit _)
    · exact (appendsBits_field 2 1).bind <| (appendsBits_field 3 _).bind (appendsBits_writeBit _)
  · split
    · exact (appendsBits_writeBit true).bind (appendsBits_field 2 0)
    · exact appendsBits_writeBit false

theorem appendsBits_updateLocalPlayerMovement (player : Player) :
    AppendsBits (updateLocalPlayerMovement player) (localMovementBits player) := by
  simp only [updateLocalPlayerMovement, localMovementBits]
  split
  · exact (appendsBits_writeBit true).bind <| (appendsBits_field 2 3).bind <|
      (appendsBits_field 2 _).bind <| (appendsBits_writeBit _).bind <|
      (appendsBits_writeBit true).bind <| (appendsBits_field 7 _).bind (appendsBits_field 7 _)
  · exact appendsBits_updateOtherPlayerMovement player

theorem appendsBits_addPlayer (player other : Player) :
    AppendsBits (addPlayer player other) (addBits player other) :=
  (appendsBits_field 11 _).bind <| (appendsBits_writeBit true).bind <|
    (appendsBits_writeBit true).bind <| (appendsBits_field 5 _).bind (appendsBits_field 5 _)

/-! ## The two buffers together -/

/-- What an update holds after some of its steps: the bits and the state bytes written, the
entries listed, and the frame still open. -/
structure Holds (u : Update) (bits : List Bool) (bytes : List Byte) (locals : List PlayerId) :
    Prop where
  out : BitOutput u.out bits
  frameSize : u.out.frameSize = 1
  headerSize : u.out.headerSize = .short
  block : ByteOutput u.block bytes
  localPlayers : u.localPlayers = locals

theorem Holds.writeOut {u : Update} {bits xs : List Bool} {bytes : List Byte}
    {locals : List PlayerId} {m : StreamM Unit} (h : Holds u bits bytes locals)
    (hm : AppendsBits m xs) :
    ∃ u', writeOut u m = .ok u' ∧ Holds u' (bits ++ xs) bytes locals := by
  obtain ⟨out, hrun, hout, hf, hh⟩ := hm u.out bits h.out
  refine ⟨{ u with out }, ?_, ⟨hout, hf.trans h.frameSize, hh.trans h.headerSize, h.block,
    h.localPlayers⟩⟩
  simp only [PlayerUpdating.writeOut, exec, hrun]
  rfl

theorem Holds.writeBlock {u : Update} {bits : List Bool} {bytes xs : List Byte}
    {locals : List PlayerId} {m : StreamM Unit} (h : Holds u bits bytes locals)
    (hm : AppendsBytes m xs) :
    ∃ u', writeBlock u m = .ok u' ∧ Holds u' bits (bytes ++ xs) locals := by
  obtain ⟨block, hrun, hblock, -, -⟩ := hm u.block bytes h.block
  refine ⟨{ u with block }, ?_, ⟨h.out, h.frameSize, h.headerSize, hblock, h.localPlayers⟩⟩
  simp only [PlayerUpdating.writeBlock, exec, hrun]
  rfl

/-! ### The loop over the local list -/

def entryBits (player other : Player) : List Bool :=
  if keeps player other then movementBits other else [true] ++ fieldBits 2 3

def entryBytes (player other : Player) : List Byte :=
  if keeps player other && other.needsUpdate then stateBytes other false else []

theorem pruneEntry_ok {players : PlayerId → Player} {player : Player} {u : Update}
    {bits : List Bool} {bytes : List Byte} {locals : List PlayerId} (q : PlayerId)
    (h : Holds u bits bytes locals) :
    ∃ u', pruneEntry players player u q = .ok u' ∧
      Holds u' (bits ++ entryBits player (players q)) (bytes ++ entryBytes player (players q))
        (locals ++ [q].filter fun q => keeps player (players q)) := by
  by_cases hk : keeps player (players q) = true
  · obtain ⟨u₁, hrun₁, h₁⟩ := h.writeOut (appendsBits_updateOtherPlayerMovement (players q))
    by_cases hn : (players q).needsUpdate = true
    · obtain ⟨u₂, hrun₂, h₂⟩ := h₁.writeBlock (appendsBytes_updateState (players q) false)
      refine ⟨{ u₂ with localPlayers := u₂.localPlayers ++ [q] }, ?_, ?_⟩
      · simp only [pruneEntry, hk, hn, if_true, hrun₁, hrun₂, bind, Except.bind]
        rfl
      · simp only [entryBits, entryBytes, hk, hn, Bool.and_self, if_true, List.filter_cons_of_pos,
          List.filter_nil]
        exact ⟨h₂.out, h₂.frameSize, h₂.headerSize, h₂.block, by rw [h₂.localPlayers]⟩
    · rw [Bool.not_eq_true] at hn
      refine ⟨{ u₁ with localPlayers := u₁.localPlayers ++ [q] }, ?_, ?_⟩
      · simp only [pruneEntry, hk, hn, if_true, hrun₁, bind, Except.bind, Bool.false_eq_true,
          if_false]
        rfl
      · simp only [entryBits, entryBytes, hk, hn, Bool.and_false, Bool.false_eq_true, if_true,
          if_false, List.filter_cons_of_pos, List.filter_nil, List.append_nil]
        exact ⟨h₁.out, h₁.frameSize, h₁.headerSize, h₁.block, by rw [h₁.localPlayers]⟩
  · rw [Bool.not_eq_true] at hk
    obtain ⟨u₁, hrun₁, h₁⟩ := h.writeOut (appendsBits_writeBit true)
    obtain ⟨u₂, hrun₂, h₂⟩ := h₁.writeOut (appendsBits_field 2 3)
    refine ⟨u₂, ?_, ?_⟩
    · simp only [pruneEntry, hk, hrun₁, bind, Except.bind, Bool.false_eq_true, if_false]
      exact hrun₂
    · simp only [entryBits, entryBytes, hk, Bool.false_and, Bool.false_eq_true, if_false,
        not_false_eq_true, List.filter_cons_of_neg, List.filter_nil, List.append_nil,
        ← List.append_assoc]
      exact h₂

theorem pruneEntries_ok (players : PlayerId → Player) (player : Player) {u : Update}
    {bits : List Bool} {bytes : List Byte} {locals : List PlayerId} (qs : List PlayerId)
    (h : Holds u bits bytes locals) :
    ∃ u', qs.foldlM (pruneEntry players player) u = .ok u' ∧
      Holds u' (bits ++ qs.flatMap fun q => entryBits player (players q))
        (bytes ++ qs.flatMap fun q => entryBytes player (players q))
        (locals ++ qs.filter fun q => keeps player (players q)) := by
  induction qs generalizing u bits bytes locals with
  | nil => exact ⟨u, rfl, by simpa using h⟩
  | cons q qs ih =>
      obtain ⟨u₁, hrun₁, h₁⟩ := pruneEntry_ok q h
      obtain ⟨u₂, hrun₂, h₂⟩ := ih h₁
      refine ⟨u₂, ?_, ?_⟩
      · rw [List.foldlM_cons, hrun₁]
        exact hrun₂
      · rw [← List.singleton_append, List.flatMap_append, List.flatMap_append,
          List.filter_append]
        simpa only [List.flatMap_singleton, List.append_assoc] using h₂

/-! ### The loop over the world -/

/-- The players an update adds: those in view and not listed yet, in the order of the world,
until the list is full. -/
def additions (players : PlayerId → Player) (p : PlayerId) :
    List PlayerId → List PlayerId → List PlayerId
  | _, [] => []
  | listed, q :: qs =>
      if listed.length ≥ 255 then []
      else if q ≠ p ∧ q ∉ listed ∧ (players q).position.isViewableFrom (players p).position then
        q :: additions players p (listed ++ [q]) qs
      else additions players p listed qs

theorem mem_additions {players : PlayerId → Player} {p q : PlayerId} {listed qs : List PlayerId}
    (h : q ∈ additions players p listed qs) : q ∈ qs ∧ q ≠ p ∧ q ∉ listed ∧
      (players q).position.isViewableFrom (players p).position = true := by
  induction qs generalizing listed with
  | nil => simp [additions] at h
  | cons r qs ih =>
      rw [additions] at h
      split_ifs at h with hfull hadd
      · simp at h
      · rcases List.mem_cons.mp h with rfl | h
        · exact ⟨List.mem_cons_self, hadd⟩
        · obtain ⟨hq, hp, hl, hv⟩ := ih h
          exact ⟨List.mem_cons_of_mem r hq, hp, fun hm => hl (List.mem_append_left _ hm), hv⟩
      · obtain ⟨hq, hrest⟩ := ih h
        exact ⟨List.mem_cons_of_mem r hq, hrest⟩

theorem additions_nodup (players : PlayerId → Player) (p : PlayerId)
    (listed qs : List PlayerId) : (additions players p listed qs).Nodup := by
  induction qs generalizing listed with
  | nil => exact List.nodup_nil
  | cons q qs ih =>
      rw [additions]
      split
      · exact List.nodup_nil
      · split
        · refine List.nodup_cons.mpr ⟨fun hmem => ?_, ih _⟩
          exact (mem_additions hmem).2.2.1 (List.mem_append_right _ List.mem_cons_self)
        · exact ih _

/-- Whoever is in view is added while the list does not fill up. -/
theorem mem_additions_of_room {players : PlayerId → Player} {p q : PlayerId}
    {listed qs : List PlayerId} (hq : q ∈ qs) (hne : q ≠ p) (hnot : q ∉ listed)
    (hview : (players q).position.isViewableFrom (players p).position = true)
    (hroom : listed.length + (additions players p listed qs).length < 255) :
    q ∈ additions players p listed qs := by
  induction qs generalizing listed with
  | nil => cases hq
  | cons r qs ih =>
      rw [additions] at hroom ⊢
      rw [if_neg (by omega)] at hroom ⊢
      by_cases hqr : q = r
      · subst hqr
        rw [if_pos ⟨hne, hnot, hview⟩]
        exact List.mem_cons_self
      · have hrest := (List.mem_cons.mp hq).resolve_left hqr
        split_ifs at hroom ⊢ with hadd
        · refine List.mem_cons_of_mem _ (ih hrest ?_ ?_)
          · rw [List.mem_append, List.mem_singleton]
            exact not_or.mpr ⟨hnot, hqr⟩
          · rw [List.length_append, List.length_singleton]
            rw [List.length_cons] at hroom
            omega
        · exact ih hrest hnot hroom

theorem addEntries_full {players : PlayerId → Player} {p : PlayerId} {u : Update}
    (h : 255 ≤ u.localPlayers.length) (qs : List PlayerId) :
    qs.foldlM (addEntry players p) u = .ok u := by
  induction qs with
  | nil => rfl
  | cons q qs ih =>
      rw [List.foldlM_cons]
      simp only [addEntry, ge_iff_le, h, if_true]
      exact ih

theorem addEntry_ok {players : PlayerId → Player} {p q : PlayerId} {u : Update}
    {bits : List Bool} {bytes : List Byte} {locals : List PlayerId}
    (h : Holds u bits bytes locals) (hroom : ¬ 255 ≤ locals.length)
    (hadd : q ≠ p ∧ q ∉ locals ∧ (players q).position.isViewableFrom (players p).position) :
    ∃ u', addEntry players p u q = .ok u' ∧
      Holds u' (bits ++ addBits (players p) (players q)) (bytes ++ stateBytes (players q) true)
        (locals ++ [q]) := by
  have h₀ : Holds { u with localPlayers := u.localPlayers ++ [q] } bits bytes (locals ++ [q]) :=
    ⟨h.out, h.frameSize, h.headerSize, h.block, by rw [h.localPlayers]⟩
  obtain ⟨u₁, hrun₁, h₁⟩ := h₀.writeOut (appendsBits_addPlayer (players p) (players q))
  obtain ⟨u₂, hrun₂, h₂⟩ := h₁.writeBlock (appendsBytes_updateState (players q) true)
  refine ⟨u₂, ?_, h₂⟩
  rw [← h.localPlayers] at hroom hadd
  simp only [addEntry, ge_iff_le, hroom, if_false, hadd.1, hadd.2, not_false_eq_true, and_self,
    if_true, bind, Except.bind, hrun₁]
  exact hrun₂

theorem addEntry_skip {players : PlayerId → Player} {p q : PlayerId} {u : Update}
    (hadd : ¬ (q ≠ p ∧ q ∉ u.localPlayers ∧
      (players q).position.isViewableFrom (players p).position)) :
    addEntry players p u q = .ok u := by
  simp only [addEntry]
  split_ifs with h1 h2 h3
  · rfl
  · rfl
  · exact absurd ⟨h2, h3⟩ hadd
  · rfl

theorem addEntries_ok (players : PlayerId → Player) (p : PlayerId) {u : Update}
    {bits : List Bool} {bytes : List Byte} {locals : List PlayerId} (qs : List PlayerId)
    (h : Holds u bits bytes locals) :
    ∃ u', qs.foldlM (addEntry players p) u = .ok u' ∧
      Holds u'
        (bits ++ (additions players p locals qs).flatMap fun q => addBits (players p) (players q))
        (bytes ++ (additions players p locals qs).flatMap fun q => stateBytes (players q) true)
        (locals ++ additions players p locals qs) := by
  induction qs generalizing u bits bytes locals with
  | nil => exact ⟨u, rfl, by simpa [additions] using h⟩
  | cons q qs ih =>
      by_cases hfull : 255 ≤ locals.length
      · refine ⟨u, addEntries_full (by rwa [h.localPlayers]) _, ?_⟩
        simpa [additions, hfull] using h
      · by_cases hadd : q ≠ p ∧ q ∉ locals ∧
          (players q).position.isViewableFrom (players p).position
        · obtain ⟨u₁, hrun₁, h₁⟩ := addEntry_ok h hfull hadd
          obtain ⟨u₂, hrun₂, h₂⟩ := ih h₁
          refine ⟨u₂, ?_, ?_⟩
          · rw [List.foldlM_cons, hrun₁]
            exact hrun₂
          · rw [additions, if_neg hfull, if_pos hadd]
            simpa only [List.flatMap_cons, List.append_assoc, List.singleton_append] using h₂
        · obtain ⟨u₁, hrun₁, h₁⟩ := ih h
          refine ⟨u₁, ?_, ?_⟩
          · rw [List.foldlM_cons, addEntry_skip (by rwa [h.localPlayers])]
            exact hrun₁
          · rw [additions, if_neg hfull, if_neg hadd]
            exact h₁

end PlayerUpdating
end AsioRsps
