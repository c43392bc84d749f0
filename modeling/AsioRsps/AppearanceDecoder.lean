import AsioRsps.UpdateRoundTrip

/-!
# The appearance block read back

The appearance block read back. Each of the twelve parts of a player announces its own width
by its first byte, the NPC shown instead by a value no first part can have, and the whole
block by a negated size in front of it.
-/
namespace AsioRsps
open StreamBuffer BitStrings PrefixReader PlayerUpdating Constants

namespace AppearanceBlock

/-- What is seen at one place of a player. -/
inductive Part where
  | nothing
  | body (model : Nat)
  | item (id : Nat)
  deriving DecidableEq, Repr

inductive Look where
  | npc (id : Nat)
  | parts (parts : List Part)
  deriving DecidableEq, Repr

end AppearanceBlock

open AppearanceBlock in
/-- A decoded appearance block. -/
structure AppearanceBlock where
  gender : Nat
  skull : Nat
  look : Look
  colors : List Nat
  animations : List Nat
  name : List Byte
  combatLevel : Nat
  totalLevel : Nat
  deriving DecidableEq

namespace AppearanceBlock
open PlayerUpdate (readByte takeBytes reads_byte reads_takeBytes shortBytes_natCast size_of_negated)

/-! ## The decoder -/

def readShort : Reader Byte Nat := do
  let high ← readByte
  let low ← readByte
  return 256 * high + low

/-- A zero byte for nothing, else a short: body parts from `0x100`, items from `0x200`. -/
def readPart : Reader Byte Part := do
  let high ← readByte
  if high = 0 then return .nothing
  let low ← readByte
  let value := 256 * high + low
  return if 0x200 ≤ value then .item (value - 0x200) else .body (value - 0x100)

def readNpc : Reader Byte Look := do return .npc (← readShort)

def readParts : Reader Byte Look := do return .parts (← readMany readPart 12)

/-- `0xFFFF` and an NPC, or twelve parts. -/
def readLook : Reader Byte Look := fun bytes =>
  if bytes.take 2 = [0xFF, 0xFF] then readNpc (bytes.drop 2) else readParts bytes

def readAppearance : Reader Byte AppearanceBlock := do
  let gender ← readByte
  let skull ← readByte
  let look ← readLook
  let colors ← readMany readByte 5
  let animations ← readMany readShort 7
  let name ← takeBytes 8
  let combatLevel ← readByte
  let totalLevel ← readShort
  return { gender, skull, look, colors, animations, name, combatLevel, totalLevel }

/-- The size, and a block that fills it. -/
def readSized : Reader Byte AppearanceBlock := do
  let size ← readByte
  let block ← takeBytes ((256 - size) % 256)
  match readAppearance block with
  | some (appearance, []) => return appearance
  | _ => failure

/-! ## What a player shows -/

/-- Entries 0 and 1 mean that nothing is worn. -/
def wornItem (player : Player) (slot : Fin 14) : Part :=
  let item := player.equipment.get slot
  if item > 1 then .item item.toNat else .nothing

/-- The worn item, or the body part shown in its place. -/
def itemOrBody (player : Player) (slot : Fin 14) (part : Fin 7) : Part :=
  let item := player.equipment.get slot
  if item > 1 then .item item.toNat else .body (player.appearance.get part).toNat

def bodyPart (player : Player) (part : Fin 7) : Part :=
  .body (player.appearance.get part).toNat

def lookOf (player : Player) : Look :=
  if player.npcCosplayId = -1 then
    .parts [
      wornItem player equipmentSlotHead,
      wornItem player equipmentSlotCape,
      wornItem player equipmentSlotAmulet,
      wornItem player equipmentSlotWeapon,
      itemOrBody player equipmentSlotChest appearanceSlotChest,
      wornItem player equipmentSlotShield,
      itemOrBody player equipmentSlotChest appearanceSlotArms,
      itemOrBody player equipmentSlotLegs appearanceSlotLegs,
      bodyPart player appearanceSlotHead,
      itemOrBody player equipmentSlotHands appearanceSlotHands,
      itemOrBody player equipmentSlotFeet appearanceSlotFeet,
      bodyPart player appearanceSlotBeard]
  else .npc player.npcCosplayId.toNat

/-- The block of a player, as the client should see it. -/
def blockOf (player : Player) : AppearanceBlock where
  gender := 0
  skull := 0
  look := lookOf player
  colors := List.ofFn fun i : Fin 5 => (player.colors.get i).toNat
  animations := [0x328, 0x337, 0x333, 0x334, 0x335, 0x336, 0x338]
  name := longBytes (toInt32 (playerNameToInt64 player.username))
  combatLevel := 3
  totalLevel := 0

/-- Entries a short or a byte can hold. -/
structure Representable (player : Player) : Prop where
  equipment : ∀ slot, (player.equipment.get slot).toNat < 0xFDFF
  appearance : ∀ part, (player.appearance.get part).toNat < 0x100
  colors : ∀ i, (player.colors.get i).toNat < 0x100
  npc : player.npcCosplayId = -1 ∨ player.npcCosplayId.toNat < 0x10000

/-! ## Reading the parts -/

theorem reads_short {n : Nat} (h : n < 2 ^ 16) : Reads readShort (shortBytes n) n := by
  obtain ⟨high, low, hbytes, hvalue⟩ := shortBytes_natCast h
  rw [hbytes, hvalue]
  exact (reads_byte high).bind <| (reads_byte low).bind (reads_pure _)

/-- The part a short stands for. -/
def partOf (n : Nat) : Part := if 0x200 ≤ n then .item (n - 0x200) else .body (n - 0x100)

theorem reads_part {n : Nat} (hlow : 0x100 ≤ n) (hhigh : n < 2 ^ 16) :
    Reads readPart (shortBytes n) (partOf n) := by
  obtain ⟨high, low, hbytes, hvalue⟩ := shortBytes_natCast hhigh
  have hne : ¬ high.toNat = 0 := by
    have hlt := low.isLt
    omega
  rw [hbytes, hvalue]
  refine (reads_byte high).bind ?_
  rw [if_neg hne]
  exact (reads_byte low).bind (reads_pure _)

theorem reads_nothing : Reads readPart [0] .nothing := fun _ => rfl

theorem item_toInt {item : Word} (h : item.toNat < 0xFDFF) :
    (0x200 + item).toInt = ((0x200 + item.toNat : Nat) : Int) := by
  have hbase : (0x200 : Word).toNat = 0x200 := rfl
  rw [BitVec.toInt_eq_toNat_cond, BitVec.toNat_add, hbase]
  omega

theorem part_toInt {part : Word} (h : part.toNat < 0x100) :
    (0x100 + part).toInt = ((0x100 + part.toNat : Nat) : Int) := by
  have hbase : (0x100 : Word).toNat = 0x100 := rfl
  rw [BitVec.toInt_eq_toNat_cond, BitVec.toNat_add, hbase]
  omega

theorem reads_item {item : Word} (h : item.toNat < 0xFDFF) :
    Reads readPart (shortBytes (0x200 + item).toInt) (.item item.toNat) := by
  have hread := reads_part (n := 0x200 + item.toNat) (by omega) (by omega)
  rw [item_toInt h]
  rwa [partOf, if_pos (by omega), Nat.add_sub_cancel_left] at hread

theorem reads_body {part : Word} (h : part.toNat < 0x100) :
    Reads readPart (shortBytes (0x100 + part).toInt) (.body part.toNat) := by
  have hread := reads_part (n := 0x100 + part.toNat) (by omega) (by omega)
  rw [part_toInt h]
  rwa [partOf, if_neg (by omega), Nat.add_sub_cancel_left] at hread

variable {player : Player}

theorem reads_wornItem (h : Representable player) (slot : Fin 14) :
    Reads readPart (itemBytes player slot) (wornItem player slot) := by
  simp only [itemBytes, wornItem]
  split
  · exact reads_item (h.equipment slot)
  · exact reads_nothing

theorem reads_itemOrBody (h : Representable player) (slot : Fin 14) (part : Fin 7) :
    Reads readPart (itemOrPartBytes player slot part) (itemOrBody player slot part) := by
  simp only [itemOrPartBytes, itemOrBody]
  split
  · exact reads_item (h.equipment slot)
  · exact reads_body (h.appearance part)

theorem reads_bodyPart (h : Representable player) (part : Fin 7) :
    Reads readPart (partBytes player part) (bodyPart player part) :=
  reads_body (h.appearance part)

/-- Two readings in a row, as a list. -/
theorem reads_readMany_succ {α : Type} {m : Reader Byte α} {n : Nat} {xs ys : List Byte} {a : α}
    {as : List α} (hm : Reads m xs a) (hn : Reads (readMany m n) ys as) :
    Reads (readMany m (n + 1)) (xs ++ ys) (a :: as) :=
  hm.bind (hn.map (a :: ·))

theorem reads_readMany_one {α : Type} {m : Reader Byte α} {xs : List Byte} {a : α}
    (hm : Reads m xs a) : Reads (readMany m 1) xs [a] := by
  have hnil : Reads (readMany m 0) [] [] := reads_pure []
  have h := reads_readMany_succ hm hnil
  rwa [List.append_nil] at h

/-! ## Reading the block -/

theorem reads_parts (h : Representable player) (hnpc : player.npcCosplayId = -1) :
    Reads readParts (lookBytes player) (lookOf player) := by
  have item := reads_wornItem h
  have either := reads_itemOrBody h
  have part := reads_bodyPart h
  simp only [lookBytes, lookOf, hnpc, if_true]
  exact Reads.map (reads_readMany_succ (item _) <| reads_readMany_succ (item _) <|
    reads_readMany_succ (item _) <| reads_readMany_succ (item _) <|
    reads_readMany_succ (either _ _) <| reads_readMany_succ (item _) <|
    reads_readMany_succ (either _ _) <| reads_readMany_succ (either _ _) <|
    reads_readMany_succ (part _) <| reads_readMany_succ (either _ _) <|
    reads_readMany_succ (either _ _) <| reads_readMany_one (part _)) Look.parts

/-- No first part looks like the mark of an NPC. -/
theorem not_npc_mark (h : Representable player) (slot : Fin 14) (bytes : List Byte) :
    (itemBytes player slot ++ bytes).take 2 ≠ [0xFF, 0xFF] := by
  have hitem := h.equipment slot
  simp only [itemBytes]
  split
  · obtain ⟨high, low, hbytes, hvalue⟩ :=
      shortBytes_natCast (n := 0x200 + (player.equipment.get slot).toNat) (by omega)
    rw [item_toInt hitem, hbytes]
    intro hmark
    obtain ⟨rfl, hlow⟩ := List.cons.inj hmark
    obtain ⟨rfl, -⟩ := List.cons.inj hlow
    have hmax : (0xFF : Byte).toNat = 255 := rfl
    rw [hmax] at hvalue
    omega
  · intro hmark
    exact absurd (List.cons.inj hmark).1 (by decide)

theorem reads_look (h : Representable player) :
    Reads readLook (lookBytes player) (lookOf player) := by
  intro rest
  by_cases hnpc : player.npcCosplayId = -1
  · have hread := reads_parts h hnpc rest
    have hmark : (lookBytes player ++ rest).take 2 ≠ [0xFF, 0xFF] := by
      simp only [lookBytes, hnpc, if_true, List.append_assoc]
      exact not_npc_mark h _ _
    rw [readLook, if_neg hmark]
    exact hread
  · have hsmall := h.npc.resolve_left hnpc
    have hid : player.npcCosplayId.toInt = (player.npcCosplayId.toNat : Int) := by
      rw [BitVec.toInt_eq_toNat_cond]
      omega
    have hread := Reads.map (reads_short hsmall) Look.npc rest
    have hmark : shortBytes (-1) = [0xFF, 0xFF] := by decide
    simp only [lookBytes, lookOf, hnpc, if_false, hid, hmark]
    exact hread

theorem reads_colors (h : Representable player) :
    Reads (readMany readByte 5) (colorBytes player)
      (List.ofFn fun i : Fin 5 => (player.colors.get i).toNat) := by
  have hcolor (i : Fin 5) : Reads readByte [toByte (player.colors.get i).toInt]
      (player.colors.get i).toNat := by
    have hsmall := h.colors i
    have hvalue : (toByte (player.colors.get i).toInt).toNat = (player.colors.get i).toNat := by
      rw [toByte, BitVec.toNat_ofInt, BitVec.toInt_eq_toNat_cond]
      omega
    have hread := reads_byte (toByte (player.colors.get i).toInt)
    rwa [hvalue] at hread
  exact reads_readMany_succ (hcolor 0) <| reads_readMany_succ (hcolor 1) <|
    reads_readMany_succ (hcolor 2) <| reads_readMany_succ (hcolor 3) <|
    reads_readMany_one (hcolor 4)

theorem reads_animations : Reads (readMany readShort 7) animationBytes
    [0x328, 0x337, 0x333, 0x334, 0x335, 0x336, 0x338] := by
  have short {n : Nat} (h : n < 2 ^ 16) := reads_short h
  exact reads_readMany_succ (short (by decide)) <| reads_readMany_succ (short (by decide)) <|
    reads_readMany_succ (short (by decide)) <| reads_readMany_succ (short (by decide)) <|
    reads_readMany_succ (short (by decide)) <| reads_readMany_succ (short (by decide)) <|
    reads_readMany_one (short (by decide))

theorem reads_appearance (h : Representable player) :
    Reads readAppearance (appearanceBytes player) (blockOf player) := by
  have hname := reads_takeBytes (longBytes (toInt32 (playerNameToInt64 player.username)))
  exact (reads_byte 0).bind <| (reads_byte 0).bind <| (reads_look h).bind <|
    (reads_colors h).bind <| reads_animations.bind <| hname.bind <|
    (reads_byte 3).bind <| (reads_short (by decide)).bind (reads_pure _)

/-- The size and the block it announces. -/
theorem reads_sized (h : Representable player) :
    Reads readSized ([toByte (-((appearanceBytes player).length : Int))] ++ appearanceBytes player)
      (blockOf player) := by
  have hlen := appearanceBytes_length_le player
  have hsize := size_of_negated (n := (appearanceBytes player).length) (by omega)
  refine (reads_byte _).bind ?_
  rw [hsize]
  intro rest
  rw [(reads_takeBytes (appearanceBytes player)).run_bind, (reads_appearance h).run]
  rfl

/-- The block written behind anything is read back as what the player shows, to its last byte. -/
theorem appearance_decodes (h : Representable player) {b : StreamBuffer} {w : List Byte}
    (hb : ByteOutput b w) :
    ∃ b' bytes, appendAppearance player b = .ok () b' ∧ ByteOutput b' (w ++ bytes) ∧
      Reads readSized bytes (blockOf player) := by
  obtain ⟨b', hrun, hout, -, -⟩ := appendsBytes_appendAppearance player b w hb
  exact ⟨b', _, hrun, hout, reads_sized h⟩

/-- A player who holds one item, in colours of its own. -/
def armed : Player where
  username := [98, 111, 98]
  client := 0
  equipment := #v[0, 0, 0, 1277, 0, 0, 0, 0, 0, 0, 0, 0, 0, 0]
  colors := #v[3, 12, 6, 2, 1]

/-- The block behind two bytes that are there already. -/
theorem appearance_decodes_armed :
    ∃ b' bytes, appendAppearance armed { ofData [7, 9] with pos := 2 } = .ok () b' ∧
      ByteOutput b' ([7, 9] ++ bytes) ∧ Reads readSized bytes (blockOf armed) := by
  have h : Representable armed := ⟨by decide, by decide, by decide, .inl rfl⟩
  have hb : ByteOutput { ofData [7, 9] with pos := 2 } [7, 9] :=
    ⟨rfl, rfl, List.prefix_rfl⟩
  exact appearance_decodes h hb

end AppearanceBlock
end AsioRsps
