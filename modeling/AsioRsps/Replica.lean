import AsioRsps.PacketLoop
import AsioRsps.UpdateRoundTrip
import AsioRsps.Waypoints

/-!
# A reference client

What a client makes of the frames it is sent: the map region of a frame 73 and the update of a
frame 81, applied in order to what it knew before. A frame is decrypted with the next key of the
cipher it shares with the server.
-/
namespace AsioRsps
open BitStrings (Byte)
open StreamBuffer PlayerUpdate

/-- Another player as the client knows it. -/
structure Neighbour where
  slot : Int
  position : Position

/-- The loaded region in units of eight tiles, the client's own position, and the other players in
their order. -/
structure Replica where
  region : Option (Nat × Nat) := none
  position : Option Position := none
  others : List Neighbour := []

namespace Replica

/-! ## Frames -/

/-- The body of a frame 73; the first short is of value type `A`. -/
def loadRegion (r : Replica) : List Byte → Option Replica
  | [highX, lowX, highY, lowY] => some { r with
      region := some (256 * highX.toNat + (lowX.toNat + 128) % 256,
        256 * highY.toNat + lowY.toNat) }
  | _ => none

def moveSelf (r : Replica) : SelfMovement → Option Position
  | .step step => do
      let position ← r.position
      position.stepAlong step.directions
  | .placement z _ _ localY localX => do
      let (regionX, regionY) ← r.region
      return {
        x := BitVec.ofNat 32 (8 * regionX + localX) - 48
        y := BitVec.ofNat 32 (8 * regionY + localY) - 48
        z := BitVec.ofNat 32 z }

/-- There is one entry for each of the players known. -/
def moveOthers : List Neighbour → List ListEntry → Option (List Neighbour)
  | [], [] => some []
  | _ :: others, .removal :: entries => moveOthers others entries
  | other :: others, .step step :: entries => do
      let position ← other.position.stepAlong step.directions
      let others ← moveOthers others entries
      return { other with position } :: others
  | _, _ => none

/-- An added player's position is relative to the client's own. -/
def neighbour (position : Position) (addition : Addition) : Neighbour where
  slot := addition.slot
  position := position.move addition.deltaX addition.deltaY

def update (r : Replica) (u : PlayerUpdate) : Option Replica := do
  let position ← r.moveSelf u.self
  let others ← moveOthers r.others u.entries
  return { r with
    position := some position
    others := others ++ u.additions.map (neighbour position) }

/-- Other frames say nothing about positions. -/
def receive (r : Replica) (opcode : Int) (body : List Byte) : Option Replica :=
  if opcode = 73 then r.loadRegion body
  else if opcode = 81 then do
    let u ← decode body
    r.update u
  else some r

def replay (cipher : ISAACCipher) (r : Replica) : List (List Byte) → Option Replica
  | [] => some r
  | [] :: _ => none
  | (raw :: body) :: frames => do
      let r ← r.receive (Client.openOpcode cipher raw) body
      replay cipher.getNextKey.2 r frames

/-! ## Decryption -/

/-- The frames before they are encrypted. -/
def receiveAll (r : Replica) (frames : List Client.OutFrame) : Option Replica :=
  frames.foldlM (fun r f => r.receive f.opcode f.body) r

theorem receiveAll_cons (r : Replica) (f : Client.OutFrame) (frames : List Client.OutFrame) :
    r.receiveAll (f :: frames) =
      (r.receive f.opcode f.body).bind fun r => r.receiveAll frames :=
  List.foldlM_cons

theorem receiveAll_append (r : Replica) (frames more : List Client.OutFrame) :
    r.receiveAll (frames ++ more) =
      (r.receiveAll frames).bind fun r => r.receiveAll more :=
  List.foldlM_append

/-- An opcode fits the byte it is sent in. -/
def LegalOpcode (f : Client.OutFrame) : Prop := 0 ≤ f.opcode ∧ f.opcode < 256

theorem replay_encryptAll (cipher : ISAACCipher) (r : Replica) {frames : List Client.OutFrame}
    (h : ∀ f ∈ frames, LegalOpcode f) :
    replay cipher r (Client.encryptAll cipher frames) = r.receiveAll frames := by
  induction frames generalizing cipher r with
  | nil => rfl
  | cons f frames ih =>
      obtain ⟨h0, h1⟩ := h f List.mem_cons_self
      have hrest := fun r => ih cipher.getNextKey.2 r fun g hg => h g (List.mem_cons_of_mem _ hg)
      rw [receiveAll_cons, Client.encryptAll, Client.OutFrame.encrypt, replay,
        Client.openOpcode_opcodeByte cipher h0 h1]
      exact congrArg (Option.bind (r.receive f.opcode f.body)) (funext hrest)

/-! ## The map region -/

theorem short_toNat {n : Nat} (h : n < 65536) :
    256 * (toByte ((n : Int) >>> (8 : Nat))).toNat + (toByte (n : Int)).toNat = n ∧
      256 * (toByte ((n : Int) >>> (8 : Nat))).toNat +
        ((toByte ((n : Int) + 128)).toNat + 128) % 256 = n := by
  simp only [toByte, BitVec.toNat_ofInt, Int.shiftRight_eq_div_pow]
  omega

/-- A coordinate in units of eight tiles. -/
def chunk (w : Word) : Nat := (w >>> 3).toNat

theorem chunk_eq (w : Word) : chunk w = w.toNat / 8 := by
  rw [chunk, BitVec.toNat_ushiftRight, Nat.shiftRight_eq_div_pow]

theorem chunk_toInt (w : Word) : ((w >>> 3) - 6 + 6).toInt = chunk w := by
  rw [BitVec.sub_add_cancel, BitVec.toInt_eq_toNat_of_lt]
  · rfl
  · change 2 * chunk w < 2 ^ 32
    rw [chunk_eq]
    omega

theorem receive_mapRegion (r : Replica) {position : Position}
    (h : MovementHandler.OnMap position) :
    r.receive 73 (Client.mapRegionFrame position).body =
      some { r with region := some (chunk position.x, chunk position.y) } := by
  have hx : chunk position.x < 65536 := by
    rw [chunk_eq]
    have hlt := h.1
    omega
  have hy : chunk position.y < 65536 := by
    rw [chunk_eq]
    have hlt := h.2
    omega
  obtain ⟨-, hlowX⟩ := short_toNat hx
  obtain ⟨hlowY, -⟩ := short_toNat hy
  rw [receive, if_pos rfl, Client.mapRegionFrame, Position.regionX, Position.regionY, chunk_toInt,
    chunk_toInt]
  dsimp only [shortBytes, List.cons_append, List.nil_append]
  rw [loadRegion, hlowX, hlowY]

theorem receive_update (r : Replica) {body : List Byte} {u : PlayerUpdate}
    (h : decode body = some u) : r.receive 81 body = r.update u := by
  rw [receive, if_neg (by decide), if_pos rfl, h]
  rfl

/-- Frames of other opcodes change nothing. -/
theorem receiveAll_other (r : Replica) {frames : List Client.OutFrame}
    (h : ∀ f ∈ frames, f.opcode ≠ 73 ∧ f.opcode ≠ 81) : r.receiveAll frames = some r := by
  induction frames with
  | nil => rfl
  | cons f frames ih =>
      obtain ⟨hregion, hupdate⟩ := h f List.mem_cons_self
      rw [receiveAll_cons, receive, if_neg hregion, if_neg hupdate, Option.bind_some]
      exact ih fun g hg => h g (List.mem_cons_of_mem _ hg)

end Replica
end AsioRsps
