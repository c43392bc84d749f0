import AsioRsps.PrefixReader
import AsioRsps.UpdateFrame

/-!
# A reference decoder of the player update

What a client makes of the body of a frame 81, written from the format and not from the
writer: the player's own movement, one entry for each listed player, the additions, and the
state blocks of the players announced as updated. The frame `UpdatePlayer` sends is decoded
to the update the server meant.
-/
namespace AsioRsps
open StreamBuffer BitStrings PrefixReader

namespace PlayerUpdate

/-- Movement of a player whose position the client knows. -/
inductive Step where
  | idle
  | stand
  | walk (direction : Nat) (updated : Bool)
  | run (direction direction2 : Nat) (updated : Bool)
  deriving DecidableEq, Repr

def Step.updated : Step → Bool
  | .idle => false
  | .stand => true
  | .walk _ updated => updated
  | .run _ _ updated => updated

inductive SelfMovement where
  | step (step : Step)
  | placement (z : Nat) (discard updated : Bool) (localY localX : Nat)
  deriving DecidableEq, Repr

def SelfMovement.updated : SelfMovement → Bool
  | .step s => s.updated
  | .placement _ _ updated _ _ => updated

inductive ListEntry where
  | step (step : Step)
  | removal
  deriving DecidableEq, Repr

def ListEntry.updated : ListEntry → Bool
  | .step s => s.updated
  | .removal => false

structure Addition where
  slot : Nat
  updated : Bool
  discard : Bool
  deltaY : Int
  deltaX : Int
  deriving DecidableEq, Repr

structure StateBlock where
  mask : Nat
  appearance : Option (List Byte)
  deriving DecidableEq

end PlayerUpdate

open PlayerUpdate in
/-- A decoded update. -/
structure PlayerUpdate where
  self : SelfMovement
  entries : List ListEntry
  additions : List Addition
  blocks : List StateBlock
  deriving DecidableEq

namespace PlayerUpdate

/-! ## Reading the bits -/

def flag : Reader Bool Bool := do
  let bit ← takeBits 1
  return bit ≠ 0

/-- A movement; type 3 means what `third` reads. -/
def readMovement {α : Type} (step : Step → α) (third : Reader Bool α) : Reader Bool α := do
  if ← flag then
    let type ← takeBits 2
    if type = 0 then return step .stand
    else if type = 1 then
      let direction ← takeBits 3
      let updated ← flag
      return step (.walk direction updated)
    else if type = 2 then
      let direction ← takeBits 3
      let direction2 ← takeBits 3
      let updated ← flag
      return step (.run direction direction2 updated)
    else third
  else return step .idle

def readPlacement : Reader Bool SelfMovement := do
  let z ← takeBits 2
  let discard ← flag
  let updated ← flag
  let localY ← takeBits 7
  let localX ← takeBits 7
  return .placement z discard updated localY localX

def readAddition (slot : Nat) : Reader Bool Addition := do
  let updated ← flag
  let discard ← flag
  let deltaY ← takeBits 5
  let deltaX ← takeBits 5
  return { slot, updated, discard, deltaY := toSigned 5 deltaY, deltaX := toSigned 5 deltaX }

/-- Slots are read while there are bits for one and it is not the end marker. -/
def readAdditions : Nat → Reader Bool (List Addition)
  | 0 => failure
  | fuel+1 => do
      let bits ← get
      if bits.length < 11 then return []
      else
        let slot ← takeBits 11
        if slot = 2047 then return []
        else
          let addition ← readAddition slot
          let additions ← readAdditions fuel
          return addition :: additions

def readMovements : Reader Bool (SelfMovement × List ListEntry × List Addition) := do
  let self ← readMovement .step readPlacement
  let count ← takeBits 8
  let entries ← readMany (readMovement .step (pure .removal)) count
  let bits ← get
  let additions ← readAdditions (bits.length + 1)
  return (self, entries, additions)

/-! ## Reading the bytes -/

def readByte : Reader Byte Nat
  | [] => none
  | byte :: bytes => some (byte.toNat, bytes)

def takeBytes (n : Nat) : Reader Byte (List Byte) := fun bytes =>
  if n ≤ bytes.length then some (bytes.take n, bytes.drop n) else none

def readBlock : Reader Byte StateBlock := do
  let mask ← readByte
  if mask &&& 0x10 ≠ 0 then
    let size ← readByte
    let appearance ← takeBytes ((256 - size) % 256)
    return { mask, appearance := some appearance }
  else return { mask, appearance := none }

/-- The players announced as updated, in announcement order. -/
def announced (self : SelfMovement) (entries : List ListEntry) (additions : List Addition) :
    List Bool :=
  self.updated :: (entries.map ListEntry.updated ++ additions.map Addition.updated)

/-- The payload of a frame 81: bits, alignment to a byte, and the state blocks to the end. -/
def decodePayload (payload : List Byte) : Option PlayerUpdate := do
  let ((self, entries, additions), bits) ← readMovements (bytesBits payload)
  let bytes := payload.drop (payload.length - bits.length / 8)
  let (blocks, rest) ← readMany readBlock ((announced self entries additions).count true) bytes
  if rest = [] then return { self, entries, additions, blocks } else none

/-- The body of a frame 81: a size and a payload of that size. -/
def decode : List Byte → Option PlayerUpdate
  | high :: low :: payload =>
      if payload.length = 256 * high.toNat + low.toNat then decodePayload payload else none
  | _ => none

end PlayerUpdate
end AsioRsps
