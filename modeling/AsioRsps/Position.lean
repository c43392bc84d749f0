import AsioRsps.ISAACCipher

/-!
# Position

Coordinates are `uint32_t`, so differences wrap; a difference becomes an `int32_t` by
reading the wrapped word as two's complement.
-/
namespace AsioRsps

structure Position where
  x : Word := 0
  y : Word := 0
  z : Word := 0
  deriving DecidableEq, Repr

namespace Position

def regionX (p : Position) : Word := (p.x >>> 3) - 6
def regionY (p : Position) : Word := (p.y >>> 3) - 6

def localX (p base : Position) : Word := p.x - 8 * base.regionX
def localY (p base : Position) : Word := p.y - 8 * base.regionY

def move (p : Position) (amountX amountY : Int) : Position :=
  { p with x := p.x + BitVec.ofInt 32 amountX, y := p.y + BitVec.ofInt 32 amountY }

def direction (dx dy : Int) : Int :=
  if dx < 0 then
    if dy < 0 then 5 else if dy > 0 then 0 else 3
  else if dx > 0 then
    if dy < 0 then 7 else if dy > 0 then 2 else 4
  else
    if dy < 0 then 6 else if dy > 0 then 1 else -1

def isViewableFrom (p other : Position) : Bool :=
  let deltaX := (other.x - p.x).toInt
  let deltaY := (other.y - p.y).toInt
  deltaX ≤ 14 && deltaX ≥ -15 && deltaY ≤ 14 && deltaY ≥ -15

def directionDeltaX : Vector Int 8 := #v[-1, 0, 1, -1, 1, -1, 0, 1]
def directionDeltaY : Vector Int 8 := #v[1, 1, 1, 0, 0, -1, -1, -1]

/-- The position one step in a direction; a direction outside the two tables has none. -/
def stepTo (p : Position) (direction : Int) : Option Position :=
  if 0 ≤ direction then
    match directionDeltaX[direction.toNat]?, directionDeltaY[direction.toNat]? with
    | some dx, some dy => some (p.move dx dy)
    | _, _ => none
  else none

/-- A legal movement direction: `-1` for none or an index of the delta tables. -/
def IsDirection (d : Int) : Prop := -1 ≤ d ∧ d < 8

instance (d : Int) : Decidable (IsDirection d) := inferInstanceAs (Decidable (_ ∧ _))

theorem direction_isDirection (dx dy : Int) : IsDirection (direction dx dy) := by
  simp only [IsDirection, direction]
  split_ifs <;> decide

/-- A viewable player's offset from the viewer fits five signed bits. -/
theorem isViewableFrom_iff (p other : Position) : p.isViewableFrom other = true ↔
    (-15 ≤ (other.x - p.x).toInt ∧ (other.x - p.x).toInt ≤ 14) ∧
      (-15 ≤ (other.y - p.y).toInt ∧ (other.y - p.y).toInt ≤ 14) := by
  simp only [isViewableFrom, Bool.and_eq_true, decide_eq_true_eq, ge_iff_le]
  constructor
  · rintro ⟨⟨⟨h1, h2⟩, h3⟩, h4⟩
    exact ⟨⟨h2, h1⟩, h4, h3⟩
  · rintro ⟨⟨h1, h2⟩, h3, h4⟩
    exact ⟨⟨⟨h2, h1⟩, h4⟩, h3⟩

theorem isViewableFrom_self (p : Position) : p.isViewableFrom p = true := by
  rw [isViewableFrom_iff, BitVec.sub_self, BitVec.sub_self]
  decide

theorem toInt_sub_comm {a b : Word} (h : -2147483648 < (a - b).toInt) :
    (b - a).toInt = -(a - b).toInt := by
  have hne : a - b ≠ BitVec.intMin 32 := by
    intro he
    rw [he] at h
    exact absurd h (by decide)
  have hneg : b - a = -(a - b) := by bv_omega
  rw [hneg, BitVec.toInt_neg_of_ne_intMin hne]

/-- Seen from the viewer the offset is the negated one. -/
theorem isViewableFrom_offset {p other : Position} (h : p.isViewableFrom other = true) :
    (-14 ≤ (p.x - other.x).toInt ∧ (p.x - other.x).toInt ≤ 15) ∧
      (-14 ≤ (p.y - other.y).toInt ∧ (p.y - other.y).toInt ≤ 15) := by
  obtain ⟨⟨hx1, hx2⟩, hy1, hy2⟩ := (isViewableFrom_iff _ _).mp h
  rw [toInt_sub_comm (a := other.x) (b := p.x) (by omega),
    toInt_sub_comm (a := other.y) (b := p.y) (by omega)]
  omega

end Position
end AsioRsps
