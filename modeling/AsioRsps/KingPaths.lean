import Mathlib.Data.List.Basic

/-!
# King paths

Paths over the integer grid whose every step goes to one of the eight neighbours. A leg
between two tiles closes both distances at once while both are open, so its diagonal steps come
first, and a path runs leg by leg through the tiles it is given.
-/
namespace AsioRsps.KingPaths

structure Tile where
  x : Int
  y : Int
  deriving DecidableEq

/-- The neighbour of `p` in the direction of `q`. -/
def towards (p q : Tile) : Tile := ⟨p.x + (q.x - p.x).sign, p.y + (q.y - p.y).sign⟩

/-- How many steps apart two tiles are. -/
def distance (p q : Tile) : Nat := max (q.x - p.x).natAbs (q.y - p.y).natAbs

/-- The first `n` steps from `p` to `q`. -/
def leg : Nat → Tile → Tile → List Tile
  | 0, _, _ => []
  | n+1, p, q => towards p q :: leg n (towards p q) q

/-- From `p` through the tiles in order. -/
def path : Tile → List Tile → List Tile
  | _, [] => []
  | p, q :: qs => leg (distance p q) p q ++ path q qs

/-- Every tile is a neighbour of the one before it. -/
def KingMoves : Tile → List Tile → Prop
  | _, [] => True
  | p, q :: qs => distance p q = 1 ∧ KingMoves q qs

theorem distance_eq_zero {p q : Tile} (h : distance p q = 0) : p = q := by
  obtain ⟨x, y⟩ := p
  obtain ⟨x', y'⟩ := q
  simp only [distance] at h
  rw [Tile.mk.injEq]
  omega

theorem sign_cases (d : Int) :
    (d = 0 ∧ d.sign = 0) ∨ (0 < d ∧ d.sign = 1) ∨ (d < 0 ∧ d.sign = -1) := by
  rcases Int.lt_trichotomy d 0 with h | h | h
  · exact .inr (.inr ⟨h, Int.sign_eq_neg_one_of_neg h⟩)
  · exact .inl ⟨h, by rw [h]; rfl⟩
  · exact .inr (.inl ⟨h, Int.sign_eq_one_of_pos h⟩)

theorem natAbs_closer (a b : Int) : (b - (a + (b - a).sign)).natAbs = (b - a).natAbs - 1 := by
  have h := sign_cases (b - a)
  omega

theorem distance_towards (p q : Tile) : distance (towards p q) q = distance p q - 1 := by
  simp only [distance, towards, natAbs_closer]
  omega

theorem distance_step {p q : Tile} (h : distance p q ≠ 0) : distance p (towards p q) = 1 := by
  have hx := sign_cases (q.x - p.x)
  have hy := sign_cases (q.y - p.y)
  simp only [distance, towards] at h ⊢
  omega

theorem KingMoves.append {p : Tile} {ps qs : List Tile} (h : KingMoves p ps)
    (h' : KingMoves (ps.getLastD p) qs) : KingMoves p (ps ++ qs) := by
  induction ps generalizing p with
  | nil => exact h'
  | cons q ps ih =>
      refine ⟨h.1, ih h.2 ?_⟩
      rwa [List.getLastD_cons] at h'

theorem KingMoves.take {p : Tile} {ps : List Tile} (h : KingMoves p ps) (n : Nat) :
    KingMoves p (ps.take n) := by
  induction ps generalizing p n with
  | nil => rw [List.take_nil]; trivial
  | cons q ps ih =>
      cases n with
      | zero => trivial
      | succ n => exact ⟨h.1, ih h.2 n⟩

theorem KingMoves.drop {p : Tile} {ps : List Tile} (h : KingMoves p ps) (n : Nat) :
    KingMoves ((ps.take n).getLastD p) (ps.drop n) := by
  induction ps generalizing p n with
  | nil => rw [List.drop_nil]; trivial
  | cons q ps ih =>
      cases n with
      | zero => exact h
      | succ n =>
          rw [List.take_succ_cons, List.getLastD_cons]
          exact ih h.2 n

/-- Going on from where a prefix ends. -/
theorem getLastD_take_add (p : Tile) (ps : List Tile) (m n : Nat) :
    ((ps.drop m).take n).getLastD ((ps.take m).getLastD p) = (ps.take (m + n)).getLastD p := by
  induction ps generalizing p m with
  | nil => simp only [List.drop_nil, List.take_nil, List.getLastD_nil]
  | cons q ps ih =>
      cases m with
      | zero => rw [Nat.zero_add]; rfl
      | succ m =>
          rw [List.drop_succ_cons, List.take_succ_cons, List.getLastD_cons, ih,
            Nat.add_right_comm, List.take_succ_cons, List.getLastD_cons]

/-- A leg of full length ends at its target. -/
theorem leg_getLastD {n : Nat} {p q : Tile} (h : distance p q = n) :
    (leg n p q).getLastD p = q := by
  induction n generalizing p with
  | zero => exact distance_eq_zero h
  | succ n ih =>
      rw [leg, List.getLastD_cons]
      exact ih (by rw [distance_towards, h, Nat.add_sub_cancel])

theorem kingMoves_leg {n : Nat} {p q : Tile} (h : n ≤ distance p q) : KingMoves p (leg n p q) := by
  induction n generalizing p with
  | zero => trivial
  | succ n ih =>
      refine ⟨distance_step (by omega), ih ?_⟩
      rw [distance_towards]
      omega

theorem kingMoves_path (p : Tile) (qs : List Tile) : KingMoves p (path p qs) := by
  induction qs generalizing p with
  | nil => trivial
  | cons q qs ih =>
      refine (kingMoves_leg (Nat.le_refl _)).append ?_
      rw [leg_getLastD rfl]
      exact ih q

end AsioRsps.KingPaths
