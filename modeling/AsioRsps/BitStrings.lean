import Mathlib.Data.List.Basic
import Mathlib.Tactic.Ring
import Mathlib.Tactic.Positivity

/-!
# Big-endian bit strings

Numbers, bytes and byte strings as lists of bits, most significant bit first, and the
operations a bit-oriented reader needs: cutting a field of a given width off the front
and reading it as an unsigned or a two's complement number. Nothing here knows about a
particular format.
-/
namespace AsioRsps.BitStrings

/-- The low `width` bits of a number, most significant first. -/
def bitsOf : Nat → Nat → List Bool
  | 0, _ => []
  | w+1, n => n.testBit w :: bitsOf w n

/-- The number a bit string denotes. -/
def ofBits : List Bool → Nat
  | [] => 0
  | b :: bs => b.toNat * 2 ^ bs.length + ofBits bs

/-- A field of `width` bits read as two's complement. -/
def toSigned (width n : Nat) : Int :=
  if n < 2 ^ (width - 1) then n else (n : Int) - 2 ^ width

/-- Cuts a field of `width` bits off the front, if there are that many. -/
def takeBits (width : Nat) (bs : List Bool) : Option (Nat × List Bool) :=
  if width ≤ bs.length then some (ofBits (bs.take width), bs.drop width) else none

abbrev Byte := BitVec 8

def byteBits (b : Byte) : List Bool := bitsOf 8 b.toNat

def bytesBits (bs : List Byte) : List Bool := bs.flatMap byteBits

@[simp] theorem bitsOf_length (w n : Nat) : (bitsOf w n).length = w := by
  induction w with
  | zero => rfl
  | succ w ih => simp only [bitsOf, List.length_cons, ih]

theorem bitsOf_getElem? (w n i : Nat) (h : i < w) :
    (bitsOf w n)[i]? = some (n.testBit (w - 1 - i)) := by
  induction w generalizing i with
  | zero => omega
  | succ w ih =>
      cases i with
      | zero => rfl
      | succ i =>
          have hi : i < w := by omega
          simp only [bitsOf, List.getElem?_cons_succ, ih i hi]
          congr 2
          omega

theorem ofBits_bitsOf (w n : Nat) : ofBits (bitsOf w n) = n % 2 ^ w := by
  induction w with
  | zero => simp [bitsOf, ofBits, Nat.mod_one]
  | succ w ih =>
      have hbit : (n.testBit w).toNat = n / 2 ^ w % 2 := by
        simp only [Nat.testBit_eq_decide_div_mod_eq]
        have h2 : n / 2 ^ w % 2 < 2 := Nat.mod_lt _ (by decide)
        by_cases h : n / 2 ^ w % 2 = 1
        · simp [h]
        · have h0 : n / 2 ^ w % 2 = 0 := by omega
          simp [h0]
      simp only [bitsOf, ofBits, bitsOf_length, ih, hbit]
      rw [Nat.mod_pow_succ]
      ring

theorem takeBits_append (w n : Nat) (rest : List Bool) :
    takeBits w (bitsOf w n ++ rest) = some (n % 2 ^ w, rest) := by
  have htake : (bitsOf w n ++ rest).take w = bitsOf w n := by
    rw [List.take_append_of_le_length (by simp), List.take_of_length_le (by simp)]
  have hdrop : (bitsOf w n ++ rest).drop w = rest := by
    rw [List.drop_append_of_le_length (by simp), List.drop_of_length_le (by simp),
      List.nil_append]
  simp only [takeBits, List.length_append, bitsOf_length, Nat.le_add_right, if_true, htake,
    hdrop, ofBits_bitsOf]

theorem takeBits_of_lt {w n : Nat} (rest : List Bool) (h : n < 2 ^ w) :
    takeBits w (bitsOf w n ++ rest) = some (n, rest) := by
  rw [takeBits_append, Nat.mod_eq_of_lt h]

/-- A flag is a field of width one. -/
theorem bitsOf_one_toNat (b : Bool) : bitsOf 1 b.toNat = [b] := by
  cases b <;> rfl

theorem toSigned_emod {w : Nat} {v : Int} (hw : 0 < w) (lo : -2 ^ (w - 1) ≤ v)
    (hi : v < 2 ^ (w - 1)) : toSigned w (v % 2 ^ w).toNat = v := by
  obtain ⟨k, rfl⟩ : ∃ k, w = k + 1 := ⟨w - 1, by omega⟩
  simp only [Nat.add_sub_cancel] at lo hi
  have hp : (2 : Int) ^ (k + 1) = 2 * 2 ^ k := by ring
  have hk : (0 : Int) < 2 ^ k := by positivity
  have hcast : ((2 ^ k : Nat) : Int) = 2 ^ k := by norm_cast
  simp only [toSigned, Nat.add_sub_cancel]
  by_cases hv : 0 ≤ v
  · have hm : v % 2 ^ (k + 1) = v := Int.emod_eq_of_lt hv (by omega)
    rw [hm, if_pos (by omega)]
    omega
  · have hm : v % 2 ^ (k + 1) = v + 2 ^ (k + 1) := by
      rw [← Int.add_emod_right, Int.emod_eq_of_lt (by omega) (by omega)]
    rw [hm, if_neg (by omega)]
    omega

@[simp] theorem byteBits_length (b : Byte) : (byteBits b).length = 8 := bitsOf_length 8 _

@[simp] theorem bytesBits_nil : bytesBits [] = [] := rfl

@[simp] theorem bytesBits_cons (b : Byte) (bs : List Byte) :
    bytesBits (b :: bs) = byteBits b ++ bytesBits bs := rfl

theorem bytesBits_append (xs ys : List Byte) :
    bytesBits (xs ++ ys) = bytesBits xs ++ bytesBits ys := by
  simp only [bytesBits, List.flatMap_append]

@[simp] theorem bytesBits_length (bs : List Byte) : (bytesBits bs).length = 8 * bs.length := by
  induction bs with
  | nil => rfl
  | cons b bs ih => simp only [bytesBits_cons, List.length_append, byteBits_length, ih,
      List.length_cons]; omega

/-- Bit `i` of a byte string, counted from its most significant bit. -/
def bitAt (bs : List Byte) (i : Nat) : Bool := (bs.getD (i / 8) 0).getLsbD (7 - i % 8)

theorem bytesBits_getElem? (bs : List Byte) (i : Nat) (h : i < 8 * bs.length) :
    (bytesBits bs)[i]? = some (bitAt bs i) := by
  induction bs generalizing i with
  | nil => simp at h
  | cons b bs ih =>
      by_cases hi : i < 8
      · have hq : i / 8 = 0 := by omega
        have hr : i % 8 = i := by omega
        rw [bytesBits_cons, List.getElem?_append_left (by simpa using hi), byteBits,
          bitsOf_getElem? 8 _ i hi]
        simp [bitAt, hq, hr, BitVec.getLsbD]
      · have hlen : i - 8 < 8 * bs.length := by simp only [List.length_cons] at h; omega
        have hq : i / 8 = (i - 8) / 8 + 1 := by omega
        have hr : i % 8 = (i - 8) % 8 := by omega
        rw [bytesBits_cons, List.getElem?_append_right (by simpa using hi), byteBits_length,
          ih (i - 8) hlen]
        simp [bitAt, hq, hr]

theorem bytesBits_take (bs : List Byte) (n : Nat) :
    bytesBits (bs.take n) = (bytesBits bs).take (8 * n) := by
  induction bs generalizing n with
  | nil => simp
  | cons b bs ih =>
      cases n with
      | zero => simp
      | succ n =>
          rw [List.take_succ_cons, bytesBits_cons, bytesBits_cons, ih, List.take_append,
            List.take_of_length_le (show (byteBits b).length ≤ 8 * (n + 1) by simp),
            byteBits_length, show 8 * (n + 1) - 8 = 8 * n by omega]

/-- Bytes are determined by their bits. -/
theorem byteBits_injective {a b : Byte} (h : byteBits a = byteBits b) : a = b := by
  have he := congrArg ofBits h
  simp only [byteBits, ofBits_bitsOf] at he
  apply BitVec.eq_of_toNat_eq
  have ha := a.isLt
  have hb := b.isLt
  omega

/-- A byte string whose bits start with those of another starts with it. -/
theorem bytesBits_prefix {ws bs : List Byte} {bits : List Bool}
    (h : bytesBits bs = bytesBits ws ++ bits) : ∃ t, bs = ws ++ t ∧ bytesBits t = bits := by
  induction ws generalizing bs with
  | nil => exact ⟨bs, rfl, h⟩
  | cons w ws ih =>
      cases bs with
      | nil =>
          have hlen := congrArg List.length h
          simp at hlen
          omega
      | cons b bs =>
          rw [bytesBits_cons, bytesBits_cons, List.append_assoc] at h
          obtain ⟨hb, hrest⟩ := List.append_inj h (by simp)
          obtain ⟨t, rfl, ht⟩ := ih hrest
          exact ⟨t, by rw [byteBits_injective hb, List.cons_append], ht⟩

end AsioRsps.BitStrings
