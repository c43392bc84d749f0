import Mathlib.Data.Fin.Basic

/-!
# ISAACCipher

The keystream generator as the source runs it: two arrays of 256 words, three running
words and a countdown index into the current batch of keys. The index never exceeds 256,
which the type carries, so every read of the key array is in bounds.
-/
namespace AsioRsps

/-- `uint32_t` -/
abbrev Word := BitVec 32

namespace ISAACCipher

abbrev Table := Vector Word 256

/-- The eight mixing words `a` .. `h` of `InitializeKeySet`. -/
structure Octet where
  a : Word
  b : Word
  c : Word
  d : Word
  e : Word
  f : Word
  g : Word
  h : Word
  deriving DecidableEq, Repr

def goldenRatio : Word := 0x9e3779b9#32

def Octet.golden : Octet := ⟨goldenRatio, goldenRatio, goldenRatio, goldenRatio, goldenRatio,
  goldenRatio, goldenRatio, goldenRatio⟩

def mix (o : Octet) : Octet :=
  let ⟨a, b, c, d, e, f, g, h⟩ := o
  let a := a ^^^ (b <<< 11); let d := d + a; let b := b + c
  let b := b ^^^ (c >>> 2);  let e := e + b; let c := c + d
  let c := c ^^^ (d <<< 8);  let f := f + c; let d := d + e
  let d := d ^^^ (e >>> 16); let g := g + d; let e := e + f
  let e := e ^^^ (f <<< 10); let h := h + e; let f := f + g
  let f := f ^^^ (g >>> 4);  let a := a + f; let g := g + h
  let g := g ^^^ (h <<< 8);  let b := b + g; let h := h + a
  let h := h ^^^ (a >>> 9);  let c := c + h; let a := a + b
  ⟨a, b, c, d, e, f, g, h⟩

/-- The words `t[i]` .. `t[i + 7]` with `i = 8 * block`. -/
def addBlock (t : Table) (block : Fin 32) (o : Octet) : Octet :=
  let i := 8 * block.val
  ⟨o.a + t[i], o.b + t[i+1], o.c + t[i+2], o.d + t[i+3],
    o.e + t[i+4], o.f + t[i+5], o.g + t[i+6], o.h + t[i+7]⟩

def storeBlock (t : Table) (block : Fin 32) (o : Octet) : Table :=
  let i := 8 * block.val
  ((((((((t.set i o.a).set (i+1) o.b).set (i+2) o.c).set (i+3) o.d).set (i+4) o.e).set (i+5)
    o.f).set (i+6) o.g).set (i+7) o.h)

/-- The index computation `(w & 0x3FC) >> 2`. -/
def tableIndex (w : Word) : Fin 256 :=
  ⟨((w &&& 0x3FC#32) >>> 2).toNat, by
    rw [BitVec.toNat_ushiftRight, BitVec.toNat_and, Nat.shiftRight_eq_div_pow]
    have h : w.toNat &&& (0x3FC#32).toNat ≤ (0x3FC#32).toNat := Nat.and_le_right
    have hc : (0x3FC#32).toNat = 1020 := rfl
    omega⟩

end ISAACCipher

open ISAACCipher in
/-- The members of `ISAACCipher`; `idx_le` is the range of `m_KeyArrayIdx`. -/
structure ISAACCipher where
  keySetArray : Table
  cryptArray : Table
  cryptVar1 : Word
  cryptVar2 : Word
  cryptVar3 : Word
  keyArrayIdx : Word
  idx_le : keyArrayIdx.toNat ≤ 256

namespace ISAACCipher

/-- One step of the loop of `GenerateNextKeySet`. -/
def generateKey (c : ISAACCipher) (i : Fin 256) : ISAACCipher :=
  let x := c.cryptArray[i.val]
  let var1 := match i.val % 4 with
    | 0 => c.cryptVar1 ^^^ (c.cryptVar1 <<< 13)
    | 1 => c.cryptVar1 ^^^ (c.cryptVar1 >>> 6)
    | 2 => c.cryptVar1 ^^^ (c.cryptVar1 <<< 2)
    | _ => c.cryptVar1 ^^^ (c.cryptVar1 >>> 16)
  let opposite : Fin 256 := ⟨(i.val + 128) % 256, Nat.mod_lt _ (by decide)⟩
  let var1 := var1 + c.cryptArray[opposite.val]
  let y := c.cryptArray[(tableIndex x).val] + var1 + c.cryptVar2
  let crypt := c.cryptArray.set i.val y
  let key := crypt[(tableIndex (y >>> 8)).val] + x
  { c with
    keySetArray := c.keySetArray.set i.val key
    cryptArray := crypt
    cryptVar1 := var1
    cryptVar2 := key }

def generateNextKeySet (c : ISAACCipher) : ISAACCipher :=
  let var3 := c.cryptVar3 + 1
  (List.finRange 256).foldl generateKey
    { c with cryptVar3 := var3, cryptVar2 := c.cryptVar2 + var3 }

/-- One pass of `InitializeKeySet`: `source` is added block by block into the mixing words,
which overwrite the state array. -/
def initializePass (source : Table → Table) (acc : Octet × Table) : Octet × Table :=
  (List.finRange 32).foldl (fun (o, crypt) block =>
    let o := mix (addBlock (source crypt) block o)
    (o, storeBlock crypt block o)) acc

def initializeKeySet (c : ISAACCipher) : ISAACCipher :=
  let o := mix (mix (mix (mix Octet.golden)))
  let first := initializePass (fun _ => c.keySetArray) (o, c.cryptArray)
  let second := initializePass id first
  let generated := generateNextKeySet { c with cryptArray := second.2 }
  { generated with keyArrayIdx := 256, idx_le := by decide }

/-- The constructor, from the four seed words. -/
def new (ai : Vector Word 4) : ISAACCipher :=
  let zeros : Table := Vector.replicate 256 0
  let keySet := (((zeros.set 0 ai[0]).set 1 ai[1]).set 2 ai[2]).set 3 ai[3]
  initializeKeySet
    { keySetArray := keySet
      cryptArray := zeros
      cryptVar1 := 0
      cryptVar2 := 0
      cryptVar3 := 0
      keyArrayIdx := 0
      idx_le := by decide }

/-- `if (m_KeyArrayIdx-- == 0)` refills and restarts the countdown, otherwise the decremented
index is read. -/
def getNextKey (c : ISAACCipher) : Word × ISAACCipher :=
  if h : c.keyArrayIdx = 0 then
    let next := c.generateNextKeySet
    (next.keySetArray[255], { next with keyArrayIdx := 255, idx_le := by decide })
  else
    have hle : (c.keyArrayIdx - 1).toNat < 256 := by
      have hne : c.keyArrayIdx.toNat ≠ 0 := fun h0 => h (BitVec.eq_of_toNat_eq h0)
      have := c.idx_le
      rw [BitVec.toNat_sub, show (1 : Word).toNat = 1 from rfl]
      have hz : (0 : Word).toNat = 0 := rfl
      omega
    (c.keySetArray[(c.keyArrayIdx - 1).toNat],
      { c with keyArrayIdx := c.keyArrayIdx - 1, idx_le := Nat.le_of_lt hle })

/-- The key the next call of `GetNextKey` returns. -/
def nextKey (c : ISAACCipher) : Word := c.getNextKey.1

/-- The cipher after `n` calls of `GetNextKey`. -/
def advance (c : ISAACCipher) : Nat → ISAACCipher
  | 0 => c
  | n+1 => c.getNextKey.2.advance n

@[simp] theorem advance_zero (c : ISAACCipher) : c.advance 0 = c := rfl

@[simp] theorem advance_succ (c : ISAACCipher) (n : Nat) :
    c.advance (n + 1) = c.getNextKey.2.advance n := rfl

theorem advance_add (c : ISAACCipher) (m n : Nat) :
    c.advance (m + n) = (c.advance m).advance n := by
  induction m generalizing c with
  | zero => simp
  | succ m ih => rw [Nat.succ_add]; exact ih c.getNextKey.2

end ISAACCipher
end AsioRsps
