import AsioRsps.ISAACCipher
import Mathlib.Logic.Function.Iterate

/-!
# Reference ISAAC

The generator as its reference implementation states it: `randinit` with the seed in the first
words of the results, `isaac` as two half passes of 128 steps, unrolled by four, with one
pointer to the word a step replaces, one to the word in the other half and one to the result.
The source folds both halves into a single loop over an index; every key it returns is the
word of the reference batch that is due.
-/
namespace AsioRsps

namespace ISAACReference
open ISAACCipher (Table Octet)

/-! ## The reference -/

/-- `struct randctx`, without the count of results left. -/
structure Context where
  randrsl : Table
  randmem : Table
  randa : Word
  randb : Word
  randc : Word

/-- The word `x & 0x3FC` bytes into the memory. -/
def ind (mm : Table) (x : Word) : Word := mm[(x &&& 0x3FC#32).toNat / 4]?.getD 0

/-- The registers of a pass: the pointers `m`, `m2` and `r` count words. -/
structure Pass where
  a : Word
  b : Word
  mm : Table
  results : Table
  m : Nat
  m2 : Nat
  r : Nat

def rngstep (mix : Word → Word) (s : Pass) : Pass :=
  let x := s.mm[s.m]?.getD 0
  let a := (s.a ^^^ mix s.a) + s.mm[s.m2]?.getD 0
  let y := ind s.mm x + a + s.b
  let mm := s.mm.setIfInBounds s.m y
  let b := ind mm (y >>> 8) + x
  { a, b, mm, results := s.results.setIfInBounds s.r b
    m := s.m + 1, m2 := s.m2 + 1, r := s.r + 1 }

/-- The body of both loops. -/
def fourSteps (s : Pass) : Pass :=
  rngstep (· >>> 16) (rngstep (· <<< 2) (rngstep (· >>> 6) (rngstep (· <<< 13) s)))

def isaac (ctx : Context) : Context :=
  let randc := ctx.randc + 1
  let start : Pass :=
    { a := ctx.randa, b := ctx.randb + randc, mm := ctx.randmem, results := ctx.randrsl
      m := 0, m2 := 128, r := 0 }
  let half := fourSteps^[32] start
  let whole := fourSteps^[32] { half with m2 := 0 }
  { randrsl := whole.results, randmem := whole.mm, randa := whole.a, randb := whole.b, randc }

/-- The macro `mix` on the words `a` .. `h`. -/
def mix (o : Octet) : Octet := Id.run do
  let mut a := o.a
  let mut b := o.b
  let mut c := o.c
  let mut d := o.d
  let mut e := o.e
  let mut f := o.f
  let mut g := o.g
  let mut h := o.h
  a := a ^^^ (b <<< 11); d := d + a; b := b + c
  b := b ^^^ (c >>> 2);  e := e + b; c := c + d
  c := c ^^^ (d <<< 8);  f := f + c; d := d + e
  d := d ^^^ (e >>> 16); g := g + d; e := e + f
  e := e ^^^ (f <<< 10); h := h + e; f := f + g
  f := f ^^^ (g >>> 4);  a := a + f; g := g + h
  g := g ^^^ (h <<< 8);  b := b + g; h := h + a
  h := h ^^^ (a >>> 9);  c := c + h; a := a + b
  return ⟨a, b, c, d, e, f, g, h⟩

/-- `a+=r[i]; .. h+=r[i+7];` -/
def absorb (r : Table) (i : Nat) (o : Octet) : Octet :=
  ⟨o.a + r[i]?.getD 0, o.b + r[i+1]?.getD 0, o.c + r[i+2]?.getD 0, o.d + r[i+3]?.getD 0,
    o.e + r[i+4]?.getD 0, o.f + r[i+5]?.getD 0, o.g + r[i+6]?.getD 0, o.h + r[i+7]?.getD 0⟩

/-- `m[i]=a; .. m[i+7]=h;` -/
def deposit (m : Table) (i : Nat) (o : Octet) : Table :=
  ((((((((m.setIfInBounds i o.a).setIfInBounds (i+1) o.b).setIfInBounds (i+2) o.c).setIfInBounds
    (i+3) o.d).setIfInBounds (i+4) o.e).setIfInBounds (i+5) o.f).setIfInBounds (i+6)
    o.g).setIfInBounds (i+7) o.h)

/-- `for (i=0; i<RANDSIZ; i+=8)` over a source of words. -/
def fill (source : Table → Table) (acc : Octet × Table) : Octet × Table :=
  (List.range 32).foldl (fun (o, m) k =>
    let o := mix (absorb (source m) (8 * k) o)
    (o, deposit m (8 * k) o)) acc

/-- `randinit` with the flag set, on results that hold the seed. -/
def randinit (randrsl : Table) : Context :=
  let zeros : Table := Vector.replicate 256 0
  let o := mix^[4] Octet.golden
  let first := fill (fun _ => randrsl) (o, zeros)
  let second := fill id first
  isaac { randrsl, randmem := second.2, randa := 0, randb := 0, randc := 0 }

/-- The four words of the seed, then zeros. -/
def seeded (ai : Vector Word 4) : Table :=
  Vector.ofFn fun i => if h : i.val < 4 then ai[i.val] else 0

/-- The context after batch `k`; the first batch is the one `randinit` ends with. -/
def batch (ai : Vector Word 4) (k : Nat) : Context := isaac^[k] (randinit (seeded ai))

/-! ## Access in bounds -/

theorem getD_eq_getElem (t : Table) {i : Nat} (h : i < 256) : t[i]?.getD 0 = t[i] := by
  rw [Vector.getElem?_eq_getElem h, Option.getD_some]

theorem setIfInBounds_eq_set (t : Table) {i : Nat} (x : Word) (h : i < 256) :
    t.setIfInBounds i x = t.set i x := by
  apply Vector.ext
  intro j hj
  rw [Vector.getElem_setIfInBounds hj, Vector.getElem_set]

/-- The byte offset of the reference and the shifted index of the source are the same word. -/
theorem ind_eq (t : Table) (x : Word) : ind t x = t[(ISAACCipher.tableIndex x).val] := by
  have hindex : (ISAACCipher.tableIndex x).val = (x &&& 0x3FC#32).toNat / 4 := by
    change ((x &&& 0x3FC#32) >>> 2).toNat = _
    rw [BitVec.toNat_ushiftRight, Nat.shiftRight_eq_div_pow]
  rw [ind, ← hindex, getD_eq_getElem t (ISAACCipher.tableIndex x).isLt]

/-! ## One pass -/

/-- A pass at word `i` of the loop of the source. -/
structure Agrees (c : ISAACCipher) (i : Nat) (s : Pass) : Prop where
  a : s.a = c.cryptVar1
  b : s.b = c.cryptVar2
  mm : s.mm = c.cryptArray
  results : s.results = c.keySetArray
  m : s.m = i
  r : s.r = i

/-- The word a step of the source stores in the state. -/
def storedWord (c : ISAACCipher) (i : Fin 256) : Word :=
  ind c.cryptArray (c.cryptArray.get i) + (c.generateKey i).cryptVar1 + c.cryptVar2

theorem generateKey_cryptArray (c : ISAACCipher) (i : Fin 256) :
    (c.generateKey i).cryptArray = c.cryptArray.setIfInBounds i.val (storedWord c i) := by
  rw [setIfInBounds_eq_set _ _ i.isLt, storedWord, ind_eq]
  rfl

theorem generateKey_cryptVar2 (c : ISAACCipher) (i : Fin 256) : (c.generateKey i).cryptVar2 =
    ind (c.generateKey i).cryptArray (storedWord c i >>> 8) + c.cryptArray.get i := by
  rw [ind_eq, storedWord, ind_eq]
  rfl

theorem generateKey_keySetArray (c : ISAACCipher) (i : Fin 256) : (c.generateKey i).keySetArray =
    c.keySetArray.setIfInBounds i.val (c.generateKey i).cryptVar2 := by
  rw [setIfInBounds_eq_set _ _ i.isLt]
  rfl

theorem Agrees.rngstep {c : ISAACCipher} {i : Fin 256} {s : Pass} {shift : Word → Word}
    (h : Agrees c i s) (hm2 : s.m2 = (i.val + 128) % 256)
    (hshift : (c.generateKey i).cryptVar1 = (c.cryptVar1 ^^^ shift c.cryptVar1) +
      c.cryptArray[(i.val + 128) % 256]?.getD 0) :
    Agrees (c.generateKey i) (i + 1) (rngstep shift s) ∧
      (ISAACReference.rngstep shift s).m2 = s.m2 + 1 := by
  have ha : (ISAACReference.rngstep shift s).a = (c.generateKey i).cryptVar1 := by
    rw [hshift, ← h.a, ← h.mm, ← hm2]
    rfl
  have hx : s.mm[s.m]?.getD 0 = c.cryptArray.get i := by
    rw [h.mm, h.m, getD_eq_getElem _ i.isLt]
    rfl
  have hy : ind s.mm (s.mm[s.m]?.getD 0) + (ISAACReference.rngstep shift s).a + s.b =
      storedWord c i := by
    rw [hx, ha, h.b, h.mm, storedWord]
  have hmm : (ISAACReference.rngstep shift s).mm = (c.generateKey i).cryptArray := by
    rw [generateKey_cryptArray, ← hy, ← h.mm, ← h.m]
    rfl
  have hb : (ISAACReference.rngstep shift s).b = (c.generateKey i).cryptVar2 := by
    have hdef : (ISAACReference.rngstep shift s).b = ind (ISAACReference.rngstep shift s).mm
      ((ind s.mm (s.mm[s.m]?.getD 0) + (ISAACReference.rngstep shift s).a + s.b) >>> 8) +
        s.mm[s.m]?.getD 0 := rfl
    rw [hdef, hy, hx, hmm, generateKey_cryptVar2]
  refine ⟨⟨ha, hb, hmm, ?_, ?_, ?_⟩, rfl⟩
  · rw [generateKey_keySetArray, ← hb, ← h.results, ← h.r]
    rfl
  · exact congrArg (· + 1) h.m
  · exact congrArg (· + 1) h.r

/-- Which shift a step mixes in depends on its place among four. -/
def shiftAt : Nat → Word → Word
  | 0, a => a <<< 13
  | 1, a => a >>> 6
  | 2, a => a <<< 2
  | _, a => a >>> 16

theorem generateKey_cryptVar1 (c : ISAACCipher) (i : Fin 256) : (c.generateKey i).cryptVar1 =
    (c.cryptVar1 ^^^ shiftAt (i.val % 4) c.cryptVar1) +
      c.cryptArray[(i.val + 128) % 256]?.getD 0 := by
  rw [getD_eq_getElem _ (Nat.mod_lt _ (by decide))]
  simp only [ISAACCipher.generateKey]
  generalize i.val % 4 = k
  rcases k with _ | _ | _ | k
  · rfl
  · rfl
  · rfl
  · rfl

/-- The four indices of a round of the unrolled loop. -/
def quad (q : Fin 64) : List (Fin 256) :=
  [⟨4 * q.val, by omega⟩, ⟨4 * q.val + 1, by omega⟩, ⟨4 * q.val + 2, by omega⟩,
    ⟨4 * q.val + 3, by omega⟩]

theorem Agrees.fourSteps {c : ISAACCipher} {q : Fin 64} {s : Pass} (h : Agrees c (4 * q.val) s)
    (hm2 : s.m2 = (4 * q.val + 128) % 256) :
    Agrees ((quad q).foldl ISAACCipher.generateKey c) (4 * (q.val + 1)) (fourSteps s) ∧
      (ISAACReference.fourSteps s).m2 = s.m2 + 4 := by
  have hshift (c : ISAACCipher) (k : Fin 4) (hk : 4 * q.val + k.val < 256) :
      (c.generateKey ⟨4 * q.val + k.val, hk⟩).cryptVar1 =
        (c.cryptVar1 ^^^ shiftAt k.val c.cryptVar1) +
          c.cryptArray[(4 * q.val + k.val + 128) % 256]?.getD 0 := by
    rw [generateKey_cryptVar1, Nat.mul_add_mod, Nat.mod_eq_of_lt k.isLt]
  obtain ⟨h₁, hm₁⟩ := h.rngstep (i := ⟨4 * q.val, by omega⟩) hm2 (hshift c 0 (by omega))
  obtain ⟨h₂, hm₂⟩ := h₁.rngstep (i := ⟨4 * q.val + 1, by omega⟩) (by dsimp only; omega)
    (hshift _ 1 (by omega))
  obtain ⟨h₃, hm₃⟩ := h₂.rngstep (i := ⟨4 * q.val + 2, by omega⟩) (by dsimp only; omega)
    (hshift _ 2 (by omega))
  obtain ⟨h₄, hm₄⟩ := h₃.rngstep (i := ⟨4 * q.val + 3, by omega⟩) (by dsimp only; omega)
    (hshift _ 3 (by omega))
  exact ⟨h₄, hm₄.trans (by omega)⟩

/-- Two loops of the same length, the first over an index, in step with each other. -/
theorem foldl_finRange_iterate {α β : Type} {n : Nat} {f : α → Fin n → α} {g : β → β}
    (R : Nat → α → β → Prop) (hstep : ∀ (i : Fin n) a b, R i a b → R (i + 1) (f a i) (g b))
    {a : α} {b : β} (h : R 0 a b) : R n ((List.finRange n).foldl f a) (g^[n] b) := by
  induction n with
  | zero => exact h
  | succ n ih =>
      rw [List.finRange_succ_last, List.foldl_append, List.foldl_map,
        Function.iterate_succ_apply']
      exact hstep (Fin.last n) _ _ (ih fun i a b hr => hstep i.castSucc a b hr)

theorem finRange_quads : List.finRange 256 =
    (List.finRange 32).flatMap (fun k => quad (k.castLE (by decide))) ++
      (List.finRange 32).flatMap fun k => quad (k.natAdd 32) := by
  decide +kernel

/-- Half a pass: the other pointer starts 128 words away and needs no wrapping. -/
theorem Agrees.half {c : ISAACCipher} {s : Pass} {base : Nat} {quads : Fin 32 → Fin 64}
    (hquads : ∀ k, (quads k).val = base + k.val) (hbase : base = 0 ∨ base = 32)
    (h : Agrees c (4 * base) s) (hm2 : s.m2 = (4 * base + 128) % 256) :
    Agrees (((List.finRange 32).flatMap fun k => quad (quads k)).foldl ISAACCipher.generateKey c)
      (4 * base + 128) (ISAACReference.fourSteps^[32] s) := by
  let R (k : Nat) (c : ISAACCipher) (s : Pass) : Prop :=
    Agrees c (4 * (base + k)) s ∧ s.m2 = (4 * base + 128) % 256 + 4 * k
  have hstep (k : Fin 32) (c : ISAACCipher) (s : Pass) (hr : R k c s) :
      R (k + 1) ((quad (quads k)).foldl ISAACCipher.generateKey c)
        (ISAACReference.fourSteps s) := by
    obtain ⟨hagrees, hm⟩ := hr
    rw [← hquads k] at hagrees
    obtain ⟨hnext, hm'⟩ := hagrees.fourSteps (by rw [hquads k]; omega)
    rw [hquads k] at hnext
    exact ⟨hnext, by omega⟩
  have hloop : R 32 _ _ := foldl_finRange_iterate R hstep (a := c) (b := s) ⟨h, hm2⟩
  rw [List.foldl_flatMap]
  exact hloop.1

/-! ## Batches -/

/-- The words of a cipher as a context of the reference. -/
def contextOf (c : ISAACCipher) : Context :=
  { randrsl := c.keySetArray, randmem := c.cryptArray, randa := c.cryptVar1, randb := c.cryptVar2
    randc := c.cryptVar3 }

theorem contextOf_randrsl (c : ISAACCipher) : (contextOf c).randrsl = c.keySetArray := rfl

theorem contextOf_withIndex (c : ISAACCipher) (i : Word) (h : i.toNat ≤ 256) :
    contextOf { c with keyArrayIdx := i, idx_le := h } = contextOf c := rfl

theorem foldl_generateKey_cryptVar3 (c : ISAACCipher) (is : List (Fin 256)) :
    (is.foldl ISAACCipher.generateKey c).cryptVar3 = c.cryptVar3 := by
  induction is generalizing c with
  | nil => rfl
  | cons i is ih => exact ih (c.generateKey i)

/-- One loop of the source is one call of `isaac`. -/
theorem contextOf_generateNextKeySet (c : ISAACCipher) :
    contextOf c.generateNextKeySet = isaac (contextOf c) := by
  let c₀ : ISAACCipher :=
    { c with cryptVar3 := c.cryptVar3 + 1, cryptVar2 := c.cryptVar2 + (c.cryptVar3 + 1) }
  let start : Pass :=
    { a := c₀.cryptVar1, b := c₀.cryptVar2, mm := c₀.cryptArray, results := c₀.keySetArray
      m := 0, m2 := 128, r := 0 }
  have hstart : Agrees c₀ (4 * 0) start := ⟨rfl, rfl, rfl, rfl, rfl, rfl⟩
  have hlow (k : Fin 32) : (k.castLE (by decide) : Fin 64).val = 0 + k.val := (Nat.zero_add _).symm
  have hhalf := hstart.half hlow (.inl rfl) rfl
  let middle : Pass := { ISAACReference.fourSteps^[32] start with m2 := 0 }
  have hmiddle : Agrees _ (4 * 32) middle :=
    ⟨hhalf.a, hhalf.b, hhalf.mm, hhalf.results, hhalf.m, hhalf.r⟩
  have hhigh (k : Fin 32) : (k.natAdd 32 : Fin 64).val = 32 + k.val := rfl
  have hwhole := hmiddle.half hhigh (.inr rfl) rfl
  rw [← List.foldl_append, ← finRange_quads] at hwhole
  have hvar3 : c.generateNextKeySet.cryptVar3 = c.cryptVar3 + 1 :=
    foldl_generateKey_cryptVar3 c₀ (List.finRange 256)
  let whole : Pass := ISAACReference.fourSteps^[32] middle
  have hisaac : isaac (contextOf c) =
      { randrsl := whole.results, randmem := whole.mm, randa := whole.a, randb := whole.b
        randc := c.cryptVar3 + 1 } := rfl
  rw [hisaac, hwhole.results, hwhole.mm, hwhole.a, hwhole.b, ← hvar3]
  rfl

/-! ## Starting up -/

theorem addBlock_eq (t : Table) (k : Fin 32) (o : Octet) :
    ISAACCipher.addBlock t k o = absorb t (8 * k.val) o := by
  have hget (j : Nat) (hj : 8 * k.val + j < 256) : t[8 * k.val + j]?.getD 0 = t[8 * k.val + j] :=
    getD_eq_getElem t hj
  simp only [absorb, ISAACCipher.addBlock, hget 1 (by omega), hget 2 (by omega), hget 3 (by omega),
    hget 4 (by omega), hget 5 (by omega), hget 6 (by omega), hget 7 (by omega),
    getD_eq_getElem t (show 8 * k.val < 256 by omega)]

theorem storeBlock_eq (t : Table) (k : Fin 32) (o : Octet) :
    ISAACCipher.storeBlock t k o = deposit t (8 * k.val) o := by
  simp only [deposit, ISAACCipher.storeBlock]
  rw [setIfInBounds_eq_set, setIfInBounds_eq_set, setIfInBounds_eq_set, setIfInBounds_eq_set,
    setIfInBounds_eq_set, setIfInBounds_eq_set, setIfInBounds_eq_set, setIfInBounds_eq_set]

theorem mix_eq (o : Octet) : ISAACCipher.mix o = mix o := rfl

theorem initializePass_eq (source : Table → Table) (acc : Octet × Table) :
    ISAACCipher.initializePass source acc = fill source acc := by
  have hrange : List.range 32 = (List.finRange 32).map Fin.val := by decide
  rw [ISAACCipher.initializePass, fill, hrange, List.foldl_map]
  simp only [addBlock_eq, storeBlock_eq, mix_eq]

/-- Writing the four words of the seed one by one gives the seed. -/
theorem eq_seeded {ai : Vector Word 4} {t : Table}
    (hlow : ∀ (i : Nat) (_ : i < 256) (_ : i < 4), t[i] = ai[i])
    (hhigh : ∀ (i : Nat) (_ : i < 256), 4 ≤ i → t[i] = 0) : t = seeded ai := by
  apply Vector.ext
  intro i hi
  rw [seeded, Vector.getElem_ofFn]
  by_cases h : i < 4
  · rw [dif_pos h, hlow i hi h]
  · rw [dif_neg h, hhigh i hi (by omega)]

theorem contextOf_initializeKeySet (c : ISAACCipher) : contextOf c.initializeKeySet =
    contextOf (ISAACCipher.generateNextKeySet
      { c with
        cryptArray := (ISAACCipher.initializePass id (ISAACCipher.initializePass
          (fun _ => c.keySetArray) (ISAACCipher.mix (ISAACCipher.mix (ISAACCipher.mix
            (ISAACCipher.mix Octet.golden))), c.cryptArray))).2 }) := by
  simp only [ISAACCipher.initializeKeySet, contextOf]

/-- A new cipher stands at the first batch of the reference. -/
theorem contextOf_new (ai : Vector Word 4) : contextOf (ISAACCipher.new ai) = batch ai 0 := by
  have hmix (o : Octet) : mix^[4] o = mix (mix (mix (mix o))) := rfl
  have hseed : ((((Vector.replicate 256 0 : Table).set 0 ai[0]).set 1 ai[1]).set 2 ai[2]).set 3
      ai[3] = seeded ai := by
    apply eq_seeded
    · intro i hi hlow
      rcases i with _ | _ | _ | _ | i
      · rfl
      · rfl
      · rfl
      · rfl
      · omega
    · intro i hi hhigh
      simp only [Vector.getElem_set, Vector.getElem_replicate]
      rw [if_neg (by omega), if_neg (by omega), if_neg (by omega), if_neg (by omega)]
  rw [ISAACCipher.new, contextOf_initializeKeySet, contextOf_generateNextKeySet]
  simp only [hseed, initializePass_eq, mix_eq, contextOf]
  rw [batch, Function.iterate_zero_apply, randinit]
  simp only [hmix]

/-! ## The keys in order -/

theorem batch_succ (ai : Vector Word 4) (k : Nat) : batch ai (k + 1) = isaac (batch ai k) :=
  Function.iterate_succ_apply' isaac k _

/-- Where a cipher stands after `n` keys: at the end of its first batch, or in the batch of the
key before with the index of that key. -/
structure Stands (ai : Vector Word 4) (n : Nat) (c : ISAACCipher) : Prop where
  context : contextOf c = batch ai ((n - 1) / 256)
  index : c.keyArrayIdx.toNat = if n = 0 then 256 else 255 - (n - 1) % 256

theorem stands_new (ai : Vector Word 4) : Stands ai 0 (ISAACCipher.new ai) :=
  ⟨contextOf_new ai, rfl⟩

theorem getElem_congr_table {t u : Table} {i j : Nat} (hi : i < 256) (hj : j < 256) (ht : t = u)
    (h : i = j) : t[i] = u[j] := by
  subst ht h
  rfl

/-- A key is read from the batch that is due, and a new batch is made only when the last one
has been read to its first word. -/
theorem Stands.getNextKey {ai : Vector Word 4} {n : Nat} {c : ISAACCipher} (h : Stands ai n c) :
    c.nextKey = (batch ai (n / 256)).randrsl[255 - n % 256] ∧ Stands ai (n + 1) c.getNextKey.2 := by
  have hindex := h.index
  by_cases hz : c.keyArrayIdx = 0
  · have hzero : c.keyArrayIdx.toNat = 0 := by rw [hz]; rfl
    have hn : n ≠ 0 := by
      intro hn
      rw [if_pos hn] at hindex
      omega
    rw [if_neg hn] at hindex
    have hbatch : contextOf c.generateNextKeySet = batch ai (n / 256) := by
      rw [contextOf_generateNextKeySet, h.context, ← batch_succ]
      congr 1
      omega
    have hkey : c.nextKey = c.generateNextKeySet.keySetArray[255] := by
      simp only [ISAACCipher.nextKey, ISAACCipher.getNextKey, dif_pos hz]
    have hnext : c.getNextKey.2 =
        { c.generateNextKeySet with keyArrayIdx := 255, idx_le := by decide } := by
      simp only [ISAACCipher.getNextKey, dif_pos hz]
    refine ⟨?_, ?_, ?_⟩
    · have hset : c.generateNextKeySet.keySetArray = (batch ai (n / 256)).randrsl := by
        rw [← contextOf_randrsl, hbatch]
      rw [hkey]
      exact getElem_congr_table _ _ hset (by omega)
    · rw [hnext, contextOf_withIndex, Nat.add_sub_cancel, hbatch]
    · rw [hnext, if_neg (Nat.succ_ne_zero n)]
      change 255 = _
      omega
  · have hne : c.keyArrayIdx.toNat ≠ 0 := fun h0 => hz (BitVec.eq_of_toNat_eq h0)
    have hpred : (c.keyArrayIdx - 1).toNat = 255 - n % 256 ∧ n / 256 = (n - 1) / 256 := by
      have hle := c.idx_le
      rw [BitVec.toNat_sub, show (1 : Word).toNat = 1 from rfl]
      split at hindex <;> omega
    have hbatch : contextOf c = batch ai (n / 256) := by rw [h.context, hpred.2]
    have hlt : (c.keyArrayIdx - 1).toNat < 256 := by omega
    have hkey : c.nextKey = c.keySetArray[(c.keyArrayIdx - 1).toNat] := by
      simp only [ISAACCipher.nextKey, ISAACCipher.getNextKey, dif_neg hz]
    have hnext : c.getNextKey.2 =
        { c with keyArrayIdx := c.keyArrayIdx - 1, idx_le := Nat.le_of_lt hlt } := by
      simp only [ISAACCipher.getNextKey, dif_neg hz]
    refine ⟨?_, ?_, ?_⟩
    · have hset : c.keySetArray = (batch ai (n / 256)).randrsl := by
        rw [← contextOf_randrsl, hbatch]
      rw [hkey]
      exact getElem_congr_table _ _ hset hpred.1
    · rw [hnext, contextOf_withIndex, Nat.add_sub_cancel, hbatch]
    · rw [hnext, if_neg (Nat.succ_ne_zero n), Nat.add_sub_cancel]
      exact hpred.1

theorem stands_advance (ai : Vector Word 4) (n : Nat) :
    Stands ai n ((ISAACCipher.new ai).advance n) := by
  induction n with
  | zero => exact stands_new ai
  | succ n ih =>
      rw [ISAACCipher.advance_add, ISAACCipher.advance_succ, ISAACCipher.advance_zero]
      exact ih.getNextKey.2

end ISAACReference

open ISAACReference in
/-- Key `n` is word `255 - n % 256` of reference batch `n / 256`, the index it is read at never
leaves the array, and the 256 keys of a batch are its words, each once, from the last to the
first. -/
theorem getNextKey_reference (ai : Vector Word 4) :
    (∀ n, ((ISAACCipher.new ai).advance n).nextKey =
      (batch ai (n / 256)).randrsl[255 - n % 256]) ∧
    (∀ n, ((ISAACCipher.new ai).advance (n + 1)).keyArrayIdx.toNat = 255 - n % 256) ∧
    ∀ k, (List.range 256).map (fun j => ((ISAACCipher.new ai).advance (256 * k + j)).nextKey) =
      (batch ai k).randrsl.toList.reverse := by
  have hkey (n : Nat) : ((ISAACCipher.new ai).advance n).nextKey =
      (batch ai (n / 256)).randrsl[255 - n % 256] := (stands_advance ai n).getNextKey.1
  refine ⟨hkey, ?_, ?_⟩
  · intro n
    have h := (stands_advance ai (n + 1)).index
    rwa [if_neg (Nat.succ_ne_zero n), Nat.add_sub_cancel] at h
  · intro k
    apply List.ext_getElem
    · rw [List.length_map, List.length_range, List.length_reverse, Vector.length_toList]
    · intro j hj hj'
      have hlt : j < 256 := by simpa only [List.length_map, List.length_range] using hj
      rw [List.getElem_map, List.getElem_range, hkey, List.getElem_reverse]
      simp only [Vector.length_toList, Vector.getElem_toList]
      exact getElem_congr_table _ _ (by congr 2; omega) (by omega)

end AsioRsps
