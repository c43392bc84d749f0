import AsioRsps.ISAACReference
import Mathlib.Data.Fintype.Pigeonhole
import Mathlib.Data.Finite.Prod
import Mathlib.Data.Fintype.Pi
import Mathlib.Dynamics.PeriodicPts.Defs

/-!
# The states of a cipher

Nothing that a cipher does loses anything of its state: every batch of keys, and the set-up from
the seed, can be taken back. Two ciphers that are in the same state have the same seed behind
them, and the keys come back to the first one after some time.
-/
namespace AsioRsps

/-! ## Shifted words -/

theorem mixLeft_injective {w k : Nat} (hk : 0 < k) :
    Function.Injective fun x : BitVec w => x ^^^ (x <<< k) := by
  intro x y h
  refine BitVec.eq_of_getLsbD_eq fun i _ => ?_
  induction i using Nat.strong_induction_on with
  | _ i ih =>
      have hi := congrArg (BitVec.getLsbD · i) h
      simp only [BitVec.getLsbD_xor, BitVec.getLsbD_shiftLeft] at hi
      by_cases hik : i < k
      · simpa [hik] using hi
      · rw [ih (i - k) (by omega) (by omega)] at hi
        exact Bool.xor_left_inj.mp hi

theorem mixRight_injective {w k : Nat} (hk : 0 < k) :
    Function.Injective fun x : BitVec w => x ^^^ (x >>> k) := by
  intro x y h
  have hbit (n i : Nat) (hn : w ≤ n + i) : x.getLsbD i = y.getLsbD i := by
    induction n using Nat.strong_induction_on generalizing i with
    | _ n ih =>
        by_cases hi : w ≤ i
        · rw [BitVec.getLsbD_of_ge x i hi, BitVec.getLsbD_of_ge y i hi]
        · have hbit := congrArg (BitVec.getLsbD · i) h
          simp only [BitVec.getLsbD_xor, BitVec.getLsbD_ushiftRight] at hbit
          rw [ih (n - k) (by omega) (k + i) (by omega)] at hbit
          exact Bool.xor_left_inj.mp hbit
  exact BitVec.eq_of_getLsbD_eq fun i _ => hbit w i (Nat.le_add_right _ _)

theorem shiftAt_injective (k : Nat) :
    Function.Injective fun a : Word => a ^^^ ISAACReference.shiftAt k a := by
  rcases k with _ | _ | _ | k
  · exact mixLeft_injective (by decide)
  · exact mixRight_injective (by decide)
  · exact mixLeft_injective (by decide)
  · exact mixRight_injective (by decide)

namespace ISAACCipher
open ISAACReference

/-! ## Batches -/

/-- The words of two ciphers that further batches are made of. -/
structure SameCore (c d : ISAACCipher) : Prop where
  cryptArray : c.cryptArray = d.cryptArray
  cryptVar1 : c.cryptVar1 = d.cryptVar1
  cryptVar2 : c.cryptVar2 = d.cryptVar2
  cryptVar3 : c.cryptVar3 = d.cryptVar3

/-- A step of the loop can be taken back. -/
theorem SameCore.of_generateKey {c d : ISAACCipher} {i : Fin 256}
    (h : SameCore (c.generateKey i) (d.generateKey i)) : SameCore c d := by
  have hstored : storedWord c i = storedWord d i := by
    have hi := congrArg (·[i.val]) h.cryptArray
    simpa [generateKey_cryptArray] using hi
  have hreplaced : c.cryptArray.get i = d.cryptArray.get i := by
    have hkey := h.cryptVar2
    rw [generateKey_cryptVar2, generateKey_cryptVar2, h.cryptArray, hstored] at hkey
    exact (BitVec.add_right_inj _).mp hkey
  have htable : c.cryptArray = d.cryptArray := by
    have harray := h.cryptArray
    rw [generateKey_cryptArray, generateKey_cryptArray, hstored] at harray
    apply Vector.ext
    intro j hj
    by_cases hij : i.val = j
    · subst hij
      exact hreplaced
    · have hentry := congrArg (·[j]) harray
      simpa [Vector.getElem_setIfInBounds_ne, hij] using hentry
  have hvar1 : c.cryptVar1 = d.cryptVar1 := by
    have hmixed := h.cryptVar1
    rw [generateKey_cryptVar1, generateKey_cryptVar1, htable] at hmixed
    exact shiftAt_injective _ ((BitVec.add_left_inj _).mp hmixed)
  refine ⟨htable, hvar1, ?_, h.cryptVar3⟩
  rw [storedWord, storedWord, htable, h.cryptVar1] at hstored
  exact (BitVec.add_right_inj _).mp hstored

/-- What a step does does not depend on the keys that there are. -/
theorem SameCore.generateKey {c d : ISAACCipher} (h : SameCore c d) (i : Fin 256) :
    SameCore (c.generateKey i) (d.generateKey i) := by
  have hvar1 : (c.generateKey i).cryptVar1 = (d.generateKey i).cryptVar1 := by
    rw [generateKey_cryptVar1, generateKey_cryptVar1, h.cryptVar1, h.cryptArray]
  have hstored : storedWord c i = storedWord d i := by
    rw [storedWord, storedWord, hvar1, h.cryptArray, h.cryptVar2]
  have harray : (c.generateKey i).cryptArray = (d.generateKey i).cryptArray := by
    rw [generateKey_cryptArray, generateKey_cryptArray, hstored, h.cryptArray]
  refine ⟨harray, hvar1, ?_, h.cryptVar3⟩
  rw [generateKey_cryptVar2, generateKey_cryptVar2, harray, hstored, h.cryptArray]

theorem SameCore.of_foldl {is : List (Fin 256)} {c d : ISAACCipher}
    (h : SameCore (is.foldl ISAACCipher.generateKey c) (is.foldl ISAACCipher.generateKey d)) :
    SameCore c d := by
  induction is generalizing c d with
  | nil => exact h
  | cons i is ih => exact (ih h).of_generateKey

/-- The loop makes the keys of its indices out of the core. -/
theorem SameCore.foldl {c d : ISAACCipher} (h : SameCore c d) (is : List (Fin 256)) :
    SameCore (is.foldl ISAACCipher.generateKey c) (is.foldl ISAACCipher.generateKey d) ∧
    ∀ j : Fin 256, j ∈ is ∨ c.keySetArray[j.val]? = d.keySetArray[j.val]? →
      (is.foldl ISAACCipher.generateKey c).keySetArray[j.val]? =
        (is.foldl ISAACCipher.generateKey d).keySetArray[j.val]? := by
  induction is generalizing c d with
  | nil => exact ⟨h, fun j hj => hj.resolve_left List.not_mem_nil⟩
  | cons i is ih =>
      have hstep := h.generateKey i
      obtain ⟨hcore, hkeys⟩ := ih hstep
      refine ⟨hcore, fun j hj => hkeys j ?_⟩
      simp only [generateKey_keySetArray, hstep.cryptVar2, Vector.getElem?_setIfInBounds]
      by_cases hij : i.val = j.val
      · exact .inr (by rw [if_pos hij, if_pos hij])
      · rw [if_neg hij, if_neg hij]
        refine hj.imp_left fun hmem => (List.mem_cons.mp hmem).resolve_left fun heq => hij ?_
        rw [heq]

/-- The start of the loop. -/
def started (c : ISAACCipher) : ISAACCipher :=
  { c with cryptVar3 := c.cryptVar3 + 1, cryptVar2 := c.cryptVar2 + (c.cryptVar3 + 1) }

theorem generateNextKeySet_eq (c : ISAACCipher) :
    c.generateNextKeySet = (List.finRange 256).foldl ISAACCipher.generateKey c.started := by
  rw [ISAACCipher.generateNextKeySet, started]

theorem sameCore_started {c d : ISAACCipher} : SameCore c.started d.started ↔ SameCore c d := by
  constructor
  · intro h
    have hvar3 : c.cryptVar3 = d.cryptVar3 := (BitVec.add_left_inj _).mp h.cryptVar3
    have hvar2 : c.cryptVar2 + (c.cryptVar3 + 1) = d.cryptVar2 + (d.cryptVar3 + 1) := h.cryptVar2
    rw [hvar3] at hvar2
    exact ⟨h.cryptArray, h.cryptVar1, (BitVec.add_left_inj _).mp hvar2, hvar3⟩
  · intro h
    have hvar3 : c.cryptVar3 + 1 = d.cryptVar3 + 1 := congrArg (· + 1) h.cryptVar3
    exact ⟨h.cryptArray, h.cryptVar1, congrArg₂ (· + ·) h.cryptVar2 hvar3, hvar3⟩

/-- A batch can be taken back. -/
theorem SameCore.of_generateNextKeySet {c d : ISAACCipher}
    (h : SameCore c.generateNextKeySet d.generateNextKeySet) : SameCore c d := by
  rw [generateNextKeySet_eq, generateNextKeySet_eq] at h
  exact sameCore_started.mp h.of_foldl

/-- A batch is made out of the core. -/
theorem SameCore.generateNextKeySet {c d : ISAACCipher} (h : SameCore c d) :
    contextOf c.generateNextKeySet = contextOf d.generateNextKeySet := by
  rw [generateNextKeySet_eq, generateNextKeySet_eq]
  obtain ⟨hcore, hkeys⟩ := (sameCore_started.mpr h).foldl (List.finRange 256)
  have hset : ((List.finRange 256).foldl ISAACCipher.generateKey c.started).keySetArray =
      ((List.finRange 256).foldl ISAACCipher.generateKey d.started).keySetArray := by
    apply Vector.ext
    intro j hj
    have hkey := hkeys ⟨j, hj⟩ (.inl (List.mem_finRange _))
    rw [Vector.getElem?_eq_getElem hj, Vector.getElem?_eq_getElem hj] at hkey
    exact Option.some.inj hkey
  rw [contextOf, contextOf, hcore.cryptArray, hcore.cryptVar1, hcore.cryptVar2, hcore.cryptVar3,
    hset]

theorem sameCore_of_contextOf {c d : ISAACCipher} (h : contextOf c = contextOf d) :
    SameCore c d :=
  ⟨congrArg Context.randmem h, congrArg Context.randa h, congrArg Context.randb h,
    congrArg Context.randc h⟩

/-- So can all of them. -/
theorem SameCore.of_iterate {n : Nat} {c d : ISAACCipher}
    (h : SameCore (ISAACCipher.generateNextKeySet^[n] c) (ISAACCipher.generateNextKeySet^[n] d)) :
    SameCore c d := by
  induction n with
  | zero => exact h
  | succ n ih =>
      rw [Function.iterate_succ_apply', Function.iterate_succ_apply'] at h
      exact ih h.of_generateNextKeySet

theorem SameCore.iterate {c d : ISAACCipher} (h : SameCore c d) (n : Nat) :
    contextOf (ISAACCipher.generateNextKeySet^[n + 1] c) =
      contextOf (ISAACCipher.generateNextKeySet^[n + 1] d) := by
  induction n with
  | zero => exact h.generateNextKeySet
  | succ n ih =>
      rw [Function.iterate_succ_apply', Function.iterate_succ_apply' _ (n + 1)]
      exact (sameCore_of_contextOf ih).generateNextKeySet

/-! ## Mixing -/

/-- A line of `mix`, and the words turned by one place. -/
def mixLine (shift : Word → Word) (o : Octet) : Octet :=
  let a := o.a ^^^ shift o.b
  ⟨o.b + o.c, o.c, o.d + a, o.e, o.f, o.g, o.h, a⟩

theorem mixLine_injective (shift : Word → Word) : Function.Injective (mixLine shift) := by
  rintro ⟨a, b, c, d, e, f, g, h⟩ ⟨a', b', c', d', e', f', g', h'⟩ heq
  simp only [mixLine, Octet.mk.injEq] at heq
  obtain ⟨hb, rfl, hd, rfl, rfl, rfl, rfl, ha⟩ := heq
  obtain rfl := (BitVec.add_left_inj _).mp hb
  obtain rfl := (BitVec.xor_left_inj _).mp ha
  obtain rfl := (BitVec.add_left_inj _).mp hd
  rfl

theorem mix_eq_lines (o : Octet) : ISAACCipher.mix o =
    mixLine (· >>> 9) (mixLine (· <<< 8) (mixLine (· >>> 4) (mixLine (· <<< 10)
      (mixLine (· >>> 16) (mixLine (· <<< 8) (mixLine (· >>> 2) (mixLine (· <<< 11) o))))))) := by
  cases o
  rfl

theorem mix_injective : Function.Injective ISAACCipher.mix := by
  intro o o' h
  rw [mix_eq_lines, mix_eq_lines] at h
  iterate 8 have h := mixLine_injective _ h
  exact h

/-! ## Setting up -/

/-- The eight words of a block. -/
def blockOf (t : Table) (block : Fin 32) : Octet :=
  let i := 8 * block.val
  ⟨t[i]?.getD 0, t[i+1]?.getD 0, t[i+2]?.getD 0, t[i+3]?.getD 0, t[i+4]?.getD 0, t[i+5]?.getD 0,
    t[i+6]?.getD 0, t[i+7]?.getD 0⟩

theorem addBlock_inj {t u : Table} {block : Fin 32} {o : Octet} :
    addBlock t block o = addBlock u block o ↔ blockOf t block = blockOf u block := by
  simp only [addBlock_eq, absorb, blockOf, Octet.mk.injEq, BitVec.add_right_inj]

theorem blockOf_storeBlock (t : Table) (block : Fin 32) (o : Octet) :
    blockOf (storeBlock t block o) block = o := by
  have hlt := block.isLt
  simp (disch := omega) [blockOf, storeBlock_eq, deposit]

theorem blockOf_storeBlock_of_ne (t : Table) {block other : Fin 32} (h : other ≠ block)
    (o : Octet) : blockOf (storeBlock t block o) other = blockOf t other := by
  have hne : other.val ≠ block.val := fun heq => h (Fin.ext heq)
  simp (disch := omega) only [blockOf, storeBlock_eq, deposit,
    Vector.getElem?_setIfInBounds_ne]

/-- A pass over some of the blocks. -/
def passOver (source : Table → Table) (blocks : List (Fin 32)) (acc : Octet × Table) :
    Octet × Table :=
  blocks.foldl (fun (o, crypt) block =>
    let o := mix (addBlock (source crypt) block o)
    (o, storeBlock crypt block o)) acc

theorem passOver_cons (source : Table → Table) (block : Fin 32) (blocks : List (Fin 32))
    (o : Octet) (t : Table) : passOver source (block :: blocks) (o, t) =
      passOver source blocks (mix (addBlock (source t) block o),
        storeBlock t block (mix (addBlock (source t) block o))) := rfl

theorem blockOf_passOver_of_notMem (source : Table → Table) {blocks : List (Fin 32)}
    {block : Fin 32} (h : block ∉ blocks) (o : Octet) (t : Table) :
    blockOf (passOver source blocks (o, t)).2 block = blockOf t block := by
  induction blocks generalizing o t with
  | nil => rfl
  | cons first blocks ih =>
      obtain ⟨hne, hrest⟩ := not_or.mp fun hor => h (List.mem_cons.mpr hor)
      rw [passOver_cons, ih hrest, blockOf_storeBlock_of_ne _ hne]

/-- The mixing words are in the block that was stored last. -/
theorem passOver_last (source : Table → Table) (blocks : List (Fin 32)) (last : Fin 32)
    (acc : Octet × Table) : (passOver source (blocks ++ [last]) acc).1 =
      blockOf (passOver source (blocks ++ [last]) acc).2 last := by
  rw [passOver, List.foldl_append]
  exact (blockOf_storeBlock _ _ _).symm

/-- A block is read before it is stored. -/
def ReadsFirst (source : Table → Table) : Prop :=
  ∀ t block other o, other ≠ block →
    blockOf (source (storeBlock t block o)) other = blockOf (source t) other

theorem readsFirst_const (u : Table) : ReadsFirst fun _ => u := fun _ _ _ _ _ => rfl

theorem readsFirst_id : ReadsFirst id := fun t _ _ o h => blockOf_storeBlock_of_ne t h o

/-- A pass can be taken back. -/
theorem passOver_back {source source' : Table → Table} (hs : ReadsFirst source)
    (hs' : ReadsFirst source') {blocks : List (Fin 32)} (hnodup : blocks.Nodup) {o : Octet}
    {t t' : Table} (h : ∀ block ∈ blocks, blockOf (passOver source blocks (o, t)).2 block =
      blockOf (passOver source' blocks (o, t')).2 block) :
    ∀ block ∈ blocks, blockOf (source t) block = blockOf (source' t') block := by
  induction blocks generalizing o t t' with
  | nil => exact fun _ hmem => absurd hmem List.not_mem_nil
  | cons first blocks ih =>
      obtain ⟨hfirst, hrest⟩ := List.nodup_cons.mp hnodup
      have hmixed : mix (addBlock (source t) first o) = mix (addBlock (source' t') first o) := by
        have hstored := h first List.mem_cons_self
        rw [passOver_cons, passOver_cons, blockOf_passOver_of_notMem _ hfirst,
          blockOf_passOver_of_notMem _ hfirst, blockOf_storeBlock, blockOf_storeBlock] at hstored
        exact hstored
      intro block hblock
      rcases List.mem_cons.mp hblock with rfl | hlater
      · exact addBlock_inj.mp (mix_injective hmixed)
      · have hlast : ∀ other ∈ blocks, _ := fun other hother =>
          h other (List.mem_cons_of_mem first hother)
        simp only [passOver_cons, hmixed] at hlast
        have hne : block ≠ first := fun heq => hfirst (heq ▸ hlater)
        have hback := ih hrest hlast block hlater
        rwa [hs _ _ _ _ hne, hs' _ _ _ _ hne] at hback

/-! ## Seeds -/

/-- The first pass, over the seed. -/
def firstPass (ai : Vector Word 4) : Octet × Table :=
  initializePass (fun _ => seeded ai)
    (mix (mix (mix (mix Octet.golden))), Vector.replicate 256 0)

/-- A new cipher before its first batch. -/
def prepared (ai : Vector Word 4) : ISAACCipher where
  keySetArray := seeded ai
  cryptArray := (initializePass id (firstPass ai)).2
  cryptVar1 := 0
  cryptVar2 := 0
  cryptVar3 := 0
  keyArrayIdx := 0
  idx_le := Nat.zero_le 256

theorem batch_eq (ai : Vector Word 4) (k : Nat) :
    batch ai k = contextOf (ISAACCipher.generateNextKeySet^[k + 1] (prepared ai)) := by
  induction k with
  | zero =>
      have hmix (o : Octet) : ISAACReference.mix^[4] o = ISAACReference.mix
        (ISAACReference.mix (ISAACReference.mix (ISAACReference.mix o))) := rfl
      rw [batch, Function.iterate_zero_apply, randinit, Nat.zero_add, Function.iterate_one,
        contextOf_generateNextKeySet]
      simp only [contextOf, prepared, firstPass, initializePass_eq, mix_eq, hmix]
  | succ k ih =>
      rw [batch_succ, ih, ← contextOf_generateNextKeySet]
      exact congrArg contextOf (Function.iterate_succ_apply' _ (k + 1) _).symm

/-- The second pass starts with the last block of the first one. -/
theorem firstPass_fst (ai : Vector Word 4) :
    (firstPass ai).1 = blockOf (firstPass ai).2 (Fin.last 31) := by
  have hblocks : List.finRange 32 = (List.finRange 31).map Fin.castSucc ++ [Fin.last 31] :=
    List.finRange_succ_last
  have hlast := passOver_last (fun _ => seeded ai) ((List.finRange 31).map Fin.castSucc)
    (Fin.last 31) (mix (mix (mix (mix Octet.golden))), Vector.replicate 256 0)
  rw [← hblocks] at hlast
  exact hlast

/-- The second pass can be taken back, with the mixing words it starts with. -/
theorem firstPass_blocks {ai bi : Vector Word 4}
    (h : (prepared ai).cryptArray = (prepared bi).cryptArray) (block : Fin 32) :
    blockOf (firstPass ai).2 block = blockOf (firstPass bi).2 block := by
  generalize hrest : (List.finRange 31).map Fin.succ = rest
  have hblocks : List.finRange 32 = 0 :: rest := hrest ▸ List.finRange_succ
  have hnodup : (0 :: rest).Nodup := hblocks ▸ List.nodup_finRange 32
  obtain ⟨hzero, hnodup⟩ := List.nodup_cons.mp hnodup
  have hmem (k : Fin 32) (hk : k ≠ 0) : k ∈ rest :=
    (List.mem_cons.mp (hblocks ▸ List.mem_finRange k)).resolve_left hk
  have hpass (ci : Vector Word 4) :
      (prepared ci).cryptArray = (passOver id (0 :: rest) (firstPass ci)).2 := by
    rw [← hblocks]
    rfl
  have hfinal (k : Fin 32) : blockOf (passOver id (0 :: rest) (firstPass ai)).2 k =
      blockOf (passOver id (0 :: rest) (firstPass bi)).2 k := by
    rw [← hpass, ← hpass, h]
  have hlast := firstPass_fst ai
  have hlast' := firstPass_fst bi
  generalize firstPass ai = acc at hfinal hlast ⊢
  generalize firstPass bi = acc' at hfinal hlast' ⊢
  obtain ⟨o, t⟩ := acc
  obtain ⟨o', t'⟩ := acc'
  have hmixed : mix (addBlock t 0 o) = mix (addBlock t' 0 o') := by
    have hstored := hfinal 0
    rw [passOver_cons, passOver_cons, blockOf_passOver_of_notMem _ hzero,
      blockOf_passOver_of_notMem _ hzero, blockOf_storeBlock, blockOf_storeBlock] at hstored
    exact hstored
  have hothers (k : Fin 32) (hk : k ≠ 0) : blockOf t k = blockOf t' k := by
    have hafter : ∀ k ∈ rest, _ := fun k _ => hfinal k
    simp only [passOver_cons, id, hmixed] at hafter
    have hback := passOver_back readsFirst_id readsFirst_id hnodup hafter k (hmem k hk)
    rwa [readsFirst_id _ _ _ _ hk, readsFirst_id _ _ _ _ hk] at hback
  by_cases hblock : block = 0
  · subst hblock
    have hsame : o = o' := hlast.trans ((hothers _ (by decide)).trans hlast'.symm)
    subst hsame
    exact addBlock_inj.mp (mix_injective hmixed)
  · exact hothers block hblock

/-- The seed can be got back from the words that it has been mixed into. -/
theorem prepared_injective {ai bi : Vector Word 4}
    (h : (prepared ai).cryptArray = (prepared bi).cryptArray) : ai = bi := by
  have hblocks : ∀ block ∈ List.finRange 32, blockOf (seeded ai) block =
      blockOf (seeded bi) block :=
    passOver_back (readsFirst_const _) (readsFirst_const _) (List.nodup_finRange 32)
      fun block _ => firstPass_blocks h block
  have hwords : ai[0] = bi[0] ∧ ai[1] = bi[1] ∧ ai[2] = bi[2] ∧ ai[3] = bi[3] := by
    simpa [blockOf, seeded] using hblocks 0 (List.mem_finRange 0)
  obtain ⟨h0, h1, h2, h3⟩ := hwords
  apply Vector.ext
  intro i hi
  rcases i with _ | _ | _ | _ | i
  · exact h0
  · exact h1
  · exact h2
  · exact h3
  · omega

/-! ## Keys -/

theorem isaac_randc (ctx : Context) : (isaac ctx).randc = ctx.randc + 1 := by
  rw [isaac]

theorem batch_randc (ai : Vector Word 4) (k : Nat) :
    (batch ai k).randc = BitVec.ofNat 32 (k + 1) := by
  induction k with
  | zero =>
      rw [batch, Function.iterate_zero_apply, randinit, isaac_randc]
      rfl
  | succ k ih =>
      rw [batch_succ, isaac_randc, ih]
      exact BitVec.ofNat_add_ofNat ..

theorem mod_eq_of_advance_eq {ai bi : Vector Word 4} {m n : Nat}
    (h : (new ai).advance m = (new bi).advance n) : m % 2 ^ 40 = n % 2 ^ 40 := by
  have hai := stands_advance ai m
  rw [h] at hai
  have hbi := stands_advance bi n
  have hindex := hai.index.symm.trans hbi.index
  have hrandc := congrArg Context.randc (hai.context.symm.trans hbi.context)
  rw [batch_randc, batch_randc] at hrandc
  have hbatch := congrArg BitVec.toNat hrandc
  rw [BitVec.toNat_ofNat, BitVec.toNat_ofNat] at hbatch
  split at hindex <;> split at hindex <;> omega

/-- Two ciphers in the same state have had as many keys drawn from them, up to a multiple of
`2 ^ 40`; after as many keys they are in the same state only when they have the same seed. -/
theorem advance_states (ai bi : Vector Word 4) (m n : Nat) :
    ((new ai).advance m = (new bi).advance n → m % 2 ^ 40 = n % 2 ^ 40) ∧
    ((new ai).advance n = (new bi).advance n ↔ ai = bi) := by
  refine ⟨mod_eq_of_advance_eq, fun h => ?_, fun h => h ▸ rfl⟩
  have hbatch := (h ▸ stands_advance ai n).context.symm.trans (stands_advance bi n).context
  rw [batch_eq, batch_eq] at hbatch
  exact prepared_injective (sameCore_of_contextOf hbatch).of_iterate.cryptArray

/-! ## Coming round -/

instance : Finite Word := Finite.of_injective BitVec.toFin fun _ _ => BitVec.eq_of_toFin_eq

instance : Finite Table :=
  Finite.of_injective (fun (t : Table) (i : Fin 256) => t[i.val])
    fun _ _ h => Vector.ext fun i hi => congrFun h ⟨i, hi⟩

instance : Finite Context := by
  refine Finite.of_injective
    (fun ctx => (ctx.randrsl, ctx.randmem, ctx.randa, ctx.randb, ctx.randc)) ?_
  rintro ⟨_, _, _, _, _⟩ ⟨_, _, _, _, _⟩ h
  simpa only [Prod.mk.injEq, Context.mk.injEq] using h

/-- The first batch is one of those that come again. -/
theorem exists_batch_period (ai : Vector Word 4) :
    ∃ p, 0 < p ∧ ∀ k, batch ai (k + p) = batch ai k := by
  obtain ⟨i, j, hne, heq⟩ := Finite.exists_ne_map_eq_of_infinite (batch ai)
  wlog hlt : i < j generalizing i j
  · exact this j i hne.symm heq.symm (by omega)
  rw [batch_eq, batch_eq, show j + 1 = i + 1 + (j - i) by omega,
    Function.iterate_add_apply _ (i + 1)] at heq
  have hcore := (sameCore_of_contextOf heq).of_iterate
  refine ⟨j - i, by omega, fun k => ?_⟩
  rw [batch_eq, batch_eq, show k + (j - i) + 1 = k + 1 + (j - i) by omega,
    Function.iterate_add_apply _ (k + 1) (j - i)]
  exact (hcore.iterate k).symm

theorem eq_of_contextOf {c d : ISAACCipher} (h : contextOf c = contextOf d)
    (hindex : c.keyArrayIdx.toNat = d.keyArrayIdx.toNat) : c = d := by
  obtain ⟨_, _, _, _, _, _, _⟩ := c
  obtain ⟨_, _, _, _, _, _, _⟩ := d
  simp only [contextOf, Context.mk.injEq] at h
  obtain ⟨rfl, rfl, rfl, rfl, rfl⟩ := h
  obtain rfl := BitVec.eq_of_toNat_eq hindex
  rfl

theorem advance_eq_iterate (c : ISAACCipher) (n : Nat) :
    c.advance n = (fun c => c.getNextKey.2)^[n] c := by
  induction n generalizing c with
  | zero => rfl
  | succ n ih => rw [advance_succ, ih, Function.iterate_succ_apply]

/-- The states come again. -/
theorem exists_advance_period (ai : Vector Word 4) : ∃ n, 0 < n ∧
    (∀ m, 0 < m → (new ai).advance (m + n) = (new ai).advance m) := by
  obtain ⟨p, hp, hperiod⟩ := exists_batch_period ai
  refine ⟨256 * p, by omega, fun m hm => ?_⟩
  have hfar := stands_advance ai (m + 256 * p)
  have hnear := stands_advance ai m
  apply eq_of_contextOf
  · rw [hfar.context, hnear.context,
      show (m + 256 * p - 1) / 256 = (m - 1) / 256 + p by omega, hperiod]
  · rw [hfar.index, hnear.index, if_neg (by omega), if_neg (by omega)]
    omega

/-- The key drawn last is at the index. -/
theorem getNextKey_getElem? (c : ISAACCipher) :
    c.getNextKey.2.keySetArray[c.getNextKey.2.keyArrayIdx.toNat]? = some c.nextKey := by
  rw [nextKey, getNextKey]
  split
  · exact Vector.getElem?_eq_getElem _
  · exact Vector.getElem?_eq_getElem _

theorem nextKey_eq_of_getNextKey_eq {c d : ISAACCipher} (h : c.getNextKey.2 = d.getNextKey.2) :
    c.nextKey = d.nextKey := by
  have hkey := getNextKey_getElem? c
  rw [h, getNextKey_getElem?] at hkey
  exact (Option.some.inj hkey).symm

/-- From its first key on a cipher goes round a single cycle of states, of a length that is a
multiple of `2 ^ 40`, and its keys come again from the first one on. -/
theorem advance_returns (ai : Vector Word 4) : ∃ n, 0 < n ∧ 2 ^ 40 ∣ n ∧
    (∀ m k, 0 < m → ((new ai).advance (m + k) = (new ai).advance m ↔ n ∣ k)) ∧
    ∀ m, ((new ai).advance (m + n)).nextKey = ((new ai).advance m).nextKey := by
  obtain ⟨p, hp, hreturns⟩ := exists_advance_period ai
  -- the state after the first key goes round
  have hfirst : (new ai).advance 1 ∈ Function.periodicPts fun c => c.getNextKey.2 := by
    refine Function.mk_mem_periodicPts hp ?_
    rw [Function.IsPeriodicPt, Function.IsFixedPt, ← advance_eq_iterate, ← advance_add]
    exact hreturns 1 Nat.one_pos
  have hstates (m k : Nat) (hm : 0 < m) : (new ai).advance (m + k) = (new ai).advance m ↔
      Function.minimalPeriod (fun c => c.getNextKey.2) ((new ai).advance 1) ∣ k := by
    obtain ⟨j, rfl⟩ := Nat.exists_eq_add_of_lt hm
    rw [Nat.zero_add, Nat.add_comm j 1, ← Function.minimalPeriod_apply_iterate hfirst j,
      ← Function.isPeriodicPt_iff_minimalPeriod_dvd, Function.IsPeriodicPt, Function.IsFixedPt,
      ← advance_eq_iterate, ← advance_eq_iterate, ← advance_add, ← advance_add, ← advance_add,
      Nat.add_assoc]
  refine ⟨_, Function.minimalPeriod_pos_of_mem_periodicPts hfirst, ?_, hstates, fun m => ?_⟩
  · have hmod := mod_eq_of_advance_eq ((hstates 1 _ Nat.one_pos).mpr dvd_rfl)
    omega
  · have hnext := (hstates (m + 1) _ (Nat.succ_pos m)).mpr dvd_rfl
    rw [Nat.add_right_comm, advance_add _ _ 1, advance_add _ m 1] at hnext
    exact nextKey_eq_of_getNextKey_eq hnext

end ISAACCipher
end AsioRsps
