import AsioRsps.PlayerUpdating
import AsioRsps.FallibleLoop
import Mathlib.Data.Nat.Digits.Lemmas
import Mathlib.Data.List.DropRight

/-!
# Player names

`PlayerNameToInt64` writes the first twelve characters of a name as a number in base 37, most
significant character first, and divides the zeros at its low end out. The number has no
digits above its first nonzero one, so zeros are lost at both ends: what is encoded is the
name with the characters that are not letters or digits stripped from both ends.
-/
namespace AsioRsps.PlayerNames
open BitStrings

/-- Letters in lower case and digits; every other character is a `_`. -/
def canonChar (c : Byte) : Byte :=
  if 65 ≤ c.toNat ∧ c.toNat ≤ 90 then c + 32
  else if 97 ≤ c.toNat ∧ c.toNat ≤ 122 then c
  else if 48 ≤ c.toNat ∧ c.toNat ≤ 57 then c
  else 95

/-- The name as it is encoded. -/
def canon (s : Name) : Name :=
  (((s.take 12).map canonChar).rdropWhile (· = 95)).dropWhile (· = 95)

/-- The character of a base 37 digit. -/
def digitChar (d : Nat) : Byte :=
  if d = 0 then 95 else if d ≤ 26 then BitVec.ofNat 8 (96 + d) else BitVec.ofNat 8 (21 + d)

/-- The base 37 digits of a number, the most significant one first, as characters. -/
def decodeName (l : Nat) : Name := ((Nat.digits 37 l).map digitChar).reverse

/-! ## Characters -/

theorem nameDigit_lt (c : Byte) : nameDigit c < 37 := by
  unfold nameDigit
  grind

theorem digitChar_nameDigit (c : Byte) : digitChar (nameDigit c) = canonChar c := by
  revert c
  decide +kernel

theorem canonChar_eq_iff (c : Byte) : canonChar c = 95 ↔ nameDigit c = 0 := by
  revert c
  decide +kernel

theorem nameDigit_canonChar (c : Byte) : nameDigit (canonChar c) = nameDigit c := by
  revert c
  decide +kernel

/-! ## Digits -/

/-- The value of a list of characters, the first one most significant. -/
def nameValue (s : Name) : Nat := s.foldl (fun l c => l * 37 + nameDigit c) 0

theorem nameValue_concat (s : Name) (c : Byte) :
    nameValue (s ++ [c]) = nameValue s * 37 + nameDigit c := by
  rw [nameValue, List.foldl_append]
  rfl

theorem nameValue_eq_ofDigits (s : Name) :
    nameValue s = Nat.ofDigits 37 (s.map nameDigit).reverse := by
  induction s using List.reverseRecOn with
  | nil => rfl
  | append_singleton s c ih =>
      rw [nameValue_concat, List.map_append, List.reverse_append, ih]
      simp only [List.map_cons, List.map_nil, List.reverse_cons, List.reverse_nil, List.nil_append,
        List.singleton_append, Nat.ofDigits_cons]
      ring

theorem nameValue_lt (s : Name) : nameValue s < 37 ^ s.length := by
  rw [nameValue_eq_ofDigits]
  have hlt := Nat.ofDigits_lt_base_pow_length (b := 37) (l := (s.map nameDigit).reverse)
    (by decide) fun d hd => by
      obtain ⟨c, -, rfl⟩ := List.mem_map.mp (List.mem_reverse.mp hd)
      exact nameDigit_lt c
  simpa using hlt

/-- Twelve characters stay below `2 ^ 63`. -/
theorem nameValue_le {s : Name} (h : s.length ≤ 12) : nameValue s ≤ 2 ^ 63 - 1 := by
  have hpow : 37 ^ s.length ≤ 37 ^ 12 := Nat.pow_le_pow_right (by decide) h
  have hlt := nameValue_lt s
  omega

/-- The accumulation of the source, which wraps, never does. -/
theorem foldl_eq_nameValue {s : Name} (h : s.length ≤ 12) :
    s.foldl (fun l c => (l * 37 + nameDigit c) % 2 ^ 64) 0 = nameValue s := by
  induction s using List.reverseRecOn with
  | nil => rfl
  | append_singleton s c ih =>
      have hle := nameValue_le h
      rw [List.length_append, List.length_singleton] at h
      rw [List.foldl_append, ih (by omega), nameValue_concat]
      rw [nameValue_concat] at hle
      exact Nat.mod_eq_of_lt (by omega)

/-- Dividing the zeros out of a number drops the zeros at the low end of its digits. -/
theorem stripZeros_ofDigits (L : List Nat) (h : ∀ d ∈ L, d < 37) :
    stripZeros (Nat.ofDigits 37 L) = Nat.ofDigits 37 (L.dropWhile (· = 0)) := by
  induction L with
  | nil =>
      rw [stripZeros, dif_neg (by decide)]
      rfl
  | cons d L ih =>
      have hd := h d List.mem_cons_self
      have ih := ih fun d' hd' => h d' (List.mem_cons_of_mem d hd')
      rw [Nat.ofDigits_cons]
      by_cases hzero : d = 0
      · subst hzero
        rw [List.dropWhile_cons_of_pos (by simp), ← ih]
        by_cases hrest : Nat.ofDigits 37 L = 0
        · rw [hrest]
        · rw [stripZeros, dif_pos (by omega)]
          congr 1
          omega
      · rw [List.dropWhile_cons_of_neg (by simpa using hzero), stripZeros, dif_neg (by omega),
          Nat.ofDigits_cons]

/-- A number has no zeros above its first nonzero digit. -/
theorem digits_ofDigits (L : List Nat) (h : ∀ d ∈ L, d < 37) :
    Nat.digits 37 (Nat.ofDigits 37 L) = L.rdropWhile (· = 0) := by
  induction L using List.reverseRecOn with
  | nil => rfl
  | append_singleton L d ih =>
      by_cases hzero : d = 0
      · subst hzero
        rw [Nat.ofDigits_append_zero, List.rdropWhile_concat_pos _ _ _ (by simp)]
        exact ih fun d' hd' => h d' (List.mem_append_left _ hd')
      · rw [List.rdropWhile_concat_neg _ _ _ (by simpa using hzero)]
        exact Nat.digits_ofDigits 37 (by decide) _ h fun _ => by simpa using hzero

/-! ## The encoded name -/

/-- The name between its first and its last letter or digit. -/
def core (s : Name) : Name :=
  ((s.take 12).rdropWhile (nameDigit · = 0)).dropWhile (nameDigit · = 0)

theorem rdropWhile_map {α β : Type} (f : α → β) (p : β → Bool) (l : List α) :
    (l.map f).rdropWhile p = (l.rdropWhile (p ∘ f)).map f := by
  rw [List.rdropWhile, List.rdropWhile, ← List.map_reverse, List.dropWhile_map, List.map_reverse]

theorem canon_eq_map (s : Name) : canon s = (core s).map canonChar := by
  have hp : ((fun c : Byte => decide (c = 95)) ∘ canonChar) =
      fun c => decide (nameDigit c = 0) := by
    funext c
    exact decide_eq_decide.mpr (canonChar_eq_iff c)
  rw [canon, rdropWhile_map, List.dropWhile_map, hp]
  rfl

theorem playerNameToInt64_eq_ofDigits (s : Name) :
    playerNameToInt64 s =
      Nat.ofDigits 37 (((s.take 12).rdropWhile (nameDigit · = 0)).map nameDigit).reverse := by
  have hmap := rdropWhile_map nameDigit (· = 0) (s.take 12)
  rw [playerNameToInt64, foldl_eq_nameValue (List.length_take_le 12 s), nameValue_eq_ofDigits,
    stripZeros_ofDigits]
  · rw [← List.reverse_reverse (List.dropWhile _ _)]
    exact congrArg (fun l => Nat.ofDigits 37 l.reverse) hmap
  · intro d hd
    obtain ⟨c, -, rfl⟩ := List.mem_map.mp (List.mem_reverse.mp hd)
    exact nameDigit_lt c

theorem digits_playerNameToInt64 (s : Name) :
    Nat.digits 37 (playerNameToInt64 s) = ((core s).map nameDigit).reverse := by
  rw [playerNameToInt64_eq_ofDigits, digits_ofDigits]
  · rw [List.rdropWhile_reverse, List.dropWhile_map]
    rfl
  · intro d hd
    obtain ⟨c, -, rfl⟩ := List.mem_map.mp (List.mem_reverse.mp hd)
    exact nameDigit_lt c

theorem decodeName_playerNameToInt64 (s : Name) : decodeName (playerNameToInt64 s) = canon s := by
  rw [decodeName, digits_playerNameToInt64, canon_eq_map, List.map_reverse, List.reverse_reverse,
    List.map_map]
  exact List.map_congr_left fun c _ => digitChar_nameDigit c

/-- Names are told apart up to their canonical form. -/
theorem playerNameToInt64_inj (s t : Name) :
    playerNameToInt64 s = playerNameToInt64 t ↔ canon s = canon t := by
  constructor
  · intro h
    rw [← decodeName_playerNameToInt64, h, decodeName_playerNameToInt64]
  · intro h
    have hd : ∀ l : Name, (l.map canonChar).map nameDigit = l.map nameDigit := fun l => by
      rw [List.map_map]
      exact List.map_congr_left fun c _ => nameDigit_canonChar c
    have hcore : (core s).map nameDigit = (core t).map nameDigit := by
      rw [← hd (core s), ← canon_eq_map, h, canon_eq_map, hd]
    rw [← Nat.ofDigits_digits 37 (playerNameToInt64 s), ← Nat.ofDigits_digits 37
      (playerNameToInt64 t), digits_playerNameToInt64, digits_playerNameToInt64, hcore]

/-! ## The stripping loop -/

/-- One iteration of the loop that divides the zeros out. -/
def stripBody (l : Nat) : Except Empty (ForInStep Nat) :=
  if l % 37 = 0 ∧ l ≠ 0 then .ok (.yield (l / 37)) else .ok (.done l)

theorem ends_stripBody (l : Nat) : FallibleLoop.Ends stripBody l (.ok (stripZeros l)) := by
  induction l using stripZeros.induct with
  | case1 l h ih =>
      rw [stripZeros, dif_pos h]
      have hy : FallibleLoop.Yields stripBody l (l / 37) := if_pos h
      exact (FallibleLoop.ends_iff_of_yields hy _).mpr ih
  | case2 l h =>
      rw [stripZeros, dif_neg h]
      exact FallibleLoop.ends_of_done (if_neg h)

/-- The encoding is exact up to the canonical form: it tells names apart by it, the
accumulation of the first characters never wraps and stays below `2 ^ 63`, the stripping loop
ends with the result, and the digits of the result are the canonical form. -/
theorem name_encoding (s t : Name) :
    (playerNameToInt64 s = playerNameToInt64 t ↔ canon s = canon t) ∧
    (∀ k ≤ 12, (s.take k).foldl (fun l c => (l * 37 + nameDigit c) % 2 ^ 64) 0 =
        nameValue (s.take k) ∧ nameValue (s.take k) ≤ 2 ^ 63 - 1) ∧
    FallibleLoop.Ends stripBody (nameValue (s.take 12)) (.ok (playerNameToInt64 s)) ∧
    decodeName (playerNameToInt64 s) = canon s := by
  refine ⟨playerNameToInt64_inj s t, fun k hk => ?_, ?_, decodeName_playerNameToInt64 s⟩
  · have hlen : (s.take k).length ≤ 12 := (List.length_take_le k s).trans hk
    exact ⟨foldl_eq_nameValue hlen, nameValue_le hlen⟩
  · rw [playerNameToInt64, foldl_eq_nameValue (List.length_take_le 12 s)]
    exact ends_stripBody _

end AsioRsps.PlayerNames
