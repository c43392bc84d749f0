import Mathlib.Data.List.Perm.Basic
import Mathlib.Logic.Relation

/-!
# Loops whose body can fail

A `while` loop as the iteration of a body that either yields the state of the next
iteration, is done, or fails. The loop itself is not assumed to end: `run` is given a number
of iterations and `Halts` says that some number is enough. The two ways of settling `Halts`
are a body that reaches another state of the loop (`halts_iff_of_reaches`) and a body that
yields the state it was given (`not_halts_of_fixed`).
-/
namespace AsioRsps.FallibleLoop

variable {ε σ : Type}

/-- The loop's outcome within `fuel` iterations; `none` when they are not enough. -/
def run (body : σ → Except ε (ForInStep σ)) : Nat → σ → Option (Except ε σ)
  | 0, _ => none
  | fuel+1, s =>
      match body s with
      | .error e => some (.error e)
      | .ok (.done s') => some (.ok s')
      | .ok (.yield s') => run body fuel s'

variable {body : σ → Except ε (ForInStep σ)}

/-- The loop entered in `s` ends with outcome `r`. -/
def Ends (body : σ → Except ε (ForInStep σ)) (s : σ) (r : Except ε σ) : Prop :=
  ∃ fuel, run body fuel s = some r

/-- The loop entered in `s` ends, normally or with a failure. -/
def Halts (body : σ → Except ε (ForInStep σ)) (s : σ) : Prop := ∃ r, Ends body s r

/-- One iteration that goes on. -/
def Yields (body : σ → Except ε (ForInStep σ)) (s s' : σ) : Prop := body s = .ok (.yield s')

abbrev Reaches (body : σ → Except ε (ForInStep σ)) : σ → σ → Prop :=
  Relation.ReflTransGen (Yields body)

/-- A sequence succeeds when both of its parts do. -/
theorem bind_eq_ok {α β : Type} {x : Except ε α} {f : α → Except ε β} {b : β} :
    (x >>= f) = .ok b ↔ ∃ a, x = .ok a ∧ f a = .ok b := by
  cases x with
  | error e => simp [bind, Except.bind]
  | ok a => simp [bind, Except.bind]

/-- It fails when one of them does. -/
theorem bind_eq_error {α β : Type} {x : Except ε α} {f : α → Except ε β} {e : ε} :
    (x >>= f) = .error e ↔ x = .error e ∨ ∃ a, x = .ok a ∧ f a = .error e := by
  cases x with
  | error e' => simp [bind, Except.bind]
  | ok a => simp [bind, Except.bind]

theorem map_eq_ok {α β : Type} {x : Except ε α} {f : α → β} {b : β} :
    x.map f = .ok b ↔ ∃ a, x = .ok a ∧ f a = b := by
  cases x with
  | error e => simp [Except.map]
  | ok a => simp [Except.map]

theorem run_succ_of_yields {s s' : σ} (h : Yields body s s') (fuel : Nat) :
    run body (fuel + 1) s = run body fuel s' := by
  have hb : body s = .ok (.yield s') := h
  simp only [run, hb]

theorem ends_of_done {s s' : σ} (h : body s = .ok (.done s')) : Ends body s (.ok s') :=
  ⟨1, by simp only [run, h]⟩

theorem ends_of_error {s : σ} {e : ε} (h : body s = .error e) : Ends body s (.error e) :=
  ⟨1, by simp only [run, h]⟩

theorem ends_iff_of_yields {s s' : σ} (h : Yields body s s') (r : Except ε σ) :
    Ends body s r ↔ Ends body s' r := by
  constructor
  · rintro ⟨fuel, hf⟩
    cases fuel with
    | zero => cases hf
    | succ fuel => exact ⟨fuel, by rwa [run_succ_of_yields h] at hf⟩
  · rintro ⟨fuel, hf⟩
    exact ⟨fuel + 1, by rwa [run_succ_of_yields h]⟩

theorem ends_iff_of_reaches {s s' : σ} (h : Reaches body s s') (r : Except ε σ) :
    Ends body s r ↔ Ends body s' r := by
  induction h with
  | refl => rfl
  | tail _ hy ih => exact ih.trans (ends_iff_of_yields hy r)

theorem halts_iff_of_reaches {s s' : σ} (h : Reaches body s s') :
    Halts body s ↔ Halts body s' :=
  exists_congr fun r => ends_iff_of_reaches h r

/-- The outcome of a loop does not depend on how many iterations it is given. -/
theorem Ends.unique {s : σ} {r r' : Except ε σ} (h : Ends body s r) (h' : Ends body s r') :
    r = r' := by
  obtain ⟨fuel, hf⟩ := h
  induction fuel generalizing s with
  | zero => cases hf
  | succ fuel ih =>
      obtain ⟨fuel', hf'⟩ := h'
      cases fuel' with
      | zero => cases hf'
      | succ fuel' =>
          simp only [run] at hf hf'
          cases hb : body s with
          | error e =>
              rw [hb] at hf hf'
              exact Option.some.inj (hf.symm.trans hf')
          | ok step =>
              rw [hb] at hf hf'
              cases step with
              | done t => exact Option.some.inj (hf.symm.trans hf')
              | yield t => exact ih ⟨fuel', hf'⟩ hf

/-- An iteration that changes nothing is repeated for ever. -/
theorem not_halts_of_fixed {s : σ} (h : Yields body s s) : ¬ Halts body s := by
  rintro ⟨r, fuel, hf⟩
  induction fuel with
  | zero => cases hf
  | succ fuel ih => exact ih (by rwa [run_succ_of_yields h] at hf)

/-- A property that every iteration preserves holds of the state the loop ends in. -/
theorem Ends.invariant {P Q : σ → Prop} {s t : σ} (h : Ends body s (.ok t))
    (step : ∀ a b, P a → body a = .ok (.yield b) → P b)
    (last : ∀ a b, P a → body a = .ok (.done b) → Q b) (hs : P s) : Q t := by
  obtain ⟨fuel, hf⟩ := h
  induction fuel generalizing s with
  | zero => cases hf
  | succ fuel ih =>
      simp only [run] at hf
      cases hb : body s with
      | error e => rw [hb] at hf; cases hf
      | ok it =>
          rw [hb] at hf
          cases it with
          | done u =>
              simp only [Option.some.injEq, Except.ok.injEq] at hf
              exact hf ▸ last s u hs hb
          | yield u => exact ih (step s u hs hb) hf

/-- A loop that fails does so in a state with the invariant. -/
theorem Ends.exists_error {P : σ → Prop} {s : σ} {e : ε} (h : Ends body s (.error e))
    (step : ∀ a b, P a → body a = .ok (.yield b) → P b) (hs : P s) :
    ∃ a, P a ∧ body a = .error e := by
  obtain ⟨fuel, hf⟩ := h
  induction fuel generalizing s with
  | zero => cases hf
  | succ fuel ih =>
      simp only [run] at hf
      cases hb : body s with
      | error e' =>
          rw [hb] at hf
          rw [← Except.error.inj (Option.some.inj hf)]
          exact ⟨s, hs, hb⟩
      | ok it =>
          rw [hb] at hf
          cases it with
          | done u => cases hf
          | yield u => exact ih (step s u hs hb) hf

/-- A fold over a list that succeeds carries an invariant indexed by the part of the list
already done. -/
theorem foldlM_invariant {α : Type} {f : σ → α → Except ε σ} {P : List α → σ → Prop} {l : List α}
    {s t : σ} (h : l.foldlM f s = .ok t) (hs : P [] s)
    (step : ∀ done a rest s s', l = done ++ a :: rest → P done s → f s a = .ok s' →
      P (done ++ [a]) s') : P l t := by
  suffices hgen : ∀ rest done s, l = done ++ rest → P done s → rest.foldlM f s = .ok t → P l t from
    hgen l [] s rfl hs h
  intro rest
  induction rest with
  | nil =>
      intro done s hl hdone hrun
      obtain rfl := Except.ok.inj hrun
      rw [hl, List.append_nil]
      exact hdone
  | cons a rest ih =>
      intro done s hl hdone hrun
      rw [List.foldlM_cons] at hrun
      obtain ⟨s', ha, hrest⟩ := bind_eq_ok.mp hrun
      refine ih (done ++ [a]) s' ?_ (step done a rest s s' hl hdone ha) hrest
      rw [hl, List.append_assoc]
      rfl

/-- A fold succeeds when every step can be taken from a state with the invariant. -/
theorem exists_foldlM {α : Type} {f : σ → α → Except ε σ} {P : List α → σ → Prop} {l : List α}
    {s : σ} (hs : P [] s) (step : ∀ done a rest s, l = done ++ a :: rest → P done s →
      ∃ s', f s a = .ok s' ∧ P (done ++ [a]) s') : ∃ t, l.foldlM f s = .ok t ∧ P l t := by
  suffices hgen : ∀ rest done s, l = done ++ rest → P done s →
      ∃ t, rest.foldlM f s = .ok t ∧ P l t from hgen l [] s rfl hs
  intro rest
  induction rest with
  | nil =>
      intro done s hl hdone
      refine ⟨s, rfl, ?_⟩
      rw [hl, List.append_nil]
      exact hdone
  | cons a rest ih =>
      intro done s hl hdone
      obtain ⟨s', ha, hdone'⟩ := step done a rest s hl hdone
      obtain ⟨t, hrest, ht⟩ := ih (done ++ [a]) s' (by rw [hl, List.append_assoc]; rfl) hdone'
      refine ⟨t, ?_, ht⟩
      rw [List.foldlM_cons, ha]
      exact hrest

/-! ## Folds in any order -/

/-- Two fallible steps that lead to the same state or both fail. -/
def SameResult (x y : Except ε σ) : Prop := ∀ t, x = .ok t ↔ y = .ok t

theorem SameResult.refl (x : Except ε σ) : SameResult x x := fun _ => Iff.rfl

theorem SameResult.trans {x y z : Except ε σ} (h : SameResult x y) (h' : SameResult y z) :
    SameResult x z := fun t => (h t).trans (h' t)

theorem SameResult.bind {x y : Except ε σ} (h : SameResult x y) (f : σ → Except ε σ) :
    SameResult (x >>= f) (y >>= f) := by
  intro t
  simp only [bind_eq_ok, h _]

/-- Steps that commute in pairs give the same result in every order. -/
theorem foldlM_perm {α : Type} {f : σ → α → Except ε σ} {P : σ → Prop} {R : α → α → Prop}
    (hsymm : ∀ a b, R a b → R b a)
    (hinv : ∀ a s s', P s → f s a = .ok s' → P s')
    (hcomm : ∀ a b s, R a b → P s → SameResult (f s a >>= (f · b)) (f s b >>= (f · a)))
    {l₁ l₂ : List α} (hperm : l₁.Perm l₂) (hpair : l₁.Pairwise R) {s : σ} (hs : P s) :
    SameResult (l₁.foldlM f s) (l₂.foldlM f s) := by
  induction hperm generalizing s with
  | nil => exact .refl _
  | cons a hperm ih =>
      intro t
      rw [List.foldlM_cons, List.foldlM_cons, bind_eq_ok, bind_eq_ok]
      refine exists_congr fun s' => and_congr_right fun ha => ?_
      exact ih hpair.of_cons (hinv a s s' hs ha) t
  | swap a b l =>
      have hab : R b a := List.rel_of_pairwise_cons hpair List.mem_cons_self
      intro t
      simp only [List.foldlM_cons, ← bind_assoc]
      exact ((hcomm b a s hab hs).bind _) t
  | trans hperm _ ih ih' =>
      have hpair' := (hperm.pairwise_iff fun {a b} => hsymm a b).mp hpair
      exact (ih hpair hs).trans (ih' hpair' hs)

end AsioRsps.FallibleLoop
