import Mathlib.Logic.Basic

/-!
# State changes of fallible operations

An operation in `EStateM` leaves a state also when it fails. What a relation between the
state before and the state after says of single operations carries over to sequences of them
(`Moves`), and so does what two states have in common that an operation cannot tell apart
(`Agrees`). A failure leaves no trace (`Atomic`) when the operation checks what it needs
before it changes anything (`Guarded`), which sequences inherit as well.
-/
namespace AsioRsps.StateChanges

variable {ε σ α β : Type}

/-- The state an operation leaves, also when it fails. -/
def after (m : EStateM ε σ α) (s : σ) : σ :=
  match m s with
  | .ok _ s' | .error _ s' => s'

/-- What an operation gives back. -/
def outcome (m : EStateM ε σ α) (s : σ) : Except ε α :=
  match m s with
  | .ok a _ => .ok a
  | .error e _ => .error e

theorem after_of_ok {m : EStateM ε σ α} {s s' : σ} {a : α} (h : m s = .ok a s') :
    after m s = s' := by
  simp only [after, h]

theorem after_of_error {m : EStateM ε σ α} {s s' : σ} {e : ε} (h : m s = .error e s') :
    after m s = s' := by
  simp only [after, h]

theorem bind_of_ok {m : EStateM ε σ α} {f : α → EStateM ε σ β} {s s' : σ} {a : α}
    (h : m s = .ok a s') : (m >>= f) s = f a s' := by
  simp only [bind, EStateM.bind, h]

theorem bind_of_error {m : EStateM ε σ α} {f : α → EStateM ε σ β} {s s' : σ} {e : ε}
    (h : m s = .error e s') : (m >>= f) s = .error e s' := by
  simp only [bind, EStateM.bind, h]

/-- Operations one after another, each of them also when one before it has failed. -/
def carryOn (ms : List (EStateM ε σ α)) (s : σ) : σ := ms.foldl (fun s m => after m s) s

/-- What each of the operations gives back. -/
def outcomes : List (EStateM ε σ α) → σ → List (Except ε α)
  | [], _ => []
  | m :: ms, s => outcome m s :: outcomes ms (after m s)

/-! ## What an operation does to the state -/

/-- The relation holds between the states before and after the operation. -/
def Moves (R : σ → σ → Prop) (m : EStateM ε σ α) : Prop := ∀ s, R s (after m s)

section Moves
variable {R : σ → σ → Prop}

theorem Moves.pure (hrefl : ∀ s, R s s) (a : α) : Moves R (pure a : EStateM ε σ α) :=
  fun s => hrefl s

theorem Moves.throw (hrefl : ∀ s, R s s) (e : ε) : Moves R (throw e : EStateM ε σ α) :=
  fun s => hrefl s

theorem Moves.bind (htrans : ∀ s s' s'', R s s' → R s' s'' → R s s'') {m : EStateM ε σ α}
    {f : α → EStateM ε σ β} (hm : Moves R m) (hf : ∀ a, Moves R (f a)) : Moves R (m >>= f) := by
  intro s
  have hs := hm s
  cases h : m s with
  | ok a s' =>
      rw [after_of_ok h] at hs
      rw [after, bind_of_ok h]
      exact htrans _ _ _ hs (hf a s')
  | error e s' =>
      rw [after_of_error h] at hs
      rwa [after_of_error (bind_of_error h)]

theorem Moves.mono {R' : σ → σ → Prop} (h : ∀ s s', R s s' → R' s s') {m : EStateM ε σ α}
    (hm : Moves R m) : Moves R' m := fun s => h _ _ (hm s)

theorem Moves.carryOn (hrefl : ∀ s, R s s) (htrans : ∀ s s' s'', R s s' → R s' s'' → R s s'')
    {ms : List (EStateM ε σ α)} (h : ∀ m ∈ ms, Moves R m) (s : σ) : R s (carryOn ms s) := by
  induction ms generalizing s with
  | nil => exact hrefl s
  | cons m ms ih =>
      exact htrans _ _ _ (h m List.mem_cons_self s)
        (ih (fun m' hm' => h m' (List.mem_cons_of_mem m hm')) _)

end Moves

/-! ## Operations that check first -/

/-- A failure leaves the state as it was. -/
def Atomic (m : EStateM ε σ α) : Prop := ∀ s e s', m s = .error e s' → s' = s

/-- The operation succeeds where `P` holds, and keeps `P`. -/
def Succeeds (P : σ → Prop) (m : EStateM ε σ α) : Prop :=
  ∀ s, P s → ∃ a s', m s = .ok a s' ∧ P s'

/-- Elsewhere it fails with `e` and changes nothing. -/
structure Guarded (P : σ → Prop) (e : ε) (m : EStateM ε σ α) : Prop where
  succeeds : Succeeds P m
  fails : ∀ s, ¬ P s → m s = .error e s

section Guarded
variable {P : σ → Prop} {e : ε}

theorem Succeeds.bind {m : EStateM ε σ α} {f : α → EStateM ε σ β} (hm : Succeeds P m)
    (hf : ∀ a, Succeeds P (f a)) : Succeeds P (m >>= f) := by
  intro s hs
  obtain ⟨a, s', hrun, hs'⟩ := hm s hs
  rw [bind_of_ok hrun]
  exact hf a s' hs'

theorem Guarded.bind {m : EStateM ε σ α} {f : α → EStateM ε σ β} (hm : Guarded P e m)
    (hf : ∀ a, Guarded P e (f a)) : Guarded P e (m >>= f) :=
  ⟨hm.succeeds.bind fun a => (hf a).succeeds, fun s hs => bind_of_error (hm.fails s hs)⟩

theorem Guarded.atomic {m : EStateM ε σ α} (hm : Guarded P e m) : Atomic m := by
  intro s e' s' hrun
  by_cases hs : P s
  · obtain ⟨a, t, hok, -⟩ := hm.succeeds s hs
    rw [hok] at hrun
    cases hrun
  · rw [hm.fails s hs] at hrun
    cases hrun
    rfl

end Guarded

/-! ## Kinds of failure -/

/-- Only failures of a kind are possible. -/
def FailsWith (P : ε → Prop) (m : EStateM ε σ α) : Prop := ∀ s e s', m s = .error e s' → P e

section FailsWith
variable {P : ε → Prop}

theorem FailsWith.bind {m : EStateM ε σ α} {f : α → EStateM ε σ β} (hm : FailsWith P m)
    (hf : ∀ a, FailsWith P (f a)) : FailsWith P (m >>= f) := by
  intro s e s' hrun
  cases h : m s with
  | ok a t =>
      rw [bind_of_ok h] at hrun
      exact hf a t e s' hrun
  | error e' t =>
      rw [bind_of_error h] at hrun
      cases hrun
      exact hm s e _ h

end FailsWith

/-! ## States an operation cannot tell apart -/

/-- Two results that say the same and leave related states. -/
inductive Alike (R : σ → σ → Prop) : EStateM.Result ε σ α → EStateM.Result ε σ α → Prop where
  | ok {s t : σ} (a : α) : R s t → Alike R (.ok a s) (.ok a t)
  | error {s t : σ} (e : ε) : R s t → Alike R (.error e s) (.error e t)

theorem Alike.refl {R : σ → σ → Prop} (hrefl : ∀ s, R s s) (r : EStateM.Result ε σ α) :
    Alike R r r := by
  cases r with
  | ok a s => exact .ok a (hrefl s)
  | error e s => exact .error e (hrefl s)

/-- From related states the operation gives the same result and reaches related states. -/
def Agrees (R : σ → σ → Prop) (m : EStateM ε σ α) : Prop := ∀ s t, R s t → Alike R (m s) (m t)

section Agrees
variable {R : σ → σ → Prop}

theorem Agrees.pure (a : α) : Agrees R (pure a : EStateM ε σ α) := fun _ _ h => .ok a h

theorem Agrees.throw (e : ε) : Agrees R (throw e : EStateM ε σ α) := fun _ _ h => .error e h

theorem Agrees.bind {m : EStateM ε σ α} {f : α → EStateM ε σ β} (hm : Agrees R m)
    (hf : ∀ a, Agrees R (f a)) : Agrees R (m >>= f) := by
  intro s t h
  have hst := hm s t h
  cases hs : m s with
  | ok a s' =>
      cases ht : m t with
      | ok a' t' =>
          rw [hs, ht] at hst
          cases hst with
          | ok _ h' =>
              rw [bind_of_ok hs, bind_of_ok ht]
              exact hf a s' t' h'
      | error e t' =>
          rw [hs, ht] at hst
          cases hst
  | error e s' =>
      cases ht : m t with
      | ok a t' =>
          rw [hs, ht] at hst
          cases hst
      | error e' t' =>
          rw [hs, ht] at hst
          cases hst with
          | error _ h' =>
              rw [bind_of_error hs, bind_of_error ht]
              exact .error e h'

theorem Agrees.outcome {m : EStateM ε σ α} (hm : Agrees R m) {s t : σ} (h : R s t) :
    outcome m s = outcome m t ∧ R (after m s) (after m t) := by
  have hst := hm s t h
  simp only [StateChanges.outcome, after]
  generalize m s = r at hst ⊢
  generalize m t = r' at hst ⊢
  cases hst with
  | ok a h' | error e h' => exact ⟨rfl, h'⟩

/-- Sequences cannot tell the states apart either. -/
theorem Agrees.outcomes {ms : List (EStateM ε σ α)} (hms : ∀ m ∈ ms, Agrees R m) {s t : σ}
    (h : R s t) : outcomes ms s = outcomes ms t ∧ R (carryOn ms s) (carryOn ms t) := by
  induction ms generalizing s t with
  | nil => exact ⟨rfl, h⟩
  | cons m ms ih =>
      obtain ⟨hfirst, h'⟩ := (hms m List.mem_cons_self).outcome h
      obtain ⟨hrest, hend⟩ := ih (fun m' hm' => hms m' (List.mem_cons_of_mem m hm')) h'
      refine ⟨?_, hend⟩
      rw [StateChanges.outcomes, StateChanges.outcomes, hfirst, hrest]

end Agrees
end AsioRsps.StateChanges
