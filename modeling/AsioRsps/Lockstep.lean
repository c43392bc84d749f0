import AsioRsps.FallibleLoop

/-!
# Computations in lockstep

Two computations that take the same course: both fail alike, or both succeed, in the same state
where they have one, with results that are related.
-/
namespace AsioRsps.Lockstep

variable {ε σ τ α α' β β' : Type} {R : α → α' → Prop} {Q : β → β' → Prop}

inductive Alike (R : α → α' → Prop) : Except ε α → Except ε α' → Prop where
  | error {e : ε} : Alike R (.error e) (.error e)
  | ok {a : α} {a' : α'} : R a a' → Alike R (.ok a) (.ok a')

theorem Alike.refl (x : Except ε α) : Alike Eq x x := by
  cases x with
  | error e => exact .error
  | ok a => exact .ok rfl

theorem Alike.bind {x : Except ε α} {x' : Except ε α'} {f : α → Except ε β}
    {f' : α' → Except ε β'} (h : Alike R x x') (hf : ∀ a a', R a a' → Alike Q (f a) (f' a')) :
    Alike Q (x >>= f) (x' >>= f') := by
  cases h with
  | error => exact .error
  | ok ha => exact hf _ _ ha

theorem Alike.map {x : Except ε α} {x' : Except ε α'} {f : α → β} {f' : α' → β'}
    (h : Alike R x x') (hf : ∀ a a', R a a' → Q (f a) (f' a')) :
    Alike Q (x.map f) (x'.map f') := by
  cases h with
  | error => exact .error
  | ok ha => exact .ok (hf _ _ ha)

/-! ## With a state -/

inductive AlikeResult (R : α → α' → Prop) :
    EStateM.Result ε σ α → EStateM.Result ε σ α' → Prop where
  | error {e : ε} {s : σ} : AlikeResult R (.error e s) (.error e s)
  | ok {a : α} {a' : α'} {s : σ} : R a a' → AlikeResult R (.ok a s) (.ok a' s)

def AlikeM (R : α → α' → Prop) (x : EStateM ε σ α) (x' : EStateM ε σ α') : Prop :=
  ∀ s, AlikeResult R (x s) (x' s)

theorem AlikeM.refl (x : EStateM ε σ α) : AlikeM Eq x x := by
  intro s
  cases x s with
  | error e s => exact .error
  | ok a s => exact .ok rfl

theorem AlikeM.pure {a : α} {a' : α'} (h : R a a') :
    AlikeM R (pure a : EStateM ε σ α) (pure a' : EStateM ε σ α') := fun _ => .ok h

theorem AlikeM.bind {x : EStateM ε σ α} {x' : EStateM ε σ α'} {f : α → EStateM ε σ β}
    {f' : α' → EStateM ε σ β'} (h : AlikeM R x x') (hf : ∀ a a', R a a' → AlikeM Q (f a) (f' a')) :
    AlikeM Q (x >>= f) (x' >>= f') := by
  intro s
  change AlikeResult Q (EStateM.bind x f s) (EStateM.bind x' f' s)
  have hs := h s
  rw [EStateM.bind, EStateM.bind]
  generalize x s = r at hs
  generalize x' s = r' at hs
  cases hs with
  | error => exact .error
  | ok ha => exact hf _ _ ha _

/-- The same computation first. -/
theorem AlikeM.after (x : EStateM ε σ α) {f : α → EStateM ε σ β} {f' : α → EStateM ε σ β'}
    (hf : ∀ a, AlikeM Q (f a) (f' a)) : AlikeM Q (x >>= f) (x >>= f') :=
  (AlikeM.refl x).bind fun a _ heq => heq ▸ hf a

/-! ## Loops -/

inductive AlikeStep (R : σ → τ → Prop) : ForInStep σ → ForInStep τ → Prop where
  | done {s : σ} {t : τ} : R s t → AlikeStep R (.done s) (.done t)
  | yield {s : σ} {t : τ} : R s t → AlikeStep R (.yield s) (.yield t)

theorem run_alike {R : σ → τ → Prop} {body : σ → Except ε (ForInStep σ)}
    {body' : τ → Except ε (ForInStep τ)}
    (hbody : ∀ s t, R s t → Alike (AlikeStep R) (body s) (body' t)) {fuel : Nat} {s s' : σ} {t : τ}
    (h : R s t) (hrun : FallibleLoop.run body fuel s = some (.ok s')) :
    ∃ t', FallibleLoop.run body' fuel t = some (.ok t') ∧ R s' t' := by
  induction fuel generalizing s t with
  | zero => cases hrun
  | succ fuel ih =>
      have halike := hbody s t h
      rw [FallibleLoop.run] at hrun
      rw [FallibleLoop.run]
      generalize body s = r at halike hrun
      generalize body' t = r' at halike
      cases halike with
      | error => cases hrun
      | ok hstep =>
          cases hstep with
          | done h' =>
              obtain rfl := Except.ok.inj (Option.some.inj hrun)
              exact ⟨_, rfl, h'⟩
          | yield h' => exact ih h' hrun

end AsioRsps.Lockstep
