import AsioRsps.LabelledRuns

/-!
# Simulations

A run of one system is matched by a run of another when each of its steps is matched by some
steps of the other. What relates the two may speak of the whole history of both.
-/
namespace AsioRsps.LabelledRuns

variable {σ τ α β : Type} {step : σ → α → σ → Prop} {step' : τ → β → τ → Prop} {s₀ s : σ} {t₀ : τ}
  {trace : List (Taken σ α)}

theorem Run.simulated (h : Run step s₀ trace s)
    (R : List (Taken σ α) → σ → List (Taken τ β) → τ → Prop) (guard : Taken σ α → Prop)
    (h₀ : R [] s₀ [] t₀)
    (hstep : ∀ past s a s' past' t, Run step s₀ past s → R past s past' t → step s a s' →
      guard ⟨s, a, s'⟩ → ∃ more t', Run step' t more t' ∧
        R (past ++ [⟨s, a, s'⟩]) s' (past' ++ more) t')
    (hguard : ∀ u ∈ trace, guard u) : ∃ trace' t, Run step' t₀ trace' t ∧ R trace s trace' t := by
  induction h with
  | start => exact ⟨[], t₀, .start, h₀⟩
  | @snoc trace s s' a hrun hs ih =>
      have hlast : (⟨s, a, s'⟩ : Taken σ α) ∈ trace ++ [⟨s, a, s'⟩] :=
        List.mem_append_right _ List.mem_cons_self
      obtain ⟨trace', t, hrun', hR⟩ := ih fun u hu => hguard u (List.mem_append_left _ hu)
      obtain ⟨more, t', hmore, hR'⟩ := hstep _ _ _ _ _ _ hrun hR hs (hguard _ hlast)
      exact ⟨trace' ++ more, t', hrun'.append hmore, hR'⟩

end AsioRsps.LabelledRuns
