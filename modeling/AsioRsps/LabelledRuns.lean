/-!
# Labelled runs

The runs of a transition system with labels, as the list of steps taken; a run is split at any
of its steps (`Run.split`). The rules that carry what one step does over to a whole run: an
invariant (`Run.invariant`), an invariant of the runs whose steps are all allowed
(`Run.guarded`), a fact about every step of a run (`Run.forall_steps`), what relates a state to
all later ones (`Run.forall_later`), and a property that is kept by exactly the steps that meet
a condition (`Run.holds_iff`).
-/
namespace AsioRsps.LabelledRuns

variable {σ α : Type}

/-- One step, with the state before it and the state after it. -/
structure Taken (σ α : Type) where
  before : σ
  label : α
  after : σ

/-- A run from `s₀`: the steps taken, in order, and the state reached. -/
inductive Run (step : σ → α → σ → Prop) (s₀ : σ) : List (Taken σ α) → σ → Prop where
  | start : Run step s₀ [] s₀
  | snoc {trace : List (Taken σ α)} {s s' : σ} {a : α} :
      Run step s₀ trace s → step s a s' → Run step s₀ (trace ++ [⟨s, a, s'⟩]) s'

/-- Some run ends in the state. -/
def Reachable (step : σ → α → σ → Prop) (s₀ s : σ) : Prop := ∃ trace, Run step s₀ trace s

variable {step : σ → α → σ → Prop} {s₀ s : σ} {trace : List (Taken σ α)}

theorem Run.append {s' : σ} {more : List (Taken σ α)} (h : Run step s₀ trace s)
    (h' : Run step s more s') : Run step s₀ (trace ++ more) s' := by
  induction h' with
  | start =>
      rw [List.append_nil]
      exact h
  | snoc _ hs ih =>
      rw [← List.append_assoc]
      exact ih.snoc hs

theorem Reachable.start (step : σ → α → σ → Prop) (s₀ : σ) : Reachable step s₀ s₀ := ⟨[], .start⟩

theorem Reachable.snoc {s' : σ} {a : α} (h : Reachable step s₀ s) (hs : step s a s') :
    Reachable step s₀ s' := by
  obtain ⟨trace, hrun⟩ := h
  exact ⟨_, hrun.snoc hs⟩

/-- A position in a list that has got one more element at its end. -/
theorem split_snoc {xs before after : List α} {x y : α}
    (h : xs ++ [x] = before ++ y :: after) :
    (∃ after', after = after' ++ [x] ∧ xs = before ++ y :: after') ∨
      after = [] ∧ x = y ∧ before = xs := by
  rcases List.eq_nil_or_concat after with rfl | ⟨after', z, rfl⟩
  · obtain ⟨hbefore, hy⟩ := List.append_inj' h rfl
    exact .inr ⟨rfl, (List.cons_eq_cons.mp hy).1, hbefore.symm⟩
  · rw [List.concat_eq_append, ← List.cons_append, ← List.append_assoc] at h
    rw [List.concat_eq_append]
    obtain ⟨hxs, hx⟩ := List.append_inj' h rfl
    rw [(List.cons_eq_cons.mp hx).1]
    exact .inl ⟨after', rfl, hxs⟩

/-- A run up to one of its steps, the step, and the run from there on. -/
theorem Run.split (h : Run step s₀ trace s) {before after : List (Taken σ α)} {t : Taken σ α}
    (ht : trace = before ++ t :: after) :
    Run step s₀ before t.before ∧ step t.before t.label t.after ∧ Run step t.after after s := by
  induction h generalizing after with
  | start => cases before <;> cases ht
  | snoc hrun hs ih =>
      rcases split_snoc ht with ⟨after', rfl, hold⟩ | ⟨rfl, rfl, rfl⟩
      · obtain ⟨hbefore, hstep, hafter⟩ := ih hold
        exact ⟨hbefore, hstep, hafter.snoc hs⟩
      · exact ⟨hrun, hs, .start⟩

/-- A run in two parts. -/
theorem Run.split_append (h : Run step s₀ trace s) {before after : List (Taken σ α)}
    (ht : trace = before ++ after) : ∃ m, Run step s₀ before m ∧ Run step m after s := by
  cases after with
  | nil =>
      rw [List.append_nil] at ht
      exact ⟨s, ht ▸ h, .start⟩
  | cons t after =>
      obtain ⟨hbefore, hs, hafter⟩ := h.split ht
      exact ⟨t.before, hbefore, (Run.start.snoc hs).append hafter⟩

theorem Reachable.trans {s' : σ} (h : Reachable step s₀ s) (h' : Reachable step s s') :
    Reachable step s₀ s' := by
  obtain ⟨trace, hrun⟩ := h
  obtain ⟨more, hrun'⟩ := h'
  exact ⟨_, hrun.append hrun'⟩

/-- A run is a run of another system through the same states, when each of its steps is a step
of that system under a label that stands for its own. -/
theorem Run.relabel {β : Type} {step' : σ → β → σ → Prop} {f : β → α} (h : Run step s₀ trace s)
    (hstep : ∀ s a s', step s a s' → ∃ b, f b = a ∧ step' s b s') :
    ∃ trace', Run step' s₀ trace' s ∧
      trace'.map (fun t => ⟨t.before, f t.label, t.after⟩) = trace := by
  induction h with
  | start => exact ⟨[], .start, rfl⟩
  | snoc _ hs ih =>
      obtain ⟨trace', hrun', hmap⟩ := ih
      obtain ⟨b, rfl, hs'⟩ := hstep _ _ _ hs
      refine ⟨_, hrun'.snoc hs', ?_⟩
      rw [List.map_append, hmap]
      rfl

theorem forall_nil (Q : Taken σ α → Prop) : ∀ t ∈ [], Q t := fun _ ht => (nomatch ht)

theorem forall_snoc {Q : Taken σ α → Prop} {t : Taken σ α} (h : ∀ u ∈ trace, Q u) (ht : Q t) :
    ∀ u ∈ trace ++ [t], Q u :=
  List.forall_mem_append.mpr ⟨h, List.forall_mem_singleton.mpr ht⟩

theorem Run.invariant (h : Run step s₀ trace s) {P : σ → Prop} (h₀ : P s₀)
    (hstep : ∀ s a s', P s → step s a s' → P s') : P s := by
  induction h with
  | start => exact h₀
  | snoc _ hs ih => exact hstep _ _ _ ih hs

/-- A property that the steps allowed by `guard` preserve. -/
theorem Run.guarded (h : Run step s₀ trace s) {P : σ → Prop} {guard : Taken σ α → Prop} (h₀ : P s₀)
    (hstep : ∀ s a s', P s → step s a s' → guard ⟨s, a, s'⟩ → P s')
    (hguard : ∀ t ∈ trace, guard t) : P s := by
  induction h with
  | start => exact h₀
  | snoc _ hs ih =>
      have hlast := hguard _ (List.mem_append_right _ List.mem_cons_self)
      exact hstep _ _ _ (ih fun t ht => hguard t (List.mem_append_left _ ht)) hs hlast

/-- Each step of a run of allowed steps is taken from a state with the property. -/
theorem Run.before_of_guarded (h : Run step s₀ trace s) {P : σ → Prop} {guard : Taken σ α → Prop}
    (h₀ : P s₀) (hstep : ∀ s a s', P s → step s a s' → guard ⟨s, a, s'⟩ → P s')
    (hguard : ∀ t ∈ trace, guard t) : ∀ t ∈ trace, P t.before ∧ step t.before t.label t.after := by
  intro t ht
  obtain ⟨before, after, rfl⟩ := List.append_of_mem ht
  obtain ⟨hrun, hs, -⟩ := h.split rfl
  exact ⟨hrun.guarded h₀ hstep fun u hu => hguard u (List.mem_append_left _ hu), hs⟩

/-- What holds of every step from a state with the invariant holds of every step of a run. -/
theorem Run.forall_steps (h : Run step s₀ trace s) {P : σ → Prop} {Q : Taken σ α → Prop}
    (h₀ : P s₀) (hstep : ∀ s a s', P s → step s a s' → P s')
    (hQ : ∀ s a s', P s → step s a s' → Q ⟨s, a, s'⟩) : ∀ t ∈ trace, Q t := by
  induction h with
  | start =>
      intro t ht
      cases ht
  | snoc hrun hs ih =>
      intro t ht
      rcases List.mem_append.mp ht with ht | ht
      · exact ih t ht
      · obtain rfl := List.mem_singleton.mp ht
        exact hQ _ _ _ (hrun.invariant h₀ hstep) hs

/-- Every state of a run is related to the last one by what relates the two ends of a step. -/
theorem Run.forall_later (h : Run step s₀ trace s) {R : σ → σ → Prop} (hrefl : ∀ s, R s s)
    (htrans : ∀ s s' s'', R s s' → R s' s'' → R s s'') (hstep : ∀ s a s', step s a s' → R s s') :
    ∀ t ∈ trace, R t.after s := by
  induction h with
  | start =>
      intro t ht
      cases ht
  | snoc _ hs ih =>
      intro t ht
      rcases List.mem_append.mp ht with ht | ht
      · exact htrans _ _ _ (ih t ht) (hstep _ _ _ hs)
      · obtain rfl := List.mem_singleton.mp ht
        exact hrefl _

/-- A property kept by exactly the steps that meet the condition holds in all states of a run
exactly when all steps of the run meet it. -/
theorem Run.holds_iff (h : Run step s₀ trace s) {P Q : σ → Prop} {guard : σ → α → Prop}
    (hP : P s₀) (hQ : Q s₀) (hinv : ∀ s a s', P s → step s a s' → P s')
    (hstep : ∀ s a s', P s → Q s → step s a s' → (Q s' ↔ guard s a)) :
    (∀ t ∈ trace, Q t.after) ↔ ∀ t ∈ trace, guard t.before t.label := by
  have key : ((∀ t ∈ trace, Q t.after) ↔ ∀ t ∈ trace, guard t.before t.label) ∧
      ((∀ t ∈ trace, Q t.after) → Q s) := by
    induction h with
    | start => exact ⟨⟨fun _ _ ht => (nomatch ht), fun _ _ ht => (nomatch ht)⟩, fun _ => hQ⟩
    | @snoc trace s s' a hrun hs ih =>
        have hlast (R : Taken σ α → Prop) : (∀ t ∈ trace ++ [⟨s, a, s'⟩], R t) ↔
            (∀ t ∈ trace, R t) ∧ R ⟨s, a, s'⟩ := by
          simp only [List.mem_append, List.mem_singleton, or_imp, forall_and, forall_eq]
        rw [hlast fun t => Q t.after, hlast fun t => guard t.before t.label]
        constructor
        · constructor
          · rintro ⟨hall, hq⟩
            exact ⟨ih.1.mp hall, (hstep s a s' (hrun.invariant hP hinv) (ih.2 hall) hs).mp hq⟩
          · rintro ⟨hall, hg⟩
            have hall' := ih.1.mpr hall
            exact ⟨hall', (hstep s a s' (hrun.invariant hP hinv) (ih.2 hall') hs).mpr hg⟩
        · exact fun hall => hall.2
  exact key.1

end AsioRsps.LabelledRuns
