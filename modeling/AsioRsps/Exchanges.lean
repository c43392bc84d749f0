import Mathlib.Data.List.Induction
import AsioRsps.LabelledRuns

/-!
# Runs in another order

Where neighbouring steps of different owners can be exchanged, a run can be taken in every order
that leaves the steps of each owner in theirs, and ends in the same state.
-/
namespace AsioRsps.LabelledRuns

variable {σ α ι : Type} {step : σ → α → σ → Prop} {owner : α → ι} {s₀ s t : σ}
  {trace : List (Taken σ α)}

/-- Neighbouring steps of different owners can be exchanged. -/
def Exchangeable (step : σ → α → σ → Prop) (owner : α → ι) : Prop :=
  ∀ s a t b u, step s a t → step t b u → owner a ≠ owner b → ∃ t', step s b t' ∧ step t' a u

def labels (trace : List (Taken σ α)) : List α := trace.map Taken.label

theorem labels_append (trace more : List (Taken σ α)) :
    labels (trace ++ more) = labels trace ++ labels more := List.map_append

/-- A step can be put off until after the steps of others. -/
theorem Run.putOff (hex : Exchangeable step owner) {b : α} (hs : step s₀ b s)
    (h : Run step s trace t) (hothers : ∀ a ∈ labels trace, owner a ≠ owner b) :
    ∃ more s', Run step s₀ more s' ∧ labels more = labels trace ∧ step s' b t := by
  induction h with
  | start => exact ⟨[], s₀, .start, rfl, hs⟩
  | @snoc trace t t' a _ hstep ih =>
      rw [labels_append] at hothers
      obtain ⟨more, s', hmore, hlabels, hb⟩ :=
        ih fun a ha => hothers a (List.mem_append_left _ ha)
      have hne : owner a ≠ owner b :=
        hothers a (List.mem_append_right _ (List.mem_singleton_self a))
      obtain ⟨u, ha, hb'⟩ := hex _ _ _ _ _ hb hstep hne.symm
      refine ⟨_, u, hmore.snoc ha, ?_, hb'⟩
      rw [labels_append, labels_append, hlabels]
      rfl

/-! ## What each owner does -/

variable [DecidableEq ι]

/-- The labels of one owner, in their order. -/
def share (owner : α → ι) (i : ι) (as : List α) : List α := as.filter fun a => owner a = i

theorem share_append (i : ι) (as bs : List α) :
    share owner i (as ++ bs) = share owner i as ++ share owner i bs := List.filter_append ..

theorem share_eq_nil {i : ι} {as : List α} :
    share owner i as = [] ↔ ∀ a ∈ as, owner a ≠ i := by
  simp only [share, List.filter_eq_nil_iff, decide_eq_true_eq, ne_eq]

theorem share_self (a : α) : share owner (owner a) [a] = [a] :=
  List.filter_cons_of_pos (decide_eq_true rfl)

/-- The last step of an owner in a run. -/
theorem exists_last {i : ι} {as : List α} {b : α} (h : share owner i (labels trace) = as ++ [b]) :
    ∃ before u after, trace = before ++ u :: after ∧ u.label = b ∧ owner b = i ∧
      share owner i (labels before) = as ∧ share owner i (labels after) = [] := by
  obtain ⟨xs, ys, hsplit, hxs, hys⟩ := List.filter_eq_append_iff.mp h
  obtain ⟨zs, ws, rfl, hzs, hb, hws⟩ := List.filter_eq_cons_iff.mp hys
  rw [← List.append_assoc] at hsplit
  obtain ⟨before, rest, rfl, hbefore, hrest⟩ := List.map_eq_append_iff.mp hsplit
  obtain ⟨u, after, rfl, hu, hafter⟩ := List.map_eq_cons_iff.mp hrest
  refine ⟨before, u, after, rfl, hu, of_decide_eq_true hb, ?_, ?_⟩
  · rw [labels, hbefore, share_append, share, hxs, share, List.filter_eq_nil_iff.mpr hzs,
      List.append_nil]
  · rw [labels, hafter]
    exact hws

/-- A run in another order. -/
theorem Run.reordered (hex : Exchangeable step owner) {as : List α} (h : Run step s₀ trace s)
    (hsame : ∀ i, share owner i as = share owner i (labels trace)) :
    ∃ trace', Run step s₀ trace' s ∧ labels trace' = as := by
  induction as using List.reverseRecOn generalizing trace s with
  | nil =>
      have hnil : labels trace = [] := by
        refine List.eq_nil_iff_forall_not_mem.mpr fun a ha => ?_
        exact share_eq_nil.mp (hsame (owner a)).symm a ha rfl
      exact ⟨trace, h, hnil⟩
  | append_singleton as b ih =>
      have hlast : share owner (owner b) (labels trace) = share owner (owner b) as ++ [b] := by
        rw [← hsame, share_append, share_self]
      obtain ⟨before, u, after, rfl, rfl, -, hbefore, hafter⟩ := exists_last hlast
      obtain ⟨hrun, hs, hrest⟩ := h.split rfl
      obtain ⟨more, s', hmore, hlabels, hb⟩ := Run.putOff hex hs hrest (share_eq_nil.mp hafter)
      have hrest' : ∀ i, share owner i as = share owner i (labels (before ++ more)) := by
        intro i
        rw [labels_append, hlabels, share_append]
        by_cases hi : owner u.label = i
        · subst hi
          rw [hbefore, hafter, List.append_nil]
        · have hnone : share owner i [u.label] = [] :=
            share_eq_nil.mpr fun a ha => List.mem_singleton.mp ha ▸ hi
          have hall := hsame i
          rw [share_append, hnone, List.append_nil, labels_append, ← List.singleton_append,
            labels_append, share_append, share_append] at hall
          rw [hall]
          exact congrArg (_ ++ ·) (congrArg (· ++ _) hnone)
      obtain ⟨trace', hrun', hlabels'⟩ := ih (hrun.append hmore) hrest'
      refine ⟨_, hrun'.snoc hb, ?_⟩
      rw [labels_append, hlabels']
      rfl

theorem Run.mono {step' : σ → α → σ → Prop} (h : Run step s₀ trace s)
    (himp : ∀ s a s', step s a s' → step' s a s') : Run step' s₀ trace s := by
  induction h with
  | start => exact .start
  | snoc _ hs ih => exact ih.snoc (himp _ _ _ hs)

/-- Every step of a run is taken in a state of the invariant. -/
theorem Run.kept {P : σ → Prop} (h : Run step s₀ trace s) (h₀ : P s₀)
    (hstep : ∀ s a s', P s → step s a s' → P s') :
    Run (fun s a s' => P s ∧ step s a s') s₀ trace s := by
  induction h with
  | start => exact .start
  | snoc hrun hs ih => exact ih.snoc ⟨hrun.invariant h₀ hstep, hs⟩

/-- A run in another order, where it is in the states of an invariant that steps can be
exchanged. -/
theorem Run.reordered_of_invariant {P : σ → Prop} (hstep : ∀ s a s', P s → step s a s' → P s')
    (hex : Exchangeable (fun s a s' => P s ∧ step s a s') owner) (h₀ : P s₀) {as : List α}
    (h : Run step s₀ trace s) (hsame : ∀ i, share owner i as = share owner i (labels trace)) :
    ∃ trace', Run step s₀ trace' s ∧ labels trace' = as := by
  obtain ⟨trace', hrun', hlabels⟩ := (h.kept h₀ hstep).reordered hex hsame
  exact ⟨trace', hrun'.mono fun _ _ _ hs => hs.2, hlabels⟩

end AsioRsps.LabelledRuns
