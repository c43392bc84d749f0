import Mathlib.Data.List.Chain
import Mathlib.Logic.Function.Basic
import Mathlib.Logic.Function.Iterate
import AsioRsps.LabelledRuns

/-!
# Figures on a board

Figures with names stand on the tiles of a board and have routes to follow, in at most so many
steps a turn. One enters on the first tile, leaves, or gets another route, and in a turn all of
them move. In a run a figure goes no further than its turns take it (`within_of_run`), and with no
other route it goes along the one it has (`follows_of_run`).
-/
namespace AsioRsps.Boards
open LabelledRuns

variable {N T : Type} {adj : T → T → Prop} {m : Nat}

/-! ## Ways -/

/-- At most so many steps lead from one tile to the other. -/
inductive Within (adj : T → T → Prop) : Nat → T → T → Prop where
  | stay {n : Nat} {a : T} : Within adj n a a
  | step {n : Nat} {a b c : T} : adj a b → Within adj n b c → Within adj (n + 1) a c

theorem Within.mono {n k : Nat} {a b : T} (h : Within adj n a b) (hk : n ≤ k) :
    Within adj k a b := by
  induction h generalizing k with
  | stay => exact .stay
  | step hadj _ ih =>
      obtain ⟨k, rfl⟩ := Nat.exists_eq_add_of_le' (Nat.le_trans (Nat.succ_pos _) hk)
      exact .step hadj (ih (Nat.le_of_succ_le_succ hk))

theorem Within.trans {n k : Nat} {a b c : T} (h : Within adj n a b) (h' : Within adj k b c) :
    Within adj (n + k) a c := by
  induction h with
  | stay => exact h'.mono (Nat.le_add_left _ _)
  | step hadj _ ih =>
      rw [Nat.succ_add]
      exact .step hadj (ih h')

/-- The first steps of a way lead to the last of them. -/
theorem within_take {a : T} {route : List T} (h : (a :: route).IsChain adj) (n : Nat) :
    Within adj n a ((route.take n).getLastD a) := by
  induction n generalizing a route with
  | zero => exact .stay
  | succ n ih =>
      cases route with
      | nil => exact .stay
      | cons b route =>
          obtain ⟨hadj, hrest⟩ := List.isChain_cons_cons.mp h
          rw [List.take_succ_cons, List.getLastD_cons]
          exact .step hadj (ih hrest)

/-- What is left of a way after its first steps. -/
theorem isChain_drop {a : T} {route : List T} (h : (a :: route).IsChain adj) (n : Nat) :
    ((route.take n).getLastD a :: route.drop n).IsChain adj := by
  induction n generalizing a route with
  | zero => exact h
  | succ n ih =>
      cases route with
      | nil => exact h
      | cons b route =>
          obtain ⟨-, hrest⟩ := List.isChain_cons_cons.mp h
          rw [List.take_succ_cons, List.getLastD_cons, List.drop_succ_cons]
          exact ih hrest

/-! ## Figures -/

/-- A figure stands on a tile, and its route leads on from there. -/
@[ext] structure Figure (adj : T → T → Prop) (m : Nat) where
  tile : T
  route : List T
  stride : Nat
  path : (tile :: route).IsChain adj
  stride_le : stride ≤ m

/-- A turn takes a figure along its route. -/
def Figure.go (f : Figure adj m) : Figure adj m where
  tile := (f.route.take f.stride).getLastD f.tile
  route := f.route.drop f.stride
  stride := f.stride
  path := isChain_drop f.path f.stride
  stride_le := f.stride_le

theorem Figure.go_tile (f : Figure adj m) :
    f.go.tile = (f.route.take f.stride).getLastD f.tile := rfl

theorem Figure.go_route (f : Figure adj m) : f.go.route = f.route.drop f.stride := rfl

theorem Figure.within_go (f : Figure adj m) : Within adj m f.tile f.go.tile :=
  (within_take f.path f.stride).mono f.stride_le

theorem take_add_getLastD {a : T} (route : List T) (n k : Nat) :
    ((route.drop n).take k).getLastD ((route.take n).getLastD a) =
      (route.take (n + k)).getLastD a := by
  rw [List.take_add, List.getLastD_eq_getLast?, List.getLastD_eq_getLast?,
    List.getLastD_eq_getLast?, List.getLast?_append, Option.getD_or]

/-- Where so many turns take a figure. -/
theorem Figure.go_iterate (f : Figure adj m) (n : Nat) :
    (Figure.go^[n] f).tile = (f.route.take (n * f.stride)).getLastD f.tile ∧
      (Figure.go^[n] f).route = f.route.drop (n * f.stride) ∧
      (Figure.go^[n] f).stride = f.stride := by
  induction n with
  | zero =>
      rw [Nat.zero_mul]
      exact ⟨rfl, rfl, rfl⟩
  | succ n ih =>
      obtain ⟨htile, hroute, hstride⟩ := ih
      rw [Function.iterate_succ_apply', Nat.succ_mul]
      refine ⟨?_, ?_, hstride⟩
      · rw [go_tile, htile, hroute, hstride, take_add_getLastD]
      · rw [go_route, hroute, hstride, List.drop_drop]

/-! ## Boards -/

/-- The figures that are on the board. -/
abbrev Board (N : Type) (adj : T → T → Prop) (m : Nat) := N → Option (Figure adj m)

inductive Act (N : Type) where
  | enter (n : N)
  | leave (n : N)
  | plan (n : N)
  | turn

def Act.isTurn : Act N → Bool
  | .turn => true
  | _ => false

/-- Which figure enters is up to the player, as long as it stands on the first tile and has no
route yet; which route it gets later is, too. -/
inductive Step [DecidableEq N] (home : T) : Board N adj m → Act N → Board N adj m → Prop where
  | enter {b : Board N adj m} {n : N} {f : Figure adj m} : b n = none → f.tile = home →
      f.route = [] → Step home b (.enter n) (Function.update b n (some f))
  | leave {b : Board N adj m} {n : N} {f : Figure adj m} : b n = some f →
      Step home b (.leave n) (Function.update b n none)
  | plan {b : Board N adj m} {n : N} {f f' : Figure adj m} : b n = some f → f'.tile = f.tile →
      Step home b (.plan n) (Function.update b n (some f'))
  | turn {b : Board N adj m} : Step home b .turn fun n => (b n).map Figure.go

def turns (trace : List (Taken (Board N adj m) (Act N))) : Nat :=
  trace.countP fun t => t.label.isTurn

theorem turns_append (trace more : List (Taken (Board N adj m) (Act N))) :
    turns (trace ++ more) = turns trace + turns more := List.countP_append

/-! ## Runs -/

variable [DecidableEq N] {home : T} {b b' : Board N adj m}
  {trace : List (Taken (Board N adj m) (Act N))} {n : N} {f : Figure adj m}

/-- What a step does to a figure that stays. -/
theorem Step.figure {a : Act N} (h : Step home b a b') (hn : b n = some f) (hstay : a ≠ .leave n) :
    (∃ f', b' n = some f' ∧ f'.tile = f.tile ∧ (a ≠ .plan n → f' = f)) ∧ a.isTurn = false ∨
      b' n = some f.go ∧ a.isTurn = true := by
  have hother {k : N} {x : Option (Figure adj m)} (hk : n ≠ k) :
      ∃ f', Function.update b k x n = some f' ∧ f'.tile = f.tile ∧ (a ≠ .plan n → f' = f) :=
    ⟨f, by rw [Function.update_of_ne hk, hn], rfl, fun _ => rfl⟩
  cases h with
  | enter hk _ _ =>
      refine .inl ⟨hother ?_, rfl⟩
      rintro rfl
      cases hn.symm.trans hk
  | leave _ =>
      refine .inl ⟨hother ?_, rfl⟩
      rintro rfl
      exact hstay rfl
  | @plan k g f' hk htile =>
      by_cases hnk : n = k
      · subst hnk
        obtain rfl := Option.some.inj (hk.symm.trans hn)
        exact .inl ⟨⟨f', Function.update_self .., htile, fun hne => absurd rfl hne⟩, rfl⟩
      · exact .inl ⟨hother hnk, rfl⟩
  | turn => exact .inr ⟨congrArg (Option.map Figure.go) hn, rfl⟩

/-- A figure that stays gets no further than its turns take it. -/
theorem within_of_run (h : Run (Step home) b trace b') (hn : b n = some f)
    (hstay : ∀ t ∈ trace, t.label ≠ .leave n) :
    ∃ f', b' n = some f' ∧ Within adj (turns trace * m) f.tile f'.tile := by
  induction h with
  | start => exact ⟨f, hn, .stay⟩
  | snoc _ hs ih =>
      obtain ⟨g, hg, hway⟩ := ih fun t ht => hstay t (List.mem_append_left _ ht)
      have hlast := hstay _ (List.mem_append_right _ List.mem_cons_self)
      rw [turns_append, Nat.add_mul]
      rcases hs.figure hg hlast with ⟨⟨f', hf', htile, -⟩, -⟩ | ⟨hgo, hturn⟩
      · exact ⟨f', hf', htile ▸ hway.mono (Nat.le_add_right _ _)⟩
      · refine ⟨g.go, hgo, hway.trans ?_⟩
        rw [turns, List.countP_singleton, if_pos hturn, Nat.one_mul]
        exact g.within_go

/-- A figure that stays and gets no other route goes along the one it has. -/
theorem follows_of_run (h : Run (Step home) b trace b') (hn : b n = some f)
    (hstay : ∀ t ∈ trace, t.label ≠ .leave n ∧ t.label ≠ .plan n) :
    b' n = some (Figure.go^[turns trace] f) := by
  induction h with
  | start => exact hn
  | snoc _ hs ih =>
      have hbefore := ih fun t ht => hstay t (List.mem_append_left _ ht)
      obtain ⟨hleave, hplan⟩ := hstay _ (List.mem_append_right _ List.mem_cons_self)
      rw [turns_append]
      rcases hs.figure hbefore hleave with ⟨⟨f', hf', -, hsame⟩, hturn⟩ | ⟨hgo, hturn⟩
      · rw [turns, turns, List.countP_singleton, if_neg (by rw [hturn]; exact Bool.false_ne_true),
          hf', hsame hplan]
        rfl
      · rw [turns, turns, List.countP_singleton, if_pos hturn, Function.iterate_succ_apply']
        exact hgo

end AsioRsps.Boards
