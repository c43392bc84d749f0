import Mathlib.Data.List.Basic
import Mathlib.Control.Monad.Basic

/-!
# Readers of a prefix

A reader takes some tokens off the front of a list and returns a value, or refuses. `Reads m ts a`
says that `m` takes exactly `ts`, whatever follows, and returns `a`; it composes along
sequencing, so that what a writer appends can be read back piece by piece.
-/
namespace AsioRsps.PrefixReader

variable {τ α β γ : Type}

abbrev Reader (τ : Type) := StateT (List τ) Option

/-- `m` takes exactly `ts` and returns `a`. -/
def Reads (m : Reader τ α) (ts : List τ) (a : α) : Prop :=
  ∀ rest, m (ts ++ rest) = some (a, rest)

theorem reads_pure (a : α) : Reads (τ := τ) (pure a) [] a := fun _ => rfl

/-- After what `m` takes, the rest of the reader sees the rest of the input. -/
theorem Reads.run_bind {m : Reader τ α} {f : α → Reader τ β} {ts us : List τ} {a : α}
    (hm : Reads m ts a) : (m >>= f) (ts ++ us) = f a us := by
  change (m (ts ++ us)).bind (fun r => f r.1 r.2) = _
  rw [hm us]
  rfl

theorem Reads.bind {m : Reader τ α} {f : α → Reader τ β} {ts us : List τ} {a : α} {b : β}
    (hm : Reads m ts a) (hf : Reads (f a) us b) : Reads (m >>= f) (ts ++ us) b := by
  intro rest
  rw [List.append_assoc, hm.run_bind]
  exact hf rest

/-- The last step of a reader computes its value. -/
theorem Reads.map {m : Reader τ α} {ts : List τ} {a : α} (hm : Reads m ts a) (f : α → β) :
    Reads (m >>= fun x => pure (f x)) ts (f a) := by
  have h := Reads.bind (f := fun x => pure (f x)) hm (reads_pure (f a))
  rwa [List.append_nil] at h

theorem Reads.run {m : Reader τ α} {ts : List τ} {a : α} (hm : Reads m ts a) :
    m ts = some (a, []) := by
  have h := hm []
  rwa [List.append_nil] at h

/-- A reader run a fixed number of times. -/
def readMany (m : Reader τ α) : Nat → Reader τ (List α)
  | 0 => pure []
  | n+1 => do
      let a ← m
      let as ← readMany m n
      return a :: as

theorem reads_readMany {m : Reader τ α} {encode : γ → List τ} {value : γ → α} (xs : List γ)
    (h : ∀ x ∈ xs, Reads m (encode x) (value x)) :
    Reads (readMany m xs.length) (xs.flatMap encode) (xs.map value) := by
  induction xs with
  | nil => exact reads_pure []
  | cons x xs ih =>
      have hx := h x List.mem_cons_self
      have hxs := ih fun y hy => h y (List.mem_cons_of_mem x hy)
      have hbind := Reads.bind (f := fun a => readMany m xs.length >>= fun as => pure (a :: as)) hx
        (hxs.map (value x :: ·))
      exact hbind

end AsioRsps.PrefixReader
