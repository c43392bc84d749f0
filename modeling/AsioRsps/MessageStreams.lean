import AsioRsps.PrefixReader

/-!
# Streams of messages

Messages sent one after another in a stream of tokens. How a message is written may depend on a
state that sender and receiver keep in step. A receiver that takes exactly one message, and waits
as long as it has only the beginning of one, gets the messages back in order, whatever part of
the stream has arrived.
-/
namespace AsioRsps.MessageStreams
open PrefixReader

variable {σ μ τ α β : Type}

/-! ## Delimited pieces -/

/-- The beginning of a list, and not all of it. -/
def Cut (us ts : List τ) : Prop := us <+: ts ∧ us ≠ ts

theorem not_cut_nil {us : List τ} : ¬ Cut us [] := fun h => h.2 (List.prefix_nil.mp h.1)

/-- A beginning of two lists ends in the first of them, or behind it. -/
theorem cut_append {us ts ts' : List τ} (h : Cut us (ts ++ ts')) :
    Cut us ts ∨ ∃ us', us = ts ++ us' ∧ Cut us' ts' := by
  obtain ⟨⟨vs, hvs⟩, hne⟩ := h
  rcases List.append_eq_append_iff.mp hvs with ⟨ws, hts, -⟩ | ⟨ws, rfl, hts'⟩
  · by_cases hend : us = ts
    · subst hend
      refine .inr ⟨[], (List.append_nil us).symm, List.nil_prefix, ?_⟩
      rintro rfl
      exact hne (List.append_nil us).symm
    · exact .inl ⟨⟨ws, hts.symm⟩, hend⟩
  · refine .inr ⟨ws, rfl, ⟨vs, hts'.symm⟩, ?_⟩
    rintro rfl
    exact hne rfl

/-- The reader takes exactly `ts`, and nothing when only the beginning of it is there. -/
structure Delimits (m : Reader τ α) (ts : List τ) (a : α) : Prop where
  reads : Reads m ts a
  waits : ∀ us, Cut us ts → m us = none

theorem delimits_pure (a : α) : Delimits (τ := τ) (pure a) [] a where
  reads := reads_pure a
  waits _ h := absurd h not_cut_nil

theorem Delimits.bind {m : Reader τ α} {f : α → Reader τ β} {ts us : List τ} {a : α} {b : β}
    (hm : Delimits m ts a) (hf : Delimits (f a) us b) : Delimits (m >>= f) (ts ++ us) b where
  reads := hm.reads.bind hf.reads
  waits vs h := by
    rcases cut_append h with hcut | ⟨vs', rfl, hcut⟩
    · change (m vs).bind (fun r => f r.1 r.2) = none
      rw [hm.waits vs hcut]
      rfl
    · rw [hm.reads.run_bind]
      exact hf.waits vs' hcut

/-- The last step computes the value. -/
theorem Delimits.map {m : Reader τ α} {ts : List τ} {a : α} (hm : Delimits m ts a) (f : α → β) :
    Delimits (m >>= fun x => pure (f x)) ts (f a) := by
  have h := Delimits.bind (f := fun x => pure (f x)) hm (delimits_pure (f a))
  rwa [List.append_nil] at h

/-! ## Protocols -/

/-- How messages are written, what the state becomes, and a reader for each state that delimits
the messages that may be sent in it. -/
structure Protocol (σ μ τ : Type) where
  encode : σ → μ → List τ
  next : σ → μ → σ
  reader : σ → Reader τ μ
  legal : σ → μ → Prop
  delimits : ∀ s m, legal s m → Delimits (reader s) (encode s m) m
  encode_ne_nil : ∀ s m, legal s m → encode s m ≠ []
  reader_nil : ∀ s, reader s [] = none

namespace Protocol
variable (P : Protocol σ μ τ)

def encodeAll (s : σ) : List μ → List τ
  | [] => []
  | m :: ms => P.encode s m ++ encodeAll (P.next s m) ms

def state (s : σ) (ms : List μ) : σ := ms.foldl P.next s

/-- Each message may be sent in the state in which it is. -/
def Legal (s : σ) : List μ → Prop
  | [] => True
  | m :: ms => P.legal s m ∧ Legal (P.next s m) ms

/-- Messages are taken off the stream as long as there is a whole one. -/
def receive : Nat → σ → List τ → List μ × List τ
  | 0, _, ts => ([], ts)
  | fuel+1, s, ts =>
      match P.reader s ts with
      | none => ([], ts)
      | some (m, rest) =>
          let (ms, left) := receive fuel (P.next s m) rest
          (m :: ms, left)

variable {P}

theorem encodeAll_append (s : σ) (ms ms' : List μ) :
    P.encodeAll s (ms ++ ms') = P.encodeAll s ms ++ P.encodeAll (P.state s ms) ms' := by
  induction ms generalizing s with
  | nil => rfl
  | cons m ms ih =>
      rw [List.cons_append, encodeAll, ih, encodeAll, List.append_assoc]
      rfl

theorem state_append (s : σ) (ms ms' : List μ) :
    P.state s (ms ++ ms') = P.state (P.state s ms) ms' :=
  List.foldl_append ..

theorem legal_append {s : σ} {ms ms' : List μ} :
    P.Legal s (ms ++ ms') ↔ P.Legal s ms ∧ P.Legal (P.state s ms) ms' := by
  induction ms generalizing s with
  | nil => exact (true_and _).symm.to_iff
  | cons m ms ih =>
      rw [List.cons_append, Legal, Legal, ih, and_assoc]
      rfl

/-- Every message takes at least one token. -/
theorem length_le_encodeAll {s : σ} {ms : List μ} (h : P.Legal s ms) :
    ms.length ≤ (P.encodeAll s ms).length := by
  induction ms generalizing s with
  | nil => exact Nat.le_refl 0
  | cons m ms ih =>
      have hfirst := List.length_pos_iff.mpr (P.encode_ne_nil s m h.1)
      have hrest := ih h.2
      rw [encodeAll, List.length_append, List.length_cons]
      omega

/-- The beginning of the messages still to come, if it is not the whole of the first one. -/
def Pending (P : Protocol σ μ τ) (s : σ) (left : List τ) : List μ → Prop
  | [] => left = []
  | m :: _ => Cut left (P.encode s m)

/-- What has arrived ends within one of the messages. -/
theorem exists_pending {s : σ} {ms : List μ} (h : P.Legal s ms) {ts : List τ}
    (hts : ts <+: P.encodeAll s ms) : ∃ got later left, ms = got ++ later ∧
      ts = P.encodeAll s got ++ left ∧ P.Pending (P.state s got) left later := by
  induction ms generalizing s ts with
  | nil => exact ⟨[], [], ts, rfl, rfl, List.prefix_nil.mp hts⟩
  | cons m ms ih =>
      by_cases hall : P.encode s m <+: ts
      · obtain ⟨rest, rfl⟩ := hall
        rw [encodeAll, List.prefix_append_right_inj] at hts
        obtain ⟨got, later, left, rfl, rfl, hleft⟩ := ih h.2 hts
        exact ⟨m :: got, later, left, rfl, (List.append_assoc _ _ _).symm, hleft⟩
      · refine ⟨[], m :: ms, ts, rfl, rfl, ?_, ?_⟩
        · rcases List.prefix_or_prefix_of_prefix hts (List.prefix_append _ _) with hcut | hwhole
          · exact hcut
          · exact absurd hwhole hall
        · rintro rfl
          exact hall List.prefix_rfl

theorem receive_encodeAll {s : σ} {ms : List μ} (h : P.Legal s ms) {left : List τ} {fuel : Nat}
    (hfuel : ms.length ≤ fuel) (hleft : P.reader (P.state s ms) left = none) :
    P.receive fuel s (P.encodeAll s ms ++ left) = (ms, left) := by
  induction ms generalizing s fuel with
  | nil =>
      have hnone : P.reader s left = none := hleft
      cases fuel with
      | zero => rfl
      | succ fuel =>
          change P.receive (fuel + 1) s left = _
          rw [receive, hnone]
  | cons m ms ih =>
      cases fuel with
      | zero => cases hfuel
      | succ fuel =>
          have hread := (P.delimits s m h.1).reads (P.encodeAll (P.next s m) ms ++ left)
          have hrest := ih h.2 (Nat.le_of_succ_le_succ hfuel) hleft
          rw [encodeAll, List.append_assoc, receive, hread]
          dsimp only
          rw [hrest]

/-- Of whatever has arrived the receiver gets exactly the messages that are whole. -/
theorem receive_prefix {s : σ} {ms : List μ} (h : P.Legal s ms) {ts : List τ}
    (hts : ts <+: P.encodeAll s ms) : ∃ got later left, ms = got ++ later ∧
      P.receive ts.length s ts = (got, left) ∧ ts = P.encodeAll s got ++ left ∧
      P.Pending (P.state s got) left later := by
  obtain ⟨got, later, left, rfl, rfl, hleft⟩ := exists_pending h hts
  obtain ⟨hgot, hlater⟩ := legal_append.mp h
  have hnone : P.reader (P.state s got) left = none := by
    cases later with
    | nil =>
        rw [show left = [] from hleft]
        exact P.reader_nil _
    | cons m later => exact (P.delimits _ m hlater.1).waits left hleft
  refine ⟨got, later, left, rfl, receive_encodeAll hgot ?_ hnone, rfl, hleft⟩
  rw [List.length_append]
  exact Nat.le_add_right_of_le (length_le_encodeAll hgot)

end Protocol
end AsioRsps.MessageStreams
