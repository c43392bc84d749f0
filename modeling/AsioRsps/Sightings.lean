import AsioRsps.Ghosts
import AsioRsps.LocalList
import AsioRsps.Population

/-!
# Whom the players see

In every run, after each tick, a registered player's list holds nobody twice and not the player
itself; everybody in it is in view, and unless it is full every registered player in view is in
it. Who is in it without being registered was in it before the tick.
-/
namespace AsioRsps
open LabelledRuns MovementHandler PlayerUpdating

namespace World

/-- What a tick leaves in the list of a player, next to what was in it. -/
structure Sighted (s s' : Server) (p : PlayerId) : Prop where
  nodup : (s'.players p).localPlayers.Nodup
  self : p ∉ (s'.players p).localPlayers
  length : (s'.players p).localPlayers.length ≤ 255
  viewable : ∀ q ∈ (s'.players p).localPlayers,
    (s'.players q).position.isViewableFrom (s'.players p).position = true
  old : ∀ q ∈ (s'.players p).localPlayers, q ∉ s'.registered →
    q ∈ (s.players p).localPlayers
  complete : (s'.players p).localPlayers.length < 255 → ∀ q ∈ s'.registered, q ≠ p →
    (s'.players q).position.isViewableFrom (s'.players p).position = true →
      q ∈ (s'.players p).localPlayers

theorem Ticked.position_eq {s s' : Server} (h : Ticked s s') (q : PlayerId) :
    (s'.players q).position = ((afterProcess s).players q).position := by
  by_cases hq : q ∈ s.registered
  · rw [h.position hq, afterProcess_of_mem hq]
  · rw [h.absent q hq, afterProcess_of_not_mem hq]

theorem Ticked.list_eq {s s' : Server} (h : Ticked s s') {p : PlayerId} (hp : p ∈ s.registered) :
    (s'.players p).localPlayers = listed s p := by
  rw [h.player p hp]

theorem localPlayers_afterProcess (s : Server) (p : PlayerId) :
    ((afterProcess s).players p).localPlayers = (s.players p).localPlayers := by
  by_cases hp : p ∈ s.registered
  · rw [afterProcess_of_mem hp, processed_localPlayers]
  · rw [afterProcess_of_not_mem hp]

/-- Who is kept was listed, and who is added is registered and in view. -/
theorem mem_listed {s : Server} {p q : PlayerId} (h : q ∈ listed s p) :
    q ∈ (s.players p).localPlayers ∧
      keeps ((afterProcess s).players p) ((afterProcess s).players q) = true ∨
    q ∈ s.registered ∧ q ≠ p ∧ ((afterProcess s).players q).position.isViewableFrom
      ((afterProcess s).players p).position = true := by
  rcases List.mem_append.mp h with hkept | hadded
  · obtain ⟨hmem, hkeeps⟩ := List.mem_filter.mp hkept
    rw [localPlayers_afterProcess] at hmem
    exact .inl ⟨hmem, hkeeps⟩
  · obtain ⟨hregistered, hne, -, hview⟩ := mem_additions hadded
    exact .inr ⟨hregistered, hne, hview⟩

theorem Ticked.sighted {s s' : Server} (h : Ticked s s') {p : PlayerId} (hp : p ∈ s.registered)
    (hnodup : (s.players p).localPlayers.Nodup) (hself : p ∉ (s.players p).localPlayers)
    (hlength : (s.players p).localPlayers.length ≤ 255) : Sighted s s' p where
  nodup := by
    rw [h.list_eq hp]
    refine List.nodup_append.mpr ⟨?_, additions_nodup _ _ _ _, ?_⟩
    · rw [keptPlayers, localPlayers_afterProcess]
      exact hnodup.filter _
    · rintro q hkept _ hadded rfl
      exact (mem_additions hadded).2.2.1 hkept
  self hmem := by
    rw [h.list_eq hp] at hmem
    rcases mem_listed hmem with ⟨hbefore, -⟩ | ⟨-, hne, -⟩
    · exact hself hbefore
    · exact hne rfl
  length := by
    rw [h.list_eq hp, listed, List.length_append]
    refine addedPlayers_length_le ((List.length_filter_le _ _).trans ?_)
    rw [localPlayers_afterProcess]
    exact hlength
  viewable q hq := by
    rw [h.list_eq hp] at hq
    rw [h.position_eq, h.position_eq]
    rcases mem_listed hq with ⟨-, hkeeps⟩ | ⟨-, -, hview⟩
    · exact (keeps_iff.mp hkeeps).1
    · exact hview
  old q hq hnot := by
    rw [h.list_eq hp] at hq
    rw [h.registered_eq] at hnot
    rcases mem_listed hq with ⟨hbefore, -⟩ | ⟨hregistered, -⟩
    · exact hbefore
    · exact absurd hregistered hnot
  complete hroom q hq hne hview :=
    h.mem_of_viewable hp (h.registered_eq ▸ hq) hne hview hroom

end World

namespace Server

/-! ## Nobody lists itself -/

def Selfless (s : Server) : Prop := ∀ p, p ∉ (s.players p).localPlayers

theorem Selfless.moves {s s' : Server} {e : Event} (h : s.Selfless) (hpop : s.Populated)
    (hm : s.Moves e s') : s'.Selfless := by
  intro p
  cases hm.player hpop.sound p with
  | strolled hstrolled _ =>
      obtain ⟨m, hp⟩ := hstrolled.others
      rw [hp]
      exact h p
  | created _ hp =>
      rw [hp]
      exact List.not_mem_nil
  | entered _ hp =>
      rw [hp]
      exact List.not_mem_nil
  | ticked _ hp ht => exact (ht.sighted hp (hpop.lists p) (h p) (hpop.sound.lists p).1).self

theorem reachable_selfless {s : Server} (h : Reachable Step initial s) : s.Selfless := by
  obtain ⟨trace, hrun⟩ := h
  have hstart : Populated initial ∧ Selfless initial :=
    ⟨populated_initial, fun _ => List.not_mem_nil⟩
  have hboth := hrun.invariant (P := fun s => s.Populated ∧ s.Selfless) hstart
    fun _ _ _ hs hstep => ⟨hs.1.step hstep, hs.2.moves hs.1 (hstep.moves hs.1.sound)⟩
  exact hboth.2

/-! ## Runs -/

/-- After each tick of a run everybody's list is right. -/
theorem run_sighted {trace : List (Taken Server Event)} {s : Server}
    (h : Run Step initial trace s) : ∀ t ∈ trace, t.label = .tick → ∀ p ∈ t.after.registered,
      World.Sighted t.before t.after p := by
  intro t ht hlabel p hp
  obtain ⟨before, after, rfl⟩ := List.append_of_mem ht
  obtain ⟨hbefore, hstep, -⟩ := h.split rfl
  have hreach : Reachable Step initial t.before := ⟨before, hbefore⟩
  have hpop := reachable_populated hreach
  rw [hlabel] at hstep
  cases hstep with
  | tick hrun =>
      have htick := World.process_ticked hpop.sound hrun
      rw [htick.registered_eq] at hp
      exact htick.sighted hp (hpop.lists p) (reachable_selfless hreach p) (hpop.sound.lists p).1

/-- Two players on one tile see each other from the first tick on. -/
theorem run_sighted_couple : ∃ trace s s', Run Step initial trace s' ∧ s'.registered = [1, 0] ∧
    1 ∈ (s'.players 0).localPlayers ∧ World.Sighted s s' 0 := by
  obtain ⟨trace, s, i, j, hcouple⟩ := exists_couple
  have hreach : Reachable Step initial s := ⟨trace, hcouple.run⟩
  obtain ⟨s', hprocess⟩ := GameSound.exists_tick (reachable_populated hreach)
  have htick := World.process_ticked (reachable_sound hreach) hprocess
  have hregistered : s'.registered = [1, 0] := htick.registered_eq.trans hcouple.registered
  have hlisted := (htick.listed_entered hcouple.registered hcouple.newcomers.1
    hcouple.newcomers.2).1
  have hrun' := hcouple.run.snoc (.tick hprocess)
  refine ⟨_, s, s', hrun', hregistered, hlisted, run_sighted hrun' ⟨s, .tick, s'⟩
    (List.mem_append_right _ List.mem_cons_self) rfl 0 ?_⟩
  rw [hregistered]
  decide

end Server
end AsioRsps
