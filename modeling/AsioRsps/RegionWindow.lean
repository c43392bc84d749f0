import AsioRsps.GameRuns

/-!
# The region around a player

The region a client has loaded is the one of its last map-region frame, and after the movement
phase of every tick the player stands well inside it, whatever its coordinates are and however
they wrap. A placement tells where with seven bits for each coordinate.
-/
namespace AsioRsps
open LabelledRuns MovementHandler PlayerUpdating
open StreamBuffer (fieldBits)
open Client (OutFrame mapRegionFrame)
open PrefixReader (Reads)

/-! ## The window -/

/-- The player's offset to the region, and that the fields of a placement hold it. -/
structure InWindow (player : Player) : Prop where
  localX : 16 ≤ (player.position.localX player.currentRegion).toNat ∧
    (player.position.localX player.currentRegion).toNat ≤ 87
  localY : 16 ≤ (player.position.localY player.currentRegion).toNat ∧
    (player.position.localY player.currentRegion).toNat ≤ 87
  fieldX : Reads (BitStrings.takeBits 7)
    (fieldBits 7 (player.position.localX player.currentRegion).toInt)
    (player.position.localX player.currentRegion).toNat
  fieldY : Reads (BitStrings.takeBits 7)
    (fieldBits 7 (player.position.localY player.currentRegion).toInt)
    (player.position.localY player.currentRegion).toNat

namespace MovementHandler

theorem window_of_inside {w base : Word} (hlow : ¬ (w - base * 8).toInt < 16)
    (hhigh : ¬ (w - base * 8).toInt ≥ 88) :
    16 ≤ (w - 8 * base).toNat ∧ (w - 8 * base).toNat ≤ 87 := by
  rw [BitVec.mul_comm]
  have hsmall := BitVec.toInt_eq_toNat_cond (w - base * 8)
  split at hsmall
  · omega
  · have hlt := (w - base * 8).isLt
    omega

/-- A new region is laid six chunks before that of the player. -/
theorem window_of_updated {w c : Word} (hc : c = w >>> 3) :
    16 ≤ (w - 8 * (c - 6)).toNat ∧ (w - 8 * (c - 6)).toNat ≤ 87 := by
  have hchunk : c.toNat = w.toNat / 8 := by
    rw [hc, BitVec.toNat_ushiftRight, Nat.shiftRight_eq_div_pow]
  bv_omega

theorem inside_iff {player : Player} : insideRegion player = true ↔
    (¬ (player.position.x - player.currentRegion.regionX * 8).toInt < 16 ∧
      ¬ (player.position.x - player.currentRegion.regionX * 8).toInt ≥ 88) ∧
    ¬ (player.position.y - player.currentRegion.regionY * 8).toInt < 16 ∧
      ¬ (player.position.y - player.currentRegion.regionY * 8).toInt ≥ 88 := by
  simp only [insideRegion, Bool.not_eq_true', Bool.or_eq_false_iff, decide_eq_false_iff_not,
    and_assoc]

theorem inWindow_processed (player : Player) : InWindow (processed player) := by
  have hboth : (16 ≤ ((processed player).position.localX (processed player).currentRegion).toNat ∧
      ((processed player).position.localX (processed player).currentRegion).toNat ≤ 87) ∧
      (16 ≤ ((processed player).position.localY (processed player).currentRegion).toNat ∧
      ((processed player).position.localY (processed player).currentRegion).toNat ≤ 87) := by
    rw [processed]
    split
    · rename_i hin
      obtain ⟨⟨hx, hx'⟩, hy, hy'⟩ := inside_iff.mp hin
      exact ⟨window_of_inside hx hx', window_of_inside hy hy'⟩
    · exact ⟨window_of_updated rfl, window_of_updated rfl⟩
  obtain ⟨hx, hy⟩ := hboth
  exact ⟨hx, hy, PlayerUpdate.reads_word (by decide) (Nat.lt_of_le_of_lt hx.2 (by decide)),
    PlayerUpdate.reads_word (by decide) (Nat.lt_of_le_of_lt hy.2 (by decide))⟩

end MovementHandler
/-! ## The frames of a client -/

/-- The frames a client has been sent since it joined, each with the number of the key that
encrypts it. An update of a full list draws a key and sends nothing. -/
structure Transcript (client : Client) (joined : Joined) (frames : List (Nat × OutFrame)) :
    Prop where
  queued : client.queued =
    joined.queued ++ frames.map fun f => f.2.encrypt (joined.cipher.advance f.1)
  ordered : (frames.map Prod.fst).Pairwise (· < ·)
  encryptor : ∃ n, client.encryptor = some (joined.cipher.advance n) ∧ ∀ f ∈ frames, f.1 < n

theorem Transcript.draw {client : Client} {joined : Joined} {frames : List (Nat × OutFrame)}
    {cipher : ISAACCipher} (h : Transcript client joined frames)
    (he : client.encryptor = some cipher) : Transcript (client.drawKey cipher) joined frames := by
  obtain ⟨n, hn, hlt⟩ := h.encryptor
  obtain rfl := Option.some.inj (he.symm.trans hn)
  refine ⟨h.queued, h.ordered, n + 1, ?_, fun f hf => Nat.lt_succ_of_lt (hlt f hf)⟩
  rw [ISAACCipher.advance_add]
  rfl

theorem Transcript.push {client : Client} {joined : Joined} {frames : List (Nat × OutFrame)}
    {cipher : ISAACCipher} (h : Transcript client joined frames)
    (he : client.encryptor = some cipher) (more : List OutFrame) :
    ∃ added : List (Nat × OutFrame), added.map Prod.snd = more ∧
      Transcript (client.pushFrames cipher more) joined (frames ++ added) := by
  induction more generalizing client frames cipher with
  | nil => exact ⟨[], rfl, by rw [List.append_nil]; exact h⟩
  | cons f more ih =>
      obtain ⟨n, hn, hlt⟩ := h.encryptor
      obtain rfl := Option.some.inj (he.symm.trans hn)
      have hone : Transcript (client.pushFrame (joined.cipher.advance n) f) joined
          (frames ++ [(n, f)]) := by
        refine ⟨?_, ?_, n + 1, ?_, fun g hg => ?_⟩
        · have hpush := Client.queued_pushFrames client _ [f] he
          rw [Client.encryptAll, Client.encryptAll, h.queued, List.append_assoc] at hpush
          rw [List.map_append]
          exact hpush
        · rw [List.map_append, List.pairwise_append]
          refine ⟨h.ordered, List.pairwise_singleton _ _, fun a ha b hb => ?_⟩
          obtain ⟨g, hg, rfl⟩ := List.mem_map.mp ha
          obtain rfl := List.mem_singleton.mp hb
          exact hlt g hg
        · rw [ISAACCipher.advance_add]
          rfl
        · rcases List.mem_append.mp hg with hg | hg
          · exact Nat.lt_succ_of_lt (hlt g hg)
          · rw [List.mem_singleton.mp hg]
            exact Nat.lt_succ_self n
      obtain ⟨added, hadded, htranscript⟩ := ih hone rfl
      refine ⟨(n, f) :: added, by rw [List.map_cons, hadded], ?_⟩
      rw [List.append_assoc] at htranscript
      exact htranscript

/-- The last map-region frame is the one for `region`. -/
def LastRegion (frames : List (Nat × OutFrame)) (region : Position) : Prop :=
  ∃ before n after, frames = before ++ (n, mapRegionFrame region) :: after ∧
    ∀ f ∈ after, f.2.opcode ≠ 73

theorem LastRegion.append {frames more : List (Nat × OutFrame)} {region : Position}
    (h : LastRegion frames region) (hmore : ∀ f ∈ more.map Prod.snd, f.opcode ≠ 73) :
    LastRegion (frames ++ more) region := by
  obtain ⟨before, n, after, rfl, hafter⟩ := h
  refine ⟨before, n, after ++ more, by rw [List.append_assoc, List.cons_append], fun f hf => ?_⟩
  rcases List.mem_append.mp hf with hf | hf
  · exact hafter f hf
  · exact hmore _ (List.mem_map_of_mem hf)

theorem lastRegion_of_pushed (frames : List (Nat × OutFrame)) {added : List (Nat × OutFrame)}
    {region : Position} {rest : List OutFrame}
    (hadded : added.map Prod.snd = mapRegionFrame region :: rest)
    (hrest : ∀ f ∈ rest, f.opcode ≠ 73) : LastRegion (frames ++ added) region := by
  cases added with
  | nil => cases hadded
  | cons f added =>
      obtain ⟨hf, hadded⟩ := List.cons_eq_cons.mp hadded
      refine ⟨frames, f.1, added, by rw [← hf], fun g hg => hrest _ ?_⟩
      rw [← hadded]
      exact List.mem_map_of_mem hg

/-- The current region of a player is the position for which the last map-region frame was queued
for its client. -/
def Charted (g : Game) (p : PlayerId) : Prop :=
  ∃ client joined frames, g.server.clients (g.server.players p).client = some client ∧
    g.joined (g.server.players p).client = some joined ∧ Transcript client joined frames ∧
    LastRegion frames (g.server.players p).currentRegion

/-! ## One step -/

theorem Charted.kept {g g' : Game} {p : PlayerId} (h : Charted g p) (hp : p < g.server.nextPlayer)
    (hk : Kept g g' p) : Charted g' p := by
  obtain ⟨client, joined, frames, hc, hj, htranscript, hlast⟩ := h
  obtain ⟨m, hplayer⟩ := hk.players p hp
  refine ⟨client, joined, frames, ?_, ?_, htranscript, ?_⟩
  · rw [hplayer]
    exact hk.client.trans hc
  · rw [hplayer]
    exact hk.joined.trans hj
  · rw [hplayer]
    exact hlast

/-- The frames of a login begin with the region. -/
theorem charted_entered (g : Game) (c : ClientId) {client : Client} {cipher : ISAACCipher}
    (he : client.encryptor = some cipher) (username : Name) (index : Fin maxPlayers) :
    Charted (g.entered c client cipher username index) g.server.nextPlayer := by
  have hplayer := g.entered_player c client cipher username index
  have hstart : Transcript
      (LoginHandler.admitted client username LoginResponse.ok g.server.nextPlayer)
      { queued := client.queued ++ [LoginHandler.replyBytes LoginResponse.ok], cipher } [] := by
    refine ⟨?_, List.Pairwise.nil, 0, he, fun _ hf => (nomatch hf)⟩
    simp only [LoginHandler.admitted, LoginHandler.answered, Client.queued,
      List.filterMap_append, List.filterMap_cons, List.filterMap_nil, List.map_nil, List.append_nil]
  obtain ⟨added, hadded, htranscript⟩ := hstart.push he
    (Player.loginFrames { x := 3200, y := 3200 })
  refine ⟨_, _, _, ?_, ?_, htranscript, ?_⟩
  · rw [hplayer]
    exact Server.setClient_clients_self ..
  · rw [hplayer]
    exact Function.update_self ..
  · rw [hplayer]
    refine lastRegion_of_pushed [] hadded fun f hf => ?_
    rcases List.mem_append.mp hf with hf | hf
    · obtain ⟨⟨menuId, form⟩, -, rfl⟩ := List.mem_map.mp hf
      exact (by decide : (71 : Int) ≠ 73)
    · rw [List.mem_singleton.mp hf]
      exact (by decide : (253 : Int) ≠ 73)

/-- The movement phase queues a map-region frame when it changes the region, and then the one for
the player's new position. -/
theorem regionFrames_cases (player : Player) :
    (regionFrames player = [] ∧ (processed player).currentRegion = player.currentRegion) ∨
      (regionFrames player = [mapRegionFrame (processed player).currentRegion] ∧
        (processed player).currentRegion = (processed player).position) := by
  rw [regionFrames, processed]
  split
  · exact .inl ⟨rfl, by rw [moved_eq]⟩
  · exact .inr ⟨rfl, rfl⟩

theorem Charted.processed {g : Game} {p : PlayerId} (h : Charted g p)
    (hp : p ∈ g.server.registered) {t : Server}
    (ht : World.Processed g.server g.server.registered t) : Charted { g with server := t } p := by
  obtain ⟨client, joined, frames, hc, hj, htranscript, hlast⟩ := h
  obtain ⟨n, he, -⟩ := htranscript.encryptor
  have hplayer := ht.player p hp
  have howner : (t.players p).client = (g.server.players p).client := by
    rw [hplayer, processed_client]
  obtain ⟨added, hadded, htranscript'⟩ := htranscript.push he (regionFrames (g.server.players p))
  refine ⟨_, joined, _, ?_, ?_, htranscript', ?_⟩
  · change t.clients (t.players p).client = _
    rw [howner]
    exact ht.sent p hp client _ hc he
  · change g.joined (t.players p).client = _
    rw [howner]
    exact hj
  · change LastRegion _ (t.players p).currentRegion
    rw [hplayer]
    rcases regionFrames_cases (g.server.players p) with ⟨hnone, hsame⟩ | ⟨hone, -⟩
    · rw [hsame]
      refine hlast.append fun f hf => ?_
      rw [hadded, hnone] at hf
      cases hf
    · rw [hone] at hadded
      exact lastRegion_of_pushed _ hadded fun _ hf => (nomatch hf)

/-- An update sends no region. -/
theorem Charted.updated {g : Game} {p : PlayerId} (h : Charted g p)
    (hp : p ∈ g.server.registered) {u : Server}
    (hu : World.Updated g.server g.server.registered u) : Charted { g with server := u } p := by
  obtain ⟨client, joined, frames, hc, hj, htranscript, hlast⟩ := h
  obtain ⟨n, he, -⟩ := htranscript.encryptor
  have hplayer := hu.player p hp
  by_cases hroom : (keptPlayers g.server p).length < 255
  · obtain ⟨body, -, hdelivered⟩ := hu.sent p hp hroom
    obtain ⟨added, hadded, htranscript'⟩ := htranscript.push he [⟨81, body⟩]
    refine ⟨_, joined, _, ?_, ?_, htranscript', ?_⟩
    · rw [hplayer]
      exact hdelivered client _ hc he
    · rw [hplayer]
      exact hj
    · rw [hplayer]
      refine hlast.append fun f hf => ?_
      rw [hadded, List.mem_singleton] at hf
      rw [hf]
      exact (by decide : (81 : Int) ≠ 73)
  · refine ⟨_, joined, frames, ?_, ?_, htranscript.draw he, ?_⟩
    · rw [hplayer]
      exact hu.silent p hp (Nat.not_lt.mp hroom) client _ hc he
    · rw [hplayer]
      exact hj
    · rw [hplayer]
      exact hlast

theorem Charted.ticked {g : Game} {p : PlayerId} (h : Charted g p) (hsound : GameSound g)
    (hp : p ∈ g.server.registered) {s' : Server} (hrun : World.process g.server = .ok s') :
    Charted { g with server := s' } p := by
  obtain ⟨t, u, ht, hu, hregistered, rfl⟩ := World.process_phases hsound.sound hrun
  have hp' : p ∈ t.registered := by
    rw [hregistered]
    exact hp
  obtain ⟨client, joined, frames, hc, hj, htranscript, hlast⟩ :=
    Charted.updated (g := { g with server := t }) (h.processed hp ht) hp' hu
  have hclients := (World.resetAll_frame u g.server.registered).1
  have hplayer : (World.resetAll u g.server.registered).players p = (u.players p).reset := by
    rw [World.resetAll_players, if_pos hp]
  refine ⟨client, joined, frames, ?_, ?_, htranscript, ?_⟩
  · rw [hplayer, hclients]
    exact hc
  · rw [hplayer]
    exact hj
  · rw [hplayer]
    exact hlast

/-! ## Runs -/

theorem GameStep.charted {g g' : Game} {e : GameEvent} (hs : GameStep g e g')
    (hsound : GameSound g) (h : ∀ p ∈ g.server.registered, Charted g p) :
    ∀ p ∈ g'.server.registered, Charted g' p := by
  intro p hp
  by_cases htick : e = .tick
  · subst htick
    cases hs with
    | tick hrun =>
        have hbefore : p ∈ g.server.registered := by
          rw [← (World.process_ticked hsound.sound hrun).registered_eq]
          exact hp
        exact (h p hbefore).ticked hsound hbefore hrun
  · rcases hs.registered_cases hsound htick hp with ⟨hbefore, hkept⟩ |
      ⟨c, client, cipher, username, index, he, rfl, rfl⟩
    · exact (h p hbefore).kept (hsound.sound.fresh_of_registered hbefore) hkept
    · exact charted_entered g c he username index

/-- After the movement phase of a tick. -/
structure Surveyed (g : Game) (m : Server) (p : PlayerId) : Prop where
  window : InWindow (m.players p)
  charted : Charted { g with server := m } p
  sent : World.Delivered g.server m (g.server.players p).client (regionFrames (g.server.players p))
  frames : (regionFrames (g.server.players p) = [] ∧
      (m.players p).currentRegion = (g.server.players p).currentRegion) ∨
    (regionFrames (g.server.players p) = [mapRegionFrame (m.players p).currentRegion] ∧
      (m.players p).currentRegion = (m.players p).position)

theorem run_surveyed {trace : List (Taken Game GameEvent)} {g : Game}
    (h : Run GameStep Game.start trace g) : ∀ t ∈ trace, t.label = .tick →
      ∃ m, t.before.server.registered.foldlM Player.process t.before.server = .ok m ∧
        ∀ p ∈ t.before.server.registered, Surveyed t.before m p := by
  refine h.forall_steps (P := fun g => GameSound g ∧ ∀ p ∈ g.server.registered, Charted g p)
    (Q := fun t => t.label = .tick →
      ∃ m, t.before.server.registered.foldlM Player.process t.before.server = .ok m ∧
        ∀ p ∈ t.before.server.registered, Surveyed t.before m p)
    ⟨gameSound_start, fun _ hp => (nomatch hp)⟩ ?_ ?_
  · rintro g e g' ⟨hsound, hcharted⟩ hs
    exact ⟨hs.sound hsound, hs.charted hsound hcharted⟩
  · rintro g e g' ⟨hsound, hcharted⟩ hs rfl
    cases hs with
    | tick hrun =>
        obtain ⟨m, hphase, -⟩ := FallibleLoop.bind_eq_ok.mp hrun
        have hm := World.processed_of_fold hsound.sound hphase
        refine ⟨m, hphase, fun p hp => ⟨?_, (hcharted p hp).processed hp hm, hm.sent p hp, ?_⟩⟩
        · rw [hm.player p hp]
          exact inWindow_processed _
        · rw [hm.player p hp]
          exact regionFrames_cases _

/-- Two players join, and a tick surveys the first. -/
theorem run_surveyed_pair : ∃ trace g t m, Run GameStep Game.start trace g ∧ t ∈ trace ∧
    0 ∈ t.before.server.registered ∧ Surveyed t.before m 0 := by
  obtain ⟨g₁, g₂, g₃, g₄, i, j, hpair⟩ := exists_pair (ISAACCipher.new (Vector.replicate 4 0))
  have hrun₂ := (Run.start.snoc hpair.connect₀).snoc hpair.login₀
  have hrun₄ := (hrun₂.snoc hpair.connect₁).snoc hpair.login₁
  have hsound₄ := hrun₄.invariant gameSound_start fun _ _ _ h hs => hs.sound h
  obtain ⟨s₅, hprocess⟩ := hsound₄.exists_tick
  have htick : GameStep g₄ .tick { g₄ with server := s₅ } := .tick hprocess
  have hregistered : 0 ∈ g₄.server.registered := by
    rw [hpair.registered]
    decide
  obtain ⟨m, -, hsurveyed⟩ := run_surveyed (hrun₄.snoc htick)
    ⟨g₄, .tick, { g₄ with server := s₅ }⟩ (List.mem_append_right _ List.mem_cons_self) rfl
  exact ⟨_, _, _, m, hrun₄.snoc htick, List.mem_append_right _ List.mem_cons_self, hregistered,
    hsurveyed 0 hregistered⟩

end AsioRsps
