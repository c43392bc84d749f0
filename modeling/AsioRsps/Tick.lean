import AsioRsps.FallibleLoop
import AsioRsps.Registration
import AsioRsps.Sessions
import AsioRsps.UpdateFrame

/-!
# One tick

What `Process` of the world does in a server whose sessions are sound: the outcome of its
three phases for every registered player and its client, and that nothing else changes.
-/
namespace AsioRsps
open BitStrings (Byte)
open FallibleLoop (foldlM_invariant)

namespace MovementHandler

/-- The player after the first part of `Process`. -/
def moved (player : Player) : Player :=
  match advance player with
  | .ok player' => player'
  | .error _ => player

/-- The player after `Process`. -/
def processed (player : Player) : Player :=
  if insideRegion (moved player) then moved player else (moved player).regionUpdated

/-- What `Process` sends. -/
def regionFrames (player : Player) : List Client.OutFrame :=
  if insideRegion (moved player) then [] else [Client.mapRegionFrame (moved player).position]

theorem follow_eq {player player' : Player} {point : Option Point}
    {record : Player → Int → Player}
    (hrecord : ∀ player d, record player d = { player with
      primaryDirection := (record player d).primaryDirection
      secondaryDirection := (record player d).secondaryDirection })
    (h : follow player point record = .ok player') : player' = { player with
      position := player'.position
      primaryDirection := player'.primaryDirection
      secondaryDirection := player'.secondaryDirection } := by
  simp only [follow] at h
  split at h
  · obtain rfl := Except.ok.inj h
    rfl
  · split at h
    · obtain rfl := Except.ok.inj h
      rfl
    · split at h
      · obtain rfl := Except.ok.inj h
        rw [hrecord]
      · cases h

/-- Following the waypoints changes the position, the directions and the waypoints. -/
theorem advance_eq {player player' : Player} (h : advance player = .ok player') :
    player' = { player with
      movementHandler := player'.movementHandler
      position := player'.position
      primaryDirection := player'.primaryDirection
      secondaryDirection := player'.secondaryDirection } := by
  obtain ⟨player₁, h₁, h₂⟩ := FallibleLoop.bind_eq_ok.mp h
  have hwalk := follow_eq (fun _ _ => rfl) h₁
  have hrun := follow_eq (fun _ _ => rfl) h₂
  rw [hwalk] at hrun
  rw [hrun]

theorem moved_eq (player : Player) : moved player = { player with
    movementHandler := (moved player).movementHandler
    position := (moved player).position
    primaryDirection := (moved player).primaryDirection
    secondaryDirection := (moved player).secondaryDirection } := by
  rw [moved]
  split
  · rename_i player' h
    exact advance_eq h
  · rfl

theorem processed_eq (player : Player) : processed player = { moved player with
    currentRegion := (processed player).currentRegion
    updateFlags := (processed player).updateFlags } := by
  rw [processed]
  split <;> rfl

@[simp] theorem moved_client (player : Player) : (moved player).client = player.client := by
  rw [moved_eq]

@[simp] theorem moved_index (player : Player) : (moved player).index = player.index := by
  rw [moved_eq]

@[simp] theorem moved_localPlayers (player : Player) :
    (moved player).localPlayers = player.localPlayers := by
  rw [moved_eq]

@[simp] theorem processed_client (player : Player) : (processed player).client = player.client := by
  rw [processed_eq, moved_client]

@[simp] theorem processed_index (player : Player) : (processed player).index = player.index := by
  rw [processed_eq, moved_index]

@[simp] theorem processed_localPlayers (player : Player) :
    (processed player).localPlayers = player.localPlayers := by
  rw [processed_eq, moved_localPlayers]

@[simp] theorem processed_position (player : Player) :
    (processed player).position = (moved player).position := by
  rw [processed_eq]

/-- Processing a player changes the player and sends the frames to its client. -/
theorem process_ok {s : Server} {p : PlayerId} {client : Client} {cipher : ISAACCipher}
    {player : Player} (hm : advance (s.players p) = .ok player)
    (hc : s.clients (s.players p).client = some client) (he : client.encryptor = some cipher)
    (hp : s.lockPlayer client.player = some p) :
    process s p = .ok ((s.setPlayer p (processed (s.players p))).setClient (s.players p).client
      (client.pushFrames cipher (regionFrames (s.players p)))) := by
  have hmoved : moved (s.players p) = player := by rw [moved, hm]
  have hclient : player.client = (s.players p).client := by rw [← hmoved, moved_client]
  have hlocals : player.localPlayers = (s.players p).localPlayers := by
    rw [← hmoved, moved_localPlayers]
  simp only [process, hm, bind, Except.bind, processed, regionFrames, hmoved]
  by_cases hin : insideRegion player = true
  · have hsame : (s.setPlayer p player).setClient (s.players p).client client =
        s.setPlayer p player := Server.setClient_eq_self hc
    simp only [hin, if_true, Client.pushFrames, hsame]
    rfl
  · have hfound : (s.setPlayer p player).clients ((s.setPlayer p player).players p).client =
        some client := by
      rw [Server.setPlayer_players_self, hclient]
      exact hc
    have hlock : (s.setPlayer p player).lockPlayer client.player = some p := by
      rw [Server.lockPlayer_setPlayer s hlocals]
      exact hp
    have hregion := Player.updateMapRegion_ok hfound he hlock
    rw [Server.setPlayer_players_self, Server.setPlayer_setPlayer, hclient] at hregion
    rw [if_neg hin, if_neg hin, if_neg hin, hregion]
    rfl

theorem advance_of_process {s s' : Server} {p : PlayerId} (h : process s p = .ok s') :
    ∃ player, advance (s.players p) = .ok player := by
  obtain ⟨player, hm, -⟩ := FallibleLoop.bind_eq_ok.mp h
  exact ⟨player, hm⟩

end MovementHandler

namespace PlayerUpdating

/-! ## What an update reads -/

/-- The two servers agree on the world, and on the players but for the lists of others. -/
structure SameView (u t : Server) (p : PlayerId) : Prop where
  players : ∀ q, ∃ l, u.players q = { t.players q with localPlayers := l }
  own : u.players p = t.players p
  registered : u.registered = t.registered

theorem additions_congr {players players' : PlayerId → Player} {p : PlayerId}
    (h : ∀ q, (players' q).position = (players q).position) (listed qs : List PlayerId) :
    additions players' p listed qs = additions players p listed qs := by
  induction qs generalizing listed with
  | nil => rfl
  | cons q qs ih => simp only [additions, h, ih]

theorem SameView.keptPlayers_eq {u t : Server} {p : PlayerId} (h : SameView u t p) :
    keptPlayers u p = keptPlayers t p := by
  have hkeeps (q : PlayerId) : keeps (t.players p) (u.players q) =
      keeps (t.players p) (t.players q) := by
    obtain ⟨l, hq⟩ := h.players q
    rw [hq]
    rfl
  simp only [keptPlayers, h.own, hkeeps]

theorem SameView.addedPlayers_eq {u t : Server} {p : PlayerId} (h : SameView u t p) :
    addedPlayers u p = addedPlayers t p := by
  have hposition (q : PlayerId) : (u.players q).position = (t.players q).position := by
    obtain ⟨l, hq⟩ := h.players q
    rw [hq]
  rw [addedPlayers, addedPlayers, h.keptPlayers_eq, h.registered, additions_congr hposition]

theorem SameView.updateBlock_eq {u t : Server} {p : PlayerId} (h : SameView u t p) :
    updateBlock u p = updateBlock t p := by
  have hentry (q : PlayerId) : entryBytes (t.players p) (u.players q) =
      entryBytes (t.players p) (t.players q) := by
    obtain ⟨l, hq⟩ := h.players q
    rw [hq]
    rfl
  have hstate (q : PlayerId) : stateBytes (u.players q) true = stateBytes (t.players q) true := by
    obtain ⟨l, hq⟩ := h.players q
    rw [hq]
    rfl
  simp only [updateBlock, h.own, h.addedPlayers_eq, hentry, hstate]

theorem SameView.updateBits_eq {u t : Server} {p : PlayerId} (h : SameView u t p) :
    updateBits u p = updateBits t p := by
  have hentry (q : PlayerId) : entryBits (t.players p) (u.players q) =
      entryBits (t.players p) (t.players q) := by
    obtain ⟨l, hq⟩ := h.players q
    rw [hq]
    rfl
  have hadd (q : PlayerId) : addBits (t.players p) (u.players q) =
      addBits (t.players p) (t.players q) := by
    obtain ⟨l, hq⟩ := h.players q
    rw [hq]
    rfl
  simp only [updateBits, h.own, h.addedPlayers_eq, h.updateBlock_eq, hentry, hadd]

theorem SameView.updateBody {u t : Server} {p : PlayerId} (h : SameView u t p) {body : List Byte}
    (hb : UpdateBody u p body) : UpdateBody t p body := by
  obtain ⟨bitBytes, pad, hbits, hpad, hbody⟩ := hb.exists_bits
  rw [h.updateBits_eq] at hbits
  rw [h.updateBlock_eq] at hbody
  exact ⟨bitBytes, pad, hbits, hpad, hbody⟩

end PlayerUpdating

namespace World
open MovementHandler PlayerUpdating

/-! ## The phases -/

/-- Frames reach a client that has an encryptor, and nothing else about it changes. -/
def Delivered (s t : Server) (c : ClientId) (frames : List Client.OutFrame) : Prop :=
  ∀ client cipher, s.clients c = some client → client.encryptor = some cipher →
    t.clients c = some (client.pushFrames cipher frames)

theorem Delivered.trans {s t u : Server} {c : ClientId} {fs gs : List Client.OutFrame}
    (h : Delivered s t c fs) (h' : Delivered t u c gs) : Delivered s u c (fs ++ gs) := by
  intro client cipher hc he
  rw [Client.pushFrames_append]
  exact h' _ _ (h client cipher hc he) (Client.pushFrames_encryptor fs he)

/-- The first phase, after some of the players. -/
structure Processed (s : Server) (done : List PlayerId) (t : Server) : Prop where
  world : t.world = s.world
  nextPlayer : t.nextPlayer = s.nextPlayer
  sessions : t.sessions = s.sessions
  moves : ∀ p ∈ done, ∃ player, advance (s.players p) = .ok player
  player : ∀ p ∈ done, t.players p = processed (s.players p)
  waiting : ∀ p, p ∉ done → t.players p = s.players p
  sent : ∀ p ∈ done, Delivered s t (s.players p).client (regionFrames (s.players p))
  others : ∀ c, (∀ p ∈ done, (s.players p).client ≠ c) → t.clients c = s.clients c

/-- A change of one player and its client, after which only the others are left. -/
theorem not_mem_of_split {l done rest : List PlayerId} {p : PlayerId} (hl : l.Nodup)
    (h : l = done ++ p :: rest) : p ∉ done := by
  rw [h, List.nodup_append] at hl
  intro hp
  exact hl.2.2 p hp p List.mem_cons_self rfl

theorem mem_of_split {l done rest : List PlayerId} {p q : PlayerId}
    (h : l = done ++ p :: rest) (hq : q ∈ done) : q ∈ l := by
  rw [h]
  exact List.mem_append_left _ hq

theorem Processed.step {s t t' : Server} (h : s.Sound) {done rest : List PlayerId} {p : PlayerId}
    (hl : s.registered = done ++ p :: rest) (ht : Processed s done t)
    (hrun : Player.process t p = .ok t') : Processed s (done ++ [p]) t' := by
  have hp : p ∈ s.registered := by simp [hl]
  have hnot := not_mem_of_split h.registered_nodup hl
  have hsame : t.players p = s.players p := ht.waiting p hnot
  obtain ⟨client, cipher, hc, -, hplayer, he, -⟩ := h.client_of_registered hp
  have hfound : t.clients (t.players p).client = some client := by
    rw [hsame, ht.others _ fun q hq howner => ?_]
    · exact hc
    · rw [h.client_injective (mem_of_split hl hq) hp howner] at hq
      exact hnot hq
  have hlock : t.lockPlayer client.player = some p := by
    rw [hplayer]
    apply Server.lockPlayer_of_registered
    rw [Server.registered, ht.world]
    exact hp
  obtain ⟨player, hm⟩ := advance_of_process hrun
  have hok := process_ok hm hfound he hlock
  obtain rfl := Except.ok.inj (hrun.symm.trans hok)
  rw [hsame] at hm
  rw [hsame] at hfound ⊢
  refine ⟨ht.world, ht.nextPlayer, ht.sessions, ?_, ?_, ?_, ?_, ?_⟩
  · intro q hq
    rcases List.mem_append.mp hq with hq | hq
    · exact ht.moves q hq
    · rw [List.mem_singleton.mp hq]
      exact ⟨player, hm⟩
  · intro q hq
    by_cases hqp : q = p
    · rw [hqp]
      exact Server.setPlayer_players_self ..
    · have hq' : q ∈ done := by simpa [hqp] using hq
      exact (Server.setPlayer_players_of_ne t _ hqp).trans (ht.player q hq')
  · intro q hq
    have hqp : q ≠ p := by
      rintro rfl
      exact hq (List.mem_append_right _ List.mem_cons_self)
    exact (Server.setPlayer_players_of_ne t _ hqp).trans
      (ht.waiting q fun hmem => hq (List.mem_append_left _ hmem))
  · intro q hq other cipher' hother he'
    by_cases hqp : q = p
    · subst hqp
      obtain rfl := Option.some.inj (hc.symm.trans hother)
      obtain rfl := Option.some.inj (he.symm.trans he')
      exact Server.setClient_clients_self ..
    · have hq' : q ∈ done := by simpa [hqp] using hq
      have hne : (s.players q).client ≠ (s.players p).client := fun howner =>
        hqp (h.client_injective (mem_of_split hl hq') hp howner)
      exact (Server.setClient_clients_of_ne _ _ hne).trans (ht.sent q hq' other cipher' hother he')
  · intro c hothers
    have hne : c ≠ (s.players p).client := fun heq =>
      hothers p (List.mem_append_right _ List.mem_cons_self) heq.symm
    exact (Server.setClient_clients_of_ne _ _ hne).trans
      (ht.others c fun q hq => hothers q (List.mem_append_left _ hq))

theorem processed_of_fold {s t : Server} (h : s.Sound)
    (hrun : s.registered.foldlM Player.process s = .ok t) : Processed s s.registered t := by
  refine foldlM_invariant (P := Processed s) hrun ?_ fun done p rest t t' hl ht hp =>
    ht.step h hl hp
  exact ⟨rfl, rfl, rfl, fun _ hp => (nomatch hp), fun _ hp => (nomatch hp), fun _ _ => rfl,
    fun _ hp => (nomatch hp), fun _ _ => rfl⟩

theorem quietClient_pushFrames {client : Client} {cipher : ISAACCipher}
    (he : client.encryptor = some cipher) (frames : List Client.OutFrame) :
    Server.QuietClient client (client.pushFrames cipher frames) := by
  rw [Client.pushFrames_eq client cipher frames he]
  exact ⟨rfl, rfl, rfl, rfl, fun _ => rfl, id⟩

/-- A phase relates all clients as it relates those of the registered players when it leaves
the others alone. -/
theorem rel_clients {R : Client → Client → Prop} (hrefl : ∀ client, R client client)
    {s t : Server} (h : s.Sound)
    (hregistered : ∀ p ∈ s.registered, ∀ client cipher,
      s.clients (s.players p).client = some client → client.encryptor = some cipher →
      ∃ client', t.clients (s.players p).client = some client' ∧ R client client')
    (hothers : ∀ c, (∀ p ∈ s.registered, (s.players p).client ≠ c) → t.clients c = s.clients c)
    (c : ClientId) : Option.Rel R (s.clients c) (t.clients c) := by
  by_cases howned : ∃ p ∈ s.registered, (s.players p).client = c
  · obtain ⟨p, hp, rfl⟩ := howned
    obtain ⟨client, cipher, hc, -, -, he, -⟩ := h.client_of_registered hp
    obtain ⟨client', hc', hq⟩ := hregistered p hp client cipher hc he
    rw [hc, hc']
    exact .some hq
  · rw [hothers c fun p hp howner => howned ⟨p, hp, howner⟩]
    cases s.clients c with
    | none => exact .none
    | some client => exact .some (hrefl client)

theorem Processed.quiet {s t : Server} (h : s.Sound) (ht : Processed s s.registered t) :
    s.Quiet t where
  nextPlayer := ht.nextPlayer
  lookup _ := by rw [ht.world]
  occupied := by rw [ht.world]
  clients := rel_clients .refl h (fun p hp client cipher hc he =>
    ⟨_, ht.sent p hp client cipher hc he, quietClient_pushFrames he _⟩) ht.others
  owner p := by
    by_cases hp : p ∈ s.registered
    · rw [ht.player p hp, processed_client]
    · rw [ht.waiting p hp]
  index p := by
    by_cases hp : p ∈ s.registered
    · rw [ht.player p hp, processed_index]
    · rw [ht.waiting p hp]
  list p := by
    left
    by_cases hp : p ∈ s.registered
    · rw [ht.player p hp, processed_localPlayers]
    · rw [ht.waiting p hp]

/-- The second phase, after some of the players. -/
structure Updated (t : Server) (done : List PlayerId) (u : Server) : Prop where
  world : u.world = t.world
  nextPlayer : u.nextPlayer = t.nextPlayer
  sessions : u.sessions = t.sessions
  player : ∀ p ∈ done, u.players p =
    { t.players p with localPlayers := keptPlayers t p ++ addedPlayers t p }
  waiting : ∀ p, p ∉ done → u.players p = t.players p
  sent : ∀ p ∈ done, (keptPlayers t p).length < 255 →
    ∃ body, UpdateBody t p body ∧ Delivered t u (t.players p).client [⟨81, body⟩]
  silent : ∀ p ∈ done, 255 ≤ (keptPlayers t p).length → ∀ client cipher,
    t.clients (t.players p).client = some client → client.encryptor = some cipher →
      u.clients (t.players p).client = some (client.drawKey cipher)
  others : ∀ c, (∀ p ∈ done, (t.players p).client ≠ c) → u.clients c = t.clients c

theorem Updated.sameView {t u : Server} {done : List PlayerId} (hu : Updated t done u)
    {p : PlayerId} (hp : p ∉ done) : SameView u t p where
  players q := by
    by_cases hq : q ∈ done
    · exact ⟨_, hu.player q hq⟩
    · exact ⟨_, hu.waiting q hq⟩
  own := hu.waiting p hp
  registered := by rw [Server.registered, Server.registered, hu.world]

/-- One update, in a state where the earlier ones are done. -/
theorem updatePlayer_step {t u u' : Server} (h : t.Sound) {done : List PlayerId} {p : PlayerId}
    (hp : p ∈ t.registered) (hnot : p ∉ done) (hdone : ∀ q ∈ done, q ∈ t.registered)
    (hu : Updated t done u) (hrun : updatePlayer u p = .ok u') :
    ∃ client cipher client', t.clients (t.players p).client = some client ∧
      client.encryptor = some cipher ∧
      u' = (u.setLocalPlayers p (keptPlayers t p ++ addedPlayers t p)).setClient
        (t.players p).client client' ∧
      ((keptPlayers t p).length < 255 → ∃ body, UpdateBody t p body ∧
        client' = client.pushFrame cipher ⟨81, body⟩) ∧
      (255 ≤ (keptPlayers t p).length → client' = client.drawKey cipher) := by
  have hview := hu.sameView hnot
  obtain ⟨client, cipher, hc, -, -, he, -⟩ := h.client_of_registered hp
  have hfound : u.clients (u.players p).client = some client := by
    rw [hview.own, hu.others _ fun q hq howner => ?_]
    · exact hc
    · rw [h.client_injective (hdone q hq) hp howner] at hq
      exact hnot hq
  refine ⟨client, cipher, ?_⟩
  by_cases hroom : (keptPlayers t p).length < 255
  · have hlist : (u.players p).localPlayers.length ≤ 255 := by
      rw [hview.own]
      exact (h.lists p).1
    obtain ⟨body, hbody, hok⟩ := updatePlayer_ok hfound he hlist
      (by rw [hview.keptPlayers_eq]; exact hroom)
    rw [hview.keptPlayers_eq, hview.addedPlayers_eq, hview.own] at hok
    refine ⟨_, hc, he, Except.ok.inj (hrun.symm.trans hok), fun _ => ?_, fun hfull => ?_⟩
    · exact ⟨body, hview.updateBody hbody, rfl⟩
    · exact absurd hroom (Nat.not_lt.mpr hfull)
  · have hfull := Nat.not_lt.mp hroom
    have hok := updatePlayer_full hfound he (by rw [hview.keptPlayers_eq]; exact hfull)
    have hnone : addedPlayers t p = [] := by
      rw [addedPlayers]
      cases t.registered with
      | nil => rfl
      | cons q qs => rw [additions, if_pos hfull]
    rw [hview.keptPlayers_eq, hview.own] at hok
    refine ⟨_, hc, he, ?_, fun hlt => absurd hlt hroom, fun _ => rfl⟩
    rw [hnone, List.append_nil]
    exact Except.ok.inj (hrun.symm.trans hok)

theorem Updated.step {t u u' : Server} (h : t.Sound) {done rest : List PlayerId} {p : PlayerId}
    (hl : t.registered = done ++ p :: rest) (hu : Updated t done u)
    (hrun : updatePlayer u p = .ok u') : Updated t (done ++ [p]) u' := by
  have hp : p ∈ t.registered := by simp [hl]
  have hnot := not_mem_of_split h.registered_nodup hl
  have hdone : ∀ q ∈ done, q ∈ t.registered := fun q hq => mem_of_split hl hq
  obtain ⟨client, cipher, client', hc, he, rfl, hsent, hsilent⟩ :=
    updatePlayer_step h hp hnot hdone hu hrun
  have hlast {q : PlayerId} (hq : q ∈ done ++ [p]) : q = p ∨ q ≠ p ∧ q ∈ done := by
    by_cases hqp : q = p
    · exact .inl hqp
    · exact .inr ⟨hqp, by simpa [hqp] using hq⟩
  have hapart {q : PlayerId} (hq : q ∈ done) (hqp : q ≠ p) :
      (t.players q).client ≠ (t.players p).client :=
    fun howner => hqp (h.client_injective (hdone q hq) hp howner)
  refine ⟨hu.world, hu.nextPlayer, hu.sessions, ?_, ?_, ?_, ?_, ?_⟩
  · intro q hq
    rcases hlast hq with rfl | ⟨hqp, hq⟩
    · rw [Server.setClient_players, Server.setLocalPlayers_self, hu.waiting q hnot]
    · exact (Server.setLocalPlayers_of_ne u _ hqp).trans (hu.player q hq)
  · intro q hq
    have hqp : q ≠ p := by
      rintro rfl
      exact hq (List.mem_append_right _ List.mem_cons_self)
    exact (Server.setLocalPlayers_of_ne u _ hqp).trans
      (hu.waiting q fun hmem => hq (List.mem_append_left _ hmem))
  · intro q hq hroom
    rcases hlast hq with rfl | ⟨hqp, hq⟩
    · obtain ⟨body, hbody, rfl⟩ := hsent hroom
      refine ⟨body, hbody, fun other cipher' hother he' => ?_⟩
      obtain rfl := Option.some.inj (hc.symm.trans hother)
      obtain rfl := Option.some.inj (he.symm.trans he')
      exact Server.setClient_clients_self ..
    · obtain ⟨body, hbody, hdelivered⟩ := hu.sent q hq hroom
      refine ⟨body, hbody, fun other cipher' hother he' => ?_⟩
      exact (Server.setClient_clients_of_ne _ _ (hapart hq hqp)).trans
        (hdelivered other cipher' hother he')
  · intro q hq hfull other cipher' hother he'
    rcases hlast hq with rfl | ⟨hqp, hq⟩
    · obtain rfl := Option.some.inj (hc.symm.trans hother)
      obtain rfl := Option.some.inj (he.symm.trans he')
      rw [← hsilent hfull]
      exact Server.setClient_clients_self ..
    · exact (Server.setClient_clients_of_ne _ _ (hapart hq hqp)).trans
        (hu.silent q hq hfull other cipher' hother he')
  · intro c hothers
    have hne : c ≠ (t.players p).client := fun heq =>
      hothers p (List.mem_append_right _ List.mem_cons_self) heq.symm
    exact (Server.setClient_clients_of_ne _ _ hne).trans
      (hu.others c fun q hq => hothers q (List.mem_append_left _ hq))

theorem updated_of_fold {t u : Server} (h : t.Sound)
    (hrun : t.registered.foldlM updatePlayer t = .ok u) : Updated t t.registered u := by
  refine foldlM_invariant (P := Updated t) hrun ?_ fun done p rest u u' hl hu hp =>
    hu.step h hl hp
  exact ⟨rfl, rfl, rfl, fun _ hp => (nomatch hp), fun _ _ => rfl, fun _ hp => (nomatch hp),
    fun _ hp => (nomatch hp), fun _ _ => rfl⟩

theorem keptPlayers_subset {s : Server} {p q : PlayerId} (h : q ∈ keptPlayers s p) :
    q ∈ (s.players p).localPlayers := List.mem_of_mem_filter h

theorem Updated.quiet {t u : Server} (h : t.Sound) (hu : Updated t t.registered u) :
    t.Quiet u where
  nextPlayer := hu.nextPlayer
  lookup _ := by rw [hu.world]
  occupied := by rw [hu.world]
  clients := by
    refine rel_clients .refl h (fun p hp client cipher hc he => ?_) hu.others
    by_cases hroom : (keptPlayers t p).length < 255
    · obtain ⟨body, -, hdelivered⟩ := hu.sent p hp hroom
      exact ⟨_, hdelivered client cipher hc he, quietClient_pushFrames he _⟩
    · exact ⟨_, hu.silent p hp (Nat.not_lt.mp hroom) client cipher hc he,
        ⟨rfl, rfl, rfl, rfl, fun _ => rfl, id⟩⟩
  owner p := by
    by_cases hp : p ∈ t.registered
    · rw [hu.player p hp]
    · rw [hu.waiting p hp]
  index p := by
    by_cases hp : p ∈ t.registered
    · rw [hu.player p hp]
    · rw [hu.waiting p hp]
  list p := by
    by_cases hp : p ∈ t.registered
    · right
      have hlength := addedPlayers_length_le (s := t) (p := p)
        ((List.length_filter_le _ _).trans (h.lists p).1)
      rw [hu.player p hp]
      refine ⟨by rw [List.length_append]; exact hlength, fun q hq => ?_⟩
      rcases List.mem_append.mp hq with hq | hq
      · exact .inl (keptPlayers_subset hq)
      · exact .inr (mem_additions hq).1
    · left
      rw [hu.waiting p hp]

/-! ## The whole tick -/

/-- The third phase. -/
def resetAll (u : Server) (players : List PlayerId) : Server :=
  players.foldl (fun s p => s.modifyPlayer p Player.reset) u

theorem resetAll_frame (u : Server) (players : List PlayerId) :
    (resetAll u players).clients = u.clients ∧ (resetAll u players).world = u.world ∧
      (resetAll u players).nextPlayer = u.nextPlayer ∧
      (resetAll u players).sessions = u.sessions := by
  induction players generalizing u with
  | nil => exact ⟨rfl, rfl, rfl, rfl⟩
  | cons p players ih => exact ih (u.modifyPlayer p Player.reset)

theorem resetAll_players (u : Server) (players : List PlayerId) (p : PlayerId) :
    (resetAll u players).players p =
      if p ∈ players then (u.players p).reset else u.players p := by
  induction players generalizing u with
  | nil => rfl
  | cons q players ih =>
      rw [resetAll, List.foldl_cons]
      change (resetAll (u.modifyPlayer q Player.reset) players).players p = _
      rw [ih]
      by_cases hpq : p = q
      · subst hpq
        rw [Server.modifyPlayer, Server.setPlayer_players_self, if_pos List.mem_cons_self]
        split <;> rfl
      · rw [Server.modifyPlayer, Server.setPlayer_players_of_ne u _ hpq]
        simp only [List.mem_cons, hpq, false_or]

/-- The players as the second phase finds them. -/
def afterProcess (s : Server) : Server :=
  { s with players := fun p =>
      if p ∈ s.registered then processed (s.players p) else s.players p }

theorem afterProcess_registered (s : Server) : (afterProcess s).registered = s.registered := rfl

theorem afterProcess_of_mem {s : Server} {p : PlayerId} (hp : p ∈ s.registered) :
    (afterProcess s).players p = processed (s.players p) := if_pos hp

theorem afterProcess_of_not_mem {s : Server} {p : PlayerId} (hp : p ∉ s.registered) :
    (afterProcess s).players p = s.players p := if_neg hp

/-- The entries a tick leaves in the list of a registered player. -/
def listed (s : Server) (p : PlayerId) : List PlayerId :=
  keptPlayers (afterProcess s) p ++ addedPlayers (afterProcess s) p

/-- What a tick does. -/
structure Ticked (s s' : Server) : Prop where
  world : s'.world = s.world
  nextPlayer : s'.nextPlayer = s.nextPlayer
  sessions : s'.sessions = s.sessions
  moves : ∀ p ∈ s.registered, ∃ player, advance (s.players p) = .ok player
  player : ∀ p ∈ s.registered,
    s'.players p = { (processed (s.players p)).reset with localPlayers := listed s p }
  absent : ∀ p, p ∉ s.registered → s'.players p = s.players p
  sent : ∀ p ∈ s.registered, (keptPlayers (afterProcess s) p).length < 255 →
    ∃ body, UpdateBody (afterProcess s) p body ∧
      Delivered s s' (s.players p).client (regionFrames (s.players p) ++ [⟨81, body⟩])
  others : ∀ c, (∀ p ∈ s.registered, (s.players p).client ≠ c) → s'.clients c = s.clients c

theorem Ticked.registered_eq {s s' : Server} (h : Ticked s s') : s'.registered = s.registered := by
  rw [Server.registered, Server.registered, h.world]

theorem Processed.sameView {s t : Server} (ht : Processed s s.registered t) (p : PlayerId) :
    SameView t (afterProcess s) p := by
  have hplayers (q : PlayerId) : t.players q = (afterProcess s).players q := by
    by_cases hq : q ∈ s.registered
    · rw [ht.player q hq, afterProcess_of_mem hq]
    · rw [ht.waiting q hq, afterProcess_of_not_mem hq]
  exact ⟨fun q => ⟨_, hplayers q⟩, hplayers p, by rw [Server.registered, ht.world]; rfl⟩

/-- The three phases of a tick. -/
theorem process_phases {s s' : Server} (h : s.Sound) (hrun : process s = .ok s') :
    ∃ t u, Processed s s.registered t ∧ Updated t t.registered u ∧
      t.registered = s.registered ∧ s' = resetAll u s.registered := by
  obtain ⟨t, hphase₁, hrun⟩ := FallibleLoop.bind_eq_ok.mp hrun
  obtain ⟨u, hphase₂, hrun⟩ := FallibleLoop.bind_eq_ok.mp hrun
  have ht := processed_of_fold h hphase₁
  have hregistered : t.registered = s.registered := by
    rw [Server.registered, Server.registered, ht.world]
  have hfold : t.registered.foldlM updatePlayer t = .ok u := by
    rw [hregistered]
    exact hphase₂
  have hu := updated_of_fold (h.quiet (ht.quiet h)) hfold
  exact ⟨t, u, ht, hu, hregistered, (Except.ok.inj hrun).symm⟩

theorem process_ticked {s s' : Server} (h : s.Sound) (hrun : process s = .ok s') :
    Ticked s s' := by
  obtain ⟨t, u, ht, hu, hregistered, rfl⟩ := process_phases h hrun
  obtain ⟨hclients, hworld, hnext, hsessions⟩ := resetAll_frame u s.registered
  have howner (p : PlayerId) : (t.players p).client = (s.players p).client := (ht.quiet h).owner p
  refine ⟨?_, ?_, ?_, ht.moves, ?_, ?_, ?_, ?_⟩
  · rw [hworld, hu.world, ht.world]
  · rw [hnext, hu.nextPlayer, ht.nextPlayer]
  · rw [hsessions, hu.sessions, ht.sessions]
  · intro p hp
    have hview := ht.sameView p
    rw [resetAll_players, if_pos hp, hu.player p (hregistered ▸ hp), hview.keptPlayers_eq,
      hview.addedPlayers_eq, ht.player p hp]
    rfl
  · intro p hp
    rw [resetAll_players, if_neg hp, hu.waiting p (hregistered ▸ hp), ht.waiting p hp]
  · intro p hp hroom
    have hview := ht.sameView p
    obtain ⟨body, hbody, hdelivered⟩ := hu.sent p (hregistered ▸ hp)
      (by rw [hview.keptPlayers_eq]; exact hroom)
    refine ⟨body, hview.updateBody hbody, ?_⟩
    rw [howner] at hdelivered
    have hboth := (ht.sent p hp).trans hdelivered
    intro client cipher hc he
    rw [hclients]
    exact hboth client cipher hc he
  · intro c hothers
    rw [hclients, hu.others c fun p hp => ?_, ht.others c hothers]
    rw [howner]
    exact hothers p (hregistered ▸ hp)

/-- Resetting the players is quiet. -/
theorem quiet_resetAll (u : Server) (players : List PlayerId) : u.Quiet (resetAll u players) := by
  induction players generalizing u with
  | nil => exact .refl u
  | cons p players ih =>
      have hstep : u.Quiet (u.modifyPlayer p Player.reset) :=
        Server.quiet_modifyPlayer (fun _ => rfl) (fun _ => rfl) fun _ => rfl
      exact hstep.trans (ih (u.modifyPlayer p Player.reset))

/-- A tick makes nobody come or go. -/
theorem quiet_process {s s' : Server} (h : s.Sound) (hrun : process s = .ok s') : s.Quiet s' := by
  obtain ⟨t, u, ht, hu, -, rfl⟩ := process_phases h hrun
  have hquiet := ht.quiet h
  exact (hquiet.trans (hu.quiet (h.quiet hquiet))).trans (quiet_resetAll u s.registered)

end World
end AsioRsps
