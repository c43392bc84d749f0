import AsioRsps.Reachability

/-!
# Ownership of players

Which client a player belongs to. In every run a player is put into the world by a read of its
own client and leaves it by the one cleanup of that client, and a client that has been cleaned
up stays logged out and changes nothing but itself.
-/
namespace AsioRsps
open LabelledRuns

namespace Server

/-! ## What an event of a client can change -/

/-- Nothing but the client and its own player. -/
structure Attributed (s : Server) (c : ClientId) (s' : Server) : Prop where
  others : ∀ d, d ≠ c → Option.Rel QuietClient (s.clients d) (s'.clients d)
  owner : ∀ p ∈ s.registered, (s'.players p).client = (s.players p).client
  joined : ∀ p ∈ s'.registered, p ∉ s.registered → (s'.players p).client = c
  left : ∀ p ∈ s.registered, p ∉ s'.registered → (s.players p).client = c ∧
    ∃ client client', s.clients c = some client ∧ client.disconnected = false ∧
      s'.clients c = some client' ∧ client'.disconnected = true

theorem Quiet.attributed {s s' : Server} (h : s.Quiet s') (c : ClientId) : s.Attributed c s' where
  others d _ := h.clients d
  owner p _ := h.owner p
  joined _ hp hnot := absurd ((mem_registered_congr h.lookup).mp hp) hnot
  left _ hp hnot := absurd ((mem_registered_congr h.lookup).mpr hp) hnot

/-- Quiet changes before and after do not matter. -/
theorem Attributed.between {s t u s' : Server} {c : ClientId} (h : t.Attributed c u)
    (hq : s.Quiet t) (hq' : u.Quiet s') : s.Attributed c s' where
  others d hd := by
    have hst := hq.clients d
    have htu := h.others d hd
    have hus := hq'.clients d
    generalize s.clients d = old at hst
    generalize t.clients d = a at hst htu
    generalize u.clients d = b at htu hus
    generalize s'.clients d = new at hus
    cases hst with
    | none =>
        cases htu
        exact hus
    | some hst =>
        cases htu with
        | some htu =>
            cases hus with
            | some hus => exact .some ((hst.trans htu).trans hus)
  owner p hp := by
    rw [hq'.owner, h.owner p ((mem_registered_congr hq.lookup).mpr hp), hq.owner]
  joined p hp hnot := by
    rw [hq'.owner]
    exact h.joined p ((mem_registered_congr hq'.lookup).mp hp)
      fun hold => hnot ((mem_registered_congr hq.lookup).mp hold)
  left p hp hnot := by
    obtain ⟨howner, client, client', hc, hd, hc', hd'⟩ :=
      h.left p ((mem_registered_congr hq.lookup).mpr hp)
        fun hnew => hnot ((mem_registered_congr hq'.lookup).mpr hnew)
    obtain ⟨old, hold, holdClient⟩ := hq.client_before hc
    obtain ⟨new, hnew, hnewClient⟩ := hq'.client hc'
    exact ⟨(hq.owner p).symm.trans howner, old, new, hold, holdClient.disconnected ▸ hd, hnew,
      hnewClient.disconnected.trans hd'⟩

/-- Only the client itself is replaced. -/
theorem attributed_setClient {s t : Server} (c : ClientId) (client : Client)
    (hclients : t.clients = s.clients) (hworld : t.world = s.world)
    (hplayers : ∀ p ∈ s.registered, (t.players p).client = (s.players p).client) :
    s.Attributed c (t.setClient c client) := by
  have hsame : (t.setClient c client).registered = s.registered := by
    rw [registered, registered, setClient_world, hworld]
  refine ⟨fun d hd => ?_, hplayers, fun p hp hnot => ?_, fun p hp hnot => ?_⟩
  · rw [setClient_clients_of_ne t client hd, hclients]
    exact rel_quietClient_refl _
  · exact absurd (hsame ▸ hp) hnot
  · exact absurd (hsame ▸ hp) hnot

/-! ## Leaving -/

theorem attributed_departure {s s' : Server} {c : ClientId} {client : Client}
    (hc : s.clients c = some client) (hd : client.disconnected = false)
    (h : Client.Departure s c client s') : s.Attributed c s' := by
  have hjoined (p : PlayerId) (hp : p ∈ s'.registered) (hnot : p ∉ s.registered) :
      (s'.players p).client = c := absurd (h.mem_registered hp) hnot
  cases h with
  | again hd' => exact absurd (hd.symm.trans hd') (by decide)
  | absent _ _ => exact attributed_setClient c _ rfl rfl fun _ _ => rfl
  | @present p index _ hstage hplayer hr hindex =>
      refine ⟨fun d hne => ?_, fun _ _ => rfl, hjoined, fun q hq hnot => ?_⟩
      · rw [setClient_clients_of_ne _ _ hne]
        exact rel_quietClient_refl _
      · obtain ⟨name, hname⟩ := mem_registered_iff.mp hq
        by_cases hne : name = client.username
        · subst hne
          obtain rfl := Option.some.inj (hr.lookup.symm.trans hname)
          exact ⟨hr.owner, client, client.closed, hc, hd, setClient_clients_self .., rfl⟩
        · have hkept : (s.world.players.erase client.username).lookup name = some q :=
            (AList.lookup_erase_ne hne).trans hname
          exact absurd (mem_registered_of_lookup hkept) hnot

theorem Closing.mem_registered {s s' : Server} {c : ClientId} (h : Closing c s s') (hs : s.Sound)
    {p : PlayerId} (hp : p ∈ s'.registered) : p ∈ s.registered := by
  cases h with
  | quiet h => exact (mem_registered_congr h.lookup).mp hp
  | leaves h hc _ hrun h' =>
      have hdeparture := Client.departure_of_disconnect (hs.quiet h) hc hrun
      exact (mem_registered_congr h.lookup).mp
        (hdeparture.mem_registered ((mem_registered_congr h'.lookup).mp hp))

theorem Closing.attributed {s s' : Server} {c : ClientId} (h : Closing c s s') (hs : s.Sound) :
    s.Attributed c s' := by
  cases h with
  | quiet h => exact h.attributed c
  | leaves h hc hd hrun h' =>
      have hdeparture := Client.departure_of_disconnect (hs.quiet h) hc hrun
      exact (attributed_departure hc hd hdeparture).between h h'

/-- A client that has been cleaned up is not cleaned up again. -/
theorem Closing.quiet_of_disconnected {s s' : Server} {c : ClientId} {client : Client}
    (h : Closing c s s') (hc : s.clients c = some client) (hd : client.disconnected = true) :
    s.Quiet s' := by
  cases h with
  | quiet h => exact h
  | leaves h hc' hd' _ _ =>
      obtain ⟨old, hold, hclient⟩ := h.client_before hc'
      obtain rfl := Option.some.inj (hc.symm.trans hold)
      rw [hclient.disconnected, hd] at hd'
      cases hd'

/-! ## Logging in -/

theorem attributed_outcome {s s' : Server} {c : ClientId} {client : Client}
    {cipher : ISAACCipher} {username : Name} (hs : s.Sound)
    (h : LoginHandler.Outcome s c client cipher username s') : s.Attributed c s' := by
  have hold (player : Player) (p : PlayerId) (hp : p ∈ s.registered) :
      ((s.newPlayer player).players p).client = (s.players p).client := by
    rw [newPlayer_players player (hs.fresh_of_registered hp)]
  cases h with
  | refused _ => exact attributed_setClient c _ rfl rfl fun _ _ => rfl
  | full _ _ => exact attributed_setClient c _ rfl rfl (hold _)
  | @entered index hname hfree =>
      refine ⟨fun d hne => ?_, hold _, fun p hp hnot => ?_, fun p hp hnot => ?_⟩
      · rw [register, setClient_clients_of_ne _ _ hne]
        exact rel_quietClient_refl _
      · rcases mem_registered_register hp with rfl | hreg
        · rw [register_players]
          exact congrArg Player.client (setPlayer_players_self ..)
        · exact absurd hreg hnot
      · obtain ⟨name, hlookup⟩ := mem_registered_iff.mp hp
        exact absurd (mem_registered_of_lookup (lookup_register_old hname hlookup)) hnot

theorem Turn.attributed {s s' : Server} {c : ClientId} {client : Client} {now : Int}
    {data : List BitStrings.Byte} (h : Turn s c client now data s') (hs : s.Sound) :
    s.Attributed c s' := by
  cases h with
  | closing h _ => exact h.attributed hs
  | handshake _ hq _ _ =>
      exact (attributed_setClient c _ rfl rfl fun _ _ => rfl).between hq (.refl _)
  | login _ _ _ hq _ _ _ _ ho =>
      exact (attributed_outcome (hs.quiet hq) ho).between hq (.refl s')

/-! ## Steps -/

/-- The client whose event it is. -/
def Event.client : Event → Option ClientId
  | .accept c => some c
  | .receive c _ _ _ => some c
  | .readFailed c => some c
  | .runPosted c => some c
  | .written c => some c
  | .writeFailed c => some c
  | .destroy c => some c
  | .tick => none
  | .reorder => none

/-- A step of the world is quiet, and any other one is up to its client; players join by reads
only. -/
structure Owned (s : Server) (e : Event) (s' : Server) : Prop where
  quiet : e.client = none → s.Quiet s'
  attributed : ∀ c, e.client = some c → s.Attributed c s'
  joined : ∀ p ∈ s'.registered, p ∉ s.registered →
    ∃ now gen data, e = .receive (s'.players p).client now gen data

theorem Quiet.owned {s s' : Server} {e : Event} (h : s.Quiet s') : s.Owned e s' where
  quiet _ := h
  attributed c _ := h.attributed c
  joined _ hp hnot := absurd ((mem_registered_congr h.lookup).mp hp) hnot

theorem Closing.owned {s s' : Server} {e : Event} {c : ClientId} (h : Closing c s s')
    (hs : s.Sound) (he : e.client = some c) : s.Owned e s' where
  quiet hnone := nomatch he.symm.trans hnone
  attributed d hd := by
    obtain rfl := Option.some.inj (he.symm.trans hd)
    exact h.attributed hs
  joined _ hp hnot := absurd (h.mem_registered hs hp) hnot

theorem Step.owned {s s' : Server} {e : Event} (h : Step s e s') (hs : s.Sound) :
    s.Owned e s' := by
  cases h with
  | @accept c hc =>
      refine ⟨fun hnone => absurd hnone (Option.some_ne_none c), fun d hd => ?_,
        fun p hp hnot => absurd hp hnot⟩
      obtain rfl := Option.some.inj hd
      exact attributed_setClient (t := { s with sessions := c :: s.sessions }) c {} rfl rfl
        fun _ _ => rfl
  | @receive c now gen data fuel st hdata _ hrun =>
      obtain ⟨client, hc⟩ := Client.exists_reader hrun
      have hread := Client.readIncomingData_outcome hc hdata hrun
      have hturn := (turn_of_read hs hc hread).attributed hs
      refine ⟨fun hnone => absurd hnone (Option.some_ne_none c), fun d hd => ?_,
        fun p hp hnot => ?_⟩
      · obtain rfl := Option.some.inj hd
        exact hturn
      · exact ⟨now, gen, data, by rw [hturn.joined p hp hnot]⟩
  | readFailed hrun => exact (closing_disconnect hrun).owned hs rfl
  | runPosted hrun => exact (closing_runPosted hrun).owned hs rfl
  | written _ _ hrun => exact (closing_written hrun).owned hs rfl
  | writeFailed _ _ hrun => exact (closing_writeFailed hrun).owned hs rfl
  | @destroy c client hc hd _ _ =>
      refine ⟨fun hnone => absurd hnone (Option.some_ne_none c), fun d hd => ?_,
        fun p hp hnot => absurd hp hnot⟩
      obtain rfl := Option.some.inj hd
      refine ⟨fun d hne => ?_, fun _ _ => rfl, fun p hp hnot => absurd hp hnot,
        fun p hp hnot => absurd hp hnot⟩
      rw [destroyClient_of_ne s hne]
      exact rel_quietClient_refl _
  | tick hrun => exact (World.quiet_process hs hrun).owned
  | reorder hperm => exact (quiet_reorder hperm).owned

theorem Owned.owner {s s' : Server} {e : Event} (h : s.Owned e s') {p : PlayerId}
    (hp : p ∈ s.registered) : (s'.players p).client = (s.players p).client := by
  cases he : e.client with
  | none => exact (h.quiet he).owner p
  | some c => exact (h.attributed c he).owner p hp

/-! ## Clients that have been cleaned up -/

/-- The cleanup of the client has run. -/
def LoggedOut (s : Server) (c : ClientId) : Prop :=
  ∃ client, s.clients c = some client ∧ client.disconnected = true ∧ client.stage = .loggedOut

theorem LoggedOut.quiet {s s' : Server} {c : ClientId} (h : s.LoggedOut c) (hq : s.Quiet s') :
    s'.LoggedOut c := by
  obtain ⟨client, hc, hd, hstage⟩ := h
  obtain ⟨client', hc', hclient⟩ := hq.client hc
  exact ⟨client', hc', hclient.disconnected.trans hd, hclient.stage.trans hstage⟩

theorem Turn.closing_of_loggedOut {s s' : Server} {c : ClientId} {client : Client} {now : Int}
    {data : List BitStrings.Byte} (h : Turn s c client now data s')
    (hstage : client.stage = .loggedOut) : Closing c s s' := by
  cases h with
  | closing h _ => exact h
  | handshake hearly _ _ _ => cases hstage.symm.trans hearly
  | login hearly _ _ _ _ _ _ _ _ => cases hstage.symm.trans hearly

/-- Nothing such a client does has any effect on the others or on the world. -/
theorem LoggedOut.quiet_step {s s' : Server} {c : ClientId} {e : Event} (h : s.LoggedOut c)
    (hs : s.Sound) (hstep : Step s e s') (he : e.client = some c) (hne : e ≠ .destroy c) :
    s.Quiet s' := by
  obtain ⟨client, hc, hd, hstage⟩ := h
  have hclosing (hclosing : Closing c s s') : s.Quiet s' := hclosing.quiet_of_disconnected hc hd
  cases hstep with
  | accept hunused =>
      obtain rfl := Option.some.inj he
      cases hc.symm.trans hunused.1
  | receive hdata _ hrun =>
      obtain rfl := Option.some.inj he
      exact hclosing ((turn_of_read hs hc
        (Client.readIncomingData_outcome hc hdata hrun)).closing_of_loggedOut hstage)
  | readFailed hrun =>
      obtain rfl := Option.some.inj he
      exact hclosing (closing_disconnect hrun)
  | runPosted hrun =>
      obtain rfl := Option.some.inj he
      exact hclosing (closing_runPosted hrun)
  | written _ _ hrun =>
      obtain rfl := Option.some.inj he
      exact hclosing (closing_written hrun)
  | writeFailed _ _ hrun =>
      obtain rfl := Option.some.inj he
      exact hclosing (closing_writeFailed hrun)
  | destroy _ _ _ _ =>
      obtain rfl := Option.some.inj he
      exact absurd rfl hne
  | tick _ => cases he
  | reorder _ => cases he

theorem LoggedOut.step {s s' : Server} {c : ClientId} {e : Event} (h : s.LoggedOut c)
    (hs : s.Sound) (hstep : Step s e s') (hne : e ≠ .destroy c) : s'.LoggedOut c := by
  cases he : e.client with
  | none => exact h.quiet ((hstep.owned hs).quiet he)
  | some d =>
      by_cases hd : c = d
      · subst hd
        exact h.quiet (h.quiet_step hs hstep he hne)
      · obtain ⟨client, hc, hdisconnected, hstage⟩ := h
        have hrel := ((hstep.owned hs).attributed d he).others c hd
        rw [hc] at hrel
        generalize hfound : s'.clients c = found at hrel
        cases hrel with
        | some hclient =>
            exact ⟨_, hfound, hclient.disconnected.trans hdisconnected, hclient.stage.trans hstage⟩

theorem registered_of_destroy {s s' : Server} {c : ClientId} (h : Step s (.destroy c) s') :
    s'.registered = s.registered := by
  cases h
  rfl

/-! ## Runs -/

/-- The cleanup of the client runs in the step. -/
def Cleaned (t : Taken Server Event) (c : ClientId) : Prop :=
  ∃ client client', t.before.clients c = some client ∧ client.disconnected = false ∧
    t.after.clients c = some client' ∧ client'.disconnected = true

/-- A read of the client, which has not been destroyed since, has put the player into the
world. -/
def RegisteredBy (trace : List (Taken Server Event)) (c : ClientId) (p : PlayerId) : Prop :=
  ∃ before u after, trace = before ++ u :: after ∧
    (∃ now gen data, u.label = .receive c now gen data) ∧ p ∉ u.before.registered ∧
    p ∈ u.after.registered ∧ ∀ v ∈ after, v.label ≠ .destroy c

theorem run_registeredBy {trace : List (Taken Server Event)} {s : Server}
    (h : Run Step initial trace s) :
      ∀ p ∈ s.registered, RegisteredBy trace (s.players p).client p := by
  induction h with
  | start => exact fun p hp => (nomatch hp)
  | @snoc trace s s' e hrun hstep ih =>
      intro p hp
      have hs := reachable_sound ⟨trace, hrun⟩
      have howned := hstep.owned hs
      by_cases hold : p ∈ s.registered
      · obtain ⟨before, u, after, rfl, hread, hnot, hmem, hkept⟩ := ih p hold
        rw [howned.owner hold]
        refine ⟨before, u, after ++ [⟨s, e, s'⟩], by rw [List.append_assoc]; rfl, hread, hnot,
          hmem, fun v hv => ?_⟩
        rcases List.mem_append.mp hv with hv | hv
        · exact hkept v hv
        · obtain rfl := List.mem_singleton.mp hv
          rintro rfl
          -- only a client that has been cleaned up is destroyed
          obtain ⟨client, -, hc, hlogged, -⟩ := hs.client_of_registered hold
          have hconnected := hs.connected hc (by rw [hlogged]; decide)
          cases hstep with
          | destroy hc' hd _ _ =>
              obtain rfl := Option.some.inj (hc.symm.trans hc')
              cases hconnected.symm.trans hd
      · exact ⟨trace, _, [], rfl, howned.joined p hp hold, hold, hp, fun v hv => (nomatch hv)⟩

/-- A player leaves the world in the cleanup of the client that registered it, and the cleanup
is the last thing a client does to anything but itself. -/
theorem run_ownership {trace earlier later : List (Taken Server Event)} {t : Taken Server Event}
    {s : Server} (h : Run Step initial trace s) (ht : trace = earlier ++ t :: later) :
    (∀ p ∈ t.before.registered, p ∉ t.after.registered →
      ∃ c, t.label.client = some c ∧ Cleaned t c ∧ RegisteredBy earlier c p) ∧
    ∀ c, Cleaned t c → t.after.LoggedOut c ∧
      ∀ between u rest, later = between ++ u :: rest → (∀ v ∈ between, v.label ≠ .destroy c) →
        u.before.LoggedOut c ∧ ¬ Cleaned u c ∧
        (u.label ≠ .destroy c → u.after.LoggedOut c) ∧
        (u.label.client = some c → ∀ p, p ∈ u.after.registered ↔ p ∈ u.before.registered) := by
  obtain ⟨hearlier, hstep, hlater⟩ := h.split ht
  have hs := reachable_sound ⟨earlier, hearlier⟩
  have hs' := (step_sound_live hs hstep).1
  have howned := hstep.owned hs
  refine ⟨fun p hp hnot => ?_, fun c hcleaned => ?_⟩
  · cases he : t.label.client with
    | none => exact absurd ((mem_registered_congr (howned.quiet he).lookup).mpr hp) hnot
    | some c =>
        obtain ⟨howner, hclients⟩ := (howned.attributed c he).left p hp hnot
        refine ⟨c, rfl, hclients, ?_⟩
        rw [← howner]
        exact run_registeredBy hearlier p hp
  · have hout : t.after.LoggedOut c := by
      obtain ⟨_, client', _, _, hc', hd'⟩ := hcleaned
      exact ⟨client', hc', hd', (hs'.clients c client' hc').disconnected.mp hd'⟩
    refine ⟨hout, fun between u rest hsplit hkept => ?_⟩
    obtain ⟨hbetween, hnext, -⟩ := hlater.split hsplit
    have hpreserved (s : Server) (e : Event) (s' : Server) (hsound : s.Sound ∧ s.LoggedOut c)
        (hv : Step s e s') (hne : e ≠ .destroy c) : s'.Sound ∧ s'.LoggedOut c :=
      ⟨(step_sound_live hsound.1 hv).1, hsound.2.step hsound.1 hv hne⟩
    obtain ⟨hu, hbefore⟩ := hbetween.guarded ⟨hs', hout⟩ hpreserved hkept
    refine ⟨hbefore, ?_, fun hne => hbefore.step hu hnext hne, fun he p => ?_⟩
    · rintro ⟨client, -, hc, hd, -⟩
      obtain ⟨client', hc', hd', -⟩ := hbefore
      obtain rfl := Option.some.inj (hc.symm.trans hc')
      cases hd.symm.trans hd'
    · by_cases hne : u.label = .destroy c
      · rw [hne] at hnext
        rw [registered_of_destroy hnext]
      · exact mem_registered_congr (hbefore.quiet_step hu hnext he hne).lookup

/-- A client that has logged in and whose connection is then lost. -/
theorem run_ownership_lost : ∃ earlier t, Run Step initial (earlier ++ [t]) t.after ∧
    t.label = .readFailed 0 ∧ Cleaned t 0 ∧
    (∀ p ∈ t.before.registered, p ∉ t.after.registered →
      ∃ c, t.label.client = some c ∧ Cleaned t c ∧ RegisteredBy earlier c p) ∧
    t.after.LoggedOut 0 := by
  obtain ⟨trace, s, client, hrun, hc, hstage, -⟩ := exists_run_playing
  have hs := reachable_sound ⟨trace, hrun⟩
  obtain ⟨s', hdisconnect, hdeparture⟩ := Client.disconnect_outcome hs hc
  have hd := hs.connected hc (by rw [hstage]; decide)
  have hcleaned : Cleaned ⟨s, .readFailed 0, s'⟩ 0 := by
    refine ⟨client, client.closed, hc, hd, ?_, rfl⟩
    cases hdeparture with
    | again hd' => cases hd.symm.trans hd'
    | absent _ _ => exact setClient_clients_self ..
    | present _ _ _ _ _ => exact setClient_clients_self ..
  have hlast := hrun.snoc (.readFailed hdisconnect)
  obtain ⟨hleft, hcleanups⟩ := run_ownership hlast rfl
  exact ⟨trace, _, hlast, rfl, hcleaned, hleft, (hcleanups 0 hcleaned).1⟩

end Server
end AsioRsps
