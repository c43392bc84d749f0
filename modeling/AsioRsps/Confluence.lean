import AsioRsps.Exchanges
import AsioRsps.FloodControl
import AsioRsps.Footprints
import AsioRsps.Progress

/-!
# The order of events

Between two ticks, what clients that stay logged in do can be taken in every order that leaves
the events of each client in theirs: the server ends in the same state.
-/
namespace AsioRsps
open BitStrings (Byte)
open StreamBuffer LabelledRuns Lockstep
open FallibleLoop (bind_eq_ok map_eq_ok)

namespace Server

variable {s t : Server} {c : ClientId}

/-! ## Calm steps -/

def LoggedIn (s : Server) (c : ClientId) : Prop :=
  ∃ client, s.clients c = some client ∧ client.stage = .loggedIn

/-- A step of a client that is logged in before and after it. -/
structure Calm (s : Server) (e : Event) (s' : Server) : Prop where
  step : Step s e s'
  client : ∃ c, e.client = some c ∧ s.LoggedIn c ∧ s'.LoggedIn c

theorem not_loggedIn_of_disconnect (hs : s.Sound) (h : Client.disconnect s c = .ok t) :
    ¬ t.LoggedIn c := by
  rintro ⟨client', hc', hstage⟩
  obtain ⟨client, hlock, -⟩ := bind_eq_ok.mp h
  have hc := clients_of_lockClient hlock
  have hclosed {u : Server} (hu : (u.setClient c client.closed).clients c = some client') :
      False := by
    rw [setClient_clients_self] at hu
    obtain rfl := Option.some.inj hu
    cases hstage
  cases Client.departure_of_disconnect hs hc h with
  | again hd =>
      obtain rfl := Option.some.inj (hc.symm.trans hc')
      have hconnected := hs.connected hc (by rw [hstage]; decide)
      cases hd.symm.trans hconnected
  | absent _ _ => exact hclosed hc'
  | present _ _ _ _ _ => exact hclosed hc'

theorem loggedIn_of_modifyClient {f : Client → Client}
    (hf : ∀ client, (f client).stage = client.stage) (h : (s.modifyClient c f).LoggedIn c) :
    s.LoggedIn c := by
  obtain ⟨client', hc', hstage⟩ := h
  cases hc : s.clients c with
  | none =>
      rw [modifyClient, hc, hc] at hc'
      cases hc'
  | some client =>
      rw [modifyClient_eq hc, setClient_clients_self] at hc'
      obtain rfl := Option.some.inj hc'
      exact ⟨client, hc, (hf client).symm.trans hstage⟩

theorem Beside.loggedIn {p : PlayerId} {u v : Server} (h : Beside s t c p u v) : v.LoggedIn c := by
  obtain ⟨client, -, hv, hstage, -⟩ := h.lockClient
  exact ⟨client, clients_of_lockClient hv, hstage⟩

end Server

namespace Client
open Server

variable {s s' t : Server} {c : ClientId} {p : PlayerId} {client : Client}

theorem beside_counted (hagree : Agrees c p s t) (hc : s.clients c = some client)
    (hstage : client.stage = .loggedIn) (hplayer : client.player = some p) (now : Int) :
    Beside s t c p (counted s c client now) (counted t c client now) := by
  have hquiet := quietClient_countPacket client now
  exact (beside_start hagree hc hstage hplayer).setClient (hquiet.stage.trans hstage)
    (hquiet.player.trans hplayer)

theorem beside_read (hs : s.Sound) (hagree : Agrees c p s t) (hc : s.clients c = some client)
    (hstage : client.stage = .loggedIn) (hplayer : client.player = some p) {fuel : Nat}
    {now gen : Int} {data : List Byte} {st : Incoming}
    (h : readIncomingData fuel s c now gen data = some (.ok st)) (hlast : st.server.LoggedIn c) :
    ∃ st', readIncomingData fuel t c now gen data = some (.ok st') ∧
      Beside s t c p st.server st'.server := by
  have hc' := hagree.client.trans hc
  simp only [readIncomingData, handleIncomingData, hc] at h
  simp only [readIncomingData, handleIncomingData, hc']
  split at h
  · obtain ⟨server, hrun, rfl⟩ := map_eq_ok.mp (Option.some.inj h)
    exact absurd hlast (not_loggedIn_of_disconnect (hs.quiet (quiet_counted hc now)) hrun)
  · rename_i hflood
    rw [if_neg hflood]
    obtain ⟨r, hr, hst⟩ := Option.map_eq_some_iff.mp h
    obtain ⟨last, rfl, rfl⟩ := map_eq_ok.mp hst
    have hstart : Abreast s t c p
        { server := counted s c client now, inStream := ofData data }
        { server := counted t c client now, inStream := ofData data } :=
      ⟨beside_counted hagree hc hstage hplayer now, rfl⟩
    obtain ⟨last', hrun', hlast'⟩ :=
      run_alike (fun _ _ => alike_packetIteration hagree gen) hstart hr
    exact ⟨_, congrArg _ hrun', hlast'.server⟩

/-- Work on the record of the client alone, whatever else is on the server. -/
structure Records (c : ClientId) (client : Client) (f : Server → Except Fault Server)
    (new : Client) : Prop where
  stage : new.stage = client.stage
  player : new.player = client.player
  result : ∀ s, s.clients c = some client → f s = .ok (s.setClient c new)

theorem Records.beside {f : Server → Except Fault Server} {new : Client}
    (h : Records c client f new) (hagree : Agrees c p s t) (hc : s.clients c = some client)
    (hstage : client.stage = .loggedIn) (hplayer : client.player = some p) (hf : f s = .ok s') :
    ∃ t', f t = .ok t' ∧ Beside s t c p s' t' := by
  obtain rfl := Except.ok.inj ((h.result s hc).symm.trans hf)
  exact ⟨_, h.result t (hagree.client.trans hc),
    (beside_start hagree hc hstage hplayer).setClient (h.stage.trans hstage)
      (h.player.trans hplayer)⟩

theorem records_runPosted (hs : s.Sound) (hc : s.clients c = some client)
    (h : runPosted s c = .ok s') (hlast : s'.LoggedIn c) :
    ∃ new, Records c client (fun s => runPosted s c) new := by
  cases hstrand : client.strand with
  | nil =>
      refine ⟨client, rfl, rfl, fun s hc => ?_⟩
      rw [setClient_eq_self hc]
      exact runPosted_nil hc hstrand
  | cons posted strand =>
      cases posted with
      | push data =>
          cases hpush : push { client with strand } data with
          | error e =>
              simp only [runPosted, lockClient_eq hc, bind, Except.bind, hstrand, hpush] at h
              cases h
          | ok new =>
              have hquiet := quietClient_push hpush
              exact ⟨new, hquiet.stage, hquiet.player, fun s hc => runPosted_push hc hstrand hpush⟩
      | requestDisconnect =>
          have hpending : QuietClient client { client with strand, pendingDisconnect := true } :=
            ⟨rfl, rfl, rfl, rfl, id, id⟩
          rw [runPosted_request hc hstrand] at h
          split at h
          · have hquiet := hs.quiet (quiet_setClient hc hpending)
            exact absurd hlast (not_loggedIn_of_disconnect hquiet h)
          · rename_i hbusy
            refine ⟨_, hpending.stage, hpending.player, fun s hc => ?_⟩
            rw [runPosted_request hc hstrand, if_neg hbusy]

theorem records_written (hs : s.Sound) (hc : s.clients c = some client)
    (h : written s c = .ok s') (hlast : s'.LoggedIn c) :
    ∃ new, Records c client (fun s => written s c) new := by
  cases hqueue : client.writeQueue with
  | nil =>
      rw [written_nil hc hqueue] at h
      cases h
  | cons front writeQueue =>
      rw [written_eq hc hqueue] at h
      dsimp only at h
      split at h
      · rename_i hmore
        obtain ⟨new, hwrite, rfl⟩ := map_eq_ok.mp h
        have hquiet := quietClient_doWrite hwrite
        refine ⟨new, hquiet.stage, hquiet.player, fun s hc => ?_⟩
        rw [written_eq hc hqueue]
        dsimp only
        rw [if_pos hmore, hwrite]
        rfl
      · rename_i hidle
        split at h
        · have hdone : QuietClient client { client with
              writeQueue, completedWrites := client.completedWrites + 1, writing := false } :=
            ⟨rfl, rfl, rfl, rfl, id, id⟩
          obtain ⟨t, hrun, rfl⟩ := map_eq_ok.mp h
          have hclosed := not_loggedIn_of_disconnect (hs.quiet (quiet_setClient hc hdone)) hrun
          refine absurd (loggedIn_of_modifyClient ?_ hlast) hclosed
          exact fun _ => rfl
        · rename_i hnot
          refine ⟨{ client with
            writeQueue, completedWrites := client.completedWrites + 1, writing := false }, rfl, rfl,
            fun s hc => ?_⟩
          rw [written_eq hc hqueue]
          dsimp only
          rw [if_neg hidle, if_neg hnot]

end Client

namespace Server

variable {s s' t : Server} {e : Event} {c : ClientId} {p : PlayerId}

/-- A calm step can be taken wherever its client finds the same, and does the same there. -/
theorem Calm.beside (h : Calm s e s') (hs : s.Sound) (he : e.client = some c)
    (hp : s.Steers (some c) p) (hagree : Agrees c p s t) :
    ∃ t', Calm t e t' ∧ Beside s t c p s' t' := by
  obtain ⟨d, hd, ⟨client, hc, hstage⟩, hlast⟩ := h.client
  obtain rfl : c = d := Option.some.inj (he.symm.trans hd)
  obtain ⟨_, found, heq, hfound, hplayer⟩ := hp
  obtain rfl := Option.some.inj heq
  obtain rfl := Option.some.inj (hc.symm.trans hfound)
  have hbefore : t.LoggedIn c := ⟨client, hagree.client.trans hc, hstage⟩
  suffices hstep : ∃ t', Step t e t' ∧ Beside s t c p s' t' by
    obtain ⟨t', hstep, hbeside⟩ := hstep
    exact ⟨t', ⟨hstep, c, he, hbefore, hbeside.loggedIn⟩, hbeside⟩
  cases h.step with
  | @receive c' now gen data fuel st hdata hlen hread =>
      obtain rfl := Option.some.inj he
      obtain ⟨st', hread', hbeside⟩ := Client.beside_read hs hagree hc hstage hplayer hread hlast
      exact ⟨_, .receive hdata hlen hread', hbeside⟩
  | runPosted hrun =>
      obtain rfl := Option.some.inj he
      obtain ⟨new, hnew⟩ := Client.records_runPosted hs hc hrun hlast
      obtain ⟨t', hrun', hbeside⟩ := hnew.beside hagree hc hstage hplayer hrun
      exact ⟨t', .runPosted hrun', hbeside⟩
  | written hc' hpending hrun =>
      obtain rfl := Option.some.inj he
      obtain ⟨new, hnew⟩ := Client.records_written hs hc hrun hlast
      obtain ⟨t', hrun', hbeside⟩ := hnew.beside hagree hc hstage hplayer hrun
      exact ⟨t', .written (hagree.client.trans hc') hpending hrun', hbeside⟩
  | accept hunused =>
      obtain rfl := Option.some.inj he
      cases hunused.1.symm.trans hc
  | readFailed hrun =>
      obtain rfl := Option.some.inj he
      exact absurd hlast (not_loggedIn_of_disconnect hs hrun)
  | writeFailed hc' _ hrun =>
      obtain rfl := Option.some.inj he
      obtain ⟨found, hlock, hrun⟩ := bind_eq_ok.mp hrun
      have hdone : QuietClient found
          { found with completedWrites := found.completedWrites + 1 } :=
        ⟨rfl, rfl, rfl, rfl, id, id⟩
      have hquiet := quiet_setClient (clients_of_lockClient hlock) hdone
      exact absurd hlast (not_loggedIn_of_disconnect (hs.quiet hquiet) hrun)
  | destroy hc' hd _ _ =>
      obtain rfl := Option.some.inj he
      obtain ⟨_, hgone, -⟩ := hlast
      cases (destroyClient_self ..).symm.trans hgone
  | tick _ => cases he
  | reorder _ => cases he

/-- In the states of a run, calm steps of different clients can be exchanged. -/
theorem exchangeable_calm :
    Exchangeable (fun s e s' => Reachable Step initial s ∧ Calm s e s') Event.client := by
  intro s a t b u ⟨hreach, ha⟩ ⟨hreach', hb⟩ hne
  obtain ⟨c, hac, ⟨client, hc, hstage⟩, -⟩ := ha.client
  obtain ⟨d, hbd, ⟨other, hd, hstage'⟩, -⟩ := hb.client
  have hs := reachable_sound hreach
  have hs' := reachable_sound hreach'
  obtain ⟨p, hp, -⟩ := (hs.clients c client hc).session hstage
  obtain ⟨q, hq, -⟩ := (hs'.clients d other hd).session hstage'
  have hcd : c ≠ d := fun heq => hne (hac.trans (heq ▸ hbd.symm))
  have hsteers : s.Steers (some c) p := steers_self hc hp
  -- the first step is the client's own business
  obtain ⟨_, -, new, m, -, -, rfl, -⟩ := ha.beside hs hac hsteers ⟨rfl, rfl, rfl⟩
  rw [put_clients_of_ne s c new p m hcd.symm] at hd
  have hsteers' : s.Steers (some d) q := steers_self hd hq
  have hpq : p ≠ q := by
    rintro rfl
    have howning := reachable_owning hreach
    exact hcd ((howning c p hsteers).2.symm.trans (howning d p hsteers').2)
  have hback : Agrees d q (s.put c new p m) s := (agrees_put hcd.symm hpq.symm s new m).symm
  obtain ⟨t', hb', new', m', -, -, rfl, rfl⟩ :=
    hb.beside hs' hbd (steers_self ((put_clients_of_ne s c new p m hcd.symm).trans hd) hq) hback
  obtain ⟨u', ha', new₂, m₂, -, -, hsame, rfl⟩ :=
    ha.beside hs hac hsteers (agrees_put hcd hpq s new' m')
  refine ⟨_, ⟨hreach, hb'⟩, hreach.snoc hb'.step, ?_⟩
  rw [hsame, put_comm s c new₂ p m₂ hcd new' hpq m']
  exact ha'

/-- What clients that stay logged in do between two ticks can be taken in every order that leaves
the events of each client in theirs: all of it goes through as before, and the server ends in the
same state. -/
theorem run_reordered {s s' : Server} {trace : List (Taken Server Event)} {events : List Event}
    (hs : Reachable Step initial s) (hrun : Run Calm s trace s')
    (hsame : ∀ who, share Event.client who events = share Event.client who (labels trace)) :
    ∃ trace', Run Calm s trace' s' ∧ labels trace' = events :=
  hrun.reordered_of_invariant (fun _ _ _ hreach hcalm => hreach.snoc hcalm.step) exchangeable_calm
    hs hsame

/-! ## Two clients -/

variable {client : Client}

/-- A packet that the client may send next. -/
theorem Fresh.exists_calm (h : s.Fresh c client p) (hs : s.Sound) :
    ∃ e s', e.client = some c ∧ Calm s e s' := by
  obtain ⟨_, -, -, -, hdec, -⟩ := (hs.clients c client h.found).session h.stage
  obtain ⟨cipher, hcipher⟩ := Option.isSome_iff_exists.mp hdec
  let r : Client.Read := ⟨1, 0, Client.idleData cipher 1⟩
  have hlock : s.lockPlayer client.player = some p := by
    rw [h.player]
    exact lockPlayer_of_registered h.registered
  have hflood := (countPacket_calm (Nat.lt_of_le_of_lt h.few (by decide)) 1).1
  have hlength : r.data.length = 1 := Client.idleData_length cipher 1
  obtain ⟨fuel, st, hread, -, hfound, -⟩ := Client.readIncomingData_aligned (r := r) h.found
    h.stage hcipher hlock
    (fun pk hpk => List.eq_of_mem_replicate hpk ▸ Client.idlePacket_wellFormed) hflood rfl
  have hdata : r.data ≠ [] := List.ne_nil_of_length_pos (hlength ▸ Nat.one_pos)
  refine ⟨.receive c 1 0 r.data, st.server, rfl, .receive hdata (hlength ▸ by decide) hread, c, rfl,
    ⟨client, h.found, h.stage⟩, _, hfound, ?_⟩
  exact (Client.quietClient_countPacket client 1).stage.trans h.stage

theorem Fresh.calm (h : s.Fresh c client p) (hs : s.Sound) {d : ClientId} (he : e.client = some d)
    (hne : c ≠ d) (hcalm : Calm s e s') : s'.Fresh c client p := by
  obtain ⟨d', hd, ⟨other, hother, hstage⟩, -⟩ := hcalm.client
  obtain rfl : d = d' := Option.some.inj (he.symm.trans hd)
  obtain ⟨q, hq, -⟩ := (hs.clients d other hother).session hstage
  obtain ⟨_, -, new, m, -, -, rfl, -⟩ :=
    hcalm.beside hs he (steers_self hother hq) ⟨rfl, rfl, rfl⟩
  have hposition : ((s.put d new q m).players p).position = (s.players p).position := by
    by_cases hpq : p = q
    · subst hpq
      rw [put_players_self]
    · rw [put_players_of_ne s d new q m hpq]
  exact { h with
    found := (put_clients_of_ne s d new q m hne).trans h.found
    position := hposition.trans h.position }

/-- Packets of two clients come the other way round. -/
theorem run_reordered_pair : ∃ s s' e₀ e₁ trace trace', e₀.client = some 0 ∧ e₁.client = some 1 ∧
    Run Calm s trace s' ∧ labels trace = [e₀, e₁] ∧ Run Calm s trace' s' ∧
    labels trace' = [e₁, e₀] := by
  obtain ⟨s, hfilled, hfresh⟩ := exists_fresh 2 (by decide)
  have hs := reachable_sound hfilled.reachable
  obtain ⟨client₀, p₀, h₀⟩ := hfresh 0 (by decide)
  obtain ⟨client₁, p₁, h₁⟩ := hfresh 1 (by decide)
  obtain ⟨e₀, t, he₀, hcalm₀⟩ := h₀.exists_calm hs
  have ht := reachable_sound (hfilled.reachable.snoc hcalm₀.step)
  obtain ⟨e₁, s', he₁, hcalm₁⟩ := (h₁.calm hs he₀ (by decide) hcalm₀).exists_calm ht
  have hrun : Run Calm s [⟨s, e₀, t⟩, ⟨t, e₁, s'⟩] s' := (Run.start.snoc hcalm₀).snoc hcalm₁
  have hsame (who : Option ClientId) : share Event.client who [e₁, e₀] =
      share Event.client who (labels [⟨s, e₀, t⟩, ⟨t, e₁, s'⟩]) := by
    simp only [labels, share, List.map_cons, List.map_nil, List.filter_cons, List.filter_nil, he₀,
      he₁, decide_eq_true_eq]
    by_cases hwho : some 0 = who
    · simp [← hwho]
    · simp only [hwho, if_false]
  obtain ⟨trace', hrun', hlabels⟩ := run_reordered hfilled.reachable hrun hsame
  exact ⟨s, s', e₀, e₁, _, trace', he₀, he₁, hrun, rfl, hrun', hlabels⟩

end Server
end AsioRsps
