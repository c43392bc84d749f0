import AsioRsps.Ownership
import AsioRsps.RateCounts

/-!
# Flood control

The rate limit counts the reads of a client, not its packets. As long as no read holds two
whole packets every packet that is dispatched has been counted, and no window dispatches more
than the limit. The read that exceeds the limit dispatches nothing and disconnects the client,
for whom nothing is dispatched any more. A read with two packets in it counts once.
-/
namespace AsioRsps
open BitStrings (Byte)
open StreamBuffer FallibleLoop LabelledRuns

namespace Client

/-! ## The packets of one read -/

/-- A whole packet is at the front. -/
def Whole (cipher : ISAACCipher) (bytes : List Byte) : Prop :=
  ∃ h, readHeader cipher bytes = some h ∧ h.packetLength ≤ h.rest.length

/-- There is a second whole packet behind what the first one takes. `live` says whether the
client has a player. -/
def Double (live : Bool) (cipher : ISAACCipher) (bytes : List Byte) : Prop :=
  ∃ h k, readHeader cipher bytes = some h ∧ h.packetLength ≤ h.rest.length ∧
    packetSpan live h.packetOpcode h.packetLength h.rest.length = some k ∧
    Whole cipher.getNextKey.2 (h.rest.drop k)

theorem dispatched_drawKey (effects : List Effect) :
    dispatched (effects ++ [.drawKey]) = dispatched effects := by
  rw [dispatched_append]
  exact List.append_nil _

/-- Without a whole packet at the front the loop dispatches nothing more. -/
theorem dispatched_of_not_whole {c : ClientId} {gen : Int} {client : Client}
    {cipher : ISAACCipher} {bytes : List Byte} {st st' : Incoming}
    (hst : Between c client cipher bytes st) (hnot : ¬ Whole cipher bytes)
    (h : Ends (packetIteration c gen) st (.ok st')) :
    dispatched st'.effects = dispatched st.effects := by
  by_cases hnil : bytes = []
  · have hdone : packetIteration c gen st = .ok (.done st) :=
      packetIteration_nil (hst.rest.trans hnil)
    obtain rfl := Except.ok.inj (h.unique (ends_of_done hdone))
    rfl
  cases hh : readHeader cipher bytes with
  | none =>
      obtain ⟨t, hdone, heffects⟩ := packetIteration_noHeader gen hst hnil hh
      obtain rfl := Except.ok.inj (h.unique (ends_of_done hdone))
      rw [heffects, dispatched_drawKey]
  | some header =>
      have hshort : header.rest.length < header.packetLength :=
        Nat.lt_of_not_le fun hle => hnot ⟨header, hh, hle⟩
      have hbehind := (ends_iff_of_yields (packetIteration_short gen hst hh hshort) _).mp h
      by_cases hempty : header.rest = []
      · have hrest := (behindHeader_rest hst hh).1.trans hempty
        have hdone : packetIteration c gen (behindHeader c client cipher header st) =
            .ok (.done (behindHeader c client cipher header st)) := packetIteration_nil hrest
        obtain rfl := Except.ok.inj (hbehind.unique (ends_of_done hdone))
        exact dispatched_drawKey st.effects
      · -- with part of the payload there the loop never ends
        have hfixed : Yields (packetIteration c gen) _ _ :=
          packetIteration_fixed hst hh hempty hshort
        exact absurd ⟨_, hbehind⟩ (not_halts_of_fixed hfixed)

theorem dispatch_one {c : ClientId} {st st' : Incoming} (h : dispatch c st = .ok st') :
    (dispatched st'.effects).length ≤ (dispatched st.effects).length + 1 := by
  simp only [dispatch] at h
  split at h
  · obtain ⟨⟨server, inStream⟩, -, h⟩ := bind_eq_ok.mp h
    obtain rfl := Except.ok.inj h
    have hone (op : Int) (payload : List Byte) :
        (dispatched [.dispatch op payload]).length = 1 := rfl
    rw [dispatched_append, List.length_append, hone]
  · obtain rfl := Except.ok.inj h
    exact Nat.le_succ _

/-- Without a second whole packet the loop dispatches at most one. -/
theorem dispatched_of_not_double {c : ClientId} {gen : Int} {client : Client}
    {cipher : ISAACCipher} {bytes : List Byte} {st st' : Incoming}
    (hst : Between c client cipher bytes st)
    (hnot : ¬ Double (st.server.lockPlayer client.player).isSome cipher bytes)
    (h : Ends (packetIteration c gen) st (.ok st')) :
    (dispatched st'.effects).length ≤ (dispatched st.effects).length + 1 := by
  by_cases hwhole : Whole cipher bytes
  · obtain ⟨header, hh, hle⟩ := hwhole
    obtain ⟨hyield, hfail⟩ := packet_cases gen hst hh hle
    cases hk : packetSpan (st.server.lockPlayer client.player).isSome header.packetOpcode
        header.packetLength header.rest.length with
    | none =>
        obtain ⟨e, herror⟩ := hfail hk
        cases h.unique (ends_of_error herror)
    | some k =>
        obtain ⟨t, hstep, ht, -⟩ := hyield k hk
        have hsecond : ¬ Whole cipher.getNextKey.2 (header.rest.drop k) :=
          fun hwhole => hnot ⟨header, k, hh, hle, hk, hwhole⟩
        rw [dispatched_of_not_whole ht hsecond ((ends_iff_of_yields hstep _).mp h)]
        -- the first iteration is the header and one dispatch
        have hfirst : dispatch c (behindHeader c client cipher header st) = .ok t := by
          obtain ⟨u, hu, hut⟩ := map_eq_ok.mp ((packetIteration_header hst hh).symm.trans hstep)
          cases hut
          exact hu
        have hone := dispatch_one hfirst
        rwa [behindHeader, dispatched_drawKey] at hone
  · rw [dispatched_of_not_whole hst hwhole h]
    exact Nat.le_succ _

/-- Some read past the limit: it dispatches nothing and leaves the client logged out. -/
theorem flood_read {s : Server} (hs : s.Sound) {c : ClientId} {client : Client} {r : Read}
    {fuel : Nat} {st : Incoming} (hc : s.clients c = some client)
    (hflood : (countPacket client r.now).2 = true) (hdata : r.data ≠ [])
    (h : readIncomingData fuel s c r.now r.gen r.data = some (.ok st)) :
    st.effects = [] ∧ ∃ client', st.server.clients c = some client' ∧
      client'.stage = .loggedOut := by
  constructor
  · simp only [readIncomingData, handleIncomingData, hc, hflood, if_true] at h
    obtain ⟨server, -, rfl⟩ := map_eq_ok.mp (Option.some.inj h)
    rfl
  · by_cases hstage : client.stage = .loggedOut
    · obtain ⟨client', hc', hout, -⟩ := closed_read hc hstage hdata h
      exact ⟨client', hc', hout⟩
    · exact ⟨_, flooded_read hs hc hstage hflood hdata h, rfl⟩

/-- A read without a second whole packet dispatches at most one, and one of a client that is not
logged in none. -/
theorem read_dispatches {s : Server} (hs : s.Sound) {c : ClientId} {client : Client} {r : Read}
    {fuel : Nat} {st : Incoming} (hc : s.clients c = some client)
    (hflood : (countPacket client r.now).2 = false) (hdata : r.data ≠ [])
    (h : readIncomingData fuel s c r.now r.gen r.data = some (.ok st)) :
    (client.stage ≠ .loggedIn → st.effects = []) ∧
      (client.stage = .loggedIn → (∀ cipher, client.decryptor = some cipher →
        ¬ Double (s.lockPlayer client.player).isSome cipher r.data) →
          (dispatched st.effects).length ≤ 1) := by
  refine ⟨fun hstage => (early_read hc hstage hflood hdata h).1, fun hstage hnot => ?_⟩
  obtain ⟨_, -, -, -, hdecryptor, -⟩ := (hs.clients c client hc).session hstage
  obtain ⟨cipher, hcipher⟩ := Option.isSome_iff_exists.mp hdecryptor
  obtain ⟨st', hends, -, heffects⟩ := readIncomingData_ends hc hflood h
  obtain ⟨hstage', hdecryptor', hplayer'⟩ := countPacket_fields client r.now
  have hst : Between c (countPacket client r.now).1 cipher r.data
      { server := counted s c client r.now, inStream := ofData r.data } :=
    ⟨Server.setClient_clients_self .., hstage'.trans hstage, hdecryptor'.trans hcipher, rfl, rfl,
      rest_ofData r.data, Nat.zero_le _⟩
  rw [heffects]
  refine dispatched_of_not_double hst ?_ hends
  rw [hplayer']
  exact hnot cipher hcipher

/-! ## The counter -/

/-- The second is over, and the next read counts from the beginning. -/
def WindowOver (client : Client) (now : Int) : Prop :=
  client.lastPacketSecond ≠ 0 ∧ (now - client.lastPacketSecond).tdiv nanosPerSecond ≥ 1

theorem countPacket_going {client : Client} {now : Int} (h : ¬ client.WindowOver now) :
    (countPacket client now).1.packetsThisSecond = (client.packetsThisSecond + 1) % 2 ^ 32 := by
  by_cases h0 : client.lastPacketSecond = 0
  · have hnow : ¬ (now - now).tdiv nanosPerSecond ≥ 1 := by
      rw [Int.sub_self]
      decide
    simp only [countPacket, h0, if_true, hnow, if_false]
  · have hearly : ¬ (now - client.lastPacketSecond).tdiv nanosPerSecond ≥ 1 := fun hlate =>
      h ⟨h0, hlate⟩
    simp only [countPacket, h0, if_false, hearly]

/-- A read that does not flood has been counted, up to the limit. -/
theorem countPacket_range {client : Client} {now : Int}
    (hcount : client.packetsThisSecond ≤ maxPacketsPerSecond)
    (hflood : (countPacket client now).2 = false) :
    1 ≤ (countPacket client now).1.packetsThisSecond ∧
      (countPacket client now).1.packetsThisSecond ≤ maxPacketsPerSecond := by
  have hle : ¬ (countPacket client now).1.packetsThisSecond > maxPacketsPerSecond :=
    of_decide_eq_false hflood
  refine ⟨?_, Nat.le_of_not_lt hle⟩
  have hcases := countPacket_count client now
  rw [maxPacketsPerSecond] at hcount
  omega

end Client

namespace Server

/-! ## Observed runs -/

/-- An event, with what the packet loop does in it. -/
structure Observation where
  event : Event
  effects : List Client.Effect := []

/-- The packets of the client that are dispatched. -/
def Observation.packets (o : Observation) (c : ClientId) : List (Int × List Byte) :=
  if o.event.client = some c then Client.dispatched o.effects else []

inductive Observed : Server → Observation → Server → Prop where
  | receive {s : Server} {c : ClientId} {now gen : Int} {data : List Byte} {fuel : Nat}
      {st : Client.Incoming} : data ≠ [] → data.length ≤ 512 →
      Client.readIncomingData fuel s c now gen data = some (.ok st) →
      Observed s { event := .receive c now gen data, effects := st.effects } st.server
  | other {s s' : Server} {e : Event} : Step s e s' →
      (∀ c now gen data, e ≠ .receive c now gen data) → Observed s { event := e } s'

theorem Observed.step {s s' : Server} {o : Observation} (h : Observed s o s') :
    Step s o.event s' := by
  cases h with
  | receive hdata hsize hread => exact .receive hdata hsize hread
  | other hstep _ => exact hstep

theorem Step.observed {s s' : Server} {e : Event} (h : Step s e s') :
    ∃ o : Observation, o.event = e ∧ Observed s o s' := by
  cases h with
  | receive hdata hsize hread => exact ⟨_, rfl, .receive hdata hsize hread⟩
  | accept hc => exact ⟨_, rfl, .other (.accept hc) nofun⟩
  | readFailed hrun => exact ⟨_, rfl, .other (.readFailed hrun) nofun⟩
  | runPosted hrun => exact ⟨_, rfl, .other (.runPosted hrun) nofun⟩
  | written hc hout hrun => exact ⟨_, rfl, .other (.written hc hout hrun) nofun⟩
  | writeFailed hc hout hrun => exact ⟨_, rfl, .other (.writeFailed hc hout hrun) nofun⟩
  | destroy hc hd hs hout => exact ⟨_, rfl, .other (.destroy hc hd hs hout) nofun⟩
  | tick hrun => exact ⟨_, rfl, .other (.tick hrun) nofun⟩
  | reorder hperm => exact ⟨_, rfl, .other (.reorder hperm) nofun⟩

/-- Every run of the server can be observed. -/
theorem exists_observed {trace : List (Taken Server Event)} {s₀ s : Server}
    (h : Run Step s₀ trace s) : ∃ trace', Run Observed s₀ trace' s ∧
      trace'.map (fun t => ⟨t.before, t.label.event, t.after⟩) = trace :=
  h.relabel fun _ _ _ hstep => hstep.observed

theorem observed_sound {s s' : Server} {o : Observation} (hs : s.Sound) (h : Observed s o s') :
    s'.Sound := (step_sound_live hs h.step).1

/-- A step as one client sees it: a read of its own, or anything else. -/
inductive Heard (c : ClientId) (s : Server) : Observation → Server → Prop where
  | read {r : Client.Read} {client : Client} {fuel : Nat} {st : Client.Incoming} :
      s.clients c = some client → r.data ≠ [] →
      Client.readIncomingData fuel s c r.now r.gen r.data = some (.ok st) →
      Heard c s { event := .receive c r.now r.gen r.data, effects := st.effects } st.server
  | other {s' : Server} {o : Observation} :
      (∀ client : Client, client.metered c o.event = client) → o.packets c = [] →
      Heard c s o s'

theorem Observed.heard {s s' : Server} {o : Observation} (h : Observed s o s') (c : ClientId) :
    Heard c s o s' := by
  cases h with
  | @receive d now gen data fuel st hdata _ hread =>
      by_cases hdc : d = c
      · subst hdc
        obtain ⟨client, hd⟩ := Client.exists_reader hread
        exact @Heard.read d s ⟨now, gen, data⟩ client fuel st hd hdata hread
      · refine .other (fun client => if_neg hdc) (if_neg ?_)
        exact fun hclient => hdc (Option.some.inj hclient)
  | @other _ e hstep hnot =>
      refine .other (fun client => ?_) ?_
      · cases e with
        | receive d now gen data => exact absurd rfl (hnot d now gen data)
        | _ => rfl
      · rw [Observation.packets]
        split <;> rfl

/-! ## Windows -/

def packets (c : ClientId) (trace : List (Taken Server Observation)) : List (Int × List Byte) :=
  trace.flatMap fun t => t.label.packets c

/-- The counter of the client starts again. -/
def OpensWindow (s : Server) (c : ClientId) : Event → Prop
  | .accept d => d = c
  | .receive d now _ _ => d = c ∧ ∃ client, s.clients c = some client ∧ client.WindowOver now
  | _ => False

/-- Only the first of the steps may open a window. -/
def OneWindow (c : ClientId) (window : List (Taken Server Observation)) : Prop :=
  ∀ t ∈ window.tail, ¬ t.before.OpensWindow c t.label.event

/-- The event is not a read of the client with two whole packets in it. -/
def SinglePacket (s : Server) (c : ClientId) : Event → Prop
  | .receive d _ _ data => d = c → ∀ client cipher, s.clients c = some client →
      client.stage = .loggedIn → client.decryptor = some cipher →
      ¬ Client.Double (s.lockPlayer client.player).isSome cipher data
  | _ => True

/-- No window dispatches more packets of the client than the limit, and once the client is
disconnected no more are dispatched. -/
structure FloodControl (c : ClientId) (trace : List (Taken Server Observation)) : Prop where
  bounded : ∀ before window after, trace = before ++ window ++ after → OneWindow c window →
    (packets c window).length ≤ maxPacketsPerSecond
  silent : ∀ before t after client, trace = before ++ t :: after →
    t.after.clients c = some client → client.disconnected = true →
    (∀ u ∈ after, u.label.event ≠ .accept c) → packets c after = []

theorem packets_snoc (c : ClientId) (trace : List (Taken Server Observation))
    (t : Taken Server Observation) : packets c (trace ++ [t]) =
      packets c trace ++ t.label.packets c := by
  rw [packets, List.flatMap_append, List.flatMap_singleton]
  rfl

theorem packets_read (c : ClientId) (now gen : Int) (data : List Byte)
    (effects : List Client.Effect) :
    Observation.packets { event := .receive c now gen data, effects } c =
      Client.dispatched effects := if_pos rfl

/-! ## The limit -/

/-- The client has not been counted past the limit, or is logged out. -/
def BelowLimit (c : ClientId) (s : Server) : Prop :=
  ∀ client, s.clients c = some client → client.stage ≠ .loggedOut →
    client.packetsThisSecond ≤ maxPacketsPerSecond

theorem belowLimit_step {c : ClientId} {s s' : Server} {o : Observation} (hs : s.Sound)
    (hb : BelowLimit c s) (h : Observed s o s') : BelowLimit c s' := by
  intro client' hc' hin
  by_cases hne : o.event = .accept c
  · have hstep := h.step
    rw [hne] at hstep
    cases hstep with
    | accept _ =>
        obtain rfl := Option.some.inj ((setClient_clients_self s c {}).symm.trans hc')
        exact Nat.zero_le _
  obtain ⟨client, hc, hkeeps⟩ := h.step.metered hs hne hc'
  cases h.heard c with
  | other hmetered _ =>
      rw [hmetered] at hkeeps
      rw [hkeeps.packets]
      exact hb client hc fun hout => hin (hkeeps.out hout)
  | @read r found fuel st hfound hdata hread =>
      obtain rfl := Option.some.inj (hc.symm.trans hfound)
      rw [Client.metered, if_pos rfl] at hkeeps
      cases hflood : (Client.countPacket client r.now).2 with
      | true =>
          obtain ⟨-, closed, hclosed, hout⟩ := Client.flood_read hs hc hflood hdata hread
          obtain rfl := Option.some.inj (hclosed.symm.trans hc')
          exact absurd hout hin
      | false =>
          rw [hkeeps.packets]
          exact Nat.le_of_not_lt (of_decide_eq_false hflood)

/-- What a window has dispatched so far has been counted, and is below the limit. -/
structure Counted (c : ClientId) (window : List (Taken Server Observation)) (s : Server) :
    Prop where
  bound : (packets c window).length ≤ maxPacketsPerSecond
  count : ∀ client, s.clients c = some client → client.stage ≠ .loggedOut →
    (packets c window).length ≤ client.packetsThisSecond

theorem counted_start (c : ClientId) (s : Server) : Counted c [] s :=
  ⟨Nat.zero_le _, fun _ _ _ => Nat.zero_le _⟩

/-- A read of the client that is still logged in is counted before its packet. -/
theorem Counted.read {c : ClientId} {window : List (Taken Server Observation)} {s : Server}
    (h : Counted c window s) (hs : s.Sound) (hb : BelowLimit c s) {r : Client.Read}
    {client : Client} {fuel : Nat} {st : Client.Incoming} (hc : s.clients c = some client)
    (hdata : r.data ≠ [])
    (hread : Client.readIncomingData fuel s c r.now r.gen r.data = some (.ok st))
    (hwindow : window ≠ [] → ¬ client.WindowOver r.now)
    (hsingle : s.SinglePacket c (.receive c r.now r.gen r.data)) :
    (packets c window ++ Client.dispatched st.effects).length ≤ maxPacketsPerSecond ∧
      (client.stage ≠ .loggedOut → (Client.countPacket client r.now).2 = false →
        (packets c window ++ Client.dispatched st.effects).length ≤
          (Client.countPacket client r.now).1.packetsThisSecond) := by
  cases hflood : (Client.countPacket client r.now).2 with
  | true =>
      rw [(Client.flood_read hs hc hflood hdata hread).1]
      exact ⟨(List.append_nil (packets c window)).symm ▸ h.bound, fun _ hno => nomatch hno⟩
  | false =>
      obtain ⟨hearly, hone⟩ := Client.read_dispatches hs hc hflood hdata hread
      by_cases hout : client.stage = .loggedOut
      · rw [hearly (by rw [hout]; decide)]
        exact ⟨(List.append_nil (packets c window)).symm ▸ h.bound, fun hin => absurd hout hin⟩
      · have hlimit := hb client hc hout
        have hcount := h.count client hc hout
        obtain ⟨hpos, hmax⟩ := Client.countPacket_range hlimit hflood
        have hone : (Client.dispatched st.effects).length ≤ 1 := by
          by_cases hin : client.stage = .loggedIn
          · exact hone hin fun cipher hcipher => hsingle rfl client cipher hc hin hcipher
          · rw [hearly hin]
            exact Nat.zero_le 1
        have hcounted : (packets c window ++ Client.dispatched st.effects).length ≤
            (Client.countPacket client r.now).1.packetsThisSecond := by
          rw [List.length_append]
          by_cases hfirst : window = []
          · rw [hfirst]
            exact (Nat.zero_add _).le.trans (hone.trans hpos)
          · rw [Client.countPacket_going (hwindow hfirst)]
            rw [maxPacketsPerSecond] at hlimit
            omega
        exact ⟨hcounted.trans hmax, fun _ _ => hcounted⟩

theorem Counted.step {c : ClientId} {window : List (Taken Server Observation)} {s s' : Server}
    {o : Observation} (h : Counted c window s) (hs : s.Sound) (hb : BelowLimit c s)
    (hstep : Observed s o s') (hwindow : window ≠ [] → ¬ s.OpensWindow c o.event)
    (hsingle : s.SinglePacket c o.event) : Counted c (window ++ [⟨s, o, s'⟩]) s' := by
  cases hstep.heard c with
  | other hmetered hpackets =>
      have hsame : packets c (window ++ [⟨s, o, s'⟩]) = packets c window := by
        rw [packets_snoc, hpackets, List.append_nil]
      refine ⟨hsame ▸ h.bound, fun client' hc' hin => ?_⟩
      rw [hsame]
      by_cases hne : o.event = .accept c
      · -- a client is accepted at the beginning of a window only
        have hfirst : window = [] := by
          by_contra hmore
          refine hwindow hmore ?_
          rw [hne]
          exact rfl
        rw [hfirst]
        exact Nat.zero_le _
      · obtain ⟨client, hc, hkeeps⟩ := hstep.step.metered hs hne hc'
        rw [hmetered] at hkeeps
        rw [hkeeps.packets]
        exact h.count client hc fun hout => hin (hkeeps.out hout)
  | @read r client fuel st hc hdata hread =>
      obtain ⟨hbound, hcount⟩ := h.read hs hb hc hdata hread
        (fun hmore hover => hwindow hmore ⟨rfl, client, hc, hover⟩) hsingle
      refine ⟨?_, fun client' hc' hin => ?_⟩
      · rw [packets_snoc, packets_read]
        exact hbound
      · rw [packets_snoc, packets_read]
        obtain ⟨found, hfound, hkeeps⟩ := hstep.step.metered hs nofun hc'
        obtain rfl := Option.some.inj (hc.symm.trans hfound)
        rw [Client.metered, if_pos rfl] at hkeeps
        have hopen : client.stage ≠ .loggedOut := fun hout =>
          hin (hkeeps.out ((Client.countPacket_fields client r.now).1.trans hout))
        rw [hkeeps.packets]
        refine hcount hopen ?_
        rw [Bool.eq_false_iff]
        intro hflood
        obtain ⟨-, closed, hclosed, hout⟩ := Client.flood_read hs hc hflood hdata hread
        obtain rfl := Option.some.inj (hclosed.symm.trans hc')
        exact hin hout

/-- A window of single packets stays below the limit. -/
theorem run_counted {c : ClientId} {s s' : Server} {window : List (Taken Server Observation)}
    (h : Run Observed s window s') (hs : s.Sound) (hb : BelowLimit c s)
    (hwindow : OneWindow c window)
    (hsingle : ∀ t ∈ window, t.before.SinglePacket c t.label.event) : Counted c window s' := by
  induction h with
  | start => exact counted_start c s
  | @snoc trace t t' o hrun hstep ih =>
      have hinv : t.Sound ∧ BelowLimit c t :=
        hrun.invariant (P := fun s => s.Sound ∧ BelowLimit c s) ⟨hs, hb⟩
          fun _ _ _ hinv hstep => ⟨observed_sound hinv.1 hstep, belowLimit_step hinv.1 hinv.2 hstep⟩
      have hlast : (⟨t, o, t'⟩ : Taken Server Observation) ∈ trace ++ [⟨t, o, t'⟩] :=
        List.mem_append_right _ List.mem_cons_self
      have hold : Counted c trace t := by
        refine ih (fun u hu => hwindow u ?_) fun u hu =>
          hsingle u (List.mem_append_left _ hu)
        cases trace with
        | nil => cases hu
        | cons first trace => exact List.mem_append_left _ hu
      refine hold.step hinv.1 hinv.2 hstep (fun hmore => hwindow ⟨t, o, t'⟩ ?_)
        (hsingle ⟨t, o, t'⟩ hlast)
      cases trace with
      | nil => exact absurd rfl hmore
      | cons first trace => exact List.mem_append_right _ List.mem_cons_self

/-! ## After the disconnect -/

theorem silent_step {c : ClientId} {s s' : Server} {o : Observation} (hs : s.Sound)
    (hout : ∀ client, s.clients c = some client → client.stage = .loggedOut)
    (h : Observed s o s') (hne : o.event ≠ .accept c) :
    (∀ client, s'.clients c = some client → client.stage = .loggedOut) ∧ o.packets c = [] := by
  constructor
  · intro client' hc'
    obtain ⟨client, hc, hkeeps⟩ := h.step.metered hs hne hc'
    cases h.heard c with
    | other hmetered _ =>
        rw [hmetered] at hkeeps
        exact hkeeps.out (hout client hc)
    | @read r _ _ _ _ _ _ =>
        rw [Client.metered, if_pos rfl] at hkeeps
        exact hkeeps.out ((Client.countPacket_fields client r.now).1.trans (hout client hc))
  · cases h.heard c with
    | other _ hpackets => exact hpackets
    | @read r client fuel st hc hdata hread =>
        have hearly : client.stage ≠ .loggedIn := by
          rw [hout client hc]
          decide
        rw [packets_read]
        cases hflood : (Client.countPacket client r.now).2 with
        | true =>
            rw [(Client.flood_read hs hc hflood hdata hread).1]
            rfl
        | false =>
            rw [(Client.read_dispatches hs hc hflood hdata hread).1 hearly]
            rfl

theorem run_silent {c : ClientId} {s s' : Server} {trace : List (Taken Server Observation)}
    (h : Run Observed s trace s') (hs : s.Sound)
    (hout : ∀ client, s.clients c = some client → client.stage = .loggedOut)
    (hne : ∀ u ∈ trace, u.label.event ≠ .accept c) :
    (∀ client, s'.clients c = some client → client.stage = .loggedOut) ∧
      packets c trace = [] := by
  induction h with
  | start => exact ⟨hout, rfl⟩
  | @snoc trace t t' o hrun hstep ih =>
      have ht : t.Sound := hrun.invariant hs fun _ _ _ hinv hstep => observed_sound hinv hstep
      obtain ⟨hout', hnone⟩ := ih fun u hu => hne u (List.mem_append_left _ hu)
      obtain ⟨hlast, hpackets⟩ := silent_step ht hout' hstep
        (hne ⟨t, o, t'⟩ (List.mem_append_right _ List.mem_cons_self))
      refine ⟨hlast, ?_⟩
      rw [packets_snoc, hnone, hpackets]
      rfl

/-- In every run whose reads hold one whole packet at most, flood control bounds the packets of
the client. -/
theorem run_floodControl {c : ClientId} {trace : List (Taken Server Observation)} {s : Server}
    (h : Run Observed initial trace s)
    (hsingle : ∀ t ∈ trace, t.before.SinglePacket c t.label.event) : FloodControl c trace where
  bounded before window after htrace hwindow := by
    obtain ⟨m, hrun, -⟩ := h.split_append htrace
    obtain ⟨m₀, hbefore, hrun⟩ := hrun.split_append rfl
    obtain ⟨hs, hb⟩ := hbefore.invariant (P := fun s => s.Sound ∧ BelowLimit c s)
      ⟨sound_initial, fun _ hc => (nomatch hc)⟩
      fun _ _ _ hinv hstep => ⟨observed_sound hinv.1 hstep, belowLimit_step hinv.1 hinv.2 hstep⟩
    refine (run_counted hrun hs hb hwindow fun t ht => hsingle t ?_).bound
    rw [htrace]
    exact List.mem_append_left _ (List.mem_append_right _ ht)
  silent before t after client htrace hc hd hne := by
    obtain ⟨hbefore, hstep, hafter⟩ := h.split htrace
    have hs : t.after.Sound := (hbefore.snoc hstep).invariant sound_initial
      fun _ _ _ hinv hstep => observed_sound hinv hstep
    refine (run_silent hafter hs (fun found hfound => ?_) hne).2
    obtain rfl := Option.some.inj (hc.symm.trans hfound)
    exact (hs.clients c client hc).disconnected.mp hd

/-! ### A hundred and one packets in one read -/

/-- When the reads of the client arrive. -/
def readTimes (c : ClientId) (trace : List (Taken Server Observation)) : List Int :=
  trace.filterMap fun t => match t.label.event with
    | .receive d now _ _ => if d = c then some now else none
    | _ => none

end Server

namespace Client

/-- A packet of one byte. -/
def idlePacket : Packet where
  packetOpcode := ⟨0, Nat.zero_lt_succ 255⟩
  payload := []

theorem idlePacket_wellFormed : idlePacket.WellFormed :=
  somePackets_wellFormed idlePacket
    (List.mem_cons_of_mem _ (List.mem_cons_of_mem _ List.mem_cons_self))

def idleData (cipher : ISAACCipher) (n : Nat) : List Byte :=
  Packet.encodeAll cipher (List.replicate n idlePacket)

theorem idleData_length (cipher : ISAACCipher) (n : Nat) : (idleData cipher n).length = n := by
  have htable : idlePacket.tableLength = 0 := by decide +kernel
  induction n generalizing cipher with
  | zero => rfl
  | succ n ih =>
      have hone := (encode_length_one_iff idlePacket_wellFormed cipher).mpr htable
      rw [idleData, List.replicate_succ, Packet.encodeAll, List.length_append, hone, ← idleData, ih]
      exact Nat.add_comm 1 n

/-- A single byte holds no second packet. -/
theorem not_double_idleData (live : Bool) (cipher : ISAACCipher) :
    ¬ Double live cipher (idleData cipher 1) := by
  rintro ⟨h, k, hh, -, -, h', hh', -⟩
  have hless := readHeader_length hh
  rw [idleData_length] at hless
  have hnil : h.rest = [] := List.eq_nil_of_length_eq_zero (by omega)
  rw [hnil, List.drop_nil] at hh'
  cases hh'

end Client

namespace Server
open LoginHandler (fullBlock)
open Client (fullRequest idleData)

/-- A client that has connected and logged in by a block of its own, all at one time. -/
structure QuickLogin (trace : List (Taken Server Observation)) (s : Server) (client : Client) :
    Prop where
  run : Run Observed initial trace s
  early : ∀ u ∈ trace, ∀ client, u.before.clients 0 = some client → client.stage ≠ .loggedIn
  times : readTimes 0 trace = [1, 1]
  found : s.clients 0 = some client
  stage : client.stage = .loggedIn
  decryptor : client.decryptor = some fullRequest.decryptor
  player : ∃ p, s.lockPlayer client.player = some p
  below : Client.BelowFlood client (List.replicate 98 ⟨1, 0, []⟩)

theorem QuickLogin.calm {trace : List (Taken Server Observation)} {s : Server} {client : Client}
    (h : QuickLogin trace s client) : (Client.countPacket client 1).2 = false := h.below.1

/-- Before the client is logged in nothing it sends is a packet. -/
theorem QuickLogin.single {trace : List (Taken Server Observation)} {s : Server} {client : Client}
    (h : QuickLogin trace s client) : ∀ u ∈ trace, u.before.SinglePacket 0 u.label.event := by
  intro u hu
  have hearly := h.early u hu
  generalize u.label.event = e
  cases e with
  | receive d now gen data =>
      rintro rfl client cipher hc hin -
      exact absurd hin (hearly client hc)
  | _ => trivial

theorem exists_quickLogin : ∃ trace s client, QuickLogin trace s client := by
  have hs₁ := reachable_sound Client.reachable_accept
  have haccept : Step initial (.accept 0) (initial.accept 0) :=
    .accept ⟨rfl, fun _ hp => absurd hp (Nat.not_lt_zero _)⟩
  have hlive₁ : (initial.accept 0).Live := by
    have hlive : initial.Live := fun _ _ hc => (nomatch hc)
    exact ((step_sound_live sound_initial haccept).2 hlive).mpr trivial
  have hbelow : Client.BelowFlood {}
      (⟨1, 0, [14, 0]⟩ :: ⟨1, 0, fullBlock⟩ :: List.replicate 98 ⟨1, 0, []⟩) :=
    Client.belowFlood_few (show 0 + 100 ≤ 100 by decide)
  -- the handshake
  obtain ⟨fuel₁, st₁, client₁, hread₁, -, hs₂, hc₁, hstage₁, -, hcount₁, hworld₁⟩ :=
    Client.exists_requested hs₁ Client.accepted_client rfl hbelow.1
      (show (Client.Read.mk 1 0 [14, 0]).data = [14, 0] from rfl)
  have hreceive₁ : Observed (initial.accept 0)
      { event := .receive 0 1 0 [14, 0], effects := st₁.effects } st₁.server :=
    .receive (List.cons_ne_nil _ _) (by decide) hread₁
  have hlive₂ : st₁.server.Live := by
    refine ((step_sound_live hs₁ hreceive₁.step).2 hlive₁).mpr fun client _ hc hstage => ?_
    obtain rfl := Option.some.inj (Client.accepted_client.symm.trans hc)
    cases hstage
  have hbelow₁ := hbelow.2.same hcount₁
  -- the login block
  obtain ⟨fuel₂, st₂, client₂, hread₂, -, hanswered⟩ := Client.exists_answered
    hs₂ hc₁ hstage₁ hbelow₁.1
    (show LoginHandler.loginRequest (Client.Read.mk 1 0 fullBlock).data = some fullRequest from
      Client.fullBlock_loginBlock.request)
  have hreceive₂ : Observed st₁.server
      { event := .receive 0 1 0 fullBlock, effects := st₂.effects } st₂.server :=
    .receive (List.cons_ne_nil _ _) (by decide) hread₂
  have hlive₃ : st₂.server.Live := by
    refine ((step_sound_live hs₂ hreceive₂.step).2 hlive₂).mpr fun _ _ _ _ _ _ _ => ?_
    rw [hworld₁]
    exact ⟨⟨0, by decide⟩, rfl⟩
  have hstage₂ : client₂.stage = .loggedIn := by
    rw [Client.stage_of_standing hanswered.standing, hworld₁]
    rfl
  obtain ⟨p, hp, -⟩ :=
    ((hlive₃.allPlaying hanswered.sound) 0 client₂ hanswered.found hstage₂).player
  refine ⟨_, _, client₂, ((Run.start.snoc (.other haccept nofun)).snoc hreceive₁).snoc hreceive₂,
    fun u hu client hc => ?_, rfl, hanswered.found, hstage₂,
    congrArg Client.Standing.decryptor hanswered.standing, ⟨p, hp⟩,
    hbelow₁.2.same hanswered.count⟩
  rcases List.mem_append.mp hu with hu | hu
  · rcases List.mem_append.mp hu with hu | hu
    · obtain rfl := List.mem_singleton.mp hu
      cases hc
    · obtain rfl := List.mem_singleton.mp hu
      obtain rfl := Option.some.inj (Client.accepted_client.symm.trans hc)
      decide
  · obtain rfl := List.mem_singleton.mp hu
    obtain rfl := Option.some.inj (hc₁.symm.trans hc)
    rw [hstage₁]
    decide

/-- One-byte packets in one read, right behind a login. -/
structure IdleRun (n : Nat) (trace : List (Taken Server Observation))
    (t : Taken Server Observation) : Prop where
  run : Run Observed initial (trace ++ [t]) t.after
  times : readTimes 0 (trace ++ [t]) = [1, 1, 1]
  packets : (t.label.packets 0).length = n

theorem exists_idleRun {n : Nat} (h0 : 0 < n) (hn : n ≤ 512) : ∃ trace t, IdleRun n trace t := by
  obtain ⟨trace, s, client, hlogin⟩ := exists_quickLogin
  obtain ⟨p, hp⟩ := hlogin.player
  let r : Client.Read := ⟨1, 0, idleData fullRequest.decryptor n⟩
  have hlength : r.data.length = n := Client.idleData_length fullRequest.decryptor n
  have hdata : r.data ≠ [] := List.ne_nil_of_length_pos (hlength ▸ h0)
  obtain ⟨fuel, st, hread, heffects, -⟩ := Client.readIncomingData_aligned (r := r)
    hlogin.found hlogin.stage hlogin.decryptor hp
    (fun pk hpk => List.eq_of_mem_replicate hpk ▸ Client.idlePacket_wellFormed) hlogin.calm rfl
  have hreceive : Observed s
      { event := .receive 0 1 0 r.data, effects := st.effects } st.server :=
    .receive hdata (hlength.trans_le hn) hread
  refine ⟨trace, ⟨s, _, _⟩, hlogin.run.snoc hreceive, ?_, ?_⟩
  · rw [readTimes, List.filterMap_append, ← readTimes, hlogin.times]
    rfl
  · rw [packets_read, heffects, Client.dispatched_effects, List.length_map,
      List.length_replicate]

/-- Packets of a logged-in client, each in a read of its own and all at one time. -/
theorem exists_singleReads {s : Server} {client : Client} {cipher : ISAACCipher} {p : PlayerId}
    {n : Nat} (hc : s.clients 0 = some client) (hstage : client.stage = .loggedIn)
    (hd : client.decryptor = some cipher) (hp : s.lockPlayer client.player = some p)
    (hbelow : Client.BelowFlood client (List.replicate n ⟨1, 0, []⟩)) : ∃ trace s',
      Run Observed s trace s' ∧ readTimes 0 trace = List.replicate n 1 ∧
      (packets 0 trace).length = n ∧ ∀ u ∈ trace, u.before.SinglePacket 0 u.label.event := by
  induction n generalizing s client cipher with
  | zero => exact ⟨[], s, .start, rfl, rfl, forall_nil _⟩
  | succ n ih =>
      let r : Client.Read := ⟨1, 0, idleData cipher 1⟩
      have hlength : r.data.length = 1 := Client.idleData_length cipher 1
      have hdata : r.data ≠ [] := List.ne_nil_of_length_pos (hlength ▸ Nat.one_pos)
      obtain ⟨fuel, st, hread, heffects, hc', hp'⟩ := Client.readIncomingData_aligned (r := r)
        hc hstage hd hp
        (fun pk hpk => List.eq_of_mem_replicate hpk ▸ Client.idlePacket_wellFormed) hbelow.1 rfl
      have hreceive : Observed s
          { event := .receive 0 1 0 r.data, effects := st.effects } st.server :=
        .receive hdata (hlength.trans_le (by decide)) hread
      obtain ⟨hstage', -, hplayer'⟩ := Client.countPacket_fields client 1
      have hbelow' : Client.BelowFlood (Client.afterRead client cipher 1 1)
          (List.replicate n ⟨1, 0, []⟩) := Client.belowFlood_congr hbelow.2 rfl rfl
      obtain ⟨trace, s', hrun, htimes, hpackets, hsingle⟩ :=
        ih hc' (hstage'.trans hstage) rfl
          (by rw [Client.afterRead, Client.keysDrawn, hplayer']; exact hp') hbelow'
      refine ⟨_, s', (Run.start.snoc hreceive).append hrun, ?_, ?_,
        List.forall_mem_cons.mpr ⟨?_, hsingle⟩⟩
      · change 1 :: readTimes 0 trace = _
        rw [htimes]
        rfl
      · rw [List.nil_append, packets, List.flatMap_append, List.flatMap_singleton,
          List.length_append, ← packets, hpackets, packets_read, heffects,
          Client.dispatched_effects, List.length_map]
        exact Nat.add_comm 1 n
      · rintro - found cipher' hfound - hcipher
        obtain rfl := Option.some.inj (hc.symm.trans hfound)
        obtain rfl := Option.some.inj (hd.symm.trans hcipher)
        exact Client.not_double_idleData _ _

/-- Reads up to the limit within one window, with a packet in each but the first two. -/
theorem run_floodControl_singles : ∃ trace s, Run Observed initial trace s ∧
    readTimes 0 trace = List.replicate 100 1 ∧ (packets 0 trace).length ≥ 98 ∧
    FloodControl 0 trace := by
  obtain ⟨login, s, client, hlogin⟩ := exists_quickLogin
  obtain ⟨p, hp⟩ := hlogin.player
  obtain ⟨trace, s', hrun, htimes, hpackets, hsingle⟩ :=
    exists_singleReads hlogin.found hlogin.stage hlogin.decryptor hp hlogin.below
  have hall := hlogin.run.append hrun
  refine ⟨_, s', hall, ?_, ?_,
    run_floodControl hall (List.forall_mem_append.mpr ⟨hlogin.single, hsingle⟩)⟩
  · rw [readTimes, List.filterMap_append, ← readTimes, ← readTimes, hlogin.times, htimes]
    rfl
  · rw [packets, List.flatMap_append, List.length_append, ← packets, ← packets, hpackets]
    exact Nat.le_add_left _ _

/-- One read dispatches one packet more than the limit, and counts once. -/
theorem hundred_and_one_dispatched : ∃ trace t, Run Observed initial (trace ++ [t]) t.after ∧
    (readTimes 0 (trace ++ [t])).Pairwise (· ≤ ·) ∧ OneWindow 0 [t] ∧
    (packets 0 [t]).length = maxPacketsPerSecond + 1 ∧ ¬ FloodControl 0 (trace ++ [t]) := by
  obtain ⟨trace, t, h⟩ := exists_idleRun (n := 101) (by decide) (by decide)
  have hwindow : OneWindow 0 [t] := fun _ hu => (nomatch hu)
  have hpackets : (packets 0 [t]).length = maxPacketsPerSecond + 1 := by
    rw [packets, List.flatMap_singleton]
    exact h.packets
  refine ⟨trace, t, h.run, ?_, hwindow, hpackets, fun hcontrol => ?_⟩
  · rw [h.times]
    decide
  · have hbound := hcontrol.bounded trace [t] [] (List.append_nil _).symm hwindow
    rw [hpackets] at hbound
    exact absurd hbound (Nat.not_succ_le_self _)

end Server
end AsioRsps
