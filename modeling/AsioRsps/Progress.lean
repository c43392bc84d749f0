import AsioRsps.ConversationRuns
import AsioRsps.Population

/-!
# Nothing gets stuck

In every state of a run the tick, the posted functions, the completions of the writes and the
disconnects return; a read is all that can fail. The connection of a client that is not
disconnected can always be worked off: its strand and its writes come to an end, with everything
written that it has been sent, or with the disconnect that has been asked for.
-/
namespace AsioRsps
open BitStrings (Byte)
open LabelledRuns
open FallibleLoop (bind_eq_ok)

namespace Client

/-- How much is left to do: what is posted is at most to be written afterwards. -/
def weight (client : Client) : Nat := 2 * client.strand.length + client.writeQueue.length

theorem weight_lt_of_strand {old new : Client} {posted : Posted} {strand : List Posted}
    (h : old.strand = posted :: strand) (hstrand : new.strand = strand)
    (hqueue : new.writeQueue.length ≤ old.writeQueue.length + 1) : new.weight < old.weight := by
  rw [weight, weight, hstrand, h, List.length_cons]
  omega

theorem weight_lt_of_queue {old new : Client} {front : List Byte} {writeQueue : List (List Byte)}
    (h : old.writeQueue = front :: writeQueue) (hstrand : new.strand = old.strand)
    (hqueue : new.writeQueue = writeQueue) : new.weight < old.weight := by
  rw [weight, weight, hstrand, hqueue, h, List.length_cons]
  omega

/-- The client's disconnect has been requested. -/
def Asked (client : Client) : Prop :=
  .requestDisconnect ∈ client.strand ∨ client.pendingDisconnect = true

/-- What is still posted in front of a disconnect. -/
def promised (client : Client) : List (List Byte) :=
  snapshots (client.strand.takeWhile (· ≠ .requestDisconnect))

/-- What the client has been sent before its disconnect was requested. -/
def sentBefore (client : Client) : List (List Byte) :=
  client.asyncWrites ++ (client.writeQueue.tail ++ client.promised)

/-- The disconnect that was requested has been made, with nothing left to be written before it. -/
structure Closes (old new : Client) : Prop where
  disconnected : new.disconnected = true
  asked : old.Asked
  idle : new.writing = false
  promised : old.promised = []
  snapshots : snapshots new.strand = snapshots old.strand

/-- No disconnect has been made. -/
structure Proceeds (old new : Client) : Prop where
  disconnected : new.disconnected = old.disconnected
  asked : new.Asked ↔ old.Asked
  strand : new.strand = old.strand ∨ ∃ posted, old.strand = posted :: new.strand

/-- There is less to do, and only a disconnect that was requested has been made. -/
structure Goes (old new : Client) : Prop where
  less : new.weight < old.weight
  outcome : old.Closes new ∨ old.Proceeds new

theorem promised_push {client : Client} {data : List Byte} {strand : List Posted}
    (h : client.strand = .push data :: strand) :
    client.promised = data :: snapshots (strand.takeWhile (· ≠ .requestDisconnect)) := by
  rw [promised, h, List.takeWhile_cons_of_pos (by simp), snapshots_push]

theorem promised_request {client : Client} {strand : List Posted}
    (h : client.strand = .requestDisconnect :: strand) : client.promised = [] := by
  rw [promised, h, List.takeWhile_cons_of_neg (by simp), snapshots_nil]

theorem sentBefore_of_strand_nil {client : Client} (h : client.strand = []) :
    client.sentBefore = client.transcript := by
  rw [sentBefore, transcript, promised, h, List.takeWhile_nil]

/-- What has been sent before the request stays in front. -/
theorem Proceeds.sentBefore {old new : Client} (h : old.Proceeds new)
    (htranscript : new.transcript = old.transcript) : old.sentBefore <+: new.sentBefore := by
  rw [transcript, transcript, ← List.append_assoc, ← List.append_assoc] at htranscript
  rw [Client.sentBefore, Client.sentBefore, ← List.append_assoc, ← List.append_assoc]
  rcases h.strand with hsame | ⟨posted, hstrand⟩
  · rw [hsame] at htranscript
    rw [List.append_cancel_right htranscript, promised, promised, hsame]
  · rw [hstrand] at htranscript
    cases posted with
    | push data =>
        rw [snapshots_push, List.append_cons] at htranscript
        rw [List.append_cancel_right htranscript, promised_push hstrand,
          List.append_cons]
        exact List.prefix_rfl
    | requestDisconnect =>
        rw [snapshots_request] at htranscript
        rw [List.append_cancel_right htranscript, promised_request hstrand, List.append_nil]
        exact List.prefix_append ..

/-- All of it has been handed over when the disconnect is made. -/
theorem Closes.sentBefore {old new : Client} (h : old.Closes new)
    (htranscript : new.transcript = old.transcript) (hqueue : new.writeQueue = []) :
    old.sentBefore = new.asyncWrites := by
  rw [transcript, transcript, hqueue, h.snapshots, ← List.append_assoc,
    ← List.append_assoc old.asyncWrites, List.tail_nil, List.append_nil] at htranscript
  rw [Client.sentBefore, h.promised, List.append_nil]
  exact (List.append_cancel_right htranscript).symm

/-! ## Handlers that return -/

theorem exists_push (client : Client) (data : List Byte) :
    ∃ new, client.push data = .ok new ∧ new.strand = client.strand ∧
      new.writeQueue = client.writeQueue ++ [data] ∧
      new.pendingDisconnect = client.pendingDisconnect ∧
      new.disconnected = client.disconnected := by
  cases hqueue : client.writeQueue ++ [data] with
  | nil => exact absurd hqueue (List.append_ne_nil_of_right_ne_nil _ (List.cons_ne_nil _ _))
  | cons front rest =>
      simp only [push, doWrite, hqueue]
      split
      · exact ⟨_, rfl, rfl, rfl, rfl, rfl⟩
      · exact ⟨_, rfl, rfl, rfl, rfl, rfl⟩

theorem runPosted_nil {s : Server} {c : ClientId} {client : Client}
    (hc : s.clients c = some client) (hstrand : client.strand = []) : runPosted s c = .ok s := by
  simp only [runPosted, Server.lockClient_eq hc, bind, Except.bind, hstrand]
  rfl

theorem runPosted_push {s : Server} {c : ClientId} {client new : Client} {data : List Byte}
    {strand : List Posted} (hc : s.clients c = some client)
    (hstrand : client.strand = .push data :: strand)
    (hpush : push { client with strand } data = .ok new) :
    runPosted s c = .ok (s.setClient c new) := by
  simp only [runPosted, Server.lockClient_eq hc, bind, Except.bind, hstrand, hpush]
  rfl

theorem runPosted_request {s : Server} {c : ClientId} {client : Client} {strand : List Posted}
    (hc : s.clients c = some client) (hstrand : client.strand = .requestDisconnect :: strand) :
    runPosted s c = if !client.writing && client.writeQueue.isEmpty then
      disconnect (s.setClient c { client with strand, pendingDisconnect := true }) c
    else .ok (s.setClient c { client with strand, pendingDisconnect := true }) := by
  simp only [runPosted, Server.lockClient_eq hc, bind, Except.bind, hstrand]
  rfl

theorem written_eq {s : Server} {c : ClientId} {client : Client} {front : List Byte}
    {writeQueue : List (List Byte)} (hc : s.clients c = some client)
    (hqueue : client.writeQueue = front :: writeQueue) : written s c =
      (let client := { client with writeQueue, completedWrites := client.completedWrites + 1 }
      if writeQueue ≠ [] then client.doWrite.map fun client => s.setClient c client
      else
        let s := s.setClient c { client with writing := false }
        if client.pendingDisconnect then (disconnect s c).map fun s =>
          s.modifyClient c fun client => { client with pendingDisconnect := false }
        else .ok s) := by
  simp only [written, Server.lockClient_eq hc, bind, Except.bind, hqueue]
  rfl

theorem written_nil {s : Server} {c : ClientId} {client : Client}
    (hc : s.clients c = some client) (hqueue : client.writeQueue = []) :
    written s c = .error .outOfBounds := by
  simp only [written, Server.lockClient_eq hc, bind, Except.bind, hqueue]
  rfl

theorem exists_disconnect {s : Server} (hs : s.Sound) {c : ClientId} {old mid : Client}
    (hc : s.clients c = some old) (hq : Server.QuietClient old mid) :
    ∃ s', disconnect (s.setClient c mid) c = .ok s' ∧
      s'.clients c = some (if mid.disconnected then mid else mid.closed) := by
  have hmid := Server.setClient_clients_self s c mid
  obtain ⟨s', hrun, -⟩ := disconnect_outcome (hs.quiet (Server.quiet_setClient hc hq)) hmid
  exact ⟨s', hrun, disconnect_client hmid hrun⟩

/-- The function posted first returns, and then there is less to do. -/
theorem exists_runPosted {s : Server} (hs : s.Sound) {c : ClientId} {client : Client}
    {posted : Posted} {strand : List Posted} (hc : s.clients c = some client)
    (hstrand : client.strand = posted :: strand) : ∃ s' new, runPosted s c = .ok s' ∧
      s'.clients c = some new ∧ client.Goes new := by
  cases posted with
  | push data =>
      obtain ⟨new, hpush, hstrand', hqueue, hpending, hd⟩ := exists_push { client with strand } data
      have hlength : new.writeQueue.length ≤ client.writeQueue.length + 1 := by
        rw [hqueue]
        exact List.length_append.le
      refine ⟨_, new, runPosted_push hc hstrand hpush, Server.setClient_clients_self ..,
        weight_lt_of_strand hstrand hstrand' hlength,
        .inr ⟨hd, ?_, .inr ⟨_, hstrand.trans (congrArg (_ :: ·) hstrand'.symm)⟩⟩⟩
      rw [Asked, Asked, hstrand', hpending, hstrand, List.mem_cons]
      exact or_congr_left (or_iff_right nofun).symm
  | requestDisconnect =>
      have hasked : client.Asked := .inl (hstrand ▸ List.mem_cons_self)
      rw [runPosted_request hc hstrand]
      split
      · rename_i hidle
        have hwriting : client.writing = false :=
          Bool.not_eq_true' _ |>.mp (Bool.and_eq_true_iff.mp hidle).1
        have hpending :
            Server.QuietClient client { client with strand, pendingDisconnect := true } :=
          ⟨rfl, rfl, rfl, rfl, id, id⟩
        obtain ⟨s', hrun, hc'⟩ := exists_disconnect hs hc hpending
        refine ⟨s', _, hrun, hc', ?_,
          .inl ⟨disconnected_disconnect _, hasked, ?_, promised_request hstrand, ?_⟩⟩
        · split
          · exact weight_lt_of_strand hstrand rfl (Nat.le_succ _)
          · exact weight_lt_of_strand hstrand rfl (Nat.le_succ _)
        · split <;> exact hwriting
        · rw [hstrand, snapshots_request]
          split <;> rfl
      · exact ⟨_, _, rfl, Server.setClient_clients_self ..,
          weight_lt_of_strand hstrand rfl (Nat.le_succ _),
          .inr ⟨rfl, ⟨fun _ => hasked, fun _ => .inr rfl⟩, .inr ⟨_, hstrand⟩⟩⟩

/-- A write that is under way can complete, and then there is less to do, unless a disconnect comes
in front of what is posted. -/
theorem exists_written {s : Server} (hs : s.Sound) {c : ClientId} {client : Client}
    {front : List Byte} {writeQueue : List (List Byte)} (hc : s.clients c = some client)
    (hqueue : client.writeQueue = front :: writeQueue) : ∃ s' new, written s c = .ok s' ∧
      s'.clients c = some new ∧ (client.promised = [] → client.Goes new) := by
  rw [written_eq hc hqueue]
  dsimp only
  split
  · rename_i hmore
    obtain ⟨next, rest, rfl⟩ := List.exists_cons_of_ne_nil hmore
    exact ⟨_, _, rfl, Server.setClient_clients_self .., fun _ =>
      ⟨weight_lt_of_queue hqueue rfl rfl, .inr ⟨rfl, .rfl, .inl rfl⟩⟩⟩
  · split
    · rename_i hpending
      have hidle : Server.QuietClient client { client with
          writeQueue, completedWrites := client.completedWrites + 1, writing := false } :=
        ⟨rfl, rfl, rfl, rfl, id, id⟩
      obtain ⟨t, hrun, hc'⟩ := exists_disconnect hs hc hidle
      have hcleared := Server.puts_modifyClient hc' fun client =>
        { client with pendingDisconnect := false }
      rw [hrun]
      refine ⟨_, _, rfl, hcleared.clients, fun hpromised =>
        ⟨?_, .inl ⟨disconnected_disconnect _, .inr hpending, ?_, hpromised, ?_⟩⟩⟩
      · split
        · exact weight_lt_of_queue hqueue rfl rfl
        · exact weight_lt_of_queue hqueue rfl rfl
      · split <;> rfl
      · split <;> rfl
    · exact ⟨_, _, rfl, Server.setClient_clients_self .., fun _ =>
        ⟨weight_lt_of_queue hqueue rfl rfl, .inr ⟨rfl, .rfl, .inl rfl⟩⟩⟩

/-! ## Pending disconnects -/

/-- Only a request that has been run is pending. -/
def PendingRun (c : ClientId) (l : Link) : Prop :=
  ∀ client, l.server.clients c = some client → client.pendingDisconnect = true →
    l.requestRun = true

theorem pendingDisconnect_disconnect (client : Client) :
    (if client.disconnected then client else client.closed).pendingDisconnect =
      client.pendingDisconnect := by
  split <;> rfl

theorem pending_runPosted {s s' : Server} {c : ClientId} {client : Client}
    (hc : s.clients c = some client) (h : runPosted s c = .ok s') :
    ∃ new, s'.clients c = some new ∧ (new.pendingDisconnect = true →
      client.pendingDisconnect = true ∨ client.strand.head? = some .requestDisconnect) := by
  cases hstrand : client.strand with
  | nil =>
      obtain rfl := Except.ok.inj (h.symm.trans (runPosted_nil hc hstrand))
      exact ⟨client, hc, .inl⟩
  | cons posted strand =>
      cases posted with
      | push data =>
          obtain ⟨new, hpush, -, -, hpending, -⟩ := exists_push { client with strand } data
          obtain rfl := Except.ok.inj (h.symm.trans (runPosted_push hc hstrand hpush))
          exact ⟨new, Server.setClient_clients_self .., fun hnew => .inl (hpending.symm.trans hnew)⟩
      | requestDisconnect =>
          obtain ⟨new, hput, -⟩ := Server.exists_puts_runPosted hc h
          exact ⟨new, hput.clients, fun _ => .inr rfl⟩

theorem pending_written {s s' : Server} {c : ClientId} {client : Client}
    (hc : s.clients c = some client) (h : written s c = .ok s') :
    ∃ new, s'.clients c = some new ∧
      (new.pendingDisconnect = true → client.pendingDisconnect = true) := by
  cases hqueue : client.writeQueue with
  | nil => cases h.symm.trans (written_nil hc hqueue)
  | cons front writeQueue =>
      obtain ⟨settled, hput, -⟩ := Server.exists_puts_written hc h
      rw [written_eq hc hqueue] at h
      dsimp only at h
      split at h
      · obtain ⟨new, hwrite, rfl⟩ := FallibleLoop.map_eq_ok.mp h
        obtain ⟨_, _, -, rfl⟩ := doWrite_inv hwrite
        exact ⟨_, Server.setClient_clients_self .., id⟩
      · split at h
        · rename_i hpending
          exact ⟨settled, hput.clients, fun _ => hpending⟩
        · obtain rfl := Except.ok.inj h
          exact ⟨_, Server.setClient_clients_self .., id⟩

theorem PendingRun.same {c : ClientId} {l l' : Link} {old new : Client} (h : PendingRun c l)
    (hc : l.server.clients c = some old) (hc' : l'.server.clients c = some new)
    (hpending : new.pendingDisconnect = true → old.pendingDisconnect = true)
    (hrun : l'.requestRun = l.requestRun) : PendingRun c l' := by
  intro client hclient hp
  obtain rfl := Option.some.inj (hc'.symm.trans hclient)
  exact hrun.trans (h old hc (hpending hp))

theorem PendingRun.step {c : ClientId} {l l' : Link} {e : LinkEvent} (h : PendingRun c l)
    (hl : LinkSound c l) (hs : LinkStep c l e l') : PendingRun c l' := by
  obtain ⟨client, hc, -⟩ := hl
  cases hs with
  | send hrun => exact h.same hc (send_inv hc hrun) id rfl
  | requestDisconnect => exact h.same hc (requestDisconnect_client hc) id rfl
  | reject hresponse hrun =>
      rw [LoginHandler.enterWorld_refused hc hresponse] at hrun
      obtain rfl := Except.ok.inj hrun
      exact h.same hc (requestDisconnect_client (Server.setClient_clients_self ..)) id rfl
  | runPosted hc' hrun =>
      obtain rfl := Option.some.inj (hc.symm.trans hc')
      obtain ⟨new, hnew, hpending⟩ := pending_runPosted hc hrun
      intro found hfound hp
      obtain rfl := Option.some.inj (hnew.symm.trans hfound)
      change (l.requestRun || decide _) = true
      rw [Bool.or_eq_true, decide_eq_true_eq]
      exact (hpending hp).imp_left (h client hc)
  | written hc' _ hrun =>
      obtain rfl := Option.some.inj (hc.symm.trans hc')
      obtain ⟨new, hnew, hpending⟩ := pending_written hc hrun
      exact h.same hc hnew hpending rfl
  | writeFailed hc' _ hrun =>
      obtain rfl := Option.some.inj (hc.symm.trans hc')
      obtain ⟨found, hlock, hrun⟩ := bind_eq_ok.mp hrun
      obtain rfl := Option.some.inj (hc.symm.trans (Server.clients_of_lockClient hlock))
      have hclient := disconnect_client (Server.setClient_clients_self ..) hrun
      have hsame := pendingDisconnect_disconnect
        { client with completedWrites := client.completedWrites + 1 }
      exact h.same hc hclient (fun hp => hsame.symm.trans hp) rfl
  | disconnect hrun =>
      exact h.same hc (disconnect_client hc hrun)
        (fun hp => (pendingDisconnect_disconnect _).symm.trans hp) rfl
  | other hc' hc'' hsame =>
      obtain rfl := Option.some.inj (hc.symm.trans hc')
      exact h.same hc hc'' (fun hp => hsame.pendingDisconnect.symm.trans hp) rfl

theorem run_pendingRun {c : ClientId} {s : Server} {trace : List (Taken Link LinkEvent)}
    {l : Link} (hc : s.clients c = some {}) (h : Run (LinkStep c) { server := s } trace l) :
    PendingRun c l := by
  have hstart : PendingRun c { server := s } := by
    intro client hclient hp
    obtain rfl := Option.some.inj (hc.symm.trans hclient)
    cases hp
  have hlink := run_linkSound hc (.start)
  have hboth := h.invariant (P := fun l => LinkSound c l ∧ PendingRun c l) ⟨hlink, hstart⟩
    fun _ _ _ hl hs => ⟨hl.1.step hs, hl.2.step hl.1 hs⟩
  exact hboth.2

end Client

namespace Server
open Client (Link LinkEvent LinkStep)

/-! ## What can fail -/

/-- The connection of a client in a run is sound. -/
theorem exists_link {s : Server} (h : Reachable Step initial s) {c : ClientId} {client : Client}
    (hc : s.clients c = some client) : ∃ l, Client.QueueSound l client ∧ Client.Graceful l client ∧
      (client.pendingDisconnect = true → l.requestRun = true) := by
  obtain ⟨trace, hrun⟩ := h
  obtain ⟨_, s₀, _, links, l, -, hlinks, hl⟩ := run_followed hrun hc
  obtain ⟨found, hfound, hqueue, hgraceful⟩ := Client.run_linkSound (accept_client s₀ c) hlinks
  have hpending := Client.run_pendingRun (accept_client s₀ c) hlinks client (hl.server ▸ hc)
  rw [hl.server] at hfound
  obtain rfl := Option.some.inj (hc.symm.trans hfound)
  exact ⟨l, hqueue, hgraceful, hpending⟩

/-- While a write is under way the queue is not empty. -/
theorem exists_queue {s : Server} (h : Reachable Step initial s) {c : ClientId} {client : Client}
    (hc : s.clients c = some client) (hout : client.outstanding ≠ []) :
    ∃ front rest, client.writeQueue = front :: rest := by
  obtain ⟨l, hqueue, -⟩ := exists_link h hc
  obtain ⟨_, front, rest, -, hfront, -⟩ := hqueue.exists_outstanding hout
  exact ⟨front, rest, hfront⟩

/-- In every state of a run everything but a read returns. -/
theorem reachable_returns {s : Server} (h : Reachable Step initial s) :
    (∃ s', World.process s = .ok s') ∧ ∀ c client, s.clients c = some client →
      (∃ s', Client.runPosted s c = .ok s') ∧ (∃ s', Client.disconnect s c = .ok s') ∧
      (client.outstanding ≠ [] → (∃ s', Client.written s c = .ok s') ∧
        ∃ s', Client.writeFailed s c = .ok s') := by
  have hs := reachable_sound h
  refine ⟨GameSound.exists_tick (reachable_populated h),
    fun c client hc => ⟨?_, ?_, fun hout => ?_⟩⟩
  · cases hstrand : client.strand with
    | nil => exact ⟨s, Client.runPosted_nil hc hstrand⟩
    | cons posted strand =>
        obtain ⟨s', -, hrun, -⟩ := Client.exists_runPosted hs hc hstrand
        exact ⟨s', hrun⟩
  · obtain ⟨s', hrun, -⟩ := Client.disconnect_outcome hs hc
    exact ⟨s', hrun⟩
  · obtain ⟨front, rest, hfront⟩ := exists_queue h hc hout
    obtain ⟨s', -, hwritten, -⟩ := Client.exists_written hs hc hfront
    have hdone : QuietClient client { client with completedWrites := client.completedWrites + 1 } :=
      ⟨rfl, rfl, rfl, rfl, id, id⟩
    obtain ⟨s'', hfailed, -⟩ := Client.exists_disconnect hs hc hdone
    refine ⟨⟨s', hwritten⟩, s'', ?_⟩
    simp only [Client.writeFailed, lockClient_eq hc, bind, Except.bind]
    exact hfailed

theorem reachable_returns_login : ∃ trace s, Run Step initial trace s ∧
    (∃ s', World.process s = .ok s') ∧ ∃ s', Client.runPosted s 0 = .ok s' := by
  obtain ⟨trace, s, client, hrun, hc, -⟩ := exists_loggedIn
  obtain ⟨htick, hclients⟩ := reachable_returns ⟨trace, hrun⟩
  exact ⟨trace, s, hrun, htick, (hclients 0 client hc).1⟩

/-! ## Working off a connection -/

/-- A step of the strand or of the writes. -/
def WorksOff (c : ClientId) (t : Taken Server Event) : Prop :=
  (t.label = .runPosted c ∨ t.label = .written c) ∧ t.before.living c = some true

/-- What was sent before a disconnect was requested has been written, and then the disconnect has
been made. Without a request everything has been written. -/
structure WorkedOff (old new : Client) : Prop where
  disconnected : new.disconnected = true ↔ old.Asked
  outstanding : new.outstanding = []
  written : old.sentBefore <+: new.asyncWrites
  transcript : new.asyncWrites <+: old.transcript
  rest : ¬ old.Asked → new.strand = [] ∧ new.asyncWrites = old.transcript

/-- A client at rest has been written all it has been sent, and no disconnect is pending. -/
theorem workedOff_of_idle {s : Server} (h : Reachable Step initial s) {c : ClientId}
    {client : Client} (hc : s.clients c = some client) (hd : client.disconnected = false)
    (hstrand : client.strand = []) (hout : client.outstanding = []) :
    WorkedOff client client := by
  obtain ⟨l, hqueue, hgraceful, hpendingRun⟩ := exists_link h hc
  have hidle : client.writing = false := by
    refine (hqueue.idle_of_outstanding hout).resolve_right fun hfailed => ?_
    exact absurd (hd.symm.trans hfailed.2) Bool.false_ne_true
  have hsent : client.transcript = client.asyncWrites := by
    rw [Client.transcript, (hqueue.idle hidle).1, hstrand]
    exact List.append_nil _
  have hnot : ¬ client.Asked := by
    intro hasked
    have hpending : client.pendingDisconnect = true :=
      hasked.resolve_left fun hmem => (List.mem_nil_iff _).mp (hstrand ▸ hmem)
    rcases hgraceful (hpendingRun hpending) with hgone | hbusy
    · exact absurd (hd.symm.trans hgone) Bool.false_ne_true
    · exact absurd (hidle.symm.trans hbusy.1) Bool.false_ne_true
  refine ⟨⟨fun hgone => absurd (hd.symm.trans hgone) Bool.false_ne_true,
    fun hasked => absurd hasked hnot⟩, hout, ?_, ?_, fun _ => ⟨hstrand, hsent.symm⟩⟩
  · rw [Client.sentBefore_of_strand_nil hstrand, hsent]
  · rw [hsent]

/-- A client whose disconnect has just been made on request. -/
theorem workedOff_of_closes {s : Server} (h : Reachable Step initial s) {c : ClientId}
    {old new : Client} (hc : s.clients c = some new) (hcloses : old.Closes new)
    (htranscript : new.transcript = old.transcript) : WorkedOff old new := by
  obtain ⟨l, hqueue, -⟩ := exists_link h hc
  obtain ⟨hempty, hcompleted⟩ := hqueue.idle hcloses.idle
  refine ⟨iff_of_true hcloses.disconnected hcloses.asked, ?_, ?_, ?_,
    fun hnot => absurd hcloses.asked hnot⟩
  · rw [Client.outstanding, hcompleted, List.drop_length]
  · rw [hcloses.sentBefore htranscript hempty]
  · rw [← htranscript]
    exact List.prefix_append ..

theorem WorkedOff.after {old mid new : Client} (h : WorkedOff mid new) (hgoes : old.Proceeds mid)
    (htranscript : mid.transcript = old.transcript) : WorkedOff old new where
  disconnected := h.disconnected.trans hgoes.asked
  outstanding := h.outstanding
  written := (hgoes.sentBefore htranscript).trans h.written
  transcript := htranscript ▸ h.transcript
  rest hnot := htranscript ▸ h.rest (mt hgoes.asked.mp hnot)

/-- From every state of a run the connection of a client that is not disconnected is worked off
by its own strand and the completions of its own writes. -/
theorem exists_workedOff {s : Server} (h : Reachable Step initial s) {c : ClientId}
    {client : Client} (hc : s.clients c = some client) (hd : client.disconnected = false) :
    ∃ more s' new, Run Step s more s' ∧ (∀ t ∈ more, WorksOff c t) ∧
      s'.clients c = some new ∧ WorkedOff client new := by
  have hs := reachable_sound h
  have hliving : s.living c = some true := living_eq_some.mpr ⟨client, hc, hd⟩
  by_cases hrest : client.strand = [] ∧ client.outstanding = []
  · exact ⟨[], s, client, .start, forall_nil _, hc, workedOff_of_idle h hc hd hrest.1 hrest.2⟩
  · -- what is posted is run first, so that nothing is cut off by the end of the writes
    obtain ⟨e, t, mid, hstep, he, hmid, hgoes⟩ : ∃ e t mid, Step s e t ∧
        (e = .runPosted c ∨ e = .written c) ∧ t.clients c = some mid ∧ client.Goes mid := by
      by_cases hstrand : client.strand = []
      · have hout : client.outstanding ≠ [] := fun hout => hrest ⟨hstrand, hout⟩
        obtain ⟨front, rest, hqueue⟩ := exists_queue h hc hout
        obtain ⟨t, mid, hrun, hmid, hgoes⟩ := Client.exists_written hs hc hqueue
        refine ⟨_, t, mid, .written hc hout hrun, .inr rfl, hmid, hgoes ?_⟩
        rw [Client.promised, hstrand]
        rfl
      · obtain ⟨posted, strand, hstrand⟩ := List.exists_cons_of_ne_nil hstrand
        obtain ⟨t, mid, hrun, hmid, hgoes⟩ := Client.exists_runPosted hs hc hstrand
        exact ⟨_, t, mid, .runPosted hrun, .inl rfl, hmid, hgoes⟩
    have hquiet : ¬ Speaks c s e := by
      rintro (_ | _) <;> rcases he with he | he <;> cases he
    have htranscript := hstep.transcript_eq h hc hmid hquiet
    have hfirst : ∀ u ∈ [⟨s, e, t⟩], WorksOff c u := fun u hu => by
      rw [List.mem_singleton.mp hu]
      exact ⟨he, hliving⟩
    rcases hgoes.outcome with hcloses | hproceeds
    · exact ⟨_, t, mid, Run.start.snoc hstep, hfirst, hmid,
        workedOff_of_closes (h.snoc hstep) hmid hcloses htranscript⟩
    · have hless := hgoes.less
      obtain ⟨more, s', new, hmore, hall, hnew, hworked⟩ :=
        exists_workedOff (h.snoc hstep) hmid (hproceeds.disconnected.trans hd)
      exact ⟨_, s', new, (Run.start.snoc hstep).append hmore,
        List.forall_mem_append.mpr ⟨hfirst, hall⟩, hnew, hworked.after hproceeds htranscript⟩
termination_by client.weight

theorem exists_workedOff_login : ∃ trace s client, Run Step initial trace s ∧
    s.clients 0 = some client ∧ client.stage = .loggedIn ∧
    ∃ (more : _) (s' : Server) (new : Client),
      Run Step s more s' ∧ s'.clients 0 = some new ∧ WorkedOff client new := by
  obtain ⟨trace, s, client, hrun, hc, hstage⟩ := exists_loggedIn
  have hconnected := (reachable_sound ⟨trace, hrun⟩).connected hc (by rw [hstage]; decide)
  obtain ⟨more, s', new, hmore, -, hnew, hworked⟩ :=
    exists_workedOff ⟨trace, hrun⟩ hc hconnected
  exact ⟨trace, s, client, hrun, hc, hstage, more, s', new, hmore, hnew, hworked⟩

end Server
end AsioRsps
