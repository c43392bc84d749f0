import AsioRsps.Connection
import AsioRsps.LabelledRuns
import AsioRsps.Transmission

/-!
# The write queue of a client

Sends, the functions they post to the strand, the completions of the writes, requested and
immediate disconnects, in any order. Nothing that is sent is lost, doubled or overtaken, and a
requested disconnect waits for what was sent before it and is not forgotten.
-/
namespace AsioRsps
open BitStrings (Byte)
open FallibleLoop (bind_eq_ok)
open LabelledRuns

namespace Client

/-! ## Events -/

/-- A server, and what it keeps no record of: the snapshots taken by `Send`, how many had been
taken when a disconnect was first requested, whether the strand has run a request, whether a
write has failed, and whether anything but a request has disconnected the client. -/
structure Link where
  server : Server
  sent : List (List Byte) := []
  requestedAt : Option Nat := none
  requestRun : Bool := false
  failed : Bool := false
  interrupted : Bool := false

inductive LinkEvent where
  | send (out : StreamBuffer)
  | requestDisconnect
  | reject (username : Name)
  | runPosted
  | written
  | writeFailed
  | disconnect
  | other

/-- What belongs to the writing of a client is the same. -/
structure SameQueue (old new : Client) : Prop where
  disconnected : new.disconnected = old.disconnected
  strand : new.strand = old.strand
  writeQueue : new.writeQueue = old.writeQueue
  writing : new.writing = old.writing
  pendingDisconnect : new.pendingDisconnect = old.pendingDisconnect
  asyncWrites : new.asyncWrites = old.asyncWrites
  completedWrites : new.completedWrites = old.completedWrites

/-- The strand runs the posted functions in order, and every write completes once. A login that
is rejected sends its response and then requests the disconnect. -/
inductive LinkStep (c : ClientId) : Link → LinkEvent → Link → Prop where
  | send {l : Link} {out : StreamBuffer} {s' : Server} : send l.server c out = .ok s' →
      LinkStep c l (.send out)
        { l with server := s', sent := l.sent ++ [out.buffer.take out.pos] }
  | requestDisconnect {l : Link} : LinkStep c l .requestDisconnect
      { l with
        server := requestDisconnect l.server c
        requestedAt := l.requestedAt.or (some l.sent.length) }
  | reject {l : Link} {username : Name} {s' : Server} :
      LoginHandler.response l.server c username = LoginResponse.accountOnline →
      LoginHandler.enterWorld l.server c username = .ok s' → LinkStep c l (.reject username)
        { l with
          server := s'
          sent := l.sent ++ [LoginHandler.replyBytes LoginResponse.accountOnline]
          requestedAt := l.requestedAt.or (some (l.sent.length + 1)) }
  | runPosted {l : Link} {client : Client} {s' : Server} : l.server.clients c = some client →
      runPosted l.server c = .ok s' → LinkStep c l .runPosted
        { l with
          server := s'
          requestRun := l.requestRun || client.strand.head? = some .requestDisconnect }
  | written {l : Link} {client : Client} {s' : Server} : l.server.clients c = some client →
      client.outstanding ≠ [] → written l.server c = .ok s' →
      LinkStep c l .written { l with server := s' }
  | writeFailed {l : Link} {client : Client} {s' : Server} : l.server.clients c = some client →
      client.outstanding ≠ [] → writeFailed l.server c = .ok s' →
      LinkStep c l .writeFailed { l with server := s', failed := true, interrupted := true }
  | disconnect {l : Link} {s' : Server} : disconnect l.server c = .ok s' →
      LinkStep c l .disconnect { l with server := s', interrupted := true }
  | other {l : Link} {client client' : Client} {s' : Server} :
      l.server.clients c = some client → s'.clients c = some client' → SameQueue client client' →
      LinkStep c l .other { l with server := s' }

/-! ## What the events do to the client -/

/-- What is left to be run of the strand, as snapshots. -/
def snapshots (strand : List Posted) : List (List Byte) :=
  strand.filterMap fun posted => match posted with
    | .push data => some data
    | .requestDisconnect => none

theorem snapshots_append (strand strand' : List Posted) :
    snapshots (strand ++ strand') = snapshots strand ++ snapshots strand' :=
  List.filterMap_append

theorem snapshots_nil : snapshots [] = [] := rfl

theorem snapshots_push (data : List Byte) (strand : List Posted) :
    snapshots (.push data :: strand) = data :: snapshots strand := rfl

theorem snapshots_request (strand : List Posted) :
    snapshots (.requestDisconnect :: strand) = snapshots strand := rfl

/-! ## The invariant -/

/-- A write is under way exactly when the queue is not empty, of the buffer at its front, unless
that write has failed; what has been sent is what has been handed over, what is queued behind,
and what is still posted, in this order; and what had been sent before a disconnect was
requested is in front of the request. -/
structure QueueSound (l : Link) (client : Client) : Prop where
  idle : client.writing = false → client.writeQueue = [] ∧
    client.completedWrites = client.asyncWrites.length
  busy : client.writing = true → ∃ done front rest, client.writeQueue = front :: rest ∧
    client.asyncWrites = done ++ [front] ∧ (client.completedWrites = done.length ∨
      client.completedWrites = done.length + 1 ∧ l.failed = true ∧ client.disconnected = true)
  sent : l.sent = client.asyncWrites ++ (client.writeQueue.tail ++ snapshots client.strand)
  bound : ∀ n, l.requestedAt = some n → n ≤ l.sent.length
  posted : ∀ before after, client.strand = before ++ .requestDisconnect :: after →
    ∃ n, l.requestedAt = some n ∧
      n ≤ client.asyncWrites.length + client.writeQueue.tail.length + (snapshots before).length
  pending : client.pendingDisconnect = true → ∃ n, l.requestedAt = some n ∧
    n ≤ client.asyncWrites.length + client.writeQueue.tail.length
  cause : client.disconnected = true → l.interrupted = true ∨
    ∃ n, l.requestedAt = some n ∧ n ≤ client.completedWrites

/-- After a request has been run the client is disconnected, or a write is under way at whose
end it will be. -/
def Graceful (l : Link) (client : Client) : Prop :=
  l.requestRun = true → client.disconnected = true ∨
    client.writing = true ∧ client.pendingDisconnect = true

theorem queueSound_start (s : Server) : QueueSound { server := s } {} where
  idle _ := ⟨rfl, rfl⟩
  busy h := nomatch h
  sent := rfl
  bound _ h := nomatch h
  posted before after h := by
    cases before with
    | nil => cases h
    | cons => cases h
  pending h := nomatch h
  cause h := nomatch h

/-- A snapshot is posted. -/
theorem QueueSound.send {l : Link} {client : Client} (h : QueueSound l client) (s' : Server)
    (data : List Byte) : QueueSound { l with server := s', sent := l.sent ++ [data] }
      { client with strand := client.strand ++ [.push data] } where
  idle := h.idle
  busy := h.busy
  sent := by
    change l.sent ++ [data] = _
    rw [h.sent, snapshots_append]
    simp only [List.append_assoc]
    rfl
  bound n hn := by
    rw [List.length_append]
    exact Nat.le_add_right_of_le (h.bound n hn)
  posted before after hsplit := by
    rcases split_snoc hsplit with ⟨after', -, hold⟩ | ⟨-, hlast, -⟩
    · exact h.posted before after' hold
    · cases hlast
  pending := h.pending
  cause := h.cause

/-- A request is posted. -/
theorem QueueSound.request {l : Link} {client : Client} (h : QueueSound l client) (s' : Server) :
    QueueSound
      { l with server := s', requestedAt := l.requestedAt.or (some l.sent.length) }
      { client with strand := client.strand ++ [.requestDisconnect] } := by
  -- the first request keeps its number
  have hkeep {m : Nat} (hm : ∃ n, l.requestedAt = some n ∧ n ≤ m) :
      ∃ n, l.requestedAt.or (some l.sent.length) = some n ∧ n ≤ m := by
    obtain ⟨n, hn, hle⟩ := hm
    exact ⟨n, by rw [hn]; rfl, hle⟩
  have hbound : ∃ n, l.requestedAt.or (some l.sent.length) = some n ∧ n ≤ l.sent.length := by
    cases hn : l.requestedAt with
    | none => exact ⟨l.sent.length, rfl, Nat.le_refl _⟩
    | some n => exact ⟨n, rfl, h.bound n hn⟩
  refine ⟨h.idle, h.busy, ?_, ?_, ?_, fun hp => hkeep (h.pending hp), ?_⟩
  · rw [h.sent, snapshots_append, snapshots_request, snapshots_nil, List.append_nil]
  · intro n hn
    obtain ⟨m, hm, hle⟩ := hbound
    obtain rfl := Option.some.inj (hm.symm.trans hn)
    exact hle
  · intro before after hsplit
    rcases split_snoc hsplit with ⟨after', -, hold⟩ | ⟨-, -, rfl⟩
    · exact hkeep (h.posted before after' hold)
    · obtain ⟨n, hn, hle⟩ := hbound
      refine ⟨n, hn, ?_⟩
      rw [h.sent, List.length_append, List.length_append] at hle
      change n ≤ client.asyncWrites.length + client.writeQueue.tail.length +
        (snapshots client.strand).length
      omega
  · intro hd
    exact (h.cause hd).imp id (hkeep)

/-- The function posted by `Send` is run. -/
theorem QueueSound.push {l : Link} {client client' : Client} {data : List Byte}
    {strand : List Posted} (h : QueueSound l client) (hs : client.strand = .push data :: strand)
    (hrun : Client.push { client with strand } data = .ok client') (s' : Server) :
    QueueSound { l with server := s' } client' := by
  have hposted {before after : List Posted}
      (hsplit : strand = before ++ .requestDisconnect :: after) :
      ∃ n, l.requestedAt = some n ∧ n ≤ client.asyncWrites.length +
        client.writeQueue.tail.length + ((snapshots before).length + 1) := by
    obtain ⟨n, hn, hle⟩ := h.posted (.push data :: before) after (by rw [hs, hsplit]; rfl)
    exact ⟨n, hn, hle⟩
  rw [Client.push] at hrun
  dsimp only at hrun
  cases hw : client.writing with
  | true =>
      obtain ⟨done, front, rest, hqueue, hasync, hdone⟩ := h.busy hw
      rw [hw, if_pos rfl] at hrun
      obtain rfl := Except.ok.inj hrun
      have htail : (client.writeQueue ++ [data]).tail = client.writeQueue.tail ++ [data] := by
        rw [hqueue]
        rfl
      refine ⟨fun hidle => (nomatch hidle), fun _ => ?_, ?_, h.bound, ?_, fun hp => ?_, h.cause⟩
      · exact ⟨done, front, rest ++ [data], by simp only [hqueue, List.cons_append], hasync, hdone⟩
      · rw [htail, h.sent, hs, snapshots_push]
        simp only [List.append_assoc, List.singleton_append]
      · intro before after hsplit
        obtain ⟨n, hn, hle⟩ := hposted hsplit
        refine ⟨n, hn, ?_⟩
        dsimp only
        rw [htail, List.length_append, List.length_singleton]
        omega
      · obtain ⟨n, hn, hle⟩ := h.pending hp
        refine ⟨n, hn, ?_⟩
        dsimp only
        rw [htail, List.length_append]
        omega
  | false =>
      obtain ⟨hqueue, hdone⟩ := h.idle hw
      rw [hw, if_neg Bool.false_ne_true, Client.doWrite] at hrun
      simp only [hqueue, List.nil_append] at hrun
      obtain rfl := Except.ok.inj hrun
      refine ⟨fun hidle => (nomatch hidle), fun _ => ?_, ?_, h.bound, ?_, fun hp => ?_, h.cause⟩
      · exact ⟨client.asyncWrites, data, [], rfl, rfl, .inl hdone⟩
      · rw [h.sent, hs, hqueue, snapshots_push]
        simp only [List.tail_nil, List.tail_cons, List.nil_append, List.append_assoc,
          List.singleton_append]
      · intro before after hsplit
        obtain ⟨n, hn, hle⟩ := hposted hsplit
        refine ⟨n, hn, ?_⟩
        rw [hqueue] at hle
        simp only [List.length_append, List.length_singleton, List.tail_nil, List.tail_cons,
          List.length_nil] at hle ⊢
        omega
      · obtain ⟨n, hn, hle⟩ := h.pending hp
        refine ⟨n, hn, ?_⟩
        rw [hqueue] at hle
        simp only [List.length_append, List.length_singleton, List.tail_nil, List.tail_cons,
          List.length_nil] at hle ⊢
        omega

/-- The request is run: from now on a disconnect is pending. -/
theorem QueueSound.runRequest {l : Link} {client : Client} {strand : List Posted}
    (h : QueueSound l client) (hs : client.strand = .requestDisconnect :: strand) :
    QueueSound l { client with strand, pendingDisconnect := true } where
  idle := h.idle
  busy := h.busy
  sent := by rw [h.sent, hs, snapshots_request]
  bound := h.bound
  posted before after hsplit := by
    change strand = _ at hsplit
    exact h.posted (.requestDisconnect :: before) after (by rw [hs, hsplit]; rfl)
  pending _ := by
    obtain ⟨n, hn, hle⟩ := h.posted [] strand hs
    exact ⟨n, hn, hle⟩
  cause := h.cause

/-- A disconnect, for a reason. -/
theorem QueueSound.disconnect {l : Link} {client : Client} (h : QueueSound l client)
    (hcause : l.interrupted = true ∨ ∃ n, l.requestedAt = some n ∧ n ≤ client.completedWrites) :
    QueueSound l (if client.disconnected then client else client.closed) := by
  split
  · exact h
  · refine ⟨h.idle, fun hw => ?_, h.sent, h.bound, h.posted, h.pending, fun _ => hcause⟩
    obtain ⟨done, front, rest, hqueue, hasync, hdone⟩ := h.busy hw
    refine ⟨done, front, rest, hqueue, hasync, hdone.imp id fun hfailed => ?_⟩
    exact ⟨hfailed.1, hfailed.2.1, rfl⟩

/-- Anything but a request may be the reason. -/
theorem QueueSound.interrupt {l : Link} {client : Client} (h : QueueSound l client) (s' : Server) :
    QueueSound { l with server := s', interrupted := true } client where
  idle := h.idle
  busy := h.busy
  sent := h.sent
  bound := h.bound
  posted := h.posted
  pending := h.pending
  cause _ := .inl rfl

theorem disconnected_disconnect (client : Client) :
    (if client.disconnected then client else client.closed).disconnected = true := by
  split
  · assumption
  · rfl

/-- The only write that can be outstanding is that of the front of the queue. -/
theorem QueueSound.exists_outstanding {l : Link} {client : Client} (h : QueueSound l client)
    (hne : client.outstanding ≠ []) : ∃ done front rest, client.writing = true ∧
      client.writeQueue = front :: rest ∧ client.asyncWrites = done ++ [front] ∧
      client.completedWrites = done.length ∧ client.outstanding = [front] := by
  cases hw : client.writing with
  | false =>
      rw [outstanding, (h.idle hw).2, List.drop_length] at hne
      exact absurd rfl hne
  | true =>
      obtain ⟨done, front, rest, hqueue, hasync, hdone⟩ := h.busy hw
      rcases hdone with hdone | ⟨hdone, -⟩
      · refine ⟨done, front, rest, rfl, hqueue, hasync, hdone, ?_⟩
        rw [outstanding, hasync, hdone, List.drop_left]
      · have hlength : (done ++ [front]).length = done.length + 1 := List.length_append
        rw [outstanding, hasync, hdone, ← hlength, List.drop_length] at hne
        exact absurd rfl hne

/-- A write has completed, and the next one is started. -/
theorem QueueSound.writeNext {l : Link} {client client' : Client} {writeQueue : List (List Byte)}
    {front : List Byte} (h : QueueSound l client) (hne : client.outstanding ≠ [])
    (hqueue : client.writeQueue = front :: writeQueue)
    (hrun : Client.doWrite { client with
      writeQueue, completedWrites := client.completedWrites + 1 } = .ok client') (s' : Server) :
    QueueSound { l with server := s' } client' := by
  obtain ⟨done, front', _, -, hqueue', hasync, hdone, -⟩ := h.exists_outstanding hne
  obtain ⟨rfl, -⟩ := List.cons_eq_cons.mp (hqueue.symm.trans hqueue')
  cases writeQueue with
  | nil => cases hrun
  | cons next rest =>
      obtain rfl := Except.ok.inj hrun
      have htail : client.writeQueue.tail.length = rest.length + 1 := by
        rw [hqueue]
        rfl
      have hlength : (client.asyncWrites ++ [next]).length = client.asyncWrites.length + 1 :=
        List.length_append
      refine ⟨fun hidle => (nomatch hidle), fun _ => ?_, ?_, h.bound, ?_, fun hp => ?_, ?_⟩
      · refine ⟨client.asyncWrites, next, rest, rfl, rfl, .inl ?_⟩
        change client.completedWrites + 1 = client.asyncWrites.length
        rw [hasync, List.length_append, hdone]
        rfl
      · change l.sent = client.asyncWrites ++ [next] ++ (rest ++ snapshots client.strand)
        rw [h.sent, hqueue, List.append_assoc]
        rfl
      · intro before after hsplit
        obtain ⟨n, hn, hle⟩ := h.posted before after hsplit
        refine ⟨n, hn, ?_⟩
        rw [htail] at hle
        simp only [hlength, List.tail_cons]
        omega
      · obtain ⟨n, hn, hle⟩ := h.pending hp
        refine ⟨n, hn, ?_⟩
        rw [htail] at hle
        simp only [hlength, List.tail_cons]
        omega
      · intro hd
        refine (h.cause hd).imp id ?_
        rintro ⟨n, hn, hle⟩
        exact ⟨n, hn, Nat.le_succ_of_le hle⟩

/-- The last write has completed. -/
theorem QueueSound.writeLast {l : Link} {client : Client} {front : List Byte}
    (h : QueueSound l client) (hne : client.outstanding ≠ [])
    (hqueue : client.writeQueue = [front]) : QueueSound l { client with
      writeQueue := [], completedWrites := client.completedWrites + 1, writing := false } := by
  obtain ⟨done, front', _, -, hqueue', hasync, hdone, -⟩ := h.exists_outstanding hne
  obtain ⟨rfl, -⟩ := List.cons_eq_cons.mp (hqueue.symm.trans hqueue')
  have hall : client.completedWrites + 1 = client.asyncWrites.length := by
    rw [hasync, List.length_append, hdone]
    rfl
  refine ⟨fun _ => ⟨rfl, hall⟩, fun hbusy => (nomatch hbusy), ?_, h.bound, ?_, ?_, ?_⟩
  · rw [h.sent, hqueue]
    rfl
  · intro before after hsplit
    obtain ⟨n, hn, hle⟩ := h.posted before after hsplit
    rw [hqueue] at hle
    exact ⟨n, hn, hle⟩
  · intro hp
    obtain ⟨n, hn, hle⟩ := h.pending hp
    rw [hqueue] at hle
    exact ⟨n, hn, hle⟩
  · intro hd
    refine (h.cause hd).imp id ?_
    rintro ⟨n, hn, hle⟩
    exact ⟨n, hn, Nat.le_succ_of_le hle⟩

/-- What was sent before the request is out once nothing is being written. -/
theorem QueueSound.requested_written {l : Link} {client : Client} (h : QueueSound l client)
    (hw : client.writing = false) (hp : client.pendingDisconnect = true) :
    ∃ n, l.requestedAt = some n ∧ n ≤ client.completedWrites := by
  obtain ⟨n, hn, hle⟩ := h.pending hp
  obtain ⟨hqueue, hdone⟩ := h.idle hw
  rw [hqueue] at hle
  exact ⟨n, hn, hle.trans hdone.ge⟩

/-- A write has failed. -/
theorem QueueSound.writeFailed {l : Link} {client : Client} (h : QueueSound l client)
    (hne : client.outstanding ≠ []) (s' : Server) :
    QueueSound { l with server := s', failed := true, interrupted := true }
      (if client.disconnected then { client with completedWrites := client.completedWrites + 1 }
        else { client with completedWrites := client.completedWrites + 1 }.closed) := by
  obtain ⟨done, front, rest, hw, hqueue, hasync, hdone, -⟩ := h.exists_outstanding hne
  have hfailed : client.completedWrites + 1 = done.length + 1 := by rw [hdone]
  split
  · rename_i hd
    exact ⟨fun hidle => absurd (hw.symm.trans hidle) (by decide),
      fun _ => ⟨done, front, rest, hqueue, hasync, .inr ⟨hfailed, rfl, hd⟩⟩, h.sent, h.bound,
      h.posted, h.pending, fun _ => .inl rfl⟩
  · exact ⟨fun hidle => absurd (hw.symm.trans hidle) (by decide),
      fun _ => ⟨done, front, rest, hqueue, hasync, .inr ⟨hfailed, rfl, rfl⟩⟩, h.sent, h.bound,
      h.posted, h.pending, fun _ => .inl rfl⟩

theorem QueueSound.other {l : Link} {client client' : Client} (h : QueueSound l client)
    (hq : SameQueue client client') (s' : Server) :
    QueueSound { l with server := s' } client' where
  idle := by
    rw [hq.writing, hq.writeQueue, hq.completedWrites, hq.asyncWrites]
    exact h.idle
  busy := by
    rw [hq.writing, hq.writeQueue, hq.completedWrites, hq.asyncWrites, hq.disconnected]
    exact h.busy
  sent := by
    rw [hq.asyncWrites, hq.writeQueue, hq.strand]
    exact h.sent
  bound := h.bound
  posted := by
    rw [hq.asyncWrites, hq.writeQueue, hq.strand]
    exact h.posted
  pending := by
    rw [hq.pendingDisconnect, hq.asyncWrites, hq.writeQueue]
    exact h.pending
  cause := by
    rw [hq.disconnected, hq.completedWrites]
    exact h.cause

/-! ## Steps -/

theorem send_inv {s s' : Server} {c : ClientId} {client : Client} {out : StreamBuffer}
    (hc : s.clients c = some client) (h : send s c out = .ok s') :
    s'.clients c = some { client with
      strand := client.strand ++ [.push (out.buffer.take out.pos)] } := by
  rw [send] at h
  split at h
  · cases h
  · rw [Server.modifyClient_eq hc] at h
    obtain rfl := Except.ok.inj h
    exact Server.setClient_clients_self ..

theorem requestDisconnect_client {s : Server} {c : ClientId} {client : Client}
    (hc : s.clients c = some client) : (requestDisconnect s c).clients c =
      some { client with strand := client.strand ++ [.requestDisconnect] } := by
  rw [requestDisconnect, Server.modifyClient_eq hc]
  exact Server.setClient_clients_self ..

/-- After a push a write is under way. -/
theorem push_fields {client client' : Client} {data : List Byte}
    (h : client.push data = .ok client') : client'.writing = true ∧
      client'.disconnected = client.disconnected ∧
      client'.pendingDisconnect = client.pendingDisconnect := by
  rw [Client.push] at h
  dsimp only at h
  split at h
  · rename_i hw
    obtain rfl := Except.ok.inj h
    exact ⟨hw, rfl, rfl⟩
  · rw [Client.doWrite] at h
    split at h
    · cases h
    · obtain rfl := Except.ok.inj h
      exact ⟨rfl, rfl, rfl⟩

/-- The outcome for the client of running the function posted first. -/
theorem runPosted_sound {l : Link} {c : ClientId} {client : Client} {s' : Server}
    (hc : l.server.clients c = some client) (hq : QueueSound l client) (hg : Graceful l client)
    (h : runPosted l.server c = .ok s') : ∃ client', s'.clients c = some client' ∧
      QueueSound { l with server := s' } client' ∧
      Graceful { l with
        server := s'
        requestRun := l.requestRun || client.strand.head? = some .requestDisconnect } client' := by
  obtain ⟨found, hlock, h⟩ := bind_eq_ok.mp h
  obtain rfl := Option.some.inj (hc.symm.trans (Server.clients_of_lockClient hlock))
  split at h
  · rename_i hs
    obtain rfl := Except.ok.inj h
    refine ⟨client, hc, hq, fun hrun => hg ?_⟩
    simpa [hs] using hrun
  · rename_i data strand hs
    obtain ⟨client', hpush, h⟩ := bind_eq_ok.mp h
    obtain rfl := Except.ok.inj h
    refine ⟨client', Server.setClient_clients_self .., hq.push hs hpush _, fun hrun => ?_⟩
    obtain ⟨hw, hd, hp⟩ := push_fields hpush
    have hrun' : l.requestRun = true := by simpa [hs] using hrun
    rw [hd, hp]
    exact (hg hrun').imp id fun hbusy => ⟨hw, hbusy.2⟩
  · rename_i strand hs
    have hrequest := hq.runRequest hs
    have hfound : (l.server.setClient c
        { client with strand, pendingDisconnect := true }).clients c =
        some { client with strand, pendingDisconnect := true } := Server.setClient_clients_self ..
    split at h
    · rename_i hidle
      have hw : client.writing = false := by
        rw [Bool.and_eq_true, Bool.not_eq_true'] at hidle
        exact hidle.1
      have hcause := hrequest.requested_written hw rfl
      exact ⟨_, disconnect_client hfound h, (hrequest.disconnect (.inr hcause)).other
        ⟨rfl, rfl, rfl, rfl, rfl, rfl, rfl⟩ s', fun _ => .inl (disconnected_disconnect _)⟩
    · rename_i hnot
      obtain rfl := Except.ok.inj h
      refine ⟨_, hfound, hrequest.other ⟨rfl, rfl, rfl, rfl, rfl, rfl, rfl⟩ _,
        fun _ => .inr ⟨?_, rfl⟩⟩
      by_contra hw
      rw [Bool.not_eq_true] at hw
      exact hnot (by rw [hw, (hq.idle hw).1]; rfl)

/-- The outcome for the client of a completed write. -/
theorem written_sound {l : Link} {c : ClientId} {client : Client} {s' : Server}
    (hc : l.server.clients c = some client) (hq : QueueSound l client) (hg : Graceful l client)
    (hne : client.outstanding ≠ []) (h : written l.server c = .ok s') :
    ∃ client', s'.clients c = some client' ∧ QueueSound { l with server := s' } client' ∧
      Graceful { l with server := s' } client' := by
  obtain ⟨found, hlock, h⟩ := bind_eq_ok.mp h
  obtain rfl := Option.some.inj (hc.symm.trans (Server.clients_of_lockClient hlock))
  split at h
  · cases h
  · rename_i front writeQueue hqueue
    dsimp only at h
    split at h
    · obtain ⟨client', hwrite, h⟩ := bind_eq_ok.mp h
      obtain rfl := Except.ok.inj h
      refine ⟨client', Server.setClient_clients_self .., hq.writeNext hne hqueue hwrite _,
        fun hrun => ?_⟩
      rw [Client.doWrite] at hwrite
      split at hwrite
      · cases hwrite
      · obtain rfl := Except.ok.inj hwrite
        exact (hg hrun).imp id fun hbusy => ⟨rfl, hbusy.2⟩
    · rename_i hlast
      obtain rfl := not_ne_iff.mp hlast
      have hidle := hq.writeLast hne hqueue
      have hfound : (l.server.setClient c { client with
          writeQueue := [], completedWrites := client.completedWrites + 1, writing := false
          }).clients c = some { client with
          writeQueue := [], completedWrites := client.completedWrites + 1, writing := false } :=
        Server.setClient_clients_self ..
      split at h
      · rename_i hp
        obtain ⟨t, hdisconnect, h⟩ := bind_eq_ok.mp h
        obtain rfl := Except.ok.inj h
        have ht := disconnect_client hfound hdisconnect
        have hsound := hidle.disconnect (.inr (hidle.requested_written rfl hp))
        have hmodified := congrArg (fun s => s.clients c)
          (Server.modifyClient_eq ht fun client => { client with pendingDisconnect := false })
        refine ⟨_, hmodified.trans (Server.setClient_clients_self ..), ?_, fun _ => .inl ?_⟩
        · exact ⟨hsound.idle, hsound.busy, hsound.sent, hsound.bound, hsound.posted,
            fun hpending => (nomatch hpending), hsound.cause⟩
        · exact disconnected_disconnect _
      · rename_i hp
        obtain rfl := Except.ok.inj h
        refine ⟨_, hfound, hidle.other ⟨rfl, rfl, rfl, rfl, rfl, rfl, rfl⟩ _, fun hrun => ?_⟩
        exact (hg hrun).imp id fun hbusy => absurd hbusy.2 hp

/-- The invariant of one client. -/
def LinkSound (c : ClientId) (l : Link) : Prop :=
  ∃ client, l.server.clients c = some client ∧ QueueSound l client ∧ Graceful l client

theorem LinkSound.step {c : ClientId} {l l' : Link} {e : LinkEvent} (h : LinkSound c l)
    (hs : LinkStep c l e l') : LinkSound c l' := by
  obtain ⟨client, hc, hq, hg⟩ := h
  cases hs with
  | send hrun => exact ⟨_, send_inv hc hrun, hq.send _ _, hg⟩
  | requestDisconnect => exact ⟨_, requestDisconnect_client hc, hq.request _, hg⟩
  | @reject username _ hresponse hrun =>
      rw [LoginHandler.enterWorld_refused hc hresponse] at hrun
      obtain rfl := Except.ok.inj hrun
      refine ⟨_, requestDisconnect_client (Server.setClient_clients_self ..), ?_, hg⟩
      have hsame : SameQueue client { client with username } :=
        ⟨rfl, rfl, rfl, rfl, rfl, rfl, rfl⟩
      have hnamed := hq.other hsame l.server
      have hsent := (hnamed.send l.server
        (LoginHandler.replyBytes LoginResponse.accountOnline)).request l.server
      rw [List.length_append] at hsent
      exact hsent.other ⟨rfl, rfl, rfl, rfl, rfl, rfl, rfl⟩ _
  | runPosted hc' hrun =>
      obtain rfl := Option.some.inj (hc.symm.trans hc')
      obtain ⟨client', hc'', hq', hg'⟩ := runPosted_sound hc hq hg hrun
      exact ⟨client', hc'', ⟨hq'.idle, hq'.busy, hq'.sent, hq'.bound, hq'.posted, hq'.pending,
        hq'.cause⟩, hg'⟩
  | written hc' hne hrun =>
      obtain rfl := Option.some.inj (hc.symm.trans hc')
      exact written_sound hc hq hg hne hrun
  | writeFailed hc' hne hrun =>
      obtain rfl := Option.some.inj (hc.symm.trans hc')
      obtain ⟨found, hlock, hrun⟩ := bind_eq_ok.mp hrun
      obtain rfl := Option.some.inj (hc.symm.trans (Server.clients_of_lockClient hlock))
      have hclient := disconnect_client (Server.setClient_clients_self ..) hrun
      exact ⟨_, hclient, hq.writeFailed hne _, fun _ => .inl (disconnected_disconnect _)⟩
  | disconnect hrun =>
      exact ⟨_, disconnect_client hc hrun, (hq.interrupt _).disconnect (.inl rfl),
        fun _ => .inl (disconnected_disconnect _)⟩
  | other hc' hc'' hsame =>
      obtain rfl := Option.some.inj (hc.symm.trans hc')
      refine ⟨_, hc'', hq.other hsame _, fun hrun => ?_⟩
      rw [hsame.disconnected, hsame.writing, hsame.pendingDisconnect]
      exact hg hrun

theorem run_linkSound {c : ClientId} {s : Server} {trace : List (Taken Link LinkEvent)} {l : Link}
    (hc : s.clients c = some {}) (h : Run (LinkStep c) { server := s } trace l) : LinkSound c l :=
  h.invariant ⟨{}, hc, queueSound_start s, fun hrun => (nomatch hrun)⟩
    fun _ _ _ hl hs => hl.step hs

/-! ## Nothing is lost, doubled or overtaken -/

theorem QueueSound.idle_of_outstanding {l : Link} {client : Client} (h : QueueSound l client)
    (hout : client.outstanding = []) :
    client.writing = false ∨ l.failed = true ∧ client.disconnected = true := by
  cases hw : client.writing with
  | false => exact .inl rfl
  | true =>
      obtain ⟨done, front, rest, -, hasync, hdone⟩ := h.busy hw
      rcases hdone with hdone | ⟨-, hfailed⟩
      · rw [outstanding, hasync, hdone, List.drop_left] at hout
        cases hout
      · exact .inr hfailed

theorem QueueSound.outstanding_of_idle {l : Link} {client : Client} (h : QueueSound l client)
    (hw : client.writing = false) : client.outstanding = [] := by
  rw [outstanding, (h.idle hw).2, List.drop_length]

/-- What has been handed over is a prefix of what has been sent, and all of it but what is still
posted once nothing is being written. -/
theorem run_writes {c : ClientId} {s : Server} {trace : List (Taken Link LinkEvent)} {l : Link}
    (hc : s.clients c = some {}) (h : Run (LinkStep c) { server := s } trace l) :
    ∃ client, l.server.clients c = some client ∧ client.outstanding.length ≤ 1 ∧
      (client.outstanding ≠ [] → client.writing = true) ∧ client.asyncWrites <+: l.sent ∧
      (client.outstanding = [] → l.failed = false →
        l.sent = client.asyncWrites ++ snapshots client.strand) := by
  obtain ⟨client, hfound, hq, -⟩ := run_linkSound hc h
  refine ⟨client, hfound, ?_, fun hne => ?_, ?_, fun hout hfailed => ?_⟩
  · by_cases hout : client.outstanding = []
    · rw [hout]
      exact Nat.zero_le 1
    · obtain ⟨_, _, _, -, -, -, -, hone⟩ := hq.exists_outstanding hout
      rw [hone]
      exact Nat.le_refl 1
  · obtain ⟨_, _, _, hw, -⟩ := hq.exists_outstanding hne
    exact hw
  · rw [hq.sent]
    exact List.prefix_append ..
  · rcases hq.idle_of_outstanding hout with hw | ⟨hfailed', -⟩
    · rw [hq.sent, (hq.idle hw).1]
      rfl
    · exact absurd (hfailed'.symm.trans hfailed) (by decide)

def oneByte : StreamBuffer := { buffer := [0], pos := 1 }

/-- One byte is sent and written, and a second one behind it. -/
theorem run_writes_twice : ∃ trace l client,
    Run (LinkStep 0) { server := Server.initial.accept 0 } trace l ∧ trace.length = 5 ∧
    l.server.clients 0 = some client ∧ client.outstanding.length ≤ 1 ∧
    (client.outstanding ≠ [] → client.writing = true) ∧ client.asyncWrites <+: l.sent ∧
    (client.outstanding = [] → l.failed = false →
      l.sent = client.asyncWrites ++ snapshots client.strand) := by
  have hstart : Run (LinkStep 0) { server := Server.initial.accept 0 } [] _ := .start
  have hposted := (hstart.snoc (@LinkStep.send 0 _ oneByte _ rfl)).snoc
    (@LinkStep.send 0 _ oneByte _ rfl)
  have hrun := ((hposted.snoc (.runPosted rfl rfl)).snoc (.runPosted rfl rfl)).snoc
    (.written rfl (by decide) rfl)
  obtain ⟨client, h⟩ := run_writes rfl hrun
  exact ⟨_, _, client, hrun, rfl, h⟩

/-! ## A requested disconnect -/

/-- The state in which a handler calls `Disconnect` because a disconnect is pending. -/
inductive PendingCall (c : ClientId) (s : Server) : LinkEvent → Server → Prop where
  | requestDisconnect {client : Client} {strand : List Posted} : s.clients c = some client →
      client.strand = .requestDisconnect :: strand → client.writing = false →
      client.writeQueue = [] →
      PendingCall c s .runPosted (s.setClient c { client with strand, pendingDisconnect := true })
  | written {client : Client} {front : List Byte} : s.clients c = some client →
      client.writeQueue = [front] → client.pendingDisconnect = true →
      PendingCall c s .written (s.setClient c { client with
        writeQueue := [], completedWrites := client.completedWrites + 1, writing := false })

theorem runPosted_pendingCall {c : ClientId} {s called : Server}
    (h : PendingCall c s .runPosted called) : runPosted s c = disconnect called c := by
  cases h with
  | requestDisconnect hc hs hw hqueue =>
      rw [runPosted, Server.lockClient_eq hc]
      dsimp only [bind, Except.bind]
      split
      · cases hs.symm.trans ‹_›
      · cases hs.symm.trans ‹_›
      · rename_i hstrand
        obtain ⟨-, rfl⟩ := List.cons_eq_cons.mp (hs.symm.trans hstrand)
        exact if_pos (by rw [hw, hqueue]; rfl)

theorem written_pendingCall {c : ClientId} {s called : Server}
    (h : PendingCall c s .written called) : written s c = (do
      let s ← disconnect called c
      return s.modifyClient c fun client => { client with pendingDisconnect := false }) := by
  cases h with
  | written hc hqueue hp =>
      rw [written, Server.lockClient_eq hc]
      dsimp only [bind, Except.bind]
      split
      · cases hqueue.symm.trans ‹_›
      · rename_i hcons
        obtain ⟨-, rfl⟩ := List.cons_eq_cons.mp (hqueue.symm.trans hcons)
        rw [if_neg (not_not_intro rfl), if_pos hp]

/-- Other posted functions and completions do not disconnect. -/
theorem disconnected_of_not_pendingCall {c : ClientId} {l l' : Link} {e : LinkEvent}
    {client client' : Client} (hs : LinkStep c l e l') (he : e = .runPosted ∨ e = .written)
    (hc : l.server.clients c = some client) (hc' : l'.server.clients c = some client')
    (hno : ∀ called, ¬ PendingCall c l.server e called) :
    client'.disconnected = client.disconnected := by
  cases hs with
  | runPosted _ hrun =>
      obtain ⟨found, hlock, hrun⟩ := bind_eq_ok.mp hrun
      obtain rfl := Option.some.inj (hc.symm.trans (Server.clients_of_lockClient hlock))
      split at hrun
      · obtain rfl := Except.ok.inj hrun
        rw [Option.some.inj (hc'.symm.trans hc)]
      · obtain ⟨pushed, hpush, hrun⟩ := bind_eq_ok.mp hrun
        obtain rfl := Except.ok.inj hrun
        rw [Option.some.inj (hc'.symm.trans (Server.setClient_clients_self ..))]
        exact (push_fields hpush).2.1
      · rename_i strand hstrand
        split at hrun
        · rename_i hidle
          rw [Bool.and_eq_true, Bool.not_eq_true', List.isEmpty_iff] at hidle
          exact absurd (.requestDisconnect hc hstrand hidle.1 hidle.2) (hno _)
        · obtain rfl := Except.ok.inj hrun
          rw [Option.some.inj (hc'.symm.trans (Server.setClient_clients_self ..))]
  | written _ _ hrun =>
      obtain ⟨found, hlock, hrun⟩ := bind_eq_ok.mp hrun
      obtain rfl := Option.some.inj (hc.symm.trans (Server.clients_of_lockClient hlock))
      split at hrun
      · cases hrun
      · rename_i front writeQueue hqueue
        dsimp only at hrun
        split at hrun
        · obtain ⟨next, hwrite, hrun⟩ := bind_eq_ok.mp hrun
          obtain rfl := Except.ok.inj hrun
          rw [Option.some.inj (hc'.symm.trans (Server.setClient_clients_self ..))]
          rw [Client.doWrite] at hwrite
          split at hwrite
          · cases hwrite
          · rw [← Except.ok.inj hwrite]
        · rename_i hlast
          obtain rfl := not_ne_iff.mp hlast
          split at hrun
          · rename_i hp
            exact absurd (.written hc hqueue hp) (hno _)
          · obtain rfl := Except.ok.inj hrun
            rw [Option.some.inj (hc'.symm.trans (Server.setClient_clients_self ..))]
  | _ => rcases he with he | he <;> cases he

/-- Nothing is queued and no write is under way when a handler disconnects because of a
request. -/
theorem LinkSound.pendingCall {c : ClientId} {l : Link} {e : LinkEvent} {called : Server}
    (h : LinkSound c l) (hcall : PendingCall c l.server e called) :
    ∃ client, called.clients c = some client ∧ client.pendingDisconnect = true ∧
      client.writeQueue = [] ∧ client.writing = false ∧ client.outstanding = [] := by
  obtain ⟨client, hc, hq, -⟩ := h
  cases hcall with
  | requestDisconnect hc' hstrand hw hqueue =>
      obtain rfl := Option.some.inj (hc.symm.trans hc')
      exact ⟨_, Server.setClient_clients_self .., rfl, hqueue, hw, hq.outstanding_of_idle hw⟩
  | written hc' hqueue hp =>
      obtain rfl := Option.some.inj (hc.symm.trans hc')
      refine ⟨_, Server.setClient_clients_self .., hp, rfl, rfl, ?_⟩
      cases hout : client.outstanding with
      | nil =>
          have hdrop := congrArg (List.drop 1) hout
          rw [outstanding, List.drop_drop, List.drop_nil] at hdrop
          exact hdrop
      | cons data rest =>
          have hne : client.outstanding ≠ [] := by
            rw [hout]
            exact List.cons_ne_nil data rest
          exact (hq.writeLast hne hqueue).outstanding_of_idle rfl

/-- What has been sent stays sent, and the number of the first request stays. -/
structure Later (l l' : Link) : Prop where
  sent : l.sent <+: l'.sent
  requestedAt : ∀ n, l.requestedAt = some n → l'.requestedAt = some n

theorem LinkStep.later {c : ClientId} {l l' : Link} {e : LinkEvent} (hs : LinkStep c l e l') :
    Later l l' := by
  have hor {n m : Nat} (hn : l.requestedAt = some n) : l.requestedAt.or (some m) = some n := by
    rw [hn]
    rfl
  cases hs with
  | send => exact ⟨List.prefix_append .., fun _ hn => hn⟩
  | requestDisconnect => exact ⟨List.prefix_refl _, fun _ hn => hor hn⟩
  | reject => exact ⟨List.prefix_append .., fun _ hn => hor hn⟩
  | _ => exact ⟨List.prefix_refl _, fun _ hn => hn⟩

theorem LinkStep.reject_after {c : ClientId} {l l' : Link} {e : LinkEvent}
    (hs : LinkStep c l e l') (username : Name) (he : e = .reject username)
    (hnone : l.requestedAt = none) :
    l'.sent = l.sent ++ [LoginHandler.replyBytes LoginResponse.accountOnline] ∧
      l'.requestedAt = some (l.sent.length + 1) := by
  cases hs with
  | reject =>
      refine ⟨rfl, ?_⟩
      dsimp only
      rw [hnone]
      rfl
  | _ => cases he

theorem QueueSound.completedWrites_le {l : Link} {client : Client} (h : QueueSound l client) :
    client.completedWrites ≤ client.asyncWrites.length := by
  cases hw : client.writing with
  | false => exact (h.idle hw).2.le
  | true =>
      obtain ⟨done, front, rest, -, hasync, hdone⟩ := h.busy hw
      rw [hasync, List.length_append, List.length_singleton]
      rcases hdone with hdone | ⟨hdone, -⟩
      · exact hdone.le.trans (Nat.le_succ _)
      · exact hdone.le

/-- A disconnect because of a request never cuts off a write, it is not forgotten, and the
response to a rejected login is written before it. -/
theorem run_graceful {c : ClientId} {s : Server} {trace : List (Taken Link LinkEvent)} {l : Link}
    (hc : s.clients c = some {}) (h : Run (LinkStep c) { server := s } trace l) :
    (∀ t ∈ trace, ∀ called, PendingCall c t.before.server t.label called →
      ∃ client, called.clients c = some client ∧ client.pendingDisconnect = true ∧
        client.writeQueue = [] ∧ client.writing = false ∧ client.outstanding = []) ∧
    ∃ client, l.server.clients c = some client ∧
      (l.requestRun = true → client.outstanding = [] → client.disconnected = true) ∧
      ∀ t ∈ trace, ∀ username, t.label = .reject username → t.before.requestedAt = none →
        client.disconnected = true → l.interrupted = false →
        t.before.sent ++ [LoginHandler.replyBytes LoginResponse.accountOnline] <+:
          client.asyncWrites.take client.completedWrites := by
  have hstart : LinkSound c { server := s } :=
    ⟨{}, hc, queueSound_start s, fun hrun => (nomatch hrun)⟩
  have hpreserved (l : Link) (e : LinkEvent) (l' : Link) (hl : LinkSound c l)
      (hs : LinkStep c l e l') : LinkSound c l' := hl.step hs
  have hlater := h.forall_later (R := Later) (fun l => ⟨List.prefix_refl _, fun _ hn => hn⟩)
    (fun _ _ _ h₁ h₂ => ⟨h₁.sent.trans h₂.sent, fun n hn => h₂.requestedAt n (h₁.requestedAt n hn)⟩)
    fun _ _ _ hs => hs.later
  refine ⟨h.forall_steps hstart hpreserved
    fun l e l' hl hs called hcall => hl.pendingCall hcall, ?_⟩
  obtain ⟨client, hfound, hq, hg⟩ := run_linkSound hc h
  refine ⟨client, hfound, fun hrun hout => ?_, ?_⟩
  · rcases hg hrun with hd | ⟨hw, -⟩
    · exact hd
    · rcases hq.idle_of_outstanding hout with hidle | ⟨-, hd⟩
      · exact absurd (hw.symm.trans hidle) (by decide)
      · exact hd
  · intro t ht username hlabel hnone hd hquiet
    obtain ⟨hsent, hrequested⟩ := h.forall_steps hstart hpreserved
      (Q := fun t => ∀ username, t.label = .reject username → t.before.requestedAt = none →
        t.after.sent = t.before.sent ++ [LoginHandler.replyBytes LoginResponse.accountOnline] ∧
          t.after.requestedAt = some (t.before.sent.length + 1))
      (fun _ _ _ _ hs => hs.reject_after) t ht username hlabel hnone
    have hlast := (hlater t ht).requestedAt _ hrequested
    rcases hq.cause hd with hinterrupted | ⟨n, hn, hle⟩
    · exact absurd (hinterrupted.symm.trans hquiet) (by decide)
    · obtain rfl := Option.some.inj (hlast.symm.trans hn)
      have hprefix := (hlater t ht).sent
      rw [hsent, hq.sent] at hprefix
      have hlength : (t.before.sent ++
          [LoginHandler.replyBytes LoginResponse.accountOnline]).length ≤
            client.completedWrites := by
        rw [List.length_append]
        exact hle
      rw [List.prefix_take_iff]
      exact ⟨List.prefix_of_prefix_length_le hprefix (List.prefix_append ..)
        (hlength.trans hq.completedWrites_le), hlength⟩

/-- A player is registered under a name that a second client is about to ask for. -/
def contested : Server :=
  { (Server.initial.accept 0).accept 1 with
    players := fun _ => { username := [97], client := 0 }
    nextPlayer := 1
    world := { players := AList.insert [97] 0 ∅ } }

/-- The second of two logins under one name is rejected: the response is written, and then the
client is disconnected. -/
theorem run_graceful_rejected : ∃ trace l client,
    Run (LinkStep 1) { server := contested } trace l ∧
    (∀ t ∈ trace, ∀ called, PendingCall 1 t.before.server t.label called →
      ∃ client, called.clients 1 = some client ∧ client.pendingDisconnect = true ∧
        client.writeQueue = [] ∧ client.writing = false ∧ client.outstanding = []) ∧
    l.server.clients 1 = some client ∧ l.requestRun = true ∧
    (l.requestRun = true → client.outstanding = [] → client.disconnected = true) ∧
    ∀ t ∈ trace, ∀ username, t.label = .reject username → t.before.requestedAt = none →
      client.disconnected = true → l.interrupted = false →
      t.before.sent ++ [LoginHandler.replyBytes LoginResponse.accountOnline] <+:
        client.asyncWrites.take client.completedWrites := by
  have hstart : Run (LinkStep 1) { server := contested } [] _ := .start
  have hrejected := hstart.snoc (.reject rfl (LoginHandler.enterWorld_refused rfl
    (show LoginHandler.response contested 1 [97] = LoginResponse.accountOnline by decide)))
  have hwriting := (hrejected.snoc (.runPosted rfl rfl)).snoc (.runPosted rfl rfl)
  have hrun := hwriting.snoc (.written rfl (by decide) rfl)
  obtain ⟨hcalls, client, hc, hdone⟩ := run_graceful rfl hrun
  exact ⟨_, _, client, hrun, hcalls, hc, rfl, hdone⟩

end Client
end AsioRsps
