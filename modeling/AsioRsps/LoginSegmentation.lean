import AsioRsps.Reachability
import AsioRsps.Segmentation

/-!
# A login cut into reads

The login block is parsed out of the one read in which its first byte arrives, and the buffer
is cleared behind it: a block that is cut disconnects its client, and the packets that arrive
in the same read as a block are dropped. A login is received like one whose request, block and
packets each have a read of their own exactly when neither is the case, or when the packets
are login blocks themselves, below the flood limit, and are refused like the first.
-/
namespace AsioRsps
open BitStrings (Byte)
open StreamBuffer FallibleLoop LabelledRuns

namespace StreamBuffer

/-- The buffer with more bytes behind it. -/
def extend (b : StreamBuffer) (more : List Byte) : StreamBuffer :=
  { b with buffer := b.buffer ++ more }

/-- What the computation reads and returns stays the same when more bytes follow. -/
def Stable {α : Type} (m : StreamM α) : Prop :=
  ∀ b a b' more, m b = .ok a b' → m (b.extend more) = .ok a (b'.extend more)

/-- The same of the values that are not `none`. -/
def Answers {α : Type} (m : StreamM (Option α)) : Prop :=
  ∀ b a b' more, m b = .ok (some a) b' → m (b.extend more) = .ok (some a) (b'.extend more)

theorem bind_inv {α β : Type} {m : StreamM α} {f : α → StreamM β} {b b'' : StreamBuffer}
    {r : β} (h : (m >>= f) b = .ok r b'') : ∃ a b', m b = .ok a b' ∧ f a b' = .ok r b'' := by
  simp only [Bind.bind, EStateM.bind] at h
  split at h
  · exact ⟨_, _, ‹_›, h⟩
  · cases h

theorem stable_pure {α : Type} (a : α) : Stable (pure a) := by
  intro b a' b' more h
  obtain ⟨rfl, rfl⟩ := EStateM.Result.ok.inj h
  rfl

theorem stable_throw {α : Type} (e : Fault) : Stable (throw e : StreamM α) := by
  intro b a b' more h
  cases h

theorem Stable.bind {α β : Type} {m : StreamM α} {f : α → StreamM β} (hm : Stable m)
    (hf : ∀ a, Stable (f a)) : Stable (m >>= f) := by
  intro b r b'' more h
  obtain ⟨a, b', hrun, hrest⟩ := bind_inv h
  rw [bind_ok (hm b a b' more hrun)]
  exact hf a b' r b'' more hrest

theorem Stable.answers {α : Type} {m : StreamM (Option α)} (hm : Stable m) : Answers m :=
  fun b a b' more h => hm b (some a) b' more h

theorem Stable.bind_answers {α β : Type} {m : StreamM α} {f : α → StreamM (Option β)}
    (hm : Stable m) (hf : ∀ a, Answers (f a)) : Answers (m >>= f) := by
  intro b r b'' more h
  obtain ⟨a, b', hrun, hrest⟩ := bind_inv h
  rw [bind_ok (hm b a b' more hrun)]
  exact hf a b' r b'' more hrest

/-- A computation that returns nothing on a short buffer is not hurt by a longer one. -/
theorem Answers.guard {α : Type} {m : StreamM (Option α)} (hm : Answers m) (n : Int) :
    Answers (get >>= fun b => if b.remaining < n then pure none else m) := by
  intro b r b' more h
  rw [get_bind] at h ⊢
  by_cases hshort : b.remaining < n
  · rw [if_pos hshort] at h
    cases h
  · have hlonger : ¬ (b.extend more).remaining < n := by
      simp only [remaining, extend, List.length_append] at hshort ⊢
      omega
    rw [if_neg hshort] at h
    rw [if_neg hlonger]
    exact hm b r b' more h

theorem stable_readByte (isSigned : Bool) (type : ValueType) : Stable (readByte isSigned type) := by
  intro b a b' more h
  cases hrest : b.rest with
  | nil =>
      rw [readByte_nil hrest] at h
      cases h
  | cons x xs =>
      rw [readByte_cons hrest] at h
      obtain ⟨rfl, rfl⟩ := EStateM.Result.ok.inj h
      have hlt : b.pos ≤ b.buffer.length := by
        have hlen := congrArg List.length hrest
        rw [rest, List.length_drop, List.length_cons] at hlen
        omega
      have hmore : (b.extend more).rest = x :: (xs ++ more) := by
        rw [rest, extend, List.drop_append_of_le_length hlt, ← rest, hrest]
        rfl
      rw [readByte_cons hmore]
      rfl

theorem stable_readShort : Stable readShort :=
  (stable_readByte _ _).bind fun _ => (stable_readByte _ _).bind fun _ => stable_pure _

theorem stable_readInt : Stable readInt :=
  (stable_readByte _ _).bind fun _ => (stable_readByte _ _).bind fun _ =>
    (stable_readByte _ _).bind fun _ => (stable_readByte _ _).bind fun _ => stable_pure _

theorem stable_readLong : Stable readLong :=
  (stable_readByte _ _).bind fun _ => (stable_readByte _ _).bind fun _ =>
    (stable_readByte _ _).bind fun _ => (stable_readByte _ _).bind fun _ =>
    (stable_readByte _ _).bind fun _ => (stable_readByte _ _).bind fun _ =>
    (stable_readByte _ _).bind fun _ => (stable_readByte _ _).bind fun _ => stable_pure _

theorem stable_readStringLoop (left : Nat) (acc : List Byte) :
    Stable (readStringLoop left acc) := by
  induction left generalizing acc with
  | zero =>
      refine (stable_readByte _ _).bind fun byte => ?_
      dsimp only
      split
      · exact stable_pure _
      · exact stable_throw _
  | succ left ih =>
      refine (stable_readByte _ _).bind fun byte => ?_
      dsimp only
      split
      · exact stable_pure _
      · exact ih _

end StreamBuffer

namespace LoginHandler

theorem stable_skipInts (n : Nat) : Stable (skipInts n) := by
  induction n with
  | zero => exact stable_pure ()
  | succ n ih => exact stable_readInt.bind fun _ => ih

theorem stable_readKeysAndName : Stable readKeysAndName := by
  refine (stable_readByte _ _).bind fun _ => (stable_skipInts 9).bind fun _ =>
    (stable_readByte _ _).bind fun _ => (stable_readByte _ _).bind fun rsaOpcode => ?_
  split
  · exact stable_pure _
  · exact stable_readLong.bind fun _ => stable_readLong.bind fun _ => stable_readInt.bind fun _ =>
      (stable_readStringLoop 1024 []).bind fun _ =>
        (stable_readStringLoop 1024 []).bind fun _ => stable_pure _

theorem answers_none : Answers (pure none : StreamM (Option LoginRequest)) :=
  (stable_pure none).answers

theorem answers_readLogin : Answers readLogin := by
  refine Answers.guard ((stable_readByte _ _).bind_answers fun loginType => ?_) 2
  split
  · exact answers_none
  · refine (stable_readByte _ _).bind_answers fun blockLength => Answers.guard ?_ _
    refine (stable_readByte _ _).bind_answers fun _ => ?_
    refine stable_readShort.bind_answers fun version => ?_
    split
    · exact answers_none
    · exact stable_readKeysAndName.answers

/-- A request is read the same when more bytes follow. -/
theorem loginRequest_append {data : List Byte} {r : LoginRequest}
    (h : loginRequest data = some r) (more : List Byte) :
    loginRequest (data ++ more) = some r := by
  simp only [loginRequest, exec] at h ⊢
  cases hread : readLogin (ofData data) with
  | error e b =>
      rw [hread] at h
      cases h
  | ok request b =>
      rw [hread] at h
      obtain rfl : request = some r := h
      have hmore : readLogin (ofData (data ++ more)) = .ok (some r) (b.extend more) :=
        answers_readLogin _ r b more hread
      rw [hmore]

/-- A login block: it asks for what `r` says, and it is as long as it declares. -/
structure LoginBlock (block : List Byte) (r : LoginRequest) : Prop where
  request : loginRequest block = some r
  length : ∃ loginType length body, block = loginType :: length :: body ∧
    body.length = length.toNat

/-- The first part of a login block asks for nothing. -/
theorem loginRequest_part {block : List Byte} {r : LoginRequest} (h : LoginBlock block r)
    {part missing : List Byte} (hparts : part ++ missing = block) (hmissing : missing ≠ []) :
    loginRequest part = none := by
  obtain ⟨loginType, length, body, rfl, hlength⟩ := h.length
  rcases part with _ | ⟨x, _ | ⟨y, part⟩⟩
  · rfl
  · rfl
  · obtain ⟨rfl, hrest⟩ := List.cons.inj hparts
    obtain ⟨rfl, hbody⟩ := List.cons.inj hrest
    have hshort : part.length < y.toNat := by
      have hlen := congrArg List.length hbody
      have hpos := List.length_pos_of_ne_nil hmissing
      rw [List.append_eq, List.length_append] at hlen
      omega
    let b := ofData (x :: y :: part)
    have hread : ∃ b', readLogin b = .ok none b' := by
      have hlong : ¬ b.remaining < 2 := by
        simp only [b, remaining, ofData, List.length_cons]
        omega
      have hleft : ((b.skip 1).skip 1).remaining < y.toNat := by
        simp only [b, remaining, ofData, skip_pos, skip_buffer, List.length_cons]
        omega
      rw [readLogin, get_bind, if_neg hlong,
        bind_ok (readByte_cons (rest_ofData (x :: y :: part)) true .standard), toByte_readValue]
      split
      · exact ⟨_, rfl⟩
      · rw [bind_ok (readByte_cons rfl true .standard), get_bind, toByte_readValue, if_pos hleft]
        exact ⟨_, rfl⟩
    obtain ⟨b', hread⟩ := hread
    simp only [loginRequest, exec]
    rw [hread]

end LoginHandler

/-- The ciphers a request sets. -/
def LoginRequest.decryptor (r : LoginRequest) : ISAACCipher :=
  ISAACCipher.new (LoginHandler.seed r.clientHalf r.serverHalf 0)

def LoginRequest.encryptor (r : LoginRequest) : ISAACCipher :=
  ISAACCipher.new (LoginHandler.seed r.clientHalf r.serverHalf 50)

namespace Client

/-! ## One read of the handshake -/

/-- What a login settles about a client. -/
structure Standing where
  stage : NetworkStage
  username : Name
  encryptor : Option ISAACCipher
  decryptor : Option ISAACCipher

def standing (client : Client) : Standing where
  stage := client.stage
  username := client.username
  encryptor := client.encryptor
  decryptor := client.decryptor

/-- The frames of a login that gets a slot. -/
def entranceFrames : List OutFrame := Player.loginFrames { x := 3200, y := 3200 }

/-- The standing of a client whose request has been answered. Under a name that is online it
stays where it was, and else it is logged in, with the frames of the login sent if the world
had a slot for it. -/
def answeredStanding (w : World) (r : LoginRequest) : Standing where
  stage := if w.players.lookup r.username = none then .loggedIn else .loggingIn
  username := r.username
  encryptor := some (r.encryptor.advance
    (if w.players.lookup r.username = none ∧ (World.getFreeIndex w).isSome = true then
      entranceFrames.length else 0))
  decryptor := some r.decryptor

/-- The rate limit has counted the same for both. -/
structure SameCount (old new : Client) : Prop where
  packets : new.packetsThisSecond = old.packetsThisSecond
  second : new.lastPacketSecond = old.lastPacketSecond

theorem BelowFlood.same {old new : Client} {reads : List Read} (h : BelowFlood old reads)
    (hsame : SameCount old new) : BelowFlood new reads :=
  belowFlood_congr h hsame.packets hsame.second

theorem SameCount.symm {old new : Client} (h : SameCount old new) : SameCount new old :=
  ⟨h.packets.symm, h.second.symm⟩

/-- A few reads never reach the flood limit, whenever they come. -/
theorem belowFlood_few {client : Client} {reads : List Read}
    (h : client.packetsThisSecond + reads.length ≤ 100) : BelowFlood client reads := by
  induction reads generalizing client with
  | nil => trivial
  | cons rd rds ih =>
      rw [List.length_cons] at h
      obtain ⟨hflood, hcount⟩ :=
        Server.countPacket_calm (show client.packetsThisSecond < 100 by omega) rd.now
      exact ⟨hflood, ih (by omega)⟩

/-- The client as its request finds it: counted, with the ciphers set. -/
def requesting (client : Client) (now : Int) (r : LoginRequest) : Client :=
  { (countPacket client now).1 with
    decryptor := some r.decryptor
    encryptor := some r.encryptor }

theorem outcome_standing {s s' : Server} {c : ClientId} {client : Client} {now : Int}
    {r : LoginRequest} (hstage : client.stage = .loggingIn)
    (ho : LoginHandler.Outcome s c (requesting client now r) r.encryptor r.username s') :
    ∃ client', s'.clients c = some client' ∧ client'.standing = answeredStanding s.world r ∧
      SameCount (countPacket client now).1 client' ∧
      (s.world.players.lookup r.username ≠ none → s'.world = s.world) := by
  have hstage' : (requesting client now r).stage = .loggingIn :=
    (countPacket_fields client now).1.trans hstage
  cases ho with
  | refused hname =>
      refine ⟨_, Server.setClient_clients_self .., ?_, ⟨rfl, rfl⟩, fun _ => rfl⟩
      simp only [answeredStanding, hname, reduceCtorEq, if_false, false_and,
        ISAACCipher.advance_zero]
      exact congrArg (Standing.mk · _ _ _) hstage'
  | full hname hfull =>
      have hslots : World.getFreeIndex s.world = none := World.getFreeIndex_eq_none.mpr hfull
      refine ⟨_, Server.setClient_clients_self .., ?_, ⟨rfl, rfl⟩, fun h => absurd hname h⟩
      simp only [answeredStanding, hname, hslots, Option.isSome_none, Bool.false_eq_true,
        and_false, if_true, if_false, ISAACCipher.advance_zero]
      rfl
  | @entered index hname hfree =>
      have hslots : (World.getFreeIndex s.world).isSome = true := by
        cases hfind : World.getFreeIndex s.world with
        | some slot => rfl
        | none =>
            have htaken := World.getFreeIndex_eq_none.mp hfind index
            rw [hfree] at htaken
            cases htaken
      have hclient := pushFrames_eq (LoginHandler.admitted (requesting client now r) r.username
        LoginResponse.ok s.nextPlayer) r.encryptor entranceFrames rfl
      refine ⟨_, Server.setClient_clients_self .., ?_, ?_, fun h => absurd hname h⟩
      · simp only [answeredStanding, hname, hslots, and_self, if_true]
        rw [← entranceFrames, hclient]
        rfl
      · rw [← entranceFrames, hclient]
        exact ⟨rfl, rfl⟩

/-- A read that holds a request is answered. -/
structure Answered (s : Server) (c : ClientId) (client : Client) (rd : Read) (r : LoginRequest)
    (s' : Server) (client' : Client) : Prop where
  sound : s'.Sound
  found : s'.clients c = some client'
  standing : client'.standing = answeredStanding s.world r
  count : SameCount (countPacket client rd.now).1 client'
  world : s.world.players.lookup r.username ≠ none → s'.world = s.world

theorem exists_answered {s : Server} (hs : s.Sound) {c : ClientId} {client : Client} {rd : Read}
    {r : LoginRequest} (hc : s.clients c = some client) (hstage : client.stage = .loggingIn)
    (hflood : (countPacket client rd.now).2 = false)
    (hr : LoginHandler.loginRequest rd.data = some r) :
    ∃ fuel st client', readIncomingData fuel s c rd.now rd.gen rd.data = some (.ok st) ∧
      st.effects = [] ∧ Answered s c client rd r st.server client' := by
  have hcounted := quiet_counted hc rd.now
  have hc₁ : (counted s c client rd.now).clients c = some (countPacket client rd.now).1 :=
    Server.setClient_clients_self ..
  have hstage₁ : (countPacket client rd.now).1.stage = .loggingIn :=
    (countPacket_fields client rd.now).1.trans hstage
  have hciphers := Server.setCiphers_eq hc₁ r.clientHalf r.serverHalf
  rw [counted, Server.setClient_setClient, ← counted] at hciphers
  have hquiet : s.Quiet (s.setClient c (requesting client rd.now r)) :=
    Server.quiet_setClient hc ((quietClient_countPacket client rd.now).trans
      ⟨rfl, rfl, rfl, rfl, fun _ => rfl, fun _ => rfl⟩)
  have hc₂ : (s.setClient c (requesting client rd.now r)).clients c =
      some (requesting client rd.now r) := Server.setClient_clients_self ..
  have hnot : (requesting client rd.now r).stage ≠ .loggedIn := by
    change (countPacket client rd.now).1.stage ≠ .loggedIn
    rw [hstage₁]
    decide
  obtain ⟨s', henter, ho⟩ := LoginHandler.enterWorld_outcome (hs.quiet hquiet) hc₂ hnot rfl
    r.username
  obtain ⟨client', hfound, hstanding, hcount, hworld⟩ := outcome_standing hstage ho
  have hprocess : ∃ b, (ofData rd.data).exec
      (LoginHandler.process (counted s c client rd.now) c rd.gen) = .ok (s', b) := by
    rw [LoginHandler.process_loggingIn hc₁ hstage₁, LoginHandler.handleLoggingInStage_eq]
    simp only [LoginHandler.loginRequest] at hr
    split at hr
    · rename_i request b hread
      obtain rfl : request = some r := hr
      refine ⟨b, exec_bind_eq_ok.mpr ⟨_, _, hread, ?_⟩⟩
      have hanswer : LoginHandler.answer (counted s c client rd.now) c (some r) = .ok s' := by
        rw [LoginHandler.answer, hciphers]
        exact henter
      rw [hanswer]
      rfl
    · cases hr
  obtain ⟨b, hprocess⟩ := hprocess
  have hdata : rd.data ≠ [] := by
    intro hnil
    rw [hnil] at hr
    cases hr
  obtain ⟨st, hread, rfl, heffects⟩ := Server.readIncomingData_login hc (by rw [hstage]; decide)
    hflood hdata hprocess
  exact ⟨1, st, client', hread, heffects, ho.sound (hs.quiet hquiet) hc₂ hstage₁ rfl rfl, hfound,
    hstanding, hcount, hworld⟩

/-- The request is answered with the session key, and the login block may come. -/
theorem exists_requested {s : Server} (hs : s.Sound) {c : ClientId} {client : Client} {rd : Read}
    {nameHash : Byte} (hc : s.clients c = some client) (hstage : client.stage = .connected)
    (hflood : (countPacket client rd.now).2 = false) (hdata : rd.data = [14, nameHash]) :
    ∃ fuel st client', readIncomingData fuel s c rd.now rd.gen rd.data = some (.ok st) ∧
      st.effects = [] ∧ st.server.Sound ∧ st.server.clients c = some client' ∧
      client'.stage = .loggingIn ∧ client'.decryptor = client.decryptor ∧
      SameCount (countPacket client rd.now).1 client' ∧ st.server.world = s.world := by
  have hcounted := quiet_counted hc rd.now
  have hc₁ : (counted s c client rd.now).clients c = some (countPacket client rd.now).1 :=
    Server.setClient_clients_self ..
  obtain ⟨hstage₁, hdecryptor, -⟩ := countPacket_fields client rd.now
  rw [hstage] at hstage₁
  obtain ⟨bytes, b, hshake⟩ := Server.exec_handshake hc₁ nameHash rd.gen
  rw [← LoginHandler.process_connected hc₁ hstage₁, ← hdata] at hshake
  obtain ⟨st, hread, hserver, heffects⟩ := Server.readIncomingData_login hc
    (by rw [hstage]; decide) hflood (by rw [hdata]; exact List.cons_ne_nil _ _) hshake
  refine ⟨1, st, { (countPacket client rd.now).1 with
    strand := (countPacket client rd.now).1.strand ++ [.push bytes], stage := .loggingIn },
    hread, heffects, ?_, ?_, rfl, hdecryptor, ⟨rfl, rfl⟩, ?_⟩
  · rw [hserver]
    exact (Server.keeps_handshake hc₁ hstage₁).sound (hs.quiet hcounted)
  · rw [hserver]
    exact Server.setClient_clients_self ..
  · rw [hserver]
    rfl

/-- A read of a client that is not logged in is one call of the login handler. -/
theorem early_read {s : Server} {c : ClientId} {client : Client} {rd : Read} {fuel : Nat}
    {st : Incoming} (hc : s.clients c = some client) (hstage : client.stage ≠ .loggedIn)
    (hflood : (countPacket client rd.now).2 = false) (hdata : rd.data ≠ [])
    (h : readIncomingData fuel s c rd.now rd.gen rd.data = some (.ok st)) :
    st.effects = [] ∧ ∃ b, (ofData rd.data).exec
      (LoginHandler.process (counted s c client rd.now) c rd.gen) = .ok (st.server, b) := by
  cases readIncomingData_outcome hc hdata h with
  | flood hflooded _ => exact absurd (hflood.symm.trans hflooded) (by decide)
  | packets _ hlogged _ => exact absurd hlogged hstage
  | @login b _ _ hrun =>
      obtain ⟨st', hread, -, heffects⟩ := Server.readIncomingData_login hc hstage hflood hdata hrun
      obtain rfl := Except.ok.inj (readIncomingData_unique hread h)
      exact ⟨heffects, b, hrun⟩

/-- A read without a request closes the client. -/
theorem read_without_request {s : Server} (hs : s.Sound) {c : ClientId} {client : Client}
    {rd : Read} {fuel : Nat} {st : Incoming} (hc : s.clients c = some client)
    (hstage : client.stage = .loggingIn) (hflood : (countPacket client rd.now).2 = false)
    (hdata : rd.data ≠ []) (hr : LoginHandler.loginRequest rd.data = none)
    (h : readIncomingData fuel s c rd.now rd.gen rd.data = some (.ok st)) :
    st.effects = [] ∧
      st.server.clients c = some ((countPacket client rd.now).1.closed) := by
  have hsound := hs.quiet (quiet_counted hc rd.now)
  have hc₁ : (counted s c client rd.now).clients c = some (countPacket client rd.now).1 :=
    Server.setClient_clients_self ..
  have hstage₁ : (countPacket client rd.now).1.stage = .loggingIn :=
    (countPacket_fields client rd.now).1.trans hstage
  obtain ⟨heffects, b, hrun⟩ := early_read hc (by rw [hstage]; decide) hflood hdata h
  refine ⟨heffects, ?_⟩
  rw [LoginHandler.process_loggingIn hc₁ hstage₁] at hrun
  rcases LoginHandler.handleLoggingInStage_inv hrun with ⟨-, hdisconnect⟩ | ⟨r, hsome, -⟩
  · have hopen := hsound.connected hc₁ (by rw [hstage₁]; decide)
    rw [disconnect_client hc₁ hdisconnect, hopen]
    rfl
  · rw [hr] at hsome
    cases hsome

/-! ## Reads after the handshake -/

/-- The login is over, one way or the other. -/
def Past (client : Client) : Prop := client.stage = .loggedIn ∨ client.stage = .loggedOut

/-- A client that can decrypt stays so, and one that is past its login stays so. -/
structure Onward (old new : Client) : Prop where
  decryptor : old.decryptor.isSome = true → new.decryptor.isSome = true
  past : old.Past → new.Past

theorem onward_of_quiet {old new : Client} (h : Server.QuietClient old new) : Onward old new where
  decryptor := h.decryptor
  past hpast := by
    rw [Past, h.stage]
    exact hpast

theorem Onward.trans {a b d : Client} (h : Onward a b) (h' : Onward b d) : Onward a d where
  decryptor := h'.decryptor ∘ h.decryptor
  past := h'.past ∘ h.past

theorem onward_closing {s s' : Server} {c : ClientId} {client : Client}
    (hc : s.clients c = some client) (h : Server.Closing c s s') :
    ∃ client', s'.clients c = some client' ∧ Onward client client' := by
  cases h with
  | quiet hq =>
      obtain ⟨client', hc', hclient⟩ := hq.client hc
      exact ⟨client', hc', onward_of_quiet hclient⟩
  | @leaves t u _ leaving hq ht hd hrun hq' =>
      obtain ⟨client₁, hc₁, hclient⟩ := hq.client hc
      obtain rfl := Option.some.inj (ht.symm.trans hc₁)
      have hclosed := disconnect_client ht hrun
      rw [hd, if_neg Bool.false_ne_true] at hclosed
      obtain ⟨client', hc', hclient'⟩ := hq'.client hclosed
      refine ⟨client', hc', (onward_of_quiet hclient).trans
        (Onward.trans ?_ (onward_of_quiet hclient'))⟩
      exact ⟨id, fun _ => .inr rfl⟩

theorem onward_turn {s s' : Server} {c : ClientId} {client : Client} {now : Int}
    {data : List Byte} (hc : s.clients c = some client)
    (h : Server.Turn s c client now data s') :
    ∃ client', s'.clients c = some client' ∧ Onward client client' := by
  cases h with
  | closing hclosing _ => exact onward_closing hc hclosing
  | handshake hstage hq hc' hstage' =>
      obtain ⟨client', hc₁, hclient⟩ := hq.client hc
      obtain rfl := Option.some.inj (hc'.symm.trans hc₁)
      refine ⟨_, Server.setClient_clients_self .., hclient.decryptor, fun hpast => ?_⟩
      rcases hpast with hpast | hpast <;> exact absurd (hstage.symm.trans hpast) (by decide)
  | @login t _ client' cipher username hstage _ _ hq hc' _ he hdec ho =>
      have hnot (hpast : client.Past) : False := by
        rcases hpast with hpast | hpast <;> exact absurd (hstage.symm.trans hpast) (by decide)
      cases ho with
      | refused _ =>
          exact ⟨_, Server.setClient_clients_self .., fun _ => hdec, fun hp => (hnot hp).elim⟩
      | full _ _ =>
          exact ⟨_, Server.setClient_clients_self .., fun _ => hdec, fun hp => (hnot hp).elim⟩
      | entered _ _ =>
          refine ⟨_, Server.setClient_clients_self .., fun _ => ?_, fun hp => (hnot hp).elim⟩
          rw [pushFrames_eq (LoginHandler.admitted client' username LoginResponse.ok t.nextPlayer)
            cipher _ he]
          exact hdec

theorem onward_feeds {c : ClientId} {s t : Server} {reads : List Read} {effects : List Effect}
    (h : Feeds c s reads effects t) (hs : s.Sound) {client : Client}
    (hc : s.clients c = some client) (hdata : ∀ rd ∈ reads, rd.data ≠ []) :
    ∃ client', t.clients c = some client' ∧ Onward client client' := by
  induction h generalizing client with
  | nil s => exact ⟨client, hc, id, id⟩
  | @cons s t rd rds fuel st effects hread _ ih =>
      have hturn := Server.turn_of_read hs hc (readIncomingData_outcome hc
        (hdata rd List.mem_cons_self) hread)
      obtain ⟨client₁, hc₁, honward⟩ := onward_turn hc hturn
      obtain ⟨client', hc', honward'⟩ := ih (hturn.sound_live rd.gen hs hc).1 hc₁
        fun rd' hrd' => hdata rd' (List.mem_cons_of_mem rd hrd')
      exact ⟨client', hc', honward.trans honward'⟩

/-- A read of a closed client changes neither its stage nor its ciphers. -/
theorem closed_read {s : Server} {c : ClientId} {client : Client} {rd : Read} {fuel : Nat}
    {st : Incoming} (hc : s.clients c = some client) (hstage : client.stage = .loggedOut)
    (hdata : rd.data ≠ [])
    (h : readIncomingData fuel s c rd.now rd.gen rd.data = some (.ok st)) :
    ∃ client', st.server.clients c = some client' ∧ client'.stage = .loggedOut ∧
      client'.decryptor = client.decryptor := by
  have hc₁ : (counted s c client rd.now).clients c = some (countPacket client rd.now).1 :=
    Server.setClient_clients_self ..
  obtain ⟨hstage₁, hdecryptor, -⟩ := countPacket_fields client rd.now
  rw [hstage] at hstage₁
  cases readIncomingData_outcome hc hdata h with
  | flood _ hdisconnect =>
      refine ⟨_, disconnect_client hc₁ hdisconnect, ?_⟩
      split
      · exact ⟨hstage₁, hdecryptor⟩
      · exact ⟨rfl, hdecryptor⟩
  | packets _ hlogged _ =>
      rw [hstage] at hlogged
      cases hlogged
  | login _ _ hrun =>
      rw [LoginHandler.process_loggedOut hc₁ hstage₁] at hrun
      obtain ⟨hserver, -⟩ := Prod.mk.inj (Except.ok.inj hrun)
      exact ⟨_, hserver ▸ hc₁, hstage₁, hdecryptor⟩

/-- Nothing that a client sends after it has been closed changes its ciphers. -/
theorem closed_feeds {c : ClientId} {s t : Server} {reads : List Read} {effects : List Effect}
    (h : Feeds c s reads effects t) {client : Client} (hc : s.clients c = some client)
    (hstage : client.stage = .loggedOut) (hdata : ∀ rd ∈ reads, rd.data ≠ []) :
    ∃ client', t.clients c = some client' ∧ client'.decryptor = client.decryptor := by
  induction h generalizing client with
  | nil s => exact ⟨client, hc, rfl⟩
  | @cons s t rd rds fuel st effects hread _ ih =>
      obtain ⟨client₁, hc₁, hstage₁, hdecryptor⟩ :=
        closed_read hc hstage (hdata rd List.mem_cons_self) hread
      obtain ⟨client', hc', hsame⟩ := ih hc₁ hstage₁
        fun rd' hrd' => hdata rd' (List.mem_cons_of_mem rd hrd')
      exact ⟨client', hc', hsame.trans hdecryptor⟩

/-! ## Logins compared -/

/-- The request in a read of its own, the login block in one read or more, and other bytes
behind it in the last one. -/
inductive BlockCut (nameHash : Byte) (block behind : List Byte) : List Read → Prop where
  | mk {first last : Read} {parts : List Read} {part : List Byte} :
      first.data = [14, nameHash] → (∀ rd ∈ parts, rd.data ≠ []) → part ≠ [] →
      parts.flatMap Read.data ++ part = block → last.data = part ++ behind →
      BlockCut nameHash block behind (first :: (parts ++ [last]))

/-- The request, the block and every packet in a read of their own. -/
inductive OwnReads (nameHash : Byte) (block : List Byte) (packets : List (List Byte)) :
    List Read → Prop where
  | mk {first second : Read} {rest : List Read} : first.data = [14, nameHash] →
      second.data = block → rest.map Read.data = packets →
      OwnReads nameHash block packets (first :: second :: rest)

/-- Both ways the client ends with the same stage, username and ciphers, and the same packets
are dispatched. -/
def SameLogin (s : Server) (c : ClientId) (reads reads' : List Read) : Prop :=
  ∃ effects effects' t t', Feeds c s reads effects t ∧ Feeds c s reads' effects' t' ∧
    (t.clients c).map standing = (t'.clients c).map standing ∧
    dispatched effects = dispatched effects'

/-- The request is refused, and so is every chunk behind it, each of them a login block for a
name that is online; `q` is the last request. -/
inductive Refusals (w : World) : LoginRequest → List (List Byte) → LoginRequest → Prop where
  | nil {r : LoginRequest} : w.players.lookup r.username ≠ none → Refusals w r [] r
  | cons {r r' q : LoginRequest} {chunk : List Byte} {chunks : List (List Byte)} :
      w.players.lookup r.username ≠ none → LoginHandler.loginRequest chunk = some r' →
      Refusals w r' chunks q → Refusals w r (chunk :: chunks) q

theorem Refusals.online {w : World} {r q : LoginRequest} {chunks : List (List Byte)}
    (h : Refusals w r chunks q) : w.players.lookup r.username ≠ none := by
  cases h with
  | nil hname => exact hname
  | cons hname _ _ => exact hname

/-- A client that asks for a name that is online stays in the handshake. -/
theorem stage_of_standing {w : World} {r : LoginRequest} {client : Client}
    (h : client.standing = answeredStanding w r) :
    client.stage = if w.players.lookup r.username = none then .loggedIn else .loggingIn :=
  congrArg Standing.stage h

/-- What a refused client goes on with is refused as well. -/
theorem exists_refusals {w : World} {r q : LoginRequest} {chunks : List (List Byte)}
    (h : Refusals w r chunks q) {c : ClientId} {s : Server} {client : Client} {reads : List Read}
    (hs : s.Sound) (hw : s.world = w) (hc : s.clients c = some client)
    (hstanding : client.standing = answeredStanding w r) (hreads : reads.map Read.data = chunks)
    (hbelow : BelowFlood client reads) :
    ∃ t client', Feeds c s reads [] t ∧ t.clients c = some client' ∧
      client'.standing = answeredStanding w q := by
  induction h generalizing s client reads with
  | nil hname =>
      obtain rfl := List.map_eq_nil_iff.mp hreads
      exact ⟨s, client, .nil s, hc, hstanding⟩
  | @cons r r' q chunk chunks hname hr' hrest ih =>
      obtain ⟨rd, rds, rfl, rfl, hrds⟩ := List.map_eq_cons_iff.mp hreads
      have hstage : client.stage = .loggingIn := by
        rw [stage_of_standing hstanding, if_neg hname]
      obtain ⟨fuel, st, client₁, hread, heffects, hanswered⟩ :=
        exists_answered hs hc hstage hbelow.1 hr'
      have hw₁ : st.server.world = w := (hanswered.world (by rw [hw]; exact hrest.online)).trans hw
      obtain ⟨t, client', hfeeds, hc', hstanding'⟩ := ih hanswered.sound hw₁ hanswered.found
        (by rw [hanswered.standing, hw]) hrds (hbelow.2.same hanswered.count)
      refine ⟨t, client', ?_, hc', hstanding'⟩
      have hcons := Feeds.cons hread hfeeds
      rwa [heffects] at hcons

/-- A read at the flood limit closes the client. -/
theorem flooded_read {s : Server} (hs : s.Sound) {c : ClientId} {client : Client} {rd : Read}
    {fuel : Nat} {st : Incoming} (hc : s.clients c = some client)
    (hstage : client.stage ≠ .loggedOut) (hflood : (countPacket client rd.now).2 = true)
    (hdata : rd.data ≠ [])
    (h : readIncomingData fuel s c rd.now rd.gen rd.data = some (.ok st)) :
    st.server.clients c = some ((countPacket client rd.now).1.closed) := by
  have hc₁ : (counted s c client rd.now).clients c = some (countPacket client rd.now).1 :=
    Server.setClient_clients_self ..
  have hopen := (hs.quiet (quiet_counted hc rd.now)).connected hc₁
    (by rw [(countPacket_fields client rd.now).1]; exact hstage)
  cases readIncomingData_outcome hc hdata h with
  | flood _ hdisconnect =>
      rw [disconnect_client hc₁ hdisconnect, hopen]
      rfl
  | packets hbelow _ _ => exact absurd (hflood.symm.trans hbelow) (by decide)
  | login hbelow _ _ => exact absurd (hflood.symm.trans hbelow) (by decide)

theorem sound_read {s : Server} (hs : s.Sound) {c : ClientId} {client : Client} {rd : Read}
    {fuel : Nat} {st : Incoming} (hc : s.clients c = some client) (hdata : rd.data ≠ [])
    (h : readIncomingData fuel s c rd.now rd.gen rd.data = some (.ok st)) : st.server.Sound :=
  ((Server.turn_of_read hs hc (readIncomingData_outcome hc hdata h)).sound_live rd.gen hs hc).1

/-- A client that is still in the handshake at the end has been refused every time, and has
never flooded. -/
theorem refusals_of_feeds {c : ClientId} {s t : Server} {reads : List Read}
    {effects : List Effect} (h : Feeds c s reads effects t) {w : World} {r : LoginRequest}
    {client : Client} (hs : s.Sound) (hw : s.world = w) (hc : s.clients c = some client)
    (hstanding : client.standing = answeredStanding w r)
    (hname : w.players.lookup r.username ≠ none) (hdata : ∀ rd ∈ reads, rd.data ≠ [])
    (hlast : ∀ client', t.clients c = some client' → client'.stage = .loggingIn) :
    BelowFlood client reads ∧ ∃ q client', Refusals w r (reads.map Read.data) q ∧
      t.clients c = some client' ∧ client'.standing = answeredStanding w q := by
  induction h generalizing r client with
  | nil s => exact ⟨trivial, r, client, .nil hname, hc, hstanding⟩
  | @cons s t rd rds fuel st effects hread hfeeds ih =>
      have hstage : client.stage = .loggingIn := by
        rw [stage_of_standing hstanding, if_neg hname]
      have hnil : rd.data ≠ [] := hdata rd List.mem_cons_self
      have hrest : ∀ rd' ∈ rds, rd'.data ≠ [] := fun rd' h => hdata rd' (List.mem_cons_of_mem rd h)
      -- from a client that is past its login there is no way back
      have hback {client₁ : Client} (hc₁ : st.server.clients c = some client₁) :
          ¬ client₁.Past := by
        intro hpast
        obtain ⟨client', hc', honward⟩ := onward_feeds hfeeds (sound_read hs hc hnil hread)
          hc₁ hrest
        rcases honward.past hpast with hend | hend <;>
          exact absurd ((hlast client' hc').symm.trans hend) (by decide)
      have hflood : (countPacket client rd.now).2 = false := by
        by_contra hflooded
        exact hback (flooded_read hs hc (by rw [hstage]; decide) (Bool.eq_true_of_not_eq_false
          hflooded) hnil hread) (.inr rfl)
      cases hr : LoginHandler.loginRequest rd.data with
      | none =>
          obtain ⟨-, hclosed⟩ := read_without_request hs hc hstage hflood hnil hr hread
          exact absurd (.inr rfl) (hback hclosed)
      | some r' =>
          obtain ⟨fuel', st', client₁, hread', heffects, hanswered⟩ :=
            exists_answered hs hc hstage hflood hr
          obtain rfl := Except.ok.inj (readIncomingData_unique hread' hread)
          have hstanding₁ := hanswered.standing
          rw [hw] at hstanding₁
          by_cases hname' : w.players.lookup r'.username = none
          · refine absurd (.inl ?_) (hback hanswered.found)
            rw [stage_of_standing hstanding₁, if_pos hname']
          · have hw₁ : st'.server.world = w :=
              (hanswered.world (by rw [hw]; exact hname')).trans hw
            obtain ⟨hbelow, q, client', hrefusals, hc', hstanding'⟩ := ih hanswered.sound hw₁
              hanswered.found hstanding₁ hname' hrest hlast
            exact ⟨⟨hflood, hbelow.same hanswered.count.symm⟩, q, client',
              .cons hname hr hrefusals, hc', hstanding'⟩

/-- With nothing behind its payload a packet takes the payload, if anything. -/
theorem packetSpan_whole {live : Bool} {packetOpcode : Int} {n k : Nat}
    (h : packetSpan live packetOpcode n n = some k) : k = n := by
  simp only [packetSpan] at h
  split_ifs at h <;> simp only [Option.some.injEq] at h <;> omega

/-- The read of one packet by a logged-in client dispatches it, if it returns. -/
theorem packet_read {s : Server} {c : ClientId} {client : Client} {cipher : ISAACCipher}
    {pk : Packet} {rd : Read} {fuel : Nat} {st : Incoming} (hwf : pk.WellFormed)
    (hc : s.clients c = some client) (hstage : client.stage = .loggedIn)
    (hd : client.decryptor = some cipher) (hflood : (countPacket client rd.now).2 = false)
    (hdata : rd.data = pk.encode cipher)
    (h : readIncomingData fuel s c rd.now rd.gen rd.data = some (.ok st)) :
    st.effects = pk.effects := by
  obtain ⟨h1, h2, -⟩ := countPacket_fields client rd.now
  have hst : Between c (countPacket client rd.now).1 cipher (pk.encode cipher)
      { server := counted s c client rd.now, inStream := ofData rd.data } :=
    ⟨Server.setClient_clients_self .., h1.trans hstage, h2.trans hd, rfl, rfl, hdata,
      Nat.zero_le _⟩
  have hh : readHeader cipher (pk.encode cipher) = some (pk.header pk.payload) :=
    Packet.readHeader_encode hwf cipher pk.payload
  have hlen : (pk.header pk.payload).packetLength ≤ (pk.header pk.payload).rest.length :=
    Nat.le_refl _
  simp only [readIncomingData, handleIncomingData, hc, hflood] at h
  obtain ⟨out, hrun, hmap⟩ := Option.map_eq_some_iff.mp h
  obtain ⟨last, rfl, rfl⟩ := map_eq_ok.mp hmap
  have hends : Ends (packetIteration c rd.gen) _ (.ok last) := ⟨fuel, hrun⟩
  obtain ⟨hrest, -⟩ := behindHeader_rest hst hh
  obtain ⟨hyield, hfail⟩ := packetIteration_packet rd.gen hst hh hlen
  have hfound : ((counted s c client rd.now).setClient c
      (keyDrawn (countPacket client rd.now).1 cipher)).clients c =
      some (keyDrawn (countPacket client rd.now).1 cipher) := Server.setClient_clients_self ..
  obtain ⟨hok, herr⟩ := handlePacket_span pk.packetOpcode.val (n := pk.payload.length)
    hfound (le_of_eq (congrArg List.length hrest).symm)
  rw [hrest] at hok herr
  cases hk : packetSpan (((counted s c client rd.now).setClient c
      (keyDrawn (countPacket client rd.now).1 cipher)).lockPlayer
        (keyDrawn (countPacket client rd.now).1 cipher).player).isSome pk.packetOpcode.val
      pk.payload.length (pk.header pk.payload).rest.length with
  | none =>
      obtain ⟨e, b', hrun⟩ := herr hk
      cases hends.unique (ends_of_error (hfail hrun))
  | some k =>
      obtain ⟨s', hrun, -⟩ := hok k hk
      obtain rfl : k = pk.payload.length := packetSpan_whole hk
      have hstep := hyield hrun
      have hnil : ((behindHeader c (countPacket client rd.now).1 cipher (pk.header pk.payload)
          { server := counted s c client rd.now, inStream := ofData rd.data }).inStream.skip
            pk.payload.length).rest = [] := by
        rw [rest_skip, hrest]
        exact List.drop_length
      have hlast := (ends_iff_of_yields hstep _).mpr (ends_of_done (packetIteration_nil hnil))
      obtain rfl := Except.ok.inj (hends.unique hlast)
      exact congrArg (fun payload =>
        [Effect.drawKey, .dispatch (pk.packetOpcode.val : Int) payload]) List.take_length

/-! ### The two sides -/

/-- The client once its request and its block have been read. -/
structure LoggedIn (s : Server) (c : ClientId) (client : Client) (first second : Read)
    (r : LoginRequest) (t : Server) (client' : Client) : Prop where
  sound : t.Sound
  found : t.clients c = some client'
  standing : client'.standing = answeredStanding s.world r
  world : s.world.players.lookup r.username ≠ none → t.world = s.world
  below : ∀ rest, BelowFlood client (first :: second :: rest) ↔ BelowFlood client' rest
  feeds : ∀ rest effects u,
    Feeds c s (first :: second :: rest) effects u ↔ Feeds c t rest effects u

/-- The request and a read that begins with a whole block always pass. -/
theorem exists_loggedIn {s : Server} (hs : s.Sound) {c : ClientId} {client : Client}
    (hc : s.clients c = some client) (hstage : client.stage = .connected) {nameHash : Byte}
    {first second : Read} {r : LoginRequest} (hfirst : first.data = [14, nameHash])
    (hsecond : LoginHandler.loginRequest second.data = some r)
    (hbelow : BelowFlood client [first, second]) :
    ∃ t client', LoggedIn s c client first second r t client' := by
  obtain ⟨fuel₁, st₁, client₁, hread₁, heffects₁, hsound₁, hc₁, hstage₁, -, hcount₁, hworld₁⟩ :=
    exists_requested hs hc hstage hbelow.1 hfirst
  have hbelow₁ := hbelow.2.same hcount₁
  obtain ⟨fuel₂, st₂, client₂, hread₂, heffects₂, hanswered⟩ :=
    exists_answered hsound₁ hc₁ hstage₁ hbelow₁.1 hsecond
  have hstanding := hanswered.standing
  rw [hworld₁] at hstanding
  refine ⟨st₂.server, client₂, hanswered.sound, hanswered.found, hstanding, fun hname => ?_,
    fun rest => ⟨fun h => ?_, fun h => ?_⟩, fun rest effects u => ⟨fun h => ?_, fun h => ?_⟩⟩
  · exact (hanswered.world (by rw [hworld₁]; exact hname)).trans hworld₁
  · exact (h.2.same hcount₁).2.same hanswered.count
  · have hrest : BelowFlood client₁ (second :: rest) :=
      ⟨hbelow₁.1, h.same hanswered.count.symm⟩
    exact ⟨hbelow.1, hrest.same hcount₁.symm⟩
  · cases h with
    | cons hread h =>
        obtain rfl := Except.ok.inj (readIncomingData_unique hread hread₁)
        cases h with
        | cons hread h =>
            obtain rfl := Except.ok.inj (readIncomingData_unique hread hread₂)
            rwa [heffects₁, heffects₂]
  · have hfeeds := Feeds.cons hread₁ (Feeds.cons hread₂ h)
    rwa [heffects₁, heffects₂] at hfeeds

/-- A first read with no request in it leaves the client without ciphers. -/
theorem cut_decryptor {s t : Server} (hs : s.Sound) {c : ClientId} {client : Client}
    (hc : s.clients c = some client) (hstage : client.stage = .connected) {nameHash : Byte}
    {first second : Read} {rest : List Read} {effects : List Effect}
    (hfirst : first.data = [14, nameHash])
    (hsecond : LoginHandler.loginRequest second.data = none)
    (hdata : ∀ rd ∈ second :: rest, rd.data ≠ []) (hbelow : BelowFlood client [first, second])
    (h : Feeds c s (first :: second :: rest) effects t) :
    ∃ client', t.clients c = some client' ∧ client'.decryptor = client.decryptor := by
  obtain ⟨fuel₁, st₁, client₁, hread₁, -, hsound₁, hc₁, hstage₁, hdecryptor, hcount₁, -⟩ :=
    exists_requested hs hc hstage hbelow.1 hfirst
  have hbelow₁ := hbelow.2.same hcount₁
  cases h with
  | cons hread h =>
      obtain rfl := Except.ok.inj (readIncomingData_unique hread hread₁)
      cases h with
      | cons hread h =>
          obtain ⟨-, hclosed⟩ := read_without_request hsound₁ hc₁ hstage₁ hbelow₁.1
            (hdata second List.mem_cons_self) hsecond hread
          obtain ⟨client', hc', hsame⟩ := closed_feeds h hclosed rfl
            fun rd hrd => hdata rd (List.mem_cons_of_mem second hrd)
          refine ⟨client', hc', hsame.trans ?_⟩
          exact (countPacket_fields client₁ second.now).2.1.trans hdecryptor

/-- A login whose block is cut is not received like one whose block is whole. -/
theorem not_sameLogin_of_cut {s : Server} (hs : s.Sound) {c : ClientId} {client : Client}
    (hc : s.clients c = some client) (hstage : client.stage = .connected)
    (hd : client.decryptor = none) {nameHash : Byte} {r : LoginRequest}
    {first second first' second' : Read} {rest rest' : List Read}
    (hfirst : first.data = [14, nameHash]) (hfirst' : first'.data = [14, nameHash])
    (hsecond : LoginHandler.loginRequest second.data = none)
    (hsecond' : LoginHandler.loginRequest second'.data = some r)
    (hdata : ∀ rd ∈ second :: rest, rd.data ≠ []) (hdata' : ∀ rd ∈ rest', rd.data ≠ [])
    (hbelow : BelowFlood client [first, second])
    (hbelow' : BelowFlood client [first', second']) :
    ¬ SameLogin s c (first :: second :: rest) (first' :: second' :: rest') := by
  rintro ⟨effects, effects', t, t', hfeeds, hfeeds', hsame, -⟩
  obtain ⟨client₁, hc₁, hnone⟩ :=
    cut_decryptor hs hc hstage hfirst hsecond hdata hbelow hfeeds
  obtain ⟨u, client₂, hlogged⟩ := exists_loggedIn hs hc hstage hfirst' hsecond' hbelow'
  obtain ⟨client₃, hc₃, honward⟩ := onward_feeds ((hlogged.feeds ..).mp hfeeds') hlogged.sound
    hlogged.found hdata'
  have hsome : client₂.decryptor.isSome = true := by
    have hdecryptor : client₂.decryptor = some r.decryptor :=
      congrArg Standing.decryptor hlogged.standing
    rw [hdecryptor]
    rfl
  rw [hc₁, hc₃, Option.map_some, Option.map_some] at hsame
  have hsame := congrArg Standing.decryptor (Option.some.inj hsame)
  have hlast := honward.decryptor hsome
  rw [← show client₁.decryptor = client₃.decryptor from hsame, hnone, hd] at hlast
  cases hlast

/-- Under a free name a packet in the block's read is lost. -/
theorem not_sameLogin_of_dropped {s : Server} (hs : s.Sound) {c : ClientId} {client : Client}
    (hc : s.clients c = some client) (hstage : client.stage = .connected) {nameHash : Byte}
    {r : LoginRequest} {pk : Packet} (hwf : pk.WellFormed)
    {first second first' second' third : Read} {rest : List Read}
    (hname : s.world.players.lookup r.username = none)
    (hfirst : first.data = [14, nameHash]) (hfirst' : first'.data = [14, nameHash])
    (hsecond : LoginHandler.loginRequest second.data = some r)
    (hsecond' : LoginHandler.loginRequest second'.data = some r)
    (hthird : third.data = pk.encode r.decryptor) (hbelow : BelowFlood client [first, second])
    (hbelow' : BelowFlood client [first', second', third]) :
    ¬ SameLogin s c [first, second] (first' :: second' :: third :: rest) := by
  rintro ⟨effects, effects', t, t', hfeeds, hfeeds', -, hdispatched⟩
  obtain ⟨u, client₁, hlogged₁⟩ := exists_loggedIn hs hc hstage hfirst hsecond hbelow
  obtain ⟨u', client₂, hlogged⟩ := exists_loggedIn hs hc hstage hfirst' hsecond'
    ⟨hbelow'.1, hbelow'.2.1, trivial⟩
  cases (hlogged₁.feeds ..).mp hfeeds
  cases (hlogged.feeds ..).mp hfeeds' with
  | cons hread hrest =>
      have hin : client₂.stage = .loggedIn := by
        rw [stage_of_standing hlogged.standing, if_pos hname]
      have heffects := packet_read hwf hlogged.found hin
        (congrArg Standing.decryptor hlogged.standing) ((hlogged.below [third]).mp hbelow').1 hthird
        hread
      rw [dispatched_append, heffects] at hdispatched
      cases hdispatched

theorem Refusals.last_online {w : World} {r q : LoginRequest} {chunks : List (List Byte)}
    (h : Refusals w r chunks q) : w.players.lookup q.username ≠ none := by
  induction h with
  | nil hname => exact hname
  | cons _ _ _ ih => exact ih

/-- The last of the requests asks for the name and the ciphers of the first. -/
structure SameRequest (r q : LoginRequest) : Prop where
  username : q.username = r.username
  encryptor : q.encryptor = r.encryptor
  decryptor : q.decryptor = r.decryptor

/-- Refused requests leave the same standing exactly when they ask for the same. -/
theorem answeredStanding_eq_iff {w : World} {r q : LoginRequest}
    (hr : w.players.lookup r.username ≠ none) (hq : w.players.lookup q.username ≠ none) :
    answeredStanding w r = answeredStanding w q ↔ SameRequest r q := by
  simp only [answeredStanding, hr, hq, if_false, false_and, ISAACCipher.advance_zero,
    Standing.mk.injEq, Option.some.injEq, true_and]
  exact ⟨fun h => ⟨h.1.symm, h.2.1.symm, h.2.2.symm⟩,
    fun h => ⟨h.username.symm, h.encryptor.symm, h.decryptor.symm⟩⟩

theorem sameLogin_alone {s : Server} (hs : s.Sound) {c : ClientId} {client : Client}
    (hc : s.clients c = some client) (hstage : client.stage = .connected) {nameHash : Byte}
    {r : LoginRequest} {first second first' second' : Read}
    (hfirst : first.data = [14, nameHash]) (hfirst' : first'.data = [14, nameHash])
    (hsecond : LoginHandler.loginRequest second.data = some r)
    (hsecond' : LoginHandler.loginRequest second'.data = some r)
    (hbelow : BelowFlood client [first, second]) (hbelow' : BelowFlood client [first', second']) :
    SameLogin s c [first, second] [first', second'] := by
  obtain ⟨t, client₁, hlogged⟩ := exists_loggedIn hs hc hstage hfirst hsecond hbelow
  obtain ⟨t', client₂, hlogged'⟩ := exists_loggedIn hs hc hstage hfirst' hsecond' hbelow'
  refine ⟨[], [], t, t', (hlogged.feeds ..).mpr (.nil t), (hlogged'.feeds ..).mpr (.nil t'), ?_,
    rfl⟩
  rw [hlogged.found, hlogged'.found, Option.map_some, Option.map_some, hlogged.standing,
    hlogged'.standing]

/-- Under a name that is online what follows the block makes no difference exactly when it is
refused as well, without flooding, and asks for the same in the end. -/
theorem sameLogin_refused_iff {s : Server} (hs : s.Sound) {c : ClientId} {client : Client}
    (hc : s.clients c = some client) (hstage : client.stage = .connected) {nameHash : Byte}
    {r : LoginRequest} {first second first' second' : Read} {rest : List Read}
    (hname : s.world.players.lookup r.username ≠ none)
    (hfirst : first.data = [14, nameHash]) (hfirst' : first'.data = [14, nameHash])
    (hsecond : LoginHandler.loginRequest second.data = some r)
    (hsecond' : LoginHandler.loginRequest second'.data = some r)
    (hdata : ∀ rd ∈ rest, rd.data ≠ []) (hbelow : BelowFlood client [first, second])
    (hbelow' : BelowFlood client [first', second']) :
    SameLogin s c [first, second] (first' :: second' :: rest) ↔
      BelowFlood client (first' :: second' :: rest) ∧
        ∃ q, Refusals s.world r (rest.map Read.data) q ∧ SameRequest r q := by
  obtain ⟨t, client₁, hlogged⟩ := exists_loggedIn hs hc hstage hfirst hsecond hbelow
  obtain ⟨t', client₂, hlogged'⟩ := exists_loggedIn hs hc hstage hfirst' hsecond' hbelow'
  rw [hlogged'.below]
  constructor
  · rintro ⟨effects, effects', u, u', hfeeds, hfeeds', hstanding, -⟩
    cases (hlogged.feeds ..).mp hfeeds
    rw [hlogged.found, Option.map_some, hlogged.standing] at hstanding
    have hlast (client' : Client) (hc' : u'.clients c = some client') :
        client'.stage = .loggingIn := by
      rw [hc', Option.map_some] at hstanding
      rw [stage_of_standing (Option.some.inj hstanding).symm, if_neg hname]
    obtain ⟨hrest, q, client', hrefusals, hc', hstanding'⟩ := refusals_of_feeds
      ((hlogged'.feeds ..).mp hfeeds') hlogged'.sound (hlogged'.world hname) hlogged'.found
      hlogged'.standing hname hdata hlast
    rw [hc', Option.map_some, hstanding'] at hstanding
    exact ⟨hrest, q, hrefusals, (answeredStanding_eq_iff hname hrefusals.last_online).mp
      (Option.some.inj hstanding)⟩
  · rintro ⟨hrest, q, hrefusals, hq⟩
    obtain ⟨u', client', hfeeds', hc', hstanding'⟩ := exists_refusals hrefusals hlogged'.sound
      (hlogged'.world hname) hlogged'.found hlogged'.standing rfl hrest
    refine ⟨[], [], t, u', (hlogged.feeds ..).mpr (.nil t), (hlogged'.feeds ..).mpr hfeeds', ?_,
      rfl⟩
    rw [hlogged.found, hc', Option.map_some, Option.map_some, hlogged.standing, hstanding',
      (answeredStanding_eq_iff hname hrefusals.last_online).mpr hq]

/-- A login does not depend on how its block is cut and on what follows in the block's read
exactly when the block is not cut and nothing follows, or when what follows is refused like the
block itself, without flooding, and ends with the same request. -/
theorem login_segmentation_iff {s : Server} (h : Reachable Server.Step Server.initial s)
    {c : ClientId} (hc : s.clients c = some {}) {nameHash : Byte} {block : List Byte}
    {r : LoginRequest} (hblock : LoginHandler.LoginBlock block r) {pks : List Packet}
    (hwf : ∀ pk ∈ pks, pk.WellFormed) {reads reads' : List Read}
    (hcut : BlockCut nameHash block (Packet.encodeAll r.decryptor pks) reads)
    (hown : OwnReads nameHash block (encodeEach r.decryptor pks) reads') :
    SameLogin s c reads reads' ↔ reads.length = 2 ∧ (pks = [] ∨ BelowFlood {} reads' ∧
      ∃ q, Refusals s.world r (encodeEach r.decryptor pks) q ∧ SameRequest r q) := by
  have hs := Server.reachable_sound h
  have htwoReads (first second : Read) : BelowFlood {} [first, second] :=
    belowFlood_few (show 0 + 2 ≤ 100 by decide)
  obtain @⟨first, last, parts, part, hfirst, hparts, hpart, hdata, hlast⟩ := hcut
  obtain @⟨first', second', rest, hfirst', hsecond', hrest⟩ := hown
  have hpackets : ∀ rd ∈ rest, rd.data ≠ [] := by
    intro rd hrd
    have hmem : rd.data ∈ encodeEach r.decryptor pks := hrest ▸ List.mem_map_of_mem hrd
    obtain ⟨pk, -, cipher, hpk⟩ := mem_encodeEach hmem
    rw [hpk]
    exact List.cons_ne_nil _ _
  have hrequest' : LoginHandler.loginRequest second'.data = some r := by
    rw [hsecond']
    exact hblock.request
  cases parts with
  | cons second parts =>
      -- the first part of the block disconnects the client
      have hrequest : LoginHandler.loginRequest second.data = none := by
        rw [List.flatMap_cons, List.append_assoc] at hdata
        exact LoginHandler.loginRequest_part hblock hdata
          (List.append_ne_nil_of_right_ne_nil _ hpart)
      have hreads : ∀ rd ∈ second :: (parts ++ [last]), rd.data ≠ [] := by
        intro rd hrd
        rw [← List.cons_append] at hrd
        rcases List.mem_append.mp hrd with hrd | hrd
        · exact hparts rd hrd
        · obtain rfl := List.mem_singleton.mp hrd
          rw [hlast]
          exact List.append_ne_nil_of_left_ne_nil hpart _
      have hnot := not_sameLogin_of_cut hs hc rfl rfl hfirst hfirst' hrequest hrequest' hreads
        hpackets (htwoReads _ _) (htwoReads _ _)
      refine ⟨fun hsame => absurd hsame hnot, fun hlength => ?_⟩
      have htwo := hlength.1
      simp only [List.length_cons, List.length_append, List.cons_append] at htwo
      omega
  | nil =>
      rw [List.flatMap_nil, List.nil_append] at hdata
      subst hdata
      have hrequest : LoginHandler.loginRequest last.data = some r := by
        rw [hlast]
        exact LoginHandler.loginRequest_append hblock.request _
      have htwo : (first :: ([] ++ [last])).length = 2 := rfl
      cases pks with
      | nil =>
          obtain rfl := List.map_eq_nil_iff.mp hrest
          have hsame := sameLogin_alone hs hc rfl hfirst hfirst' hrequest hrequest' (htwoReads _ _)
            (htwoReads _ _)
          exact ⟨fun _ => ⟨htwo, .inl rfl⟩, fun _ => hsame⟩
      | cons pk pks =>
          have hne : pk :: pks ≠ [] := List.cons_ne_nil pk pks
          rw [← hrest]
          simp only [htwo, hne, true_and, false_or]
          by_cases hname : s.world.players.lookup r.username = none
          · obtain ⟨third, rest, rfl, hthird, -⟩ := List.map_eq_cons_iff.mp hrest
            have hnot : ¬ SameLogin s c [first, last] (first' :: second' :: third :: rest) :=
              not_sameLogin_of_dropped hs hc rfl (hwf pk List.mem_cons_self) hname hfirst hfirst'
                hrequest hrequest' hthird (htwoReads _ _)
                (belowFlood_few (show 0 + 3 ≤ 100 by decide))
            exact ⟨fun hsame => absurd hsame hnot, fun ⟨_, q, hq, _⟩ => absurd hname hq.online⟩
          · exact sameLogin_refused_iff hs hc rfl hname hfirst hfirst' hrequest hrequest' hpackets
              (htwoReads _ _) (htwoReads _ _)

/-! ### A login that is lost -/

/-- The request, then the chunks, a second apart. -/
def loginReads (chunks : List (List Byte)) : List Read :=
  everySecond nanosPerSecond ([14, 0] :: chunks)

/-- The request of the full block. -/
def fullRequest : LoginRequest := { clientHalf := 0, serverHalf := 0, username := [] }

theorem fullBlock_loginBlock : LoginHandler.LoginBlock LoginHandler.fullBlock fullRequest where
  request := by decide +kernel
  length := ⟨_, _, _, rfl, rfl⟩

theorem reachable_accept : Reachable Server.Step Server.initial (Server.initial.accept 0) :=
  (Reachable.start Server.Step Server.initial).snoc
    (.accept ⟨rfl, fun _ hp => absurd hp (Nat.not_lt_zero _)⟩)

theorem ownReads_loginReads (block : List Byte) (packets : List (List Byte)) :
    OwnReads 0 block packets (loginReads (block :: packets)) := by
  have hdata (start : Int) (chunks : List (List Byte)) :
      (everySecond start chunks).map Read.data = chunks := by
    induction chunks generalizing start with
    | nil => rfl
    | cons data chunks ih => rw [everySecond, List.map_cons, ih]
  exact .mk rfl rfl (hdata _ packets)

theorem blockCut_whole {block : List Byte} (hblock : block ≠ []) (behind : List Byte) :
    BlockCut 0 block behind (loginReads [block ++ behind]) :=
  @BlockCut.mk 0 block behind _ _ [] block rfl (fun _ h => (nomatch h)) hblock rfl rfl

theorem accepted_client : (Server.initial.accept 0).clients 0 = some {} := rfl

/-- A packet behind the full block in its read, and in the next read. -/
def joinedReads : List Read :=
  loginReads [LoginHandler.fullBlock ++ Packet.encodeAll fullRequest.decryptor [eightBytes]]

def packetReads : List Read :=
  loginReads (LoginHandler.fullBlock :: encodeEach fullRequest.decryptor [eightBytes])

theorem accepted_login_iff :
    SameLogin (Server.initial.accept 0) 0 joinedReads packetReads ↔
      joinedReads.length = 2 ∧ ([eightBytes] = [] ∨ BelowFlood {} packetReads ∧
        ∃ q, Refusals (Server.initial.accept 0).world fullRequest
          (encodeEach fullRequest.decryptor [eightBytes]) q ∧ SameRequest fullRequest q) :=
  login_segmentation_iff reachable_accept accepted_client fullBlock_loginBlock
    (fun pk hpk => somePackets_wellFormed pk (List.mem_of_mem_take (i := 1) hpk))
    (blockCut_whole (List.cons_ne_nil _ _) _) (ownReads_loginReads _ _)

/-- The full block in two reads, and in one. -/
def cutReads : List Read := loginReads [[16], LoginHandler.fullBlock.tail]

def blockReads : List Read := loginReads [LoginHandler.fullBlock]

/-- A block cut behind its first byte is lost, and so is a packet behind a whole block. -/
theorem accepted_login_lost :
    Reachable Server.Step Server.initial (Server.initial.accept 0) ∧
      (Server.initial.accept 0).clients 0 = some {} ∧
      LoginHandler.LoginBlock LoginHandler.fullBlock fullRequest ∧ eightBytes.WellFormed ∧
      (BlockCut 0 LoginHandler.fullBlock [] cutReads ∧
        OwnReads 0 LoginHandler.fullBlock [] blockReads ∧
        ¬ SameLogin (Server.initial.accept 0) 0 cutReads blockReads) ∧
      (BlockCut 0 LoginHandler.fullBlock (Packet.encodeAll fullRequest.decryptor [eightBytes])
          joinedReads ∧
        OwnReads 0 LoginHandler.fullBlock (encodeEach fullRequest.decryptor [eightBytes])
          packetReads ∧
        ¬ SameLogin (Server.initial.accept 0) 0 joinedReads packetReads) := by
  have hs := Server.reachable_sound reachable_accept
  have hwf : eightBytes.WellFormed := somePackets_wellFormed eightBytes List.mem_cons_self
  have hrequest := fullBlock_loginBlock.request
  have hbelow {reads : List Read} (h : reads.length ≤ 100) : BelowFlood {} reads :=
    belowFlood_few (show 0 + reads.length ≤ 100 by omega)
  refine ⟨reachable_accept, accepted_client, fullBlock_loginBlock, hwf,
    ⟨?_, ownReads_loginReads _ _, ?_⟩, blockCut_whole (List.cons_ne_nil _ _) _,
    ownReads_loginReads _ _, ?_⟩
  · refine @BlockCut.mk 0 _ [] _ _ [_] LoginHandler.fullBlock.tail rfl (fun rd hrd => ?_)
      (List.cons_ne_nil _ _) rfl rfl
    obtain rfl := List.mem_singleton.mp hrd
    exact List.cons_ne_nil _ _
  · refine not_sameLogin_of_cut hs accepted_client rfl rfl rfl rfl rfl hrequest (fun rd hrd => ?_)
      (fun _ h => (nomatch h)) (hbelow (by decide)) (hbelow (by decide))
    rcases List.mem_cons.mp hrd with rfl | hrd
    · exact List.cons_ne_nil _ _
    · obtain rfl := List.mem_singleton.mp hrd
      exact List.cons_ne_nil _ _
  · exact not_sameLogin_of_dropped hs accepted_client rfl hwf rfl rfl rfl
      (LoginHandler.loginRequest_append hrequest _) hrequest rfl (hbelow (by decide))
      (hbelow (by decide))

end Client
end AsioRsps
