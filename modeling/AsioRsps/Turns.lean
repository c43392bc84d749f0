import AsioRsps.Connection
import AsioRsps.PacketEffects

/-!
# Turns of a client

What one event of a client can do to a server whose sessions are sound: the client leaves, it
is answered the handshake, or it is answered a login, and everything else is quiet.
-/
namespace AsioRsps
open BitStrings (Byte)
open StreamBuffer
open FallibleLoop (bind_eq_ok)

namespace Client

theorem doWrite_inv {client client' : Client} (h : client.doWrite = .ok client') :
    ∃ front rest, client.writeQueue = front :: rest ∧
      client' = { client with writing := true, asyncWrites := client.asyncWrites ++ [front] } := by
  rw [doWrite] at h
  split at h
  · cases h
  · rename_i front rest hqueue
    exact ⟨front, rest, hqueue, (Except.ok.inj h).symm⟩

theorem quietClient_doWrite {client client' : Client} (h : client.doWrite = .ok client') :
    Server.QuietClient client client' := by
  obtain ⟨front, rest, -, rfl⟩ := doWrite_inv h
  exact ⟨rfl, rfl, rfl, rfl, id, id⟩

theorem quietClient_push {client client' : Client} {data : List Byte}
    (h : client.push data = .ok client') : Server.QuietClient client client' := by
  rw [push] at h
  dsimp only at h
  split at h
  · obtain rfl := Except.ok.inj h
    exact ⟨rfl, rfl, rfl, rfl, id, id⟩
  · have hq := quietClient_doWrite h
    exact ⟨hq.stage, hq.disconnected, hq.username, hq.player, hq.encryptor, hq.decryptor⟩

end Client

namespace Server

/-! ## Closing -/

/-- The client may leave, once; nobody else comes or goes. -/
inductive Closing (c : ClientId) (s : Server) : Server → Prop where
  | quiet {s' : Server} : s.Quiet s' → Closing c s s'
  | leaves {t u s' : Server} {client : Client} : s.Quiet t → t.clients c = some client →
      client.disconnected = false → Client.disconnect t c = .ok u → u.Quiet s' → Closing c s s'

theorem closing_disconnect {s s' : Server} {c : ClientId} (h : Client.disconnect s c = .ok s') :
    Closing c s s' := by
  obtain ⟨client, hlock, -⟩ := bind_eq_ok.mp h
  have hc := clients_of_lockClient hlock
  cases hd : client.disconnected with
  | true =>
      obtain rfl := Except.ok.inj (h.symm.trans (Client.disconnect_again hc hd))
      exact .quiet (.refl s')
  | false => exact .leaves (.refl s) hc hd h (.refl s')

theorem Closing.after {s t s' : Server} {c : ClientId} (h : Closing c t s') (hq : s.Quiet t) :
    Closing c s s' := by
  cases h with
  | quiet h => exact .quiet (hq.trans h)
  | leaves h hc hd hrun h' => exact .leaves (hq.trans h) hc hd hrun h'

theorem Closing.before {s t s' : Server} {c : ClientId} (h : Closing c s t) (hq : t.Quiet s') :
    Closing c s s' := by
  cases h with
  | quiet h => exact .quiet (h.trans hq)
  | leaves h hc hd hrun h' => exact .leaves h hc hd hrun (h'.trans hq)

theorem closing_runPosted {s s' : Server} {c : ClientId} (hrun : Client.runPosted s c = .ok s') :
    Closing c s s' := by
  obtain ⟨client, hlock, hrun⟩ := bind_eq_ok.mp hrun
  have hc := clients_of_lockClient hlock
  split at hrun
  · obtain rfl := Except.ok.inj hrun
    exact .quiet (.refl s)
  · obtain ⟨client', hpush, hrun⟩ := bind_eq_ok.mp hrun
    obtain rfl := Except.ok.inj hrun
    have hq := Client.quietClient_push hpush
    exact .quiet (quiet_setClient hc
      ⟨hq.stage, hq.disconnected, hq.username, hq.player, hq.encryptor, hq.decryptor⟩)
  · rename_i strand _
    have hpending : s.Quiet (s.setClient c { client with strand, pendingDisconnect := true }) :=
      quiet_setClient hc ⟨rfl, rfl, rfl, rfl, id, id⟩
    split at hrun
    · exact (closing_disconnect hrun).after hpending
    · obtain rfl := Except.ok.inj hrun
      exact .quiet hpending

theorem closing_written {s s' : Server} {c : ClientId} (hrun : Client.written s c = .ok s') :
    Closing c s s' := by
  obtain ⟨client, hlock, hrun⟩ := bind_eq_ok.mp hrun
  have hc := clients_of_lockClient hlock
  split at hrun
  · cases hrun
  · rename_i writeQueue _
    have hpopped : QuietClient client
        { client with writeQueue, completedWrites := client.completedWrites + 1 } :=
      ⟨rfl, rfl, rfl, rfl, id, id⟩
    dsimp only at hrun
    split at hrun
    · obtain ⟨client', hwrite, hrun⟩ := bind_eq_ok.mp hrun
      obtain rfl := Except.ok.inj hrun
      exact .quiet (quiet_setClient hc (hpopped.trans (Client.quietClient_doWrite hwrite)))
    · have hidle : s.Quiet (s.setClient c { client with
          writeQueue, completedWrites := client.completedWrites + 1, writing := false }) :=
        quiet_setClient hc ⟨rfl, rfl, rfl, rfl, id, id⟩
      split at hrun
      · obtain ⟨t, hdisconnect, hrun⟩ := bind_eq_ok.mp hrun
        obtain rfl := Except.ok.inj hrun
        refine ((closing_disconnect hdisconnect).after hidle).before ?_
        cases ht : t.clients c with
        | none =>
            rw [modifyClient, ht]
            exact .refl t
        | some client' =>
            rw [modifyClient_eq ht]
            exact quiet_setClient ht ⟨rfl, rfl, rfl, rfl, id, id⟩
      · obtain rfl := Except.ok.inj hrun
        exact .quiet hidle

theorem closing_writeFailed {s s' : Server} {c : ClientId}
    (hrun : Client.writeFailed s c = .ok s') : Closing c s s' := by
  obtain ⟨client, hlock, hrun⟩ := bind_eq_ok.mp hrun
  have hdone : s.Quiet (s.setClient c
      { client with completedWrites := client.completedWrites + 1 }) :=
    quiet_setClient (clients_of_lockClient hlock) ⟨rfl, rfl, rfl, rfl, id, id⟩
  exact (closing_disconnect hrun).after hdone

/-! ## Reads -/

theorem setCiphers_eq {s : Server} {c : ClientId} {client : Client}
    (hc : s.clients c = some client) (clientHalf serverHalf : Int) :
    LoginHandler.setCiphers s c clientHalf serverHalf = s.setClient c { client with
      decryptor := some (ISAACCipher.new (LoginHandler.seed clientHalf serverHalf 0))
      encryptor := some (ISAACCipher.new (LoginHandler.seed clientHalf serverHalf 50)) } :=
  modifyClient_eq hc _

end Server

namespace LoginHandler
open Server

/-- The client with the ciphers of a request. -/
def ciphered (client : Client) (r : LoginRequest) : Client :=
  { client with
    decryptor := some (ISAACCipher.new (seed r.clientHalf r.serverHalf 0))
    encryptor := some (ISAACCipher.new (seed r.clientHalf r.serverHalf 50)) }

theorem quiet_ciphered {s : Server} {c : ClientId} {client : Client}
    (hc : s.clients c = some client) (r : LoginRequest) :
    s.Quiet (s.setClient c (ciphered client r)) :=
  quiet_setClient hc ⟨rfl, rfl, rfl, rfl, fun _ => rfl, fun _ => rfl⟩

/-- Bytes without a request disconnect the client, and a request has the outcome of a login. -/
theorem handleLoggingInStage_outcome {s s' : Server} {c : ClientId} {client : Client}
    {data : List Byte} {b : StreamBuffer} (hs : s.Sound) (hc : s.clients c = some client)
    (hstage : client.stage = .loggingIn)
    (h : (ofData data).exec (handleLoggingInStage s c) = .ok (s', b)) :
    loginRequest data = none ∧ Client.disconnect s c = .ok s' ∨
      ∃ r, loginRequest data = some r ∧
        Outcome (s.setClient c (ciphered client r)) c (ciphered client r)
          (ISAACCipher.new (seed r.clientHalf r.serverHalf 50)) r.username s' := by
  rcases handleLoggingInStage_inv h with hnone | ⟨r, hr, henter⟩
  · exact .inl hnone
  · rw [setCiphers_eq hc] at henter
    have hnot : (ciphered client r).stage ≠ .loggedIn := by
      change client.stage ≠ .loggedIn
      rw [hstage]
      decide
    obtain ⟨t, henter', ho⟩ := enterWorld_outcome (hs.quiet (quiet_ciphered hc r))
      (setClient_clients_self ..) hnot rfl r.username
    obtain rfl := Except.ok.inj (henter.symm.trans henter')
    exact .inr ⟨r, hr, ho⟩

end LoginHandler

namespace Server

/-- The outcomes of a read in a server whose sessions are sound. A login asks for the username
that is in the bytes read. -/
inductive Turn (s : Server) (c : ClientId) (client : Client) (now : Int) (data : List Byte) :
    Server → Prop where
  | closing {s' : Server} : Closing c s s' →
      (client.stage = .loggingIn → (Client.countPacket client now).2 = false →
        LoginHandler.loginName data = none) → Turn s c client now data s'
  | handshake {t : Server} {client' : Client} {bytes : List Byte} : client.stage = .connected →
      s.Quiet t → t.clients c = some client' → client'.stage = .connected →
      Turn s c client now data (t.setClient c { client' with
        strand := client'.strand ++ [.push bytes], stage := .loggingIn })
  | login {t s' : Server} {client' : Client} {cipher : ISAACCipher} {username : Name} :
      client.stage = .loggingIn → (Client.countPacket client now).2 = false →
      LoginHandler.loginName data = some username → s.Quiet t → t.clients c = some client' →
      client'.stage = .loggingIn → client'.encryptor = some cipher →
      client'.decryptor.isSome = true →
      LoginHandler.Outcome t c client' cipher username s' → Turn s c client now data s'

theorem turn_handleLoggingInStage {s t s' : Server} {c : ClientId} {client client' : Client}
    {now : Int} {data : List Byte} {b : StreamBuffer} (hs : s.Sound) (hq : s.Quiet t)
    (hc : t.clients c = some client') (hstage' : client'.stage = .loggingIn)
    (hstage : client.stage = .loggingIn) (hflood : (Client.countPacket client now).2 = false)
    (h : (ofData data).exec (LoginHandler.handleLoggingInStage t c) = .ok (s', b)) :
    Turn s c client now data s' := by
  rcases LoginHandler.handleLoggingInStage_outcome (hs.quiet hq) hc hstage' h with
    ⟨hnone, hdisconnect⟩ | ⟨r, hr, ho⟩
  · refine .closing ((closing_disconnect hdisconnect).after hq) fun _ _ => ?_
    rw [LoginHandler.loginName_eq, hnone]
    rfl
  · have hname : LoginHandler.loginName data = some r.username := by
      rw [LoginHandler.loginName_eq, hr]
      rfl
    exact .login hstage hflood hname (hq.trans (LoginHandler.quiet_ciphered hc r))
      (setClient_clients_self ..) hstage' rfl rfl ho

theorem turn_of_read {s : Server} {c : ClientId} {client : Client} {now gen : Int}
    {data : List Byte} {s' : Server} (hs : s.Sound) (hc : s.clients c = some client)
    (h : Client.ReadOutcome s c client now gen data s') : Turn s c client now data s' := by
  have hcounted := Client.quiet_counted hc now
  cases h with
  | flood hflood hdisconnect =>
      refine .closing ((closing_disconnect hdisconnect).after hcounted) fun _ hno => ?_
      exact absurd (hflood.symm.trans hno) (by decide)
  | packets _ hstage hquiet =>
      refine .closing (.quiet (hcounted.trans hquiet)) fun hearly _ => ?_
      exact absurd (hstage.symm.trans hearly) (by decide)
  | login hflood hnot hrun =>
      let client₁ := (Client.countPacket client now).1
      have hstage₁ : client₁.stage = client.stage :=
        (Client.quietClient_countPacket client now).stage
      have hc₁ : (Client.counted s c client now).clients c = some client₁ :=
        setClient_clients_self ..
      cases hstage : client.stage with
      | connected =>
          rw [hstage] at hstage₁
          simp only [StreamBuffer.exec, LoginHandler.process_connected hc₁ hstage₁] at hrun
          rcases LoginHandler.handleConnectedStage_inv hc₁ hrun with hdisconnect | ⟨bytes, rfl⟩
          · refine .closing ((closing_disconnect hdisconnect).after hcounted) fun hearly _ => ?_
            exact absurd (hstage.symm.trans hearly) (by decide)
          · exact .handshake hstage hcounted hc₁ hstage₁
      | loggingIn =>
          rw [hstage] at hstage₁
          simp only [StreamBuffer.exec, LoginHandler.process_loggingIn hc₁ hstage₁] at hrun
          exact turn_handleLoggingInStage hs hcounted hc₁ hstage₁ hstage hflood hrun
      | loggedIn => exact absurd hstage hnot
      | loggedOut =>
          rw [hstage] at hstage₁
          rw [LoginHandler.process_loggedOut hc₁ hstage₁] at hrun
          obtain ⟨rfl, -⟩ := Prod.mk.inj (Except.ok.inj hrun)
          refine .closing (.quiet hcounted) fun hearly _ => ?_
          exact absurd (hstage.symm.trans hearly) (by decide)

end Server
end AsioRsps
