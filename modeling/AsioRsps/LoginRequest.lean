import AsioRsps.Arrivals
import AsioRsps.LoginInput

/-!
# Login requests

The logging-in stage cut in two: reading the request out of the client's bytes, which looks at
nothing else, and answering it. What a read of a client that is not logged in does to the
server follows.
-/
namespace AsioRsps
open BitStrings (Byte)
open StreamBuffer

namespace StreamBuffer

theorem exec_lift_eq_ok {α : Type} {x : Except Fault α} {b b' : StreamBuffer} {a : α}
    (h : b.exec (lift x) = .ok (a, b')) : x = .ok a := by
  cases x with
  | error e => cases h
  | ok a' =>
      obtain ⟨rfl, -⟩ := Prod.mk.inj (Except.ok.inj h)
      rfl

end StreamBuffer

/-- What a login block asks for. -/
structure LoginRequest where
  clientHalf : Int
  serverHalf : Int
  username : Name
  deriving DecidableEq

namespace LoginHandler

/-- The reads of `readCredentials`. -/
def readKeysAndName : StreamM (Option LoginRequest) := do
  let _ ← readByte
  skipInts 9
  let _ ← readByte
  let rsaOpcode ← readByte
  if toByte rsaOpcode ≠ 10 then return none
  else
    let clientHalf ← readLong
    let serverHalf ← readLong
    let _ ← readInt
    let username ← readString
    let _password ← readString
    return some { clientHalf, serverHalf, username }

/-- The reads of `handleLoggingInStage`; `none` where the client is disconnected. -/
def readLogin : StreamM (Option LoginRequest) := do
  if (← get).remaining < 2 then return none
  else
    let loginType ← readByte
    if toByte loginType ≠ 16 ∧ toByte loginType ≠ 18 then return none
    else
      let blockLength := (toByte (← readByte)).toNat
      if (← get).remaining < blockLength then return none
      else
        let _magic ← readByte
        let clientVersion ← readShort
        if clientVersion % 2 ^ 16 ≠ 317 then return none
        else readKeysAndName

/-- The answer to a request, or to the lack of one. -/
def answer (s : Server) (c : ClientId) : Option LoginRequest → Except Fault Server
  | none => Client.disconnect s c
  | some r => enterWorld (setCiphers s c r.clientHalf r.serverHalf) c r.username

/-- The name under which a client asks to be logged in. -/
def loginName (data : List Byte) : Option Name :=
  match (ofData data).exec readLogin with
  | .ok (some r, _) => some r.username
  | _ => none

/-- The request that is in the bytes. -/
def loginRequest (data : List Byte) : Option LoginRequest :=
  match (ofData data).exec readLogin with
  | .ok (request, _) => request
  | _ => none

theorem loginName_eq (data : List Byte) :
    loginName data = (loginRequest data).map LoginRequest.username := by
  simp only [loginName, loginRequest]
  split <;> rename_i hread
  · rw [hread]
    rfl
  · split
    · rename_i request _ hread'
      cases request with
      | none => rfl
      | some r => exact absurd hread' (hread r _)
    · rfl

theorem readCredentials_eq (s : Server) (c : ClientId) :
    readCredentials s c = readKeysAndName >>= fun r => lift (answer s c r) := by
  simp only [readCredentials, readKeysAndName, bind_assoc]
  refine bind_congr fun _ => bind_congr fun _ => bind_congr fun _ => bind_congr fun rsaOpcode => ?_
  split
  · rw [pure_bind]
    rfl
  · simp only [bind_assoc, pure_bind]
    rfl

theorem handleLoggingInStage_eq (s : Server) (c : ClientId) :
    handleLoggingInStage s c = readLogin >>= fun r => lift (answer s c r) := by
  simp only [handleLoggingInStage, readLogin, bind_assoc]
  refine bind_congr fun b => ?_
  split
  · rw [pure_bind]
    rfl
  · simp only [bind_assoc]
    refine bind_congr fun loginType => ?_
    split
    · rw [pure_bind]
      rfl
    · simp only [bind_assoc]
      refine bind_congr fun blockLength => bind_congr fun b => ?_
      split
      · rw [pure_bind]
        rfl
      · simp only [bind_assoc]
        refine bind_congr fun _ => bind_congr fun clientVersion => ?_
        split
        · rw [pure_bind]
          rfl
        · exact readCredentials_eq s c

/-- A login that succeeds answers the request that was read. -/
theorem handleLoggingInStage_inv {s s' : Server} {c : ClientId} {data : List Byte}
    {b : StreamBuffer} (h : (ofData data).exec (handleLoggingInStage s c) = .ok (s', b)) :
    loginRequest data = none ∧ Client.disconnect s c = .ok s' ∨
      ∃ r, loginRequest data = some r ∧
        enterWorld (setCiphers s c r.clientHalf r.serverHalf) c r.username = .ok s' := by
  rw [handleLoggingInStage_eq] at h
  obtain ⟨request, b', hread, hanswer⟩ := exec_bind_eq_ok.mp h
  have hok := exec_lift_eq_ok hanswer
  cases request with
  | none => exact .inl ⟨by rw [loginRequest, hread], hok⟩
  | some r => exact .inr ⟨r, by rw [loginRequest, hread], hok⟩

/-- The handshake of the connected stage either disconnects or moves on to the next stage. -/
theorem handleConnectedStage_inv {s s' : Server} {c : ClientId} {client : Client} {gen : Int}
    {b b' : StreamBuffer} (hc : s.clients c = some client)
    (h : b.exec (handleConnectedStage s c gen) = .ok (s', b')) :
    Client.disconnect s c = .ok s' ∨ ∃ bytes, s' = s.setClient c
      { client with strand := client.strand ++ [.push bytes], stage := .loggingIn } := by
  obtain ⟨b₀, b₁, -, h⟩ := exec_bind_eq_ok.mp h
  split at h
  · exact .inl (exec_lift_eq_ok h)
  · obtain ⟨request, b₂, -, h⟩ := exec_bind_eq_ok.mp h
    obtain ⟨_, b₃, -, h⟩ := exec_bind_eq_ok.mp h
    split at h
    · exact .inl (exec_lift_eq_ok h)
    · right
      obtain ⟨out, bytes, hreply, hout⟩ := exec_connectedReply gen
      rw [hreply, lift_ok, pure_bind] at h
      simp only [Client.send_ok hc hout, lift_ok, pure_bind] at h
      obtain ⟨rfl, -⟩ := Prod.mk.inj (Except.ok.inj h)
      refine ⟨bytes, ?_⟩
      rw [Server.modifyClient_eq (Server.setClient_clients_self ..), Server.setClient_setClient]

/-! ## A login that asks for a name -/

/-- The bytes with which a client opens its connection. -/
def handshake : List Byte := [14, 0]

/-- A login block for a username. -/
def loginBlock (username : Name) : List Byte :=
  [16, 0, 255, 1, 61] ++ (List.replicate 38 0 ++ (10 :: (List.replicate 20 0 ++
    (username ++ 10 :: [10]))))

theorem readKeysAndName_ok {b : StreamBuffer} {username : Name}
    (hrest : b.rest = List.replicate 38 0 ++ (10 :: (List.replicate 20 0 ++
      (username ++ 10 :: [10])))) (hname : 10 ∉ username) (hlen : username.length ≤ 1024) :
    ∃ r b', readKeysAndName b = .ok (some r) b' ∧ r.username = username := by
  obtain ⟨_, hints⟩ := takes_skipInts 9
  obtain ⟨_, hlong⟩ := takes_readLong
  obtain ⟨_, hint⟩ := takes_readInt
  have hbyte := takes_readByte true .standard
  have hlength : b.rest.length = 61 + username.length := by
    rw [hrest]
    simp only [List.length_append, List.length_replicate, List.length_cons, List.length_nil]
    omega
  have hfits (k n : Nat) (h : k + n ≤ 59) : n ≤ (b.skip k).rest.length := by
    rw [rest_skip, List.length_drop, hlength]
    omega
  have hopcode : (b.rest.drop 38).headD 0 = 10 := by
    rw [hrest, List.drop_left' List.length_replicate]
    rfl
  have hstring : (b.skip 59).rest = username ++ 10 :: [10] := by
    rw [rest_skip, hrest]
    rfl
  have huser := readStringLoop_line 1024 [] hstring hname hlen
  have hpassword : ((b.skip 59).skip (username.length + 1)).rest = [] ++ 10 :: [] := by
    rw [rest_skip, hstring, ← List.singleton_append, ← List.append_assoc]
    exact List.drop_left' (by simp)
  have hpass := readStringLoop_line 1024 [] hpassword (by simp) (by simp)
  rw [readKeysAndName, bind_ok (hbyte.ok b (hfits 0 1 (by decide))),
    bind_ok (hints.ok _ (hfits 1 36 (by decide))), skip_skip,
    bind_ok (hbyte.ok _ (hfits 37 1 (by decide))), skip_skip,
    bind_ok (hbyte.ok _ (hfits 38 1 (by decide))), skip_skip, toByte_readValue, rest_skip, hopcode]
  rw [if_neg (by decide), bind_ok (hlong.ok _ (hfits 39 8 (by decide))), skip_skip,
    bind_ok (hlong.ok _ (hfits 47 8 (by decide))), skip_skip,
    bind_ok (hint.ok _ (hfits 55 4 (by decide))), skip_skip]
  rw [readString, bind_ok huser, bind_ok hpass]
  exact ⟨_, _, rfl, rfl⟩

/-- The login block asks for its username. -/
theorem readLogin_loginBlock {username : Name} (hname : 10 ∉ username)
    (hlen : username.length ≤ 1024) : ∃ r b',
    (ofData (loginBlock username)).exec readLogin = .ok (some r, b') ∧
      r.username = username := by
  let b := ofData (loginBlock username)
  obtain ⟨version, hshort, hversion⟩ := takes_readShort
  have hbyte := takes_readByte true .standard
  have hrest : b.rest = loginBlock username := rest_ofData _
  have hlength : b.rest.length = 66 + username.length := by
    rw [hrest, loginBlock]
    simp only [List.length_append, List.length_replicate, List.length_cons, List.length_nil]
    omega
  have hfits (k n : Nat) (h : k + n ≤ 66) : n ≤ (b.skip k).rest.length := by
    rw [rest_skip, List.length_drop, hlength]
    omega
  have hremaining (k : Nat) (h : k ≤ 66) : (b.skip k).remaining = 66 + username.length - k := by
    have hpos : (b.skip k).pos ≤ (b.skip k).buffer.length := by
      change 0 + k ≤ b.rest.length
      omega
    rw [remaining_eq_length hpos, rest_skip, List.length_drop, hlength]
    omega
  obtain ⟨r, b', hrun, hr⟩ := readKeysAndName_ok (b := b.skip 5)
    (by rw [rest_skip, hrest]; rfl) hname hlen
  refine ⟨r, b', ?_, hr⟩
  have hread : readLogin b = .ok (some r) b' := by
    have h0 := hremaining 0 (by decide)
    have h2 := hremaining 2 (by decide)
    rw [skip_zero] at h0
    have hshort' : ¬ b.remaining < 2 := by rw [h0]; omega
    have hblock : ¬ (b.skip 2).remaining < (((loginBlock username).drop 1).headD 0).toNat := by
      rw [h2]
      change ¬ (_ : Int) < 0
      omega
    rw [readLogin, get_bind, if_neg hshort', bind_ok (hbyte.ok b (hfits 0 1 (by decide))),
      toByte_readValue, hrest, if_neg (by simp [loginBlock]),
      bind_ok (hbyte.ok _ (hfits 1 1 (by decide))), toByte_readValue, skip_skip, rest_skip, hrest,
      get_bind, if_neg hblock, bind_ok (hbyte.ok _ (hfits 2 1 (by decide))), skip_skip,
      bind_ok (hshort.ok _ (hfits 3 2 (by decide))), skip_skip, rest_skip, hrest]
    have hv : version ((loginBlock username).drop 3) = 317 := hversion 1 61 _
    rw [hv, if_neg (by decide)]
    exact hrun
  simp only [exec]
  rw [hread]

end LoginHandler
end AsioRsps
