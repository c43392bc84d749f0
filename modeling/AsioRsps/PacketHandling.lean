import AsioRsps.Client

/-!
# One packet

What `HandlePacket` takes from the buffer. Most packets are skipped; a movement packet reads a
path whose size it derives from the length it was given, and is then filled up to that length.
-/
namespace AsioRsps
open BitStrings (Byte)
open StreamBuffer
open Server (crowd crowdClient crowd_client crowd_registered)

namespace Client

/-! ## Reading a path -/

theorem skipBytes_ok {n : Nat} {b : StreamBuffer} (h : n ≤ b.rest.length) :
    skipBytes n b = .ok () (b.skip n) := by
  induction n generalizing b with
  | zero => rfl
  | succ n ih =>
      cases hb : b.rest with
      | nil =>
          rw [hb] at h
          cases h
      | cons x xs =>
          have hrest : (b.skip 1).rest = xs := by rw [rest_skip, hb]; rfl
          rw [hb, List.length_cons] at h
          rw [skipBytes, bind_ok (readByte_cons hb true .standard), ih (by rw [hrest]; omega),
            skip_skip, Nat.add_comm]

/-- The offsets spelled by pairs of signed bytes. -/
def pathOf : List Byte → List (Int × Int)
  | x :: y :: bytes => (x.toInt, y.toInt) :: pathOf bytes
  | _ => []

theorem readPath_ok {n : Nat} {b : StreamBuffer} {bytes tail : List Byte}
    (h : b.rest = bytes ++ tail) (hn : bytes.length = 2 * n) :
    readPath n b = .ok (pathOf bytes) (b.skip (2 * n)) := by
  induction n generalizing b bytes with
  | zero =>
      obtain rfl := List.eq_nil_of_length_eq_zero hn
      rfl
  | succ n ih =>
      match bytes, hn with
      | x :: y :: bytes, hn =>
          have h1 : (b.skip 1).rest = y :: (bytes ++ tail) := by rw [rest_skip, h]; rfl
          have h2 : (b.skip 2).rest = bytes ++ tail := by rw [rest_skip, h]; rfl
          have hlen : bytes.length = 2 * n := by simp only [List.length_cons] at hn; omega
          have hskip : 2 + 2 * n = 2 * (n + 1) := by omega
          simp only [readPath, bind_ok (readByte_cons h true .standard),
            bind_ok (readByte_cons h1 true .standard), skip_skip, bind_ok (ih h2 hlen), hskip]
          rfl

/-- The tiles of a movement payload: the first tile, and the path relative to it. -/
def tilesOf (lowX highX lowY highY : Byte) (path : List Byte) : List Position :=
  let x := shortLittle .a lowX highX
  let y := shortLittle .standard lowY highY
  pathTile x y (0, 0) :: (pathOf path).map (pathTile x y)

/-- The run flag is read under value type `C`, so it is set by `-1`. -/
def runsOf (byte : Byte) : Bool := readValue true .c byte = 1

theorem movePlayer_cons {s : Server} {c : ClientId} {client : Client} {p : PlayerId}
    {b : StreamBuffer} {lowX highX lowY highY run : Byte} {path tail : List Byte}
    (hc : s.clients c = some client) (hp : s.lockPlayer client.player = some p)
    (h : b.rest = run :: tail) :
    movePlayer s c (shortLittle .a lowX highX) (shortLittle .standard lowY highY) (pathOf path) b =
      .ok (s.modifyPlayer p fun player =>
        walkPath player (runsOf run) (tilesOf lowX highX lowY highY path)) (b.skip 1) := by
  simp only [movePlayer, Server.lockClient_eq hc, lift_ok, pure_bind, hp, Server.deref_some]
  rw [bind_ok (readByte_cons h true .c)]
  rfl

/-- Without a player, or without a byte for the run flag, the movement fails. -/
theorem movePlayer_error {s : Server} {c : ClientId} {client : Client} {b : StreamBuffer}
    (hc : s.clients c = some client) (h : s.lockPlayer client.player = none ∨ b.rest = [])
    (x y : Int) (path : List (Int × Int)) : ∃ e b', movePlayer s c x y path b = .error e b' := by
  cases hp : s.lockPlayer client.player with
  | none =>
      refine ⟨.nullPointer, b, ?_⟩
      simp only [movePlayer, Server.lockClient_eq hc, lift_ok, pure_bind, hp]
      rfl
  | some p =>
      have hrest : b.rest = [] := h.resolve_left (by rw [hp]; simp)
      refine ⟨.outOfBounds, b, ?_⟩
      simp only [movePlayer, Server.lockClient_eq hc, lift_ok, pure_bind, hp, Server.deref_some]
      simp only [bind, EStateM.bind, readByte_nil hrest]

/-- The path and both coordinates of the first tile are read before the player is needed. -/
theorem handleMovement_path {s : Server} {c : ClientId} {packetOpcode packetLength : Int} {n : Nat}
    {b : StreamBuffer} {path tail : List Byte} {lowX highX lowY highY : Byte}
    (hsteps : movementSteps packetOpcode packetLength = n) (hpath : path.length = 2 * n)
    (h : b.rest = lowX :: highX :: (path ++ lowY :: highY :: tail)) :
    handleMovement s c packetOpcode packetLength b =
      movePlayer s c (shortLittle .a lowX highX) (shortLittle .standard lowY highY) (pathOf path)
        (b.skip (4 + 2 * n)) := by
  have h2 : (b.skip 2).rest = path ++ lowY :: highY :: tail := by rw [rest_skip, h]; rfl
  have h3 : (b.skip (2 + 2 * n)).rest = lowY :: highY :: tail := by
    rw [← skip_skip, rest_skip, h2, List.drop_left' hpath]
  have hnonneg : ¬ (n : Int) < 0 := by omega
  have hskip : 2 + 2 * n + 2 = 4 + 2 * n := by omega
  simp only [handleMovement, hsteps, hnonneg, if_false, Int.toNat_natCast]
  rw [bind_ok (readShort_little h .a), bind_ok (readPath_ok h2 hpath), skip_skip,
    bind_ok (readShort_little h3 .standard), skip_skip, hskip]

/-- Enough bytes for a path of `n` steps split into its parts. -/
theorem exists_movement {bytes : List Byte} {n : Nat} (h : 4 + 2 * n ≤ bytes.length) :
    ∃ lowX highX path lowY highY tail, path.length = 2 * n ∧
      bytes = lowX :: highX :: (path ++ lowY :: highY :: tail) := by
  rcases bytes with _ | ⟨lowX, _ | ⟨highX, bytes⟩⟩
  · simp at h
  · simp at h
    omega
  · have hdrop : 2 ≤ (bytes.drop (2 * n)).length := by
      simp only [List.length_cons] at h
      rw [List.length_drop]
      omega
    rcases hd : bytes.drop (2 * n) with _ | ⟨lowY, _ | ⟨highY, tail⟩⟩
    · simp [hd] at hdrop
    · simp [hd] at hdrop
    · refine ⟨lowX, highX, bytes.take (2 * n), lowY, highY, tail, ?_, ?_⟩
      · rw [hd] at hdrop
        have hlen := congrArg List.length hd
        simp only [List.length_drop, List.length_cons] at hlen
        rw [List.length_take]
        omega
      · rw [← hd, List.take_append_drop]

/-! ## The whole packet -/

/-- What a movement payload with `n` steps does to the player. -/
def walkPayload (player : Player) (n : Nat) : List Byte → Player
  | lowX :: highX :: bytes =>
      match bytes.drop (2 * n) with
      | lowY :: highY :: run :: _ =>
          walkPath player (runsOf run) (tilesOf lowX highX lowY highY (bytes.take (2 * n)))
      | _ => player
  | _ => player

theorem walkPayload_eq (player : Player) {n : Nat} {path tail : List Byte}
    (lowX highX lowY highY run : Byte) (hpath : path.length = 2 * n) :
    walkPayload player n (lowX :: highX :: (path ++ lowY :: highY :: run :: tail)) =
      walkPath player (runsOf run) (tilesOf lowX highX lowY highY path) := by
  simp only [walkPayload, List.drop_left' hpath, List.take_left' hpath]

/-- The server after a packet whose payload is long enough. -/
def handled (s : Server) (p : PlayerId) (packetOpcode : Int) (payload : List Byte) : Server :=
  if IsMovement packetOpcode then
    s.modifyPlayer p fun player =>
      walkPayload player (movementSteps packetOpcode payload.length).toNat payload
  else s

/-- How many steps a movement packet of each kind and length has. -/
theorem movementSteps_walk {packetOpcode : Int} (hop : packetOpcode = 98 ∨ packetOpcode = 164)
    {n : Nat} (h : 4 ≤ n) : movementSteps packetOpcode n = ((n - 5) / 2 : Nat) := by
  have hne : packetOpcode ≠ 248 := by omega
  simp only [movementSteps, hne, if_false]
  rcases Nat.lt_or_ge n 5 with hn | hn
  · obtain rfl : n = 4 := by omega
    rfl
  · rw [Int.tdiv_eq_ediv_of_nonneg (by omega)]
    omega

theorem movementSteps_minimap {n : Nat} (h : 18 ≤ n) :
    movementSteps 248 n = ((n - 19) / 2 : Nat) := by
  simp only [movementSteps, if_true]
  rcases Nat.lt_or_ge n 19 with hn | hn
  · obtain rfl : n = 18 := by omega
    rfl
  · rw [Int.tdiv_eq_ediv_of_nonneg (by omega)]
    omega

theorem tdiv_two_neg {a : Int} (h : a ≤ -2) : a.tdiv 2 < 0 := by
  have hneg : a = -(-a) := (Int.neg_neg a).symm
  rw [hneg, Int.neg_tdiv, Int.tdiv_eq_ediv_of_nonneg (by omega)]
  omega

theorem movementSteps_neg {packetOpcode : Int} {n : Nat}
    (h : (packetOpcode = 98 ∨ packetOpcode = 164) ∧ n < 4 ∨ packetOpcode = 248 ∧ n < 18) :
    movementSteps packetOpcode n < 0 := by
  rcases h with ⟨hop, hn⟩ | ⟨rfl, hn⟩
  · have hne : packetOpcode ≠ 248 := by omega
    simp only [movementSteps, hne, if_false]
    exact tdiv_two_neg (by omega)
  · simp only [movementSteps, if_true]
    exact tdiv_two_neg (by omega)

/-- A movement that succeeds is filled up to the declared length. -/
theorem handlePacket_movement {s s' : Server} {c : ClientId} {packetOpcode : Int} {n m : Nat}
    {b : StreamBuffer} (hop : IsMovement packetOpcode)
    (hm : handleMovement s c packetOpcode n b = .ok s' (b.skip m)) (hn : n ≤ b.rest.length) :
    handlePacket s c packetOpcode n b = .ok s' (b.skip (max n m)) := by
  have hcount : ((n : Int) - ((b.skip m).pos - b.pos : Nat)).toNat = n - m := by
    rw [skip_pos]
    omega
  have hroom : n - m ≤ (b.skip m).rest.length := by
    rw [rest_skip, List.length_drop]
    omega
  have hskip : m + (n - m) = max n m := by omega
  have hskipped := skipBytes_ok hroom
  rw [skip_skip, hskip] at hskipped
  simp only [handlePacket, hop, if_true]
  change (handleMovement s c packetOpcode n >>= _) b = _
  rw [bind_ok hm]
  change (skipBytes ((n : Int) - ((b.skip m).pos - b.pos : Nat)).toNat >>= _) (b.skip m) = _
  rw [hcount, bind_ok hskipped]
  rfl

/-- Any other packet is skipped. -/
theorem handlePacket_other {s : Server} {c : ClientId} {packetOpcode : Int} {n : Nat}
    {b : StreamBuffer} (hop : ¬ IsMovement packetOpcode) (hn : n ≤ b.rest.length) :
    handlePacket s c packetOpcode n b = .ok s (b.skip n) := by
  have hcount : ((n : Int) - (b.pos - b.pos : Nat)).toNat = n := by omega
  simp only [handlePacket, hop, if_false]
  change (skipBytes ((n : Int) - (b.pos - b.pos : Nat)).toNat >>= _) b = _
  rw [hcount, bind_ok (skipBytes_ok hn)]
  rfl

/-- The lengths at which each movement packet reads no more than its payload. -/
def Fits (packetOpcode : Int) (packetLength : Nat) : Prop :=
  (packetOpcode = 98 ∨ packetOpcode = 164 → 5 ≤ packetLength) ∧
    (packetOpcode = 248 → 18 ≤ packetLength)

theorem fits_steps {packetOpcode : Int} {n : Nat} (hop : IsMovement packetOpcode)
    (h : Fits packetOpcode n) :
    ∃ steps : Nat, movementSteps packetOpcode n = steps ∧ 5 + 2 * steps ≤ n := by
  rcases hop with rfl | rfl | rfl
  · have hn := h.2 rfl
    exact ⟨_, movementSteps_minimap hn, by omega⟩
  · have hn := h.1 (.inr rfl)
    exact ⟨_, movementSteps_walk (.inr rfl) (by omega), by omega⟩
  · have hn := h.1 (.inl rfl)
    exact ⟨_, movementSteps_walk (.inl rfl) (by omega), by omega⟩

theorem handleMovement_payload {s : Server} {c : ClientId} {client : Client} {p : PlayerId}
    {packetOpcode packetLength : Int} {n : Nat} {payload tail : List Byte} {b : StreamBuffer}
    (hc : s.clients c = some client) (hp : s.lockPlayer client.player = some p)
    (hsteps : movementSteps packetOpcode packetLength = n) (hn : 5 + 2 * n ≤ payload.length)
    (h : b.rest = payload ++ tail) :
    handleMovement s c packetOpcode packetLength b =
      .ok (s.modifyPlayer p fun player => walkPayload player n payload) (b.skip (5 + 2 * n)) := by
  obtain ⟨lowX, highX, path, lowY, highY, rest, hpath, rfl⟩ :=
    exists_movement (show 4 + 2 * n ≤ payload.length by omega)
  simp only [List.length_cons, List.length_append] at hn
  obtain ⟨run, rest, rfl⟩ := List.exists_cons_of_length_pos (l := rest) (by omega)
  simp only [List.cons_append, List.append_assoc] at h
  have hrun : (b.skip (4 + 2 * n)).rest = run :: (rest ++ tail) := by
    have hsplit : lowX :: highX :: (path ++ lowY :: highY :: run :: (rest ++ tail)) =
        (lowX :: highX :: (path ++ [lowY, highY])) ++ run :: (rest ++ tail) := by simp
    rw [rest_skip, h, hsplit]
    apply List.drop_left'
    simp only [List.length_cons, List.length_append, List.length_nil]
    omega
  have hskip : 4 + 2 * n + 1 = 5 + 2 * n := by omega
  rw [handleMovement_path hsteps hpath h, movePlayer_cons hc hp hrun, skip_skip, hskip]
  simp only [walkPayload_eq _ lowX highX lowY highY run hpath]

/-- A packet that fits takes its payload and nothing else. -/
theorem handlePacket_fits {s : Server} {c : ClientId} {client : Client} {p : PlayerId}
    {packetOpcode : Int} {payload tail : List Byte} {b : StreamBuffer}
    (hc : s.clients c = some client) (hp : s.lockPlayer client.player = some p)
    (hfit : Fits packetOpcode payload.length) (h : b.rest = payload ++ tail) :
    handlePacket s c packetOpcode payload.length b =
      .ok (handled s p packetOpcode payload) (b.skip payload.length) := by
  have hn : payload.length ≤ b.rest.length := by rw [h, List.length_append]; omega
  by_cases hop : IsMovement packetOpcode
  · obtain ⟨steps, hsteps, hle⟩ := fits_steps hop hfit
    have hmax : max payload.length (5 + 2 * steps) = payload.length := by omega
    rw [handlePacket_movement hop (handleMovement_payload hc hp hsteps hle h) hn, hmax]
    simp only [handled, hop, if_true, hsteps, Int.toNat_natCast]
  · rw [handlePacket_other hop hn]
    simp only [handled, hop, if_false]

/-! ## Packets of any length -/

/-- How many bytes `HandlePacket` takes, when it does not fail: a movement packet of length 4
takes the run flag from behind its payload, and shorter ones make a vector of negative size. -/
def packetSpan (live : Bool) (packetOpcode : Int) (packetLength available : Nat) : Option Nat :=
  if packetOpcode = 98 ∨ packetOpcode = 164 then
    if live ∧ 5 ≤ packetLength then some packetLength
    else if live ∧ packetLength = 4 ∧ 5 ≤ available then some 5
    else none
  else if packetOpcode = 248 then
    if live ∧ 18 ≤ packetLength then some packetLength else none
  else some packetLength

theorem handlePacket_error {s : Server} {c : ClientId} {packetOpcode packetLength : Int}
    {b : StreamBuffer} (hop : IsMovement packetOpcode)
    (hm : ∃ e b', handleMovement s c packetOpcode packetLength b = .error e b') :
    ∃ e b', handlePacket s c packetOpcode packetLength b = .error e b' := by
  obtain ⟨e, b', hm⟩ := hm
  refine ⟨e, b', ?_⟩
  simp only [handlePacket, hop, if_true]
  simp only [bind, EStateM.bind, get, getThe, MonadStateOf.get, getState_eq, hm]

theorem handleMovement_negative {s : Server} {c : ClientId} {packetOpcode packetLength : Int}
    (b : StreamBuffer) (h : movementSteps packetOpcode packetLength < 0) :
    ∃ e b', handleMovement s c packetOpcode packetLength b = .error e b' := by
  refine ⟨.lengthError, b, ?_⟩
  simp only [handleMovement, h, if_true]
  rfl

theorem handleMovement_error {s : Server} {c : ClientId} {client : Client}
    {packetOpcode packetLength : Int} {n : Nat} {b : StreamBuffer} (hc : s.clients c = some client)
    (hsteps : movementSteps packetOpcode packetLength = n) (hn : 4 + 2 * n ≤ b.rest.length)
    (h : s.lockPlayer client.player = none ∨ b.rest.length = 4 + 2 * n) :
    ∃ e b', handleMovement s c packetOpcode packetLength b = .error e b' := by
  obtain ⟨lowX, highX, path, lowY, highY, rest, hpath, hrest⟩ := exists_movement hn
  rw [handleMovement_path hsteps hpath hrest]
  refine movePlayer_error hc (h.imp id fun hlen => ?_) _ _ _
  rw [rest_skip, List.drop_eq_nil_iff]
  omega

/-- Handling a packet changes a player at most, and neither the clients nor who is alive. -/
structure Undisturbed (s s' : Server) : Prop where
  clients : s'.clients = s.clients
  lockPlayer : s'.lockPlayer = s.lockPlayer

theorem undisturbed_handled {s : Server} {p : PlayerId} (n : Nat) (payload : List Byte) :
    Undisturbed s (s.modifyPlayer p fun player => walkPayload player n payload) := by
  refine ⟨rfl, Server.lockPlayer_setPlayer s ?_⟩
  simp only [walkPayload]
  split
  · split
    · rfl
    · rfl
  · rfl

/-- A movement packet with a path of `k` steps needs a player and the byte after the path. -/
theorem handlePacket_steps {s : Server} {c : ClientId} {client : Client} {packetOpcode : Int}
    {n k : Nat} {b : StreamBuffer} (hc : s.clients c = some client) (hop : IsMovement packetOpcode)
    (hsteps : movementSteps packetOpcode n = k) (hn : n ≤ b.rest.length)
    (hk : 4 + 2 * k ≤ b.rest.length) :
    ((s.lockPlayer client.player).isSome = true ∧ 5 + 2 * k ≤ b.rest.length →
      ∃ s', handlePacket s c packetOpcode n b = .ok s' (b.skip (max n (5 + 2 * k))) ∧
        Undisturbed s s') ∧
    (¬ ((s.lockPlayer client.player).isSome = true ∧ 5 + 2 * k ≤ b.rest.length) →
      ∃ e b', handlePacket s c packetOpcode n b = .error e b') := by
  constructor
  · rintro ⟨hlive, hroom⟩
    obtain ⟨p, hp⟩ := Option.isSome_iff_exists.mp hlive
    exact ⟨_, handlePacket_movement hop
      (handleMovement_payload hc hp hsteps hroom (List.append_nil b.rest).symm) hn,
      undisturbed_handled k b.rest⟩
  · intro h
    refine handlePacket_error hop (handleMovement_error hc hsteps hk ?_)
    cases hp : s.lockPlayer client.player with
    | none => exact .inl rfl
    | some p =>
        rw [hp] at h
        exact .inr (by simp at h; omega)

theorem handlePacket_span {s : Server} {c : ClientId} {client : Client} (packetOpcode : Int)
    {n : Nat} {b : StreamBuffer} (hc : s.clients c = some client) (hn : n ≤ b.rest.length) :
    (∀ k, packetSpan (s.lockPlayer client.player).isSome packetOpcode n b.rest.length = some k →
      ∃ s', handlePacket s c packetOpcode n b = .ok s' (b.skip k) ∧ Undisturbed s s') ∧
    (packetSpan (s.lockPlayer client.player).isSome packetOpcode n b.rest.length = none →
      ∃ e b', handlePacket s c packetOpcode n b = .error e b') := by
  by_cases hwalk : packetOpcode = 98 ∨ packetOpcode = 164
  · have hop : IsMovement packetOpcode := by rcases hwalk with rfl | rfl <;> decide
    simp only [packetSpan, hwalk, if_true]
    rcases Nat.lt_or_ge n 4 with hshort | hlong
    · have hneg := movementSteps_neg (.inl ⟨hwalk, hshort⟩)
      have hn5 : ¬ 5 ≤ n := by omega
      have hn4 : n ≠ 4 := by omega
      simp only [hn5, hn4, and_false, false_and, if_false]
      exact ⟨fun k hk => by simp at hk,
        fun _ => handlePacket_error hop (handleMovement_negative b hneg)⟩
    · have hcases := handlePacket_steps hc hop (movementSteps_walk hwalk hlong) hn (by omega)
      rcases Nat.lt_or_ge n 5 with h5 | h5
      · obtain rfl : n = 4 := by omega
        have hn5 : ¬ 5 ≤ 4 := by decide
        simp only [hn5, and_false, if_false, true_and]
        split
        · rename_i h
          exact ⟨fun k hk => by obtain rfl := Option.some.inj hk; exact hcases.1 h,
            fun hk => by simp at hk⟩
        · rename_i h
          exact ⟨fun k hk => by simp at hk, fun _ => hcases.2 h⟩
      · have hn4 : n ≠ 4 := by omega
        have hmax : max n (5 + 2 * ((n - 5) / 2)) = n := by omega
        rw [hmax] at hcases
        simp only [h5, hn4, and_true, false_and, and_false, if_false]
        split
        · rename_i h
          exact ⟨fun k hk => by obtain rfl := Option.some.inj hk; exact hcases.1 ⟨h, by omega⟩,
            fun hk => by simp at hk⟩
        · rename_i h
          exact ⟨fun k hk => by simp at hk, fun _ => hcases.2 fun hl => h hl.1⟩
  · by_cases hmap : packetOpcode = 248
    · subst hmap
      have hop : IsMovement 248 := by decide
      simp only [packetSpan, hwalk, if_true, if_false]
      rcases Nat.lt_or_ge n 18 with hshort | hlong
      · have hneg := movementSteps_neg (.inr ⟨rfl, hshort⟩)
        have hn18 : ¬ 18 ≤ n := by omega
        simp only [hn18, and_false, if_false]
        exact ⟨fun k hk => by simp at hk,
          fun _ => handlePacket_error hop (handleMovement_negative b hneg)⟩
      · have hcases := handlePacket_steps hc hop (movementSteps_minimap hlong) hn (by omega)
        have hmax : max n (5 + 2 * ((n - 19) / 2)) = n := by omega
        rw [hmax] at hcases
        simp only [hlong, and_true]
        split
        · rename_i h
          exact ⟨fun k hk => by obtain rfl := Option.some.inj hk; exact hcases.1 ⟨h, by omega⟩,
            fun hk => by simp at hk⟩
        · rename_i h
          exact ⟨fun k hk => by simp at hk, fun _ => hcases.2 fun hl => h hl.1⟩
    · have hop : ¬ IsMovement packetOpcode := by
        rintro (h | h | h)
        · exact hmap h
        · exact hwalk (.inr h)
        · exact hwalk (.inl h)
      simp only [packetSpan, hwalk, hmap, if_false]
      exact ⟨fun k hk => by
        obtain rfl := Option.some.inj hk
        exact ⟨s, handlePacket_other hop hn, rfl, rfl⟩, fun hk => by simp at hk⟩

/-! ## Exact consumption -/

/-- With this payload `HandlePacket` returns normally, has advanced by exactly the payload, and
depends on no byte outside it. -/
def TakesExactly (s : Server) (c : ClientId) (packetOpcode : Int) (payload : List Byte) : Prop :=
  ∃ s', ∀ (b : StreamBuffer) (tail : List Byte), b.rest = payload ++ tail →
    handlePacket s c packetOpcode payload.length b = .ok s' (b.skip payload.length)

/-- Every packet is taken exactly but the short movement packets. -/
theorem handlePacket_takesExactly_iff {s : Server} {c : ClientId} {client : Client}
    {p : PlayerId} (hc : s.clients c = some client) (hp : s.lockPlayer client.player = some p)
    (packetOpcode : Int) (payload : List Byte) :
    TakesExactly s c packetOpcode payload ↔
      (packetOpcode = 98 ∨ packetOpcode = 164 → 5 ≤ payload.length) ∧
        (packetOpcode = 248 → 18 ≤ payload.length) := by
  constructor
  · rintro ⟨s', h⟩
    by_contra hfit
    have hrun := h (ofData payload) [] (by rw [rest_ofData, List.append_nil])
    have hspan : packetSpan (s.lockPlayer client.player).isSome packetOpcode payload.length
        (ofData payload).rest.length = none := by
      rw [rest_ofData, packetSpan]
      split_ifs with h1 h2 h3 h4 h5
      · exact absurd ⟨fun _ => h2.2, fun h248 => by omega⟩ hfit
      · omega
      · rfl
      · exact absurd ⟨fun hw => absurd hw h1, fun _ => h5.2⟩ hfit
      · rfl
      · exact absurd ⟨fun hw => absurd hw h1, fun h248 => absurd h248 h4⟩ hfit
    obtain ⟨e, b', herr⟩ := (handlePacket_span packetOpcode hc (by rw [rest_ofData])).2 hspan
    rw [hrun] at herr
    cases herr
  · intro hfit
    exact ⟨_, fun b tail h => handlePacket_fits hc hp hfit h⟩

theorem crowd_lockPlayer (n : Nat) : (crowd n).lockPlayer (some 0) = some 0 := by
  apply Server.lockPlayer_of_registered
  rw [crowd_registered, List.mem_range]
  omega

/-- A movement packet of length 5 is taken exactly. -/
theorem crowd_walk_takesExactly : TakesExactly (crowd 0) 0 98 [0, 0, 0, 0, 0] :=
  (handlePacket_takesExactly_iff (crowd_client (Nat.le_refl 0)) (crowd_lockPlayer 0) 98
    [0, 0, 0, 0, 0]).mpr ⟨fun _ => by decide, fun h => by omega⟩

/-- One of length 4 is not: the run flag is read from behind it. -/
theorem crowd_short_walk_overreads :
    (crowd 0).clients 0 = some (crowdClient 0) ∧
      (crowd 0).lockPlayer (crowdClient 0).player = some 0 ∧
      (∃ s', handlePacket (crowd 0) 0 98 4 (ofData [0, 0, 0, 0, 77]) =
        .ok s' ((ofData [0, 0, 0, 0, 77]).skip 5)) ∧
      ¬ TakesExactly (crowd 0) 0 98 [0, 0, 0, 0] := by
  have hlock : (crowd 0).lockPlayer (crowdClient 0).player = some 0 := crowd_lockPlayer 0
  have hover : ∃ s', handlePacket (crowd 0) 0 98 4 (ofData [0, 0, 0, 0, 77]) =
      .ok s' ((ofData [0, 0, 0, 0, 77]).skip 5) := by
    obtain ⟨s', hrun, -⟩ := (handlePacket_span 98 (n := 4) (b := ofData [0, 0, 0, 0, 77])
      (crowd_client (Nat.le_refl 0)) (by decide)).1 5 (by rw [hlock]; decide)
    exact ⟨s', hrun⟩
  refine ⟨rfl, hlock, hover, ?_⟩
  rintro ⟨s', h⟩
  obtain ⟨s'', hrun⟩ := hover
  have hexact := h (ofData [0, 0, 0, 0, 77]) [77] rfl
  have hpos := hrun.symm.trans hexact
  simp [skip] at hpos

end Client
end AsioRsps
