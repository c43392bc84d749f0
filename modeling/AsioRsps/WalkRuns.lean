import AsioRsps.BoardRuns
import AsioRsps.PacketRoutes

/-!
# From a packet to the last tile

The route of the last movement packet of a read is walked, stride by stride with every tick, as
long as the client of the player sends nothing else, whatever is done by the others.
-/
namespace AsioRsps
open BitStrings (Byte)
open StreamBuffer KingPaths LabelledRuns MovementHandler
open FallibleLoop (Yields Reaches Ends ends_iff_of_reaches ends_of_done)

namespace Server
open Client

/-! ## Runs without a read -/

/-- A step that is no tick and no read of its client leaves a player alone. -/
theorem Step.player_eq {s s' : Server} {e : Event} (hs : Step s e s') (h : Reachable Step initial s)
    {p : PlayerId} (hp : p ∈ s.registered) (htick : e ≠ .tick)
    (hown : e.reader ≠ some (s.players p).client) : s'.players p = s.players p := by
  have hsound := reachable_sound h
  have hlt := hsound.fresh_of_registered hp
  cases (hs.moves hsound).player hsound p with
  | strolled _ hsteered =>
      refine hsteered.resolve_right fun hsteers => ?_
      obtain ⟨d, client, hwho, hd, hplayer⟩ := hsteers
      have howner := (reachable_owning h d p (steers_self hd hplayer)).2
      exact hown (howner ▸ hwho)
  | created hnext _ => exact absurd hnext (Nat.ne_of_lt hlt)
  | entered hnext _ => exact absurd hnext (Nat.ne_of_lt hlt)
  | ticked he _ _ => exact absurd he htick

/-- What a run without a read of its client is to a player that stays: its ticks. -/
theorem run_still {s s' : Server} {trace : List (Taken Server Event)}
    (h : Reachable Step initial s) (hrun : Run Step s trace s') {p : PlayerId}
    (hstay : ∀ t ∈ trace, p ∈ t.before.registered)
    (hown : ∀ t ∈ trace, t.label.reader ≠ some (s.players p).client) :
    Ticks p s (ticks trace) s' ∧ (s'.players p).client = (s.players p).client := by
  induction hrun with
  | start => exact ⟨.start, rfl⟩
  | @snoc trace t t' e hbefore hs ih =>
      obtain ⟨hticks, howner⟩ := ih (fun u hu => hstay u (List.mem_append_left _ hu))
        fun u hu => hown u (List.mem_append_left _ hu)
      have hreach := h.trans ⟨trace, hbefore⟩
      have hlast : ⟨t, e, t'⟩ ∈ trace ++ [⟨t, e, t'⟩] := List.mem_append_right _ List.mem_cons_self
      rw [ticks, List.countP_append, List.countP_singleton]
      by_cases htick : e = .tick
      · subst htick
        cases hs with
        | tick hprocess =>
            have hsound := reachable_sound hreach
            refine ⟨hticks.tick hsound.registered_nodup (hstay _ hlast) hprocess, ?_⟩
            exact ((World.quiet_process hsound hprocess).owner p).trans howner
      · have hsame := hs.player_eq hreach (hstay _ hlast) htick (howner ▸ hown _ hlast)
        have hcount : Event.isTick e = false := by
          cases e with
          | tick => exact absurd rfl htick
          | _ => rfl
        rw [if_neg (by rw [hcount]; exact Bool.false_ne_true)]
        exact ⟨hticks.other (hsame ▸ sameWalk_refl _), (congrArg Player.client hsame).trans howner⟩

/-- A read of whole packets sends the player along the route of the last movement packet in it.
As long as the player stays and its client sends nothing else, every tick of a run takes its stride
along the route, whatever the others do, until the player stands on the last tile. -/
theorem run_walks {s s₁ s₂ : Server} {trace : List (Taken Server Event)}
    (h : Reachable Step initial s) {c : ClientId} {client : Client} {cipher : ISAACCipher}
    {p : PlayerId} (hc : s.clients c = some client) (hstage : client.stage = .loggedIn)
    (hd : client.decryptor = some cipher) (hplayer : client.player = some p)
    (hp : p ∈ s.registered) {before after : List Packet} {pk : Packet}
    (hwf : ∀ q ∈ before ++ pk :: after, q.WellFormed) (hop : IsMovement pk.packetOpcode.val)
    (hafter : ∀ q ∈ after, ¬ IsMovement q.packetOpcode.val)
    (hposition : OnMap (s.players p).position)
    (htiles : ∀ tile ∈ movementTiles pk.packetOpcode.val pk.payload, OnMap tile) {now gen : Int}
    (hflood : (countPacket client now).2 = false)
    (hread : Step s (.receive c now gen (Packet.encodeAll cipher (before ++ pk :: after))) s₁)
    (hrun : Run Step s₁ trace s₂) (hstay : ∀ t ∈ trace, p ∈ t.before.registered)
    (hown : ∀ t ∈ trace, t.label.reader ≠ some c) :
    let start := tileOf (s.players p).position
    let route := routeOf (s.players p).position (movementTiles pk.packetOpcode.val pk.payload)
    (s₁.players p).movementHandler.runPath = movementRuns pk.packetOpcode.val pk.payload ∧
    WalksOn (s₁.players p) (s₂.players p) start route (ticks trace) ∧
    (route.length ≤ ticks trace * (s₁.players p).movementHandler.stride →
      AtTile (s₂.players p).position (route.getLastD start) ∧
        (s₂.players p).movementHandler.waypoints = []) := by
  intro start route
  have hlock : s.lockPlayer client.player = some p := by
    rw [hplayer]
    exact lockPlayer_of_registered hp
  have hmem : pk ∈ before ++ pk :: after := List.mem_append_right _ List.mem_cons_self
  have hreach := h.snoc hread
  have hplayers : ∃ m : MovementHandler, s₁.players p =
      routedPlayer { s.players p with movementHandler := m } pk.packetOpcode.val pk.payload := by
    cases hread with
    | receive _ _ hread =>
        rw [readIncomingData_player hc hstage hd hlock hwf hflood hread]
        exact foldl_packetHandled_routed (hwf pk hmem) hop hafter hposition htiles
  obtain ⟨m, hrouted⟩ := hplayers
  have howner : (s₁.players p).client = c := by
    rw [hrouted]
    exact (reachable_owning h c p (steers_self hc hplayer)).2
  obtain ⟨hticks, -⟩ := run_still hreach hrun hstay (howner ▸ hown)
  have hroute : Routed s₁ p start route := by
    refine routed_of_queued ?_ ((kingMoves_path _ _).take 99) ?_
    · rw [hrouted]
      exact atTile_tileOf _
    · rw [hrouted]
      rfl
  refine ⟨?_, hroute.walks _ _ hticks, hroute.arrives _ _ hticks⟩
  rw [hrouted]
  rfl

/-- A newcomer that sends a movement packet is there after one tick. -/
theorem run_walks_east : ∃ s s₁ s₂ p cipher,
    Step s (.receive 0 1 0 (Packet.encodeAll cipher [eastPacket])) s₁ ∧
    Run Step s₁ [⟨s₁, .tick, s₂⟩] s₂ ∧ AtTile (s₂.players p).position ⟨3202, 3200⟩ := by
  obtain ⟨s, s₁, client, cipher, p, h⟩ := exists_eastbound
  obtain ⟨s₂, hprocess⟩ :=
    GameSound.exists_tick (reachable_populated (h.reachable.snoc h.read))
  have hrun : Run Step s₁ [⟨s₁, .tick, s₂⟩] s₂ := Run.start.snoc (.tick hprocess)
  have hwf : ∀ q ∈ [] ++ eastPacket :: [], q.WellFormed :=
    fun q hq => List.mem_singleton.mp hq ▸ eastPacket_wellFormed
  obtain ⟨hrunPath, -, harrives⟩ := run_walks h.reachable h.fresh.found h.fresh.stage h.decryptor
    h.fresh.player h.fresh.registered hwf (by decide) (fun _ hq => absurd hq List.not_mem_nil)
    (h.fresh.position ▸ by decide) (by decide) h.calm h.read hrun
    (forall_snoc (forall_nil _) h.stays) (forall_snoc (forall_nil _) (Option.some_ne_none 0).symm)
  have hstride : (s₁.players p).movementHandler.stride = 2 := by
    have hruns : movementRuns eastPacket.packetOpcode.val eastPacket.payload = true := by decide
    rw [stride, hrunPath, hruns, Bool.or_true]
    rfl
  have hone : ticks [⟨s₁, .tick, s₂⟩] = 1 := rfl
  rw [hstride, hone, h.fresh.position] at harrives
  exact ⟨s, s₁, s₂, p, cipher, h.read, hrun, (harrives (by decide)).1⟩

end Server
end AsioRsps
