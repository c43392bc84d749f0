import AsioRsps.Boards
import AsioRsps.PacketRoutes

/-!
# The world as a board

What the players do is a game on a board: the names that are logged in are figures on the tiles,
each with the route of its waypoints. Every run of the server is a run of this game, in which the
ticks are the turns and all else is done by the clients, each with its own figure only.
-/
namespace AsioRsps
open BitStrings (Byte)
open LabelledRuns Boards
open FallibleLoop (bind_eq_ok)

/-- The tiles next to a tile, in the eight directions. -/
def Position.Adjacent (p q : Position) : Prop := ∃ d, p.stepTo d = some q

namespace MovementHandler

theorem isChain_of_leads {p q : Position} {points : List Point} (h : Leads p points q) :
    (p :: points.map Point.toPosition).IsChain Position.Adjacent := by
  induction points generalizing p with
  | nil => exact List.isChain_singleton p
  | cons point points ih => exact List.isChain_cons_cons.mpr ⟨⟨_, h.2.1⟩, ih h.2.2⟩

theorem stride_le (m : MovementHandler) : m.stride ≤ 2 := by
  rw [stride]
  split <;> decide

/-- What consuming waypoints leaves of the queue, and where it gets the player. -/
structure Strides (player player' : Player) : Prop where
  handler : player'.movementHandler = { player.movementHandler with
    waypoints := player.movementHandler.waypoints.drop player.movementHandler.stride }
  position : player'.position = ((player.movementHandler.waypoints.map Point.toPosition).take
    player.movementHandler.stride).getLastD player.position

theorem advance_strides {player : Player} {stop : Position}
    (h : Leads player.position player.movementHandler.waypoints stop) :
    ∃ player', advance player = .ok player' ∧ Strides player player' := by
  generalize hwaypoints : player.movementHandler.waypoints = waypoints at h
  cases waypoints with
  | nil =>
      refine ⟨{ player with
        movementHandler := { player.movementHandler with waypoints := [] } }, ?_, ?_, ?_⟩
      · rw [advance, hwaypoints]
        dsimp only [List.head?_nil, List.tail_nil]
        split <;> rfl
      · rw [hwaypoints, List.drop_nil]
      · rw [hwaypoints, List.map_nil, List.take_nil]
        rfl
  | cons walkPoint rest =>
      obtain ⟨hwalk, hstep, hrest⟩ := h
      rw [advance_cons hwaypoints hwalk hstep]
      split
      · rename_i hrun
        have hstride : player.movementHandler.stride = 2 := if_pos hrun
        cases rest with
        | nil =>
            refine ⟨_, rfl, ?_, ?_⟩
            · rw [hwaypoints, hstride]
              rfl
            · rw [hwaypoints, hstride]
              rfl
        | cons runPoint rest =>
            obtain ⟨hrun, hstep', hrest⟩ := hrest
            refine ⟨_, follow_point _ hrun hstep', ?_, ?_⟩
            · rw [hwaypoints, hstride]
              rfl
            · rw [hwaypoints, hstride]
              rfl
      · rename_i hrun
        have hstride : player.movementHandler.stride = 1 := if_neg hrun
        refine ⟨_, rfl, ?_, ?_⟩
        · rw [hwaypoints, hstride]
          rfl
        · rw [hwaypoints, hstride]
          rfl

theorem strides_processed {player : Player} (h : Walker player) :
    Strides player (processed player) := by
  obtain ⟨stop, hleads⟩ := h.leads
  obtain ⟨player', hadvance, hstrides⟩ := advance_strides hleads
  have hmoved : moved player = player' := by rw [moved, hadvance]
  refine ⟨?_, ?_⟩
  · rw [processed_eq, hmoved]
    exact hstrides.handler
  · rw [processed_position, hmoved]
    exact hstrides.position

end MovementHandler

open MovementHandler

/-- A player as a figure. -/
def figure (player : Player) (h : Walker player) : Figure Position.Adjacent 2 where
  tile := player.position
  route := player.movementHandler.waypoints.map Point.toPosition
  stride := player.movementHandler.stride
  path := by
    obtain ⟨stop, hleads⟩ := h.leads
    exact isChain_of_leads hleads
  stride_le := player.movementHandler.stride_le

theorem figure_congr {player player' : Player} (h : Walker player) (h' : Walker player')
    (hposition : player'.position = player.position)
    (hhandler : player'.movementHandler = player.movementHandler) :
    figure player' h' = figure player h := by
  ext1
  · exact hposition
  · exact congrArg (fun m => m.waypoints.map Point.toPosition) hhandler
  · exact congrArg MovementHandler.stride hhandler

/-- A tick of a player is a turn of its figure. -/
theorem figure_processed {player player' : Player} (h : Walker player) (h' : Walker player')
    (hposition : player'.position = (processed player).position)
    (hhandler : player'.movementHandler = (processed player).movementHandler) :
    figure player' h' = (figure player h).go := by
  have hstrides := strides_processed h
  rw [hstrides.handler] at hhandler
  rw [hstrides.position] at hposition
  ext1
  · exact hposition
  · refine (congrArg (fun m => m.waypoints.map Point.toPosition) hhandler).trans ?_
    exact List.map_drop
  · exact (congrArg MovementHandler.stride hhandler).trans rfl

namespace Server

/-- The figures of the players that are logged in. -/
def board (s : Server) (h : s.Populated) : Board Name Position.Adjacent 2 := fun name =>
  (s.world.players.lookup name).map fun p => figure (s.players p) (h.walkers p)

/-- Where the figures enter. -/
def spot : Position := { x := 3200, y := 3200 }

theorem board_eq_some {s : Server} {h : s.Populated} {name : Name} {p : PlayerId}
    (hname : s.world.players.lookup name = some p) :
    s.board h name = some (figure (s.players p) (h.walkers p)) := by
  rw [board, hname, Option.map_some]

theorem board_eq_none {s : Server} {h : s.Populated} {name : Name}
    (hname : s.world.players.lookup name = none) : s.board h name = none := by
  rw [board, hname, Option.map_none]

/-- A name whose player has not changed. -/
theorem board_apply_eq {s s' : Server} {h : s.Populated} {h' : s'.Populated} {name : Name}
    (hname : s'.world.players.lookup name = s.world.players.lookup name)
    (hplayer : ∀ p, s.world.players.lookup name = some p → s'.players p = s.players p) :
    s'.board h' name = s.board h name := by
  cases hlookup : s.world.players.lookup name with
  | none => rw [board_eq_none hlookup, board_eq_none (hname.trans hlookup)]
  | some p =>
      have hsame := hplayer p hlookup
      rw [board_eq_some hlookup, board_eq_some (hname.trans hlookup)]
      exact congrArg some (figure_congr _ _ (congrArg Player.position hsame)
        (congrArg Player.movementHandler hsame))

/-- What may be done to the board in a step: in a tick a turn is made; who sends a login request
may enter; and a client whose player is logged in may plan a route for it, or leave. -/
inductive Plays (s : Server) (e : Event) (s' : Server) : Act Name → Prop where
  | turn : e = .tick → Plays s e s' .turn
  | enter {c : ClientId} {old : Client} {now gen : Int} {data : List Byte} {r : LoginRequest} :
      e = .receive c now gen data → LoginHandler.loginRequest data = some r →
      s.clients c = some old → old.stage = .loggingIn → Plays s e s' (.enter r.username)
  | plan {name : Name} {p : PlayerId} : s.world.players.lookup name = some p →
      s.Steers e.reader p → Plays s e s' (.plan name)
  | leave {name : Name} {p : PlayerId} : s.world.players.lookup name = some p →
      s.Steers e.client p → s'.world.players.lookup name = none → Plays s e s' (.leave name)

theorem steers_unique {s : Server} {who : Option ClientId} {p q : PlayerId}
    (hp : s.Steers who p) (hq : s.Steers who q) : p = q := by
  obtain ⟨c, client, rfl, hc, hplayer⟩ := hp
  obtain ⟨d, client', hwho, hd, hplayer'⟩ := hq
  obtain rfl := Option.some.inj hwho
  obtain rfl := Option.some.inj (hc.symm.trans hd)
  exact Option.some.inj (hplayer.symm.trans hplayer')

/-- A run of the board between two servers, of acts that may be done in the step. -/
def Played (s : Server) (e : Event) (s' : Server) {t t' : Server} (h : t.Populated)
    (h' : t'.Populated) : Prop :=
  ∃ acts, Run (Boards.Step spot) (t.board h) acts (t'.board h') ∧
    ∀ a ∈ acts, s.Plays e s' a.label ∧ a.label.isTurn = false

/-- Strolls give a route to one figure at most. -/
theorem Strolls.played {s t u s' : Server} {e : Event} (h : t.Populated) (h' : u.Populated)
    (hstroll : t.Strolls e.reader u)
    (hplan : ∀ name p, t.world.players.lookup name = some p → t.Steers e.reader p →
      s.Plays e s' (.plan name)) : Played s e s' h h' := by
  by_cases hplayed : ∃ name p, t.world.players.lookup name = some p ∧ t.Steers e.reader p
  · obtain ⟨name, p, hname, hsteers⟩ := hplayed
    obtain ⟨m, hplayer⟩ := (hstroll.players p).others
    have hupdate : u.board h' = Function.update (t.board h) name
        (some (figure (u.players p) (h'.walkers p))) := by
      funext other
      by_cases hother : other = name
      · subst hother
        rw [Function.update_self, board_eq_some ((hstroll.lookup other).trans hname)]
      · rw [Function.update_of_ne hother]
        refine board_apply_eq (hstroll.lookup other) fun q hq => ?_
        refine (hstroll.steered q).resolve_right fun hsteers' => ?_
        obtain rfl := steers_unique hsteers hsteers'
        exact hother ((h.named other p hq).symm.trans (h.named name p hname))
    have htile : (u.players p).position = (t.players p).position := by rw [hplayer]
    have hstep : Boards.Step spot (t.board h) (.plan name) (u.board h') := by
      rw [hupdate]
      exact .plan (board_eq_some hname) htile
    exact ⟨_, Run.start.snoc hstep, forall_snoc (forall_nil _) ⟨hplan name p hname hsteers, rfl⟩⟩
  · have hsame : u.board h' = t.board h := by
      funext name
      refine board_apply_eq (hstroll.lookup name) fun p hp => ?_
      exact (hstroll.steered p).resolve_right fun hsteers => hplayed ⟨name, p, hp, hsteers⟩
    exact ⟨[], hsame ▸ .start, forall_nil _⟩

theorem Played.trans {s s' t u v : Server} {e : Event} {ht : t.Populated} {hu : u.Populated}
    {hv : v.Populated} (h : Played s e s' ht hu) (h' : Played s e s' hu hv) :
    Played s e s' ht hv := by
  obtain ⟨acts, hrun, hacts⟩ := h
  obtain ⟨more, hrun', hmore⟩ := h'
  exact ⟨acts ++ more, hrun.append hrun', List.forall_mem_append.mpr ⟨hacts, hmore⟩⟩

theorem Played.congr {s s' t u : Server} {e : Event} (h : t.Populated) (h' : u.Populated)
    (hlookup : ∀ name, u.world.players.lookup name = t.world.players.lookup name)
    (hplayers : ∀ name p, t.world.players.lookup name = some p → u.players p = t.players p) :
    Played s e s' h h' := by
  have hsame : u.board h' = t.board h := by
    funext name
    exact board_apply_eq (hlookup name) (hplayers name)
  exact ⟨[], hsame ▸ .start, forall_nil _⟩

theorem lookup_of_departure {s s' : Server} {c : ClientId} {client : Client}
    (h : Client.Departure s c client s') {name : Name} {p : PlayerId}
    (hname : s'.world.players.lookup name = some p) : s.world.players.lookup name = some p := by
  cases h with
  | again _ => exact hname
  | absent _ _ => exact hname
  | present _ _ _ _ _ => exact (World.lookup_withoutPlayer.mp hname).2

/-- At most one figure leaves. -/
theorem played_departure {s t u s' : Server} {e : Event} (h : t.Populated) (h' : u.Populated)
    {c : ClientId} {client : Client} (hc : t.clients c = some client)
    (hd : Client.Departure t c client u)
    (hleave : ∀ name p, t.world.players.lookup name = some p → t.Steers (some c) p →
      u.world.players.lookup name = none → s.Plays e s' (.leave name)) : Played s e s' h h' := by
  cases hd with
  | again _ => exact ⟨[], .start, forall_nil _⟩
  | absent _ _ => exact .congr h h' (fun _ => rfl) fun _ _ _ => rfl
  | @present p index _ _ hplayer hregistered _ =>
      have hgone : (t.world.withoutPlayer client.username index).players.lookup client.username =
          none := AList.lookup_erase ..
      have hstep : Boards.Step spot (t.board h) (.leave client.username) (Server.board _ h') := by
        have hupdate : Server.board _ h' = Function.update (t.board h) client.username none := by
          funext name
          by_cases hname : name = client.username
          · subst hname
            rw [Function.update_self]
            exact board_eq_none hgone
          · rw [Function.update_of_ne hname]
            exact board_apply_eq (AList.lookup_erase_ne hname) fun _ _ => rfl
        rw [hupdate]
        exact .leave (board_eq_some hregistered.lookup)
      have hplays := hleave _ p hregistered.lookup ⟨c, client, rfl, hc, hplayer⟩ hgone
      exact ⟨_, Run.start.snoc hstep, forall_snoc (forall_nil _) ⟨hplays, rfl⟩⟩

/-- At most one figure enters. -/
theorem played_outcome {s t u s' : Server} {e : Event} (h : t.Populated) (h' : u.Populated)
    {c : ClientId} {client : Client} {cipher : ISAACCipher} {username : Name}
    (ho : LoginHandler.Outcome t c client cipher username u)
    (henter : s.Plays e s' (.enter username)) : Played s e s' h h' := by
  have hold (player : Player) (name : Name) (p : PlayerId)
      (hname : t.world.players.lookup name = some p) :
      (t.newPlayer player).players p = t.players p :=
    newPlayer_players player (h.sound.players name p hname).fresh
  cases ho with
  | refused _ => exact .congr h h' (fun _ => rfl) fun _ _ _ => rfl
  | full _ _ => exact .congr h h' (fun _ => rfl) (hold _)
  | @entered index hfree _ =>
      have hnew : (t.newPlayer (LoginHandler.enteredPlayer c username index)).players t.nextPlayer =
          LoginHandler.enteredPlayer c username index := setPlayer_players_self ..
      have hlookup : ((occupy t.world index).insertPlayer username t.nextPlayer).players.lookup
          username = some t.nextPlayer := AList.lookup_insert ..
      have hstep : Boards.Step spot (t.board h) (.enter username) (Server.board _ h') := by
        have hupdate : Server.board _ h' = Function.update (t.board h) username
            (some (figure _ (h'.walkers t.nextPlayer))) := by
          funext name
          by_cases hname : name = username
          · subst hname
            rw [Function.update_self]
            exact board_eq_some hlookup
          · rw [Function.update_of_ne hname]
            exact board_apply_eq (AList.lookup_insert_ne hname) (hold _ name)
        rw [hupdate]
        refine .enter (board_eq_none hfree) ?_ ?_
        · exact congrArg Player.position hnew
        · exact congrArg (fun player => player.movementHandler.waypoints.map Point.toPosition) hnew
      exact ⟨_, Run.start.snoc hstep, forall_snoc (forall_nil _) ⟨henter, rfl⟩⟩

/-- A tick is a turn. -/
theorem step_turn {s s' : Server} (h : s.Populated) (h' : s'.Populated)
    (ht : World.Ticked s s') : Boards.Step spot (s.board h) .turn (s'.board h') := by
  have hturn : s'.board h' = fun name => (s.board h name).map Figure.go := by
    funext name
    have hsame : s'.world.players.lookup name = s.world.players.lookup name := by rw [ht.world]
    cases hname : s.world.players.lookup name with
    | none => rw [board_eq_none hname, board_eq_none (hsame.trans hname), Option.map_none]
    | some p =>
        have hplayer := ht.player p (mem_registered_of_lookup hname)
        rw [board_eq_some hname, board_eq_some (hsame.trans hname), Option.map_some]
        refine congrArg some (figure_processed _ _ ?_ ?_)
        · rw [hplayer]
          rfl
        · rw [hplayer]
          rfl
  rw [hturn]
  exact .turn

theorem Moves.played {s s' : Server} {e : Event} (hm : s.Moves e s') (htick : e ≠ .tick)
    (h : s.Populated) (h' : s'.Populated) : Played s e s' h h' := by
  cases hm with
  | strolls hstroll => exact hstroll.played h h' fun _ _ hname hsteers => .plan hname hsteers
  | accept _ _ => exact .congr h h' (fun _ => rfl) fun _ _ _ => rfl
  | destroy _ _ _ => exact .congr h h' (fun _ => rfl) fun _ _ _ => rfl
  | @leaves t u _ c client he hstroll ht hc hrun hstroll' =>
      have hdeparture := Client.departure_of_disconnect ht hc hrun
      have hpop := h.strolls ht hstroll
      have hleft : u.Populated := GameSound.logout hpop hc hdeparture
      have hsteers {who : Option ClientId} {p : PlayerId} (hp : t.Steers who p) : s.Steers who p :=
        steers_congr hstroll.roles hp
      have hfirst : Played s e s' h hpop :=
        hstroll.played h hpop fun _ _ hname hsteers => .plan hname hsteers
      have hgone : Played s e s' hpop hleft := by
        refine played_departure hpop hleft hc hdeparture fun name p hname hp hnone => ?_
        rw [← he] at hp
        exact .leave ((hstroll.lookup name).symm.trans hname) (hsteers hp)
          ((hstroll'.lookup name).trans hnone)
      refine (hfirst.trans hgone).trans (hstroll'.played hleft h' fun name p hname hp => ?_)
      have hbefore := lookup_of_departure hdeparture hname
      exact .plan ((hstroll.lookup name).symm.trans hbefore)
        (hsteers (steers_of_departure hc hdeparture hp))
  | logsIn he hr hold hstage hstroll ht _ _ _ _ _ _ ho =>
      have hpop := h.strolls ht hstroll
      have hfirst : Played s e s' h hpop :=
        hstroll.played h hpop fun _ _ hname hsteers => .plan hname hsteers
      exact hfirst.trans (played_outcome hpop h' ho (.enter he hr hold hstage))
  | ticked he _ => exact absurd he htick

/-! ## Runs -/

/-- The acts that a step of the server makes. -/
structure Answers (t : Taken Server Event)
    (acts : List (Taken (Board Name Position.Adjacent 2) (Act Name))) : Prop where
  tick : t.label = .tick → acts.map Taken.label = [.turn]
  plays : ∀ a ∈ acts, t.before.Plays t.label t.after a.label

theorem Step.answers {s s' : Server} {e : Event} (hs : Step s e s') (h : s.Populated)
    (h' : s'.Populated) : ∃ acts, Run (Boards.Step spot) (s.board h) acts (s'.board h') ∧
      Answers ⟨s, e, s'⟩ acts := by
  by_cases htick : e = .tick
  · subst htick
    cases hs with
    | tick hrun =>
        have hturn := step_turn h h' (World.process_ticked h.sound hrun)
        exact ⟨_, Run.start.snoc hturn, fun _ => rfl, forall_snoc (forall_nil _) (.turn rfl)⟩
  · obtain ⟨acts, hrun, hacts⟩ := (hs.moves h.sound).played htick h h'
    exact ⟨acts, hrun, fun he => absurd he htick, fun a ha => (hacts a ha).1⟩

def Event.isTick : Event → Bool
  | .tick => true
  | _ => false

def ticks (trace : List (Taken Server Event)) : Nat := trace.countP fun t => t.label.isTick

theorem ticks_cons (t : Taken Server Event) (trace : List (Taken Server Event)) :
    ticks (t :: trace) = ticks [t] + ticks trace := by
  change List.countP _ ([t] ++ trace) = _
  exact List.countP_append

theorem run_answers {s s' : Server} {trace : List (Taken Server Event)} (h : s.Populated)
    (hrun : Run Step s trace s') : ∃ (h' : s'.Populated) (parts : _),
      Run (Boards.Step spot) (s.board h) (List.flatten parts) (s'.board h') ∧
      List.Forall₂ Answers trace parts := by
  induction hrun with
  | start => exact ⟨h, [], .start, .nil⟩
  | snoc _ hs ih =>
      obtain ⟨hbefore, parts, hplayed, hparts⟩ := ih
      have hafter := hbefore.step hs
      obtain ⟨acts, hacts, hanswers⟩ := hs.answers hbefore hafter
      refine ⟨hafter, parts ++ [acts], ?_, List.rel_append hparts (.cons hanswers .nil)⟩
      rw [List.flatten_append, List.flatten_singleton]
      exact hplayed.append hacts

theorem Answers.turns_eq {t : Taken Server Event}
    {acts : List (Taken (Board Name Position.Adjacent 2) (Act Name))} (h : Answers t acts) :
    turns acts = ticks [t] := by
  by_cases htick : t.label = .tick
  · have hturns : turns acts = (acts.map Taken.label).countP Act.isTurn := by
      rw [turns, List.countP_map]
      rfl
    have hone : ticks [t] = 1 := by
      rw [ticks, List.countP_singleton]
      exact if_pos (congrArg Event.isTick htick)
    rw [hturns, h.tick htick, hone]
    rfl
  · have hnone : turns acts = 0 := by
      rw [turns, List.countP_eq_zero]
      intro a ha hturn
      have hplays := h.plays a ha
      generalize a.label = act at hplays hturn
      cases hplays with
      | turn he => exact htick he
      | enter _ _ _ _ => cases hturn
      | plan _ _ => cases hturn
      | leave _ _ _ => cases hturn
    rw [hnone, ticks, List.countP_singleton]
    generalize t.label = e at htick
    cases e with
    | tick => exact absurd rfl htick
    | _ => rfl

theorem turns_of_answers {trace : List (Taken Server Event)}
    {parts : List (List (Taken (Board Name Position.Adjacent 2) (Act Name)))}
    (h : List.Forall₂ Answers trace parts) : turns parts.flatten = ticks trace := by
  induction h with
  | nil => rfl
  | @cons t acts trace parts hanswers _ ih =>
      rw [List.flatten_cons, turns_append, hanswers.turns_eq, ih, ticks_cons t trace]

/-- From every reachable state, a run of the server is a run of the board: each step makes the acts
that may be made in it, and a tick makes a turn. -/
theorem run_board {s s' : Server} {trace : List (Taken Server Event)}
    (h : Reachable Step initial s) (hrun : Run Step s trace s') :
    ∃ parts, Run (Boards.Step spot) (s.board (reachable_populated h)) (List.flatten parts)
        (s'.board (reachable_populated (h.trans ⟨trace, hrun⟩))) ∧
      List.Forall₂ Answers trace parts := by
  obtain ⟨_, parts, hplayed, hanswers⟩ := run_answers (reachable_populated h) hrun
  exact ⟨parts, hplayed, hanswers⟩

/-- A player logs in, is sent on its way and takes a turn. -/
theorem run_board_walking : ∃ trace parts, ∃ (s : Server) (b : Board Name Position.Adjacent 2),
    ∃ p ∈ s.registered, AtTile (s.players p).position ⟨3202, 3200⟩ ∧
    Run (Boards.Step spot) (fun _ => none) (List.flatten parts) b ∧
    List.Forall₂ Answers trace parts ∧ 0 < turns (List.flatten parts) := by
  obtain ⟨s, s₁, client, cipher, p, h⟩ := exists_eastbound
  obtain ⟨s₂, hprocess⟩ :=
    GameSound.exists_tick (reachable_populated (h.reachable.snoc h.read))
  have hregistered := (World.process_ticked
    (reachable_sound (h.reachable.snoc h.read)) hprocess).registered_eq
  obtain ⟨before, hbefore⟩ := h.reachable
  have hrun := (hbefore.snoc h.read).snoc (.tick hprocess)
  obtain ⟨parts, hplayed, hanswers⟩ := run_board (.start Step initial) hrun
  refine ⟨_, parts, s₂, _, p, hregistered ▸ h.stays, h.arrives hprocess, hplayed, hanswers, ?_⟩
  rw [turns_of_answers hanswers, ticks, List.countP_append]
  exact Nat.lt_of_lt_of_le Nat.zero_lt_one (Nat.le_add_left _ _)

/-- A tick in which a player walks. -/
theorem exists_walkingTick : ∃ s s' name p, Reachable Step initial s ∧
    Run Step s [⟨s, .tick, s'⟩] s' ∧ s.world.players.lookup name = some p ∧
    s'.world.players.lookup name = some p ∧
    (s.players p).position = { x := 3200, y := 3200 } ∧
    AtTile (s'.players p).position ⟨3202, 3200⟩ := by
  obtain ⟨_, s, client, cipher, p, h⟩ := exists_eastbound
  have hreach := h.reachable.snoc h.read
  obtain ⟨s', hprocess⟩ := GameSound.exists_tick (reachable_populated hreach)
  have hworld := (World.process_ticked (reachable_sound hreach) hprocess).world
  obtain ⟨name, hname⟩ := lookup_of_mem_registered h.stays
  exact ⟨s, s', name, p, hreach, Run.start.snoc (.tick hprocess), hname,
    by rw [hworld, hname], h.position, h.arrives hprocess⟩

/-- An act on the board was made in some step of the server. -/
theorem exists_plays {trace : List (Taken Server Event)}
    {parts : List (List (Taken (Board Name Position.Adjacent 2) (Act Name)))}
    (h : List.Forall₂ Answers trace parts) :
    ∀ a ∈ parts.flatten, ∃ t ∈ trace, t.before.Plays t.label t.after a.label := by
  intro a ha
  induction h with
  | nil => cases ha
  | @cons t acts trace parts hanswers _ ih =>
      rw [List.flatten_cons] at ha
      rcases List.mem_append.mp ha with ha | ha
      · exact ⟨t, List.mem_cons_self, hanswers.plays a ha⟩
      · obtain ⟨u, hu, hplays⟩ := ih ha
        exact ⟨u, List.mem_cons_of_mem _ hu, hplays⟩

theorem lookup_stays {s s' : Server} {trace : List (Taken Server Event)}
    (hrun : Run Step s trace s') {name : Name} {p : PlayerId}
    (hp : s.world.players.lookup name = some p)
    (hstay : ∀ t ∈ trace, t.after.world.players.lookup name = some p) :
    s'.world.players.lookup name = some p ∧
      ∀ t ∈ trace, t.before.world.players.lookup name = some p := by
  induction hrun with
  | start => exact ⟨hp, forall_nil _⟩
  | snoc _ _ ih =>
      obtain ⟨hlast, hall⟩ := ih fun t ht => hstay t (List.mem_append_left _ ht)
      exact ⟨hstay _ (List.mem_append_right _ List.mem_cons_self), forall_snoc hall hlast⟩

/-- A player that stays gets no further than two tiles a tick. -/
theorem run_paced {s s' : Server} {trace : List (Taken Server Event)}
    (h : Reachable Step initial s) (hrun : Run Step s trace s') {name : Name} {p : PlayerId}
    (hp : s.world.players.lookup name = some p)
    (hstay : ∀ t ∈ trace, t.after.world.players.lookup name = some p) :
    Within Position.Adjacent (ticks trace * 2) (s.players p).position (s'.players p).position := by
  obtain ⟨_, parts, hplayed, hanswers⟩ := run_answers (reachable_populated h) hrun
  have hp' := (lookup_stays hrun hp hstay).1
  obtain ⟨f, hf, hwithin⟩ := within_of_run hplayed (board_eq_some hp) fun a ha hleave => by
    obtain ⟨t, ht, hplays⟩ := exists_plays hanswers a ha
    rw [hleave] at hplays
    cases hplays with
    | leave _ _ hgone => cases hgone.symm.trans (hstay t ht)
  obtain rfl := Option.some.inj ((board_eq_some hp').symm.trans hf)
  rw [turns_of_answers hanswers] at hwithin
  exact hwithin

theorem run_paced_walking : ∃ s s' p, Run Step s [⟨s, .tick, s'⟩] s' ∧
    (s.players p).position ≠ (s'.players p).position ∧
    Within Position.Adjacent 2 (s.players p).position (s'.players p).position := by
  obtain ⟨s, s', name, p, hreach, hrun, hname, hname', hstart, hend⟩ := exists_walkingTick
  refine ⟨s, s', p, hrun, fun hsame => ?_,
    run_paced hreach hrun hname (forall_snoc (forall_nil _) hname')⟩
  rw [← hsame, hstart] at hend
  exact absurd hend.1 (by decide)

/-! ## Routes that are left alone -/

/-- A player that stays in the world while its client sends nothing walks its waypoints, whatever
the others do. -/
theorem run_arrives {s s' : Server} {trace : List (Taken Server Event)}
    (h : Reachable Step initial s) (hrun : Run Step s trace s') {name : Name} {p : PlayerId}
    (hp : s.world.players.lookup name = some p)
    (hstay : ∀ t ∈ trace, t.after.world.players.lookup name = some p)
    (hown : ∀ t ∈ trace, ¬ t.before.Steers t.label.reader p) :
    (s'.players p).position = (((s.players p).movementHandler.waypoints.map Point.toPosition).take
      (ticks trace * (s.players p).movementHandler.stride)).getLastD (s.players p).position ∧
    (s'.players p).movementHandler.waypoints.map Point.toPosition =
      ((s.players p).movementHandler.waypoints.map Point.toPosition).drop
        (ticks trace * (s.players p).movementHandler.stride) := by
  obtain ⟨_, parts, hplayed, hanswers⟩ := run_answers (reachable_populated h) hrun
  obtain ⟨hp', hall⟩ := lookup_stays hrun hp hstay
  have hstill : ∀ a ∈ parts.flatten, a.label ≠ .leave name ∧ a.label ≠ .plan name := by
    intro a ha
    obtain ⟨t, ht, hplays⟩ := exists_plays hanswers a ha
    refine ⟨fun hlabel => ?_, fun hlabel => ?_⟩
    · rw [hlabel] at hplays
      cases hplays with
      | leave _ _ hgone => cases hgone.symm.trans (hstay t ht)
    · rw [hlabel] at hplays
      cases hplays with
      | plan hq hsteers =>
          obtain rfl := Option.some.inj ((hall t ht).symm.trans hq)
          exact hown t ht hsteers
  have hfollows := follows_of_run hplayed (board_eq_some hp) hstill
  rw [board_eq_some hp', turns_of_answers hanswers] at hfollows
  obtain ⟨htile, hroute, -⟩ :=
    Figure.go_iterate (figure (s.players p) ((reachable_populated h).walkers p)) (ticks trace)
  rw [← Option.some.inj hfollows] at htile hroute
  exact ⟨htile, hroute⟩

theorem run_arrives_walking : ∃ s s' p, Run Step s [⟨s, .tick, s'⟩] s' ∧
    AtTile (s'.players p).position ⟨3202, 3200⟩ ∧
    (s'.players p).position = (((s.players p).movementHandler.waypoints.map Point.toPosition).take
      (1 * (s.players p).movementHandler.stride)).getLastD (s.players p).position ∧
    (s'.players p).movementHandler.waypoints.map Point.toPosition =
      ((s.players p).movementHandler.waypoints.map Point.toPosition).drop
        (1 * (s.players p).movementHandler.stride) := by
  obtain ⟨s, s', name, p, hreach, hrun, hname, hname', -, hend⟩ := exists_walkingTick
  have hnobody : ¬ s.Steers Event.tick.reader p := by
    rintro ⟨c, client, hwho, -, -⟩
    cases hwho
  obtain ⟨htile, hroute⟩ := run_arrives hreach hrun hname (forall_snoc (forall_nil _) hname')
    (forall_snoc (forall_nil _) hnobody)
  exact ⟨s, s', p, hrun, hend, htile, hroute⟩

end Server
end AsioRsps
