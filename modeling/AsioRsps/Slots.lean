import Mathlib.Data.Fintype.Card
import AsioRsps.LabelledRuns
import AsioRsps.Transmission
import AsioRsps.UpdateOutput

/-!
# The slots of the world

Every sequence of registrations and removals, of any players under any names. A registered
player always sits in a slot of its own that is marked as taken; no slot is leaked exactly
when no player is registered under a name that is registered already; and the slot that an
update frame cannot tell from its terminator is given away exactly when all others are taken.
-/
namespace AsioRsps
open LabelledRuns
open StreamBuffer (fieldBits)
open PlayerUpdating (addBits)

namespace World

/-! ## Calls -/

inductive Call where
  | registerPlayer (p : PlayerId)
  | removePlayer (username : Name)
  | other

/-- Between the calls anything may happen that leaves the map, the slots and the names and
indices of the registered players alone; the map may be reordered. -/
inductive Calls : Server → Call → Server → Prop where
  | registerPlayer {s s' : Server} {p : PlayerId} : registerPlayer s p = .ok s' →
      Calls s (.registerPlayer p) s'
  | removePlayer {s s' : Server} {username : Name} : removePlayer s username = .ok s' →
      Calls s (.removePlayer username) s'
  | other {s s' : Server} : s'.world.players.entries.Perm s.world.players.entries →
      s'.world.occupiedIndices = s.world.occupiedIndices →
      (∀ p ∈ s.registered, (s'.players p).username = (s.players p).username ∧
        (s'.players p).index = (s.players p).index) → Calls s .other s'

/-- A player is registered in a slot. -/
structure Seated (s : Server) (p : PlayerId) (i : Fin maxPlayers) (s' : Server) : Prop where
  free : s.world.occupiedIndices i = false
  first : ∀ j < i, s.world.occupiedIndices j = true
  players : s'.world.players = s.world.players.insert (s.players p).username p
  occupied : s'.world.occupiedIndices = Function.update s.world.occupiedIndices i true
  index : (s'.players p).index = i.val
  username : (s'.players p).username = (s.players p).username
  others : ∀ q, q ≠ p → s'.players q = s.players q

theorem registerPlayer_inv {s s' : Server} {p : PlayerId} (h : registerPlayer s p = .ok s') :
    (∀ i, s.world.occupiedIndices i = true) ∧ s' = s ∨ ∃ i, Seated s p i s' := by
  cases hfree : getFreeIndex s.world with
  | none =>
      rw [registerPlayer_full hfree] at h
      exact .inl ⟨getFreeIndex_eq_none.mp hfree, (Except.ok.inj h).symm⟩
  | some slot =>
      obtain ⟨i, w⟩ := slot
      obtain ⟨hi, rfl⟩ := getFreeIndex_some hfree
      unfold registerPlayer at h
      rw [hfree] at h
      have hrest := Player.login_sameRest h
      refine .inr ⟨i, hi, fun j hj => getFreeIndex_first hfree hj, ?_, ?_, ?_, ?_, ?_⟩
      · rw [hrest.world]
        simp only [Server.modifyPlayer, Server.setPlayer_players_self, Server.setPlayer_world]
      · rw [hrest.world]
        simp only [Server.modifyPlayer, Server.setPlayer_world]
      · rw [hrest.players]
        simp only [Server.modifyPlayer, Server.setPlayer_players_self]
        rfl
      · rw [hrest.players]
        simp only [Server.modifyPlayer, Server.setPlayer_players_self]
        rfl
      · intro q hq
        rw [hrest.players]
        simp only [Server.modifyPlayer, Server.setPlayer, Function.update_of_ne hq]

/-! ## Every player has a slot of its own -/

/-- The players of the map are filed under their names and sit in different slots. -/
structure OwnSlots (s : Server) : Prop where
  named : ∀ name p, s.world.players.lookup name = some p → (s.players p).username = name
  slot : ∀ p ∈ s.registered, ∃ i : Fin maxPlayers, (s.players p).index = i.val ∧
    s.world.occupiedIndices i = true
  distinct : ∀ p ∈ s.registered, ∀ q ∈ s.registered,
    (s.players p).index = (s.players q).index → p = q

theorem OwnSlots.name_unique {s : Server} (h : OwnSlots s) {name name' : Name} {p : PlayerId}
    (hn : s.world.players.lookup name = some p) (hn' : s.world.players.lookup name' = some p) :
    name = name' := (h.named name p hn).symm.trans (h.named name' p hn')

theorem OwnSlots.index_ne {s : Server} (h : OwnSlots s) {p : PlayerId} (hp : p ∈ s.registered)
    {i : Fin maxPlayers} (hi : s.world.occupiedIndices i = false) :
    (s.players p).index ≠ i.val := by
  intro hindex
  obtain ⟨j, hj, htaken⟩ := h.slot p hp
  have hij : i = j := Fin.ext (Int.ofNat_inj.mp (hindex.symm.trans hj))
  rw [hij, htaken] at hi
  cases hi

theorem Seated.lookup_self {s s' : Server} {p : PlayerId} {i : Fin maxPlayers}
    (h : Seated s p i s') : s'.world.players.lookup (s.players p).username = some p := by
  rw [h.players]
  exact AList.lookup_insert ..

theorem Seated.lookup_of_ne {s s' : Server} {p : PlayerId} {i : Fin maxPlayers}
    (h : Seated s p i s') {name : Name} (hname : name ≠ (s.players p).username) :
    s'.world.players.lookup name = s.world.players.lookup name := by
  rw [h.players]
  exact AList.lookup_insert_ne hname

/-- Who is registered after a registration: the player itself, and those registered before
under other names. -/
theorem Seated.registered_cases {s s' : Server} (hs : OwnSlots s) {p : PlayerId}
    {i : Fin maxPlayers} (h : Seated s p i s') {q : PlayerId} (hq : q ∈ s'.registered) :
    q = p ∨ q ≠ p ∧ q ∈ s.registered ∧ (s.players q).username ≠ (s.players p).username := by
  obtain ⟨name, hname⟩ := Server.lookup_of_mem_registered hq
  by_cases hsame : name = (s.players p).username
  · rw [hsame, h.lookup_self] at hname
    exact .inl (Option.some.inj hname).symm
  · rw [h.lookup_of_ne hsame] at hname
    have hnamed := hs.named name q hname
    refine .inr ⟨?_, Server.mem_registered_of_lookup hname, ?_⟩
    · rintro rfl
      exact hsame hnamed.symm
    · rw [hnamed]
      exact hsame

theorem Seated.ownSlots {s s' : Server} (hs : OwnSlots s) {p : PlayerId} {i : Fin maxPlayers}
    (h : Seated s p i s') : OwnSlots s' where
  named name q hname := by
    by_cases hsame : name = (s.players p).username
    · rw [hsame, h.lookup_self] at hname
      obtain rfl := Option.some.inj hname
      rw [h.username, hsame]
    · rw [h.lookup_of_ne hsame] at hname
      have hnamed := hs.named name q hname
      have hne : q ≠ p := by
        rintro rfl
        exact hsame hnamed.symm
      rw [h.others q hne, hnamed]
  slot q hq := by
    rcases h.registered_cases hs hq with rfl | ⟨hne, hreg, -⟩
    · exact ⟨i, h.index, by rw [h.occupied, Function.update_self]⟩
    · obtain ⟨j, hj, htaken⟩ := hs.slot q hreg
      refine ⟨j, by rw [h.others q hne, hj], ?_⟩
      have hji : j ≠ i := by
        rintro rfl
        rw [h.free] at htaken
        cases htaken
      rw [h.occupied, Function.update_of_ne hji, htaken]
  distinct q hq r hr hsame := by
    rcases h.registered_cases hs hq with rfl | ⟨hqp, hq, -⟩ <;>
      rcases h.registered_cases hs hr with rfl | ⟨hrp, hr, -⟩
    · rfl
    · rw [h.index, h.others r hrp] at hsame
      exact absurd hsame.symm (hs.index_ne hr h.free)
    · rw [h.index, h.others q hqp] at hsame
      exact absurd hsame (hs.index_ne hq h.free)
    · rw [h.others q hqp, h.others r hrp] at hsame
      exact hs.distinct q hq r hr hsame

/-- A removal of an unknown name changes nothing; any other one frees the slot of the player
it removes. -/
theorem removePlayer_inv {s s' : Server} (hs : OwnSlots s) {username : Name}
    (h : removePlayer s username = .ok s') :
    s.world.players.lookup username = none ∧ s' = s ∨
      ∃ p i, s.world.players.lookup username = some p ∧ (s.players p).index = (i : Fin _).val ∧
        s' = { s with world := s.world.withoutPlayer username i } := by
  cases hname : s.world.players.lookup username with
  | none =>
      left
      have hnothing : removePlayer s username = .ok s := by
        simp only [removePlayer, getPlayer, hname]
      rw [hnothing] at h
      exact ⟨rfl, (Except.ok.inj h).symm⟩
  | some p =>
      obtain ⟨i, hi, -⟩ := hs.slot p (Server.mem_registered_of_lookup hname)
      rw [removePlayer_ok hname hi] at h
      exact .inr ⟨p, i, rfl, hi, (Except.ok.inj h).symm⟩

theorem OwnSlots.withoutPlayer {s : Server} (hs : OwnSlots s) {username : Name} {p : PlayerId}
    {i : Fin maxPlayers} (hp : s.world.players.lookup username = some p)
    (hi : (s.players p).index = i.val) :
    OwnSlots { s with world := s.world.withoutPlayer username i } := by
  have hmem {q : PlayerId} (hq : q ∈ ({ s with
      world := s.world.withoutPlayer username i } : Server).registered) :
      q ∈ s.registered ∧ q ≠ p := by
    obtain ⟨name, hname⟩ := Server.lookup_of_mem_registered hq
    obtain ⟨hne, hold⟩ := lookup_withoutPlayer.mp hname
    refine ⟨Server.mem_registered_of_lookup hold, ?_⟩
    rintro rfl
    exact hne (hs.name_unique hold hp)
  refine ⟨fun name q hname => hs.named name q (lookup_withoutPlayer.mp hname).2, ?_, ?_⟩
  · intro q hq
    obtain ⟨hreg, hqp⟩ := hmem hq
    obtain ⟨j, hj, htaken⟩ := hs.slot q hreg
    refine ⟨j, hj, ?_⟩
    have hji : j ≠ i := by
      rintro rfl
      exact hqp (hs.distinct q hreg p (Server.mem_registered_of_lookup hp) (hj.trans hi.symm))
    exact (Function.update_of_ne hji ..).trans htaken
  · exact fun q hq r hr => hs.distinct q (hmem hq).1 r (hmem hr).1

theorem OwnSlots.calls {s s' : Server} {a : Call} (hs : OwnSlots s) (h : Calls s a s') :
    OwnSlots s' := by
  cases h with
  | registerPlayer hrun =>
      rcases registerPlayer_inv hrun with ⟨-, rfl⟩ | ⟨i, hseated⟩
      · exact hs
      · exact hseated.ownSlots hs
  | removePlayer hrun =>
      rcases removePlayer_inv hs hrun with ⟨-, rfl⟩ | ⟨p, i, hp, hi, rfl⟩
      · exact hs
      · exact hs.withoutPlayer hp hi
  | other hperm hoccupied hsame =>
      have hlookup (name : Name) : s'.world.players.lookup name = s.world.players.lookup name :=
        AList.perm_lookup hperm
      have hreg {p : PlayerId} (hp : p ∈ s'.registered) : p ∈ s.registered :=
        (Server.mem_registered_congr hlookup).mp hp
      refine ⟨fun name p hname => ?_, fun p hp => ?_, fun p hp q hq hindex => ?_⟩
      · rw [hlookup] at hname
        rw [(hsame p (Server.mem_registered_of_lookup hname)).1]
        exact hs.named name p hname
      · rw [(hsame p (hreg hp)).2, hoccupied]
        exact hs.slot p (hreg hp)
      · rw [(hsame p (hreg hp)).2, (hsame q (hreg hq)).2] at hindex
        exact hs.distinct p (hreg hp) q (hreg hq) hindex

theorem ownSlots_empty {s : Server} (h : s.world = {}) : OwnSlots s := by
  have hreg : s.registered = [] := by
    rw [Server.registered, h]
    rfl
  refine ⟨fun name p hname => ?_, fun p hp => ?_, fun p hp => ?_⟩
  · rw [h] at hname
    cases hname
  · rw [hreg] at hp
    cases hp
  · rw [hreg] at hp
    cases hp

theorem run_ownSlots {s₀ s : Server} {trace : List (Taken Server Call)} (h₀ : s₀.world = {})
    (h : Run Calls s₀ trace s) : OwnSlots s :=
  h.invariant (ownSlots_empty h₀) fun _ _ _ hs hcall => hs.calls hcall

/-- However often a name is registered, every registered player sits in a slot that is marked
as taken, and no two of them in the same one. -/
theorem run_slots_unique {s₀ s : Server} {trace : List (Taken Server Call)}
    (h₀ : s₀.world = {}) (h : Run Calls s₀ trace s) :
    (∀ name p, s.world.players.lookup name = some p → ∃ i : Fin maxPlayers,
      (s.players p).index = i.val ∧ s.world.occupiedIndices i = true) ∧
    ∀ name name' p q, s.world.players.lookup name = some p →
      s.world.players.lookup name' = some q →
      (s.players p).index = (s.players q).index → name = name' := by
  have hs := run_ownSlots h₀ h
  constructor
  · intro name p hname
    exact hs.slot p (Server.mem_registered_of_lookup hname)
  · intro name name' p q hp hq hindex
    obtain rfl := hs.distinct p (Server.mem_registered_of_lookup hp) q
      (Server.mem_registered_of_lookup hq) hindex
    exact hs.name_unique hp hq

/-! ## Arrivals one after the other -/

/-- A crowd before anybody is registered. -/
def outside (n : Nat) : Server := { Server.crowd n with world := {} }

/-- The first `m` players of the crowd have been registered, in order. -/
structure Arrived (n m : Nat) (s : Server) : Prop where
  taken : ∀ i, s.world.occupiedIndices i = true ↔ i.val < m
  lookup : ∀ p < m, s.world.players.lookup (List.replicate p 0) = some p
  fresh : ∀ p, m ≤ p → s.world.players.lookup (List.replicate p 0) = none
  index : ∀ p < m, (s.players p).index = p
  players : ∀ p, m ≤ p → s.players p = (Server.crowd n).players p
  clients : ∀ c, m ≤ c → s.clients c = (Server.crowd n).clients c

theorem arrived_zero (n : Nat) : Arrived n 0 (outside n) where
  taken _ := ⟨fun h => (nomatch h), fun h => absurd h (Nat.not_lt_zero _)⟩
  lookup p hp := absurd hp (Nat.not_lt_zero p)
  fresh _ _ := rfl
  index p hp := absurd hp (Nat.not_lt_zero p)
  players _ _ := rfl
  clients _ _ := rfl

/-- With a slot left, a player with a live client is registered. -/
theorem exists_seated {s : Server} {p : PlayerId} {client : Client} {cipher : ISAACCipher}
    (hc : s.clients (s.players p).client = some client) (he : client.encryptor = some cipher)
    (hp : client.player = some p) {j : Fin maxPlayers} (hj : s.world.occupiedIndices j = false) :
    ∃ s' i, registerPlayer s p = .ok s' ∧ Seated s p i s' ∧
      ∀ c, c ≠ (s.players p).client → s'.clients c = s.clients c := by
  cases hfree : getFreeIndex s.world with
  | none =>
      rw [getFreeIndex_eq_none.mp hfree j] at hj
      cases hj
  | some slot =>
      obtain ⟨index, w⟩ := slot
      have hrun := registerPlayer_ok hfree hc he hp
      rcases registerPlayer_inv hrun with ⟨hfull, -⟩ | ⟨i, hseated⟩
      · rw [hfull j] at hj
        cases hj
      · exact ⟨_, i, hrun, hseated, fun c hne => Server.setClient_clients_of_ne _ _ hne⟩

theorem Arrived.succ {n m : Nat} {s : Server} (h : Arrived n m s) (hn : m ≤ n) (hm : m < 2048) :
    ∃ s', registerPlayer s m = .ok s' ∧ Arrived n (m + 1) s' := by
  have hplayer := h.players m (Nat.le_refl m)
  have howner : (s.players m).client = m := by rw [hplayer]; rfl
  have hname : (s.players m).username = List.replicate m 0 := by rw [hplayer]; rfl
  have hclient : s.clients (s.players m).client = some (Server.crowdClient m) := by
    rw [howner, h.clients m (Nat.le_refl m), Server.crowd_client hn]
  have hfree : s.world.occupiedIndices ⟨m, hm⟩ = false := by
    rw [← Bool.not_eq_true, h.taken]
    exact Nat.lt_irrefl m
  obtain ⟨s', i, hrun, hseated, hothers⟩ := exists_seated hclient rfl rfl hfree
  have hi : i.val = m := by
    have hnot : ¬ i.val < m := by
      rw [← h.taken, hseated.free]
      exact Bool.false_ne_true
    have hnot' : ¬ m < i.val := fun hlt => by
      rw [hseated.first ⟨m, hm⟩ hlt] at hfree
      cases hfree
    omega
  have hother {p : PlayerId} (hpm : p ≠ m) : s'.world.players.lookup (List.replicate p 0) =
      s.world.players.lookup (List.replicate p 0) := by
    refine hseated.lookup_of_ne ?_
    rw [hname]
    exact fun hsame => hpm (by simpa using congrArg List.length hsame)
  refine ⟨s', hrun, ?_, ?_, ?_, ?_, ?_, ?_⟩
  · intro j
    rw [hseated.occupied]
    by_cases hji : j = i
    · rw [hji, Function.update_self, hi]
      exact ⟨fun _ => Nat.lt_succ_self m, fun _ => rfl⟩
    · have hne : j.val ≠ m := fun hval => hji (Fin.ext (hval.trans hi.symm))
      rw [Function.update_of_ne hji, h.taken]
      omega
  · intro p hp
    by_cases hpm : p = m
    · rw [hpm, ← hname]
      exact hseated.lookup_self
    · rw [hother hpm]
      exact h.lookup p (by omega)
  · intro p hp
    rw [hother (Nat.ne_of_gt hp)]
    exact h.fresh p (Nat.le_of_succ_le hp)
  · intro p hp
    by_cases hpm : p = m
    · rw [hpm, hseated.index, hi]
    · rw [hseated.others p hpm]
      exact h.index p (by omega)
  · intro p hp
    rw [hseated.others p (Nat.ne_of_gt hp)]
    exact h.players p (Nat.le_of_succ_le hp)
  · intro c hc
    have hne : c ≠ (s.players m).client := by
      rw [howner]
      exact Nat.ne_of_gt hc
    rw [hothers c hne]
    exact h.clients c (Nat.le_of_succ_le hc)

/-- Each of the arrivals meets those before it. -/
theorem exists_arrivals (n m : Nat) (hn : m ≤ n + 1) (hm : m ≤ 2048) :
    ∃ trace s, Run Calls (outside n) trace s ∧
      trace.map (·.label) = (List.range m).map .registerPlayer ∧ Arrived n m s ∧
      ∀ t ∈ trace, ∃ p < m, t.label = .registerPlayer p ∧ Arrived n p t.before := by
  induction m with
  | zero => exact ⟨[], _, .start, rfl, arrived_zero n, forall_nil _⟩
  | succ m ih =>
      obtain ⟨trace, s, hrun, hlabels, hs, hsteps⟩ := ih (by omega) (by omega)
      obtain ⟨s', hregister, hs'⟩ := hs.succ (by omega) (by omega)
      refine ⟨_, s', hrun.snoc (.registerPlayer hregister), ?_, hs', forall_snoc ?_ ?_⟩
      · rw [List.map_append, hlabels, List.range_succ, List.map_append]
        rfl
      · intro t ht
        obtain ⟨p, hp, hbefore⟩ := hsteps t ht
        exact ⟨p, Nat.lt_succ_of_lt hp, hbefore⟩
      · exact ⟨m, Nat.lt_succ_self m, rfl, hs⟩

theorem exists_arrived (n m : Nat) (hn : m ≤ n + 1) (hm : m ≤ 2048) :
    ∃ trace s, Run Calls (outside n) trace s ∧
      trace.map (·.label) = (List.range m).map .registerPlayer ∧ Arrived n m s := by
  obtain ⟨trace, s, hrun, hlabels, hs, -⟩ := exists_arrivals n m hn hm
  exact ⟨trace, s, hrun, hlabels, hs⟩

/-- Two players of different names, registered one after the other. -/
theorem outside_slots_unique : ∃ trace s, Run Calls (outside 1) trace s ∧
    s.world.players.lookup [] = some 0 ∧ s.world.players.lookup [0] = some 1 ∧
    (s.players 0).index ≠ (s.players 1).index := by
  obtain ⟨trace, s, hrun, -, hs⟩ := exists_arrived 1 2 (by decide) (by decide)
  have h0 := hs.lookup 0 (by decide)
  have h1 := hs.lookup 1 (by decide)
  refine ⟨trace, s, hrun, h0, h1, fun hindex => ?_⟩
  exact absurd ((run_slots_unique rfl hrun).2 _ _ 0 1 h0 h1 hindex) (by decide)

/-! ## Leaked slots -/

/-- The slots that are marked as taken are those of the registered players, and a world that
is not full has one left. -/
structure Conserved (s : Server) : Prop where
  taken : ∀ i, s.world.occupiedIndices i = true ↔
    ∃ p ∈ s.registered, (s.players p).index = i.val
  room : s.registered.length < maxPlayers → getFreeIndex s.world ≠ none

/-- Players in all the slots are as many as there are slots. -/
theorem conserved_of_taken {s : Server} (h : ∀ i, s.world.occupiedIndices i = true ↔
    ∃ p ∈ s.registered, (s.players p).index = i.val) : Conserved s := by
  refine ⟨h, fun hlength hnone => ?_⟩
  have hall := getFreeIndex_eq_none.mp hnone
  have hsit : ∀ i : Fin maxPlayers, ∃ p ∈ s.registered, (s.players p).index = i.val :=
    fun i => (h i).mp (hall i)
  choose sitting hsitting using hsit
  have hinjective : Function.Injective sitting := by
    intro i j hij
    have hi := (hsitting i).2
    rw [hij, (hsitting j).2] at hi
    exact Fin.ext (Int.ofNat_inj.mp hi).symm
  have himage : Finset.univ.image sitting ⊆ s.registered.toFinset := by
    intro p hp
    obtain ⟨i, -, rfl⟩ := Finset.mem_image.mp hp
    exact List.mem_toFinset.mpr (hsitting i).1
  have hcard := Finset.card_le_card himage
  rw [Finset.card_image_of_injective _ hinjective, Finset.card_univ, Fintype.card_fin] at hcard
  exact absurd (hcard.trans s.registered.toFinset_card_le) (Nat.not_le_of_lt hlength)

theorem conserved_empty {s : Server} (h : s.world = {}) : Conserved s := by
  refine conserved_of_taken fun i => ?_
  have hreg : s.registered = [] := by
    rw [Server.registered, h]
    rfl
  rw [hreg, h]
  simp

/-- The call registers no player under a name that is registered already, unless the world
refuses it. -/
def NewName (s : Server) : Call → Prop
  | .registerPlayer p => s.world.players.lookup (s.players p).username = none ∨
      ∀ i, s.world.occupiedIndices i = true
  | _ => True

/-- A registration conserves the slots exactly when the name is new. -/
theorem Seated.conserved_iff {s s' : Server} (hs : OwnSlots s) (hc : Conserved s) {p : PlayerId}
    {i : Fin maxPlayers} (h : Seated s p i s') :
    Conserved s' ↔ s.world.players.lookup (s.players p).username = none := by
  constructor
  · intro hc'
    cases hname : s.world.players.lookup (s.players p).username with
    | none => rfl
    | some q =>
        -- the slot of the player that had the name is still marked as taken
        have hq := Server.mem_registered_of_lookup hname
        obtain ⟨k, hk, htaken⟩ := hs.slot q hq
        have hki : k ≠ i := by
          rintro rfl
          rw [h.free] at htaken
          cases htaken
        have htaken' : s'.world.occupiedIndices k = true := by
          rw [h.occupied, Function.update_of_ne hki, htaken]
        obtain ⟨r, hr, hindex⟩ := (hc'.taken k).mp htaken'
        rcases h.registered_cases hs hr with rfl | ⟨hrp, hr, hne⟩
        · rw [h.index] at hindex
          exact absurd (Fin.ext (Int.ofNat_inj.mp hindex)).symm hki
        · rw [h.others r hrp] at hindex
          obtain rfl := hs.distinct r hr q hq (hindex.trans hk.symm)
          exact absurd (hs.named _ r hname) hne
  · intro hname
    refine conserved_of_taken fun j => ?_
    have hp : p ∉ s.registered := by
      intro hp
      obtain ⟨name, hlookup⟩ := Server.lookup_of_mem_registered hp
      rw [hs.named name p hlookup, hlookup] at hname
      cases hname
    constructor
    · intro htaken
      by_cases hji : j = i
      · refine ⟨p, Server.mem_registered_of_lookup h.lookup_self, ?_⟩
        rw [hji, h.index]
      · rw [h.occupied, Function.update_of_ne hji] at htaken
        obtain ⟨q, hq, hindex⟩ := (hc.taken j).mp htaken
        have hqp : q ≠ p := by
          rintro rfl
          exact hp hq
        obtain ⟨name, hlookup⟩ := Server.lookup_of_mem_registered hq
        have hne : name ≠ (s.players p).username := by
          rintro rfl
          rw [hname] at hlookup
          cases hlookup
        refine ⟨q, Server.mem_registered_of_lookup ((h.lookup_of_ne hne).trans hlookup), ?_⟩
        rw [h.others q hqp, hindex]
    · rintro ⟨q, hq, hindex⟩
      by_cases hji : j = i
      · rw [hji, h.occupied, Function.update_self]
      · rw [h.occupied, Function.update_of_ne hji, hc.taken]
        rcases h.registered_cases hs hq with rfl | ⟨hqp, hq, -⟩
        · rw [h.index] at hindex
          exact absurd (Fin.ext (Int.ofNat_inj.mp hindex)).symm hji
        · rw [h.others q hqp] at hindex
          exact ⟨q, hq, hindex⟩

theorem Conserved.withoutPlayer {s : Server} (hs : OwnSlots s) (hc : Conserved s)
    {username : Name} {p : PlayerId} {i : Fin maxPlayers}
    (hp : s.world.players.lookup username = some p) (hi : (s.players p).index = i.val) :
    Conserved { s with world := s.world.withoutPlayer username i } := by
  refine conserved_of_taken fun j => ?_
  constructor
  · intro htaken
    have hji : j ≠ i := by
      rintro rfl
      have hfalse : Function.update s.world.occupiedIndices j false j = true := htaken
      rw [Function.update_self] at hfalse
      cases hfalse
    obtain ⟨q, hq, hindex⟩ := (hc.taken j).mp ((Function.update_of_ne hji ..).symm.trans htaken)
    obtain ⟨name, hname⟩ := Server.lookup_of_mem_registered hq
    have hne : name ≠ username := by
      rintro rfl
      obtain rfl := Option.some.inj (hname.symm.trans hp)
      exact hji (Fin.ext (Int.ofNat_inj.mp (hindex.symm.trans hi)))
    exact ⟨q, Server.mem_registered_of_lookup (lookup_withoutPlayer.mpr ⟨hne, hname⟩), hindex⟩
  · rintro ⟨q, hq, hindex⟩
    obtain ⟨name, hname⟩ := Server.lookup_of_mem_registered hq
    obtain ⟨hne, hold⟩ := lookup_withoutPlayer.mp hname
    have hji : j ≠ i := by
      rintro rfl
      obtain rfl := hs.distinct q (Server.mem_registered_of_lookup hold) p
        (Server.mem_registered_of_lookup hp) (hindex.trans hi.symm)
      exact hne (hs.name_unique hold hp)
    exact (Function.update_of_ne hji ..).trans
      ((hc.taken j).mpr ⟨q, Server.mem_registered_of_lookup hold, hindex⟩)

theorem Conserved.calls_iff {s s' : Server} {a : Call} (hs : OwnSlots s) (hc : Conserved s)
    (h : Calls s a s') : Conserved s' ↔ NewName s a := by
  cases h with
  | registerPlayer hrun =>
      rcases registerPlayer_inv hrun with ⟨hfull, rfl⟩ | ⟨i, hseated⟩
      · exact ⟨fun _ => .inr hfull, fun _ => hc⟩
      · rw [hseated.conserved_iff hs hc]
        refine ⟨.inl, fun hnew => hnew.resolve_right fun hfull => ?_⟩
        have hfree := hseated.free
        rw [hfull i] at hfree
        cases hfree
  | removePlayer hrun =>
      refine ⟨fun _ => trivial, fun _ => ?_⟩
      rcases removePlayer_inv hs hrun with ⟨-, rfl⟩ | ⟨p, i, hp, hi, rfl⟩
      · exact hc
      · exact hc.withoutPlayer hs hp hi
  | other hperm hoccupied hsame =>
      have hmem (p : PlayerId) : p ∈ s'.registered ↔ p ∈ s.registered :=
        Server.mem_registered_congr fun name => AList.perm_lookup hperm
      refine ⟨fun _ => trivial, fun _ => conserved_of_taken fun i => ?_⟩
      rw [hoccupied, hc.taken]
      constructor
      · rintro ⟨p, hp, hindex⟩
        exact ⟨p, (hmem p).mpr hp, (hsame p hp).2.trans hindex⟩
      · rintro ⟨p, hp, hindex⟩
        exact ⟨p, (hmem p).mp hp, (hsame p ((hmem p).mp hp)).2.symm.trans hindex⟩

/-- Along a run the slots are conserved exactly as long as every registration that is not
refused comes under a new name. -/
theorem run_conserved_iff {s₀ s : Server} {trace : List (Taken Server Call)}
    (h₀ : s₀.world = {}) (h : Run Calls s₀ trace s) :
    (∀ t ∈ trace, Conserved t.after) ↔ ∀ t ∈ trace, NewName t.before t.label :=
  h.holds_iff (ownSlots_empty h₀) (conserved_empty h₀) (fun _ _ _ hs hcall => hs.calls hcall)
    fun _ _ _ hs hc hcall => hc.calls_iff hs hcall

theorem Arrived.newName {n m : Nat} {s : Server} (h : Arrived n m s) :
    NewName s (.registerPlayer m) := by
  have hname : (s.players m).username = List.replicate m 0 := by
    rw [h.players m (Nat.le_refl m)]
    rfl
  refine .inl ?_
  rw [hname]
  exact h.fresh m (Nat.le_refl m)

/-- Three players registered one after the other, each under its own name. -/
theorem outside_conserved : ∃ trace s, Run Calls (outside 2) trace s ∧
    trace.map (·.label) = [.registerPlayer 0, .registerPlayer 1, .registerPlayer 2] ∧
    s.world.players.lookup [0, 0] = some 2 ∧ ∀ t ∈ trace, Conserved t.after := by
  obtain ⟨trace, s, hrun, hlabels, hs, hsteps⟩ := exists_arrivals 2 3 (by decide) (by decide)
  refine ⟨trace, s, hrun, hlabels, hs.lookup 2 (by decide), ?_⟩
  refine (run_conserved_iff rfl hrun).mpr fun t ht => ?_
  obtain ⟨p, -, hlabel, hbefore⟩ := hsteps t ht
  rw [hlabel]
  exact hbefore.newName

/-- Two players of the same name, with a client each. -/
def namesakes : Server :=
  { outside 1 with players := fun p => { username := [], client := p } }

/-- When the second of them is registered the slot of the first one is leaked. -/
theorem namesakes_leak : ∃ trace s i, Run Calls namesakes trace s ∧
    trace.map (·.label) = [.registerPlayer 0, .registerPlayer 1] ∧
    s.world.occupiedIndices i = true ∧ (∀ p ∈ s.registered, (s.players p).index ≠ i.val) ∧
    ¬ Conserved s := by
  have hc₀ : namesakes.clients (namesakes.players 0).client = some (Server.crowdClient 0) :=
    Server.crowd_client (Nat.zero_le 1)
  let first : Fin maxPlayers := ⟨0, by decide⟩
  let second : Fin maxPlayers := ⟨1, by decide⟩
  have hfree₀ (slot : Fin maxPlayers) : namesakes.world.occupiedIndices slot = false := rfl
  obtain ⟨s₁, i, hrun₁, hseated₁, hothers₁⟩ := exists_seated hc₀ rfl rfl (hfree₀ first)
  have hplayer₁ : s₁.players 1 = namesakes.players 1 := hseated₁.others 1 (by decide)
  have hc₁ : s₁.clients (s₁.players 1).client = some (Server.crowdClient 1) := by
    rw [hplayer₁, hothers₁ _ (by decide)]
    exact Server.crowd_client (Nat.le_refl 1)
  obtain ⟨j, hj⟩ : ∃ j : Fin maxPlayers, s₁.world.occupiedIndices j = false := by
    by_cases hi : first = i
    · have hne : second ≠ i := by
        rw [← hi]
        exact Fin.ne_of_val_ne (by decide)
      exact ⟨second, by rw [hseated₁.occupied, Function.update_of_ne hne, hfree₀]⟩
    · exact ⟨first, by rw [hseated₁.occupied, Function.update_of_ne hi, hfree₀]⟩
  obtain ⟨s₂, k, hrun₂, hseated₂, -⟩ := exists_seated hc₁ rfl rfl hj
  have hs₁ : OwnSlots s₁ := (ownSlots_empty rfl).calls (.registerPlayer hrun₁)
  have htaken : s₁.world.occupiedIndices i = true := by
    rw [hseated₁.occupied, Function.update_self]
  have hki : i ≠ k := by
    rintro rfl
    rw [hseated₂.free] at htaken
    cases htaken
  have htaken' : s₂.world.occupiedIndices i = true := by
    rw [hseated₂.occupied, Function.update_of_ne hki, htaken]
  have hnobody : ∀ p ∈ s₂.registered, (s₂.players p).index ≠ i.val := by
    intro p hp
    rcases hseated₂.registered_cases hs₁ hp with rfl | ⟨hne, hp, hname⟩
    · rw [hseated₂.index]
      exact fun hsame => hki (Fin.ext (Int.ofNat_inj.mp hsame)).symm
    · rcases hseated₁.registered_cases (ownSlots_empty rfl) hp with rfl | ⟨-, hp, -⟩
      · rw [hplayer₁, hseated₁.username] at hname
        exact absurd rfl hname
      · cases hp
  refine ⟨_, s₂, i, (Run.start.snoc (.registerPlayer hrun₁)).snoc (.registerPlayer hrun₂), rfl,
    htaken', hnobody, fun hconserved => ?_⟩
  obtain ⟨p, hp, hindex⟩ := (hconserved.taken i).mp htaken'
  exact hnobody p hp hindex

/-! ## The slot that reads as a terminator -/

/-- The slot in front of what `AddPlayer` writes. -/
def slotBits (player other : Player) : List Bool := (addBits player other).take 11

/-- No registered player's slot reads as the end of the additions, whoever looks at it. -/
def NoTerminator (s : Server) : Prop :=
  ∀ p ∈ s.registered, ∀ viewer, slotBits viewer (s.players p) ≠ fieldBits 11 2047

/-- A registration finds a slot below the last one, or is refused. -/
def SlotBelow (s : Server) : Call → Prop
  | .registerPlayer _ => (∃ i : Fin maxPlayers, i.val < 2047 ∧ s.world.occupiedIndices i = false) ∨
      ∀ i, s.world.occupiedIndices i = true
  | _ => True

theorem slotBits_eq (player other : Player) : slotBits player other = fieldBits 11 other.index :=
  List.take_left' (StreamBuffer.fieldBits_length 11 other.index)

theorem slotBits_eq_terminator {player other : Player} {i : Fin maxPlayers}
    (h : other.index = i.val) : slotBits player other = fieldBits 11 2047 ↔ i.val = 2047 := by
  have hi : i.val < 2048 := i.isLt
  rw [slotBits_eq, h]
  constructor
  · intro hbits
    have hvalue := congrArg BitStrings.ofBits hbits
    simp only [fieldBits, BitStrings.ofBits_bitsOf] at hvalue
    omega
  · intro hlast
    rw [hlast]
    rfl

theorem Seated.noTerminator_iff {s s' : Server} (hs : OwnSlots s) (hn : NoTerminator s)
    {p : PlayerId} {i : Fin maxPlayers} (h : Seated s p i s') :
    NoTerminator s' ↔ ∃ j : Fin maxPlayers, j.val < 2047 ∧ s.world.occupiedIndices j = false := by
  have hi : i.val < 2048 := i.isLt
  constructor
  · intro hn'
    have hne := hn' p (Server.mem_registered_of_lookup h.lookup_self) (s.players p)
    rw [ne_eq, slotBits_eq_terminator h.index] at hne
    exact ⟨i, by omega, h.free⟩
  · rintro ⟨j, hj, hfree⟩ q hq viewer
    have hij : ¬ j.val < i.val := fun hlt => by
      rw [h.first j hlt] at hfree
      cases hfree
    rcases h.registered_cases hs hq with rfl | ⟨hqp, hq, -⟩
    · rw [ne_eq, slotBits_eq_terminator h.index]
      omega
    · rw [h.others q hqp]
      exact hn q hq viewer

theorem NoTerminator.calls_iff {s s' : Server} {a : Call} (hs : OwnSlots s) (hn : NoTerminator s)
    (h : Calls s a s') : NoTerminator s' ↔ SlotBelow s a := by
  cases h with
  | registerPlayer hrun =>
      rcases registerPlayer_inv hrun with ⟨hfull, rfl⟩ | ⟨i, hseated⟩
      · exact ⟨fun _ => .inr hfull, fun _ => hn⟩
      · rw [hseated.noTerminator_iff hs hn]
        refine ⟨.inl, fun hbelow => hbelow.resolve_right fun hfull => ?_⟩
        have hfree := hseated.free
        rw [hfull i] at hfree
        cases hfree
  | removePlayer hrun =>
      refine ⟨fun _ => trivial, fun _ => ?_⟩
      rcases removePlayer_inv hs hrun with ⟨-, rfl⟩ | ⟨p, i, hp, hi, rfl⟩
      · exact hn
      · intro q hq viewer
        obtain ⟨name, hname⟩ := Server.lookup_of_mem_registered hq
        have hold := (lookup_withoutPlayer.mp hname).2
        exact hn q (Server.mem_registered_of_lookup hold) viewer
  | other hperm _ hsame =>
      refine ⟨fun _ => trivial, fun _ p hp viewer => ?_⟩
      have hp := (Server.mem_registered_congr fun name => AList.perm_lookup hperm).mp hp
      rw [slotBits_eq, (hsame p hp).2, ← slotBits_eq viewer]
      exact hn p hp viewer

/-- Along a run no slot reads as a terminator exactly as long as no registration is left with
the last slot only. -/
theorem run_noTerminator_iff {s₀ s : Server} {trace : List (Taken Server Call)}
    (h₀ : s₀.world = {}) (h : Run Calls s₀ trace s) :
    (∀ t ∈ trace, NoTerminator t.after) ↔ ∀ t ∈ trace, SlotBelow t.before t.label := by
  have hn : NoTerminator s₀ := fun p hp => by
    rw [Server.registered, h₀] at hp
    cases hp
  exact h.holds_iff (ownSlots_empty h₀) hn (fun _ _ _ hs hcall => hs.calls hcall)
    fun _ _ _ hs hn hcall => hn.calls_iff hs hcall

theorem Arrived.slotBelow {n m : Nat} {s : Server} (h : Arrived n m s) (hm : m < 2047) :
    SlotBelow s (.registerPlayer m) := by
  refine .inl ⟨⟨m, Nat.lt_succ_of_lt hm⟩, hm, ?_⟩
  rw [← Bool.not_eq_true, h.taken]
  exact Nat.lt_irrefl m

/-- Three players, far from the last slot. -/
theorem outside_noTerminator : ∃ trace s, Run Calls (outside 2) trace s ∧
    trace.map (·.label) = [.registerPlayer 0, .registerPlayer 1, .registerPlayer 2] ∧
    s.world.players.lookup [0, 0] = some 2 ∧ ∀ t ∈ trace, NoTerminator t.after := by
  obtain ⟨trace, s, hrun, hlabels, hs, hsteps⟩ := exists_arrivals 2 3 (by decide) (by decide)
  refine ⟨trace, s, hrun, hlabels, hs.lookup 2 (by decide), ?_⟩
  refine (run_noTerminator_iff rfl hrun).mpr fun t ht => ?_
  obtain ⟨p, hp, hlabel, hbefore⟩ := hsteps t ht
  rw [hlabel]
  exact hbefore.slotBelow (by omega)

/-- The last of 2048 players is announced with the bits that end the additions. -/
theorem outside_terminator : ∃ trace s, Run Calls (outside 2047) trace s ∧
    trace.map (·.label) = (List.range 2048).map .registerPlayer ∧ 2047 ∈ s.registered ∧
    (∀ viewer, slotBits viewer (s.players 2047) = fieldBits 11 2047) ∧ ¬ NoTerminator s := by
  obtain ⟨trace, s, hrun, hlabels, hs⟩ := exists_arrived 2047 2048 (by decide) (by decide)
  have hreg := Server.mem_registered_of_lookup (hs.lookup 2047 (by decide))
  have hlast (viewer : Player) : slotBits viewer (s.players 2047) = fieldBits 11 2047 := by
    rw [slotBits_eq, hs.index 2047 (by decide)]
    rfl
  exact ⟨trace, s, hrun, hlabels, hreg, hlast, fun hn => hn 2047 hreg (s.players 2047) (hlast _)⟩

end World
end AsioRsps
