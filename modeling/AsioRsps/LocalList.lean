import AsioRsps.UpdateOrder

/-!
# The local list after an update

One call of `UpdatePlayer` prunes the list of its player and then fills it from the world up to
255 entries. What is left is sound, in order and, unless it is full, complete.
-/
namespace AsioRsps
open StreamBuffer

namespace PlayerUpdating

/-- The list an update leaves: what was kept, then what was added, if pruning left room. -/
def updatedList (s : Server) (p : PlayerId) : List PlayerId :=
  if (keptPlayers s p).length < 255 then keptPlayers s p ++ addedPlayers s p else keptPlayers s p

variable {s s' : Server} {p : PlayerId}

theorem updatePlayer_list {client : Client} {cipher : ISAACCipher}
    (hc : s.clients (s.players p).client = some client) (he : client.encryptor = some cipher)
    (hlist : (s.players p).localPlayers.length ≤ 255) (hrun : updatePlayer s p = .ok s') :
    (s'.players p) = { s.players p with localPlayers := updatedList s p } := by
  by_cases hroom : (keptPlayers s p).length < 255
  · obtain ⟨body, -, hok⟩ := updatePlayer_ok hc he hlist hroom
    obtain rfl := Except.ok.inj (hrun.symm.trans hok)
    rw [updatedList, if_pos hroom, Server.setClient_players, Server.setLocalPlayers_self]
  · have hok := updatePlayer_full hc he (Nat.le_of_not_lt hroom)
    obtain rfl := Except.ok.inj (hrun.symm.trans hok)
    rw [updatedList, if_neg hroom, Server.setClient_players, Server.setLocalPlayers_self]

theorem keeps_iff {player other : Player} : keeps player other = true ↔
    other.position.isViewableFrom player.position = true ∧
      other.hasFlag UpdateFlag.needsPlacement = false := by
  simp only [keeps, Bool.and_eq_true, Bool.not_eq_true']

/-- An update without an encryptor does not return. -/
theorem encryptor_of_updatePlayer {client : Client}
    (hc : s.clients (s.players p).client = some client) (hrun : updatePlayer s p = .ok s') :
    ∃ cipher, client.encryptor = some cipher := by
  obtain ⟨client', l, client'', hlock, hout, -⟩ := updatePlayer_eq_ok.mp hrun
  obtain rfl : client = client' := Except.ok.inj ((Server.lockClient_eq hc).symm.trans hlock)
  cases he : client.encryptor with
  | some cipher => exact ⟨cipher, rfl⟩
  | none =>
      simp only [outcome, he, Server.deref, bind, Except.bind, reduceCtorEq] at hout

/-- An update changes no player except for local lists. -/
theorem sameButLists_of_updatePlayer (hrun : updatePlayer s p = .ok s') :
    SameButLists s.players s'.players ∧ s'.registered = s.registered := by
  obtain ⟨client, l, client', -, -, rfl⟩ := updatePlayer_eq_ok.mp hrun
  exact ⟨sameButLists_setLocalPlayers s p l, rfl⟩

/-- The list of `p`, which was `before`, after an update. -/
structure ListCorrect (before : List PlayerId) (s : Server) (p : PlayerId) : Prop where
  nodup : (s.players p).localPlayers.Nodup
  self : p ∉ (s.players p).localPlayers
  length : (s.players p).localPlayers.length ≤ 255
  viewable : ∀ q ∈ (s.players p).localPlayers,
    (s.players q).position.isViewableFrom (s.players p).position = true
  /-- The entries kept come first and in order; one that comes back was flagged. -/
  order : ∃ added, (s.players p).localPlayers = (before.filter fun q =>
      (s.players q).position.isViewableFrom (s.players p).position &&
        !(s.players q).hasFlag UpdateFlag.needsPlacement) ++ added ∧
    ∀ q ∈ added, q ∈ s.registered ∧
      (q ∈ before → (s.players q).hasFlag UpdateFlag.needsPlacement = true)
  complete : (s.players p).localPlayers.length < 255 → ∀ q ∈ s.registered, q ≠ p →
    (s.players q).position.isViewableFrom (s.players p).position = true →
      q ∈ (s.players p).localPlayers

theorem updatedList_nodup (h : (s.players p).localPlayers.Nodup) : (updatedList s p).Nodup := by
  have hkept : (keptPlayers s p).Nodup := h.filter _
  rw [updatedList]
  split
  · refine List.nodup_append.mpr ⟨hkept, additions_nodup _ _ _ _, ?_⟩
    rintro q hq _ hadded rfl
    exact (mem_additions hadded).2.2.1 hq
  · exact hkept

theorem mem_updatedList {q : PlayerId} (h : q ∈ updatedList s p) :
    q ∈ keptPlayers s p ∨ q ∈ addedPlayers s p := by
  rw [updatedList] at h
  split at h
  · exact List.mem_append.mp h
  · exact .inl h

theorem listCorrect_updatedList (hnodup : (s.players p).localPlayers.Nodup)
    (hself : p ∉ (s.players p).localPlayers) (hlist : (s.players p).localPlayers.length ≤ 255)
    (hsame : SameButLists s.players s'.players) (hregistered : s'.registered = s.registered)
    (hafter : (s'.players p).localPlayers = updatedList s p) :
    ListCorrect (s.players p).localPlayers s' p := by
  have hposition (q : PlayerId) : (s'.players q).position = (s.players q).position := by
    obtain ⟨l, hl⟩ := hsame q
    rw [hl]
  have hflag (q : PlayerId) (flag : Word) :
      (s'.players q).hasFlag flag = (s.players q).hasFlag flag := by
    obtain ⟨l, hl⟩ := hsame q
    rw [hl]
    rfl
  have hkept : (keptPlayers s p).length ≤ 255 := (List.length_filter_le _ _).trans hlist
  refine ⟨?_, ?_, ?_, ?_, ?_, ?_⟩
  · rw [hafter]
    exact updatedList_nodup hnodup
  · rw [hafter]
    intro hmem
    rcases mem_updatedList hmem with h | h
    · exact hself (List.mem_filter.mp h).1
    · exact (mem_additions h).2.1 rfl
  · rw [hafter, updatedList]
    split
    · rw [List.length_append]
      exact addedPlayers_length_le hkept
    · exact hkept
  · intro q hq
    rw [hafter] at hq
    rw [hposition, hposition]
    rcases mem_updatedList hq with h | h
    · exact (keeps_iff.mp (List.mem_filter.mp h).2).1
    · exact (mem_additions h).2.2.2
  · simp only [hposition, hflag]
    refine ⟨if (keptPlayers s p).length < 255 then addedPlayers s p else [], ?_, ?_⟩
    · rw [hafter, updatedList]
      split
      · rfl
      · rw [List.append_nil]
        rfl
    · intro q hq
      split at hq
      · obtain ⟨hregistered', -, hnot, hview⟩ := mem_additions hq
        refine ⟨by rwa [hregistered], fun hbefore => ?_⟩
        by_contra hclear
        rw [Bool.not_eq_true] at hclear
        exact hnot (List.mem_filter.mpr ⟨hbefore, keeps_iff.mpr ⟨hview, hclear⟩⟩)
      · cases hq
  · intro hroom q hq hne hview
    rw [hposition, hposition] at hview
    rw [hregistered] at hq
    rw [hafter] at hroom ⊢
    rw [updatedList] at hroom ⊢
    split_ifs at hroom ⊢ with hsmall
    · by_cases hlisted : q ∈ keptPlayers s p
      · exact List.mem_append_left _ hlisted
      · rw [List.length_append] at hroom
        exact List.mem_append_right _ (mem_additions_of_room hq hne hlisted hview hroom)
    · omega

/-- A player whose client is alive has a correct list after its update, and with an encryptor
the update succeeds. -/
theorem updatePlayer_listCorrect {client : Client}
    (hc : s.clients (s.players p).client = some client)
    (hnodup : (s.players p).localPlayers.Nodup) (hself : p ∉ (s.players p).localPlayers)
    (hlist : (s.players p).localPlayers.length ≤ 255) :
    (client.encryptor.isSome = true → ∃ s', updatePlayer s p = .ok s') ∧
      ∀ s', updatePlayer s p = .ok s' → ListCorrect (s.players p).localPlayers s' p := by
  constructor
  · intro he
    obtain ⟨cipher, he⟩ := Option.isSome_iff_exists.mp he
    exact exists_updatePlayer hc he hlist
  · intro s' hrun
    obtain ⟨cipher, he⟩ := encryptor_of_updatePlayer hc hrun
    obtain ⟨hsame, hregistered⟩ := sameButLists_of_updatePlayer hrun
    have hafter := updatePlayer_list hc he hlist hrun
    exact listCorrect_updatedList hnodup hself hlist hsame hregistered (by rw [hafter])

/-- The first of two players on one tile, who has the other one listed. -/
theorem updatePlayer_listCorrect_pair :
    ∃ s', updatePlayer (Server.crowd 1) 0 = .ok s' ∧ ListCorrect [1] s' 0 := by
  have hc : (Server.crowd 1).clients ((Server.crowd 1).players 0).client =
      some (Server.crowdClient 0) := rfl
  have h := updatePlayer_listCorrect hc (by decide) (by decide) (by decide)
  obtain ⟨s', hrun⟩ := h.1 rfl
  exact ⟨s', hrun, h.2 s' hrun⟩

end PlayerUpdating
end AsioRsps
