import AsioRsps.LabelledRuns
import AsioRsps.Registration

/-!
# Keys and frames of two threads

The frames of a login and those of a tick for the same client. A frame draws its key when it is
begun and is posted when it is finished, so the frames of two threads may be posted in another
order than their keys were drawn in, and an update that is abandoned takes its key with it.
-/
namespace AsioRsps
open BitStrings (Byte)
open StreamBuffer LabelledRuns

namespace FrameInterleaving

/-- A frame whose header has been written with the key of this number. -/
structure Begun where
  key : Nat
  opcode : Int
  header : Byte

/-- The client, the frames that `Login` has not posted yet, and what each thread is in the middle
of. The source keeps no record of the number of keys drawn, of the frames posted with the
numbers of their keys, and of the keys of abandoned frames. -/
structure Wire where
  client : Client
  login : List Client.OutFrame
  network : Option Begun := none
  world : Option Begun := none
  drawn : Nat := 0
  posted : List (Nat × Client.OutFrame) := []
  abandoned : List Nat := []

inductive WireEvent where
  | networkDraw
  | networkPost
  | worldDraw (opcode : Int)
  | worldPost (body : List Byte)
  | worldAbandon

/-- `Login` builds its frames in order. A tick builds map regions and updates, and `UpdatePlayer`
returns without sending its frame when the list is full. -/
inductive WireStep : Wire → WireEvent → Wire → Prop where
  | networkDraw {l : Wire} {f : Client.OutFrame} {fs : List Client.OutFrame}
      {cipher : ISAACCipher} : l.login = f :: fs → l.network = none →
      l.client.encryptor = some cipher → WireStep l .networkDraw
        { l with
          client := l.client.drawKey cipher
          network := some ⟨l.drawn, f.opcode, opcodeByte f.opcode cipher⟩
          drawn := l.drawn + 1 }
  | networkPost {l : Wire} {f : Client.OutFrame} {fs : List Client.OutFrame} {b : Begun} :
      l.login = f :: fs → l.network = some b → WireStep l .networkPost
        { l with
          client := { l.client with strand := l.client.strand ++ [.push (b.header :: f.body)] }
          login := fs
          network := none
          posted := l.posted ++ [(b.key, f)] }
  | worldDraw {l : Wire} {opcode : Int} {cipher : ISAACCipher} : opcode = 73 ∨ opcode = 81 →
      l.world = none → l.client.encryptor = some cipher → WireStep l (.worldDraw opcode)
        { l with
          client := l.client.drawKey cipher
          world := some ⟨l.drawn, opcode, opcodeByte opcode cipher⟩
          drawn := l.drawn + 1 }
  | worldPost {l : Wire} {body : List Byte} {b : Begun} : l.world = some b →
      WireStep l (.worldPost body)
        { l with
          client := { l.client with strand := l.client.strand ++ [.push (b.header :: body)] }
          world := none
          posted := l.posted ++ [(b.key, ⟨b.opcode, body⟩)] }
  | worldAbandon {l : Wire} {b : Begun} : l.world = some b → b.opcode = 81 →
      WireStep l .worldAbandon { l with world := none, abandoned := l.abandoned ++ [b.key] }

/-- Without interruption the frames of `Login` are sent one after the other. -/
theorem reachable_pushFrames (login : List Client.OutFrame) (l : Wire) {cipher : ISAACCipher}
    (hlogin : l.login = login) (hidle : l.network = none)
    (he : l.client.encryptor = some cipher) : ∃ l', Reachable WireStep l l' ∧
      l'.client = l.client.pushFrames cipher login ∧ l'.login = [] := by
  induction login generalizing l cipher with
  | nil => exact ⟨l, .start WireStep l, rfl, hlogin⟩
  | cons f fs ih =>
      have hdrawn := (Reachable.start WireStep l).snoc (.networkDraw hlogin hidle he)
      have hposted := hdrawn.snoc (.networkPost hlogin rfl)
      obtain ⟨l', hrest, hclient, hnil⟩ := ih { l with
        client := l.client.pushFrame cipher f
        login := fs
        network := none
        drawn := l.drawn + 1
        posted := l.posted ++ [(l.drawn, f)] } rfl rfl rfl
      exact ⟨l', hposted.trans hrest, hclient, hnil⟩

/-! ## What is on the wire -/

/-- The header of the frame is encrypted with the key of its number. -/
def Begun.Encrypted (b : Begun) (cipher : ISAACCipher) : Prop :=
  b.header = opcodeByte b.opcode (cipher.advance b.key)

/-- Every frame is encrypted with the key of its number, and the posted ones are on the
strand. -/
structure WireSound (client : Client) (cipher : ISAACCipher) (l : Wire) : Prop where
  encryptor : l.client.encryptor = some (cipher.advance l.drawn)
  strand : l.client.strand = client.strand ++
    l.posted.map fun (key, f) => .push (f.encrypt (cipher.advance key))
  network : ∀ b, l.network = some b → b.Encrypted cipher ∧
    ∃ f fs, l.login = f :: fs ∧ b.opcode = f.opcode
  world : ∀ b, l.world = some b → b.Encrypted cipher

theorem advance_succ_last (cipher : ISAACCipher) (n : Nat) :
    (cipher.advance n).getNextKey.2 = cipher.advance (n + 1) := by
  rw [ISAACCipher.advance_add]
  rfl

theorem WireSound.step {client : Client} {cipher : ISAACCipher} {l l' : Wire} {e : WireEvent}
    (h : WireSound client cipher l) (hs : WireStep l e l') : WireSound client cipher l' := by
  cases hs with
  | @networkDraw f fs cipher' hlogin hidle he =>
      obtain rfl := Option.some.inj (h.encryptor.symm.trans he)
      refine ⟨congrArg some (advance_succ_last cipher l.drawn), h.strand, fun b hb => ?_, h.world⟩
      obtain rfl := Option.some.inj hb
      exact ⟨rfl, f, fs, hlogin, rfl⟩
  | @networkPost f fs b hlogin hb =>
      obtain ⟨henc, f', fs', hlogin', hopcode⟩ := h.network b hb
      obtain ⟨rfl, rfl⟩ := List.cons_eq_cons.mp (hlogin.symm.trans hlogin')
      refine ⟨h.encryptor, ?_, fun b hb => (nomatch hb), h.world⟩
      have hframe : b.header :: f.body = f.encrypt (cipher.advance b.key) := by
        rw [henc, hopcode]
        rfl
      change l.client.strand ++ [.push (b.header :: f.body)] = _
      rw [h.strand, hframe, List.map_append, List.append_assoc]
      rfl
  | worldDraw _ _ he =>
      obtain rfl := Option.some.inj (h.encryptor.symm.trans he)
      refine ⟨congrArg some (advance_succ_last cipher l.drawn), h.strand, h.network, fun b hb => ?_⟩
      obtain rfl := Option.some.inj hb
      rfl
  | @worldPost body b hb =>
      refine ⟨h.encryptor, ?_, h.network, fun b hb => (nomatch hb)⟩
      have hframe : b.header :: body =
          Client.OutFrame.encrypt ⟨b.opcode, body⟩ (cipher.advance b.key) := by
        rw [h.world b hb]
        rfl
      change l.client.strand ++ [.push (b.header :: body)] = _
      rw [h.strand, hframe, List.map_append, List.append_assoc]
      rfl
  | worldAbandon _ _ => exact ⟨h.encryptor, h.strand, h.network, fun b hb => (nomatch hb)⟩

/-! ## The order of the keys -/

/-- The frame posted as number `n` carries the key of number `n`. -/
def Wire.KeysInOrder (l : Wire) : Prop := l.posted.map Prod.fst = List.range l.posted.length

def keyOf (begun : Option Begun) : List Nat := begun.toList.map Begun.key

/-- The keys of the frames begun and not posted. -/
def Wire.unposted (l : Wire) : List Nat := keyOf l.network ++ (keyOf l.world ++ l.abandoned)

/-- Every key drawn belongs to one frame. -/
def KeysDrawn (l : Wire) : Prop :=
  (l.posted.map Prod.fst ++ l.unposted).Perm (List.range l.drawn)

/-- A frame is posted while the other thread is not in the middle of one that it began earlier,
and no update begun earlier has been abandoned. -/
def Orderly (l : Wire) : WireEvent → Prop
  | .networkPost => ∀ b, l.network = some b →
      (∀ w, l.world = some w → b.key < w.key) ∧ ∀ k ∈ l.abandoned, b.key < k
  | .worldPost _ => ∀ b, l.world = some b →
      (∀ w, l.network = some w → b.key < w.key) ∧ ∀ k ∈ l.abandoned, b.key < k
  | _ => True

/-- Among the keys after the first `m`, the key `m` is the one that is below all the others. -/
theorem eq_iff_least {m n k : Nat} {others : List Nat}
    (h : (List.range m ++ k :: others).Perm (List.range n)) : k = m ↔ ∀ j ∈ others, k < j := by
  have hnodup := h.nodup_iff.mpr List.nodup_range
  have hdisjoint (j : Nat) (hj : j ∈ k :: others) : m ≤ j := by
    by_contra hlt
    exact (List.nodup_append.mp hnodup).2.2 j (List.mem_range.mpr (Nat.lt_of_not_le hlt)) j hj rfl
  have hothers : k ∉ others := (List.nodup_cons.mp (List.nodup_append.mp hnodup).2.1).1
  constructor
  · rintro rfl j hj
    refine Nat.lt_of_le_of_ne (hdisjoint j (List.mem_cons_of_mem _ hj)) ?_
    rintro rfl
    exact hothers hj
  · intro hleast
    have hlength := h.length_eq
    rw [List.length_append, List.length_range, List.length_range, List.length_cons] at hlength
    have hm : m ∈ List.range m ++ k :: others :=
      h.mem_iff.mpr (List.mem_range.mpr (by omega))
    rcases List.mem_append.mp hm with hlow | hhigh
    · exact absurd (List.mem_range.mp hlow) (Nat.lt_irrefl m)
    · rcases List.mem_cons.mp hhigh with heq | hmem
      · exact heq.symm
      · have hle := hdisjoint k List.mem_cons_self
        have hlt := hleast m hmem
        omega

/-- A frame leaves the unposted ones in order exactly when its key is the least of theirs. -/
theorem keysInOrder_post {l : Wire} (hdrawn : KeysDrawn l) (horder : l.KeysInOrder) {b : Begun}
    {f : Client.OutFrame} {others : List Nat} (hunposted : l.unposted.Perm (b.key :: others)) :
    (l.posted ++ [(b.key, f)]).map Prod.fst = List.range (l.posted ++ [(b.key, f)]).length ↔
      ∀ j ∈ others, b.key < j := by
  have hperm := (List.Perm.append_left (l.posted.map Prod.fst) hunposted.symm).trans hdrawn
  have horder' : l.posted.map Prod.fst = List.range l.posted.length := horder
  rw [horder'] at hperm
  rw [← eq_iff_least hperm, List.map_append, List.length_append, horder', List.length_singleton,
    List.range_succ]
  constructor
  · intro h
    exact List.singleton_inj.mp (List.append_cancel_left h)
  · intro h
    rw [← h]
    rfl

theorem mem_keyOf {begun : Option Begun} (P : Nat → Prop) :
    (∀ k ∈ keyOf begun, P k) ↔ ∀ w, begun = some w → P w.key := by
  cases begun with
  | none => exact ⟨fun _ _ hw => (nomatch hw), fun _ _ hk => (nomatch hk)⟩
  | some b =>
      constructor
      · intro h w hw
        obtain rfl := Option.some.inj hw
        exact h _ (List.mem_singleton_self _)
      · intro h k hk
        obtain rfl := List.mem_singleton.mp hk
        exact h b rfl

/-- One more key is drawn. -/
theorem perm_draw {posted rest rest' : List Nat} {n : Nat}
    (h : (posted ++ rest).Perm (List.range n))
    (hrest : rest'.Perm (n :: rest)) : (posted ++ rest').Perm (List.range (n + 1)) := by
  rw [List.range_succ]
  have hlast := (List.Perm.append_left posted hrest).trans List.perm_middle
  exact hlast.trans ((h.cons n).trans (List.perm_append_singleton n _).symm)

/-- One more frame is posted. -/
theorem perm_post {posted rest rest' : List Nat} {n k : Nat}
    (h : (posted ++ rest).Perm (List.range n)) (hrest : rest.Perm (k :: rest')) :
    (posted ++ [k] ++ rest').Perm (List.range n) := by
  rw [List.append_assoc]
  exact (List.Perm.append_left posted hrest.symm).trans h

theorem unposted_network {l : Wire} {b : Begun} (hb : l.network = some b) :
    l.unposted = b.key :: (keyOf l.world ++ l.abandoned) := by
  rw [Wire.unposted, hb]
  rfl

theorem unposted_world {l : Wire} {b : Begun} (hb : l.world = some b) :
    l.unposted.Perm (b.key :: (keyOf l.network ++ l.abandoned)) := by
  rw [Wire.unposted, hb]
  exact List.perm_middle

theorem KeysDrawn.step {l l' : Wire} {e : WireEvent} (h : KeysDrawn l) (hs : WireStep l e l') :
    KeysDrawn l' := by
  cases hs with
  | networkDraw _ hidle _ =>
      have hrest : l.unposted = keyOf l.world ++ l.abandoned := by
        rw [Wire.unposted, hidle]
        rfl
      exact perm_draw h (by rw [hrest]; exact .refl _)
  | networkPost _ hb =>
      rw [KeysDrawn, List.map_append]
      exact perm_post h (by rw [unposted_network hb]; exact .refl _)
  | worldDraw _ hidle _ =>
      have hrest : l.unposted = keyOf l.network ++ l.abandoned := by
        rw [Wire.unposted, hidle]
        rfl
      exact perm_draw h (by rw [hrest]; exact List.perm_middle)
  | worldPost hb =>
      rw [KeysDrawn, List.map_append]
      exact perm_post h (unposted_world hb)
  | @worldAbandon b hb _ =>
      refine (List.Perm.append_left _ ?_).trans h
      refine List.Perm.trans ?_ (unposted_world hb).symm
      change (keyOf l.network ++ (l.abandoned ++ [b.key])).Perm _
      rw [← List.append_assoc]
      exact List.perm_append_singleton _ _

/-- The order of the keys is kept by exactly the orderly steps. -/
theorem keysInOrder_step {l l' : Wire} {e : WireEvent} (hdrawn : KeysDrawn l)
    (horder : l.KeysInOrder) (hs : WireStep l e l') : l'.KeysInOrder ↔ Orderly l e := by
  cases hs with
  | networkDraw _ _ _ => exact iff_of_true horder trivial
  | @networkPost f fs b _ hb =>
      have hpost := keysInOrder_post (f := f) hdrawn horder (by rw [unposted_network hb])
      refine hpost.trans ?_
      rw [List.forall_mem_append, mem_keyOf]
      constructor
      · intro h b' hb'
        obtain rfl := Option.some.inj (hb.symm.trans hb')
        exact h
      · exact fun h => h b hb
  | worldDraw _ _ _ => exact iff_of_true horder trivial
  | @worldPost body b hb =>
      have hpost := keysInOrder_post (f := ⟨b.opcode, body⟩) hdrawn horder (unposted_world hb)
      refine hpost.trans ?_
      rw [List.forall_mem_append, mem_keyOf]
      constructor
      · intro h b' hb'
        obtain rfl := Option.some.inj (hb.symm.trans hb')
        exact h
      · exact fun h => h b hb
  | worldAbandon _ _ => exact iff_of_true horder trivial

/-- The frames on the strand are encrypted with the keys of their numbers, and these are in
order exactly when every step of the run is orderly. -/
theorem run_keysInOrder_iff {client : Client} {cipher : ISAACCipher} {position : Position}
    {trace : List (Taken Wire WireEvent)} {l : Wire} (he : client.encryptor = some cipher)
    (h : Run WireStep { client, login := Player.loginFrames position } trace l) :
    l.client.strand = client.strand ++
        l.posted.map (fun (key, f) => .push (f.encrypt (cipher.advance key))) ∧
      ((∀ t ∈ trace, t.after.KeysInOrder) ↔ ∀ t ∈ trace, Orderly t.before t.label) := by
  constructor
  · have hsound : WireSound client cipher { client, login := Player.loginFrames position } :=
      ⟨he, (List.append_nil _).symm, fun _ hb => (nomatch hb), fun _ hb => (nomatch hb)⟩
    exact (h.invariant hsound fun _ _ _ hl hs => hl.step hs).strand
  · exact h.holds_iff (P := KeysDrawn) (Q := Wire.KeysInOrder) (.refl _) rfl
      (fun _ _ _ hl hs => hl.step hs) fun _ _ _ hl horder hs => keysInOrder_step hl horder hs

def drawing : Client := { encryptor := some Server.crowdCipher }

/-- An update is begun while the first frame of the login is open, and posted after it. -/
theorem run_keysInOrder_overlapping : ∃ trace l,
    Run WireStep { client := drawing, login := Player.loginFrames { x := 3200, y := 3200 } } trace
      l ∧
    l.posted.length = 2 ∧ l.client.strand = drawing.strand ++
      l.posted.map (fun (key, f) => .push (f.encrypt (Server.crowdCipher.advance key))) ∧
    ∀ t ∈ trace, t.after.KeysInOrder := by
  have hstart : Run WireStep
    { client := drawing, login := Player.loginFrames { x := 3200, y := 3200 } } [] _ := .start
  have hdrawn := (hstart.snoc (.networkDraw rfl rfl rfl)).snoc (.worldDraw (.inr rfl) rfl rfl)
  have hrun := (hdrawn.snoc (.networkPost rfl rfl)).snoc (@WireStep.worldPost _ [] _ rfl)
  obtain ⟨hstrand, horder⟩ := run_keysInOrder_iff rfl hrun
  refine ⟨_, _, hrun, rfl, hstrand, horder.mpr ?_⟩
  refine forall_snoc (forall_snoc (forall_snoc (forall_snoc (forall_nil _) trivial) trivial)
    fun b hb => ?_) fun b hb => ?_
  · -- the login's frame has the key drawn first
    obtain rfl := Option.some.inj hb
    refine ⟨fun w hw => ?_, nofun⟩
    obtain rfl := Option.some.inj hw
    exact Nat.zero_lt_one
  · exact ⟨nofun, nofun⟩

/-- The update is begun after the map region and overtakes it. -/
theorem login_frame_overtaken : ∃ trace l,
    Run WireStep { client := drawing, login := Player.loginFrames { x := 3200, y := 3200 } } trace
      l ∧
    l.posted.map Prod.fst = [1, 0] ∧ ¬ l.KeysInOrder := by
  have hstart : Run WireStep
    { client := drawing, login := Player.loginFrames { x := 3200, y := 3200 } } [] _ := .start
  have hdrawn := (hstart.snoc (.networkDraw rfl rfl rfl)).snoc (.worldDraw (.inr rfl) rfl rfl)
  have hrun := (hdrawn.snoc (@WireStep.worldPost _ [] _ rfl)).snoc (.networkPost rfl rfl)
  refine ⟨_, _, hrun, rfl, fun horder => ?_⟩
  have hkeys : [1, 0] = List.range 2 := horder
  exact absurd hkeys (by decide)

end FrameInterleaving
end AsioRsps
