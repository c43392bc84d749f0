import AsioRsps.LabelledRuns
import AsioRsps.LoginRequest
import AsioRsps.MessageStreams
import AsioRsps.PacketLoop
import AsioRsps.UpdateRoundTrip
import AsioRsps.VariableFrames

/-!
# Conversations

The protocol of a connection as the client hears it, stated for itself: a greeting with a session
key, any number of refusals, an admission, and from then on frames whose opcodes are encrypted
with successive keys. The receiver is the client's side. As long as no key is skipped it gets
every message back, from however much of the stream has arrived.
-/
namespace AsioRsps
open BitStrings (Byte)
open StreamBuffer LabelledRuns MessageStreams PrefixReader
open PlayerUpdate (readByte takeBytes reads_byte reads_takeBytes shortBytes_natCast)

namespace Conversation

/-- A key is skipped when it has been drawn for a frame that is not sent. -/
inductive Message where
  | greeting (key : Word)
  | refusal
  | admission (r : LoginRequest)
  | frame (f : Client.OutFrame)
  | skip

/-- Once admitted, the server encrypts with a cipher that the request determines. -/
inductive Phase where
  | silent
  | greeted
  | playing (cipher : ISAACCipher)

/-- The frames of the protocol, with the sizes they announce. -/
inductive Framed : Client.OutFrame → Prop where
  | mapRegion (position : Position) : Framed (Client.mapRegionFrame position)
  | sidebar (menuId form : Int) : Framed (Client.sidebarFrame menuId form)
  | message {text : List Byte} : text.length ≤ 254 → Framed (Client.messageFrame text)
  | update {payload : List Byte} : payload.length < 2 ^ 16 →
      Framed ⟨81, shortBytes payload.length ++ payload⟩

def outCipher (r : LoginRequest) : ISAACCipher :=
  ISAACCipher.new (LoginHandler.seed r.clientHalf r.serverHalf 50)

inductive Speak : Phase → Message → Phase → Prop where
  | greeting (key : Word) : Speak .silent (.greeting key) .greeted
  | refusal : Speak .greeted .refusal .greeted
  | admission (r : LoginRequest) : Speak .greeted (.admission r) (.playing (outCipher r))
  | frame {f : Client.OutFrame} (cipher : ISAACCipher) : Framed f →
      Speak (.playing cipher) (.frame f) (.playing cipher.getNextKey.2)
  | skip (cipher : ISAACCipher) :
      Speak (.playing cipher) .skip (.playing cipher.getNextKey.2)

/-- Eight bytes the client ignores, the response zero, and the session key as a long. -/
def greetingBytes (key : Word) : List Byte :=
  longBytes (toInt32 0) ++ [0] ++ longBytes key.toInt

def encode : Phase → Message → List Byte
  | _, .greeting key => greetingBytes key
  | _, .refusal => LoginHandler.replyBytes LoginResponse.accountOnline
  | _, .admission _ => LoginHandler.replyBytes LoginResponse.ok
  | .playing cipher, .frame f => f.encrypt cipher
  | _, _ => []

/-- The buffers a message is sent in: one, or none for a key that is skipped. -/
def buffers (phase : Phase) : Message → List (List Byte)
  | .skip => []
  | m => [encode phase m]

/-- All the buffers of a conversation, in order. -/
def spoken (words : List (Taken Phase Message)) : List (List Byte) :=
  words.flatMap fun t => buffers t.before t.label

theorem spoken_append (words more : List (Taken Phase Message)) :
    spoken (words ++ more) = spoken words ++ spoken more := List.flatMap_append

/-! ## The receiver -/

/-- The low half of a long. -/
def readKey : Reader Byte Word := do
  let b3 ← readByte
  let b2 ← readByte
  let b1 ← readByte
  let b0 ← readByte
  return BitVec.ofNat 32 (16777216 * b3 + 65536 * b2 + 256 * b1 + b0)

/-- The bytes behind an opcode, as many as it stands for or as are announced. -/
def readBody (opcode : Int) : Reader Byte (List Byte) :=
  if opcode = 73 then takeBytes 4
  else if opcode = 71 then takeBytes 3
  else if opcode = 253 then do
    let size ← readByte
    let payload ← takeBytes size
    return BitVec.ofNat 8 size :: payload
  else if opcode = 81 then do
    let high ← readByte
    let low ← readByte
    let payload ← takeBytes (256 * high + low)
    return BitVec.ofNat 8 high :: BitVec.ofNat 8 low :: payload
  else failure

def readResponse (r : LoginRequest) : Reader Byte Message := do
  let response ← readByte
  if response = 2 then do
    let _ ← takeBytes 2
    return .admission r
  else if response = 5 then return .refusal
  else failure

/-- The client reads with the cipher of its own request. -/
def hear (r : LoginRequest) : Phase → Reader Byte Message
  | .silent => do
      let _ ← takeBytes 13
      let key ← readKey
      return .greeting key
  | .greeted => readResponse r
  | .playing cipher => do
      let raw ← readByte
      let opcode := Client.openOpcode cipher (BitVec.ofNat 8 raw)
      let body ← readBody opcode
      return .frame ⟨opcode, body⟩

theorem delimits_byte (b : Byte) : Delimits readByte [b] b.toNat where
  reads := reads_byte b
  waits us h := by
    rcases List.prefix_cons_iff.mp h.1 with rfl | ⟨us', rfl, hus'⟩
    · rfl
    · rw [List.prefix_nil] at hus'
      exact absurd (congrArg (b :: ·) hus') h.2

theorem delimits_bytes (bytes : List Byte) : Delimits (takeBytes bytes.length) bytes bytes where
  reads := reads_takeBytes bytes
  waits us h := by
    have hlt : us.length < bytes.length :=
      lt_of_le_of_ne h.1.length_le fun heq => h.2 (h.1.eq_of_length heq)
    exact if_neg (Nat.not_le.mpr hlt)

/-- The bytes of a word are those of its pattern. -/
theorem toNat_toByte_shift {w : Nat} (x : BitVec w) {k : Nat} (hk : k + 8 ≤ w) :
    (toByte (x.toInt >>> k)).toNat = x.toNat / 2 ^ k % 256 := by
  obtain ⟨q, hq⟩ : ∃ q : Int, x.toInt = x.toNat + q * 2 ^ (w - (k + 8)) * 256 * 2 ^ k := by
    have hpow : (2 : Int) ^ (w - (k + 8)) * 256 * 2 ^ k = 2 ^ w := by
      rw [show (256 : Int) = 2 ^ 8 from rfl, ← pow_add, ← pow_add]
      congr 1
      omega
    have hsigned := BitVec.toInt_eq_toNat_cond x
    split at hsigned
    · exact ⟨0, by rw [hsigned]; simp⟩
    · refine ⟨-1, ?_⟩
      rw [mul_assoc, mul_assoc, ← mul_assoc (2 ^ (w - (k + 8))), hpow, hsigned]
      simp [sub_eq_add_neg]
  have hpos : (2 : Int) ^ k ≠ 0 := pow_ne_zero k two_ne_zero
  rw [toByte, BitVec.toNat_ofInt, Int.shiftRight_eq_div_pow, hq]
  push_cast
  rw [Int.add_mul_ediv_right _ _ hpos, Int.add_mul_emod_self_right]
  norm_cast

theorem delimits_key (key : Word) : Delimits readKey ((longBytes key.toInt).drop 4) key := by
  have hdrop : (longBytes key.toInt).drop 4 =
      [toByte (key.toInt >>> (24 : Nat))] ++ ([toByte (key.toInt >>> (16 : Nat))] ++
        ([toByte (key.toInt >>> (8 : Nat))] ++ ([toByte key.toInt] ++ []))) := rfl
  have hvalue : BitVec.ofNat 32 (16777216 * (toByte (key.toInt >>> (24 : Nat))).toNat +
      65536 * (toByte (key.toInt >>> (16 : Nat))).toNat +
      256 * (toByte (key.toInt >>> (8 : Nat))).toNat + (toByte key.toInt).toNat) = key := by
    have hlow := toNat_toByte_shift key (show 0 + 8 ≤ 32 by decide)
    rw [Int.shiftRight_zero, pow_zero, Nat.div_one] at hlow
    rw [toNat_toByte_shift key (by decide), toNat_toByte_shift key (by decide),
      toNat_toByte_shift key (by decide), hlow]
    have hlt := key.isLt
    apply BitVec.eq_of_toNat_eq
    rw [BitVec.toNat_ofNat]
    omega
  rw [hdrop]
  refine (delimits_byte _).bind ((delimits_byte _).bind ((delimits_byte _).bind
    ((delimits_byte _).bind ?_)))
  rw [hvalue]
  exact delimits_pure key

theorem ofNat_toNat (b : Byte) : BitVec.ofNat 8 b.toNat = b := by
  rw [BitVec.ofNat_toNat, BitVec.setWidth_eq]

theorem delimits_body {f : Client.OutFrame} (h : Framed f) :
    Delimits (readBody f.opcode) f.body f.body := by
  cases h with
  | mapRegion position => exact delimits_bytes (Client.mapRegionFrame position).body
  | sidebar menuId form => exact delimits_bytes (Client.sidebarFrame menuId form).body
  | @message text hlen =>
      have hsize : (toByte ((text.length : Int) + 1)).toNat = (text ++ [10]).length := by
        rw [← Nat.cast_succ, toByte_natCast_toNat, List.length_append, List.length_singleton]
        omega
      have hread := (delimits_byte (toByte ((text.length : Int) + 1))).bind
        (f := fun size => takeBytes size >>= fun payload =>
          pure (BitVec.ofNat 8 size :: payload))
        (by rw [hsize]; exact (delimits_bytes (text ++ [10])).map _)
      rw [← hsize, ofNat_toNat] at hread
      exact hread
  | @update payload hlen =>
      obtain ⟨high, low, hbytes, hsize⟩ := shortBytes_natCast hlen
      have hread := (delimits_byte high).bind
        (f := fun high => readByte >>= fun low => takeBytes (256 * high + low) >>= fun payload =>
          pure (BitVec.ofNat 8 high :: BitVec.ofNat 8 low :: payload))
        ((delimits_byte low).bind (by rw [← hsize]; exact (delimits_bytes payload).map _))
      rw [ofNat_toNat, ofNat_toNat] at hread
      dsimp only
      rw [hbytes]
      exact hread

theorem framed_opcode {f : Client.OutFrame} (h : Framed f) : 0 ≤ f.opcode ∧ f.opcode < 256 := by
  have hopcode : f.opcode = 73 ∨ f.opcode = 71 ∨ f.opcode = 253 ∨ f.opcode = 81 := by
    cases h with
    | mapRegion _ => exact .inl rfl
    | sidebar _ _ => exact .inr (.inl rfl)
    | message _ => exact .inr (.inr (.inl rfl))
    | update _ => exact .inr (.inr (.inr rfl))
  omega

/-! ## What is heard -/

def Phase.next : Phase → Message → Phase
  | _, .greeting _ => .greeted
  | _, .admission r => .playing (outCipher r)
  | .playing cipher, _ => .playing cipher.getNextKey.2
  | phase, _ => phase

theorem Speak.next {phase phase' : Phase} {m : Message} (h : Speak phase m phase') :
    phase' = phase.next m := by
  cases h <;> rfl

/-- What the client of a request can make out. -/
structure Audible (r : LoginRequest) (phase : Phase) (m : Message) : Prop where
  speak : Speak phase m (phase.next m)
  unbroken : m ≠ .skip
  own : ∀ r', m = .admission r' → r' = r

/-- What a greeting has in front of the low half of its key. -/
def ignoredBytes (key : Word) : List Byte :=
  longBytes (toInt32 0) ++ [0] ++ (longBytes key.toInt).take 4

theorem greetingBytes_eq (key : Word) :
    greetingBytes key = ignoredBytes key ++ (longBytes key.toInt).drop 4 := by
  rw [greetingBytes, ignoredBytes, List.append_assoc _ (List.take ..), List.take_append_drop]

theorem delimits_hear {r : LoginRequest} {phase : Phase} {m : Message} (h : Audible r phase m) :
    Delimits (hear r phase) (encode phase m) m := by
  obtain ⟨hspeak, hskip, hown⟩ := h
  generalize phase.next m = phase' at hspeak
  cases hspeak with
  | greeting key =>
      rw [encode, greetingBytes_eq]
      exact (delimits_bytes (ignoredBytes key)).bind ((delimits_key key).map Message.greeting)
  | refusal => exact (delimits_byte 5).bind (delimits_pure _)
  | admission r' =>
      obtain rfl := hown r' rfl
      exact (delimits_byte 2).bind ((delimits_bytes [0, 0]).map fun _ => Message.admission r')
  | @frame f cipher hframed =>
      obtain ⟨h0, h256⟩ := framed_opcode hframed
      have hread := (delimits_byte (opcodeByte f.opcode cipher)).bind
        (f := fun raw => readBody (Client.openOpcode cipher (BitVec.ofNat 8 raw)) >>= fun body =>
          pure (Message.frame ⟨Client.openOpcode cipher (BitVec.ofNat 8 raw), body⟩))
        (by
          rw [ofNat_toNat, Client.openOpcode_opcodeByte cipher h0 h256]
          exact (delimits_body hframed).map _)
      exact hread
  | skip => exact absurd rfl hskip

theorem encode_ne_nil {r : LoginRequest} {phase : Phase} {m : Message} (h : Audible r phase m) :
    encode phase m ≠ [] := by
  obtain ⟨hspeak, hskip, -⟩ := h
  generalize phase.next m = phase' at hspeak
  cases hspeak with
  | skip => exact absurd rfl hskip
  | _ => exact List.cons_ne_nil _ _

/-- The protocol as the client of a request follows it. -/
def protocol (r : LoginRequest) : Protocol Phase Message Byte where
  encode := encode
  next := Phase.next
  reader := hear r
  legal := Audible r
  delimits _ _ := delimits_hear
  encode_ne_nil _ _ := encode_ne_nil
  reader_nil phase := by cases phase <;> rfl

/-- No key is skipped, and the client is admitted on the request it reads with. -/
structure Clear (r : LoginRequest) (words : List (Taken Phase Message)) : Prop where
  unbroken : ∀ t ∈ words, t.label ≠ .skip
  own : ∀ t ∈ words, ∀ r', t.label = .admission r' → r' = r

def messages (words : List (Taken Phase Message)) : List Message := words.map (·.label)

theorem buffers_eq {phase : Phase} {m : Message} (hskip : m ≠ .skip) :
    buffers phase m = [encode phase m] := by
  cases m with
  | skip => exact absurd rfl hskip
  | _ => rfl

/-- A clear conversation is one of the client's protocol, and its buffers are the encoding of its
messages. -/
theorem run_audible {r : LoginRequest} {words : List (Taken Phase Message)} {phase : Phase}
    (h : Run Speak .silent words phase) (hclear : Clear r words) :
    (protocol r).Legal .silent (messages words) ∧
      (protocol r).encodeAll .silent (messages words) = (spoken words).flatten ∧
      (protocol r).state .silent (messages words) = phase := by
  induction h with
  | start => exact ⟨trivial, rfl, rfl⟩
  | @snoc words phase phase' m _ hspeak ih =>
      have hlast : (⟨phase, m, phase'⟩ : Taken Phase Message) ∈ words ++ [⟨phase, m, phase'⟩] :=
        List.mem_append_right _ List.mem_cons_self
      have hskip := hclear.unbroken _ hlast
      obtain ⟨hlegal, hencode, hstate⟩ :=
        ih ⟨fun t ht => hclear.unbroken t (List.mem_append_left _ ht),
          fun t ht => hclear.own t (List.mem_append_left _ ht)⟩
      have hmessages : messages (words ++ [⟨phase, m, phase'⟩]) = messages words ++ [m] :=
        List.map_append
      have hnext := hspeak.next
      rw [hmessages, Protocol.legal_append, Protocol.encodeAll_append, hstate, hencode]
      refine ⟨⟨hlegal, ⟨hnext ▸ hspeak, hskip, hclear.own _ hlast⟩, trivial⟩, ?_, ?_⟩
      · have hbuffers : spoken [⟨phase, m, phase'⟩] = [encode phase m] :=
          (List.append_nil _).trans (buffers_eq hskip)
        rw [spoken_append, List.flatten_append, hbuffers, List.flatten_singleton]
        exact congrArg ((spoken words).flatten ++ ·) (List.append_nil _)
      · rw [Protocol.state, List.foldl_append]
        change ((protocol r).state .silent (messages words)).next m = _
        rw [hstate, ← hnext]

/-- From the bytes that have arrived the receiver gets exactly the messages that are whole. -/
theorem run_received {r : LoginRequest} {words : List (Taken Phase Message)} {phase : Phase}
    (h : Run Speak .silent words phase) (hclear : Clear r words) {bytes : List Byte}
    (hbytes : bytes <+: (spoken words).flatten) : ∃ got later left,
      messages words = got ++ later ∧
      (protocol r).receive bytes.length .silent bytes = (got, left) ∧
      (protocol r).Pending ((protocol r).state .silent got) left later := by
  obtain ⟨hlegal, hencode, -⟩ := run_audible h hclear
  rw [← hencode] at hbytes
  obtain ⟨got, later, left, hsplit, hreceive, -, hpending⟩ :=
    Protocol.receive_prefix hlegal hbytes
  exact ⟨got, later, left, hsplit, hreceive, hpending⟩

/-- What may be said before the admission. -/
inductive Message.Early : Message → Prop where
  | greeting (key : Word) : Early (.greeting key)
  | refusal : Early .refusal

theorem run_early {words : List (Taken Phase Message)} {phase : Phase}
    (h : Run Speak .silent words phase) (hphase : ∀ cipher, phase ≠ .playing cipher) :
    ∀ t ∈ words, t.label.Early := by
  induction h with
  | start => exact forall_nil _
  | snoc _ hspeak ih =>
      cases hspeak with
      | greeting key => exact forall_snoc (ih fun _ h => by cases h) (.greeting key)
      | refusal => exact forall_snoc (ih fun _ h => by cases h) .refusal
      | admission r => exact absurd rfl (hphase _)
      | frame cipher _ => exact absurd rfl (hphase _)
      | skip cipher => exact absurd rfl (hphase _)

/-- A conversation that is not yet playing is clear to anybody. -/
theorem clear_of_early {words : List (Taken Phase Message)} (h : ∀ t ∈ words, t.label.Early)
    (r : LoginRequest) : Clear r words := by
  refine ⟨fun t ht hskip => ?_, fun t ht r' hr' => ?_⟩
  · have hearly := h t ht
    rw [hskip] at hearly
    cases hearly
  · have hearly := h t ht
    rw [hr'] at hearly
    cases hearly

/-- Whoever has been admitted on its own request has heard everything so far. -/
theorem run_admitted {words : List (Taken Phase Message)} (h : Run Speak .silent words .greeted)
    (r : LoginRequest) : (protocol r).Legal .silent (messages words ++ [.admission r]) ∧
      (protocol r).encodeAll .silent (messages words ++ [.admission r]) =
        (spoken words ++ [LoginHandler.replyBytes LoginResponse.ok]).flatten ∧
      (protocol r).state .silent (messages words ++ [.admission r]) = .playing (outCipher r) := by
  have hearly := run_early h fun _ h => by cases h
  have hold := clear_of_early hearly r
  have hclear : Clear r (words ++ [⟨.greeted, .admission r, .playing (outCipher r)⟩]) := by
    refine ⟨forall_snoc hold.unbroken fun h => ?_, forall_snoc hold.own fun r' h => ?_⟩
    · cases h
    · exact (Message.admission.inj h).symm
  have haudible := run_audible (h.snoc (.admission r)) hclear
  rwa [messages, List.map_append, spoken_append] at haudible

/-- Nobody is admitted twice. -/
theorem exists_own {words : List (Taken Phase Message)} {phase : Phase}
    (h : Run Speak .silent words phase) :
    ∃ r, ∀ t ∈ words, ∀ r', t.label = .admission r' → r' = r := by
  induction h with
  | start => exact ⟨⟨0, 0, []⟩, forall_nil _⟩
  | snoc hrun hspeak ih =>
      obtain ⟨r, hown⟩ := ih
      cases hspeak with
      | admission r' =>
          have hearly := run_early hrun fun _ h => by cases h
          exact ⟨r', forall_snoc (clear_of_early hearly r').own
            fun r₁ hr₁ => (Message.admission.inj hr₁).symm⟩
      | _ =>
          refine ⟨r, forall_snoc hown ?_⟩
          intro _ h
          cases h

/-- Frames can be heard one after another. -/
theorem legal_frames (r : LoginRequest) {frames : List Client.OutFrame}
    (h : ∀ f ∈ frames, Framed f) (cipher : ISAACCipher) :
    (protocol r).Legal (.playing cipher) (frames.map .frame) ∧
      (protocol r).encodeAll (.playing cipher) (frames.map .frame) =
        (Client.encryptAll cipher frames).flatten ∧
      (protocol r).state (.playing cipher) (frames.map .frame) =
        .playing (cipher.advance frames.length) := by
  induction frames generalizing cipher with
  | nil => exact ⟨trivial, rfl, rfl⟩
  | cons f frames ih =>
      have hfirst : Audible r (.playing cipher) (.frame f) := by
        refine ⟨.frame cipher (h f List.mem_cons_self), fun hskip => ?_, fun r' hr' => ?_⟩
        · cases hskip
        · cases hr'
      obtain ⟨hlegal, hencode, hstate⟩ :=
        ih (fun g hg => h g (List.mem_cons_of_mem _ hg)) cipher.getNextKey.2
      exact ⟨⟨hfirst, hlegal⟩, congrArg (f.encrypt cipher ++ ·) hencode, hstate⟩

/-- A conversation goes on with more frames. -/
theorem legal_push {r : LoginRequest} {ms : List Message} {cipher : ISAACCipher}
    {frames : List Client.OutFrame} (hlegal : (protocol r).Legal .silent ms)
    (hstate : (protocol r).state .silent ms = .playing cipher) (h : ∀ f ∈ frames, Framed f) :
    (protocol r).Legal .silent (ms ++ frames.map .frame) ∧
      (protocol r).encodeAll .silent (ms ++ frames.map .frame) =
        (protocol r).encodeAll .silent ms ++ (Client.encryptAll cipher frames).flatten ∧
      (protocol r).state .silent (ms ++ frames.map .frame) =
        .playing (cipher.advance frames.length) := by
  obtain ⟨hframes, hencode, hadvanced⟩ := legal_frames r h cipher
  rw [Protocol.legal_append, Protocol.encodeAll_append, Protocol.state_append, hstate, hencode]
  exact ⟨⟨hlegal, hframes⟩, rfl, hadvanced⟩

end Conversation
end AsioRsps
