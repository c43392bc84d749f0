import AsioRsps.ConversationRuns
import AsioRsps.LoginSegmentation
import AsioRsps.TypedFields
import Mathlib.Data.Nat.Digits.Defs

/-!
# Login forms

What a client has to send to be let in, stated as a form with its fields. A login is answered
exactly when the bytes of such a form have been read, with the name and the keys that are in it;
a client that sends anything else is cut off.
-/
namespace AsioRsps
open BitStrings (Byte)
open LabelledRuns StreamBuffer
open Conversation (toNat_toByte_shift)

namespace StreamBuffer

/-! ## Languages of readers -/

/-- The computation returns where one of its words stands in front, and takes the word. -/
def Parses {α : Type} (m : StreamM α) (words : List Byte → α → Prop) : Prop :=
  ∀ b a b', m b = .ok a b' ↔
    ∃ word tail, words word a ∧ b.rest = word ++ tail ∧ b' = b.skip word.length

theorem bind_eq_ok_iff {α β : Type} {m : StreamM α} {f : α → StreamM β} {b b'' : StreamBuffer}
    {c : β} : (m >>= f) b = .ok c b'' ↔ ∃ a b', m b = .ok a b' ∧ f a b' = .ok c b'' := by
  constructor
  · exact bind_inv
  · rintro ⟨a, b', hm, hf⟩
    rw [bind_ok hm, hf]

theorem rest_skip_word {b : StreamBuffer} {word tail : List Byte} (h : b.rest = word ++ tail) :
    (b.skip word.length).rest = tail := by
  rw [rest_skip, h, List.drop_left]

theorem parses_pure {α : Type} (a : α) : Parses (pure a) fun word a' => word = [] ∧ a = a' := by
  intro b a' b'
  constructor
  · intro h
    obtain ⟨rfl, rfl⟩ := EStateM.Result.ok.inj h
    exact ⟨[], b.rest, ⟨rfl, rfl⟩, rfl, rfl⟩
  · rintro ⟨_, tail, ⟨rfl, rfl⟩, -, rfl⟩
    rfl

/-- Words of one reader behind words of another. -/
theorem Parses.bind {α β : Type} {m : StreamM α} {f : α → StreamM β}
    {words : List Byte → α → Prop} {more : α → List Byte → β → Prop} (hm : Parses m words)
    (hf : ∀ a, Parses (f a) (more a)) : Parses (m >>= f) fun word c =>
      ∃ u a v, words u a ∧ more a v c ∧ word = u ++ v := by
  intro b c b''
  rw [bind_eq_ok_iff]
  constructor
  · rintro ⟨a, b', hrun, hrun'⟩
    obtain ⟨u, tail, hu, hrest, rfl⟩ := (hm b a b').mp hrun
    obtain ⟨v, tail', hv, hrest', rfl⟩ := (hf a _ c b'').mp hrun'
    refine ⟨u ++ v, tail', ⟨u, a, v, hu, hv, rfl⟩, ?_, ?_⟩
    · rw [hrest, ← rest_skip_word hrest, hrest', List.append_assoc]
    · rw [skip_skip, List.length_append]
  · rintro ⟨_, tail, ⟨u, a, v, hu, hv, rfl⟩, hrest, rfl⟩
    rw [List.append_assoc] at hrest
    refine ⟨a, _, (hm b a _).mpr ⟨u, v ++ tail, hu, hrest, rfl⟩, (hf a _ c _).mpr ?_⟩
    exact ⟨v, tail, hv, rest_skip_word hrest, by rw [skip_skip, List.length_append]⟩

theorem Parses.ite {α : Type} {p : Prop} [Decidable p] {m m' : StreamM α}
    {words words' : List Byte → α → Prop} (h : Parses m words) (h' : Parses m' words') :
    Parses (if p then m else m') fun word a => if p then words word a else words' word a := by
  split
  · exact h
  · exact h'

/-- A reader whose result is not looked at. -/
theorem Takes.parses_bind {α β : Type} {m : StreamM α} {k : Nat} {value : List Byte → α}
    (hm : Takes m k value) {m' : StreamM β} {words : List Byte → β → Prop} (h : Parses m' words) :
    Parses (m >>= fun _ => m') fun word c =>
      ∃ u v, u.length = k ∧ words v c ∧ word = u ++ v := by
  have htakes : Parses (m >>= fun _ => pure ()) fun word _ => word.length = k := by
    intro b _ b'
    constructor
    · intro hrun
      obtain ⟨a, b₁, hread, hpure⟩ := bind_eq_ok_iff.mp hrun
      obtain ⟨-, rfl⟩ := EStateM.Result.ok.inj hpure
      by_cases hk : k ≤ b.rest.length
      · obtain ⟨-, rfl⟩ := EStateM.Result.ok.inj ((hm.ok b hk).symm.trans hread)
        have hlength := List.length_take_of_le hk
        exact ⟨b.rest.take k, b.rest.drop k, hlength, (List.take_append_drop k _).symm,
          by rw [hlength]⟩
      · obtain ⟨e, b₂, herror⟩ := hm.error b (Nat.lt_of_not_le hk)
        cases herror.symm.trans hread
    · rintro ⟨word, tail, rfl, hrest, rfl⟩
      rw [bind_ok (hm.ok b (by rw [hrest, List.length_append]; exact Nat.le_add_right ..))]
      rfl
  have hbind := htakes.bind fun _ => h
  rw [bind_assoc] at hbind
  simp only [pure_bind] at hbind
  intro b c b'
  rw [hbind b c b']
  refine exists_congr fun word => exists_congr fun tail => and_congr_left fun _ => ?_
  exact ⟨fun ⟨u, _, v, hu, hv, hword⟩ => ⟨u, v, hu, hv, hword⟩,
    fun ⟨u, v, hu, hv, hword⟩ => ⟨u, (), v, hu, hv, hword⟩⟩

/-! ## Fields -/

theorem parses_readByte : Parses readByte fun word a =>
    ∃ x, word = [x] ∧ a = readValue true .standard x := by
  intro b a b'
  constructor
  · intro hrun
    cases hrest : b.rest with
    | nil => cases (readByte_nil hrest true .standard).symm.trans hrun
    | cons x xs =>
        obtain ⟨rfl, rfl⟩ :=
          EStateM.Result.ok.inj ((readByte_cons hrest true .standard).symm.trans hrun)
        exact ⟨[x], xs, ⟨x, rfl, rfl⟩, rfl, rfl⟩
  · rintro ⟨_, tail, ⟨x, rfl, rfl⟩, hrest, rfl⟩
    exact readByte_cons hrest true .standard

/-- A reader of a fixed size whose result depends on nothing behind. -/
theorem Takes.parses {α : Type} {m : StreamM α} {k : Nat} {value : List Byte → α}
    (hm : Takes m k value) {words : List Byte → α → Prop}
    (hlength : ∀ word a, words word a → word.length = k)
    (hvalue : ∀ word tail, word.length = k → ∀ a, words word a ↔ value (word ++ tail) = a) :
    Parses m words := by
  intro b a b'
  constructor
  · intro hrun
    by_cases hk : k ≤ b.rest.length
    · obtain ⟨hfound, rfl⟩ := EStateM.Result.ok.inj ((hm.ok b hk).symm.trans hrun)
      have htaken := List.length_take_of_le hk
      refine ⟨b.rest.take k, b.rest.drop k, (hvalue _ (b.rest.drop k) htaken a).mpr ?_,
        (List.take_append_drop k _).symm, by rw [htaken]⟩
      rw [List.take_append_drop, hfound]
    · obtain ⟨e, b₂, herror⟩ := hm.error b (Nat.lt_of_not_le hk)
      cases herror.symm.trans hrun
  · rintro ⟨word, tail, hword, hrest, rfl⟩
    have hword' := hlength word a hword
    rw [hm.ok b (by rw [hrest, List.length_append, hword']; exact Nat.le_add_right ..), hrest,
      (hvalue word tail hword' a).mp hword, hword']

theorem parses_readShort : Parses readShort fun word a =>
    ∃ x y, word = [x, y] ∧ a = 256 * x.toNat + y.toNat := by
  obtain ⟨value, htakes, hvalue⟩ := takes_readShort
  apply htakes.parses
  · rintro _ a ⟨x, y, rfl, -⟩
    rfl
  · intro word tail hlength a
    obtain ⟨x, y, rfl⟩ := List.length_eq_two.mp hlength
    simp only [List.cons_append, List.nil_append, hvalue, List.cons.injEq, and_true]
    constructor
    · rintro ⟨x', y', ⟨rfl, rfl⟩, rfl⟩
      rfl
    · rintro rfl
      exact ⟨x, y, ⟨rfl, rfl⟩, rfl⟩

theorem toNat_lt_256 (bytes : List Byte) : ∀ d ∈ bytes.map BitVec.toNat, d < 256 := by
  intro d hd
  obtain ⟨c, -, rfl⟩ := List.mem_map.mp hd
  exact c.isLt

/-- A byte of a word that is written as its bytes, the lowest first. -/
theorem toByte_ofDigits {x : BitVec 64} {bytes rest : List Byte} {b : Byte} {i : Nat}
    (hx : x.toNat = Nat.ofDigits 256 (bytes.map BitVec.toNat)) (hi : i < 8)
    (hb : bytes.drop i = b :: rest) : toByte (x.toInt >>> (8 * i)) = b := by
  apply BitVec.eq_of_toNat_eq
  rw [toNat_toByte_shift x (by omega), hx, pow_mul, show 2 ^ 8 = 256 from rfl,
    Nat.ofDigits_div_pow_eq_ofDigits_drop i (by decide) _ (toNat_lt_256 bytes), ← List.map_drop, hb,
    List.map_cons, Nat.ofDigits_cons, Nat.add_mul_mod_self_left, Nat.mod_eq_of_lt b.isLt]

/-- Every eight bytes are those of a long. -/
theorem exists_longBytes {word : List Byte} (h : word.length = 8) :
    ∃ x : BitVec 64, longBytes x.toInt = word := by
  match word, h with
  | [b₁, b₂, b₃, b₄, b₅, b₆, b₇, b₈], _ =>
      obtain ⟨bytes, hbytes⟩ : ∃ bytes, bytes = [b₈, b₇, b₆, b₅, b₄, b₃, b₂, b₁] := ⟨_, rfl⟩
      obtain ⟨x, hx⟩ : ∃ x : BitVec 64, x.toNat = Nat.ofDigits 256 (bytes.map BitVec.toNat) := by
        have hlt := Nat.ofDigits_lt_base_pow_length (show 1 < 256 by decide)
          (toNat_lt_256 bytes)
        rw [List.length_map, hbytes, show 256 ^ [b₈, b₇, b₆, b₅, b₄, b₃, b₂, b₁].length = 2 ^ 64
          from by norm_num] at hlt
        exact ⟨.ofNat 64 _, (BitVec.toNat_ofNat ..).trans (Nat.mod_eq_of_lt (hbytes ▸ hlt))⟩
      have hbyte {b : Byte} {rest : List Byte} (i : Fin 8)
          (hb : [b₈, b₇, b₆, b₅, b₄, b₃, b₂, b₁].drop i = b :: rest) :
          toByte (x.toInt >>> (8 * i.val)) = b := toByte_ofDigits hx i.isLt (hbytes ▸ hb)
      have hlow : toByte x.toInt = b₈ := by
        rw [← hbyte 0 rfl, Fin.val_zero, Nat.mul_zero, Int.shiftRight_zero]
      refine ⟨x, ?_⟩
      simp only [longBytes, List.cons.injEq, and_true]
      exact ⟨hbyte 7 rfl, hbyte 6 rfl, hbyte 5 rfl, hbyte 4 rfl, hbyte 3 rfl, hbyte 2 rfl,
        hbyte 1 rfl, hlow⟩

theorem parses_readLong : Parses readLong fun word a =>
    ∃ x : BitVec 64, word = longBytes x.toInt ∧ a = x.toInt := by
  obtain ⟨value, htakes⟩ := takes_readLong
  have hvalue (x : BitVec 64) (tail : List Byte) :
      value (longBytes x.toInt ++ tail) = x.toInt := by
    have hread := readsBytes_longField x.toInt .standard (.inl rfl : ByteOrder.big = _ ∨ _)
      (ofData (longBytes x.toInt ++ tail)) tail rfl
    have htaken := htakes.ok (ofData (longBytes x.toInt ++ tail))
      (Nat.le_add_left 8 tail.length)
    obtain ⟨hsame, -⟩ := EStateM.Result.ok.inj (htaken.symm.trans hread)
    have hback : toInt64 (x.toInt % 18446744073709551616) = x.toInt := by
      rw [toInt64, show (18446744073709551616 : Int) = (2 ^ 64 : Nat) from rfl, ofInt_emod,
        BitVec.ofInt_toInt]
    rw [hback] at hsame
    exact hsame
  apply htakes.parses
  · rintro _ a ⟨x, rfl, -⟩
    rfl
  · intro word tail hlength a
    obtain ⟨x, rfl⟩ := exists_longBytes hlength
    rw [hvalue]
    constructor
    · rintro ⟨y, hbytes, rfl⟩
      rw [← hvalue x [], ← hvalue y [], hbytes]
    · rintro rfl
      exact ⟨x, rfl, rfl⟩

theorem parses_readString : Parses readString fun word a =>
    word = a ++ [10] ∧ 10 ∉ a ∧ a.length ≤ 1024 := by
  intro b a b'
  constructor
  · intro hrun
    have hends : EndsBy (readString >>= pure) b b'.pos := ⟨a, b', by rw [bind_pure, hrun], le_rfl⟩
    obtain ⟨line, tail, hrest, hline, hshort, -⟩ := endsBy_readString_bind.mp hends
    have hrest' : b.rest = line ++ [10] ++ tail := by rw [hrest, List.append_cons]
    have hread := readsBytes_string hline hshort b tail hrest'
    obtain ⟨rfl, rfl⟩ := EStateM.Result.ok.inj (hread.symm.trans hrun)
    exact ⟨line ++ [10], tail, ⟨rfl, hline, hshort⟩, hrest', rfl⟩
  · rintro ⟨_, tail, ⟨rfl, hline, hshort⟩, hrest, rfl⟩
    exact readsBytes_string hline hshort b tail hrest

end StreamBuffer

/-! ## Forms -/

/-- What is read of a login block behind its version. -/
structure LoginKeys where
  memory : Byte
  nineInts : List Byte
  rsaLength : Byte
  clientHalf : BitVec 64
  serverHalf : BitVec 64
  userId : List Byte
  username : Name
  password : Name
  nineInts_length : nineInts.length = 36
  userId_length : userId.length = 4
  username_line : 10 ∉ username
  username_short : username.length ≤ 1024
  password_line : 10 ∉ password
  password_short : password.length ≤ 1024

namespace LoginKeys

def bytes (keys : LoginKeys) : List Byte :=
  keys.memory :: (keys.nineInts ++ keys.rsaLength :: 10 :: (longBytes keys.clientHalf.toInt ++
    (longBytes keys.serverHalf.toInt ++
      (keys.userId ++ ((keys.username ++ [10]) ++ (keys.password ++ [10]))))))

def request (keys : LoginKeys) : LoginRequest where
  clientHalf := keys.clientHalf.toInt
  serverHalf := keys.serverHalf.toInt
  username := keys.username

end LoginKeys

/-- A login block. Its declared length may be anything up to what there is. -/
structure LoginForm extends LoginKeys where
  loginType : Byte
  blockLength : Byte
  magic : Byte
  behind : List Byte
  loginType_eq : loginType = 16 ∨ loginType = 18
  blockLength_le : blockLength.toNat ≤ 3 + (toLoginKeys.bytes ++ behind).length

def LoginForm.bytes (form : LoginForm) : List Byte :=
  form.loginType :: form.blockLength :: form.magic :: 1 :: 61 ::
    (form.toLoginKeys.bytes ++ form.behind)

namespace LoginHandler

theorem readKeysAndName_eq_some {b b' : StreamBuffer} {r : LoginRequest} :
    readKeysAndName b = .ok (some r) b' ↔ ∃ (keys : LoginKeys) (tail : List Byte),
      keys.request = r ∧ b.rest = keys.bytes ++ tail ∧ b' = b.skip keys.bytes.length := by
  obtain ⟨_, hints⟩ := takes_skipInts 9
  obtain ⟨_, hint⟩ := takes_readInt
  have hbyte := takes_readByte true .standard
  have hparses : Parses readKeysAndName _ :=
    hbyte.parses_bind (hints.parses_bind (hbyte.parses_bind (parses_readByte.bind fun opcode =>
      (parses_pure none).ite (parses_readLong.bind fun clientHalf =>
        parses_readLong.bind fun serverHalf => hint.parses_bind (parses_readString.bind
          fun username => parses_readString.bind fun _ => parses_pure _)))))
  rw [hparses b (some r) b']
  constructor
  · rintro ⟨_, tail, ⟨u₁, _, hu₁, ⟨nineInts, _, hints, ⟨u₃, _, hu₃, ⟨_, _, v, ⟨x, rfl, rfl⟩, hv,
      rfl⟩, rfl⟩, rfl⟩, rfl⟩, hrest, rfl⟩
    obtain ⟨memory, rfl⟩ := List.length_eq_one_iff.mp hu₁
    obtain ⟨rsaLength, rfl⟩ := List.length_eq_one_iff.mp hu₃
    rw [toByte_readValue] at hv
    split at hv
    · cases hv.2
    · rename_i hx
      obtain rfl := not_not.mp hx
      obtain ⟨_, _, _, ⟨clientHalf, rfl, rfl⟩, ⟨_, _, _, ⟨serverHalf, rfl, rfl⟩,
        ⟨userId, _, huserId, ⟨_, username, _, ⟨rfl, huline, hushort⟩, ⟨_, password, _,
          ⟨rfl, hpline, hpshort⟩, ⟨rfl, hr⟩, rfl⟩, rfl⟩, rfl⟩, rfl⟩, rfl⟩ := hv
      rw [List.append_nil] at hrest ⊢
      exact ⟨⟨memory, nineInts, rsaLength, clientHalf, serverHalf, userId, username, password,
        hints, huserId, huline, hushort, hpline, hpshort⟩, tail, Option.some.inj hr, hrest, rfl⟩
  · rintro ⟨keys, tail, rfl, hrest, rfl⟩
    refine ⟨keys.bytes, tail, ⟨[keys.memory], _, rfl, ⟨keys.nineInts, _, keys.nineInts_length,
      ⟨[keys.rsaLength], _, rfl, ⟨_, _, _, ⟨10, rfl, rfl⟩, ?_, rfl⟩, rfl⟩, rfl⟩, rfl⟩, hrest, rfl⟩
    rw [toByte_readValue, if_neg (not_not.mpr rfl)]
    refine ⟨_, _, _, ⟨keys.clientHalf, rfl, rfl⟩, ⟨_, _, _, ⟨keys.serverHalf, rfl, rfl⟩,
      ⟨keys.userId, _, keys.userId_length, ⟨_, keys.username, _, ⟨rfl, keys.username_line,
        keys.username_short⟩, ⟨keys.password ++ [10], keys.password, [], ⟨rfl, keys.password_line,
          keys.password_short⟩, ⟨rfl, rfl⟩, ?_⟩, rfl⟩, rfl⟩, rfl⟩, rfl⟩
    exact (List.append_nil _).symm

/-- The version as the parser reads it, and the opcodes behind it. -/
theorem version_iff {x y : Byte} :
    (256 * (x.toNat : Int) + y.toNat) % 2 ^ 16 = 317 ↔ x = 1 ∧ y = 61 := by
  have hx := x.isLt
  have hy := y.isLt
  constructor
  · intro h
    exact ⟨BitVec.eq_of_toNat_eq (by change x.toNat = 1; omega),
      BitVec.eq_of_toNat_eq (by change y.toNat = 61; omega)⟩
  · rintro ⟨rfl, rfl⟩
    rfl

/-- The part of `readLogin` behind the declared length. -/
def readVersion : StreamM (Option LoginRequest) := do
  let _magic ← readByte
  let clientVersion ← readShort
  if clientVersion % 2 ^ 16 ≠ 317 then return none
  else readKeysAndName

theorem readVersion_eq_some {b : StreamBuffer} {r : LoginRequest} :
    (∃ b', readVersion b = .ok (some r) b') ↔
      ∃ (magic : Byte) (keys : LoginKeys) (tail : List Byte), keys.request = r ∧
        b.rest = magic :: 1 :: 61 :: (keys.bytes ++ tail) := by
  constructor
  · rintro ⟨b', hrun⟩
    obtain ⟨_, b₁, hmagic, hrun⟩ := bind_inv hrun
    obtain ⟨_, tail₁, ⟨magic, rfl, -⟩, hrest, rfl⟩ := (parses_readByte _ _ _).mp hmagic
    obtain ⟨_, b₂, hversion, hrun⟩ := bind_inv hrun
    obtain ⟨_, tail₂, ⟨x, y, rfl, rfl⟩, hrest', rfl⟩ := (parses_readShort _ _ _).mp hversion
    split at hrun
    · cases hrun
    · rename_i hxy
      obtain ⟨rfl, rfl⟩ := version_iff.mp (not_not.mp hxy)
      obtain ⟨keys, tail, hr, hrest'', -⟩ := readKeysAndName_eq_some.mp hrun
      refine ⟨magic, keys, tail, hr, ?_⟩
      rw [hrest, ← rest_skip_word hrest, hrest', ← rest_skip_word hrest', hrest'']
      rfl
  · rintro ⟨magic, keys, tail, hr, hrest⟩
    have hmagic := readByte_cons hrest true .standard
    have hrest' : (b.skip 1).rest = [1, 61] ++ (keys.bytes ++ tail) :=
      rest_skip_word (show b.rest = [magic] ++ _ from hrest)
    have hversion := (parses_readShort (b.skip 1) _ _).mpr
      ⟨[1, 61], _, ⟨1, 61, rfl, rfl⟩, hrest', rfl⟩
    have hkeys := readKeysAndName_eq_some.mpr ⟨keys, tail, hr, rest_skip_word hrest', rfl⟩
    have hrun : readVersion b = readKeysAndName ((b.skip 1).skip 2) := by
      rw [readVersion, bind_ok hmagic, bind_ok hversion,
        if_neg (not_not.mpr (version_iff.mpr ⟨rfl, rfl⟩))]
      rfl
    exact ⟨_, hrun.trans hkeys⟩

/-- A request is not shorter than it declares to be. -/
theorem readLogin_cons {loginType blockLength : Byte} {block : List Byte} {r : LoginRequest} :
    (∃ b, readLogin (ofData (loginType :: blockLength :: block)) = .ok (some r) b) ↔
      (loginType = 16 ∨ loginType = 18) ∧ blockLength.toNat ≤ block.length ∧
        ∃ b, readVersion ((ofData (loginType :: blockLength :: block)).skip 2) =
          .ok (some r) b := by
  have hlong : ¬ (ofData (loginType :: blockLength :: block)).remaining < 2 := by
    simp only [remaining, ofData, List.length_cons]
    omega
  have hleft : ((ofData (loginType :: blockLength :: block)).skip 2).remaining = block.length := by
    simp only [remaining, ofData, skip_pos, skip_buffer, List.length_cons]
    omega
  rw [readLogin, get_bind, if_neg hlong,
    bind_ok (readByte_cons (rest_ofData _) true .standard), toByte_readValue]
  by_cases htype : loginType ≠ 16 ∧ loginType ≠ 18
  · rw [if_pos htype]
    constructor
    · rintro ⟨b, hrun⟩
      cases hrun
    · rintro ⟨rfl | rfl, -⟩
      · exact absurd rfl htype.1
      · exact absurd rfl htype.2
  · rw [if_neg htype, bind_ok (readByte_cons rfl true .standard), get_bind, toByte_readValue,
      skip_skip, hleft]
    have hknown : loginType = 16 ∨ loginType = 18 := by
      rwa [not_and_or, not_not, not_not] at htype
    by_cases hshort : block.length < blockLength.toNat
    · rw [if_pos (Nat.cast_lt.mpr hshort)]
      constructor
      · rintro ⟨b, hrun⟩
        cases hrun
      · rintro ⟨-, hle, -⟩
        exact absurd hle (Nat.not_le.mpr hshort)
    · rw [if_neg (mt Nat.cast_lt.mp hshort)]
      exact ⟨fun hrun => ⟨hknown, Nat.not_lt.mp hshort, hrun⟩, fun h => h.2.2⟩

theorem loginRequest_iff {data : List Byte} {r : LoginRequest} :
    loginRequest data = some r ↔ ∃ b, readLogin (ofData data) = .ok (some r) b := by
  simp only [loginRequest, exec]
  cases hread : readLogin (ofData data) with
  | error e b => simp
  | ok request b => simp

/-- Exactly the bytes of login forms are requests. -/
theorem loginRequest_eq_some {data : List Byte} {r : LoginRequest} :
    loginRequest data = some r ↔ ∃ form : LoginForm, form.bytes = data ∧ form.request = r := by
  rw [loginRequest_iff]
  rcases data with _ | ⟨loginType, _ | ⟨blockLength, block⟩⟩
  · constructor
    · rintro ⟨b, hrun⟩
      cases hrun
    · rintro ⟨form, hbytes, -⟩
      cases hbytes
  · constructor
    · rintro ⟨b, hrun⟩
      cases hrun
    · rintro ⟨form, hbytes, -⟩
      cases hbytes
  · rw [readLogin_cons, readVersion_eq_some]
    constructor
    · rintro ⟨htype, hlength, magic, keys, behind, hr, hrest⟩
      obtain rfl : block = magic :: 1 :: 61 :: (keys.bytes ++ behind) := hrest
      refine ⟨⟨keys, loginType, blockLength, magic, behind, htype, ?_⟩, rfl, hr⟩
      simp only [List.length_cons] at hlength
      omega
    · rintro ⟨form, hbytes, hr⟩
      obtain ⟨rfl, rfl, rfl⟩ : loginType = form.loginType ∧ blockLength = form.blockLength ∧
          block = form.magic :: 1 :: 61 :: (form.toLoginKeys.bytes ++ form.behind) := by
        simpa only [LoginForm.bytes, List.cons.injEq, eq_comm] using hbytes
      refine ⟨form.loginType_eq, ?_, form.magic, form.toLoginKeys, form.behind, hr, rfl⟩
      have hlength := form.blockLength_le
      simp only [List.length_cons]
      omega

end LoginHandler

namespace Server

/-- A client that is logging in stays connected exactly when what is read of it is a form. Then it
is answered, with the name and the keys of the form. -/
theorem receive_form_iff {s : Server} (h : Reachable Step initial s) {c : ClientId}
    {client : Client} (hc : s.clients c = some client) (hstage : client.stage = .loggingIn)
    {now gen : Int} (hflood : (Client.countPacket client now).2 = false) {data : List Byte}
    (hdata : data ≠ []) (hsize : data.length ≤ 512) :
    ((∃ s' client', Step s (.receive c now gen data) s' ∧ s'.clients c = some client' ∧
      client'.disconnected = false) ↔ ∃ form : LoginForm, form.bytes = data) ∧
    ∀ (form : LoginForm) (s' : Server), form.bytes = data → Step s (.receive c now gen data) s' →
      ∃ client', s'.clients c = some client' ∧
        client'.standing = Client.answeredStanding s.world form.request := by
  have hs := reachable_sound h
  obtain ⟨rd, rfl, rfl, rfl⟩ : ∃ rd : Client.Read, rd.now = now ∧ rd.gen = gen ∧ rd.data = data :=
    ⟨⟨now, gen, data⟩, rfl, rfl, rfl⟩
  have hanswered (form : LoginForm) (hform : form.bytes = rd.data) :=
    Client.exists_answered hs hc hstage hflood
      (LoginHandler.loginRequest_eq_some.mpr ⟨form, hform, rfl⟩)
  refine ⟨⟨?_, ?_⟩, ?_⟩
  · rintro ⟨s', client', hstep, hc', hopen⟩
    cases hstep with
    | receive _ _ hread =>
        cases hr : LoginHandler.loginRequest rd.data with
        | some r =>
            obtain ⟨form, hform, -⟩ := LoginHandler.loginRequest_eq_some.mp hr
            exact ⟨form, hform⟩
        | none =>
            obtain ⟨-, hclosed⟩ :=
              Client.read_without_request hs hc hstage hflood hdata hr hread
            obtain rfl := Option.some.inj (hc'.symm.trans hclosed)
            cases hopen
  · rintro ⟨form, hform⟩
    obtain ⟨fuel, st, client', hread, -, hstanding⟩ := hanswered form hform
    refine ⟨st.server, client', .receive hdata hsize hread, hstanding.found, ?_⟩
    have hstage' : client'.stage = .loggedIn ∨ client'.stage = .loggingIn := by
      rw [show client'.stage = client'.standing.stage from rfl, hstanding.standing]
      exact ite_eq_or_eq ..
    apply hstanding.sound.connected hstanding.found
    rcases hstage' with hstage' | hstage' <;> rw [hstage'] <;> decide
  · intro form s' hform hstep
    cases hstep with
    | receive _ _ hread =>
        obtain ⟨fuel, st, client', hread', -, hstanding⟩ := hanswered form hform
        obtain rfl := Except.ok.inj (Client.readIncomingData_unique hread' hread)
        exact ⟨client', hstanding.found, hstanding.standing⟩

/-- A block without a name is a form. -/
theorem receive_form_iff_block : ∃ s s' client', Reachable Step initial s ∧
    Step s (.receive 0 1 0 LoginHandler.fullBlock) s' ∧ s'.clients 0 = some client' ∧
    client'.disconnected = false := by
  obtain ⟨rd, hnow, hdata⟩ : ∃ rd : Client.Read, rd.now = 1 ∧ rd.data = [14, 0] :=
    ⟨⟨1, 0, [14, 0]⟩, rfl, rfl⟩
  have haccepted := Client.reachable_accept
  have hfirst := countPacket_calm (show ({} : Client).packetsThisSecond < 100 by decide) rd.now
  obtain ⟨fuel, st, client, hread, -, -, hc, hstage, -, hcount, -⟩ := Client.exists_requested
    (reachable_sound haccepted) Client.accepted_client rfl hfirst.1 hdata
  have hrequested := haccepted.snoc
    (.receive (by rw [hdata]; decide) (by rw [hdata]; decide) hread)
  have hfew : client.packetsThisSecond < 100 := by
    rw [hcount.packets]
    exact Nat.lt_of_le_of_lt hfirst.2 (by decide)
  obtain ⟨form, hform, -⟩ :=
    LoginHandler.loginRequest_eq_some.mp Client.fullBlock_loginBlock.request
  obtain ⟨s', client', hstep, hc', hopen⟩ := (receive_form_iff hrequested hc hstage
    (countPacket_calm hfew 1).1 (by decide) (by decide)).1.mpr ⟨form, hform⟩
  exact ⟨_, s', client', hrequested, hstep, hc', hopen⟩

end Server

/-! ## Sessions -/

namespace Client

/-- The client keeps its name and goes on with both its ciphers. -/
structure Continues (old new : Client) : Prop where
  username : new.username = old.username
  decryptor : old.GoesOn new
  encryptor : ∃ n, new.encryptor = old.encryptor.map (·.advance n)

theorem Settled.continues {old new : Client} (h : old.Settled new) : old.Continues new where
  username := h.username
  decryptor := h.decryptor
  encryptor := ⟨0, h.encryptor.trans (congrFun Option.map_id _).symm⟩

theorem Settled.not_entered {old new : Client} (h : old.Settled new)
    (hold : old.stage ≠ .loggedIn) : new.stage ≠ .loggedIn := by
  rcases h.stage with hstage | hstage
  · rwa [hstage]
  · rw [hstage]
    decide

theorem continues_pushFrames {client : Client} {cipher : ISAACCipher}
    (he : client.encryptor = some cipher) (frames : List OutFrame) :
    client.Continues (client.pushFrames cipher frames) := by
  rw [pushFrames_eq client cipher frames he]
  exact ⟨rfl, goesOn_of_eq rfl, frames.length, by rw [he]; rfl⟩

/-- The client plays under the name of the form, with ciphers that have started from its keys. -/
structure Entered (client : Client) (form : LoginForm) : Prop where
  username : client.username = form.username
  decryptor : ∃ n, client.decryptor = some (form.request.decryptor.advance n)
  encryptor : ∃ n, client.encryptor = some (form.request.encryptor.advance n)

theorem Entered.continues {old new : Client} {form : LoginForm} (h : old.Entered form)
    (hnew : old.Continues new) : new.Entered form := by
  obtain ⟨m, hm⟩ := h.decryptor
  obtain ⟨n, hn⟩ := h.encryptor
  obtain ⟨m', hm'⟩ := hnew.decryptor
  obtain ⟨n', hn'⟩ := hnew.encryptor
  refine ⟨hnew.username.trans h.username, ⟨m + m', ?_⟩, ⟨n + n', ?_⟩⟩
  · rw [hm', hm, ISAACCipher.advance_add]
    rfl
  · rw [hn', hn, ISAACCipher.advance_add]
    rfl

end Client

namespace Server

/-- A client that is logged in stays who it is. -/
theorem Part.continues {s s' : Server} {e : Event} {c : ClientId} {old new : Client}
    (h : s.Part e c old s') (hstage : old.stage = .loggedIn) (hc : s.clients c = some old)
    (hc' : s'.clients c = some new) : old.Continues new := by
  rcases h.settled hc hc' with hsettled | ⟨-, -, hticking⟩ | ⟨_, _, _, -, hearly, -⟩
  · exact hsettled.continues
  · cases hticking with
    | updated he _ => exact Client.continues_pushFrames he _
    | @skipped cipher frames he _ _ =>
        obtain ⟨husername, hdecryptor, -⟩ := Client.continues_pushFrames he frames
        refine ⟨husername, hdecryptor, frames.length + 1, ?_⟩
        rw [he, Option.map_some, ISAACCipher.advance_add]
        rfl
  · exact absurd hstage hearly

/-- Only the read of a form logs a client in. -/
theorem Part.enters {s s' : Server} {e : Event} {c : ClientId} {old new : Client}
    (h : s.Part e c old s') (hstage : old.stage ≠ .loggedIn) (hc : s.clients c = some old)
    (hc' : s'.clients c = some new) (hnew : new.stage = .loggedIn) :
    ∃ now gen, ∃ form : LoginForm, e = .receive c now gen form.bytes ∧ new.Entered form := by
  have hsame {mid : Client} (h : s.Puts c mid s') : new = mid :=
    Option.some.inj (hc'.symm.trans h.clients)
  rcases h.settled hc hc' with hsettled | ⟨-, hlogged, -⟩ | ⟨now, gen, data, he, -, hreply⟩
  · exact (hsettled.not_entered hstage hnew).elim
  · exact absurd hlogged hstage
  · cases hreply with
    | quiet hquiet h => exact (hquiet.settled.not_entered hstage (hsame h ▸ hnew)).elim
    | @closing t mid hquiet h hdisconnect =>
        have hclosed := hquiet.settled.trans (Client.settled_disconnect mid)
        exact (hclosed.not_entered hstage
          (hsame (h.trans (puts_disconnect h.clients hdisconnect)) ▸ hnew)).elim
    | greeting _ _ h =>
        obtain rfl := hsame h
        cases hnew
    | @refusal t mid r _ _ _ hmid h hresponse henter =>
        rw [LoginHandler.enterWorld_refused h.clients hresponse] at henter
        obtain rfl := Except.ok.inj henter
        have hrequested := hc'.symm.trans
          (Client.requestDisconnect_client (setClient_clients_self ..))
        obtain rfl := Option.some.inj hrequested
        cases hmid.symm.trans hnew
    | @admission mid r p frames _ hr _ hcipher hd _ h =>
        obtain ⟨form, rfl, rfl⟩ := LoginHandler.loginRequest_eq_some.mp hr
        obtain rfl := hsame h
        have hadmitted : (LoginHandler.admitted mid form.request.username LoginResponse.ok
            p).Entered form := ⟨rfl, ⟨0, hd⟩, ⟨0, hcipher⟩⟩
        refine ⟨now, gen, form, he, hadmitted.continues ?_⟩
        apply Client.continues_pushFrames
        exact hcipher

/-- A client that is logged in has sent a login form since it was accepted. It plays under the name
in the form, and both its ciphers have gone on from the keys in it. -/
theorem run_entered {trace : List (Taken Server Event)} {s : Server}
    (h : Run Step initial trace s) {c : ClientId} {client : Client}
    (hc : s.clients c = some client) (hstage : client.stage = .loggedIn) :
    ∃ before s₀ after, trace = before ++ ⟨s₀, .accept c, s₀.accept c⟩ :: after ∧
      ∃ t ∈ after, ∃ now gen, ∃ form : LoginForm, t.label = .receive c now gen form.bytes ∧
        client.Entered form := by
  induction h generalizing client with
  | start => cases hc
  | @snoc trace s s' e hrun hs ih =>
      have hsound := reachable_sound ⟨trace, hrun⟩
      by_cases haccept : e = .accept c
      · subst haccept
        cases hs with
        | accept _ =>
            obtain rfl := Option.some.inj (hc.symm.trans (accept_client s c))
            cases hstage
      · obtain ⟨old, hold, -⟩ := hs.metered hsound haccept hc
        have hkept : e ≠ .destroy c := by
          rintro rfl
          cases hs with
          | destroy _ _ _ _ => cases hc.symm.trans (destroyClient_self s c)
        have hpart := hs.part hsound hold hkept
        by_cases hlogged : old.stage = .loggedIn
        · obtain ⟨before, s₀, after, rfl, t, ht, now, gen, form, hlabel, hentered⟩ :=
            ih hold hlogged
          exact ⟨before, s₀, after ++ [⟨s, e, s'⟩], List.append_assoc .., t,
            List.mem_append_left _ ht, now, gen, form, hlabel,
            hentered.continues (hpart.continues hlogged hold hc)⟩
        · obtain ⟨now, gen, form, hlabel, hentered⟩ := hpart.enters hlogged hold hc hstage
          obtain ⟨before, s₀, after, rfl, -⟩ := exists_accepted hrun hold
          exact ⟨before, s₀, after ++ [⟨s, e, s'⟩], List.append_assoc .., _,
            List.mem_append_right _ List.mem_cons_self, now, gen, form, hlabel, hentered⟩

theorem run_entered_login : ∃ trace s client, Run Step initial trace s ∧
    s.clients 0 = some client ∧ ∃ before s₀ after,
      trace = before ++ ⟨s₀, .accept 0, s₀.accept 0⟩ :: after ∧
      ∃ t ∈ after, ∃ now gen, ∃ form : LoginForm,
        t.label = .receive 0 now gen form.bytes ∧ client.Entered form := by
  obtain ⟨trace, s, client, hrun, hc, hstage⟩ := exists_loggedIn
  exact ⟨trace, s, client, hrun, hc, run_entered hrun hc hstage⟩

end Server
end AsioRsps
