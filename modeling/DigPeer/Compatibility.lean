import DigPeer.Codec
import DigPeer.Streamable
/-!
# Compatibility — the envelope and the upstream message (`wire_compatibility.rs`)

The upstream `Message` is an opcode of a closed set, an optional id and a payload, each in its `Streamable` format, one
after the other.  Its encoding is the envelope's (`ChiaMessage.encode_eq_ok`), and a buffer it accepts is an encoding
and nothing else; so the two decoders differ only where a frame is not the encoding of its message, or where the opcode
is not upstream's (`message_agreement`).
-/
namespace Dig

open BigEndian

/-- `chia_protocol::Message`. -/
structure ChiaMessage (P : Type) where
  msgType : P
  id      : Option UInt16
  data    : Bytes
deriving DecidableEq

namespace ChiaMessage

variable {ε : Type} {chia : ChiaTraits ε} {types : ProtocolMessageTypes ε} {b : Bytes}

def equivProd (P : Type) : P × Option UInt16 × Bytes ≃ ChiaMessage P where
  toFun x     := ⟨x.1, x.2.1, x.2.2⟩
  invFun m    := (m.msgType, m.id, m.data)
  left_inv _  := rfl
  right_inv _ := rfl

def wire (chia : ChiaTraits ε) (types : ProtocolMessageTypes ε) : Wire ε (ChiaMessage types.Variant) :=
  (types.wire.seq ((chia.option chia.u16).seq chia.bytes)).map (equivProd _)

def toBytes (chia : ChiaTraits ε) (types : ProtocolMessageTypes ε) (m : ChiaMessage types.Variant) : Except ε Bytes :=
  (wire chia types).encode m

def fromBytes (chia : ChiaTraits ε) (types : ProtocolMessageTypes ε) (b : Bytes) :
    Except ε (ChiaMessage types.Variant) :=
  (wire chia types).fromBytes chia.inputTooLong b

def envelope (m : ChiaMessage types.Variant) : DigMessage := ⟨types.toByte m.msgType, m.id, m.data⟩

theorem encode_id {id : Option UInt16} {e : Bytes} : (chia.option chia.u16).encode id = .ok e ↔
    e = (if id = none then 0 else 1) :: idBytes id := by
  cases id with
  | none    => rw [chia.encode_none, Except.ok.injEq, eq_comm]; rfl
  | some id =>
    rw [chia.encode_some, if_neg (by simp)]
    constructor
    · rintro ⟨e', he, rfl⟩
      rw [chia.encode_u16] at he
      cases he
      rfl
    · rintro rfl
      exact ⟨_, chia.encode_u16 id, rfl⟩

theorem toBytes_envelope {m : ChiaMessage types.Variant} (h : m.data.length < 2 ^ 32) : m.envelope.toBytes =
    [types.toByte m.msgType] ++ (((if m.id = none then 0 else 1) :: idBytes m.id) ++ (toBe 4 m.data.length ++ m.data)) := by
  rw [toBytes_eq, envelope, Nat.mod_eq_of_lt h]
  rfl

/-- **The upstream encoding is the envelope's**, where a length field can describe the payload. -/
theorem toBytes_eq_ok {m : ChiaMessage types.Variant} :
    toBytes chia types m = .ok b ↔ m.data.length < 2 ^ 32 ∧ b = m.envelope.toBytes := by
  have hencode : toBytes chia types m = .ok b ↔ ∃ e₁ e₂, types.wire.encode m.msgType = .ok e₁ ∧
      ((chia.option chia.u16).seq chia.bytes).encode (m.id, m.data) = .ok e₂ ∧ b = e₁ ++ e₂ := Wire.encode_seq
  rw [hencode]
  constructor
  · rintro ⟨e₁, e₂, htype, hrest, rfl⟩
    obtain ⟨e₃, e₄, hid, hdata, rfl⟩ := Wire.encode_seq.1 hrest
    rw [types.encode_wire] at htype
    cases htype
    obtain ⟨hlt, rfl⟩ := (chia.encode_bytes _ _).1 hdata
    rw [encode_id.1 hid, toBytes_envelope hlt]
    exact ⟨hlt, rfl⟩
  · rintro ⟨hlt, rfl⟩
    exact ⟨_, _, types.encode_wire _, Wire.encode_seq.2 ⟨_, _, encode_id.2 rfl, (chia.encode_bytes _ _).2 ⟨hlt, rfl⟩, rfl⟩,
      toBytes_envelope hlt⟩

/-- **What `Message` accepts is an envelope's encoding**, of an upstream opcode. -/
theorem fromBytes_eq_ok {m : ChiaMessage types.Variant} :
    fromBytes chia types b = .ok m ↔ m.data.length < 2 ^ 32 ∧ b = m.envelope.toBytes :=
  Wire.fromBytes_eq_ok.trans toBytes_eq_ok

end ChiaMessage

/-! ## Buffers that both, or only one, accept -/

theorem UInt8.eq_one_of_le {t : UInt8} (h0 : t ≠ 0) (h1 : t ≤ 1) : t = 1 := by
  rw [UInt8.le_iff_toNat_le] at h1
  rw [ne_eq, ← UInt8.toNat_inj] at h0
  exact UInt8.toNat_inj.1 (by simp at h0 h1 ⊢; omega)

/-- **A frame is its message's encoding** when its id byte is at most `1` and nothing follows it. -/
theorem Frames.eq_toBytes_iff {b : Bytes} {m : DigMessage} (h : Frames b m) :
    b = m.toBytes ↔ (∀ t, b[1]? = some t → t ≤ 1) ∧ b.length ≤ frameLength m := by
  obtain ⟨hmax, t, tail, htag, rfl⟩ := h
  have hlt : m.data.length < 2 ^ 32 := Nat.lt_of_le_of_lt hmax (by decide)
  have hlen : (m.msgType :: t :: (idBytes m.id ++ (toBe 4 m.data.length ++ (m.data ++ tail)))).length =
      frameLength m + tail.length := by
    simp only [frameLength, List.length_cons, List.length_append, length_idBytes, length_toBe]
    split <;> omega
  rw [toBytes_eq, Nat.mod_eq_of_lt hlt, hlen]
  constructor
  · intro he
    simp only [List.cons.injEq, true_and, List.append_cancel_left_eq, List.append_right_eq_self] at he
    obtain ⟨rfl, rfl⟩ := he
    refine ⟨fun t' ht' => ?_, Nat.le_refl _⟩
    cases ht'
    split <;> decide
  · rintro ⟨hone, htail⟩
    have htail : tail = [] := List.eq_nil_of_length_eq_zero (by omega)
    have ht : t = if m.id = none then 0 else 1 := by
      by_cases hid : m.id = none
      · rw [if_pos hid, htag.2 hid]
      · rw [if_neg hid]
        exact UInt8.eq_one_of_le (mt htag.1 hid) (hone t rfl)
    rw [htail, List.append_nil, ht]

namespace ChiaMessage

variable {ε : Type} {chia : ChiaTraits ε} {types : ProtocolMessageTypes ε} {b : Bytes} {m : DigMessage}

theorem envelope_eq {c : ChiaMessage types.Variant} (h : Frames b m) (hc : fromBytes chia types b = .ok c) :
    c.envelope = m := by
  obtain ⟨hlt, rfl⟩ := fromBytes_eq_ok.1 hc
  have hp := parse_of_frames h
  have hread := parse_toBytes_append c.envelope []
  rw [List.append_nil, hp, show c.envelope.data.length = c.data.length from rfl, Nat.mod_eq_of_lt hlt] at hread
  split at hread
  · have := Option.some.inj hread
    rw [this]
    simp [envelope]
  · cases hread

/-- **`Message` accepts a frame exactly when it is an encoding of an upstream opcode's message.** -/
theorem exists_fromBytes_iff (h : Frames b m) :
    (∃ c, fromBytes chia types b = .ok c) ↔ (∃ t, types.toByte t = m.msgType) ∧ b = m.toBytes := by
  constructor
  · rintro ⟨c, hc⟩
    obtain ⟨-, hb⟩ := fromBytes_eq_ok.1 hc
    obtain rfl := envelope_eq h hc
    exact ⟨⟨c.msgType, rfl⟩, hb⟩
  · rintro ⟨⟨t, ht⟩, hb⟩
    have henvelope : (⟨t, m.id, m.data⟩ : ChiaMessage types.Variant).envelope = m := by
      rw [envelope, ht]
    exact ⟨⟨t, m.id, m.data⟩, fromBytes_eq_ok.2 ⟨Nat.lt_of_le_of_lt h.1 (by decide), by rw [henvelope]; exact hb⟩⟩

end ChiaMessage

/-- **The envelope agrees with `chia_protocol::Message`.**  It writes the same bytes; it reads what `Message` reads, up
to the cap, as the same three fields; and of what it reads, `Message` refuses just the unknown opcodes, the id bytes
above `1` and the frames with something after them. -/
theorem message_agreement {ε : Type} (chia : ChiaTraits ε) (types : ProtocolMessageTypes ε) :
    (∀ (t : types.Variant) id data, data.length ≤ 2 ^ 32 - 1 →
      ChiaMessage.toBytes chia types ⟨t, id, data⟩ = .ok (DigMessage.toBytes ⟨types.toByte t, id, data⟩)) ∧
    (∀ b t id data, ChiaMessage.fromBytes chia types b = .ok ⟨t, id, data⟩ → data.length ≤ DigMessage.maxMessageSize →
      DigMessage.fromBytes b = .ok (some ⟨types.toByte t, id, data⟩)) ∧
    ∀ b m, DigMessage.fromBytes b = .ok (some m) →
      ((∃ e, ChiaMessage.fromBytes chia types b = .error e) ↔
        (∀ t, types.toByte t ≠ m.msgType) ∨ (∃ t, b[1]? = some t ∧ 1 < t) ∨ frameLength m < b.length) := by
  refine ⟨fun t id data h => ?_, fun b t id data h hmax => ?_, fun b m h => ?_⟩
  · exact ChiaMessage.toBytes_eq_ok.2 ⟨by dsimp only; omega, rfl⟩
  · obtain ⟨-, rfl⟩ := ChiaMessage.fromBytes_eq_ok.1 h
    rw [DigMessage.fromBytes_eq, ChiaMessage.envelope, (parse_toBytes_iff _).2 hmax]
  · rw [DigMessage.fromBytes_eq, Except.ok.injEq] at h
    have hf := frames_of_parse h
    have hrefused : (∃ e, ChiaMessage.fromBytes chia types b = .error e) ↔
        ¬ ∃ c, ChiaMessage.fromBytes chia types b = .ok c := by
      cases ChiaMessage.fromBytes chia types b <;> simp
    rw [hrefused, ChiaMessage.exists_fromBytes_iff hf, hf.eq_toBytes_iff]
    simp only [not_and_or, not_exists, not_forall, Nat.not_le, UInt8.not_le, exists_prop]

/-- The two opcodes of the introducer's requests, of all that are upstream's. -/
inductive IntroducerOpcode where
  | requestPeersIntroducer
  | respondPeersIntroducer
deriving DecidableEq, Repr

def IntroducerOpcode.toByte : IntroducerOpcode → UInt8
  | .requestPeersIntroducer => 63
  | .respondPeersIntroducer => 64

def introducerTypes : ProtocolMessageTypes ChiaError where
  Variant       := IntroducerOpcode
  toByte        := IntroducerOpcode.toByte
  wire          := ChiaTraits.reference.u8.choose IntroducerOpcode.toByte
    (fun n => if n = 63 then some .requestPeersIntroducer else if n = 64 then some .respondPeersIntroducer else none)
    .invalidEnum fun n t => by
      by_cases h63 : n = 63
      · cases t <;> simp [IntroducerOpcode.toByte, h63]
      by_cases h64 : n = 64
      · cases t <;> simp [IntroducerOpcode.toByte, h64]
      · cases t <;> simp [IntroducerOpcode.toByte, h63, h64, eq_comm]
  encode_wire t := ChiaTraits.reference.encode_u8 _

theorem message_agreement_introducer :
    ChiaMessage.toBytes ChiaTraits.reference introducerTypes ⟨.requestPeersIntroducer, some 258, [5]⟩ =
      .ok (DigMessage.toBytes ⟨63, some 258, [5]⟩) ∧
    DigMessage.fromBytes [64, 0, 0, 0, 0, 1, 9] = .ok (some ⟨64, none, [9]⟩) ∧
    ∃ e, ChiaMessage.fromBytes ChiaTraits.reference introducerTypes [63, 7, 1, 2, 0, 0, 0, 0] = .error e := by
  have hread : ChiaMessage.fromBytes ChiaTraits.reference introducerTypes [64, 0, 0, 0, 0, 1, 9] =
      .ok ⟨.respondPeersIntroducer, none, [9]⟩ := ChiaMessage.fromBytes_eq_ok.2 ⟨by decide, by decide⟩
  have hparse : parse [63, 7, 1, 2, 0, 0, 0, 0] = some ⟨63, some 258, []⟩ := by decide +kernel
  have hagree := message_agreement ChiaTraits.reference introducerTypes
  exact ⟨hagree.1 .requestPeersIntroducer (some 258) [5] (by decide),
    hagree.2.1 _ .respondPeersIntroducer none [9] hread (by decide),
    (hagree.2.2 _ _ ((DigMessage.fromBytes_eq _).trans (congrArg Except.ok hparse))).2 (Or.inr (Or.inl ⟨7, rfl, by decide⟩))⟩

end Dig
