import DigPeer.Codec
import DigPeer.Streamable
/-!
# Registration — the introducer's DIG messages (`introducer_wire.rs`, `node_type.rs`)

A `RegisterPeer` and a `RegisterAck` are bodies in `Streamable` formats, each in an envelope with its own opcode.
Reading one back is reading a whole payload in its format, so a body is read exactly where a payload is its encoding
(`fromDigMessage_eq_ok`), and every other payload under its opcode is an error.
-/
namespace Dig

open BigEndian

/-! ## Opcodes and roles -/

inductive DigMessageType where
  | newAttestation
  | newCheckpointProposal
  | newCheckpointSignature
  | requestCheckpointSignatures
  | respondCheckpointSignatures
  | requestStatus
  | respondStatus
  | newCheckpointSubmission
  | validatorAnnounce
  | requestBlockTransactions
  | respondBlockTransactions
  | reconciliationSketch
  | reconciliationResponse
  | stemTransaction
  | plumtreeLazyAnnounce
  | plumtreePrune
  | plumtreeGraft
  | plumtreeRequestByHash
  | registerPeer
  | registerAck
deriving DecidableEq, Repr

def DigMessageType.toByte : DigMessageType → UInt8
  | .newAttestation              => 200
  | .newCheckpointProposal       => 201
  | .newCheckpointSignature      => 202
  | .requestCheckpointSignatures => 203
  | .respondCheckpointSignatures => 204
  | .requestStatus               => 205
  | .respondStatus               => 206
  | .newCheckpointSubmission     => 207
  | .validatorAnnounce           => 208
  | .requestBlockTransactions    => 209
  | .respondBlockTransactions    => 210
  | .reconciliationSketch        => 211
  | .reconciliationResponse      => 212
  | .stemTransaction             => 213
  | .plumtreeLazyAnnounce        => 214
  | .plumtreePrune               => 215
  | .plumtreeGraft               => 216
  | .plumtreeRequestByHash       => 217
  | .registerPeer                => 218
  | .registerAck                 => 219

inductive NodeType where
  | fullNode
  | harvester
  | farmer
  | timelord
  | introducer
  | wallet
  | dataLayer
deriving DecidableEq, Repr

namespace NodeType

def all : List NodeType := [fullNode, harvester, farmer, timelord, introducer, wallet, dataLayer]

def toByte : NodeType → UInt8
  | fullNode   => 1
  | harvester  => 2
  | farmer     => 3
  | timelord   => 4
  | introducer => 5
  | wallet     => 6
  | dataLayer  => 7

def fromByte (byte : UInt8) : Option NodeType := all.find? fun role => role.toByte = byte

theorem fromByte_eq_some (byte : UInt8) (role : NodeType) : fromByte byte = some role ↔ role.toByte = byte := by
  constructor
  · intro h
    simpa using List.find?_some h
  · rintro rfl
    cases role <;> rfl

variable {ε : Type} (chia : ChiaTraits ε)

def stream (role : NodeType) : Except ε Bytes := .ok [role.toByte]

def parse (input : Bytes) : Except ε (NodeType × Bytes) := do
  let (byte, rest) ← chia.u8.decode input
  match fromByte byte with
  | some role => return (role, rest)
  | none      => throw chia.invalidEnum

/-- `Streamable for NodeType`. -/
def wire : Wire ε NodeType where
  encode := stream
  decode := parse chia
  decode_eq_ok input role rest := by
    have hencode : stream role = chia.u8.encode role.toByte := (chia.encode_u8 _).symm
    have hdecode : parse chia input = (chia.u8.choose toByte fromByte chia.invalidEnum fromByte_eq_some).decode input := by
      refine bind_congr fun x => ?_
      obtain ⟨byte, rest⟩ := x
      dsimp only
      cases fromByte byte with
      | none | some => rfl
    rw [hencode, hdecode]
    exact (chia.u8.choose toByte fromByte chia.invalidEnum fromByte_eq_some).decode_eq_ok input role rest

end NodeType

/-! ## Bodies in an envelope -/

section Body

variable {ε α : Type} {type : DigMessageType} {w : Wire ε α} {v : α} {tooLong : ε} {msg : DigMessage}

/-- The `to_dig_message` of a type of message. -/
def bodyToDigMessage (type : DigMessageType) (w : Wire ε α) (v : α) (id : Option UInt16) : Except ε DigMessage := do
  let data ← w.encode v
  return ⟨type.toByte, id, data⟩

/-- The `from_dig_message` of a type of message. -/
def bodyFromDigMessage (type : DigMessageType) (w : Wire ε α) (tooLong : ε) (msg : DigMessage) : Option (Except ε α) :=
  if msg.msgType ≠ type.toByte then none else some (w.fromBytes tooLong msg.data)

theorem bodyFromDigMessage_eq_none :
    bodyFromDigMessage type w tooLong msg = none ↔ msg.msgType ≠ type.toByte := by
  unfold bodyFromDigMessage
  split <;> simp_all

/-- **A body is read exactly where the payload is its encoding.** -/
theorem bodyFromDigMessage_eq_ok : bodyFromDigMessage type w tooLong msg = some (.ok v) ↔
    msg.msgType = type.toByte ∧ w.encode v = .ok msg.data := by
  unfold bodyFromDigMessage
  by_cases h : msg.msgType = type.toByte
  · rw [if_neg (not_not.2 h), Option.some.injEq, Wire.fromBytes_eq_ok]
    exact ⟨fun he => ⟨h, he⟩, And.right⟩
  · rw [if_pos h]
    exact iff_of_false (by simp) fun he => h he.1

theorem bodyFromDigMessage_eq_error : (∃ e, bodyFromDigMessage type w tooLong msg = some (.error e)) ↔
    msg.msgType = type.toByte ∧ ∀ v, w.encode v ≠ .ok msg.data := by
  unfold bodyFromDigMessage
  by_cases h : msg.msgType = type.toByte
  · rw [if_neg (not_not.2 h)]
    simp only [Option.some.injEq, Wire.fromBytes_eq_error]
    exact ⟨fun he => ⟨h, he⟩, And.right⟩
  · rw [if_pos h]
    exact iff_of_false (by simp) fun he => h he.1

theorem bodyToDigMessage_eq_ok {id : Option UInt16} : bodyToDigMessage type w v id = .ok msg ↔
    msg.msgType = type.toByte ∧ msg.id = id ∧ w.encode v = .ok msg.data := by
  simp only [bodyToDigMessage, Wire.bind_eq_ok_iff, pure, Except.pure, Except.ok.injEq]
  constructor
  · rintro ⟨data, hdata, rfl⟩
    exact ⟨rfl, rfl, hdata⟩
  · rintro ⟨htype, rfl, hdata⟩
    exact ⟨_, hdata, by rw [← htype]⟩

/-- **Through the envelope and back**, for an encoding within the cap, and to no other type of message. -/
theorem body_round_trip {type' : DigMessageType} {β : Type} {w' : Wire ε β} {tooLong' : ε} {data : Bytes}
    (hv : w.encode v = .ok data) (hmax : data.length ≤ DigMessage.maxMessageSize) (htype : type.toByte ≠ type'.toByte)
    (id : Option UInt16) : ∃ msg, bodyToDigMessage type w v id = .ok msg ∧ msg.id = id ∧
      DigMessage.fromBytes msg.toBytes = .ok (some msg) ∧ bodyFromDigMessage type w tooLong msg = some (.ok v) ∧
      bodyFromDigMessage type' w' tooLong' msg = none := by
  refine ⟨⟨type.toByte, id, data⟩, ?_, rfl, ?_, bodyFromDigMessage_eq_ok.2 ⟨rfl, hv⟩, bodyFromDigMessage_eq_none.2 htype⟩
  · rw [bodyToDigMessage, hv]
    rfl
  · rw [DigMessage.fromBytes_eq, (parse_toBytes_iff _).2 hmax]

end Body

/-! ## The two messages -/

variable {ε : Type}

structure RegisterPeer where
  ip       : String
  port     : UInt16
  nodeType : NodeType
deriving DecidableEq, Repr

namespace RegisterPeer

def equivProd : String × UInt16 × NodeType ≃ RegisterPeer where
  toFun x     := ⟨x.1, x.2.1, x.2.2⟩
  invFun r    := (r.ip, r.port, r.nodeType)
  left_inv _  := rfl
  right_inv _ := rfl

/-- `#[streamable]`: the fields in the order they are declared. -/
def wire (chia : ChiaTraits ε) : Wire ε RegisterPeer :=
  (chia.string.seq (chia.u16.seq (NodeType.wire chia))).map equivProd

def toBytes (chia : ChiaTraits ε) (r : RegisterPeer) : Except ε Bytes := (wire chia).encode r

def toDigMessage (chia : ChiaTraits ε) (r : RegisterPeer) (id : Option UInt16) : Except ε DigMessage :=
  bodyToDigMessage .registerPeer (wire chia) r id

def fromDigMessage (chia : ChiaTraits ε) (msg : DigMessage) : Option (Except ε RegisterPeer) :=
  bodyFromDigMessage .registerPeer (wire chia) chia.inputTooLong msg

end RegisterPeer

structure RegisterAck where
  success : Bool
deriving DecidableEq, Repr

namespace RegisterAck

def equivBool : Bool ≃ RegisterAck where
  toFun b     := ⟨b⟩
  invFun a    := a.success
  left_inv _  := rfl
  right_inv _ := rfl

def wire (chia : ChiaTraits ε) : Wire ε RegisterAck := chia.bool.map equivBool

def toBytes (chia : ChiaTraits ε) (a : RegisterAck) : Except ε Bytes := (wire chia).encode a

def toDigMessage (chia : ChiaTraits ε) (a : RegisterAck) (id : Option UInt16) : Except ε DigMessage :=
  bodyToDigMessage .registerAck (wire chia) a id

def fromDigMessage (chia : ChiaTraits ε) (msg : DigMessage) : Option (Except ε RegisterAck) :=
  bodyFromDigMessage .registerAck (wire chia) chia.inputTooLong msg

end RegisterAck

/-! ## What they look like -/

variable {chia : ChiaTraits ε}

/-- The bytes of a `RegisterPeer` body, of any address bytes and any role byte. -/
def peerLayout (ip : Bytes) (port : UInt16) (role : UInt8) : Bytes :=
  toBe 4 ip.length ++ (ip ++ (toBe 2 port.toNat ++ [role]))

theorem length_peerLayout (ip : Bytes) (port : UInt16) (role : UInt8) :
    (peerLayout ip port role).length = ip.length + 7 := by
  simp only [peerLayout, List.length_append, length_toBe, List.length_singleton]
  omega

theorem peerLayout_inj {ip ip' : Bytes} {port port' : UInt16} {role role' : UInt8}
    (h : peerLayout ip port role = peerLayout ip' port' role') : ip = ip' ∧ role = role' := by
  have hlength := congrArg List.length h
  rw [length_peerLayout, length_peerLayout] at hlength
  have hbody := (List.append_inj h (by simp)).2
  obtain ⟨hip, hrest⟩ := List.append_inj hbody (by omega)
  exact ⟨hip, List.singleton_inj.1 (List.append_inj hrest (by simp)).2⟩

theorem RegisterPeer.toBytes_eq_ok {r : RegisterPeer} {e : Bytes} : r.toBytes chia = .ok e ↔
    (utf8 r.ip).length < 2 ^ 32 ∧ e = peerLayout (utf8 r.ip) r.port r.nodeType.toByte := by
  have hencode : r.toBytes chia = .ok e ↔ ∃ e₁ e₂, chia.string.encode r.ip = .ok e₁ ∧
      (chia.u16.seq (NodeType.wire chia)).encode (r.port, r.nodeType) = .ok e₂ ∧ e = e₁ ++ e₂ := Wire.encode_seq
  rw [hencode]
  constructor
  · rintro ⟨e₁, e₂, hip, hrest, rfl⟩
    obtain ⟨e₃, e₄, hport, hrole, rfl⟩ := Wire.encode_seq.1 hrest
    obtain ⟨hlt, rfl⟩ := (chia.encode_string _ _).1 hip
    rw [chia.encode_u16] at hport
    cases hport
    cases hrole
    exact ⟨hlt, List.append_assoc _ _ _⟩
  · rintro ⟨hlt, rfl⟩
    exact ⟨_, _, (chia.encode_string _ _).2 ⟨hlt, rfl⟩, Wire.encode_seq.2 ⟨_, _, chia.encode_u16 _, rfl, rfl⟩,
      (List.append_assoc _ _ _).symm⟩

example : RegisterPeer.toBytes ChiaTraits.reference ⟨"192.168.1.1", 9444, .fullNode⟩ =
    .ok [0, 0, 0, 11, 49, 57, 50, 46, 49, 54, 56, 46, 49, 46, 49, 0x24, 0xe4, 1] :=
  RegisterPeer.toBytes_eq_ok.2 ⟨by decide, by decide⟩

theorem RegisterAck.toBytes_eq (a : RegisterAck) : a.toBytes chia = .ok [if a.success then 1 else 0] :=
  chia.encode_bool a.success

/-- Bodies of a `RegisterPeer` that went wrong: cut short, with more after them, with an address that is not a string's,
or with a byte that names no role. -/
inductive BadPeer (chia : ChiaTraits ε) : Bytes → Prop
  | truncated (r : RegisterPeer) (e : Bytes) (k : ℕ) (he : r.toBytes chia = .ok e) (hk : k < e.length) :
      BadPeer chia (e.take k)
  | extended (r : RegisterPeer) (e s : Bytes) (he : r.toBytes chia = .ok e) (hs : s ≠ []) : BadPeer chia (e ++ s)
  | notUtf8 (ip : Bytes) (port : UInt16) (role : UInt8) (hip : ∀ s, utf8 s ≠ ip) : BadPeer chia (peerLayout ip port role)
  | unknownRole (ip : Bytes) (port : UInt16) (role : UInt8) (hrole : NodeType.fromByte role = none) :
      BadPeer chia (peerLayout ip port role)

/-- Bodies of a `RegisterAck` that went wrong: empty, with more after the byte, or with a byte above `1`. -/
inductive BadAck : Bytes → Prop
  | truncated : BadAck []
  | extended (a : UInt8) (s : Bytes) (hs : s ≠ []) : BadAck (a :: s)
  | notBool (a : UInt8) (ha : 1 < a) : BadAck [a]

theorem BadPeer.not_encoded {data : Bytes} (h : BadPeer chia data) (r : RegisterPeer) : r.toBytes chia ≠ .ok data := by
  intro hr
  cases h with
  | truncated r' e k he hk =>
    obtain ⟨x, hx⟩ : ∃ x, (RegisterPeer.wire chia).fromBytes chia.inputTooLong (e.take k) = .error x :=
      Wire.fromBytes_take he hk
    rw [Wire.fromBytes_eq_ok.2 hr] at hx
    cases hx
  | extended r' e s he hs =>
    obtain ⟨x, hx⟩ : ∃ x, (RegisterPeer.wire chia).fromBytes chia.inputTooLong (e ++ s) = .error x :=
      Wire.fromBytes_append he hs
    rw [Wire.fromBytes_eq_ok.2 hr] at hx
    cases hx
  | notUtf8 ip port role hip => exact hip _ (peerLayout_inj (RegisterPeer.toBytes_eq_ok.1 hr).2).1.symm
  | unknownRole ip port role hrole =>
    have hread := (NodeType.fromByte_eq_some _ _).2 (peerLayout_inj (RegisterPeer.toBytes_eq_ok.1 hr).2).2.symm
    rw [hrole] at hread
    cases hread

theorem BadAck.not_encoded {data : Bytes} (h : BadAck data) (a : RegisterAck) : a.toBytes chia ≠ .ok data := by
  rw [RegisterAck.toBytes_eq]
  intro ha
  cases h with
  | truncated => cases ha
  | extended b s hs =>
    obtain ⟨-, rfl⟩ := List.cons.inj (Except.ok.inj ha)
    exact hs rfl
  | notBool b hb =>
    obtain ⟨rfl, -⟩ := List.cons.inj (Except.ok.inj ha)
    revert hb
    split <;> decide

/-- **An acknowledgement goes wrong in three ways.** -/
theorem badAck_iff {data : Bytes} : BadAck data ↔ ∀ a : RegisterAck, a.toBytes chia ≠ .ok data := by
  constructor
  · exact fun h => h.not_encoded
  · intro hnone
    have h0 := hnone ⟨false⟩
    have h1 := hnone ⟨true⟩
    rw [RegisterAck.toBytes_eq] at h0 h1
    rcases data with _ | ⟨byte, _ | ⟨byte', rest⟩⟩
    · exact .truncated
    · refine .notBool byte (Nat.lt_of_not_le fun hle => ?_)
      have hbyte : byte.toNat = 0 ∨ byte.toNat = 1 := by
        have : byte.toNat ≤ 1 := hle
        omega
      rcases hbyte with hbyte | hbyte
      · exact h0 (by rw [show byte = 0 from UInt8.toNat_inj.1 hbyte]; rfl)
      · exact h1 (by rw [show byte = 1 from UInt8.toNat_inj.1 hbyte]; rfl)
    · exact .extended byte _ (List.cons_ne_nil _ _)

/-! ## The results -/

/-- **A registration message survives the envelope**, and the other type does not read it; **and is decoded strictly**:
under its opcode, a payload is read as a value exactly when it is the value's encoding, and is an error otherwise. -/
theorem registration_round_trip (chia : ChiaTraits ε) :
    (∀ (r : RegisterPeer) id, (utf8 r.ip).length ≤ DigMessage.maxMessageSize - 7 → ∃ msg,
      r.toDigMessage chia id = .ok msg ∧ msg.id = id ∧ DigMessage.fromBytes msg.toBytes = .ok (some msg) ∧
        RegisterPeer.fromDigMessage chia msg = some (.ok r) ∧ RegisterAck.fromDigMessage chia msg = none) ∧
    (∀ (a : RegisterAck) id, ∃ msg,
      a.toDigMessage chia id = .ok msg ∧ msg.id = id ∧ DigMessage.fromBytes msg.toBytes = .ok (some msg) ∧
        RegisterAck.fromDigMessage chia msg = some (.ok a) ∧ RegisterPeer.fromDigMessage chia msg = none) ∧
    (∀ msg, (RegisterPeer.fromDigMessage chia msg = none ↔ msg.msgType ≠ 218) ∧
      (∀ r, RegisterPeer.fromDigMessage chia msg = some (.ok r) ↔ msg.msgType = 218 ∧ r.toBytes chia = .ok msg.data) ∧
      (msg.msgType = 218 → BadPeer chia msg.data → ∃ e, RegisterPeer.fromDigMessage chia msg = some (.error e))) ∧
    ∀ msg, (RegisterAck.fromDigMessage chia msg = none ↔ msg.msgType ≠ 219) ∧
      (∀ a, RegisterAck.fromDigMessage chia msg = some (.ok a) ↔ msg.msgType = 219 ∧ a.toBytes chia = .ok msg.data) ∧
      (msg.msgType = 219 → BadAck msg.data → ∃ e, RegisterAck.fromDigMessage chia msg = some (.error e)) := by
  refine ⟨fun r id h => ?_, fun a id => ?_, fun msg => ⟨?_, fun r => ?_, fun ht hbad => ?_⟩,
    fun msg => ⟨?_, fun a => ?_, fun ht hbad => ?_⟩⟩
  · have hmax : DigMessage.maxMessageSize = 16777216 := rfl
    refine body_round_trip (RegisterPeer.toBytes_eq_ok.2 ⟨by omega, rfl⟩) ?_ (by decide) id
    rw [length_peerLayout]
    omega
  · exact body_round_trip (RegisterAck.toBytes_eq a) (by simp [DigMessage.maxMessageSize]) (by decide) id
  · exact bodyFromDigMessage_eq_none
  · exact bodyFromDigMessage_eq_ok
  · exact bodyFromDigMessage_eq_error.2 ⟨ht, hbad.not_encoded⟩
  · exact bodyFromDigMessage_eq_none
  · exact bodyFromDigMessage_eq_ok
  · exact bodyFromDigMessage_eq_error.2 ⟨ht, hbad.not_encoded⟩

theorem registration_round_trip_fullNode : ∃ msg,
    RegisterPeer.toDigMessage ChiaTraits.reference ⟨"192.168.1.1", 9444, .fullNode⟩ (some 42) = .ok msg ∧
      msg.id = some 42 ∧ DigMessage.fromBytes msg.toBytes = .ok (some msg) ∧
      RegisterPeer.fromDigMessage ChiaTraits.reference msg = some (.ok ⟨"192.168.1.1", 9444, .fullNode⟩) ∧
      RegisterAck.fromDigMessage ChiaTraits.reference msg = none :=
  (registration_round_trip ChiaTraits.reference).1 _ _ (by decide)

end Dig
