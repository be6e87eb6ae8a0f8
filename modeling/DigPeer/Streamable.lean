import DigPeer.Message
import DigPeer.Lib.Wire
/-!
# Streamable — what the upstream crates encode (`chia-traits`, `chia-protocol`)

Message bodies are made of the upstream `Streamable` formats.  Their code is not the repository's, so a `ChiaTraits` is
any collection of formats with the documented layouts: what is proved with one holds of the upstream formats, whatever
errors they give.  `ChiaTraits.reference` is one that can be run.
-/
namespace Dig

open BigEndian

def utf8 (s : String) : Bytes := s.toUTF8.data.toList

/-- The formats of `chia-traits`, with its errors `InvalidEnum` and `InputTooLong`. -/
structure ChiaTraits (ε : Type) where
  invalidEnum   : ε
  inputTooLong  : ε
  u8            : Wire ε UInt8
  u16           : Wire ε UInt16
  bool          : Wire ε Bool
  string        : Wire ε String
  bytes         : Wire ε Bytes
  option        : {α : Type} → Wire ε α → Wire ε (Option α)
  encode_u8     : ∀ n, u8.encode n = .ok [n]
  encode_u16    : ∀ n, u16.encode n = .ok (toBe 2 n.toNat)
  encode_bool   : ∀ b, bool.encode b = .ok [if b then 1 else 0]
  encode_string : ∀ s e, string.encode s = .ok e ↔ (utf8 s).length < 2 ^ 32 ∧ e = toBe 4 (utf8 s).length ++ utf8 s
  encode_bytes  : ∀ data e, bytes.encode data = .ok e ↔ data.length < 2 ^ 32 ∧ e = toBe 4 data.length ++ data
  encode_none   : ∀ {α : Type} (w : Wire ε α), (option w).encode none = .ok [0]
  encode_some   : ∀ {α : Type} (w : Wire ε α) a e,
    (option w).encode (some a) = .ok e ↔ ∃ e', w.encode a = .ok e' ∧ e = 1 :: e'

/-- `ProtocolMessageTypes`: some opcodes, each written as its byte. -/
structure ProtocolMessageTypes (ε : Type) where
  Variant     : Type
  toByte      : Variant → UInt8
  wire        : Wire ε Variant
  encode_wire : ∀ t, wire.encode t = .ok [toByte t]

/-! ## Formats that can be run -/

/-- The errors of `chia-traits` that a format of the collection gives. -/
inductive ChiaError where
  | endOfBuffer
  | invalidBool
  | invalidEnum
  | invalidOptional
  | invalidString
  | inputTooLong
  | sequenceTooLarge
deriving DecidableEq, Repr

def readUtf8 (data : Bytes) : Option String := String.fromUTF8? data.toByteArray

theorem readUtf8_eq_some (data : Bytes) (s : String) : readUtf8 data = some s ↔ utf8 s = data := by
  unfold readUtf8
  constructor
  · intro h
    unfold String.fromUTF8? at h
    split at h
    · cases h
      exact List.toList_data_toByteArray
    · cases h
  · rintro rfl
    have hback : (utf8 s).toByteArray = s.toByteArray := ByteArray.ext (by simp [utf8, List.data_toByteArray])
    rw [hback, String.fromUTF8?, dif_pos s.isValidUTF8]
    rfl

namespace ChiaTraits

def byte : Wire ChiaError UInt8 :=
  .word 1 .sequenceTooLarge .endOfBuffer UInt8.toNat UInt8.ofNat UInt8.toNat_lt (fun _ => UInt8.toNat_ofNat_of_lt')
    fun _ => UInt8.ofNat_toNat

def half : Wire ChiaError UInt16 :=
  .word 2 .sequenceTooLarge .endOfBuffer UInt16.toNat UInt16.ofNat UInt16.toNat_lt (fun _ => UInt16.toNat_ofNat_of_lt')
    fun _ => UInt16.ofNat_toNat

def sequence : Wire ChiaError Bytes := .ofLength (.number 4 .sequenceTooLarge .endOfBuffer) .endOfBuffer

theorem encode_sequence {data e : Bytes} :
    sequence.encode data = .ok e ↔ data.length < 2 ^ 32 ∧ e = toBe 4 data.length ++ data := by
  simp only [sequence, Wire.ofLength, Wire.number, Wire.bind_eq_ok_iff, pure, Except.pure, Except.ok.injEq]
  constructor
  · rintro ⟨e', he', rfl⟩
    split at he'
    · rename_i h
      cases he'
      exact ⟨h, rfl⟩
    · cases he'
  · rintro ⟨h, rfl⟩
    exact ⟨_, if_pos h, rfl⟩

def reference : ChiaTraits ChiaError where
  invalidEnum   := .invalidEnum
  inputTooLong  := .inputTooLong
  u8            := byte
  u16           := half
  bool          := byte.choose (fun b => if b then 1 else 0)
    (fun n => if n = 0 then some false else if n = 1 then some true else none) .invalidBool
    fun n b => by cases b <;> by_cases h0 : n = 0 <;> by_cases h1 : n = 1 <;> simp_all [eq_comm]
  string        := sequence.choose utf8 readUtf8 .invalidString readUtf8_eq_some
  bytes         := sequence
  option w      := w.option .endOfBuffer .invalidOptional
  encode_u8 n   := by
    have hn : toBe 1 n.toNat = [n] := by simp [toBe]
    rw [← hn]
    exact if_pos n.toNat_lt
  encode_u16 n  := if_pos n.toNat_lt
  encode_bool b := by cases b <;> rfl
  encode_string s e := encode_sequence
  encode_bytes data e := encode_sequence
  encode_none w := rfl
  encode_some w a e := by
    simp only [Wire.option, Wire.bind_eq_ok_iff, pure, Except.pure, Except.ok.injEq]
    exact exists_congr fun _ => and_congr_right fun _ => eq_comm

end ChiaTraits

end Dig
