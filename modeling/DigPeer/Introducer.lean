import DigPeer.Registration
/-!
# Introducer — the peer list (`RequestPeersIntroducer` and `RespondPeersIntroducer` in `introducer_wire.rs`)

The request has an empty body and the response a vector of peers: their number and then each of them, in the format that
upstream gives a `TimestampedPeerInfo`.  No peer's encoding is empty, so the number is right or the body is refused.
-/
namespace Dig

open BigEndian

/-- The format of `chia-traits` for vectors, beside the others. -/
structure ChiaVectors (ε : Type) extends ChiaTraits ε where
  vec        : {α : Type} → Wire ε α → Wire ε (List α)
  encode_vec : ∀ {α : Type} (w : Wire ε α) as e, (vec w).encode as = .ok e ↔
    as.length < 2 ^ 32 ∧ ∃ body, w.encodeAll as = .ok body ∧ e = toBe 4 as.length ++ body

/-- Upstream's `TimestampedPeerInfo`: values of some type, in some format that takes `least` bytes or more for each. -/
structure PeerInfoFormat (ε P : Type) where
  wire     : Wire ε P
  least    : ℕ
  pos      : 0 < least
  least_le : ∀ {p : P} {e : Bytes}, wire.encode p = .ok e → least ≤ e.length

namespace ChiaVectors

def reference : ChiaVectors ChiaError where
  toChiaTraits := .reference
  vec w        := .list (.number 4 .sequenceTooLarge .endOfBuffer) w
  encode_vec w as e := by
    simp only [Wire.list, Wire.number, Wire.bind_eq_ok_iff, pure, Except.pure, Except.ok.injEq]
    constructor
    · rintro ⟨e₁, he₁, e₂, he₂, rfl⟩
      split at he₁
      · rename_i hlt
        cases he₁
        exact ⟨hlt, e₂, he₂, rfl⟩
      · cases he₁
    · rintro ⟨hlt, e₂, he₂, rfl⟩
      exact ⟨_, if_pos hlt, e₂, he₂, rfl⟩

end ChiaVectors

namespace PeerInfoFormat

def long : Wire ChiaError UInt64 :=
  .word 8 .sequenceTooLarge .endOfBuffer UInt64.toNat UInt64.ofNat UInt64.toNat_lt (fun _ => UInt64.toNat_ofNat_of_lt')
    fun _ => UInt64.ofNat_toNat

def reference : PeerInfoFormat ChiaError (String × UInt16 × UInt64) where
  wire  := ChiaTraits.reference.string.seq (ChiaTraits.reference.u16.seq long)
  least := 14
  pos   := by decide
  least_le := by
    intro p e he
    obtain ⟨e₁, e₂, hhost, hrest, rfl⟩ := Wire.encode_seq.1 he
    obtain ⟨e₃, e₄, hport, htime, rfl⟩ := Wire.encode_seq.1 hrest
    obtain ⟨-, rfl⟩ := (ChiaTraits.reference.encode_string _ _).1 hhost
    rw [ChiaTraits.reference.encode_u16] at hport
    cases hport
    have hlong : long.encode p.2.2 = .ok (toBe 8 p.2.2.toNat) := if_pos p.2.2.toNat_lt
    rw [hlong] at htime
    cases htime
    simp only [List.length_append, length_toBe]
    omega

end PeerInfoFormat

variable {ε P : Type}

structure RequestPeersIntroducer where
deriving DecidableEq, Repr

namespace RequestPeersIntroducer

def equivUnit : Unit ≃ RequestPeersIntroducer where
  toFun _     := ⟨⟩
  invFun _    := ()
  left_inv _  := rfl
  right_inv _ := rfl

def wire : Wire ε RequestPeersIntroducer := Wire.unit.map equivUnit

end RequestPeersIntroducer

structure RespondPeersIntroducer (P : Type) where
  peerList : List P
deriving DecidableEq, Repr

namespace RespondPeersIntroducer

def equivList : List P ≃ RespondPeersIntroducer P where
  toFun peers := ⟨peers⟩
  invFun r    := r.peerList
  left_inv _  := rfl
  right_inv _ := rfl

variable (chia : ChiaVectors ε) (format : PeerInfoFormat ε P)

def wire : Wire ε (RespondPeersIntroducer P) := (chia.vec format.wire).map equivList

def toBytes (r : RespondPeersIntroducer P) : Except ε Bytes := (wire chia format).encode r

def fromBytes (data : Bytes) : Except ε (RespondPeersIntroducer P) :=
  (wire chia format).fromBytes chia.inputTooLong data

end RespondPeersIntroducer

/-! ## What they look like -/

namespace RespondPeersIntroducer

variable {chia : ChiaVectors ε} {format : PeerInfoFormat ε P} {r r' : RespondPeersIntroducer P} {data : Bytes}

/-- The payload has `n` for its number of peers, and after it these. -/
def Lists (format : PeerInfoFormat ε P) (n : ℕ) (r : RespondPeersIntroducer P) (data : Bytes) : Prop :=
  ∃ body, format.wire.encodeAll r.peerList = .ok body ∧ data = toBe 4 n ++ body

theorem toBytes_eq_ok : r.toBytes chia format = .ok data ↔
    r.peerList.length < 2 ^ 32 ∧ Lists format r.peerList.length r data :=
  chia.encode_vec format.wire r.peerList data

theorem fromBytes_eq_ok : fromBytes chia format data = .ok r ↔ r.toBytes chia format = .ok data := Wire.fromBytes_eq_ok

theorem Lists.inj {n n' : ℕ} (h : Lists format n r data) (h' : Lists format n' r' data) (hn : n < 2 ^ 32)
    (hn' : n' < 2 ^ 32) : n = n' ∧ r.peerList = r'.peerList := by
  obtain ⟨body, hbody, rfl⟩ := h
  obtain ⟨body', hbody', hdata⟩ := h'
  obtain ⟨hcount, rfl⟩ := List.append_inj hdata (by simp)
  have hcounts := congrArg ofBe hcount
  rw [ofBe_toBe_of_lt hn, ofBe_toBe_of_lt hn'] at hcounts
  have hnonempty : ∀ p, format.wire.encode p ≠ .ok [] := fun p hp =>
    Nat.not_lt.2 (format.least_le hp) format.pos
  exact ⟨hcounts, Wire.encodeAll_inj hnonempty hbody hbody'⟩

/-- Bodies that went wrong: cut short, with more after them, or with another number of peers than there are. -/
inductive Bad (chia : ChiaVectors ε) (format : PeerInfoFormat ε P) : Bytes → Prop
  | truncated (r : RespondPeersIntroducer P) (e : Bytes) (k : ℕ) (he : r.toBytes chia format = .ok e)
      (hk : k < e.length) : Bad chia format (e.take k)
  | extended (r : RespondPeersIntroducer P) (e s : Bytes) (he : r.toBytes chia format = .ok e) (hs : s ≠ []) :
      Bad chia format (e ++ s)
  | miscounted (r : RespondPeersIntroducer P) (n : ℕ) (data : Bytes) (hr : Lists format n r data) (hn : n < 2 ^ 32)
      (hne : n ≠ r.peerList.length) : Bad chia format data

theorem fromBytes_take {k : ℕ} (h : r.toBytes chia format = .ok data) (hk : k < data.length) :
    ∃ e, fromBytes chia format (data.take k) = .error e := Wire.fromBytes_take h hk

theorem Bad.refused (h : Bad chia format data) : ∃ e, fromBytes chia format data = .error e := by
  cases h with
  | truncated r e k he hk => exact fromBytes_take he hk
  | extended r e s he hs => exact Wire.fromBytes_append he hs
  | miscounted r n _ hr hn hne =>
    refine Wire.fromBytes_eq_error.2 fun r' hr' => ?_
    obtain ⟨hlt, hlists⟩ := toBytes_eq_ok.1 hr'
    obtain ⟨rfl, hsame⟩ := hr.inj hlists hn hlt
    exact hne (by rw [hsame])

theorem least_mul_length_le : ∀ {ps : List P} {body : Bytes}, format.wire.encodeAll ps = .ok body →
    format.least * ps.length ≤ body.length
  | [], _, _        => Nat.zero_le _
  | p :: ps, _, h => by
    obtain ⟨e₁, e₂, h₁, h₂, rfl⟩ := Wire.encodeAll_cons.1 h
    have hfirst := format.least_le h₁
    have hrest := least_mul_length_le h₂
    rw [List.length_append, List.length_cons, Nat.mul_succ]
    omega

theorem length_ge (h : fromBytes chia format data = .ok r) : 4 + format.least * r.peerList.length ≤ data.length := by
  obtain ⟨-, body, hbody, rfl⟩ := toBytes_eq_ok.1 (fromBytes_eq_ok.1 h)
  have hpeers := least_mul_length_le hbody
  rw [List.length_append, length_toBe]
  omega

/-- **A list comes out of the frame it was put in exactly where its encoding is within the cap**: a longer one is
refused, or its length field has wrapped and what is read is the list cut short. -/
theorem comes_out_iff (t : UInt8) (id : Option UInt16) (h : r.toBytes chia format = .ok data) :
    (∃ m, DigMessage.fromBytesOwned (DigMessage.mk t id data).toBytes = .ok (some m) ∧
      fromBytes chia format m.data = .ok r) ↔ data.length ≤ DigMessage.maxMessageSize := by
  simp only [DigMessage.fromBytesOwned_eq, Except.ok.injEq]
  constructor
  · rintro ⟨m, hm, hr⟩
    have hparse := parse_toBytes_append ⟨t, id, data⟩ []
    rw [List.append_nil, hm] at hparse
    split at hparse
    · rename_i hcap
      rw [Option.some.injEq] at hparse
      subst hparse
      -- what was read is the whole list, for a part of it is refused
      by_contra hlong
      have hcut : data.length % 2 ^ 32 < data.length := Nat.lt_of_le_of_lt hcap (Nat.not_le.1 hlong)
      obtain ⟨e, he⟩ := fromBytes_take h hcut
      rw [he] at hr
      cases hr
    · cases hparse
  · intro hcap
    exact ⟨_, (parse_toBytes_iff _).2 hcap, fromBytes_eq_ok.2 h⟩

end RespondPeersIntroducer

/-- **The peer list is decoded strictly, and crosses the wire whole or not at all.**  A payload is read as a list of
peers exactly where it is this list's encoding, their number and then each of them; so one that is cut short, goes on or
has the wrong number is refused.  A list that is put in a frame comes out of it exactly where its encoding is within the
cap, and no frame makes more peers than fit under the cap.  The request for the list is read from an empty payload
alone. -/
theorem peerList_strict (chia : ChiaVectors ε) (format : PeerInfoFormat ε P) :
    (∀ data r, RespondPeersIntroducer.fromBytes chia format data = .ok r ↔ r.peerList.length < 2 ^ 32 ∧
      ∃ body, format.wire.encodeAll r.peerList = .ok body ∧ data = toBe 4 r.peerList.length ++ body) ∧
    (∀ data, RespondPeersIntroducer.Bad chia format data →
      ∃ e, RespondPeersIntroducer.fromBytes chia format data = .error e) ∧
    (∀ r data (t : UInt8) (id : Option UInt16), r.toBytes chia format = .ok data →
      ((∃ m, DigMessage.fromBytesOwned (DigMessage.mk t id data).toBytes = .ok (some m) ∧
        RespondPeersIntroducer.fromBytes chia format m.data = .ok r) ↔ data.length ≤ DigMessage.maxMessageSize)) ∧
    (∀ b m r, DigMessage.fromBytesOwned b = .ok (some m) →
      RespondPeersIntroducer.fromBytes chia format m.data = .ok r →
        4 + format.least * r.peerList.length ≤ DigMessage.maxMessageSize ∧
          10 + format.least * r.peerList.length ≤ b.length) ∧
    ∀ data q, RequestPeersIntroducer.wire.fromBytes chia.inputTooLong data = .ok q ↔ data = [] := by
  refine ⟨fun data r => ?_, fun data h => h.refused, fun r data t id h => RespondPeersIntroducer.comes_out_iff t id h,
    fun b m r hb hr => ?_, fun data q => ?_⟩
  · exact RespondPeersIntroducer.fromBytes_eq_ok.trans RespondPeersIntroducer.toBytes_eq_ok
  · rw [DigMessage.fromBytesOwned_eq, Except.ok.injEq, parse_eq_some_iff] at hb
    have hleast := RespondPeersIntroducer.length_ge hr
    have hframe := hb.frameLength_le
    refine ⟨Nat.le_trans hleast hb.1, ?_⟩
    rw [frameLength] at hframe
    split at hframe <;> omega
  · rw [Wire.fromBytes_eq_ok]
    exact ⟨fun h => by cases h; rfl, fun h => by rw [h]; rfl⟩

def twoPeers : RespondPeersIntroducer (String × UInt16 × UInt64) :=
  ⟨[("203.0.113.7", 9444, 1700000000), ("198.51.100.42", 18444, 1700000500)]⟩

def twoPeersBody : Bytes :=
  [0, 0, 0, 11, 50, 48, 51, 46, 48, 46, 49, 49, 51, 46, 55, 0x24, 0xe4, 0, 0, 0, 0, 0x65, 0x53, 0xf1, 0,
    0, 0, 0, 13, 49, 57, 56, 46, 53, 49, 46, 49, 48, 48, 46, 52, 50, 0x48, 0x0c, 0, 0, 0, 0, 0x65, 0x53, 0xf2, 0xf4]

theorem encodeAll_twoPeers : PeerInfoFormat.reference.wire.encodeAll twoPeers.peerList = .ok twoPeersBody := by
  rfl

theorem peerList_strict_twoPeers :
    RespondPeersIntroducer.fromBytes .reference .reference ([0, 0, 0, 2] ++ twoPeersBody) = .ok twoPeers ∧
    (∃ e, RespondPeersIntroducer.fromBytes .reference PeerInfoFormat.reference ([0, 0, 0, 3] ++ twoPeersBody) =
      .error e) ∧
    ∃ m, DigMessage.fromBytesOwned (DigMessage.mk 64 (some 7) ([0, 0, 0, 2] ++ twoPeersBody)).toBytes = .ok (some m) ∧
      RespondPeersIntroducer.fromBytes .reference .reference m.data = .ok twoPeers := by
  have hstrict := peerList_strict .reference PeerInfoFormat.reference
  have hencoded : twoPeers.toBytes .reference .reference = .ok ([0, 0, 0, 2] ++ twoPeersBody) :=
    RespondPeersIntroducer.toBytes_eq_ok.2 ⟨by decide, _, encodeAll_twoPeers, rfl⟩
  refine ⟨(hstrict.1 _ _).2 ⟨by decide, _, encodeAll_twoPeers, rfl⟩, hstrict.2.1 _ ?_,
    (hstrict.2.2.1 _ _ 64 (some 7) hencoded).2 (by decide)⟩
  exact .miscounted twoPeers 3 _ ⟨_, encodeAll_twoPeers, rfl⟩ (by decide) (by decide)

end Dig
