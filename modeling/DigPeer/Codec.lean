import DigPeer.Message
/-!
# Codec — what the frame decoders accept, and what the encoder writes

The frame grammar is `Frames b m`: the buffer `b` starts with a frame of `m`, and what follows the frame is free.  A
frame has one degree of freedom beyond its message, the non-zero byte that says an id is present; `toBytes` writes it
as `1`.  `parse` decides `Frames` (`parse_eq_some_iff`), a buffer frames at most one message, and a frame cut before its
end frames nothing.
-/
namespace Dig

open BigEndian

def idBytes : Option UInt16 → Bytes
  | none    => []
  | some id => toBe 2 id.toNat

/-- **The frame grammar**: an opcode, a byte that is zero exactly when no id follows, the id, a four-byte length of at
most the cap, that many bytes, and anything after them. -/
def Frames (b : Bytes) (m : DigMessage) : Prop :=
  m.data.length ≤ DigMessage.maxMessageSize ∧
    ∃ (h : UInt8) (tail : Bytes), (h = 0 ↔ m.id = none) ∧
      b = m.msgType :: h :: (idBytes m.id ++ (toBe 4 m.data.length ++ (m.data ++ tail)))

/-- The bytes of a buffer that are a message's frame: six, two more with an id, and the payload. -/
def frameLength (m : DigMessage) : Nat := (if m.id = none then 6 else 8) + m.data.length

theorem length_idBytes (id : Option UInt16) : (idBytes id).length = if id = none then 0 else 2 := by
  cases id <;> simp [idBytes]

theorem toUInt16_idBytes (id : UInt16) : UInt16.ofNat (ofBe (toBe 2 id.toNat)) = id := by
  rw [ofBe_toBe_of_lt id.toNat_lt, UInt16.ofNat_toNat]

/-! ## Reading a length and a payload -/

theorem parseBody_eq (t : UInt8) (id : Option UInt16) (lenBytes rest : Bytes) (h : lenBytes.length = 4) :
    parseBody t id (lenBytes ++ rest) =
      if ofBe lenBytes ≤ DigMessage.maxMessageSize ∧ ofBe lenBytes ≤ rest.length
      then some ⟨t, id, rest.take (ofBe lenBytes)⟩ else none := by
  match lenBytes, h with
  | [_, _, _, _], _ => rfl

theorem parseBody_of_short (t : UInt8) (id : Option UInt16) : ∀ (rest : Bytes), rest.length < 4 →
    parseBody t id rest = none
  | [], _ | [_], _ | [_, _], _ | [_, _, _], _ => rfl
  | _ :: _ :: _ :: _ :: _, h => by simp at h; omega

theorem parseBody_toBe (t : UInt8) (id : Option UInt16) (n : Nat) (rest : Bytes) :
    parseBody t id (toBe 4 (n % 2 ^ 32) ++ rest) =
      if n % 2 ^ 32 ≤ DigMessage.maxMessageSize ∧ n % 2 ^ 32 ≤ rest.length
      then some ⟨t, id, rest.take (n % 2 ^ 32)⟩ else none := by
  have hn : ofBe (toBe 4 (n % 2 ^ 32)) = n % 2 ^ 32 := ofBe_toBe_of_lt (Nat.mod_lt _ (by decide))
  rw [parseBody_eq t id _ rest (length_toBe 4 _), hn]

theorem parseBody_eq_some {t : UInt8} {id : Option UInt16} {rest : Bytes} {m : DigMessage}
    (h : parseBody t id rest = some m) :
    m.msgType = t ∧ m.id = id ∧ m.data.length ≤ DigMessage.maxMessageSize ∧
      ∃ tail, rest = toBe 4 m.data.length ++ (m.data ++ tail) := by
  by_cases hlen : rest.length < 4
  · rw [parseBody_of_short t id rest hlen] at h; cases h
  have hfour : (rest.take 4).length = 4 := by rw [List.length_take]; omega
  rw [← List.take_append_drop 4 rest, parseBody_eq t id _ _ hfour] at h
  split at h
  · rename_i hn
    cases h
    have hdata : ((rest.drop 4).take (ofBe (rest.take 4))).length = ofBe (rest.take 4) := by
      rw [List.length_take]; omega
    have hback := toBe_ofBe (rest.take 4)
    rw [hfour] at hback
    refine ⟨rfl, rfl, by rw [hdata]; exact hn.1, (rest.drop 4).drop (ofBe (rest.take 4)), ?_⟩
    rw [hdata, hback, List.take_append_drop, List.take_append_drop]
  · cases h

/-! ## The grammar -/

theorem parse_cons_cons (t h i₀ i₁ : UInt8) (rest : Bytes) (hh : h ≠ 0) :
    parse (t :: h :: i₀ :: i₁ :: rest) = parseBody t (some (UInt16.ofNat (ofBe [i₀, i₁]))) rest := by
  simp only [parse, if_pos hh]

theorem parse_idBytes (t h : UInt8) (id : Option UInt16) (rest : Bytes) (htag : h = 0 ↔ id = none) :
    parse (t :: h :: (idBytes id ++ rest)) = parseBody t id rest := by
  cases id with
  | none => rw [htag.2 rfl]; rfl
  | some id =>
    have hh : h ≠ 0 := fun h0 => by cases htag.1 h0
    match hb : toBe 2 id.toNat, length_toBe 2 id.toNat with
    | [i₀, i₁], _ =>
      rw [idBytes, hb, List.cons_append, List.cons_append, List.nil_append, parse_cons_cons t h i₀ i₁ rest hh, ← hb,
        toUInt16_idBytes]

theorem parse_of_frames {b : Bytes} {m : DigMessage} (h : Frames b m) : parse b = some m := by
  obtain ⟨hmax, t, tail, htag, rfl⟩ := h
  have hlt : m.data.length < 2 ^ 32 := Nat.lt_of_le_of_lt hmax (by decide)
  have hbody : parseBody m.msgType m.id (toBe 4 m.data.length ++ (m.data ++ tail)) = some m := by
    have := parseBody_toBe m.msgType m.id m.data.length (m.data ++ tail)
    rw [Nat.mod_eq_of_lt hlt, if_pos ⟨hmax, by simp⟩, List.take_left] at this
    exact this
  rw [parse_idBytes _ _ _ _ htag, hbody]

theorem frames_of_parse {b : Bytes} {m : DigMessage} (h : parse b = some m) : Frames b m := by
  match b with
  | [] | [_] => cases h
  | t :: hasId :: rest =>
    by_cases hh : hasId = 0
    · subst hh
      obtain ⟨rfl, hid, hmax, tail, rfl⟩ := parseBody_eq_some (show parseBody t none rest = some m from h)
      exact ⟨hmax, 0, tail, by simp [hid], by rw [hid]; rfl⟩
    · match rest with
      | [] | [_] => simp [parse, hh] at h
      | i₀ :: i₁ :: rest =>
        rw [parse_cons_cons t hasId i₀ i₁ rest hh] at h
        obtain ⟨rfl, hid, hmax, tail, rfl⟩ := parseBody_eq_some h
        have hlt : ofBe [i₀, i₁] < 2 ^ 16 := calc
          ofBe [i₀, i₁] < 256 ^ 2 := ofBe_lt [i₀, i₁]
          _ = 2 ^ 16 := by decide
        have hback : toBe 2 (UInt16.ofNat (ofBe [i₀, i₁])).toNat = [i₀, i₁] := by
          rw [UInt16.toNat_ofNat', Nat.mod_eq_of_lt hlt]
          exact toBe_ofBe [i₀, i₁]
        refine ⟨hmax, hasId, tail, by simp [hid, hh], ?_⟩
        rw [hid, idBytes, hback]
        rfl

/-- **`parse` decides the grammar.** -/
theorem parse_eq_some_iff {b : Bytes} {m : DigMessage} : parse b = some m ↔ Frames b m :=
  ⟨frames_of_parse, parse_of_frames⟩

theorem Frames.append {b : Bytes} {m : DigMessage} (h : Frames b m) (s : Bytes) : Frames (b ++ s) m := by
  obtain ⟨hmax, t, tail, htag, rfl⟩ := h
  exact ⟨hmax, t, tail ++ s, htag, by simp⟩

theorem Frames.unique {b : Bytes} {m m' : DigMessage} (h : Frames b m) (h' : Frames b m') : m = m' :=
  Option.some.inj ((parse_of_frames h).symm.trans (parse_of_frames h'))

theorem Frames.frameLength_le {b : Bytes} {m : DigMessage} (h : Frames b m) : frameLength m ≤ b.length := by
  obtain ⟨_, t, tail, _, rfl⟩ := h
  simp only [frameLength, List.length_cons, List.length_append, length_idBytes, length_toBe]
  split <;> omega

/-- **A frame cut before its end is not a frame**, of any message: the uncut buffer would have both. -/
theorem parse_take_of_lt {b : Bytes} {m : DigMessage} {k : Nat} (h : Frames b m) (hk : k < frameLength m) :
    parse (b.take k) = none := by
  cases hp : parse (b.take k) with
  | none => rfl
  | some m' =>
    have hcut := frames_of_parse hp
    have hm : Frames b m' := by
      have := hcut.append (b.drop k)
      rwa [List.take_append_drop] at this
    have hle := hcut.frameLength_le
    rw [hm.unique h, List.length_take] at hle
    omega

/-! ## The encoder -/

theorem toBytes_eq (m : DigMessage) : m.toBytes =
    m.msgType :: (if m.id = none then 0 else 1) :: (idBytes m.id ++ (toBe 4 (m.data.length % 2 ^ 32) ++ m.data)) := by
  cases hid : m.id <;> simp [DigMessage.toBytes, idBytes, hid]

theorem frames_toBytes {m : DigMessage} (h : m.data.length ≤ DigMessage.maxMessageSize) (s : Bytes) :
    Frames (m.toBytes ++ s) m := by
  have hlt : m.data.length < 2 ^ 32 := Nat.lt_of_le_of_lt h (by decide)
  refine ⟨h, if m.id = none then 0 else 1, s, ?_, ?_⟩
  · split <;> simp_all
  · rw [toBytes_eq, Nat.mod_eq_of_lt hlt]
    simp

/-- **What the decoders read where the encoder wrote**, at every payload length: the length field is the payload's
length modulo `2 ^ 32`. -/
theorem parse_toBytes_append (m : DigMessage) (s : Bytes) : parse (m.toBytes ++ s) =
    if m.data.length % 2 ^ 32 ≤ DigMessage.maxMessageSize
    then some { m with data := m.data.take (m.data.length % 2 ^ 32) } else none := by
  have hle : m.data.length % 2 ^ 32 ≤ m.data.length := Nat.mod_le _ _
  have hbody := parseBody_toBe m.msgType m.id m.data.length (m.data ++ s)
  rw [List.take_append_of_le_length hle, List.length_append] at hbody
  rw [toBytes_eq, List.cons_append, List.cons_append, List.append_assoc, List.append_assoc]
  have hcond : (m.data.length % 2 ^ 32 ≤ DigMessage.maxMessageSize ∧ m.data.length % 2 ^ 32 ≤ m.data.length + s.length) ↔
      m.data.length % 2 ^ 32 ≤ DigMessage.maxMessageSize := by omega
  simp only [hcond] at hbody
  rw [parse_idBytes, hbody]
  split <;> simp_all

theorem parse_toBytes_of_gt {m : DigMessage} (h : DigMessage.maxMessageSize < m.data.length)
    (hu : m.data.length < 2 ^ 32) (s : Bytes) : parse (m.toBytes ++ s) = none := by
  rw [parse_toBytes_append, Nat.mod_eq_of_lt hu, if_neg (by omega)]

/-- **A message decodes from its own encoding exactly when its payload is within the cap**: past it the length is
refused, and past `2 ^ 32` the length written is not the payload's. -/
theorem parse_toBytes_iff (m : DigMessage) :
    parse m.toBytes = some m ↔ m.data.length ≤ DigMessage.maxMessageSize := by
  constructor
  · intro h
    exact (frames_of_parse h).1
  · intro h
    have := parse_of_frames (frames_toBytes h [])
    rwa [List.append_nil] at this

/-- **The encoding decodes to another message** exactly when the length field has wrapped to one within the cap: the
payload's tail is then read as what follows the frame. -/
theorem parse_toBytes_ne_iff (m : DigMessage) : (∃ m', parse m.toBytes = some m' ∧ m' ≠ m) ↔
    2 ^ 32 ≤ m.data.length ∧ m.data.length % 2 ^ 32 ≤ DigMessage.maxMessageSize := by
  have hparse := parse_toBytes_append m []
  rw [List.append_nil] at hparse
  constructor
  · rintro ⟨m', hm', hne⟩
    rw [hparse] at hm'
    split at hm'
    · rename_i hcap
      refine ⟨Nat.le_of_not_lt fun hlt => hne ?_, hcap⟩
      cases hm'
      rw [Nat.mod_eq_of_lt hlt, List.take_length]
    · cases hm'
  · rintro ⟨hwrap, hcap⟩
    rw [if_pos hcap] at hparse
    refine ⟨_, hparse, fun heq => ?_⟩
    have hlen := congrArg (fun x => x.data.length) heq
    have hmod : m.data.length % 2 ^ 32 < 2 ^ 32 := Nat.mod_lt _ (by decide)
    simp only [List.length_take] at hlen
    omega

theorem Frames.toBytes_eq_take {b : Bytes} {m : DigMessage} (h : Frames b m) :
    m.toBytes = (b.take (frameLength m)).set 1 (if m.id = none then 0 else 1) := by
  obtain ⟨hmax, t, tail, _, rfl⟩ := h
  have hlt : m.data.length < 2 ^ 32 := Nat.lt_of_le_of_lt hmax (by decide)
  have hlen : frameLength m = (idBytes m.id ++ (toBe 4 m.data.length ++ m.data)).length + 2 := by
    simp only [frameLength, List.length_append, length_idBytes, length_toBe]
    split <;> omega
  have hsplit : idBytes m.id ++ (toBe 4 m.data.length ++ (m.data ++ tail)) =
      (idBytes m.id ++ (toBe 4 m.data.length ++ m.data)) ++ tail := by simp
  rw [toBytes_eq, Nat.mod_eq_of_lt hlt, hlen, List.take_succ_cons, List.take_succ_cons, List.set_cons_succ,
    List.set_cons_zero, hsplit, List.take_left]

namespace DigMessage

/-- **Decoding undoes encoding, whatever follows the frame**, for every payload within the cap; so no encoding is a
prefix of another's, and a longer payload that a length field can still describe is refused. -/
theorem decode_toBytes_append :
    (∀ (m : DigMessage) (s : Bytes), m.data.length ≤ maxMessageSize →
      fromBytes (m.toBytes ++ s) = .ok (some m) ∧ fromBytesOwned (m.toBytes ++ s) = .ok (some m)) ∧
    (∀ m m' : DigMessage, m.data.length ≤ maxMessageSize → m'.data.length ≤ maxMessageSize → m ≠ m' →
      ¬ m.toBytes <+: m'.toBytes) ∧
    (∀ (m : DigMessage) (s : Bytes), maxMessageSize < m.data.length → m.data.length ≤ 2 ^ 32 - 1 →
      fromBytes (m.toBytes ++ s) = .ok none ∧ fromBytesOwned (m.toBytes ++ s) = .ok none) := by
  refine ⟨fun m s h => ?_, fun m m' h h' hne hpre => ?_, fun m s h hu => ?_⟩
  · rw [fromBytes_eq, fromBytesOwned_eq, parse_of_frames (frames_toBytes h s)]
    exact ⟨rfl, rfl⟩
  · obtain ⟨s, hs⟩ := hpre
    have h1 := frames_toBytes h s
    have h2 := frames_toBytes h' []
    rw [List.append_nil, ← hs] at h2
    exact hne (h1.unique h2)
  · have hlt : m.data.length < 2 ^ 32 := by omega
    rw [fromBytes_eq, fromBytesOwned_eq, parse_toBytes_of_gt h hlt s]
    exact ⟨rfl, rfl⟩

theorem decode_toBytes_append_trailing :
    fromBytes (toBytes ⟨220, some 258, [1, 2]⟩ ++ [9]) = .ok (some ⟨220, some 258, [1, 2]⟩) ∧
      fromBytesOwned (toBytes ⟨220, some 258, [1, 2]⟩ ++ [9]) = .ok (some ⟨220, some 258, [1, 2]⟩) :=
  decode_toBytes_append.1 _ _ (by decide)

/-- **The decoder accepts exactly its grammar**, and never indexes out of range; an accepted frame is its message's
encoding but for the id byte, which the encoder writes as `1`, so re-encoding decodes to the same message; and no
accepted frame can be cut short. -/
theorem fromBytes_grammar :
    (∀ b, ∃ r, fromBytes b = .ok r) ∧
    (∀ b m, fromBytes b = .ok (some m) ↔ Frames b m) ∧
    (∀ b m, fromBytes b = .ok (some m) →
      m.toBytes = (b.take (frameLength m)).set 1 (if b[1]? = some 0 then 0 else 1) ∧
        fromBytes m.toBytes = .ok (some m)) ∧
    (∀ b m k, fromBytes b = .ok (some m) → k < frameLength m → fromBytes (b.take k) = .ok none) := by
  have hiff : ∀ b m, fromBytes b = .ok (some m) ↔ Frames b m := fun b m => by
    rw [fromBytes_eq, Except.ok.injEq, parse_eq_some_iff]
  refine ⟨fun b => ⟨parse b, fromBytes_eq b⟩, hiff, fun b m h => ?_, fun b m k h hk => ?_⟩
  · have hf := (hiff b m).1 h
    refine ⟨?_, ?_⟩
    · rw [hf.toBytes_eq_take]
      obtain ⟨_, t, tail, htag, rfl⟩ := hf
      simp only [List.getElem?_cons_succ, List.getElem?_cons_zero, Option.some.injEq, htag]
    · rw [fromBytes_eq, (parse_toBytes_iff m).2 hf.1]
  · rw [fromBytes_eq, parse_take_of_lt ((hiff b m).1 h) hk]

theorem fromBytes_grammar_tag :
    toBytes ⟨220, some 258, [5]⟩ = ([220, 7, 1, 2, 0, 0, 0, 1, 5, 9].take 9).set 1 1 ∧
      fromBytes (toBytes ⟨220, some 258, [5]⟩) = .ok (some ⟨220, some 258, [5]⟩) := by
  have hparse : parse [220, 7, 1, 2, 0, 0, 0, 1, 5, 9] = some ⟨220, some 258, [5]⟩ := by decide +kernel
  exact fromBytes_grammar.2.2.1 _ _ ((fromBytes_eq _).trans (congrArg Except.ok hparse))

/-! ## The two decoders, and the length the encoder writes -/

/-- **The moving decoder is the copying one**, on every buffer: the same buffers are accepted, as the same messages, and
neither panics. -/
theorem fromBytesOwned_eq_fromBytes (b : Bytes) :
    fromBytesOwned b = fromBytes b ∧ ∃ r, fromBytesOwned b = .ok r ∧ fromBytes b = .ok r :=
  ⟨(fromBytesOwned_eq b).trans (fromBytes_eq b).symm, parse b, fromBytesOwned_eq b, fromBytes_eq b⟩

def dataLen (m : DigMessage) : Bytes := (m.toBytes.drop (if m.id = none then 2 else 4)).take 4

theorem dataLen_eq (m : DigMessage) : m.dataLen = toBe 4 (m.data.length % 2 ^ 32) := by
  have hid : (if m.id = none then 2 else 4) = (idBytes m.id).length + 2 := by
    rw [length_idBytes]; split <;> rfl
  rw [dataLen, hid, toBytes_eq, List.drop_succ_cons, List.drop_succ_cons, List.drop_left,
    List.take_left' (length_toBe 4 _)]

/-- **The encoding means its message**: the length written is the payload's, and the frame decodes to the message or to
none. -/
structure MeansItself (m : DigMessage) : Prop where
  length_eq : ofBe m.dataLen = m.data.length
  decoded   : fromBytes m.toBytes = .ok (some m) ∨ fromBytes m.toBytes = .ok none

/-- **An encoding means its message exactly when a `u32` describes the payload's length.**  The encoder has no such
check: it narrows the length and writes the frame. -/
theorem meansItself_iff (m : DigMessage) : m.MeansItself ↔ m.data.length ≤ 2 ^ 32 - 1 := by
  have hlt : m.data.length % 2 ^ 32 < 256 ^ 4 := Nat.mod_lt _ (by decide)
  have hread : ofBe m.dataLen = m.data.length % 2 ^ 32 := by rw [dataLen_eq, ofBe_toBe_of_lt hlt]
  constructor
  · intro h
    have hmod := h.length_eq
    omega
  · intro h
    refine ⟨by omega, ?_⟩
    rw [fromBytes_eq]
    cases hm : parse m.toBytes with
    | none => exact Or.inr rfl
    | some m' =>
      -- another message would need a length that has wrapped
      have hself : m' = m := by
        refine Decidable.byContradiction fun hne => ?_
        have hwrap := ((parse_toBytes_ne_iff m).1 ⟨m', hm, hne⟩).1
        omega
      rw [hself]
      exact Or.inl rfl

/-- A payload of `2 ^ 32` bytes is written with the length zero, and decodes as the empty payload. -/
theorem not_meansItself :
    ¬ (DigMessage.mk 220 none (List.replicate (2 ^ 32) 0)).MeansItself ∧
      fromBytes (DigMessage.mk 220 none (List.replicate (2 ^ 32) 0)).toBytes = .ok (some ⟨220, none, []⟩) := by
  have hlen : (List.replicate (2 ^ 32) (0 : UInt8)).length = 2 ^ 32 := List.length_replicate
  have hread : fromBytes (DigMessage.mk 220 none (List.replicate (2 ^ 32) 0)).toBytes = .ok (some ⟨220, none, []⟩) := by
    have hparse := parse_toBytes_append ⟨220, none, List.replicate (2 ^ 32) 0⟩ []
    rw [List.append_nil] at hparse
    rw [fromBytes_eq, hparse]
    simp only [hlen, Nat.mod_self, List.take_zero, Nat.zero_le, if_true]
  refine ⟨fun h => ?_, hread⟩
  rcases h.decoded with hsome | hnone
  · rw [hread, Except.ok.injEq, Option.some.injEq] at hsome
    have hzero := congrArg (fun m => m.data.length) hsome
    simp only [hlen, List.length_nil] at hzero
    omega
  · rw [hread] at hnone
    cases hnone

end DigMessage

end Dig
