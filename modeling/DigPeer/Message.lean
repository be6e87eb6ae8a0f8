import DigPeer.Lib.BigEndian
/-!
# Message — the DIG peer envelope and its codec (`dig_message.rs`)

A `DigMessage` is a raw opcode, an optional correlation id and a payload.  `toBytes` writes it; `fromBytes` and
`fromBytesOwned` read it back from a borrowed and from an owned buffer.  Both decoders are translated with every
operation of theirs that can fail: a `?` on a `checked_add` and an early `return None` are the failure of `OptionT`,
an index or a range out of bounds is a `Panic`, so that the absence of one is a theorem and not an assumption.
-/
namespace Dig

open BigEndian

abbrev Bytes := List UInt8

structure DigMessage where
  msgType : UInt8
  id      : Option UInt16
  data    : Bytes
deriving DecidableEq, Repr

namespace DigMessage

def maxMessageSize : Nat := 16 * 1024 * 1024

/-- `to_bytes`.  The length is narrowed by `as u32`, which keeps it modulo `2 ^ 32`. -/
def toBytes (m : DigMessage) : Bytes :=
  [m.msgType]
    ++ (match m.id with
        | some id => 1 :: toBe 2 id.toNat
        | none    => [0])
    ++ toBe 4 (m.data.length % 2 ^ 32)
    ++ m.data

end DigMessage

/-! ## What a decoder can do besides returning -/

inductive Panic where
  | indexOutOfBounds
  | rangeOutOfBounds
deriving DecidableEq, Repr

abbrev Decode := OptionT (Except Panic)

def Decode.abort {α : Type} (p : Panic) : Decode α := OptionT.mk (.error p)

/-- `if c { return None; }`. -/
def refuseIf (c : Prop) [Decidable c] : Decode Unit := if c then failure else pure ()

def index (bytes : Bytes) (i : Nat) : Decode UInt8 :=
  match bytes[i]? with
  | some b => pure b
  | none   => .abort .indexOutOfBounds

/-- `bytes[start..stop].to_vec()`. -/
def slice (bytes : Bytes) (start stop : Nat) : Decode Bytes :=
  if start ≤ stop ∧ stop ≤ bytes.length then pure ((bytes.take stop).drop start) else .abort .rangeOutOfBounds

/-- `buf.drain(start..stop).collect()`: the elements taken out, and what stays in the buffer. -/
def drain (buf : Bytes) (start stop : Nat) : Decode (Bytes × Bytes) :=
  if start ≤ stop ∧ stop ≤ buf.length then pure ((buf.drop start).take (stop - start), buf.take start ++ buf.drop stop)
  else .abort .rangeOutOfBounds

/-- `a.checked_add(b)` on a 64-bit `usize`. -/
def checkedAdd (a b : Nat) : Decode Nat := if a + b < 2 ^ 64 then pure (a + b) else failure

namespace DigMessage

def fromBytes (bytes : Bytes) : Except Panic (Option DigMessage) := OptionT.run do
  refuseIf (bytes.length < 2)
  let msgType ← index bytes 0
  let hasId ← index bytes 1
  let (id, offset) ←
    if hasId ≠ 0 then do
      let afterId ← checkedAdd 2 2
      refuseIf (bytes.length < afterId)
      let id := UInt16.ofNat (ofBe [← index bytes 2, ← index bytes 3])
      pure (some id, afterId)
    else pure (none, 2)
  let afterLen ← checkedAdd offset 4
  refuseIf (bytes.length < afterLen)
  let dataLen := ofBe [← index bytes offset, ← index bytes (offset + 1), ← index bytes (offset + 2),
    ← index bytes (offset + 3)]
  refuseIf (maxMessageSize < dataLen)
  let stop ← checkedAdd afterLen dataLen
  refuseIf (bytes.length < stop)
  let data ← slice bytes afterLen stop
  return ⟨msgType, id, data⟩

def fromBytesOwned (buf : Bytes) : Except Panic (Option DigMessage) := OptionT.run do
  refuseIf (buf.length < 2)
  let msgType ← index buf 0
  let hasId ← index buf 1
  let (id, offset) ←
    if hasId ≠ 0 then do
      let afterId ← checkedAdd 2 2
      refuseIf (buf.length < afterId)
      let id := UInt16.ofNat (ofBe [← index buf 2, ← index buf 3])
      pure (some id, afterId)
    else pure (none, 2)
  let afterLen ← checkedAdd offset 4
  refuseIf (buf.length < afterLen)
  let dataLen := ofBe [← index buf offset, ← index buf (offset + 1), ← index buf (offset + 2),
    ← index buf (offset + 3)]
  refuseIf (maxMessageSize < dataLen)
  let stop ← checkedAdd afterLen dataLen
  refuseIf (buf.length < stop)
  let (data, _) ← drain buf afterLen stop
  return ⟨msgType, id, data⟩

end DigMessage

/-! ## Running a decoder -/

theorem refuseIf_bind {α : Type} (c : Prop) [Decidable c] (k : Unit → Decode α) :
    (refuseIf c >>= k) = if c then failure else k () := by
  unfold refuseIf; split <;> rfl

theorem checkedAdd_bind {α : Type} {a b : Nat} (h : a + b < 2 ^ 64) (k : Nat → Decode α) :
    (checkedAdd a b >>= k) = k (a + b) := by
  rw [checkedAdd, if_pos h]; rfl

theorem index_append (header bytes : Bytes) (i : Nat) :
    index (header ++ bytes) (header.length + i) = index bytes i := by
  rw [index, List.getElem?_append_right (Nat.le_add_right _ _), Nat.add_sub_cancel_left, index]

theorem slice_append (header data rest : Bytes) :
    slice (header ++ (data ++ rest)) header.length (header.length + data.length) = pure data := by
  rw [slice, if_pos (by simp)]
  congr 1
  rw [List.take_length_add_append, List.drop_left, List.take_left]

theorem drain_append (header data rest : Bytes) :
    drain (header ++ (data ++ rest)) header.length (header.length + data.length) = pure (data, header ++ rest) := by
  rw [drain, if_pos (by simp)]
  simp [← List.drop_drop]

/-! ## The grammar, as a function

`parse` reads the frame grammar off the shape of the buffer, with no offsets and nothing that can fail but the
grammar itself.  Both decoders are `parse` (`fromBytes_eq`, `fromBytesOwned_eq`): they are one reader over two ways of
taking a range out of the buffer, so what is proved of the reader is proved of both. -/

/-- The bytes after the opcode and the id: a length, at most the cap, and that many bytes. -/
def parseBody (msgType : UInt8) (id : Option UInt16) : Bytes → Option DigMessage
  | n₀ :: n₁ :: n₂ :: n₃ :: rest =>
    let n := ofBe [n₀, n₁, n₂, n₃]
    if n ≤ DigMessage.maxMessageSize ∧ n ≤ rest.length then some ⟨msgType, id, rest.take n⟩ else none
  | _ => none

def parse : Bytes → Option DigMessage
  | msgType :: hasId :: rest =>
    if hasId ≠ 0 then
      match rest with
      | i₀ :: i₁ :: rest => parseBody msgType (some (UInt16.ofNat (ofBe [i₀, i₁]))) rest
      | _                => none
    else parseBody msgType none rest
  | _ => none

def readBody (take : Bytes → Nat → Nat → Decode Bytes) (bytes : Bytes) (msgType : UInt8) (id : Option UInt16)
    (offset : Nat) : Decode DigMessage := do
  let afterLen ← checkedAdd offset 4
  refuseIf (bytes.length < afterLen)
  let dataLen := ofBe [← index bytes offset, ← index bytes (offset + 1), ← index bytes (offset + 2),
    ← index bytes (offset + 3)]
  refuseIf (DigMessage.maxMessageSize < dataLen)
  let stop ← checkedAdd afterLen dataLen
  refuseIf (bytes.length < stop)
  let data ← take bytes afterLen stop
  return ⟨msgType, id, data⟩

def readFrame (take : Bytes → Nat → Nat → Decode Bytes) (bytes : Bytes) : Decode DigMessage := do
  refuseIf (bytes.length < 2)
  let msgType ← index bytes 0
  let hasId ← index bytes 1
  if hasId ≠ 0 then do
    let afterId ← checkedAdd 2 2
    refuseIf (bytes.length < afterId)
    let id := UInt16.ofNat (ofBe [← index bytes 2, ← index bytes 3])
    readBody take bytes msgType (some id) afterId
  else readBody take bytes msgType none 2

/-- A way of taking a range out of a buffer that gives the bytes in it. -/
def TakesRange (take : Bytes → Nat → Nat → Decode Bytes) : Prop :=
  ∀ header data rest, take (header ++ (data ++ rest)) header.length (header.length + data.length) = pure data

theorem readBody_eq {take : Bytes → Nat → Nat → Decode Bytes} (htake : TakesRange take) (msgType : UInt8)
    (id : Option UInt16) (header rest : Bytes) (hh : header.length ≤ 4) :
    (readBody take (header ++ rest) msgType id header.length).run = .ok (parseBody msgType id rest) := by
  unfold readBody
  rw [checkedAdd_bind (by omega), refuseIf_bind]
  match rest with
  | [] | [_] | [_, _] | [_, _, _] =>
    rw [if_pos (by simp)]
    rfl
  | n₀ :: n₁ :: n₂ :: n₃ :: body =>
    rw [if_neg (by simp)]
    have h0 : index (header ++ n₀ :: n₁ :: n₂ :: n₃ :: body) header.length = pure n₀ := index_append header _ 0
    have h1 : index (header ++ n₀ :: n₁ :: n₂ :: n₃ :: body) (header.length + 1) = pure n₁ := index_append header _ 1
    have h2 : index (header ++ n₀ :: n₁ :: n₂ :: n₃ :: body) (header.length + 2) = pure n₂ := index_append header _ 2
    have h3 : index (header ++ n₀ :: n₁ :: n₂ :: n₃ :: body) (header.length + 3) = pure n₃ := index_append header _ 3
    have hn := ofBe_lt [n₀, n₁, n₂, n₃]
    simp only [h0, h1, h2, h3, pure_bind, parseBody, refuseIf_bind]
    generalize ofBe [n₀, n₁, n₂, n₃] = n at hn ⊢
    simp only [List.length_cons, List.length_nil] at hn
    by_cases hmax : DigMessage.maxMessageSize < n
    · rw [if_pos hmax, if_neg (by omega)]; rfl
    · rw [if_neg hmax, checkedAdd_bind (by omega)]
      by_cases hlen : n ≤ body.length
      · have hbody : header ++ n₀ :: n₁ :: n₂ :: n₃ :: body =
            (header ++ [n₀, n₁, n₂, n₃]) ++ (body.take n ++ body.drop n) := by simp
        have htk := htake (header ++ [n₀, n₁, n₂, n₃]) (body.take n) (body.drop n)
        rw [← hbody, List.length_append, List.length_take, Nat.min_eq_left hlen] at htk
        have hend : header.length + 4 = (header ++ [n₀, n₁, n₂, n₃]).length := by simp
        rw [if_neg (by simp; omega), if_pos (by omega), hend, List.length_append, htk]
        rfl
      · rw [if_pos (by simp; omega), if_neg (by omega)]; rfl

theorem readFrame_eq {take : Bytes → Nat → Nat → Decode Bytes} (htake : TakesRange take) (bytes : Bytes) :
    (readFrame take bytes).run = .ok (parse bytes) := by
  match bytes with
  | [] | [_] => rfl
  | t :: h :: rest =>
    have h0 : index (t :: h :: rest) 0 = pure t := rfl
    have h1 : index (t :: h :: rest) 1 = pure h := rfl
    simp only [readFrame, refuseIf_bind, h0, h1, pure_bind, parse]
    rw [if_neg (by simp)]
    by_cases hh : h ≠ 0
    · rw [if_pos hh, if_pos hh, checkedAdd_bind (by decide)]
      match rest with
      | [] | [_] => rfl
      | i₀ :: i₁ :: rest =>
        rw [if_neg (by simp)]
        exact readBody_eq htake t _ [t, h, i₀, i₁] rest (by simp)
    · rw [if_neg hh, if_neg hh]
      exact readBody_eq htake t none [t, h] rest (by simp)

namespace DigMessage

theorem fromBytes_eq_readFrame (bytes : Bytes) : fromBytes bytes = (readFrame slice bytes).run := by
  refine congrArg OptionT.run (bind_congr fun _ => bind_congr fun msgType => bind_congr fun hasId => ?_)
  by_cases h : hasId ≠ 0
  · rw [if_pos h, if_pos h]
    simp only [readBody, pure_bind]
  · rw [if_neg h, if_neg h, pure_bind]
    rfl

theorem fromBytesOwned_eq_readFrame (buf : Bytes) :
    fromBytesOwned buf = (readFrame (fun b i j => Prod.fst <$> drain b i j) buf).run := by
  refine congrArg OptionT.run (bind_congr fun _ => bind_congr fun msgType => bind_congr fun hasId => ?_)
  by_cases h : hasId ≠ 0
  · rw [if_pos h, if_pos h]
    simp only [readBody, pure_bind, bind_map_left]
  · rw [if_neg h, if_neg h, pure_bind]
    simp only [readBody, bind_map_left]

/-- **The copying decoder is the grammar**, and never panics. -/
theorem fromBytes_eq (bytes : Bytes) : fromBytes bytes = .ok (parse bytes) := by
  rw [fromBytes_eq_readFrame, readFrame_eq slice_append]

/-- **The moving decoder is the grammar**, and never panics. -/
theorem fromBytesOwned_eq (buf : Bytes) : fromBytesOwned buf = .ok (parse buf) := by
  rw [fromBytesOwned_eq_readFrame, readFrame_eq]
  intro header data rest
  show Prod.fst <$> drain _ _ _ = _
  rw [drain_append]
  rfl

end DigMessage

end Dig
