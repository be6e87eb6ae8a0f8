import DigPeer.Streamable
/-!
# Payload — the payload container's own codec (`bytes.rs`)

`Bytes` writes itself, reads itself and feeds a digest in three hand-written methods.  They are translated over what
they change: a vector that is appended to, a cursor that is moved, a digest.  A write or a read that fails leaves what
it had changed by then, and a range out of bounds is a panic.  The `u32` under them is upstream's: any codec of four
bytes, most significant first.

All three are one format, `ChiaTraits.sequence`: `stream` writes its encoding (`stream_eq`), `parse` decodes it wherever
the cursor stands (`parse_eq`), and `updateDigest` feeds its encoding (`updateDigest_eq`).
-/
namespace Dig

open BigEndian

/-! ## Vectors and cursors -/

abbrev Write (ε : Type) := ExceptT ε (StateM Bytes)

def extendFromSlice {ε : Type} (data : Bytes) : Write ε Unit := modify (· ++ data)

/-- `Cursor<&[u8]>`: a slice, as long as an `isize` allows, and a position, which may be past its end. -/
structure Cursor where
  buf       : Bytes
  position  : UInt64
  length_lt : buf.length < 2 ^ 63

namespace Cursor

def setPosition (c : Cursor) (position : Nat) : Cursor := { c with position := UInt64.ofNat position }

def rest (c : Cursor) : Bytes := c.buf.drop c.position.toNat

def InRange (c : Cursor) : Prop := c.position.toNat ≤ c.buf.length

@[simp] theorem buf_setPosition (c : Cursor) (n : Nat) : (c.setPosition n).buf = c.buf := rfl

@[simp] theorem setPosition_setPosition (c : Cursor) (m n : Nat) :
    (c.setPosition m).setPosition n = c.setPosition n := rfl

theorem position_setPosition (c : Cursor) {n : Nat} (h : n ≤ c.buf.length) : (c.setPosition n).position.toNat = n := by
  have hlt := c.length_lt
  exact UInt64.toNat_ofNat_of_lt' (Nat.lt_of_le_of_lt h (Nat.lt_trans hlt (by decide)))

theorem length_rest (c : Cursor) : c.rest.length = c.buf.length - c.position.toNat := List.length_drop

end Cursor

abbrev Read (ε : Type) := ExceptT ε (StateT Cursor (Except Panic))

/-- `x.ok_or(error)?`. -/
def okOr {ε α : Type} (x : Decode α) (error : ε) : Read ε α := do
  match ← (liftM x.run : StateT Cursor (Except Panic) (Option α)) with
  | some a => pure a
  | none   => throw error

/-- `buf[start..stop].to_vec()`. -/
def range {ε : Type} (buf : Bytes) (start stop : Nat) : Read ε Bytes :=
  if start ≤ stop ∧ stop ≤ buf.length then pure ((buf.take stop).drop start)
  else (liftM (.error .rangeOutOfBounds : Except Panic Bytes) : StateT Cursor (Except Panic) Bytes)

/-! ## The upstream `u32`, and the digest -/

/-- What `bytes.rs` takes from upstream, with its documented layout: the `u32` codec, the digest's `update`, and two
errors.  A digest depends on the bytes it was given and not on how they were cut. -/
structure ChiaU32 (ε δ : Type) where
  sequenceTooLarge : ε
  endOfBuffer      : ε
  stream           : UInt32 → Write ε Unit
  parse            : Bool → Read ε UInt32
  updateDigest     : UInt32 → δ → δ
  update           : δ → Bytes → δ
  stream_eq        : ∀ n out, (stream n).run.run out = (.ok (), out ++ toBe 4 n.toNat)
  parse_eq         : ∀ trusted (c : Cursor), c.InRange → 4 ≤ c.rest.length → (parse trusted).run.run c =
    .ok (.ok (UInt32.ofNat (ofBe (c.rest.take 4))), c.setPosition (c.position.toNat + 4))
  parse_short      : ∀ trusted (c : Cursor), c.InRange → c.rest.length < 4 →
    ∃ e c', (parse trusted).run.run c = .ok (.error e, c')
  updateDigest_eq  : ∀ n d, updateDigest n d = update d (toBe 4 n.toNat)
  update_append    : ∀ d a b, update (update d a) b = update d (a ++ b)

/-! ## `Streamable for Bytes` -/

namespace Bytes

variable {ε δ : Type} (u : ChiaU32 ε δ)

def updateDigest (v : Bytes) (digest : δ) : δ :=
  u.update (u.updateDigest (UInt32.ofNat v.length) digest) v

def stream (v : Bytes) : Write ε Unit := do
  if 2 ^ 32 - 1 < v.length then
    throw u.sequenceTooLarge
  u.stream (UInt32.ofNat v.length)
  extendFromSlice v

def parse (trusted : Bool) : Read ε Bytes := do
  let len := (← u.parse trusted).toNat
  let start := (← get).position.toNat
  let stop ← okOr (checkedAdd start len) u.endOfBuffer
  let buf := (← get).buf
  if buf.length < stop then
    throw u.endOfBuffer
  modify (·.setPosition stop)
  range buf start stop

end Bytes

/-! ## Running a read -/

section
variable {ε α β : Type} {x : Read ε α} {f : α → Read ε β} {c c' : Cursor}

theorem run_bind_ok {a : α} (h : x.run.run c = .ok (.ok a, c')) : (x >>= f).run.run c = (f a).run.run c' := by
  rw [ExceptT.run_bind, StateT.run_bind, h]
  rfl

theorem run_bind_error {e : ε} (h : x.run.run c = .ok (.error e, c')) : (x >>= f).run.run c = .ok (.error e, c') := by
  rw [ExceptT.run_bind, StateT.run_bind, h]
  rfl

theorem run_get (c : Cursor) : (get : Read ε Cursor).run.run c = .ok (.ok c, c) := rfl

theorem run_modify (g : Cursor → Cursor) (c : Cursor) : (modify g : Read ε Unit).run.run c = .ok (.ok (), g c) := rfl

theorem run_range {buf : Bytes} {start stop : Nat} (h : start ≤ stop ∧ stop ≤ buf.length) (c : Cursor) :
    (range buf start stop : Read ε Bytes).run.run c = .ok (.ok ((buf.take stop).drop start), c) := by
  rw [range, if_pos h]
  rfl

theorem run_okOr_checkedAdd {m n : Nat} (h : m + n < 2 ^ 64) (error : ε) (c : Cursor) :
    (okOr (checkedAdd m n) error).run.run c = .ok (.ok (m + n), c) := by
  rw [okOr, checkedAdd, if_pos h]
  rfl

end

/-! ## One format -/

namespace Bytes

def declared (b : Bytes) : Nat := ofBe (b.take 4)

theorem declared_lt {b : Bytes} (h : 4 ≤ b.length) : declared b < 2 ^ 32 := calc
  declared b < 256 ^ (b.take 4).length := ofBe_lt _
  _ = 2 ^ 32 := by rw [List.length_take, Nat.min_eq_left h]; rfl

theorem decode_sequence (b : Bytes) : ChiaTraits.sequence.decode b =
    if 4 ≤ b.length ∧ 4 + declared b ≤ b.length
    then .ok ((b.drop 4).take (declared b), (b.drop 4).drop (declared b)) else .error .endOfBuffer := by
  by_cases hfour : 4 ≤ b.length
  · by_cases hlen : 4 + declared b ≤ b.length
    · have hdrop : declared b ≤ (b.drop 4).length := by rw [List.length_drop]; omega
      rw [if_pos ⟨hfour, hlen⟩]
      simp only [ChiaTraits.sequence, Wire.ofLength, Wire.number, if_pos hfour, bind, Except.bind]
      exact if_pos hdrop
    · have hdrop : ¬ declared b ≤ (b.drop 4).length := by rw [List.length_drop]; omega
      rw [if_neg (by omega)]
      simp only [ChiaTraits.sequence, Wire.ofLength, Wire.number, if_pos hfour, bind, Except.bind]
      exact if_neg hdrop
  · rw [if_neg (by omega)]
    simp only [ChiaTraits.sequence, Wire.ofLength, Wire.number, if_neg hfour, bind, Except.bind]

variable {ε δ : Type} (u : ChiaU32 ε δ)

/-- **A payload is written as its encoding, or refused whole**: refused exactly when a `u32` cannot say its length. -/
theorem stream_eq (v out : Bytes) : (stream u v).run.run out =
    match ChiaTraits.sequence.encode v with
    | .ok e    => (.ok (), out ++ e)
    | .error _ => (.error u.sequenceTooLarge, out) := by
  by_cases h : v.length < 2 ^ 32
  · have hn : (UInt32.ofNat v.length).toNat = v.length := UInt32.toNat_ofNat_of_lt' h
    have hu := u.stream_eq (UInt32.ofNat v.length) out
    rw [ChiaTraits.encode_sequence.2 ⟨h, rfl⟩, stream, if_neg (by omega)]
    simp only [ExceptT.run_bind, StateT.run_bind]
    rw [hu, hn, ← List.append_assoc]
    rfl
  · rw [stream, if_pos (by omega)]
    cases he : ChiaTraits.sequence.encode v with
    | ok e    => exact absurd (ChiaTraits.encode_sequence.1 he).1 h
    | error _ => rfl

theorem stream_eq_ok {v out out' : Bytes} : (stream u v).run.run out = (.ok (), out') ↔
    ∃ e, ChiaTraits.sequence.encode v = .ok e ∧ out' = out ++ e := by
  rw [stream_eq]
  cases he : ChiaTraits.sequence.encode v with
  | ok e =>
    constructor
    · intro h
      exact ⟨e, rfl, (congrArg Prod.snd h).symm⟩
    · rintro ⟨e', he', rfl⟩
      cases he'
      rfl
  | error _ =>
    constructor
    · intro h
      cases congrArg Prod.fst h
    · rintro ⟨e', he', -⟩
      cases he'

theorem updateDigest_eq {v e : Bytes} (h : ChiaTraits.sequence.encode v = .ok e) (d : δ) :
    updateDigest u v d = u.update d e := by
  obtain ⟨hlt, rfl⟩ := ChiaTraits.encode_sequence.1 h
  have hn : (UInt32.ofNat v.length).toNat = v.length := UInt32.toNat_ofNat_of_lt' hlt
  rw [updateDigest, u.updateDigest_eq, u.update_append, hn]

/-- **What `parse` does at a position in range**: it decodes what is left of the buffer and moves past it, or fails. -/
theorem parse_eq (trusted : Bool) {c : Cursor} (hc : c.InRange) :
    match ChiaTraits.sequence.decode c.rest with
    | .ok (v, r) => (parse u trusted).run.run c = .ok (.ok v, c.setPosition (c.buf.length - r.length))
    | .error _   => ∃ e c', (parse u trusted).run.run c = .ok (.error e, c') := by
  have hrest := c.length_rest
  have hbuf := c.length_lt
  unfold Cursor.InRange at hc
  rw [decode_sequence]
  by_cases hfour : 4 ≤ c.rest.length
  · have hlt := declared_lt hfour
    have hn : (UInt32.ofNat (ofBe (c.rest.take 4))).toNat = declared c.rest := UInt32.toNat_ofNat_of_lt' hlt
    have hstart := c.position_setPosition (n := c.position.toNat + 4) (by omega)
    unfold parse
    rw [run_bind_ok (u.parse_eq trusted c hc hfour), hn, run_bind_ok (run_get _), hstart,
      run_bind_ok (run_okOr_checkedAdd (by omega) u.endOfBuffer _), run_bind_ok (run_get _)]
    by_cases hlen : 4 + declared c.rest ≤ c.rest.length
    · rw [if_pos ⟨hfour, hlen⟩, if_neg (by rw [Cursor.buf_setPosition]; omega)]
      dsimp only
      rw [run_bind_ok (run_modify _ _), run_range ⟨by omega, by rw [Cursor.buf_setPosition]; omega⟩]
      have hstop : c.buf.length - ((c.rest.drop 4).drop (declared c.rest)).length =
          c.position.toNat + 4 + declared c.rest := by
        simp only [List.length_drop]; omega
      rw [hstop, Cursor.setPosition_setPosition, Cursor.buf_setPosition, List.drop_take, Nat.add_sub_cancel_left,
        Cursor.rest, List.drop_drop]
    · rw [if_neg (by omega), if_pos (by rw [Cursor.buf_setPosition]; omega)]
      exact ⟨_, _, rfl⟩
  · rw [if_neg (by omega)]
    obtain ⟨e, c', he⟩ := u.parse_short trusted c hc (by omega)
    exact ⟨e, c', run_bind_error he⟩

/-- **`parse` reads back what `stream` wrote, wherever it stands in the buffer**, and stops where it ends. -/
theorem parse_of_encode {v e p s : Bytes} (he : ChiaTraits.sequence.encode v = .ok e) (trusted : Bool) {c : Cursor}
    (hbuf : c.buf = p ++ (e ++ s)) (hpos : c.position.toNat = p.length) :
    (parse u trusted).run.run c = .ok (.ok v, c.setPosition (p.length + e.length)) := by
  have hc : c.InRange := by
    rw [Cursor.InRange, hpos, hbuf, List.length_append]; omega
  have hrest : c.rest = e ++ s := by rw [Cursor.rest, hpos, hbuf, List.drop_left]
  have hstop : c.buf.length - s.length = p.length + e.length := by
    rw [hbuf, List.length_append, List.length_append]; omega
  have h := parse_eq u trusted hc
  rw [hrest, Wire.decode_append he] at h
  dsimp only at h
  rw [h, hstop]

/-- **`parse` takes nothing but an encoding of its result.** -/
theorem encode_of_parse {trusted : Bool} {c c' : Cursor} {v : Bytes} (hc : c.InRange)
    (h : (parse u trusted).run.run c = .ok (.ok v, c')) :
    c'.buf = c.buf ∧ c'.InRange ∧ c.position.toNat ≤ c'.position.toNat ∧
      ChiaTraits.sequence.encode v = .ok ((c.buf.take c'.position.toNat).drop c.position.toNat) := by
  have hp := parse_eq u trusted hc
  cases hd : ChiaTraits.sequence.decode c.rest with
  | error _ =>
    rw [hd] at hp
    obtain ⟨e, c'', he⟩ := hp
    rw [h] at he
    cases he
  | ok x =>
    obtain ⟨w, r⟩ := x
    rw [hd] at hp
    dsimp only at hp
    rw [h] at hp
    cases hp
    obtain ⟨e, he, hrest⟩ := (ChiaTraits.sequence.decode_eq_ok _ _ _).1 hd
    have hlen := congrArg List.length hrest
    rw [c.length_rest, List.length_append] at hlen
    unfold Cursor.InRange at hc ⊢
    have hstop := c.position_setPosition (n := c.buf.length - r.length) (by omega)
    have hsize : c.buf.length - r.length - c.position.toNat = e.length := by omega
    rw [hstop, Cursor.buf_setPosition, he]
    refine ⟨rfl, by omega, by omega, congrArg Except.ok ?_⟩
    rw [List.drop_take, hsize]
    exact (List.take_left' rfl).symm.trans (congrArg (List.take e.length) hrest.symm)

/-- **The codec composes at any cursor position.**  A payload that a `u32` describes is written, and read back from
between any two byte strings; at any position in range `parse` returns, with bytes that are the encoding of its result,
or with an error exactly when fewer than four bytes or fewer than the declared length are left; and the digest is fed
what `stream` writes. -/
theorem codec_composes :
    (∀ v : Bytes, v.length ≤ 2 ^ 32 - 1 →
      ∃ e, e.length = 4 + v.length ∧ (∀ out, (stream u v).run.run out = (.ok (), out ++ e)) ∧
        ∀ trusted p s (c : Cursor), c.buf = p ++ (e ++ s) → c.position.toNat = p.length →
          ∃ c', (parse u trusted).run.run c = .ok (.ok v, c') ∧ c'.buf = c.buf ∧
            c'.position.toNat = p.length + 4 + v.length) ∧
    (∀ trusted (c : Cursor), c.InRange → ∃ r c', (parse u trusted).run.run c = .ok (r, c') ∧
      (∀ v, r = .ok v → c'.buf = c.buf ∧ c'.InRange ∧ c.position.toNat ≤ c'.position.toNat ∧
        (stream u v).run.run [] = (.ok (), (c.buf.take c'.position.toNat).drop c.position.toNat)) ∧
      ((∃ e, r = .error e) ↔ c.rest.length < 4 ∨ c.rest.length < 4 + declared c.rest)) ∧
    (∀ v out out', (stream u v).run.run out = (.ok (), out') →
      ∃ e, out' = out ++ e ∧ ∀ d, updateDigest u v d = u.update d e) := by
  refine ⟨fun v hv => ?_, fun trusted c hc => ?_, fun v out out' h => ?_⟩
  · have he : ChiaTraits.sequence.encode v = .ok (toBe 4 v.length ++ v) :=
      ChiaTraits.encode_sequence.2 ⟨by omega, rfl⟩
    refine ⟨_, by simp, fun out => (stream_eq_ok u).2 ⟨_, he, rfl⟩, fun trusted p s c hbuf hpos => ?_⟩
    refine ⟨_, parse_of_encode u he trusted hbuf hpos, rfl, ?_⟩
    rw [Cursor.position_setPosition _ (by rw [hbuf]; simp only [List.length_append]; omega), List.length_append,
      length_toBe, Nat.add_assoc]
  · have hp := parse_eq u trusted hc
    rw [decode_sequence] at hp
    by_cases h : 4 ≤ c.rest.length ∧ 4 + declared c.rest ≤ c.rest.length
    · rw [if_pos h] at hp
      refine ⟨_, _, hp, fun v hv => ?_, iff_of_false (fun he => nomatch he.choose_spec) (by omega)⟩
      cases hv
      obtain ⟨hbuf, hin, hle, he⟩ := encode_of_parse u hc hp
      exact ⟨hbuf, hin, hle, (stream_eq_ok u).2 ⟨_, he, rfl⟩⟩
    · rw [if_neg h] at hp
      obtain ⟨e, c', he⟩ := hp
      refine ⟨_, c', he, fun v hv => ?_, iff_of_true ⟨e, rfl⟩ (by omega)⟩
      cases hv
  · obtain ⟨e, he, rfl⟩ := (stream_eq_ok u).1 h
    exact ⟨e, rfl, updateDigest_eq u he⟩

end Bytes

/-! ## An upstream that can be run -/

/-- A `u32` codec that reads and writes as upstream's does, over the list of bytes a digest was given. -/
def ChiaU32.reference : ChiaU32 ChiaError Bytes where
  sequenceTooLarge := .sequenceTooLarge
  endOfBuffer      := .endOfBuffer
  stream n         := extendFromSlice (toBe 4 n.toNat)
  parse _          := do
    let c ← get
    let rest ← range c.buf c.position.toNat c.buf.length
    if rest.length < 4 then throw .endOfBuffer
    else do
      set (c.setPosition (c.position.toNat + 4))
      pure (UInt32.ofNat (ofBe (rest.take 4)))
  updateDigest n d := d ++ toBe 4 n.toNat
  update d data    := d ++ data
  stream_eq n out  := rfl
  parse_eq trusted c hc hfour := by
    rw [run_bind_ok (run_get c), run_bind_ok (run_range ⟨hc, Nat.le_refl _⟩ c), List.take_length]
    rw [if_neg (show ¬ (c.buf.drop c.position.toNat).length < 4 from Nat.not_lt.2 hfour)]
    rfl
  parse_short trusted c hc hshort := by
    rw [run_bind_ok (run_get c), run_bind_ok (run_range ⟨hc, Nat.le_refl _⟩ c), List.take_length]
    rw [if_pos (show (c.buf.drop c.position.toNat).length < 4 from hshort)]
    exact ⟨_, _, rfl⟩
  updateDigest_eq n d := rfl
  update_append d a b := List.append_assoc d a b

theorem Bytes.codec_composes_between :
    ∃ c', (parse .reference false).run.run ⟨[9, 0, 0, 0, 2, 7, 8, 5], 1, by decide⟩ = .ok (.ok [7, 8], c') ∧
      c'.buf = [9, 0, 0, 0, 2, 7, 8, 5] ∧ c'.position.toNat = 7 := by
  obtain ⟨e, -, hstream, hparse⟩ := (codec_composes ChiaU32.reference).1 [7, 8] (by decide)
  have he : [0, 0, 0, 2, 7, 8] = e := congrArg Prod.snd (hstream [])
  subst he
  exact hparse false [9] [5] _ rfl rfl

end Dig
