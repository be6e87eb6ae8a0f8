import DigPeer.RateLimit
import DigPeer.Compatibility
import DigPeer.Lib.Mealy
/-!
# Rekey — a Chia limit table under the limiter (`From<&RateLimits>` in `rate_limit.rs`)

A Chia table is keyed by message types, the limiter's by wire bytes.  Where each type streams to one byte and no two to
the same, `rekey` is `AList.mapKeys`: no entry is dropped and none overwrites another, whatever order the source map is
walked in.  What the limiter then selects for an opcode is what the source table says of its type
(`RateLimits.select`), and a limiter depends on its table through that selection alone (`offer_withLimits`).
-/
namespace Dig

open Mealy

/-- What the conversion relies on: a message type streams to one byte, its own, below the DIG opcodes. -/
structure SingleByte {P : Type} (toBytes : P → Option Bytes) (byte : P → UInt8) : Prop where
  toBytes_eq : ∀ v, toBytes v = some [byte v]
  injective  : Function.Injective byte
  lt         : ∀ v, byte v < 200

/-- The entry that a source table gives a message type, and whether it counts in the aggregate: `tx` first, then
`other`, then the default. -/
def RateLimits.select {P : Type} [DecidableEq P] (limits : RateLimits P) (v : P) : RateLimit × Bool :=
  match limits.tx.lookup v, limits.other.lookup v with
  | some txLimit, _       => (txLimit, false)
  | none, some otherLimit => (otherLimit, true)
  | none, none            => (limits.defaultSettings, false)

/-- One table, walked in two orders. -/
structure RateLimits.Reordered {P : Type} (limits limits' : RateLimits P) : Prop where
  defaultSettings   : limits.defaultSettings = limits'.defaultSettings
  nonTxFrequency    : limits.nonTxFrequency = limits'.nonTxFrequency
  nonTxMaxTotalSize : limits.nonTxMaxTotalSize = limits'.nonTxMaxTotalSize
  tx                : limits.tx.entries.Perm limits'.tx.entries
  other             : limits.other.entries.Perm limits'.other.entries

namespace OpcodeRateLimits

/-- Two tables that a limiter cannot tell apart. -/
structure Alike (limits limits' : OpcodeRateLimits) : Prop where
  limit              : limits.limit = limits'.limit
  countsAgainstNonTx : limits.countsAgainstNonTx = limits'.countsAgainstNonTx
  nonTxFrequency     : limits.nonTxFrequency = limits'.nonTxFrequency
  nonTxMaxTotalSize  : limits.nonTxMaxTotalSize = limits'.nonTxMaxTotalSize

/-! ## The maps -/

section
variable {P : Type} {toBytes : P → Option Bytes} {byte : P → UInt8}

theorem rekey_eq_mapKeys (h : ∀ v, toBytes v = some [byte v]) (map : AList fun _ : P => RateLimit) :
    rekey toBytes map = map.mapKeys byte := by
  unfold rekey AList.mapKeys
  congr 1
  rw [← List.filterMap_eq_map]
  congr 1
  funext e
  rw [h]
  rfl

variable [DecidableEq P]

theorem lookup_rekey (h : SingleByte toBytes byte) (map : AList fun _ : P => RateLimit) (v : P) :
    (rekey toBytes map).lookup (byte v) = map.lookup v := by
  rw [rekey_eq_mapKeys h.toBytes_eq, AList.lookup_mapKeys h.injective]

omit [DecidableEq P] in
theorem lookup_rekey_of_notMem (h : SingleByte toBytes byte) (map : AList fun _ : P => RateLimit) {b : UInt8}
    (hb : ∀ v, byte v ≠ b) : (rekey toBytes map).lookup b = none := by
  rw [rekey_eq_mapKeys h.toBytes_eq, AList.lookup_mapKeys_of_notMem hb]

omit [DecidableEq P] in
theorem SingleByte.ne_of_le (h : SingleByte toBytes byte) {b : UInt8} (hb : 200 ≤ b) (v : P) : byte v ≠ b := by
  rintro rfl
  exact absurd (h.lt v) (UInt8.not_lt.2 hb)

/-- **What is found of a byte does not depend on the order of the walk.** -/
theorem lookup_rekey_of_perm (h : SingleByte toBytes byte) {map map' : AList fun _ : P => RateLimit}
    (hp : map.entries.Perm map'.entries) (b : UInt8) :
    (rekey toBytes map).lookup b = (rekey toBytes map').lookup b := by
  by_cases hb : ∃ v, byte v = b
  · obtain ⟨v, rfl⟩ := hb
    rw [lookup_rekey h, lookup_rekey h, AList.perm_lookup hp]
  · rw [not_exists] at hb
    rw [lookup_rekey_of_notMem h map hb, lookup_rekey_of_notMem h map' hb]

/-! ## The selection -/

/-- **A Chia opcode is limited as the source table says of its type.** -/
theorem select_ofRateLimits (h : SingleByte toBytes byte) (limits : RateLimits P) (v : P) :
    ((ofRateLimits toBytes limits).limit (byte v), (ofRateLimits toBytes limits).countsAgainstNonTx (byte v)) =
      limits.select v := by
  unfold limit countsAgainstNonTx RateLimits.select
  show ((match (rekey toBytes limits.tx).lookup (byte v), (rekey toBytes limits.other).lookup (byte v) with
    | some txLimit, _ => txLimit
    | none, some otherLimit => otherLimit
    | none, none => limits.defaultSettings),
    ((rekey toBytes limits.tx).lookup (byte v)).isNone && ((rekey toBytes limits.other).lookup (byte v)).isSome) = _
  rw [lookup_rekey h, lookup_rekey h]
  cases limits.tx.lookup v <;> cases limits.other.lookup v <;> rfl

omit [DecidableEq P] in
/-- **Any other opcode is limited by the default entry**, outside the aggregate. -/
theorem select_of_notMem (h : SingleByte toBytes byte) (limits : RateLimits P) {b : UInt8} (hb : ∀ v, byte v ≠ b) :
    (ofRateLimits toBytes limits).limit b = limits.defaultSettings ∧
      (ofRateLimits toBytes limits).countsAgainstNonTx b = false := by
  have htx : (ofRateLimits toBytes limits).tx.lookup b = none := lookup_rekey_of_notMem h limits.tx hb
  have hother : (ofRateLimits toBytes limits).other.lookup b = none := lookup_rekey_of_notMem h limits.other hb
  simp only [limit, countsAgainstNonTx, htx, hother]
  exact ⟨rfl, rfl⟩

theorem Alike.of_reordered (h : SingleByte toBytes byte) {limits limits' : RateLimits P} (hp : limits.Reordered limits') :
    (ofRateLimits toBytes limits).Alike (ofRateLimits toBytes limits') := by
  have htx : ∀ b, (ofRateLimits toBytes limits).tx.lookup b = (ofRateLimits toBytes limits').tx.lookup b :=
    lookup_rekey_of_perm h hp.tx
  have hother : ∀ b, (ofRateLimits toBytes limits).other.lookup b = (ofRateLimits toBytes limits').other.lookup b :=
    lookup_rekey_of_perm h hp.other
  have hdefault : (ofRateLimits toBytes limits).defaultSettings = (ofRateLimits toBytes limits').defaultSettings :=
    hp.defaultSettings
  refine ⟨?_, ?_, hp.nonTxFrequency, hp.nonTxMaxTotalSize⟩
  · funext b
    rw [OpcodeRateLimits.limit, OpcodeRateLimits.limit, htx, hother, hdefault]
  · funext b
    rw [OpcodeRateLimits.countsAgainstNonTx, OpcodeRateLimits.countsAgainstNonTx, htx, hother]

end

end OpcodeRateLimits

/-! ## The limiter -/

namespace OpcodeRateLimiter

variable {l : OpcodeRateLimiter} {limits : OpcodeRateLimits} {now : ℕ} {m : DigMessage}

def withLimits (l : OpcodeRateLimiter) (limits : OpcodeRateLimits) : OpcodeRateLimiter := { l with limits }

theorem rollWindow_withLimits : (l.withLimits limits).rollWindow now = (l.rollWindow now).withLimits limits := by
  by_cases h : l.period = now / l.resetSeconds
  · rw [rollWindow_of_eq h]
    exact rollWindow_of_eq h
  · rw [rollWindow, rollWindow, if_neg h]
    exact if_neg h

theorem charge_withLimits (h : l.limits.Alike limits) :
    (l.withLimits limits).charge m = (l.charge m).withLimits limits := by
  have hclass : limits.countsAgainstNonTx m.msgType = l.limits.countsAgainstNonTx m.msgType := by
    rw [h.countsAgainstNonTx]
  simp only [charge, withLimits, hclass]
  rfl

theorem verdict_withLimits (h : l.limits.Alike limits) : (l.withLimits limits).verdict m = l.verdict m := by
  have hempty : limits.FitsAnEmptyWindow l.limitFactor m ↔ l.limits.FitsAnEmptyWindow l.limitFactor m := by
    unfold OpcodeRateLimits.FitsAnEmptyWindow
    rw [h.limit, h.countsAgainstNonTx, h.nonTxFrequency, h.nonTxMaxTotalSize]
  have hthis : (l.withLimits limits).FitsThisWindow m ↔ l.FitsThisWindow m := by
    unfold FitsThisWindow
    rw [charge_withLimits h, h.limit, h.nonTxFrequency, h.nonTxMaxTotalSize]
    rfl
  unfold verdict
  congr 1
  · exact decide_eq_decide.2 hempty
  · exact decide_eq_decide.2 hthis

/-- **One offer, under two tables that a limiter cannot tell apart.** -/
theorem offer_withLimits (h : l.limits.Alike limits) (x : ℕ × DigMessage) :
    (l.withLimits limits).offer x = ((l.offer x).1, (l.offer x).2.withLimits limits) := by
  have hroll : (l.rollWindow x.1).limits.Alike limits := by rwa [rollWindow_limits]
  refine Prod.ext ?_ ?_
  · show ((l.withLimits limits).admitAt x.1 x.2).1 = (l.admitAt x.1 x.2).1
    rw [admitAt_fst, admitAt_fst, rollWindow_withLimits, verdict_withLimits hroll]
  · show ((l.withLimits limits).admitAt x.1 x.2).2 = (l.admitAt x.1 x.2).2.withLimits limits
    rw [admitAt_snd, admitAt_snd, rollWindow_withLimits, verdict_withLimits hroll, charge_withLimits hroll]
    rw [apply_ite (fun l : OpcodeRateLimiter => l.withLimits limits)]
    rfl

theorem outputs_withLimits : ∀ (offers : List (ℕ × DigMessage)) (l : OpcodeRateLimiter), l.limits.Alike limits →
    outputs offer (l.withLimits limits) offers = outputs offer l offers
  | [], _, _           => rfl
  | x :: offers, l, h => by
    have hnext : (l.offer x).2.limits.Alike limits := by
      have hb := (BuiltWith.admitAt (l := l) ⟨rfl, rfl, rfl, rfl⟩ x.1 x.2).limits
      rw [offer, hb]
      exact h
    rw [outputs, outputs, offer_withLimits h, outputs_withLimits offers _ hnext]

/-- **Re-keying a limit table loses and merges nothing.**  Each map of the converted table has the source's entries,
under their bytes, and no others, and the budgets are the source's; the order in which the source is walked changes
neither a map nor a verdict of a limiter; and a limiter that has been offered anything applies to a Chia opcode what the
source table selects for its type, and to an opcode from 200 up the default entry, outside the aggregate. -/
theorem rekeyed_table {P : Type} [DecidableEq P] {toBytes : P → Option Bytes} {byte : P → UInt8}
    (h : SingleByte toBytes byte) (limits : RateLimits P) :
    let keyed := OpcodeRateLimits.ofRateLimits toBytes limits
    (∀ v, keyed.tx.lookup (byte v) = limits.tx.lookup v ∧ keyed.other.lookup (byte v) = limits.other.lookup v) ∧
    (∀ b, (∀ v, byte v ≠ b) → keyed.tx.lookup b = none ∧ keyed.other.lookup b = none) ∧
    (keyed.defaultSettings = limits.defaultSettings ∧ keyed.nonTxFrequency = limits.nonTxFrequency ∧
      keyed.nonTxMaxTotalSize = limits.nonTxMaxTotalSize) ∧
    (∀ limits', limits.Reordered limits' →
      let keyed' := OpcodeRateLimits.ofRateLimits toBytes limits'
      (∀ b, keyed.tx.lookup b = keyed'.tx.lookup b ∧ keyed.other.lookup b = keyed'.other.lookup b) ∧
      ∀ now direction reset factor offers,
        outputs offer (new now direction reset factor keyed') offers =
          outputs offer (new now direction reset factor keyed) offers) ∧
    (∀ now direction reset factor offers,
      let l := final offer (new now direction reset factor keyed) offers
      (∀ v, (l.limits.limit (byte v), l.limits.countsAgainstNonTx (byte v)) = limits.select v) ∧
      ∀ opcode, 200 ≤ opcode →
        l.limits.limit opcode = limits.defaultSettings ∧ l.limits.countsAgainstNonTx opcode = false) := by
  refine ⟨fun v => ⟨?_, ?_⟩, fun b hb => ⟨?_, ?_⟩, ⟨rfl, rfl, rfl⟩, fun limits' hp => ⟨fun b => ⟨?_, ?_⟩, ?_⟩, ?_⟩
  · exact OpcodeRateLimits.lookup_rekey h limits.tx v
  · exact OpcodeRateLimits.lookup_rekey h limits.other v
  · exact OpcodeRateLimits.lookup_rekey_of_notMem h limits.tx hb
  · exact OpcodeRateLimits.lookup_rekey_of_notMem h limits.other hb
  · exact OpcodeRateLimits.lookup_rekey_of_perm h hp.tx b
  · exact OpcodeRateLimits.lookup_rekey_of_perm h hp.other b
  · intro now direction reset factor offers
    exact outputs_withLimits offers (new now direction reset factor (.ofRateLimits toBytes limits))
      (OpcodeRateLimits.Alike.of_reordered h hp)
  · intro now direction reset factor offers l
    have hbuilt : BuiltWith direction reset factor (.ofRateLimits toBytes limits) l :=
      final_invariant (fun l x hl => hl.admitAt x.1 x.2) offers _ (builtWith_new now)
    rw [hbuilt.limits]
    exact ⟨OpcodeRateLimits.select_ofRateLimits h limits, fun opcode hop =>
      OpcodeRateLimits.select_of_notMem h limits (OpcodeRateLimits.SingleByte.ne_of_le h hop)⟩

/-! ## A table whose two maps overlap -/

def overlapping : RateLimits IntroducerOpcode where
  defaultSettings   := ⟨100, 1000, none⟩
  nonTxFrequency    := 10
  nonTxMaxTotalSize := 5000
  tx                := AList.singleton .requestPeersIntroducer ⟨1, 10, none⟩
  other             := (AList.singleton .requestPeersIntroducer ⟨2, 20, none⟩).insert .respondPeersIntroducer ⟨3, 30, none⟩

theorem singleByte_introducer : SingleByte (fun v : IntroducerOpcode => some [v.toByte]) IntroducerOpcode.toByte where
  toBytes_eq _ := rfl
  injective v w := by cases v <;> cases w <;> decide
  lt v          := by cases v <;> decide

theorem rekeyed_table_overlapping :
    let keyed := OpcodeRateLimits.ofRateLimits (fun v : IntroducerOpcode => some [v.toByte]) overlapping
    let l := final offer (new 0 .inbound 60 1 keyed) [(0, ⟨64, none, []⟩)]
    (keyed.tx.lookup 63 = some ⟨1, 10, none⟩ ∧ keyed.tx.lookup 64 = none ∧ keyed.other.lookup 64 = some ⟨3, 30, none⟩) ∧
      (l.limits.limit 63, l.limits.countsAgainstNonTx 63) = (⟨1, 10, none⟩, false) ∧
      (l.limits.limit 64, l.limits.countsAgainstNonTx 64) = (⟨3, 30, none⟩, true) ∧
      l.limits.limit 200 = ⟨100, 1000, none⟩ := by
  have htable := rekeyed_table singleByte_introducer overlapping
  have hrun := htable.2.2.2.2 0 .inbound 60 1 [(0, ⟨64, none, []⟩)]
  refine ⟨⟨?_, ?_, ?_⟩, ?_, ?_, (hrun.2 200 (by decide)).1⟩
  · exact (htable.1 .requestPeersIntroducer).1.trans (by decide)
  · exact (htable.1 .respondPeersIntroducer).1.trans (by decide)
  · exact (htable.1 .respondPeersIntroducer).2.trans (by decide)
  · exact (hrun.1 .requestPeersIntroducer).trans (by decide)
  · exact (hrun.1 .respondPeersIntroducer).trans (by decide)

end OpcodeRateLimiter

end Dig
