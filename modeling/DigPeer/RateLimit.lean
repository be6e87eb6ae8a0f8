import DigPeer.Message
import DigPeer.Lib.FiniteMap
import Mathlib.Algebra.Order.Field.Rat
import Mathlib.Data.PNat.Basic
/-!
# RateLimit — the limiter of one link in one direction (`rate_limit.rs`)

A table gives each opcode a `RateLimit`; `OpcodeRateLimits` is a Chia table re-keyed to wire bytes.  The limiter counts
messages and bytes per opcode, and in aggregate over the opcodes of the `other` map, and clears everything when the
clock enters a new window.  Budgets and counters are exact rationals; the clock is a reading in seconds handed to every
call that takes one.  The length of a window is positive in the type: a limiter divides by it when it is built.
-/
namespace Dig

structure RateLimit where
  frequency    : ℚ
  maxSize      : ℚ
  maxTotalSize : Option ℚ
deriving DecidableEq, Repr

/-- `chia_sdk_client::RateLimits`, keyed by the message types `P`. -/
structure RateLimits (P : Type) where
  defaultSettings   : RateLimit
  nonTxFrequency    : ℚ
  nonTxMaxTotalSize : ℚ
  tx                : AList fun _ : P => RateLimit
  other             : AList fun _ : P => RateLimit

structure OpcodeRateLimits where
  defaultSettings   : RateLimit
  nonTxFrequency    : ℚ
  nonTxMaxTotalSize : ℚ
  tx                : AList fun _ : UInt8 => RateLimit
  other             : AList fun _ : UInt8 => RateLimit

namespace OpcodeRateLimits

/-- `rekey`: `filter_map` to the first byte a key streams to, then `collect`, where a later entry of one key wins. -/
def rekey {P : Type} (toBytes : P → Option Bytes) (map : AList fun _ : P => RateLimit) :
    AList fun _ : UInt8 => RateLimit :=
  (map.entries.filterMap fun e => ((toBytes e.1).bind List.head?).map fun b => (b, e.2)).foldl
    (fun keyed e => keyed.insert e.1 e.2) ∅

def ofRateLimits {P : Type} (toBytes : P → Option Bytes) (limits : RateLimits P) : OpcodeRateLimits where
  defaultSettings   := limits.defaultSettings
  nonTxFrequency    := limits.nonTxFrequency
  nonTxMaxTotalSize := limits.nonTxMaxTotalSize
  tx                := rekey toBytes limits.tx
  other             := rekey toBytes limits.other

/-- The entry an opcode is limited by: its own in `tx`, else its own in `other`, else the default. -/
def limit (limits : OpcodeRateLimits) (opcode : UInt8) : RateLimit :=
  match limits.tx.lookup opcode, limits.other.lookup opcode with
  | some txLimit, _ => txLimit
  | none, some otherLimit => otherLimit
  | none, none => limits.defaultSettings

def countsAgainstNonTx (limits : OpcodeRateLimits) (opcode : UInt8) : Bool :=
  (limits.tx.lookup opcode).isNone && (limits.other.lookup opcode).isSome

end OpcodeRateLimits

def RateLimit.maxTotal (limit : RateLimit) : ℚ := limit.maxTotalSize.getD (limit.frequency * limit.maxSize)

/-- The size a message is charged: its payload's length, at most `u32::MAX`. -/
def DigMessage.size (m : DigMessage) : ℚ := (min m.data.length (2 ^ 32 - 1) : ℕ)

inductive Admission where
  | admitted
  | deferred
  | unsendable
deriving DecidableEq, Repr

def Admission.ofFits : Bool → Bool → Admission
  | false, _     => .unsendable
  | true,  false => .deferred
  | true,  true  => .admitted

inductive Direction where
  | inbound
  | outbound
deriving DecidableEq, Repr

structure OpcodeRateLimiter where
  direction       : Direction
  resetSeconds    : ℕ+
  period          : ℕ
  limitFactor     : ℚ
  counts          : AList fun _ : UInt8 => ℚ
  cumulativeSizes : AList fun _ : UInt8 => ℚ
  nonTxCount      : ℚ
  nonTxSize       : ℚ
  limits          : OpcodeRateLimits

namespace OpcodeRateLimits

variable (limits : OpcodeRateLimits) (factor : ℚ) (m : DigMessage)

def FitsAnEmptyWindow : Prop :=
  m.size ≤ (limits.limit m.msgType).maxSize ∧
  m.size ≤ (limits.limit m.msgType).maxTotal * factor ∧
  1 ≤ (limits.limit m.msgType).frequency * factor ∧
  (limits.countsAgainstNonTx m.msgType = false ∨
    1 ≤ limits.nonTxFrequency * factor ∧ m.size ≤ limits.nonTxMaxTotalSize * factor)

instance : Decidable (limits.FitsAnEmptyWindow factor m) := inferInstanceAs (Decidable (_ ∧ _ ∧ _ ∧ _))

end OpcodeRateLimits

namespace OpcodeRateLimiter

def new (now : ℕ) (direction : Direction) (resetSeconds : ℕ+) (limitFactor : ℚ) (limits : OpcodeRateLimits) :
    OpcodeRateLimiter where
  direction       := direction
  resetSeconds    := resetSeconds
  period          := now / resetSeconds
  limitFactor     := limitFactor
  counts          := ∅
  cumulativeSizes := ∅
  nonTxCount      := 0
  nonTxSize       := 0
  limits          := limits

def rollWindow (l : OpcodeRateLimiter) (now : ℕ) : OpcodeRateLimiter :=
  let period := now / l.resetSeconds
  if l.period = period then l
  else { l with period := period, counts := ∅, cumulativeSizes := ∅, nonTxCount := 0, nonTxSize := 0 }

def count (l : OpcodeRateLimiter) (opcode : UInt8) : ℚ := (l.counts.lookup opcode).getD 0

def cumulativeSize (l : OpcodeRateLimiter) (opcode : UInt8) : ℚ := (l.cumulativeSizes.lookup opcode).getD 0

/-- The limiter with `m` charged to it: `new_count`, `new_cumulative`, `new_non_tx_count` and `new_non_tx_size`. -/
def charge (l : OpcodeRateLimiter) (m : DigMessage) : OpcodeRateLimiter where
  direction       := l.direction
  resetSeconds    := l.resetSeconds
  period          := l.period
  limitFactor     := l.limitFactor
  counts          := l.counts.insert m.msgType (l.count m.msgType + 1)
  cumulativeSizes := l.cumulativeSizes.insert m.msgType (l.cumulativeSize m.msgType + m.size)
  nonTxCount      := if l.limits.countsAgainstNonTx m.msgType then l.nonTxCount + 1 else l.nonTxCount
  nonTxSize       := if l.limits.countsAgainstNonTx m.msgType then l.nonTxSize + m.size else l.nonTxSize
  limits          := l.limits

/-- `fits_this_window`: the four budgets against what the counters would be with `m` charged.  The two aggregates are
tested whether or not `m` counts against them. -/
def FitsThisWindow (l : OpcodeRateLimiter) (m : DigMessage) : Prop :=
  (l.charge m).nonTxCount ≤ l.limits.nonTxFrequency * l.limitFactor ∧
  (l.charge m).nonTxSize ≤ l.limits.nonTxMaxTotalSize * l.limitFactor ∧
  (l.charge m).count m.msgType ≤ (l.limits.limit m.msgType).frequency * l.limitFactor ∧
  (l.charge m).cumulativeSize m.msgType ≤ (l.limits.limit m.msgType).maxTotal * l.limitFactor

instance (l : OpcodeRateLimiter) (m : DigMessage) : Decidable (l.FitsThisWindow m) :=
  inferInstanceAs (Decidable (_ ∧ _ ∧ _ ∧ _))

def verdict (l : OpcodeRateLimiter) (m : DigMessage) : Admission :=
  .ofFits (l.limits.FitsAnEmptyWindow l.limitFactor m) (l.FitsThisWindow m)

/-- `admit`, at clock reading `now`: roll the window, judge, and charge what is admitted; an inbound limiter charges a
refusal as well. -/
def admitAt (l : OpcodeRateLimiter) (now : ℕ) (m : DigMessage) : Admission × OpcodeRateLimiter :=
  let l := l.rollWindow now
  let verdict := l.verdict m
  (verdict, if l.direction = .inbound ∨ verdict = .admitted then l.charge m else l)

def offer (l : OpcodeRateLimiter) (x : ℕ × DigMessage) : Admission × OpcodeRateLimiter := l.admitAt x.1 x.2

/-! ## The counters, one message on -/

variable {l : OpcodeRateLimiter} {m : DigMessage} {opcode : UInt8} {now : ℕ}

@[simp] theorem charge_direction : (l.charge m).direction = l.direction := rfl
@[simp] theorem charge_resetSeconds : (l.charge m).resetSeconds = l.resetSeconds := rfl
@[simp] theorem charge_period : (l.charge m).period = l.period := rfl
@[simp] theorem charge_limitFactor : (l.charge m).limitFactor = l.limitFactor := rfl
@[simp] theorem charge_limits : (l.charge m).limits = l.limits := rfl

@[simp] theorem charge_count : (l.charge m).count opcode = l.count opcode + if m.msgType = opcode then 1 else 0 := by
  rw [count, charge, AList.lookup_insert_eq]
  split
  · rename_i h; subst h; rfl
  · rw [add_zero]; rfl

@[simp] theorem charge_cumulativeSize :
    (l.charge m).cumulativeSize opcode = l.cumulativeSize opcode + if m.msgType = opcode then m.size else 0 := by
  rw [cumulativeSize, charge, AList.lookup_insert_eq]
  split
  · rename_i h; subst h; rfl
  · rw [add_zero]; rfl

theorem charge_nonTxCount : (l.charge m).nonTxCount =
    l.nonTxCount + if l.limits.countsAgainstNonTx m.msgType then 1 else 0 := by
  unfold charge
  split <;> simp

theorem charge_nonTxSize : (l.charge m).nonTxSize =
    l.nonTxSize + if l.limits.countsAgainstNonTx m.msgType then m.size else 0 := by
  unfold charge
  split <;> simp

theorem charge_nonTx_of_not (h : l.limits.countsAgainstNonTx m.msgType = false) :
    (l.charge m).nonTxCount = l.nonTxCount ∧ (l.charge m).nonTxSize = l.nonTxSize := by
  simp [charge_nonTxCount, charge_nonTxSize, h]

theorem rollWindow_of_eq (h : l.period = now / l.resetSeconds) : l.rollWindow now = l := if_pos h

@[simp] theorem rollWindow_direction : (l.rollWindow now).direction = l.direction := by
  unfold rollWindow; dsimp only; split <;> rfl
@[simp] theorem rollWindow_resetSeconds : (l.rollWindow now).resetSeconds = l.resetSeconds := by
  unfold rollWindow; dsimp only; split <;> rfl
@[simp] theorem rollWindow_limitFactor : (l.rollWindow now).limitFactor = l.limitFactor := by
  unfold rollWindow; dsimp only; split <;> rfl
@[simp] theorem rollWindow_limits : (l.rollWindow now).limits = l.limits := by
  unfold rollWindow; dsimp only; split <;> rfl
theorem rollWindow_period : (l.rollWindow now).period = now / l.resetSeconds := by
  unfold rollWindow
  dsimp only
  split
  · assumption
  · rfl

/-! ## The verdict -/

theorem verdict_eq_admitted_iff :
    l.verdict m = .admitted ↔ l.limits.FitsAnEmptyWindow l.limitFactor m ∧ l.FitsThisWindow m := by
  unfold verdict
  by_cases h1 : l.limits.FitsAnEmptyWindow l.limitFactor m <;> by_cases h2 : l.FitsThisWindow m <;>
    simp [h1, h2, Admission.ofFits]

theorem verdict_eq_unsendable_iff : l.verdict m = .unsendable ↔ ¬ l.limits.FitsAnEmptyWindow l.limitFactor m := by
  unfold verdict
  by_cases h1 : l.limits.FitsAnEmptyWindow l.limitFactor m <;> by_cases h2 : l.FitsThisWindow m <;>
    simp [h1, h2, Admission.ofFits]

theorem admitAt_fst : (l.admitAt now m).1 = (l.rollWindow now).verdict m := rfl

theorem admitAt_snd : (l.admitAt now m).2 =
    if l.direction = .inbound ∨ (l.rollWindow now).verdict m = .admitted then (l.rollWindow now).charge m
    else l.rollWindow now := by
  simp only [admitAt, rollWindow_direction]

theorem admitAt_period : (l.admitAt now m).2.period = now / l.resetSeconds := by
  rw [admitAt_snd]
  split
  · rw [charge_period, rollWindow_period]
  · rw [rollWindow_period]

/-! ## What stays as it was built -/

variable {direction : Direction} {reset : ℕ+} {factor : ℚ} {limits : OpcodeRateLimits}

structure BuiltWith (direction : Direction) (reset : ℕ+) (factor : ℚ) (limits : OpcodeRateLimits)
    (l : OpcodeRateLimiter) : Prop where
  direction    : l.direction = direction
  resetSeconds : l.resetSeconds = reset
  limitFactor  : l.limitFactor = factor
  limits       : l.limits = limits

theorem BuiltWith.rollWindow (h : BuiltWith direction reset factor limits l) (now : ℕ) :
    BuiltWith direction reset factor limits (l.rollWindow now) :=
  ⟨by simp [h.direction], by simp [h.resetSeconds], by simp [h.limitFactor], by simp [h.limits]⟩

theorem BuiltWith.charge (h : BuiltWith direction reset factor limits l) (m : DigMessage) :
    BuiltWith direction reset factor limits (l.charge m) :=
  ⟨by simp [h.direction], by simp [h.resetSeconds], by simp [h.limitFactor], by simp [h.limits]⟩

theorem BuiltWith.admitAt (h : BuiltWith direction reset factor limits l) (now : ℕ) (m : DigMessage) :
    BuiltWith direction reset factor limits (l.admitAt now m).2 := by
  rw [admitAt_snd]
  split
  · exact (h.rollWindow now).charge m
  · exact h.rollWindow now

theorem builtWith_new (now : ℕ) : BuiltWith direction reset factor limits (new now direction reset factor limits) :=
  ⟨rfl, rfl, rfl, rfl⟩

structure NonNegCounters (l : OpcodeRateLimiter) : Prop where
  nonTxCount : 0 ≤ l.nonTxCount
  nonTxSize  : 0 ≤ l.nonTxSize

theorem size_nonneg (m : DigMessage) : 0 ≤ m.size := Nat.cast_nonneg _

theorem nonNegCounters_new : NonNegCounters (new now direction reset factor limits) := ⟨le_refl 0, le_refl 0⟩

theorem NonNegCounters.rollWindow (h : l.NonNegCounters) : (l.rollWindow now).NonNegCounters := by
  unfold OpcodeRateLimiter.rollWindow
  dsimp only
  split
  · exact h
  · exact ⟨le_refl 0, le_refl 0⟩

theorem NonNegCounters.charge (h : l.NonNegCounters) : (l.charge m).NonNegCounters := by
  constructor
  · rw [charge_nonTxCount]
    exact add_nonneg h.nonTxCount (by split <;> decide +kernel)
  · rw [charge_nonTxSize]
    exact add_nonneg h.nonTxSize (by split; exacts [size_nonneg m, le_refl 0])

theorem NonNegCounters.admitAt (h : l.NonNegCounters) : (l.admitAt now m).2.NonNegCounters := by
  rw [admitAt_snd]
  split
  · exact h.rollWindow.charge
  · exact h.rollWindow

end OpcodeRateLimiter

end Dig
