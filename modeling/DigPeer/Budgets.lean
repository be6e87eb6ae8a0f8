import DigPeer.Isolation
import DigPeer.Lib.Windows
/-!
# Budgets — what a limiter lets through in a window

A limiter keeps four kinds of `Counter`, all cleared together when the clock enters a new window.  Along readings that
do not decrease each of them is the tally of what was charged in the window it is in, so the messages admitted in a
window are within every budget of the table (`admitted_within`).  An inbound limiter charges every frame, so its
counters are the tallies of all frames offered (`inbound_ratchet`), and a budget once passed stays passed until the
window rolls.
-/
namespace Dig

open Mealy Windows

inductive Counter where
  | count (opcode : UInt8)
  | cumulativeSize (opcode : UInt8)
  | nonTxCount
  | nonTxSize
deriving DecidableEq, Repr

namespace Counter

def cost (limits : OpcodeRateLimits) (m : DigMessage) : Counter → ℚ
  | count opcode          => if m.msgType = opcode then 1 else 0
  | cumulativeSize opcode => if m.msgType = opcode then m.size else 0
  | nonTxCount            => if limits.countsAgainstNonTx m.msgType then 1 else 0
  | nonTxSize             => if limits.countsAgainstNonTx m.msgType then m.size else 0

def bound (limits : OpcodeRateLimits) (factor : ℚ) : Counter → ℚ
  | count opcode          => (limits.limit opcode).frequency * factor
  | cumulativeSize opcode => (limits.limit opcode).maxTotal * factor
  | nonTxCount            => limits.nonTxFrequency * factor
  | nonTxSize             => limits.nonTxMaxTotalSize * factor

def read (l : OpcodeRateLimiter) : Counter → ℚ
  | count opcode          => l.count opcode
  | cumulativeSize opcode => l.cumulativeSize opcode
  | nonTxCount            => l.nonTxCount
  | nonTxSize             => l.nonTxSize

def total (limits : OpcodeRateLimits) (ms : List DigMessage) : Counter → ℚ
  | count opcode          => (ms.filter (·.msgType = opcode)).length
  | cumulativeSize opcode => ((ms.filter (·.msgType = opcode)).map DigMessage.size).sum
  | nonTxCount            => (ms.filter (limits.countsAgainstNonTx ·.msgType)).length
  | nonTxSize             => ((ms.filter (limits.countsAgainstNonTx ·.msgType)).map DigMessage.size).sum

/-- The counters that a message of an opcode is tested against. -/
def Tests (opcode : UInt8) : Counter → Prop
  | count o          => o = opcode
  | cumulativeSize o => o = opcode
  | nonTxCount       => True
  | nonTxSize        => True

variable {limits : OpcodeRateLimits} {factor : ℚ} {l : OpcodeRateLimiter} {m : DigMessage} {now : ℕ} {c : Counter}
  {direction : Direction} {reset : ℕ+}

theorem cost_nonneg : 0 ≤ c.cost limits m := by
  have h0 : (0 : ℚ) ≤ 0 := le_refl 0
  have h1 : (0 : ℚ) ≤ 1 := by decide +kernel
  have hsize := OpcodeRateLimiter.size_nonneg m
  unfold cost
  cases c <;> dsimp only <;> split <;> assumption

theorem bound_nonneg (hl : limits.NonNeg) (hf : 0 ≤ factor) : 0 ≤ c.bound limits factor := by
  cases c with
  | count opcode          => exact mul_nonneg (hl.limit opcode).frequency hf
  | cumulativeSize opcode => exact mul_nonneg (hl.limit opcode).maxTotal hf
  | nonTxCount            => exact mul_nonneg hl.nonTxFrequency hf
  | nonTxSize             => exact mul_nonneg hl.nonTxMaxTotalSize hf

theorem read_charge : c.read (l.charge m) = c.read l + c.cost l.limits m := by
  cases c with
  | count opcode          => exact OpcodeRateLimiter.charge_count
  | cumulativeSize opcode => exact OpcodeRateLimiter.charge_cumulativeSize
  | nonTxCount            => exact OpcodeRateLimiter.charge_nonTxCount
  | nonTxSize             => exact OpcodeRateLimiter.charge_nonTxSize

theorem read_rollWindow : c.read (l.rollWindow now) = if l.period = now / l.resetSeconds then c.read l else 0 := by
  unfold OpcodeRateLimiter.rollWindow
  by_cases h : l.period = now / l.resetSeconds
  · rw [if_pos h, if_pos h]
  · rw [if_neg h, if_neg h]
    cases c <;> rfl

theorem read_new : c.read (OpcodeRateLimiter.new now direction reset factor limits) = 0 := by cases c <;> rfl

theorem sum_cost (ms : List DigMessage) : (ms.map (c.cost limits)).sum = c.total limits ms := by
  induction ms with
  | nil => cases c <;> rfl
  | cons m ms ih =>
    rw [List.map_cons, List.sum_cons, ih]
    cases c with
    | count opcode =>
      by_cases h : m.msgType = opcode
      · simp [cost, total, h, add_comm]
      · simp [cost, total, h]
    | cumulativeSize opcode =>
      by_cases h : m.msgType = opcode
      · simp [cost, total, h]
      · simp [cost, total, h]
    | nonTxCount =>
      by_cases h : limits.countsAgainstNonTx m.msgType
      · simp [cost, total, h, add_comm]
      · simp [cost, total, h]
    | nonTxSize =>
      by_cases h : limits.countsAgainstNonTx m.msgType
      · simp [cost, total, h]
      · simp [cost, total, h]

/-- **A message fits the window when no counter it is tested against passes its bound.** -/
theorem fitsThisWindow_iff : l.FitsThisWindow m ↔
    ∀ c : Counter, c.Tests m.msgType → c.read (l.charge m) ≤ c.bound l.limits l.limitFactor := by
  constructor
  · rintro ⟨h1, h2, h3, h4⟩ c hc
    cases c with
    | count opcode          => cases hc; exact h3
    | cumulativeSize opcode => cases hc; exact h4
    | nonTxCount            => exact h1
    | nonTxSize             => exact h2
  · intro h
    exact ⟨h nonTxCount trivial, h nonTxSize trivial, h (count m.msgType) rfl, h (cumulativeSize m.msgType) rfl⟩

theorem tests_of_cost_ne_zero (h : c.cost limits m ≠ 0) : c.Tests m.msgType := by
  cases c with
  | count opcode          => exact by_contra fun hc => h (if_neg fun he => hc he.symm)
  | cumulativeSize opcode => exact by_contra fun hc => h (if_neg fun he => hc he.symm)
  | nonTxCount            => trivial
  | nonTxSize             => trivial

end Counter

namespace OpcodeRateLimiter

variable {direction : Direction} {reset : ℕ+} {factor : ℚ} {limits : OpcodeRateLimits} {now : ℕ}
  {l : OpcodeRateLimiter} {m : DigMessage} {xs : List (ℕ × DigMessage)}

/-- What a verdict charges a message to a counter. -/
def charged (direction : Direction) (limits : OpcodeRateLimits) (c : Counter) (x : ℕ × DigMessage) (v : Admission) :
    ℚ :=
  if direction = .inbound ∨ v = .admitted then c.cost limits x.2 else 0

def granted (limits : OpcodeRateLimits) (c : Counter) (x : ℕ × DigMessage) (v : Admission) : ℚ :=
  if v = .admitted then c.cost limits x.2 else 0

/-- **Every counter starts again in every window.** -/
theorem rolling (c : Counter) :
    Rolling offer (BuiltWith direction reset factor limits) Prod.fst reset period c.read (charged direction limits c) where
  keeps   := fun _ x hl => hl.admitAt x.1 x.2
  moves   := fun _ _ hl => by rw [← hl.resetSeconds]; exact admitAt_period
  charges := by
    rintro l ⟨now, m⟩ hl
    unfold offer charged
    dsimp only
    rw [admitAt_snd, admitAt_fst, hl.direction, ← hl.resetSeconds, ← Counter.read_rollWindow]
    split
    · rw [Counter.read_charge, (hl.rollWindow now).limits]
    · rw [add_zero]

theorem charged_inbound {c : Counter} {x : ℕ × DigMessage} {v : Admission} :
    charged .inbound limits c x v = c.cost limits x.2 := if_pos (Or.inl rfl)

theorem granted_nonneg {c : Counter} {x : ℕ × DigMessage} {v : Admission} : 0 ≤ granted limits c x v := by
  unfold granted
  split
  · exact Counter.cost_nonneg
  · exact le_refl 0

theorem granted_le_charged (c : Counter) (x : ℕ × DigMessage) (v : Admission) :
    granted limits c x v ≤ charged direction limits c x v := by
  unfold granted charged
  by_cases hv : v = .admitted
  · rw [if_pos hv, if_pos (Or.inr hv)]
  · rw [if_neg hv]
    split
    · exact Counter.cost_nonneg
    · exact le_refl 0

theorem granted_le_bound (c : Counter) (hl : BuiltWith direction reset factor limits l) (x : ℕ × DigMessage) :
    granted limits c x (offer l x).1 = 0 ∨ c.read (offer l x).2 ≤ c.bound limits factor := by
  unfold granted offer
  by_cases hv : (l.admitAt x.1 x.2).1 = .admitted
  · rw [if_pos hv]
    by_cases hcost : c.cost limits x.2 = 0
    · exact Or.inl hcost
    · right
      have hr := hl.rollWindow x.1
      rw [admitAt_fst] at hv
      rw [admitAt_snd, if_pos (Or.inr hv)]
      have hfits := Counter.fitsThisWindow_iff.1 (verdict_eq_admitted_iff.1 hv).2 c (Counter.tests_of_cost_ne_zero hcost)
      rw [hr.limits, hr.limitFactor] at hfits
      exact hfits
  · rw [if_neg hv]
    exact Or.inl rfl

/-! ## What is admitted -/

def admittedAt (p : ℕ → Prop) [DecidablePred p] (log : List ((ℕ × DigMessage) × Admission)) : List DigMessage :=
  (log.filter fun e => e.2 = .admitted ∧ p e.1.1).map fun e => e.1.2

/-- **What `n` windows allow**: every budget of the table, scaled, `n` times. -/
structure Within (limits : OpcodeRateLimits) (factor : ℚ) (n : ℕ) (ms : List DigMessage) : Prop where
  count      : ∀ opcode, ((ms.filter (·.msgType = opcode)).length : ℚ) ≤ n * ((limits.limit opcode).frequency * factor)
  total      : ∀ opcode, ((ms.filter (·.msgType = opcode)).map fun m => (m.data.length : ℚ)).sum ≤
    n * ((limits.limit opcode).maxTotal * factor)
  maxSize    : ∀ m ∈ ms, (m.data.length : ℚ) ≤ (limits.limit m.msgType).maxSize
  nonTxCount : ((ms.filter (limits.countsAgainstNonTx ·.msgType)).length : ℚ) ≤ n * (limits.nonTxFrequency * factor)
  nonTxSize  : ((ms.filter (limits.countsAgainstNonTx ·.msgType)).map fun m => (m.data.length : ℚ)).sum ≤
    n * (limits.nonTxMaxTotalSize * factor)

theorem size_eq (h : m.data.length ≤ 2 ^ 32 - 1) : m.size = m.data.length := by
  rw [DigMessage.size, Nat.min_eq_left h]

theorem map_size_eq {ms : List DigMessage} (h : ∀ m ∈ ms, m.data.length ≤ 2 ^ 32 - 1) (p : DigMessage → Bool) :
    (ms.filter p).map DigMessage.size = (ms.filter p).map fun m => (m.data.length : ℚ) :=
  List.map_congr_left fun m hm => size_eq (h m (List.mem_of_mem_filter hm))

theorem Within.of_totals {n : ℕ} {ms : List DigMessage} (hlen : ∀ m ∈ ms, m.data.length ≤ 2 ^ 32 - 1)
    (hsize : ∀ m ∈ ms, m.size ≤ (limits.limit m.msgType).maxSize)
    (h : ∀ c : Counter, c.total limits ms ≤ n * c.bound limits factor) : Within limits factor n ms where
  count opcode := h (.count opcode)
  total opcode := by rw [← map_size_eq hlen]; exact h (.cumulativeSize opcode)
  maxSize m hm := by rw [← size_eq (hlen m hm)]; exact hsize m hm
  nonTxCount   := h .nonTxCount
  nonTxSize    := by rw [← map_size_eq hlen]; exact h .nonTxSize

theorem total_admittedAt (p : ℕ → Prop) [DecidablePred p] (log : List ((ℕ × DigMessage) × Admission)) (c : Counter) :
    c.total limits (admittedAt p log) = tally (fun e => granted limits c e.1 e.2) (fun e => p e.1.1) log := by
  unfold granted
  rw [tally_ite, tally, ← Counter.sum_cost, admittedAt, List.map_map]
  rfl

theorem fits_of_mem_admittedAt {p : ℕ → Prop} [DecidablePred p] (hl : BuiltWith direction reset factor limits l)
    (hm : m ∈ admittedAt p (transcript offer l xs)) :
    (∃ t, (t, m) ∈ xs) ∧ m.size ≤ (limits.limit m.msgType).maxSize := by
  obtain ⟨⟨⟨t, m'⟩, v⟩, he, rfl⟩ := List.mem_map.1 hm
  obtain ⟨he, hv⟩ := List.mem_filter.1 he
  obtain ⟨rfl, _⟩ := of_decide_eq_true hv
  refine ⟨⟨t, mem_of_mem_transcript he⟩, ?_⟩
  obtain ⟨n, hn⟩ := List.mem_iff_getElem?.1 he
  obtain ⟨_, hadm⟩ := (getElem?_transcript xs l n).1 hn
  have hr : BuiltWith direction reset factor limits ((final offer l (xs.take n)).rollWindow t) :=
    ((rolling .nonTxCount).final hl (xs.take n)).rollWindow t
  have hfits := (verdict_eq_admitted_iff.1 hadm).1
  exact hr.limits ▸ hfits.1

/-- **What is admitted in a window is within every budget of the table**, and in any stretch as long as a window within
twice each of them. -/
theorem admitted_within (now : ℕ) (direction : Direction) (reset : ℕ+) (hl : limits.NonNeg) (hf : 0 ≤ factor)
    (xs : List (ℕ × DigMessage)) (hmono : xs.Pairwise fun x y => x.1 ≤ y.1)
    (hlen : ∀ x ∈ xs, x.2.data.length ≤ 2 ^ 32 - 1) :
    let log := transcript offer (new now direction reset factor limits) xs
    (∀ k, Within limits factor 1 (admittedAt (fun t => k * reset ≤ t ∧ t < (k + 1) * reset) log)) ∧
      ∀ t, Within limits factor 2 (admittedAt (fun u => t ≤ u ∧ u < t + reset) log) := by
  intro log
  have hbuilt : BuiltWith direction reset factor limits (new now direction reset factor limits) := builtWith_new now
  have hwindow : ∀ (c : Counter) (k : ℕ),
      tally (fun e => granted limits c e.1 e.2) (fun e => e.1.1 / reset = k) log ≤ c.bound limits factor := fun c k =>
    (rolling c).tally_le hbuilt Counter.read_new (Counter.bound_nonneg hl hf) (granted_le_charged c)
      (fun _ x hb => granted_le_bound c hb x) xs hmono k
  have hof : ∀ (n : ℕ) (p : ℕ → Prop) [DecidablePred p],
      (∀ c : Counter, tally (fun e => granted limits c e.1 e.2) (fun e => p e.1.1) log ≤ n * c.bound limits factor) →
        Within limits factor n (admittedAt p log) := by
    intro n p _ h
    refine .of_totals (fun m hm => ?_) (fun m hm => (fits_of_mem_admittedAt hbuilt hm).2) fun c => ?_
    · obtain ⟨⟨t, ht⟩, _⟩ := fits_of_mem_admittedAt hbuilt hm
      exact hlen _ ht
    · rw [total_admittedAt]
      exact h c
  constructor
  · intro k
    refine hof 1 _ fun c => ?_
    rw [Nat.cast_one, one_mul]
    exact le_of_eq_of_le (tally_congr fun e _ => div_eq_iff.symm) (hwindow c k)
  · intro t
    refine hof 2 _ fun c => ?_
    rw [Nat.cast_ofNat, two_mul]
    exact tally_stretch_le (fun e : (ℕ × DigMessage) × Admission => e.1.1) (fun _ => granted_nonneg) (hwindow c) t

theorem admitted_within_narrowLimits :
    let log := transcript offer (new 0 .inbound 60 1 narrowLimits)
      [(0, ⟨1, none, [7]⟩), (59, ⟨1, none, [8]⟩), (60, ⟨1, none, [9]⟩)]
    (∀ k, Within narrowLimits 1 1 (admittedAt (fun t => k * (60 : ℕ+) ≤ t ∧ t < (k + 1) * (60 : ℕ+)) log)) ∧
      ∀ t, Within narrowLimits 1 2 (admittedAt (fun u => t ≤ u ∧ u < t + (60 : ℕ+)) log) :=
  admitted_within 0 .inbound 60 narrowLimits_nonNeg (by decide +kernel) _ (by decide) (by decide)

/-! ## The inbound ratchet -/

def offeredIn (reset : ℕ+) (k : ℕ) (xs : List (ℕ × DigMessage)) : List DigMessage :=
  (xs.filter fun x => x.1 / reset = k).map Prod.snd

/-- One of the budgets of the opcode is passed, in window `w`. -/
structure Spent (w : ℕ) (opcode : UInt8) (l : OpcodeRateLimiter) : Prop where
  period : l.period = w
  passed : ∃ c : Counter, c.Tests opcode ∧ c.bound l.limits l.limitFactor < c.read l

theorem Spent.charge {w : ℕ} {opcode : UInt8} (h : Spent w opcode l) (m : DigMessage) :
    Spent w opcode (l.charge m) := by
  obtain ⟨c, hc, hlt⟩ := h.passed
  refine ⟨h.period, c, hc, lt_of_lt_of_le hlt ?_⟩
  rw [Counter.read_charge]
  exact le_add_of_nonneg_right Counter.cost_nonneg

/-- **A budget once passed stays passed until the window rolls.** -/
theorem Spent.admitAt {w : ℕ} {opcode : UInt8} (h : Spent w opcode l) (hnow : now / l.resetSeconds = w) (m : DigMessage) :
    Spent w opcode (l.admitAt now m).2 := by
  rw [admitAt_snd, rollWindow_of_eq (h.period.trans hnow.symm)]
  split
  · exact h.charge m
  · exact h

theorem Spent.not_admitted {w : ℕ} (h : Spent w m.msgType l) (hnow : now / l.resetSeconds = w) :
    (l.admitAt now m).1 ≠ .admitted := by
  intro hadm
  rw [admitAt_fst, rollWindow_of_eq (h.period.trans hnow.symm), verdict_eq_admitted_iff] at hadm
  obtain ⟨c, hc, hlt⟩ := (h.charge m).passed
  exact absurd (Counter.fitsThisWindow_iff.1 hadm.2 c hc) (not_le.2 hlt)

/-- **What defers an inbound frame is charged to it.** -/
theorem spent_of_deferred (hin : l.direction = .inbound) (h : (l.admitAt now m).1 = .deferred) :
    Spent (now / l.resetSeconds) m.msgType (l.admitAt now m).2 := by
  rw [admitAt_snd, if_pos (Or.inl hin)]
  refine ⟨rollWindow_period, ?_⟩
  rw [admitAt_fst] at h
  by_contra hnone
  have hfits : (l.rollWindow now).FitsThisWindow m :=
    Counter.fitsThisWindow_iff.2 fun c hc => not_lt.1 fun hlt => hnone ⟨c, hc, hlt⟩
  by_cases hempty : (l.rollWindow now).limits.FitsAnEmptyWindow (l.rollWindow now).limitFactor m
  · rw [verdict_eq_admitted_iff.2 ⟨hempty, hfits⟩] at h
    cases h
  · rw [verdict_eq_unsendable_iff.2 hempty] at h
    cases h

theorem read_inbound (now : ℕ) (c : Counter) (xs : List (ℕ × DigMessage)) (hmono : xs.Pairwise fun x y => x.1 ≤ y.1) :
    let l := final offer (new now .inbound reset factor limits) xs
    c.read l = c.total limits (offeredIn reset l.period xs) := by
  intro l
  have hbuilt : BuiltWith .inbound reset factor limits (new now .inbound reset factor limits) := builtWith_new now
  have hread := (rolling c).read_final hbuilt Counter.read_new xs hmono
  simp only [charged_inbound] at hread
  rw [hread, ← Counter.sum_cost, offeredIn, List.map_map]
  exact tally_transcript offer _ (fun x => c.cost limits x.2) (fun x => x.1 / reset = l.period) xs

/-- **The inbound ratchet**: after every frame each counter is the total of all frames offered in its window, whatever
the verdicts on them; and once a frame of an opcode is deferred, no later frame of the opcode is admitted in the
window. -/
theorem inbound_ratchet (now : ℕ) (reset : ℕ+) (factor : ℚ) (limits : OpcodeRateLimits) :
    let l := new now .inbound reset factor limits
    (∀ (xs : List (ℕ × DigMessage)) (x : ℕ × DigMessage), (xs ++ [x]).Pairwise (fun x y => x.1 ≤ y.1) →
      ∀ c : Counter, c.read (final offer l (xs ++ [x])) = c.total limits (offeredIn reset (x.1 / reset) (xs ++ [x]))) ∧
    ∀ (before between : List (ℕ × DigMessage)) (x y : ℕ × DigMessage),
      (before ++ x :: between ++ [y]).Pairwise (fun x y => x.1 ≤ y.1) → y.1 / reset = x.1 / reset →
        y.2.msgType = x.2.msgType → (offer (final offer l before) x).1 = .deferred →
          (offer (final offer l (before ++ x :: between)) y).1 ≠ .admitted := by
  intro l
  have hbuilt : BuiltWith .inbound reset factor limits l := builtWith_new now
  constructor
  · intro xs x hmono c
    have hperiod := ((rolling c).window_final_ge hbuilt hmono).1
    rw [← hperiod]
    exact read_inbound now c _ hmono
  · intro before between x y hmono hw hop hdeferred
    have hb := (rolling .nonTxCount).final hbuilt before
    have hspent := spent_of_deferred hb.direction hdeferred
    rw [hb.resetSeconds] at hspent
    rw [final_append, final]
    have hmid : BuiltWith .inbound reset factor limits (final offer (offer (final offer l before) x).2 between) ∧
        Spent (x.1 / reset) x.2.msgType (final offer (offer (final offer l before) x).2 between) := by
      refine final_invariant_of_mem
        (P := fun l => BuiltWith .inbound reset factor limits l ∧ Spent (x.1 / reset) x.2.msgType l) between _
        (fun z hz l hl => ⟨hl.1.admitAt z.1 z.2, hl.2.admitAt ?_ z.2⟩) ⟨hb.admitAt x.1 x.2, hspent⟩
      rw [hl.1.resetSeconds]
      obtain ⟨hleft, _, hright⟩ := List.pairwise_append.1 hmono
      have hxz : x.1 ≤ z.1 := (List.pairwise_cons.1 (List.pairwise_append.1 hleft).2.1).1 z hz
      have hzy : z.1 ≤ y.1 := hright z (by simp [hz]) y List.mem_cons_self
      have h1 : x.1 / reset ≤ z.1 / reset := Nat.div_le_div_right hxz
      have h2 : z.1 / reset ≤ y.1 / reset := Nat.div_le_div_right hzy
      omega
    refine Spent.not_admitted (w := x.1 / reset) ?_ ?_
    · rw [hop]; exact hmid.2
    · rw [hmid.1.resetSeconds]; exact hw

theorem not_admitted_narrowLimits :
    (offer (final offer (new 0 .inbound 60 1 narrowLimits) [(0, ⟨1, none, []⟩), (0, ⟨1, none, []⟩), (5, ⟨1, none, []⟩)])
      (59, ⟨1, none, [7]⟩)).1 ≠ .admitted :=
  (inbound_ratchet 0 60 1 narrowLimits).2 [(0, ⟨1, none, []⟩), (0, ⟨1, none, []⟩)] [] (5, ⟨1, none, []⟩)
    (59, ⟨1, none, [7]⟩) (by decide) (by decide) rfl (by decide +kernel)

end OpcodeRateLimiter

end Dig
