import DigPeer.RateLimit
import DigPeer.Lib.Mealy
import Mathlib.Algebra.Order.Archimedean.Basic
/-!
# Isolation — when other traffic can change the verdict on an opcode

An opcode that does not count against the aggregates has a budget of its own, `OpcodeBudget`, and the limiter's verdicts
on it should be that budget's.  They are as long as the aggregates cannot pass their bounds (`observed_eq_outputs`):
they are tested for every opcode, and an inbound limiter charges its refusals to them.  `isolated_iff` says exactly when
no other traffic matters.
-/
namespace Dig

open Mealy

structure RateLimit.NonNeg (limit : RateLimit) : Prop where
  frequency    : 0 ≤ limit.frequency
  maxSize      : 0 ≤ limit.maxSize
  maxTotalSize : ∀ total ∈ limit.maxTotalSize, 0 ≤ total

structure OpcodeRateLimits.NonNeg (limits : OpcodeRateLimits) : Prop where
  defaultSettings   : limits.defaultSettings.NonNeg
  tx                : ∀ e ∈ limits.tx.entries, e.2.NonNeg
  other             : ∀ e ∈ limits.other.entries, e.2.NonNeg
  nonTxFrequency    : 0 ≤ limits.nonTxFrequency
  nonTxMaxTotalSize : 0 ≤ limits.nonTxMaxTotalSize

theorem RateLimit.NonNeg.maxTotal {limit : RateLimit} (h : limit.NonNeg) : 0 ≤ limit.maxTotal := by
  unfold RateLimit.maxTotal
  cases ht : limit.maxTotalSize with
  | none => exact mul_nonneg h.frequency h.maxSize
  | some total => exact h.maxTotalSize total ht

theorem OpcodeRateLimits.NonNeg.limit {limits : OpcodeRateLimits} (h : limits.NonNeg) (opcode : UInt8) :
    (limits.limit opcode).NonNeg := by
  unfold OpcodeRateLimits.limit
  split
  · rename_i ht
    exact h.tx _ (AList.mem_entries_iff.2 ht)
  · rename_i ho
    exact h.other _ (AList.mem_entries_iff.2 ho)
  · exact h.defaultSettings

/-! ## One opcode's own budget -/

/-- What one opcode has spent of its own budget in a window. -/
structure OpcodeBudget where
  count : ℚ
  total : ℚ

namespace OpcodeBudget

variable (limits : OpcodeRateLimits) (factor : ℚ) (b : OpcodeBudget) (m : DigMessage)

def spend : OpcodeBudget := ⟨b.count + 1, b.total + m.size⟩

def Fits : Prop :=
  (b.spend m).count ≤ (limits.limit m.msgType).frequency * factor ∧
  (b.spend m).total ≤ (limits.limit m.msgType).maxTotal * factor

instance : Decidable (b.Fits limits factor m) := inferInstanceAs (Decidable (_ ∧ _))

def offer (direction : Direction) : Admission × OpcodeBudget :=
  let verdict := Admission.ofFits (limits.FitsAnEmptyWindow factor m) (b.Fits limits factor m)
  (verdict, if direction = .inbound ∨ verdict = .admitted then b.spend m else b)

theorem offer_snd (direction : Direction) : (b.offer limits factor m direction).2 =
    if direction = .inbound ∨ (b.offer limits factor m direction).1 = .admitted then b.spend m else b := rfl

end OpcodeBudget

def Carries (opcode : UInt8) (x : ℕ × DigMessage) : Bool := x.2.msgType = opcode

/-- **Isolation of an opcode**: two lists of offers to a new limiter, all in one window, that agree on the messages of
the opcode get the same verdicts on them. -/
def Isolated (now : ℕ) (direction : Direction) (resetSeconds : ℕ+) (factor : ℚ) (limits : OpcodeRateLimits)
    (opcode : UInt8) : Prop :=
  ∀ (w : ℕ) (xs ys : List (ℕ × DigMessage)), (∀ x ∈ xs ++ ys, x.1 / resetSeconds = w) →
    (xs.filter (Carries opcode)).map Prod.snd = (ys.filter (Carries opcode)).map Prod.snd →
    let l := OpcodeRateLimiter.new now direction resetSeconds factor limits
    observed (Carries opcode) OpcodeRateLimiter.offer l xs = observed (Carries opcode) OpcodeRateLimiter.offer l ys

namespace OpcodeRateLimiter

variable {direction : Direction} {reset : ℕ+} {factor : ℚ} {limits : OpcodeRateLimits} {w now : ℕ} {opcode : UInt8}
  {l : OpcodeRateLimiter} {b : OpcodeBudget} {m : DigMessage}

theorem rollWindow_eq_of_div (h : now / l.resetSeconds = w) : l.rollWindow now = l.rollWindow (w * l.resetSeconds) := by
  unfold rollWindow
  rw [h, Nat.mul_div_cancel _ l.resetSeconds.pos]

theorem rollWindow_self (h : l.period = w) : l.rollWindow (w * l.resetSeconds) = l :=
  rollWindow_of_eq (by rw [Nat.mul_div_cancel _ l.resetSeconds.pos]; exact h)

structure AggregatesHold (l : OpcodeRateLimiter) : Prop where
  nonTxCount : l.nonTxCount ≤ l.limits.nonTxFrequency * l.limitFactor
  nonTxSize  : l.nonTxSize ≤ l.limits.nonTxMaxTotalSize * l.limitFactor

/-- The counters of `opcode` are `b`, and the aggregates are within their bounds. -/
structure Shows (opcode : UInt8) (l : OpcodeRateLimiter) (b : OpcodeBudget) : Prop where
  count      : l.count opcode = b.count
  total      : l.cumulativeSize opcode = b.total
  aggregates : l.AggregatesHold

/-- `Shows`, once the window has rolled to `w`. -/
def Views (opcode : UInt8) (w : ℕ) (l : OpcodeRateLimiter) (b : OpcodeBudget) : Prop :=
  Shows opcode (l.rollWindow (w * l.resetSeconds)) b

theorem AggregatesHold.charge_of_not (h : l.AggregatesHold) (hm : l.limits.countsAgainstNonTx m.msgType = false) :
    (l.charge m).AggregatesHold := by
  obtain ⟨hc, hs⟩ := charge_nonTx_of_not hm
  exact ⟨by rw [hc]; exact h.nonTxCount, by rw [hs]; exact h.nonTxSize⟩

theorem FitsThisWindow.aggregatesHold (h : l.FitsThisWindow m) : (l.charge m).AggregatesHold := ⟨h.1, h.2.1⟩

theorem Shows.charge (h : Shows m.msgType l b) (hm : l.limits.countsAgainstNonTx m.msgType = false) :
    Shows m.msgType (l.charge m) (b.spend m) :=
  ⟨by simp [OpcodeBudget.spend, h.count], by simp [OpcodeBudget.spend, h.total], h.aggregates.charge_of_not hm⟩

/-- Within their bounds the aggregates refuse no message that does not count against them. -/
theorem Shows.fitsThisWindow_iff (h : Shows m.msgType l b) (hm : l.limits.countsAgainstNonTx m.msgType = false) :
    l.FitsThisWindow m ↔ b.Fits l.limits l.limitFactor m := by
  have hc := h.charge hm
  unfold FitsThisWindow OpcodeBudget.Fits
  rw [hc.count, hc.total]
  exact ⟨fun hf => hf.2.2, fun hf => ⟨hc.aggregates.nonTxCount, hc.aggregates.nonTxSize, hf⟩⟩

/-- **An offer of the opcode is judged and charged by its own budget.** -/
theorem Views.admitAt_same (hl : BuiltWith direction reset factor limits l) (hw : now / reset = w)
    (hm : limits.countsAgainstNonTx m.msgType = false) (h : Views m.msgType w l b) :
    (l.admitAt now m).1 = (b.offer limits factor m direction).1 ∧
      Views m.msgType w (l.admitAt now m).2 (b.offer limits factor m direction).2 := by
  rw [← hl.resetSeconds] at hw
  unfold Views at h
  rw [← rollWindow_eq_of_div hw] at h
  have hr := hl.rollWindow now
  have hperiod : (l.rollWindow now).period = w := rollWindow_period.trans hw
  rw [admitAt_snd, admitAt_fst, ← hl.direction]
  rw [← hr.limits] at hm
  have hfits := h.fitsThisWindow_iff hm
  have hverdict : (l.rollWindow now).verdict m = (b.offer limits factor m l.direction).1 := by
    simp only [verdict, OpcodeBudget.offer, hfits, hr.limits, hr.limitFactor]
  refine ⟨hverdict, ?_⟩
  rw [hverdict, OpcodeBudget.offer_snd, Views]
  by_cases hc : l.direction = .inbound ∨ (b.offer limits factor m l.direction).1 = .admitted
  · rw [if_pos hc, if_pos hc, rollWindow_self (by simpa using hperiod)]
    exact h.charge hm
  · rw [if_neg hc, if_neg hc, rollWindow_self hperiod]
    exact h

/-- **An offer of another opcode leaves the budget alone**, and the aggregates within their bounds: an outbound limiter
charges only what fits them, and with nothing counted against them they stay where they are. -/
theorem Views.admitAt_other (hl : BuiltWith direction reset factor limits l) (hw : now / reset = w)
    (hm : m.msgType ≠ opcode)
    (hd : direction = .outbound ∨ ∀ o, limits.countsAgainstNonTx o = false) (h : Views opcode w l b) :
    Views opcode w (l.admitAt now m).2 b := by
  rw [← hl.resetSeconds] at hw
  unfold Views at h
  rw [← rollWindow_eq_of_div hw] at h
  have hr := hl.rollWindow now
  have hperiod : (l.rollWindow now).period = w := rollWindow_period.trans hw
  rw [admitAt_snd]
  unfold Views
  split
  · rename_i hcharged
    rw [rollWindow_self (by simpa using hperiod)]
    refine ⟨by simp [hm, h.count], by simp [hm, h.total], ?_⟩
    rcases hd with hout | hnone
    · rw [hl.direction, hout] at hcharged
      rcases hcharged with hin | hadm
      · cases hin
      · exact (verdict_eq_admitted_iff.1 hadm).2.aggregatesHold
    · exact h.aggregates.charge_of_not (by rw [hr.limits]; exact hnone _)
  · rw [rollWindow_self hperiod]
    exact h

theorem views_new (hl : limits.NonNeg) (hf : 0 ≤ factor) :
    Views opcode w (new now direction reset factor limits) ⟨0, 0⟩ := by
  have hcount := mul_nonneg hl.nonTxFrequency hf
  have hsize := mul_nonneg hl.nonTxMaxTotalSize hf
  unfold Views rollWindow
  dsimp only
  split <;> exact ⟨rfl, rfl, hcount, hsize⟩

/-- **While the aggregates hold, the opcode's verdicts are its own budget's**, whatever else is offered. -/
theorem observed_eq_outputs (hl : limits.NonNeg) (hf : 0 ≤ factor) (hop : limits.countsAgainstNonTx opcode = false)
    (hd : direction = .outbound ∨ ∀ o, limits.countsAgainstNonTx o = false) (xs : List (ℕ × DigMessage))
    (hw : ∀ x ∈ xs, x.1 / reset = w) :
    observed (Carries opcode) offer (new now direction reset factor limits) xs =
      outputs (fun b m => OpcodeBudget.offer limits factor b m direction) ⟨0, 0⟩
        ((xs.filter (Carries opcode)).map Prod.snd) := by
  refine observed_eq (P := fun x => x.1 / reset = w)
    (R := fun l b => BuiltWith direction reset factor limits l ∧ Views opcode w l b) ?_ ?_ xs _ _ hw
    ⟨builtWith_new now, views_new hl hf⟩
  · rintro l b ⟨t, m⟩ ht hm ⟨hl, hv⟩
    obtain rfl : m.msgType = opcode := by simpa [Carries] using hm
    obtain ⟨h1, h2⟩ := hv.admitAt_same hl ht hop
    exact ⟨h1, hl.admitAt t m, h2⟩
  · rintro l b ⟨t, m⟩ ht hm ⟨hl, hv⟩
    exact ⟨hl.admitAt t m, hv.admitAt_other hl ht (by simpa [Carries] using hm) hd⟩

theorem observed_eq_outputs_of_lt (hfreq : ¬ 1 ≤ (limits.limit opcode).frequency * factor) (xs : List (ℕ × DigMessage)) :
    observed (Carries opcode) offer (new now direction reset factor limits) xs =
      outputs (fun (_ : Unit) (_ : DigMessage) => (Admission.unsendable, ())) ()
        ((xs.filter (Carries opcode)).map Prod.snd) := by
  refine observed_eq (P := fun _ => True) (R := fun l _ => BuiltWith direction reset factor limits l) ?_ ?_ xs _ _
    (fun _ _ => trivial) (builtWith_new now)
  · rintro l _ ⟨t, m⟩ _ hm hl
    obtain rfl : m.msgType = opcode := by simpa [Carries] using hm
    refine ⟨?_, hl.admitAt t m⟩
    have hr := hl.rollWindow t
    refine verdict_eq_unsendable_iff.2 fun hfits => hfreq ?_
    rw [hr.limits, hr.limitFactor] at hfits
    exact hfits.2.2.1
  · rintro l _ ⟨t, m⟩ _ _ hl
    exact hl.admitAt t m

/-- **An inbound flood of a counted opcode is charged in full**, admitted or not. -/
theorem nonTxCount_flood (hin : l.direction = .inbound) (hm : l.limits.countsAgainstNonTx m.msgType = true)
    (hp : l.period = now / l.resetSeconds) : ∀ (n : ℕ),
      let after := final offer l (List.replicate n (now, m))
      after.nonTxCount = l.nonTxCount + n ∧ after.period = l.period ∧
        BuiltWith l.direction l.resetSeconds l.limitFactor l.limits after
  | 0 => ⟨by simp, rfl, rfl, rfl, rfl, rfl⟩
  | n + 1 => by
    obtain ⟨hcount, hperiod, hbuilt⟩ := nonTxCount_flood hin hm hp n
    dsimp only
    rw [List.replicate_succ', final_concat]
    generalize final offer l (List.replicate n (now, m)) = after at hcount hperiod hbuilt
    have hroll : after.rollWindow now = after := rollWindow_of_eq (by rw [hperiod, hp, hbuilt.resetSeconds])
    have hstep : (after.offer (now, m)).2 = after.charge m := by
      show (after.admitAt now m).2 = _
      rw [admitAt_snd, hroll, if_pos (Or.inl (by rw [hbuilt.direction, hin]))]
    rw [hstep]
    refine ⟨?_, hperiod, hbuilt.charge m⟩
    simp only [charge, hbuilt.limits, hm, if_true, hcount]
    rw [add_assoc, Nat.cast_succ]

theorem admitAt_new_of_nil (hl : limits.NonNeg) (hf : 0 ≤ factor) (hop : limits.countsAgainstNonTx opcode = false)
    (hfreq : 1 ≤ (limits.limit opcode).frequency * factor) :
    ((new now direction reset factor limits).admitAt now ⟨opcode, none, []⟩).1 = .admitted := by
  have hsize : DigMessage.size ⟨opcode, none, []⟩ = 0 := by simp [DigMessage.size]
  have hmax := (hl.limit opcode).maxSize
  have htotal := mul_nonneg (hl.limit opcode).maxTotal hf
  have hshow : Shows opcode (new now direction reset factor limits) ⟨0, 0⟩ :=
    ⟨rfl, rfl, mul_nonneg hl.nonTxFrequency hf, mul_nonneg hl.nonTxMaxTotalSize hf⟩
  rw [admitAt_fst, rollWindow_of_eq rfl, verdict_eq_admitted_iff]
  refine ⟨⟨by rw [hsize]; exact hmax, by rw [hsize]; exact htotal, hfreq, Or.inl hop⟩, ?_⟩
  refine (hshow.fitsThisWindow_iff (m := ⟨opcode, none, []⟩) hop).2 ⟨?_, ?_⟩
  · show 0 + 1 ≤ (limits.limit opcode).frequency * factor
    rw [zero_add]
    exact hfreq
  · show 0 + DigMessage.size ⟨opcode, none, []⟩ ≤ (limits.limit opcode).maxTotal * factor
    rw [zero_add, hsize]
    exact htotal

/-- **A flood of a counted opcode past the aggregate's bound refuses a message that does not count against it**, though
a new limiter admits it. -/
theorem not_isolated (hl : limits.NonNeg) (hf : 0 ≤ factor) (hop : limits.countsAgainstNonTx opcode = false)
    {o : UInt8} (ho : limits.countsAgainstNonTx o = true) (hfreq : 1 ≤ (limits.limit opcode).frequency * factor) :
    ¬ Isolated now .inbound reset factor limits opcode := by
  intro hiso
  obtain ⟨n, hn⟩ := exists_nat_gt (limits.nonTxFrequency * factor)
  let probe : DigMessage := ⟨opcode, none, []⟩
  let noise : ℕ × DigMessage := (now, ⟨o, none, []⟩)
  have hne : o ≠ opcode := fun he => by rw [he, hop] at ho; cases ho
  have hnoise : ∀ x ∈ List.replicate n noise, Carries opcode x = false := fun x hx => by
    rw [List.eq_of_mem_replicate hx]; simpa [Carries, noise] using hne
  have hprobe : Carries opcode (now, probe) = true := by simp [Carries, probe]
  have hsame := hiso (now / reset) (List.replicate n noise ++ [(now, probe)]) [(now, probe)]
    (fun x hx => by
      simp only [List.mem_append, List.mem_singleton, List.mem_replicate] at hx
      rcases hx with (⟨_, rfl⟩ | rfl) | rfl <;> rfl)
    (by rw [List.filter_append, List.filter_eq_nil_iff.2 (by simpa using hnoise), List.nil_append])
  dsimp only at hsame
  rw [observed_append_of_not _ _ _ hnoise, observed_singleton _ _ hprobe, observed_singleton _ _ hprobe,
    List.cons.injEq] at hsame
  have hflood := nonTxCount_flood (l := new now .inbound reset factor limits) (m := ⟨o, none, []⟩) rfl ho rfl n
  dsimp only at hflood
  generalize final offer (new now .inbound reset factor limits) (List.replicate n noise) = after at hsame hflood
  obtain ⟨hcount, hperiod, hbuilt⟩ := hflood
  have hfresh : ((new now .inbound reset factor limits).offer (now, probe)).1 = .admitted :=
    admitAt_new_of_nil hl hf hop hfreq
  have hflooded : (after.offer (now, probe)).1 ≠ .admitted := by
    show (after.rollWindow now).verdict probe ≠ _
    rw [rollWindow_of_eq (by rw [hperiod, hbuilt.resetSeconds]; rfl), Ne, verdict_eq_admitted_iff]
    rintro ⟨_, hfits, _⟩
    rw [(charge_nonTx_of_not (by rw [hbuilt.limits]; exact hop)).1, hbuilt.limits, hbuilt.limitFactor, hcount] at hfits
    have hbound : ((n : ℕ) : ℚ) ≤ limits.nonTxFrequency * factor := by simpa [new] using hfits
    exact absurd hn (not_lt.2 hbound)
  exact hflooded (hsame.1.trans hfresh)

/-- **When other traffic cannot change the verdict on an opcode outside the aggregates**: an outbound limiter, a table
that counts nothing against the aggregates, or an opcode that is never admitted at all.  Otherwise an inbound flood
can, since its refusals are charged past the bound and the bound is tested for every opcode. -/
theorem isolated_iff (hl : limits.NonNeg) (hf : 0 ≤ factor) (hop : limits.countsAgainstNonTx opcode = false) :
    Isolated now direction reset factor limits opcode ↔
      direction = .outbound ∨ (∀ o, limits.countsAgainstNonTx o = false) ∨
        ¬ 1 ≤ (limits.limit opcode).frequency * factor := by
  constructor
  · intro hiso
    by_contra hcon
    simp only [not_or, not_not, not_forall, Bool.not_eq_false] at hcon
    obtain ⟨hd, ⟨o, ho⟩, hfreq⟩ := hcon
    cases direction with
    | outbound => exact hd rfl
    | inbound  => exact not_isolated hl hf hop ho hfreq hiso
  · intro h w xs ys hw hsame
    have hxs : ∀ x ∈ xs, x.1 / reset = w := fun x hx => hw x (List.mem_append_left _ hx)
    have hys : ∀ y ∈ ys, y.1 / reset = w := fun y hy => hw y (List.mem_append_right _ hy)
    dsimp only
    rcases or_assoc.2 h with hd | hfreq
    · rw [observed_eq_outputs hl hf hop hd xs hxs, observed_eq_outputs hl hf hop hd ys hys, hsame]
    · rw [observed_eq_outputs_of_lt hfreq xs, observed_eq_outputs_of_lt hfreq ys, hsame]

/-! ## A flood past the aggregate's bound -/

/-- A table of one counted opcode whose aggregate admits two messages a window. -/
def narrowLimits : OpcodeRateLimits where
  defaultSettings   := ⟨100, 1048576, some 104857600⟩
  nonTxFrequency    := 2
  nonTxMaxTotalSize := 104857600
  tx                := ∅
  other             := AList.singleton 1 ⟨100, 10240, none⟩

theorem narrowLimits_nonNeg : narrowLimits.NonNeg where
  defaultSettings   := ⟨by decide +kernel, by decide +kernel, by decide +kernel⟩
  tx                := by simp [narrowLimits]
  other             := by
    simp only [narrowLimits, AList.singleton_entries, List.mem_singleton, forall_eq]
    exact ⟨by decide +kernel, by decide +kernel, by decide +kernel⟩
  nonTxFrequency    := by decide +kernel
  nonTxMaxTotalSize := by decide +kernel

theorem isolated_outbound_narrowLimits : Isolated 0 .outbound 60 1 narrowLimits 220 :=
  (isolated_iff narrowLimits_nonNeg (by decide +kernel) (by decide +kernel)).2 (Or.inl rfl)

/-- **An inbound limiter does not**: three refused or admitted frames of the counted opcode, and the next message of an
opcode that is in neither map is deferred. -/
theorem not_isolated_inbound :
    ¬ ∀ (now : ℕ) (direction : Direction) (reset : ℕ+) (factor : ℚ) (limits : OpcodeRateLimits) (opcode : UInt8),
        limits.NonNeg → 0 ≤ factor → limits.countsAgainstNonTx opcode = false →
          Isolated now direction reset factor limits opcode := by
  intro h
  have hiso := h 0 .inbound 60 1 narrowLimits 220 narrowLimits_nonNeg (by decide +kernel) (by decide +kernel)
  let flood : List (ℕ × DigMessage) := List.replicate 3 (0, ⟨1, none, []⟩)
  have := hiso 0 (flood ++ [(0, ⟨220, none, []⟩)]) [(0, ⟨220, none, []⟩)] (by decide +kernel) (by decide +kernel)
  revert this
  decide +kernel

end OpcodeRateLimiter

end Dig
