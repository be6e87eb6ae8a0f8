import DigPeer.Budgets
import DigPeer.Refusals
/-!
# Gate — an inbound limiter against an outbound one

The two directions differ in what a refusal is charged, and in nothing else.  Offered the same messages at the same
readings an inbound limiter has charged at least as much, so it admits no more (`inbound_stricter`), and the two agree
as long as neither refuses.  A stream is admitted without a refusal exactly when each window of it fits as a whole
(`stream_exact`), so what one limiter lets through another can be asked about without its history.
-/
namespace Dig

open Mealy Windows

/-- The first verdict is the stricter one, and both call the same messages unsendable. -/
def Admission.Stricter (v v' : Admission) :
    Prop := (v = .unsendable ↔ v' = .unsendable) ∧ (v = .admitted → v' = .admitted)

namespace OpcodeRateLimiter

variable {direction : Direction} {reset : ℕ+} {factor factor' : ℚ} {limits : OpcodeRateLimits} {now k : ℕ}
  {l l' : OpcodeRateLimiter} {m : DigMessage} {x y : ℕ × DigMessage} {xs ys : List (ℕ × DigMessage)} {c : Counter}

/-! ## Side by side -/

/-- The first limiter is inbound and has charged at least what the second has, which is otherwise the same. -/
structure Leads (l l' : OpcodeRateLimiter) : Prop where
  inbound      : l.direction = .inbound
  period       : l'.period = l.period
  resetSeconds : l'.resetSeconds = l.resetSeconds
  limitFactor  : l'.limitFactor = l.limitFactor
  limits       : l'.limits = l.limits
  read         : ∀ c : Counter, c.read l' ≤ c.read l

theorem leads_new : Leads (new now .inbound reset factor limits) (new now direction reset factor limits) :=
  ⟨rfl, rfl, rfl, rfl, rfl, fun c => by rw [Counter.read_new, Counter.read_new]⟩

theorem Leads.rollWindow (h : Leads l l') (now : ℕ) : Leads (l.rollWindow now) (l'.rollWindow now) where
  inbound      := by rw [rollWindow_direction, h.inbound]
  period       := by rw [rollWindow_period, rollWindow_period, h.resetSeconds]
  resetSeconds := by rw [rollWindow_resetSeconds, rollWindow_resetSeconds, h.resetSeconds]
  limitFactor  := by rw [rollWindow_limitFactor, rollWindow_limitFactor, h.limitFactor]
  limits       := by rw [rollWindow_limits, rollWindow_limits, h.limits]
  read c       := by
    rw [Counter.read_rollWindow, Counter.read_rollWindow, h.period, h.resetSeconds]
    split
    · exact h.read c
    · exact le_refl 0

theorem Leads.charge (h : Leads l l') (m : DigMessage) : Leads (l.charge m) (l'.charge m) where
  inbound      := h.inbound
  period       := h.period
  resetSeconds := h.resetSeconds
  limitFactor  := h.limitFactor
  limits       := h.limits
  read c       := by
    rw [Counter.read_charge, Counter.read_charge, h.limits]
    exact add_le_add_left (h.read c) _

theorem Leads.charge_left (h : Leads l l') (m : DigMessage) : Leads (l.charge m) l' where
  inbound      := h.inbound
  period       := h.period
  resetSeconds := h.resetSeconds
  limitFactor  := h.limitFactor
  limits       := h.limits
  read c       := by
    rw [Counter.read_charge]
    exact le_add_of_le_of_nonneg (h.read c) Counter.cost_nonneg

/-- `Unsendable` does not look at the counters, and a counter that is lower admits more. -/
theorem Leads.verdict (h : Leads l l') (m : DigMessage) : (l.verdict m).Stricter (l'.verdict m) := by
  rw [Admission.Stricter, verdict_eq_unsendable_iff, verdict_eq_unsendable_iff, verdict_eq_admitted_iff,
    verdict_eq_admitted_iff, h.limits, h.limitFactor]
  refine ⟨Iff.rfl, fun ⟨hempty, hfits⟩ => ⟨hempty, ?_⟩⟩
  rw [Counter.fitsThisWindow_iff] at hfits ⊢
  intro c hc
  have hread := (h.charge m).read c
  rw [h.limits, h.limitFactor]
  exact le_trans hread (hfits c hc)

theorem Leads.offer (h : Leads l l') (x : ℕ × DigMessage) :
    (offer l x).1.Stricter (offer l' x).1 ∧ Leads (offer l x).2 (offer l' x).2 := by
  have hr := h.rollWindow x.1
  refine ⟨hr.verdict x.2, ?_⟩
  unfold OpcodeRateLimiter.offer
  rw [admitAt_snd, admitAt_snd, if_pos (Or.inl h.inbound)]
  split
  · exact hr.charge x.2
  · exact hr.charge_left x.2

structure Twins (l l' : OpcodeRateLimiter) : Prop extends Leads l l' where
  even : ∀ c : Counter, c.read l ≤ c.read l'

theorem Twins.rollWindow (h : Twins l l') (now : ℕ) : Twins (l.rollWindow now) (l'.rollWindow now) := by
  refine ⟨h.toLeads.rollWindow now, fun c => ?_⟩
  rw [Counter.read_rollWindow, Counter.read_rollWindow, h.period, h.resetSeconds]
  split
  · exact h.even c
  · exact le_refl 0

theorem Twins.charge (h : Twins l l') (m : DigMessage) : Twins (l.charge m) (l'.charge m) := by
  refine ⟨h.toLeads.charge m, fun c => ?_⟩
  rw [Counter.read_charge, Counter.read_charge, h.limits]
  exact add_le_add_left (h.even c) _

theorem Twins.verdict (h : Twins l l') (m : DigMessage) : l.verdict m = l'.verdict m := by
  obtain ⟨hunsendable, hadmitted⟩ := h.toLeads.verdict m
  have hback : l'.verdict m = .admitted → l.verdict m = .admitted := by
    rw [verdict_eq_admitted_iff, verdict_eq_admitted_iff, h.limits, h.limitFactor]
    refine fun ⟨hempty, hfits⟩ => ⟨hempty, ?_⟩
    rw [Counter.fitsThisWindow_iff] at hfits ⊢
    intro c hc
    have hread := (h.charge m).even c
    have hle := hfits c hc
    rw [h.limits, h.limitFactor] at hle
    exact le_trans hread hle
  cases hv : l.verdict m with
  | admitted   => exact (hadmitted hv).symm
  | unsendable => exact (hunsendable.1 hv).symm
  | deferred   =>
    cases hv' : l'.verdict m with
    | admitted   => exact absurd (hback hv') (by simp [hv])
    | unsendable => exact absurd (hunsendable.2 hv') (by simp [hv])
    | deferred   => rfl

theorem Twins.transcript (y : ℕ × DigMessage) : ∀ (xs : List (ℕ × DigMessage)) (l l' : OpcodeRateLimiter), Twins l l' →
    (∀ e ∈ transcript offer l' xs, e.2 = .admitted) → transcript offer l (xs ++ [y]) = transcript offer l' (xs ++ [y])
  | [], l, l', h, _ => by
    have hy : (l.offer y).1 = (l'.offer y).1 := (h.rollWindow y.1).verdict y.2
    simp [Mealy.transcript, hy]
  | x :: xs, l, l', h, hadm => by
    have hr := h.rollWindow x.1
    have hx : (l.offer x).1 = (l'.offer x).1 := hr.verdict x.2
    have hadmx : (l'.rollWindow x.1).verdict x.2 = .admitted := hadm (x, _) List.mem_cons_self
    have hnext : Twins (l.offer x).2 (l'.offer x).2 := by
      unfold offer
      rw [admitAt_snd, admitAt_snd, if_pos (Or.inl h.inbound), if_pos (Or.inr hadmx)]
      exact hr.charge x.2
    rw [List.cons_append, Mealy.transcript, Mealy.transcript, hx,
      Twins.transcript y xs _ _ hnext fun e he => hadm e (List.mem_cons_of_mem _ he)]

/-- **An inbound limiter is the stricter one**: whatever the readings, it refuses for good what an outbound limiter
refuses for good, and admits nothing that the outbound one would not have admitted in the same place; and until the
outbound one has refused something the two answer alike. -/
theorem inbound_stricter (now : ℕ) (reset : ℕ+) (factor : ℚ) (limits : OpcodeRateLimits) (xs : List (ℕ × DigMessage)) :
    let inbound := new now .inbound reset factor limits
    let outbound := new now .outbound reset factor limits
    List.Forall₂ (fun e e' => e.1 = e'.1 ∧ e.2.Stricter e'.2) (transcript offer inbound xs)
      (transcript offer outbound xs) ∧
    ((∀ e ∈ transcript offer outbound xs, e.2 = .admitted) →
      ∀ y, transcript offer inbound (xs ++ [y]) = transcript offer outbound (xs ++ [y])) := by
  intro inbound outbound
  have hleads : Leads inbound outbound := leads_new
  refine ⟨transcript_related (R := Leads) (fun _ _ x h => h.offer x) xs _ _ hleads, fun hadm y => ?_⟩
  have heven : ∀ c : Counter, c.read inbound ≤ c.read outbound := fun c => by rw [Counter.read_new, Counter.read_new]
  exact Twins.transcript y xs _ _ ⟨hleads, heven⟩ hadm

/-! ## A stream at a time -/

def AdmitsAll (l : OpcodeRateLimiter) (xs : List (ℕ × DigMessage)) :
    Prop := ∀ e ∈ transcript offer l xs, e.2 = .admitted

instance : Decidable (AdmitsAll l xs) := inferInstanceAs (Decidable (∀ e ∈ transcript offer l xs, e.2 = .admitted))

theorem admitsAll_concat : AdmitsAll l (xs ++ [x]) ↔ AdmitsAll l xs ∧ (offer (final offer l xs) x).1 = .admitted := by
  unfold AdmitsAll
  rw [transcript_concat, List.forall_mem_append, List.forall_mem_singleton]

/-- **What a window holds fits as a whole**: an empty window admits each of the messages, and together they pass no
bound that one of them is tested against. -/
def FitsAsAWhole (limits : OpcodeRateLimits) (factor : ℚ) (ms : List DigMessage) : Prop :=
  ∀ m ∈ ms, limits.FitsAnEmptyWindow factor m ∧
    ∀ c : Counter, c.Tests m.msgType → c.total limits ms ≤ c.bound limits factor

theorem total_concat {ms : List DigMessage} : c.total limits (ms ++ [m]) = c.total limits ms + c.cost limits m := by
  rw [← Counter.sum_cost, ← Counter.sum_cost, List.map_append, List.sum_append, List.map_singleton, List.sum_singleton]

theorem offeredIn_concat :
    offeredIn reset k (xs ++ [x]) = offeredIn reset k xs ++ if x.1 / reset = k then [x.2] else [] := by
  unfold offeredIn
  rw [List.filter_append, List.map_append]
  by_cases h : x.1 / reset = k <;> simp [h]

theorem fitsAsAWhole_concat {ms : List DigMessage} : FitsAsAWhole limits factor (ms ++ [m]) ↔
    FitsAsAWhole limits factor ms ∧ limits.FitsAnEmptyWindow factor m ∧
      ∀ c : Counter, c.Tests m.msgType → c.total limits (ms ++ [m]) ≤ c.bound limits factor := by
  constructor
  · intro h
    refine ⟨fun m' hm' => ?_, h m (by simp)⟩
    obtain ⟨hempty, htotal⟩ := h m' (by simp [hm'])
    refine ⟨hempty, fun c hc => le_trans ?_ (htotal c hc)⟩
    rw [total_concat]
    exact le_add_of_nonneg_right Counter.cost_nonneg
  · rintro ⟨h, hempty, htotal⟩ m' hm'
    rcases List.mem_append.1 hm' with hm' | hm'
    · refine ⟨(h m' hm').1, fun c hc => ?_⟩
      by_cases hcost : c.cost limits m = 0
      · rw [total_concat, hcost, add_zero]
        exact (h m' hm').2 c hc
      · exact htotal c (Counter.tests_of_cost_ne_zero hcost)
    · obtain rfl := List.mem_singleton.1 hm'
      exact ⟨hempty, htotal⟩

theorem admitted_inbound_iff (hmono : (xs ++ [x]).Pairwise fun x y => x.1 ≤ y.1) :
    (offer (final offer (new now .inbound reset factor limits) xs) x).1 = .admitted ↔
      limits.FitsAnEmptyWindow factor x.2 ∧ ∀ c : Counter, c.Tests x.2.msgType →
        c.total limits (offeredIn reset (x.1 / reset) (xs ++ [x])) ≤ c.bound limits factor := by
  have hbuilt : BuiltWith .inbound reset factor limits (final offer (new now .inbound reset factor limits) xs) :=
    (rolling .nonTxCount).final (builtWith_new now) xs
  have hr := hbuilt.rollWindow x.1
  have hread : ∀ c : Counter, c.read (((final offer (new now .inbound reset factor limits) xs).rollWindow x.1).charge x.2) =
      c.total limits (offeredIn reset (x.1 / reset) (xs ++ [x])) := by
    intro c
    have hread := @read_inbound reset factor limits now c (xs ++ [x]) hmono
    dsimp only at hread
    rw [final_concat, offer, admitAt_period, hbuilt.resetSeconds, admitAt_snd, if_pos (Or.inl hbuilt.direction)] at hread
    exact hread
  rw [offer, admitAt_fst, verdict_eq_admitted_iff, hr.limits, hr.limitFactor, Counter.fitsThisWindow_iff, hr.limits,
    hr.limitFactor]
  simp only [hread]

theorem admitsAll_directions : AdmitsAll (new now .inbound reset factor limits) xs ↔
    AdmitsAll (new now .outbound reset factor limits) xs := by
  have hleads : Leads (new now .inbound reset factor limits) (new now .outbound reset factor limits) := leads_new
  constructor
  · intro h e he
    obtain ⟨n, hn⟩ := List.mem_iff_getElem?.1 he
    have hall := transcript_related (R := Leads) (fun _ _ x h => h.offer x) xs _ _ hleads
    obtain ⟨hlt, rfl⟩ := List.getElem?_eq_some_iff.1 hn
    have hlt' := hall.length_eq ▸ hlt
    exact ((List.forall₂_iff_get.1 hall).2 n hlt' hlt).2.2 (h _ (List.getElem_mem hlt'))
  · intro h e he
    have heven : ∀ c : Counter, c.read (new now .inbound reset factor limits) ≤
        c.read (new now .outbound reset factor limits) := fun c => by rw [Counter.read_new, Counter.read_new]
    have heq := Twins.transcript (0, ⟨0, none, []⟩) xs _ _ ⟨hleads, heven⟩ h
    rw [transcript_concat, transcript_concat] at heq
    exact h e (List.append_inj_left' heq rfl ▸ he)

/-- **A stream is admitted when each of its windows fits as a whole.** -/
theorem admitsAll_iff (direction : Direction) (now : ℕ) (xs : List (ℕ × DigMessage))
    (hmono : xs.Pairwise fun x y => x.1 ≤ y.1) :
    AdmitsAll (new now direction reset factor limits) xs ↔ ∀ k, FitsAsAWhole limits factor (offeredIn reset k xs) := by
  suffices hin : AdmitsAll (new now .inbound reset factor limits) xs ↔
      ∀ k, FitsAsAWhole limits factor (offeredIn reset k xs) by
    cases direction with
    | inbound  => exact hin
    | outbound => exact admitsAll_directions.symm.trans hin
  induction xs using List.reverseRecOn with
  | nil => exact iff_of_true (fun e he => by cases he) fun k m hm => by cases hm
  | append_singleton xs x ih =>
    rw [admitsAll_concat, ih (List.pairwise_append.1 hmono).1, admitted_inbound_iff hmono]
    constructor
    · rintro ⟨hxs, hx⟩ k
      rw [offeredIn_concat]
      split
      · rename_i hk
        subst hk
        rw [offeredIn_concat, if_pos rfl] at hx
        exact fitsAsAWhole_concat.2 ⟨hxs _, hx⟩
      · rw [List.append_nil]
        exact hxs k
    · intro h
      refine ⟨fun k => ?_, ?_⟩
      · have hk := h k
        rw [offeredIn_concat] at hk
        split at hk
        · exact (fitsAsAWhole_concat.1 hk).1
        · rwa [List.append_nil] at hk
      · have hk := h (x.1 / reset)
        rw [offeredIn_concat, if_pos rfl] at hk ⊢
        exact (fitsAsAWhole_concat.1 hk).2

/-! ## Less than a stream that is admitted -/

theorem total_le_of_subperm {ms ms' : List DigMessage} (h : List.Subperm ms' ms) (c : Counter) :
    c.total limits ms' ≤ c.total limits ms := by
  obtain ⟨ms'', hperm, hsub⟩ := h
  rw [← Counter.sum_cost, ← Counter.sum_cost, ← (hperm.map _).sum_eq]
  refine (hsub.map _).sum_le_sum fun a ha => ?_
  obtain ⟨m, _, rfl⟩ := List.mem_map.1 ha
  exact Counter.cost_nonneg

theorem FitsAsAWhole.subperm {ms ms' : List DigMessage} (h : FitsAsAWhole limits factor ms) (hsub : List.Subperm ms' ms) :
    FitsAsAWhole limits factor ms' := by
  intro m hm
  obtain ⟨hempty, htotal⟩ := h m (hsub.subset hm)
  exact ⟨hempty, fun c hc => le_trans (total_le_of_subperm hsub c) (htotal c hc)⟩

/-- **A stream is admitted by what its windows hold**, in whatever order, by either direction and from any start:
exactly when each window fits as a whole, and then so is every stream that holds no more in any window. -/
theorem stream_exact (direction : Direction) (now : ℕ) (reset : ℕ+) (factor : ℚ) (limits : OpcodeRateLimits)
    (xs : List (ℕ × DigMessage)) (hmono : xs.Pairwise fun x y => x.1 ≤ y.1) :
    (AdmitsAll (new now direction reset factor limits) xs ↔ ∀ k, FitsAsAWhole limits factor (offeredIn reset k xs)) ∧
    ∀ (direction' : Direction) (now' : ℕ) (ys : List (ℕ × DigMessage)), ys.Pairwise (fun x y => x.1 ≤ y.1) →
      (∀ k, List.Subperm (offeredIn reset k ys) (offeredIn reset k xs)) →
        AdmitsAll (new now direction reset factor limits) xs → AdmitsAll (new now' direction' reset factor limits) ys := by
  refine ⟨admitsAll_iff direction now xs hmono, fun direction' now' ys hys hsub hadm => ?_⟩
  rw [admitsAll_iff _ _ _ hmono] at hadm
  rw [admitsAll_iff _ _ _ hys]
  exact fun k => (hadm k).subperm (hsub k)

theorem stream_exact_turned :
    AdmitsAll (new 9 .outbound 60 1 narrowLimits) [(61, ⟨1, none, []⟩), (61, ⟨220, none, [7]⟩)] :=
  (stream_exact .inbound 0 60 1 narrowLimits [(60, ⟨220, none, [7]⟩), (62, ⟨1, none, []⟩)] (by decide)).2 .outbound 9 _
    (by decide) (fun k => by by_cases hk : 1 = k <;> simp [offeredIn, hk, List.Perm.subperm, List.Perm.swap])
    (by decide +kernel)

/-! ## From one limiter to the next -/

/-- **An outbound limiter admits all that it has admitted**, the refused offers left out. -/
theorem admitsAll_admitted (hmono : xs.Pairwise fun x y => x.1 ≤ y.1) :
    AdmitsAll (new now .outbound reset factor limits)
      (((transcript offer (new now .outbound reset factor limits) xs).filter (·.2 = .admitted)).map Prod.fst) := by
  have hsame : SameFrom xs (new now .outbound reset factor limits) (new now .outbound reset factor limits) :=
    ⟨hmono, rfl, fun _ _ => rfl, Or.inl ⟨_, _, _, _, _, rfl⟩⟩
  have hthin := Thins.filter (fun e => decide (e.2 = .admitted))
    (transcript offer (new now .outbound reset factor limits) xs)
  intro e he
  rw [transcript_of_thins (R := SameFrom) (fun _ _ _ _ h => h.keep)
    (fun _ _ _ _ h hrefused => h.drop (by simpa using hrefused)) xs _ _ _ hsame hthin] at he
  exact of_decide_eq_true (List.mem_filter.1 he).2

theorem fitsAnEmptyWindow_mono (hl : limits.NonNeg) (hfactor : factor ≤ factor')
    (h : limits.FitsAnEmptyWindow factor m) : limits.FitsAnEmptyWindow factor' m := by
  obtain ⟨hsize, htotal, hfreq, haggregate⟩ := h
  have hlimit := hl.limit m.msgType
  refine ⟨hsize, le_trans htotal (mul_le_mul_of_nonneg_left hfactor hlimit.maxTotal),
    le_trans hfreq (mul_le_mul_of_nonneg_left hfactor hlimit.frequency), haggregate.imp_right fun ⟨hone, hnon⟩ => ?_⟩
  exact ⟨le_trans hone (mul_le_mul_of_nonneg_left hfactor hl.nonTxFrequency),
    le_trans hnon (mul_le_mul_of_nonneg_left hfactor hl.nonTxMaxTotalSize)⟩

theorem bound_mono (hl : limits.NonNeg) (hfactor : factor ≤ factor') (c : Counter) :
    c.bound limits factor ≤ c.bound limits factor' := by
  cases c with
  | count opcode          => exact mul_le_mul_of_nonneg_left hfactor (hl.limit opcode).frequency
  | cumulativeSize opcode => exact mul_le_mul_of_nonneg_left hfactor (hl.limit opcode).maxTotal
  | nonTxCount            => exact mul_le_mul_of_nonneg_left hfactor hl.nonTxFrequency
  | nonTxSize             => exact mul_le_mul_of_nonneg_left hfactor hl.nonTxMaxTotalSize

theorem bound_two_mul (c : Counter) : c.bound limits (2 * factor) = c.bound limits factor + c.bound limits factor := by
  cases c <;> simp only [Counter.bound] <;> ring

theorem FitsAsAWhole.total_le {ms : List DigMessage} (h : FitsAsAWhole limits factor ms) (hl : limits.NonNeg)
    (hf : 0 ≤ factor) (c : Counter) : c.total limits ms ≤ c.bound limits factor := by
  by_cases hcost : ∃ m ∈ ms, c.cost limits m ≠ 0
  · obtain ⟨m, hm, hne⟩ := hcost
    exact (h m hm).2 c (Counter.tests_of_cost_ne_zero hne)
  · rw [← Counter.sum_cost, List.sum_eq_zero]
    · exact Counter.bound_nonneg hl hf
    · intro a ha
      obtain ⟨m, hm, rfl⟩ := List.mem_map.1 ha
      exact by_contra fun hne => hcost ⟨m, hm, hne⟩

/-- A frame on its way: when it was admitted, when it is offered to the gate, and the message. -/
structure Passage where
  admittedAt : ℕ
  offeredAt  : ℕ
  message    : DigMessage

def Passage.sent (z : Passage) : ℕ × DigMessage := (z.admittedAt, z.message)

def Passage.arrived (z : Passage) : ℕ × DigMessage := (z.offeredAt, z.message)

theorem total_offeredIn (c : Counter) (k : ℕ) (zs : List Passage) (f : Passage → ℕ × DigMessage)
    (hf : ∀ z, (f z).2 = z.message) : c.total limits (offeredIn reset k (zs.map f)) =
      tally (fun z => c.cost limits z.message) (fun z => (f z).1 / reset = k) zs := by
  rw [← Counter.sum_cost, offeredIn, List.filter_map, List.map_map, List.map_map, tally]
  congr 1
  exact List.map_congr_left fun z _ => by simp [hf]

/-- **A gate admits what fits its own windows**: with the sender's windows and at least its factor; or, with windows of
its own, at least twice the factor, when what it is offered in a window was sent within the length of one. -/
theorem passes_gate (now : ℕ) (hl : limits.NonNeg) (hf : 0 ≤ factor) (zs : List Passage)
    (hfits : ∀ k, FitsAsAWhole limits factor (offeredIn reset k (zs.map Passage.sent)))
    (harrived : (zs.map Passage.arrived).Pairwise fun x y => x.1 ≤ y.1) :
    (factor ≤ factor' → (∀ z ∈ zs, z.offeredAt / reset = z.admittedAt / reset) →
      AdmitsAll (new now .inbound reset factor' limits) (zs.map Passage.arrived)) ∧
    (2 * factor ≤ factor' →
      (∀ z ∈ zs, ∀ z' ∈ zs, z.offeredAt / reset = z'.offeredAt / reset → z'.admittedAt < z.admittedAt + reset) →
        AdmitsAll (new now .inbound reset factor' limits) (zs.map Passage.arrived)) := by
  have hfit : ∀ z ∈ zs, limits.FitsAnEmptyWindow factor z.message := by
    intro z hz
    refine (hfits (z.admittedAt / reset) z.message (List.mem_map.2 ⟨z.sent, ?_, rfl⟩)).1
    exact List.mem_filter.2 ⟨List.mem_map_of_mem hz, decide_eq_true rfl⟩
  have hof : factor ≤ factor' → (∀ k (c : Counter), c.total limits (offeredIn reset k (zs.map Passage.arrived)) ≤
      c.bound limits factor') → AdmitsAll (new now .inbound reset factor' limits) (zs.map Passage.arrived) := by
    intro hfactor htotal
    rw [admitsAll_iff _ _ _ harrived]
    intro k m hm
    obtain ⟨x, hx, rfl⟩ := List.mem_map.1 hm
    obtain ⟨z, hz, rfl⟩ := List.mem_map.1 (List.mem_of_mem_filter hx)
    exact ⟨fitsAnEmptyWindow_mono hl hfactor (hfit z hz), fun c _ => htotal k c⟩
  have hcost : ∀ (c : Counter) (z : Passage), 0 ≤ c.cost limits z.message := fun _ _ => Counter.cost_nonneg
  have hsent : ∀ (c : Counter) (k : ℕ), tally (fun z => c.cost limits z.message) (fun z => z.admittedAt / reset = k) zs ≤
      c.bound limits factor := by
    intro c k
    exact le_of_eq_of_le (total_offeredIn c k zs Passage.sent fun _ => rfl).symm ((hfits k).total_le hl hf c)
  have harrive : ∀ (c : Counter) (k : ℕ), c.total limits (offeredIn reset k (zs.map Passage.arrived)) =
      tally (fun z => c.cost limits z.message) (fun z => z.offeredAt / reset = k) zs :=
    fun c k => total_offeredIn c k zs Passage.arrived fun _ => rfl
  constructor
  · intro hfactor hwindows
    refine hof hfactor fun k c => ?_
    rw [harrive]
    refine le_trans (le_of_eq (tally_congr fun z hz => ?_)) (le_trans (hsent c k) (bound_mono hl hfactor c))
    rw [hwindows z hz]
  · intro hfactor hspread
    refine hof (le_trans ?_ hfactor) fun k c => ?_
    · rw [two_mul]
      exact le_add_of_nonneg_right hf
    rw [harrive]
    refine le_trans ?_ (le_of_eq_of_le (bound_two_mul c).symm (bound_mono hl hfactor c))
    by_cases hnone : ∀ z ∈ zs, ¬ z.offeredAt / reset = k
    · rw [tally_eq_zero hnone]
      exact add_nonneg (Counter.bound_nonneg hl hf) (Counter.bound_nonneg hl hf)
    · -- the frame of the gate's window that was sent first
      obtain ⟨t, ⟨z₀, hz₀, hk₀, rfl⟩, hmin⟩ :=
        WellFounded.has_min Nat.lt_wfRel.wf {t | ∃ z ∈ zs, z.offeredAt / reset = k ∧ z.admittedAt = t} (by
          obtain ⟨z, hz, hk⟩ : ∃ z ∈ zs, z.offeredAt / reset = k := by simpa using hnone
          exact ⟨_, z, hz, hk, rfl⟩)
      refine le_trans (tally_le_of_imp (hcost c) fun z hz hk => ?_)
        (tally_stretch_le (fun z : Passage => z.admittedAt) (hcost c) (hsent c) z₀.admittedAt)
      exact ⟨not_lt.1 (hmin _ ⟨z, hz, hk, rfl⟩), hspread z₀ hz₀ z hz (hk₀.trans hk.symm)⟩

end OpcodeRateLimiter

end Dig
