import DigPeer.Isolation
import DigPeer.Outlet
/-!
# Refusals — what a refusal leaves behind, and what it means

A limiter that has rolled into another window is as good as new (`rollWindow_of_ne`).  An outbound limiter charges no
refusal, so the only thing a refused offer does is roll the window, which the next offer would do as well: any refused
offers can be deleted (`refusals_leave_no_trace`).  In either direction `unsendable` says that no limiter of the kind
admits the message, and `deferred` that this one does once the window has rolled (`refusal_exact`).
-/
namespace Dig

open Mealy

namespace OpcodeRateLimiter

variable {direction : Direction} {reset : ℕ+} {factor : ℚ} {limits : OpcodeRateLimits} {now t t' : ℕ}
  {l l' : OpcodeRateLimiter} {m : DigMessage}

/-! ## Rolling the window -/

/-- **A limiter that rolls is as good as new.** -/
theorem rollWindow_of_ne (h : l.period ≠ now / l.resetSeconds) :
    l.rollWindow now = new now l.direction l.resetSeconds l.limitFactor l.limits := if_neg h

theorem rollWindow_new :
    (new t direction reset factor limits).rollWindow t' = new t' direction reset factor limits := by
  by_cases h : t / reset = t' / reset
  · rw [rollWindow_of_eq h, new, new, h]
  · exact rollWindow_of_ne h

theorem rollWindow_rollWindow (hl : l.period ≤ t / l.resetSeconds) (ht : t ≤ t') :
    (l.rollWindow t).rollWindow t' = l.rollWindow t' := by
  by_cases h : l.period = t / l.resetSeconds
  · rw [rollWindow_of_eq h]
  · have hle : t / l.resetSeconds ≤ t' / l.resetSeconds := Nat.div_le_div_right ht
    rw [rollWindow_of_ne h, rollWindow_new, rollWindow_of_ne (by omega)]

/-! ## An outbound refusal -/

theorem offer_snd_of_refused {x : ℕ × DigMessage} (hout : l.direction = .outbound) (h : (offer l x).1 ≠ .admitted) :
    (offer l x).2 = l.rollWindow x.1 := by
  unfold offer at h ⊢
  rw [admitAt_snd, if_neg]
  rintro (hin | hadm)
  · rw [hout] at hin; cases hin
  · exact h hadm

/-- The two limiters are the same at every reading to come, and the first was not in a window later than those. -/
structure SameFrom (is : List (ℕ × DigMessage)) (l l' : OpcodeRateLimiter) : Prop where
  sorted   : is.Pairwise fun x y => x.1 ≤ y.1
  outbound : l.direction = .outbound
  same     : ∀ x ∈ is, l.rollWindow x.1 = l'.rollWindow x.1
  window   : (∃ t direction reset factor limits, l = new t direction reset factor limits) ∨
    ∀ x ∈ is, l.period ≤ x.1 / l.resetSeconds

theorem SameFrom.keep {x : ℕ × DigMessage} {is : List (ℕ × DigMessage)} (h : SameFrom (x :: is) l l') :
    (offer l x).1 = (offer l' x).1 ∧ SameFrom is (offer l x).2 (offer l' x).2 := by
  obtain ⟨hx, hsorted⟩ := List.pairwise_cons.1 h.sorted
  have hbuilt : BuiltWith .outbound l.resetSeconds l.limitFactor l.limits l := ⟨h.outbound, rfl, rfl, rfl⟩
  have hoffer : offer l x = offer l' x := by
    unfold offer admitAt
    rw [h.same x List.mem_cons_self]
  refine ⟨by rw [hoffer], hsorted, (hbuilt.admitAt x.1 x.2).direction, fun y _ => by rw [hoffer], Or.inr fun y hy => ?_⟩
  have hperiod : (offer l x).2.period = x.1 / l.resetSeconds := admitAt_period
  have hreset : (offer l x).2.resetSeconds = l.resetSeconds := (hbuilt.admitAt x.1 x.2).resetSeconds
  rw [hperiod, hreset]
  exact Nat.div_le_div_right (hx y hy)

theorem SameFrom.drop {x : ℕ × DigMessage} {is : List (ℕ × DigMessage)} (h : SameFrom (x :: is) l l')
    (hrefused : (offer l x).1 ≠ .admitted) : SameFrom is (offer l x).2 l' := by
  obtain ⟨hx, hsorted⟩ := List.pairwise_cons.1 h.sorted
  rw [offer_snd_of_refused h.outbound hrefused]
  refine ⟨hsorted, rollWindow_direction.trans h.outbound, fun y hy => ?_, Or.inr fun y hy => ?_⟩
  · rw [← h.same y (List.mem_cons_of_mem x hy)]
    rcases h.window with ⟨t, direction, reset, factor, limits, rfl⟩ | hw
    · rw [rollWindow_new, rollWindow_new, rollWindow_new]
    · exact rollWindow_rollWindow (hw x List.mem_cons_self) (hx y hy)
  · rw [rollWindow_period, rollWindow_resetSeconds]
    exact Nat.div_le_div_right (hx y hy)

/-- **An outbound refusal leaves no trace**: with any refused offers deleted the verdicts on all others are what they
were; in particular it makes no difference how often a refused message was offered before. -/
theorem refusals_leave_no_trace (now : ℕ) (reset : ℕ+) (factor : ℚ) (limits : OpcodeRateLimits)
    (xs : List (ℕ × DigMessage)) (hmono : xs.Pairwise fun x y => x.1 ≤ y.1) :
    let l := new now .outbound reset factor limits
    (∀ log, Thins (fun e => e.2 ≠ .admitted) (transcript offer l xs) log →
      transcript offer l (log.map Prod.fst) = log) ∧
    ∀ before retries after, xs = before ++ retries ++ after →
      (∀ e ∈ transcript offer (final offer l before) retries, e.2 ≠ .admitted) →
        transcript offer (final offer l (before ++ retries)) after = transcript offer (final offer l before) after := by
  intro l
  have hdelete : ∀ log, Thins (fun e => e.2 ≠ .admitted) (transcript offer l xs) log →
      transcript offer l (log.map Prod.fst) = log := fun log hthin =>
    transcript_of_thins (R := SameFrom) (fun _ _ _ _ h => h.keep) (fun _ _ _ _ h hx => h.drop hx) xs l l log
      ⟨hmono, rfl, fun _ _ => rfl, Or.inl ⟨now, .outbound, reset, factor, limits, rfl⟩⟩ hthin
  refine ⟨hdelete, ?_⟩
  rintro before retries after rfl hrefused
  have hthin : Thins (fun e => e.2 ≠ .admitted) (transcript offer l (before ++ retries ++ after))
      (transcript offer l before ++ [] ++ transcript offer (final offer l (before ++ retries)) after) := by
    rw [transcript_append, transcript_append]
    exact ((Thins.refl _).append (Thins.of_forall hrefused)).append (Thins.refl _)
  have h := hdelete _ hthin
  rw [List.append_nil, List.map_append, map_fst_transcript, map_fst_transcript, transcript_append] at h
  exact (List.append_cancel_left h).symm

theorem refusals_leave_no_trace_narrowLimits :
    let l := new 0 .outbound 60 1 narrowLimits
    let xs := [(0, ⟨1, none, []⟩), (0, ⟨1, none, []⟩), (1, ⟨1, none, []⟩), (2, ⟨1, none, []⟩), (3, ⟨220, none, []⟩)]
    (∀ log, Thins (fun e => e.2 ≠ .admitted) (transcript offer l xs) log →
      transcript offer l (log.map Prod.fst) = log) ∧
    ∀ before retries after, xs = before ++ retries ++ after →
      (∀ e ∈ transcript offer (final offer l before) retries, e.2 ≠ .admitted) →
        transcript offer (final offer l (before ++ retries)) after = transcript offer (final offer l before) after :=
  refusals_leave_no_trace 0 60 1 narrowLimits _ (by decide)

/-! ## What a refusal means -/

/-- A state of some limiter of the kind: built at any reading, and offered anything at any readings. -/
def Reachable (direction : Direction) (reset : ℕ+) (factor : ℚ) (limits : OpcodeRateLimits) (l : OpcodeRateLimiter) :
    Prop :=
  ∃ now offers, l = final offer (new now direction reset factor limits) offers

theorem Reachable.builtWith (h : Reachable direction reset factor limits l) :
    BuiltWith direction reset factor limits l := by
  obtain ⟨now, offers, rfl⟩ := h
  exact ((built_new now).final offers).builtWith

theorem admitAt_eq_unsendable_iff (h : BuiltWith direction reset factor limits l) :
    (l.admitAt t m).1 = .unsendable ↔ ¬ limits.FitsAnEmptyWindow factor m := by
  have hr := h.rollWindow t
  rw [admitAt_fst, verdict_eq_unsendable_iff, hr.limits, hr.limitFactor]

/-- **A message that fits an empty window is admitted in one.** -/
theorem admitAt_of_ne (h : BuiltWith direction reset factor limits l) (hm : limits.Admissible factor m)
    (ht : l.period ≠ t / reset) : (l.admitAt t m).1 = .admitted := by
  rw [← h.resetSeconds] at ht
  have hadm : ((new t direction reset factor limits).admitAt t m).1 = .admitted := admitAt_new_of_admissible hm
  rw [admitAt_fst, rollWindow_new] at hadm
  rw [admitAt_fst, rollWindow_of_ne ht, h.direction, h.resetSeconds, h.limitFactor, h.limits]
  exact hadm

theorem admissible_of_fits (hl : limits.NonNeg) (hf : 0 ≤ factor) (h : limits.FitsAnEmptyWindow factor m) :
    limits.Admissible factor m := ⟨h, mul_nonneg hl.nonTxFrequency hf, mul_nonneg hl.nonTxMaxTotalSize hf⟩

/-- **The classification of refusals is exact**: `unsendable` says that no limiter of the kind admits the message in any
state it can reach, and `deferred` that this one admits it next, once the window has rolled. -/
theorem refusal_exact (hl : limits.NonNeg) (hf : 0 ≤ factor) (hr : Reachable direction reset factor limits l) (t : ℕ)
    (m : DigMessage) :
    ((l.admitAt t m).1 = .unsendable ↔
      ∀ l' t', Reachable direction reset factor limits l' → (l'.admitAt t' m).1 ≠ .admitted) ∧
    ((l.admitAt t m).1 = .deferred →
      ∀ t', t' / reset ≠ t / reset → ((l.admitAt t m).2.admitAt t' m).1 = .admitted) := by
  have hb := hr.builtWith
  constructor
  · rw [admitAt_eq_unsendable_iff hb]
    constructor
    · intro hnot l' t' hr' hadm
      have hr' := hr'.builtWith.rollWindow t'
      rw [admitAt_fst, verdict_eq_admitted_iff, hr'.limits, hr'.limitFactor] at hadm
      exact hnot hadm.1
    · intro hnone hfits
      exact hnone _ t ⟨t, [], rfl⟩ (admitAt_new_of_admissible (admissible_of_fits hl hf hfits))
  · intro hdeferred t' ht'
    have hfits : limits.FitsAnEmptyWindow factor m := by
      by_contra hnot
      rw [(admitAt_eq_unsendable_iff hb).2 hnot] at hdeferred
      cases hdeferred
    refine admitAt_of_ne (hb.admitAt t m) (admissible_of_fits hl hf hfits) ?_
    rw [admitAt_period, hb.resetSeconds]
    exact Ne.symm ht'

theorem admitted_next_narrowLimits :
    (((final offer (new 0 .inbound 60 1 narrowLimits) [(0, ⟨1, none, []⟩), (0, ⟨1, none, []⟩)]).admitAt 0
      ⟨1, none, []⟩).2.admitAt 60 ⟨1, none, []⟩).1 = .admitted :=
  (refusal_exact narrowLimits_nonNeg (by decide +kernel) ⟨0, _, rfl⟩ 0 ⟨1, none, []⟩).2 (by decide +kernel) 60
    (by decide)

end OpcodeRateLimiter

end Dig
