import DigPeer.Refusals
/-!
# Retry — how the loop of `send_message` ends

Each turn of the loop sleeps at least `RATE_LIMIT_BACKOFF`, so the deadline bounds the number of turns.  A message that
fits an empty window is refused only while the limiter stays in the window the loop began in; when the timeout is a
window and a back-off or more, the turn after the roll comes before the deadline does (`send_loop_ends`).
-/
namespace Dig

open Mealy

def loopOver (deadline : ℕ) (message : DigMessage) (l : OpcodeRateLimiter) (schedule : ℕ → Attempt) (n : ℕ) :
    Option (Except LinkError Unit) :=
  (admissionLoop deadline message l ((List.range n).map schedule)).1

/-- The limiter that the loop has come to after them. -/
def limiterOver (deadline : ℕ) (message : DigMessage) (l : OpcodeRateLimiter) (schedule : ℕ → Attempt) (n : ℕ) :
    OpcodeRateLimiter :=
  (admissionLoop deadline message l ((List.range n).map schedule)).2

variable {deadline : ℕ} {m : DigMessage} {l : OpcodeRateLimiter} {schedule : ℕ → Attempt}

/-- How a turn that begins with the limiter `l` ends the loop. -/
inductive Ends (deadline : ℕ) (m : DigMessage) (l : OpcodeRateLimiter) (a : Attempt) : Except LinkError Unit → Prop
  | admitted (h : ((final OpcodeRateLimiter.offer l a.others).admitAt a.wall m).1 = .admitted) :
      Ends deadline m l a (.ok ())
  | unsendable (h : ((final OpcodeRateLimiter.offer l a.others).admitAt a.wall m).1 = .unsendable) :
      Ends deadline m l a (.error (.unsendable m.msgType m.data.length))
  | sendTimeout (h : ((final OpcodeRateLimiter.offer l a.others).admitAt a.wall m).1 = .deferred)
      (hlate : deadline < a.instant + rateLimitBackoff) : Ends deadline m l a (.error (.sendTimeout m.msgType))

theorem map_range_succ (n : ℕ) :
    (List.range (n + 1)).map schedule = schedule 0 :: (List.range n).map fun i => schedule (i + 1) := by
  rw [List.range_succ_eq_map, List.map_cons, List.map_map]
  rfl

/-- **A turn ends the loop, or the loop goes on** from the limiter that the turn leaves. -/
theorem loopOver_step (deadline : ℕ) (m : DigMessage) (l : OpcodeRateLimiter) (schedule : ℕ → Attempt) :
    (∃ r, Ends deadline m l (schedule 0) r ∧ loopOver deadline m l schedule 1 = some r) ∨
    ((final OpcodeRateLimiter.offer l (schedule 0).others).admitAt (schedule 0).wall m).1 = .deferred ∧
      (schedule 0).instant + rateLimitBackoff ≤ deadline ∧
      ∀ n, admissionLoop deadline m l ((List.range (n + 1)).map schedule) =
        admissionLoop deadline m ((final OpcodeRateLimiter.offer l (schedule 0).others).admitAt (schedule 0).wall m).2
          ((List.range n).map fun i => schedule (i + 1)) := by
  cases hv : (final OpcodeRateLimiter.offer l (schedule 0).others).admitAt (schedule 0).wall m with
  | mk verdict l' =>
    have hfst : ((final OpcodeRateLimiter.offer l (schedule 0).others).admitAt (schedule 0).wall m).1 = verdict := by
      rw [hv]
    cases verdict with
    | admitted =>
      refine Or.inl ⟨_, .admitted hfst, ?_⟩
      rw [loopOver, map_range_succ, admissionLoop, hv]
    | unsendable =>
      refine Or.inl ⟨_, .unsendable hfst, ?_⟩
      rw [loopOver, map_range_succ, admissionLoop, hv]
    | deferred =>
      by_cases hlate : deadline < (schedule 0).instant + rateLimitBackoff
      · refine Or.inl ⟨_, .sendTimeout hfst hlate, ?_⟩
        rw [loopOver, map_range_succ, admissionLoop, hv]
        exact congrArg Prod.fst (if_pos hlate)
      · refine Or.inr ⟨rfl, Nat.not_lt.1 hlate, fun n => ?_⟩
        rw [map_range_succ, admissionLoop, hv]
        exact if_neg hlate

/-- **The loop ends, at a limiter that its invariant holds of**: `I i` holds before turn `i` when it holds before the
first turn and a deferred turn keeps it. -/
theorem loop_ends : ∀ (k : ℕ) (schedule : ℕ → Attempt) (l : OpcodeRateLimiter) (I : ℕ → OpcodeRateLimiter → Prop),
    (∀ i l, I i l → ((final OpcodeRateLimiter.offer l (schedule i).others).admitAt (schedule i).wall m).1 = .deferred →
      I (i + 1) ((final OpcodeRateLimiter.offer l (schedule i).others).admitAt (schedule i).wall m).2) →
    deadline < (schedule k).instant + rateLimitBackoff → I 0 l →
      ∃ n ≤ k, loopOver deadline m l schedule n = none ∧ ∃ r, I n (limiterOver deadline m l schedule n) ∧
        Ends deadline m (limiterOver deadline m l schedule n) (schedule n) r ∧
        loopOver deadline m l schedule (n + 1) = some r := by
  intro k
  induction k with
  | zero =>
    intro schedule l I _ hlate h0
    rcases loopOver_step deadline m l schedule with ⟨r, hr, h⟩ | ⟨_, hle, _⟩
    · exact ⟨0, le_refl 0, rfl, r, h0, hr, h⟩
    · omega
  | succ k ih =>
    intro schedule l I hI hlate h0
    rcases loopOver_step deadline m l schedule with ⟨r, hr, h⟩ | ⟨hdeferred, _, hnext⟩
    · exact ⟨0, Nat.zero_le _, rfl, r, h0, hr, h⟩
    · obtain ⟨n, hn, hnone, r, hl', hr, h⟩ := ih (fun i => schedule (i + 1)) _ (fun i => I (i + 1))
        (fun i l => hI (i + 1) l) hlate (hI 0 l h0 hdeferred)
      have hlimiter := congrArg Prod.snd (hnext n)
      refine ⟨n + 1, Nat.succ_le_succ hn, (congrArg Prod.fst (hnext n)).trans hnone, r, ?_, ?_,
        (congrArg Prod.fst (hnext (n + 1))).trans h⟩
      · rw [limiterOver, hlimiter]
        exact hl'
      · rw [limiterOver, hlimiter]
        exact hr

/-! ## The table and the clocks -/

structure RateLimits.NonNeg {P : Type} (limits : RateLimits P) : Prop where
  defaultSettings   : limits.defaultSettings.NonNeg
  tx                : ∀ e ∈ limits.tx.entries, e.2.NonNeg
  other             : ∀ e ∈ limits.other.entries, e.2.NonNeg
  nonTxFrequency    : 0 ≤ limits.nonTxFrequency
  nonTxMaxTotalSize : 0 ≤ limits.nonTxMaxTotalSize

theorem OpcodeRateLimits.mem_rekey {P : Type} {toBytes : P → Option Bytes} {map : AList fun _ : P => RateLimit}
    {e : Sigma fun _ : UInt8 => RateLimit} (h : e ∈ (rekey toBytes map).entries) : ∃ e' ∈ map.entries, e'.2 = e.2 := by
  obtain ⟨a, b⟩ := e
  rcases AList.lookup_foldl_insert _ _ (AList.mem_entries_iff.1 h) with h | h
  · cases h
  · obtain ⟨e', he', hb⟩ := List.mem_filterMap.1 h
    obtain ⟨_, _, heq⟩ := Option.map_eq_some_iff.1 hb
    exact ⟨e', he', congrArg Prod.snd heq⟩

theorem RateLimits.NonNeg.ofRateLimits {P : Type} {limits : RateLimits P} (h : limits.NonNeg)
    (toBytes : P → Option Bytes) : (OpcodeRateLimits.ofRateLimits toBytes limits).NonNeg where
  defaultSettings := h.defaultSettings
  tx e he := by
    obtain ⟨e', he', heq⟩ := OpcodeRateLimits.mem_rekey he
    rw [← heq]; exact h.tx e' he'
  other e he := by
    obtain ⟨e', he', heq⟩ := OpcodeRateLimits.mem_rekey he
    rw [← heq]; exact h.other e' he'
  nonTxFrequency    := h.nonTxFrequency
  nonTxMaxTotalSize := h.nonTxMaxTotalSize

/-- A caller that begins at `start` and sleeps at least a back-off after every turn. -/
structure Paced (start : ℕ) (schedule : ℕ → Attempt) : Prop where
  first  : (schedule 0).instant = start
  sleeps : ∀ i, (schedule i).instant + rateLimitBackoff ≤ (schedule (i + 1)).instant

/-- The wall clock, which the limiter reads in whole seconds, advances with the monotonic clock. -/
def ClocksAdvanceTogether (schedule : ℕ → Attempt) : Prop :=
  ∃ clock : ℕ → ℕ, ∀ i, (schedule i).wall = clock i / nanosPerSecond ∧
    clock i + (schedule 0).instant = clock 0 + (schedule i).instant

theorem Paced.instant_ge {start : ℕ} (h : Paced start schedule) : ∀ i, start + i * rateLimitBackoff ≤ (schedule i).instant
  | 0     => by rw [Nat.zero_mul, h.first, Nat.add_zero]
  | i + 1 => by
    have hi := h.instant_ge i
    have hs := h.sleeps i
    rw [Nat.succ_mul]
    omega

theorem instant_lt_of_same_window {reset : ℕ+} {i : ℕ} (h : ClocksAdvanceTogether schedule)
    (hw : (schedule i).wall / reset = (schedule 0).wall / reset) :
    (schedule i).instant < (schedule 0).instant + reset * nanosPerSecond := by
  obtain ⟨clock, hclock⟩ := h
  obtain ⟨hwall, hsame⟩ := hclock i
  rw [hwall, (hclock 0).1, Nat.div_div_eq_div_mul, Nat.div_div_eq_div_mul, Nat.mul_comm] at hw
  have hpos : 0 < (reset : ℕ) * nanosPerSecond := Nat.mul_pos reset.pos (by decide)
  have hi := Nat.div_add_mod (clock i) (reset * nanosPerSecond)
  have h0 := Nat.div_add_mod (clock 0) (reset * nanosPerSecond)
  have hmod := Nat.mod_lt (clock i) hpos
  rw [hw] at hi
  omega

/-! ## How the loop ends -/

section Loop

variable {reset : ℕ+} {factor : ℚ} {limits : OpcodeRateLimits} {start : ℕ}

/-- What holds before turn `i`: after a deferred turn the message is known to fit an empty window, and a limiter that
nobody else uses is still in the window of the first turn. -/
structure Turn (reset : ℕ+) (factor : ℚ) (limits : OpcodeRateLimits) (m : DigMessage) (schedule : ℕ → Attempt) (i : ℕ)
    (l : OpcodeRateLimiter) : Prop where
  builtWith : OpcodeRateLimiter.BuiltWith .outbound reset factor limits l
  fits      : 0 < i → limits.FitsAnEmptyWindow factor m
  window    : 0 < i → limits.NonNeg → (∀ j, (schedule j).others = []) → l.period = (schedule 0).wall / reset

theorem nonneg_of_fits (hl : limits.NonNeg) (h : limits.FitsAnEmptyWindow factor m) : 0 ≤ factor := by
  by_contra hneg
  have hprod := mul_nonpos_of_nonneg_of_nonpos (hl.limit m.msgType).frequency (le_of_not_ge hneg)
  exact absurd (le_trans h.2.2.1 hprod) (by decide +kernel)

theorem Turn.asked {i : ℕ} (h : Turn reset factor limits m schedule i l) :
    OpcodeRateLimiter.BuiltWith .outbound reset factor limits (final OpcodeRateLimiter.offer l (schedule i).others) :=
  final_invariant (fun _ x hl => hl.admitAt x.1 x.2) _ l h.builtWith

theorem Turn.fits_of_deferred {i : ℕ} (h : Turn reset factor limits m schedule i l)
    (hdeferred : ((final OpcodeRateLimiter.offer l (schedule i).others).admitAt (schedule i).wall m).1 = .deferred) :
    limits.FitsAnEmptyWindow factor m := by
  by_contra hnot
  rw [(OpcodeRateLimiter.admitAt_eq_unsendable_iff h.asked).2 hnot] at hdeferred
  cases hdeferred

/-- **A deferred turn is in the window of the first**: in any other the message would have been admitted. -/
theorem Turn.same_window {i : ℕ} (h : Turn reset factor limits m schedule i l)
    (hdeferred : ((final OpcodeRateLimiter.offer l (schedule i).others).admitAt (schedule i).wall m).1 = .deferred)
    (hl : limits.NonNeg) (hothers : ∀ j, (schedule j).others = []) :
    (schedule i).wall / reset = (schedule 0).wall / reset := by
  have hfits := h.fits_of_deferred hdeferred
  rcases Nat.eq_zero_or_pos i with rfl | hi
  · rfl
  · have hwindow := h.window hi hl hothers
    by_contra hne
    rw [hothers i, final_nil, OpcodeRateLimiter.admitAt_of_ne h.builtWith
      (OpcodeRateLimiter.admissible_of_fits hl (nonneg_of_fits hl hfits) hfits)
      (by rw [hwindow]; exact Ne.symm hne)] at hdeferred
    cases hdeferred

theorem Turn.next {i : ℕ} (h : Turn reset factor limits m schedule i l)
    (hdeferred : ((final OpcodeRateLimiter.offer l (schedule i).others).admitAt (schedule i).wall m).1 = .deferred) :
    Turn reset factor limits m schedule (i + 1)
      ((final OpcodeRateLimiter.offer l (schedule i).others).admitAt (schedule i).wall m).2 := by
  refine ⟨h.asked.admitAt _ m, fun _ => h.fits_of_deferred hdeferred, fun _ hl hothers => ?_⟩
  rw [OpcodeRateLimiter.admitAt_period, h.asked.resetSeconds]
  exact h.same_window hdeferred hl hothers

end Loop

/-- **The loop of `send_message` ends, and a transient exhaustion clears**: within `send_timeout / backoff + 1` turns
the message is admitted, refused for good (on the first turn only) or timed out, each as the limiter answers that turn;
and where the timeout is a window and a back-off or more, and nobody else uses the limiter, it is not timed out. -/
theorem send_loop_ends {P : Type} (toBytes : P → Option Bytes) (v2RateLimits : RateLimits P) (reset : ℕ+)
    (options : LinkOptions) (l : OpcodeRateLimiter)
    (hl : l.BuiltWith .outbound reset options.rateLimitFactor (.ofRateLimits toBytes v2RateLimits)) (m : DigMessage)
    (start : ℕ) (schedule : ℕ → Attempt) (hpaced : Paced start schedule) :
    let loop := loopOver (start + options.sendTimeout) m l schedule
    ∃ n ≤ options.sendTimeout / rateLimitBackoff, loop n = none ∧ ∃ r, loop (n + 1) = some r ∧
      Ends (start + options.sendTimeout) m (limiterOver (start + options.sendTimeout) m l schedule n) (schedule n) r ∧
      (r = .ok () ∨ r = .error (.unsendable m.msgType m.data.length) ∨ r = .error (.sendTimeout m.msgType)) ∧
      (r = .error (.unsendable m.msgType m.data.length) → n = 0) ∧
      (v2RateLimits.NonNeg → ClocksAdvanceTogether schedule → (∀ i, (schedule i).others = []) →
        reset * nanosPerSecond + rateLimitBackoff ≤ options.sendTimeout → r ≠ .error (.sendTimeout m.msgType)) := by
  intro loop
  have hlate : start + options.sendTimeout <
      (schedule (options.sendTimeout / rateLimitBackoff)).instant + rateLimitBackoff := by
    have hge := hpaced.instant_ge (options.sendTimeout / rateLimitBackoff)
    have hlt : options.sendTimeout < options.sendTimeout / rateLimitBackoff * rateLimitBackoff + rateLimitBackoff :=
      Nat.lt_div_mul_add (by decide)
    omega
  obtain ⟨n, hn, hnone, r, hturn, hends, hr⟩ := loop_ends (m := m) _ schedule l
    (Turn reset options.rateLimitFactor (.ofRateLimits toBytes v2RateLimits) m schedule)
    (fun _ _ h => h.next) hlate ⟨hl, fun h => absurd h (lt_irrefl 0), fun h => absurd h (lt_irrefl 0)⟩
  refine ⟨n, hn, hnone, r, hr, hends, ?_, ?_, ?_⟩
  · cases hends with
    | admitted _ => exact Or.inl rfl
    | unsendable _ => exact Or.inr (Or.inl rfl)
    | sendTimeout _ _ => exact Or.inr (Or.inr rfl)
  · rintro rfl
    cases hends with
    | unsendable h =>
      rcases Nat.eq_zero_or_pos n with hn0 | hpos
      · exact hn0
      · exact absurd (hturn.fits hpos) ((OpcodeRateLimiter.admitAt_eq_unsendable_iff hturn.asked).1 h)
  · rintro hnonneg hclocks hothers htimeout rfl
    cases hends with
    | sendTimeout h hafter =>
      have hsame := hturn.same_window h (hnonneg.ofRateLimits toBytes) hothers
      have hlt := instant_lt_of_same_window hclocks hsame
      rw [hpaced.first] at hlt
      omega

def scarceLimits : RateLimits UInt8 where
  defaultSettings   := ⟨2, 1024, none⟩
  nonTxFrequency    := 1000
  nonTxMaxTotalSize := 104857600
  tx                := ∅
  other             := ∅

theorem scarceLimits_nonNeg : scarceLimits.NonNeg where
  defaultSettings   := ⟨by decide +kernel, by decide +kernel, by simp [scarceLimits]⟩
  tx                := by simp [scarceLimits]
  other             := by simp [scarceLimits]
  nonTxFrequency    := by decide +kernel
  nonTxMaxTotalSize := by decide +kernel

theorem send_loop_ends_default :
    let m : DigMessage := ⟨220, none, [7]⟩
    let limits := OpcodeRateLimits.ofRateLimits (fun b => some [b]) scarceLimits
    let l := final OpcodeRateLimiter.offer (.new 59 .outbound 60 LinkOptions.default.rateLimitFactor limits) [(59, m)]
    ∃ n ≤ 120, ∃ r, loopOver LinkOptions.default.sendTimeout m l (fun i => ⟨[], 59 + i, i * nanosPerSecond⟩) (n + 1) =
      some r ∧ r ≠ .error (.sendTimeout 220) := by
  intro m limits l
  have hl : l.BuiltWith .outbound 60 LinkOptions.default.rateLimitFactor limits :=
    ((OpcodeRateLimiter.built_new 59).final _).builtWith
  have hpaced : Paced 0 fun i => ⟨[], 59 + i, i * nanosPerSecond⟩ :=
    ⟨Nat.zero_mul _, fun i => by dsimp only; rw [Nat.succ_mul, rateLimitBackoff]⟩
  have hclocks : ClocksAdvanceTogether fun i => ⟨[], 59 + i, i * nanosPerSecond⟩ :=
    ⟨fun i => 59 * nanosPerSecond + i * nanosPerSecond, fun i =>
      ⟨by dsimp only; rw [← Nat.add_mul, Nat.mul_div_cancel _ (by decide)], by dsimp only; omega⟩⟩
  obtain ⟨n, hn, _, r, hr, _, _, _, h⟩ := send_loop_ends (fun b => some [b]) scarceLimits 60 .default l hl m 0 _ hpaced
  rw [Nat.zero_add] at hr
  exact ⟨n, hn, r, hr, h scarceLimits_nonNeg hclocks (fun _ => rfl) (by decide)⟩

end Dig
