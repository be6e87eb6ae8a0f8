import DigPeer.Cleanup
import DigPeer.Gate
/-!
# Pacing — what a link writes in a window

A frame is written some time after its message was admitted, and frames need not be written in the order of their
admissions.  `sends` is what a link has written, in the order of the sink, each with the reading at which the limiter
admitted it.  Every writer is admitted once at most, so what was written of a window's admissions fits the window as a
whole (`paced_of_runs`), whatever runs in between; and so a peer that gates what it reads with an inbound limiter of its
own, of the same table, refuses none of it.
-/
namespace Dig

open Correlator Lts Mealy OpcodeRateLimiter

variable {tr : List (Link × Action)} {s s' t : Link} {a : Action} {w : Writer} {m : DigMessage} {phase : SendPhase}
  {now n : ℕ} {factor : ℚ} {limits : OpcodeRateLimits} {x : Link × Action}

/-! ## Admissions -/

def attempts (tr : List (Link × Action)) : List (Writer × ℕ × DigMessage) := tr.filterMap attempt

def admission? (x : Link × Action) : Option (Writer × ℕ × DigMessage) :=
  (attempt x).filter fun offer => (x.1.outlet.limiter.admitAt offer.2.1 offer.2.2).1 = .admitted

def admissions (tr : List (Link × Action)) : List (Writer × ℕ × DigMessage) := tr.filterMap admission?

/-- When a writer's message was admitted, and the message. -/
def admissionOf (tr : List (Link × Action)) (w : Writer) : Option (ℕ × DigMessage) :=
  ((admissions tr).find? (·.1 = w)).map Prod.snd

/-- What has been written, in the order of the sink, with the readings at which it was admitted. -/
def sends (tr : List (Link × Action)) (t : Link) : List (ℕ × DigMessage) :=
  t.outlet.sink.filterMap fun x => admissionOf tr x.writer

theorem attempts_concat : attempts (tr ++ [x]) = attempts tr ++ (attempt x).toList := by
  rw [attempts, List.filterMap_append]
  cases h : attempt x <;> simp [h, attempts]

theorem admissions_concat : admissions (tr ++ [x]) = admissions tr ++ (admission? x).toList := by
  rw [admissions, List.filterMap_append]
  cases h : admission? x <;> simp [h, admissions]

theorem admission?_eq_some : admission? x = some (w, now, m) ↔
    attempt x = some (w, now, m) ∧ (x.1.outlet.limiter.admitAt now m).1 = .admitted := by
  simp [admission?, Option.filter_eq_some_iff]

/-- **The limiter is run on the attempts alone**, and admits the admissions. -/
theorem limiter_of_attempts (h : Runs Link.step (Link.fromParts n factor limits) tr t) :
    t.outlet.limiter = final offer (new n .outbound rateLimitWindowSeconds factor limits)
      ((attempts tr).map Prod.snd) ∧
    (admissions tr).map Prod.snd =
      ((transcript offer (new n .outbound rateLimitWindowSeconds factor limits) ((attempts tr).map Prod.snd)).filter
        (·.2 = .admitted)).map Prod.fst := by
  induction h with
  | start => exact ⟨rfl, rfl⟩
  | @step tr s s' a hrun hs ih =>
    obtain ⟨hlimiter, hadmissions⟩ := ih
    rw [limiter_of_step hs, attempts_concat, admissions_concat]
    cases hattempt : attempt (s, a) with
    | none =>
      have hnone : admission? (s, a) = none := by simp [admission?, hattempt]
      simpa [hnone] using ⟨hlimiter, hadmissions⟩
    | some entry =>
      obtain ⟨w, now, m⟩ := entry
      simp only [Option.toList_some, List.map_append, List.map_cons, List.map_nil]
      rw [final_concat, transcript_concat, List.filter_append, List.map_append, ← hlimiter, ← hadmissions]
      refine ⟨rfl, congrArg _ ?_⟩
      by_cases hadm : (s.outlet.limiter.admitAt now m).1 = .admitted
      · rw [admission?_eq_some.2 ⟨hattempt, hadm⟩]
        simp [offer, hadm]
      · have hnone : admission? (s, a) = none := by simp [admission?, hattempt, hadm]
        simp [hnone, offer, hadm]

/-! ## Each writer once -/

theorem asks_of_attempt (h : s.step a = some s') (hattempt : attempt (s, a) = some (w, now, m)) :
    s.message? w = some m ∧ s.sendPhase? w = some .admitting ∧
      ((s.outlet.limiter.admitAt now m).1 = .admitted → s'.sendPhase? w = some .writing) := by
  cases Link.stepped_of_step h with
  | @callSend c e call k phase progress outlet hc hp hs =>
    have hm := Link.message?_call hc hp
    cases e with
    | attempt now' =>
      simp only [attempt, hm, Option.map_some, Option.some.injEq, Prod.mk.injEq] at hattempt
      obtain ⟨rfl, rfl, rfl⟩ := hattempt
      obtain ⟨hphase, hprogress⟩ : phase = .admitting ∧
          progress = .ofAdmission (call.message k) (s.outlet.limiter.admitAt now' (call.message k)).1 := by
        cases phase <;> cases hs
        exact ⟨rfl, rfl⟩
      subst hphase
      refine ⟨hm, by simp [Link.sendPhase?, hc, Call.sendPhase?, hp], fun hadm => ?_⟩
      rw [hprogress, hadm]
      simp [Link.sendPhase?, modifyCall, hc, Call.sendPhase?, Call.goTo, Progress.ofAdmission, Stage.ofProgress]
    | retry | giveUp | lock | feed | flush => cases hattempt
  | @postSend p e post phase progress outlet hpost hp hs =>
    have hm := Link.message?_post hpost
    cases e with
    | attempt now' =>
      simp only [attempt, hm, Option.map_some, Option.some.injEq, Prod.mk.injEq] at hattempt
      obtain ⟨rfl, rfl, rfl⟩ := hattempt
      obtain ⟨hphase, hprogress⟩ : phase = .admitting ∧
          progress = .ofAdmission post.message (s.outlet.limiter.admitAt now' post.message).1 := by
        cases phase <;> cases hs
        exact ⟨rfl, rfl⟩
      subst hphase
      refine ⟨hm, by simp [Link.sendPhase?, hpost, Post.sendPhase?, hp], fun hadm => ?_⟩
      rw [hprogress, hadm]
      simp [Link.sendPhase?, List.getElem?_set_self (List.getElem?_eq_some_iff.1 hpost).1, Post.sendPhase?,
        Progress.ofAdmission, PostPhase.ofProgress]
    | retry | giveUp | lock | feed | flush => cases hattempt
  | @callStep c e u he ht =>
    cases e with
    | send e => exact absurd rfl (he e)
    | acquire | insert | receive | expire | cancel | finish | abandon => cases hattempt
  | request | post | postAbandon | close | inbound | handoff | release | deliver | recv | closeApp => cases hattempt

theorem Outlet.send_toFeed {o o' : Outlet} {e : SendEvent} {phase' : SendPhase}
    (h : o.send w m phase e = some (.at phase', o')) (hfeed : phase'.toFeed = true) :
    phase.toFeed = true ∨ ∃ now, e = .attempt now ∧ (o.limiter.admitAt now m).1 = .admitted := by
  unfold Outlet.send at h
  split at h
  · rename_i now
    refine Or.inr ⟨now, rfl, ?_⟩
    cases hverdict : (o.limiter.admitAt now m).1 with
    | admitted => rfl
    | deferred =>
      simp only [hverdict, Progress.ofAdmission, Option.some.injEq, Prod.mk.injEq, Progress.at.injEq] at h
      rw [← h.1] at hfeed
      cases hfeed
    | unsendable => simp [hverdict, Progress.ofAdmission] at h
  all_goals cases h
  · cases hfeed
  · exact Or.inl rfl
  · cases hfeed

theorem attempt_sends (hm : s.message? w = some m) : attempt (s, w.sends (.attempt now)) = some (w, now, m) := by
  cases w <;> simp [attempt, Writer.sends, hm]

/-- **A writer comes to feed its frame by an admission.** -/
theorem toFeed_of_step (h : s.step a = some s') (hw : s'.sendPhase? w = some phase) (hfeed : phase.toFeed = true) :
    (∃ phase', s.sendPhase? w = some phase' ∧ phase'.toFeed = true) ∨
      ∃ now m, admission? (s, a) = some (w, now, m) := by
  cases step_send h with
  | quiet _ hquiet =>
    rcases hquiet w phase hw with hw | ⟨rfl, -⟩
    · exact Or.inl ⟨phase, hw, hfeed⟩
    · cases hfeed
  | @sends w₀ m phase₀ e progress hm hp₀ hs hgoes hother hl ha =>
    by_cases hne : w = w₀
    · subst hne
      obtain rfl := hgoes phase hw
      rcases Outlet.send_toFeed hs hfeed with hfed | ⟨now, rfl, hadm⟩
      · exact Or.inl ⟨phase₀, hp₀, hfed⟩
      · subst ha
        exact Or.inr ⟨now, m, admission?_eq_some.2 ⟨attempt_sends hm, hadm⟩⟩
    · rw [hother w hne] at hw
      exact Or.inl ⟨phase, hw, hfeed⟩

theorem asking_of_step (h : s.step a = some s') (hw : s'.sendPhase? w = some phase)
    (hphase : phase = .admitting ∨ phase = .deferred) :
    s.message? w = none ∨ ∃ phase', s.sendPhase? w = some phase' ∧ (phase' = .admitting ∨ phase' = .deferred) := by
  cases step_send h with
  | quiet ho hp =>
    rcases hp w phase hw with hw | ⟨-, hnone⟩
    · exact Or.inr ⟨phase, hw, hphase⟩
    · exact Or.inl hnone
  | @sends w' m phase' e progress hm hp hs hgoes hother =>
    by_cases hne : w = w'
    · subst hne
      obtain rfl := hgoes phase hw
      rcases Outlet.send_cases hs with ⟨rfl, -⟩ | ⟨-, hphases⟩ | ⟨-, hflushing, -⟩
      · exact Or.inr ⟨_, hp, Or.inl rfl⟩
      · rcases hphases phase rfl with ⟨-, hdeferred⟩ | ⟨rfl, -⟩
        · exact Or.inr ⟨_, hp, Or.inr hdeferred⟩
        · rcases hphase with hphase | hphase <;> cases hphase
      · cases hflushing
        rcases hphase with hphase | hphase <;> cases hphase
    · rw [hother w hne] at hw
      exact Or.inr ⟨phase, hw, hphase⟩

/-- **Every writer is admitted once**, and writes after that. -/
structure Link.Admitted (tr : List (Link × Action)) (s : Link) : Prop where
  once    : ((admissions tr).map Prod.fst).Nodup
  message : ∀ x ∈ admissions tr, s.message? x.1 = some x.2.2
  asking  : ∀ w phase, s.sendPhase? w = some phase → phase = .admitting ∨ phase = .deferred →
    w ∉ (admissions tr).map Prod.fst
  toFeed  : ∀ w phase, s.sendPhase? w = some phase → phase.toFeed = true → w ∈ (admissions tr).map Prod.fst
  written : ∀ x ∈ s.outlet.sink, x.writer ∈ (admissions tr).map Prod.fst

theorem Link.Admitted.step (hs : s.Admitted tr) (h : s.step a = some s') : s'.Admitted (tr ++ [(s, a)]) := by
  have hmem : ∀ {w}, w ∈ (admissions (tr ++ [(s, a)])).map Prod.fst ↔
      w ∈ (admissions tr).map Prod.fst ∨ ∃ now m, admission? (s, a) = some (w, now, m) := by
    intro w
    rw [admissions_concat, List.map_append, List.mem_append]
    refine or_congr_right ?_
    cases admission? (s, a) <;> simp [eq_comm, Prod.ext_iff]
  have hasks : ∀ {w now m}, admission? (s, a) = some (w, now, m) →
      w ∉ (admissions tr).map Prod.fst ∧ s.message? w = some m ∧ s'.sendPhase? w = some .writing := by
    intro w now m hadm
    obtain ⟨hattempt, hadmitted⟩ := admission?_eq_some.1 hadm
    obtain ⟨hm, hphase, hwrites⟩ := asks_of_attempt h hattempt
    exact ⟨hs.asking w _ hphase (Or.inl rfl), hm, hwrites hadmitted⟩
  refine ⟨?_, fun x hx => ?_, fun w phase hw hphase hin => ?_, fun w phase hw hfeed => ?_, fun x hx => ?_⟩
  · rw [admissions_concat, List.map_append]
    cases hadm : admission? (s, a) with
    | none => simpa using hs.once
    | some x => exact hs.once.append (by simp) (by simpa using (hasks hadm).1)
  · rw [admissions_concat, List.mem_append, Option.mem_toList] at hx
    rcases hx with hx | hx
    · exact message?_of_step h (hs.message x hx)
    · exact message?_of_step h (hasks hx).2.1
  · rcases hmem.1 hin with hin | ⟨now, m, hadm⟩
    · rcases asking_of_step h hw hphase with hnone | ⟨phase', hw', hphase'⟩
      · obtain ⟨x, hx, rfl⟩ := List.mem_map.1 hin
        rw [hs.message x hx] at hnone
        cases hnone
      · exact hs.asking w phase' hw' hphase' hin
    · rw [(hasks hadm).2.2] at hw
      cases hw
      rcases hphase with hphase | hphase <;> cases hphase
  · exact hmem.2 ((toFeed_of_step h hw hfeed).imp_left fun ⟨phase', hw', hfeed'⟩ => hs.toFeed w phase' hw' hfeed')
  · rcases written_of_step h hx with hx | hfeeding
    · exact hmem.2 (Or.inl (hs.written x hx))
    · exact hmem.2 (Or.inl (hs.toFeed _ _ hfeeding rfl))

theorem admitted_of_link_runs (h : Runs Link.step (Link.fromParts n factor limits) tr t) : t.Admitted tr := by
  induction h with
  | start =>
    refine ⟨.nil, fun x hx => (by cases hx), fun w phase hw => ?_, fun w phase hw => ?_, fun x hx => (by cases hx)⟩
    all_goals cases w <;> simp [Link.sendPhase?, Link.fromParts] at hw
  | step hrun hs ih => exact ih.step hs

/-! ## What is written -/

theorem admissionOf_eq (hs : t.Admitted tr) {x : Writer × ℕ × DigMessage} (hx : x ∈ admissions tr) :
    admissionOf tr x.1 = some x.2 := by
  obtain ⟨y, hy⟩ := Option.isSome_iff_exists.1
    (List.find?_isSome.2 ⟨x, hx, by simp⟩ : ((admissions tr).find? (·.1 = x.1)).isSome = true)
  have hxy := List.inj_on_of_nodup_map hs.once (List.mem_of_find?_eq_some hy) hx
    (by simpa using List.find?_some hy)
  rw [admissionOf, hy, ← hxy, Option.map_some]

theorem map_filterMap_of_forall {α β γ : Type} {f : α → Option β} {g : β → γ} {h : α → γ} : ∀ {l : List α},
    (∀ x ∈ l, ∃ y, f x = some y ∧ g y = h x) → (l.filterMap f).map g = l.map h
  | [], _      => rfl
  | x :: l, hl => by
    obtain ⟨y, hy, hg⟩ := hl x List.mem_cons_self
    rw [List.filterMap_cons_some hy, List.map_cons, List.map_cons, hg,
      map_filterMap_of_forall fun z hz => hl z (List.mem_cons_of_mem x hz)]

theorem sends_frame (h : Runs Link.step (Link.fromParts n factor limits) tr t) :
    (sends tr t).map (fun x => x.2.toBytes) = t.outlet.sink.map Written.frame := by
  have hs := admitted_of_link_runs h
  refine map_filterMap_of_forall fun x hx => ?_
  obtain ⟨entry, hentry, hw⟩ := List.mem_map.1 (hs.written x hx)
  obtain ⟨m, hm, hframe, -⟩ := (sent_of_runs h).written x hx
  rw [← hw, hs.message entry hentry] at hm
  cases hm
  exact ⟨entry.2, hw ▸ admissionOf_eq hs hentry, hframe.symm⟩

/-- **What is written was admitted**, once each. -/
theorem sends_subperm (hs : t.Admitted tr) (hsent : t.Sent limits) :
    List.Subperm (sends tr t) ((admissions tr).map Prod.snd) := by
  have hwriters : List.Subperm (t.outlet.sink.map Written.writer) ((admissions tr).map Prod.fst) :=
    hsent.once.subperm fun w hw => by
      obtain ⟨x, hx, rfl⟩ := List.mem_map.1 hw
      exact hs.written x hx
  have hall : (admissions tr).map Prod.snd = ((admissions tr).map Prod.fst).filterMap (admissionOf tr) := by
    rw [List.filterMap_map]
    have h := map_filterMap_of_forall (f := admissionOf tr ∘ Prod.fst) (g := id) (h := Prod.snd) (l := admissions tr)
      fun x hx => ⟨x.2, admissionOf_eq hs hx, rfl⟩
    rw [← h, List.map_id]
  obtain ⟨ws, hperm, hsub⟩ := hwriters
  have hsends : sends tr t = (t.outlet.sink.map Written.writer).filterMap (admissionOf tr) := by
    rw [List.filterMap_map]
    rfl
  rw [hall, hsends]
  exact ⟨ws.filterMap (admissionOf tr), hperm.filterMap _, hsub.filterMap _⟩

theorem offeredIn_subperm {reset : ℕ+} {k : ℕ} {xs ys : List (ℕ × DigMessage)} (h : List.Subperm ys xs) :
    List.Subperm (offeredIn reset k ys) (offeredIn reset k xs) := by
  obtain ⟨zs, hperm, hsub⟩ := h
  exact ⟨offeredIn reset k zs, (hperm.filter _).map _, (hsub.filter _).map _⟩

/-- What was admitted in a window fits it as a whole. -/
theorem admissions_fit (h : Runs Link.step (Link.fromParts n factor limits) tr t)
    (hclock : (attempts tr).Pairwise fun x y => x.2.1 ≤ y.2.1) (k : ℕ) :
    FitsAsAWhole limits factor (offeredIn rateLimitWindowSeconds k ((admissions tr).map Prod.snd)) := by
  obtain ⟨-, hadmissions⟩ := limiter_of_attempts h
  have hmono : ((attempts tr).map Prod.snd).Pairwise fun x y => x.1 ≤ y.1 := List.pairwise_map.2 hclock
  have hadmitted : AdmitsAll (new n .outbound rateLimitWindowSeconds factor limits) ((admissions tr).map Prod.snd) :=
    hadmissions ▸ admitsAll_admitted hmono
  refine (admitsAll_iff _ _ _ ?_).1 hadmitted k
  rw [hadmissions]
  refine hmono.sublist ?_
  conv_rhs => rw [← map_fst_transcript offer ((attempts tr).map Prod.snd)
    (new n .outbound rateLimitWindowSeconds factor limits)]
  exact List.filter_sublist.map _

/-- **What a link writes is paced**: the frames in the sink are the encodings of `sends`, each of them admitted and no
writer twice, and what was admitted in a window of the wall clock fits it as a whole, however many calls and sends there
are and in whatever order they write.
So a gate that is offered the frames in the order of the sink refuses none: in the link's own windows with at least its
factor, and in windows of its own with twice the factor, when frames read in one window were admitted within the length
of one. -/
theorem paced_of_runs (h : Runs Link.step (Link.fromParts n factor limits) tr t)
    (hclock : (attempts tr).Pairwise fun x y => x.2.1 ≤ y.2.1) :
    (sends tr t).map (fun x => x.2.toBytes) = t.outlet.sink.map Written.frame ∧
    List.Subperm (sends tr t) ((admissions tr).map Prod.snd) ∧ ((admissions tr).map Prod.fst).Nodup ∧
    (∀ k, FitsAsAWhole limits factor (offeredIn rateLimitWindowSeconds k (sends tr t))) ∧
    (limits.NonNeg → 0 ≤ factor → ∀ zs : List Passage, zs.map Passage.sent = sends tr t →
      (zs.map Passage.arrived).Pairwise (fun x y => x.1 ≤ y.1) → ∀ (now : ℕ) (factor' : ℚ),
        factor ≤ factor' ∧ (∀ z ∈ zs, z.offeredAt / rateLimitWindowSeconds = z.admittedAt / rateLimitWindowSeconds) ∨
        2 * factor ≤ factor' ∧ (∀ z ∈ zs, ∀ z' ∈ zs, z.offeredAt / rateLimitWindowSeconds =
          z'.offeredAt / rateLimitWindowSeconds → z'.admittedAt < z.admittedAt + rateLimitWindowSeconds) →
        AdmitsAll (new now .inbound rateLimitWindowSeconds factor' limits) (zs.map Passage.arrived)) := by
  have hadmitted := admitted_of_link_runs h
  have hsubperm := sends_subperm hadmitted (sent_of_runs h)
  have hfits : ∀ k, FitsAsAWhole limits factor (offeredIn rateLimitWindowSeconds k (sends tr t)) := fun k =>
    (admissions_fit h hclock k).subperm (offeredIn_subperm hsubperm)
  refine ⟨sends_frame h, hsubperm, hadmitted.once, hfits, fun hl hf zs hzs harrived now factor' hgate => ?_⟩
  have hfitsZs : ∀ k, FitsAsAWhole limits factor (offeredIn rateLimitWindowSeconds k (zs.map Passage.sent)) := by
    rw [hzs]
    exact hfits
  rcases hgate with ⟨hfactor, hwindows⟩ | ⟨hfactor, hspread⟩
  · exact (passes_gate now hl hf zs hfitsZs harrived).1 hfactor hwindows
  · exact (passes_gate now hl hf zs hfitsZs harrived).2 hfactor hspread

/-- Two messages of two windows; the second to be admitted is written first, and both are read in one window. -/
def overtaken : List Action :=
  [.post ⟨1, none, [7]⟩, .post ⟨220, none, []⟩, .postStep 0 (.send (.attempt 59)), .postStep 1 (.send (.attempt 61)),
    .postStep 1 (.send .lock), .postStep 1 (.send (.feed true)), .postStep 1 (.send (.flush true)),
    .postStep 0 (.send .lock), .postStep 0 (.send (.feed true))]

theorem paced_of_runs_overtaken : ∃ tr t, Runs Link.step (Link.fromParts 0 1 narrowLimits) tr t ∧
    sends tr t = [(61, ⟨220, none, []⟩), (59, ⟨1, none, [7]⟩)] ∧
    AdmitsAll (new 0 .inbound rateLimitWindowSeconds 2 narrowLimits) [(119, ⟨220, none, []⟩), (119, ⟨1, none, [7]⟩)] := by
  have hsome : (run Link.step (Link.fromParts 0 1 narrowLimits) overtaken).isSome = true := by decide +kernel
  have hsends : sends (trace Link.step (Link.fromParts 0 1 narrowLimits) overtaken)
      (reach Link.step (Link.fromParts 0 1 narrowLimits) overtaken) =
        [(61, ⟨220, none, []⟩), (59, ⟨1, none, [7]⟩)] := by decide +kernel
  obtain ⟨-, -, -, -, hgate⟩ := paced_of_runs (runs_reach hsome) (by decide +kernel)
  exact ⟨_, _, runs_reach hsome, hsends, hgate narrowLimits_nonNeg (by decide +kernel)
    [⟨61, 119, ⟨220, none, []⟩⟩, ⟨59, 119, ⟨1, none, [7]⟩⟩] hsends.symm (by decide) 0 2
    (Or.inr ⟨by decide +kernel, by decide⟩)⟩

end Dig
