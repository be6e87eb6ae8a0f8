import DigPeer.Outcomes
import DigPeer.Pacing
/-!
# Turns — each send of a link is a run of the admission loop

The loop of `send_message` is in the model twice: as `admissionLoop`, over the readings of the two clocks and what
others offered in between, and a step at a time, as `Outlet.send`, in a link on which those others run.  `turnsOf` reads
the first off a history of the second: the attempts of one writer, each with the offers of all others since its last.
What the loop makes of them is what the writer has come to, and the limiter the loop leaves is the link's
(`send_is_loop`).
-/
namespace Dig

open Correlator Lts Mealy OpcodeRateLimiter

variable {tr : List (Link × Action)} {s s' t : Link} {a : Action} {w w' : Writer} {m : DigMessage} {phase : SendPhase}
  {e : SendEvent} {progress : Progress} {r : Except LinkError Unit} {now n deadline : ℕ} {instant : ℕ → ℕ} {factor : ℚ}
  {limits : OpcodeRateLimits} {x : Link × Action}

/-! ## The loop, one turn on -/

theorem admissionLoop_singleton (l : OpcodeRateLimiter) (turn : Attempt) :
    admissionLoop deadline m l [turn] =
      (match ((final offer l turn.others).admitAt turn.wall m).1 with
        | .admitted   => some (.ok ())
        | .unsendable => some (.error (.unsendable m.msgType m.data.length))
        | .deferred   =>
          if deadline < turn.instant + rateLimitBackoff then some (.error (.sendTimeout m.msgType)) else none,
        ((final offer l turn.others).admitAt turn.wall m).2) := by
  rw [admissionLoop]
  rcases h : (final offer l turn.others).admitAt turn.wall m with ⟨verdict, l'⟩
  cases verdict with
  | admitted | unsendable => rfl
  | deferred =>
    dsimp only
    split <;> rfl

theorem admissionLoop_cons {l : OpcodeRateLimiter} {turn : Attempt} {turns : List Attempt}
    (h : (admissionLoop deadline m l (turn :: turns)).1 = none) (rest : List Attempt) :
    admissionLoop deadline m l (turn :: rest) =
      admissionLoop deadline m ((final offer l turn.others).admitAt turn.wall m).2 rest := by
  rw [admissionLoop] at h ⊢
  rcases hverdict : (final offer l turn.others).admitAt turn.wall m with ⟨verdict, l'⟩
  rw [hverdict] at h
  cases verdict with
  | admitted | unsendable => cases h
  | deferred =>
    dsimp only at h ⊢
    split at h
    · cases h
    · rename_i hgoes
      rw [if_neg hgoes]

/-- **A loop that is still going takes one more turn.** -/
theorem admissionLoop_concat (turn : Attempt) : ∀ (turns : List Attempt) (l : OpcodeRateLimiter),
    (admissionLoop deadline m l turns).1 = none →
      admissionLoop deadline m l (turns ++ [turn]) =
        admissionLoop deadline m (admissionLoop deadline m l turns).2 [turn]
  | [], _, _      => rfl
  | b :: turns, l, h => by
    rw [List.cons_append, admissionLoop_cons h, admissionLoop_cons h turns]
    rw [admissionLoop_cons h turns] at h
    exact admissionLoop_concat turn turns _ h

/-! ## The turns of a writer -/

/-- The attempts of a writer so far, each with the offers of the others since its last, and those since. -/
structure Turns where
  done    : List (List (ℕ × DigMessage) × ℕ)
  pending : List (ℕ × DigMessage)

def Turns.add (w : Writer) (turns : Turns) (offer : Writer × ℕ × DigMessage) : Turns :=
  if offer.1 = w then ⟨turns.done ++ [(turns.pending, offer.2.1)], []⟩ else ⟨turns.done, turns.pending ++ [offer.2]⟩

def turnsOf (w : Writer) (tr : List (Link × Action)) : Turns := (attempts tr).foldl (Turns.add w) ⟨[], []⟩

/-- The turns as the loop takes them, with the readings of the monotonic clock at which the deadline is tested. -/
def loopTurns (w : Writer) (instant : ℕ → ℕ) (tr : List (Link × Action)) : List Attempt :=
  (turnsOf w tr).done.mapIdx fun i turn => ⟨turn.1, turn.2, instant i⟩

def Action.sender? : Action → Option (Writer × SendEvent)
  | .call c (.send e)     => some (.call c, e)
  | .postStep p (.send e) => some (.post p, e)
  | _                     => none

def decision? (w : Writer) (x : Link × Action) : Option Bool :=
  match x.2.sender? with
  | some (w', .retry)  => if w' = w then some false else none
  | some (w', .giveUp) => if w' = w then some true else none
  | _                  => none

def decisions (w : Writer) (tr : List (Link × Action)) : List Bool := tr.filterMap (decision? w)

theorem decisions_concat : decisions w (tr ++ [x]) = decisions w tr ++ (decision? w x).toList := by
  rw [decisions, List.filterMap_append]
  cases h : decision? w x <;> simp [h, decisions]

theorem turnsOf_concat : turnsOf w (tr ++ [x]) = (attempt x).toList.foldl (Turns.add w) (turnsOf w tr) := by
  rw [turnsOf, attempts_concat, List.foldl_append]
  rfl

theorem turnsOf_concat_of_none (h : attempt x = none) : turnsOf w (tr ++ [x]) = turnsOf w tr := by
  rw [turnsOf_concat, h]
  rfl

theorem turnsOf_concat_own (h : attempt x = some (w, now, m)) :
    turnsOf w (tr ++ [x]) = ⟨(turnsOf w tr).done ++ [((turnsOf w tr).pending, now)], []⟩ := by
  rw [turnsOf_concat, h]
  exact if_pos rfl

theorem turnsOf_concat_other (h : attempt x = some (w', now, m)) (hne : w' ≠ w) :
    turnsOf w (tr ++ [x]) = ⟨(turnsOf w tr).done, (turnsOf w tr).pending ++ [(now, m)]⟩ := by
  rw [turnsOf_concat, h]
  exact if_neg hne

/-! ## Steps, as one writer sees them -/

theorem attempt_eq (x : Link × Action) : attempt x =
    match x.2.sender? with
    | some (w, .attempt now) => (x.1.message? w).map fun m => (w, now, m)
    | _                      => none := by
  obtain ⟨s, a⟩ := x
  cases a with
  | call c e =>
    cases e with
    | send e => cases e <;> rfl
    | acquire | insert | receive | expire | cancel | finish | abandon => rfl
  | postStep p e =>
    cases e with
    | send e => cases e <;> rfl
    | abandon => rfl
  | request | post | close | inbound | handoff | release | deliver | recv | closeApp => rfl

/-- A writer that is in its send stays in its phase through a step that is not its own, unless it is dropped. -/
theorem sendPhase_or_dropped (h : s.step a = some s') (hp : s.sendPhase? w = some phase)
    (ha : ∀ e, a.sender? ≠ some (w, e)) :
    s'.sendPhase? w = some phase ∨ s'.sendPhase? w = none ∧ s'.sendResult? w = none := by
  cases w with
  | call c =>
    obtain ⟨call, hc, hphase⟩ := Option.bind_eq_some_iff.1 hp
    obtain ⟨call', hc', hfate⟩ := (step_effect h).callFate hc
    obtain ⟨k, hsending⟩ : ∃ k, call.phase = .registered k (.sending phase) := by
      unfold Call.sendPhase? at hphase
      split at hphase
      · rename_i k phase' hcall
        cases hphase
        exact ⟨k, hcall⟩
      · cases hphase
    cases hfate with
    | stays hp' =>
      left
      simp [Link.sendPhase?, hc', Call.sendPhase?, hp', hsending]
    | own hown ho =>
      subst hown
      cases ho with
      | send => exact absurd rfl (ha _)
      | abandon =>
        right
        simp [Link.sendPhase?, Link.sendResult?, hc', Call.sendPhase?, Call.sendResult?, Call.goTo, Stage.sendResult?]
      | acquire hp' | insert hp' | receive hp' | expire hp' | finish hp' => rw [hsending] at hp'; cases hp'
      | withdraw hp' => rw [hsending] at hp'; rcases hp' with hp' | hp' <;> cases hp'
      | cancel hp' hst => rw [hsending] at hp'; cases hp'; rcases hst with hst | ⟨hst, -⟩ <;> cases hst
  | post p =>
    obtain ⟨post, hpost, hphase⟩ := Option.bind_eq_some_iff.1 hp
    have hlt := (List.getElem?_eq_some_iff.1 hpost).1
    cases Link.stepped_of_step h with
    | @postSend q e post' phase' progress outlet hpost' hphase' hs =>
      have hqp : q ≠ p := fun hqp => ha e (by rw [hqp]; rfl)
      left
      simpa [Link.sendPhase?, List.getElem?_set_ne hqp] using hp
    | @postAbandon q post' phase' hpost' hphase' =>
      by_cases hqp : q = p
      · subst hqp
        right
        simp [Link.sendPhase?, Link.sendResult?, hlt, Post.sendPhase?, Post.sendResult?]
      · left
        simpa [Link.sendPhase?, List.getElem?_set_ne hqp] using hp
    | post m =>
      left
      simpa [Link.sendPhase?, List.getElem?_append_left hlt] using hp
    | deliver => exact Or.inl (by simpa [Link.sendPhase?] using hp)
    | request | callSend | callStep | close | inbound | handoff | release | recv | closeApp => exact Or.inl hp

/-- **A step runs on the send of one writer or of none.** -/
inductive WriterStep (s : Link) (a : Action) (s' : Link) (w : Writer) : Prop
  | own {e : SendEvent} {m : DigMessage} {phase : SendPhase} {progress : Progress} (ha : a.sender? = some (w, e))
      (hm : s.message? w = some m) (hp : s.sendPhase? w = some phase)
      (hs : s.outlet.send w m phase e = some (progress, s'.outlet))
      (hphase : ∀ phase', s'.sendPhase? w = some phase' → progress = .at phase')
      (hresult : ∀ r, s'.sendResult? w = some r → progress.result? = some r)
  | other (ha : ∀ e, a.sender? ≠ some (w, e))
      (hphase : ∀ phase, s'.sendPhase? w = some phase →
        s.sendPhase? w = some phase ∨ phase = .admitting ∧ s.message? w = none)
      (hresult : ∀ r, s'.sendResult? w = some r → s.sendResult? w = some r)

theorem writerStep_own (h : s.step a = some s') (ha : a.sender? = some (w, e)) : WriterStep s a s' w := by
  unfold Action.sender? at ha
  split at ha
  · rename_i c e'
    cases ha
    cases Link.stepped_of_step h with
    | @callSend _ _ call k phase progress outlet hc hp hs =>
      refine .own rfl (Link.message?_call hc hp) (by simp [Link.sendPhase?, hc, Call.sendPhase?, hp]) hs
        (fun phase' hp' => ?_) fun r hr => ?_
      · simp only [Link.sendPhase?, modifyCall, List.getElem?_modify, hc] at hp'
        cases progress <;> simp_all [Call.sendPhase?, Call.goTo, Stage.ofProgress]
      · simpa [Link.sendResult?, modifyCall, hc, Call.sendResult?, Call.goTo, Stage.sendResult?_ofProgress] using hr
    | callStep he => exact absurd rfl (he _)
  · rename_i p e'
    cases ha
    cases Link.stepped_of_step h with
    | @postSend _ _ post phase progress outlet hpost hp hs =>
      have hlt := (List.getElem?_eq_some_iff.1 hpost).1
      refine .own rfl (Link.message?_post hpost) (by simp [Link.sendPhase?, hpost, Post.sendPhase?, hp]) hs
        (fun phase' hp' => ?_) fun r hr => ?_
      · simp only [Link.sendPhase?, List.getElem?_set_self hlt] at hp'
        cases progress <;> simp_all [Post.sendPhase?, PostPhase.ofProgress]
      · simp only [Link.sendResult?, List.getElem?_set_self hlt] at hr
        cases progress <;> exact hr
  · cases ha

theorem writerStep_of_step (h : s.step a = some s')
    (hsend : ∀ error, s.sendResult? w = some (.error error) → error.isSend = true) : WriterStep s a s' w := by
  by_cases hown : ∃ e, a.sender? = some (w, e)
  · obtain ⟨e, ha⟩ := hown
    exact writerStep_own h ha
  · have ha : ∀ e, a.sender? ≠ some (w, e) := fun e he => hown ⟨e, he⟩
    refine .other ha (fun phase hp => ?_) fun r hr => ?_
    · cases step_send h with
      | quiet _ hquiet => exact hquiet w phase hp
      | @sends w₀ m₀ phase₀ e₀ progress hm₀ hp₀ hs₀ hgoes hother =>
        by_cases hww : w = w₀
        · subst hww
          rcases sendPhase_or_dropped h hp₀ ha with hp' | ⟨hp', -⟩
          · rw [hp'] at hp
            cases hp
            exact Or.inl hp₀
          · rw [hp'] at hp
            cases hp
        · rw [hother w hww] at hp
          exact Or.inl hp
    · rcases sendResult_of_step h hr hsend with hr | ⟨m, phase, e, progress, hm, hp, hs, -⟩
      · exact hr
      · rcases sendPhase_or_dropped h hp ha with hp' | ⟨-, hnone⟩
        · rw [sendResult?_of_sendPhase? hp'] at hr
          cases hr
        · rw [hnone] at hr
          cases hr

/-! ## The loop and the steps -/

/-- The readings of the monotonic clock agree with what a writer has decided: it gives up once another back-off would
end after its deadline. -/
def Decides (deadline : ℕ) (instant : ℕ → ℕ) (w : Writer) (tr : List (Link × Action)) : Prop :=
  ∀ i gaveUp, (decisions w tr)[i]? = some gaveUp → (gaveUp = true ↔ deadline < instant i + rateLimitBackoff)

theorem Decides.of_concat (h : Decides deadline instant w (tr ++ [x])) : Decides deadline instant w tr := by
  intro i gaveUp hi
  refine h i gaveUp ?_
  rw [decisions_concat, List.getElem?_append_left (List.getElem?_eq_some_iff.1 hi).1, hi]

theorem Decides.last {gaveUp : Bool} (h : Decides deadline instant w (tr ++ [x])) (hx : decision? w x = some gaveUp) :
    gaveUp = true ↔ deadline < instant (decisions w tr).length + rateLimitBackoff := by
  apply h
  rw [decisions_concat, hx, Option.toList_some, List.getElem?_concat_length]

/-- **A writer is where the loop is** that takes its turns from the limiter `l`. -/
structure Link.InLoop (l : OpcodeRateLimiter) (deadline : ℕ) (instant : ℕ → ℕ) (w : Writer) (m : DigMessage)
    (tr : List (Link × Action)) (t : Link) : Prop where
  limiter   : t.outlet.limiter =
    final offer (admissionLoop deadline m l (loopTurns w instant tr)).2 (turnsOf w tr).pending
  fresh     : t.message? w = none → (turnsOf w tr).done = [] ∧ decisions w tr = []
  admitting : t.sendPhase? w = some .admitting →
    (admissionLoop deadline m l (loopTurns w instant tr)).1 = none ∧
    (turnsOf w tr).done.length = (decisions w tr).length
  deferred  : t.sendPhase? w = some .deferred →
    (admissionLoop deadline m l (loopTurns w instant tr)).1 =
      (if deadline < instant (decisions w tr).length + rateLimitBackoff then some (.error (.sendTimeout m.msgType))
        else none) ∧
    (turnsOf w tr).done.length = (decisions w tr).length + 1
  admitted  : ∀ phase, t.sendPhase? w = some phase → phase.toFeed = true ∨ phase = .flushing →
    (admissionLoop deadline m l (loopTurns w instant tr)).1 = some (.ok ())
  result    : ∀ r, t.sendResult? w = some r → (admissionLoop deadline m l (loopTurns w instant tr)).1 = some r ∨
    (admissionLoop deadline m l (loopTurns w instant tr)).1 = some (.ok ()) ∧ r = .error .webSocket

variable {l : OpcodeRateLimiter}

theorem loopTurns_of_done (instant : ℕ → ℕ) (h : (turnsOf w (tr ++ [x])).done = (turnsOf w tr).done) :
    loopTurns w instant (tr ++ [x]) = loopTurns w instant tr := by
  rw [loopTurns, h, loopTurns]

theorem loopTurns_concat_own (h : attempt x = some (w, now, m)) : loopTurns w instant (tr ++ [x]) =
    loopTurns w instant tr ++ [⟨(turnsOf w tr).pending, now, instant (turnsOf w tr).done.length⟩] := by
  rw [loopTurns, turnsOf_concat_own h, List.mapIdx_concat, loopTurns]

theorem Link.InLoop.other (hs : s.InLoop l deadline instant w m tr) (h : s.step a = some s')
    (ha : ∀ e, a.sender? ≠ some (w, e))
    (hphase : ∀ phase, s'.sendPhase? w = some phase →
      s.sendPhase? w = some phase ∨ phase = .admitting ∧ s.message? w = none)
    (hresult : ∀ r, s'.sendResult? w = some r → s.sendResult? w = some r) :
    s'.InLoop l deadline instant w m (tr ++ [(s, a)]) := by
  have hdecisions : decisions w (tr ++ [(s, a)]) = decisions w tr := by
    have hnone : decision? w (s, a) = none := by
      unfold decision?
      split
      · rename_i w' hw
        exact if_neg fun hww => ha _ (hww ▸ hw)
      · rename_i w' hw
        exact if_neg fun hww => ha _ (hww ▸ hw)
      · rfl
    rw [decisions_concat, hnone, Option.toList_none, List.append_nil]
  have hlimiter := limiter_of_step h
  obtain ⟨hdone, hpending⟩ : (turnsOf w (tr ++ [(s, a)])).done = (turnsOf w tr).done ∧
      s'.outlet.limiter = final offer (admissionLoop deadline m l (loopTurns w instant tr)).2
        (turnsOf w (tr ++ [(s, a)])).pending := by
    cases hattempt : attempt (s, a) with
    | none =>
      rw [hattempt] at hlimiter
      rw [turnsOf_concat_of_none hattempt, ← hs.limiter]
      exact ⟨rfl, hlimiter⟩
    | some offer =>
      obtain ⟨w', now, m'⟩ := offer
      rw [hattempt] at hlimiter
      have hne : w' ≠ w := by
        rintro rfl
        rw [attempt_eq] at hattempt
        split at hattempt
        · rename_i hw
          obtain ⟨_, _, he⟩ := Option.map_eq_some_iff.1 hattempt
          cases he
          exact ha _ hw
        · cases hattempt
      rw [turnsOf_concat_other hattempt hne, final_concat, ← hs.limiter]
      exact ⟨rfl, hlimiter⟩
  have hturns := loopTurns_of_done instant hdone
  refine ⟨by rw [hturns, hpending], fun hnone => ?_, fun hp => ?_, fun hp => ?_, fun phase hp => ?_, fun r hr => ?_⟩
  · rw [hdone, hdecisions]
    refine hs.fresh (Option.eq_none_iff_forall_ne_some.2 fun m' hm' => ?_)
    rw [message?_of_step h hm'] at hnone
    cases hnone
  · rw [hturns, hdone, hdecisions]
    rcases hphase _ hp with hp | ⟨-, hnone⟩
    · exact hs.admitting hp
    · obtain ⟨hnil, hnil'⟩ := hs.fresh hnone
      rw [loopTurns, hnil, hnil']
      exact ⟨rfl, rfl⟩
  · rw [hturns, hdone, hdecisions]
    rcases hphase _ hp with hp | ⟨hnew, -⟩
    · exact hs.deferred hp
    · cases hnew
  · rw [hturns]
    rcases hphase _ hp with hp | ⟨hnew, -⟩
    · exact hs.admitted phase hp
    · subst hnew
      rintro (hnew | hnew) <;> cases hnew
  · rw [hturns]
    exact hs.result r (hresult r hr)

theorem Link.InLoop.attempt (hs : s.InLoop l deadline instant w m tr) (h : s.step a = some s')
    (ha : a.sender? = some (w, .attempt now)) (hm : s.message? w = some m) (hp : s.sendPhase? w = some .admitting)
    (hphase : ∀ phase, s'.sendPhase? w = some phase →
      Progress.ofAdmission m (s.outlet.limiter.admitAt now m).1 = .at phase)
    (hresult : ∀ r, s'.sendResult? w = some r →
      (Progress.ofAdmission m (s.outlet.limiter.admitAt now m).1).result? = some r) :
    s'.InLoop l deadline instant w m (tr ++ [(s, a)]) := by
  have hattempt : Dig.attempt (s, a) = some (w, now, m) := by
    rw [attempt_eq]
    simp only [ha, hm, Option.map_some]
  have hdecisions : decisions w (tr ++ [(s, a)]) = decisions w tr := by
    rw [decisions_concat]
    simp [decision?, ha]
  have hlimiter := limiter_of_step h
  rw [hattempt] at hlimiter
  obtain ⟨hgoes, hlength⟩ := hs.admitting hp
  have hloop := admissionLoop_concat ⟨(turnsOf w tr).pending, now, instant (turnsOf w tr).done.length⟩ _ l hgoes
  rw [← loopTurns_concat_own hattempt, admissionLoop_singleton, ← hs.limiter, hlength] at hloop
  refine ⟨?_, fun hnone => ?_, fun hp' => ?_, fun hp' => ?_, fun phase hp' hwriting => ?_, fun r hr => ?_⟩
  · rw [hloop, turnsOf_concat_own hattempt]
    exact hlimiter
  · rw [message?_of_step h hm] at hnone
    cases hnone
  · have hprogress := hphase _ hp'
    cases hverdict : (s.outlet.limiter.admitAt now m).1 <;> simp [hverdict, Progress.ofAdmission] at hprogress
  · have hprogress := hphase _ hp'
    rw [hloop, hdecisions, turnsOf_concat_own hattempt, List.length_append, hlength]
    cases hverdict : (s.outlet.limiter.admitAt now m).1 <;> simp [hverdict, Progress.ofAdmission] at hprogress ⊢
  · have hprogress := hphase _ hp'
    rw [hloop]
    cases hverdict : (s.outlet.limiter.admitAt now m).1 with
    | admitted => rfl
    | deferred =>
      simp only [hverdict, Progress.ofAdmission, Progress.at.injEq] at hprogress
      subst hprogress
      rcases hwriting with hwriting | hwriting <;> cases hwriting
    | unsendable => simp [hverdict, Progress.ofAdmission] at hprogress
  · have hprogress := hresult r hr
    rw [hloop]
    cases hverdict : (s.outlet.limiter.admitAt now m).1 <;>
      simp_all [Progress.ofAdmission, Progress.result?]

theorem Link.InLoop.quiet (hs : s.InLoop l deadline instant w m tr) (h : s.step a = some s')
    (ha : a.sender? = some (w, e)) (he : ∀ now, e ≠ .attempt now) (hm : s.message? w = some m)
    (hphase : ∀ phase, s'.sendPhase? w = some phase → progress = .at phase)
    (hresult : ∀ r, s'.sendResult? w = some r → progress.result? = some r)
    (hadmitting : progress = .at .admitting → (admissionLoop deadline m l (loopTurns w instant tr)).1 = none ∧
      (turnsOf w tr).done.length = (decisions w (tr ++ [(s, a)])).length)
    (hdeferred : progress ≠ .at .deferred)
    (hadmitted : ∀ phase, progress = .at phase → phase.toFeed = true ∨ phase = .flushing →
      (admissionLoop deadline m l (loopTurns w instant tr)).1 = some (.ok ()))
    (hleft : ∀ r, progress.result? = some r → (admissionLoop deadline m l (loopTurns w instant tr)).1 = some r ∨
      (admissionLoop deadline m l (loopTurns w instant tr)).1 = some (.ok ()) ∧ r = .error .webSocket) :
    s'.InLoop l deadline instant w m (tr ++ [(s, a)]) := by
  have hnone : Dig.attempt (s, a) = none := by
    rw [attempt_eq]
    dsimp only
    rw [ha]
    cases e with
    | attempt now => exact absurd rfl (he now)
    | retry | giveUp | lock | feed | flush => rfl
  have hlimiter := limiter_of_step h
  rw [hnone] at hlimiter
  have hturns : turnsOf w (tr ++ [(s, a)]) = turnsOf w tr := turnsOf_concat_of_none hnone
  have hloop := loopTurns_of_done instant (congrArg Turns.done hturns)
  refine ⟨?_, fun hfresh => ?_, fun hp => ?_, fun hp => ?_, fun phase hp hwriting => ?_, fun r hr => ?_⟩
  · rw [hloop, hturns, ← hs.limiter]
    exact hlimiter
  · rw [message?_of_step h hm] at hfresh
    cases hfresh
  · rw [hloop, hturns]
    exact hadmitting (hphase _ hp)
  · exact absurd (hphase _ hp) hdeferred
  · rw [hloop]
    exact hadmitted phase (hphase phase hp) hwriting
  · rw [hloop]
    exact hleft r (hresult r hr)

theorem Link.InLoop.step (hs : s.InLoop l deadline instant w m tr) (h : s.step a = some s')
    (hsend : ∀ error, s.sendResult? w = some (.error error) → error.isSend = true)
    (hm : ∀ m', s'.message? w = some m' → m' = m) (hdecides : Decides deadline instant w (tr ++ [(s, a)])) :
    s'.InLoop l deadline instant w m (tr ++ [(s, a)]) := by
  cases writerStep_of_step h hsend with
  | other ha hphase hresult => exact hs.other h ha hphase hresult
  | @own e m₀ phase progress ha hm₀ hp hsent hphase hresult =>
    obtain rfl := hm m₀ (message?_of_step h hm₀)
    generalize s'.outlet = o' at hsent
    unfold Outlet.send at hsent
    split at hsent <;> cases hsent
    · exact hs.attempt h ha hm₀ hp hphase hresult
    · -- the deadline is not near: another turn
      obtain ⟨hloop, hlength⟩ := hs.deferred hp
      have hdecision : decision? w (s, a) = some false := by simp [decision?, ha]
      rw [if_neg (mt (hdecides.last hdecision).2 (by simp))] at hloop
      refine hs.quiet h ha (by simp) hm₀ hphase hresult (fun _ => ⟨hloop, ?_⟩) (by simp) (fun phase hgoes hwrites => ?_)
        fun r hr => by cases hr
      · rw [decisions_concat, hdecision, hlength]
        simp
      · cases hgoes
        rcases hwrites with hwrites | hwrites <;> cases hwrites
    · -- the deadline is near
      obtain ⟨hloop, hlength⟩ := hs.deferred hp
      have hdecision : decision? w (s, a) = some true := by simp [decision?, ha]
      rw [if_pos ((hdecides.last hdecision).1 rfl)] at hloop
      refine hs.quiet h ha (by simp) hm₀ hphase hresult (by simp) (by simp) (by simp) fun r hr => ?_
      cases hr
      exact Or.inl hloop
    -- past its admission the loop has ended with `Ok`: the lock, the frame, the flush
    · have hloop := hs.admitted _ hp (Or.inl rfl)
      exact hs.quiet h ha (by simp) hm₀ hphase hresult (by simp) (by simp) (fun _ _ _ => hloop) fun r hr => by cases hr
    · have hloop := hs.admitted _ hp (Or.inl rfl)
      exact hs.quiet h ha (by simp) hm₀ hphase hresult (by simp) (by simp) (fun _ _ _ => hloop) fun r hr => by cases hr
    · have hloop := hs.admitted _ hp (Or.inl rfl)
      refine hs.quiet h ha (by simp) hm₀ hphase hresult (by simp) (by simp) (by simp) fun r hr => ?_
      cases hr
      exact Or.inr ⟨hloop, rfl⟩
    · have hloop := hs.admitted _ hp (Or.inr rfl)
      refine hs.quiet h ha (by simp) hm₀ hphase hresult (by simp) (by simp) (by simp) fun r hr => ?_
      cases hr
      exact Or.inl hloop
    · have hloop := hs.admitted _ hp (Or.inr rfl)
      refine hs.quiet h ha (by simp) hm₀ hphase hresult (by simp) (by simp) (by simp) fun r hr => ?_
      cases hr
      exact Or.inr ⟨hloop, rfl⟩

theorem inLoop_of_runs (h : Runs Link.step (Link.fromParts n factor limits) tr t)
    (hm : ∀ m', t.message? w = some m' → m' = m) (hdecides : Decides deadline instant w tr) :
    t.InLoop (new n .outbound rateLimitWindowSeconds factor limits) deadline instant w m tr := by
  induction h with
  | start =>
    refine ⟨rfl, fun _ => ⟨rfl, rfl⟩, fun hp => ?_, fun hp => ?_, fun phase hp => ?_, fun r hr => ?_⟩
    all_goals cases w <;> simp [Link.sendPhase?, Link.sendResult?, Link.fromParts] at *
  | @step tr s s' a hrun hs ih =>
    refine (ih (fun m' hm' => hm m' (message?_of_step hs hm')) hdecides.of_concat).step hs (fun error => ?_) hm hdecides
    exact (receipts_of_link_runs hrun).isSend

/-- **A send on a link is the loop of `send_message`.**  Let the readings of the monotonic clock agree with when a
writer gave up and when it tried again, and run the loop by itself: on the readings of the wall clock at which the
writer asked, with what all others offered in between, from the limiter the link began with.  As long as the writer
asks, the loop is still going; once it was admitted, and when its message is sent, the loop has ended with `Ok`; a
refusal is the loop's; and the limiter of the link is the one the loop leaves, with what others have offered since. -/
theorem send_is_loop (h : Runs Link.step (Link.fromParts n factor limits) tr t) (hm : t.message? w = some m)
    (hdecides : Decides deadline instant w tr) :
    let loop := admissionLoop deadline m (new n .outbound rateLimitWindowSeconds factor limits) (loopTurns w instant tr)
    (t.sendPhase? w = some .admitting → loop.1 = none) ∧
    (t.sendPhase? w = some .deferred → loop.1 = none ∨ loop.1 = some (.error (.sendTimeout m.msgType))) ∧
    (t.sendPhase? w = some .writing ∨ t.sendPhase? w = some .feeding ∨ t.sendPhase? w = some .flushing →
      loop.1 = some (.ok ())) ∧
    (∀ r, t.sendResult? w = some r → loop.1 = some r ∨ loop.1 = some (.ok ()) ∧ r = .error .webSocket) ∧
    t.outlet.limiter = final offer loop.2 (turnsOf w tr).pending := by
  have hloop := inLoop_of_runs h (fun m' hm' => by rw [hm] at hm'; cases hm'; rfl) hdecides
  refine ⟨fun hp => (hloop.admitting hp).1, fun hp => ?_, ?_, hloop.result, hloop.limiter⟩
  · rw [(hloop.deferred hp).1]
    split
    · exact Or.inr rfl
    · exact Or.inl rfl
  · rintro (hp | hp | hp)
    · exact hloop.admitted _ hp (Or.inl rfl)
    · exact hloop.admitted _ hp (Or.inl rfl)
    · exact hloop.admitted _ hp (Or.inr rfl)

def thirdWaits : List Action :=
  List.replicate 4 (.post ⟨1, none, []⟩) ++
    [.postStep 0 (.send (.attempt 0)), .postStep 1 (.send (.attempt 0)), .postStep 2 (.send (.attempt 0)),
      .postStep 2 (.send .retry), .postStep 3 (.send (.attempt 60)), .postStep 2 (.send (.attempt 60)),
      .postStep 2 (.send .lock), .postStep 2 (.send (.feed true)), .postStep 2 (.send (.flush true))]

theorem send_is_loop_thirdWaits : ∃ tr t, Runs Link.step (Link.fromParts 0 1 narrowLimits) tr t ∧
    t.sendResult? (.post 2) = some (.ok ()) ∧
    (admissionLoop (2 * nanosPerSecond) ⟨1, none, []⟩ (new 0 .outbound rateLimitWindowSeconds 1 narrowLimits)
      [⟨[(0, ⟨1, none, []⟩), (0, ⟨1, none, []⟩)], 0, 0⟩, ⟨[(60, ⟨1, none, []⟩)], 60, nanosPerSecond⟩]).1 =
        some (.ok ()) := by
  have hsome : (run Link.step (Link.fromParts 0 1 narrowLimits) thirdWaits).isSome = true := by decide +kernel
  have hm : (reach Link.step (Link.fromParts 0 1 narrowLimits) thirdWaits).message? (.post 2) = some ⟨1, none, []⟩ := by
    decide +kernel
  have hsent :
      (reach Link.step (Link.fromParts 0 1 narrowLimits) thirdWaits).sendResult? (.post 2) = some (.ok ()) := by
    decide +kernel
  have hdecisions : decisions (.post 2) (trace Link.step (Link.fromParts 0 1 narrowLimits) thirdWaits) = [false] := by
    decide +kernel
  have hturns : loopTurns (.post 2) (fun i => i * nanosPerSecond)
      (trace Link.step (Link.fromParts 0 1 narrowLimits) thirdWaits) =
        [⟨[(0, ⟨1, none, []⟩), (0, ⟨1, none, []⟩)], 0, 0⟩, ⟨[(60, ⟨1, none, []⟩)], 60, nanosPerSecond⟩] := by
    rw [loopTurns, show (turnsOf (.post 2) (trace Link.step (Link.fromParts 0 1 narrowLimits) thirdWaits)).done =
      [([(0, ⟨1, none, []⟩), (0, ⟨1, none, []⟩)], 0), ([(60, ⟨1, none, []⟩)], 60)] by decide +kernel]
    rfl
  have hdecides : Decides (2 * nanosPerSecond) (fun i => i * nanosPerSecond) (.post 2)
      (trace Link.step (Link.fromParts 0 1 narrowLimits) thirdWaits) := by
    intro i gaveUp hi
    rw [hdecisions] at hi
    obtain ⟨rfl, rfl⟩ : i = 0 ∧ gaveUp = false := by
      cases i <;> simp_all
    decide
  obtain ⟨-, -, -, hresult, -⟩ := send_is_loop (runs_reach hsome) hm hdecides
  rw [hturns] at hresult
  refine ⟨_, _, runs_reach hsome, hsent, (hresult _ hsent).resolve_right ?_⟩
  rintro ⟨-, hr⟩
  cases hr

end Dig
