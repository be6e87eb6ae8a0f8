import DigPeer.Effect
/-!
# Sending — what a link has written

Requests and the application's own messages go through the same `send_message`.  A step runs at most one of them on
(`SendStep`), so a frame in the sink is its writer's message, encoded, and no writer has two there (`sent_of_runs`).
-/
namespace Dig

open Correlator Lts

variable {tr : List (Link × Action)} {s s' : Link} {a : Action} {c : CallId} {call call' : Call} {k : UInt16}
  {m : DigMessage} {w w' : Writer} {phase : SendPhase} {now : ℕ} {factor : ℚ} {limits : OpcodeRateLimits}

def Call.message? (call : Call) : Option DigMessage :=
  match call.phase with
  | .registered id _ => some (call.message id)
  | _ => none

/-- Admitted, and its frame still to be fed to the sink. -/
def SendPhase.toFeed : SendPhase → Bool
  | .writing | .feeding                => true
  | .admitting | .deferred | .flushing => false

def Call.sendPhase? (call : Call) : Option SendPhase :=
  match call.phase with
  | .registered _ (.sending phase) => some phase
  | _ => none

def Post.sendPhase? (post : Post) : Option SendPhase :=
  match post.phase with
  | .sending phase => some phase
  | _ => none

namespace Link

def message? (s : Link) : Writer → Option DigMessage
  | .call c => (s.calls[c]?).bind Call.message?
  | .post p => (s.posts[p]?).map Post.message

def sendPhase? (s : Link) : Writer → Option SendPhase
  | .call c => (s.calls[c]?).bind Call.sendPhase?
  | .post p => (s.posts[p]?).bind Post.sendPhase?

end Link

theorem Call.message?_eq_some_iff : call.message? = some m ↔
    ∃ k stage, call.phase = .registered k stage ∧ call.message k = m := by
  unfold Call.message?
  split <;> simp_all

theorem Correlator.Continues.message? (h : Continues call call') (hm : call.message? = some m) :
    call'.message? = some m := by
  obtain ⟨k, stage, hp, rfl⟩ := Call.message?_eq_some_iff.1 hm
  obtain ⟨stage', hp'⟩ := h.registered k stage hp
  refine Call.message?_eq_some_iff.2 ⟨k, stage', hp', ?_⟩
  simp [Call.message, h.opcode, h.data]

theorem Link.message?_call {stage : Stage} (hc : s.calls[c]? = some call) (hp : call.phase = .registered k stage) :
    s.message? (.call c) = some (call.message k) :=
  Option.bind_eq_some_iff.2 ⟨call, hc, Call.message?_eq_some_iff.2 ⟨k, stage, hp, rfl⟩⟩

theorem Link.message?_post {p : ℕ} {post : Post} (hpost : s.posts[p]? = some post) :
    s.message? (.post p) = some post.message :=
  Option.map_eq_some_iff.2 ⟨post, hpost, rfl⟩

theorem exists_message?_of_sendPhase? (hp : s.sendPhase? w = some phase) : ∃ m, s.message? w = some m := by
  cases w with
  | call c =>
    obtain ⟨call, hc, hphase⟩ := Option.bind_eq_some_iff.1 hp
    unfold Call.sendPhase? at hphase
    split at hphase
    · rename_i hcall
      exact ⟨_, Link.message?_call hc hcall⟩
    · cases hphase
  | post p =>
    obtain ⟨post, hpost, -⟩ := Option.bind_eq_some_iff.1 hp
    exact ⟨_, Link.message?_post hpost⟩

/-! ## Steps -/

/-- **A writer keeps its message.** -/
theorem message?_of_step (h : s.step a = some s') (hm : s.message? w = some m) : s'.message? w = some m := by
  cases w with
  | call c =>
    obtain ⟨call, hc, hm⟩ := Option.bind_eq_some_iff.1 hm
    obtain ⟨call', hc', hcont⟩ := (step_effect h).continues hc
    exact Option.bind_eq_some_iff.2 ⟨call', hc', hcont.message? hm⟩
  | post p =>
    obtain ⟨post, hp, rfl⟩ := Option.map_eq_some_iff.1 hm
    have hset : ∀ {q : ℕ} {post₁ post₂ : Post}, s.posts[q]? = some post₁ → post₂.message = post₁.message →
        ((s.posts.set q post₂)[p]?).map Post.message = some post.message := by
      intro q post₁ post₂ hq hmessage
      by_cases hqp : q = p
      · subst hqp
        rw [hp] at hq
        cases hq
        simp [List.getElem?_set_self (List.getElem?_eq_some_iff.1 hp).1, hmessage]
      · simp [List.getElem?_set_ne hqp, hp]
    cases Link.stepped_of_step h with
    | postSend hq | postAbandon hq => exact hset hq rfl
    | post m => simp [Link.message?, List.getElem?_append_left (List.getElem?_eq_some_iff.1 hp).1, hp]
    | deliver => simpa [Link.message?] using hm
    | request | callSend | callStep | close | inbound | handoff | release | recv | closeApp => exact hm

def Writer.sends (e : SendEvent) : Writer → Action
  | .call c => .call c (.send e)
  | .post p => .postStep p (.send e)

/-- What a step does to the sends. -/
inductive SendStep (s : Link) (a : Action) (s' : Link) : Prop
  | quiet (ho : s'.outlet = s.outlet)
      (hp : ∀ w phase, s'.sendPhase? w = some phase →
        s.sendPhase? w = some phase ∨ phase = .admitting ∧ s.message? w = none)
  | sends {w : Writer} {m : DigMessage} {phase : SendPhase} {e : SendEvent} {progress : Progress}
      (hm : s.message? w = some m) (hp : s.sendPhase? w = some phase)
      (hs : s.outlet.send w m phase e = some (progress, s'.outlet))
      (hw : ∀ phase', s'.sendPhase? w = some phase' → progress = .at phase')
      (hother : ∀ w', w' ≠ w → s'.sendPhase? w' = s.sendPhase? w')
      (hl : s.sinkAllows e = true) (ha : a = w.sends e)

theorem sendStep_call (h : s.step a = some s') (ha : ∀ c e, a ≠ .call c (.send e))
    (hp : s'.sendPhase? (.call c) = some phase) :
    s.sendPhase? (.call c) = some phase ∨ phase = .admitting ∧ s.message? (.call c) = none := by
  obtain ⟨call', hc', hphase⟩ := Option.bind_eq_some_iff.1 hp
  cases (step_effect h).callFrom hc' with
  | new _ _ hnew => subst hnew; cases hphase
  | same hc => exact Or.inl (Option.bind_eq_some_iff.2 ⟨call', hc, hphase⟩)
  | handed _ _ _ hc hcall | orphaned _ hc _ _ _ _ hcall =>
    subst hcall
    exact Or.inl (Option.bind_eq_some_iff.2 ⟨_, hc, hphase⟩)
  | own ha' hc ho =>
    cases ho with
    | send => exact absurd ha' (ha _ _)
    | insert hinserting =>
      cases hphase
      exact Or.inr ⟨rfl, by simp [Link.message?, hc, Call.message?, hinserting]⟩
    | acquire | receive | expire | cancel | finish | withdraw | abandon => cases hphase

theorem step_send (h : s.step a = some s') : SendStep s a s' := by
  -- a step that leaves the sink, the limiter and the posts alone
  have hquiet : (∀ c e, a ≠ .call c (.send e)) → s'.outlet = s.outlet → s'.posts = s.posts → SendStep s a s' := by
    intro ha houtlet hposts
    refine .quiet houtlet fun w phase hp => ?_
    cases w with
    | call c => exact sendStep_call h ha hp
    | post q =>
      rw [Link.sendPhase?, hposts] at hp
      exact Or.inl hp
  cases Link.stepped_of_step h with
  | @callSend c e call k phase progress outlet hc hphase hsend hl =>
    refine .sends (w := .call c) (Link.message?_call hc hphase) ?_ hsend (fun phase' hp' => ?_) (fun w' hne => ?_) hl rfl
    · simp [Link.sendPhase?, hc, Call.sendPhase?, hphase]
    · simp only [Link.sendPhase?, modifyCall, List.getElem?_modify, hc] at hp'
      cases progress <;> simp_all [Call.sendPhase?, Call.goTo, Stage.ofProgress]
    · cases w' with
      | call c' =>
        have hcc : c ≠ c' := fun hcc => hne (by rw [hcc])
        simp [Link.sendPhase?, modifyCall, hcc]
      | post p => rfl
  | @postSend p e post phase progress outlet hpost hphase hsend hl =>
    have hlt := (List.getElem?_eq_some_iff.1 hpost).1
    refine .sends (w := .post p) (Link.message?_post hpost) ?_ hsend (fun phase' hp' => ?_) (fun w' hne => ?_) hl rfl
    · simp [Link.sendPhase?, hpost, Post.sendPhase?, hphase]
    · simp only [Link.sendPhase?, List.getElem?_set_self hlt] at hp'
      cases progress <;> simp_all [Post.sendPhase?, PostPhase.ofProgress]
    · cases w' with
      | call c => rfl
      | post q =>
        have hpq : p ≠ q := fun hpq => hne (by rw [hpq])
        simp [Link.sendPhase?, List.getElem?_set_ne hpq]
  | @postAbandon p post phase hpost hphase =>
    refine .quiet rfl fun w phase' hp' => Or.inl ?_
    cases w with
    | call c => exact hp'
    | post q =>
      by_cases hpq : p = q
      · subst hpq
        simp [Link.sendPhase?, List.getElem?_set_self (List.getElem?_eq_some_iff.1 hpost).1, Post.sendPhase?] at hp'
      · simpa [Link.sendPhase?, List.getElem?_set_ne hpq] using hp'
  | post m =>
    refine .quiet rfl fun w phase hp => ?_
    cases w with
    | call c => exact Or.inl hp
    | post q =>
      obtain ⟨post, hq, hphase⟩ := Option.bind_eq_some_iff.1 hp
      rcases getElem?_concat_eq_some.1 hq with hq | ⟨rfl, rfl⟩
      · exact Or.inl (Option.bind_eq_some_iff.2 ⟨post, hq, hphase⟩)
      · cases hphase
        exact Or.inr ⟨rfl, by simp [Link.message?]⟩
  | callStep he => exact hquiet (fun _ e ha => by cases ha; exact he e rfl) rfl rfl
  | deliver => exact hquiet (fun _ _ ha => by cases ha) (Link.deliver_outlet _ _) (Link.deliver_posts _ _)
  | request | close | inbound | handoff | release | recv | closeApp => exact hquiet (fun _ _ ha => by cases ha) rfl rfl

/-! ## The sink -/

/-- A step of a send asks the limiter, writes its message, or does neither. -/
theorem Outlet.send_cases {o o' : Outlet} {e : SendEvent} {progress : Progress}
    (h : o.send w m phase e = some (progress, o')) :
    (phase = .admitting ∧ o'.sink = o.sink ∧ ∃ now, o'.limiter = (o.limiter.admitAt now m).2 ∧
      ∀ phase', progress = .at phase' → phase'.toFeed = true → (o.limiter.admitAt now m).1 = .admitted) ∨
    (o' = o ∧ ∀ phase', progress = .at phase' →
      phase' = .admitting ∧ phase = .deferred ∨ phase' = .feeding ∧ phase = .writing) ∨
    (phase = .feeding ∧ progress = .at .flushing ∧ o' = { o with sink := o.sink ++ [⟨w, m.toBytes⟩] }) := by
  unfold Outlet.send at h
  split at h
  · rename_i now
    cases h
    refine Or.inl ⟨rfl, rfl, now, rfl, ?_⟩
    unfold Progress.ofAdmission
    split
    · rename_i hverdict
      exact fun _ _ _ => hverdict
    · exact fun _ h => by cases h
    · exact fun _ h htoFeed => by cases h; cases htoFeed
  · cases h; exact Or.inr (Or.inl ⟨rfl, fun _ h => by cases h; exact Or.inl ⟨rfl, rfl⟩⟩)
  · cases h; exact Or.inr (Or.inl ⟨rfl, fun _ h => by cases h⟩)
  · cases h; exact Or.inr (Or.inl ⟨rfl, fun _ h => by cases h; exact Or.inr ⟨rfl, rfl⟩⟩)
  · cases h; exact Or.inr (Or.inr ⟨rfl, rfl, rfl⟩)
  · cases h; exact Or.inr (Or.inl ⟨rfl, fun _ h => by cases h⟩)
  · cases h; exact Or.inr (Or.inl ⟨rfl, fun _ h => by cases h⟩)
  · cases h; exact Or.inr (Or.inl ⟨rfl, fun _ h => by cases h⟩)
  · cases h

theorem OpcodeRateLimiter.size_le_of_admitted {l : OpcodeRateLimiter} {now : ℕ}
    (h : (l.admitAt now m).1 = .admitted) : m.size ≤ (l.limits.limit m.msgType).maxSize := by
  rw [admitAt_fst, verdict_eq_admitted_iff, rollWindow_limits] at h
  exact h.1.1

theorem OpcodeRateLimiter.admitAt_limits (l : OpcodeRateLimiter) (now : ℕ) (m : DigMessage) :
    (l.admitAt now m).2.limits = l.limits := by
  have hbuilt : BuiltWith l.direction l.resetSeconds l.limitFactor l.limits l := ⟨rfl, rfl, rfl, rfl⟩
  exact (hbuilt.admitAt now m).limits

theorem sink_prefix_of_step (h : s.step a = some s') : s.outlet.sink <+: s'.outlet.sink := by
  cases step_send h with
  | quiet ho => rw [ho]
  | sends hm hp hs =>
    rcases Outlet.send_cases hs with ⟨-, hsink, -⟩ | ⟨ho, -⟩ | ⟨-, -, ho⟩
    · rw [hsink]
    · rw [ho]
    · rw [ho]
      exact List.prefix_append _ _

/-- **What is in the sink**: of each writer one frame at most, its message's encoding, of a size the table allows. -/
structure Link.Sent (limits : OpcodeRateLimits) (s : Link) : Prop where
  table     : s.outlet.limiter.limits = limits
  written   : ∀ x ∈ s.outlet.sink, ∃ m, s.message? x.writer = some m ∧ x.frame = m.toBytes ∧
    m.size ≤ (limits.limit m.msgType).maxSize
  once      : (s.outlet.sink.map Written.writer).Nodup
  unwritten : ∀ w phase, s.sendPhase? w = some phase → phase ≠ .flushing → w ∉ s.outlet.sink.map Written.writer
  admitted  : ∀ w phase, s.sendPhase? w = some phase → phase.toFeed = true → ∃ m, s.message? w = some m ∧
    m.size ≤ (limits.limit m.msgType).maxSize

theorem Link.Sent.of_sink_eq (hs : s.Sent limits) (h : s.step a = some s') (htable : s'.outlet.limiter.limits = limits)
    (hsink : s'.outlet.sink = s.outlet.sink)
    (hp : ∀ w phase, s'.sendPhase? w = some phase → phase ≠ .flushing →
      s.sendPhase? w = some phase ∨ w ∉ s.outlet.sink.map Written.writer ∧ (phase.toFeed = true →
        ∃ m, s.message? w = some m ∧ m.size ≤ (limits.limit m.msgType).maxSize)) : s'.Sent limits := by
  refine ⟨htable, fun x hx => ?_, by rw [hsink]; exact hs.once, fun w phase hphase hne => ?_,
    fun w phase hphase hfeed => ?_⟩
  · rw [hsink] at hx
    obtain ⟨m, hm, hf, hsize⟩ := hs.written x hx
    exact ⟨m, message?_of_step h hm, hf, hsize⟩
  · rw [hsink]
    rcases hp w phase hphase hne with hphase | ⟨hnot, -⟩
    · exact hs.unwritten w phase hphase hne
    · exact hnot
  · have hne : phase ≠ .flushing := fun hne => by rw [hne] at hfeed; cases hfeed
    rcases hp w phase hphase hne with hphase | ⟨-, hadmitted⟩
    · obtain ⟨m, hm, hsize⟩ := hs.admitted w phase hphase hfeed
      exact ⟨m, message?_of_step h hm, hsize⟩
    · obtain ⟨m, hm, hsize⟩ := hadmitted hfeed
      exact ⟨m, message?_of_step h hm, hsize⟩

theorem Link.Sent.notMem_of_message? (hs : s.Sent limits) (hnone : s.message? w = none) :
    w ∉ s.outlet.sink.map Written.writer := by
  intro hw
  obtain ⟨x, hx, rfl⟩ := List.mem_map.1 hw
  obtain ⟨m, hm, -⟩ := hs.written x hx
  rw [hnone] at hm
  cases hm

theorem Link.Sent.step (hs : s.Sent limits) (h : s.step a = some s') : s'.Sent limits := by
  cases step_send h with
  | quiet ho hp =>
    refine hs.of_sink_eq h (by rw [ho, hs.table]) (by rw [ho]) fun w phase hphase _ => ?_
    rcases hp w phase hphase with hphase | ⟨rfl, hnone⟩
    · exact Or.inl hphase
    · exact Or.inr ⟨hs.notMem_of_message? hnone, fun hfeed => by cases hfeed⟩
  | @sends w m phase e progress hm hphase hsend hw hother =>
    have hsame : ∀ w' phase', s'.sendPhase? w' = some phase' →
        s.sendPhase? w' = some phase' ∨ w' = w ∧ progress = .at phase' := by
      intro w' phase' hphase'
      by_cases hne : w' = w
      · subst hne
        exact Or.inr ⟨rfl, hw phase' hphase'⟩
      · rw [hother w' hne] at hphase'
        exact Or.inl hphase'
    rcases Outlet.send_cases hsend with ⟨rfl, hsink, now, hlimiter, hadmitted⟩ | ⟨houtlet, hphases⟩ | ⟨rfl, rfl, houtlet⟩
    · refine hs.of_sink_eq h ?_ hsink fun w' phase' hphase' _ => ?_
      · rw [hlimiter, OpcodeRateLimiter.admitAt_limits, hs.table]
      · rcases hsame w' phase' hphase' with hphase' | ⟨rfl, hprogress⟩
        · exact Or.inl hphase'
        · refine Or.inr ⟨hs.unwritten w' _ hphase (by simp), fun hfeed => ⟨m, hm, ?_⟩⟩
          have hsize := OpcodeRateLimiter.size_le_of_admitted (hadmitted phase' hprogress hfeed)
          rwa [hs.table] at hsize
    · refine hs.of_sink_eq h (by rw [houtlet, hs.table]) (by rw [houtlet]) fun w' phase' hphase' _ => ?_
      rcases hsame w' phase' hphase' with hphase' | ⟨rfl, hprogress⟩
      · exact Or.inl hphase'
      · rcases hphases phase' hprogress with ⟨rfl, rfl⟩ | ⟨rfl, rfl⟩
        · exact Or.inr ⟨hs.unwritten w' _ hphase (by simp), fun hfeed => by cases hfeed⟩
        · exact Or.inr ⟨hs.unwritten w' _ hphase (by simp), fun _ => hs.admitted w' _ hphase rfl⟩
    · have hnot := hs.unwritten w _ hphase (by simp)
      have hsink : s'.outlet.sink = s.outlet.sink ++ [⟨w, m.toBytes⟩] := by rw [houtlet]
      obtain ⟨m', hm', hsize⟩ := hs.admitted w _ hphase rfl
      rw [hm] at hm'
      cases hm'
      refine ⟨by rw [houtlet]; exact hs.table, fun x hx => ?_, ?_, fun w' phase' hphase' hne => ?_,
        fun w' phase' hphase' hfeed => ?_⟩
      · rw [hsink, List.mem_append, List.mem_singleton] at hx
        rcases hx with hx | rfl
        · obtain ⟨m', hm', hf, hsize'⟩ := hs.written x hx
          exact ⟨m', message?_of_step h hm', hf, hsize'⟩
        · exact ⟨m, message?_of_step h hm, rfl, hsize⟩
      · rw [hsink, List.map_append]
        exact List.Nodup.append hs.once (by simp) (by simpa using hnot)
      · have hne' : w' ≠ w := by
          rintro rfl
          cases hw phase' hphase'
          exact hne rfl
        rw [hother w' hne'] at hphase'
        simpa [hsink, hne'] using hs.unwritten w' phase' hphase' hne
      · rcases hsame w' _ hphase' with hphase' | ⟨rfl, hprogress⟩
        · obtain ⟨m', hm', hsize'⟩ := hs.admitted w' phase' hphase' hfeed
          exact ⟨m', message?_of_step h hm', hsize'⟩
        · cases hprogress
          cases hfeed

theorem sent_of_runs (h : Runs Link.step (Link.fromParts now factor limits) tr s) : s.Sent limits := by
  apply h.invariant (P := Link.Sent limits)
  · refine ⟨rfl, fun x hx => (by cases hx), .nil, fun w phase hp => ?_, fun w phase hp => ?_⟩
    all_goals cases w <;> simp [Link.sendPhase?, Link.fromParts] at hp
  · intro s a s' hs hstep
    exact hs.step hstep

end Dig
