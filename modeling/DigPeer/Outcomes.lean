import DigPeer.Cleanup
import DigPeer.Typed
/-!
# Outcomes — what the result of a send says of the sink

A writer that has left `send_message` has a result, and a call keeps it through its wait and its clean-up.  The result
is a receipt: `Ok` for one frame and no more, a refusal for none, and the opcode, the length and the table that a
refusal speaks of are the message's own (`receipts_of_runs`).
-/
namespace Dig

open Correlator Lts

variable {tr : List (Link × Action)} {s s' t : Link} {a : Action} {c : CallId} {call call' : Call} {k : UInt16}
  {m m' : DigMessage} {w w' : Writer} {phase : SendPhase} {progress : Progress} {e : SendEvent} {o o' : Outlet}
  {r : Except LinkError Unit} {now : ℕ} {factor : ℚ} {limits : OpcodeRateLimits}

/-! ## Results -/

def LinkError.isSend : LinkError → Bool
  | .unsendable _ _ | .sendTimeout _ | .webSocket => true
  | _                                             => false

def Progress.result? : Progress → Option (Except LinkError Unit)
  | .at _         => none
  | .failed error => some (.error error)
  | .sent         => some (.ok ())

/-- What the send of a call in this stage has come to; the other errors are of calls whose message was sent. -/
def Stage.sendResult? : Stage → Option (Except LinkError Unit)
  | .sending _ | .dropped                          => none
  | .waiting | .expired | .returned (.ok _)        => some (.ok ())
  | .cancelling error                              => some (.error error)
  | .reclaimed _ error | .returned (.error error)  => some (if error.isSend then .error error else .ok ())

def Call.sendResult? (call : Call) : Option (Except LinkError Unit) :=
  match call.phase with
  | .registered _ stage => stage.sendResult?
  | _                   => none

def Post.sendResult? (post : Post) : Option (Except LinkError Unit) :=
  match post.phase with
  | .returned result => some result
  | _                => none

namespace Link

/-- The result of a writer's `send_message`, once it has one. -/
def sendResult? (s : Link) : Writer → Option (Except LinkError Unit)
  | .call c => (s.calls[c]?).bind Call.sendResult?
  | .post p => (s.posts[p]?).bind Post.sendResult?

def framesOf (s : Link) (w : Writer) : List Written := s.outlet.sink.filter (·.writer = w)

/-- What a result says of the message and of the sink. -/
def Receipt (s : Link) (factor : ℚ) (limits : OpcodeRateLimits) (w : Writer) (m : DigMessage) :
    Except LinkError Unit → Prop
  | .ok ()                          => s.framesOf w = [⟨w, m.toBytes⟩]
  | .error .webSocket               => s.framesOf w = [] ∨ s.framesOf w = [⟨w, m.toBytes⟩]
  | .error (.unsendable opcode len) => s.framesOf w = [] ∧ opcode = m.msgType ∧ len = m.data.length ∧
    ¬ limits.FitsAnEmptyWindow factor m
  | .error (.sendTimeout opcode)    => s.framesOf w = [] ∧ opcode = m.msgType ∧ limits.FitsAnEmptyWindow factor m
  | .error _                        => False

/-- What the result of a request says of them: an error that is not of its send comes after it. -/
def CallReceipt (s : Link) (factor : ℚ) (limits : OpcodeRateLimits) (w : Writer) (m : DigMessage) :
    Except LinkError DigMessage → Prop
  | .ok _        => s.Receipt factor limits w m (.ok ())
  | .error error => s.Receipt factor limits w m (if error.isSend then .error error else .ok ())

end Link

theorem Link.Receipt.isSend {error : LinkError} (h : s.Receipt factor limits w m (.error error)) :
    error.isSend = true := by
  cases error <;> first | rfl | cases h

theorem Link.Receipt.congr (h : s.Receipt factor limits w m r) (hf : s'.framesOf w = s.framesOf w) :
    s'.Receipt factor limits w m r := by
  unfold Receipt at h ⊢
  rw [hf]
  exact h

theorem Outlet.send_result (h : o.send w m phase e = some (progress, o')) (hr : progress.result? = some r) :
    o'.sink = o.sink ∧
    ((phase = .admitting ∧ (∃ now, (o.limiter.admitAt now m).1 = .unsendable) ∧
        r = .error (.unsendable m.msgType m.data.length)) ∨
      (phase = .deferred ∧ r = .error (.sendTimeout m.msgType)) ∨
      (phase = .feeding ∧ r = .error .webSocket) ∨
      (phase = .flushing ∧ (r = .ok () ∨ r = .error .webSocket))) := by
  unfold Outlet.send at h
  split at h
  · rename_i now
    cases h
    refine ⟨rfl, Or.inl ⟨rfl, ⟨now, ?_⟩, ?_⟩⟩ <;>
      cases hverdict : (o.limiter.rollWindow now).verdict m <;>
        simp_all [Progress.ofAdmission, Progress.result?, OpcodeRateLimiter.admitAt_fst]
  all_goals cases h
  all_goals cases hr
  all_goals simp

theorem Stage.sendResult?_ofProgress : (Stage.ofProgress progress).sendResult? = progress.result? := by
  cases progress <;> rfl

theorem sendResult_of_callSend (h : s.step (.call c (.send e)) = some s') (hr : s'.sendResult? (.call c) = some r) :
    ∃ m phase e progress, s.message? (.call c) = some m ∧ s.sendPhase? (.call c) = some phase ∧
      s.outlet.send (.call c) m phase e = some (progress, s'.outlet) ∧ progress.result? = some r := by
  cases Link.stepped_of_step h with
  | @callSend _ _ call k phase progress outlet hc hp hs =>
    refine ⟨_, _, _, _, Link.message?_call hc hp, ?_, hs, ?_⟩
    · simp [Link.sendPhase?, hc, Call.sendPhase?, hp]
    · simpa [Link.sendResult?, modifyCall, hc, Call.sendResult?, Call.goTo, Stage.sendResult?_ofProgress] using hr
  | callStep he => exact absurd rfl (he _)

/-- **A result is the one there was, or that of the send taking its last step.** -/
theorem sendResult_of_step (h : s.step a = some s') (hr : s'.sendResult? w = some r)
    (hsend : ∀ error, s.sendResult? w = some (.error error) → error.isSend = true) :
    s.sendResult? w = some r ∨ ∃ m phase e progress, s.message? w = some m ∧ s.sendPhase? w = some phase ∧
      s.outlet.send w m phase e = some (progress, s'.outlet) ∧ progress.result? = some r := by
  cases w with
  | call c =>
    obtain ⟨call', hc', hr'⟩ := Option.bind_eq_some_iff.1 hr
    by_cases hown : ∃ e, a = .call c (.send e)
    · obtain ⟨e, rfl⟩ := hown
      exact Or.inr (sendResult_of_callSend h hr)
    rw [not_exists] at hown
    cases (step_effect h).callFrom hc' with
    | new _ _ hnew => subst hnew; cases hr'
    | same hc => exact Or.inl (Option.bind_eq_some_iff.2 ⟨call', hc, hr'⟩)
    | handed _ _ _ hc hcall | orphaned _ hc _ _ _ _ hcall =>
      subst hcall
      exact Or.inl (Option.bind_eq_some_iff.2 ⟨_, hc, hr'⟩)
    | @own _ call ha hc ho =>
      have hold : ∀ {k stage}, call.phase = .registered k stage → s.sendResult? (.call c) = stage.sendResult? := by
        intro k stage hp
        simp [Link.sendResult?, hc, Call.sendResult?, hp]
      cases ho with
      | acquire | insert | withdraw | abandon => cases hr'
      | send => exact absurd ha (hown _)
      | @receive id result hp hpoll =>
        refine Or.inl ((hold hp).trans ?_)
        cases result with
        | ok m => exact hr'
        | error error =>
          obtain rfl : error = .recv := by
            unfold Oneshot.poll at hpoll
            split at hpoll <;> cases hpoll
            rfl
          exact hr'
      | expire hp => exact Or.inl ((hold hp).trans hr')
      | @cancel id stage error hp hs =>
        refine Or.inl ((hold hp).trans ?_)
        rcases hs with rfl | ⟨rfl, rfl⟩
        · have herror : error.isSend = true := hsend error (hold hp)
          rw [← hr']
          simp [Call.sendResult?, Call.goTo, Stage.sendResult?, herror]
        · rw [← hr']
          have herror : (expiryError call (s.lookup id)).isSend = false := by unfold expiryError; split <;> rfl
          simp [Call.sendResult?, Call.goTo, Stage.sendResult?, herror]
      | finish hp hcall => exact Or.inl ((hold hp).trans hr')
  | post p =>
    obtain ⟨post', hp', hr'⟩ := Option.bind_eq_some_iff.1 hr
    have hsame : s'.posts = s.posts → s.sendResult? (.post p) = some r := by
      intro hposts
      rw [Link.sendResult?, hposts] at hr
      exact hr
    cases Link.stepped_of_step h with
    | @postSend q e post phase progress outlet hpost hphase hs =>
      by_cases hqp : q = p
      · subst hqp
        refine Or.inr ⟨_, _, _, _, Link.message?_post hpost, ?_, hs, ?_⟩
        · simp [Link.sendPhase?, hpost, Post.sendPhase?, hphase]
        · rw [List.getElem?_set_self (List.getElem?_eq_some_iff.1 hpost).1] at hp'
          cases hp'
          cases progress <;> exact hr'
      · rw [List.getElem?_set_ne hqp] at hp'
        exact Or.inl (Option.bind_eq_some_iff.2 ⟨post', hp', hr'⟩)
    | @postAbandon q post phase hpost hphase =>
      by_cases hqp : q = p
      · subst hqp
        rw [List.getElem?_set_self (List.getElem?_eq_some_iff.1 hpost).1] at hp'
        cases hp'
        cases hr'
      · rw [List.getElem?_set_ne hqp] at hp'
        exact Or.inl (Option.bind_eq_some_iff.2 ⟨post', hp', hr'⟩)
    | post m =>
      rcases getElem?_concat_eq_some.1 hp' with hp' | ⟨-, rfl⟩
      · exact Or.inl (Option.bind_eq_some_iff.2 ⟨post', hp', hr'⟩)
      · cases hr'
    | deliver => exact Or.inl (hsame (Link.deliver_posts _ _))
    | request | callSend | callStep | close | inbound | handoff | release | recv | closeApp => exact Or.inl (hsame rfl)

/-! ## Receipts -/

theorem exists_message?_of_sendResult? (hr : s.sendResult? w = some r) : ∃ m, s.message? w = some m := by
  cases w with
  | call c =>
    obtain ⟨call, hc, hresult⟩ := Option.bind_eq_some_iff.1 hr
    unfold Call.sendResult? at hresult
    split at hresult
    · rename_i hcall
      exact ⟨_, Link.message?_call hc hcall⟩
    · cases hresult
  | post p =>
    obtain ⟨post, hpost, -⟩ := Option.bind_eq_some_iff.1 hr
    exact ⟨_, Link.message?_post hpost⟩

theorem framesOf_eq_nil_iff : s.framesOf w = [] ↔ w ∉ s.outlet.sink.map Written.writer := by
  simp [Link.framesOf, List.filter_eq_nil_iff]

theorem framesOf_of_sink (h : s'.outlet.sink = s.outlet.sink) : s'.framesOf w = s.framesOf w := by
  rw [Link.framesOf, Link.framesOf, h]

theorem framesOf_concat {x : Written} (h : s'.outlet.sink = s.outlet.sink ++ [x]) :
    s'.framesOf w = s.framesOf w ++ if x.writer = w then [x] else [] := by
  rw [Link.framesOf, h, List.filter_append, Link.framesOf]
  by_cases hw : x.writer = w <;> simp [hw]

theorem builtWith_of_link_runs (h : Runs Link.step (Link.fromParts now factor limits) tr t) :
    OpcodeRateLimiter.BuiltWith .outbound rateLimitWindowSeconds factor limits t.outlet.limiter := by
  apply h.invariant (P := fun s : Link =>
    OpcodeRateLimiter.BuiltWith .outbound rateLimitWindowSeconds factor limits s.outlet.limiter)
  · exact OpcodeRateLimiter.builtWith_new now
  · intro s a s' hs hstep
    rw [limiter_of_step hstep]
    split
    · exact hs
    · exact hs.admitAt _ _

structure Link.Receipts (factor : ℚ) (limits : OpcodeRateLimits) (s : Link) : Prop where
  flushing : ∀ w m, s.message? w = some m → s.sendPhase? w = some .flushing → s.framesOf w = [⟨w, m.toBytes⟩]
  deferred : ∀ w m, s.message? w = some m → s.sendPhase? w = some .deferred → limits.FitsAnEmptyWindow factor m
  results  : ∀ w m r, s.message? w = some m → s.sendResult? w = some r → s.Receipt factor limits w m r

theorem Link.Receipts.isSend (hs : s.Receipts factor limits) {error : LinkError}
    (hr : s.sendResult? w = some (.error error)) : error.isSend = true := by
  obtain ⟨m, hm⟩ := exists_message?_of_sendResult? hr
  exact (hs.results w m _ hm hr).isSend

theorem message?_unique_of_step (h : s.step a = some s') (hm : s.message? w = some m) (hm' : s'.message? w = some m') :
    m' = m := by
  rw [message?_of_step h hm] at hm'
  cases hm'
  rfl

theorem Outlet.send_flushing (h : o.send w m phase e = some (.at .flushing, o')) :
    phase = .feeding ∧ o'.sink = o.sink ++ [⟨w, m.toBytes⟩] := by
  unfold Outlet.send at h
  split at h
  · rename_i now
    cases hverdict : (o.limiter.admitAt now m).1 <;> simp [Progress.ofAdmission, hverdict] at h
  all_goals cases h
  exact ⟨rfl, rfl⟩

theorem Outlet.send_deferred (h : o.send w m phase e = some (.at .deferred, o')) :
    ∃ now, (o.limiter.admitAt now m).1 = .deferred := by
  unfold Outlet.send at h
  split at h
  · rename_i now
    refine ⟨now, ?_⟩
    cases hverdict : (o.limiter.admitAt now m).1 <;> simp [Progress.ofAdmission, hverdict] at h ⊢
  all_goals cases h

theorem framesOf_of_send (h : s.outlet.send w' m phase e = some (progress, s'.outlet)) (hw : w ≠ w') :
    s'.framesOf w = s.framesOf w := by
  rcases Outlet.send_cases h with ⟨-, hsink, -⟩ | ⟨ho, -⟩ | ⟨-, -, ho⟩
  · exact framesOf_of_sink hsink
  · exact framesOf_of_sink (by rw [ho])
  · have hsink : s'.outlet.sink = s.outlet.sink ++ [⟨w', m.toBytes⟩] := by rw [ho]
    rw [framesOf_concat hsink, if_neg (Ne.symm hw), List.append_nil]

/-- **The last step of a send gives a true receipt.** -/
theorem receipt_of_send (hs : s.Receipts factor limits) (hsent : s.Sent limits)
    (hbuilt : OpcodeRateLimiter.BuiltWith .outbound rateLimitWindowSeconds factor limits s.outlet.limiter)
    (hm : s.message? w = some m) (hp : s.sendPhase? w = some phase)
    (hsend : s.outlet.send w m phase e = some (progress, s'.outlet)) (hr : progress.result? = some r) :
    s'.Receipt factor limits w m r := by
  obtain ⟨hsink, hfrom⟩ := Outlet.send_result hsend hr
  have hframes := framesOf_of_sink (w := w) hsink
  have hnone : phase ≠ .flushing → s'.framesOf w = [] := fun hne =>
    hframes.trans (framesOf_eq_nil_iff.2 (hsent.unwritten w phase hp hne))
  rcases hfrom with ⟨rfl, ⟨now, hverdict⟩, rfl⟩ | ⟨rfl, rfl⟩ | ⟨rfl, rfl⟩ | ⟨rfl, hr⟩
  · exact ⟨hnone (by simp), rfl, rfl, (OpcodeRateLimiter.admitAt_eq_unsendable_iff hbuilt).1 hverdict⟩
  · exact ⟨hnone (by simp), rfl, hs.deferred w m hm hp⟩
  · exact Or.inl (hnone (by simp))
  · have hwritten := hframes.trans (hs.flushing w m hm hp)
    rcases hr with rfl | rfl
    · exact hwritten
    · exact Or.inr hwritten

theorem sendResult?_of_sendPhase? (hp : s.sendPhase? w = some phase) : s.sendResult? w = none := by
  cases w with
  | call c =>
    obtain ⟨call, hc, hphase⟩ := Option.bind_eq_some_iff.1 hp
    unfold Call.sendPhase? at hphase
    split at hphase
    · rename_i hcall
      simp [Link.sendResult?, hc, Call.sendResult?, hcall, Stage.sendResult?]
    · cases hphase
  | post p =>
    obtain ⟨post, hpost, hphase⟩ := Option.bind_eq_some_iff.1 hp
    unfold Post.sendPhase? at hphase
    split at hphase
    · rename_i hsending
      simp [Link.sendResult?, hpost, Post.sendResult?, hsending]
    · cases hphase

theorem Link.Receipts.phase_of_same (hs : s.Receipts factor limits) (h : s.step a = some s')
    (hphase : s.sendPhase? w = some phase) (hframes : s'.framesOf w = s.framesOf w) (hm : s'.message? w = some m) :
    (phase = .flushing → s'.framesOf w = [⟨w, m.toBytes⟩]) ∧
    (phase = .deferred → limits.FitsAnEmptyWindow factor m) := by
  obtain ⟨m₀, hm₀⟩ := exists_message?_of_sendPhase? hphase
  obtain rfl := message?_unique_of_step h hm₀ hm
  refine ⟨?_, ?_⟩
  · rintro rfl
    exact hframes.trans (hs.flushing w m hm₀ hphase)
  · rintro rfl
    exact hs.deferred w m hm₀ hphase

theorem Link.Receipts.result_of_same (hs : s.Receipts factor limits) (h : s.step a = some s')
    (hr : s.sendResult? w = some r) (hframes : s'.framesOf w = s.framesOf w) (hm : s'.message? w = some m) :
    s'.Receipt factor limits w m r := by
  obtain ⟨m₀, hm₀⟩ := exists_message?_of_sendResult? hr
  obtain rfl := message?_unique_of_step h hm₀ hm
  exact (hs.results w m r hm₀ hr).congr hframes

theorem Link.Receipts.step (hs : s.Receipts factor limits) (hsent : s.Sent limits)
    (hbuilt : OpcodeRateLimiter.BuiltWith .outbound rateLimitWindowSeconds factor limits s.outlet.limiter)
    (h : s.step a = some s') : s'.Receipts factor limits := by
  have hresults : (∀ w r, s.sendResult? w = some r → s'.framesOf w = s.framesOf w) →
      ∀ w m r, s'.message? w = some m → s'.sendResult? w = some r → s'.Receipt factor limits w m r := by
    intro hframes w m r hm hr
    rcases sendResult_of_step h hr fun error => hs.isSend with hr | ⟨m₀, phase, e, progress, hm₀, hp, hsend, hr⟩
    · exact hs.result_of_same h hr (hframes w r hr) hm
    · obtain rfl := message?_unique_of_step h hm₀ hm
      exact receipt_of_send hs hsent hbuilt hm₀ hp hsend hr
  cases step_send h with
  | quiet ho hp =>
    have hframes : ∀ w, s'.framesOf w = s.framesOf w := fun w => framesOf_of_sink (by rw [ho])
    refine ⟨fun w m hm hphase => ?_, fun w m hm hphase => ?_, hresults fun w r _ => hframes w⟩
    · rcases hp w _ hphase with hphase | ⟨hnew, -⟩
      · exact (hs.phase_of_same h hphase (hframes w) hm).1 rfl
      · cases hnew
    · rcases hp w _ hphase with hphase | ⟨hnew, -⟩
      · exact (hs.phase_of_same h hphase (hframes w) hm).2 rfl
      · cases hnew
  | @sends w₀ m₀ phase₀ e progress hm₀ hp₀ hsend hw hother =>
    refine ⟨fun w m hm hphase => ?_, fun w m hm hphase => ?_, hresults fun w r hr => ?_⟩
    · by_cases hww : w = w₀
      · subst hww
        obtain rfl := hw _ hphase
        obtain rfl := message?_unique_of_step h hm₀ hm
        obtain ⟨rfl, hsink⟩ := Outlet.send_flushing hsend
        rw [framesOf_concat hsink, framesOf_eq_nil_iff.2 (hsent.unwritten w _ hp₀ (by simp)), if_pos rfl]
        rfl
      · exact (hs.phase_of_same h ((hother w hww).symm.trans hphase) (framesOf_of_send hsend hww) hm).1 rfl
    · by_cases hww : w = w₀
      · subst hww
        obtain rfl := hw _ hphase
        obtain rfl := message?_unique_of_step h hm₀ hm
        obtain ⟨now, hverdict⟩ := Outlet.send_deferred hsend
        refine Decidable.byContradiction fun hnot => ?_
        rw [(OpcodeRateLimiter.admitAt_eq_unsendable_iff hbuilt).2 hnot] at hverdict
        cases hverdict
      · exact (hs.phase_of_same h ((hother w hww).symm.trans hphase) (framesOf_of_send hsend hww) hm).2 rfl
    · refine framesOf_of_send hsend fun hww => ?_
      subst hww
      rw [sendResult?_of_sendPhase? hp₀] at hr
      cases hr

theorem receipts_of_link_runs (h : Runs Link.step (Link.fromParts now factor limits) tr t) :
    t.Receipts factor limits := by
  induction h with
  | start =>
    refine ⟨fun w m hm => ?_, fun w m hm => ?_, fun w m r hm => ?_⟩
    all_goals cases w <;> simp [Link.message?, Link.fromParts] at hm
  | step hrun hstep ih => exact ih.step (sent_of_runs hrun) (builtWith_of_link_runs hrun) hstep

/-! ## What a result says -/

theorem framesOf_of_runs (h : Runs Link.step (Link.fromParts now factor limits) tr t) (hm : t.message? w = some m) :
    t.framesOf w = [] ∨ t.framesOf w = [⟨w, m.toBytes⟩] := by
  have hsent := sent_of_runs h
  have hall : ∀ x ∈ t.framesOf w, x = ⟨w, m.toBytes⟩ := by
    intro x hx
    obtain ⟨hx, hw⟩ := List.mem_filter.1 hx
    obtain ⟨m', hm', hframe, -⟩ := hsent.written x hx
    have hw : x.writer = w := of_decide_eq_true hw
    rw [hw, hm] at hm'
    cases hm'
    cases x
    cases hw
    cases hframe
    rfl
  have hnodup : ((t.framesOf w).map Written.writer).Nodup := hsent.once.sublist (List.filter_sublist.map _)
  rcases hframes : t.framesOf w with _ | ⟨x, _ | ⟨y, rest⟩⟩
  · exact Or.inl rfl
  · rw [hframes] at hall
    exact Or.inr (by rw [hall x List.mem_cons_self])
  · rw [hframes] at hall hnodup
    rw [hall x List.mem_cons_self, hall y (by simp)] at hnodup
    simp at hnodup

/-- **A result is a receipt.**  Every writer has one frame or none.  A `send_message` that has returned `Ok` has written
its message, a refused one nothing, and what the refusal says is so: the opcode and the length are the message's, and no
window admits an unsendable message, while an empty one admits a message that timed out.  A request that has returned
anything but an error of its send has written its message.  The one frame of a body sent with `send` is read as that
body, or not at all where the encoding is over the cap. -/
theorem receipts_of_runs (h : Runs Link.step (Link.fromParts now factor limits) tr t) :
    (∀ w m, t.message? w = some m → t.framesOf w = [] ∨ t.framesOf w = [⟨w, m.toBytes⟩]) ∧
    (∀ (p : ℕ) (post : Post) (result : Except LinkError Unit), t.posts[p]? = some post →
      post.phase = .returned result → t.Receipt factor limits (.post p) post.message result) ∧
    (∀ (c : CallId) (call : Call) (k : UInt16) (result : Except LinkError DigMessage), t.calls[c]? = some call →
      call.phase = .registered k (.returned result) →
        t.CallReceipt factor limits (.call c) (call.message k) result) ∧
    ∀ (ε β : Type) (types : ProtocolMessageTypes ε) (B : ProtocolBody types β) (body : β) (p : ℕ) (post : Post),
      t.posts[p]? = some post → post.phase = .returned (.ok ()) → DigLink.send B body = .ok (.post post.message) →
        limits.FitsHeader → ∃ x m, t.framesOf (.post p) = [x] ∧ B.Carries body none m ∧
          x.decoded = if m.data.length ≤ DigMessage.maxMessageSize then some m else none := by
  have hreceipts := receipts_of_link_runs h
  have hposts : ∀ (p : ℕ) (post : Post) (result : Except LinkError Unit), t.posts[p]? = some post →
      post.phase = .returned result → t.Receipt factor limits (.post p) post.message result := by
    intro p post result hpost hp
    refine hreceipts.results _ _ _ (Link.message?_post hpost) ?_
    simp [Link.sendResult?, hpost, Post.sendResult?, hp]
  refine ⟨fun w m hm => framesOf_of_runs h hm, hposts, fun c call k result hc hp => ?_, ?_⟩
  · have hreceipt := fun r hr => hreceipts.results (.call c) (call.message k) r (Link.message?_call hc hp) hr
    simp only [Link.sendResult?, hc, Option.bind_some, Call.sendResult?, hp] at hreceipt
    cases result with
    | ok m        => exact hreceipt _ rfl
    | error error => exact hreceipt _ rfl
  · intro ε β types B body p post hpost hp hsend hfits
    have hwritten : t.framesOf (.post p) = [⟨.post p, post.message.toBytes⟩] := hposts p post _ hpost hp
    have hx : ⟨.post p, post.message.toBytes⟩ ∈ t.framesOf (.post p) := by rw [hwritten]; exact List.mem_singleton_self _
    exact ⟨_, post.message, hwritten, DigLink.send_eq_ok.1 hsend,
      decoded_of_written (sent_of_runs h) hfits (List.mem_filter.1 hx).1 (Link.message?_post hpost)⟩

theorem posts_of_sendResult? {p : ℕ} (hm : s.message? (.post p) = some m) (hr : s.sendResult? (.post p) = some r) :
    s.posts[p]? = some ⟨m, .returned r⟩ := by
  obtain ⟨⟨message, phase⟩, hpost, hresult⟩ := Option.bind_eq_some_iff.1 hr
  rw [Link.message?_post hpost] at hm
  cases hm
  cases phase <;> cases hresult
  exact hpost

def sentAndRefused : List Action :=
  [.post ⟨63, none, []⟩, .post ⟨220, none, [5, 6, 7]⟩] ++ sendSteps.map (fun e => .postStep 0 (.send e)) ++
    [.postStep 1 (.send (.attempt 0))]

theorem receipts_of_runs_refused : ∃ tr t, Runs Link.step (Link.fromParts 0 1 twoBytes) tr t ∧
    t.framesOf (.post 0) = [⟨.post 0, DigMessage.toBytes ⟨63, none, []⟩⟩] ∧ t.framesOf (.post 1) = [] ∧
    ¬ twoBytes.FitsAnEmptyWindow 1 ⟨220, none, [5, 6, 7]⟩ := by
  have hsome : (run Link.step (Link.fromParts 0 1 twoBytes) sentAndRefused).isSome = true := by decide +kernel
  obtain ⟨-, hposts, -⟩ := receipts_of_runs (runs_reach hsome)
  have hsent := hposts 0 _ _ (posts_of_sendResult? (m := ⟨63, none, []⟩) (r := .ok ()) (by decide +kernel)
    (by decide +kernel)) rfl
  have hrefused := hposts 1 _ _ (posts_of_sendResult? (m := ⟨220, none, [5, 6, 7]⟩) (r := .error (.unsendable 220 3))
    (by decide +kernel) (by decide +kernel)) rfl
  exact ⟨_, _, runs_reach hsome, hsent, hrefused.1, hrefused.2.2.2⟩

end Dig
