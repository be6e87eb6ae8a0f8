import DigPeer.Answers
/-!
# Routing — where a frame ends

A frame the reader routes ends at its next hand-over or delivery: until then the reader holds it and takes no other
(`reader_between`).  With room in the application's queue it ends in exactly one place unless the entry that took it has
no receiver left by then (`endsOnce_iff`): such an entry answers like any other, and its frame is gone.
-/
namespace Dig

open Correlator Lts

variable {tr seg : List (Link × Action)} {s s' t sᵢ sⱼ : Link} {a b : Action} {k : UInt16} {m : DigMessage}
  {r waiter : Request} {i j : ℕ} {now : ℕ} {factor : ℚ} {limits : OpcodeRateLimits}

/-- A step that puts `m` in the channel of a call whose receiver is open. -/
def HandsOver (s s' : Link) (m : DigMessage) : Prop :=
  ∃ (waiter : Request) (call : Call), s.reader = .answering waiter m ∧ s.isClosed waiter.sender = false ∧
    s'.calls[waiter.sender]? = some call ∧ call.channel.value = some m

def Enqueues (s s' : Link) (m : DigMessage) : Prop := s'.inbox = s.inbox ++ [m]

/-- A step after which `m` is in one of the two places and not in both. -/
def EndsOnce (s s' : Link) (m : DigMessage) : Prop :=
  HandsOver s s' m ∧ ¬ Enqueues s s' m ∨ Enqueues s s' m ∧ ¬ HandsOver s s' m

def Reader.Holds (reader : Reader) (m : DigMessage) : Prop :=
  (∃ waiter, reader = .answering waiter m) ∨ reader = .delivering m

theorem Correlator.Effect.reader_eq {s s' : Correlator} (h : Effect s a s') (hr : s.reader.Holds m)
    (ha : a ≠ .handoff ∧ a ≠ .deliver) : s'.reader = s.reader := by
  have hidle : s.reader ≠ .idle := by rcases hr with ⟨waiter, hr⟩ | hr <;> rw [hr] <;> exact Reader.noConfusion
  cases h with
  | outside | request | acquire | insert | send | receive | expire | cancel | withdraw | withdrawPermit | abandon => rfl
  | @finish c call id request error hc hp => cases request <;> rfl
  | skip hr' | pass hr' | collide hr' | answer hr' => exact absurd hr' hidle
  | handoff => exact absurd rfl ha.1
  | deliver => exact absurd rfl ha.2
  | release hr' => rcases hr with ⟨waiter, hr⟩ | hr <;> rw [hr'] at hr <;> cases hr

theorem reader_between (h : Runs Link.step s seg t) (hr : s.reader.Holds m)
    (hseg : ∀ x ∈ seg, x.2 ≠ .handoff ∧ x.2 ≠ .deliver) : t.reader = s.reader := by
  induction h with
  | start => rfl
  | @step seg t t' a _ hs ih =>
    have hmid := ih fun x hx => hseg x (List.mem_append_left _ hx)
    rw [← hmid] at hr ⊢
    exact (step_effect hs).reader_eq hr (hseg (t, a) (by simp))

theorem reader_of_frame (h : s.step a = some s') (hf : a.frame? = some m) :
    (∃ k r, m.id = some k ∧ s.lookup k = some r ∧ m.msgType ∈ r.expected ∧ s'.reader = .answering r m) ∨
    (∀ k r, m.id = some k → s.lookup k = some r → m.msgType ∉ r.expected) ∧ s'.reader = .delivering m := by
  have he := step_effect h
  revert he
  generalize s'.toCorrelator = t
  intro he
  cases he with
  | outside ha => cases a <;> first | cases hf | cases ha
  | request | acquire | insert | send | receive | expire | cancel | finish | withdraw | withdrawPermit | abandon
  | handoff | release | deliver => cases hf
  | skip hr hf' => rw [hf] at hf'; cases hf'
  | @pass item m' hr hf' hu =>
    rw [hf] at hf'
    cases hf'
    exact Or.inr ⟨fun k r hid hl => (by rw [hu k hid] at hl; cases hl), rfl⟩
  | @collide item m' id r hr hf' hid hl hd =>
    rw [hf] at hf'
    cases hf'
    refine Or.inr ⟨fun k r' hid' hl' => ?_, rfl⟩
    rw [hid] at hid'
    cases hid'
    rw [hl] at hl'
    cases hl'
    exact hd
  | @answer item m' id r hr hf' hid hl hd =>
    rw [hf] at hf'
    cases hf'
    exact Or.inl ⟨id, r, hid, hl, hd, rfl⟩

/-! ## Where it ends -/

theorem handsOver_handoff_iff (hr : s.reader = .answering waiter m) (h : s.step .handoff = some s') :
    HandsOver s s' m ↔ s.isClosed waiter.sender = false := by
  constructor
  · rintro ⟨waiter', call, hr', hopen, -, -⟩
    rw [hr] at hr'
    cases hr'
    exact hopen
  · intro hopen
    obtain ⟨call, hc, hd⟩ := isClosed_eq_false_iff.1 hopen
    simp only [Link.step, hr, Option.some.injEq] at h
    subst h
    refine ⟨waiter, _, hr, hopen, getElem?_modify_eq_some.2 ⟨call, hc, rfl⟩, ?_⟩
    rw [if_pos rfl]
    simp [Oneshot.send, hd]

theorem not_enqueues_handoff (h : s.step .handoff = some s') : ¬ Enqueues s s' m := by
  intro he
  cases Link.stepped_of_step h
  have hlength := congrArg List.length he
  simp at hlength

theorem enqueues_deliver (hr : s.reader = .delivering m) (hopen : s.appOpen = true)
    (hroom : s.inbox.length < inboundChannelCapacity) (h : s.step .deliver = some s') : Enqueues s s' m := by
  simp only [Link.step, hr, Option.some.injEq] at h
  rw [Link.deliver, if_pos ⟨hopen, hroom⟩] at h
  subst h
  rfl

/-- **A frame ends in exactly one place exactly when the entry that takes it, if one does, still has a receiver at the
hand-over.**  At `i` the frame is routed; at `j`, first after it, the reader hands it over or offers it to the
application, whose queue is open and has room. -/
theorem endsOnce_iff (h : Runs Link.step (Link.fromParts now factor limits) tr s) (hij : i < j)
    (hi : tr[i]? = some (sᵢ, a)) (hf : a.frame? = some m) (hj : tr[j]? = some (sⱼ, b)) (hb : b = .handoff ∨ b = .deliver)
    (hbetween : ∀ n x, i < n → n < j → tr[n]? = some x → x.2 ≠ .handoff ∧ x.2 ≠ .deliver)
    (hs' : sⱼ.step b = some s') (hopen : sⱼ.appOpen = true) (hroom : sⱼ.inbox.length < inboundChannelCapacity) :
    EndsOnce sⱼ s' m ↔
      ∀ k r, m.id = some k → sᵢ.lookup k = some r → m.msgType ∈ r.expected → sⱼ.isClosed r.sender = false := by
  obtain ⟨s₁, seg, hs₁, hseg, hmem⟩ := h.between hi hj hij
  have hseg' : ∀ x ∈ seg, x.2 ≠ .handoff ∧ x.2 ≠ .deliver := fun x hx => by
    obtain ⟨n, hin, hnj, hn⟩ := hmem x hx
    exact hbetween n x hin hnj hn
  rcases reader_of_frame hs₁ hf with ⟨k, r, hid, hl, hd, hr⟩ | ⟨hnone, hr⟩
  · have hrj : sⱼ.reader = .answering r m := (reader_between hseg (Or.inl ⟨r, hr⟩) hseg').trans hr
    have hb' : b = .handoff := hb.resolve_right fun hb => by simp [Link.step, hb, hrj] at hs'
    subst hb'
    have hcond : (∀ k r, m.id = some k → sᵢ.lookup k = some r → m.msgType ∈ r.expected → sⱼ.isClosed r.sender = false) ↔
        sⱼ.isClosed r.sender = false := by
      refine ⟨fun hall => hall k r hid hl hd, fun hc k' r' hid' hl' _ => ?_⟩
      rw [hid] at hid'
      cases hid'
      rw [hl] at hl'
      cases hl'
      exact hc
    rw [hcond, ← handsOver_handoff_iff hrj hs']
    have hnot := not_enqueues_handoff (m := m) hs'
    exact ⟨fun he => he.elim And.left fun he => absurd he.1 hnot, fun hover => Or.inl ⟨hover, hnot⟩⟩
  · have hrj : sⱼ.reader = .delivering m := (reader_between hseg (Or.inr hr) hseg').trans hr
    have hb' : b = .deliver := hb.resolve_left fun hb => by simp [Link.step, hb, hrj] at hs'
    subst hb'
    have hnot : ¬ HandsOver sⱼ s' m := by
      rintro ⟨waiter, call, hr', -⟩
      rw [hrj] at hr'
      cases hr'
    exact iff_of_true (Or.inr ⟨enqueues_deliver hrj hopen hroom hs', hnot⟩)
      fun k r hid hl hd => absurd hd (hnone k r hid hl)

theorem endsOnce_collisionThenAnswer :
    ∃ s s' : Link, s.reader = .answering ⟨0, [221], some 230⟩ ⟨221, some 0, [7]⟩ ∧ EndsOnce s s' ⟨221, some 0, [7]⟩ := by
  have hsome : (run Link.step (Link.fromParts 0 1 defaultOnly) collisionThenAnswer).isSome = true := by decide +kernel
  have hrun := run_eq_some_reach hsome
  refine ⟨_, _, ?_, (endsOnce_iff (runs_reach hsome) (by decide : 9 < 10) (getElem?_trace _ _ 9 hrun rfl) ?_
    (getElem?_trace _ _ 10 hrun rfl) (Or.inl rfl) (fun n x h9 h10 => by omega)
    (step_reach (a := .handoff) (collisionThenAnswer.take 10) ?_) ?_ ?_).2 ?_⟩
  · decide +kernel
  · decide +kernel
  · decide +kernel
  · decide +kernel
  · decide +kernel
  · intro k r hid hl _
    cases hid
    have hentry : (reach Link.step (Link.fromParts 0 1 defaultOnly) (collisionThenAnswer.take 9)).lookup 0 =
        some ⟨0, [221], some 230⟩ := by decide +kernel
    rw [hentry] at hl
    cases hl
    decide +kernel

/-! ## A frame that is lost -/

def abandonThenAnswer : List Action :=
  [.request 220 [] [221], .call 0 .acquire, .call 0 .insert, .call 0 .abandon,
    .inbound (.binary (DigMessage.toBytes ⟨221, some 0, [7]⟩)), .handoff]

/-- **The frame is routed to a request nobody waits on, and is in neither place afterwards**, with the application's
queue open and empty. -/
theorem not_endsOnce :
    ¬ ∀ (now : ℕ) (factor : ℚ) (limits : OpcodeRateLimits) (tr : List (Link × Action)) (s sᵢ sⱼ s' : Link)
        (a b : Action) (m : DigMessage) (i j : ℕ), Runs Link.step (Link.fromParts now factor limits) tr s → i < j →
        tr[i]? = some (sᵢ, a) → a.frame? = some m → tr[j]? = some (sⱼ, b) → b = .handoff ∨ b = .deliver →
        (∀ n x, i < n → n < j → tr[n]? = some x → x.2 ≠ .handoff ∧ x.2 ≠ .deliver) →
        sⱼ.step b = some s' → sⱼ.appOpen = true → sⱼ.inbox.length < inboundChannelCapacity → EndsOnce sⱼ s' m := by
  intro h
  have hsome : (run Link.step (Link.fromParts 0 1 defaultOnly) abandonThenAnswer).isSome = true := by decide +kernel
  have hrun := run_eq_some_reach hsome
  have hends := h _ _ _ _ _ _ _ _ _ _ ⟨221, some 0, [7]⟩ _ _ (runs_reach hsome) (by decide : 4 < 5)
    (getElem?_trace _ _ 4 hrun rfl) rfl (getElem?_trace _ _ 5 hrun rfl) (Or.inl rfl)
    (fun n x h4 h5 => by omega) (step_reach (a := .handoff) (abandonThenAnswer.take 5) hsome)
    (by decide +kernel) (by decide +kernel)
  rcases hends with ⟨⟨waiter, call, hr, hopen, -⟩, -⟩ | ⟨henq, -⟩
  · have hreader : (reach Link.step (Link.fromParts 0 1 defaultOnly) (abandonThenAnswer.take 5)).reader =
        .answering ⟨0, [221], none⟩ ⟨221, some 0, [7]⟩ := by decide +kernel
    rw [hreader] at hr
    cases hr
    revert hopen
    decide +kernel
  · revert henq
    unfold Enqueues
    decide +kernel

end Dig
