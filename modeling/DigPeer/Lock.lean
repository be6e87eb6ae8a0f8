import DigPeer.Sending
/-!
# Lock — the lock of the sink

A send has the sink's lock from the step in which it gets it until its frame is fed and flushed, or its future is
dropped, and a `close` until it is done.  So one party at most has it (`exclusive_of_runs`), whoever has it gives it
back in two steps of its own (`exists_freed`), and those that wait for it can have it one after the other, in whatever
order it serves them (`exists_served`).
-/
namespace Dig

open Correlator Lts

variable {tr : List (Link × Action)} {s s' : Link} {a : Action} {c : CallId} {call : Call} {m : DigMessage}
  {w w' : Writer} {phase : SendPhase} {e : SendEvent} {progress : Progress} {outlet : Outlet} {now : ℕ} {factor : ℚ}
  {limits : OpcodeRateLimits}

/-! ## Who has it -/

def Link.HasLock (s : Link) (w : Writer) : Prop := ∃ phase, s.sendPhase? w = some phase ∧ phase.hasLock = true

theorem Call.hasLock_iff : call.hasLock = true ↔ ∃ phase, call.sendPhase? = some phase ∧ phase.hasLock = true := by
  unfold Call.hasLock Call.sendPhase?
  cases call.phase with
  | acquiring | inserting | withdrawn => simp
  | registered k stage => cases stage <;> simp

theorem Post.hasLock_iff {post : Post} :
    post.hasLock = true ↔ ∃ phase, post.sendPhase? = some phase ∧ phase.hasLock = true := by
  unfold Post.hasLock Post.sendPhase?
  cases post.phase <;> simp

theorem Link.hasLock_call : s.HasLock (.call c) ↔ ∃ call, s.calls[c]? = some call ∧ call.hasLock = true := by
  simp only [Link.HasLock, Link.sendPhase?, Option.bind_eq_some_iff, Call.hasLock_iff]
  constructor
  · rintro ⟨phase, ⟨call, hc, hp⟩, h⟩
    exact ⟨call, hc, phase, hp, h⟩
  · rintro ⟨call, hc, phase, hp, h⟩
    exact ⟨phase, ⟨call, hc, hp⟩, h⟩

theorem Link.hasLock_post {p : ℕ} : s.HasLock (.post p) ↔ ∃ post, s.posts[p]? = some post ∧ post.hasLock = true := by
  simp only [Link.HasLock, Link.sendPhase?, Option.bind_eq_some_iff, Post.hasLock_iff]
  constructor
  · rintro ⟨phase, ⟨post, hpost, hp⟩, h⟩
    exact ⟨post, hpost, phase, hp, h⟩
  · rintro ⟨post, hpost, phase, hp, h⟩
    exact ⟨phase, ⟨post, hpost, hp⟩, h⟩

/-- **The lock is taken by a `close` or by a send.** -/
theorem Link.sinkLocked_iff : s.sinkLocked = true ↔ s.closing.hasLock = true ∨ ∃ w, s.HasLock w := by
  simp only [Link.sinkLocked, Bool.or_eq_true, List.any_eq_true, or_assoc]
  refine or_congr_right ⟨?_, ?_⟩
  · rintro (⟨call, hmem, h⟩ | ⟨post, hmem, h⟩)
    · obtain ⟨c, hc⟩ := List.mem_iff_getElem?.1 hmem
      exact ⟨.call c, Link.hasLock_call.2 ⟨call, hc, h⟩⟩
    · obtain ⟨p, hp⟩ := List.mem_iff_getElem?.1 hmem
      exact ⟨.post p, Link.hasLock_post.2 ⟨post, hp, h⟩⟩
  · rintro ⟨w, h⟩
    cases w with
    | call c =>
      obtain ⟨call, hc, h⟩ := Link.hasLock_call.1 h
      exact Or.inl ⟨call, List.mem_of_getElem? hc, h⟩
    | post p =>
      obtain ⟨post, hp, h⟩ := Link.hasLock_post.1 h
      exact Or.inr ⟨post, List.mem_of_getElem? hp, h⟩

theorem Link.HasLock.sinkLocked (h : s.HasLock w) : s.sinkLocked = true := Link.sinkLocked_iff.2 (Or.inr ⟨w, h⟩)

/-! ## One at a time -/

theorem Outlet.send_hasLock {o o' : Outlet} {phase' : SendPhase} (h : o.send w m phase e = some (.at phase', o'))
    (hp : phase'.hasLock = true) : phase.hasLock = true ∨ e = .lock := by
  unfold Outlet.send at h
  split at h
  · rename_i now
    cases hverdict : (o.limiter.admitAt now m).1 <;> simp [Progress.ofAdmission, hverdict] at h
    all_goals obtain ⟨rfl, -⟩ := h
    all_goals cases hp
  all_goals cases h
  · cases hp
  · exact Or.inr rfl
  · exact Or.inl rfl

theorem Writer.sends_inj (h : w.sends e = w'.sends e) : w = w' := by
  cases w <;> cases w' <;> cases h <;> rfl

theorem hasLock_of_step (h : s.step a = some s') (hw : s'.HasLock w) :
    s.HasLock w ∨ a = w.sends .lock ∧ s.sinkLocked = false := by
  obtain ⟨phase, hp, hlock⟩ := hw
  cases step_send h with
  | quiet _ hquiet =>
    rcases hquiet w phase hp with hp | ⟨rfl, -⟩
    · exact Or.inl ⟨phase, hp, hlock⟩
    · cases hlock
  | @sends w₀ m phase₀ e progress hm hp₀ hs hgoes hother hl ha =>
    by_cases hw : w = w₀
    · subst hw
      obtain rfl := hgoes phase hp
      rcases Outlet.send_hasLock hs hlock with hlock₀ | rfl
      · exact Or.inl ⟨phase₀, hp₀, hlock₀⟩
      · exact Or.inr ⟨ha, by simpa [Link.sinkAllows] using hl⟩
    · rw [hother w hw] at hp
      exact Or.inl ⟨phase, hp, hlock⟩

theorem closing_of_step (h : s.step a = some s') (hc : s'.closing.hasLock = true) :
    s.closing.hasLock = true ∨ a = .close .lock ∧ s.sinkLocked = false := by
  cases Link.stepped_of_step h with
  | @close e closing hl =>
    cases e with
    | lock =>
      simp only [Link.close, Option.ite_none_left_eq_some] at hl
      exact Or.inr ⟨rfl, by simpa using hl.1⟩
    | finish done =>
      simp only [Link.close, Option.ite_none_right_eq_some] at hl
      exact Or.inl hl.1
  | deliver => exact Or.inl (by simpa using hc)
  | request | callSend | callStep | post | postSend | postAbandon | inbound | handoff | release | recv | closeApp =>
    exact Or.inl hc

/-- **A lock that is free stays free**, but for the steps that get it. -/
theorem unlocked_of_step (h : s.step a = some s') (hl : s.sinkLocked = false) (hw : ∀ w, s'.HasLock w → a ≠ w.sends .lock)
    (hc : a ≠ .close .lock) : s'.sinkLocked = false := by
  rw [← Bool.not_eq_true, Link.sinkLocked_iff] at hl ⊢
  rintro (hclosing | ⟨w, hlock⟩)
  · exact hl (Or.inl ((closing_of_step h hclosing).resolve_right fun hgets => hc hgets.1))
  · exact hl (Or.inr ⟨w, (hasLock_of_step h hlock).resolve_right fun hgets => hw w hlock hgets.1⟩)

/-- **One party at most has the lock.** -/
structure Link.Exclusive (s : Link) : Prop where
  unique  : ∀ w w', s.HasLock w → s.HasLock w' → w = w'
  closing : s.closing.hasLock = true → ∀ w, ¬ s.HasLock w

theorem Link.Exclusive.step (hs : s.Exclusive) (h : s.step a = some s') : s'.Exclusive := by
  have hfree : ∀ {w}, s.HasLock w → s.sinkLocked ≠ false := fun hw hl => by rw [hw.sinkLocked] at hl; cases hl
  refine ⟨fun w w' hw hw' => ?_, fun hc w hw => ?_⟩
  · rcases hasLock_of_step h hw with hw | ⟨ha, hl⟩ <;> rcases hasLock_of_step h hw' with hw' | ⟨ha', hl'⟩
    · exact hs.unique w w' hw hw'
    · exact absurd hl' (hfree hw)
    · exact absurd hl (hfree hw')
    · exact Writer.sends_inj (ha.symm.trans ha')
  · rcases closing_of_step h hc with hc | ⟨ha, hl⟩ <;> rcases hasLock_of_step h hw with hw | ⟨ha', hl'⟩
    · exact hs.closing hc w hw
    · rw [Link.sinkLocked_iff.2 (Or.inl hc)] at hl'
      cases hl'
    · exact hfree hw hl
    · rw [ha] at ha'
      cases w <;> cases ha'

theorem exclusive_of_runs (h : Runs Link.step (Link.fromParts now factor limits) tr s) : s.Exclusive := by
  apply h.invariant (P := Link.Exclusive)
  · refine ⟨fun w w' hw => ?_, fun hc => by cases hc⟩
    obtain ⟨phase, hp, -⟩ := hw
    cases w <;> simp [Link.sendPhase?, Link.fromParts] at hp
  · exact fun s a s' hs hstep => hs.step hstep

theorem Link.Exclusive.run {as : List Action} {t : Link} (hs : s.Exclusive) (h : run Link.step s as = some t) :
    t.Exclusive :=
  (runs_of_run as s h).invariant hs fun _ _ _ hs hstep => hs.step hstep

/-! ## What a send does with it -/

/-- **A writer in its send takes the step that the outlet lets it**, and the others stay where they are. -/
theorem exists_send_step (hm : s.message? w = some m) (hp : s.sendPhase? w = some phase)
    (hs : s.outlet.send w m phase e = some (progress, outlet)) (hl : s.sinkAllows e = true) :
    ∃ s', s.step (w.sends e) = some s' ∧ s'.outlet = outlet ∧ s'.closing = s.closing ∧
      (∀ phase', s'.sendPhase? w = some phase' ↔ progress = .at phase') ∧
      ∀ w', w' ≠ w → s'.sendPhase? w' = s.sendPhase? w' := by
  cases w with
  | call c =>
    obtain ⟨call, hc, hphase⟩ := Option.bind_eq_some_iff.1 hp
    unfold Call.sendPhase? at hphase
    split at hphase
    · rename_i k phase₀ hcall
      cases hphase
      rw [Link.message?_call hc hcall] at hm
      cases hm
      refine ⟨_, Link.step_callSend hc hcall hs hl, rfl, rfl, fun phase' => ?_, fun w' hw => ?_⟩
      · cases progress <;>
          simp [Link.sendPhase?, modifyCall, hc, Call.sendPhase?, Call.goTo, Stage.ofProgress]
      · cases w' with
        | call c' =>
          have hcc : c ≠ c' := fun hcc => hw (by rw [hcc])
          simp [Link.sendPhase?, modifyCall, hcc]
        | post p => rfl
    · cases hphase
  | post p =>
    obtain ⟨post, hpost, hphase⟩ := Option.bind_eq_some_iff.1 hp
    unfold Post.sendPhase? at hphase
    split at hphase
    · rename_i phase₀ hsending
      cases hphase
      rw [Link.message?_post hpost] at hm
      cases hm
      refine ⟨_, Link.step_postSend hpost hsending hs hl, rfl, rfl, fun phase' => ?_, fun w' hw => ?_⟩
      · have hlt := (List.getElem?_eq_some_iff.1 hpost).1
        cases progress <;> simp [Link.sendPhase?, hlt, Post.sendPhase?, PostPhase.ofProgress]
      · cases w' with
        | call c => rfl
        | post p' =>
          have hpp : p ≠ p' := fun hpp => hw (by rw [hpp])
          simp [Link.sendPhase?, List.getElem?_set_ne hpp]
    · cases hphase

/-- From the one state to the other the writers elsewhere have stayed where they were, and what has been written is the
messages of these. -/
structure Link.OnlyFrom (s t : Link) (who : Writer → Prop) : Prop where
  others   : ∀ w, ¬ who w → t.sendPhase? w = s.sendPhase? w
  messages : ∀ w m, s.message? w = some m → t.message? w = some m
  wrote    : ∃ frames, t.outlet.sink = s.outlet.sink ++ frames ∧
    ∀ x ∈ frames, who x.writer ∧ ∃ m, s.message? x.writer = some m ∧ x.frame = m.toBytes

theorem Link.OnlyFrom.refl {who : Writer → Prop} : s.OnlyFrom s who :=
  ⟨fun _ _ => rfl, fun _ _ hm => hm, [], by simp, by simp⟩

theorem Link.OnlyFrom.trans {t u : Link} {who who' : Writer → Prop} (h : s.OnlyFrom t who) (h' : t.OnlyFrom u who')
    (hwho : ∀ w, who' w → ∃ m, s.message? w = some m) : s.OnlyFrom u fun w => who w ∨ who' w := by
  obtain ⟨frames, hsink, hframes⟩ := h.wrote
  obtain ⟨frames', hsink', hframes'⟩ := h'.wrote
  refine ⟨fun w hw => ?_, fun w m hm => h'.messages w m (h.messages w m hm), frames ++ frames', ?_, fun x hx => ?_⟩
  · rw [h'.others w fun hw' => hw (Or.inr hw'), h.others w fun hw' => hw (Or.inl hw')]
  · rw [hsink', hsink, List.append_assoc]
  · rcases List.mem_append.1 hx with hx | hx
    · obtain ⟨hw, hm⟩ := hframes x hx
      exact ⟨Or.inl hw, hm⟩
    · obtain ⟨hw, m, hm, hframe⟩ := hframes' x hx
      obtain ⟨m', hm'⟩ := hwho x.writer hw
      rw [h.messages _ _ hm'] at hm
      cases hm
      exact ⟨Or.inr hw, _, hm', hframe⟩

theorem Link.OnlyFrom.trans_same {t u : Link} (h : s.OnlyFrom t (· = w)) (h' : t.OnlyFrom u (· = w))
    (hm : s.message? w = some m) : s.OnlyFrom u (· = w) := by
  have htrans := h.trans h' fun w' hw' => ⟨m, by rw [hw', hm]⟩
  simpa only [or_self] using htrans

theorem Link.onlyFrom_closing {who : Writer → Prop} (closing : Closing) : s.OnlyFrom { s with closing } who :=
  ⟨fun _ _ => rfl, fun _ _ hm => hm, [], by simp, by simp⟩

theorem Link.OnlyFrom.mono {t : Link} {who who' : Writer → Prop} (h : s.OnlyFrom t who) (hwho : ∀ w, who w → who' w) :
    s.OnlyFrom t who' := by
  obtain ⟨frames, hsink, hframes⟩ := h.wrote
  exact ⟨fun w hw => h.others w fun hw' => hw (hwho w hw'), h.messages, frames, hsink, fun x hx =>
    (hframes x hx).imp_left (hwho x.writer)⟩

theorem onlyFrom_of_send {frames : List Written} (h : s.step (w.sends e) = some s') (hm : s.message? w = some m)
    (hothers : ∀ w', w' ≠ w → s'.sendPhase? w' = s.sendPhase? w')
    (hsink : s'.outlet.sink = s.outlet.sink ++ frames) (hframes : ∀ x ∈ frames, x = ⟨w, m.toBytes⟩) :
    s.OnlyFrom s' (· = w) :=
  ⟨hothers, fun _ _ hm => message?_of_step h hm, frames, hsink, fun x hx => by
    rw [hframes x hx]
    exact ⟨rfl, m, hm, rfl⟩⟩

/-- A send that has had the lock and is past its frame has left the lock free. -/
theorem unlocked_of_left (hs : s.Exclusive) (hlock : s.HasLock w) (hclosing : s'.closing = s.closing)
    (hown : ∀ phase, s'.sendPhase? w ≠ some phase) (hothers : ∀ w', w' ≠ w → s'.sendPhase? w' = s.sendPhase? w') :
    s'.sinkLocked = false := by
  rw [← Bool.not_eq_true, Link.sinkLocked_iff, hclosing]
  rintro (hc | ⟨w', phase, hphase, hl⟩)
  · exact hs.closing hc w hlock
  · by_cases hw : w' = w
    · subst hw
      exact hown phase hphase
    · rw [hothers w' hw] at hphase
      exact hw (hs.unique w' w ⟨phase, hphase, hl⟩ hlock)

theorem exists_flushed (hs : s.Exclusive) (hm : s.message? w = some m) (hp : s.sendPhase? w = some .flushing) :
    ∃ t, s.step (w.sends (.flush true)) = some t ∧ t.sinkLocked = false ∧ t.closing = s.closing ∧
      s.OnlyFrom t (· = w) := by
  obtain ⟨t, hstep, houtlet, hclosing, hown, hothers⟩ := exists_send_step (e := .flush true) hm hp rfl rfl
  refine ⟨t, hstep, unlocked_of_left hs ⟨_, hp, rfl⟩ hclosing (fun phase hphase => ?_) hothers, hclosing,
    onlyFrom_of_send hstep hm hothers (by rw [houtlet, List.append_nil]) (by simp)⟩
  cases (hown phase).1 hphase

/-- What a send does with the lock: its frame is fed and flushed, or refused if the sink is closed. -/
def Writer.feeds (closed : Bool) (w : Writer) : List Action :=
  if closed then [w.sends (.feed false)] else [w.sends (.feed true), w.sends (.flush true)]

theorem exists_fed (hs : s.Exclusive) (hm : s.message? w = some m) (hp : s.sendPhase? w = some .feeding) :
    ∃ t, run Link.step s (w.feeds s.closing.done) = some t ∧ t.sinkLocked = false ∧ t.closing = s.closing ∧
      s.OnlyFrom t (· = w) := by
  cases hdone : s.closing.done with
  | true =>
    obtain ⟨t, hstep, houtlet, hclosing, hown, hothers⟩ := exists_send_step (e := .feed false) hm hp rfl rfl
    refine ⟨t, run_cons_of_step hstep [], unlocked_of_left hs ⟨_, hp, rfl⟩ hclosing (fun phase hphase => ?_) hothers,
      hclosing, onlyFrom_of_send hstep hm hothers (by rw [houtlet, List.append_nil]) (by simp)⟩
    cases (hown phase).1 hphase
  | false =>
    obtain ⟨s₁, hfeed, houtlet, hclosing, hown, hothers⟩ :=
      exists_send_step (e := .feed true) hm hp rfl (by simp [Link.sinkAllows, hdone])
    have hfed : s.OnlyFrom s₁ (· = w) :=
      onlyFrom_of_send hfeed hm hothers (by rw [houtlet]) fun x hx => List.mem_singleton.1 hx
    obtain ⟨t, hflush, hfree, hclosing', hflushed⟩ :=
      exists_flushed (hs.step hfeed) (message?_of_step hfeed hm) ((hown _).2 rfl)
    exact ⟨t, (run_cons_of_step hfeed _).trans (run_cons_of_step hflush []), hfree, hclosing'.trans hclosing,
      hfed.trans_same hflushed hm⟩

/-! ## Giving it back -/

/-- The steps that only the party with the lock takes. -/
def Action.needsLock : Action → Bool
  | .call _ (.send (.feed _)) | .call _ (.send (.flush _)) => true
  | .postStep _ (.send (.feed _)) | .postStep _ (.send (.flush _)) => true
  | .close (.finish _) => true
  | _ => false

theorem Writer.needsLock_feeds {closed : Bool} (w : Writer) (ha : a ∈ w.feeds closed) : a.needsLock = true := by
  cases closed <;> cases w <;> simp [Writer.feeds, Writer.sends] at ha
  all_goals rcases ha with rfl | rfl <;> rfl

/-- The sink has been closed, or a `close` of it is under way. -/
def Link.sinkClosing (s : Link) : Bool := s.closing.done || s.closing.hasLock

/-- **Whoever has the lock gives it back** by steps of its own, two at most. -/
theorem exists_freed (hs : s.Exclusive) :
    ∃ frees t, (∀ a ∈ frees, a.needsLock = true) ∧ frees.length ≤ 2 ∧ (s.sinkLocked = false → frees = []) ∧
      run Link.step s frees = some t ∧ t.sinkLocked = false ∧ t.closing.done = s.sinkClosing ∧
      s.OnlyFrom t s.HasLock := by
  have hopen : ∀ {w}, s.HasLock w → s.sinkClosing = s.closing.done := fun hw => by
    rw [Link.sinkClosing, Bool.or_eq_left_iff_imp]
    exact fun hc => absurd hw (hs.closing hc _)
  cases hl : s.sinkLocked with
  | false =>
    refine ⟨[], s, by simp, by simp, fun _ => rfl, rfl, hl, ?_, .refl⟩
    rw [Link.sinkClosing, show s.closing.hasLock = false by simp_all [Link.sinkLocked], Bool.or_false]
  | true =>
    rcases Link.sinkLocked_iff.1 hl with hc | ⟨w, phase, hp, hlock⟩
    · have hclose : s.close (.finish true) = some ⟨false, true⟩ := by simp [Link.close, hc]
      refine ⟨[.close (.finish true)], { s with closing := ⟨false, true⟩ }, by simp [Action.needsLock], by simp, by simp,
        run_cons_of_step (Link.step_close hclose) [], ?_, by simp [Link.sinkClosing, hc], Link.onlyFrom_closing _⟩
      rw [← Bool.not_eq_true, Link.sinkLocked_iff]
      rintro (hc' | ⟨w, hw⟩)
      · cases hc'
      · exact hs.closing hc w hw
    · obtain ⟨m, hm⟩ := exists_message?_of_sendPhase? hp
      have hw : s.HasLock w := ⟨_, hp, hlock⟩
      cases phase with
      | admitting | deferred | writing => cases hlock
      | flushing =>
        obtain ⟨t, hflush, hfree, hclosing, honly⟩ := exists_flushed hs hm hp
        refine ⟨[w.sends (.flush true)], t, fun a ha => ?_, by simp, by simp, run_cons_of_step hflush [], hfree,
          by rw [hclosing, hopen hw], honly.mono fun w' hw' => hw' ▸ hw⟩
        rw [List.mem_singleton.1 ha]
        cases w <;> rfl
      | feeding =>
        obtain ⟨t, hrun, hfree, hclosing, honly⟩ := exists_fed hs hm hp
        refine ⟨_, t, fun a ha => w.needsLock_feeds ha, ?_, by simp, hrun, hfree, by rw [hclosing, hopen hw],
          honly.mono fun w' hw' => hw' ▸ hw⟩
        unfold Writer.feeds
        split <;> simp

/-! ## One after the other -/

/-- Who waits for the lock. -/
inductive Waiter where
  | send (w : Writer)
  | close
deriving DecidableEq, Repr

/-- What is done with the lock in one's turn. -/
def Waiter.turn (closed : Bool) : Waiter → List Action
  | .send w => w.sends .lock :: w.feeds closed
  | .close  => [.close .lock, .close (.finish true)]

/-- The turns of those that wait, in the order in which the lock serves them. -/
def turns : Bool → List Waiter → List Action
  | _, []                => []
  | closed, .send w :: ws => (Waiter.send w).turn closed ++ turns closed ws
  | closed, .close :: ws  => Waiter.close.turn closed ++ turns true ws

/-- These wait for the lock, no send among them twice; of a `close` that waits there is nothing to be seen. -/
structure Link.Waiting (s : Link) (ahead : List Waiter) : Prop where
  writing : ∀ w, .send w ∈ ahead → s.sendPhase? w = some .writing
  once    : ahead.Pairwise fun x y => ∀ w, x = .send w → y ≠ .send w

theorem Link.Waiting.tail {x : Waiter} {ahead : List Waiter} (h : s.Waiting (x :: ahead)) : s.Waiting ahead :=
  ⟨fun w hw => h.writing w (List.mem_cons_of_mem _ hw), h.once.of_cons⟩

theorem Link.Waiting.of_onlyFrom {t : Link} {ahead : List Waiter} {who : Writer → Prop} (h : s.Waiting ahead)
    (ht : s.OnlyFrom t who) (hwho : ∀ w, .send w ∈ ahead → ¬ who w) : t.Waiting ahead :=
  ⟨fun w hw => (ht.others w (hwho w hw)).trans (h.writing w hw), h.once⟩

theorem exists_sent (hs : s.Exclusive) (hl : s.sinkLocked = false) (hm : s.message? w = some m)
    (hp : s.sendPhase? w = some .writing) :
    ∃ t, run Link.step s ((Waiter.send w).turn s.closing.done) = some t ∧ t.sinkLocked = false ∧
      t.closing = s.closing ∧ s.OnlyFrom t (· = w) := by
  obtain ⟨s₁, hlock, houtlet, hclosing, hown, hothers⟩ :=
    exists_send_step (e := .lock) hm hp rfl (by simp [Link.sinkAllows, hl])
  have hgot : s.OnlyFrom s₁ (· = w) :=
    onlyFrom_of_send hlock hm hothers (by rw [houtlet, List.append_nil]) (by simp)
  obtain ⟨t, hrun, hfree, hclosing', hfed⟩ :=
    exists_fed (hs.step hlock) (message?_of_step hlock hm) ((hown _).2 rfl)
  rw [hclosing] at hrun
  exact ⟨t, (run_cons_of_step hlock _).trans hrun, hfree, hclosing'.trans hclosing, hgot.trans_same hfed hm⟩

/-- **Those that wait for the lock can have it one after the other**, in any order. -/
theorem exists_served : ∀ {ahead : List Waiter} {s : Link}, s.Exclusive → s.sinkLocked = false → s.Waiting ahead →
    ∃ t, run Link.step s (turns s.closing.done ahead) = some t ∧ t.sinkLocked = false ∧
      (.close ∉ ahead → t.closing.done = s.closing.done) ∧ s.OnlyFrom t fun w => .send w ∈ ahead
  | [], s, _, hl, _ => ⟨s, rfl, hl, fun _ => rfl, .refl⟩
  | .send w :: ws, s, hs, hl, hw => by
    have hp := hw.writing w List.mem_cons_self
    obtain ⟨m, hm⟩ := exists_message?_of_sendPhase? hp
    obtain ⟨s₁, hrun, hfree, hclosing, hsent⟩ := exists_sent hs hl hm hp
    obtain ⟨t, hrun', hfree', hdone, hserved⟩ := exists_served (hs.run hrun) hfree
      (hw.tail.of_onlyFrom hsent fun w' hw' hww => List.rel_of_pairwise_cons hw.once hw' w rfl (by rw [hww]))
    rw [hclosing] at hrun' hdone
    refine ⟨t, (run_append_of_run hrun _).trans hrun', hfree', fun hc => hdone fun hc' => hc (.tail _ hc'), ?_⟩
    refine (hsent.trans hserved fun w' hw' => exists_message?_of_sendPhase? (hw.tail.writing w' hw')).mono fun w' hw' => ?_
    rcases hw' with rfl | hw'
    · exact List.mem_cons_self
    · exact List.mem_cons_of_mem _ hw'
  | .close :: ws, s, hs, hl, hw => by
    have hclose : s.close .lock = some ⟨true, s.closing.done⟩ := by simp [Link.close, hl]
    obtain ⟨s₁, hs₁⟩ : ∃ s₁ : Link, { s with closing := ⟨false, true⟩ } = s₁ := ⟨_, rfl⟩
    have hrun : run Link.step s (Waiter.close.turn s.closing.done) = some s₁ := by
      have hdone : Link.close { s with closing := ⟨true, s.closing.done⟩ } (.finish true) = some ⟨false, true⟩ := by
        simp [Link.close]
      rw [← hs₁]
      exact (run_cons_of_step (Link.step_close hclose) _).trans (run_cons_of_step (Link.step_close hdone) [])
    have honly : s.OnlyFrom s₁ fun _ => False := hs₁ ▸ Link.onlyFrom_closing _
    have hfree : s₁.sinkLocked = false := by
      subst hs₁
      simp_all [Link.sinkLocked]
    obtain ⟨t, hrun', hfree', -, hserved⟩ := exists_served (hs.run hrun) hfree
      (hw.tail.of_onlyFrom honly fun _ _ hfalse => hfalse)
    refine ⟨t, (run_append_of_run hrun _).trans (by rw [← hrun', ← hs₁]), hfree',
      fun hc => absurd List.mem_cons_self hc, ?_⟩
    refine (honly.trans hserved fun w' hw' => exists_message?_of_sendPhase? (hw.tail.writing w' hw')).mono fun w' hw' => ?_
    exact List.mem_cons_of_mem _ (hw'.resolve_left id)

/-- **The lock comes round**: its holder gives it back, and those that wait have had it, in any order. -/
theorem exists_lockFree {ahead : List Waiter} (h : Runs Link.step (Link.fromParts now factor limits) tr s)
    (hahead : s.Waiting ahead) :
    ∃ frees t, (∀ a ∈ frees, a.needsLock = true) ∧ frees.length ≤ 2 ∧ (s.sinkLocked = false → frees = []) ∧
      run Link.step s (frees ++ turns s.sinkClosing ahead) = some t ∧ t.sinkLocked = false ∧
      (.close ∉ ahead → t.closing.done = s.sinkClosing) ∧
      s.OnlyFrom t fun w => s.HasLock w ∨ .send w ∈ ahead := by
  have hs := exclusive_of_runs h
  obtain ⟨frees, s₁, hneeds, hlen, hnil, hfrees, hfree, hdone, hgave⟩ := exists_freed hs
  have hahead₁ : s₁.Waiting ahead := by
    refine hahead.of_onlyFrom hgave fun w hw ⟨phase, hp, hlock⟩ => ?_
    rw [hahead.writing w hw] at hp
    cases hp
    cases hlock
  obtain ⟨t, hturns, hfree', hdone', hserved⟩ := exists_served (hs.run hfrees) hfree hahead₁
  rw [hdone] at hturns hdone'
  exact ⟨frees, t, hneeds, hlen, hnil, (run_append_of_run hfrees _).trans hturns, hfree', hdone',
    hgave.trans hserved fun w hw => exists_message?_of_sendPhase? (hahead.writing w hw)⟩

end Dig
