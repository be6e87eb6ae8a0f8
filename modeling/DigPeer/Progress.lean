import DigPeer.Capacity
import DigPeer.Inbox
import DigPeer.Lock
import DigPeer.Ownership
import DigPeer.Routing
/-!
# Progress — what a call and the reader can do by themselves

A call waits for others in two places: without a permit for one, and with a message to write for the lock of the sink.
Every step of its own other than a retry brings it closer to its end (`Phase.rank`), and with the permit and the lock
free some such step can be taken in every reachable state that is not its end; whoever has the lock gives it back in two
steps, and those that wait before the call take their turns, in whatever order (`calls_end`).  An answer that the reader
has read for a waiting call is returned to it: it lies in the reader's hand, then in the call's channel, and nothing but
the call's own deadline or its caller can keep it there (`answer_gets_through`).
-/
namespace Dig

open Correlator Lts

variable {tr tr' : List (Link × Action)} {s s' t : Link} {a : Action} {c : CallId} {call call' : Call} {k : UInt16}
  {m : DigMessage} {e : CallEvent} {now : ℕ} {factor : ℚ} {limits : OpcodeRateLimits}

/-! ## How far a call is from its end -/

/-- The steps a call can still take, a retry apart. -/
def Stage.rank : Stage → ℕ
  | .sending .admitting         => 8
  | .sending .deferred          => 7
  | .sending .writing           => 6
  | .sending .feeding           => 5
  | .sending .flushing          => 4
  | .waiting                    => 3
  | .expired | .cancelling _    => 2
  | .reclaimed _ _              => 1
  | .returned _ | .dropped      => 0

def Phase.rank : Phase → ℕ
  | .acquiring          => 10
  | .inserting          => 9
  | .withdrawn          => 0
  | .registered _ stage => stage.rank

def Link.rank (s : Link) (c : CallId) : ℕ := ((s.calls[c]?).map fun call => call.phase.rank).getD 0

def CallEvent.setback : CallEvent → ℕ
  | .send .retry => 2
  | _            => 0

theorem rank_ofProgress {o o' : Outlet} {w : Writer} {phase : SendPhase} {e : SendEvent} {progress : Progress}
    (h : o.send w m phase e = some (progress, o')) :
    (Stage.ofProgress progress).rank + 1 ≤ (Stage.sending phase).rank + (CallEvent.send e).setback := by
  unfold Outlet.send at h
  split at h
  · rename_i now
    cases h
    cases (o.limiter.rollWindow now).verdict m <;>
      simp [Progress.ofAdmission, Stage.ofProgress, Stage.rank, CallEvent.setback]
  all_goals cases h
  all_goals simp [Stage.ofProgress, Stage.rank, CallEvent.setback]

/-- **A call's own step brings it closer to its end**, but for a retry. -/
theorem rank_own {s : Correlator} (h : Own s c call e call') :
    call'.phase.rank + 1 ≤ call.phase.rank + e.setback := by
  cases h with
  | acquire hp | insert hp | receive hp | expire hp | finish hp =>
    simp [Call.goTo, hp, Phase.rank, Stage.rank, CallEvent.setback]
  | send hp ho => simpa [Call.goTo, hp, Phase.rank] using rank_ofProgress ho
  | cancel hp hs => rcases hs with rfl | ⟨rfl, -⟩ <;> simp [Call.goTo, hp, Phase.rank, Stage.rank, CallEvent.setback]
  | withdraw hp => rcases hp with hp | hp <;> simp [Call.goTo, hp, Phase.rank, CallEvent.setback]
  | @abandon id stage hp hs =>
    cases stage with
    | sending phase => cases phase <;> simp [Call.goTo, hp, Phase.rank, Stage.rank, CallEvent.setback]
    | cancelling | waiting | expired => simp [Call.goTo, hp, Phase.rank, Stage.rank, CallEvent.setback]
    | reclaimed | returned | dropped => cases hs

theorem getElem?_modify_self {calls : List Call} {f : Call → Call} (hc : calls[c]? = some call) :
    (calls.modify c f)[c]? = some (f call) := by simp [hc]

def Action.isRetryOf (c : CallId) (a : Action) : Bool := a = .call c (.send .retry)

def retries (c : CallId) (tr : List (Link × Action)) : ℕ := tr.countP fun x => x.2.isRetryOf c

/-- The call has the sink's lock, or will not come to it again. -/
def Phase.PastLock (phase : Phase) : Prop := phase.rank ≤ (Stage.sending .feeding).rank

structure Link.Unblocked (s : Link) (c : CallId) (call : Call) : Prop where
  present : s.calls[c]? = some call
  permit  : call.phase = .acquiring → 0 < s.requests.capacity
  lock    : s.sinkLocked = true → call.phase.PastLock

structure Link.SameInside (s s' : Link) : Prop where
  requests : s'.requests = s.requests
  reader   : s'.reader = s.reader
  appOpen  : s'.appOpen = s.appOpen
  inbox    : s'.inbox = s.inbox

theorem Link.SameInside.trans (h : s.SameInside s') (h' : s'.SameInside t) : s.SameInside t :=
  ⟨h'.requests.trans h.requests, h'.reader.trans h.reader, h'.appOpen.trans h.appOpen, h'.inbox.trans h.inbox⟩

/-- The steps of those that have the lock or get it. -/
def Action.IsSinks (a : Action) : Prop := (∃ w e, a = Writer.sends e w) ∨ ∃ e, a = .close e

theorem Action.isSinks_of_needsLock (h : a.needsLock = true) : a.IsSinks := by
  cases a with
  | call c e =>
    cases e with
    | send e => exact Or.inl ⟨.call c, e, rfl⟩
    | acquire | insert | receive | expire | cancel | finish | abandon => cases h
  | postStep p e =>
    cases e with
    | send e => exact Or.inl ⟨.post p, e, rfl⟩
    | abandon => cases h
  | close e => exact Or.inr ⟨e, rfl⟩
  | request | post | inbound | handoff | release | deliver | recv | closeApp => cases h

theorem isSinks_of_turns : ∀ {ahead : List Waiter} {closed : Bool}, a ∈ turns closed ahead → a.IsSinks
  | .send w :: ws, closed, h => by
    rcases List.mem_append.1 h with h | h
    · rcases List.mem_cons.1 h with rfl | h
      · exact Or.inl ⟨w, _, rfl⟩
      · exact Action.isSinks_of_needsLock (w.needsLock_feeds h)
    · exact isSinks_of_turns h
  | .close :: ws, closed, h => by
    rcases List.mem_append.1 h with h | h
    · simp only [Waiter.turn, List.mem_cons, List.not_mem_nil, or_false] at h
      exact Or.inr (h.elim (fun h => ⟨_, h⟩) fun h => ⟨_, h⟩)
    · exact isSinks_of_turns h

theorem sameInside_of_isSinks (h : s.step a = some s') (ha : a.IsSinks) : s.SameInside s' := by
  cases Link.stepped_of_step h with
  | callSend | postSend | close => exact ⟨rfl, rfl, rfl, rfl⟩
  | callStep he =>
    rcases ha with ⟨_ | _, e', ha⟩ | ⟨_, ha⟩ <;> cases ha
    exact absurd rfl (he e')
  | postAbandon | request | post | inbound | handoff | release | deliver | recv | closeApp =>
    rcases ha with ⟨_ | _, _, ha⟩ | ⟨_, ha⟩ <;> cases ha

theorem Phase.rank_le (phase : Phase) : phase.rank ≤ 10 := by
  cases phase with
  | acquiring | inserting | withdrawn => simp [Phase.rank]
  | registered id stage =>
    cases stage with
    | sending phase => cases phase <;> simp [Phase.rank, Stage.rank]
    | cancelling | waiting | expired | reclaimed | returned | dropped => simp [Phase.rank, Stage.rank]

def waiting : List Action :=
  [.request 220 [] [221], .call 0 .acquire, .call 0 .insert] ++
    [.attempt 0, .lock, .feed true, .flush true].map fun e => .call 0 (.send e)

/-- A request that is in the reader's hand is the only one of its call: no `cancel` has taken one, and the call's
channel has not been used. -/
structure Correlator.Alone (s : Correlator) (waiter : Request) : Prop where
  reclaimed : ∀ (c : CallId) (call : Call) (k : UInt16) (r : Request) (error : LinkError), s.calls[c]? = some call →
    call.phase = .registered k (.reclaimed (some r) error) → r.sender ≠ waiter.sender
  unused    : ∀ call : Call, s.calls[waiter.sender]? = some call → call.phase.HoldsReceiver →
    call.channel.value = none ∧ call.channel.senderDropped = false

theorem Correlator.Effect.answering_cases {s s' : Correlator} {waiter : Request} (h : Effect s a s')
    (hr : s'.reader = .answering waiter m) :
    s.reader = .answering waiter m ∧ a ≠ .handoff ∨ (∃ k, s.lookup k = some waiter) ∧ s'.calls = s.calls := by
  cases h with
  | outside ha => exact Or.inl ⟨hr, fun h => by subst h; cases ha⟩
  | request | acquire | insert | send | receive | expire | cancel | withdraw | withdrawPermit | abandon =>
    exact Or.inl ⟨hr, by simp⟩
  | @finish c call id request error hc hp => cases request <;> exact Or.inl ⟨hr, by simp⟩
  | skip hr' hf hn => rcases hn with rfl | rfl <;> cases hr
  | pass | collide | handoff | release | deliver => cases hr
  | @answer item m' id r hr' hf hid hl hd =>
    cases hr
    exact Or.inr ⟨⟨id, hl⟩, rfl⟩

theorem Correlator.Alone.step {s s' : Correlator} {waiter : Request} (hp : s.Placed) (h : Effect s a s')
    (hs : ∀ m, s.reader = .answering waiter m → s.Alone waiter) (hr : s'.reader = .answering waiter m) :
    s'.Alone waiter := by
  rcases h.answering_cases hr with ⟨hr₀, hne⟩ | ⟨⟨k, hl⟩, hcalls⟩
  · have halone := hs m hr₀
    have hnone := hp.noEntry _ (.answering hr₀ rfl)
    constructor
    · intro c call' k r error hc' hphase
      cases h.callFrom hc' with
      | new _ _ hnew => subst hnew; cases hphase
      | same hc => exact halone.reclaimed c _ k r error hc hphase
      | handed ha => exact absurd ha hne
      | orphaned _ hc _ _ _ _ hcall => subst hcall; exact halone.reclaimed c _ k r error hc hphase
      | own ha hc ho =>
        cases ho with
        | cancel =>
          injection hphase with _ hstage
          injection hstage with hl
          exact hnone _ r hl
        | @send id phase e o o' progress => cases progress <;> cases hphase
        | acquire | insert | receive | expire | finish | withdraw | abandon => cases hphase
    · intro call' hc' hholds
      cases h.callFrom hc' with
      | new _ _ hnew => subst hnew; exact ⟨rfl, rfl⟩
      | same hc => exact halone.unused _ hc hholds
      | handed ha => exact absurd ha hne
      | orphaned _ _ hc₀ hp₀ hr => exact absurd hr (halone.reclaimed _ _ _ _ _ hc₀ hp₀)
      | own ha hc ho =>
        cases ho with
        | acquire hp | insert hp | send hp =>
          have hunused := halone.unused _ hc (by rw [hp]; trivial)
          exact hunused
        | receive | expire | cancel | finish | withdraw | abandon => exact hholds.elim
  · have hnot : ¬ s.Left waiter.sender := fun hleft => hp.noEntry _ hleft k waiter hl rfl
    refine ⟨fun c call k r error hc hphase hsender => ?_, fun call hc _ => ?_⟩
    · rw [hcalls] at hc
      exact hnot (.reclaimed hc hphase hsender)
    · rw [hcalls] at hc
      have hunsent : ¬ (call.channel.senderDropped = true ∨ call.channel.value ≠ none) := fun h => hnot (.sent hc h)
      simpa [and_comm] using hunsent

theorem alone_of_runs (h : Runs Link.step (Link.fromParts now factor limits) tr t) {waiter : Request} :
    ∀ m, t.reader = .answering waiter m → t.Alone waiter := by
  induction h with
  | start => intro m hr; cases hr
  | step hrun hs ih => exact fun m hr => .step (placed_of_runs hrun) (step_effect hs) ih hr

/-- **An answer that is due**: in the reader's hand, in the channel of its waiting call, or returned. -/
inductive Link.Due (s : Link) (c : CallId) (k : UInt16) (m : DigMessage) : Prop
  | inHand {waiter : Request} {call : Call} (hr : s.reader = .answering waiter m) (hw : waiter.sender = c)
      (hc : s.calls[c]? = some call) (hp : call.phase = .registered k .waiting)
      (hopen : call.channel.receiverDropped = false)
  | inChannel {call : Call} (hc : s.calls[c]? = some call) (hp : call.phase = .registered k .waiting)
      (hv : call.channel.value = some m)
  | returned {call : Call} (hc : s.calls[c]? = some call) (hp : call.phase = .registered k (.returned (.ok m)))

theorem Link.Due.step (hs : s.Due c k m) (halone : ∀ waiter m, s.reader = .answering waiter m → s.Alone waiter)
    (h : s.step a = some s') (hno : a ≠ .call c .expire ∧ a ≠ .call c .abandon) : s'.Due c k m := by
  have hreads : ∀ {e call call'}, a = .call c e → Own s.toCorrelator c call e call' → call.phase = .registered k .waiting →
      ∃ result, call.channel.poll = some result ∧ call'.phase = .registered k (.returned result) := by
    rintro e call call' rfl ho hp
    cases ho with
    | receive hp' hpoll => rw [hp] at hp'; cases hp'; exact ⟨_, hpoll, rfl⟩
    | expire => exact absurd rfl hno.1
    | abandon | withdraw => exact absurd rfl hno.2
    | acquire hp' | insert hp' | send hp' | finish hp' => rw [hp] at hp'; cases hp'
    | cancel hp' hst => rw [hp] at hp'; cases hp'; rcases hst with hst | ⟨hst, -⟩ <;> cases hst
  cases hs with
  | @inHand waiter call hr hw hc hp hopen =>
    have hal := halone waiter m hr
    subst hw
    by_cases ha : a = .handoff
    · subst ha
      simp only [Link.step, hr, Option.some.injEq] at h
      subst h
      exact .inChannel (getElem?_modify_self hc) hp (by simp [Oneshot.send, hopen])
    · have hdeliver : a ≠ .deliver := fun ha => by
        subst ha
        simp [Link.step, hr] at h
      have hr' := (step_effect h).reader_eq (Or.inl ⟨waiter, hr⟩) ⟨ha, hdeliver⟩
      obtain ⟨call', hc', -⟩ := (step_effect h).continues hc
      cases (step_effect h).callFrom hc' with
      | new _ hlast => exact absurd hlast (Nat.ne_of_lt (List.getElem?_eq_some_iff.1 hc).1)
      | same hc₁ =>
        rw [hc] at hc₁
        cases hc₁
        exact .inHand (hr'.trans hr) rfl hc' hp hopen
      | handed ha' => exact absurd ha' ha
      | orphaned _ _ hc₀ hp₀ hsender => exact absurd hsender (hal.reclaimed _ _ _ _ _ hc₀ hp₀)
      | own ha' hc₁ ho =>
        rw [hc] at hc₁
        cases hc₁
        obtain ⟨result, hpoll, -⟩ := hreads ha' ho hp
        obtain ⟨hv, hd⟩ := hal.unused call hc (by rw [hp]; trivial)
        simp [Oneshot.poll, hv, hd] at hpoll
  | @inChannel call hc hp hv =>
    obtain ⟨call', hc', -⟩ := (step_effect h).continues hc
    cases (step_effect h).callFrom hc' with
    | new _ hlast => exact absurd hlast (Nat.ne_of_lt (List.getElem?_eq_some_iff.1 hc).1)
    | same hc₁ =>
      rw [hc] at hc₁
      cases hc₁
      exact .inChannel hc' hp hv
    | handed _ hr hw =>
      subst hw
      have hunused := ((halone _ _ hr).unused call hc (by rw [hp]; trivial)).1
      rw [hv] at hunused
      cases hunused
    | orphaned _ hc₁ _ _ _ _ hcall =>
      rw [hc] at hc₁
      cases hc₁
      subst hcall
      exact .inChannel hc' hp hv
    | own ha hc₁ ho =>
      rw [hc] at hc₁
      cases hc₁
      obtain ⟨result, hpoll, hp'⟩ := hreads ha ho hp
      obtain rfl : result = .ok m := by
        simp only [Oneshot.poll, hv, Option.some.injEq] at hpoll
        exact hpoll.symm
      exact .returned hc' hp'
  | @returned call hc hp =>
    obtain ⟨call', hc', hfate⟩ := (step_effect h).callFate hc
    cases hfate with
    | stays hp' => exact .returned hc' (hp'.trans hp)
    | own ha ho =>
      have hrank := rank_own ho
      simp only [hp, Phase.rank, Stage.rank] at hrank
      cases ho with
      | acquire hp' | insert hp' | send hp' | receive hp' | expire hp' | finish hp' => rw [hp] at hp'; cases hp'
      | cancel hp' hst => rw [hp] at hp'; cases hp'; rcases hst with hst | ⟨hst, -⟩ <;> cases hst
      | withdraw | abandon => exact absurd ha hno.2

theorem due_of_runs (h₀ : Runs Link.step (Link.fromParts now factor limits) tr s) (hs : s.Due c k m)
    (h : Runs Link.step s tr' t) (hno : ∀ x ∈ tr', x.2 ≠ .call c .expire ∧ x.2 ≠ .call c .abandon) : t.Due c k m := by
  induction h with
  | start => exact hs
  | @step tr' t t' a hrun hstep ih =>
    have hdue := ih fun x hx => hno x (List.mem_append_left _ hx)
    exact hdue.step (fun _ => alone_of_runs (h₀.trans hrun)) hstep (hno (t, a) (by simp))

theorem Link.Due.step_receive (hc : s.calls[c]? = some call) (hp : call.phase = .registered k .waiting)
    (hv : call.channel.value = some m) : ∃ s' call', s.step (.call c .receive) = some s' ∧
      s'.calls[c]? = some call' ∧ call'.phase = .registered k (.returned (.ok m)) := by
  have hpoll : call.channel.poll = some (.ok m) := by simp [Oneshot.poll, hv]
  refine ⟨{ s with
    toCorrelator := s.modifyCall c (.goTo (.registered k (.returned (.ok m))) ∘ .dropReceiver) },
    call.dropReceiver.goTo (.registered k (.returned (.ok m))), ?_, getElem?_modify_self hc, rfl⟩
  simp only [Link.step, callStep, hc, hp, hpoll, Option.map_some]

/-- **What is due can be had at once**, by a step of the reader and one of the call. -/
theorem Link.Due.exists_run (hs : s.Due c k m) : ∃ as t call', (∀ a ∈ as, a = .handoff ∨ a = .call c .receive) ∧
    as.length ≤ 2 ∧ run Link.step s as = some t ∧ t.calls[c]? = some call' ∧
      call'.phase = .registered k (.returned (.ok m)) := by
  cases hs with
  | @inHand waiter call hr hw hc hp hopen =>
    subst hw
    obtain ⟨u, hu, hcu⟩ : ∃ u, s.step .handoff = some u ∧
        u.calls[waiter.sender]? = some { call with channel := call.channel.send m } :=
      ⟨{ s with
        calls := s.calls.modify waiter.sender fun call => { call with channel := call.channel.send m }
        reader := .releasing }, by simp only [Link.step, hr], getElem?_modify_self hc⟩
    obtain ⟨t, call', ht, hc', hp'⟩ := Link.Due.step_receive (m := m) hcu hp (by simp [Oneshot.send, hopen])
    refine ⟨[.handoff, .call waiter.sender .receive], t, call', by simp, by simp, ?_, hc', hp'⟩
    rw [run_cons_of_step hu, run_cons_of_step ht]
    rfl
  | @inChannel call hc hp hv =>
    obtain ⟨t, call', ht, hc', hp'⟩ := Link.Due.step_receive hc hp hv
    exact ⟨[.call c .receive], t, call', by simp, by simp, run_cons_of_step ht [], hc', hp'⟩
  | @returned call hc hp => exact ⟨[], s, call, by simp, by simp, rfl, hc, hp⟩

theorem receiver_of_runs (h : Runs Link.step (Link.fromParts now factor limits) tr t) :
    ∀ (c : CallId) (call : Call), t.calls[c]? = some call → call.phase.HoldsReceiver →
      call.channel.receiverDropped = false := by
  induction h with
  | start => intro c call hc; cases hc
  | step hrun hs ih =>
    intro c call' hc' hholds
    cases (step_effect hs).callFrom hc' with
    | new _ _ hnew => subst hnew; rfl
    | same hc => exact ih c call' hc hholds
    | handed _ _ _ hc hcall | orphaned _ hc _ _ _ _ hcall =>
      subst hcall
      have hopen := ih c _ hc hholds
      exact hopen
    | own ha hc ho =>
      cases ho with
      | acquire hp | insert hp | send hp =>
        have hopen := ih c _ hc (by rw [hp]; trivial)
        exact hopen
      | receive | expire | cancel | finish | withdraw | abandon => exact hholds.elim

/-- A frame with the id of a waiting call and an opcode it declared is due to it. -/
theorem due_of_frame {r : Request} (h₀ : Runs Link.step (Link.fromParts now factor limits) tr s)
    (hc : s.calls[c]? = some call) (hp : call.phase = .registered k .waiting) (hl : s.lookup k = some r)
    (hr : r.sender = c) (hs : s.step a = some s') (hf : a.frame? = some m) (hid : m.id = some k)
    (hd : m.msgType ∈ call.expected) : s'.Due c k m := by
  obtain ⟨call₀, stage, hc₀, -, hexpected⟩ := linked_of_runs h₀ k r hl
  rw [hr, hc] at hc₀
  cases hc₀
  rcases reader_of_frame hs hf with ⟨k', r', hid', hl', -, hreader⟩ | ⟨hundeclared, -⟩
  · rw [hid] at hid'
    cases hid'
    rw [hl] at hl'
    cases hl'
    obtain ⟨call', hc', hfate⟩ := (step_effect hs).callFate hc
    cases hfate with
    | stays hp' =>
      have hopen := receiver_of_runs (h₀.step hs) c call' hc' (by rw [hp', hp]; trivial)
      exact .inHand hreader hr hc' (hp'.trans hp) hopen
    | own ha => subst ha; cases hf
  · exact absurd (hexpected ▸ hd) (hundeclared k r hid hl)

/-- **An answer gets through.**  From a reachable state in which a call waits with its entry in the map, let the reader
read a frame with its id and an opcode it declared.  Then, whatever all others do after that (fill the application's
queue, go round the id space, cancel, expire, write), as long as neither its deadline nor its caller has ended the wait,
the call has returned this frame or is two steps from it, one of the reader and one of its own. -/
theorem answer_gets_through (h₀ : Runs Link.step (Link.fromParts now factor limits) tr s) {item : Item} {r : Request}
    (hidle : s.reader = .idle) (hc : s.calls[c]? = some call) (hp : call.phase = .registered k .waiting)
    (hl : s.lookup k = some r) (hr : r.sender = c) (hf : (Action.inbound item).frame? = some m) (hid : m.id = some k)
    (hd : m.msgType ∈ call.expected) :
    ∃ s₁, s.step (.inbound item) = some s₁ ∧ ∀ tr' t, Runs Link.step s₁ tr' t →
      (∀ x ∈ tr', x.2 ≠ .call c .expire ∧ x.2 ≠ .call c .abandon) →
        ∃ as t' call', (∀ a ∈ as, a = .handoff ∨ a = .call c .receive) ∧ as.length ≤ 2 ∧
          run Link.step t as = some t' ∧ t'.calls[c]? = some call' ∧ call'.phase = .registered k (.returned (.ok m)) := by
  obtain ⟨s₁, hs₁⟩ : ∃ s₁, s.step (.inbound item) = some s₁ :=
    ⟨{ s with toCorrelator := s.toCorrelator.inbound item }, by simp only [Link.step, hidle]⟩
  refine ⟨s₁, hs₁, fun tr' t h hno => ?_⟩
  have hdue := due_of_frame h₀ hc hp hl hr hs₁ hf hid hd
  exact (due_of_runs (h₀.step hs₁) hdue h hno).exists_run

theorem answer_gets_through_closed : ∃ tr s as t call, Runs Link.step (Link.fromParts 0 1 defaultOnly) tr s ∧
    run Link.step s (.inbound (.binary (DigMessage.toBytes ⟨221, some 0, [9]⟩)) :: .closeApp :: as) = some t ∧
    t.calls[0]? = some call ∧ call.phase = .registered 0 (.returned (.ok ⟨221, some 0, [9]⟩)) := by
  have hsome : (run Link.step (Link.fromParts 0 1 defaultOnly) waiting).isSome = true := by decide +kernel
  have hc : (reach Link.step (Link.fromParts 0 1 defaultOnly) waiting).calls[0]? =
      some ⟨220, [], [221], .new, .registered 0 .waiting⟩ := by decide +kernel
  have hl : (reach Link.step (Link.fromParts 0 1 defaultOnly) waiting).lookup 0 = some ⟨0, [221], none⟩ := by
    decide +kernel
  have hf : (Action.inbound (.binary (DigMessage.toBytes ⟨221, some 0, [9]⟩))).frame? = some ⟨221, some 0, [9]⟩ := by
    decide +kernel
  obtain ⟨s₁, hs₁, hall⟩ := answer_gets_through (runs_reach hsome) (by decide +kernel) hc rfl hl rfl hf rfl (by decide)
  obtain ⟨as, t, call, -, -, hrun, hc, hp⟩ := hall _ _ (.step (a := .closeApp) .start rfl) (by simp)
  refine ⟨_, _, as, t, call, runs_reach hsome, ?_, hc, hp⟩
  rw [run_cons_of_step hs₁, run_cons_of_step rfl]
  exact hrun

/-! ## The end of the reader -/

def Action.EndsReader (a : Action) : Prop := a = .inbound .close ∨ a = .inbound .error ∨ a = .inbound .finished

theorem ended_of_step (h : s.step a = some s') : s'.reader = .ended ↔ s.reader = .ended ∨ a.EndsReader := by
  unfold Action.EndsReader
  by_cases hin : ∃ item, a = .inbound item
  · obtain ⟨item, rfl⟩ := hin
    cases Link.stepped_of_step h with
    | inbound _ hr =>
      show (s.toCorrelator.inbound item).reader = .ended ↔ _
      cases item with
      | close | error | finished => simp [Correlator.inbound]
      | text | ping | pong | frame => simp [Correlator.inbound, hr]
      | binary bytes =>
        rw [Correlator.inbound, DigMessage.fromBytesOwned_eq]
        cases parse bytes with
        | none => simp [hr]
        | some m =>
          dsimp only
          unfold Correlator.route
          split
          · simp [hr]
          · split <;> simp [hr]
  · have hnot : ¬ (a = .inbound .close ∨ a = .inbound .error ∨ a = .inbound .finished) := by
      rintro (ha | ha | ha) <;> exact hin ⟨_, ha⟩
    rw [or_iff_left hnot]
    have he := step_effect h
    show s'.toCorrelator.reader = .ended ↔ _
    generalize s'.toCorrelator = u at he
    cases he with
    | outside | request | acquire | insert | send | receive | expire | cancel | withdraw | withdrawPermit | abandon => rfl
    | @finish c call id request error hc hp => cases request <;> rfl
    | skip | pass | collide | answer => exact absurd ⟨_, rfl⟩ hin
    | handoff hr | release hr | deliver hr => simp [hr]

theorem inbox_of_ended (hr : s.reader = .ended) (h : s.step a = some s') :
    s.inbox = [(s, a)].filterMap received ++ s'.inbox := by
  cases Link.stepped_of_step h with
  | deliver hr' => rw [hr] at hr'; cases hr'
  | recv hi => simp [received, hi]
  | request | callSend | callStep | post | postSend | postAbandon | close | inbound | handoff | release | closeApp =>
    simp [received]

/-- **Nothing but a close, a transport error or the end of the stream ends the reader**: no frame, whatever its bytes,
and no item of another kind.  After that nothing is read, the application receives what is queued and no more, and no
call is answered that was not answered before. -/
theorem reader_ends (h : Runs Link.step (Link.fromParts now factor limits) tr t) :
    (t.reader = .ended ↔ ∃ x ∈ tr, x.2.EndsReader) ∧
    (t.reader = .ended → ∀ tr' u, Runs Link.step t tr' u →
      u.reader = .ended ∧ (∀ x ∈ tr', ∀ item, x.2 ≠ .inbound item) ∧
      t.inbox = tr'.filterMap received ++ u.inbox ∧
      ∀ c m, HasAnswer u.toCorrelator c m → HasAnswer t.toCorrelator c m) := by
  constructor
  · induction h with
    | start => simp [Link.fromParts]
    | step hrun hs ih => rw [ended_of_step hs, ih]; simp [or_and_right, exists_or]
  · intro hended tr' u h'
    induction h' with
    | start => exact ⟨hended, by simp, by simp, fun _ _ hm => hm⟩
    | @step tr' s s' a hrun hs ih =>
      obtain ⟨hr, hreads, hinbox, hanswer⟩ := ih
      have hin : ∀ item, a ≠ .inbound item := fun item ha => by
        subst ha
        simp [Link.step, hr] at hs
      refine ⟨(ended_of_step hs).2 (Or.inl hr), fun x hx => ?_, ?_, fun c m hm => hanswer c m ?_⟩
      · rcases List.mem_append.1 hx with hx | hx
        · exact hreads x hx
        · obtain rfl := List.mem_singleton.1 hx
          exact hin
      · rw [List.filterMap_append, hinbox, List.append_assoc]
        exact congrArg _ (inbox_of_ended hr hs)
      · refine ((step_effect hs).hasAnswer hm).resolve_right ?_
        rintro ⟨k, r, hf, -⟩
        cases a with
        | inbound item => exact hin item rfl
        | request | call | post | postStep | close | handoff | release | deliver | recv | closeApp => cases hf

theorem reader_ends_finished : ∃ tr t, Runs Link.step (Link.fromParts 0 1 defaultOnly) tr t ∧ t.reader = .ended ∧
    ∀ tr' u, Runs Link.step t tr' u → ∀ x ∈ tr', ∀ item, x.2 ≠ .inbound item := by
  have hsome : (run Link.step (Link.fromParts 0 1 defaultOnly)
    [.inbound (.binary [1]), .inbound .text, .inbound .finished]).isSome = true := by decide +kernel
  obtain ⟨hiff, hafter⟩ := reader_ends (runs_reach hsome)
  have hended := hiff.2 ⟨_, List.mem_of_getElem? (getElem?_trace _ _ 2 (run_eq_some_reach hsome) rfl), Or.inr (Or.inr rfl)⟩
  exact ⟨_, _, runs_reach hsome, hended, fun tr' u h => (hafter hended tr' u h).2.1⟩

end Dig
