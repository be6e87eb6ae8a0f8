import DigPeer.Agreement
import DigPeer.Outcomes
import DigPeer.Progress
import DigPeer.Refusals
import DigPeer.Stream
/-!
# Response — a request that is neither lost nor answered can be answered

A request is lost when the asked side's reader takes it for an answer of its own, or offers it to a queue without room.
Then it stays lost and its call is never answered (`lost_for_good`).  Until then, and until it is answered, nothing on
the two links stands between a waiting call and its answer (`answerable_of_pending`): a reader goes through what lies
before a frame without waiting for anyone (`Endpoint.exists_catchUp`), an application makes room by receiving
(`Endpoint.exists_drain`), the lock of the sink comes round (`Duplex.Pending.exists_ready`), and a limiter that has been
used up admits the answer in its next window (`Link.exists_posted`).
-/
namespace Dig

open Correlator Lts

variable {tr : List (Duplex × Side × Event)} {d d' : Duplex} {e e' : Endpoint} {peer : List Written} {event : Event}
  {side : Side} {s s' : Link} {a : Action} {m request : DigMessage} {c : CallId} {k : UInt16} {call : Call} {n : ℕ}
  {now : Side → ℕ} {factor : Side → ℚ} {limits : Side → OpcodeRateLimits}

/-! ## Reading -/

def Event.isReading : Event → Bool
  | .read | .deliver | .recv | .act .handoff | .act .release => true
  | _ => false

def Action.isReading : Action → Bool
  | .inbound (.binary _) | .handoff | .release | .deliver | .recv => true
  | _ => false

structure Endpoint.Reading (e : Endpoint) (peer : List Written) (e' : Endpoint) (a : Action) : Prop where
  step     : e.link.step a = some e'.link
  reading  : a.isReading = true
  frame    : ∀ m, a.frame? = some m → ∃ y, peer[e.read]? = some y ∧ y.decoded = some m
  purposes : e'.purposes = e.purposes
  read     : e.read ≤ e'.read
  kept     : ∀ n, n ∈ e.queued ∨ n ∈ e.received → n ∈ e'.queued ∨ n ∈ e'.received

theorem Endpoint.reading_of_step (h : e.step peer event = some e') (hr : event.isReading = true) :
    ∃ a, e.Reading peer e' a := by
  cases event with
  | act a =>
    simp only [step, Option.ite_none_right_eq_some] at h
    obtain ⟨link, hlink, rfl⟩ := Option.map_eq_some_iff.1 h.2
    refine ⟨a, hlink, ?_, fun m hm => ?_, rfl, Nat.le_refl _, fun _ hn => hn⟩
    · cases a <;> first | rfl | cases hr
    · cases a <;> first | cases hm | cases hr
  | send message | answer n message | control item => cases hr
  | read =>
    simp only [step] at h
    split at h
    · cases h
    · rename_i y hy
      obtain ⟨link, hlink, rfl⟩ := Option.map_eq_some_iff.1 h
      exact ⟨_, hlink, rfl, fun m hm => ⟨y, hy, hm⟩, rfl, Nat.le_succ _, fun _ hn => hn⟩
  | deliver =>
    obtain ⟨link, hlink, rfl⟩ := Option.map_eq_some_iff.1 h
    refine ⟨_, hlink, rfl, fun m hm => (by cases hm), rfl, Nat.le_refl _, fun n hn => hn.imp_left fun hn => ?_⟩
    dsimp only
    split
    · exact hn
    · exact List.mem_append_left _ hn
  | recv =>
    obtain ⟨link, hlink, rfl⟩ := Option.map_eq_some_iff.1 h
    refine ⟨_, hlink, rfl, fun m hm => (by cases hm), rfl, Nat.le_refl _, fun n hn => ?_⟩
    rcases hn with hn | hn
    · cases hq : e.queued with
      | nil => rw [hq] at hn; cases hn
      | cons n' queued =>
        rw [hq] at hn
        rcases List.mem_cons.1 hn with rfl | hn
        · exact Or.inr (by simp)
        · exact Or.inl hn
    · exact Or.inr (List.mem_append_left _ hn)

theorem appOpen_of_reading (h : s.step a = some s') (ha : a.isReading = true) : s'.appOpen = s.appOpen := by
  cases Link.stepped_of_step h with
  | deliver => unfold Link.deliver; split <;> rfl
  | inbound | handoff | release | recv => rfl
  | request | callSend | callStep | post | postSend | postAbandon | close | closeApp => cases ha

theorem outlet_of_reading (h : s.step a = some s') (ha : a.isReading = true) : s'.outlet = s.outlet := by
  cases Link.stepped_of_step h with
  | deliver => exact Link.deliver_outlet _ _
  | inbound | handoff | release | recv => rfl
  | request | callSend | callStep | post | postSend | postAbandon | close | closeApp => cases ha

theorem not_ended_of_reading (h : s.step a = some s') (ha : a.isReading = true) (hr : s.reader ≠ .ended) :
    s'.reader ≠ .ended := by
  intro hended
  rcases (ended_of_step h).1 hended with hended | rfl | rfl | rfl
  · exact hr hended
  · cases ha
  · cases ha
  · cases ha

theorem closing_of_reading (h : s.step a = some s') (ha : a.isReading = true) : s'.closing = s.closing := by
  cases Link.stepped_of_step h with
  | deliver => exact Link.deliver_closing _ _
  | inbound | handoff | release | recv => rfl
  | request | callSend | callStep | post | postSend | postAbandon | close | closeApp => cases ha

/-- A frame can be fed: the lock of the sink is free, and the sink has not been closed. -/
structure Link.SinkReady (s : Link) : Prop where
  free    : s.sinkLocked = false
  notDone : s.closing.done = false

theorem Link.SinkReady.of_reading (hs : s.SinkReady) (h : s.step a = some s') (ha : a.isReading = true) :
    s'.SinkReady := by
  refine ⟨unlocked_of_step h hs.free (fun w _ hgets => ?_) fun hcloses => ?_, ?_⟩
  · subst hgets
    cases w <;> cases ha
  · subst hcloses
    cases ha
  · rw [closing_of_reading h ha]
    exact hs.notDone

abbrev Endpoint.ReadsTo (e : Endpoint) (peer : List Written) (e' : Endpoint) : Prop :=
  ReachesBy (Endpoint.step · peer) (fun event => event.isReading = true) e e'

theorem Endpoint.ReadsTo.outlet (h : e.ReadsTo peer e') : e'.link.outlet = e.link.outlet := by
  apply h.invariant (P := fun e' => e'.link.outlet = e.link.outlet) ?_ rfl
  intro e₁ event e₂ he hevent hs
  obtain ⟨a, ha⟩ := reading_of_step hs hevent
  exact (outlet_of_reading ha.step ha.reading).trans he

theorem Endpoint.ReadsTo.sinkReady (h : e.ReadsTo peer e') (hready : e.link.SinkReady) : e'.link.SinkReady := by
  apply h.invariant (P := fun e' => e'.link.SinkReady) ?_ hready
  intro e₁ event e₂ he hevent hs
  obtain ⟨a, ha⟩ := reading_of_step hs hevent
  exact he.of_reading ha.step ha.reading

/-! ## Catching up -/

def Reader.rank : Reader → ℕ
  | .answering _ _              => 2
  | .releasing | .delivering _  => 1
  | .idle | .ended              => 0

theorem Reader.rank_le (reader : Reader) : reader.rank ≤ 2 := by cases reader <;> simp [Reader.rank]

/-- **A reader that has not ended can go on**, as long as there is a frame for it or one in its hand. -/
theorem Endpoint.exists_reading_step {N : ℕ} (hN : N ≤ peer.length) (hread : e.read ≤ N)
    (hr : e.link.reader ≠ .ended) (hrank : 3 * (N - e.read) + e.link.reader.rank ≠ 0) :
    ∃ event e', event.isReading = true ∧ e.step peer event = some e' ∧ e'.read ≤ N ∧
      3 * (N - e'.read) + e'.link.reader.rank < 3 * (N - e.read) + e.link.reader.rank := by
  cases hreader : e.link.reader with
  | idle =>
    rw [hreader] at hrank
    have hlt : e.read < N := by simp only [Reader.rank] at hrank; omega
    obtain ⟨y, hy⟩ : ∃ y, peer[e.read]? = some y := ⟨_, List.getElem?_eq_getElem (lt_of_lt_of_le hlt hN)⟩
    refine ⟨.read, { e with
      link := { e.link with toCorrelator := e.link.toCorrelator.inbound (.binary y.frame) }
      read := e.read + 1 }, rfl, ?_, hlt, ?_⟩
    · simp only [step, hy, Link.step, hreader, Option.map_some]
    · have hle := (e.link.toCorrelator.inbound (.binary y.frame)).reader.rank_le
      dsimp only
      omega
  | answering waiter m =>
    refine ⟨.act .handoff, { e with link := { e.link with
      calls := e.link.calls.modify waiter.sender fun call => { call with channel := call.channel.send m }
      reader := .releasing } }, rfl, ?_, hread, ?_⟩
    · simp only [step, Action.isInternal, if_true, Link.step, hreader, Option.map_some]
    · simp [Reader.rank]
  | releasing =>
    refine ⟨.act .release, { e with link := { e.link with requests := e.link.requests.release, reader := .idle } },
      rfl, ?_, hread, ?_⟩
    · simp only [step, Action.isInternal, if_true, Link.step, hreader, Option.map_some]
    · simp [Reader.rank]
  | delivering m =>
    refine ⟨.deliver, { e with
      link := e.link.deliver m
      queued := if (e.link.deliver m).inbox = e.link.inbox then e.queued else e.queued ++ [e.read - 1] },
      rfl, ?_, hread, ?_⟩
    · simp only [step, Link.step, hreader, Option.map_some]
    · simp [Reader.rank]
  | ended => exact absurd hreader hr

/-- **A reader catches up**, in three steps for each frame and two for the one in its hand. -/
theorem Endpoint.exists_catchUp {P : Endpoint → Prop}
    (hP : ∀ e event e', P e → event.isReading = true → e.step peer event = some e' → P e') {N : ℕ}
    (hN : N ≤ peer.length) (he : P e) (hread : e.read ≤ N) (hr : e.link.reader ≠ .ended) :
    ∃ e', e.ReadsTo peer e' ∧ P e' ∧ e'.read = N ∧ e'.link.reader = .idle := by
  have hstep : ∀ e : Endpoint, (P e ∧ e.read ≤ N ∧ e.link.reader ≠ .ended) → 3 * (N - e.read) + e.link.reader.rank ≠ 0 →
      ∃ event e', event.isReading = true ∧ e.step peer event = some e' ∧
        (P e' ∧ e'.read ≤ N ∧ e'.link.reader ≠ .ended) ∧
        3 * (N - e'.read) + e'.link.reader.rank < 3 * (N - e.read) + e.link.reader.rank := by
    rintro e ⟨he, hread, hr⟩ hrank
    obtain ⟨event, e', hevent, hs, hread', hlt⟩ := exists_reading_step hN hread hr hrank
    obtain ⟨a, ha⟩ := reading_of_step hs hevent
    exact ⟨event, e', hevent, hs, ⟨hP e event e' he hevent hs, hread', not_ended_of_reading ha.step ha.reading hr⟩, hlt⟩
  obtain ⟨events, e', hevents, -, hrun, ⟨he', hread', hr'⟩, hrank⟩ :=
    exists_run_of_rank hstep _ e (Nat.le_refl _) ⟨he, hread, hr⟩
  refine ⟨e', ⟨events, hevents, hrun⟩, he', by omega, ?_⟩
  cases hreader : e'.link.reader with
  | idle => rfl
  | answering | releasing | delivering => rw [hreader] at hrank; simp [Reader.rank] at hrank
  | ended => exact absurd hreader hr'

/-- **An application empties its queue**, while the reader stays where it is. -/
theorem Endpoint.exists_drain {P : Endpoint → Prop}
    (hP : ∀ e event e', P e → event.isReading = true → e.step peer event = some e' → P e')
    (hopen : ∀ e, P e → e.link.appOpen = true) (he : P e) :
    ∃ e', e.ReadsTo peer e' ∧ P e' ∧ e'.link.inbox = [] ∧ e'.read = e.read ∧ e'.link.reader = e.link.reader := by
  have hstep : ∀ e₁ : Endpoint, (P e₁ ∧ e₁.read = e.read ∧ e₁.link.reader = e.link.reader) → e₁.link.inbox.length ≠ 0 →
      ∃ event e', event.isReading = true ∧ e₁.step peer event = some e' ∧
        (P e' ∧ e'.read = e.read ∧ e'.link.reader = e.link.reader) ∧ e'.link.inbox.length < e₁.link.inbox.length := by
    rintro e₁ ⟨he, hread, hr⟩ hne
    obtain ⟨m, inbox, hinbox⟩ := List.exists_cons_of_ne_nil (List.ne_nil_of_length_pos (Nat.pos_of_ne_zero hne))
    have hs : e₁.step peer .recv = some { e₁ with
        link := { e₁.link with inbox }
        queued := e₁.queued.tail
        received := e₁.received ++ e₁.queued.head?.toList } := by
      simp only [step, Link.step, hinbox, if_pos (hopen e₁ he), Option.map_some]
    exact ⟨.recv, _, rfl, hs, ⟨hP e₁ .recv _ he rfl hs, hread, hr⟩, by simp [hinbox]⟩
  obtain ⟨events, e', hevents, -, hrun, ⟨he', hread, hr⟩, hrank⟩ :=
    exists_run_of_rank hstep _ e (Nat.le_refl _) ⟨he, rfl, rfl⟩
  exact ⟨e', ⟨events, hevents, hrun⟩, he', List.length_eq_zero_iff.1 hrank, hread, hr⟩

/-! ## One side and its link -/

theorem Endpoint.run_act : ∀ (as : List Action) (e : Endpoint), (∀ a ∈ as, a.isInternal = true) →
    run (Endpoint.step · peer) e (as.map .act) = (run Link.step e.link as).map fun link => { e with link }
  | [], _, _      => rfl
  | a :: as, e, h => by
    rw [List.map_cons, run, run, step, if_pos (h a List.mem_cons_self)]
    cases e.link.step a with
    | none    => rfl
    | some s' => exact run_act as { e with link := s' } fun a' ha' => h a' (List.mem_cons_of_mem _ ha')

theorem Duplex.step_update (d : Duplex) (e : Endpoint) (event : Event) :
    Duplex.step (Function.update d side e) (side, event) =
      (e.step (d.channel side) event).map (Function.update d side) := by
  have hidem : Function.update (Function.update d side e) side = Function.update d side := by
    funext e'
    exact Function.update_idem e e' d
  simp only [Duplex.step, Duplex.channel_update, Function.update_self, hidem]

theorem Duplex.run_side {events : List Event} (d : Duplex)
    (h : run (Endpoint.step · (d.channel side)) (d side) events = some e) :
    run Duplex.step d (events.map (Prod.mk side)) = some (Function.update d side e) := by
  have hrun := run_map (f := Function.update d side) (g := Prod.mk side) (Duplex.step_update d) events (d side)
  rw [Function.update_eq_self] at hrun
  rw [hrun, h, Option.map_some]

/-- **What one side can do, it can do of the pair.** -/
theorem Duplex.reaches_of_side {mine : Event → Prop} {mine' : Side × Event → Prop} (d : Duplex)
    (hmine : ∀ event, mine event → mine' (side, event))
    (h : ReachesBy (Endpoint.step · (d.channel side)) mine (d side) e) :
    ReachesBy Duplex.step mine' d (Function.update d side e) := by
  obtain ⟨events, hevents, hrun⟩ := h
  refine ⟨events.map (Prod.mk side), fun x hx => ?_, Duplex.run_side d hrun⟩
  obtain ⟨event, hevent, rfl⟩ := List.mem_map.1 hx
  exact hmine event (hevents event hevent)

/-! ## The side that is asked -/

/-- A side that can still take up the request `n` of its peer and answer it. -/
structure Endpoint.Asked (e : Endpoint) (peer : List Written) (n : ℕ) (request : DigMessage) : Prop where
  tracked    : e.Tracked peer
  appOpen    : e.link.appOpen = true
  going      : e.link.reader ≠ .ended
  unanswered : Purpose.answers n ∉ e.purposes
  apart      : ∀ k r, request.id = some k → e.link.lookup k = some r → request.msgType ∉ r.expected

/-- A request that is not lost: not read yet, or with the reader, the queue or the application. -/
inductive Endpoint.Holds (e : Endpoint) (n : ℕ) : Prop
  | unread (h : e.read ≤ n)
  | inHand {m : DigMessage} (hr : e.link.reader = .delivering m) (hread : e.read = n + 1)
  | queued (h : n ∈ e.queued)
  | received (h : n ∈ e.received)

theorem Endpoint.Asked.step (h : e.Asked peer n request) (hevent : event.isReading = true)
    (hs : e.step peer event = some e') : e'.Asked peer n request := by
  obtain ⟨a, ha⟩ := reading_of_step hs hevent
  refine ⟨h.tracked.step hs, ?_, not_ended_of_reading ha.step ha.reading h.going, ?_, fun k r hid hl => ?_⟩
  · rw [appOpen_of_reading ha.step ha.reading, h.appOpen]
  · rw [ha.purposes]
    exact h.unanswered
  · cases (Correlator.step_effect ha.step).entryFrom hl with
    | kept hl => exact h.apart k r hid hl
    | recorded _ _ hl₀ _ hr =>
      have hapart := h.apart k _ hid hl₀
      rw [hr]
      exact hapart
    | issued hinsert =>
      have hreading := ha.reading
      rw [hinsert] at hreading
      cases hreading

theorem Endpoint.received_of_drained (h : e.Tracked peer) (hinbox : e.link.inbox = [])
    (hn : n ∈ e.queued ∨ n ∈ e.received) : n ∈ e.received := by
  have hqueued := h.queued
  rw [hinbox, List.map_nil] at hqueued
  rw [List.map_eq_nil_iff.1 hqueued.symm] at hn
  exact hn.resolve_left List.not_mem_nil

theorem Endpoint.exists_received_of_queued (h : e.Asked peer n request) (hn : n ∈ e.queued ∨ n ∈ e.received) :
    ∃ e', e.ReadsTo peer e' ∧ e'.Asked peer n request ∧ n ∈ e'.received := by
  obtain ⟨e', hto, ⟨h', hn'⟩, hinbox, -⟩ :=
    exists_drain (P := fun e => e.Asked peer n request ∧ (n ∈ e.queued ∨ n ∈ e.received))
      (fun e event e' h hevent hs => ⟨h.1.step hevent hs, by
        obtain ⟨a, ha⟩ := reading_of_step hs hevent
        exact ha.kept n h.2⟩)
      (fun e h => h.1.appOpen) ⟨h, hn⟩
  exact ⟨e', hto, h', received_of_drained h'.tracked hinbox hn'⟩

theorem Endpoint.exists_received_of_inHand (h : e.Asked peer n request) (hr : e.link.reader = .delivering m)
    (hread : e.read = n + 1) :
    ∃ e', e.ReadsTo peer e' ∧ e'.Asked peer n request ∧ n ∈ e'.received := by
  obtain ⟨e₁, hto, h₁, hinbox, hread₁, hr₁⟩ :=
    exists_drain (P := fun e => e.Asked peer n request) (fun e event e' h hevent hs => h.step hevent hs)
      (fun e h => h.appOpen) h
  have hs : e₁.step peer .deliver = some { e₁ with
      link := { e₁.link with inbox := [m], reader := .idle }
      queued := e₁.queued ++ [n] } := by
    have hdeliver : e₁.link.deliver m = { e₁.link with inbox := [m], reader := .idle } := by
      rw [Link.deliver, if_pos ⟨h₁.appOpen, by simp [hinbox, inboundChannelCapacity]⟩, hinbox, List.nil_append]
    simp only [step, Link.step, hr₁, hr, Option.map_some, hdeliver, hinbox, hread₁, hread, Nat.add_sub_cancel,
      List.cons_ne_nil, if_false]
  have hdelivers : Event.deliver.isReading = true := rfl
  obtain ⟨e', hto', h', hn⟩ := exists_received_of_queued (h₁.step hdelivers hs) (Or.inl (by simp))
  have hdelivered : e₁.ReadsTo peer _ := .single hdelivers hs
  exact ⟨e', hto.trans (hdelivered.trans hto'), h', hn⟩

/-- **A request that is not lost gets to the application**, if the reader and the application go on. -/
theorem Endpoint.exists_received (h : e.Asked peer n request) (hframe : frameAt peer n = some request)
    (hn : e.Holds n) : ∃ e', e.ReadsTo peer e' ∧ e'.Asked peer n request ∧ n ∈ e'.received := by
  cases hn with
  | received hn => exact ⟨e, .refl, h, hn⟩
  | queued hn => exact exists_received_of_queued h (Or.inl hn)
  | inHand hr hread => exact exists_received_of_inHand h hr hread
  | unread hread =>
    obtain ⟨y, hy, hdecoded⟩ := Option.bind_eq_some_iff.1 hframe
    have hlt := (List.getElem?_eq_some_iff.1 hy).1
    obtain ⟨e₁, hto, h₁, hread₁, hidle⟩ :=
      exists_catchUp (P := fun e => e.Asked peer n request) (fun e event e' h hevent hs => h.step hevent hs)
        (Nat.le_of_lt hlt) h hread h.going
    have hs : e₁.step peer .read = some { e₁ with
        link := { e₁.link with toCorrelator := e₁.link.toCorrelator.inbound (.binary y.frame) }
        read := n + 1 } := by
      simp only [step, hread₁, hy, Link.step, hidle, Option.map_some]
    have hreader : (e₁.link.toCorrelator.inbound (.binary y.frame)).reader = .delivering request := by
      have hlink : e₁.link.step (.inbound (.binary y.frame)) =
          some { e₁.link with toCorrelator := e₁.link.toCorrelator.inbound (.binary y.frame) } := by
        simp only [Link.step, hidle]
      rcases reader_of_frame hlink hdecoded with ⟨k, r, hid, hl, hd, -⟩ | ⟨-, hreader⟩
      · exact absurd hd (h₁.apart k r hid hl)
      · exact hreader
    have hreads : Event.read.isReading = true := rfl
    obtain ⟨e', hto', h', hn⟩ := exists_received_of_inHand (h₁.step hreads hs) hreader rfl
    have hread : e₁.ReadsTo peer _ := .single hreads hs
    exact ⟨e', hto.trans (hread.trans hto'), h', hn⟩

theorem Link.step_lastPost {posts : List Post} {o o' : Outlet} {phase : SendPhase} {ev : SendEvent} {progress : Progress}
    (hs : o.send (.post posts.length) m phase ev = some (progress, o'))
    (hl : Link.sinkAllows { s with posts := posts ++ [⟨m, .sending phase⟩], outlet := o } ev = true) :
    Link.step { s with posts := posts ++ [⟨m, .sending phase⟩], outlet := o } (.postStep posts.length (.send ev)) =
      some { s with posts := posts ++ [⟨m, .ofProgress progress⟩], outlet := o' } := by
  have hstep := Link.step_postSend (s := { s with posts := posts ++ [⟨m, .sending phase⟩], outlet := o })
    List.getElem?_concat_length rfl hs hl
  rw [hstep]
  simp

/-- **A message that the table admits can be sent**, in a window in which nothing has been charged, where the sink takes
a frame. -/
theorem Link.exists_posted {reset : ℕ+} {factor : ℚ} {limits : OpcodeRateLimits}
    (hbuilt : OpcodeRateLimiter.BuiltWith .outbound reset factor limits s.outlet.limiter)
    (hm : limits.Admissible factor m) (hready : s.SinkReady) :
    ∃ (evs : List SendEvent) (s' : Link),
      run Link.step s (.post m :: evs.map fun ev => .postStep s.posts.length (.send ev)) = some s' ∧
      s'.outlet.sink = s.outlet.sink ++ [⟨.post s.posts.length, m.toBytes⟩] := by
  obtain ⟨t, ht⟩ : ∃ t, s.outlet.limiter.period ≠ t / reset :=
    ⟨(s.outlet.limiter.period + 1) * reset, by rw [Nat.mul_div_cancel _ reset.pos]; omega⟩
  have hadmitted := OpcodeRateLimiter.admitAt_of_ne hbuilt hm ht
  obtain ⟨o, hattempt, ho⟩ : ∃ o, s.outlet.send (.post s.posts.length) m .admitting (.attempt t) =
      some (.at .writing, o) ∧ o.sink = s.outlet.sink :=
    ⟨⟨(s.outlet.limiter.admitAt t m).2, s.outlet.sink⟩, by simp only [Outlet.send, hadmitted, Progress.ofAdmission], rfl⟩
  have hlock : o.send (.post s.posts.length) m .writing .lock = some (.at .feeding, o) := rfl
  obtain ⟨o', hfeed, ho'⟩ : ∃ o', o.send (.post s.posts.length) m .feeding (.feed true) = some (.at .flushing, o') ∧
      o'.sink = o.sink ++ [⟨.post s.posts.length, m.toBytes⟩] := ⟨_, rfl, rfl⟩
  have hflush : o'.send (.post s.posts.length) m .flushing (.flush true) = some (.sent, o') := rfl
  refine ⟨[.attempt t, .lock, .feed true, .flush true], _, (run_cons_of_step rfl _).trans
    ((run_cons_of_step (Link.step_lastPost hattempt rfl) _).trans
    ((run_cons_of_step (Link.step_lastPost hlock ?_) _).trans
    ((run_cons_of_step (Link.step_lastPost hfeed ?_) _).trans
    (run_cons_of_step (Link.step_lastPost hflush rfl) [])))), by rw [ho', ho]⟩
  · simpa [Link.sinkAllows, Link.sinkLocked, Post.hasLock, SendPhase.hasLock] using hready.free
  · simpa [Link.sinkAllows] using hready.notDone

/-- What the asked side does towards an answer to the request `n`: it reads, and its application sends. -/
def Event.IsAnswering (n : ℕ) (event : Event) : Prop :=
  event.isReading = true ∨ (∃ m, event = .answer n m) ∨ ∃ p ev, event = .act (.postStep p (.send ev))

/-- **An application that has been given a request can send its answer to it**, where the sink takes a frame. -/
theorem Endpoint.exists_answer {reset : ℕ+} {factor : ℚ} {limits : OpcodeRateLimits} (h : e.Asked peer n request)
    (hn : n ∈ e.received) (hid : ((peer[n]?).bind Written.request?).map DigMessage.id = some m.id)
    (hbuilt : OpcodeRateLimiter.BuiltWith .outbound reset factor limits e.link.outlet.limiter)
    (hm : limits.Admissible factor m) (hready : e.link.SinkReady) :
    ∃ e' w, ReachesBy (Endpoint.step · peer) (Event.IsAnswering n) e e' ∧
      e'.link.outlet.sink = e.link.outlet.sink ++ [⟨w, m.toBytes⟩] := by
  obtain ⟨evs, s', hrun, hsink⟩ := Link.exists_posted hbuilt hm hready
  rw [run_cons_of_step rfl] at hrun
  have hanswer : e.step peer (.answer n m) = some { e with
      link := { e.link with posts := e.link.posts ++ [⟨m, .sending .admitting⟩] }
      purposes := e.purposes ++ [.answers n] } := by
    simp only [step, if_pos (And.intro hn (And.intro h.unanswered hid)), post, Link.step, Option.map_some]
  refine ⟨{ e with link := s', purposes := e.purposes ++ [.answers n] }, .post e.link.posts.length,
    ⟨.answer n m :: (evs.map fun ev => .postStep e.link.posts.length (.send ev)).map .act, by simp [Event.IsAnswering],
      ?_⟩, hsink⟩
  rw [run_cons_of_step hanswer, run_act _ _ (by simp [Action.isInternal]), hrun]
  rfl

/-! ## The side that asks -/

inductive Link.Awaits (s : Link) (c : CallId) (k : UInt16) (expected : List UInt8) : Prop
  | intro {call : Call} {r : Request} (hc : s.calls[c]? = some call) (hp : call.phase = .registered k .waiting)
      (hexpected : call.expected = expected) (hl : s.lookup k = some r) (hr : r.sender = c)

/-- **Reading leaves a call its entry or brings its answer.** -/
theorem Link.Awaits.step {now : ℕ} {factor : ℚ} {limits : OpcodeRateLimits} {tr : List (Link × Action)}
    {expected : List UInt8} (h₀ : Runs Link.step (Link.fromParts now factor limits) tr s) (h : s.Awaits c k expected)
    (hs : s.step a = some s') (ha : a.isReading = true) :
    s'.Awaits c k expected ∨ ∃ m, a.frame? = some m ∧ m.id = some k ∧ m.msgType ∈ expected ∧ s'.Due c k m := by
  obtain ⟨hc, hp, rfl, hl, hr⟩ := h
  cases (step_effect hs).entryFate hl with
  | stays hl' hsender =>
    obtain ⟨call', hc', hfate⟩ := (step_effect hs).callFate hc
    obtain ⟨call₁, hc₁, hcont⟩ := (step_effect hs).continues hc
    rw [hc'] at hc₁
    cases hc₁
    cases hfate with
    | stays hp' => exact Or.inl ⟨hc', hp'.trans hp, hcont.expected, hl', hsender.trans hr⟩
    | own hown => subst hown; cases ha
  | @answered m hf hid hd =>
    obtain ⟨call₀, stage, hc₀, -, hexpected⟩ := linked_of_runs h₀ k _ hl
    rw [hr, hc] at hc₀
    cases hc₀
    rw [← hexpected] at hd
    exact Or.inr ⟨m, hf, hid, hd, due_of_frame h₀ hc hp hl hr hs hf hid hd⟩
  | cancelled hcancel => subst hcancel; cases ha
  | reclaimed hinsert => subst hinsert; cases ha

theorem Link.Awaits.exists_read {now : ℕ} {factor : ℚ} {limits : OpcodeRateLimits} {tr : List (Link × Action)}
    {expected : List UInt8} {y : Written} (h₀ : Runs Link.step (Link.fromParts now factor limits) tr e.link)
    (h : e.link.Awaits c k expected) (hidle : e.link.reader = .idle) (hy : peer[e.read]? = some y)
    (hdecoded : y.decoded = some m) (hid : m.id = some k) (hd : m.msgType ∈ expected) :
    ∃ e', e.step peer .read = some e' ∧ e'.link.Due c k m := by
  obtain ⟨hc, hp, rfl, hl, hr⟩ := h
  have hs : e.link.step (.inbound (.binary y.frame)) =
      some { e.link with toCorrelator := e.link.toCorrelator.inbound (.binary y.frame) } := by
    simp only [Link.step, hidle]
  exact ⟨_, by simp only [Endpoint.step, hy, hs, Option.map_some]; rfl, due_of_frame h₀ hc hp hl hr hs hdecoded hid hd⟩

/-! ## Both sides -/

/-- **A request that is neither lost nor answered**: its call waits, and its frame, of that number among those to the
other side, is not read yet or is with the other's reader, queue or application, which can still send. -/
structure Duplex.Pending (d : Duplex) (side : Side) (c : CallId) (k : UInt16) (expected : List UInt8) (n : ℕ)
    (request : DigMessage) : Prop where
  awaits     : (d side).link.Awaits c k expected
  written    : ∃ y, (d.channel side.other)[n]? = some y ∧ y.writer = .call c ∧ y.decoded = some request
  holds      : (d side.other).Holds n
  unanswered : Purpose.answers n ∉ (d side.other).purposes
  apart      : ∀ r, (d side.other).link.lookup k = some r → request.msgType ∉ r.expected
  appOpen    : (d side.other).link.appOpen = true
  going      : ∀ side, (d side).link.reader ≠ .ended
  sinkOpen   : (d side.other).link.sinkClosing = false

/-- What the two sides do towards an answer: the asking side reads and its call takes what is due to it, and the asked
side answers. -/
def Duplex.Helps (side : Side) (c : CallId) (n : ℕ) (x : Side × Event) : Prop :=
  x.1 = side ∧ (x.2.isReading = true ∨ x.2 = .act (.call c .receive)) ∨ x.1 = side.other ∧ x.2.IsAnswering n

theorem Link.Due.exists_returned (h : (d side).link.Due c k m) (n : ℕ) :
    ∃ d' call, ReachesBy Duplex.step (Duplex.Helps side c n) d d' ∧
      (d' side).link.calls[c]? = some call ∧ call.phase = .registered k (.returned (.ok m)) := by
  obtain ⟨as, link, call, has, -, hrun, hc, hp⟩ := h.exists_run
  have hinternal : ∀ a ∈ as, a.isInternal = true := by
    intro a ha
    rcases has a ha with rfl | rfl <;> rfl
  have hreaches : ReachesBy (Endpoint.step · (d.channel side))
      (fun event => event.isReading = true ∨ event = .act (.call c .receive)) (d side) { d side with link } := by
    refine ⟨as.map .act, fun event hevent => ?_, by rw [Endpoint.run_act as _ hinternal, hrun, Option.map_some]⟩
    obtain ⟨a, ha, rfl⟩ := List.mem_map.1 hevent
    rcases has a ha with rfl | rfl
    · exact Or.inl rfl
    · exact Or.inr rfl
  refine ⟨_, call, Duplex.reaches_of_side d (fun event hevent => Or.inl ⟨rfl, hevent⟩) hreaches, ?_, hp⟩
  rw [Function.update_self]
  exact hc

def Duplex.unread (d : Duplex) (side : Side) : List DigMessage :=
  ((d.channel side).drop (d side).read).filterMap Written.decoded

/-- A message is in a frame that the side has not read yet, or in that of a writer of its peer's that has the lock or is
one of these. -/
def Duplex.OnItsWay (d : Duplex) (side : Side) (ahead : List Writer) (m : DigMessage) : Prop :=
  m ∈ d.unread side ∨ ∃ w m', ((d side.other).link.HasLock w ∨ w ∈ ahead) ∧
    (d side.other).link.message? w = some m' ∧ Written.decoded ⟨w, m'.toBytes⟩ = some m

def Link.AwaitsOrDue (s : Link) (c : CallId) (k : UInt16) (expected : List UInt8) (earlier : List DigMessage) : Prop :=
  s.Awaits c k expected ∨ ∃ m ∈ earlier, m.id = some k ∧ m.msgType ∈ expected ∧ s.Due c k m

/-- The asking side `e` on its way through the frames before its answer: it has read nothing that took its call's entry
without answering it, and written nothing. -/
structure Duplex.Follows (d : Duplex) (side : Side) (c : CallId) (k : UInt16) (expected : List UInt8) (start : Link)
    (e : Endpoint) : Prop where
  runs   : ∃ tr, Runs Link.step start tr e.link
  read   : (d side).read ≤ e.read
  outlet : e.link.outlet = (d side).link.outlet
  call   : e.link.AwaitsOrDue c k expected (d.unread side)

theorem Duplex.Follows.step {expected : List UInt8}
    (he : d.Follows side c k expected (.fromParts (now side) (factor side) (limits side)) e)
    (hevent : event.isReading = true) (h : e.step (d.channel side) event = some e') :
    d.Follows side c k expected (.fromParts (now side) (factor side) (limits side)) e' := by
  obtain ⟨tr, hlink⟩ := he.runs
  obtain ⟨a, ha⟩ := Endpoint.reading_of_step h hevent
  refine ⟨⟨_, hlink.step ha.step⟩, le_trans he.read ha.read, (outlet_of_reading ha.step ha.reading).trans he.outlet, ?_⟩
  rcases he.call with hawaits | ⟨m, hm, hid, hd, hdue⟩
  · refine (hawaits.step hlink ha.step ha.reading).imp_right fun ⟨m, hf, hid, hd, hdue⟩ => ⟨m, ?_, hid, hd, hdue⟩
    -- the frame was unread in `d`
    obtain ⟨y, hy, hdecoded⟩ := ha.frame m hf
    have hunread : y ∈ (d.channel side).drop (d side).read := by
      apply List.mem_of_getElem? (i := e.read - (d side).read)
      rw [List.getElem?_drop, Nat.add_sub_cancel' he.read]
      exact hy
    exact List.mem_filterMap.2 ⟨y, hunread, hdecoded⟩
  · refine Or.inr ⟨m, hm, hid, hd, hdue.step (fun _ => alone_of_runs hlink) ha.step ?_⟩
    have hreading := ha.reading
    constructor <;> rintro rfl <;> cases hreading

theorem Duplex.Pending.exists_caughtUp {expected : List UInt8}
    (h : Runs Duplex.step (Duplex.start now factor limits) tr d) (hd : d.Pending side c k expected n request) :
    ∃ e, (d side).ReadsTo (d.channel side) e ∧
      d.Follows side c k expected (.fromParts (now side) (factor side) (limits side)) e ∧
      e.read = (d.channel side).length ∧ e.link.reader = .idle :=
  Endpoint.exists_catchUp (fun _ _ _ he hevent hs => he.step hevent hs) (Nat.le_refl _)
    ⟨link_runs h side, Nat.le_refl _, rfl, Or.inl hd.awaits⟩ (read_le_of_runs h side) (hd.going side)

theorem Duplex.Pending.request_id {expected : List UInt8}
    (h : Runs Duplex.step (Duplex.start now factor limits) tr d) (hfits : (limits side).FitsHeader)
    (hd : d.Pending side c k expected n request) : request.id = some k := by
  obtain ⟨hc, hp, -, -, -⟩ := hd.awaits
  obtain ⟨y, hy, hw, hdecoded⟩ := hd.written
  obtain ⟨tr', hlink⟩ := link_runs h side
  rw [Duplex.channel, Side.other_other] at hy
  have hmessage := message?_of_decoded (sent_of_runs hlink) hfits (List.mem_of_getElem? hy) hdecoded
  rw [hw, Link.message?_call hc hp] at hmessage
  cases hmessage
  rfl

theorem Duplex.Pending.exists_answered {expected : List UInt8}
    (h : Runs Duplex.step (Duplex.start now factor limits) tr d) (hfits : (limits side).FitsHeader)
    (hd : d.Pending side c k expected n request) (hid : m.id = some k)
    (hm : (limits side.other).Admissible (factor side.other) m) (hready : (d side.other).link.SinkReady) :
    ∃ e w, ReachesBy (Endpoint.step · (d.channel side.other)) (Event.IsAnswering n) (d side.other) e ∧
      e.link.outlet.sink = d.channel side ++ [⟨w, m.toBytes⟩] := by
  have hrequest := hd.request_id h hfits
  obtain ⟨y, hy, hw, hdecoded⟩ := hd.written
  have hasked : (d side.other).Asked (d.channel side.other) n request :=
    ⟨tracked_of_runs h side.other, hd.appOpen, hd.going side.other, hd.unanswered, fun k' r hk' hl => by
      rw [hrequest] at hk'
      cases hk'
      exact hd.apart r hl⟩
  obtain ⟨e, hto, he, hn⟩ := Endpoint.exists_received hasked (Option.bind_eq_some_iff.2 ⟨y, hy, hdecoded⟩) hd.holds
  obtain ⟨tr', hlink⟩ := link_runs h side.other
  have hbuilt := builtWith_of_link_runs hlink
  rw [← hto.outlet] at hbuilt
  obtain ⟨e', w, hwrites, hsink⟩ := Endpoint.exists_answer he hn
    (by simp [hy, Written.request?, hw, hdecoded, hrequest, hid]) hbuilt hm (hto.sinkReady hready)
  refine ⟨e', w, ReachesBy.trans (hto.mono fun _ hevent => Or.inl hevent) hwrites, ?_⟩
  rw [hsink, hto.outlet, Duplex.channel]

theorem Duplex.Pending.of_sameInside {expected : List UInt8} {t : Link} (hd : d.Pending side c k expected n request)
    (h : (d side.other).link.SameInside t) (hopen : t.sinkClosing = false) :
    Duplex.Pending (Function.update d side.other { d side.other with link := t }) side c k expected n request := by
  have hself : Function.update d side.other { d side.other with link := t } side = d side :=
    Function.update_of_ne side.other_ne.symm _ _
  refine ⟨by rw [hself]; exact hd.awaits, by rw [Duplex.channel_update]; exact hd.written, ?_, ?_, fun r hr => ?_, ?_,
    fun side' => ?_, by rw [Function.update_self]; exact hopen⟩
  · rw [Function.update_self]
    cases hd.holds with
    | unread hread => exact .unread hread
    | inHand hr hread => exact .inHand (h.reader.trans hr) hread
    | queued hn => exact .queued hn
    | received hn => exact .received hn
  · rw [Function.update_self]
    exact hd.unanswered
  · rw [Function.update_self] at hr
    refine hd.apart r ?_
    rw [← hr, Correlator.lookup, Correlator.lookup, h.requests]
  · rw [Function.update_self]
    exact h.appOpen.trans hd.appOpen
  · by_cases hside : side' = side.other
    · subst hside
      rw [Function.update_self]
      exact h.reader.symm ▸ hd.going side.other
    · rw [Function.update_of_ne hside]
      exact hd.going side'

theorem Duplex.onItsWay_of_onlyFrom {t : Link} {ahead : List Writer} (hread : (d side).read ≤ (d.channel side).length)
    (h : (d side.other).link.OnlyFrom t fun w => (d side.other).link.HasLock w ∨ w ∈ ahead)
    (hm : m ∈ Duplex.unread (Function.update d side.other { d side.other with link := t }) side) :
    d.OnItsWay side ahead m := by
  rw [Duplex.unread, Duplex.channel, Function.update_self, Function.update_of_ne side.other_ne.symm] at hm
  obtain ⟨frames, hsink, hframes⟩ := h.wrote
  have hread : (d side).read ≤ (d side.other).link.outlet.sink.length := hread
  rw [hsink, List.drop_append_of_le_length hread, List.filterMap_append, List.mem_append] at hm
  refine hm.imp_right fun hm => ?_
  obtain ⟨⟨w, frame⟩, hx, hdecoded⟩ := List.mem_filterMap.1 hm
  obtain ⟨hw, m', hm', rfl⟩ := hframes _ hx
  exact ⟨w, m', hw, hm', hdecoded⟩

theorem Action.isInternal_of_isSinks (h : a.IsSinks) : a.isInternal = true := by
  rcases h with ⟨_ | _, _, rfl⟩ | ⟨_, rfl⟩ <;> rfl

/-- **The lock of the asked side's sink comes round**, and the request is where it was. -/
theorem Duplex.Pending.exists_ready {expected : List UInt8} {ahead : List Writer}
    (h : Runs Duplex.step (Duplex.start now factor limits) tr d) (hd : d.Pending side c k expected n request)
    (hahead : (d side.other).link.Waiting (ahead.map .send)) :
    ∃ frees tr' d', (∀ a ∈ frees, a.needsLock = true) ∧ frees.length ≤ 2 ∧
      ((d side.other).link.sinkLocked = false → frees = []) ∧
      run Duplex.step d ((frees ++ turns false (ahead.map .send)).map fun a => (side.other, .act a)) = some d' ∧
      Runs Duplex.step (Duplex.start now factor limits) tr' d' ∧ d'.Pending side c k expected n request ∧
      (d' side.other).link.SinkReady ∧ ∀ m' ∈ d'.unread side, d.OnItsWay side ahead m' := by
  obtain ⟨_, hlink⟩ := link_runs h side.other
  obtain ⟨frees, t, hneeds, hlen, hnil, hrun, hfree, hdone, honly⟩ := exists_lockFree hlink hahead
  have hnotDone := (hdone (by simp)).trans hd.sinkOpen
  rw [hd.sinkOpen] at hrun
  have hsinks : ∀ a ∈ frees ++ turns false (ahead.map .send), a.IsSinks := fun a ha =>
    (List.mem_append.1 ha).elim (fun ha => Action.isSinks_of_needsLock (hneeds a ha)) isSinks_of_turns
  have hsame : (d side.other).link.SameInside t := by
    have hreaches : ReachesBy Link.step Action.IsSinks (d side.other).link t := ⟨_, hsinks, hrun⟩
    apply hreaches.invariant (P := (d side.other).link.SameInside) ?_ ⟨rfl, rfl, rfl, rfl⟩
    exact fun _ _ _ hsame ha hstep => hsame.trans (sameInside_of_isSinks hstep ha)
  have hside : run (Endpoint.step · (d.channel side.other)) (d side.other)
      ((frees ++ turns false (ahead.map .send)).map .act) = some { d side.other with link := t } := by
    rw [Endpoint.run_act _ _ fun a ha => Action.isInternal_of_isSinks (hsinks a ha), hrun]
    rfl
  have hpair := Duplex.run_side d hside
  rw [List.map_map] at hpair
  refine ⟨frees, _, _, hneeds, hlen, hnil, hpair, h.trans (runs_of_run _ _ hpair), hd.of_sameInside hsame ?_, ?_,
    fun m' hm' => Duplex.onItsWay_of_onlyFrom (read_le_of_runs h side) (honly.mono fun w hw => ?_) hm'⟩
  · have hunlocked : t.closing.hasLock = false := by simp_all [Link.sinkLocked]
    rw [Link.sinkClosing, hnotDone, hunlocked, Bool.or_self]
  · rw [Function.update_self]
    exact ⟨hfree, hnotDone⟩
  · simpa using hw

theorem Duplex.Pending.exists_returned {expected : List UInt8}
    (h : Runs Duplex.step (Duplex.start now factor limits) tr d)
    (hfits : (limits side).FitsHeader) (hd : d.Pending side c k expected n request)
    (hready : (d side.other).link.SinkReady) (hid : m.id = some k)
    (hdeclared : m.msgType ∈ expected) (hlength : m.data.length ≤ DigMessage.maxMessageSize)
    (hm : (limits side.other).Admissible (factor side.other) m) :
    ∃ d' call m', ReachesBy Duplex.step (Duplex.Helps side c n) d d' ∧
      (d' side).link.calls[c]? = some call ∧ call.phase = .registered k (.returned (.ok m')) ∧
      (m' = m ∨ m' ∈ d.unread side ∧ m'.id = some k ∧ m'.msgType ∈ expected) := by
  obtain ⟨e₁, hto₁, hfollows, hread₁, hidle₁⟩ := hd.exists_caughtUp h
  have hcaughtUp : ReachesBy Duplex.step (Duplex.Helps side c n) d (Function.update d side e₁) :=
    Duplex.reaches_of_side d (fun _ hevent => Or.inl ⟨rfl, Or.inl hevent⟩) hto₁
  rcases hfollows.call with hawaits | ⟨m', hm', hid', hd', hdue⟩
  · obtain ⟨e₂, w, hto₂, hsink⟩ := hd.exists_answered h hfits hid hm hready
    obtain ⟨d₁, hd₁⟩ : ∃ d₁ : Duplex, Function.update d side e₁ = d₁ := ⟨_, rfl⟩
    rw [hd₁] at hcaughtUp
    have hother : d₁ side.other = d side.other := by rw [← hd₁, Function.update_of_ne side.other_ne]
    have hchannel : d₁.channel side.other = d.channel side.other := by
      rw [← hd₁, Duplex.channel, Duplex.channel, Side.other_other, Function.update_self, hfollows.outlet]
    rw [← hother, ← hchannel] at hto₂
    have hanswered : ReachesBy Duplex.step (Duplex.Helps side c n) d₁ (Function.update d₁ side.other e₂) :=
      Duplex.reaches_of_side d₁ (fun _ hevent => Or.inr ⟨rfl, hevent⟩) hto₂
    obtain ⟨d₂, hd₂⟩ : ∃ d₂ : Duplex, Function.update d₁ side.other e₂ = d₂ := ⟨_, rfl⟩
    rw [hd₂] at hanswered
    have hself : d₂ side = e₁ := by
      rw [← hd₂, Function.update_of_ne side.other_ne.symm, ← hd₁, Function.update_self]
    -- the answer is the one frame that is unread
    have hy : (d₂.channel side)[e₁.read]? = some ⟨w, m.toBytes⟩ := by
      rw [← hd₂, Duplex.channel, Function.update_self, hsink, hread₁, List.getElem?_concat_length]
    have hdecoded : Written.decoded ⟨w, m.toBytes⟩ = some m := by
      simp only [Written.decoded, Action.frame?, DigMessage.fromBytesOwned_eq, (parse_toBytes_iff m).2 hlength]
    obtain ⟨tr₁, hlink₁⟩ := hfollows.runs
    obtain ⟨e₃, hs, hdue⟩ := hawaits.exists_read hlink₁ hidle₁ hy hdecoded hid hdeclared
    have hread : Duplex.step d₂ (side, .read) = some (Function.update d₂ side e₃) := by
      simp only [Duplex.step, hself, hs, Option.map_some]
    have hreads : ReachesBy Duplex.step (Duplex.Helps side c n) d₂ (Function.update d₂ side e₃) :=
      .single (Or.inl ⟨rfl, Or.inl rfl⟩) hread
    obtain ⟨d', call, hreturned, hc, hp⟩ := Link.Due.exists_returned (d := Function.update d₂ side e₃)
      (by rw [Function.update_self]; exact hdue) n
    exact ⟨d', call, m, hcaughtUp.trans (hanswered.trans (hreads.trans hreturned)), hc, hp, Or.inl rfl⟩
  · obtain ⟨d', call, hreturned, hc, hp⟩ := Link.Due.exists_returned (d := Function.update d side e₁)
      (by rw [Function.update_self]; exact hdue) n
    exact ⟨d', call, m', hcaughtUp.trans hreturned, hc, hp, Or.inr ⟨hm', hid', hd'⟩⟩

/-- **A request that is not lost can be answered.**  Take any reachable state of the two links in which a call waits, its
request is neither lost nor answered and the asked side has not closed its sink, whatever else is under way on either of
them, and any order in which the lock of that sink serves those that wait for it.  The lock comes round, and then there
are steps of the two readers, of the application that is asked and of the call, and of nobody else, after which the call
has returned the answer, or an earlier message with its id that was already on its way to it. -/
theorem answerable_of_pending {expected : List UInt8} (h : Runs Duplex.step (Duplex.start now factor limits) tr d)
    (hfits : (limits side).FitsHeader) (hd : d.Pending side c k expected n request) {ahead : List Writer}
    (hahead : (d side.other).link.Waiting (ahead.map .send)) (hid : m.id = some k)
    (hdeclared : m.msgType ∈ expected) (hlength : m.data.length ≤ DigMessage.maxMessageSize)
    (hm : (limits side.other).Admissible (factor side.other) m) :
    ∃ frees d₁ d' call m', (∀ a ∈ frees, a.needsLock = true) ∧ frees.length ≤ 2 ∧
      ((d side.other).link.sinkLocked = false → frees = []) ∧
      run Duplex.step d ((frees ++ turns false (ahead.map .send)).map fun a => (side.other, .act a)) = some d₁ ∧
      ReachesBy Duplex.step (Duplex.Helps side c n) d₁ d' ∧
      (d' side).link.calls[c]? = some call ∧ call.phase = .registered k (.returned (.ok m')) ∧
      (m' = m ∨ d.OnItsWay side ahead m' ∧ m'.id = some k ∧ m'.msgType ∈ expected) := by
  obtain ⟨frees, _, d₁, hneeds, hlen, hnil, hfrees, hrun₁, hd₁, hready, honWay⟩ := hd.exists_ready h hahead
  obtain ⟨d', call, m', hreaches, hc, hp, hm'⟩ := hd₁.exists_returned hrun₁ hfits hready hid hdeclared hlength hm
  exact ⟨frees, d₁, d', call, m', hneeds, hlen, hnil, hfrees, hreaches, hc, hp,
    hm'.imp_right fun ⟨hunread, hrest⟩ => ⟨honWay m' hunread, hrest⟩⟩

/-- Each side waits for the other, with the same id, and a message of the asked application's waits for the lock. -/
def bothWait : List (Side × Event) :=
  requestSteps .a 220 [221] ++ requestSteps .b 230 [231] ++
    [(.b, .send ⟨232, none, []⟩), (.b, .act (.postStep 0 (.send (.attempt 0))))]

theorem answerable_of_pending_bothWait : ∃ tr d d₁ d' call, Runs Duplex.step startDefault tr d ∧
    run Duplex.step d ((turns false [.send (.post 0)]).map fun a => (.b, .act a)) = some d₁ ∧
    ReachesBy Duplex.step (Duplex.Helps .a 0 0) d₁ d' ∧ (d' .a).link.calls[0]? = some call ∧
    call.phase = .registered 0 (.returned (.ok ⟨221, some 0, [2]⟩)) := by
  have hsome : (run Duplex.step startDefault bothWait).isSome = true := by decide +kernel
  generalize hd : reach Duplex.step startDefault bothWait = d
  have hrun := runs_reach hsome
  rw [hd] at hrun
  have hcall : (d .a).link.calls[0]? = some ⟨220, [], [221], .new, .registered 0 .waiting⟩ := by
    rw [← hd]; decide +kernel
  have hentry : (d .a).link.lookup 0 = some ⟨0, [221], none⟩ := by rw [← hd]; decide +kernel
  have hframe : (d.channel .b)[0]? = some ⟨.call 0, DigMessage.toBytes ⟨220, some 0, []⟩⟩ := by
    rw [← hd]; decide +kernel
  have hother : (d .b).link.lookup 0 = some ⟨0, [231], none⟩ := by rw [← hd]; decide +kernel
  have hunread : d.unread .a = [⟨230, some 0, []⟩] := by rw [← hd]; decide +kernel
  have hfree : (d Side.a.other).link.sinkLocked = false := by rw [← hd]; decide +kernel
  have hwriting : (d Side.a.other).link.sendPhase? (.post 0) = some .writing := by rw [← hd]; decide +kernel
  have hmessage : (d Side.a.other).link.message? (.post 0) = some ⟨232, none, []⟩ := by rw [← hd]; decide +kernel
  have hpending : d.Pending .a 0 0 [221] 0 ⟨220, some 0, []⟩ :=
    { awaits     := ⟨hcall, rfl, rfl, hentry, rfl⟩
      written    := ⟨_, hframe, rfl, by decide +kernel⟩
      holds      := .unread (by rw [← hd]; decide +kernel)
      unanswered := by rw [← hd]; decide +kernel
      apart      := fun r hr => by
        rw [show (d Side.a.other).link.lookup 0 = _ from hother] at hr
        cases hr
        decide
      appOpen    := by rw [← hd]; decide +kernel
      going      := fun side => by rw [← hd]; cases side <;> decide +kernel
      sinkOpen   := by rw [← hd]; decide +kernel }
  have hahead : (d Side.a.other).link.Waiting ([.post 0].map .send) := by
    refine ⟨fun w hw => ?_, by simp⟩
    simp only [List.map_cons, List.map_nil, List.mem_singleton, Waiter.send.injEq] at hw
    rw [hw, hwriting]
  obtain ⟨frees, d₁, d', call, m', -, -, hnil, hturns, hreaches, hc, hp, hm'⟩ :=
    answerable_of_pending (m := ⟨221, some 0, [2]⟩) hrun fitsHeader_defaultOnly hpending hahead rfl (by decide)
      (by decide) ⟨by decide +kernel, by decide +kernel, by decide +kernel⟩
  rw [hnil hfree] at hturns
  rcases hm' with rfl | ⟨hm' | ⟨w, m'', hw | hw, hm'', hdecoded⟩, hid, hd'⟩
  · exact ⟨_, d, d₁, d', call, hrun, hturns, hreaches, hc, hp⟩
  · rw [hunread, List.mem_singleton] at hm'
    rw [hm'] at hd'
    simp at hd'
  · rw [hw.sinkLocked] at hfree
    cases hfree
  · rw [List.mem_singleton.1 hw, hmessage] at hm''
    cases hm''
    have hread : Written.decoded ⟨w, DigMessage.toBytes ⟨232, none, []⟩⟩ = some ⟨232, none, []⟩ := by
      simp only [Written.decoded, Action.frame?, DigMessage.fromBytesOwned_eq]
      decide +kernel
    rw [hread] at hdecoded
    cases hdecoded
    cases hid

/-! ## A lost request -/

/-- **A request that is lost stays lost**: what a side holds it held before the step, or had not read yet. -/
theorem Endpoint.holds_of_step (he : e.Tracked peer) (h : e.step peer event = some e') (hn : e'.Holds n) :
    e.Holds n := by
  -- an event that leaves `read` and the queue alone and brings in no frame
  have hquiet : ∀ {a : Action} {link : Link} {purposes : List Purpose}, e.link.step a = some link → a.frame? = none →
      Holds { e with link, purposes } n → e.Holds n := by
    intro a link purposes hlink hf hn
    cases hn with
    | unread hread => exact .unread hread
    | queued hn => exact .queued hn
    | received hn => exact .received hn
    | inHand hr hread =>
      rcases delivering_of_step hlink hr with hr | hm
      · exact .inHand hr hread
      · rw [hf] at hm
        cases hm
  cases event with
  | act a =>
    simp only [step, Option.ite_none_right_eq_some] at h
    obtain ⟨hinternal, h⟩ := h
    obtain ⟨link, hlink, rfl⟩ := Option.map_eq_some_iff.1 h
    exact hquiet hlink (by cases a <;> simp_all [Action.isInternal, Action.frame?]) hn
  | send message =>
    simp only [step] at h
    obtain ⟨link, hlink, rfl⟩ := Option.map_eq_some_iff.1 h
    exact hquiet hlink rfl hn
  | answer n' message =>
    simp only [step, Option.ite_none_right_eq_some] at h
    obtain ⟨link, hlink, rfl⟩ := Option.map_eq_some_iff.1 h.2
    exact hquiet hlink rfl hn
  | control item =>
    simp only [step, Option.ite_none_right_eq_some] at h
    obtain ⟨hcontrol, h⟩ := h
    obtain ⟨link, hlink, rfl⟩ := Option.map_eq_some_iff.1 h
    exact hquiet hlink (by cases item <;> simp_all [Item.isControl, Action.frame?]) hn
  | read =>
    simp only [step] at h
    split at h
    · cases h
    · obtain ⟨link, hlink, rfl⟩ := Option.map_eq_some_iff.1 h
      cases hn with
      | unread hread => exact .unread (Nat.le_of_succ_le hread)
      | inHand hr hread => exact .unread (Nat.le_of_eq (Nat.succ.inj hread))
      | queued hn => exact .queued hn
      | received hn => exact .received hn
  | deliver =>
    obtain ⟨link, hlink, rfl⟩ := Option.map_eq_some_iff.1 h
    cases Link.stepped_of_step hlink with
    | @deliver m hr =>
      obtain ⟨n', hread', -⟩ := he.reader m hr
      cases hn with
      | unread hread => exact .unread hread
      | inHand hr' hread => simp at hr'
      | received hn => exact .received hn
      | queued hn =>
        dsimp only at hn
        split at hn
        · exact .queued hn
        · rcases List.mem_append.1 hn with hn | hn
          · exact .queued hn
          · rw [hread', Nat.add_sub_cancel, List.mem_singleton] at hn
            exact .inHand hr (by rw [hread', hn])
  | recv =>
    obtain ⟨link, hlink, rfl⟩ := Option.map_eq_some_iff.1 h
    cases Link.stepped_of_step hlink with
    | recv =>
      cases hn with
      | unread hread => exact .unread hread
      | inHand hr hread => exact .inHand hr hread
      | queued hn => exact .queued (List.mem_of_mem_tail hn)
      | received hn =>
        rcases List.mem_append.1 hn with hn | hn
        · exact .received hn
        · exact .queued (List.mem_of_mem_head? (Option.mem_toList.1 hn))

variable {tr' : List (Duplex × Side × Event)}

theorem holds_of_runs (h₀ : Runs Duplex.step (Duplex.start now factor limits) tr d) (h : Runs Duplex.step d tr' d')
    (hn : (d' side).Holds n) : (d side).Holds n := by
  induction h with
  | start => exact hn
  | @step tr' d₁ d₂ x hrun hstep ih =>
    apply ih
    have htracked := tracked_of_runs (h₀.trans hrun) side
    obtain ⟨e, he, rfl⟩ := Duplex.step_eq_some hstep
    by_cases hside : side = x.1
    · subst hside
      rw [Function.update_self] at hn
      exact Endpoint.holds_of_step htracked he hn
    · rwa [Function.update_of_ne hside] at hn

theorem channel_prefix_of_runs (h : Runs Duplex.step d tr' d') (side : Side) : d.channel side <+: d'.channel side := by
  apply h.invariant (P := fun d' => d.channel side <+: d'.channel side) (List.prefix_refl _)
  exact fun d₁ x d₂ hprefix hstep => hprefix.trans (channel_prefix_of_step hstep side)

theorem Link.Sent.index_unique {table : OpcodeRateLimits} {y y' : Written} {n' : ℕ} (hs : s.Sent table)
    (hy : s.outlet.sink[n]? = some y) (hy' : s.outlet.sink[n']? = some y') (hw : y.writer = y'.writer) : n = n' := by
  apply (List.getElem?_inj (by simpa using (List.getElem?_eq_some_iff.1 hy).1) hs.once).1
  simp [List.getElem?_map, hy, hy', hw]

/-- **A request that is lost is never answered.**  Once the asked side has read the frame of a call's request and
neither its reader, its queue nor its application has it, none of them has it ever again, whatever the two sides do; and
as long as the calls are few, their opcodes apart and the applications put ids on answers alone, the call returns no
message. -/
theorem lost_for_good (h : Runs Duplex.step (Duplex.start now factor limits) tr d)
    (hfits : ∀ side, (limits side).FitsHeader)
    {y : Written} (hy : (d.channel side.other)[n]? = some y) (hw : y.writer = .call c)
    (hlost : ¬ (d side.other).Holds n) :
    ∀ tr' d', Runs Duplex.step d tr' d' → ¬ (d' side.other).Holds n ∧
      (d'.Few → d'.OpcodesApart → d'.Disciplined →
        ∀ call k m, (d' side).link.calls[c]? = some call → call.phase ≠ .registered k (.returned (.ok m))) := by
  intro tr' d' h'
  have hlost' : ¬ (d' side.other).Holds n := fun hholds => hlost (holds_of_runs h h' hholds)
  refine ⟨hlost', fun hfew hapart hdisciplined call k m hc hp => ?_⟩
  obtain ⟨p, -, n', y', -, hn', hy', hw'⟩ :=
    answered_of_duplex_runs (h.trans h') hfits hfew hapart hdisciplined side c m (Or.inr ⟨call, hc, Or.inr ⟨k, hp⟩⟩)
  have hsent := getElem?_extend (channel_prefix_of_runs h' side.other) hy
  rw [Duplex.channel, Side.other_other] at hsent
  obtain ⟨_, hlink⟩ := link_runs (h.trans h') side
  obtain rfl := (sent_of_runs hlink).index_unique hsent hy' (hw.trans hw'.symm)
  exact hlost' (.received hn')

theorem lost_for_good_closed : ∃ tr d, Runs Duplex.step startDefault tr d ∧
    (d .a).link.calls[0]? = some ⟨220, [], [221], .new, .registered 0 .waiting⟩ ∧
    ∀ tr' d', Runs Duplex.step d tr' d' → ¬ (d' .b).Holds 0 ∧ (d'.Few → d'.OpcodesApart → d'.Disciplined →
      ∀ call k m, (d' .a).link.calls[0]? = some call → call.phase ≠ .registered k (.returned (.ok m))) := by
  have hsome : (run Duplex.step startDefault
      (requestSteps .a 220 [221] ++ [(.b, .act .closeApp), (.b, .read), (.b, .deliver)])).isSome = true := by
    decide +kernel
  generalize hd : reach Duplex.step startDefault
    (requestSteps .a 220 [221] ++ [(.b, .act .closeApp), (.b, .read), (.b, .deliver)]) = d
  have hrun := runs_reach hsome
  rw [hd] at hrun
  have hframe : (d.channel .b)[0]? = some ⟨.call 0, DigMessage.toBytes ⟨220, some 0, []⟩⟩ := by
    rw [← hd]; decide +kernel
  have hrest : (d Side.a.other).read = 1 ∧ (d Side.a.other).link.reader = .idle ∧ (d Side.a.other).queued = [] ∧
      (d Side.a.other).received = [] := by rw [← hd]; decide +kernel
  have hlost : ¬ (d Side.a.other).Holds 0 := by
    obtain ⟨hread, hr, hqueued, hreceived⟩ := hrest
    rintro (hn | ⟨hr', -⟩ | hn | hn)
    · rw [hread] at hn
      cases hn
    · rw [hr] at hr'
      cases hr'
    · rw [hqueued] at hn
      cases hn
    · rw [hreceived] at hn
      cases hn
  exact ⟨_, d, hrun, by rw [← hd]; decide +kernel,
    lost_for_good hrun (fun _ => fitsHeader_defaultOnly) hframe rfl hlost⟩

end Dig
