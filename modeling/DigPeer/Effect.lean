import DigPeer.Link
/-!
# Effect — what one step of a link does

`Link.Stepped s a s'` and, for the correlator alone, `Effect s a s'` list every way an action changes a link, with what
was so before it.  `stepped_of_step` and `step_effect` read them off the step function once; everything later about
entries, calls, answers and sends is by cases on them.
-/
namespace Dig

/-! ## Steps of a link -/

namespace Link

@[simp] theorem deliver_toCorrelator (s : Link) (m : DigMessage) :
    (s.deliver m).toCorrelator = { s.toCorrelator with reader := .idle } := by
  unfold deliver
  split <;> rfl

@[simp] theorem deliver_outlet (s : Link) (m : DigMessage) : (s.deliver m).outlet = s.outlet := by
  unfold deliver
  split <;> rfl

@[simp] theorem deliver_posts (s : Link) (m : DigMessage) : (s.deliver m).posts = s.posts := by
  unfold deliver
  split <;> rfl

@[simp] theorem deliver_closing (s : Link) (m : DigMessage) : (s.deliver m).closing = s.closing := by
  unfold deliver
  split <;> rfl

inductive Stepped (s : Link) : Action → Link → Prop
  | request (opcode : UInt8) (data : Bytes) (expected : List UInt8) :
      Stepped s (.request opcode data expected) { s with calls := s.calls ++ [.new opcode data expected] }
  | callSend {c : CallId} {e : SendEvent} {call : Call} {id : UInt16} {phase : SendPhase} {progress : Progress}
      {outlet : Outlet} (hc : s.calls[c]? = some call) (hp : call.phase = .registered id (.sending phase))
      (hs : s.outlet.send (.call c) (call.message id) phase e = some (progress, outlet))
      (hl : s.sinkAllows e = true) : Stepped s (.call c (.send e))
        { s with toCorrelator := s.modifyCall c (.goTo (.registered id (.ofProgress progress))), outlet }
  | callStep {c : CallId} {e : CallEvent} {t : Correlator} (he : ∀ e', e ≠ .send e')
      (ht : s.toCorrelator.callStep c e = some t) : Stepped s (.call c e) { s with toCorrelator := t }
  | post (m : DigMessage) : Stepped s (.post m) { s with posts := s.posts ++ [⟨m, .sending .admitting⟩] }
  | postSend {p : ℕ} {e : SendEvent} {post : Post} {phase : SendPhase} {progress : Progress} {outlet : Outlet}
      (hpost : s.posts[p]? = some post) (hp : post.phase = .sending phase)
      (hs : s.outlet.send (.post p) post.message phase e = some (progress, outlet))
      (hl : s.sinkAllows e = true) :
      Stepped s (.postStep p (.send e)) { s with posts := s.posts.set p ⟨post.message, .ofProgress progress⟩, outlet }
  | postAbandon {p : ℕ} {post : Post} {phase : SendPhase} (hpost : s.posts[p]? = some post)
      (hp : post.phase = .sending phase) :
      Stepped s (.postStep p .abandon) { s with posts := s.posts.set p ⟨post.message, .dropped⟩ }
  | close {e : CloseEvent} {closing : Closing} (hl : s.close e = some closing) :
      Stepped s (.close e) { s with closing }
  | inbound (item : Item) (hr : s.reader = .idle) :
      Stepped s (.inbound item) { s with toCorrelator := s.toCorrelator.inbound item }
  | handoff {waiter : Request} {m : DigMessage} (hr : s.reader = .answering waiter m) :
      Stepped s .handoff
        { s with
          calls := s.calls.modify waiter.sender fun call => { call with channel := call.channel.send m }
          reader := .releasing }
  | release (hr : s.reader = .releasing) : Stepped s .release { s with requests := s.requests.release, reader := .idle }
  | deliver {m : DigMessage} (hr : s.reader = .delivering m) : Stepped s .deliver (s.deliver m)
  | recv {m : DigMessage} {inbox : List DigMessage} (hi : s.inbox = m :: inbox) (ho : s.appOpen = true) :
      Stepped s .recv { s with inbox }
  | closeApp : Stepped s .closeApp { s with appOpen := false }

variable {s s' : Link} {a : Action}

theorem send_eq_some_iff {w : Writer} {m : DigMessage} {phase : SendPhase} {e : SendEvent} {x : Progress × Outlet} :
    s.send w m phase e = some x ↔ s.outlet.send w m phase e = some x ∧ s.sinkAllows e = true := by
  rw [send, Option.ite_none_right_eq_some, and_comm]

theorem stepped_of_callSend {c : CallId} {e : SendEvent} (h : s.callSend c e = some s') :
    s.Stepped (.call c (.send e)) s' := by
  unfold callSend at h
  cases hc : s.calls[c]? with
  | none      => rw [hc] at h; cases h
  | some call =>
    simp only [hc] at h
    split at h
    · rename_i id phase hp
      cases hs : s.send (.call c) (call.message id) phase e with
      | none        => rw [hs] at h; cases h
      | some result =>
        rw [hs] at h
        cases h
        obtain ⟨hs, hl⟩ := send_eq_some_iff.1 hs
        exact .callSend hc hp hs hl
    · cases h

theorem stepped_of_postStep {p : ℕ} {e : PostEvent} (h : s.postStep p e = some s') : s.Stepped (.postStep p e) s' := by
  unfold postStep at h
  cases hpost : s.posts[p]? with
  | none      => rw [hpost] at h; cases h
  | some post =>
    cases hp : post.phase with
    | sending phase =>
      cases e with
      | send e =>
        cases hs : s.send (.post p) post.message phase e with
        | none        => simp only [hpost, hp, hs] at h; cases h
        | some result =>
          simp only [hpost, hp, hs] at h
          cases h
          obtain ⟨hs, hl⟩ := send_eq_some_iff.1 hs
          exact .postSend hpost hp hs hl
      | abandon =>
        simp only [hpost, hp] at h
        cases h
        exact .postAbandon hpost hp
    | returned | dropped => simp only [hpost, hp] at h; cases h

/-- **Every step is one of these.** -/
theorem stepped_of_step (h : s.step a = some s') : s.Stepped a s' := by
  cases a with
  | request opcode data expected => cases h; exact .request opcode data expected
  | call c e =>
    cases e with
    | send e => exact stepped_of_callSend h
    | acquire | insert | receive | expire | cancel | finish | abandon =>
      obtain ⟨t, ht, rfl⟩ := Option.map_eq_some_iff.1 h
      exact .callStep (fun _ he => by cases he) ht
  | post message => cases h; exact .post message
  | postStep p e => exact stepped_of_postStep h
  | close e =>
    obtain ⟨closing, hl, rfl⟩ := Option.map_eq_some_iff.1 h
    exact .close hl
  | inbound item =>
    cases hr : s.reader with
    | idle => simp only [step, hr] at h; cases h; exact .inbound item hr
    | answering | releasing | delivering | ended => simp only [step, hr] at h; cases h
  | handoff =>
    cases hr : s.reader with
    | answering waiter m => simp only [step, hr] at h; cases h; exact .handoff hr
    | idle | releasing | delivering | ended => simp only [step, hr] at h; cases h
  | release =>
    cases hr : s.reader with
    | releasing => simp only [step, hr] at h; cases h; exact .release hr
    | idle | answering | delivering | ended => simp only [step, hr] at h; cases h
  | deliver =>
    cases hr : s.reader with
    | delivering m => simp only [step, hr] at h; cases h; exact .deliver hr
    | idle | answering | releasing | ended => simp only [step, hr] at h; cases h
  | recv =>
    cases hi : s.inbox with
    | nil          => simp only [step, hi] at h; cases h
    | cons m inbox =>
      simp only [step, hi, Option.ite_none_right_eq_some] at h
      obtain ⟨ho, h⟩ := h
      cases h
      exact .recv hi ho
  | closeApp => cases h; exact .closeApp

end Link

/-! ## What it does to the correlator -/

namespace Action

def frame? : Action → Option DigMessage
  | .inbound (.binary bytes) => match DigMessage.fromBytesOwned bytes with
    | .ok m    => m
    | .error _ => none
  | _ => none

def IsOutside : Action → Prop
  | .post _ | .postStep _ _ | .close _ | .recv | .closeApp => True
  | _ => False

end Action

def Stage.CanAbandon : Stage → Prop
  | .sending _ | .cancelling _ | .waiting | .expired => True
  | _ => False

namespace Correlator

def lookup (s : Correlator) (id : UInt16) : Option Request := s.requests.items.lookup id

inductive Effect (s : Correlator) : Action → Correlator → Prop
  | outside {a : Action} (ha : a.IsOutside) : Effect s a s
  | request (opcode : UInt8) (data : Bytes) (expected : List UInt8) :
      Effect s (.request opcode data expected) { s with calls := s.calls ++ [.new opcode data expected] }
  | acquire {c : CallId} {call : Call} (hc : s.calls[c]? = some call) (hp : call.phase = .acquiring)
      (hcapacity : 0 < s.requests.capacity) :
      Effect s (.call c .acquire)
        { s.modifyCall c (.goTo .inserting) with
          requests := { s.requests with capacity := s.requests.capacity - 1 } }
  | insert {c : CallId} {call : Call} {id : UInt16} {requests : RequestMap} (hc : s.calls[c]? = some call)
      (hp : call.phase = .inserting) (hi : s.requests.insert s.isClosed c call.expected = some (id, requests)) :
      Effect s (.call c .insert)
        { s.modifyCall c (.goTo (.registered id (.sending .admitting))) with requests }
  | send {c : CallId} {call : Call} {id : UInt16} {phase : SendPhase} {e : SendEvent} {o o' : Outlet}
      {progress : Progress} (hc : s.calls[c]? = some call) (hp : call.phase = .registered id (.sending phase))
      (ho : o.send (.call c) (call.message id) phase e = some (progress, o')) :
      Effect s (.call c (.send e)) (s.modifyCall c (.goTo (.registered id (.ofProgress progress))))
  | receive {c : CallId} {call : Call} {id : UInt16} {result : Except LinkError DigMessage}
      (hc : s.calls[c]? = some call) (hp : call.phase = .registered id .waiting)
      (hr : call.channel.poll = some result) :
      Effect s (.call c .receive) (s.modifyCall c (.goTo (.registered id (.returned result)) ∘ .dropReceiver))
  | expire {c : CallId} {call : Call} {id : UInt16} (hc : s.calls[c]? = some call)
      (hp : call.phase = .registered id .waiting) :
      Effect s (.call c .expire) (s.modifyCall c (.goTo (.registered id .expired) ∘ .dropReceiver))
  | cancel {c : CallId} {call : Call} {id : UInt16} {stage : Stage} {error : LinkError}
      (hc : s.calls[c]? = some call) (hp : call.phase = .registered id stage)
      (hs : stage = .cancelling error ∨ stage = .expired ∧ error = expiryError call (s.lookup id)) :
      Effect s (.call c .cancel)
        { s.modifyCall c (.goTo (.registered id (.reclaimed (s.lookup id) error))) with
          requests := (s.requests.cancel id).2 }
  | finish {c : CallId} {call : Call} {id : UInt16} {request : Option Request} {error : LinkError}
      (hc : s.calls[c]? = some call) (hp : call.phase = .registered id (.reclaimed request error)) :
      Effect s (.call c .finish)
        ((s.dropRequest request).modifyCall c (.goTo (.registered id (.returned (.error error))) ∘ .dropReceiver))
  | withdraw {c : CallId} {call : Call} (hc : s.calls[c]? = some call) (hp : call.phase = .acquiring) :
      Effect s (.call c .abandon) (s.modifyCall c (.goTo .withdrawn ∘ .dropReceiver))
  | withdrawPermit {c : CallId} {call : Call} (hc : s.calls[c]? = some call) (hp : call.phase = .inserting) :
      Effect s (.call c .abandon)
        { s.modifyCall c (.goTo .withdrawn ∘ .dropReceiver) with requests := s.requests.release }
  | abandon {c : CallId} {call : Call} {id : UInt16} {stage : Stage} (hc : s.calls[c]? = some call)
      (hp : call.phase = .registered id stage) (hs : stage.CanAbandon) :
      Effect s (.call c .abandon) (s.modifyCall c (.goTo (.registered id .dropped) ∘ .dropReceiver))
  | skip {item : Item} {reader : Reader} (hr : s.reader = .idle) (hf : (Action.inbound item).frame? = none)
      (hn : reader = .idle ∨ reader = .ended) : Effect s (.inbound item) { s with reader }
  | pass {item : Item} {m : DigMessage} (hr : s.reader = .idle) (hf : (Action.inbound item).frame? = some m)
      (hu : ∀ id, m.id = some id → s.lookup id = none) :
      Effect s (.inbound item) { s with reader := .delivering m }
  | collide {item : Item} {m : DigMessage} {id : UInt16} {r : Request} (hr : s.reader = .idle)
      (hf : (Action.inbound item).frame? = some m) (hid : m.id = some id) (hl : s.lookup id = some r)
      (hd : m.msgType ∉ r.expected) :
      Effect s (.inbound item)
        { s with
          requests := { s.requests with
            items := s.requests.items.insert id { r with undeclared := some m.msgType } }
          reader := .delivering m }
  | answer {item : Item} {m : DigMessage} {id : UInt16} {r : Request} (hr : s.reader = .idle)
      (hf : (Action.inbound item).frame? = some m) (hid : m.id = some id) (hl : s.lookup id = some r)
      (hd : m.msgType ∈ r.expected) :
      Effect s (.inbound item)
        { s with
          requests := { s.requests with items := s.requests.items.erase id }
          reader := .answering r m }
  | handoff {waiter : Request} {m : DigMessage} (hr : s.reader = .answering waiter m) :
      Effect s .handoff
        { s with
          calls := s.calls.modify waiter.sender fun call => { call with channel := call.channel.send m }
          reader := .releasing }
  | release (hr : s.reader = .releasing) :
      Effect s .release { s with requests := s.requests.release, reader := .idle }
  | deliver {m : DigMessage} (hr : s.reader = .delivering m) : Effect s .deliver { s with reader := .idle }

theorem effect_route {s : Correlator} {item : Item} {m : DigMessage} (hr : s.reader = .idle)
    (hf : (Action.inbound item).frame? = some m) : Effect s (.inbound item) (s.route m) := by
  cases hid : m.id with
  | none =>
    simp only [route, hid]
    exact .pass hr hf fun id h => by rw [hid] at h; cases h
  | some id =>
    cases hl : s.requests.items.lookup id with
    | none =>
      simp only [route, hid, RequestMap.take_of_none hl]
      refine .pass hr hf fun k hk => ?_
      rw [hid] at hk
      cases hk
      exact hl
    | some r =>
      by_cases hd : m.msgType ∈ r.expected
      · simp only [route, hid, RequestMap.take_of_mem hl hd]
        exact .answer hr hf hid hl hd
      · simp only [route, hid, RequestMap.take_of_notMem hl hd]
        exact .collide hr hf hid hl hd

theorem effect_skip {s : Correlator} {item : Item} (hr : s.reader = .idle) (hf : (Action.inbound item).frame? = none) :
    Effect s (.inbound item) s := by
  have h := Effect.skip hr hf (Or.inl rfl)
  rwa [← hr] at h

theorem effect_inbound {s : Correlator} (hr : s.reader = .idle) : ∀ (item : Item),
    Effect s (.inbound item) (s.inbound item)
  | .close | .error | .finished    => .skip hr rfl (Or.inr rfl)
  | .ping | .pong | .frame | .text => effect_skip hr rfl
  | .binary bytes => by
    cases hb : DigMessage.fromBytesOwned bytes with
    | error e =>
      simp only [inbound, hb]
      exact .skip hr (by simp only [Action.frame?, hb]) (Or.inr rfl)
    | ok m =>
      cases m with
      | none =>
        simp only [inbound, hb]
        exact effect_skip hr (by simp only [Action.frame?, hb])
      | some m =>
        simp only [inbound, hb]
        exact effect_route hr (by simp only [Action.frame?, hb])

/-- Split by the phase the call is in, then by the event; `callStep` refuses every pair not named here. -/
theorem effect_callStep {s s' : Correlator} {c : CallId} {e : CallEvent} (h : s.callStep c e = some s') :
    Effect s (.call c e) s' := by
  unfold callStep at h
  split at h
  · cases h
  rename_i call hc
  cases hp : call.phase with
  | acquiring =>
    rw [hp] at h
    cases e with
    | acquire =>
      cases hacquire : s.requests.acquire with
      | none          => rw [hacquire] at h; cases h
      | some requests =>
        rw [hacquire] at h
        obtain ⟨hcapacity, rfl⟩ := RequestMap.acquire_eq_some_iff.1 hacquire
        cases h
        exact .acquire hc hp hcapacity
    | abandon => cases h; exact .withdraw hc hp
    | insert | send | receive | expire | cancel | finish => cases h
  | inserting =>
    rw [hp] at h
    cases e with
    | insert =>
      cases hinsert : s.requests.insert s.isClosed c call.expected with
      | none        => rw [hinsert] at h; cases h
      | some result =>
        rw [hinsert] at h
        cases h
        exact .insert hc hp hinsert
    | abandon => cases h; exact .withdrawPermit hc hp
    | acquire | send | receive | expire | cancel | finish => cases h
  | registered id stage =>
    rw [hp] at h
    cases stage with
    | sending phase =>
      cases e with
      | abandon => cases h; exact .abandon hc hp trivial
      | acquire | insert | send | receive | expire | cancel | finish => cases h
    | waiting =>
      cases e with
      | receive =>
        cases hresult : call.channel.poll with
        | none        => rw [hresult] at h; cases h
        | some result =>
          rw [hresult] at h
          cases h
          exact .receive hc hp hresult
      | expire  => cases h; exact .expire hc hp
      | abandon => cases h; exact .abandon hc hp trivial
      | acquire | insert | send | cancel | finish => cases h
    | expired =>
      cases e with
      | cancel  => cases h; exact .cancel hc hp (Or.inr ⟨rfl, rfl⟩)
      | abandon => cases h; exact .abandon hc hp trivial
      | acquire | insert | send | receive | expire | finish => cases h
    | cancelling error =>
      cases e with
      | cancel  => cases h; exact .cancel hc hp (Or.inl rfl)
      | abandon => cases h; exact .abandon hc hp trivial
      | acquire | insert | send | receive | expire | finish => cases h
    | reclaimed request error =>
      cases e with
      | finish => cases h; exact .finish hc hp
      | acquire | insert | send | receive | expire | cancel | abandon => cases h
    | returned _ | dropped => cases e <;> cases h
  | withdrawn => rw [hp] at h; cases e <;> cases h

/-- **What a step does to the correlator.** -/
theorem step_effect {s s' : Link} {a : Action} (h : s.step a = some s') :
    Effect s.toCorrelator a s'.toCorrelator := by
  cases Link.stepped_of_step h with
  | request opcode data expected => exact .request opcode data expected
  | callSend hc hp hs => exact .send hc hp hs
  | callStep he ht => exact effect_callStep ht
  | inbound item hr => exact effect_inbound hr item
  | handoff hr => exact .handoff hr
  | release hr => exact .release hr
  | deliver hr => rw [Link.deliver_toCorrelator]; exact .deliver hr
  | post | postSend | postAbandon | close | recv | closeApp => exact .outside trivial

/-! ## Calls -/

theorem getElem?_modify_eq_some {calls : List Call} {i j : CallId} {f : Call → Call} {call' : Call} :
    (calls.modify i f)[j]? = some call' ↔ ∃ call, calls[j]? = some call ∧ call' = if i = j then f call else call := by
  rw [List.getElem?_modify, Option.map_eq_map, Option.map_eq_some_iff]
  simp only [eq_comm]

theorem countP_modify {α : Type} {p : α → Bool} {f : α → α} {x : α} {l : List α} {i : ℕ} (h : l[i]? = some x) :
    (l.modify i f).countP p + (p x).toNat = l.countP p + (p (f x)).toNat := by
  induction l generalizing i with
  | nil => simp at h
  | cons y l ih =>
    cases i with
    | zero =>
      obtain rfl : y = x := by simpa using h
      cases hy : p y <;> cases hf : p (f y) <;> simp [hy, hf]
    | succ i =>
      have := ih (show l[i]? = some x by simpa using h)
      simp only [List.modify_succ_cons, List.countP_cons]
      omega

theorem countP_modify_eq {α : Type} {p : α → Bool} {f : α → α} {l : List α} {i : ℕ}
    (h : ∀ x, l[i]? = some x → p (f x) = p x) : (l.modify i f).countP p = l.countP p := by
  cases hx : l[i]? with
  | none => rw [List.modify_eq_self (List.getElem?_eq_none_iff.1 hx)]
  | some x =>
    have hcount := countP_modify (p := p) (f := f) hx
    rw [h x hx] at hcount
    omega

variable {s s' : Correlator} {a : Action} {c : CallId} {call call' : Call} {k : UInt16} {r r' : Request}
  {m : DigMessage}

structure Continues (call call' : Call) : Prop where
  opcode     : call'.opcode = call.opcode
  data       : call'.data = call.data
  expected   : call'.expected = call.expected
  registered : ∀ k stage, call.phase = .registered k stage → ∃ stage', call'.phase = .registered k stage'

theorem Continues.of_phase (h : call'.phase = call.phase) (hc : call'.opcode = call.opcode ∧ call'.data = call.data ∧
    call'.expected = call.expected) : Continues call call' :=
  ⟨hc.1, hc.2.1, hc.2.2, fun _ stage hp => ⟨stage, h.trans hp⟩⟩

theorem Continues.of_registered {stage stage' : Stage} (h : call.phase = .registered k stage)
    (h' : call'.phase = .registered k stage') (hc : call'.opcode = call.opcode ∧ call'.data = call.data ∧
    call'.expected = call.expected) : Continues call call' :=
  ⟨hc.1, hc.2.1, hc.2.2, fun _ _ hp => by rw [h] at hp; cases hp; exact ⟨stage', h'⟩⟩

theorem Continues.of_unregistered (h : call.phase = .acquiring ∨ call.phase = .inserting)
    (hc : call'.opcode = call.opcode ∧ call'.data = call.data ∧ call'.expected = call.expected) :
    Continues call call' :=
  ⟨hc.1, hc.2.1, hc.2.2, fun _ _ hp => by rw [hp] at h; rcases h with h | h <;> cases h⟩

theorem Continues.refl (call : Call) : Continues call call := .of_phase rfl ⟨rfl, rfl, rfl⟩

theorem Continues.trans {call'' : Call} (h : Continues call call') (h' : Continues call' call'') :
    Continues call call'' :=
  ⟨h'.opcode.trans h.opcode, h'.data.trans h.data, h'.expected.trans h.expected, fun k stage hp => by
    obtain ⟨stage', hp'⟩ := h.registered k stage hp
    exact h'.registered k stage' hp'⟩

theorem exists_continues_modify {calls : List Call} {i : CallId} {f : Call → Call}
    (hf : ∀ call, calls[i]? = some call → Continues call (f call)) (hc : calls[c]? = some call) :
    ∃ call', (calls.modify i f)[c]? = some call' ∧ Continues call call' := by
  refine ⟨_, getElem?_modify_eq_some.2 ⟨call, hc, rfl⟩, ?_⟩
  split
  · rename_i hi
    subst hi
    exact hf call hc
  · exact .refl call

theorem exists_continues_modify_of {i : CallId} {f : Call → Call} {call₀ : Call} (hc₀ : s.calls[i]? = some call₀)
    (hf : Continues call₀ (f call₀)) (hc : s.calls[c]? = some call) :
    ∃ call', (s.calls.modify i f)[c]? = some call' ∧ Continues call call' :=
  exists_continues_modify (fun call₁ h => by rw [hc₀] at h; cases h; exact hf) hc

theorem isClosed_eq_false_iff :
    s.isClosed c = false ↔ ∃ call, s.calls[c]? = some call ∧ call.channel.receiverDropped = false := by
  unfold isClosed
  split
  · rename_i call hc
    exact ⟨fun h => ⟨call, hc, h⟩, fun ⟨call', hc', h⟩ => by rw [hc] at hc'; cases hc'; exact h⟩
  · rename_i hc
    exact ⟨fun h => (by cases h), fun ⟨call', hc', h⟩ => by rw [hc] at hc'; cases hc'⟩

theorem getElem?_dropRequest {request : Option Request} :
    (s.dropRequest request).calls[c]? = some call' ↔ ∃ call, s.calls[c]? = some call ∧
      call' = if request.map Request.sender = some c then call.dropSender else call := by
  cases request with
  | none => simp [dropRequest]
  | some request =>
    simp only [dropRequest, getElem?_modify_eq_some, Option.map_some, Option.some.injEq]

theorem exists_dropRequest (request : Option Request) (hc : s.calls[c]? = some call) :
    ∃ call', (s.dropRequest request).calls[c]? = some call' ∧ call'.phase = call.phase ∧ Continues call call' := by
  refine ⟨_, getElem?_dropRequest.2 ⟨call, hc, rfl⟩, ?_⟩
  split <;> exact ⟨rfl, .of_phase rfl ⟨rfl, rfl, rfl⟩⟩

/-- **No step removes a call, or changes its arguments or its id.** -/
theorem Effect.continues (h : Effect s a s') (hc : s.calls[c]? = some call) :
    ∃ call', s'.calls[c]? = some call' ∧ Continues call call' := by
  cases h with
  | request => exact ⟨call, (List.getElem?_append_left (List.getElem?_eq_some_iff.1 hc).1).trans hc, .refl call⟩
  | outside | skip | pass | collide | answer | release | deliver => exact ⟨call, hc, .refl call⟩
  | handoff => exact exists_continues_modify (fun _ _ => .of_phase rfl ⟨rfl, rfl, rfl⟩) hc
  | acquire hc₀ hp => exact exists_continues_modify_of hc₀ (.of_unregistered (Or.inl hp) ⟨rfl, rfl, rfl⟩) hc
  | insert hc₀ hp => exact exists_continues_modify_of hc₀ (.of_unregistered (Or.inr hp) ⟨rfl, rfl, rfl⟩) hc
  | withdraw hc₀ hp => exact exists_continues_modify_of hc₀ (.of_unregistered (Or.inl hp) ⟨rfl, rfl, rfl⟩) hc
  | withdrawPermit hc₀ hp => exact exists_continues_modify_of hc₀ (.of_unregistered (Or.inr hp) ⟨rfl, rfl, rfl⟩) hc
  | send hc₀ hp | receive hc₀ hp | expire hc₀ hp | cancel hc₀ hp | abandon hc₀ hp =>
    exact exists_continues_modify_of hc₀ (.of_registered hp rfl ⟨rfl, rfl, rfl⟩) hc
  | @finish c₀ call₀ id request error hc₀ hp =>
    obtain ⟨call₁, hc₁, _, hcont⟩ := exists_dropRequest request hc
    obtain ⟨call₂, hc₂, hp₂, _⟩ := exists_dropRequest request hc₀
    obtain ⟨call', hc', hcont'⟩ := exists_continues_modify_of
      (f := Call.goTo (.registered id (.returned (.error error))) ∘ Call.dropReceiver) hc₂
      (.of_registered (hp₂.trans hp) rfl ⟨rfl, rfl, rfl⟩) hc₁
    exact ⟨call', hc', hcont.trans hcont'⟩

inductive Own (s : Correlator) (c : CallId) (call : Call) : CallEvent → Call → Prop
  | acquire (hp : call.phase = .acquiring) : Own s c call .acquire (call.goTo .inserting)
  | insert {id : UInt16} {requests : RequestMap} (hp : call.phase = .inserting)
      (hi : s.requests.insert s.isClosed c call.expected = some (id, requests)) :
      Own s c call .insert (call.goTo (.registered id (.sending .admitting)))
  | send {id : UInt16} {phase : SendPhase} {e : SendEvent} {o o' : Outlet} {progress : Progress}
      (hp : call.phase = .registered id (.sending phase))
      (ho : o.send (.call c) (call.message id) phase e = some (progress, o')) :
      Own s c call (.send e) (call.goTo (.registered id (.ofProgress progress)))
  | receive {id : UInt16} {result : Except LinkError DigMessage} (hp : call.phase = .registered id .waiting)
      (hr : call.channel.poll = some result) :
      Own s c call .receive (call.dropReceiver.goTo (.registered id (.returned result)))
  | expire {id : UInt16} (hp : call.phase = .registered id .waiting) :
      Own s c call .expire (call.dropReceiver.goTo (.registered id .expired))
  | cancel {id : UInt16} {stage : Stage} {error : LinkError} (hp : call.phase = .registered id stage)
      (hs : stage = .cancelling error ∨ stage = .expired ∧ error = expiryError call (s.lookup id)) :
      Own s c call .cancel (call.goTo (.registered id (.reclaimed (s.lookup id) error)))
  | finish {id : UInt16} {request : Option Request} {error : LinkError} {call₁ : Call}
      (hp : call.phase = .registered id (.reclaimed request error)) (hc₁ : call₁ = call ∨ call₁ = call.dropSender) :
      Own s c call .finish (call₁.dropReceiver.goTo (.registered id (.returned (.error error))))
  | withdraw (hp : call.phase = .acquiring ∨ call.phase = .inserting) :
      Own s c call .abandon (call.dropReceiver.goTo .withdrawn)
  | abandon {id : UInt16} {stage : Stage} (hp : call.phase = .registered id stage) (hs : stage.CanAbandon) :
      Own s c call .abandon (call.dropReceiver.goTo (.registered id .dropped))

/-- Where a call after a step comes from: apart from its own steps, only its channel is reached. -/
inductive CallFrom (s : Correlator) (a : Action) (c : CallId) (call' : Call) : Prop
  | new {opcode : UInt8} {data : Bytes} {expected : List UInt8} (ha : a = .request opcode data expected)
      (hc : c = s.calls.length) (h : call' = .new opcode data expected)
  | same (hc : s.calls[c]? = some call')
  | handed {waiter : Request} {m : DigMessage} {call : Call} (ha : a = .handoff) (hr : s.reader = .answering waiter m)
      (hw : waiter.sender = c) (hc : s.calls[c]? = some call)
      (h : call' = { call with channel := call.channel.send m })
  | orphaned {c₀ : CallId} {call call₀ : Call} {id : UInt16} {r : Request} {error : LinkError} (ha : a = .call c₀ .finish)
      (hc : s.calls[c]? = some call) (hc₀ : s.calls[c₀]? = some call₀)
      (hp₀ : call₀.phase = .registered id (.reclaimed (some r) error)) (hr : r.sender = c) (hne : c₀ ≠ c)
      (h : call' = call.dropSender)
  | own {e : CallEvent} {call : Call} (ha : a = .call c e) (hc : s.calls[c]? = some call) (ho : Own s c call e call')

theorem callFrom_modify {c₀ : CallId} {call₀ : Call} {f : Call → Call} {e : CallEvent} (hc₀ : s.calls[c₀]? = some call₀)
    (hc : (s.calls.modify c₀ f)[c]? = some call') (ho : Own s c₀ call₀ e (f call₀)) :
    CallFrom s (.call c₀ e) c call' := by
  obtain ⟨call, hcall, rfl⟩ := getElem?_modify_eq_some.1 hc
  split
  · rename_i h
    subst h
    rw [hc₀] at hcall
    cases hcall
    exact .own rfl hc₀ ho
  · exact .same hcall

theorem Effect.callFrom (h : Effect s a s') (hc : s'.calls[c]? = some call') : CallFrom s a c call' := by
  cases h with
  | outside | skip | pass | collide | answer | release | deliver => exact .same hc
  | request opcode data expected =>
    rcases Lts.getElem?_concat_eq_some.1 hc with hc | ⟨hlast, hnew⟩
    · exact .same hc
    · exact .new rfl hlast hnew.symm
  | handoff hr =>
    obtain ⟨call, hcall, rfl⟩ := getElem?_modify_eq_some.1 hc
    split
    · rename_i hw
      exact .handed rfl hr hw hcall rfl
    · exact .same hcall
  | acquire hc₀ hp => exact callFrom_modify hc₀ hc (.acquire hp)
  | insert hc₀ hp hi => exact callFrom_modify hc₀ hc (.insert hp hi)
  | send hc₀ hp ho => exact callFrom_modify hc₀ hc (.send hp ho)
  | receive hc₀ hp hr => exact callFrom_modify hc₀ hc (.receive hp hr)
  | expire hc₀ hp => exact callFrom_modify hc₀ hc (.expire hp)
  | cancel hc₀ hp hs => exact callFrom_modify hc₀ hc (.cancel hp hs)
  | withdraw hc₀ hp => exact callFrom_modify hc₀ hc (.withdraw (Or.inl hp))
  | withdrawPermit hc₀ hp => exact callFrom_modify hc₀ hc (.withdraw (Or.inr hp))
  | abandon hc₀ hp hs => exact callFrom_modify hc₀ hc (.abandon hp hs)
  | @finish c₀ call₀ id request error hc₀ hp =>
    obtain ⟨call₁, hcall₁, rfl⟩ := getElem?_modify_eq_some.1 hc
    obtain ⟨call, hcall, rfl⟩ := getElem?_dropRequest.1 hcall₁
    split
    · rename_i hcc
      subst hcc
      rw [hc₀] at hcall
      cases hcall
      exact .own rfl hc₀ (.finish hp (by split <;> simp))
    · rename_i hne
      split
      · rename_i hr
        obtain ⟨r, rfl, hsender⟩ := Option.map_eq_some_iff.1 hr
        exact .orphaned rfl hcall hc₀ hp hsender hne rfl
      · exact .same hcall

inductive CallFate (s : Correlator) (a : Action) (c : CallId) (call call' : Call) : Prop
  | stays (hp : call'.phase = call.phase)
  | own {e : CallEvent} (ha : a = .call c e) (ho : Own s c call e call')

/-- **A call keeps its phase, or takes a step of its own.** -/
theorem Effect.callFate (h : Effect s a s') (hc : s.calls[c]? = some call) :
    ∃ call', s'.calls[c]? = some call' ∧ CallFate s a c call call' := by
  obtain ⟨call', hc', -⟩ := h.continues hc
  refine ⟨call', hc', ?_⟩
  have hunique : ∀ {call₁}, s.calls[c]? = some call₁ → call₁ = call := fun h₁ => by rw [hc] at h₁; cases h₁; rfl
  cases h.callFrom hc' with
  | new ha hlast hnew => exact absurd hlast (Nat.ne_of_lt (List.getElem?_eq_some_iff.1 hc).1)
  | same h₁ => exact .stays (by rw [hunique h₁])
  | handed _ _ _ h₁ hcall | orphaned _ h₁ _ _ _ _ hcall => subst hcall; obtain rfl := hunique h₁; exact .stays rfl
  | own ha h₁ ho => rw [hunique h₁] at ho; exact .own ha ho

/-! ## Entries -/

/-- Where an entry after a step comes from. -/
inductive EntryFrom (s : Correlator) (a : Action) (s' : Correlator) (k : UInt16) (r' : Request) : Prop
  | kept (hl : s.lookup k = some r') (hf : ∀ m, a.frame? = some m → m.id ≠ some k)
  | recorded {m : DigMessage} {r : Request} (hf : a.frame? = some m) (hid : m.id = some k) (hl : s.lookup k = some r)
      (hd : m.msgType ∉ r.expected) (hr : r' = { r with undeclared := some m.msgType })
  | issued {c : CallId} {call : Call} {requests : RequestMap} (ha : a = .call c .insert) (hc : s.calls[c]? = some call)
      (hp : call.phase = .inserting) (hi : s.requests.insert s.isClosed c call.expected = some (k, requests))
      (hc' : s'.calls[c]? = some (call.goTo (.registered k (.sending .admitting)))) (hr : r' = ⟨c, call.expected, none⟩)

theorem Effect.entryFrom (h : Effect s a s') (hl : s'.lookup k = some r') : EntryFrom s a s' k r' := by
  cases h with
  | outside ha => exact .kept hl fun m hm => by cases a <;> first | cases hm | cases ha
  | request | acquire | send | receive | expire | withdraw | withdrawPermit | abandon | handoff | release | deliver =>
    exact .kept hl fun m hm => by cases hm
  | skip hr hf => exact .kept hl fun m hm => by rw [hf] at hm; cases hm
  | @pass item m hr hf hu =>
    refine .kept hl fun m' hm' hid => ?_
    rw [hf] at hm'
    cases hm'
    have := hu k hid
    rw [show s.lookup k = some r' from hl] at this
    cases this
  | @collide item m id r hr hf hid hl₀ hd =>
    have hl' := hl
    rw [lookup, AList.lookup_insert_eq] at hl'
    split at hl'
    · rename_i hk
      subst hk
      cases hl'
      exact .recorded hf hid hl₀ hd rfl
    · rename_i hk
      refine .kept hl' fun m' hm' hid' => hk ?_
      rw [hf] at hm'
      cases hm'
      rw [hid] at hid'
      exact Option.some.inj hid'
  | @answer item m id r hr hf hid hl₀ hd =>
    have hl' := hl
    rw [lookup, AList.lookup_erase_eq] at hl'
    split at hl'
    · cases hl'
    · rename_i hk
      refine .kept hl' fun m' hm' hid' => hk ?_
      rw [hf] at hm'
      cases hm'
      rw [hid] at hid'
      exact Option.some.inj hid'
  | @cancel c₀ call₀ id stage error hc₀ hp hs =>
    have hl' := hl
    rw [lookup, RequestMap.cancel, AList.lookup_erase_eq] at hl'
    split at hl'
    · cases hl'
    · exact .kept hl' fun m hm => by cases hm
  | @insert c₀ call₀ id requests hc₀ hp hi =>
    have hl' := hl
    rw [lookup, (RequestMap.insert_eq_some_iff.1 hi).2, AList.lookup_insert_eq] at hl'
    split at hl'
    · rename_i hk
      subst hk
      cases hl'
      exact .issued rfl hc₀ hp hi (getElem?_modify_eq_some.2 ⟨call₀, hc₀, (if_pos rfl).symm⟩) rfl
    · exact .kept (RequestMap.lookup_retain_eq_some_iff.1 hl').1 fun m hm => by cases hm
  | @finish c₀ call₀ id request error hc₀ hp =>
    refine .kept ?_ fun m hm => by cases hm
    cases request <;> exact hl

inductive EntryFate (s : Correlator) (a : Action) (s' : Correlator) (k : UInt16) (r : Request) : Prop
  | stays {r' : Request} (hl : s'.lookup k = some r') (hs : r'.sender = r.sender)
  | answered {m : DigMessage} (hf : a.frame? = some m) (hid : m.id = some k) (hd : m.msgType ∈ r.expected)
  | cancelled {c : CallId} {call : Call} {stage : Stage} (ha : a = .call c .cancel) (hc : s.calls[c]? = some call)
      (hp : call.phase = .registered k stage)
  | reclaimed {c : CallId} (ha : a = .call c .insert) (hclosed : s.isClosed r.sender = true)

/-- **An entry leaves the map through an answer, a `cancel` of its id or an `insert` that finds it closed.** -/
theorem Effect.entryFate (h : Effect s a s') (hl : s.lookup k = some r) : EntryFate s a s' k r := by
  cases h with
  | outside | request | acquire | send | receive | expire | withdraw | withdrawPermit | abandon | handoff | release
  | deliver | skip | pass => exact .stays hl rfl
  | @collide item m id r₀ hr hf hid hl₀ hd =>
    by_cases hk : id = k
    · subst hk
      rw [hl] at hl₀
      cases hl₀
      exact .stays (AList.lookup_insert _) rfl
    · exact .stays (by rw [lookup, AList.lookup_insert_eq, if_neg hk]; exact hl) rfl
  | @answer item m id r₀ hr hf hid hl₀ hd =>
    by_cases hk : id = k
    · subst hk
      rw [hl] at hl₀
      cases hl₀
      exact .answered hf hid hd
    · exact .stays (by rw [lookup, AList.lookup_erase_eq, if_neg hk]; exact hl) rfl
  | @cancel c₀ call₀ id stage error hc₀ hp hs =>
    by_cases hk : id = k
    · subst hk
      exact .cancelled rfl hc₀ hp
    · exact .stays (by rw [lookup, RequestMap.cancel, AList.lookup_erase_eq, if_neg hk]; exact hl) rfl
  | @insert c₀ call₀ id requests hc₀ hp hi =>
    cases hclosed : s.isClosed r.sender with
    | true => exact .reclaimed rfl hclosed
    | false =>
      obtain ⟨hscan, rfl⟩ := RequestMap.insert_eq_some_iff.1 hi
      have hretained : (s.requests.retain s.isClosed).items.lookup k = some r :=
        RequestMap.lookup_retain_eq_some_iff.2 ⟨hl, hclosed⟩
      have hk : id ≠ k := fun hk => RequestMap.scan_notMem _ _ hscan (by
        rw [hk]
        exact AList.mem_of_lookup hretained)
      exact .stays (by rw [lookup, AList.lookup_insert_eq, if_neg hk]; exact hretained) rfl
  | @finish c₀ call₀ id request error hc₀ hp => cases request <;> exact .stays hl rfl

/-! ## Answers -/

/-- A message is on its way to a call as its answer, or has reached it. -/
def HasAnswer (s : Correlator) (c : CallId) (m : DigMessage) : Prop :=
  (∃ waiter, s.reader = .answering waiter m ∧ waiter.sender = c) ∨
  ∃ call, s.calls[c]? = some call ∧
    (call.channel.value = some m ∨ ∃ k, call.phase = .registered k (.returned (.ok m)))

theorem poll_ok {o : Oneshot} (h : o.poll = some (.ok m)) : o.value = some m := by
  unfold Oneshot.poll at h
  split at h
  · rename_i hv
    cases h
    exact hv
  · cases h
  · cases h

theorem hasAnswer_modify {i : CallId} {f : Call → Call} {call₀ : Call} {requests : RequestMap}
    (hc₀ : s.calls[i]? = some call₀) (hv : (f call₀).channel.value = call₀.channel.value)
    (hp : ∀ k m, (f call₀).phase = .registered k (.returned (.ok m)) → call₀.channel.value = some m)
    (hm : HasAnswer ⟨requests, s.calls.modify i f, s.reader⟩ c m) : HasAnswer s c m := by
  rcases hm with hm | ⟨call', hc', hm⟩
  · exact Or.inl hm
  · obtain ⟨call, hc, rfl⟩ := getElem?_modify_eq_some.1 hc'
    refine Or.inr ⟨call, hc, ?_⟩
    split at hm
    · rename_i hi
      subst hi
      rw [hc₀] at hc
      cases hc
      rcases hm with hm | ⟨k, hm⟩
      · exact Or.inl (hv.symm.trans hm)
      · exact Or.inl (hp k m hm)
    · exact hm

theorem hasAnswer_dropRequest {request : Option Request} (hm : HasAnswer (s.dropRequest request) c m) :
    HasAnswer s c m := by
  rcases hm with ⟨waiter, hr, hw⟩ | ⟨call', hc', hm⟩
  · refine Or.inl ⟨waiter, ?_, hw⟩
    cases request <;> exact hr
  · obtain ⟨call, hc, rfl⟩ := getElem?_dropRequest.1 hc'
    refine Or.inr ⟨call, hc, ?_⟩
    split at hm <;> exact hm

/-- **A call's answer is a frame that this step brings in for its entry, or was its answer before.** -/
theorem Effect.hasAnswer (h : Effect s a s') (hm : HasAnswer s' c m) : HasAnswer s c m ∨
    ∃ k r, a.frame? = some m ∧ m.id = some k ∧ s.lookup k = some r ∧ r.sender = c ∧ m.msgType ∈ r.expected := by
  cases h with
  | outside => exact Or.inl hm
  | request opcode data expected =>
    rcases hm with hm | ⟨call, hc, hm⟩
    · exact Or.inl (Or.inl hm)
    · rcases Lts.getElem?_concat_eq_some.1 hc with hc | ⟨_, rfl⟩
      · exact Or.inl (Or.inr ⟨call, hc, hm⟩)
      · rcases hm with hm | ⟨k, hm⟩ <;> cases hm
  | acquire hc₀ | insert hc₀ | expire hc₀ | cancel hc₀ | withdraw hc₀ | withdrawPermit hc₀ | abandon hc₀ =>
    exact Or.inl (hasAnswer_modify hc₀ rfl (fun k m hp => by cases hp) hm)
  | @send c₀ call₀ id phase e o o' progress hc₀ =>
    exact Or.inl (hasAnswer_modify hc₀ rfl (fun k m hp => by cases progress <;> cases hp) hm)
  | receive hc₀ hp hr =>
    refine Or.inl (hasAnswer_modify hc₀ rfl (fun k m hp => ?_) hm)
    cases hp
    exact poll_ok hr
  | @finish c₀ call₀ id request error hc₀ hp =>
    obtain ⟨call₁, hc₁, -, -⟩ := exists_dropRequest request hc₀
    exact Or.inl (hasAnswer_dropRequest (hasAnswer_modify hc₁ rfl (fun k m hp => by cases hp) hm))
  | skip hr hf hn =>
    refine Or.inl ?_
    rcases hm with ⟨waiter, hr', _⟩ | hm
    · rcases hn with rfl | rfl <;> cases hr'
    · exact Or.inr hm
  | pass | collide | release | deliver =>
    refine Or.inl ?_
    rcases hm with ⟨waiter, hr', _⟩ | hm
    · cases hr'
    · exact Or.inr hm
  | @answer item m' id r hr hf hid hl hd =>
    rcases hm with ⟨waiter, hr', hw⟩ | hm
    · cases hr'
      exact Or.inr ⟨id, r, hf, hid, hl, hw, hd⟩
    · exact Or.inl (Or.inr hm)
  | @handoff waiter m' hr =>
    refine Or.inl ?_
    rcases hm with ⟨waiter', hr', _⟩ | ⟨call', hc', hm⟩
    · cases hr'
    · obtain ⟨call, hc, rfl⟩ := getElem?_modify_eq_some.1 hc'
      split at hm
      · rename_i hw
        rcases hm with hm | hm
        · simp only [Oneshot.send] at hm
          split at hm
          · exact Or.inr ⟨call, hc, Or.inl hm⟩
          · cases hm
            exact Or.inl ⟨waiter, hr, hw⟩
        · exact Or.inr ⟨call, hc, Or.inr hm⟩
      · exact Or.inr ⟨call, hc, hm⟩

end Correlator

/-! ## Steps that can be taken -/

theorem modify_length_concat {α : Type} (f : α → α) (x : α) : ∀ (l : List α),
    (l ++ [x]).modify l.length f = l ++ [f x]
  | []     => rfl
  | y :: l => congrArg (y :: ·) (modify_length_concat f x l)

namespace Link

open Correlator

variable {s : Link} {c : CallId} {call : Call} {k : UInt16}

theorem step_acquire (hc : s.calls[c]? = some call) (hp : call.phase = .acquiring) (hcapacity : 0 < s.requests.capacity) :
    s.step (.call c .acquire) = some { s with
      toCorrelator := { s.modifyCall c (.goTo .inserting) with
        requests := { s.requests with capacity := s.requests.capacity - 1 } } } := by
  have hacquire := RequestMap.acquire_eq_some_iff.2 ⟨hcapacity, rfl⟩
  simp only [step, callStep, hc, hp, hacquire, Option.map_some]

theorem step_insert {requests : RequestMap} (hc : s.calls[c]? = some call) (hp : call.phase = .inserting)
    (hi : s.requests.insert s.isClosed c call.expected = some (k, requests)) :
    s.step (.call c .insert) = some { s with
      toCorrelator := { s.modifyCall c (.goTo (.registered k (.sending .admitting))) with requests } } := by
  simp only [step, callStep, hc, hp, hi, Option.map_some]

theorem step_abandon {stage : Stage} (hc : s.calls[c]? = some call) (hp : call.phase = .registered k stage)
    (hs : stage.CanAbandon) :
    s.step (.call c .abandon) = some { s with
      toCorrelator := s.modifyCall c (.goTo (.registered k .dropped) ∘ .dropReceiver) } := by
  cases stage with
  | sending | cancelling | waiting | expired => simp only [step, callStep, hc, hp, Option.map_some]
  | reclaimed | returned | dropped => cases hs

theorem step_postSend {p : ℕ} {post : Post} {phase : SendPhase} {e : SendEvent} {progress : Progress}
    {outlet : Outlet} (hp : s.posts[p]? = some post) (hphase : post.phase = .sending phase)
    (hs : s.outlet.send (.post p) post.message phase e = some (progress, outlet))
    (hl : s.sinkAllows e = true) :
    s.step (.postStep p (.send e)) = some { s with
      posts := s.posts.set p ⟨post.message, .ofProgress progress⟩, outlet } := by
  simp only [step, postStep, hp, hphase, send_eq_some_iff.2 ⟨hs, hl⟩]

theorem step_callSend {phase : SendPhase} {e : SendEvent} {progress : Progress} {outlet : Outlet}
    (hc : s.calls[c]? = some call) (hp : call.phase = .registered k (.sending phase))
    (hs : s.outlet.send (.call c) (call.message k) phase e = some (progress, outlet))
    (hl : s.sinkAllows e = true) :
    s.step (.call c (.send e)) = some { s with
      toCorrelator := s.modifyCall c (.goTo (.registered k (.ofProgress progress))), outlet } := by
  simp only [step, callSend, hc, hp, send_eq_some_iff.2 ⟨hs, hl⟩]

theorem step_close {e : CloseEvent} {closing : Closing} (hl : s.close e = some closing) :
    s.step (.close e) = some { s with closing } := by
  rw [step, hl, Option.map_some]

theorem run_insertNew (opcode : UInt8) (data : Bytes) (expected : List UInt8) {requests : RequestMap}
    (hcapacity : 0 < s.requests.capacity)
    (hi : RequestMap.insert { s.requests with capacity := s.requests.capacity - 1 }
      (isClosed { s with calls := s.calls ++ [(Call.new opcode data expected).goTo .inserting] }) s.calls.length expected =
        some (k, requests)) :
    Lts.run step s [.request opcode data expected, .call s.calls.length .acquire, .call s.calls.length .insert] =
      some { s with
        calls := s.calls ++ [(Call.new opcode data expected).goTo (.registered k (.sending .admitting))], requests } := by
  have hacquire := step_acquire (s := { s with calls := s.calls ++ [.new opcode data expected] })
    (c := s.calls.length) List.getElem?_concat_length rfl hcapacity
  have hinsert := step_insert
    (s := { s with
      calls := s.calls ++ [(Call.new opcode data expected).goTo .inserting]
      requests := { s.requests with capacity := s.requests.capacity - 1 } })
    (c := s.calls.length) List.getElem?_concat_length rfl hi
  simp only [modifyCall, modify_length_concat] at hacquire hinsert
  rw [Lts.run_cons_of_step rfl]
  exact (Lts.run_cons_of_step hacquire _).trans (Lts.run_cons_of_step hinsert _)

theorem isClosed_concat (hc : s.calls[c]? = some call) (call' : Call) :
    isClosed { s with calls := s.calls ++ [call'] } c = call.channel.receiverDropped := by
  simp only [isClosed, List.getElem?_append_left (List.getElem?_eq_some_iff.1 hc).1, hc]

end Link

end Dig
