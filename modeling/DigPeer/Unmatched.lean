import DigPeer.Blind
/-!
# Unmatched — traffic that answers nothing

An item of the stream that finds no entry declaring it leaves every entry and every call as it was, up to the record of
what arrived, and the reader goes on after it whether or not the application takes the frame.  So of two runs of a link
that differ in such items and in what the receiving half of the application does, each answers the same requests with
the same messages, and neither can get stuck where the other goes on (`unmatched_cannot_interfere`).
-/
namespace Dig

open Correlator Lts

/-- An item that is neither the end of the stream nor an answer: no frame (text, ping, pong, a raw frame, bytes that do
not decode), or a frame without an id, with an id nobody waits on, or with an opcode its waiter has not declared. -/
def Correlator.Unmatched (s : Correlator) (item : Item) : Prop :=
  item ≠ .close ∧ item ≠ .error ∧ item ≠ .finished ∧ ∀ m id r, (Action.inbound item).frame? = some m → m.id = some id →
    s.lookup id = some r → m.msgType ∉ r.expected

/-- The request that a step's frame answers, by its call, and the message. -/
def answer? (x : Link × Action) : Option (CallId × DigMessage) :=
  match found? x with
  | none        => none
  | some (m, r) => if m.msgType ∈ r.expected then some (r.sender, m) else none

/-- The second history is the first with some unmatched items deleted, and with other steps of the application's
receiving half.  The flag says that the first reader still has the frame of a deleted item to deliver. -/
inductive Thinned : Bool → List (Link × Action) → List (Link × Action) → Prop
  | start : Thinned false [] []
  | both {b : Bool} {tr tr' : List (Link × Action)} {s s' : Link} {a : Action} (h : Thinned b tr tr')
      (ha : ¬ a.IsReceiver) (hd : b = true → a ≠ .deliver) : Thinned b (tr ++ [(s, a)]) (tr' ++ [(s', a)])
  | delete {tr tr' : List (Link × Action)} {s : Link} {item : Item} (h : Thinned false tr tr') (hu : s.Unmatched item) :
      Thinned (Action.inbound item).frame?.isSome (tr ++ [(s, .inbound item)]) tr'
  | deliver {tr tr' : List (Link × Action)} {s : Link} (h : Thinned true tr tr') :
      Thinned false (tr ++ [(s, .deliver)]) tr'
  | receiver {b : Bool} {tr tr' : List (Link × Action)} {s : Link} {a : Action} (h : Thinned b tr tr')
      (ha : a.IsReceiver) : Thinned b (tr ++ [(s, a)]) tr'
  | receiver' {b : Bool} {tr tr' : List (Link × Action)} {s : Link} {a : Action} (h : Thinned b tr tr')
      (ha : a.IsReceiver) : Thinned b tr (tr' ++ [(s, a)])

variable {s s' t t' u : Link} {a : Action} {b : Bool} {item : Item} {tr tr' : List (Link × Action)} {now : ℕ}
  {factor : ℚ} {limits : OpcodeRateLimits}

theorem thinned_self : (∀ x ∈ tr, ¬ x.2.IsReceiver) → Thinned false tr tr := by
  induction tr using List.reverseRecOn with
  | nil => exact fun _ => .start
  | append_singleton tr x ih =>
    intro h
    exact (ih fun y hy => h y (List.mem_append_left _ hy)).both (h x (by simp)) (by simp)

/-! ## What answers -/

theorem answer?_of_frame_none (hf : a.frame? = none) : answer? (s, a) = none := by
  unfold answer? found?
  dsimp only
  rw [hf]

theorem answer?_of_unmatched (hu : s.Unmatched item) : answer? (s, .inbound item) = none := by
  unfold answer?
  cases hfound : found? (s, .inbound item) with
  | none => rfl
  | some e =>
    obtain ⟨m, r⟩ := e
    obtain ⟨hf, id, hid, hl⟩ := found?_eq_some_iff.1 hfound
    exact if_neg (hu.2.2.2 m id r hf hid hl)

theorem answer?_of_receiver (ha : a.IsReceiver) : answer? (s, a) = none := by
  cases a with
  | recv | closeApp => rfl
  | request | call | post | postStep | close | inbound | handoff | release | deliver => cases ha

theorem filterMap_concat_of_none {x : Link × Action} (hx : answer? x = none) :
    (tr ++ [x]).filterMap answer? = tr.filterMap answer? := by
  rw [List.filterMap_append, List.filterMap_cons_none hx, List.filterMap_nil, List.append_nil]

/-- **Links that differ in their diagnoses answer alike.** -/
theorem Link.Same.answer?_eq (h : Link.Same b s s') (a : Action) : answer? (s, a) = answer? (s', a) := by
  unfold answer? found?
  dsimp only
  cases a.frame? with
  | none => rfl
  | some m =>
    cases hid : m.id with
    | none => simp [hid]
    | some id =>
      simp only [hid, Option.bind_some]
      cases hl : s.lookup id with
      | none => rw [show s'.lookup id = none from h.correlator.requests.items.lookup_none hl]
      | some r =>
        obtain ⟨r', hl', hr⟩ := h.correlator.requests.items.lookup_some hl
        obtain ⟨hsender, hexpected⟩ := Request.forget_eq_iff.1 hr
        rw [show s'.lookup id = some r' from hl']
        simp only [Option.map_some, hsender, hexpected]

/-! ## A deleted item -/

theorem Correlator.Same.route_unmatched {s s' : Correlator} {m : DigMessage} (h : s.Same s')
    (hu : ∀ id r, m.id = some id → s.lookup id = some r → m.msgType ∉ r.expected) :
    (s.route m).Same s' ∧ (s.route m).reader = .delivering m := by
  unfold Correlator.route
  cases hid : m.id with
  | none => exact ⟨⟨h.requests, h.calls⟩, rfl⟩
  | some id =>
    dsimp only
    cases hl : s.requests.items.lookup id with
    | none =>
      rw [RequestMap.take_of_none hl]
      exact ⟨⟨h.requests, h.calls⟩, rfl⟩
    | some r =>
      rw [RequestMap.take_of_notMem hl (hu id r hid hl)]
      exact ⟨⟨⟨h.requests.items.record hl rfl, h.requests.capacity, h.requests.nextId⟩, h.calls⟩, rfl⟩

theorem Correlator.Same.inbound_unmatched {s s' : Correlator} (h : s.Same s') (hr : s.reader = .idle)
    (hu : s.Unmatched item) : (s.inbound item).Same s' ∧ ((s.inbound item).reader = .idle ∧
      (Action.inbound item).frame? = none ∨ ∃ m, (s.inbound item).reader = .delivering m ∧
        (Action.inbound item).frame? = some m) := by
  cases item with
  | close => exact absurd rfl hu.1
  | error => exact absurd rfl hu.2.1
  | finished => exact absurd rfl hu.2.2.1
  | ping | pong | frame | text => exact ⟨h, Or.inl ⟨hr, rfl⟩⟩
  | binary bytes =>
    obtain ⟨m, hb⟩ : ∃ m, DigMessage.fromBytesOwned bytes = .ok m := ⟨_, DigMessage.fromBytesOwned_eq bytes⟩
    have hf : (Action.inbound (.binary bytes)).frame? = m := by simp only [Action.frame?, hb]
    cases m with
    | none =>
      have hinbound : s.inbound (.binary bytes) = s := by simp only [Correlator.inbound, hb]
      rw [hinbound]
      exact ⟨h, Or.inl ⟨hr, hf⟩⟩
    | some m =>
      have hinbound : s.inbound (.binary bytes) = s.route m := by simp only [Correlator.inbound, hb]
      obtain ⟨hsame, hreader⟩ := h.route_unmatched fun id r => hu.2.2.2 m id r hf
      rw [hinbound]
      exact ⟨hsame, Or.inr ⟨m, hreader, hf⟩⟩

/-! ## Two runs -/

theorem Link.Same.delete (h : Link.Same false t t') (hu : t.Unmatched item) (hs : t.step (.inbound item) = some u) :
    Link.Same (Action.inbound item).frame?.isSome u t' := by
  have hreader := h.reader
  cases Link.stepped_of_step hs with
  | inbound _ hr =>
    rw [hr] at hreader
    obtain ⟨hsame, hafter⟩ := h.correlator.inbound_unmatched hr hu
    refine ⟨hsame, ?_, h.outlet, h.posts, h.closing⟩
    rcases hafter with ⟨hidle, hf⟩ | ⟨m, hdelivering, hf⟩
    · rw [hf, hreader.idle.2]
      exact congrArg Reader.forget hidle
    · rw [hf, hreader.idle.2]
      exact ⟨⟨m, hdelivering⟩, rfl⟩

theorem Link.Same.deliver (h : Link.Same true t t') (hs : t.step .deliver = some u) : Link.Same false u t' := by
  obtain ⟨⟨m, hr⟩, hr'⟩ := h.reader
  cases Link.stepped_of_step hs with
  | deliver =>
    refine ⟨?_, ?_, by simp [h.outlet], by simp [h.posts], by simp [h.closing]⟩
    · rw [Link.deliver_toCorrelator]
      exact ⟨h.correlator.requests, h.correlator.calls⟩
    · rw [Link.deliver_toCorrelator, hr']
      rfl

/-- **Runs that differ in unmatched traffic and in the application's receives stay alike**, and answer alike. -/
theorem same_of_thinned (ht : Thinned b tr tr') : ∀ {t t' : Link},
    Runs Link.step (Link.fromParts now factor limits) tr t → Runs Link.step (Link.fromParts now factor limits) tr' t' →
      Link.Same b t t' ∧ tr.filterMap answer? = tr'.filterMap answer? := by
  induction ht with
  | start =>
    intro t t' h h'
    rw [h.of_nil, h'.of_nil]
    exact ⟨⟨⟨⟨fun _ => rfl, rfl, rfl⟩, rfl⟩, rfl, rfl, rfl, rfl⟩, rfl⟩
  | both _ ha hd ih =>
    intro t t' h h'
    obtain ⟨h, hs⟩ := h.of_concat
    obtain ⟨h', hs'⟩ := h'.of_concat
    obtain ⟨hsame, hanswers⟩ := ih h h'
    obtain ⟨u', hu', hsame'⟩ := hsame.step ha hd hs
    rw [hs'] at hu'
    cases hu'
    refine ⟨hsame', ?_⟩
    rw [List.filterMap_append, List.filterMap_append, hanswers, List.filterMap_cons, List.filterMap_cons,
      hsame.answer?_eq]
  | delete _ hu ih =>
    intro t t' h h'
    obtain ⟨h, hs⟩ := h.of_concat
    obtain ⟨hsame, hanswers⟩ := ih h h'
    refine ⟨hsame.delete hu hs, ?_⟩
    rw [filterMap_concat_of_none (answer?_of_unmatched hu), hanswers]
  | deliver _ ih =>
    intro t t' h h'
    obtain ⟨h, hs⟩ := h.of_concat
    obtain ⟨hsame, hanswers⟩ := ih h h'
    refine ⟨hsame.deliver hs, ?_⟩
    rw [filterMap_concat_of_none (answer?_of_frame_none rfl), hanswers]
  | receiver _ ha ih =>
    intro t t' h h'
    obtain ⟨h, hs⟩ := h.of_concat
    obtain ⟨hsame, hanswers⟩ := ih h h'
    refine ⟨hsame.receiver ha hs, ?_⟩
    rw [filterMap_concat_of_none (answer?_of_receiver ha), hanswers]
  | receiver' _ ha ih =>
    intro t t' h h'
    obtain ⟨h', hs'⟩ := h'.of_concat
    obtain ⟨hsame, hanswers⟩ := ih h h'
    refine ⟨hsame.receiver' ha hs', ?_⟩
    rw [filterMap_concat_of_none (answer?_of_receiver ha), hanswers]

theorem SameCalls.returned {s s' : Correlator} (h : SameCalls s.calls s'.calls) {c : CallId} {k : UInt16}
    {expected : List UInt8} {m : DigMessage} (hreturned : s.Returned c k expected (.ok m)) :
    s'.Returned c k expected (.ok m) := by
  obtain ⟨call, hc, hexpected, hp⟩ := hreturned
  obtain ⟨call', hc', hforget⟩ := h.getElem? hc
  obtain ⟨_, _, hexpected', _, hphase⟩ := Call.forget_eq hforget
  rw [hp] at hphase
  exact ⟨call', hc', hexpected'.trans hexpected, Phase.plain_returned _ hphase⟩

theorem Link.Same.can_deliver (h : Link.Same true t t') : ∃ u, t.step .deliver = some u := by
  obtain ⟨⟨m, hr⟩, _⟩ := h.reader
  exact ⟨t.deliver m, by simp only [Link.step, hr]⟩

/-- **Unmatched traffic cannot affect correlated replies**: take two runs of a link of which one is the other with some
unmatched items deleted, and with any other conduct of the application's receiving half.  The same requests are answered
with the same messages, and the same calls return them.  Whatever step the one can take next the other can take as well,
but for the delivery of a deleted item's frame, which nothing holds up. -/
theorem unmatched_cannot_interfere (h : Runs Link.step (Link.fromParts now factor limits) tr t)
    (h' : Runs Link.step (Link.fromParts now factor limits) tr' t') (ht : Thinned b tr tr') :
    tr.filterMap answer? = tr'.filterMap answer? ∧
    (∀ c k expected m, t.Returned c k expected (.ok m) ↔ t'.Returned c k expected (.ok m)) ∧
    (b = true → ∃ u, t.step .deliver = some u) ∧
    (∀ a u, t.step a = some u → ¬ a.IsReceiver → (b = true → a ≠ .deliver) → ∃ u', t'.step a = some u') ∧
    ∀ a u', t'.step a = some u' → ¬ a.IsReceiver → b = false → ∃ u, t.step a = some u := by
  obtain ⟨hsame, hanswers⟩ := same_of_thinned ht h h'
  refine ⟨hanswers, fun c k expected m => ⟨hsame.correlator.calls.returned, hsame.correlator.calls.symm.returned⟩, ?_,
    fun a u hs ha hd => ?_, fun a u' hs ha hb => ?_⟩
  · intro hb
    rw [hb] at hsame
    exact hsame.can_deliver
  · obtain ⟨u', hs', _⟩ := hsame.step ha hd hs
    exact ⟨u', hs'⟩
  · rw [hb] at hsame
    obtain ⟨u, hs', _⟩ := hsame.symm.step ha (by simp) hs
    exact ⟨u, hs'⟩

theorem unmatched_cannot_interfere_collision :
    ∃ (tr tr' : List (Link × Action)) (t t' : Link), Runs Link.step (Link.fromParts 0 1 defaultOnly) tr t ∧
      Runs Link.step (Link.fromParts 0 1 defaultOnly) tr' t' ∧ tr.length = tr'.length + 2 ∧
      tr.filterMap answer? = tr'.filterMap answer? := by
  let registered : List Action := [.request 220 [] [221], .call 0 .acquire, .call 0 .insert]
  let noise : Item := .binary (DigMessage.toBytes ⟨230, some 0, []⟩)
  let answer : Action := .inbound (.binary (DigMessage.toBytes ⟨221, some 0, [7]⟩))
  have h : Runs Link.step (Link.fromParts 0 1 defaultOnly) (trace Link.step (Link.fromParts 0 1 defaultOnly) registered)
      (reach Link.step (Link.fromParts 0 1 defaultOnly) registered) := runs_reach (by decide +kernel)
  have hself : Thinned false (trace Link.step (Link.fromParts 0 1 defaultOnly) registered)
      (trace Link.step (Link.fromParts 0 1 defaultOnly) registered) := by
    refine thinned_self fun x hx => ?_
    obtain ⟨i, hi⟩ := List.mem_iff_getElem?.1 hx
    have hmem := List.mem_of_getElem? (snd_of_getElem?_trace registered (Link.fromParts 0 1 defaultOnly) i x hi)
    rcases x with ⟨s, a⟩
    simp only [registered, List.mem_cons, List.not_mem_nil, or_false] at hmem
    rcases hmem with rfl | rfl | rfl <;> exact id
  have hplain := h.step (step_reach registered (a := answer) (by decide +kernel))
  have hnoisy := ((h.step (step_reach registered (a := .inbound noise) (by decide +kernel))).step
    (step_reach (registered ++ [.inbound noise]) (a := .deliver) (by decide +kernel))).step
    (step_reach (registered ++ [.inbound noise] ++ [.deliver]) (a := answer) (by decide +kernel))
  have hframe : (Action.inbound noise).frame? = some ⟨230, some 0, []⟩ := by decide +kernel
  have hunmatched : (reach Link.step (Link.fromParts 0 1 defaultOnly) registered).Unmatched noise := by
    refine ⟨by decide, by decide, by decide, fun m id r hf hid hl => ?_⟩
    have hentry : (reach Link.step (Link.fromParts 0 1 defaultOnly) registered).lookup 0 = some ⟨0, [221], none⟩ := by
      decide +kernel
    rw [hframe] at hf
    cases hf
    cases hid
    rw [hentry] at hl
    cases hl
    decide
  have hdelete := hself.delete hunmatched
  rw [hframe] at hdelete
  exact ⟨_, _, _, _, hnoisy, hplain, by simp,
    (unmatched_cannot_interfere hnoisy hplain (.both (.deliver hdelete) id (by simp))).1⟩

end Dig
