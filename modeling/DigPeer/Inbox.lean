import DigPeer.Answers
/-!
# Inbox — what the application receives (`read_inbound`, and the channel of `from_parts`)

A frame that answers no request goes through two queues in a row: the reader, which holds one message and takes no frame
while it does, and the application's channel, which holds `inboundChannelCapacity` messages and drops what it is offered
when it is full.  Each is a queue of `Lts.Runs.fifo`; a message arrives at the channel when the reader offers it.
-/
namespace Dig

open Correlator Lts

variable {tr : List (Link × Action)} {s s' t : Link} {a : Action} {x : Link × Action} {now : ℕ} {factor : ℚ}
  {limits : OpcodeRateLimits}

/-- Whether `take` classifies a frame as an answer. -/
def RequestMap.answers (rm : RequestMap) (m : DigMessage) : Bool :=
  match m.id with
  | none    => false
  | some id => match (rm.take id m.msgType).1 with
    | .answer _ => true
    | _         => false

def Reader.pending : Reader → List DigMessage
  | .delivering m => [m]
  | _             => []

/-- The message of a step that brings in a frame which is no answer. -/
def unmatched (x : Link × Action) : Option DigMessage := x.2.frame?.filter fun m => !x.1.requests.answers m

def offered (x : Link × Action) : Option DigMessage :=
  match x.2, x.1.reader with
  | .deliver, .delivering m => some m
  | _, _                    => none

/-- The message of a step that offers one while fewer than the channel's capacity are queued. -/
def queued (x : Link × Action) : Option DigMessage :=
  if x.1.inbox.length ≠ inboundChannelCapacity then offered x else none

def received (x : Link × Action) : Option DigMessage :=
  match x.2 with
  | .recv => x.1.inbox.head?
  | _     => none

theorem RequestMap.answers_of_none {rm : RequestMap} {m : DigMessage}
    (h : ∀ id, m.id = some id → rm.items.lookup id = none) :
    rm.answers m = false := by
  cases hid : m.id with
  | none    => simp only [answers, hid]
  | some id => simp only [answers, hid, take_of_none (h id hid)]

theorem RequestMap.answers_of_notMem {rm : RequestMap} {m : DigMessage} {id : UInt16} {r : Request} (hid : m.id = some id)
    (hl : rm.items.lookup id = some r) (hd : m.msgType ∉ r.expected) : rm.answers m = false := by
  simp only [answers, hid, take_of_notMem hl hd]

theorem RequestMap.answers_of_mem {rm : RequestMap} {m : DigMessage} {id : UInt16} {r : Request} (hid : m.id = some id)
    (hl : rm.items.lookup id = some r) (hd : m.msgType ∈ r.expected) : rm.answers m = true := by
  simp only [answers, hid, take_of_mem hl hd]

/-! ## The reader -/

/-- **The reader is a queue of one**: what it takes up is a frame that is no answer, and what it gives is what it offers
to the channel. -/
theorem pending_of_step (h : s.step a = some s') :
    s.reader.pending ++ (unmatched (s, a)).toList = (offered (s, a)).toList ++ s'.reader.pending := by
  have he := step_effect h
  show _ = _ ++ s'.toCorrelator.reader.pending
  generalize s'.toCorrelator = u at he
  cases he with
  | outside ha =>
    cases a with
    | post | postStep | close | recv | closeApp => simp [unmatched, offered, Action.frame?]
    | request | call | inbound | handoff | release | deliver => cases ha
  | request | acquire | insert | send | receive | expire | cancel | withdraw | withdrawPermit | abandon =>
    simp [unmatched, offered, Action.frame?, modifyCall]
  | @finish c call id request error hc hp =>
    cases request <;> simp [unmatched, offered, Action.frame?, modifyCall, dropRequest]
  | skip hr hf hn =>
    rcases hn with rfl | rfl <;> simp [unmatched, offered, hr, hf, Reader.pending]
  | pass hr hf hu =>
    simp [unmatched, offered, hr, hf, Reader.pending, RequestMap.answers_of_none hu]
  | collide hr hf hid hl hd =>
    simp [unmatched, offered, hr, hf, Reader.pending, RequestMap.answers_of_notMem hid hl hd]
  | answer hr hf hid hl hd =>
    simp [unmatched, offered, hr, hf, Reader.pending, RequestMap.answers_of_mem hid hl hd]
  | handoff hr | release hr | deliver hr =>
    simp [unmatched, offered, hr, Action.frame?, Reader.pending]

/-! ## The channel -/

theorem length_inbox_of_step (h : s.step a = some s') (hs : s.inbox.length ≤ inboundChannelCapacity) :
    s'.inbox.length ≤ inboundChannelCapacity := by
  cases Link.stepped_of_step h with
  | @deliver m hr =>
    unfold Link.deliver
    split
    · rename_i hroom
      rw [List.length_append]
      exact hroom.2
    · exact hs
  | recv hi =>
    rw [hi, List.length_cons] at hs
    exact Nat.le_of_succ_le hs
  | request | callSend | callStep | post | postSend | postAbandon | close | inbound | handoff | release | closeApp =>
    exact hs

theorem length_inbox_of_runs (h : Runs Link.step (Link.fromParts now factor limits) tr t) :
    t.inbox.length ≤ inboundChannelCapacity := by
  apply h.invariant (P := fun s : Link => s.inbox.length ≤ inboundChannelCapacity) (Nat.zero_le _)
  intro s a s' hs hstep
  exact length_inbox_of_step hstep hs

theorem appOpen_of_runs (h : Runs Link.step (Link.fromParts now factor limits) tr t) (hopen : ∀ x ∈ tr, x.2 ≠ .closeApp) :
    t.appOpen = true := by
  induction h with
  | start => rfl
  | @step tr s s' a _ hs ih =>
    have hbefore := ih fun x hx => hopen x (List.mem_append_left _ hx)
    have ha : a ≠ .closeApp := hopen (s, a) (by simp)
    cases Link.stepped_of_step hs with
    | deliver =>
      unfold Link.deliver
      split <;> exact hbefore
    | closeApp => exact absurd rfl ha
    | request | callSend | callStep | post | postSend | postAbandon | close | inbound | handoff | release | recv =>
      exact hbefore

/-- **The channel is a queue** of what it is offered while it has room, as long as the application keeps it open. -/
theorem inbox_of_step (h : s.step a = some s') (ho : s.appOpen = true) (hs : s.inbox.length ≤ inboundChannelCapacity) :
    s.inbox ++ (queued (s, a)).toList = (received (s, a)).toList ++ s'.inbox := by
  cases Link.stepped_of_step h with
  | @deliver m hr =>
    by_cases hroom : s.inbox.length < inboundChannelCapacity
    · rw [Link.deliver, if_pos ⟨ho, hroom⟩]
      simp [queued, offered, received, hr, Nat.ne_of_lt hroom]
    · have hfull : s.inbox.length = inboundChannelCapacity := Nat.le_antisymm hs (Nat.le_of_not_lt hroom)
      rw [Link.deliver, if_neg (fun hc => hroom hc.2)]
      simp [queued, received, hfull]
  | recv hi => simp [queued, offered, received, hi]
  | request | callSend | callStep | post | postSend | postAbandon | close | inbound | handoff | release | closeApp =>
    simp [queued, offered, received]

/-! ## The application's stream -/

/-- **The application's stream is faithful.**  The frames that `take` does not classify as answers are offered to the
channel, each once, in the order in which they arrive and as they were decoded, but for one that the reader may still
hold; and what is offered while the channel does not hold its capacity of earlier ones is what the application has
received, followed by what is queued.  So the only frames lost are those offered to a full channel. -/
theorem application_stream (h : Runs Link.step (Link.fromParts now factor limits) tr t)
    (hopen : ∀ x ∈ tr, x.2 ≠ .closeApp) :
    tr.filterMap unmatched = tr.filterMap offered ++ t.reader.pending ∧
    (tr.filter fun x => x.1.inbox.length ≠ inboundChannelCapacity).filterMap offered =
      tr.filterMap received ++ t.inbox ∧
    (∀ x ∈ tr, x.1.inbox.length ≤ inboundChannelCapacity) ∧ t.inbox.length ≤ inboundChannelCapacity := by
  have hstates : ∀ x ∈ tr, x.1.appOpen = true ∧ x.1.inbox.length ≤ inboundChannelCapacity := by
    intro x hx
    obtain ⟨pre, post, rfl⟩ := List.append_of_mem hx
    obtain ⟨hpre, -⟩ := h.split rfl
    exact ⟨appOpen_of_runs hpre fun y hy => hopen y (List.mem_append_left _ hy), length_inbox_of_runs hpre⟩
  have hreader := h.fifo (q := fun s : Link => s.reader.pending) fun x _ s' hs => pending_of_step hs
  have hinbox := h.fifo (q := fun s : Link => s.inbox) fun x hx s' hs =>
    inbox_of_step hs (hstates x hx).1 (hstates x hx).2
  refine ⟨hreader, ?_, fun x hx => (hstates x hx).2, length_inbox_of_runs h⟩
  rw [List.filterMap_filter]
  refine Eq.trans ?_ hinbox
  apply List.filterMap_congr
  intro x _
  by_cases hfull : x.1.inbox.length = inboundChannelCapacity <;> simp [queued, hfull]

/-- Three frames that answer nothing: without an id, under an id nobody waits on, and of an opcode the request that has
the id does not declare. -/
def threeUnanswered : List Action :=
  [.inbound (.binary (DigMessage.toBytes ⟨230, none, [1]⟩)), .deliver, .request 220 [5] [221], .call 0 .acquire,
    .inbound (.binary (DigMessage.toBytes ⟨221, some 7, [2]⟩)), .call 0 .insert, .deliver, .recv,
    .inbound (.binary (DigMessage.toBytes ⟨231, some 0, [3]⟩)), .deliver, .recv]

theorem application_stream_three : ∃ tr t, Runs Link.step (Link.fromParts 0 1 defaultOnly) tr t ∧
    tr.filterMap unmatched = tr.filterMap offered ++ t.reader.pending ∧
    (tr.filter fun x => x.1.inbox.length ≠ inboundChannelCapacity).filterMap offered = tr.filterMap received ++ t.inbox ∧
    tr.filterMap received = [⟨230, none, [1]⟩, ⟨221, some 7, [2]⟩] ∧ t.inbox = [⟨231, some 0, [3]⟩] := by
  have hsome : (run Link.step (Link.fromParts 0 1 defaultOnly) threeUnanswered).isSome = true := by decide +kernel
  have hopen : ∀ x ∈ trace Link.step (Link.fromParts 0 1 defaultOnly) threeUnanswered, x.2 ≠ .closeApp := by
    decide +kernel
  obtain ⟨hreader, hinbox, -⟩ := application_stream (runs_reach hsome) hopen
  exact ⟨_, _, runs_reach hsome, hreader, hinbox, by decide +kernel, by decide +kernel⟩

end Dig
