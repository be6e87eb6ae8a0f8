import DigPeer.Inbox
import DigPeer.Agreement
import DigPeer.Lib.Channel
/-!
# Stream — what one application's sends are to the other

Between two applications lie a sink, a wire, a reader and a queue.  Together they are one `Channel`: what is in the
queue, with the reader and unread is in flight, in that order, and every step of either side is a step of the channel or
none (`stream_of_step`).  It loses the messages that `take` classifies as answers, those that are too long for the
reader and those offered to a full or closed queue, and no others.
-/
namespace Dig

open Correlator Lts

variable {tr : List (Duplex × Side × Event)} {d d' : Duplex} {e e' : Endpoint} {peer : List Written} {event : Event}
  {side : Side} {m : DigMessage} {y : Written} {now : Side → ℕ} {factor : Side → ℚ} {limits : Side → OpcodeRateLimits}
  {s s' : Link} {a : Action} {table : OpcodeRateLimits} {sent : List DigMessage} {n : ℕ}

/-! ## What has been written -/

def Link.wrote (s : Link) : List DigMessage := s.outlet.sink.filterMap fun y => s.message? y.writer

/-- These messages were written in these frames. -/
def Link.Framed (s : Link) (m : DigMessage) (y : Written) : Prop := s.message? y.writer = some m ∧ y.frame = m.toBytes

theorem wrote_of_sink (s s' : Link) (l : List Written)
    (hl : ∀ y ∈ l, ∃ m, s.message? y.writer = some m ∧ s'.message? y.writer = some m) :
    l.filterMap (fun y => s'.message? y.writer) = l.filterMap fun y => s.message? y.writer := by
  apply List.filterMap_congr
  intro y hy
  obtain ⟨m, hm, hm'⟩ := hl y hy
  rw [hm, hm']

theorem Link.Sent.framed (hs : s.Sent table) : List.Forall₂ s.Framed s.wrote s.outlet.sink := by
  have hframed : ∀ l : List Written, (∀ y ∈ l, ∃ m, s.Framed m y) →
      List.Forall₂ s.Framed (l.filterMap fun y => s.message? y.writer) l := by
    intro l hl
    induction l with
    | nil => exact .nil
    | cons y l ih =>
      obtain ⟨m, hm⟩ := hl y List.mem_cons_self
      simp only [List.filterMap_cons, hm.1]
      exact .cons hm (ih fun z hz => hl z (List.mem_cons_of_mem _ hz))
  refine hframed _ fun y hy => ?_
  obtain ⟨m, hm, hframe, -⟩ := hs.written y hy
  exact ⟨m, hm, hframe⟩

/-- **A step writes one frame at most.** -/
theorem sink_of_step (h : s.step a = some s') :
    s'.outlet.sink = s.outlet.sink ∨ ∃ y, s'.outlet.sink = s.outlet.sink ++ [y] := by
  cases step_send h with
  | quiet ho => exact Or.inl (by rw [ho])
  | sends hm hp hs =>
    rcases Outlet.send_cases hs with ⟨-, hsink, -⟩ | ⟨ho, -⟩ | ⟨-, -, ho⟩
    · exact Or.inl hsink
    · exact Or.inl (by rw [ho])
    · exact Or.inr ⟨_, by rw [ho]⟩

theorem wrote_of_step (hs : s.Sent table) (hs' : s'.Sent table) (h : s.step a = some s') :
    s'.wrote = s.wrote ∨ ∃ m, s'.wrote = s.wrote ++ [m] := by
  have hold : s.outlet.sink.filterMap (fun y => s'.message? y.writer) = s.wrote := by
    refine wrote_of_sink s s' _ fun y hy => ?_
    obtain ⟨m, hm, -⟩ := hs.written y hy
    exact ⟨m, hm, message?_of_step h hm⟩
  rcases sink_of_step h with hsink | ⟨y, hsink⟩
  · exact Or.inl (by rw [Link.wrote, hsink, hold])
  · obtain ⟨m, hm, -⟩ := hs'.written y (by simp [hsink])
    exact Or.inr ⟨m, by rw [Link.wrote, hsink, List.filterMap_append, hold]; simp [hm]⟩

/-- What a reader makes of the frames: the messages that are not too long for it. -/
structure Decodes (peer : List Written) (sent : List DigMessage) : Prop where
  length  : sent.length = peer.length
  decoded : ∀ (n : ℕ) (y : Written) (m : DigMessage), peer[n]? = some y → sent[n]? = some m →
    y.decoded = if m.data.length ≤ DigMessage.maxMessageSize then some m else none

theorem Link.Sent.decodes (hs : s.Sent table) (hfits : table.FitsHeader) : Decodes s.outlet.sink s.wrote := by
  have hframed := hs.framed
  refine ⟨hframed.length_eq, fun n y m hy hm => ?_⟩
  obtain ⟨hn, rfl⟩ := List.getElem?_eq_some_iff.1 hy
  obtain ⟨hn', rfl⟩ := List.getElem?_eq_some_iff.1 hm
  exact decoded_of_written hs hfits (List.getElem_mem hn) (hframed.get hn' hn).1

theorem Decodes.of_frameAt (h : Decodes peer sent) (hm : frameAt peer n = some m) : sent[n]? = some m := by
  obtain ⟨y, hy, hdecoded⟩ := Option.bind_eq_some_iff.1 hm
  obtain ⟨m', hm'⟩ : ∃ m', sent[n]? = some m' :=
    ⟨_, List.getElem?_eq_getElem (h.length ▸ (List.getElem?_eq_some_iff.1 hy).1)⟩
  rw [h.decoded n y m' hy hm'] at hdecoded
  split at hdecoded
  · rw [hm', hdecoded]
  · cases hdecoded

/-! ## The channel -/

/-- What nothing but a queue without room can lose. -/
def DigMessage.isPlain (m : DigMessage) : Bool := m.id = none ∧ m.data.length ≤ maxMessageSize

namespace Endpoint

/-- The direction towards this side, whose peer has written these messages. -/
def stream (e : Endpoint) (sent : List DigMessage) : Channel DigMessage where
  sent     := sent
  inFlight := e.link.inbox ++ (e.link.reader.pending ++ sent.drop e.read)
  received := e.received.filterMap (sent[·]?)

def HasRoom (e : Endpoint) : Prop := e.link.appOpen = true ∧ e.link.inbox.length < inboundChannelCapacity

/-- How a message may be lost: taken for an answer, which it can be only with an id, too long for the reader, or offered
to a queue without room. -/
def Loses (e : Endpoint) (event : Event) (m : DigMessage) : Prop :=
  m.id ≠ none ∨ DigMessage.maxMessageSize < m.data.length ∨ event = .deliver ∧ ¬ e.HasRoom

/-- What a step of one side is to the channel towards it. -/
inductive StreamStep (e : Endpoint) (sent : List DigMessage) (event : Event) (e' : Endpoint) : Prop
  | quiet (h : e'.stream sent = e.stream sent)
  | receive {m : DigMessage} {rest : List DigMessage} (hm : (e.stream sent).inFlight = m :: rest)
      (h : e'.stream sent = { e.stream sent with inFlight := rest, received := (e.stream sent).received ++ [m] })
  | lose {l r : List DigMessage} {m : DigMessage} (hm : (e.stream sent).inFlight = l ++ m :: r) (hl : e.Loses event m)
      (h : e'.stream sent = { e.stream sent with inFlight := l ++ r })

theorem pending_eq_of_step {s s' : Link} {a : Action} (h : s.step a = some s') (ha : a ≠ .deliver)
    (hf : a.frame? = none) : s'.reader.pending = s.reader.pending := by
  have hpending := pending_of_step h
  have hoffered : offered (s, a) = none := by cases a <;> first | rfl | exact absurd rfl ha
  rw [unmatched, hf, hoffered] at hpending
  simpa using hpending.symm

theorem stream_of_step (he : e.Tracked peer) (hc : Decodes peer sent) (h : e.step peer event = some e') :
    e.StreamStep sent event e' := by
  -- an event that leaves `read` and what has been received alone, and whose action touches neither queue
  have hquiet : ∀ {a : Action} {link : Link} (purposes : List Purpose), e.link.step a = some link →
      a ≠ .deliver ∧ a ≠ .recv → a.frame? = none → e.StreamStep sent event { e with link, purposes } := by
    intro a link purposes hlink ha hf
    refine .quiet ?_
    unfold stream
    rw [inbox_eq_of_step hlink ha, pending_eq_of_step hlink ha.1 hf]
  cases event with
  | act a =>
    simp only [step, Option.ite_none_right_eq_some] at h
    obtain ⟨hinternal, h⟩ := h
    obtain ⟨link, hlink, rfl⟩ := Option.map_eq_some_iff.1 h
    exact hquiet _ hlink (by cases a <;> simp_all [Action.isInternal])
      (by cases a <;> simp_all [Action.isInternal, Action.frame?])
  | send message =>
    simp only [step] at h
    obtain ⟨link, hlink, rfl⟩ := Option.map_eq_some_iff.1 h
    exact hquiet _ hlink (by simp) rfl
  | answer n message =>
    simp only [step, Option.ite_none_right_eq_some] at h
    obtain ⟨link, hlink, rfl⟩ := Option.map_eq_some_iff.1 h.2
    exact hquiet _ hlink (by simp) rfl
  | control item =>
    simp only [step, Option.ite_none_right_eq_some] at h
    obtain ⟨hcontrol, h⟩ := h
    obtain ⟨link, hlink, rfl⟩ := Option.map_eq_some_iff.1 h
    exact hquiet _ hlink (by simp) (by cases item <;> simp_all [Item.isControl, Action.frame?])
  | read =>
    simp only [step] at h
    split at h
    · cases h
    · rename_i y hy
      obtain ⟨link, hlink, rfl⟩ := Option.map_eq_some_iff.1 h
      have hinbox := inbox_eq_of_step hlink (by simp)
      have hpending := pending_of_step hlink
      have hidle : e.link.reader.pending = [] := by
        cases Link.stepped_of_step hlink with
        | inbound item hr => rw [hr]; rfl
      obtain ⟨m, hm, hunread⟩ : ∃ m, sent[e.read]? = some m ∧ sent.drop e.read = m :: sent.drop (e.read + 1) := by
        have hlt : e.read < sent.length := hc.length ▸ (List.getElem?_eq_some_iff.1 hy).1
        exact ⟨_, List.getElem?_eq_getElem hlt, List.drop_eq_getElem_cons hlt⟩
      have hfirst : (e.stream sent).inFlight = e.link.inbox ++ m :: sent.drop (e.read + 1) := by
        simp [stream, hidle, hunread]
      have hframe : (Action.inbound (.binary y.frame)).frame? = y.decoded := rfl
      simp only [unmatched, hframe, offered, hidle, Option.toList_none, List.nil_append,
        hc.decoded e.read y m hy hm] at hpending
      by_cases hcap : m.data.length ≤ DigMessage.maxMessageSize
      · rw [if_pos hcap] at hpending
        by_cases hanswers : e.link.requests.answers m = true
        · have hheld : link.reader.pending = [] := by simpa [Option.filter, hanswers] using hpending.symm
          refine .lose hfirst (Or.inl ?_) ?_
          · rintro hid
            simp [RequestMap.answers, hid] at hanswers
          · simp [stream, hinbox, hheld]
        · have hheld : link.reader.pending = [m] := by simpa [Option.filter, hanswers] using hpending.symm
          refine .quiet ?_
          simp [stream, hinbox, hidle, hunread, hheld]
      · rw [if_neg hcap] at hpending
        have hheld : link.reader.pending = [] := by simpa using hpending.symm
        refine .lose hfirst (Or.inr (Or.inl (Nat.not_le.1 hcap))) ?_
        simp [stream, hinbox, hheld]
  | deliver =>
    obtain ⟨link, hlink, rfl⟩ := Option.map_eq_some_iff.1 h
    cases Link.stepped_of_step hlink with
    | @deliver m hr =>
      by_cases hroom : e.HasRoom
      · refine .quiet ?_
        simp [stream, Link.deliver, if_pos (show _ ∧ _ from hroom), hr, Reader.pending]
      · refine .lose (l := e.link.inbox) (m := m) (r := sent.drop e.read) ?_ (Or.inr (Or.inr ⟨rfl, hroom⟩)) ?_
        · simp [stream, hr, Reader.pending]
        · simp [stream, Link.deliver, if_neg (show ¬ (_ ∧ _) from hroom), Reader.pending]
  | recv =>
    obtain ⟨link, hlink, rfl⟩ := Option.map_eq_some_iff.1 h
    cases Link.stepped_of_step hlink with
    | @recv m inbox hinbox ho =>
      have hqueued := he.queued
      rw [hinbox] at hqueued
      obtain ⟨n, queued, hq, hn, -⟩ := List.map_eq_cons_iff.1 hqueued.symm
      have hfirst : (e.stream sent).inFlight = m :: (inbox ++ (e.link.reader.pending ++ sent.drop e.read)) := by
        simp [stream, hinbox]
      refine .receive hfirst ?_
      simp [stream, hq, hc.of_frameAt hn]

theorem read_of_step (h : e.step peer event = some e') :
    e'.read = e.read ∨ e.read < peer.length ∧ e'.read = e.read + 1 := by
  cases event with
  | act a | control item =>
    simp only [step, Option.ite_none_right_eq_some] at h
    obtain ⟨link, -, rfl⟩ := Option.map_eq_some_iff.1 h.2
    exact Or.inl rfl
  | answer n message =>
    simp only [step, Option.ite_none_right_eq_some] at h
    obtain ⟨link, -, rfl⟩ := Option.map_eq_some_iff.1 h.2
    exact Or.inl rfl
  | send message =>
    simp only [step] at h
    obtain ⟨link, -, rfl⟩ := Option.map_eq_some_iff.1 h
    exact Or.inl rfl
  | read =>
    simp only [step] at h
    split at h
    · cases h
    · rename_i y hy
      obtain ⟨link, -, rfl⟩ := Option.map_eq_some_iff.1 h
      exact Or.inr ⟨(List.getElem?_eq_some_iff.1 hy).1, rfl⟩
  | deliver | recv =>
    obtain ⟨link, -, rfl⟩ := Option.map_eq_some_iff.1 h
    exact Or.inl rfl

/-- **What the peer writes is sent.** -/
theorem stream_concat (hread : e.read ≤ sent.length) (hreceived : ∀ n ∈ e.received, n < sent.length) (m : DigMessage) :
    e.stream (sent ++ [m]) =
      { e.stream sent with sent := sent ++ [m], inFlight := (e.stream sent).inFlight ++ [m] } := by
  have hold : e.received.filterMap ((sent ++ [m])[·]?) = e.received.filterMap (sent[·]?) :=
    List.filterMap_congr fun n hn => List.getElem?_append_left (hreceived n hn)
  simp only [stream, List.drop_append_of_le_length hread, List.append_assoc, hold]

end Endpoint

/-! ## Both sides -/

namespace Duplex

/-- The direction towards a side. -/
def stream (d : Duplex) (side : Side) : Channel DigMessage := (d side).stream (d side.other).link.wrote

end Duplex

theorem read_le_of_runs (h : Runs Duplex.step (Duplex.start now factor limits) tr d) :
    ∀ side, (d side).read ≤ (d.channel side).length := by
  induction h with
  | start => exact fun side => Nat.le_refl _
  | @step tr d d' x _ hstep ih =>
    intro side
    have hprefix := (channel_prefix_of_step hstep side).length_le
    obtain ⟨e, he, rfl⟩ := Duplex.step_eq_some hstep
    by_cases hside : side = x.1
    · subst hside
      rw [Function.update_self]
      have hread := ih x.1
      rcases Endpoint.read_of_step he with hsame | ⟨hlt, hnext⟩
      · omega
      · omega
    · rw [Function.update_of_ne hside]
      exact le_trans (ih side) hprefix

/-- **Every step of the pair is a step of the channel, or none.** -/
theorem stream_step (hrun : Runs Duplex.step (Duplex.start now factor limits) tr d)
    (hfits : ∀ side, (limits side).FitsHeader) {x : Side × Event} (h : Duplex.step d x = some d')
    {keeps : DigMessage → Bool} (hkeeps : ∀ m, x.1 = side → (d side).Loses x.2 m → keeps m = false) :
    d'.stream side = d.stream side ∨ ∃ op, Channel.step keeps (d.stream side) op = some (d'.stream side) := by
  have htracked := tracked_of_runs hrun side
  obtain ⟨_, hlink⟩ := link_runs hrun side.other
  have hsent := sent_of_runs hlink
  have hdecodes : Decodes (d.channel side) (d side.other).link.wrote := hsent.decodes (hfits side.other)
  obtain ⟨_, hlink'⟩ := link_runs (hrun.step h) side.other
  have hsent' := sent_of_runs hlink'
  obtain ⟨e, he, rfl⟩ := Duplex.step_eq_some h
  by_cases hside : x.1 = side
  · -- the side itself: what it reads from is as it was
    subst hside
    have hstream : Duplex.stream (Function.update d x.1 e) x.1 = e.stream (d x.1.other).link.wrote := by
      rw [Duplex.stream, Function.update_self, Function.update_of_ne x.1.other_ne]
    rw [hstream]
    cases Endpoint.stream_of_step htracked hdecodes he with
    | quiet hsame => exact Or.inl hsame
    | receive hm hafter =>
      refine Or.inr ⟨.receive, ?_⟩
      simp only [Duplex.stream, Channel.step, hm, hafter]
    | @lose l r m hm hl hafter =>
      refine Or.inr ⟨.lose l.length, ?_⟩
      rw [hafter]
      exact Channel.step_lose (hkeeps _ rfl hl) hm
  · -- the other side: it writes a frame at most
    have hother : x.1 = side.other := by
      cases hx : x.1 <;> cases hs : side <;> simp_all [Side.other]
    obtain ⟨a, ha, -⟩ := Endpoint.step_effect he
    have hself : Function.update d x.1 e side = d side := Function.update_of_ne (Ne.symm hside) _ _
    have hwrote : Function.update d x.1 e side.other = e := by rw [← hother, Function.update_self]
    rw [hwrote] at hsent'
    rw [Duplex.stream, Duplex.stream, hself, hwrote]
    rw [hother] at ha
    rcases wrote_of_step hsent hsent' ha with hsame | ⟨m, hnew⟩
    · exact Or.inl (by rw [hsame])
    · rw [hnew, Endpoint.stream_concat]
      · exact Or.inr ⟨.send m, rfl⟩
      · rw [hdecodes.length]
        exact read_le_of_runs hrun side
      · intro n hn
        obtain ⟨m, hm⟩ := Option.isSome_iff_exists.1 (htracked.received n hn)
        exact (List.getElem?_eq_some_iff.1 (hdecodes.of_frameAt hm)).1

theorem stream_of_runs (h : Runs Duplex.step (Duplex.start now factor limits) tr d)
    (hfits : ∀ side, (limits side).FitsHeader) (side : Side) {keeps : DigMessage → Bool}
    (hkeeps : ∀ x ∈ tr, ∀ m, x.2.1 = side → (x.1 side).Loses x.2.2 m → keeps m = false) :
    ∃ tr', Runs (Channel.step keeps) Channel.empty tr' (d.stream side) :=
  h.refine (f := fun d => d.stream side) fun _ d x _ hbefore hmem hstep =>
    stream_step hbefore hfits hstep (hkeeps (d, x) hmem)

/-- **Each direction is a channel that keeps its order.**  What a side's application has received, and then what is on
its way to it, is what the other side has written, unchanged, in the order it was written and with nothing twice; and of
the messages without an id and within the cap none is missing, as long as the application's queue is open and has room
whenever the reader delivers.  What has been written is, frame by frame, the message of the call or of the send that
wrote it.  The applications may send any messages at all; the tables are such that a length field can describe what they
let through (`FitsHeader`). -/
theorem application_channel (h : Runs Duplex.step (Duplex.start now factor limits) tr d)
    (hfits : ∀ side, (limits side).FitsHeader) (side : Side) :
    (∃ tr', Runs (Channel.step fun _ => false) Channel.empty tr' (d.stream side)) ∧
    ((d.stream side).received ++ (d.stream side).inFlight).Sublist (d.stream side).sent ∧
    ((∀ x ∈ tr, x.2 = (side, .deliver) → (x.1 side).HasRoom) →
      ((d.stream side).received ++ (d.stream side).inFlight).filter DigMessage.isPlain =
        (d.stream side).sent.filter DigMessage.isPlain) ∧
    List.Forall₂ (d side.other).link.Framed (d.stream side).sent (d.channel side) := by
  have hrefines : ∃ tr', Runs (Channel.step fun _ => false) Channel.empty tr' (d.stream side) :=
    stream_of_runs h hfits side fun _ _ _ _ _ => rfl
  obtain ⟨_, hlossy⟩ := id hrefines
  obtain ⟨_, hlink⟩ := link_runs h side.other
  refine ⟨hrefines, Channel.sublist_of_runs hlossy, fun hroom => ?_, (sent_of_runs hlink).framed⟩
  have hkeeps : ∀ x ∈ tr, ∀ m, x.2.1 = side → (x.1 side).Loses x.2.2 m → m.isPlain = false := by
    rintro ⟨d, x, event⟩ hx m rfl (hid | hlong | ⟨hdeliver, hfull⟩)
    · exact decide_eq_false fun hplain => hid hplain.1
    · exact decide_eq_false fun hplain => Nat.not_le.2 hlong hplain.2
    · obtain rfl : event = .deliver := hdeliver
      exact absurd (hroom _ hx rfl) hfull
  obtain ⟨_, hkept⟩ := stream_of_runs h hfits side hkeeps
  exact Channel.filter_of_runs hkept

def sendTwo : List (Side × Event) :=
  (.a, .send ⟨230, none, [1]⟩) :: sendSteps.map (fun e => (.a, .act (.postStep 0 (.send e)))) ++
    (.a, .send ⟨231, none, [2]⟩) :: sendSteps.map (fun e => (.a, .act (.postStep 1 (.send e)))) ++
    [(.b, .read), (.b, .deliver), (.b, .recv), (.b, .read)]

theorem application_channel_sendTwo : ∃ tr d, Runs Duplex.step startDefault tr d ∧
    (d.stream .b).received = [⟨230, none, [1]⟩] ∧ (d.stream .b).inFlight = [⟨231, none, [2]⟩] ∧
    ((d.stream .b).received ++ (d.stream .b).inFlight).filter DigMessage.isPlain =
      (d.stream .b).sent.filter DigMessage.isPlain := by
  have hsome : (run Duplex.step startDefault sendTwo).isSome = true := by decide +kernel
  have hroom : ∀ x ∈ trace Duplex.step startDefault sendTwo, x.2 = (.b, .deliver) →
      (x.1 .b).link.appOpen = true ∧ (x.1 .b).link.inbox.length < inboundChannelCapacity := by decide +kernel
  exact ⟨_, _, runs_reach hsome, by decide +kernel, by decide +kernel,
    (application_channel (runs_reach hsome) (fun _ => fitsHeader_defaultOnly) .b).2.2.1 hroom⟩

end Dig
