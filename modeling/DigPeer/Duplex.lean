import DigPeer.Sending
import Mathlib.Logic.Function.Basic
/-!
# Duplex — two links joined by a channel in each direction

The channels are reliable and keep their order: what a side can read is what the other has written, one frame after the
other.  Besides its requests a side's application sends any messages it likes.  One that it sends in answer to a request
it has been delivered, with the id of the request and the first for it, is told apart from the rest by its purpose;
`Duplex.Disciplined` says that the rest have no ids.

`read` is how far a side has come on its channel.  Which of the peer's frames are in the application's queue or have
been taken from it, and what each message it sent was for, are written down beside the link and read by no code
(`tracked_of_runs`).
-/
namespace Dig

open Correlator Lts

inductive Side where
  | a
  | b
deriving DecidableEq, Repr

def Side.other : Side → Side
  | .a => .b
  | .b => .a

inductive Purpose where
  | own
  | answers (n : ℕ)
deriving DecidableEq, Repr

structure Endpoint where
  link     : Link
  read     : ℕ
  queued   : List ℕ
  received : List ℕ
  purposes : List Purpose

inductive Event where
  | act (a : Action)
  | send (message : DigMessage)
  | answer (n : ℕ) (message : DigMessage)
  | read
  | control (item : Item)
  | deliver
  | recv
deriving DecidableEq, Repr

/-- The actions that take nothing off the channel or the queue and send nothing of the application's. -/
def Action.isInternal : Action → Bool
  | .request _ _ _ | .call _ _ | .postStep _ _ | .close _ | .handoff | .release | .closeApp => true
  | _ => false

def Item.isControl : Item → Bool
  | .binary _ => false
  | _ => true

namespace Written

def decoded (x : Written) : Option DigMessage := (Action.inbound (.binary x.frame)).frame?

def request? (x : Written) : Option DigMessage :=
  match x.writer with
  | .call _ => x.decoded
  | .post _ => none

end Written

namespace Endpoint

def post (e : Endpoint) (purpose : Purpose) (message : DigMessage) : Option Endpoint :=
  (e.link.step (.post message)).map fun link => { e with link, purposes := e.purposes ++ [purpose] }

def step (e : Endpoint) (peer : List Written) : Event → Option Endpoint
  | .act a => if a.isInternal then (e.link.step a).map fun link => { e with link } else none
  | .send message => e.post .own message
  | .answer n message =>
    if n ∈ e.received ∧ Purpose.answers n ∉ e.purposes ∧
      ((peer[n]?).bind Written.request?).map DigMessage.id = some message.id then e.post (.answers n) message
    else none
  | .read =>
    match peer[e.read]? with
    | none   => none
    | some x => (e.link.step (.inbound (.binary x.frame))).map fun link => { e with link, read := e.read + 1 }
  | .control item => if item.isControl then (e.link.step (.inbound item)).map fun link => { e with link } else none
  | .deliver => (e.link.step .deliver).map fun link =>
      { e with link, queued := if link.inbox = e.link.inbox then e.queued else e.queued ++ [e.read - 1] }
  | .recv => (e.link.step .recv).map fun link =>
      { e with link, queued := e.queued.tail, received := e.received ++ e.queued.head?.toList }

end Endpoint

abbrev Duplex := Side → Endpoint

namespace Duplex

def start (now : Side → ℕ) (factor : Side → ℚ) (limits : Side → OpcodeRateLimits) : Duplex := fun side =>
  ⟨.fromParts (now side) (factor side) (limits side), 0, [], [], []⟩

/-- What a side's peer has written: the channel it reads from. -/
def channel (d : Duplex) (side : Side) : List Written := (d side.other).link.outlet.sink

def step (d : Duplex) (x : Side × Event) : Option Duplex :=
  ((d x.1).step (d.channel x.1) x.2).map (Function.update d x.1)

end Duplex

variable {tr : List (Duplex × Side × Event)} {d d' : Duplex} {e e' : Endpoint} {peer : List Written} {event : Event}
  {side : Side} {m : DigMessage} {now : Side → ℕ} {factor : Side → ℚ} {limits : Side → OpcodeRateLimits}

@[simp] theorem Side.other_other (side : Side) : side.other.other = side := by cases side <;> rfl

theorem Side.other_ne (side : Side) : side.other ≠ side := by cases side <;> exact Side.noConfusion

theorem Duplex.channel_update (d : Duplex) (side : Side) (e : Endpoint) :
    Duplex.channel (Function.update d side e) side = d.channel side := by
  rw [Duplex.channel, Duplex.channel, Function.update_of_ne side.other_ne]

/-- What a step of one side does beside its link: it sends a message of the application's, or it brings in at most a
frame off the channel. -/
inductive Endpoint.Effect (e : Endpoint) (peer : List Written) (e' : Endpoint) (a : Action) : Prop
  | posts {purpose : Purpose} {m : DigMessage} (ha : a = .post m) (hpurposes : e'.purposes = e.purposes ++ [purpose])
      (hreceived : e'.received = e.received)
      (hpurpose : purpose = .own ∨ ∃ n, purpose = .answers n ∧ n ∈ e.received ∧
        Purpose.answers n ∉ e.purposes ∧ ((peer[n]?).bind Written.request?).map DigMessage.id = some m.id)
  | moves (ha : ∀ m, a ≠ .post m) (hpurposes : e'.purposes = e.purposes) (hreceived : e.received ⊆ e'.received)
      (hf : ∀ m, a.frame? = some m → ∃ x ∈ peer, x.decoded = some m)

theorem Endpoint.post_eq_some {purpose : Purpose} (h : e.post purpose m = some e') :
    e.link.step (.post m) = some e'.link ∧ e'.purposes = e.purposes ++ [purpose] ∧ e'.received = e.received := by
  obtain ⟨link, hlink, rfl⟩ := Option.map_eq_some_iff.1 h
  exact ⟨hlink, rfl, rfl⟩

/-- **A step of one side is a step of its link.** -/
theorem Endpoint.step_effect (h : e.step peer event = some e') :
    ∃ a, e.link.step a = some e'.link ∧ e.Effect peer e' a := by
  cases event with
  | act a =>
    simp only [step, Option.ite_none_right_eq_some] at h
    obtain ⟨hinternal, h⟩ := h
    obtain ⟨link, hlink, rfl⟩ := Option.map_eq_some_iff.1 h
    refine ⟨a, hlink, .moves (fun m ha => ?_) rfl (List.Subset.refl _) fun m hm => ?_⟩
    · subst ha
      cases hinternal
    · cases a <;> first | cases hm | cases hinternal
  | send message =>
    obtain ⟨hlink, hpurposes, hreceived⟩ := post_eq_some h
    exact ⟨_, hlink, .posts rfl hpurposes hreceived (Or.inl rfl)⟩
  | answer n message =>
    simp only [step, Option.ite_none_right_eq_some] at h
    obtain ⟨⟨hn, hnot, hid⟩, h⟩ := h
    obtain ⟨hlink, hpurposes, hreceived⟩ := post_eq_some h
    exact ⟨_, hlink, .posts rfl hpurposes hreceived (Or.inr ⟨n, rfl, hn, hnot, hid⟩)⟩
  | read =>
    simp only [step] at h
    split at h
    · cases h
    · rename_i x hx
      obtain ⟨link, hlink, rfl⟩ := Option.map_eq_some_iff.1 h
      exact ⟨_, hlink, .moves (fun m ha => by cases ha) rfl (List.Subset.refl _)
        fun m hm => ⟨x, List.mem_of_getElem? hx, hm⟩⟩
  | control item =>
    simp only [step, Option.ite_none_right_eq_some] at h
    obtain ⟨hcontrol, h⟩ := h
    obtain ⟨link, hlink, rfl⟩ := Option.map_eq_some_iff.1 h
    refine ⟨_, hlink, .moves (fun m ha => by cases ha) rfl (List.Subset.refl _) fun m hm => ?_⟩
    cases item <;> first | cases hm | cases hcontrol
  | deliver =>
    obtain ⟨link, hlink, rfl⟩ := Option.map_eq_some_iff.1 h
    exact ⟨_, hlink, .moves (fun m ha => by cases ha) rfl (List.Subset.refl _) fun m hm => by cases hm⟩
  | recv =>
    obtain ⟨link, hlink, rfl⟩ := Option.map_eq_some_iff.1 h
    exact ⟨_, hlink, .moves (fun m ha => by cases ha) rfl (List.subset_append_left _ _) fun m hm => by cases hm⟩

theorem Duplex.step_eq_some {x : Side × Event} (h : Duplex.step d x = some d') :
    ∃ e, (d x.1).step (d.channel x.1) x.2 = some e ∧ d' = Function.update d x.1 e := by
  obtain ⟨e, he, rfl⟩ := Option.map_eq_some_iff.1 h
  exact ⟨e, he, rfl⟩

/-- **Each side's link runs as a link on its own does.** -/
theorem link_runs (h : Runs Duplex.step (Duplex.start now factor limits) tr d) (side : Side) :
    ∃ tr', Runs Link.step (Link.fromParts (now side) (factor side) (limits side)) tr' (d side).link := by
  apply h.project (f := fun d : Duplex => (d side).link)
  intro d x d' hstep
  obtain ⟨e, he, rfl⟩ := Duplex.step_eq_some hstep
  by_cases hside : side = x.1
  · subst hside
    obtain ⟨a, ha, -⟩ := Endpoint.step_effect he
    exact Or.inr ⟨a, by simpa using ha⟩
  · simp [Function.update_of_ne hside]

/-! ## The record beside the link -/

def frameAt (peer : List Written) (n : ℕ) : Option DigMessage := (peer[n]?).bind Written.decoded

theorem frameAt_extend {peer' : List Written} {n : ℕ} (hp : peer <+: peer') (h : frameAt peer n = some m) :
    frameAt peer' n = some m := by
  obtain ⟨x, hx, hm⟩ := Option.bind_eq_some_iff.1 h
  obtain ⟨l, rfl⟩ := hp
  exact Option.bind_eq_some_iff.2 ⟨x, (List.getElem?_append_left (List.getElem?_eq_some_iff.1 hx).1).trans hx, hm⟩

/-- **The record is right**: the numbers in it are those of the frames the queue holds, in order, of frames taken from
the queue, and of the frame the reader is about to deliver. -/
structure Endpoint.Tracked (e : Endpoint) (peer : List Written) : Prop where
  queued   : e.link.inbox.map some = e.queued.map (frameAt peer)
  received : ∀ n ∈ e.received, (frameAt peer n).isSome
  reader   : ∀ m, e.link.reader = .delivering m → ∃ n, e.read = n + 1 ∧ frameAt peer n = some m

theorem Endpoint.Tracked.extend {peer' : List Written} (h : e.Tracked peer) (hp : peer <+: peer') :
    e.Tracked peer' := by
  refine ⟨h.queued.trans ?_, fun n hn => ?_, fun m hm => ?_⟩
  · apply List.map_congr_left
    intro n hn
    obtain ⟨m, -, hm⟩ := List.mem_map.1 (h.queued ▸ List.mem_map_of_mem (f := frameAt peer) hn)
    rw [← hm, frameAt_extend hp hm.symm]
  · obtain ⟨m, hm⟩ := Option.isSome_iff_exists.1 (h.received n hn)
    rw [frameAt_extend hp hm]
    rfl
  · obtain ⟨n, hread, hframe⟩ := h.reader m hm
    exact ⟨n, hread, frameAt_extend hp hframe⟩

theorem inbox_eq_of_step {s s' : Link} {a : Action} (h : s.step a = some s') (ha : a ≠ .deliver ∧ a ≠ .recv) :
    s'.inbox = s.inbox := by
  cases Link.stepped_of_step h with
  | deliver => exact absurd rfl ha.1
  | recv => exact absurd rfl ha.2
  | _ => rfl

theorem delivering_of_step {s s' : Link} {a : Action} (h : s.step a = some s') (hr : s'.reader = .delivering m) :
    s.reader = .delivering m ∨ a.frame? = some m := by
  have he := step_effect h
  revert hr
  show s'.toCorrelator.reader = _ → _
  generalize s'.toCorrelator = t at he
  intro hr
  cases he with
  | outside | request | acquire | insert | send | receive | expire | cancel | withdraw | withdrawPermit | abandon =>
    exact Or.inl hr
  | @finish c call id request error hc hp => cases request <;> exact Or.inl hr
  | skip _ _ hn => rcases hn with rfl | rfl <;> cases hr
  | answer | handoff | release | deliver => cases hr
  | pass _ hf | collide _ hf => cases hr; exact Or.inr hf

theorem Endpoint.Tracked.step (he : e.Tracked peer) (h : e.step peer event = some e') : e'.Tracked peer := by
  -- an event that leaves `read` and the queue alone and brings in no frame
  have hquiet : ∀ {a : Action} {link : Link}, e.link.step a = some link → a ≠ .deliver ∧ a ≠ .recv → a.frame? = none →
      ∀ purposes, Tracked { e with link, purposes } peer := by
    intro a link hlink ha hf purposes
    refine ⟨by rw [inbox_eq_of_step hlink ha, he.queued], he.received, fun m hr => ?_⟩
    rcases delivering_of_step hlink hr with hr | hm
    · exact he.reader m hr
    · rw [hf] at hm
      cases hm
  cases event with
  | act a =>
    simp only [step, Option.ite_none_right_eq_some] at h
    obtain ⟨hinternal, h⟩ := h
    obtain ⟨link, hlink, rfl⟩ := Option.map_eq_some_iff.1 h
    exact hquiet hlink (by cases a <;> simp_all [Action.isInternal])
      (by cases a <;> simp_all [Action.isInternal, Action.frame?]) _
  | send message =>
    simp only [step] at h
    obtain ⟨link, hlink, rfl⟩ := Option.map_eq_some_iff.1 h
    exact hquiet hlink (by simp) rfl _
  | answer n message =>
    simp only [step, Option.ite_none_right_eq_some] at h
    obtain ⟨link, hlink, rfl⟩ := Option.map_eq_some_iff.1 h.2
    exact hquiet hlink (by simp) rfl _
  | control item =>
    simp only [step, Option.ite_none_right_eq_some] at h
    obtain ⟨hcontrol, h⟩ := h
    obtain ⟨link, hlink, rfl⟩ := Option.map_eq_some_iff.1 h
    exact hquiet hlink (by simp) (by cases item <;> simp_all [Item.isControl, Action.frame?]) _
  | read =>
    simp only [step] at h
    split at h
    · cases h
    · rename_i x hx
      obtain ⟨link, hlink, rfl⟩ := Option.map_eq_some_iff.1 h
      refine ⟨by rw [inbox_eq_of_step hlink (by simp), he.queued], he.received, fun m hr => ?_⟩
      rcases delivering_of_step hlink hr with hr | hm
      · simp [Link.step, hr] at hlink
      · exact ⟨e.read, rfl, Option.bind_eq_some_iff.2 ⟨x, hx, hm⟩⟩
  | deliver =>
    obtain ⟨link, hlink, rfl⟩ := Option.map_eq_some_iff.1 h
    cases Link.stepped_of_step hlink with
    | @deliver m hr =>
      obtain ⟨n, hread, hframe⟩ := he.reader m hr
      refine ⟨?_, he.received, fun m' hr' => ?_⟩
      · unfold Link.deliver
        split
        · simp [he.queued, hread, hframe]
        · simp [he.queued]
      · simp at hr'
  | recv =>
    obtain ⟨link, hlink, rfl⟩ := Option.map_eq_some_iff.1 h
    cases Link.stepped_of_step hlink with
    | @recv m inbox hinbox ho =>
      have hqueued := he.queued
      rw [hinbox] at hqueued
      obtain ⟨n, queued, hq, hn, hrest⟩ := List.map_eq_cons_iff.1 hqueued.symm
      refine ⟨?_, fun n' hn' => ?_, he.reader⟩
      · rw [hq]
        exact hrest.symm
      · rw [hq] at hn'
        rcases List.mem_append.1 hn' with hn' | hn'
        · exact he.received n' hn'
        · obtain rfl : n' = n := by simpa using hn'
          rw [hn]
          rfl

theorem channel_prefix_of_step {x : Side × Event} (h : Duplex.step d x = some d') (side : Side) :
    d.channel side <+: d'.channel side := by
  obtain ⟨e, he, rfl⟩ := Duplex.step_eq_some h
  obtain ⟨a, ha, -⟩ := Endpoint.step_effect he
  by_cases hside : side.other = x.1
  · rw [Duplex.channel, Duplex.channel, hside, Function.update_self]
    exact sink_prefix_of_step ha
  · rw [Duplex.channel, Duplex.channel, Function.update_of_ne hside]

theorem tracked_of_runs (h : Runs Duplex.step (Duplex.start now factor limits) tr d) :
    ∀ side, (d side).Tracked (d.channel side) := by
  induction h with
  | start => exact fun side => ⟨rfl, fun n hn => (by cases hn), fun m hr => by cases hr⟩
  | @step tr d d' x _ hstep ih =>
    intro side
    have hprefix := channel_prefix_of_step hstep side
    obtain ⟨e, he, rfl⟩ := Duplex.step_eq_some hstep
    by_cases hside : side = x.1
    · subst hside
      rw [Function.update_self]
      exact ((ih x.1).step he).extend hprefix
    · rw [Function.update_of_ne hside]
      exact (ih side).extend hprefix

end Dig
