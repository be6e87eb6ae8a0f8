import DigPeer.Duplex
import DigPeer.Ids
import Mathlib.Tactic.NormNum
/-!
# Agreement — the answer is the one sent to that very request

A frame that a side takes as an answer was written by the peer, and not by one of the peer's calls, whose opcodes no
call of this side waits for.  So it is a message of the peer's application that has an id.  If that application puts ids
on nothing but answers, it is the answer to a request delivered to it; and the id names one call, since none is given
out twice.
-/
namespace Dig

open Correlator Lts

variable {tr : List (Duplex × Side × Event)} {d d' : Duplex} {e e' : Endpoint} {x : Side × Event} {side : Side}
  {s s' : Link} {a : Action} {m : DigMessage} {c : CallId} {p : ℕ} {purpose : Purpose} {table : OpcodeRateLimits}
  {now : Side → ℕ} {factor : Side → ℚ} {limits : Side → OpcodeRateLimits}

/-! ## What the frames decode to -/

/-- No entry of the table lets through a payload whose length the header cannot hold. -/
def OpcodeRateLimits.FitsHeader (table : OpcodeRateLimits) : Prop := ∀ opcode, (table.limit opcode).maxSize < 2 ^ 32 - 1

theorem OpcodeRateLimits.FitsHeader.length_lt (h : table.FitsHeader) (hm : m.size ≤ (table.limit m.msgType).maxSize) :
    m.data.length < 2 ^ 32 := by
  have hlt : m.size < (2 ^ 32 - 1 : ℕ) := by
    refine lt_of_le_of_lt hm ?_
    have := h m.msgType
    norm_num at this ⊢
    exact this
  rw [DigMessage.size, Nat.cast_lt] at hlt
  omega

/-- **A frame is read as its writer's message**, or not at all where that is over the cap. -/
theorem decoded_of_written {y : Written} (hs : s.Sent table) (hfits : table.FitsHeader) (hy : y ∈ s.outlet.sink)
    (hm : s.message? y.writer = some m) :
    y.decoded = if m.data.length ≤ DigMessage.maxMessageSize then some m else none := by
  obtain ⟨m', hm', hframe, hsize⟩ := hs.written y hy
  rw [hm] at hm'
  cases hm'
  have hlength := hfits.length_lt hsize
  simp only [Written.decoded, Action.frame?, hframe, DigMessage.fromBytesOwned_eq]
  split
  · rename_i hmax
    rw [(parse_toBytes_iff m).2 hmax]
  · rename_i hmax
    have hnone := parse_toBytes_of_gt (by omega) hlength []
    rw [List.append_nil] at hnone
    rw [hnone]

theorem message?_of_decoded {y : Written} (hs : s.Sent table) (hfits : table.FitsHeader) (hy : y ∈ s.outlet.sink)
    (hm : y.decoded = some m) : s.message? y.writer = some m := by
  obtain ⟨m', hmessage, -⟩ := hs.written y hy
  rw [decoded_of_written hs hfits hy hmessage] at hm
  split at hm
  · rw [hmessage, hm]
  · cases hm

/-! ## What stays -/

structure Duplex.Before (d d' : Duplex) : Prop where
  calls    : ∀ (side : Side) (c : CallId) (call : Call), (d side).link.calls[c]? = some call →
    ∃ call', (d' side).link.calls[c]? = some call' ∧ Continues call call'
  messages : ∀ (side : Side) (w : Writer) (m : DigMessage), (d side).link.message? w = some m →
    (d' side).link.message? w = some m
  channels : ∀ side, d.channel side <+: d'.channel side
  purposes : ∀ side, (d side).purposes <+: (d' side).purposes
  received : ∀ side, (d side).received ⊆ (d' side).received

theorem Duplex.before_of_step (h : Duplex.step d x = some d') : d.Before d' := by
  have hchannels := channel_prefix_of_step h
  obtain ⟨e, he, rfl⟩ := Duplex.step_eq_some h
  obtain ⟨a, ha, heffect⟩ := Endpoint.step_effect he
  refine ⟨?_, ?_, hchannels, ?_, ?_⟩
  · exact (Function.forall_update_iff d fun side e => ∀ (c : CallId) (call : Call), (d side).link.calls[c]? = some call →
      ∃ call', e.link.calls[c]? = some call' ∧ Continues call call').2
      ⟨fun c call hc => (step_effect ha).continues hc, fun side _ c call hc => ⟨call, hc, .refl call⟩⟩
  · exact (Function.forall_update_iff d fun side e => ∀ (w : Writer) (m : DigMessage), (d side).link.message? w = some m →
      e.link.message? w = some m).2 ⟨fun w m hm => message?_of_step ha hm, fun side _ w m hm => hm⟩
  · refine (Function.forall_update_iff d fun side e => (d side).purposes <+: e.purposes).2
      ⟨?_, fun side _ => List.prefix_rfl⟩
    cases heffect with
    | posts _ hpurposes => rw [hpurposes]; exact List.prefix_append _ _
    | moves _ hpurposes => rw [hpurposes]
  · refine (Function.forall_update_iff d fun side e => (d side).received ⊆ e.received).2
      ⟨?_, fun side _ => List.Subset.refl _⟩
    cases heffect with
    | posts _ _ hreceived => rw [hreceived]; exact List.Subset.refl _
    | moves _ _ hreceived => exact hreceived

theorem getElem?_extend {α : Type} {l l' : List α} {i : ℕ} {y : α} (h : l <+: l') (hi : l[i]? = some y) :
    l'[i]? = some y := by
  obtain ⟨r, rfl⟩ := h
  exact (List.getElem?_append_left (List.getElem?_eq_some_iff.1 hi).1).trans hi

theorem Duplex.Before.hasId {k : UInt16} (h : d.Before d') (hk : (d side).link.HasId c k) :
    (d' side).link.HasId c k := by
  obtain ⟨call, stage, hc, hp⟩ := hk
  obtain ⟨call', hc', hcont⟩ := h.calls side c call hc
  obtain ⟨stage', hp'⟩ := hcont.registered k stage hp
  exact ⟨call', stage', hc', hp'⟩

/-! ## What the application's messages are for -/

def Duplex.Serves (d : Duplex) (side : Side) (m : DigMessage) : Purpose → Prop
  | .own       => True
  | .answers n => n ∈ (d side).received ∧ ∃ x c k, (d.channel side)[n]? = some x ∧ x.writer = .call c ∧
    (d side.other).link.HasId c k ∧ m.id = some k

theorem Duplex.Before.serves (h : d.Before d') : ∀ {purpose : Purpose}, d.Serves side m purpose → d'.Serves side m purpose
  | .own, hm => hm
  | .answers _, ⟨hn, y, c, k, hy, hw, hk, hid⟩ =>
    ⟨h.received side hn, y, c, k, getElem?_extend (h.channels side) hy, hw, h.hasId hk, hid⟩

/-- Every message of the application's serves its purpose, and no request is answered twice. -/
structure Duplex.Posted (d : Duplex) (side : Side) : Prop where
  length  : (d side).purposes.length = (d side).link.posts.length
  purpose : ∀ (p : ℕ) (m : DigMessage) (purpose : Purpose), (d side).link.message? (.post p) = some m →
    (d side).purposes[p]? = some purpose → d.Serves side m purpose
  once    : ∀ (p p' n : ℕ), (d side).purposes[p]? = some (.answers n) → (d side).purposes[p']? = some (.answers n) → p = p'

theorem length_posts_of_step (h : s.step a = some s') (ha : ∀ m, a ≠ .post m) : s'.posts.length = s.posts.length := by
  cases Link.stepped_of_step h with
  | post m => exact absurd rfl (ha m)
  | postSend | postAbandon => exact List.length_set
  | deliver => rw [Link.deliver_posts]
  | request | callSend | callStep | close | inbound | handoff | release | recv | closeApp => rfl

theorem message?_post_of_lt (h : s.step a = some s') (hp : p < s.posts.length) (hm : s'.message? (.post p) = some m) :
    s.message? (.post p) = some m := by
  have hold : s.message? (.post p) = some s.posts[p].message := by simp [Link.message?, hp]
  have hnew := message?_of_step h hold
  rw [hm] at hnew
  cases hnew
  exact hold

theorem exists_call_of_message? (hm : s.message? (.call c) = some m) :
    ∃ call k, s.calls[c]? = some call ∧ s.HasId c k ∧ call.message k = m := by
  obtain ⟨call, hc, hm⟩ := Option.bind_eq_some_iff.1 hm
  obtain ⟨k, stage, hp, hmessage⟩ := Call.message?_eq_some_iff.1 hm
  exact ⟨call, k, hc, ⟨call, stage, hc, hp⟩, hmessage⟩

theorem exists_call_of_request {n : ℕ} {id : Option UInt16} (hs : s.Sent table) (hfits : table.FitsHeader)
    (h : ((s.outlet.sink[n]?).bind Written.request?).map DigMessage.id = some id) :
    ∃ y c k, s.outlet.sink[n]? = some y ∧ y.writer = .call c ∧ s.HasId c k ∧ id = some k := by
  obtain ⟨req, hreq, rfl⟩ := Option.map_eq_some_iff.1 h
  obtain ⟨y, hy, hreq⟩ := Option.bind_eq_some_iff.1 hreq
  unfold Written.request? at hreq
  split at hreq
  · rename_i c hw
    have hm := message?_of_decoded hs hfits (List.mem_of_getElem? hy) hreq
    rw [hw] at hm
    obtain ⟨call, k, -, hk, rfl⟩ := exists_call_of_message? hm
    exact ⟨y, c, k, hy, hw, hk, rfl⟩
  · cases hreq

theorem Duplex.Posted.step (hd : d.Posted x.1) (hsent : (d x.1.other).link.Sent table) (hfits : table.FitsHeader)
    (h : Duplex.step d x = some d') : d'.Posted x.1 := by
  have hbefore := Duplex.before_of_step h
  obtain ⟨e, he, rfl⟩ := Duplex.step_eq_some h
  obtain ⟨a, ha, heffect⟩ := Endpoint.step_effect he
  cases heffect with
  | moves hne hpurposes hreceived hf =>
    have hlength := length_posts_of_step ha hne
    refine ⟨?_, fun p m purpose hm hp => ?_, fun p p' n hp hp' => ?_⟩
    · rw [Function.update_self, hpurposes, hlength, hd.length]
    · rw [Function.update_self] at hm hp
      rw [hpurposes] at hp
      have hlt := (List.getElem?_eq_some_iff.1 hp).1
      rw [hd.length] at hlt
      exact hbefore.serves (hd.purpose p m purpose (message?_post_of_lt ha hlt hm) hp)
    · rw [Function.update_self, hpurposes] at hp hp'
      exact hd.once p p' n hp hp'
  | @posts purpose m hpost hpurposes hreceived hpurpose =>
    subst hpost
    have hposts : e.link.posts = (d x.1).link.posts ++ [⟨m, .sending .admitting⟩] := by
      simp only [Link.step, Option.some.injEq] at ha
      rw [← ha]
    refine ⟨?_, fun p m' purpose' hm hp => ?_, fun p p' n hp hp' => ?_⟩
    · rw [Function.update_self, hpurposes, hposts, List.length_append, List.length_append, hd.length]
      rfl
    · rw [Function.update_self] at hm hp
      rw [hpurposes] at hp
      rcases getElem?_concat_eq_some.1 hp with hp | ⟨rfl, rfl⟩
      · have hlt := (List.getElem?_eq_some_iff.1 hp).1
        rw [hd.length] at hlt
        exact hbefore.serves (hd.purpose p m' purpose' (message?_post_of_lt ha hlt hm) hp)
      · have hmessage : m = m' := by simpa [Link.message?, hposts, hd.length] using hm
        subst hmessage
        apply hbefore.serves
        rcases hpurpose with rfl | ⟨n, rfl, hn, -, hid⟩
        · trivial
        · exact ⟨hn, exists_call_of_request hsent hfits hid⟩
    · rw [Function.update_self, hpurposes] at hp hp'
      have hnew : ∀ {q : ℕ}, (d x.1).purposes[q]? = some (.answers n) → purpose ≠ .answers n := by
        rintro q hq rfl
        rcases hpurpose with hown | ⟨n', hpurpose, -, hnot, -⟩
        · cases hown
        · cases hpurpose
          exact hnot (List.mem_of_getElem? hq)
      rcases getElem?_concat_eq_some.1 hp with hp | ⟨hlast, hpurpose⟩ <;>
        rcases getElem?_concat_eq_some.1 hp' with hp' | ⟨hlast', hpurpose'⟩
      · exact hd.once p p' n hp hp'
      · exact absurd hpurpose' (hnew hp)
      · exact absurd hpurpose (hnew hp')
      · rw [hlast, hlast']

theorem posted_of_runs (h : Runs Duplex.step (Duplex.start now factor limits) tr d)
    (hfits : ∀ side, (limits side).FitsHeader) : ∀ side, d.Posted side := by
  induction h with
  | start => exact fun side => ⟨rfl, fun p m purpose hm => (by cases hm), fun p p' n hp => by cases hp⟩
  | @step tr d d' x hrun hstep ih =>
    intro side
    by_cases hside : side = x.1
    · subst hside
      obtain ⟨tr', hlink⟩ := link_runs hrun x.1.other
      exact (ih x.1).step (sent_of_runs hlink) (hfits x.1.other) hstep
    · have hbefore := Duplex.before_of_step hstep
      obtain ⟨e, -, rfl⟩ := Duplex.step_eq_some hstep
      have hsame : Function.update d x.1 e side = d side := Function.update_of_ne hside _ _
      refine ⟨?_, fun p m purpose hm hp => ?_, fun p p' n hp hp' => ?_⟩
      · rw [hsame, (ih side).length]
      · rw [hsame] at hm hp
        exact hbefore.serves ((ih side).purpose p m purpose hm hp)
      · rw [hsame] at hp hp'
        exact (ih side).once p p' n hp hp'

/-! ## What is taken as an answer -/

def Duplex.AnswersCall (d : Duplex) (side : Side) (c : CallId) (p : ℕ) : Prop :=
  ∃ n x, (d side.other).purposes[p]? = some (.answers n) ∧ n ∈ (d side.other).received ∧
    (d side).link.outlet.sink[n]? = some x ∧ x.writer = .call c

theorem Duplex.Before.answersCall (h : d.Before d') (ha : d.AnswersCall side c p) : d'.AnswersCall side c p := by
  obtain ⟨n, y, hp, hn, hy, hw⟩ := ha
  have hsink := h.channels side.other
  simp only [Duplex.channel, Side.other_other] at hsink
  exact ⟨n, y, getElem?_extend (h.purposes side.other) hp, h.received side.other hn, getElem?_extend hsink hy, hw⟩

theorem Duplex.AnswersCall.unique {p' : ℕ} (hs : (d side).link.Sent table) (hp : d.Posted side.other)
    (h : d.AnswersCall side c p) (h' : d.AnswersCall side c p') : p = p' := by
  obtain ⟨n, y, hpn, -, hy, hw⟩ := h
  obtain ⟨n', y', hpn', -, hy', hw'⟩ := h'
  have hn : n = n' := by
    apply (List.getElem?_inj (by simpa using (List.getElem?_eq_some_iff.1 hy).1) hs.once).1
    simp [List.getElem?_map, hy, hy', hw, hw']
  subst hn
  exact hp.once p p' n hpn hpn'

/-- The requests of one side have opcodes that no call of the other waits for. -/
def Duplex.OpcodesApart (d : Duplex) : Prop :=
  ∀ (side : Side) (c c' : CallId) (call call' : Call), (d side).link.calls[c]? = some call →
    (d side.other).link.calls[c']? = some call' → call.opcode ∉ call'.expected

/-- Fewer than 65,536 requests in all on each link. -/
def Duplex.Few (d : Duplex) : Prop := ∀ side, (d side).link.calls.length < 65536

/-- The applications put ids on nothing but their answers. -/
def Duplex.Disciplined (d : Duplex) : Prop :=
  ∀ (side : Side) (p : ℕ) (m : DigMessage), (d side).purposes[p]? = some .own →
    (d side).link.message? (.post p) = some m → m.id = none

theorem Duplex.disciplined_of_not_own (h : ∀ side, Purpose.own ∉ (d side).purposes) : d.Disciplined :=
  fun side _ _ hp => absurd (List.mem_of_getElem? hp) (h side)

theorem Duplex.Before.disciplined (h : d.Before d') (hd : d'.Disciplined) : d.Disciplined :=
  fun side p m hp hm => hd side p m (getElem?_extend (h.purposes side) hp) (h.messages side (.post p) m hm)

theorem Duplex.Before.opcodesApart (h : d.Before d') (hd : d'.OpcodesApart) : d.OpcodesApart := by
  intro side c c' call call' hc hc'
  obtain ⟨call₁, hc₁, hcont₁⟩ := h.calls side c call hc
  obtain ⟨call₂, hc₂, hcont₂⟩ := h.calls side.other c' call' hc'
  rw [← hcont₁.opcode, ← hcont₂.expected]
  exact hd side c c' call₁ call₂ hc₁ hc₂

theorem Duplex.Before.few (h : d.Before d') (hd : d'.Few) : d.Few := by
  intro side
  by_contra hlt
  obtain ⟨call', hc', -⟩ := h.calls side _ _ (List.getElem?_eq_getElem (show 65535 < (d side).link.calls.length by omega))
  have := (List.getElem?_eq_some_iff.1 hc').1
  have hfew := hd side
  omega

def Duplex.Answered (d : Duplex) (side : Side) : Prop :=
  ∀ c m, HasAnswer (d side).link.toCorrelator c m →
    ∃ p, (d side.other).link.message? (.post p) = some m ∧ d.AnswersCall side c p

theorem Duplex.Answered.of_before (h : d.Answered side) (hbefore : d.Before d') (hsame : d' side = d side) :
    d'.Answered side := by
  intro c m hm
  rw [hsame] at hm
  obtain ⟨p, hp, hanswers⟩ := h c m hm
  exact ⟨p, hbefore.messages side.other (.post p) m hp, hbefore.answersCall hanswers⟩

/-- **A frame that a side takes for a call is the other application's answer to that call.** -/
theorem answersCall_of_taken {y : Written} {k : UInt16} {r : Request} (hlinked : (d side).link.toCorrelator.Linked)
    (hfresh : (d side).link.toCorrelator.Fresh) (hsent : (d side.other).link.Sent table) (hfits : table.FitsHeader)
    (hposted : d.Posted side.other) (hapart : d.OpcodesApart) (hdisciplined : d.Disciplined) (hy : y ∈ d.channel side)
    (hm : y.decoded = some m) (hid : m.id = some k) (hl : (d side).link.lookup k = some r)
    (hdeclared : m.msgType ∈ r.expected) :
    ∃ p, (d side.other).link.message? (.post p) = some m ∧ d.AnswersCall side r.sender p := by
  have hmessage := message?_of_decoded hsent hfits hy hm
  obtain ⟨call, stage, hc, hp, hexpected⟩ := hlinked k r hl
  cases hw : y.writer with
  | call c' =>
    rw [hw] at hmessage
    obtain ⟨call', k', hc', -, rfl⟩ := exists_call_of_message? hmessage
    have hnot := hapart side.other c' r.sender call' call hc' (by rwa [Side.other_other])
    rw [hexpected] at hnot
    exact absurd hdeclared hnot
  | post p =>
    rw [hw] at hmessage
    have hlt : p < (d side.other).purposes.length := by
      rw [hposted.length]
      obtain ⟨post, hpost, -⟩ := Option.map_eq_some_iff.1 hmessage
      exact (List.getElem?_eq_some_iff.1 hpost).1
    have hserves := hposted.purpose p m _ hmessage (List.getElem?_eq_getElem hlt)
    cases hpurpose : (d side.other).purposes[p] with
    | own =>
      rw [hdisciplined side.other p m (by rw [List.getElem?_eq_getElem hlt, hpurpose]) hmessage] at hid
      cases hid
    | answers n =>
      rw [hpurpose] at hserves
      obtain ⟨hn, z, c', k', hz, hwriter, hk', hid'⟩ := hserves
      simp only [Duplex.channel, Side.other_other] at hz hk'
      rw [hid] at hid'
      cases hid'
      obtain rfl := hfresh.unique _ _ k hk' ⟨call, stage, hc, hp⟩
      exact ⟨p, hmessage, n, z, by rw [List.getElem?_eq_getElem hlt, hpurpose], hn, hz, hwriter⟩

theorem answered_of_duplex_runs (h : Runs Duplex.step (Duplex.start now factor limits) tr d)
    (hfits : ∀ side, (limits side).FitsHeader) (hfew : d.Few) (hapart : d.OpcodesApart) (hdisciplined : d.Disciplined) :
    ∀ side, d.Answered side := by
  induction h with
  | start =>
    rintro side c m (⟨waiter, hr, -⟩ | ⟨call, hc, -⟩)
    · cases hr
    · cases hc
  | @step tr d d' x hrun hstep ih =>
    have hbefore := Duplex.before_of_step hstep
    have hfew₀ := hbefore.few hfew
    have hapart₀ := hbefore.opcodesApart hapart
    have hdisciplined₀ := hbefore.disciplined hdisciplined
    intro side
    have hside := ih hfew₀ hapart₀ hdisciplined₀ side
    obtain ⟨e, he, rfl⟩ := Duplex.step_eq_some hstep
    by_cases hx : side = x.1
    · subst hx
      obtain ⟨a, ha, heffect⟩ := Endpoint.step_effect he
      intro c m hm
      rw [Function.update_self] at hm
      rcases (step_effect ha).hasAnswer hm with hm | ⟨k, r, hf, hid, hl, rfl, hd⟩
      · obtain ⟨p, hp, hanswers⟩ := hside c m hm
        exact ⟨p, hbefore.messages x.1.other (.post p) m hp, hbefore.answersCall hanswers⟩
      · have hread : ∃ y ∈ d.channel x.1, y.decoded = some m := by
          cases heffect with
          | posts hpost => rw [hpost] at hf; cases hf
          | moves _ _ _ hframe => exact hframe m hf
        obtain ⟨y, hy, hm⟩ := hread
        obtain ⟨_, hlink⟩ := link_runs hrun x.1
        obtain ⟨_, hlink'⟩ := link_runs hrun x.1.other
        obtain ⟨p, hp, hanswers⟩ := answersCall_of_taken (linked_of_runs hlink) (fresh_of_runs hlink (hfew₀ x.1))
          (sent_of_runs hlink') (hfits x.1.other) (posted_of_runs hrun hfits x.1.other) hapart₀ hdisciplined₀ hy hm
          hid hl hd
        exact ⟨p, hbefore.messages x.1.other (.post p) m hp, hbefore.answersCall hanswers⟩
    · exact hside.of_before hbefore (Function.update_of_ne hx _ _)

/-- **A request that returns `m` returns what the other application sent in answer to that very request**, and that
application sent nothing else in answer to it, where the applications put ids on answers alone. -/
theorem agreed_of_runs (h : Runs Duplex.step (Duplex.start now factor limits) tr d)
    (hfits : ∀ side, (limits side).FitsHeader) (hfew : d.Few) (hapart : d.OpcodesApart) (hdisciplined : d.Disciplined)
    (side : Side) (c : CallId) (k : UInt16) (expected : List UInt8) (m : DigMessage)
    (hreturned : (d side).link.Returned c k expected (.ok m)) :
    ∃ p post, (d side.other).link.posts[p]? = some post ∧ post.message = m ∧ d.AnswersCall side c p ∧
      ∀ p', d.AnswersCall side c p' → p' = p := by
  obtain ⟨call, hc, -, hp⟩ := hreturned
  obtain ⟨p, hmessage, hanswers⟩ := answered_of_duplex_runs h hfits hfew hapart hdisciplined side c m
    (Or.inr ⟨call, hc, Or.inr ⟨k, hp⟩⟩)
  obtain ⟨post, hpost, hm⟩ := Option.map_eq_some_iff.1 hmessage
  obtain ⟨_, hlink⟩ := link_runs h side
  exact ⟨p, post, hpost, hm, hanswers, fun p' hp' =>
    Duplex.AnswersCall.unique (sent_of_runs hlink) (posted_of_runs h hfits side.other) hp' hanswers⟩

/-! ## A request each way, with one id -/

def sendSteps : List SendEvent := [.attempt 0, .lock, .feed true, .flush true]

def requestSteps (side : Side) (opcode : UInt8) (expected : List UInt8) : List (Side × Event) :=
  [(side, .act (.request opcode [] expected)), (side, .act (.call 0 .acquire)), (side, .act (.call 0 .insert))] ++
    sendSteps.map fun e => (side, .act (.call 0 (.send e)))

def answerSteps (side : Side) (message : DigMessage) : List (Side × Event) :=
  [(side, .read), (side, .deliver), (side, .recv), (side, .answer 0 message)] ++
    sendSteps.map fun e => (side, .act (.postStep 0 (.send e)))

def returnSteps (side : Side) : List (Side × Event) :=
  [(side, .read), (side, .act .handoff), (side, .act .release), (side, .act (.call 0 .receive))]

def bothWays : List (Side × Event) :=
  requestSteps .a 220 [221] ++ requestSteps .b 230 [231] ++ answerSteps .a ⟨231, some 0, [1]⟩ ++
    answerSteps .b ⟨221, some 0, [2]⟩ ++ returnSteps .a ++ returnSteps .b

def startDefault : Duplex := .start (fun _ => 0) (fun _ => 1) fun _ => defaultOnly

theorem fitsHeader_defaultOnly : defaultOnly.FitsHeader := by
  intro opcode
  show (1048576 : ℚ) < 2 ^ 32 - 1
  norm_num

theorem agreed_bothWays : ∃ tr d, Runs Duplex.step startDefault tr d ∧
    (d .a).link.Returned 0 0 [221] (.ok ⟨221, some 0, [2]⟩) ∧
    ∃ p post, (d .b).link.posts[p]? = some post ∧ post.message = ⟨221, some 0, [2]⟩ ∧ d.AnswersCall .a 0 p ∧
      ∀ p', d.AnswersCall .a 0 p' → p' = p := by
  have hsome : (run Duplex.step startDefault bothWays).isSome = true := by decide +kernel
  generalize hd : reach Duplex.step startDefault bothWays = d
  have hrun := runs_reach hsome
  rw [hd] at hrun
  have ha : (d .a).link.calls = [⟨220, [], [221], ⟨some ⟨221, some 0, [2]⟩, true, true⟩,
      .registered 0 (.returned (.ok ⟨221, some 0, [2]⟩))⟩] := by rw [← hd]; decide +kernel
  have hb : (d .b).link.calls = [⟨230, [], [231], ⟨some ⟨231, some 0, [1]⟩, true, true⟩,
      .registered 0 (.returned (.ok ⟨231, some 0, [1]⟩))⟩] := by rw [← hd]; decide +kernel
  have hreturned : (d .a).link.Returned 0 0 [221] (.ok ⟨221, some 0, [2]⟩) := ⟨_, by rw [ha]; rfl, rfl, rfl⟩
  have hdisciplined : d.Disciplined := Duplex.disciplined_of_not_own fun side => by
    rw [← hd]
    cases side <;> decide +kernel
  refine ⟨_, d, hrun, hreturned,
    agreed_of_runs hrun (fun _ => fitsHeader_defaultOnly) ?_ ?_ hdisciplined .a 0 0 [221] _ hreturned⟩
  · intro side
    cases side <;> simp [ha, hb]
  · intro side c c' call call' hc hc'
    have hmem := List.mem_of_getElem? hc
    have hmem' := List.mem_of_getElem? hc'
    cases side <;> simp_all [Side.other]

end Dig
