import DigPeer.Answers
import DigPeer.Pool
/-!
# Capacity — who holds the permits of a request map

Every permit is in the semaphore, in an entry, in a call or with the reader, and no step makes or loses one
(`permits_of_runs`).  A call that has left the map for good has no entry there (`Placed`), so the entries nobody waits
for are those of calls whose callers dropped them.  Only an `insert` reclaims these, and an `insert` starts with a
permit: when they hold all there are, every `insert` waits (`unblocked_iff`).
-/
namespace Dig

open Correlator Lts

variable {tr : List (Link × Action)} {s s' : Correlator} {a : Action} {c : CallId} {call call' : Call} {k : UInt16}
  {r : Request} {s₀ t : Link} {now : ℕ} {factor : ℚ} {limits : OpcodeRateLimits}

/-! ## Permits -/

def Correlator.permits (s : Correlator) : ℕ :=
  s.requests.capacity + s.requests.items.size + s.calls.countP Call.holdsPermit + s.reader.holdsPermit.toNat

theorem countP_holdsPermit (calls : List Call) :
    calls.countP Call.holdsPermit = calls.countP Call.isInserting + calls.countP Call.hasReclaimed := by
  induction calls with
  | nil => rfl
  | cons call calls ih =>
    have hite : ∀ b : Bool, (if b = true then 1 else 0) = b.toNat := fun b => by cases b <;> rfl
    rw [List.countP_cons, List.countP_cons, List.countP_cons, ih, hite, hite, hite, call.holdsPermit_eq]
    omega

/-- **No step of a link makes a permit or loses one**: none of its pool does. -/
theorem permits_of_runs (h : Runs Link.step (Link.fromParts now factor limits) tr t) :
    t.toCorrelator.permits = 65535 := by
  obtain ⟨tr', hpool⟩ := pool_of_link_runs h
  have hpermits := Pool.permits_of_runs hpool
  have hcount := countP_holdsPermit t.calls
  simp only [Pool.permits, Correlator.pool] at hpermits
  unfold Correlator.permits
  omega

/-! ## Calls that have left the map -/

def Stage.Done : Stage → Prop
  | .reclaimed _ _ | .returned _ => True
  | _ => False

/-- A call's request has left the map: the reader holds it, a `cancel` has taken it, its sender is used up or dropped,
or the call has ended its wait. -/
inductive Correlator.Left (s : Correlator) (c : CallId) : Prop
  | answering {waiter : Request} {m : DigMessage} (hr : s.reader = .answering waiter m) (hw : waiter.sender = c)
  | reclaimed {c₀ : CallId} {call₀ : Call} {k : UInt16} {r : Request} {error : LinkError}
      (hc : s.calls[c₀]? = some call₀) (hp : call₀.phase = .registered k (.reclaimed (some r) error))
      (hr : r.sender = c)
  | sent {call : Call} (hc : s.calls[c]? = some call)
      (hs : call.channel.senderDropped = true ∨ call.channel.value ≠ none)
  | done {call : Call} {k : UInt16} {stage : Stage} (hc : s.calls[c]? = some call) (hp : call.phase = .registered k stage)
      (hs : stage.Done)

theorem Correlator.Effect.answering {waiter : Request} {m : DigMessage} (h : Effect s a s')
    (hr : s'.reader = .answering waiter m) :
    s.reader = .answering waiter m ∨ ∃ k, s.lookup k = some waiter ∧ s'.lookup k = none := by
  cases h with
  | outside | request | acquire | insert | send | receive | expire | cancel | withdraw | withdrawPermit | abandon =>
    exact Or.inl hr
  | @finish c call id request error hc hp => cases request <;> exact Or.inl hr
  | skip hr' hf hn => rcases hn with rfl | rfl <;> cases hr
  | pass | collide | handoff | release | deliver => cases hr
  | @answer item m' id r hr' hf hid hl hd =>
    cases hr
    refine Or.inr ⟨id, hl, ?_⟩
    simp [lookup]

theorem Correlator.Effect.lookup_of_cancel {stage : Stage} (h : Effect s (.call c .cancel) s')
    (hc : s.calls[c]? = some call) (hp : call.phase = .registered k stage) : s'.lookup k = none := by
  cases h with
  | outside ha => cases ha
  | cancel hc' hp' hs =>
    rw [hc] at hc'
    cases hc'
    rw [hp] at hp'
    cases hp'
    simp [lookup, RequestMap.cancel]

theorem sent_of_poll {o : Oneshot} {result : Except LinkError DigMessage} (h : o.poll = some result) :
    o.senderDropped = true ∨ o.value ≠ none := by
  unfold Oneshot.poll at h
  split at h <;> simp_all

/-- **A request leaves the map in a step that takes its entry**, and does not come back. -/
theorem Correlator.Effect.left (hs : s.Linked) (h : Effect s a s') (hleft : s'.Left c) :
    s.Left c ∨ ∃ call k stage, s.calls[c]? = some call ∧ call.phase = .registered k stage ∧ s'.lookup k = none := by
  have htaken : ∀ {k r}, s.lookup k = some r → s'.lookup k = none → r.sender = c →
      ∃ call k stage, s.calls[c]? = some call ∧ call.phase = .registered k stage ∧ s'.lookup k = none := by
    intro k r hl hl' hsender
    obtain ⟨call, stage, hc, hp, -⟩ := hs k r hl
    rw [hsender] at hc
    exact ⟨call, k, stage, hc, hp, hl'⟩
  cases hleft with
  | answering hr hw =>
    rcases h.answering hr with hr | ⟨k, hl, hl'⟩
    · exact Or.inl (.answering hr hw)
    · exact Or.inr (htaken hl hl' hw)
  | @reclaimed c₀ call₀ k r error hc hp hr =>
    cases h.callFrom hc with
    | new _ _ hnew => rw [hnew] at hp; cases hp
    | same hc => exact Or.inl (.reclaimed hc hp hr)
    | handed _ _ _ hc hcall | orphaned _ hc _ _ _ _ hcall => rw [hcall] at hp; exact Or.inl (.reclaimed hc hp hr)
    | own ha hc₁ ho =>
      subst ha
      cases ho with
      | cancel hp' hst =>
        have hl' := h.lookup_of_cancel hc₁ hp'
        injection hp with hk hstage
        injection hstage with hl
        exact Or.inr (htaken hl hl' hr)
      | @send id phase e o o' progress => cases progress <;> cases hp
      | _ => cases hp
  | @sent call' hc hsent =>
    cases h.callFrom hc with
    | new _ _ hnew => rw [hnew] at hsent; simp [Call.new, Oneshot.new] at hsent
    | same hc => exact Or.inl (.sent hc hsent)
    | handed _ hr hw => exact Or.inl (.answering hr hw)
    | orphaned _ _ hc₀ hp₀ hr => exact Or.inl (.reclaimed hc₀ hp₀ hr)
    | own ha hc₁ ho =>
      cases ho with
      | finish hp => exact Or.inl (.done hc₁ hp trivial)
      | _ => exact Or.inl (.sent hc₁ hsent)
  | @done call' k stage hc hp hd =>
    cases h.callFrom hc with
    | new _ _ hnew => rw [hnew] at hp; cases hp
    | same hc => exact Or.inl (.done hc hp hd)
    | handed _ _ _ hc hcall | orphaned _ hc _ _ _ _ hcall => rw [hcall] at hp; exact Or.inl (.done hc hp hd)
    | own ha hc₁ ho =>
      subst ha
      cases ho with
      | cancel hp' hst => exact Or.inr ⟨_, _, _, hc₁, hp', h.lookup_of_cancel hc₁ hp'⟩
      | receive hp' hr => exact Or.inl (.sent hc₁ (sent_of_poll hr))
      | finish hp' => exact Or.inl (.done hc₁ hp' trivial)
      | @send id phase e o o' progress => cases progress <;> cases hp <;> cases hd
      | acquire | withdraw => cases hp
      | insert | expire | abandon => cases hp; cases hd

/-- **A request that has left the map has no entry**, and its call has its id for good. -/
structure Correlator.Placed (s : Correlator) : Prop where
  registered : ∀ c, s.Left c → ∃ call k stage, s.calls[c]? = some call ∧ call.phase = .registered k stage
  noEntry    : ∀ c, s.Left c → ∀ k r, s.lookup k = some r → r.sender ≠ c

theorem Correlator.Placed.step (hs : s.Linked) (hp : s.Placed) (h : Effect s a s') : s'.Placed := by
  have hregistered : ∀ c, s'.Left c → ∃ call k stage, s.calls[c]? = some call ∧ call.phase = .registered k stage := by
    intro c hleft
    rcases h.left hs hleft with hleft | ⟨call, k, stage, hc, hphase, -⟩
    · exact hp.registered c hleft
    · exact ⟨call, k, stage, hc, hphase⟩
  constructor
  · intro c hleft
    obtain ⟨call, k, stage, hc, hphase⟩ := hregistered c hleft
    obtain ⟨call', hc', hcont⟩ := h.continues hc
    obtain ⟨stage', hp'⟩ := hcont.registered k stage hphase
    exact ⟨call', k, stage', hc', hp'⟩
  · intro c hleft k r' hl' hsender
    have hold : ∀ r, s.lookup k = some r → r.sender = c → False := by
      intro r hl hr
      rcases h.left hs hleft with hleft | ⟨call, k₁, stage, hc, hphase, hnone⟩
      · exact hp.noEntry c hleft k r hl hr
      · obtain ⟨call', stage', hc', hp', -⟩ := hs k r hl
        rw [hr, hc] at hc'
        cases hc'
        rw [hphase] at hp'
        cases hp'
        rw [hl'] at hnone
        cases hnone
    cases h.entryFrom hl' with
    | kept hl => exact hold r' hl hsender
    | recorded hf hid hl hd hr => subst hr; exact hold _ hl hsender
    | issued ha hc hinserting hi hc' hr =>
      subst hr
      obtain ⟨call₁, k₁, stage, hc₁, hp₁⟩ := hregistered c hleft
      obtain rfl : _ = c := hsender
      rw [hc] at hc₁
      cases hc₁
      rw [hinserting] at hp₁
      cases hp₁

theorem placed_of_runs (h : Runs Link.step (Link.fromParts now factor limits) tr t) : t.toCorrelator.Placed := by
  induction h with
  | start =>
    have hleft : ∀ c, ¬ (Link.fromParts now factor limits).toCorrelator.Left c := by
      rintro c (⟨hr, -⟩ | ⟨hc, -, -⟩ | ⟨hc, -⟩ | ⟨hc, -, -⟩)
      · cases hr
      all_goals cases hc
    exact ⟨fun c h => absurd h (hleft c), fun c h => absurd h (hleft c)⟩
  | step hrun hstep ih => exact ih.step (linked_of_runs hrun) (step_effect hstep)

/-! ## Entries nobody waits for -/

def Call.isOver (call : Call) : Bool :=
  match call.phase with
  | .withdrawn | .registered _ (.returned _) | .registered _ .dropped => true
  | _ => false

def Correlator.isOver (s : Correlator) (c : CallId) : Bool :=
  match s.calls[c]? with
  | some call => call.isOver
  | none      => true

def Correlator.abandoned (s : Correlator) : Finset UInt16 :=
  s.requests.items.keyset.filter fun k => (s.lookup k).any fun r => s.isOver r.sender

theorem mem_abandoned : k ∈ s.abandoned ↔ ∃ r, s.lookup k = some r ∧ s.isOver r.sender = true := by
  rw [abandoned, Finset.mem_filter, AList.mem_keyset]
  constructor
  · rintro ⟨⟨r, hl⟩, hover⟩
    rw [show s.lookup k = some r from hl] at hover
    exact ⟨r, hl, hover⟩
  · rintro ⟨r, hl, hover⟩
    exact ⟨⟨r, hl⟩, by rw [hl]; exact hover⟩

theorem isOver_of_getElem? (hc : s.calls[c]? = some call) : s.isOver c = call.isOver := by simp [isOver, hc]

theorem receiverDropped_of_runs (h : Runs Link.step (Link.fromParts now factor limits) tr t) :
    ∀ (c : CallId) (call : Call), t.calls[c]? = some call → call.isOver = true → call.channel.receiverDropped = true := by
  induction h with
  | start => intro c call hc; cases hc
  | step hrun hstep ih =>
    intro c call' hc' hover
    cases (step_effect hstep).callFrom hc' with
    | new _ _ hnew => subst hnew; cases hover
    | same hc => exact ih c call' hc hover
    | handed _ _ _ hc hcall | orphaned _ hc _ _ _ _ hcall =>
      subst hcall
      have hdropped := ih c _ hc hover
      exact hdropped
    | own ha hc ho =>
      cases ho with
      | receive | finish | withdraw | abandon => rfl
      | @send id phase e o o' progress => cases progress <;> cases hover
      | acquire | insert | expire | cancel => cases hover

def Correlator.Abandons (s : Correlator) (a : Action) : Prop :=
  ∃ c k r, a = .call c .abandon ∧ s.lookup k = some r ∧ r.sender = c

/-- **Only a dropped future adds to them.** -/
theorem Correlator.Effect.abandoned_subset (hs : s.Linked) (hp : s.Placed) (h : Effect s a s') (ha : ¬ s.Abandons a) :
    s'.abandoned ⊆ s.abandoned := by
  intro k hk
  obtain ⟨r', hl', hover⟩ := mem_abandoned.1 hk
  have hold : ∀ r, s.lookup k = some r → r.sender = r'.sender → k ∈ s.abandoned := by
    intro r hl hr
    obtain ⟨call, stage, hc, hphase, -⟩ := hs k r hl
    rw [hr] at hc
    obtain ⟨call', hc', hfate⟩ := h.callFate hc
    rw [isOver_of_getElem? hc'] at hover
    have hin : ¬ s.Left r'.sender := fun hleft => hp.noEntry _ hleft k r hl hr
    refine mem_abandoned.2 ⟨r, hl, ?_⟩
    rw [hr, isOver_of_getElem? hc]
    cases hfate with
    | stays hphase' => rw [Call.isOver, ← hphase']; exact hover
    | own ha' ho =>
      cases ho with
      | receive hp' hr' => exact absurd (.sent hc (sent_of_poll hr')) hin
      | finish hp' => exact absurd (.done hc hp' trivial) hin
      | withdraw hp' => rw [hphase] at hp'; rcases hp' with hp' | hp' <;> cases hp'
      | abandon => exact absurd ⟨_, k, r, ha', hl, hr⟩ ha
      | @send id phase e o o' progress => cases progress <;> cases hover
      | acquire | insert | expire | cancel => cases hover
  cases h.entryFrom hl' with
  | kept hl => exact hold r' hl rfl
  | recorded hf hid hl hd hr => subst hr; exact hold _ hl rfl
  | issued ha' hc hp' hi hc' hr =>
    subst hr
    rw [isOver_of_getElem? hc'] at hover
    cases hover

theorem Correlator.Effect.card_abandoned (hs : s.Linked) (h : Effect s a s') (ha : s.Abandons a) :
    s'.abandoned.card = s.abandoned.card + 1 := by
  obtain ⟨c, k, r, rfl, hl, hr⟩ := ha
  obtain ⟨call, stage, hc, hphase, -⟩ := hs k r hl
  rw [hr] at hc
  cases h with
  | outside ha => cases ha
  | withdraw hc' hp' | withdrawPermit hc' hp' =>
    rw [hc] at hc'
    cases hc'
    rw [hphase] at hp'
    cases hp'
  | @abandon c call' id stage' hc' hp' hst =>
    rw [hc] at hc'
    cases hc'
    rw [hphase] at hp'
    cases hp'
    have hnot : k ∉ s.abandoned := by
      intro hk
      obtain ⟨r', hl', hover⟩ := mem_abandoned.1 hk
      rw [hl] at hl'
      cases hl'
      rw [hr, isOver_of_getElem? hc] at hover
      cases stage <;> simp_all [Call.isOver, Stage.CanAbandon]
    have hover : ∀ c', (s.modifyCall c (Call.goTo (.registered k .dropped) ∘ Call.dropReceiver)).isOver c' =
        if c = c' then true else s.isOver c' := by
      intro c'
      by_cases hcc : c = c'
      · subst hcc
        rw [if_pos rfl, isOver_of_getElem? (getElem?_modify_eq_some.2 ⟨call, hc, rfl⟩), if_pos rfl]
        rfl
      · simp [isOver, modifyCall, hcc]
    rw [← Finset.card_insert_of_notMem hnot]
    congr 1
    ext k'
    rw [Finset.mem_insert, mem_abandoned, mem_abandoned]
    simp only [hover]
    constructor
    · rintro ⟨r', hl', hover'⟩
      by_cases hcc : c = r'.sender
      · obtain ⟨call', stage', hc', hp', -⟩ := hs k' r' hl'
        rw [← hcc, hc] at hc'
        cases hc'
        rw [hphase] at hp'
        cases hp'
        exact Or.inl rfl
      · rw [if_neg hcc] at hover'
        exact Or.inr ⟨r', hl', hover'⟩
    · rintro (rfl | ⟨r', hl', hover'⟩)
      · exact ⟨r, hl, by rw [if_pos hr.symm]⟩
      · refine ⟨r', hl', ?_⟩
        split
        · rfl
        · exact hover'

/-! ## When an insert can wait for ever -/

/-- Someone who is still there has a permit: a request whose receiver is open or whose call is not over, a call itself,
or the reader handing a request over. -/
inductive Correlator.LivePermit (s : Correlator) : Prop
  | opened {k : UInt16} {r : Request} (hl : s.lookup k = some r) (h : s.isClosed r.sender = false)
  | pending {k : UInt16} {r : Request} (hl : s.lookup k = some r) (h : s.isOver r.sender = false)
  | call {call : Call} (hc : call ∈ s.calls) (h : call.holdsPermit = true)
  | reader (h : s.reader.holdsPermit = true)

/-- **When an `insert` has to wait, someone who is still there has a permit.** -/
def Correlator.Unblocked (s : Correlator) : Prop := s.requests.capacity = 0 → s.LivePermit

theorem unblocked_iff (hpermits : s.permits = 65535) (hclosed : ∀ (c : CallId) (call : Call), s.calls[c]? = some call →
    call.isOver = true → call.channel.receiverDropped = true) : s.Unblocked ↔ s.abandoned.card < 65535 := by
  have hsubset : s.abandoned ⊆ s.requests.items.keyset := Finset.filter_subset _ _
  have hle := Finset.card_le_card hsubset
  have hsize := AList.card_keyset s.requests.items
  unfold permits at hpermits
  constructor
  · intro hu
    by_contra hfull
    have hall : s.abandoned = s.requests.items.keyset := Finset.eq_of_subset_of_card_le hsubset (by omega)
    have hover : ∀ k r, s.lookup k = some r → s.isOver r.sender = true := by
      intro k r hl
      have hk : k ∈ s.abandoned := by
        rw [hall]
        exact AList.mem_keyset.2 ⟨r, hl⟩
      obtain ⟨r', hl', h⟩ := mem_abandoned.1 hk
      rw [hl] at hl'
      cases hl'
      exact h
    have hcalls : s.calls.countP Call.holdsPermit = 0 := by omega
    have hreader : s.reader.holdsPermit.toNat = 0 := by omega
    cases hu (by omega) with
    | opened hl h =>
      have := hover _ _ hl
      obtain ⟨call, hc, hopen⟩ := isClosed_eq_false_iff.1 h
      rw [isOver_of_getElem? hc] at this
      rw [hclosed _ call hc this] at hopen
      cases hopen
    | pending hl h =>
      rw [hover _ _ hl] at h
      cases h
    | call hc h => exact absurd h (List.countP_eq_zero.1 hcalls _ hc)
    | reader h =>
      rw [h] at hreader
      cases hreader
  · intro hlt hzero
    by_cases hfull : s.requests.items.size = 65535
    · obtain ⟨k, hk, hnot⟩ := Finset.exists_mem_notMem_of_card_lt_card (show s.abandoned.card <
        s.requests.items.keyset.card by omega)
      obtain ⟨r, hl⟩ := AList.mem_keyset.1 hk
      refine .pending hl ?_
      by_contra hover
      exact hnot (mem_abandoned.2 ⟨r, hl, by simpa using hover⟩)
    · by_cases hreader : s.reader.holdsPermit = true
      · exact .reader hreader
      · have hpos : 0 < s.calls.countP Call.holdsPermit := by
          rw [Bool.not_eq_true] at hreader
          rw [hreader, Bool.toNat_false] at hpermits
          omega
        obtain ⟨call, hc, hholds⟩ := List.countP_pos_iff.1 hpos
        exact .call hc hholds

/-- The step leaves one of the permits with someone who is still there. -/
def SparesOne (x : Link × Action) : Prop :=
  x.1.toCorrelator.Abandons x.2 → x.1.toCorrelator.abandoned.card + 1 < 65535

/-- **An `insert` always waits for someone exactly in the runs in which no step drops the last of 65,535 callers**, with
the entries of all others still in the map. -/
theorem unblocked_iff_of_runs (h : Runs Link.step (Link.fromParts now factor limits) tr t) :
    (∀ x ∈ tr, x.1.toCorrelator.Unblocked) ∧ t.toCorrelator.Unblocked ↔ ∀ x ∈ tr, SparesOne x := by
  induction h with
  | start => simp [Unblocked, Link.fromParts, RequestMap.new]
  | @step tr s s' a hrun hstep ih =>
    have hs := linked_of_runs hrun
    have he := step_effect hstep
    have hlt := unblocked_iff (permits_of_runs hrun) (receiverDropped_of_runs hrun)
    have hlt' := unblocked_iff (permits_of_runs (hrun.step hstep)) (receiverDropped_of_runs (hrun.step hstep))
    have hlast : s.toCorrelator.Unblocked → (s'.toCorrelator.Unblocked ↔ SparesOne (s, a)) := by
      intro hu
      rw [hlt']
      by_cases ha : s.toCorrelator.Abandons a
      · simp [SparesOne, ha, he.card_abandoned hs ha]
      · have hle := Finset.card_le_card (he.abandoned_subset hs (placed_of_runs hrun) ha)
        have := hlt.1 hu
        simp only [SparesOne, ha, false_implies, iff_true]
        omega
    simp only [List.mem_append, List.mem_singleton, or_imp, forall_and, forall_eq, ← ih]
    constructor
    · rintro ⟨⟨hbefore, hu⟩, hu'⟩
      exact ⟨⟨hbefore, hu⟩, (hlast hu).1 hu'⟩
    · rintro ⟨⟨hbefore, hu⟩, hspares⟩
      exact ⟨⟨hbefore, hu⟩, (hlast hu).2 hspares⟩

def dropThenInsert : List Action :=
  [.request 220 [] [221], .call 0 .acquire, .call 0 .insert, .call 0 .abandon, .request 220 [] [221], .call 1 .acquire,
    .call 1 .insert]

theorem unblocked_dropThenInsert : ∃ tr s, Runs Link.step (Link.fromParts 0 1 defaultOnly) tr s ∧
    (∀ x ∈ tr, x.1.toCorrelator.Unblocked) ∧ s.toCorrelator.Unblocked := by
  have hsome : (run Link.step (Link.fromParts 0 1 defaultOnly) dropThenInsert).isSome = true := by decide +kernel
  have hspares : ∀ x ∈ trace Link.step (Link.fromParts 0 1 defaultOnly) dropThenInsert,
      x.1.toCorrelator.abandoned.card + 1 < 65535 := by decide +kernel
  exact ⟨_, _, runs_reach hsome, (unblocked_iff_of_runs (runs_reach hsome)).2 fun x hx _ => hspares x hx⟩

/-! ## Every permit abandoned -/

def heldCall (i : ℕ) : Call := ⟨220, [], [221], .new, .registered (UInt16.ofNat i) (.sending .admitting)⟩

structure Filled (n : ℕ) (t : Link) : Prop where
  length   : t.calls.length = n
  calls    : ∀ i < n, t.calls[i]? = some (heldCall i)
  entries  : ∀ k r, t.lookup k = some r → k.toNat < n ∧ r.sender < n
  capacity : t.requests.capacity + n = 65535
  nextId   : t.requests.nextId = UInt16.ofNat n
  reader   : t.reader = .idle

theorem toNat_ofNat_of_le {n : ℕ} (h : n ≤ 65535) : (UInt16.ofNat n).toNat = n :=
  UInt16.toNat_ofNat_of_lt' (Nat.lt_succ_of_le h)

theorem exists_filled : ∀ n ≤ 65535, ∃ tr t, Runs Link.step (Link.fromParts 0 1 defaultOnly) tr t ∧ Filled n t
  | 0, _ => ⟨[], _, .start, rfl, fun i hi => (by omega), fun k r hl => (by cases hl), rfl, rfl, rfl⟩
  | n + 1, hn => by
    obtain ⟨tr, t, hrun, ht⟩ := exists_filled n (by omega)
    have hlength := ht.length
    have hcapacity := ht.capacity
    have htoNat : t.requests.nextId.toNat = n := by rw [ht.nextId, toNat_ofNat_of_le (by omega)]
    have hfree : t.requests.nextId ∉ t.requests.items := by
      intro hmem
      obtain ⟨r, hl⟩ := Option.isSome_iff_exists.1 (AList.lookup_isSome.2 hmem)
      have hlt := (ht.entries _ r hl).1
      omega
    have hinsert := Link.run_insertNew (s := t) 220 [] [221] (by omega)
      (RequestMap.insert_of_open (fun k r hl => by
        rw [Link.isClosed_concat (ht.calls r.sender (ht.entries k r hl).2)]
        rfl) hfree)
    refine ⟨_, _, hrun.trans (runs_of_run _ _ hinsert), ?_, ?_, ?_, ?_, ?_, ht.reader⟩
    · simp [hlength]
    · intro i hi
      by_cases hlast : i = n
      · subst hlast
        rw [← hlength, List.getElem?_concat_length, ht.nextId, hlength]
        rfl
      · rw [List.getElem?_append_left (by omega)]
        exact ht.calls i (by omega)
    · intro k r hl
      simp only [lookup, AList.lookup_insert_eq] at hl
      by_cases hk : t.requests.nextId = k
      · rw [if_pos hk] at hl
        cases hl
        rw [← hk, htoNat, hlength]
        exact ⟨Nat.lt_succ_self n, Nat.lt_succ_self n⟩
      · rw [if_neg hk] at hl
        have hold := ht.entries k r hl
        exact ⟨Nat.lt_succ_of_lt hold.1, Nat.lt_succ_of_lt hold.2⟩
    · show t.requests.capacity - 1 + (n + 1) = 65535
      omega
    · show t.requests.nextId + 1 = UInt16.ofNat (n + 1)
      rw [ht.nextId, UInt16.ofNat_add]
      rfl

structure Emptied (s : Link) (m : ℕ) (t : Link) : Prop where
  length   : t.calls.length = s.calls.length
  requests : t.requests = s.requests
  reader   : t.reader = s.reader
  dropped  : ∀ i < m, t.calls[i]? = some (droppedCall (UInt16.ofNat i))
  held     : ∀ i, m ≤ i → t.calls[i]? = s.calls[i]?

theorem exists_emptied {s : Link} (hcalls : ∀ i < s.calls.length, s.calls[i]? = some (heldCall i)) : ∀ m ≤ s.calls.length,
    ∃ tr t, Runs Link.step s tr t ∧ Emptied s m t
  | 0, _ => ⟨[], s, .start, rfl, rfl, rfl, fun i hi => (by omega), fun i _ => rfl⟩
  | m + 1, hm => by
    obtain ⟨tr, t, hrun, ht⟩ := exists_emptied hcalls m (by omega)
    have hcall : t.calls[m]? = some (heldCall m) := by rw [ht.held m le_rfl, hcalls m (by omega)]
    have hstep := Link.step_abandon hcall rfl trivial
    refine ⟨_, _, hrun.step hstep, ?_, ht.requests, ht.reader, ?_, ?_⟩
    · simp [modifyCall, ht.length]
    · intro i hi
      by_cases hlast : m = i
      · subst hlast
        simp [modifyCall, hcall]
        rfl
      · simp [modifyCall, hlast, ht.dropped i (by omega)]
    · intro i hi
      rw [← ht.held i (by omega)]
      simp [modifyCall, show m ≠ i by omega]

/-- **65,535 calls are inserted and then dropped: their entries hold every permit, and no `insert` reclaims one.** -/
theorem not_unblocked : ¬ ∀ (now : ℕ) (factor : ℚ) (limits : OpcodeRateLimits) (tr : List (Link × Action)) (t : Link),
    Runs Link.step (Link.fromParts now factor limits) tr t → t.toCorrelator.Unblocked := by
  intro h
  obtain ⟨tr, s, hrun, hs⟩ := exists_filled 65535 le_rfl
  have hlength := hs.length
  obtain ⟨tr', t, hrun', ht⟩ := exists_emptied (fun i hi => hs.calls i (by omega)) 65535 (by omega)
  have hcapacity : t.requests.capacity = 0 := by
    rw [ht.requests]
    have := hs.capacity
    omega
  have hsender : ∀ k r, t.lookup k = some r → t.calls[r.sender]? = some (droppedCall (UInt16.ofNat r.sender)) := by
    intro k r hl
    rw [lookup, ht.requests] at hl
    exact ht.dropped _ (hs.entries k r hl).2
  cases h _ _ _ _ t (hrun.trans hrun') hcapacity with
  | opened hl hopen => simp [isClosed, hsender _ _ hl, droppedCall] at hopen
  | pending hl hpending => simp [isOver, hsender _ _ hl, droppedCall, Call.isOver] at hpending
  | call hc hholds =>
    obtain ⟨i, hi⟩ := List.mem_iff_getElem?.1 hc
    have hlt := (List.getElem?_eq_some_iff.1 hi).1
    rw [ht.length, hlength] at hlt
    rw [ht.dropped i hlt] at hi
    cases hi
    cases hholds
  | reader hreader =>
    rw [ht.reader, hs.reader] at hreader
    cases hreader

end Dig
