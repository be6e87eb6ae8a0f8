import DigPeer.Answers
import Mathlib.Tactic.IntervalCases
/-!
# Ownership — who can take an entry out of the map

An entry is its owner's in the history as well: its id was last issued to the owner (`issued_of_runs`).  `cancel` names
an entry by its id alone, so what keeps one call's `cancel` from another's entry is that the id has not been issued
again since.  As long as it has not (`OwnCancels`) an entry with a receiver leaves the map only by its own answer or its
own `cancel`, and no call loses its sender while it waits (`owned_of_runs`).  A call that is answered while its send
still waits holds no entry, though, and can keep waiting while the id space goes round: `not_owned`.
-/
namespace Dig

open Correlator Lts

variable {tr : List (Link × Action)} {s s' : Link} {a : Action} {c : CallId} {call call' : Call} {k : UInt16}
  {m : DigMessage} {r : Request} {n : ℕ} {e : LinkError} {now : ℕ} {factor : ℚ} {limits : OpcodeRateLimits}

/-! ## The last call an id was issued to -/

def issued? (x : Link × Action) : Option (UInt16 × CallId) :=
  match x.2 with
  | .call c .insert =>
    (x.1.calls[c]?).bind fun call => (x.1.requests.insert x.1.isClosed c call.expected).map fun p => (p.1, c)
  | _ => none

theorem issued?_eq_some (h : issued? (s, a) = some (k, c)) : a = .call c .insert ∧ ∃ call requests,
    s.calls[c]? = some call ∧ s.requests.insert s.isClosed c call.expected = some (k, requests) := by
  unfold issued? at h
  split at h
  · rename_i c' ha
    obtain ⟨call, hc, hins⟩ := Option.bind_eq_some_iff.1 h
    obtain ⟨⟨k', requests⟩, hins', he⟩ := Option.map_eq_some_iff.1 hins
    cases he
    exact ⟨ha, call, requests, hc, hins'⟩
  · cases h

theorem issued?_of_insert {requests : RequestMap} (hc : s.calls[c]? = some call)
    (hi : s.requests.insert s.isClosed c call.expected = some (k, requests)) :
    issued? (s, .call c .insert) = some (k, c) := by
  simp only [issued?, hc, Option.bind_some, hi, Option.map_some]

theorem lookup_of_issued (h : Effect s.toCorrelator a s'.toCorrelator) (hi : issued? (s, a) = some (k, c)) :
    ∃ expected, s'.lookup k = some ⟨c, expected, none⟩ := by
  obtain ⟨rfl, call, requests, hc, hins⟩ := issued?_eq_some hi
  revert h
  generalize s'.toCorrelator = t
  intro h
  cases h with
  | outside ha => cases ha
  | insert hc' hp' hi' =>
    rw [hc] at hc'
    cases hc'
    rw [hins] at hi'
    cases hi'
    refine ⟨call.expected, ?_⟩
    rw [lookup, (RequestMap.insert_eq_some_iff.1 hins).2]
    exact AList.lookup_insert _

/-- Every entry is the last one its id was issued for. -/
def Issued (tr : List (Link × Action)) (s : Link) : Prop :=
  ∀ k r, s.lookup k = some r → lastSeen issued? tr k = some r.sender

theorem Issued.step (hi : Issued tr s) (h : s.step a = some s') : Issued (tr ++ [(s, a)]) s' := by
  intro k r' hl'
  have he := step_effect h
  cases hnew : issued? (s, a) with
  | none =>
    rw [lastSeen_concat_of_none hnew]
    cases he.entryFrom hl' with
    | kept hl _ => exact hi k r' hl
    | recorded _ _ hl _ hr =>
      subst hr
      have hlast := hi k _ hl
      exact hlast
    | issued ha hc _ hins _ _ => subst ha; rw [issued?_of_insert hc hins] at hnew; cases hnew
  | some p =>
    obtain ⟨k', c⟩ := p
    rw [lastSeen_concat_of_some hnew]
    obtain ⟨expected, hl⟩ := lookup_of_issued he hnew
    split
    · rename_i hk
      subst hk
      rw [hl] at hl'
      cases hl'
      rfl
    · rename_i hk
      cases he.entryFrom hl' with
      | kept hl _ => exact hi k r' hl
      | recorded _ _ hl _ hr =>
        subst hr
        have hlast := hi k _ hl
        exact hlast
      | issued ha hc _ hins _ _ =>
        subst ha
        rw [issued?_of_insert hc hins] at hnew
        cases hnew
        exact absurd rfl hk

theorem issued_of_runs (h : Runs Link.step (Link.fromParts now factor limits) tr s) : Issued tr s := by
  induction h with
  | start => intro k r hl; cases hl
  | step _ hstep ih => exact ih.step hstep

/-! ## Calls that keep their sender -/

/-- The stages of a call whose errors are its own, and whose `cancel` took no one else's request. -/
def Stage.Sound (c : CallId) : Stage → Prop
  | .cancelling e        => e ≠ .recv
  | .reclaimed request e => e ≠ .recv ∧ ∀ r ∈ request, r.sender = c
  | .returned (.error e) => e ≠ .recv
  | _                    => True

def Phase.HoldsReceiver : Phase → Prop
  | .acquiring | .inserting | .registered _ (.sending _) | .registered _ (.cancelling _) | .registered _ .waiting => True
  | _ => False

structure Call.Sound (c : CallId) (call : Call) : Prop where
  channel  : call.channel.senderDropped = true → call.channel.receiverDropped = false → call.channel.value ≠ none
  receiver : call.phase.HoldsReceiver → call.channel.receiverDropped = false
  stage    : ∀ k stage, call.phase = .registered k stage → stage.Sound c

theorem sound_ofProgress {o o' : Outlet} {writer : Writer} {phase : SendPhase} {e : SendEvent} {progress : Progress}
    (h : o.send writer m phase e = some (progress, o')) : (Stage.ofProgress progress).Sound c := by
  unfold Outlet.send at h
  split at h
  · cases h
    unfold Progress.ofAdmission
    split
    · trivial
    · exact LinkError.noConfusion
    · trivial
  · cases h; trivial
  · cases h; exact LinkError.noConfusion
  · cases h; trivial
  · cases h; trivial
  · cases h; exact LinkError.noConfusion
  · cases h; trivial
  · cases h; exact LinkError.noConfusion
  · cases h

theorem expiryError_ne_recv (call : Call) (request : Option Request) : expiryError call request ≠ .recv := by
  unfold expiryError
  split <;> exact LinkError.noConfusion

theorem poll_recv {o : Oneshot} (h : o.poll = some (.error e)) : o.value = none ∧ o.senderDropped = true := by
  unfold Oneshot.poll at h
  split at h
  · cases h
  · rename_i hv hs
    exact ⟨hv, hs⟩
  · cases h

theorem Call.Sound.of_dropReceiver {phase : Phase} (hp : ¬ phase.HoldsReceiver)
    (hs : ∀ k stage, phase = .registered k stage → stage.Sound c) : (call.dropReceiver.goTo phase).Sound c :=
  ⟨fun _ h => (by cases h), fun h => absurd h hp, hs⟩

theorem Call.Sound.goTo {phase : Phase} (h : call.Sound c) (hp : call.phase.HoldsReceiver)
    (hs : ∀ k stage, phase = .registered k stage → stage.Sound c) : (call.goTo phase).Sound c :=
  ⟨h.channel, fun _ => h.receiver hp, hs⟩

theorem Call.Sound.own {s : Correlator} {e : CallEvent} (hs : call.Sound c) (h : Own s c call e call')
    (hcancel : e = .cancel → ∀ k stage, call.phase = .registered k stage → ∀ r, s.lookup k = some r → r.sender = c) :
    call'.Sound c := by
  cases h with
  | acquire hp => exact hs.goTo (by rw [hp]; trivial) fun _ _ h => by cases h
  | insert hp hi => exact hs.goTo (by rw [hp]; trivial) fun _ _ h => by cases h; trivial
  | send hp ho => exact hs.goTo (by rw [hp]; trivial) fun _ _ h => by cases h; exact sound_ofProgress ho
  | receive hp hr =>
    refine .of_dropReceiver (fun h => h) fun k stage h => ?_
    cases h
    rename_i result
    cases result with
    | ok m => trivial
    | error e =>
      obtain ⟨hv, hd⟩ := poll_recv hr
      exact absurd hv (hs.channel hd (hs.receiver (by rw [hp]; trivial)))
  | expire hp => exact .of_dropReceiver (fun h => h) fun _ _ h => by cases h; trivial
  | @cancel k₀ stage error hp hst =>
    have hsound := hs.stage k₀ stage hp
    refine ⟨hs.channel, fun h => h.elim, fun k stage' h => ?_⟩
    cases h
    refine ⟨?_, hcancel rfl k₀ stage hp⟩
    rcases hst with rfl | ⟨_, rfl⟩
    · exact hsound
    · exact expiryError_ne_recv _ _
  | finish hp =>
    refine .of_dropReceiver (fun h => h) fun k stage h => ?_
    cases h
    exact (hs.stage _ _ hp).1
  | withdraw => exact .of_dropReceiver (fun h => h) fun _ _ h => by cases h
  | abandon => exact .of_dropReceiver (fun h => h) fun _ _ h => by cases h; trivial

theorem Call.Sound.send (hs : call.Sound c) : Call.Sound c { call with channel := call.channel.send m } :=
  ⟨fun _ hd => by
    have : call.channel.receiverDropped = false := hd
    simp [Oneshot.send, this], hs.receiver, hs.stage⟩

def SoundCalls (s : Link) : Prop := ∀ (c : CallId) (call : Call), s.calls[c]? = some call → call.Sound c

theorem SoundCalls.step (hs : SoundCalls s) (h : s.step a = some s')
    (hcancel : ∀ (c : CallId) (call : Call) (k : UInt16) (stage : Stage), a = .call c .cancel →
      s.calls[c]? = some call → call.phase = .registered k stage → ∀ r, s.lookup k = some r → r.sender = c) :
    SoundCalls s' := by
  intro c call' hc'
  cases (step_effect h).callFrom hc' with
  | new ha hc hnew => subst hnew; exact ⟨fun h => (by cases h), fun _ => rfl, fun _ _ h => by cases h⟩
  | same hc => exact hs c call' hc
  | handed ha hr hw hc hcall => subst hcall; exact (hs c _ hc).send
  | orphaned ha hc hc₀ hp₀ hr hne hcall =>
    exact absurd (((hs _ _ hc₀).stage _ _ hp₀).2 _ rfl) (by rw [hr]; exact hne.symm)
  | own ha hc ho => exact (hs c _ hc).own ho fun he k stage hp => hcancel c _ k stage (by rw [ha, he]) hc hp

/-! ## When entries stay their owners' -/

/-- **No call cancels an id that has been issued again since it was issued to it.** -/
def OwnCancels (tr : List (Link × Action)) : Prop :=
  ∀ (n : ℕ) (s : Link) (c : CallId) (call : Call) (k : UInt16) (stage : Stage),
    tr[n]? = some (s, .call c .cancel) → s.calls[c]? = some call → call.phase = .registered k stage →
      lastSeen issued? (tr.take n) k = some c

theorem soundCalls_of_runs (h : Runs Link.step (Link.fromParts now factor limits) tr s) (hown : OwnCancels tr) :
    SoundCalls s := by
  induction h with
  | start => intro c call hc; cases hc
  | @step tr s s' a hrun hstep ih =>
    have hown' : OwnCancels tr := fun n s c call k stage hn hc hp => by
      have := hown n s c call k stage (getElem?_concat_eq_some.2 (Or.inl hn)) hc hp
      rwa [List.take_append_of_le_length (Nat.le_of_lt (List.getElem?_eq_some_iff.1 hn).1)] at this
    refine (ih hown').step hstep fun c call k stage ha hc hp r hl => ?_
    subst ha
    have hlast := hown tr.length s c call k stage (getElem?_concat_eq_some.2 (Or.inr ⟨rfl, rfl⟩)) hc hp
    rw [List.take_left, issued_of_runs hrun k r hl] at hlast
    exact Option.some.inj hlast

/-- **Entries stay their owners'**: an entry with a receiver goes only by a declared frame or by its owner's `cancel`,
and no call is told that its sender is gone. -/
structure Owned (tr : List (Link × Action)) (s : Link) : Prop where
  entries : ∀ (n : ℕ) (s₁ : Link) (a : Action) (s₂ : Link) (k : UInt16) (r : Request), tr[n]? = some (s₁, a) →
    s₁.step a = some s₂ → s₁.lookup k = some r → s₁.isClosed r.sender = false →
      (∃ r', s₂.lookup k = some r' ∧ r'.sender = r.sender) ∨
      (∃ m call, a.frame? = some m ∧ m.id = some k ∧ s₁.calls[r.sender]? = some call ∧ m.msgType ∈ call.expected) ∨
      a = .call r.sender .cancel
  senders : ∀ (c : CallId) (k : UInt16) (expected : List UInt8), ¬ s.Returned c k expected (.error .recv)

theorem owned_of_runs (h : Runs Link.step (Link.fromParts now factor limits) tr s) (hown : OwnCancels tr) :
    Owned tr s := by
  constructor
  · intro n s₁ a s₂ k r hn hstep hl hopen
    obtain ⟨hrun, -⟩ := h.of_getElem? hn
    cases (step_effect hstep).entryFate hl with
    | stays hl' hs => exact Or.inl ⟨_, hl', hs⟩
    | answered hf hid hd =>
      obtain ⟨call, stage, hc, -, hexpected⟩ := linked_of_runs hrun k r hl
      exact Or.inr (Or.inl ⟨_, call, hf, hid, hc, by rw [hexpected]; exact hd⟩)
    | cancelled ha hc hp =>
      subst ha
      have hlast := hown n s₁ _ _ k _ hn hc hp
      rw [issued_of_runs hrun k r hl] at hlast
      exact Or.inr (Or.inr (by rw [Option.some.inj hlast]))
    | reclaimed ha hclosed =>
      rw [hclosed] at hopen
      cases hopen
  · rintro c k expected ⟨call, hc, -, hp⟩
    exact (soundCalls_of_runs h hown c call hc).stage k _ hp rfl

/-! ## A call that cancels its own entry -/

def unanswered : List Action :=
  [.request 220 [] [221], .call 0 .acquire, .call 0 .insert, .call 0 (.send (.attempt 0)),
    .call 0 (.send .lock), .call 0 (.send (.feed true)), .call 0 (.send (.flush true)), .call 0 .expire, .call 0 .cancel,
    .call 0 .finish]

theorem owned_unanswered : ∃ tr s, Runs Link.step (Link.fromParts 0 1 defaultOnly) tr s ∧
    s.Returned 0 0 [221] (.error (.requestTimeout 220)) ∧ Owned tr s := by
  have hsome : (run Link.step (Link.fromParts 0 1 defaultOnly) unanswered).isSome = true := by decide +kernel
  refine ⟨_, _, runs_reach hsome, ⟨⟨220, [], [221], ⟨none, true, true⟩,
    .registered 0 (.returned (.error (.requestTimeout 220)))⟩, by decide +kernel, rfl, rfl⟩,
    owned_of_runs (runs_reach hsome) fun n s c call k stage hn hc hp => ?_⟩
  have hact := snd_of_getElem?_trace _ _ _ _ hn
  have hlt := (List.getElem?_eq_some_iff.1 hact).1
  obtain ⟨rfl, rfl⟩ : n = 8 ∧ c = 0 := by
    simp only [unanswered, List.length_cons, List.length_nil] at hlt
    interval_cases n <;> cases hact
    exact ⟨rfl, rfl⟩
  have hcancel := getElem?_trace _ _ 8 (run_eq_some_reach hsome) rfl
  rw [hcancel] at hn
  cases hn
  have hcall : (reach Link.step (Link.fromParts 0 1 defaultOnly) (unanswered.take 8)).calls[0]? =
      some ⟨220, [], [221], ⟨none, false, true⟩, .registered 0 .expired⟩ := by decide +kernel
  rw [hcall] at hc
  cases hc
  cases hp
  decide +kernel

/-! ## A call that finds another's entry -/

def AllClosed (s : Correlator) : Prop :=
  ∀ k r, s.lookup k = some r → ∃ call : Call, s.calls[r.sender]? = some call ∧ call.channel.receiverDropped = true

theorem AllClosed.isClosed {s : Correlator} (h : AllClosed s) (hl : s.lookup k = some r) :
    s.isClosed r.sender = true := by
  obtain ⟨call, hc, hd⟩ := h k r hl
  simp only [Correlator.isClosed, hc, hd]

theorem AllClosed.goTo {s : Correlator} {phase : Phase} {requests : RequestMap} (h : AllClosed s)
    (hitems : requests.items = s.requests.items) : AllClosed { s.modifyCall c (.goTo phase) with requests } := by
  intro k r hl
  obtain ⟨call, hc, hd⟩ := h k r (by rw [← hl, lookup, lookup, hitems])
  refine ⟨_, getElem?_modify_eq_some.2 ⟨call, hc, rfl⟩, ?_⟩
  split <;> exact hd

def insertThenDrop (c : CallId) : List Action :=
  [.request 220 [] [221], .call c .acquire, .call c .insert] ++ [.call c .abandon]

theorem run_insertThenDrop (hclosed : AllClosed s.toCorrelator) (hcapacity : 0 < s.requests.capacity) :
    run Link.step s (insertThenDrop s.calls.length) = some { s with
      calls := s.calls ++ [droppedCall s.requests.nextId],
      requests := ⟨AList.insert s.requests.nextId ⟨s.calls.length, [221], none⟩ ∅,
        s.requests.capacity - 1 + s.requests.items.size, s.requests.nextId + 1⟩ } := by
  have hinsert := Link.run_insertNew 220 [] [221] hcapacity (RequestMap.insert_of_closed fun k r hl => by
    obtain ⟨call, hc, hd⟩ := hclosed k r hl
    rw [Link.isClosed_concat hc, hd])
  have habandon := Link.step_abandon
    (s := { s with
      calls := s.calls ++ [(Call.new 220 [] [221]).goTo (.registered s.requests.nextId (.sending .admitting))]
      requests := ⟨AList.insert s.requests.nextId ⟨s.calls.length, [221], none⟩ ∅,
        s.requests.capacity - 1 + s.requests.items.size, s.requests.nextId + 1⟩ })
    (c := s.calls.length) List.getElem?_concat_length rfl trivial
  simp only [modifyCall, modify_length_concat] at habandon
  exact (run_append_of_run hinsert _).trans (run_cons_of_step habandon _)

structure Cycled (s : Link) (n : ℕ) (t : Link) : Prop where
  calls    : ∃ dropped, t.calls = s.calls ++ dropped
  closed   : AllClosed t.toCorrelator
  permits  : t.requests.capacity + t.requests.items.size = s.requests.capacity + s.requests.items.size
  size     : t.requests.items.size ≤ 1
  nextId   : t.requests.nextId = s.requests.nextId + UInt16.ofNat n
  outlet   : t.outlet = s.outlet
  closing  : t.closing = s.closing
  locked   : t.sinkLocked = s.sinkLocked

theorem exists_cycled (hclosed : AllClosed s.toCorrelator) (hsize : s.requests.items.size = 0)
    (hcapacity : 2 ≤ s.requests.capacity) : ∀ (n : ℕ), ∃ tr t, Runs Link.step s tr t ∧ Cycled s n t
  | 0 => ⟨[], s, .start, ⟨[], by simp⟩, hclosed, rfl, by omega, by simp, rfl, rfl, rfl⟩
  | n + 1 => by
    obtain ⟨tr, t, hrun, ht⟩ := exists_cycled hclosed hsize hcapacity n
    have hpermits := ht.permits
    have hle := ht.size
    have hstep := run_insertThenDrop ht.closed (by omega)
    have hone : (AList.insert t.requests.nextId ⟨t.calls.length, [221], none⟩ (∅ : AList fun _ : UInt16 => Request)).size
        = 1 := AList.size_insert_of_notMem (AList.notMem_empty _)
    refine ⟨_, _, hrun.trans (runs_of_run _ _ hstep), ?_, ?_, ?_, ?_, ?_, ht.outlet, ht.closing, ?_⟩
    · obtain ⟨dropped, hdropped⟩ := ht.calls
      exact ⟨dropped ++ [_], by rw [hdropped, List.append_assoc]⟩
    · intro k r hl
      have hl' : AList.lookup k (AList.insert t.requests.nextId ⟨t.calls.length, [221], none⟩
        (∅ : AList fun _ : UInt16 => Request)) = some r := hl
      rw [AList.lookup_insert_eq] at hl'
      split at hl'
      · cases hl'
        exact ⟨_, List.getElem?_concat_length, rfl⟩
      · cases hl'
    · simp only [hone]
      omega
    · exact hone.le
    · rw [ht.nextId, UInt16.add_assoc]
      rw [UInt16.ofNat_add]
      rfl
    · rw [← ht.locked]
      simp [Link.sinkLocked, droppedCall, Call.hasLock]

def answeredUnsent : List Action :=
  [.post ⟨220, none, []⟩, .postStep 0 (.send (.attempt 0)), .postStep 0 (.send .lock), .postStep 0 (.send (.feed true)),
    .postStep 0 (.send (.flush true)), .request 220 [] [221], .request 222 [] [223], .call 0 .acquire, .call 0 .insert,
    .call 0 (.send (.attempt 0)), .inbound (.binary (DigMessage.toBytes ⟨221, some 0, []⟩)), .handoff, .release]

theorem run_insertSecond {call₀ call₁ : Call} {calls : List Call} (hcalls : s.calls = call₀ :: call₁ :: calls)
    (hp : call₁.phase = .acquiring) (hclosed : AllClosed s.toCorrelator) (hcapacity : 0 < s.requests.capacity) :
    run Link.step s [.call 1 .acquire, .call 1 .insert] = some { s with
      calls := call₀ :: call₁.goTo (.registered s.requests.nextId (.sending .admitting)) :: calls,
      requests := ⟨AList.insert s.requests.nextId ⟨1, call₁.expected, none⟩ ∅,
        s.requests.capacity - 1 + s.requests.items.size, s.requests.nextId + 1⟩ } := by
  have hacquire := Link.step_acquire (c := 1) (by rw [hcalls]; rfl) hp hcapacity
  have hinsert := Link.step_insert
    (s := { s with
      toCorrelator := { s.modifyCall 1 (.goTo .inserting) with
        requests := { s.requests with capacity := s.requests.capacity - 1 } } })
    (c := 1) (show _ = some (call₁.goTo .inserting) by simp only [modifyCall, hcalls]; rfl) rfl
    (RequestMap.insert_of_closed fun k r hl => (hclosed.goTo rfl).isClosed hl)
  refine (run_cons_of_step hacquire _).trans ((run_cons_of_step hinsert _).trans ?_)
  simp only [run, modifyCall, hcalls]
  rfl

def cancelAnothers : List Action :=
  [.call 1 (.send (.attempt 0)), .call 1 (.send .lock), .call 1 (.send (.feed true)), .call 1 (.send (.flush true)),
    .call 0 (.send .giveUp), .call 0 .cancel, .call 0 .finish, .call 1 .receive]

theorem run_cancelAnothers {dropped : List Call} {capacity : ℕ}
    (hcalls : s.calls = ⟨220, [], [221], ⟨some ⟨221, some 0, []⟩, true, false⟩, .registered 0 (.sending .deferred)⟩ ::
      ⟨222, [], [223], .new, .registered 0 (.sending .admitting)⟩ :: dropped)
    (hrequests : s.requests = ⟨AList.insert 0 ⟨1, [223], none⟩ ∅, capacity, 1⟩)
    (hverdict : (s.outlet.limiter.admitAt 0 ⟨222, some 0, []⟩).1 = .admitted) (hclosing : s.closing = ⟨false, false⟩)
    (hdropped : dropped.any Call.hasLock = false) (hposts : s.posts.any Post.hasLock = false) :
    (run Link.step s cancelAnothers).map (fun s => s.calls[1]?) =
      some (some ⟨222, [], [223], ⟨none, true, true⟩, .registered 0 (.returned (.error .recv))⟩) := by
  obtain ⟨⟨requests, calls, reader⟩, ⟨limiter, sink⟩, posts, closing, inbox, appOpen⟩ := s
  simp only at hcalls hrequests hverdict hclosing hposts
  subst hcalls hrequests hclosing
  have hattempt : Outlet.send ⟨limiter, sink⟩ (.call 1) ⟨222, some 0, []⟩ .admitting (.attempt 0) =
      some (.at .writing, ⟨(limiter.admitAt 0 ⟨222, some 0, []⟩).2, sink⟩) := by
    simp only [Outlet.send, hverdict, Progress.ofAdmission]
  simp only [cancelAnothers, run, Link.step, Link.callSend, Link.send, Link.sinkAllows, List.getElem?_cons_succ,
    List.getElem?_cons_zero, Call.message, if_true, hattempt, Option.bind_some, modifyCall, List.modify_succ_cons,
    List.modify_zero_cons, Call.goTo, Stage.ofProgress, Link.sinkLocked, List.any_cons, Call.hasLock, SendPhase.hasLock,
    hdropped, hposts, Bool.or_self, Bool.not_false]
  rfl

theorem run_answeredUnsent : (run Link.step (Link.fromParts 0 (1 / 100) defaultOnly) answeredUnsent).isSome = true := by
  decide +kernel

/-- **The answer of a call whose send still waits frees its id, and 65,535 calls later its `cancel` takes another call's
entry**: the other call waits on a live link and is told its sender is gone. -/
theorem not_owned : ¬ ∀ (now : ℕ) (factor : ℚ) (limits : OpcodeRateLimits) (tr : List (Link × Action)) (s : Link),
    Runs Link.step (Link.fromParts now factor limits) tr s → Owned tr s := by
  intro h
  have hstart := runs_reach run_answeredUnsent
  generalize hs : reach Link.step (Link.fromParts 0 (1 / 100) defaultOnly) answeredUnsent = s at hstart
  have hcalls : s.calls = [⟨220, [], [221], ⟨some ⟨221, some 0, []⟩, true, false⟩, .registered 0 (.sending .deferred)⟩,
      .new 222 [] [223]] := by rw [← hs]; decide +kernel
  have hitems : s.requests.items.entries = [] := by rw [← hs]; decide +kernel
  have hcapacity : s.requests.capacity = 65535 := by rw [← hs]; decide +kernel
  have hnextId : s.requests.nextId = 1 := by rw [← hs]; decide +kernel
  have hverdict : (s.outlet.limiter.admitAt 0 ⟨222, some 0, []⟩).1 = .admitted := by rw [← hs]; decide +kernel
  have hfree : s.sinkLocked = false := by rw [← hs]; decide +kernel
  have hclosing : s.closing = ⟨false, false⟩ := by rw [← hs]; decide +kernel
  have hclosed : AllClosed s.toCorrelator := fun k r hl => by
    have := AList.mem_entries_iff.2 hl
    rw [hitems] at this
    cases this
  obtain ⟨tr, t, hcycles, ht⟩ := exists_cycled hclosed (by rw [AList.size, hitems]; rfl) (by omega) 65535
  obtain ⟨dropped, hdropped⟩ := ht.calls
  have hpermits := ht.permits
  have hle := ht.size
  have hid : t.requests.nextId = 0 := by rw [ht.nextId, hnextId]; decide
  rw [hcalls] at hdropped
  have hinsert := run_insertSecond hdropped rfl ht.closed (by omega)
  rw [hid] at hinsert
  rw [← ht.outlet] at hverdict
  have hunlocked := ht.locked.trans hfree
  simp only [Link.sinkLocked, hdropped, List.any_append, Bool.or_eq_false_iff] at hunlocked
  obtain ⟨⟨-, -, hothers⟩, hposts⟩ := hunlocked
  obtain ⟨u, hrun, hreturned⟩ := exists_runs (run_cancelAnothers
    (s := { t with
      calls := _ :: (Call.new 222 [] [223]).goTo (.registered 0 (.sending .admitting)) :: dropped
      requests := ⟨AList.insert 0 ⟨1, [223], none⟩ ∅, _, 1⟩ }) rfl rfl hverdict (ht.closing.trans hclosing) hothers hposts)
  have howned := h _ _ _ _ u (((hstart.trans hcycles).trans (runs_of_run _ _ hinsert)).trans hrun)
  exact howned.senders 1 0 [223] ⟨_, hreturned, rfl, rfl⟩

end Dig
