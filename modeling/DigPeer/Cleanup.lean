import DigPeer.Capacity
import DigPeer.Ledger
/-!
# Cleanup — what a finished request leaves behind

A call that has returned has left the map (`Correlator.Left.done`), so the entries there are, are those of calls still
in progress and of calls whose callers dropped them; with neither the map is empty and has all its permits back.  A call
is `Unadmitted` up to its admission, and stays so when its send is refused: such a call has written nothing and is not
on the ledger (`unadmitted_leaves_nothing`).
-/
namespace Dig

open Correlator Lts

variable {tr : List (Link × Action)} {s s' t : Link} {a : Action} {c : CallId} {call call' : Call} {k : UInt16}
  {r : Request} {m : DigMessage} {now n : ℕ} {factor : ℚ} {limits : OpcodeRateLimits}

/-! ## Entries -/

def Call.hasReturned (call : Call) : Bool :=
  match call.phase with
  | .registered _ (.returned _) => true
  | _                           => false

theorem Call.hasReturned_iff : call.hasReturned = true ↔ ∃ k result, call.phase = .registered k (.returned result) := by
  unfold hasReturned
  split
  · rename_i k result hp
    exact iff_of_true rfl ⟨k, result, hp⟩
  · rename_i hnot
    exact iff_of_false Bool.false_ne_true fun ⟨k, result, hp⟩ => hnot k result hp

/-- **Whose an entry is**: a call still in progress, or one whose future its caller has dropped. -/
theorem stage_of_entry (h : Runs Link.step (Link.fromParts n factor limits) tr t) (hl : t.lookup k = some r) :
    ∃ call stage, t.calls[r.sender]? = some call ∧ call.phase = .registered k stage ∧
      (stage.CanAbandon ∨ stage = .dropped) := by
  obtain ⟨call, stage, hc, hp, -⟩ := linked_of_runs h k r hl
  have hnot : ¬ stage.Done := fun hd => (placed_of_runs h).noEntry r.sender (.done hc hp hd) k r hl rfl
  refine ⟨call, stage, hc, hp, ?_⟩
  cases stage with
  | sending | cancelling | waiting | expired => exact Or.inl trivial
  | dropped => exact Or.inr rfl
  | reclaimed | returned => exact absurd trivial hnot

theorem items_of_allReturned (h : Runs Link.step (Link.fromParts n factor limits) tr t)
    (hall : ∀ call ∈ t.calls, call.hasReturned = true) : t.requests.items = ∅ := by
  apply AList.ext
  refine List.eq_nil_iff_forall_not_mem.2 fun e he => ?_
  obtain ⟨call, stage, hc, hp, hstage⟩ := stage_of_entry h (AList.mem_entries_iff.1 he)
  obtain ⟨k, result, hp'⟩ := Call.hasReturned_iff.1 (hall call (List.mem_of_getElem? hc))
  rw [hp] at hp'
  cases hp'
  rcases hstage with hstage | hstage <;> cases hstage

theorem capacity_of_allReturned (h : Runs Link.step (Link.fromParts n factor limits) tr t)
    (hall : ∀ call ∈ t.calls, call.hasReturned = true) (hr : t.reader.holdsPermit = false) :
    t.requests.capacity = 65535 := by
  have hpermits := permits_of_runs h
  have hcalls : t.calls.countP Call.holdsPermit = 0 := by
    refine List.countP_eq_zero.2 fun call hc => ?_
    obtain ⟨k, result, hp⟩ := Call.hasReturned_iff.1 (hall call hc)
    simp [Call.holdsPermit, hp]
  rw [Correlator.permits, items_of_allReturned h hall, hcalls, hr] at hpermits
  exact hpermits

/-! ## Calls that are not admitted -/

/-- The errors of a send that the limiter never admitted. -/
def LinkError.isRefusal : LinkError → Bool
  | .unsendable _ _ | .sendTimeout _ => true
  | _                                => false

/-- The stages of a call up to its admission, and those it goes through when its send is refused. -/
def Stage.unadmitted : Stage → Bool
  | .sending .admitting | .sending .deferred                               => true
  | .cancelling error | .reclaimed _ error | .returned (.error error)      => error.isRefusal
  | _                                                                      => false

def Call.unadmitted (call : Call) : Bool :=
  match call.phase with
  | .registered _ stage => stage.unadmitted
  | _                   => true

/-- The limiter has admitted nothing of the call, or there is no such call yet. -/
def Link.Unadmitted (s : Link) (c : CallId) : Prop := ∀ call, s.calls[c]? = some call → call.unadmitted = true

theorem expiryError_isRefusal (call : Call) (request : Option Request) :
    (expiryError call request).isRefusal = false := by
  unfold expiryError
  split <;> rfl

theorem poll_ne_refusal {ch : Oneshot} {error : LinkError} (h : ch.poll = some (.error error)) :
    error.isRefusal = false := by
  unfold Oneshot.poll at h
  split at h <;> cases h
  rfl

theorem Outlet.send_unadmitted {o o' : Outlet} {w : Writer} {phase : SendPhase} {e : SendEvent} {progress : Progress}
    (h : o.send w m phase e = some (progress, o')) (hu : (Stage.ofProgress progress).unadmitted = true) :
    (phase = .admitting ∨ phase = .deferred) ∧ ∀ now, e = .attempt now → (o.limiter.admitAt now m).1 ≠ .admitted := by
  unfold Outlet.send at h
  split at h
  · rename_i now
    cases h
    refine ⟨Or.inl rfl, fun now' hnow hadm => ?_⟩
    cases hnow
    have hverdict : (o.limiter.rollWindow now).verdict m = .admitted := hadm
    rw [hverdict] at hu
    cases hu
  · exact ⟨Or.inr rfl, fun now hnow => by cases hnow⟩
  · exact ⟨Or.inr rfl, fun now hnow => by cases hnow⟩
  all_goals cases h
  all_goals cases hu

/-- **An admission is for good.** -/
theorem unadmitted_of_step (h : s.step a = some s') (hu : s'.Unadmitted c) : s.Unadmitted c := by
  intro call hc
  obtain ⟨call', hc', hfate⟩ := (step_effect h).callFate hc
  have hu' := hu call' hc'
  cases hfate with
  | stays hp => rw [Call.unadmitted, ← hp]; exact hu'
  | own _ ho =>
    cases ho with
    | acquire hp | insert hp => simp only [Call.unadmitted, hp]
    | withdraw hp => rcases hp with hp | hp <;> simp only [Call.unadmitted, hp]
    | send hp hs =>
      obtain ⟨hphase, -⟩ := Outlet.send_unadmitted hs hu'
      rcases hphase with rfl | rfl <;> simp only [Call.unadmitted, hp, Stage.unadmitted]
    | @receive id result hp hr =>
      cases result with
      | ok _ => cases hu'
      | error error => exact absurd hu' (by simp [Call.unadmitted, Call.goTo, Stage.unadmitted, poll_ne_refusal hr])
    | expire => cases hu'
    | @cancel id stage error hp hs =>
      rcases hs with rfl | ⟨rfl, rfl⟩
      · rw [Call.unadmitted, hp]
        exact hu'
      · exact absurd hu' (by simp [Call.unadmitted, Call.goTo, Stage.unadmitted, expiryError_isRefusal])
    | finish hp =>
      rw [Call.unadmitted, hp]
      exact hu'
    | abandon => cases hu'

theorem written_of_step (h : s.step a = some s') {x : Written} (hx : x ∈ s'.outlet.sink) :
    x ∈ s.outlet.sink ∨ s.sendPhase? x.writer = some .feeding := by
  cases step_send h with
  | quiet ho => rw [ho] at hx; exact Or.inl hx
  | sends hm hp hs =>
    rcases Outlet.send_cases hs with ⟨-, hsink, -⟩ | ⟨ho, -⟩ | ⟨rfl, -, ho⟩
    · rw [hsink] at hx; exact Or.inl hx
    · rw [ho] at hx; exact Or.inl hx
    · rw [ho, List.mem_append, List.mem_singleton] at hx
      rcases hx with hx | rfl
      · exact Or.inl hx
      · exact Or.inr hp

theorem not_unadmitted_of_attempt (h : s.step a = some s') (hattempt : attempt (s, a) = some (.call c, now, m))
    (hadm : (s.outlet.limiter.admitAt now m).1 = .admitted) : ¬ s'.Unadmitted c := by
  intro hu
  cases Link.stepped_of_step h with
  | @callSend c' e call k phase progress outlet hc hp hs =>
    have hm := Link.message?_call hc hp
    cases e with
    | attempt now' =>
      simp only [attempt, hm, Option.map_some, Option.some.injEq, Prod.mk.injEq, Writer.call.injEq] at hattempt
      obtain ⟨rfl, rfl, rfl⟩ := hattempt
      have hu' := hu _ (getElem?_modify_eq_some.2 ⟨call, hc, rfl⟩)
      rw [if_pos rfl] at hu'
      exact (Outlet.send_unadmitted hs hu').2 _ rfl hadm
    | retry | giveUp | lock | feed | flush => cases hattempt
  | @postSend p e =>
    cases e with
    | attempt now' =>
      simp only [attempt, Option.map_eq_some_iff] at hattempt
      obtain ⟨_, _, heq⟩ := hattempt
      cases heq
    | retry | giveUp | lock | feed | flush => cases hattempt
  | @callStep c' e u he ht =>
    cases e with
    | send e => exact he e rfl
    | acquire | insert | receive | expire | cancel | finish | abandon => cases hattempt
  | request | post | postAbandon | close | inbound | handoff | release | deliver | recv | closeApp => cases hattempt

/-- **A call that is not admitted has written nothing, and nothing is charged for it.** -/
theorem unadmitted_leaves_nothing (h : Runs Link.step (Link.fromParts n factor limits) tr t) (hu : t.Unadmitted c) :
    (∀ x ∈ t.outlet.sink, x.writer ≠ .call c) ∧ ∀ entry ∈ ledgerOf tr, entry.1 ≠ .call c := by
  induction h with
  | start => exact ⟨fun x hx => (by cases hx), fun entry hentry => (by cases hentry)⟩
  | @step tr s s' a hrun hs ih =>
    have hbefore := unadmitted_of_step hs hu
    obtain ⟨hsink, hledger⟩ := ih hbefore
    refine ⟨fun x hx hw => ?_, fun entry hentry hw => ?_⟩
    · rcases written_of_step hs hx with hx | hwriting
      · exact hsink x hx hw
      · rw [hw] at hwriting
        obtain ⟨call, hc, hphase⟩ := Option.bind_eq_some_iff.1 hwriting
        have hcall := hbefore call hc
        unfold Call.sendPhase? at hphase
        unfold Call.unadmitted at hcall
        split at hphase
        · rename_i hp
          cases hphase
          rw [hp] at hcall
          cases hcall
        · cases hphase
    · rw [ledgerOf_concat] at hentry
      rcases mem_enter hentry with hentry | ⟨now, hattempt, hadm⟩
      · exact hledger entry hentry hw
      · rw [hw] at hattempt
        exact not_unadmitted_of_attempt hs hattempt hadm hu

/-! ## Every way out -/

/-- **Every exit of a request cleans up after itself.**  No entry is a call's that has returned, with whatever result:
each is one of a call in progress or of a dropped future, so when all calls have returned the map is empty, and has all
its permits once the reader has none.  What the limiter is charged with is on the ledger; and a call that returned
because the limiter never admitted its message is neither there nor in the sink. -/
theorem cleaned_up (h : Runs Link.step (Link.fromParts n factor limits) tr t) :
    (∀ c call k result, t.calls[c]? = some call → call.phase = .registered k (.returned result) →
      ∀ k' r, t.lookup k' = some r → r.sender ≠ c) ∧
    (∀ k r, t.lookup k = some r → ∃ call stage, t.calls[r.sender]? = some call ∧ call.phase = .registered k stage ∧
      (stage.CanAbandon ∨ stage = .dropped)) ∧
    ((∀ call ∈ t.calls, call.hasReturned = true) → t.requests.items = ∅ ∧
      (t.reader.holdsPermit = false → t.requests.capacity = 65535)) ∧
    t.outlet.limiter.ChargedWith ((ledgerOf tr).map Prod.snd) ∧
    ∀ c call k error, t.calls[c]? = some call → call.phase = .registered k (.returned (.error error)) →
      error.isRefusal = true →
        (∀ x ∈ t.outlet.sink, x.writer ≠ .call c) ∧ ∀ entry ∈ ledgerOf tr, entry.1 ≠ .call c := by
  refine ⟨?_, ?_, ?_, limiter_of_runs h, ?_⟩
  · intro c call k result hc hp
    exact (placed_of_runs h).noEntry c (.done hc hp trivial)
  · intro k r hl
    exact stage_of_entry h hl
  · intro hall
    exact ⟨items_of_allReturned h hall, capacity_of_allReturned h hall⟩
  · intro c call k error hc hp hrefusal
    apply unadmitted_leaves_nothing h
    intro call' hc'
    rw [hc] at hc'
    cases hc'
    rw [Call.unadmitted, hp]
    exact hrefusal

def twoBytes : OpcodeRateLimits := { defaultOnly with defaultSettings := ⟨100, 2, none⟩ }

def answeredAndUnsendable : List Action :=
  [.request 220 [5] [221], .call 0 .acquire, .call 0 .insert, .call 0 (.send (.attempt 0)), .call 0 (.send .lock),
    .call 0 (.send (.feed true)), .call 0 (.send (.flush true)), .request 220 [5, 6, 7] [221], .call 1 .acquire,
    .call 1 .insert, .call 1 (.send (.attempt 0)), .inbound (.binary (DigMessage.toBytes ⟨221, some 0, []⟩)),
    .handoff, .call 1 .cancel, .release, .call 1 .finish, .call 0 .receive]

theorem cleaned_up_answeredAndUnsendable : ∃ tr t, Runs Link.step (Link.fromParts 0 1 twoBytes) tr t ∧
    (∃ call, t.calls[1]? = some call ∧ call.phase = .registered 1 (.returned (.error (.unsendable 220 3)))) ∧
    t.requests.items = ∅ ∧ t.requests.capacity = 65535 ∧
    t.outlet.limiter.ChargedWith ((ledgerOf tr).map Prod.snd) ∧ (ledgerOf tr).map Prod.fst = [.call 0] ∧
    (∀ x ∈ t.outlet.sink, x.writer ≠ .call 1) ∧ ∀ entry ∈ ledgerOf tr, entry.1 ≠ .call 1 := by
  have hsome : (run Link.step (Link.fromParts 0 1 twoBytes) answeredAndUnsendable).isSome = true := by decide +kernel
  obtain ⟨-, -, hmap, hlimiter, hrefused⟩ := cleaned_up (runs_reach hsome)
  obtain ⟨hitems, hcapacity⟩ := hmap (by decide +kernel)
  have hcall : (reach Link.step (Link.fromParts 0 1 twoBytes) answeredAndUnsendable).calls[1]? =
      some ⟨220, [5, 6, 7], [221], ⟨none, true, true⟩, .registered 1 (.returned (.error (.unsendable 220 3)))⟩ := by
    decide +kernel
  have hnone := hrefused 1 _ 1 _ hcall rfl rfl
  exact ⟨_, _, runs_reach hsome, ⟨_, hcall, rfl⟩, hitems, hcapacity (by decide +kernel), hlimiter, by decide +kernel,
    hnone.1, hnone.2⟩

end Dig
