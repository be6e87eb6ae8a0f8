import DigPeer.Answers
/-!
# Diagnosis — what an expired call reports

While an entry is in the map it carries the last collision that history shows on it (`recorded_of_runs`).  A call whose
deadline has passed reads its diagnosis off the entry its `cancel` finds, so the report is right as long as that entry
is still its own.  Its receiver is gone by then, and another call's `insert` reclaims entries whose receiver is gone:
`diagnosed_iff` says what is left.
-/
namespace Dig

open Correlator Lts

variable {tr seg : List (Link × Action)} {s s' t : Link} {a : Action} {c : CallId} {call : Call} {k : UInt16}
  {m : DigMessage} {r : Request} {n : ℕ} {e e' : LinkError} {expected : List UInt8} {now : ℕ} {factor : ℚ}
  {limits : OpcodeRateLimits} {x : Link × Action}

def found? (x : Link × Action) : Option (DigMessage × Request) :=
  match x.2.frame? with
  | none   => none
  | some m => (m.id.bind x.1.lookup).map fun r => (m, r)

/-- The call on whose entry a step records a collision, and the opcode it records. -/
def collision? (x : Link × Action) : Option (CallId × UInt8) :=
  match found? x with
  | none        => none
  | some (m, r) => if m.msgType ∈ r.expected then none else some (r.sender, m.msgType)

def TakesAnswer (x : Link × Action) (c : CallId) : Prop :=
  ∃ m r, found? x = some (m, r) ∧ m.msgType ∈ r.expected ∧ r.sender = c

theorem found?_eq_some_iff : found? x = some (m, r) ↔
    x.2.frame? = some m ∧ ∃ k, m.id = some k ∧ x.1.lookup k = some r := by
  unfold found?
  split
  · rename_i hf
    exact ⟨fun h => (by cases h), fun h => by rw [hf] at h; cases h.1⟩
  · rename_i m' hf
    rw [hf, Option.map_eq_some_iff, Option.some.injEq]
    constructor
    · rintro ⟨r', hl, he⟩
      cases he
      exact ⟨rfl, Option.bind_eq_some_iff.1 hl⟩
    · rintro ⟨rfl, hl⟩
      exact ⟨r, Option.bind_eq_some_iff.2 hl, rfl⟩

theorem collision?_eq_some {opcode : UInt8} (h : collision? x = some (c, opcode)) :
    ∃ m k r, x.2.frame? = some m ∧ m.id = some k ∧ x.1.lookup k = some r ∧ r.sender = c := by
  unfold collision? at h
  split at h
  · cases h
  · rename_i m r hfound
    obtain ⟨hf, k, hid, hl⟩ := found?_eq_some_iff.1 hfound
    split at h
    · cases h
    · cases h
      exact ⟨m, k, r, hf, hid, hl, rfl⟩

theorem collision?_of_recorded (hf : a.frame? = some m) (hid : m.id = some k) (hl : s.lookup k = some r)
    (hd : m.msgType ∉ r.expected) : collision? (s, a) = some (r.sender, m.msgType) := by
  have hfound : found? (s, a) = some (m, r) := found?_eq_some_iff.2 ⟨hf, k, hid, hl⟩
  simp only [collision?, hfound, if_neg hd]

/-! ## What an entry carries -/

structure Recorded (tr : List (Link × Action)) (s : Link) : Prop where
  entries : ∀ k r, s.lookup k = some r → r.undeclared = lastSeen collision? tr r.sender
  calls   : ∀ c opcode, lastSeen collision? tr c = some opcode →
    ∃ call k stage, s.calls[c]? = some call ∧ call.phase = .registered k stage

theorem lastSeen_collision_of_kept (hs : s.toCorrelator.Linked) (hl : s.lookup k = some r)
    (hf : ∀ m, a.frame? = some m → m.id ≠ some k) :
    lastSeen collision? (tr ++ [(s, a)]) r.sender = lastSeen collision? tr r.sender := by
  cases hcol : collision? (s, a) with
  | none => exact lastSeen_concat_of_none hcol
  | some e =>
    obtain ⟨c, opcode⟩ := e
    rw [lastSeen_concat_of_some hcol, if_neg]
    rintro rfl
    obtain ⟨m, k', r', hm, hid, hl', hsender⟩ := collision?_eq_some hcol
    obtain ⟨call, stage, hc, hp, -⟩ := hs k r hl
    obtain ⟨call', stage', hc', hp', -⟩ := hs k' r' hl'
    rw [hsender, hc] at hc'
    cases hc'
    rw [hp] at hp'
    cases hp'
    exact hf m hm hid

theorem Recorded.step (hs : s.toCorrelator.Linked) (hr : Recorded tr s) (h : s.step a = some s') :
    Recorded (tr ++ [(s, a)]) s' := by
  have he := step_effect h
  constructor
  · intro k r' hl'
    cases he.entryFrom hl' with
    | kept hl hf => rw [lastSeen_collision_of_kept hs hl hf, hr.entries k r' hl]
    | recorded hf hid hl hd hr' =>
      subst hr'
      rw [lastSeen_concat_of_some (collision?_of_recorded hf hid hl hd), if_pos rfl]
    | @issued c call requests ha hc hp hi hc' hr' =>
      subst hr' ha
      rw [lastSeen_concat_of_none rfl]
      cases hseen : lastSeen collision? tr c with
      | none => rfl
      | some opcode =>
        obtain ⟨call', k', stage, hcall, hp'⟩ := hr.calls c opcode hseen
        rw [hc] at hcall
        cases hcall
        rw [hp] at hp'
        cases hp'
  · intro c opcode hseen
    have hcall : ∃ call k stage, s.calls[c]? = some call ∧ call.phase = .registered k stage := by
      cases hcol : collision? (s, a) with
      | none =>
        rw [lastSeen_concat_of_none hcol] at hseen
        exact hr.calls c opcode hseen
      | some e =>
        rw [lastSeen_concat_of_some hcol] at hseen
        split at hseen
        · rename_i hce
          obtain ⟨m, k, r, -, -, hl, hsender⟩ := collision?_eq_some hcol
          obtain ⟨call, stage, hc, hp, -⟩ := hs k r hl
          rw [hsender, hce] at hc
          exact ⟨call, k, stage, hc, hp⟩
        · exact hr.calls c opcode hseen
    obtain ⟨call, k, stage, hc, hp⟩ := hcall
    obtain ⟨call', hc', hcont⟩ := he.continues hc
    obtain ⟨stage', hp'⟩ := hcont.registered k stage hp
    exact ⟨call', k, stage', hc', hp'⟩

/-- **An entry carries the last collision on it.** -/
theorem recorded_of_runs (h : Runs Link.step (Link.fromParts now factor limits) tr s) : Recorded tr s := by
  induction h with
  | start => exact ⟨fun k r hl => (by cases hl), fun c opcode hseen => (by cases hseen)⟩
  | step hrun hstep ih => exact ih.step (linked_of_runs hrun) hstep

/-! ## The report -/

def GoesTo (c : CallId) (k : UInt16) (e : LinkError) (s : Link) : Prop :=
  ∃ call : Call, s.calls[c]? = some call ∧
    ((∃ request, call.phase = .registered k (.reclaimed request e)) ∨ call.phase = .registered k (.returned (.error e)))

theorem GoesTo.step (hg : GoesTo c k e s) (h : s.step a = some s') : GoesTo c k e s' := by
  obtain ⟨call, hc, hp⟩ := hg
  obtain ⟨call', hc', hfate⟩ := (step_effect h).callFate hc
  refine ⟨call', hc', ?_⟩
  cases hfate with
  | stays hp' => rw [hp']; exact hp
  | own ha ho =>
    cases ho with
    | finish hp₁ =>
      rcases hp with ⟨request, hp⟩ | hp
      · rw [hp₁] at hp
        cases hp
        exact Or.inr rfl
      · rw [hp₁] at hp
        cases hp
    | cancel hp₁ hs =>
      rcases hp with ⟨request, hp⟩ | hp <;> rw [hp₁] at hp <;> cases hp <;> rcases hs with hs | ⟨hs, -⟩ <;> cases hs
    | abandon hp₁ hs => rcases hp with ⟨request, hp⟩ | hp <;> rw [hp₁] at hp <;> cases hp <;> cases hs
    | withdraw hp₁ => rcases hp with ⟨request, hp⟩ | hp <;> rw [hp] at hp₁ <;> rcases hp₁ with hp₁ | hp₁ <;> cases hp₁
    | acquire hp₁ | insert hp₁ | send hp₁ | receive hp₁ | expire hp₁ =>
      rcases hp with ⟨request, hp⟩ | hp <;> rw [hp₁] at hp <;> cases hp

theorem returned_of_cancel (hc : s.calls[c]? = some call) (hp : call.phase = .registered k .expired)
    (hs : s.step (.call c .cancel) = some s') (hseg : Runs Link.step s' seg t)
    (hret : t.Returned c k expected (.error e)) : e = expiryError call (s.lookup k) := by
  have hgoes : GoesTo c k (expiryError call (s.lookup k)) s' := by
    simp only [Link.step, callStep, hc, hp, Option.map_some, Option.some.injEq] at hs
    subst hs
    exact ⟨_, getElem?_modify_eq_some.2 ⟨call, hc, rfl⟩, Or.inl ⟨s.lookup k, by rw [if_pos rfl]; rfl⟩⟩
  obtain ⟨call', hc', hp'⟩ := hseg.invariant hgoes fun _ _ _ hg hstep => GoesTo.step hg hstep
  obtain ⟨call'', hc'', -, hp''⟩ := hret
  rw [hc'] at hc''
  cases hc''
  rcases hp' with ⟨request, hp'⟩ | hp' <;> rw [hp'] at hp'' <;> cases hp''
  rfl

/-- **The diagnosis is exact**: with no declared frame taken and a collision on its entry the call reports its own
opcodes and the last one that collided, and it reports a timeout, of its own opcode, only if there was none. -/
structure Diagnosed (tr : List (Link × Action)) (c : CallId) (call : Call) (e : LinkError) : Prop where
  invalidResponse : (¬ ∃ x ∈ tr, TakesAnswer x c) → ∀ found, lastSeen collision? tr c = some found →
    e = .invalidResponse call.expected found
  requestTimeout : ∀ opcode, e = .requestTimeout opcode → opcode = call.opcode ∧ lastSeen collision? tr c = none

theorem expiryError_none (call : Call) : expiryError call none = .requestTimeout call.opcode := rfl

theorem expiryError_some (call : Call) (r : Request) : expiryError call (some r) =
    match r.undeclared with
    | some found => .invalidResponse r.expected found
    | none       => .requestTimeout call.opcode := by
  unfold expiryError Request.intoDiagnosis
  cases h : r.undeclared <;> simp [h]

theorem expiryError_eq_timeout {request : Option Request} {opcode : UInt8}
    (h : expiryError call request = .requestTimeout opcode) : opcode = call.opcode := by
  unfold expiryError at h
  split at h <;> cases h
  rfl

/-- An entry that reports what the call's own would have. -/
def ReportsAs (tr : List (Link × Action)) (c : CallId) (call : Call) (r : Request) : Prop :=
  r.undeclared ≠ none ∧
    ((¬ ∃ x ∈ tr, TakesAnswer x c) → r.expected = call.expected ∧ r.undeclared = lastSeen collision? tr c)

theorem diagnosed_expiryError_iff {found : UInt8} (hseen : lastSeen collision? tr c = some found) :
    Diagnosed tr c call (expiryError call (some r)) ↔ ReportsAs tr c call r := by
  rw [expiryError_some, ReportsAs, hseen]
  cases hu : r.undeclared with
  | none =>
    refine iff_of_false (fun hd => ?_) fun h => h.1 rfl
    have hnone := (hd.requestTimeout call.opcode rfl).2
    rw [hseen] at hnone
    cases hnone
  | some found' =>
    constructor
    · intro hd
      refine ⟨Option.some_ne_none _, fun hno => ?_⟩
      have he := hd.invalidResponse hno found hseen
      simp only [LinkError.invalidResponse.injEq] at he
      exact ⟨he.1, congrArg some he.2⟩
    · rintro ⟨-, h⟩
      refine ⟨fun hno found₁ hseen₁ => ?_, fun opcode he => by cases he⟩
      rw [hseen] at hseen₁
      cases hseen₁
      obtain ⟨hexpected, hfound⟩ := h hno
      cases hfound
      rw [hexpected]

/-- **When an expired call's report is exact**: when nothing was recorded against it, when its own entry is still in the
map at its `cancel`, or when the entry of another call stands there that reports the same. -/
theorem diagnosed_iff (h : Runs Link.step (Link.fromParts now factor limits) tr t)
    (hn : tr[n]? = some (s, .call c .cancel)) (hc : s.calls[c]? = some call)
    (hp : call.phase = .registered k .expired) (hret : t.Returned c k expected (.error e)) :
    Diagnosed (tr.take n) c call e ↔ lastSeen collision? (tr.take n) c = none ∨
      ∃ r, s.lookup k = some r ∧ (r.sender = c ∨ ReportsAs (tr.take n) c call r) := by
  obtain ⟨hrun, s', hs', hseg⟩ := h.of_getElem? hn
  have hr := recorded_of_runs hrun
  obtain rfl := returned_of_cancel hc hp hs' hseg hret
  cases hseen : lastSeen collision? (tr.take n) c with
  | none =>
    refine iff_of_true ⟨fun _ found hfound => ?_, fun opcode he => ⟨expiryError_eq_timeout he, hseen⟩⟩ (Or.inl rfl)
    rw [hseen] at hfound
    cases hfound
  | some found =>
    cases hl : s.lookup k with
    | none =>
      refine iff_of_false (fun hd => ?_) (by simp)
      have hnone := (hd.requestTimeout call.opcode (expiryError_none call)).2
      rw [hseen] at hnone
      cases hnone
    | some r =>
      rw [diagnosed_expiryError_iff hseen]
      have hown : r.sender = c → ReportsAs (tr.take n) c call r := by
        intro hsender
        obtain ⟨call', stage, hc', -, hexpected⟩ := linked_of_runs hrun k r hl
        rw [hsender, hc] at hc'
        cases hc'
        have hrecord := hr.entries k r hl
        rw [hsender, hseen] at hrecord
        exact ⟨by simp [hrecord], fun _ => ⟨hexpected.symm, by rw [hrecord, hseen]⟩⟩
      constructor
      · intro hreports
        exact Or.inr ⟨r, rfl, Or.inr hreports⟩
      · rintro (hnone | ⟨r', hl', hsender | hreports⟩)
        · cases hnone
        · cases hl'
          exact hown hsender
        · cases hl'
          exact hreports

/-! ## A collision forgotten -/

def collideThenExpire : List Action :=
  [.request 220 [] [221], .call 0 .acquire, .call 0 .insert, .call 0 (.send (.attempt 0)),
    .call 0 (.send .lock), .call 0 (.send (.feed true)), .call 0 (.send (.flush true)),
    .inbound (.binary (DigMessage.toBytes ⟨230, some 0, []⟩)), .deliver, .call 0 .expire]

def insertAnother : List Action := [.request 220 [] [221], .call 1 .acquire, .call 1 .insert]

def cancelThenFinish : List Action := [.call 0 .cancel, .call 0 .finish]

theorem diagnosed_collideThenExpire :
    ∃ tr, lastSeen collision? tr 0 = some 230 ∧
      Diagnosed tr 0 ⟨220, [], [221], ⟨none, false, true⟩, .registered 0 .expired⟩ (.invalidResponse [221] 230) := by
  have hsome : (run Link.step (Link.fromParts 0 1 defaultOnly) (collideThenExpire ++ cancelThenFinish)).isSome = true := by
    decide +kernel
  have hcancel := getElem?_trace _ _ 10 (run_eq_some_reach hsome) rfl
  refine ⟨_, ?_, (diagnosed_iff (runs_reach hsome) hcancel ?_ rfl ⟨⟨220, [], [221], ⟨none, true, true⟩,
    .registered 0 (.returned (.error (.invalidResponse [221] 230)))⟩, ?_, rfl, rfl⟩).2
      (Or.inr ⟨⟨0, [221], some 230⟩, ?_, Or.inl rfl⟩)⟩
  all_goals decide +kernel

/-- **Another call's insert between the deadline and the `cancel` takes the collision with it**: the call reports a
silent peer. -/
theorem not_diagnosed :
    ¬ ∀ (now : ℕ) (factor : ℚ) (limits : OpcodeRateLimits) (tr : List (Link × Action)) (s t : Link) (n : ℕ) (c : CallId)
        (call : Call) (k : UInt16) (expected : List UInt8) (e : LinkError),
        Runs Link.step (Link.fromParts now factor limits) tr t → tr[n]? = some (s, .call c .cancel) →
        s.calls[c]? = some call → call.phase = .registered k .expired → t.Returned c k expected (.error e) →
        Diagnosed (tr.take n) c call e := by
  intro h
  have hsome : (run Link.step (Link.fromParts 0 1 defaultOnly)
      (collideThenExpire ++ insertAnother ++ cancelThenFinish)).isSome = true := by decide +kernel
  have hcancel := getElem?_trace _ _ 13 (run_eq_some_reach hsome) rfl
  have hd := h _ _ _ _ _ _ 13 0 ⟨220, [], [221], ⟨none, false, true⟩, .registered 0 .expired⟩ 0 [221]
    (.requestTimeout 220) (runs_reach hsome) hcancel (by decide +kernel) rfl
    ⟨⟨220, [], [221], ⟨none, false, true⟩, .registered 0 (.returned (.error (.requestTimeout 220)))⟩, by decide +kernel,
      rfl, rfl⟩
  have hnone := (hd.requestTimeout 220 rfl).2
  revert hnone
  decide +kernel

end Dig
