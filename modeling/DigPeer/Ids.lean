import DigPeer.Answers
/-!
# Ids — no id twice before the cursor wraps

As long as a link has had fewer than 65,536 calls its cursor is the number of ids it has given out, and the next id is
the cursor itself, which no entry has: so no two calls have the same (`fresh_of_runs`).
-/
namespace Dig

open Correlator Lts

variable {tr : List (Link × Action)} {s s' : Correlator} {a : Action} {c c' : CallId} {call call' : Call} {k : UInt16}
  {t : Link} {now : ℕ} {factor : ℚ} {limits : OpcodeRateLimits}

def Correlator.HasId (s : Correlator) (c : CallId) (k : UInt16) : Prop :=
  ∃ (call : Call) (stage : Stage), s.calls[c]? = some call ∧ call.phase = .registered k stage

def Call.hasId (call : Call) : Bool :=
  match call.phase with
  | .registered _ _ => true
  | _ => false

theorem Correlator.Effect.hasId_of (h : Effect s a s') (hk : s'.HasId c k) : s.HasId c k ∨
    ∃ call requests, a = .call c .insert ∧ s.calls[c]? = some call ∧
      s.requests.insert s.isClosed c call.expected = some (k, requests) := by
  obtain ⟨call', stage', hc', hp⟩ := hk
  cases h.callFrom hc' with
  | new _ _ hnew => subst hnew; cases hp
  | same hc => exact Or.inl ⟨call', stage', hc, hp⟩
  | handed _ _ _ hc hcall | orphaned _ hc _ _ _ _ hcall => subst hcall; exact Or.inl ⟨_, stage', hc, hp⟩
  | @own e call ha hc ho =>
    cases ho with
    | insert _ hi => cases hp; exact Or.inr ⟨call, _, ha, hc, hi⟩
    | acquire | withdraw => cases hp
    | send hp' | receive hp' | expire hp' | cancel hp' | finish hp' | abandon hp' =>
      cases hp
      exact Or.inl ⟨call, _, hc, hp'⟩

theorem countP_hasId_modify {f : Call → Call} (hc : s.calls[c]? = some call) (hf : (f call).hasId = call.hasId) :
    (s.calls.modify c f).countP Call.hasId = s.calls.countP Call.hasId := by
  apply countP_modify_eq
  intro x hx
  rw [hc] at hx
  cases hx
  exact hf

/-- No other step moves the cursor or gives out an id. -/
theorem Correlator.Effect.nextId_eq (h : Effect s a s') (ha : ∀ c, a ≠ .call c .insert) :
    s'.requests.nextId = s.requests.nextId ∧ s'.calls.countP Call.hasId = s.calls.countP Call.hasId := by
  cases h with
  | outside | skip | pass | collide | answer | release | deliver => exact ⟨rfl, rfl⟩
  | request => simp [Call.new, Call.hasId]
  | insert => exact absurd rfl (ha _)
  | handoff => exact ⟨rfl, countP_modify_eq fun _ _ => rfl⟩
  | acquire hc hp | withdraw hc hp | withdrawPermit hc hp | send hc hp | receive hc hp | expire hc hp | cancel hc hp
  | abandon hc hp => exact ⟨rfl, countP_hasId_modify hc (by simp [Call.hasId, Call.goTo, Call.dropReceiver, hp])⟩
  | @finish c call id request error hc hp =>
    obtain ⟨call', hc', hp', -⟩ := exists_dropRequest request hc
    have hdrop : (s.dropRequest request).requests.nextId = s.requests.nextId ∧
        (s.dropRequest request).calls.countP Call.hasId = s.calls.countP Call.hasId := by
      cases request with
      | none => exact ⟨rfl, rfl⟩
      | some r => exact ⟨rfl, countP_modify_eq fun _ _ => rfl⟩
    rw [hp] at hp'
    refine ⟨hdrop.1, (countP_hasId_modify hc' ?_).trans hdrop.2⟩
    simp [Call.hasId, Call.goTo, Call.dropReceiver, hp']

/-- **The cursor counts the ids given out**, and no two calls have the same. -/
structure Correlator.Fresh (s : Correlator) : Prop where
  cursor : s.requests.nextId.toNat = s.calls.countP Call.hasId
  below  : ∀ c k, s.HasId c k → k.toNat < s.requests.nextId.toNat
  unique : ∀ c c' k, s.HasId c k → s.HasId c' k → c = c'

theorem insert_id_of_fresh {requests : RequestMap} {expected : List UInt8} (hs : s.Linked) (hf : s.Fresh)
    (hi : s.requests.insert s.isClosed c expected = some (k, requests)) :
    k = s.requests.nextId ∧ requests.nextId = s.requests.nextId + 1 := by
  obtain ⟨hscan, rfl⟩ := RequestMap.insert_eq_some_iff.1 hi
  have hfree : s.requests.nextId ∉ (s.requests.retain s.isClosed).items := by
    intro hmem
    obtain ⟨r, hl⟩ := Option.isSome_iff_exists.1 (AList.lookup_isSome.2 hmem)
    obtain ⟨call, stage, hc, hp, -⟩ := hs _ r (RequestMap.lookup_retain_eq_some_iff.1 hl).1
    exact absurd (hf.below _ _ ⟨call, stage, hc, hp⟩) (Nat.lt_irrefl _)
  rw [RequestMap.scan_of_notMem (by decide) hfree] at hscan
  cases hscan
  exact ⟨rfl, rfl⟩

theorem Correlator.Fresh.step (hs : s.Linked) (hf : s.Fresh) (h : Effect s a s') (hlen : s'.calls.length < 65536) :
    s'.Fresh := by
  by_cases ha : ∃ c, a = .call c .insert
  · obtain ⟨c, rfl⟩ := ha
    have hof : ∀ {c' k'}, s'.HasId c' k' → s.HasId c' k' ∨ c' = c ∧ k' = s.requests.nextId := by
      intro c' k' hk
      rcases h.hasId_of hk with hk | ⟨call, requests, ha, -, hi⟩
      · exact Or.inl hk
      · cases ha
        exact Or.inr ⟨rfl, (insert_id_of_fresh hs hf hi).1⟩
    have hle := List.countP_le_length (p := Call.hasId) (l := s'.calls)
    cases h with
    | outside ha => cases ha
    | @insert _ call k requests hc hp hi =>
      obtain ⟨rfl, hnextId⟩ := insert_id_of_fresh hs hf hi
      have hcount := countP_modify (p := Call.hasId)
        (f := Call.goTo (.registered s.requests.nextId (.sending .admitting))) hc
      have hbefore : call.hasId = false := by simp [Call.hasId, hp]
      have hafter : (call.goTo (.registered s.requests.nextId (.sending .admitting))).hasId = true := rfl
      rw [hbefore, hafter] at hcount
      simp only [modifyCall, Bool.toNat_false, Bool.toNat_true] at hcount hle hlen
      have hcursor := hf.cursor
      have htoNat : requests.nextId.toNat = s.requests.nextId.toNat + 1 := by
        rw [hnextId, UInt16.toNat_add]
        exact Nat.mod_eq_of_lt (show s.requests.nextId.toNat + 1 < 65536 by omega)
      refine ⟨?_, fun c' k' hk => ?_, fun c₁ c₂ k' hk₁ hk₂ => ?_⟩
      · simp only [modifyCall]
        omega
      · rw [show requests.nextId.toNat = s.requests.nextId.toNat + 1 from htoNat]
        rcases hof hk with hk | ⟨-, rfl⟩
        · exact Nat.lt_succ_of_lt (hf.below c' k' hk)
        · exact Nat.lt_succ_self _
      · rcases hof hk₁ with hold₁ | ⟨hc₁, hk'⟩ <;> rcases hof hk₂ with hold₂ | ⟨hc₂, hk'⟩
        · exact hf.unique c₁ c₂ k' hold₁ hold₂
        · subst hk'
          exact absurd (hf.below c₁ _ hold₁) (Nat.lt_irrefl _)
        · subst hk'
          exact absurd (hf.below c₂ _ hold₂) (Nat.lt_irrefl _)
        · rw [hc₁, hc₂]
  · simp only [not_exists] at ha
    obtain ⟨hnextId, hcount⟩ := h.nextId_eq ha
    have hof : ∀ {c k}, s'.HasId c k → s.HasId c k := by
      intro c k hk
      rcases h.hasId_of hk with hk | ⟨_, _, ha', -⟩
      · exact hk
      · exact absurd ha' (ha c)
    refine ⟨by rw [hnextId, hcount, hf.cursor], fun c k hk => ?_, fun c c' k hk hk' => ?_⟩
    · rw [hnextId]
      exact hf.below c k (hof hk)
    · exact hf.unique c c' k (hof hk) (hof hk')

theorem Correlator.Effect.length_calls_le (h : Effect s a s') : s.calls.length ≤ s'.calls.length := by
  by_contra hlt
  obtain ⟨call', hc', -⟩ := h.continues (List.getElem?_eq_getElem (by omega : s'.calls.length < s.calls.length))
  rw [List.getElem?_eq_none le_rfl] at hc'
  cases hc'

theorem fresh_of_runs (h : Runs Link.step (Link.fromParts now factor limits) tr t) (hlen : t.calls.length < 65536) :
    t.toCorrelator.Fresh := by
  induction h with
  | start => exact ⟨rfl, fun c k hk => (by obtain ⟨_, _, hc, -⟩ := hk; cases hc), fun c c' k hk => (by
      obtain ⟨_, _, hc, -⟩ := hk
      cases hc)⟩
  | step hrun hstep ih =>
    have he := step_effect hstep
    exact (ih (Nat.lt_of_le_of_lt he.length_calls_le hlen)).step (linked_of_runs hrun) he hlen

end Dig
