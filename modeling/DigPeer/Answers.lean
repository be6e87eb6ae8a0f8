import DigPeer.Effect
/-!
# Answers — which frame answers which call

Every entry of the map belongs to a call that was given its id and waits for the opcodes it lists (`Linked`).  Since the
step that stored it no frame with that id and one of those opcodes has arrived, or it would not be there; so the frame
that takes it out is the first, and nothing else reaches the call (`history_of_runs`).  Positions are positions in the
history of the run.
-/
namespace Dig

open Correlator Lts

variable {tr : List (Link × Action)} {s s' : Link} {a : Action} {c : CallId} {k : UInt16} {m : DigMessage} {r : Request}
  {i j n : ℕ} {expected : List UInt8} {now : ℕ} {factor : ℚ} {limits : OpcodeRateLimits} {x : Link × Action}

/-! ## Whose an entry is -/

def Correlator.Linked (s : Correlator) : Prop :=
  ∀ k r, s.lookup k = some r → ∃ call stage, s.calls[r.sender]? = some call ∧ call.phase = .registered k stage ∧
    call.expected = r.expected

theorem Correlator.Linked.step {s s' : Correlator} (hs : s.Linked) (h : Effect s a s') : s'.Linked := by
  intro k r' hl'
  have hkeep : ∀ r, s.lookup k = some r → r'.sender = r.sender → r'.expected = r.expected →
      ∃ call stage, s'.calls[r'.sender]? = some call ∧ call.phase = .registered k stage ∧ call.expected = r'.expected := by
    intro r hl hsender hexpected
    obtain ⟨call, stage, hc, hp, he⟩ := hs k r hl
    obtain ⟨call', hc', hcont⟩ := h.continues hc
    obtain ⟨stage', hp'⟩ := hcont.registered k stage hp
    rw [hsender, hexpected, ← he]
    exact ⟨call', stage', hc', hp', hcont.expected⟩
  cases h.entryFrom hl' with
  | kept hl _ => exact hkeep r' hl rfl rfl
  | recorded hf hid hl hd hr => exact hkeep _ hl (by rw [hr]) (by rw [hr])
  | issued ha hc hp hi hc' hr =>
    subst hr
    exact ⟨_, _, hc', rfl, rfl⟩

theorem linked_of_runs (h : Runs Link.step (Link.fromParts now factor limits) tr s) : s.toCorrelator.Linked :=
  h.invariant (P := fun s => s.toCorrelator.Linked) (fun k r hl => by cases hl)
    fun _ _ _ hs hstep => hs.step (step_effect hstep)

/-! ## Positions in a history -/

def IssuedAt (tr : List (Link × Action)) (i : ℕ) (c : CallId) (k : UInt16) : Prop :=
  ∃ s call requests, tr[i]? = some (s, .call c .insert) ∧ s.calls[c]? = some call ∧
    s.requests.insert s.isClosed c call.expected = some (k, requests)

def FrameAt (tr : List (Link × Action)) (n : ℕ) (m : DigMessage) : Prop :=
  ∃ s a, tr[n]? = some (s, a) ∧ a.frame? = some m

def NoneBetween (tr : List (Link × Action)) (i j : ℕ) (k : UInt16) (expected : List UInt8) : Prop :=
  ∀ n m, i < n → n < j → FrameAt tr n m → m.id = some k → m.msgType ∉ expected

/-- The frame `m` at `j` answers the call `c`: it is the first one since the call was given its id that has the id and
an opcode the call declared, and the entry it found is the call's. -/
structure AnswersAt (tr : List (Link × Action)) (j : ℕ) (c : CallId) (k : UInt16) (expected : List UInt8)
    (m : DigMessage) : Prop where
  id       : m.id = some k
  declared : m.msgType ∈ expected
  found    : ∃ s a r, tr[j]? = some (s, a) ∧ a.frame? = some m ∧ s.lookup k = some r ∧ r.sender = c
  first    : ∃ i < j, IssuedAt tr i c k ∧ NoneBetween tr i j k expected

theorem getElem?_concat_of (h : tr[i]? = some (s, a)) : (tr ++ [x])[i]? = some (s, a) :=
  getElem?_concat_eq_some.2 (Or.inl h)

theorem lt_length_of_getElem? {y : Link × Action} (h : tr[i]? = some y) : i < tr.length :=
  (List.getElem?_eq_some_iff.1 h).1

theorem IssuedAt.concat (h : IssuedAt tr i c k) : IssuedAt (tr ++ [x]) i c k := by
  obtain ⟨s, call, requests, hi, hc, hins⟩ := h
  exact ⟨s, call, requests, getElem?_concat_of hi, hc, hins⟩

theorem IssuedAt.lt_length (h : IssuedAt tr i c k) : i < tr.length := by
  obtain ⟨s, call, requests, hi, -, -⟩ := h
  exact lt_length_of_getElem? hi

theorem frameAt_concat_iff : FrameAt (tr ++ [x]) n m ↔ FrameAt tr n m ∨ n = tr.length ∧ x.2.frame? = some m := by
  constructor
  · rintro ⟨s, a, hn, hf⟩
    rcases getElem?_concat_eq_some.1 hn with hn | ⟨hlast, rfl⟩
    · exact Or.inl ⟨s, a, hn, hf⟩
    · exact Or.inr ⟨hlast, hf⟩
  · rintro (⟨s, a, hn, hf⟩ | ⟨hn, hf⟩)
    · exact ⟨s, a, getElem?_concat_of hn, hf⟩
    · exact ⟨x.1, x.2, getElem?_concat_eq_some.2 (Or.inr ⟨hn, rfl⟩), hf⟩

theorem NoneBetween.concat (h : NoneBetween tr i j k expected) (hj : j ≤ tr.length) :
    NoneBetween (tr ++ [x]) i j k expected := by
  intro n m hin hnj hf hid
  rcases frameAt_concat_iff.1 hf with hf | ⟨hn, _⟩
  · exact h n m hin hnj hf hid
  · omega

theorem NoneBetween.concat_length (h : NoneBetween tr i tr.length k expected)
    (hx : ∀ m, x.2.frame? = some m → m.id = some k → m.msgType ∉ expected) :
    NoneBetween (tr ++ [x]) i (tr ++ [x]).length k expected := by
  intro n m hin hn hf hid
  rcases frameAt_concat_iff.1 hf with hf' | ⟨_, hf'⟩
  · have hlt : n < tr.length := by
      obtain ⟨s, a, hn', _⟩ := hf'
      exact lt_length_of_getElem? hn'
    exact h n m hin hlt hf' hid
  · exact hx m hf' hid

theorem AnswersAt.concat (h : AnswersAt tr j c k expected m) : AnswersAt (tr ++ [x]) j c k expected m := by
  obtain ⟨s, a, r, hj, hf, hl, hs⟩ := h.found
  obtain ⟨i, hij, hi, hnone⟩ := h.first
  exact ⟨h.id, h.declared, ⟨s, a, r, getElem?_concat_of hj, hf, hl, hs⟩, i, hij, hi.concat,
    hnone.concat (Nat.le_of_lt (lt_length_of_getElem? hj))⟩

theorem AnswersAt.unique {c' : CallId} {k' : UInt16} {expected' : List UInt8} {m' : DigMessage}
    (h : AnswersAt tr j c k expected m) (h' : AnswersAt tr j c' k' expected' m') : c = c' := by
  obtain ⟨s, a, r, hj, hf, hl, rfl⟩ := h.found
  obtain ⟨s', a', r', hj', hf', hl', rfl⟩ := h'.found
  rw [hj] at hj'
  cases hj'
  rw [hf] at hf'
  cases hf'
  have hk := h.id.symm.trans h'.id
  cases hk
  rw [hl] at hl'
  cases hl'
  rfl

/-! ## The history of a run -/

structure History (tr : List (Link × Action)) (s : Link) : Prop where
  entries : ∀ k r, s.lookup k = some r → ∃ i, IssuedAt tr i r.sender k ∧ NoneBetween tr i tr.length k r.expected
  answers : ∀ c m, HasAnswer s.toCorrelator c m → ∃ j call k stage, s.calls[c]? = some call ∧
    call.phase = .registered k stage ∧ AnswersAt tr j c k call.expected m

theorem History.step (hs : s.toCorrelator.Linked) (hh : History tr s) (h : s.step a = some s') :
    History (tr ++ [(s, a)]) s' := by
  have he := step_effect h
  constructor
  · intro k r' hl'
    cases he.entryFrom hl' with
    | kept hl hf =>
      obtain ⟨i, hi, hnone⟩ := hh.entries k r' hl
      exact ⟨i, hi.concat, hnone.concat_length fun m hm hid => absurd hid (hf m hm)⟩
    | @recorded m r hf hid hl hd hr =>
      subst hr
      obtain ⟨i, hi, hnone⟩ := hh.entries k r hl
      refine ⟨i, hi.concat, hnone.concat_length fun m' hm' _ => ?_⟩
      rw [hf] at hm'
      cases hm'
      exact hd
    | @issued c call requests ha hc hp hi hc' hr =>
      subst hr ha
      refine ⟨tr.length, ⟨s, call, requests, getElem?_concat_eq_some.2 (Or.inr ⟨rfl, rfl⟩), hc, hi⟩, ?_⟩
      intro n m hn hn' _ _
      rw [List.length_append, List.length_singleton] at hn'
      omega
  · intro c m hm
    rcases he.hasAnswer hm with hm | ⟨k, r, hf, hid, hl, rfl, hd⟩
    · obtain ⟨j, call, k, stage, hc, hp, hans⟩ := hh.answers c m hm
      obtain ⟨call', hc', hcont⟩ := he.continues hc
      obtain ⟨stage', hp'⟩ := hcont.registered k stage hp
      exact ⟨j, call', k, stage', hc', hp', by rw [hcont.expected]; exact hans.concat⟩
    · obtain ⟨i, hi, hnone⟩ := hh.entries k r hl
      obtain ⟨call, stage, hc, hp, hexp⟩ := hs k r hl
      obtain ⟨call', hc', hcont⟩ := he.continues hc
      obtain ⟨stage', hp'⟩ := hcont.registered k stage hp
      refine ⟨tr.length, call', k, stage', hc', hp', ?_⟩
      rw [hcont.expected, hexp]
      exact ⟨hid, hd, ⟨s, a, r, getElem?_concat_eq_some.2 (Or.inr ⟨rfl, rfl⟩), hf, hl, rfl⟩, i, hi.lt_length,
        hi.concat, hnone.concat (Nat.le_refl _)⟩

theorem history_of_runs (h : Runs Link.step (Link.fromParts now factor limits) tr s) : History tr s := by
  induction h with
  | start =>
    refine ⟨fun k r hl => (by cases hl), ?_⟩
    rintro c m (⟨waiter, hr, _⟩ | ⟨call, hc, _⟩)
    · cases hr
    · cases hc
  | step hrun hstep ih => exact ih.step (linked_of_runs hrun) hstep

/-! ## What a call returns -/

def Correlator.Returned (s : Correlator) (c : CallId) (k : UInt16) (expected : List UInt8)
    (result : Except LinkError DigMessage) : Prop :=
  ∃ call : Call, s.calls[c]? = some call ∧ call.expected = expected ∧ call.phase = .registered k (.returned result)

theorem Correlator.Returned.unique {s : Correlator} {k' : UInt16} {expected' : List UInt8}
    {result result' : Except LinkError DigMessage} (h : s.Returned c k expected result)
    (h' : s.Returned c k' expected' result') : k = k' ∧ expected = expected' ∧ result = result' := by
  obtain ⟨call, hc, rfl, hp⟩ := h
  obtain ⟨call', hc', rfl, hp'⟩ := h'
  rw [hc] at hc'
  cases hc'
  rw [hp] at hp'
  cases hp'
  exact ⟨rfl, rfl, rfl⟩

theorem requestInfallible_eq {T : Type} (fromBytes : Bytes → Except LinkError T) {opcode : UInt8}
    {outcome : Except LinkError DigMessage} (h : ∀ m, outcome = .ok m → m.msgType = opcode) :
    requestInfallible fromBytes opcode outcome = outcome >>= fun m => fromBytes m.data := by
  cases outcome with
  | error e => rfl
  | ok m =>
    have hm := h m rfl
    subst hm
    unfold requestInfallible
    show (if m.msgType ≠ m.msgType then _ else _) = _
    rw [if_neg (not_not.2 rfl)]
    rfl

theorem requestFallible_eq {T E : Type} (acceptance : Bytes → Except LinkError T)
    (rejection : Bytes → Except LinkError E) {accepted rejected : UInt8} {outcome : Except LinkError DigMessage}
    (h : ∀ m, outcome = .ok m → m.msgType = accepted ∨ m.msgType = rejected) :
    requestFallible acceptance rejection accepted rejected outcome = outcome >>= fun m =>
      if m.msgType = accepted then .ok <$> acceptance m.data else .error <$> rejection m.data := by
  cases outcome with
  | error e => rfl
  | ok m =>
    unfold requestFallible
    show (if m.msgType = accepted then _ else _) = if m.msgType = accepted then _ else _
    by_cases ha : m.msgType = accepted
    · rw [if_pos ha, if_pos ha]
      cases acceptance m.data <;> rfl
    · rw [if_neg ha, if_neg ha, if_pos ((h m rfl).resolve_left ha)]
      cases rejection m.data <;> rfl

/-- **What the calls of a run return.**  Each message returned is, field for field, the first frame routed since the
call's insert that has the id it was given and an opcode it declared; no frame is returned to two calls; and the typed
requests built on the call never come to refuse an opcode themselves. -/
structure Answered (tr : List (Link × Action)) (s : Link) : Prop where
  frames : ∃ frameOf : CallId → ℕ,
    (∀ c k expected m, s.Returned c k expected (.ok m) →
      m.id = some k ∧ m.msgType ∈ expected ∧ FrameAt tr (frameOf c) m ∧
        ∃ i < frameOf c, IssuedAt tr i c k ∧ NoneBetween tr i (frameOf c) k expected) ∧
    (∀ c c' k k' expected expected' m m', s.Returned c k expected (.ok m) → s.Returned c' k' expected' (.ok m') →
      frameOf c = frameOf c' → c = c')
  infallible : ∀ c k opcode result, s.Returned c k [opcode] result →
    ∀ (T : Type) (fromBytes : Bytes → Except LinkError T),
      requestInfallible fromBytes opcode result = result >>= fun m => fromBytes m.data
  fallible : ∀ c k accepted rejected result, s.Returned c k [accepted, rejected] result →
    ∀ (T E : Type) (acceptance : Bytes → Except LinkError T) (rejection : Bytes → Except LinkError E),
      requestFallible acceptance rejection accepted rejected result = result >>= fun m =>
        if m.msgType = accepted then .ok <$> acceptance m.data else .error <$> rejection m.data

theorem History.answersAt (hh : History tr s) (h : s.Returned c k expected (.ok m)) :
    ∃ j, AnswersAt tr j c k expected m := by
  obtain ⟨call, hc, rfl, hp⟩ := h
  obtain ⟨j, call', k', stage, hc', hp', hans⟩ := hh.answers c m (Or.inr ⟨call, hc, Or.inr ⟨k, hp⟩⟩)
  rw [hc] at hc'
  cases hc'
  rw [hp] at hp'
  cases hp'
  exact ⟨j, hans⟩

theorem History.exists_frameOf (hh : History tr s) (c : CallId) :
    ∃ j, ∀ k expected m, s.Returned c k expected (.ok m) → AnswersAt tr j c k expected m := by
  by_cases hret : ∃ k expected m, s.Returned c k expected (.ok m)
  · obtain ⟨k, expected, m, hret⟩ := hret
    obtain ⟨j, hans⟩ := hh.answersAt hret
    refine ⟨j, fun k' expected' m' hret' => ?_⟩
    obtain ⟨rfl, rfl, he⟩ := hret.unique hret'
    cases he
    exact hans
  · exact ⟨0, fun k expected m h => absurd ⟨k, expected, m, h⟩ hret⟩

theorem answered_of_runs (h : Runs Link.step (Link.fromParts now factor limits) tr s) : Answered tr s := by
  have hh := history_of_runs h
  choose frameOf hframeOf using hh.exists_frameOf
  have hdeclared : ∀ c k expected m, s.Returned c k expected (.ok m) → m.msgType ∈ expected :=
    fun c k expected m hret => (hframeOf c k expected m hret).declared
  refine ⟨⟨frameOf, fun c k expected m hret => ?_, fun c c' k k' expected expected' m m' hret hret' he => ?_⟩, ?_, ?_⟩
  · have hans := hframeOf c k expected m hret
    obtain ⟨s, a, r, hj, hf, -, -⟩ := hans.found
    exact ⟨hans.id, hans.declared, ⟨s, a, hj, hf⟩, hans.first⟩
  · have hans := hframeOf c k expected m hret
    rw [he] at hans
    exact hans.unique (hframeOf c' k' expected' m' hret')
  · intro c k opcode result hret T fromBytes
    refine requestInfallible_eq fromBytes fun m hm => ?_
    subst hm
    exact List.mem_singleton.1 (hdeclared c k _ m hret)
  · intro c k accepted rejected result hret T E acceptance rejection
    refine requestFallible_eq acceptance rejection fun m hm => ?_
    subst hm
    simpa using hdeclared c k _ m hret

/-! ## A call that is answered -/

def defaultOnly : OpcodeRateLimits where
  defaultSettings   := ⟨100, 1048576, some 104857600⟩
  nonTxFrequency    := 1000
  nonTxMaxTotalSize := 104857600
  tx                := ∅
  other             := ∅

def droppedCall (k : UInt16) : Call := ⟨220, [], [221], ⟨none, false, true⟩, .registered k .dropped⟩

/-- A request of opcode 220, while the peer sends a request of its own with the same id, and then the answer. -/
def collisionThenAnswer : List Action :=
  [.request 220 [5] [221], .call 0 .acquire, .call 0 .insert, .call 0 (.send (.attempt 0)),
    .call 0 (.send .lock), .call 0 (.send (.feed true)), .call 0 (.send (.flush true)),
    .inbound (.binary (DigMessage.toBytes ⟨230, some 0, []⟩)), .deliver,
    .inbound (.binary (DigMessage.toBytes ⟨221, some 0, [7]⟩)), .handoff, .release, .call 0 .receive]

theorem answered_collisionThenAnswer : ∃ tr s, Runs Link.step (Link.fromParts 0 1 defaultOnly) tr s ∧
    s.Returned 0 0 [221] (.ok ⟨221, some 0, [7]⟩) ∧ Answered tr s := by
  have hcall : (run Link.step (Link.fromParts 0 1 defaultOnly) collisionThenAnswer).map (fun s => s.calls[0]?) =
      some (some ⟨220, [5], [221], ⟨some ⟨221, some 0, [7]⟩, true, true⟩,
        .registered 0 (.returned (.ok ⟨221, some 0, [7]⟩))⟩) := by decide +kernel
  obtain ⟨t, hrun, hcall⟩ := exists_runs hcall
  exact ⟨_, t, hrun, ⟨_, hcall, rfl, rfl⟩, answered_of_runs hrun⟩

end Dig
