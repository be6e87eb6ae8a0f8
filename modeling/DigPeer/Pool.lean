import DigPeer.Effect
import Mathlib.Data.Finset.Card
/-!
# Pool — the request map by itself, under any interleaving of its callers

The callers of a `RequestMap` are here only what they hold: a permit between `acquire` and `insert`, or a `Request`
that `take` or `cancel` gave them, until they drop it.  A step is one operation of one of them, in any order, and which
receivers an `insert` finds closed is any set at all.  A link's request map runs like this (`pool_of_link_runs`).

No step makes a permit or loses one (`permits_step`), so an `insert` that runs finds a map with an id to spare and
its scan stops (`insert_finds_id`).
-/
namespace Dig

open Lts

/-! ## The scan -/

namespace RequestMap

variable {items : AList fun _ : UInt16 => Request} {fuel : ℕ} {start id : UInt16}

theorem add_ofNat_succ (start : UInt16) (i : ℕ) : start + 1 + UInt16.ofNat i = start + UInt16.ofNat (i + 1) := by
  rw [UInt16.ofNat_add, UInt16.add_assoc, UInt16.add_comm 1]
  rfl

/-- **A scan goes on as long as the ids it meets are taken.** -/
theorem scan_eq_none_iff : ∀ {fuel : ℕ} {start : UInt16},
    scan items fuel start = none ↔ ∀ i < fuel, start + UInt16.ofNat i ∈ items
  | 0, start        => ⟨fun _ i hi => absurd hi (Nat.not_lt_zero i), fun _ => rfl⟩
  | fuel + 1, start => by
    have hzero : start + UInt16.ofNat 0 = start := UInt16.add_zero start
    rw [scan]
    by_cases h : start ∈ items
    · rw [if_pos h, scan_eq_none_iff]
      constructor
      · intro hnext i hi
        cases i with
        | zero => rw [hzero]; exact h
        | succ i => rw [← add_ofNat_succ]; exact hnext i (by omega)
      · intro hall i hi
        rw [add_ofNat_succ]
        exact hall (i + 1) (by omega)
    · rw [if_neg h]
      exact ⟨fun hs => (by cases hs), fun hall => absurd (by rw [← hzero]; exact hall 0 (Nat.succ_pos fuel)) h⟩

theorem scan_of_le {fuel' : ℕ} (hle : fuel ≤ fuel') (h : scan items fuel start = some id) :
    scan items fuel' start = some id := by
  induction fuel generalizing fuel' start with
  | zero => cases h
  | succ fuel ih =>
    cases fuel' with
    | zero => omega
    | succ fuel' =>
      rw [scan] at h ⊢
      by_cases hmem : start ∈ items
      · rw [if_pos hmem] at h ⊢
        exact ih (by omega) h
      · rw [if_neg hmem] at h ⊢
        exact h

theorem ofNat_inj {i j : ℕ} (hi : i < 2 ^ 16) (hj : j < 2 ^ 16) (h : UInt16.ofNat i = UInt16.ofNat j) : i = j := by
  rw [← UInt16.toNat_ofNat_of_lt' hi, ← UInt16.toNat_ofNat_of_lt' hj, h]

/-- **A scan over more ids than there are entries meets a free one.** -/
theorem exists_scan (hsize : items.size < fuel) (hfuel : fuel ≤ 2 ^ 16) (start : UInt16) :
    ∃ id, scan items fuel start = some id := by
  rw [← Option.isSome_iff_exists, Option.isSome_iff_ne_none]
  intro hnone
  rw [scan_eq_none_iff] at hnone
  have hcard : (Finset.range fuel).card ≤ items.keyset.card := by
    refine Finset.card_le_card_of_injOn (fun i => start + UInt16.ofNat i) (fun i hi => ?_) fun i hi j hj hij => ?_
    · rw [Finset.mem_coe, AList.mem_keyset_iff]
      exact hnone i (by simpa using hi)
    · have hi' : i < 2 ^ 16 := lt_of_lt_of_le (by simpa using hi) hfuel
      have hj' : j < 2 ^ 16 := lt_of_lt_of_le (by simpa using hj) hfuel
      exact ofNat_inj hi' hj' ((UInt16.add_right_inj start).1 hij)
  rw [Finset.card_range, AList.card_keyset] at hcard
  omega

theorem insert_capacity_add_size {rm rm' : RequestMap} {isClosed : CallId → Bool} {c : CallId} {expected : List UInt8}
    (h : rm.insert isClosed c expected = some (id, rm')) :
    rm'.capacity + rm'.items.size = rm.capacity + rm.items.size + 1 := by
  obtain ⟨hscan, rfl⟩ := insert_eq_some_iff.1 h
  have hretain := retain_capacity_add_size rm isClosed
  have hsize := AList.size_insert_of_notMem (b := (⟨c, expected, none⟩ : Request)) (scan_notMem _ _ hscan)
  simp only [hsize]
  omega

theorem size_cancel (rm : RequestMap) (k : UInt16) :
    (rm.cancel k).2.items.size + (rm.items.lookup k).isSome.toNat = rm.items.size := by
  by_cases h : k ∈ rm.items
  · rw [AList.lookup_isSome.2 h]
    exact AList.size_erase_of_mem h
  · rw [AList.lookup_eq_none.2 h]
    exact AList.size_erase_of_notMem h

end RequestMap

/-! ## The map and its callers -/

/-- A request map, the callers that hold a permit and have not stored their request, and the requests that have been
taken out and not dropped. -/
structure Pool where
  requests  : RequestMap
  inserting : ℕ
  taken     : ℕ

inductive PoolAction where
  | acquire
  | withdraw
  | insert (isClosed : CallId → Bool) (sender : CallId) (expected : List UInt8)
  | take (id : UInt16) (msgType : UInt8)
  | cancel (id : UInt16)
  | drop

namespace Pool

def new : Pool where
  requests  := .new
  inserting := 0
  taken     := 0

def step (p : Pool) : PoolAction → Option Pool
  | .acquire => p.requests.acquire.map fun requests => { p with requests, inserting := p.inserting + 1 }
  | .withdraw =>
    if 0 < p.inserting then some { p with requests := p.requests.release, inserting := p.inserting - 1 } else none
  | .insert isClosed sender expected =>
    if 0 < p.inserting then
      (p.requests.insert isClosed sender expected).map fun r => { p with requests := r.2, inserting := p.inserting - 1 }
    else none
  | .take id msgType =>
    match p.requests.take id msgType with
    | (.answer _, requests)  => some { p with requests, taken := p.taken + 1 }
    | (.undeclared, requests) | (.unknown, requests) => some { p with requests }
  | .cancel id =>
    let (request, requests) := p.requests.cancel id
    some { p with requests, taken := p.taken + request.isSome.toNat }
  | .drop => if 0 < p.taken then some { p with requests := p.requests.release, taken := p.taken - 1 } else none

def permits (p : Pool) : ℕ := p.requests.capacity + p.requests.items.size + p.inserting + p.taken

variable {p p' : Pool} {a : PoolAction} {tr : List (Pool × PoolAction)} {isClosed : CallId → Bool} {sender : CallId}
  {expected : List UInt8}

theorem step_insert_eq_some_iff : p.step (.insert isClosed sender expected) = some p' ↔
    0 < p.inserting ∧ ∃ id requests, p.requests.insert isClosed sender expected = some (id, requests) ∧
      p' = { p with requests, inserting := p.inserting - 1 } := by
  rw [step, Option.ite_none_right_eq_some, Option.map_eq_some_iff, Prod.exists]
  exact and_congr_right fun _ => exists_congr fun id => exists_congr fun requests => and_congr_right fun _ => eq_comm

/-- **No step makes a permit or loses one.** -/
theorem permits_step (h : p.step a = some p') : p'.permits = p.permits := by
  cases a with
  | acquire =>
    obtain ⟨requests, ha, rfl⟩ := Option.map_eq_some_iff.1 h
    obtain ⟨hpos, rfl⟩ := RequestMap.acquire_eq_some_iff.1 ha
    simp only [permits]
    omega
  | withdraw =>
    obtain ⟨hpos, hp⟩ := Option.ite_none_right_eq_some.1 h
    cases hp
    simp only [permits, RequestMap.release_capacity, RequestMap.release_items]
    omega
  | insert isClosed sender expected =>
    obtain ⟨hpos, id, requests, hi, rfl⟩ := step_insert_eq_some_iff.1 h
    have hsum := RequestMap.insert_capacity_add_size hi
    simp only [permits]
    omega
  | take id msgType =>
    cases hl : p.requests.items.lookup id with
    | none =>
      simp only [step, RequestMap.take_of_none hl] at h
      cases h
      rfl
    | some r =>
      by_cases hd : msgType ∈ r.expected
      · simp only [step, RequestMap.take_of_mem hl hd] at h
        cases h
        have hsize := AList.size_erase_of_mem (AList.mem_of_lookup hl)
        simp only [permits]
        omega
      · simp only [step, RequestMap.take_of_notMem hl hd] at h
        cases h
        simp only [permits, AList.size_insert_of_mem (AList.mem_of_lookup hl)]
  | cancel id =>
    cases h
    have hsize := p.requests.size_cancel id
    simp only [permits, RequestMap.cancel] at hsize ⊢
    omega
  | drop =>
    obtain ⟨hpos, hp⟩ := Option.ite_none_right_eq_some.1 h
    cases hp
    simp only [permits, RequestMap.release_capacity, RequestMap.release_items]
    omega

theorem permits_of_runs (h : Runs step new tr p) : p.permits = 65535 :=
  h.invariant (P := fun p => p.permits = 65535) rfl fun _ _ _ hp hs => (permits_step hs).trans hp

/-- **An `insert` that has a permit stops, at an id that is free**: the permit it holds is one that no entry has. -/
theorem insert_finds_id (hp : p.permits = 65535) (hpos : 0 < p.inserting) (isClosed : CallId → Bool) (sender : CallId)
    (expected : List UInt8) :
    let rm := p.requests.retain isClosed
    rm.items.size ≤ 65534 ∧ ∃ id rm', RequestMap.scan rm.items 65535 rm.nextId = some id ∧
      p.requests.insert isClosed sender expected = some (id, rm') ∧ id ∉ rm.items ∧
      ∀ k r, rm.items.lookup k = some r → rm'.items.lookup k = some r := by
  intro rm
  have hretain : rm.capacity + rm.items.size = p.requests.capacity + p.requests.items.size :=
    RequestMap.retain_capacity_add_size p.requests isClosed
  have hsize : rm.items.size ≤ 65534 := by
    unfold permits at hp
    omega
  obtain ⟨id, hid⟩ := RequestMap.exists_scan (Nat.lt_succ_of_le hsize) (by decide) rm.nextId
  have hfree := RequestMap.scan_notMem _ _ hid
  refine ⟨hsize, id, _, hid, RequestMap.insert_eq_some_iff.2 ⟨RequestMap.scan_of_le (by decide) hid, rfl⟩, hfree, ?_⟩
  intro k r hl
  rw [AList.lookup_insert_eq, if_neg]
  · exact hl
  · rintro rfl
    exact hfree (AList.mem_of_lookup hl)

/-- **Permits are conserved, ids are unique and the scan stops**, under any interleaving of the map's callers. -/
theorem permits_conserved (h : Runs step new tr p) :
    p.requests.capacity + p.requests.items.size + p.inserting + p.taken = 65535 ∧
    p.requests.items.keys.Nodup ∧
    (0 < p.inserting → ∀ isClosed sender expected,
      let rm := p.requests.retain isClosed
      rm.items.size ≤ 65534 ∧ ∃ id rm', RequestMap.scan rm.items 65535 rm.nextId = some id ∧
        p.requests.insert isClosed sender expected = some (id, rm') ∧ id ∉ rm.items ∧
        ∀ k r, rm.items.lookup k = some r → rm'.items.lookup k = some r) :=
  ⟨permits_of_runs h, p.requests.items.keys_nodup, insert_finds_id (permits_of_runs h)⟩

theorem permits_conserved_answered : ∃ tr p, Runs step new tr p ∧ 0 < p.inserting ∧
    p.requests.capacity + p.requests.items.size + p.inserting + p.taken = 65535 := by
  have hrun : (run step new [.acquire, .acquire, .insert (fun _ => false) 0 [221], .take 0 221]).isSome = true := by
    decide +kernel
  exact ⟨_, _, runs_reach hrun, by decide +kernel, (permits_conserved (runs_reach hrun)).1⟩

end Pool

/-! ## The map of a link -/

def Call.holdsPermit (call : Call) : Bool :=
  match call.phase with
  | .inserting | .registered _ (.reclaimed (some _) _) => true
  | _ => false

def Reader.holdsPermit : Reader → Bool
  | .answering _ _ | .releasing => true
  | _ => false

def Call.isInserting (call : Call) : Bool :=
  match call.phase with
  | .inserting => true
  | _ => false

def Call.hasReclaimed (call : Call) : Bool :=
  match call.phase with
  | .registered _ (.reclaimed (some _) _) => true
  | _ => false

theorem Call.holdsPermit_eq (call : Call) :
    call.holdsPermit.toNat = call.isInserting.toNat + call.hasReclaimed.toNat := by
  unfold holdsPermit isInserting hasReclaimed
  cases call.phase with
  | acquiring | inserting | withdrawn => rfl
  | registered id stage =>
    cases stage with
    | reclaimed request error => cases request <;> rfl
    | sending | cancelling | waiting | expired | returned | dropped => rfl

/-- A link's request map, with what its calls and its reader hold. -/
def Correlator.pool (s : Correlator) : Pool where
  requests  := s.requests
  inserting := s.calls.countP Call.isInserting
  taken     := s.calls.countP Call.hasReclaimed + s.reader.holdsPermit.toNat

open Correlator

variable {s s' : Correlator} {a : Action} {c : CallId} {call : Call}

theorem pool_modifyCall {f : Call → Call} {requests : RequestMap} {i t : ℕ} (hc : s.calls[c]? = some call)
    (hi : i + call.isInserting.toNat = s.pool.inserting + (f call).isInserting.toNat)
    (ht : t + call.hasReclaimed.toNat = s.pool.taken + (f call).hasReclaimed.toNat) :
    ({ s.modifyCall c f with requests } : Correlator).pool = ⟨requests, i, t⟩ := by
  have hinserting := countP_modify (p := Call.isInserting) (f := f) hc
  have htaken := countP_modify (p := Call.hasReclaimed) (f := f) hc
  simp only [pool, modifyCall, Pool.mk.injEq, true_and] at hi ht ⊢
  omega

theorem pool_modifyCall_of_not {f : Call → Call} {requests : RequestMap} (hc : s.calls[c]? = some call)
    (h : call.holdsPermit = false) (hf : (f call).holdsPermit = false) :
    ({ s.modifyCall c f with requests } : Correlator).pool = { s.pool with requests } := by
  have hkinds : ∀ call : Call, call.holdsPermit = false → call.isInserting = false ∧ call.hasReclaimed = false := by
    intro call h
    have hsum := call.holdsPermit_eq
    rw [h] at hsum
    cases hi : call.isInserting <;> cases hr : call.hasReclaimed <;> simp_all
  apply pool_modifyCall hc
  · rw [(hkinds _ h).1, (hkinds _ hf).1]
  · rw [(hkinds _ h).2, (hkinds _ hf).2]

theorem pool_dropRequest (r : Request) :
    (s.dropRequest (some r)).pool = { s.pool with requests := s.requests.release } := by
  have h1 := countP_modify_eq (p := Call.isInserting) (f := Call.dropSender) (l := s.calls) (i := r.sender) fun _ _ => rfl
  have h2 := countP_modify_eq (p := Call.hasReclaimed) (f := Call.dropSender) (l := s.calls) (i := r.sender) fun _ _ => rfl
  simp [Correlator.pool, dropRequest, h1, h2]

/-- **A step of a link is a step of its pool, or none.** -/
theorem Correlator.Effect.pool (h : Effect s a s') : s'.pool = s.pool ∨ ∃ b, s.pool.step b = some s'.pool := by
  cases h with
  | outside => exact Or.inl rfl
  | request => exact Or.inl (by simp [Correlator.pool, Call.new, Call.isInserting, Call.hasReclaimed])
  | acquire hc hp hcapacity =>
    refine Or.inr ⟨.acquire, ?_⟩
    rw [pool_modifyCall (i := s.pool.inserting + 1) (t := s.pool.taken) hc (by simp [Call.isInserting, Call.goTo, hp])
      (by simp [Call.hasReclaimed, Call.goTo, hp])]
    exact congrArg (Option.map _) (RequestMap.acquire_eq_some_iff.2 ⟨hcapacity, rfl⟩)
  | @insert c call id requests hc hp hi =>
    have hpos : 0 < s.pool.inserting :=
      List.countP_pos_iff.2 ⟨call, List.mem_of_getElem? hc, by simp [Call.isInserting, hp]⟩
    refine Or.inr ⟨.insert s.isClosed c call.expected, ?_⟩
    rw [pool_modifyCall (i := s.pool.inserting - 1) (t := s.pool.taken) hc
      (by simp [Call.isInserting, Call.goTo, hp]; omega) (by simp [Call.hasReclaimed, Call.goTo, hp])]
    exact Pool.step_insert_eq_some_iff.2 ⟨hpos, id, requests, hi, rfl⟩
  | @send c call id phase e o o' progress hc hp =>
    left
    exact pool_modifyCall_of_not hc (by simp [Call.holdsPermit, hp])
      (by cases progress <;> simp [Call.holdsPermit, Call.goTo, Stage.ofProgress])
  | receive hc hp | expire hc hp | withdraw hc hp =>
    left
    exact pool_modifyCall_of_not hc (by simp [Call.holdsPermit, hp]) (by simp [Call.holdsPermit, Call.goTo])
  | @abandon c call id stage hc hp hs =>
    left
    exact pool_modifyCall_of_not hc (by cases stage <;> simp_all [Call.holdsPermit, Stage.CanAbandon])
      (by simp [Call.holdsPermit, Call.goTo])
  | @withdrawPermit c call hc hp =>
    have hpos : 0 < s.pool.inserting :=
      List.countP_pos_iff.2 ⟨call, List.mem_of_getElem? hc, by simp [Call.isInserting, hp]⟩
    refine Or.inr ⟨.withdraw, ?_⟩
    rw [pool_modifyCall (i := s.pool.inserting - 1) (t := s.pool.taken) hc
      (by simp [Call.isInserting, Call.goTo, hp]; omega) (by simp [Call.hasReclaimed, Call.goTo, hp])]
    exact if_pos hpos
  | @cancel c call id stage error hc hp hs =>
    refine Or.inr ⟨.cancel id, ?_⟩
    rw [pool_modifyCall (i := s.pool.inserting) (t := s.pool.taken + (s.lookup id).isSome.toNat) hc
      (by simp [Call.isInserting, Call.goTo, hp]) ?_]
    · rfl
    · rcases hs with rfl | ⟨rfl, -⟩ <;> cases hl : s.lookup id <;> simp [Call.hasReclaimed, Call.goTo, hp]
  | @finish c call id request error hc hp =>
    obtain ⟨call', hc', hp', -⟩ := exists_dropRequest request hc
    rw [hp] at hp'
    cases request with
    | none =>
      left
      exact pool_modifyCall_of_not hc (by simp [Call.holdsPermit, hp]) (by simp [Call.holdsPermit, Call.goTo])
    | some r =>
      have hdrop := pool_dropRequest (s := s) r
      have hpos : 0 < s.pool.taken := Nat.add_pos_left
        (List.countP_pos_iff.2 ⟨call, List.mem_of_getElem? hc, by simp [Call.hasReclaimed, hp]⟩) _
      refine Or.inr ⟨.drop, ?_⟩
      rw [pool_modifyCall (s := s.dropRequest (some r)) (i := s.pool.inserting) (t := s.pool.taken - 1) hc'
        (by rw [hdrop]; simp [Call.isInserting, Call.goTo, Call.dropReceiver, hp'])
        (by rw [hdrop]; simp [Call.hasReclaimed, Call.goTo, Call.dropReceiver, hp']; omega)]
      exact if_pos hpos
  | skip hr hf hn =>
    left
    rcases hn with rfl | rfl <;> simp [Correlator.pool, Reader.holdsPermit, hr]
  | pass hr => exact Or.inl (by simp [Correlator.pool, Reader.holdsPermit, hr])
  | @collide item m id r hr hf hid hl hd =>
    refine Or.inr ⟨.take id m.msgType, ?_⟩
    simp only [Pool.step, Correlator.pool, RequestMap.take_of_notMem hl hd]
    simp [Reader.holdsPermit, hr]
  | @answer item m id r hr hf hid hl hd =>
    refine Or.inr ⟨.take id m.msgType, ?_⟩
    simp only [Pool.step, Correlator.pool, RequestMap.take_of_mem hl hd]
    simp [Reader.holdsPermit, hr]
  | @handoff waiter m hr =>
    left
    have h1 := countP_modify_eq (p := Call.isInserting) (l := s.calls) (i := waiter.sender)
      (f := fun call => { call with channel := call.channel.send m }) fun _ _ => rfl
    have h2 := countP_modify_eq (p := Call.hasReclaimed) (l := s.calls) (i := waiter.sender)
      (f := fun call => { call with channel := call.channel.send m }) fun _ _ => rfl
    simp [Correlator.pool, Reader.holdsPermit, hr, h1, h2]
  | release hr =>
    refine Or.inr ⟨.drop, ?_⟩
    simp [Pool.step, Correlator.pool, Reader.holdsPermit, hr]
  | deliver hr => exact Or.inl (by simp [Correlator.pool, Reader.holdsPermit, hr])

/-- **A link's request map runs as a pool does.** -/
theorem pool_of_link_runs {t : Link} {now : ℕ} {factor : ℚ} {limits : OpcodeRateLimits} {tr : List (Link × Action)}
    (h : Runs Link.step (Link.fromParts now factor limits) tr t) :
    ∃ tr', Runs Pool.step Pool.new tr' t.toCorrelator.pool :=
  h.project (f := fun t => t.toCorrelator.pool) fun _ _ _ hs => (step_effect hs).pool

end Dig
