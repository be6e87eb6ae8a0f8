import DigPeer.Pool
/-!
# Reissue — when an id comes back

The cursor only moves forward, past the ids a scan finds taken and the one it returns, so it comes back to an id after
it has passed all others.  `gap` is how far an id lies ahead of the cursor.  Between two inserts that return the same id
every other id has been returned or found taken, unless it is still ahead of the cursor and nearer than that id
(`passed_of_runs`).
-/
namespace Dig

open Lts

/-- How far an id lies ahead of a cursor that wraps. -/
def gap (cursor id : UInt16) : ℕ := (id - cursor).toNat

theorem gap_self (id : UInt16) : gap id id = 0 := by
  unfold gap
  rw [UInt16.sub_self]
  rfl

theorem gap_succ {cursor id : UInt16} (h : id ≠ cursor) : gap (cursor + 1) id + 1 = gap cursor id := by
  have hne : id.toNat ≠ cursor.toNat := mt UInt16.toNat_inj.1 h
  have hid := id.toNat_lt
  have hcursor := cursor.toNat_lt
  unfold gap
  rw [UInt16.toNat_sub, UInt16.toNat_sub, UInt16.toNat_add, UInt16.toNat_one]
  omega

theorem gap_succ_self (id : UInt16) : gap (id + 1) id = 65535 := by
  have hid := id.toNat_lt
  unfold gap
  rw [UInt16.toNat_sub, UInt16.toNat_add, UInt16.toNat_one]
  omega

def Ahead (cursor k id : UInt16) : Prop := gap cursor id < gap cursor k

variable {cursor k id : UInt16}

theorem not_ahead_self : ¬ Ahead k k id := by
  unfold Ahead
  rw [gap_self]
  exact Nat.not_lt_zero _

theorem ahead_succ_self (h : id ≠ k) : Ahead (k + 1) k id := by
  have hgap := gap_succ h
  have hlt := (id - k).toNat_lt
  unfold Ahead
  rw [gap_succ_self]
  unfold gap at hgap ⊢
  omega

theorem Ahead.succ (h : Ahead cursor k id) (hid : id ≠ cursor) : Ahead (cursor + 1) k id := by
  have hk : k ≠ cursor := by
    rintro rfl
    exact not_ahead_self h
  have h1 := gap_succ hid
  have h2 := gap_succ hk
  unfold Ahead at h ⊢
  omega

/-! ## What a scan passes -/

namespace RequestMap

variable {items : AList fun _ : UInt16 => Request} {fuel : ℕ} {start : UInt16}

def skipped (items : AList fun _ : UInt16 => Request) : ℕ → UInt16 → List UInt16
  | 0, _         => []
  | fuel + 1, id => if id ∈ items then id :: skipped items fuel (id + 1) else []

theorem mem_of_mem_skipped : ∀ {fuel : ℕ} {start : UInt16}, id ∈ skipped items fuel start → id ∈ items
  | 0, _, h            => by cases h
  | fuel + 1, start, h => by
    unfold skipped at h
    by_cases hstart : start ∈ items
    · rw [if_pos hstart, List.mem_cons] at h
      rcases h with rfl | h
      · exact hstart
      · exact mem_of_mem_skipped h
    · rw [if_neg hstart] at h
      cases h

/-- **A scan passes nothing but what it finds taken.** -/
theorem skipped_or_ahead {found : UInt16} : ∀ {fuel : ℕ} {start : UInt16}, scan items fuel start = some found →
    Ahead start k id → id ∈ skipped items fuel start ∨ Ahead found k id
  | 0, _, h, _            => by cases h
  | fuel + 1, start, h, hahead => by
    rw [scan] at h
    rw [skipped]
    by_cases hstart : start ∈ items
    · rw [if_pos hstart] at h
      rw [if_pos hstart, List.mem_cons]
      by_cases hid : id = start
      · exact Or.inl (Or.inl hid)
      · rcases skipped_or_ahead h (hahead.succ hid) with h | h
        · exact Or.inl (Or.inr h)
        · exact Or.inr h
    · rw [if_neg hstart] at h
      cases h
      exact Or.inr hahead

end RequestMap

namespace Pool

def returned? (x : Pool × PoolAction) : Option UInt16 :=
  match x.2 with
  | .insert isClosed sender expected => (x.1.requests.insert isClosed sender expected).map Prod.fst
  | _ => none

def found (x : Pool × PoolAction) : List UInt16 :=
  match x.2 with
  | .insert isClosed _ _ =>
    let rm := x.1.requests.retain isClosed
    RequestMap.skipped rm.items (2 ^ 16) rm.nextId
  | _ => []

variable {p p' s s₁ : Pool} {a : PoolAction} {seg : List (Pool × PoolAction)}

theorem mem_of_mem_retain {rm : RequestMap} {isClosed : CallId → Bool} (h : id ∈ (rm.retain isClosed).items) :
    id ∈ rm.items := by
  obtain ⟨r, hl⟩ := Option.isSome_iff_exists.1 (AList.lookup_isSome.2 h)
  exact AList.mem_of_lookup (RequestMap.lookup_retain_eq_some_iff.1 hl).1

structure Quiet (p : Pool) (a : PoolAction) (p' : Pool) : Prop where
  returned : returned? (p, a) = none
  found    : found (p, a) = []
  nextId   : p'.requests.nextId = p.requests.nextId
  items    : ∀ id ∈ p'.requests.items, id ∈ p.requests.items

/-- An insert that returns `k`: its scan passes what it finds in the map, and leaves the cursor behind `k`. -/
structure Issues (k : UInt16) (p : Pool) (a : PoolAction) (p' : Pool) : Prop where
  returned : returned? (p, a) = some k
  found    : ∀ id ∈ found (p, a), id ∈ p.requests.items
  passes   : ∀ k' id, Ahead p.requests.nextId k' id → id ∈ Pool.found (p, a) ∨ Ahead k k' id
  nextId   : p'.requests.nextId = k + 1
  items    : ∀ id ∈ p'.requests.items, id = k ∨ id ∈ p.requests.items
  stored   : k ∈ p'.requests.items

theorem issues_of_insert {isClosed : CallId → Bool} {sender : CallId} {expected : List UInt8} {requests : RequestMap}
    (h : p.requests.insert isClosed sender expected = some (k, requests)) :
    Issues k p (.insert isClosed sender expected) { p with requests, inserting := p.inserting - 1 } := by
  have hreturned : returned? (p, .insert isClosed sender expected) = some k := by
    unfold returned?
    dsimp only
    rw [h]
    rfl
  obtain ⟨hscan, rfl⟩ := RequestMap.insert_eq_some_iff.1 h
  refine ⟨hreturned, fun id hid => mem_of_mem_retain (RequestMap.mem_of_mem_skipped hid),
    fun k' id hahead => RequestMap.skipped_or_ahead hscan hahead, rfl, fun id hid => ?_,
    (AList.mem_insert _).2 (Or.inl rfl)⟩
  rcases AList.mem_insert _ |>.1 hid with rfl | hid
  · exact Or.inl rfl
  · exact Or.inr (mem_of_mem_retain hid)

/-- **A step is an insert that returns an id, or it is quiet.** -/
theorem quiet_or_issues (h : p.step a = some p') : Quiet p a p' ∨ ∃ k, Issues k p a p' := by
  cases a with
  | acquire =>
    obtain ⟨requests, ha, rfl⟩ := Option.map_eq_some_iff.1 h
    obtain ⟨_, rfl⟩ := RequestMap.acquire_eq_some_iff.1 ha
    exact Or.inl ⟨rfl, rfl, rfl, fun _ h => h⟩
  | withdraw | drop =>
    obtain ⟨_, hp⟩ := Option.ite_none_right_eq_some.1 h
    cases hp
    exact Or.inl ⟨rfl, rfl, rfl, fun _ h => h⟩
  | insert isClosed sender expected =>
    obtain ⟨_, k, requests, hi, rfl⟩ := step_insert_eq_some_iff.1 h
    exact Or.inr ⟨k, issues_of_insert hi⟩
  | take id msgType =>
    left
    cases hl : p.requests.items.lookup id with
    | none =>
      simp only [step, RequestMap.take_of_none hl] at h
      cases h
      exact ⟨rfl, rfl, rfl, fun _ h => h⟩
    | some r =>
      by_cases hd : msgType ∈ r.expected
      · simp only [step, RequestMap.take_of_mem hl hd] at h
        cases h
        exact ⟨rfl, rfl, rfl, fun _ h => (AList.mem_erase.1 h).2⟩
      · simp only [step, RequestMap.take_of_notMem hl hd] at h
        cases h
        refine ⟨rfl, rfl, rfl, fun id' h => ?_⟩
        rcases AList.mem_insert _ |>.1 h with rfl | h
        · exact AList.mem_of_lookup hl
        · exact h
  | cancel id =>
    cases h
    exact Or.inl ⟨rfl, rfl, rfl, fun _ h => (AList.mem_erase.1 h).2⟩

theorem issues_of_returned (h : p.step a = some p') (hk : returned? (p, a) = some k) : Issues k p a p' := by
  rcases quiet_or_issues h with hq | ⟨b, hi⟩
  · rw [hq.returned] at hk
    cases hk
  · rw [hi.returned] at hk
    cases hk
    exact hi

theorem mem_of_mem_found (h : p.step a = some p') (hid : id ∈ found (p, a)) : id ∈ p.requests.items := by
  rcases quiet_or_issues h with hq | ⟨k, hi⟩
  · rw [hq.found] at hid
    cases hid
  · exact hi.found id hid

/-! ## Between two inserts -/

/-- **What the cursor has passed since it was just behind `k`**: every other id has been returned or found taken, or
lies before `k` still. -/
theorem passed_of_runs (hnext : s₁.requests.nextId = k + 1) (h : Runs step s₁ seg s) (hid : id ≠ k) :
    (∃ z ∈ seg, returned? z = some id ∨ id ∈ found z) ∨ Ahead s.requests.nextId k id := by
  induction h with
  | start =>
    rw [hnext]
    exact Or.inr (ahead_succ_self hid)
  | @step seg s s' a _ hs ih =>
    have hlast : (s, a) ∈ seg ++ [(s, a)] := List.mem_append_right _ List.mem_cons_self
    rcases ih with ⟨z, hz, h⟩ | hahead
    · exact Or.inl ⟨z, List.mem_append_left _ hz, h⟩
    · rcases quiet_or_issues hs with hq | ⟨b, hi⟩
      · rw [hq.nextId]
        exact Or.inr hahead
      · rcases hi.passes k id hahead with hfound | hahead
        · exact Or.inl ⟨_, hlast, Or.inr hfound⟩
        · by_cases hb : id = b
          · rw [hb]
            exact Or.inl ⟨_, hlast, Or.inl hi.returned⟩
          · rw [hi.nextId]
            exact Or.inr (hahead.succ hb)

theorem entry_of_runs (h : Runs step s₁ seg s) (hid : id ∈ s.requests.items) :
    id ∈ s₁.requests.items ∨ ∃ z ∈ seg, returned? z = some id := by
  induction h with
  | start => exact Or.inl hid
  | @step seg s s' a _ hs ih =>
    have hold : id ∈ s.requests.items → id ∈ s₁.requests.items ∨ ∃ z ∈ seg ++ [(s, a)], returned? z = some id := by
      intro hid
      rcases ih hid with h | ⟨z, hz, h⟩
      · exact Or.inl h
      · exact Or.inr ⟨z, List.mem_append_left _ hz, h⟩
    rcases quiet_or_issues hs with hq | ⟨b, hi⟩
    · exact hold (hq.items id hid)
    · rcases hi.items id hid with rfl | hid
      · exact Or.inr ⟨_, List.mem_append_right _ List.mem_cons_self, hi.returned⟩
      · exact hold hid

theorem found_of_runs (h : Runs step s₁ seg s) {z : Pool × PoolAction} (hz : z ∈ seg) (hid : id ∈ found z) :
    id ∈ s₁.requests.items ∨ ∃ z ∈ seg, returned? z = some id := by
  obtain ⟨pre, post, rfl⟩ := List.append_of_mem hz
  obtain ⟨hpre, s', hs, _⟩ := h.split rfl
  rcases entry_of_runs hpre (mem_of_mem_found hs hid) with h | ⟨z', hz', h⟩
  · exact Or.inl h
  · exact Or.inr ⟨z', List.mem_append_left _ hz', h⟩

/-- **An id comes back only after the cursor has gone round**: between two inserts that return `k`, every other id is
returned, or found in the map by a scan, the second insert's own included; what is found without being returned was in
the map when `k` was first returned, so as many inserts lie between the two as there were other ids free. -/
theorem reissue {before between : List (Pool × PoolAction)} {x y : Pool × PoolAction}
    (h : Runs step new (before ++ x :: (between ++ [y])) s) (hx : returned? x = some k) (hy : returned? y = some k) :
    ∃ s₁, x.1.step x.2 = some s₁ ∧
      (∀ id, id ≠ k → (∃ z ∈ between, returned? z = some id) ∨ ∃ z ∈ between ++ [y], id ∈ found z) ∧
      (∀ id, (∃ z ∈ between ++ [y], id ∈ found z) → (∀ z ∈ between, returned? z ≠ some id) →
        id ∈ s₁.requests.items) ∧
      65535 ≤ (between.filterMap returned?).length + (s₁.requests.items.keyset.erase k).card := by
  obtain ⟨_, s₁, hs₁, hrun⟩ := h.split rfl
  obtain ⟨hmiddle, s₂, hs₂, _⟩ := hrun.split rfl
  have hx := issues_of_returned hs₁ hx
  have hy := issues_of_returned hs₂ hy
  have hpassed : ∀ id, id ≠ k → (∃ z ∈ between, returned? z = some id) ∨ ∃ z ∈ between ++ [y], id ∈ found z := by
    intro id hid
    rcases passed_of_runs hx.nextId hmiddle hid with ⟨z, hz, hreturned | hfound⟩ | hahead
    · exact Or.inl ⟨z, hz, hreturned⟩
    · exact Or.inr ⟨z, List.mem_append_left _ hz, hfound⟩
    · rcases hy.passes k id hahead with hfound | hahead
      · exact Or.inr ⟨y, List.mem_append_right _ List.mem_cons_self, hfound⟩
      · exact absurd hahead not_ahead_self
  have hwas : ∀ id, (∃ z ∈ between ++ [y], id ∈ found z) → (∀ z ∈ between, returned? z ≠ some id) →
      id ∈ s₁.requests.items := by
    rintro id ⟨z, hz, hfound⟩ hnot
    rcases found_of_runs hrun hz hfound with hmem | ⟨z', hz', hreturned⟩
    · exact hmem
    · rcases List.mem_append.1 hz' with hz' | hz'
      · exact absurd hreturned (hnot z' hz')
      · obtain rfl := List.mem_singleton.1 hz'
        rw [hy.returned] at hreturned
        cases hreturned
        exact hx.stored
  refine ⟨s₁, hs₁, hpassed, hwas, ?_⟩
  have hcover : ((Finset.range (2 ^ 16)).erase k.toNat).card ≤
      ((between.filterMap returned?).toFinset ∪ s₁.requests.items.keyset.erase k).card := by
    refine Finset.card_le_card_of_injOn UInt16.ofNat (fun i hi => ?_) fun i hi j hj hij => ?_
    · obtain ⟨hik, hlt⟩ := Finset.mem_erase.1 hi
      have hne : UInt16.ofNat i ≠ k := by
        rintro rfl
        exact hik (UInt16.toNat_ofNat_of_lt' (Finset.mem_range.1 hlt)).symm
      rw [Finset.mem_coe, Finset.mem_union, List.mem_toFinset, List.mem_filterMap, Finset.mem_erase,
        AList.mem_keyset_iff]
      by_cases hreturned : ∃ z ∈ between, returned? z = some (UInt16.ofNat i)
      · exact Or.inl hreturned
      · refine Or.inr ⟨hne, hwas _ ((hpassed _ hne).resolve_left hreturned) fun z hz h => hreturned ⟨z, hz, h⟩⟩
    · exact RequestMap.ofNat_inj (Finset.mem_range.1 (Finset.mem_of_mem_erase hi))
        (Finset.mem_range.1 (Finset.mem_of_mem_erase hj)) hij
  have hreturned := List.toFinset_card_le (between.filterMap returned?)
  have hunion := Finset.card_union_le (between.filterMap returned?).toFinset (s₁.requests.items.keyset.erase k)
  rw [Finset.card_erase_of_mem (Finset.mem_range.2 k.toNat_lt), Finset.card_range] at hcover
  omega

/-! ## Once round the id space -/

/-- Nothing is under way, and at most one request is in the map. -/
structure Rested (p : Pool) : Prop where
  size      : p.requests.items.size ≤ 1
  inserting : p.inserting = 0
  taken     : p.taken = 0
  permits   : p.permits = 65535

def insertAlone : PoolAction := .insert (fun _ => true) 0 []

theorem exists_round (h : Rested p) : ∃ p₁ p', p.step .acquire = some p₁ ∧ p₁.step insertAlone = some p' ∧
    returned? (p₁, insertAlone) = some p.requests.nextId ∧ p'.requests.nextId = p.requests.nextId + 1 ∧ Rested p' := by
  have hpos : 0 < p.requests.capacity := by
    have hpermits := h.permits
    have hsize := h.size
    have hinserting := h.inserting
    have htaken := h.taken
    unfold permits at hpermits
    omega
  obtain ⟨rm, hrm⟩ : ∃ rm, p.requests.acquire = some rm :=
    ⟨_, RequestMap.acquire_eq_some_iff.2 ⟨hpos, rfl⟩⟩
  have hnext : rm.nextId = p.requests.nextId := by rw [(RequestMap.acquire_eq_some_iff.1 hrm).2]
  have hacquire : p.step .acquire = some ⟨rm, p.inserting + 1, p.taken⟩ := congrArg (Option.map _) hrm
  have hinsert : rm.insert (fun _ => true) 0 [] = some (rm.nextId, _) := RequestMap.insert_of_closed fun _ _ _ => rfl
  have hissues := issues_of_insert (p := ⟨rm, p.inserting + 1, p.taken⟩) hinsert
  have hstep : step ⟨rm, p.inserting + 1, p.taken⟩ insertAlone = some _ :=
    step_insert_eq_some_iff.2 ⟨Nat.succ_pos p.inserting, _, _, hinsert, rfl⟩
  refine ⟨_, _, hacquire, hstep, hnext ▸ hissues.returned, hnext ▸ hissues.nextId, ?_, h.inserting, h.taken, ?_⟩
  · exact Nat.le_of_eq (AList.size_insert_of_notMem (AList.notMem_empty _))
  · exact (permits_step hstep).trans ((permits_step hacquire).trans h.permits)

theorem exists_rounds (h : Rested p) : ∀ n : ℕ, ∃ seg p', Runs step p seg p' ∧ Rested p' ∧
    p'.requests.nextId = p.requests.nextId + UInt16.ofNat n
  | 0     => ⟨[], p, .start, h, (UInt16.add_zero _).symm⟩
  | n + 1 => by
    obtain ⟨seg, p₁, hrun, hp₁, hnext⟩ := exists_rounds h n
    obtain ⟨p₂, p', hacquire, hinsert, _, hnext', hp'⟩ := exists_round hp₁
    refine ⟨_, p', (hrun.step hacquire).step hinsert, hp', ?_⟩
    rw [hnext', hnext, UInt16.ofNat_add, UInt16.add_assoc]
    rfl

/-- Inserts that are each abandoned at once return 0, all other ids and 0 again. -/
theorem reissue_zero : ∃ before between x y s s₁, Runs step new (before ++ x :: (between ++ [y])) s ∧
    returned? x = some 0 ∧ returned? y = some 0 ∧ x.1.step x.2 = some s₁ ∧
    65535 ≤ (between.filterMap returned?).length + (s₁.requests.items.keyset.erase 0).card := by
  obtain ⟨p₁, p₂, hacquire, hinsert, hreturned, hnext, hrested⟩ :=
    exists_round (p := new) ⟨Nat.zero_le 1, rfl, rfl, rfl⟩
  obtain ⟨seg, p₃, hrun, hrested', hnext'⟩ := exists_rounds hrested 65535
  obtain ⟨p₄, p₅, hacquire', hinsert', hreturned', -, -⟩ := exists_round hrested'
  rw [show p₃.requests.nextId = 0 by rw [hnext', hnext]; decide] at hreturned'
  have hruns : Runs step new ([(new, .acquire)] ++ (p₁, insertAlone) ::
      ((seg ++ [(p₃, .acquire)]) ++ [(p₄, insertAlone)])) p₅ :=
    (Runs.start.step hacquire).trans (Runs.cons hinsert ((hrun.step hacquire').step hinsert'))
  obtain ⟨s₁, hs₁, _, _, hle⟩ := reissue hruns hreturned hreturned'
  exact ⟨_, _, _, _, _, s₁, hruns, hreturned, hreturned', hs₁, hle⟩

end Pool

end Dig
