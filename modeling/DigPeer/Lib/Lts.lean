/-!
# Lts — runs of a partial step function, with their history

A system is a step `σ → α → Option σ`: in a state, an action either is refused or has exactly one outcome, so every
nondeterministic choice is in the action.  `Runs step s₀ tr s` is a run from `s₀` to `s` whose history `tr` lists every
state passed through, each with the action taken in it.  A property of runs is proved by `induction` on `Runs`, one
action at a time at the end; a property of states alone by `Runs.invariant`.

`run` is the same thing as a function, for evaluating a given list of actions (`runs_of_run`); `ReachesBy` says that
some list of actions of one kind leads from a state to another.
-/
namespace Lts

variable {σ α : Type} {step : σ → α → Option σ} {s₀ s t u : σ} {a : α} {tr : List (σ × α)}

theorem getElem?_concat_eq_some {β : Type} {l : List β} {x y : β} {i : Nat} :
    (l ++ [x])[i]? = some y ↔ l[i]? = some y ∨ i = l.length ∧ x = y := by
  rcases Nat.lt_trichotomy i l.length with h | h | h
  · rw [List.getElem?_append_left h]
    exact ⟨Or.inl, fun hy => hy.elim id fun he => absurd he.1 (Nat.ne_of_lt h)⟩
  · subst h
    rw [List.getElem?_concat_length, List.getElem?_eq_none (Nat.le_refl _)]
    simp
  · rw [List.getElem?_eq_none (by simp; omega), List.getElem?_eq_none (Nat.le_of_lt h)]
    exact ⟨fun hy => (by cases hy), fun hy => hy.elim (fun hy => by cases hy) fun he => absurd he.1 (Nat.ne_of_gt h)⟩

/-- **A run and its history.** -/
inductive Runs (step : σ → α → Option σ) (s₀ : σ) : List (σ × α) → σ → Prop
  | start : Runs step s₀ [] s₀
  | step {tr : List (σ × α)} {s s' : σ} {a : α} (h : Runs step s₀ tr s) (hs : step s a = some s') :
      Runs step s₀ (tr ++ [(s, a)]) s'

/-- **The invariant rule**: what holds at the start and is kept by every step holds at the end of every run. -/
theorem Runs.invariant {P : σ → Prop} (h0 : P s₀) (hstep : ∀ s a s', P s → step s a = some s' → P s')
    (h : Runs step s₀ tr s) : P s := by
  induction h with
  | start => exact h0
  | step _ hs ih => exact hstep _ _ _ ih hs

/-- **The queue rule**: where every step takes what it takes off the front and adds what it adds at the end, what a run
has taken, and then what the queue holds, is what the run has added, in that order. -/
theorem Runs.fifo {β : Type} {q : σ → List β} {added taken : σ × α → Option β} (h : Runs step s₀ tr t)
    (hq : ∀ x ∈ tr, ∀ s', step x.1 x.2 = some s' → q x.1 ++ (added x).toList = (taken x).toList ++ q s') :
    q s₀ ++ tr.filterMap added = tr.filterMap taken ++ q t := by
  induction h with
  | start => simp
  | @step tr s s' a _ hs ih =>
    have hbefore := ih fun x hx => hq x (List.mem_append_left _ hx)
    have hstep := hq (s, a) (by simp) s' hs
    have hsingle : ∀ f : σ × α → Option β, [(s, a)].filterMap f = (f (s, a)).toList := by
      intro f
      cases h : f (s, a) <;> simp [h]
    rw [List.filterMap_append, List.filterMap_append, hsingle, hsingle, ← List.append_assoc, hbefore, List.append_assoc,
      hstep, ← List.append_assoc]

theorem Runs.trans {tr' : List (σ × α)} (h : Runs step s₀ tr s) (h' : Runs step s tr' t) :
    Runs step s₀ (tr ++ tr') t := by
  induction h' with
  | start => simpa using h
  | step _ hs ih => rw [← List.append_assoc]; exact ih.step hs

/-- **The projection rule**: where every step is, under `f`, a step of another system or none, the other system runs to
what `f` makes of the state. -/
theorem Runs.project {τ β : Type} {step' : τ → β → Option τ} {f : σ → τ}
    (hf : ∀ s a s', step s a = some s' → f s' = f s ∨ ∃ b, step' (f s) b = some (f s')) (h : Runs step s₀ tr s) :
    ∃ tr', Runs step' (f s₀) tr' (f s) := by
  induction h with
  | start => exact ⟨[], .start⟩
  | step _ hs ih =>
    obtain ⟨tr', hrun⟩ := ih
    rcases hf _ _ _ hs with he | ⟨b, hb⟩
    · rw [he]
      exact ⟨tr', hrun⟩
    · exact ⟨_, hrun.step hb⟩

/-- **The refinement rule**: the projection rule where a step need only be simulated in the states that the run comes
to, for actions that it takes. -/
theorem Runs.refine {τ β : Type} {step' : τ → β → Option τ} {f : σ → τ} (h : Runs step s₀ tr s)
    (hf : ∀ tr₁ s a s', Runs step s₀ tr₁ s → (s, a) ∈ tr → step s a = some s' →
      f s' = f s ∨ ∃ b, step' (f s) b = some (f s')) :
    ∃ tr', Runs step' (f s₀) tr' (f s) := by
  induction h with
  | start => exact ⟨[], .start⟩
  | @step tr s s' a hrun hs ih =>
    obtain ⟨tr', hrun'⟩ := ih fun tr₁ s a s' h₁ hmem => hf tr₁ s a s' h₁ (List.mem_append_left _ hmem)
    rcases hf tr s a s' hrun (List.mem_append_right _ (List.mem_singleton_self _)) hs with he | ⟨b, hb⟩
    · rw [he]
      exact ⟨tr', hrun'⟩
    · exact ⟨_, hrun'.step hb⟩

/-- **A run read from its first action.** -/
theorem Runs.cons {s₁ : σ} (hs : step s₀ a = some s₁) (h : Runs step s₁ tr s) : Runs step s₀ ((s₀, a) :: tr) s :=
  (Runs.start.step hs).trans h

/-- **Every entry of a history splits its run**: the run up to it, its step, and the run after it. -/
theorem Runs.split (h : Runs step s₀ tr t) : ∀ {pre post : List (σ × α)} {s : σ} {a : α},
    tr = pre ++ (s, a) :: post →
      Runs step s₀ pre s ∧ ∃ s', step s a = some s' ∧ Runs step s' post t := by
  induction h with
  | start => intro pre post s a hs; cases pre <;> cases hs
  | step h hs ih =>
    intro pre post s a he
    rcases List.eq_nil_or_concat post with rfl | ⟨post, x, rfl⟩
    · have := List.append_inj' he rfl
      obtain ⟨rfl, h2⟩ := this
      simp only [List.cons.injEq, Prod.mk.injEq, and_true] at h2
      obtain ⟨rfl, rfl⟩ := h2
      exact ⟨h, _, hs, .start⟩
    · rw [List.concat_eq_append, ← List.cons_append, ← List.append_assoc] at he
      obtain ⟨h1, h2⟩ := List.append_inj' he rfl
      simp only [List.cons.injEq, and_true] at h2
      obtain ⟨hpre, s', hs', hpost⟩ := ih h1
      refine ⟨hpre, s', hs', ?_⟩
      rw [List.concat_eq_append, ← h2]
      exact hpost.step hs

theorem Runs.of_nil (h : Runs step s₀ [] t) : t = s₀ := by
  generalize hnil : ([] : List (σ × α)) = tr at h
  cases h with
  | start => rfl
  | step  => simp at hnil

theorem Runs.of_concat (h : Runs step s₀ (tr ++ [(s, a)]) t) : Runs step s₀ tr s ∧ step s a = some t := by
  obtain ⟨hbefore, s', hs, hafter⟩ := h.split rfl
  rw [hafter.of_nil]
  exact ⟨hbefore, hs⟩

theorem Runs.of_getElem? {i : Nat} (h : Runs step s₀ tr t) (hi : tr[i]? = some (s, a)) :
    Runs step s₀ (tr.take i) s ∧ ∃ s', step s a = some s' ∧ Runs step s' (tr.drop (i + 1)) t := by
  obtain ⟨hlt, hget⟩ := List.getElem?_eq_some_iff.1 hi
  refine h.split ?_
  rw [← hget, ← List.drop_eq_getElem_cons hlt, List.take_append_drop]

/-- **The steps between two positions** lead from the first one's outcome to the second one's state. -/
theorem Runs.between {i j : Nat} {b : α} (h : Runs step s₀ tr u) (hi : tr[i]? = some (s, a)) (hj : tr[j]? = some (t, b))
    (hij : i < j) : ∃ s' seg, step s a = some s' ∧ Runs step s' seg t ∧
      ∀ x ∈ seg, ∃ n, i < n ∧ n < j ∧ tr[n]? = some x := by
  obtain ⟨_, s', hs, hafter⟩ := h.of_getElem? hi
  have hj' : (tr.drop (i + 1))[j - (i + 1)]? = some (t, b) := by
    rw [List.getElem?_drop, Nat.add_sub_cancel' hij]
    exact hj
  obtain ⟨hseg, _⟩ := hafter.of_getElem? hj'
  refine ⟨s', _, hs, hseg, fun x hx => ?_⟩
  obtain ⟨n, hn, rfl⟩ := List.mem_iff_getElem.1 hx
  rw [List.length_take] at hn
  refine ⟨i + 1 + n, by omega, by omega, ?_⟩
  rw [List.getElem_take, List.getElem_drop, List.getElem?_eq_getElem]

/-- What `f` last read of `k` in a history. -/
def lastSeen {κ β : Type} [DecidableEq κ] (f : σ × α → Option (κ × β)) (tr : List (σ × α)) (k : κ) : Option β :=
  ((tr.filterMap f).filter fun e => e.1 = k).getLast?.map Prod.snd

section LastSeen

variable {κ β : Type} [DecidableEq κ] {f : σ × α → Option (κ × β)} {x : σ × α} {k k' : κ} {b : β}

theorem lastSeen_concat_of_none (h : f x = none) : lastSeen f (tr ++ [x]) k = lastSeen f tr k := by
  rw [lastSeen, List.filterMap_append, List.filterMap_cons_none h, List.filterMap_nil, List.append_nil, lastSeen]

theorem lastSeen_concat_of_some (h : f x = some (k', b)) :
    lastSeen f (tr ++ [x]) k = if k' = k then some b else lastSeen f tr k := by
  rw [lastSeen, List.filterMap_append, List.filterMap_cons_some h, List.filterMap_nil, List.filter_append]
  by_cases hk : k' = k
  · rw [if_pos hk, List.filter_cons_of_pos (by simpa using hk), List.filter_nil, List.getLast?_concat]
    rfl
  · rw [if_neg hk, List.filter_cons_of_neg (by simpa using hk), List.filter_nil, List.append_nil, lastSeen]

end LastSeen

/-! ## Running a list of actions -/

def run (step : σ → α → Option σ) : σ → List α → Option σ
  | s, []      => some s
  | s, a :: as => (step s a).bind fun s' => run step s' as

theorem run_cons_of_step (h : step s a = some s') (as : List α) : run step s (a :: as) = run step s' as := by
  rw [run, h, Option.bind_some]

/-- **The symmetry rule**: where a map of states and a map of actions commute with every step, they commute with runs. -/
theorem run_map {τ β : Type} {step' : τ → β → Option τ} {f : σ → τ} {g : α → β}
    (h : ∀ s a, step' (f s) (g a) = (step s a).map f) :
    ∀ (as : List α) (s : σ), run step' (f s) (as.map g) = (run step s as).map f
  | [], _      => rfl
  | a :: as, s => by
    rw [List.map_cons, run, run, h]
    cases step s a with
    | none    => rfl
    | some s' => exact run_map h as s'

theorem run_append : ∀ (as bs : List α) (s : σ), run step s (as ++ bs) = (run step s as).bind fun t => run step t bs
  | [], _, _       => rfl
  | a :: as, bs, s => by
    rw [List.cons_append, run, run]
    cases step s a with
    | none => rfl
    | some s' => exact run_append as bs s'

theorem run_append_of_run {as : List α} (h : run step s as = some t) (bs : List α) :
    run step s (as ++ bs) = run step t bs := by
  rw [run_append, h, Option.bind_some]

def trace (step : σ → α → Option σ) : σ → List α → List (σ × α)
  | _, []      => []
  | s, a :: as => (s, a) :: (match step s a with | none => [] | some s' => trace step s' as)

theorem runs_of_run : ∀ (as : List α) (s : σ), run step s as = some t → Runs step s (trace step s as) t
  | [], s, h => by cases h; exact .start
  | a :: as, s, h => by
    rw [run] at h
    cases hs : step s a with
    | none => rw [hs] at h; cases h
    | some s' =>
      rw [hs] at h
      rw [trace, hs]
      exact Runs.cons hs (runs_of_run as s' h)

theorem exists_runs {β : Type} {f : σ → β} {b : β} {as : List α} (h : (run step s as).map f = some b) :
    ∃ t, Runs step s (trace step s as) t ∧ f t = b := by
  obtain ⟨t, ht, hf⟩ := Option.map_eq_some_iff.1 h
  exact ⟨t, runs_of_run as s ht, hf⟩

/-- The state a list of actions leads to, if they can all be taken. -/
def reach (step : σ → α → Option σ) (s : σ) (as : List α) : σ := (run step s as).getD s

theorem run_eq_some_reach {as : List α} (h : (run step s as).isSome = true) :
    run step s as = some (reach step s as) := by
  obtain ⟨t, ht⟩ := Option.isSome_iff_exists.1 h
  rw [reach, ht]
  rfl

theorem runs_reach {as : List α} (h : (run step s as).isSome = true) :
    Runs step s (trace step s as) (reach step s as) := runs_of_run as s (run_eq_some_reach h)

/-- **The progress rule**: where, as long as a rank is not zero, some action of a kind lowers it, actions of the kind
bring it to zero, no more of them than the rank. -/
theorem exists_run_of_rank {P : σ → Prop} {mine : α → Prop} {rank : σ → Nat}
    (hstep : ∀ s, P s → rank s ≠ 0 → ∃ a s', mine a ∧ step s a = some s' ∧ P s' ∧ rank s' < rank s) :
    ∀ (n : Nat) (s : σ), rank s ≤ n → P s →
      ∃ as t, (∀ a ∈ as, mine a) ∧ as.length ≤ rank s ∧ run step s as = some t ∧ P t ∧ rank t = 0
  | 0, s, hn, hP     => ⟨[], s, fun _ ha => (by cases ha), Nat.zero_le _, rfl, hP, Nat.le_zero.1 hn⟩
  | n + 1, s, hn, hP => by
    by_cases h0 : rank s = 0
    · exact ⟨[], s, fun _ ha => (by cases ha), Nat.zero_le _, rfl, hP, h0⟩
    · obtain ⟨a, s', hmine, hs, hP', hlt⟩ := hstep s hP h0
      obtain ⟨as, t, has, hlen, hrun, hPt, ht⟩ := exists_run_of_rank hstep n s' (by omega) hP'
      refine ⟨a :: as, t, fun b hb => ?_, ?_, (run_cons_of_step hs as).trans hrun, hPt, ht⟩
      · rcases List.mem_cons.1 hb with rfl | hb
        · exact hmine
        · exact has b hb
      · rw [List.length_cons]
        omega

/-- Actions of a kind lead from `s` to `t`. -/
def ReachesBy (step : σ → α → Option σ) (mine : α → Prop) (s t : σ) : Prop :=
  ∃ as, (∀ a ∈ as, mine a) ∧ run step s as = some t

namespace ReachesBy

variable {mine : α → Prop}

theorem refl : ReachesBy step mine s s := ⟨[], fun _ ha => (by cases ha), rfl⟩

theorem single (ha : mine a) (hs : step s a = some t) : ReachesBy step mine s t :=
  ⟨[a], fun _ hb => List.mem_singleton.1 hb ▸ ha, run_cons_of_step hs []⟩

theorem trans (h : ReachesBy step mine s t) (h' : ReachesBy step mine t u) : ReachesBy step mine s u := by
  obtain ⟨as, has, hrun⟩ := h
  obtain ⟨bs, hbs, hrun'⟩ := h'
  refine ⟨as ++ bs, fun a ha => ?_, (run_append_of_run hrun bs).trans hrun'⟩
  exact (List.mem_append.1 ha).elim (has a) (hbs a)

theorem mono {mine' : α → Prop} (hmine : ∀ a, mine a → mine' a) (h : ReachesBy step mine s t) :
    ReachesBy step mine' s t := by
  obtain ⟨as, has, hrun⟩ := h
  exact ⟨as, fun a ha => hmine a (has a ha), hrun⟩

/-- **The invariant rule for actions of a kind.** -/
theorem invariant {P : σ → Prop} (hstep : ∀ s a s', P s → mine a → step s a = some s' → P s')
    (h : ReachesBy step mine s t) (h0 : P s) : P t := by
  obtain ⟨as, has, hrun⟩ := h
  induction as generalizing s with
  | nil => cases hrun; exact h0
  | cons a as ih =>
    obtain ⟨s', hs, hrun⟩ := Option.bind_eq_some_iff.1 hrun
    exact ih (hstep s a s' h0 (has a List.mem_cons_self) hs) (fun b hb => has b (List.mem_cons_of_mem _ hb)) hrun

end ReachesBy

theorem run_take {as : List α} (h : run step s as = some t) (i : Nat) :
    run step s (as.take i) = some (reach step s (as.take i)) := by
  rw [← List.take_append_drop i as, run_append] at h
  cases ht : run step s (as.take i) with
  | none => rw [ht] at h; cases h
  | some u => rw [reach, ht]; rfl

theorem step_reach (as : List α) (h : (run step s (as ++ [a])).isSome = true) :
    step (reach step s as) a = some (reach step s (as ++ [a])) := by
  have hrun := run_eq_some_reach h
  have hprefix := run_take hrun as.length
  rw [List.take_left] at hprefix
  rw [run_append_of_run hprefix, run] at hrun
  obtain ⟨t, ht, hnil⟩ := Option.bind_eq_some_iff.1 hrun
  rw [ht, ← hnil, run]

theorem getElem?_trace : ∀ (as : List α) (s : σ) (i : Nat), run step s as = some t → as[i]? = some a →
    (trace step s as)[i]? = some (reach step s (as.take i), a)
  | b :: as, s, 0, _, hi => by cases hi; rfl
  | b :: as, s, i + 1, h, hi => by
    rw [run] at h
    cases hs : step s b with
    | none => rw [hs] at h; cases h
    | some s' =>
      rw [hs] at h
      have hreach : reach step s ((b :: as).take (i + 1)) = reach step s' (as.take i) := by
        rw [List.take_succ_cons, reach, run, hs, Option.bind_some, run_take h i]
        rfl
      rw [trace, hs, List.getElem?_cons_succ, getElem?_trace as s' i h hi, hreach]

theorem snd_of_getElem?_trace : ∀ (as : List α) (s : σ) (i : Nat) (x : σ × α),
    (trace step s as)[i]? = some x → as[i]? = some x.2
  | [], _, _, _, h => by cases h
  | b :: as, s, 0, x, h => by cases h; rfl
  | b :: as, s, i + 1, x, h => by
    rw [trace, List.getElem?_cons_succ] at h
    cases hs : step s b with
    | none => rw [hs] at h; cases h
    | some s' => rw [hs] at h; exact snd_of_getElem?_trace as s' i x h

end Lts
