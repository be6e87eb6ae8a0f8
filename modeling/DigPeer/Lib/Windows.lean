import DigPeer.Lib.Mealy
import Mathlib.Algebra.Order.BigOperators.Group.List
import Mathlib.Data.List.Induction
import Mathlib.Data.PNat.Basic
/-!
# Windows — counters that start again in every window of a clock

Time is cut into windows of `reset` units, the `k`-th from `k * reset` on.  A machine reads a clock with every input and
keeps a counter to which an input adds a cost; the counter is cleared by the first input of a window and by nothing
else.  Along readings that do not decrease it is then the sum of what was charged in the window of the last one
(`Rolling.read_final`), so what is granted only while the counter is within a bound is within it in every window
(`Rolling.tally_le`), and within twice the bound in every stretch as long as a window (`tally_stretch_le`).
-/
namespace Windows

open Mealy

variable {ι ο σ M : Type}

section Tally

variable [AddCommMonoid M] {w w' : ι → M} {p q r : ι → Prop} [DecidablePred p] [DecidablePred q] [DecidablePred r]
  {log : List ι}

/-- What `w` adds up to over the entries of a log that `p` holds of. -/
def tally (w : ι → M) (p : ι → Prop) [DecidablePred p] (log : List ι) : M := ((log.filter p).map w).sum

theorem tally_cons (x : ι) : tally w p (x :: log) = (if p x then w x else 0) + tally w p log := by
  unfold tally
  by_cases h : p x
  · simp [h]
  · simp [h]

theorem tally_concat (x : ι) : tally w p (log ++ [x]) = tally w p log + if p x then w x else 0 := by
  unfold tally
  by_cases h : p x
  · simp [h]
  · simp [h]

theorem tally_eq_zero (h : ∀ x ∈ log, ¬ p x) : tally w p log = 0 := by
  unfold tally
  rw [List.filter_eq_nil_iff.2 (by simpa using h)]
  rfl

theorem tally_congr (h : ∀ x ∈ log, (p x ↔ q x)) : tally w p log = tally w q log := by
  unfold tally
  rw [List.filter_congr fun x hx => decide_eq_decide.2 (h x hx)]

theorem tally_transcript (step : σ → ι → ο × σ) (s : σ) (w : ι → M) (p : ι → Prop) [DecidablePred p] (is : List ι) :
    tally (fun e => w e.1) (fun e => p e.1) (transcript step s is) = tally w p is := by
  conv_rhs => rw [← map_fst_transcript step is s]
  unfold tally
  rw [List.filter_map, List.map_map]
  rfl

theorem tally_ite {f : ι → M} : tally (fun x => if p x then f x else 0) q log = tally f (fun x => p x ∧ q x) log := by
  induction log with
  | nil => rfl
  | cons x log ih =>
    rw [tally_cons, tally_cons, ih]
    by_cases hp : p x <;> by_cases hq : q x <;> simp [hp, hq]

variable [PartialOrder M] [IsOrderedAddMonoid M]

theorem tally_le_tally (hw : ∀ x, w x ≤ w' x) : tally w p log ≤ tally w' p log :=
  List.sum_le_sum fun x _ => hw x

theorem tally_le_of_imp (hw : ∀ x, 0 ≤ w x) (h : ∀ x ∈ log, p x → q x) : tally w p log ≤ tally w q log := by
  have hp : tally w p log = tally w p (log.filter q) := by
    unfold tally
    rw [List.filter_filter]
    refine congrArg (fun xs => (xs.map w).sum) (List.filter_congr fun x hx => ?_)
    by_cases hpx : p x
    · simp [hpx, h x hx hpx]
    · simp [hpx]
  rw [hp]
  refine (List.filter_sublist.map w).sum_le_sum fun a ha => ?_
  obtain ⟨x, _, rfl⟩ := List.mem_map.1 ha
  exact hw x

/-- **A union tallies at most the sum of its parts.** -/
theorem tally_le_add (hw : ∀ x, 0 ≤ w x) (h : ∀ x, p x → q x ∨ r x) :
    tally w p log ≤ tally w q log + tally w r log := by
  induction log with
  | nil => exact (add_zero (0 : M)).ge
  | cons x log ih =>
    rw [tally_cons, tally_cons, tally_cons, add_add_add_comm]
    refine add_le_add ?_ ih
    by_cases hp : p x
    · rw [if_pos hp]
      rcases h x hp with hq | hr
      · rw [if_pos hq]
        exact le_add_of_nonneg_right (by split; exacts [hw x, le_refl 0])
      · rw [if_pos hr]
        exact le_add_of_nonneg_left (by split; exacts [hw x, le_refl 0])
    · rw [if_neg hp]
      exact add_nonneg (by split; exacts [hw x, le_refl 0]) (by split; exacts [hw x, le_refl 0])

end Tally

section Clock

variable {reset : ℕ+} {k t u : ℕ}

/-- A stretch as long as a window meets two windows at most. -/
theorem div_of_stretch (h1 : t ≤ u) (h2 : u < t + reset) : u / reset = t / reset ∨ u / reset = t / reset + 1 := by
  have hlow : t / reset ≤ u / reset := Nat.div_le_div_right h1
  have hhigh : u / reset ≤ (t + reset) / reset := Nat.div_le_div_right (Nat.le_of_lt h2)
  rw [Nat.add_div_right t reset.pos] at hhigh
  omega

theorem div_eq_iff : u / reset = k ↔ k * reset ≤ u ∧ u < (k + 1) * reset := by
  rw [Nat.div_eq_iff reset.pos, Nat.add_mul, Nat.one_mul]
  have := reset.pos
  omega

variable [AddCommMonoid M] [PartialOrder M] [IsOrderedAddMonoid M] {w : ι → M} {log : List ι} {bound : M}

theorem tally_stretch_le (time : ι → ℕ) (hw : ∀ x, 0 ≤ w x)
    (h : ∀ k, tally w (fun x => time x / reset = k) log ≤ bound) (t : ℕ) :
    tally w (fun x => t ≤ time x ∧ time x < t + reset) log ≤ bound + bound :=
  le_trans (tally_le_add hw fun _ hx => div_of_stretch hx.1 hx.2) (add_le_add (h _) (h _))

end Clock

/-- **A counter that starts again in every window**, on the states that `P` holds of. -/
structure Rolling [AddCommMonoid M] (step : σ → ι → ο × σ) (P : σ → Prop) (time : ι → ℕ) (reset : ℕ+) (window : σ → ℕ)
    (counter : σ → M) (cost : ι → ο → M) : Prop where
  keeps   : ∀ s i, P s → P (step s i).2
  moves   : ∀ s i, P s → window (step s i).2 = time i / reset
  charges : ∀ s i, P s →
    counter (step s i).2 = (if window s = time i / reset then counter s else 0) + cost i (step s i).1

namespace Rolling

variable [AddCommMonoid M] {step : σ → ι → ο × σ} {P : σ → Prop} {time : ι → ℕ} {reset : ℕ+} {window : σ → ℕ}
  {counter : σ → M} {cost grant : ι → ο → M} {s : σ} {k : ℕ}

theorem final (h : Rolling step P time reset window counter cost) (hs : P s) (is : List ι) : P (final step s is) :=
  final_invariant h.keeps is s hs

theorem window_final_ge (h : Rolling step P time reset window counter cost) (hs : P s) {is : List ι} {i : ι}
    (hmono : (is ++ [i]).Pairwise fun i j => time i ≤ time j) :
    window (Mealy.final step s (is ++ [i])) = time i / reset ∧ ∀ j ∈ is ++ [i], time j / reset ≤ time i / reset := by
  constructor
  · rw [final_concat]
    exact h.moves _ i (h.final hs is)
  · intro j hj
    rcases List.mem_append.1 hj with hj | hj
    · exact Nat.div_le_div_right ((List.pairwise_append.1 hmono).2.2 j hj i List.mem_cons_self)
    · rw [List.mem_singleton.1 hj]

/-- **The counter is the tally of its window.** -/
theorem read_final (h : Rolling step P time reset window counter cost) (hs : P s) (h0 : counter s = 0) (is : List ι)
    (hmono : is.Pairwise fun i j => time i ≤ time j) :
    counter (Mealy.final step s is) = tally (fun e => cost e.1 e.2)
      (fun e => time e.1 / reset = window (Mealy.final step s is)) (transcript step s is) := by
  induction is using List.reverseRecOn with
  | nil => exact h0
  | append_singleton is i ih =>
    have hmono' := (List.pairwise_append.1 hmono).1
    rw [(h.window_final_ge hs hmono).1, final_concat, h.charges _ i (h.final hs is), transcript_concat, tally_concat,
      if_pos rfl]
    congr 1
    by_cases hw : window (Mealy.final step s is) = time i / reset
    · rw [if_pos hw, ih hmono', hw]
    · rw [if_neg hw]
      refine (tally_eq_zero fun e he hte => hw ?_).symm
      have hmem := mem_of_mem_transcript he
      rcases List.eq_nil_or_concat is with rfl | ⟨js, j, rfl⟩
      · cases hmem
      · rw [List.concat_eq_append] at hmem hmono' hmono ⊢
        obtain ⟨hlast, hle⟩ := h.window_final_ge hs hmono'
        have hij := (h.window_final_ge hs hmono).2 j (by simp)
        have hej := hle _ hmem
        omega

/-- **What is granted within a bound stays within it, in every window.** -/
theorem tally_le [PartialOrder M] [IsOrderedAddMonoid M] {bound : M}
    (h : Rolling step P time reset window counter cost) (hs : P s) (h0 : counter s = 0) (hb : 0 ≤ bound)
    (hgrant : ∀ i o, grant i o ≤ cost i o)
    (hbound : ∀ s i, P s → grant i (step s i).1 = 0 ∨ counter (step s i).2 ≤ bound) (is : List ι)
    (hmono : is.Pairwise fun i j => time i ≤ time j) (k : ℕ) :
    tally (fun e => grant e.1 e.2) (fun e => time e.1 / reset = k) (transcript step s is) ≤ bound := by
  induction is using List.reverseRecOn with
  | nil => exact hb
  | append_singleton is i ih =>
    have hwas := ih (List.pairwise_append.1 hmono).1
    by_cases hk : time i / reset = k
    · rcases hbound _ i (h.final hs is) with hzero | hle
      · rw [transcript_concat, tally_concat]
        dsimp only
        rw [hzero, ite_self, add_zero]
        exact hwas
      · have hread := h.read_final hs h0 _ hmono
        rw [(h.window_final_ge hs hmono).1, hk, final_concat] at hread
        rw [hread] at hle
        exact le_trans (tally_le_tally fun e => hgrant e.1 e.2) hle
    · rw [transcript_concat, tally_concat, if_neg hk, add_zero]
      exact hwas

end Rolling

end Windows
