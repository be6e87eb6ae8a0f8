import Mathlib.Data.List.Basic
/-!
# Mealy — what an observer of some inputs sees of a machine's outputs

A machine is `step : σ → ι → ο × σ`.  `outputs` are its outputs along a list of inputs and `final` the state it is left
in.  An observer sees the outputs of the inputs it selects.  When the machine simulates, on the selected inputs, a
smaller machine that the other inputs leave alone, the observer sees exactly the smaller machine run on what it
selected (`observed_eq`), so what the other inputs were makes no difference.
-/
namespace Mealy

variable {σ τ ι κ ο : Type}

def outputs (step : σ → ι → ο × σ) : σ → List ι → List ο
  | _, []      => []
  | s, i :: is => (step s i).1 :: outputs step (step s i).2 is

def final (step : σ → ι → ο × σ) : σ → List ι → σ
  | s, []      => s
  | s, i :: is => final step (step s i).2 is

/-- The outputs of the inputs that `sees` selects. -/
def observed (sees : ι → Bool) (step : σ → ι → ο × σ) : σ → List ι → List ο
  | _, []      => []
  | s, i :: is => if sees i then (step s i).1 :: observed sees step (step s i).2 is
                  else observed sees step (step s i).2 is

/-- Every input with its output. -/
def transcript (step : σ → ι → ο × σ) : σ → List ι → List (ι × ο)
  | _, []      => []
  | s, i :: is => (i, (step s i).1) :: transcript step (step s i).2 is

@[simp] theorem final_nil (step : σ → ι → ο × σ) (s : σ) : final step s [] = s := rfl

theorem final_append (step : σ → ι → ο × σ) : ∀ (is is' : List ι) (s : σ),
    final step s (is ++ is') = final step (final step s is) is'
  | [], _, _       => rfl
  | i :: is, is', s => final_append step is is' (step s i).2

theorem final_concat (step : σ → ι → ο × σ) (is : List ι) (i : ι) (s : σ) :
    final step s (is ++ [i]) = (step (final step s is) i).2 := by
  rw [final_append]; rfl

@[simp] theorem transcript_nil (step : σ → ι → ο × σ) (s : σ) : transcript step s [] = [] := rfl

theorem transcript_concat (step : σ → ι → ο × σ) (i : ι) : ∀ (is : List ι) (s : σ),
    transcript step s (is ++ [i]) = transcript step s is ++ [(i, (step (final step s is) i).1)]
  | [], _      => rfl
  | j :: is, s => by rw [List.cons_append, transcript, transcript_concat step i is]; rfl

theorem transcript_append (step : σ → ι → ο × σ) (js : List ι) : ∀ (is : List ι) (s : σ),
    transcript step s (is ++ js) = transcript step s is ++ transcript step (final step s is) js
  | [], _      => rfl
  | i :: is, s => by rw [List.cons_append, transcript, transcript_append step js is]; rfl

theorem map_fst_transcript (step : σ → ι → ο × σ) : ∀ (is : List ι) (s : σ),
    (transcript step s is).map Prod.fst = is
  | [], _      => rfl
  | i :: is, s => by rw [transcript, List.map_cons, map_fst_transcript step is]

theorem mem_of_mem_transcript {step : σ → ι → ο × σ} {e : ι × ο} {is : List ι} {s : σ}
    (h : e ∈ transcript step s is) : e.1 ∈ is := by
  rw [← map_fst_transcript step is s]
  exact List.mem_map_of_mem h

/-- **An entry of a transcript**: the output is that of the state the inputs before it lead to. -/
theorem getElem?_transcript {step : σ → ι → ο × σ} {e : ι × ο} : ∀ (is : List ι) (s : σ) (n : ℕ),
    (transcript step s is)[n]? = some e ↔ is[n]? = some e.1 ∧ (step (final step s (is.take n)) e.1).1 = e.2
  | [], _, n      => by simp
  | i :: is, s, 0 => by
    obtain ⟨j, o⟩ := e
    simp only [transcript, List.getElem?_cons_zero, Option.some.injEq, Prod.mk.injEq, List.take_zero, final_nil]
    constructor
    · rintro ⟨rfl, h⟩; exact ⟨rfl, h⟩
    · rintro ⟨rfl, h⟩; exact ⟨rfl, h⟩
  | i :: is, s, n + 1 => by
    rw [transcript, List.getElem?_cons_succ, List.getElem?_cons_succ, List.take_succ_cons, final]
    exact getElem?_transcript is _ n

/-- **Two machines side by side**: a relation between their states that every input keeps relates their outputs. -/
theorem transcript_related {π : Type} {step : σ → ι → ο × σ} {step' : τ → ι → π × τ} {R : σ → τ → Prop}
    {Q : ο → π → Prop} (h : ∀ s t i, R s t → Q (step s i).1 (step' t i).1 ∧ R (step s i).2 (step' t i).2) :
    ∀ (is : List ι) (s : σ) (t : τ), R s t →
      List.Forall₂ (fun e e' => e.1 = e'.1 ∧ Q e.2 e'.2) (transcript step s is) (transcript step' t is)
  | [], _, _, _      => .nil
  | i :: is, s, t, hR => by
    obtain ⟨hQ, hR'⟩ := h s t i hR
    exact .cons ⟨rfl, hQ⟩ (transcript_related h is _ _ hR')

/-- **The invariant rule**, for the inputs of a list. -/
theorem final_invariant_of_mem {step : σ → ι → ο × σ} {P : σ → Prop} : ∀ (is : List ι) (s : σ),
    (∀ i ∈ is, ∀ s, P s → P (step s i).2) → P s → P (final step s is)
  | [], _, _, h          => h
  | i :: is, s, hstep, h => final_invariant_of_mem is _ (fun j hj => hstep j (List.mem_cons_of_mem i hj))
    (hstep i List.mem_cons_self s h)

/-- **The invariant rule.** -/
theorem final_invariant {step : σ → ι → ο × σ} {P : σ → Prop} (hstep : ∀ s i, P s → P (step s i).2) (is : List ι)
    (s : σ) : P s → P (final step s is) :=
  final_invariant_of_mem is s fun i _ s => hstep s i

theorem observed_singleton {sees : ι → Bool} {i : ι} (step : σ → ι → ο × σ) (s : σ) (h : sees i = true) :
    observed sees step s [i] = [(step s i).1] := if_pos h

theorem observed_append_of_not {sees : ι → Bool} {step : σ → ι → ο × σ} (js : List ι) :
    ∀ (is : List ι) (s : σ), (∀ i ∈ is, sees i = false) →
      observed sees step s (is ++ js) = observed sees step (final step s is) js
  | [], _, _ => rfl
  | i :: is, s, h => by
    rw [List.cons_append, observed, if_neg (by rw [h i List.mem_cons_self]; decide)]
    exact observed_append_of_not js is _ (fun j hj => h j (List.mem_cons_of_mem i hj))

/-- **What is observed is a smaller machine's run**: the relation `R` to the smaller machine is kept by a selected input
with equal outputs, and by any other input with the smaller machine standing still. -/
theorem observed_eq {sees : ι → Bool} {step : σ → ι → ο × σ} {small : τ → κ → ο × τ} {read : ι → κ} {P : ι → Prop}
    {R : σ → τ → Prop}
    (hsees : ∀ s t i, P i → sees i = true → R s t →
      (step s i).1 = (small t (read i)).1 ∧ R (step s i).2 (small t (read i)).2)
    (hskips : ∀ s t i, P i → sees i = false → R s t → R (step s i).2 t) :
    ∀ (is : List ι) (s : σ) (t : τ), (∀ i ∈ is, P i) → R s t →
      observed sees step s is = outputs small t ((is.filter sees).map read)
  | [], _, _, _, _ => rfl
  | i :: is, s, t, hok, hR => by
    have hi := hok i List.mem_cons_self
    have his : ∀ j ∈ is, P j := fun j hj => hok j (List.mem_cons_of_mem i hj)
    cases hs : sees i with
    | true =>
      obtain ⟨ho, hR'⟩ := hsees s t i hi hs hR
      rw [observed, if_pos hs, List.filter_cons_of_pos hs, List.map_cons, outputs, ho,
        observed_eq hsees hskips is _ _ his hR']
    | false =>
      rw [observed, if_neg (by rw [hs]; decide), List.filter_cons_of_neg (by rw [hs]; decide),
        observed_eq hsees hskips is _ _ his (hskips s t i hi hs hR)]

/-! ## Inputs that leave no trace -/

/-- A list, and what is left of it when any of the entries that `drop` holds of are deleted. -/
inductive Thins {α : Type} (drop : α → Prop) : List α → List α → Prop
  | nil : Thins drop [] []
  | keep {x : α} {xs ys : List α} (h : Thins drop xs ys) : Thins drop (x :: xs) (x :: ys)
  | drop {x : α} {xs ys : List α} (hx : drop x) (h : Thins drop xs ys) : Thins drop (x :: xs) ys

theorem Thins.refl {α : Type} {drop : α → Prop} : ∀ xs : List α, Thins drop xs xs
  | []      => .nil
  | _ :: xs => (Thins.refl xs).keep

theorem Thins.of_forall {α : Type} {drop : α → Prop} : ∀ {xs : List α}, (∀ x ∈ xs, drop x) → Thins drop xs []
  | [], _      => .nil
  | _ :: _, h  => (Thins.of_forall fun y hy => h y (List.mem_cons_of_mem _ hy)).drop (h _ List.mem_cons_self)

theorem Thins.filter {α : Type} (keep : α → Bool) : ∀ xs : List α, Thins (fun x => ¬ keep x = true) xs (xs.filter keep)
  | []      => .nil
  | x :: xs => by
    rw [List.filter_cons]
    split
    · exact (Thins.filter keep xs).keep
    · exact (Thins.filter keep xs).drop ‹_›

theorem Thins.append {α : Type} {drop : α → Prop} {xs xs' ys ys' : List α} (h : Thins drop xs ys)
    (h' : Thins drop xs' ys') : Thins drop (xs ++ xs') (ys ++ ys') := by
  induction h with
  | nil => exact h'
  | keep _ ih => exact ih.keep
  | drop hx _ ih => exact ih.drop hx

/-- **Deleting inputs that leave no trace changes no other output**: a relation `R` between the full run and the thinned
one, over the inputs still to come, is kept by an input of both with equal outputs, and by a deleted one with the
thinned run standing still. -/
theorem transcript_of_thins {step : σ → ι → ο × σ} {drop : ι × ο → Prop} {R : List ι → σ → σ → Prop}
    (hkeep : ∀ i is s t, R (i :: is) s t → (step s i).1 = (step t i).1 ∧ R is (step s i).2 (step t i).2)
    (hdrop : ∀ i is s t, R (i :: is) s t → drop (i, (step s i).1) → R is (step s i).2 t) :
    ∀ (is : List ι) (s t : σ) (log : List (ι × ο)), R is s t → Thins drop (transcript step s is) log →
      transcript step t (log.map Prod.fst) = log
  | [], _, _, _, _, h => by cases h; rfl
  | i :: is, s, t, log, hR, h => by
    cases h with
    | keep h =>
      obtain ⟨ho, hR'⟩ := hkeep i is s t hR
      rw [List.map_cons, transcript, ← ho, transcript_of_thins hkeep hdrop is _ _ _ hR' h]
    | drop hx h => exact transcript_of_thins hkeep hdrop is _ _ _ (hdrop i is s t hR hx) h

end Mealy
