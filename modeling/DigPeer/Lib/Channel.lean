import DigPeer.Lib.Lts
/-!
# Channel — a channel that keeps its order and may lose what it is not asked to keep

What is sent goes in at one end and what is received comes out at the other; in between the channel may lose any element
that `keeps` does not hold of.  So what has been received and what is in flight is what has been sent, in its order and
with some elements left out (`sublist_of_runs`), and of the elements that are kept none is left out
(`filter_of_runs`).  A system is shown to carry its messages so by a simulation (`Lts.Runs.refine`).
-/

open Lts

structure Channel (β : Type) where
  sent     : List β
  inFlight : List β
  received : List β

namespace Channel

inductive Op (β : Type) where
  | send (x : β)
  | lose (i : Nat)
  | receive

variable {β : Type} {keeps : β → Bool} {c c' : Channel β} {tr : List (Channel β × Op β)} {op : Op β}

def empty : Channel β := ⟨[], [], []⟩

def step (keeps : β → Bool) (c : Channel β) : Op β → Option (Channel β)
  | .send x  => some { c with sent := c.sent ++ [x], inFlight := c.inFlight ++ [x] }
  | .lose i  =>
    match c.inFlight[i]? with
    | some x => if keeps x then none else some { c with inFlight := c.inFlight.eraseIdx i }
    | none   => none
  | .receive =>
    match c.inFlight with
    | x :: rest => some { c with inFlight := rest, received := c.received ++ [x] }
    | []        => none

theorem step_lose {l r : List β} {x : β} (hx : keeps x = false) (hc : c.inFlight = l ++ x :: r) :
    step keeps c (.lose l.length) = some { c with inFlight := l ++ r } := by
  have hget : c.inFlight[l.length]? = some x := by simp [hc]
  have herase : c.inFlight.eraseIdx l.length = l ++ r := by
    rw [hc, List.eraseIdx_append_of_length_le (Nat.le_refl _), Nat.sub_self]
    rfl
  simp only [step, hget, hx, herase, Bool.false_eq_true, if_false]

theorem sublist_of_step (hc : (c.received ++ c.inFlight).Sublist c.sent) (h : step keeps c op = some c') :
    (c'.received ++ c'.inFlight).Sublist c'.sent := by
  cases op with
  | send x =>
    cases h
    rw [← List.append_assoc]
    exact hc.append (List.Sublist.refl _)
  | lose i =>
    simp only [step] at h
    split at h
    · split at h
      · cases h
      · cases h
        exact ((List.Sublist.refl _).append (List.eraseIdx_sublist _ _)).trans hc
    · cases h
  | receive =>
    simp only [step] at h
    split at h
    · rename_i x rest hinFlight
      cases h
      rw [hinFlight] at hc
      simpa using hc
    · cases h

/-- **What comes out is what went in**, in its order and with nothing twice; some of it may be missing. -/
theorem sublist_of_runs (h : Runs (step keeps) empty tr c) : (c.received ++ c.inFlight).Sublist c.sent :=
  h.invariant (P := fun c => (c.received ++ c.inFlight).Sublist c.sent) (List.Sublist.refl _)
    fun _ _ _ hc hs => sublist_of_step hc hs

theorem filter_of_step (hc : (c.received ++ c.inFlight).filter keeps = c.sent.filter keeps)
    (h : step keeps c op = some c') : (c'.received ++ c'.inFlight).filter keeps = c'.sent.filter keeps := by
  cases op with
  | send x =>
    cases h
    simp only [← List.append_assoc, List.filter_append] at hc ⊢
    rw [hc]
  | lose i =>
    simp only [step] at h
    split at h
    · rename_i x hx
      split at h
      · cases h
      · rename_i hkeeps
        cases h
        -- an element that is not kept is not in the filtered list either
        obtain ⟨hi, rfl⟩ := List.getElem?_eq_some_iff.1 hx
        have hsplit := List.take_append_drop i c.inFlight
        rw [List.drop_eq_getElem_cons hi] at hsplit
        have hfilter : (c.inFlight.eraseIdx i).filter keeps = c.inFlight.filter keeps := by
          rw [← hsplit, List.filter_append, List.filter_cons_of_neg hkeeps, hsplit, List.eraseIdx_eq_take_drop_succ,
            List.filter_append]
        rw [List.filter_append, hfilter, ← List.filter_append, hc]
    · cases h
  | receive =>
    simp only [step] at h
    split at h
    · rename_i x rest hinFlight
      cases h
      rw [hinFlight] at hc
      simpa using hc
    · cases h

/-- **Nothing that is kept is missing.** -/
theorem filter_of_runs (h : Runs (step keeps) empty tr c) :
    (c.received ++ c.inFlight).filter keeps = c.sent.filter keeps :=
  h.invariant (P := fun c => (c.received ++ c.inFlight).filter keeps = c.sent.filter keeps) rfl
    fun _ _ _ hc hs => filter_of_step hc hs

end Channel
