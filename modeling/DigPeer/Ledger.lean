import DigPeer.Refusals
import DigPeer.Sending
/-!
# Ledger — whose messages the outbound limiter is charged with

The limiter keeps totals and no names.  The `ledger` of a history is the list of the messages, with their writers, that
have been admitted since the limiter last rolled; the limiter is an empty one charged with these and nothing else
(`limiter_of_runs`).  So a writer has a charge on the limiter exactly when it is on the ledger, and only an admission
brings it there.
-/
namespace Dig

open Correlator Lts

/-! ## A limiter and what it is charged with -/

namespace OpcodeRateLimiter

variable {l : OpcodeRateLimiter} {m : DigMessage} {ms : List DigMessage} {now : ℕ}

def cleared (l : OpcodeRateLimiter) : OpcodeRateLimiter :=
  { l with counts := ∅, cumulativeSizes := ∅, nonTxCount := 0, nonTxSize := 0 }

/-- The limiter is charged with these messages, one after the other, and with no others. -/
def ChargedWith (l : OpcodeRateLimiter) (ms : List DigMessage) : Prop := l = ms.foldl charge l.cleared

theorem ChargedWith.charge (h : l.ChargedWith ms) (m : DigMessage) : (l.charge m).ChargedWith (ms ++ [m]) := by
  have hcleared : (l.charge m).cleared = l.cleared := rfl
  rw [ChargedWith, hcleared, List.foldl_append, ← h]
  rfl

theorem ChargedWith.rollWindow (h : l.ChargedWith ms) (now : ℕ) :
    (l.rollWindow now).ChargedWith (if l.period = now / l.resetSeconds then ms else []) := by
  by_cases hsame : l.period = now / l.resetSeconds
  · rw [rollWindow_of_eq hsame, if_pos hsame]
    exact h
  · rw [rollWindow_of_ne hsame, if_neg hsame]
    rfl

/-- **An outbound limiter is charged with what it admits**, and with nothing from before the window it rolls into. -/
theorem ChargedWith.admitAt (h : l.ChargedWith ms) (hout : l.direction = .outbound) (now : ℕ) (m : DigMessage) :
    (l.admitAt now m).2.ChargedWith ((if l.period = now / l.resetSeconds then ms else []) ++
      if (l.admitAt now m).1 = .admitted then [m] else []) := by
  have hroll := h.rollWindow now
  by_cases hadm : (l.admitAt now m).1 = .admitted
  · have hverdict : (l.rollWindow now).verdict m = .admitted := hadm
    rw [if_pos hadm, admitAt_snd, if_pos (Or.inr hverdict)]
    exact hroll.charge m
  · have hrefused := offer_snd_of_refused (x := (now, m)) hout hadm
    rw [if_neg hadm, List.append_nil]
    exact hrefused ▸ hroll

end OpcodeRateLimiter

/-! ## The ledger of a history -/

variable {tr : List (Link × Action)} {s s' t : Link} {a : Action} {x : Link × Action} {w : Writer} {m : DigMessage}
  {phase : SendPhase} {e : SendEvent} {progress : Progress} {o o' : Outlet} {now n : ℕ} {factor : ℚ}
  {limits : OpcodeRateLimits} {entry : Writer × DigMessage} {ledger : List (Writer × DigMessage)}

def attempt (x : Link × Action) : Option (Writer × ℕ × DigMessage) :=
  match x.2 with
  | .call c (.send (.attempt now))     => (x.1.message? (.call c)).map fun m => (.call c, now, m)
  | .postStep p (.send (.attempt now)) => (x.1.message? (.post p)).map fun m => (.post p, now, m)
  | _                                  => none

/-- The ledger, one step on: a roll closes it, and an admission is written into it. -/
def enter (ledger : List (Writer × DigMessage)) (x : Link × Action) : List (Writer × DigMessage) :=
  match attempt x with
  | none             => ledger
  | some (w, now, m) =>
    (if x.1.outlet.limiter.period = now / x.1.outlet.limiter.resetSeconds then ledger else []) ++
      if (x.1.outlet.limiter.admitAt now m).1 = .admitted then [(w, m)] else []

/-- The messages admitted since the limiter last rolled, with their writers. -/
def ledgerOf (tr : List (Link × Action)) : List (Writer × DigMessage) := tr.foldl enter []

theorem ledgerOf_concat : ledgerOf (tr ++ [x]) = enter (ledgerOf tr) x := by
  rw [ledgerOf, List.foldl_append]
  rfl

theorem mem_enter (h : entry ∈ enter ledger x) : entry ∈ ledger ∨
    ∃ now, attempt x = some (entry.1, now, entry.2) ∧ (x.1.outlet.limiter.admitAt now entry.2).1 = .admitted := by
  unfold enter at h
  split at h
  · exact Or.inl h
  · rename_i w now m hattempt
    rcases List.mem_append.1 h with h | h
    · split at h
      · exact Or.inl h
      · cases h
    · split at h
      · rename_i hadm
        obtain rfl := List.mem_singleton.1 h
        exact Or.inr ⟨now, hattempt, hadm⟩
      · cases h

/-! ## The limiter of a link -/

theorem Outlet.limiter_of_send (h : o.send w m phase e = some (progress, o')) : o'.limiter =
    match e with
    | .attempt now => (o.limiter.admitAt now m).2
    | _            => o.limiter := by
  unfold Outlet.send at h
  split at h <;> cases h <;> rfl

/-- **The limiter is reached by offers alone.** -/
theorem limiter_of_step (h : s.step a = some s') : s'.outlet.limiter =
    match attempt (s, a) with
    | none             => s.outlet.limiter
    | some (_, now, m) => (s.outlet.limiter.admitAt now m).2 := by
  cases Link.stepped_of_step h with
  | @callSend c e call k phase progress outlet hc hp hs =>
    have hm := Link.message?_call hc hp
    have hlimiter := Outlet.limiter_of_send hs
    cases e with
    | attempt now => simpa [attempt, hm] using hlimiter
    | retry | giveUp | lock | feed | flush => exact hlimiter
  | @postSend p e post phase progress outlet hpost hp hs =>
    have hm := Link.message?_post hpost
    have hlimiter := Outlet.limiter_of_send hs
    cases e with
    | attempt now => simpa [attempt, hm] using hlimiter
    | retry | giveUp | lock | feed | flush => exact hlimiter
  | @callStep c e u he ht =>
    cases e with
    | send e => exact absurd rfl (he e)
    | acquire | insert | receive | expire | cancel | finish | abandon => rfl
  | deliver => rw [Link.deliver_outlet]; rfl
  | request | post | postAbandon | close | inbound | handoff | release | recv | closeApp => rfl

theorem direction_of_runs (h : Runs Link.step (Link.fromParts n factor limits) tr t) :
    t.outlet.limiter.direction = .outbound := by
  apply h.invariant (P := fun s : Link => s.outlet.limiter.direction = .outbound) rfl
  intro s a s' hs hstep
  rw [limiter_of_step hstep]
  split
  · exact hs
  · rename_i now m _
    have hbuilt : OpcodeRateLimiter.BuiltWith .outbound s.outlet.limiter.resetSeconds s.outlet.limiter.limitFactor
      s.outlet.limiter.limits s.outlet.limiter := ⟨hs, rfl, rfl, rfl⟩
    exact (hbuilt.admitAt now m).direction

/-- **The limiter is charged with what is on the ledger.** -/
theorem limiter_of_runs (h : Runs Link.step (Link.fromParts n factor limits) tr t) :
    t.outlet.limiter.ChargedWith ((ledgerOf tr).map Prod.snd) := by
  induction h with
  | start => rfl
  | @step tr s s' a hrun hs ih =>
    rw [limiter_of_step hs, ledgerOf_concat, enter]
    cases hattempt : attempt (s, a) with
    | none => exact ih
    | some offer =>
      obtain ⟨w, now, m⟩ := offer
      have hadmit := ih.admitAt (direction_of_runs hrun) now m
      have hmap : ((if s.outlet.limiter.period = now / s.outlet.limiter.resetSeconds then ledgerOf tr else []) ++
          if (s.outlet.limiter.admitAt now m).1 = .admitted then [(w, m)] else []).map Prod.snd =
        (if s.outlet.limiter.period = now / s.outlet.limiter.resetSeconds then (ledgerOf tr).map Prod.snd else []) ++
          if (s.outlet.limiter.admitAt now m).1 = .admitted then [m] else [] := by
        rw [List.map_append]
        congr 1 <;> split <;> rfl
      dsimp only
      rw [hmap]
      exact hadmit

end Dig
