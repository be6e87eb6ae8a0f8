import DigPeer.Codec
import DigPeer.RateLimit
import DigPeer.Lib.Mealy
/-!
# Outlet — the sending half of a link (`send_message` in `link.rs`)

A message is offered to the limiter until it is admitted, refused for good, or the deadline is too near for another
back-off; then its encoding goes to the sink as one binary frame.  `admissionLoop` is that loop over the readings of the
two clocks.  `Outlet.send` is the same code one step at a time, for a link on which other callers run in between: a
`SendPhase` says where a caller stands in it, and so who has the sink's lock.
-/
namespace Dig

open Mealy

/-- What a link can report (`error.rs`), without the payloads of the libraries' own errors. -/
inductive LinkError where
  | streamable
  | webSocket
  | invalidResponse (expected : List UInt8) (found : UInt8)
  | recv
  | unsendable (opcode : UInt8) (length : ℕ)
  | sendTimeout (opcode : UInt8)
  | requestTimeout (opcode : UInt8)
  | malformedOpcode
deriving DecidableEq, Repr

/-- Readings of the monotonic clock, and lengths of time, are in nanoseconds. -/
def nanosPerSecond : ℕ := 1000000000

def rateLimitBackoff : ℕ := nanosPerSecond

def rateLimitWindowSeconds : ℕ+ := 60

structure LinkOptions where
  rateLimitFactor : ℚ
  sendTimeout     : ℕ
deriving DecidableEq, Repr

def LinkOptions.default : LinkOptions where
  rateLimitFactor := 6 / 10
  sendTimeout     := rateLimitWindowSeconds * 2 * nanosPerSecond

/-! ## The admission loop -/

/-- One turn of the loop: what other callers offered since the last, the wall clock in seconds when the limiter is
asked, and the monotonic clock when the deadline is tested. -/
structure Attempt where
  others  : List (ℕ × DigMessage)
  wall    : ℕ
  instant : ℕ

/-- The loop of `send_message`, over as many turns as it is given; `none` is a caller that still sleeps after them. -/
def admissionLoop (deadline : ℕ) (message : DigMessage) :
    OpcodeRateLimiter → List Attempt → Option (Except LinkError Unit) × OpcodeRateLimiter
  | limiter, []      => (none, limiter)
  | limiter, a :: as =>
    let limiter := final OpcodeRateLimiter.offer limiter a.others
    match limiter.admitAt a.wall message with
    | (.admitted, limiter)   => (some (.ok ()), limiter)
    | (.unsendable, limiter) => (some (.error (.unsendable message.msgType message.data.length)), limiter)
    | (.deferred, limiter)   =>
      if deadline < a.instant + rateLimitBackoff then (some (.error (.sendTimeout message.msgType)), limiter)
      else admissionLoop deadline message limiter as

/-! ## One step at a time -/

inductive Writer where
  | call (c : ℕ)
  | post (p : ℕ)
deriving DecidableEq, Repr

/-- A binary frame handed to the sink; its writer is kept for the proofs and read by no code. -/
structure Written where
  writer : Writer
  frame  : Bytes
deriving DecidableEq, Repr

/-- The limiter and the sink, each behind a lock of its own.  The limiter's is held within one step only. -/
structure Outlet where
  limiter : OpcodeRateLimiter
  sink    : List Written

inductive SendPhase where
  | admitting
  | deferred
  | writing
  | feeding
  | flushing
deriving DecidableEq, Repr

/-- A send has the sink's lock from the moment it gets it until its frame is fed and flushed. -/
def SendPhase.hasLock : SendPhase → Bool
  | .feeding | .flushing             => true
  | .admitting | .deferred | .writing => false

inductive SendEvent where
  | attempt (now : ℕ)
  | retry
  | giveUp
  | lock
  | feed (ok : Bool)
  | flush (ok : Bool)
deriving DecidableEq, Repr

inductive Progress where
  | at (phase : SendPhase)
  | failed (error : LinkError)
  | sent
deriving DecidableEq, Repr

def Progress.ofAdmission (message : DigMessage) : Admission → Progress
  | .admitted   => .at .writing
  | .unsendable => .failed (.unsendable message.msgType message.data.length)
  | .deferred   => .at .deferred

/-- A step of `send_message`.  `sink.lock().await` waits until the lock is free (`Link.send`).  `Sink::send` is a feed,
in which the frame takes its place among the others, and a flush; either can fail.  Of a deferred caller the deadline
decides whether it tries again or gives up. -/
def Outlet.send (o : Outlet) (writer : Writer) (message : DigMessage) :
    SendPhase → SendEvent → Option (Progress × Outlet)
  | .admitting, .attempt now =>
    let (admission, limiter) := o.limiter.admitAt now message
    some (.ofAdmission message admission, { o with limiter })
  | .deferred, .retry       => some (.at .admitting, o)
  | .deferred, .giveUp      => some (.failed (.sendTimeout message.msgType), o)
  | .writing, .lock         => some (.at .feeding, o)
  | .feeding, .feed true    => some (.at .flushing, { o with sink := o.sink ++ [⟨writer, message.toBytes⟩] })
  | .feeding, .feed false   => some (.failed .webSocket, o)
  | .flushing, .flush true  => some (.sent, o)
  | .flushing, .flush false => some (.failed .webSocket, o)
  | _, _                    => none

/-! ## What the loop admits -/

/-- The budgets of the table, scaled, admit the message in a window in which nothing has been charged. -/
def OpcodeRateLimits.Admissible (limits : OpcodeRateLimits) (factor : ℚ) (m : DigMessage) : Prop :=
  limits.FitsAnEmptyWindow factor m ∧ 0 ≤ limits.nonTxFrequency * factor ∧ 0 ≤ limits.nonTxMaxTotalSize * factor

namespace OpcodeRateLimiter

variable {direction : Direction} {reset : ℕ+} {factor : ℚ} {limits : OpcodeRateLimits} {now deadline : ℕ}
  {l : OpcodeRateLimiter} {m : DigMessage}

/-- What the loop's limiter always is: built from the table, with counters that are not negative. -/
structure Built (direction : Direction) (reset : ℕ+) (factor : ℚ) (limits : OpcodeRateLimits)
    (l : OpcodeRateLimiter) : Prop where
  builtWith : BuiltWith direction reset factor limits l
  counters  : l.NonNegCounters

theorem Built.admitAt (h : Built direction reset factor limits l) (now : ℕ) (m : DigMessage) :
    Built direction reset factor limits (l.admitAt now m).2 := ⟨h.builtWith.admitAt now m, h.counters.admitAt⟩

theorem Built.final (h : Built direction reset factor limits l) (offers : List (ℕ × DigMessage)) :
    Built direction reset factor limits (final offer l offers) :=
  final_invariant (fun _ x hl => hl.admitAt x.1 x.2) offers l h

theorem built_new (now : ℕ) : Built direction reset factor limits (new now direction reset factor limits) :=
  ⟨builtWith_new now, nonNegCounters_new⟩

theorem Built.admissible (h : Built direction reset factor limits l) (ha : (l.admitAt now m).1 = .admitted) :
    limits.Admissible factor m := by
  have hr := h.builtWith.rollWindow now
  have hcounters : ((l.rollWindow now).charge m).NonNegCounters := h.counters.rollWindow.charge
  rw [admitAt_fst, verdict_eq_admitted_iff, hr.limits, hr.limitFactor] at ha
  obtain ⟨hempty, hcount, hsize, _⟩ := ha
  rw [hr.limits, hr.limitFactor] at hcount hsize
  exact ⟨hempty, le_trans hcounters.nonTxCount hcount, le_trans hcounters.nonTxSize hsize⟩

/-- **A new limiter admits every admissible message.** -/
theorem admitAt_new_of_admissible (h : limits.Admissible factor m) :
    ((new now direction reset factor limits).admitAt now m).1 = .admitted := by
  obtain ⟨hempty, hcount, hsize⟩ := h
  rw [admitAt_fst, rollWindow_of_eq rfl, verdict_eq_admitted_iff]
  have ⟨_, htotal, hfreq, haggregate⟩ := hempty
  have hc : ∀ opcode, (new now direction reset factor limits).count opcode = 0 := fun _ => rfl
  have hs : ∀ opcode, (new now direction reset factor limits).cumulativeSize opcode = 0 := fun _ => rfl
  refine ⟨hempty, ?_, ?_, ?_, ?_⟩
  · rw [charge_nonTxCount]
    show 0 + (if limits.countsAgainstNonTx m.msgType then 1 else 0) ≤ limits.nonTxFrequency * factor
    rw [zero_add]
    rcases haggregate with hc | ⟨hc, _⟩
    · rw [hc]; exact hcount
    · split; exacts [hc, hcount]
  · rw [charge_nonTxSize]
    show 0 + (if limits.countsAgainstNonTx m.msgType then m.size else 0) ≤ limits.nonTxMaxTotalSize * factor
    rw [zero_add]
    rcases haggregate with hc | ⟨_, hc⟩
    · rw [hc]; exact hsize
    · split; exacts [hc, hsize]
  · rw [charge_count, hc, if_pos rfl, zero_add]
    exact hfreq
  · rw [charge_cumulativeSize, hs, if_pos rfl, zero_add]
    exact htotal

end OpcodeRateLimiter

theorem admissible_of_admissionLoop {direction : Direction} {reset : ℕ+} {factor : ℚ} {limits : OpcodeRateLimits}
    {deadline : ℕ} {m : DigMessage} : ∀ (attempts : List Attempt) (l : OpcodeRateLimiter),
      l.Built direction reset factor limits → (admissionLoop deadline m l attempts).1 = some (.ok ()) →
        limits.Admissible factor m
  | [], _, _, h => by cases h
  | a :: as, l, hl, h => by
    have hl' := hl.final a.others
    rw [admissionLoop] at h
    split at h
    · rename_i hverdict
      exact hl'.admissible (by rw [hverdict])
    · cases h
    · rename_i hverdict
      split at h
      · cases h
      · have hafter := hl'.admitAt a.wall m
        rw [hverdict] at hafter
        exact admissible_of_admissionLoop as _ hafter h

theorem admissionLoop_of_admitted {l : OpcodeRateLimiter} {m : DigMessage} {deadline wall instant : ℕ}
    (h : (l.admitAt wall m).1 = .admitted) : (admissionLoop deadline m l [⟨[], wall, instant⟩]).1 = some (.ok ()) := by
  simp only [admissionLoop, final_nil]
  split
  · rfl
  all_goals (rename_i hverdict; rw [hverdict] at h; cases h)

/-! ## What the peer decodes of it -/

/-- **What is admitted decodes**, for one table, factor and message: whatever a limiter of this kind has been offered
before, and whatever the clocks and the other callers do, if the loop lets the message through then the decoder at the
other end gives it back. -/
def AdmittedDecodes (reset : ℕ+) (factor : ℚ) (limits : OpcodeRateLimits) (m : DigMessage) : Prop :=
  ∀ (now deadline : ℕ) (offers : List (ℕ × DigMessage)) (attempts : List Attempt),
    let l := final OpcodeRateLimiter.offer (OpcodeRateLimiter.new now .outbound reset factor limits) offers
    (admissionLoop deadline m l attempts).1 = some (.ok ()) → DigMessage.fromBytesOwned m.toBytes = .ok (some m)

/-- **Admitted messages decode exactly within the decoder's cap**: the limiter has no bound of its own at the cap, so a
longer payload is written, and not decoded, whenever the table's budgets admit it. -/
theorem admittedDecodes_iff {P : Type} (toBytes : P → Option Bytes) (limits : RateLimits P) (factor : ℚ) (reset : ℕ+)
    (m : DigMessage) :
    AdmittedDecodes reset factor (.ofRateLimits toBytes limits) m ↔
      m.data.length ≤ DigMessage.maxMessageSize ∨
        ¬ (OpcodeRateLimits.ofRateLimits toBytes limits).Admissible factor m := by
  have hdecode : DigMessage.fromBytesOwned m.toBytes = .ok (some m) ↔ m.data.length ≤ DigMessage.maxMessageSize := by
    rw [DigMessage.fromBytesOwned_eq, Except.ok.injEq, parse_toBytes_iff]
  unfold AdmittedDecodes
  simp only [hdecode]
  constructor
  · intro h
    by_cases ha : (OpcodeRateLimits.ofRateLimits toBytes limits).Admissible factor m
    · exact Or.inl (h 0 0 [] [⟨[], 0, 0⟩] (admissionLoop_of_admitted (OpcodeRateLimiter.admitAt_new_of_admissible ha)))
    · exact Or.inr ha
  · rintro (hlen | hnot) now deadline offers attempts hloop
    · exact hlen
    · have hbuilt : OpcodeRateLimiter.Built .outbound reset factor (.ofRateLimits toBytes limits) _ :=
        (OpcodeRateLimiter.built_new now).final offers
      exact absurd (admissible_of_admissionLoop attempts _ hbuilt hloop) hnot

def roomyLimits : RateLimits UInt8 where
  defaultSettings   := ⟨100, 33554432, none⟩
  nonTxFrequency    := 1000
  nonTxMaxTotalSize := 104857600
  tx                := ∅
  other             := ∅

def oversized : DigMessage := ⟨220, none, List.replicate (DigMessage.maxMessageSize + 1) 0⟩

theorem length_oversized : oversized.data.length = DigMessage.maxMessageSize + 1 := List.length_replicate

theorem admissible_oversized :
    (OpcodeRateLimits.ofRateLimits (fun b => some [b]) roomyLimits).Admissible 1 oversized := by
  have hsize : oversized.size = 16777217 := by
    rw [DigMessage.size, length_oversized]
    decide +kernel
  refine ⟨⟨?_, ?_, ?_, Or.inl rfl⟩, ?_, ?_⟩
  · rw [hsize]; decide +kernel
  · rw [hsize]; decide +kernel
  · decide +kernel
  · decide +kernel
  · decide +kernel

/-- **The roomy table admits a message that the decoder refuses.** -/
theorem not_admittedDecodes :
    ¬ ∀ (limits : RateLimits UInt8) (factor : ℚ) (reset : ℕ+) (m : DigMessage),
        AdmittedDecodes reset factor (.ofRateLimits (fun b => some [b]) limits) m := by
  intro h
  have hdecodes := h roomyLimits 1 60 oversized 0 0 [] [⟨[], 0, 0⟩]
    (admissionLoop_of_admitted (OpcodeRateLimiter.admitAt_new_of_admissible admissible_oversized))
  rw [DigMessage.fromBytesOwned_eq, Except.ok.injEq, parse_toBytes_iff, length_oversized] at hdecodes
  omega

end Dig
