import DigPeer.Message
import DigPeer.Lib.FiniteMap
/-!
# RequestMap — the live requests of a link, by wire id (`request_map.rs`)

Each operation here is what the source does under one lock.  A `Request` value is also a permit: acquiring one is a step
of its own before `insert`, and whoever drops a `Request` releases it.  A request's `sender` is the sending end of the
oneshot channel of one call, named by the call.

`next_id` has a lock of its own in the source, taken only while `items` is locked, so `insert` is one step.
-/
namespace Dig

/-- A call of `request_message`, and the oneshot channel it waits on. -/
abbrev CallId := ℕ

structure Request where
  sender     : CallId
  expected   : List UInt8
  undeclared : Option UInt8
deriving DecidableEq, Repr

def Request.intoDiagnosis (r : Request) : Option (List UInt8 × UInt8) :=
  r.undeclared.map fun found => (r.expected, found)

inductive Correlation where
  | unknown
  | answer (request : Request)
  | undeclared
deriving DecidableEq, Repr

structure RequestMap where
  items    : AList fun _ : UInt16 => Request
  capacity : ℕ
  nextId   : UInt16

namespace RequestMap

def new : RequestMap where
  items    := ∅
  capacity := 65535
  nextId   := 0

/-- `capacity.acquire_owned()`, which waits while there is no permit. -/
def acquire (rm : RequestMap) : Option RequestMap :=
  if 0 < rm.capacity then some { rm with capacity := rm.capacity - 1 } else none

def release (rm : RequestMap) : RequestMap := { rm with capacity := rm.capacity + 1 }

/-- `items.retain(|_, request| !request.sender.is_closed())`; every request it removes is dropped with its permit. -/
def retain (rm : RequestMap) (isClosed : CallId → Bool) : RequestMap :=
  let items := rm.items.retain fun _ request => !isClosed request.sender
  { rm with items, capacity := rm.capacity + (rm.items.size - items.size) }

/-- The `loop` over ids, wrapping at `2 ^ 16`; it has no answer when it would not stop. -/
def scan (items : AList fun _ : UInt16 => Request) : ℕ → UInt16 → Option UInt16
  | 0, _         => none
  | fuel + 1, id => if id ∈ items then scan items fuel (id + 1) else some id

/-- `insert`, from the lock on: the caller holds a permit. -/
def insert (rm : RequestMap) (isClosed : CallId → Bool) (sender : CallId) (expected : List UInt8) :
    Option (UInt16 × RequestMap) :=
  let rm := rm.retain isClosed
  match scan rm.items (2 ^ 16) rm.nextId with
  | none    => none
  | some id => some (id, { rm with items := rm.items.insert id ⟨sender, expected, none⟩, nextId := id + 1 })

def take (rm : RequestMap) (id : UInt16) (msgType : UInt8) : Correlation × RequestMap :=
  match rm.items.lookup id with
  | none         => (.unknown, rm)
  | some request =>
    if msgType ∉ request.expected then
      (.undeclared, { rm with items := rm.items.insert id { request with undeclared := some msgType } })
    else (.answer request, { rm with items := rm.items.erase id })

def cancel (rm : RequestMap) (id : UInt16) : Option Request × RequestMap :=
  (rm.items.lookup id, { rm with items := rm.items.erase id })

/-! ## What each operation does -/

variable {rm rm' : RequestMap} {isClosed : CallId → Bool} {sender : CallId} {expected : List UInt8} {id k : UInt16}
  {msgType : UInt8} {r : Request}

@[simp] theorem release_items : rm.release.items = rm.items := rfl
@[simp] theorem release_capacity : rm.release.capacity = rm.capacity + 1 := rfl
@[simp] theorem retain_nextId : (rm.retain isClosed).nextId = rm.nextId := rfl

theorem lookup_retain_eq_some_iff :
    (rm.retain isClosed).items.lookup k = some r ↔ rm.items.lookup k = some r ∧ isClosed r.sender = false := by
  rw [retain, AList.lookup_retain, Option.filter_eq_some_iff, Bool.not_eq_true']

/-- The permits of the removed requests are released. -/
theorem retain_capacity_add_size (rm : RequestMap) (isClosed : CallId → Bool) :
    (rm.retain isClosed).capacity + (rm.retain isClosed).items.size = rm.capacity + rm.items.size := by
  have hle := AList.size_retain_le (fun _ request => !isClosed request.sender) rm.items
  simp only [retain]
  omega

theorem acquire_eq_some_iff :
    rm.acquire = some rm' ↔ 0 < rm.capacity ∧ rm' = { rm with capacity := rm.capacity - 1 } := by
  unfold acquire
  split
  · rename_i h
    rw [Option.some.injEq, eq_comm]
    exact ⟨fun hr => ⟨h, hr⟩, fun hr => hr.2⟩
  · rename_i h
    exact ⟨fun hr => (by cases hr), fun hr => absurd hr.1 h⟩

theorem scan_notMem {items : AList fun _ : UInt16 => Request} : ∀ (fuel : ℕ) (start : UInt16),
    scan items fuel start = some id → id ∉ items
  | 0, _, h => by cases h
  | fuel + 1, start, h => by
    rw [scan] at h
    split at h
    · exact scan_notMem fuel (start + 1) h
    · rename_i hstart
      cases h
      exact hstart

theorem scan_of_notMem {items : AList fun _ : UInt16 => Request} {fuel : ℕ} (hfuel : 0 < fuel) (h : id ∉ items) :
    scan items fuel id = some id := by
  cases fuel with
  | zero      => exact absurd hfuel (Nat.lt_irrefl 0)
  | succ fuel => exact if_neg h

/-- **What `insert` does**: after reclaiming the closed requests it stores the new one under an id that is free. -/
theorem insert_eq_some_iff : rm.insert isClosed sender expected = some (id, rm') ↔
    scan (rm.retain isClosed).items (2 ^ 16) rm.nextId = some id ∧
      rm' = { rm.retain isClosed with
        items := (rm.retain isClosed).items.insert id ⟨sender, expected, none⟩, nextId := id + 1 } := by
  unfold insert
  simp only [retain_nextId]
  split
  · rename_i h
    rw [h]
    exact ⟨fun hi => (by cases hi), fun hi => (by cases hi.1)⟩
  · rename_i h
    rw [h, Option.some.injEq, Option.some.injEq, Prod.mk.injEq]
    constructor
    · rintro ⟨rfl, rfl⟩
      exact ⟨rfl, rfl⟩
    · rintro ⟨rfl, rfl⟩
      exact ⟨rfl, rfl⟩

theorem take_of_none (h : rm.items.lookup id = none) : rm.take id msgType = (.unknown, rm) := by
  simp only [take, h]

theorem take_of_notMem (hl : rm.items.lookup id = some r) (h : msgType ∉ r.expected) :
    rm.take id msgType =
      (.undeclared, { rm with items := rm.items.insert id { r with undeclared := some msgType } }) := by
  simp only [take, hl, if_pos h]

theorem take_of_mem (hl : rm.items.lookup id = some r) (h : msgType ∈ r.expected) :
    rm.take id msgType = (.answer r, { rm with items := rm.items.erase id }) := by
  simp only [take, hl, if_neg (not_not.2 h)]

theorem retain_of_closed (h : ∀ k r, rm.items.lookup k = some r → isClosed r.sender = true) :
    (rm.retain isClosed).items = ∅ := by
  apply AList.ext
  refine List.filter_eq_nil_iff.2 fun e he => ?_
  have hclosed := h e.1 e.2 (AList.mem_entries_iff.1 he)
  simp only [hclosed, Bool.not_true, Bool.false_eq_true, not_false_eq_true]

/-- An `insert` that finds every request closed reclaims them all, and gives out the id the cursor is at. -/
theorem insert_of_closed (h : ∀ k r, rm.items.lookup k = some r → isClosed r.sender = true) :
    rm.insert isClosed sender expected = some (rm.nextId,
      ⟨AList.insert rm.nextId ⟨sender, expected, none⟩ ∅, rm.capacity + rm.items.size, rm.nextId + 1⟩) := by
  have hitems := retain_of_closed h
  have hcapacity := retain_capacity_add_size rm isClosed
  rw [hitems, AList.size_empty, Nat.add_zero] at hcapacity
  refine insert_eq_some_iff.2 ⟨?_, ?_⟩
  · rw [hitems]
    exact scan_of_notMem (by decide) (AList.notMem_empty _)
  · rw [hitems, ← hcapacity]

theorem retain_of_open (h : ∀ k r, rm.items.lookup k = some r → isClosed r.sender = false) :
    rm.retain isClosed = rm := by
  have hitems : (rm.items.retain fun _ request => !isClosed request.sender) = rm.items := by
    apply AList.ext
    refine List.filter_eq_self.2 fun e he => ?_
    have hopen := h e.1 e.2 (AList.mem_entries_iff.1 he)
    simp only [hopen, Bool.not_false]
  unfold retain
  simp only [hitems, Nat.sub_self, Nat.add_zero]

theorem insert_of_open (h : ∀ k r, rm.items.lookup k = some r → isClosed r.sender = false) (hid : rm.nextId ∉ rm.items) :
    rm.insert isClosed sender expected = some (rm.nextId,
      { rm with items := rm.items.insert rm.nextId ⟨sender, expected, none⟩, nextId := rm.nextId + 1 }) := by
  refine insert_eq_some_iff.2 ⟨?_, ?_⟩
  · rw [retain_of_open h]
    exact scan_of_notMem (by decide) hid
  · rw [retain_of_open h]

end RequestMap

end Dig
