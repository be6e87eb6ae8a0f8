import DigPeer.Diagnosis
/-!
# Blind — a link up to its diagnoses

An entry of the map records the last undeclared opcode that arrived on it.  Nothing but the error of an expired call is
made of that record, so two links that differ in their records alone, and in what their applications have received, take
the same steps (`Link.Same.step`).  `forget` is what is left of a request, a call or a reader without the record and the
errors made of it.
-/
namespace Dig

open Correlator

def Request.forget (r : Request) : Request := { r with undeclared := none }

def Stage.forget : Stage → Stage
  | .reclaimed request _ => .reclaimed (request.map Request.forget) .recv
  | .returned (.error _) => .returned (.error .recv)
  | stage                => stage

def Phase.forget : Phase → Phase
  | .registered id stage => .registered id stage.forget
  | phase                => phase

def Call.forget (call : Call) : Call := { call with phase := call.phase.forget }

def Reader.forget : Reader → Reader
  | .answering waiter m => .answering waiter.forget m
  | reader              => reader

theorem Request.forget_eq_iff {r r' : Request} :
    r.forget = r'.forget ↔ r.sender = r'.sender ∧ r.expected = r'.expected := by
  simp [forget]

/-! ## The map -/

/-- Two maps whose entries differ in their records alone. -/
def SameItems (items items' : AList fun _ : UInt16 => Request) : Prop :=
  ∀ k, (items.lookup k).map Request.forget = (items'.lookup k).map Request.forget

namespace SameItems

variable {items items' : AList fun _ : UInt16 => Request} {k : UInt16} {r r' : Request}

theorem symm (h : SameItems items items') : SameItems items' items := fun k => (h k).symm

theorem lookup_some (h : SameItems items items') (hl : items.lookup k = some r) :
    ∃ r', items'.lookup k = some r' ∧ r'.forget = r.forget := by
  have hk := h k
  rw [hl, Option.map_some] at hk
  exact Option.map_eq_some_iff.1 hk.symm

theorem lookup_none (h : SameItems items items') (hl : items.lookup k = none) : items'.lookup k = none := by
  have hk := h k
  rw [hl, Option.map_none] at hk
  exact Option.map_eq_none_iff.1 hk.symm

theorem mem_iff (h : SameItems items items') : k ∈ items ↔ k ∈ items' := by
  rw [← AList.lookup_isSome, ← AList.lookup_isSome, ← Option.isSome_map, h k, Option.isSome_map]

theorem size_eq (h : SameItems items items') : items.size = items'.size := by
  have hkeyset : items.keyset = items'.keyset := by
    ext k
    rw [AList.mem_keyset_iff, AList.mem_keyset_iff, h.mem_iff]
  rw [← AList.card_keyset, hkeyset, AList.card_keyset]

theorem insert (h : SameItems items items') (hr : r.forget = r'.forget) :
    SameItems (items.insert k r) (items'.insert k r') := by
  intro k'
  rw [AList.lookup_insert_eq, AList.lookup_insert_eq]
  by_cases hk : k = k'
  · rw [if_pos hk, if_pos hk, Option.map_some, Option.map_some, hr]
  · rw [if_neg hk, if_neg hk, h k']

theorem record (h : SameItems items items') (hl : items.lookup k = some r) (hr : r'.forget = r.forget) :
    SameItems (items.insert k r') items' := by
  intro k'
  rw [AList.lookup_insert_eq, ← h k']
  by_cases hk : k = k'
  · rw [if_pos hk, ← hk, hl, Option.map_some, Option.map_some, hr]
  · rw [if_neg hk]

theorem erase (h : SameItems items items') : SameItems (items.erase k) (items'.erase k) := by
  intro k'
  rw [AList.lookup_erase_eq, AList.lookup_erase_eq]
  by_cases hk : k = k'
  · rw [if_pos hk, if_pos hk]
  · rw [if_neg hk, if_neg hk, h k']

theorem retain (h : SameItems items items') (isClosed : CallId → Bool) :
    SameItems (items.retain fun _ request => !isClosed request.sender)
      (items'.retain fun _ request => !isClosed request.sender) := by
  intro k
  rw [AList.lookup_retain, AList.lookup_retain]
  cases hl : items.lookup k with
  | none => rw [h.lookup_none hl]
  | some r =>
    obtain ⟨r', hl', hr⟩ := h.lookup_some hl
    rw [hl', Option.filter_some, Option.filter_some, (Request.forget_eq_iff.1 hr).1]
    cases isClosed r.sender with
    | true  => rfl
    | false => exact congrArg some hr.symm

theorem scan_eq (h : SameItems items items') : ∀ (fuel : ℕ) (start : UInt16),
    RequestMap.scan items fuel start = RequestMap.scan items' fuel start
  | 0, _            => rfl
  | fuel + 1, start => by
    rw [RequestMap.scan, RequestMap.scan, scan_eq h fuel]
    by_cases hmem : start ∈ items
    · rw [if_pos hmem, if_pos (h.mem_iff.1 hmem)]
    · rw [if_neg hmem, if_neg (mt h.mem_iff.2 hmem)]

end SameItems

structure RequestMap.Same (rm rm' : RequestMap) : Prop where
  items    : SameItems rm.items rm'.items
  capacity : rm.capacity = rm'.capacity
  nextId   : rm.nextId = rm'.nextId

theorem RequestMap.Same.symm {rm rm' : RequestMap} (h : rm.Same rm') : rm'.Same rm :=
  ⟨h.items.symm, h.capacity.symm, h.nextId.symm⟩

theorem RequestMap.Same.release {rm rm' : RequestMap} (h : rm.Same rm') : rm.release.Same rm'.release :=
  ⟨h.items, by rw [release_capacity, release_capacity, h.capacity], h.nextId⟩

theorem RequestMap.Same.retain {rm rm' : RequestMap} (h : rm.Same rm') (isClosed : CallId → Bool) :
    (rm.retain isClosed).Same (rm'.retain isClosed) := by
  have hitems := h.items.retain isClosed
  refine ⟨hitems, ?_, h.nextId⟩
  unfold RequestMap.retain
  dsimp only
  rw [h.capacity, h.items.size_eq, hitems.size_eq]

/-- **An `insert` gives out the same id.** -/
theorem RequestMap.Same.insert {rm rm' rm₁ : RequestMap} (h : rm.Same rm') {isClosed : CallId → Bool} {sender : CallId}
    {expected : List UInt8} {id : UInt16} (hi : rm.insert isClosed sender expected = some (id, rm₁)) :
    ∃ rm₁', rm'.insert isClosed sender expected = some (id, rm₁') ∧ rm₁.Same rm₁' := by
  obtain ⟨hscan, rfl⟩ := insert_eq_some_iff.1 hi
  have hretain := h.retain isClosed
  rw [hretain.items.scan_eq, h.nextId] at hscan
  exact ⟨_, insert_eq_some_iff.2 ⟨hscan, rfl⟩, hretain.items.insert rfl, hretain.capacity, rfl⟩

/-! ## The calls -/

def Phase.Plain (p : Phase) : Prop := ∀ p', p'.forget = p.forget → p' = p

theorem Phase.plain_acquiring : Phase.acquiring.Plain := by
  intro p' h
  cases p' with
  | acquiring => rfl
  | inserting | withdrawn | registered => cases h

theorem Phase.plain_inserting : Phase.inserting.Plain := by
  intro p' h
  cases p' with
  | inserting => rfl
  | acquiring | withdrawn | registered => cases h

theorem Phase.plain_registered {id : UInt16} {stage : Stage} (h : stage.CanAbandon) : (registered id stage).Plain := by
  intro p' h'
  cases p' with
  | acquiring | inserting | withdrawn => cases h'
  | registered id' stage' =>
    obtain ⟨rfl, hstage⟩ := Phase.registered.inj h'
    congr 1
    cases stage with
    | reclaimed | returned | dropped => cases h
    | sending | cancelling | waiting | expired =>
      cases stage' with
      | returned result => cases result <;> cases hstage
      | sending | cancelling | waiting | expired | dropped | reclaimed => cases hstage <;> rfl

theorem Phase.plain_returned {id : UInt16} {m : DigMessage} : (registered id (.returned (.ok m))).Plain := by
  intro p' h'
  cases p' with
  | acquiring | inserting | withdrawn => cases h'
  | registered id' stage' =>
    obtain ⟨rfl, hstage⟩ := Phase.registered.inj h'
    cases stage' with
    | returned result =>
      cases result with
      | ok m'     => cases hstage; rfl
      | error err => cases hstage
    | sending | cancelling | waiting | expired | dropped | reclaimed => cases hstage

theorem Phase.forget_reclaimed {p : Phase} {id : UInt16} {request : Option Request} {error : LinkError}
    (h : p.forget = (registered id (.reclaimed request error)).forget) :
    ∃ request' error', p = .registered id (.reclaimed request' error') ∧
      request'.map Request.forget = request.map Request.forget := by
  cases p with
  | acquiring | inserting | withdrawn => cases h
  | registered id' stage =>
    obtain ⟨rfl, hstage⟩ := Phase.registered.inj h
    cases stage with
    | reclaimed request' error' => exact ⟨request', error', rfl, (Stage.reclaimed.inj hstage).1⟩
    | returned result => cases result <;> cases hstage
    | sending | cancelling | waiting | expired | dropped => cases hstage

def SameCalls (calls calls' : List Call) : Prop := calls.map Call.forget = calls'.map Call.forget

namespace SameCalls

variable {calls calls' : List Call} {c : CallId} {call : Call} {f f' : Call → Call}

theorem symm (h : SameCalls calls calls') : SameCalls calls' calls := Eq.symm h

theorem getElem? (h : SameCalls calls calls') (hc : calls[c]? = some call) :
    ∃ call', calls'[c]? = some call' ∧ call'.forget = call.forget := by
  have hmap : (calls'.map Call.forget)[c]? = some call.forget := by
    rw [← show calls.map Call.forget = calls'.map Call.forget from h, List.getElem?_map, hc]
    rfl
  rw [List.getElem?_map] at hmap
  exact Option.map_eq_some_iff.1 hmap

theorem getElem?_none (h : SameCalls calls calls') (hc : calls[c]? = none) : calls'[c]? = none := by
  have hlength : calls.length = calls'.length := by
    rw [← List.length_map Call.forget, show calls.map Call.forget = calls'.map Call.forget from h, List.length_map]
  rw [List.getElem?_eq_none_iff] at hc ⊢
  omega

theorem modify (h : SameCalls calls calls')
    (hf : ∀ call call', call'.forget = call.forget → (f' call').forget = (f call).forget) :
    SameCalls (calls.modify c f) (calls'.modify c f') := by
  refine List.ext_getElem? fun i => ?_
  rw [List.getElem?_map, List.getElem?_map, List.getElem?_modify, List.getElem?_modify]
  cases hc : calls[i]? with
  | none => rw [h.getElem?_none hc]; rfl
  | some call =>
    obtain ⟨call', hc', hforget⟩ := h.getElem? hc
    rw [hc']
    by_cases hi : c = i
    · simp [hi, hf call call' hforget]
    · simp [hi, hforget]

theorem any_hasLock (h : SameCalls calls calls') : calls.any Call.hasLock = calls'.any Call.hasLock := by
  have hforget : ∀ call : Call, call.forget.hasLock = call.hasLock := by
    intro call
    unfold Call.hasLock Call.forget
    cases call.phase with
    | acquiring | inserting | withdrawn => rfl
    | registered id stage =>
      cases stage with
      | returned result => cases result <;> rfl
      | sending | cancelling | waiting | expired | reclaimed | dropped => rfl
  have hmap : ∀ l : List Call, l.any Call.hasLock = (l.map Call.forget).any Call.hasLock := fun l => by
    rw [List.any_map]
    exact congrArg l.any (funext fun call => (hforget call).symm)
  rw [hmap, h, ← hmap]

theorem concat (h : SameCalls calls calls') (call : Call) : SameCalls (calls ++ [call]) (calls' ++ [call]) := by
  unfold SameCalls at h ⊢
  rw [List.map_append, List.map_append, h]

end SameCalls

theorem Call.forget_eq {call call' : Call} (h : call'.forget = call.forget) :
    call'.opcode = call.opcode ∧ call'.data = call.data ∧ call'.expected = call.expected ∧
      call'.channel = call.channel ∧ call'.phase.forget = call.phase.forget := by
  simpa only [forget, Call.mk.injEq] using h

theorem Call.forget_goTo {call call' : Call} {p p' : Phase} (hp : p'.forget = p.forget) (h : call'.forget = call.forget) :
    (call'.goTo p').forget = (call.goTo p).forget := by
  simp only [forget, goTo, Call.mk.injEq] at h ⊢
  exact ⟨h.1, h.2.1, h.2.2.1, h.2.2.2.1, hp⟩

theorem Call.forget_dropReceiver {call call' : Call} (h : call'.forget = call.forget) :
    call'.dropReceiver.forget = call.dropReceiver.forget := by
  simp only [forget, dropReceiver, Call.mk.injEq] at h ⊢
  exact ⟨h.1, h.2.1, h.2.2.1, by rw [h.2.2.2.1], h.2.2.2.2⟩

theorem Call.forget_dropSender {call call' : Call} (h : call'.forget = call.forget) :
    call'.dropSender.forget = call.dropSender.forget := by
  simp only [forget, dropSender, Call.mk.injEq] at h ⊢
  exact ⟨h.1, h.2.1, h.2.2.1, by rw [h.2.2.2.1], h.2.2.2.2⟩

/-! ## The correlator -/

structure Correlator.Same (s s' : Correlator) : Prop where
  requests : s.requests.Same s'.requests
  calls    : SameCalls s.calls s'.calls

namespace Correlator.Same

variable {s s' t : Correlator} {c : CallId} {call : Call} {e : CallEvent} {item : Item} {m : DigMessage}

theorem isClosed_eq (h : Same s s') : s.isClosed = s'.isClosed := by
  funext c
  unfold isClosed
  cases hc : s.calls[c]? with
  | none => rw [h.calls.getElem?_none hc]
  | some call =>
    obtain ⟨call', hc', hforget⟩ := h.calls.getElem? hc
    rw [hc']
    dsimp only
    rw [(Call.forget_eq hforget).2.2.2.1]

theorem exists_call (h : Same s s') (hc : s.calls[c]? = some call) (hp : call.phase.Plain) :
    ∃ call', s'.calls[c]? = some call' ∧ call'.forget = call.forget ∧ call'.phase = call.phase := by
  obtain ⟨call', hc', hforget⟩ := h.calls.getElem? hc
  exact ⟨call', hc', hforget, hp _ (Call.forget_eq hforget).2.2.2.2⟩

theorem modifyCall {requests requests' : RequestMap} {f f' : Call → Call} (h : Same s s')
    (hrequests : requests.Same requests')
    (hf : ∀ call call', call'.forget = call.forget → (f' call').forget = (f call).forget) :
    Same { s.modifyCall c f with requests } { s'.modifyCall c f' with requests := requests' } :=
  ⟨hrequests, h.calls.modify hf⟩

theorem goTo {p p' : Phase} (h : Same s s') (hp : p'.forget = p.forget) :
    Same (s.modifyCall c (.goTo p ∘ .dropReceiver)) (s'.modifyCall c (.goTo p' ∘ .dropReceiver)) :=
  h.modifyCall h.requests fun _ _ hf => Call.forget_goTo hp (Call.forget_dropReceiver hf)

theorem dropRequest {request request' : Option Request} (h : Same s s')
    (hr : request'.map Request.forget = request.map Request.forget) :
    Same (s.dropRequest request) (s'.dropRequest request') := by
  cases request with
  | none =>
    rw [Option.map_none, Option.map_eq_none_iff] at hr
    rw [hr]
    exact h
  | some r =>
    rw [Option.map_some] at hr
    obtain ⟨r', rfl, hforget⟩ := Option.map_eq_some_iff.1 hr
    refine ⟨h.requests.release, ?_⟩
    unfold Correlator.dropRequest
    dsimp only
    rw [(Request.forget_eq_iff.1 hforget).1]
    exact h.calls.modify fun _ _ => Call.forget_dropSender

/-- **A step of a call is a step of the other's**, and neither reader moves. -/
theorem callStep (h : Same s s') (he : ∀ e', e ≠ .send e') (ht : s.callStep c e = some t) :
    ∃ t', s'.callStep c e = some t' ∧ Same t t' ∧ t.reader = s.reader ∧ t'.reader = s'.reader := by
  cases effect_callStep ht with
  | outside ha => cases ha
  | send => exact absurd rfl (he _)
  | acquire hc hp hcapacity =>
    obtain ⟨call', hc', _, hp'⟩ := h.exists_call hc (by rw [hp]; exact Phase.plain_acquiring)
    rw [h.requests.capacity] at hcapacity
    have hacquire := RequestMap.acquire_eq_some_iff.2 ⟨hcapacity, rfl⟩
    have hstep : s'.callStep c .acquire = some { s'.modifyCall c (.goTo .inserting) with
        requests := { s'.requests with capacity := s'.requests.capacity - 1 } } := by
      simp only [Correlator.callStep, hc', hp'.trans hp, hacquire]
    refine ⟨_, hstep, h.modifyCall ⟨h.requests.items, ?_, h.requests.nextId⟩ fun _ _ => Call.forget_goTo rfl, rfl, rfl⟩
    dsimp only
    rw [h.requests.capacity]
  | @insert _ call id requests hc hp hi =>
    obtain ⟨call', hc', hforget, hp'⟩ := h.exists_call hc (by rw [hp]; exact Phase.plain_inserting)
    obtain ⟨requests', hi', hsame⟩ := h.requests.insert hi
    rw [h.isClosed_eq, ← (Call.forget_eq hforget).2.2.1] at hi'
    have hstep : s'.callStep c .insert =
        some { s'.modifyCall c (.goTo (.registered id (.sending .admitting))) with requests := requests' } := by
      simp only [Correlator.callStep, hc', hp'.trans hp, hi']
    exact ⟨_, hstep, h.modifyCall hsame fun _ _ => Call.forget_goTo rfl, rfl, rfl⟩
  | @receive _ call id result hc hp hr =>
    obtain ⟨call', hc', hforget, hp'⟩ := h.exists_call hc (by rw [hp]; exact Phase.plain_registered trivial)
    rw [← (Call.forget_eq hforget).2.2.2.1] at hr
    have hstep : s'.callStep c .receive =
        some (s'.modifyCall c (.goTo (.registered id (.returned result)) ∘ .dropReceiver)) := by
      simp only [Correlator.callStep, hc', hp'.trans hp, hr]
    exact ⟨_, hstep, h.goTo rfl, rfl, rfl⟩
  | @expire _ call id hc hp =>
    obtain ⟨call', hc', _, hp'⟩ := h.exists_call hc (by rw [hp]; exact Phase.plain_registered trivial)
    have hstep : s'.callStep c .expire = some (s'.modifyCall c (.goTo (.registered id .expired) ∘ .dropReceiver)) := by
      simp only [Correlator.callStep, hc', hp'.trans hp]
    exact ⟨_, hstep, h.goTo rfl, rfl, rfl⟩
  | @cancel _ call id stage error hc hp hs =>
    have hplain : stage.CanAbandon := by rcases hs with rfl | ⟨rfl, -⟩ <;> trivial
    obtain ⟨call', hc', _, hp'⟩ := h.exists_call hc (by rw [hp]; exact Phase.plain_registered hplain)
    have hstep : ∃ error', s'.callStep c .cancel =
        some { s'.modifyCall c (.goTo (.registered id (.reclaimed (s'.lookup id) error'))) with
          requests := (s'.requests.cancel id).2 } := by
      rcases hs with rfl | ⟨rfl, -⟩
      · exact ⟨error, by simp only [Correlator.callStep, hc', hp'.trans hp]; rfl⟩
      · exact ⟨expiryError call' (s'.lookup id), by simp only [Correlator.callStep, hc', hp'.trans hp]; rfl⟩
    obtain ⟨error', hstep⟩ := hstep
    have hreclaimed : (Phase.registered id (.reclaimed (s'.lookup id) error')).forget =
        (Phase.registered id (.reclaimed (s.lookup id) error)).forget := by
      unfold Correlator.lookup
      rw [Phase.forget, Stage.forget, ← h.requests.items id]
      rfl
    exact ⟨_, hstep, h.modifyCall ⟨h.requests.items.erase, h.requests.capacity, h.requests.nextId⟩
      fun _ _ => Call.forget_goTo hreclaimed, rfl, rfl⟩
  | @finish _ call id request error hc hp =>
    obtain ⟨call', hc', hforget⟩ := h.calls.getElem? hc
    have hphase := (Call.forget_eq hforget).2.2.2.2
    rw [hp] at hphase
    obtain ⟨request', error', hp', hrequest⟩ := Phase.forget_reclaimed hphase
    have hstep : s'.callStep c .finish = some ((s'.dropRequest request').modifyCall c
        (.goTo (.registered id (.returned (.error error'))) ∘ .dropReceiver)) := by
      simp only [Correlator.callStep, hc', hp']
    refine ⟨_, hstep, (h.dropRequest hrequest).goTo rfl, ?_, ?_⟩
    · cases request <;> rfl
    · cases request' <;> rfl
  | withdraw hc hp =>
    obtain ⟨call', hc', _, hp'⟩ := h.exists_call hc (by rw [hp]; exact Phase.plain_acquiring)
    have hstep : s'.callStep c .abandon = some (s'.modifyCall c (.goTo .withdrawn ∘ .dropReceiver)) := by
      simp only [Correlator.callStep, hc', hp'.trans hp]
    exact ⟨_, hstep, h.goTo rfl, rfl, rfl⟩
  | withdrawPermit hc hp =>
    obtain ⟨call', hc', _, hp'⟩ := h.exists_call hc (by rw [hp]; exact Phase.plain_inserting)
    have hstep : s'.callStep c .abandon =
        some { s'.modifyCall c (.goTo .withdrawn ∘ .dropReceiver) with requests := s'.requests.release } := by
      simp only [Correlator.callStep, hc', hp'.trans hp]
    exact ⟨_, hstep, h.modifyCall h.requests.release fun _ _ hf =>
      Call.forget_goTo rfl (Call.forget_dropReceiver hf), rfl, rfl⟩
  | @abandon _ call id stage hc hp hs =>
    obtain ⟨call', hc', _, hp'⟩ := h.exists_call hc (by rw [hp]; exact Phase.plain_registered hs)
    have hstep : s'.callStep c .abandon =
        some (s'.modifyCall c (.goTo (.registered id .dropped) ∘ .dropReceiver)) := by
      cases stage with
      | sending | cancelling | waiting | expired => simp only [Correlator.callStep, hc', hp'.trans hp]
      | reclaimed | returned | dropped => cases hs
    exact ⟨_, hstep, h.goTo rfl, rfl, rfl⟩

/-- **A frame is routed alike.** -/
theorem route (h : Same s s') (m : DigMessage) :
    Same (s.route m) (s'.route m) ∧ (s.route m).reader.forget = (s'.route m).reader.forget := by
  unfold Correlator.route
  cases m.id with
  | none => exact ⟨⟨h.requests, h.calls⟩, rfl⟩
  | some id =>
    dsimp only
    cases hl : s.requests.items.lookup id with
    | none =>
      rw [RequestMap.take_of_none hl, RequestMap.take_of_none (h.requests.items.lookup_none hl)]
      exact ⟨⟨h.requests, h.calls⟩, rfl⟩
    | some r =>
      obtain ⟨r', hl', hr⟩ := h.requests.items.lookup_some hl
      have hexpected := (Request.forget_eq_iff.1 hr).2
      by_cases hd : m.msgType ∈ r.expected
      · rw [RequestMap.take_of_mem hl hd, RequestMap.take_of_mem hl' (by rw [hexpected]; exact hd)]
        exact ⟨⟨⟨h.requests.items.erase, h.requests.capacity, h.requests.nextId⟩, h.calls⟩,
          congrArg (Reader.answering · m) hr.symm⟩
      · rw [RequestMap.take_of_notMem hl hd, RequestMap.take_of_notMem hl' (by rw [hexpected]; exact hd)]
        exact ⟨⟨⟨h.requests.items.insert (Request.forget_eq_iff.2 (Request.forget_eq_iff.1 hr.symm)), h.requests.capacity,
          h.requests.nextId⟩, h.calls⟩, rfl⟩

theorem inbound (h : Same s s') (hr : s.reader.forget = s'.reader.forget) : ∀ item : Item,
    Same (s.inbound item) (s'.inbound item) ∧ (s.inbound item).reader.forget = (s'.inbound item).reader.forget
  | .close | .error | .finished    => ⟨⟨h.requests, h.calls⟩, rfl⟩
  | .ping | .pong | .frame | .text => ⟨h, hr⟩
  | .binary bytes => by
    cases hb : DigMessage.fromBytesOwned bytes with
    | error e => simp only [Correlator.inbound, hb]; exact ⟨⟨h.requests, h.calls⟩, trivial⟩
    | ok m =>
      cases m with
      | none   => simp only [Correlator.inbound, hb]; exact ⟨h, hr⟩
      | some m => simp only [Correlator.inbound, hb]; exact h.route m

end Correlator.Same

/-! ## The link -/

def Action.IsReceiver : Action → Prop
  | .recv | .closeApp => True
  | _ => False

namespace Link

variable {t t' u : Link} {a : Action} {b : Bool}

/-- `b` says that the first reader has a frame to deliver that the second never got. -/
def SameReader (b : Bool) (reader reader' : Reader) : Prop :=
  match b with
  | false => reader.forget = reader'.forget
  | true  => (∃ m, reader = .delivering m) ∧ reader' = .idle

/-- Two links that differ in their diagnoses, in what their applications have received, and in a frame still to be
delivered. -/
structure Same (b : Bool) (t t' : Link) : Prop where
  correlator : t.toCorrelator.Same t'.toCorrelator
  reader     : SameReader b t.reader t'.reader
  outlet     : t.outlet = t'.outlet
  posts      : t.posts = t'.posts
  closing    : t.closing = t'.closing

theorem SameReader.idle {reader : Reader} (h : SameReader b .idle reader) : b = false ∧ reader = .idle := by
  cases b with
  | true => obtain ⟨⟨m, hm⟩, _⟩ := h; cases hm
  | false =>
    refine ⟨rfl, ?_⟩
    cases reader with
    | idle => rfl
    | answering | releasing | delivering | ended => cases h

theorem SameReader.answering {waiter : Request} {m : DigMessage} {reader : Reader}
    (h : SameReader b (.answering waiter m) reader) :
    b = false ∧ ∃ waiter', reader = .answering waiter' m ∧ waiter'.sender = waiter.sender := by
  cases b with
  | true => obtain ⟨⟨m, hm⟩, _⟩ := h; cases hm
  | false =>
    refine ⟨rfl, ?_⟩
    cases reader with
    | answering waiter' m' =>
      obtain ⟨hw, rfl⟩ := Reader.answering.inj h
      exact ⟨waiter', rfl, (Request.forget_eq_iff.1 hw).1.symm⟩
    | idle | releasing | delivering | ended => cases h

theorem SameReader.releasing {reader : Reader} (h : SameReader b .releasing reader) :
    b = false ∧ reader = .releasing := by
  cases b with
  | true => obtain ⟨⟨m, hm⟩, _⟩ := h; cases hm
  | false =>
    refine ⟨rfl, ?_⟩
    cases reader with
    | releasing => rfl
    | idle | answering | delivering | ended => cases h

theorem SameReader.delivering {m : DigMessage} {reader : Reader} (h : SameReader b (.delivering m) reader) :
    b = false ∧ reader = .delivering m ∨ b = true ∧ reader = .idle := by
  cases b with
  | true => exact Or.inr ⟨rfl, h.2⟩
  | false =>
    left
    refine ⟨rfl, ?_⟩
    cases reader with
    | delivering m' => cases h; rfl
    | idle | answering | releasing | ended => cases h

theorem Same.symm (h : Same false t t') : Same false t' t :=
  ⟨⟨h.correlator.requests.symm, h.correlator.calls.symm⟩, Eq.symm h.reader, h.outlet.symm, h.posts.symm, h.closing.symm⟩

theorem Same.sinkLocked (h : Same b t t') : t.sinkLocked = t'.sinkLocked := by
  rw [Link.sinkLocked, Link.sinkLocked, h.closing, h.posts, h.correlator.calls.any_hasLock]

theorem Same.sinkAllows (h : Same b t t') (e : SendEvent) : t.sinkAllows e = t'.sinkAllows e := by
  unfold Link.sinkAllows
  rw [h.sinkLocked, h.closing]

theorem Same.receiver (h : Same b t t') (ha : a.IsReceiver) (hs : t.step a = some u) : Same b u t' := by
  cases stepped_of_step hs with
  | recv | closeApp => exact ⟨h.correlator, h.reader, h.outlet, h.posts, h.closing⟩
  | request | callSend | callStep | post | postSend | postAbandon | close | inbound | handoff | release | deliver =>
    cases ha

theorem Same.receiver' (h : Same b t t') (ha : a.IsReceiver) (hs : t'.step a = some u) : Same b t u := by
  cases stepped_of_step hs with
  | recv | closeApp => exact ⟨h.correlator, h.reader, h.outlet, h.posts, h.closing⟩
  | request | callSend | callStep | post | postSend | postAbandon | close | inbound | handoff | release | deliver =>
    cases ha

/-- **A step of one link is a step of the other**, unless it is a receiver's, or the delivery of a frame that the other
never got. -/
theorem Same.step (h : Same b t t') (ha : ¬ a.IsReceiver) (hd : b = true → a ≠ .deliver) (hs : t.step a = some u) :
    ∃ u', t'.step a = some u' ∧ Same b u u' := by
  have hcalls := h.correlator.calls
  have hreader := h.reader
  cases stepped_of_step hs with
  | request opcode data expected =>
    exact ⟨_, rfl, ⟨h.correlator.requests, hcalls.concat _⟩, hreader, h.outlet, h.posts, h.closing⟩
  | @callSend c e call id phase progress outlet hc hp hsend hl =>
    obtain ⟨call', hc', hforget, hp'⟩ := h.correlator.exists_call hc (by rw [hp]; exact Phase.plain_registered trivial)
    have hmessage : call'.message id = call.message id := by
      unfold Call.message
      rw [(Call.forget_eq hforget).1, (Call.forget_eq hforget).2.1]
    rw [h.outlet, ← hmessage] at hsend
    rw [h.sinkAllows] at hl
    exact ⟨_, step_callSend hc' (hp'.trans hp) hsend hl,
      h.correlator.modifyCall h.correlator.requests fun _ _ => Call.forget_goTo rfl, hreader, rfl, h.posts, h.closing⟩
  | @callStep c e s he ht =>
    obtain ⟨s', ht', hsame, hr, hr'⟩ := h.correlator.callStep he ht
    have hstep : t'.step (.call c e) = some { t' with toCorrelator := s' } := by
      cases e with
      | send e => exact absurd rfl (he e)
      | acquire | insert | receive | expire | cancel | finish | abandon =>
        exact Option.map_eq_some_iff.2 ⟨s', ht', rfl⟩
    refine ⟨_, hstep, hsame, ?_, h.outlet, h.posts, h.closing⟩
    dsimp only
    rw [hr, hr']
    exact hreader
  | post m => exact ⟨_, rfl, ⟨h.correlator.requests, hcalls⟩, hreader, h.outlet, by rw [h.posts], h.closing⟩
  | @postSend p e post phase progress outlet hpost hp hsend hl =>
    rw [h.posts] at hpost
    rw [h.outlet] at hsend
    rw [h.sinkAllows] at hl
    exact ⟨_, step_postSend hpost hp hsend hl, ⟨h.correlator.requests, hcalls⟩, hreader, rfl, by rw [h.posts], h.closing⟩
  | @postAbandon p post phase hpost hp =>
    rw [h.posts] at hpost
    have hstep : t'.step (.postStep p .abandon) = some { t' with posts := t'.posts.set p ⟨post.message, .dropped⟩ } := by
      simp only [Link.step, postStep, hpost, hp]
    exact ⟨_, hstep, ⟨h.correlator.requests, hcalls⟩, hreader, h.outlet, by rw [h.posts], h.closing⟩
  | @close e closing hl =>
    have hclose : t'.close e = some closing := by
      rw [← hl]
      unfold Link.close
      rw [h.sinkLocked, h.closing]
    exact ⟨_, step_close hclose, ⟨h.correlator.requests, hcalls⟩, hreader, h.outlet, h.posts, rfl⟩
  | inbound item hr =>
    rw [hr] at hreader
    obtain ⟨rfl, hr'⟩ := hreader.idle
    have hstep : t'.step (.inbound item) = some { t' with toCorrelator := t'.toCorrelator.inbound item } := by
      simp only [Link.step, hr']
    obtain ⟨hsame, hforget⟩ := h.correlator.inbound (by rw [hr, hr']) item
    exact ⟨_, hstep, hsame, hforget, h.outlet, h.posts, h.closing⟩
  | @handoff waiter m hr =>
    rw [hr] at hreader
    obtain ⟨rfl, waiter', hr', hsender⟩ := hreader.answering
    have hstep : t'.step .handoff = some { t' with
        calls := t'.calls.modify waiter'.sender fun call => { call with channel := call.channel.send m }
        reader := .releasing } := by
      simp only [Link.step, hr']
    rw [hsender] at hstep
    refine ⟨_, hstep, ⟨h.correlator.requests, hcalls.modify fun call call' hf => ?_⟩, rfl, h.outlet, h.posts, h.closing⟩
    simp only [Call.forget, Call.mk.injEq] at hf ⊢
    exact ⟨hf.1, hf.2.1, hf.2.2.1, by rw [hf.2.2.2.1], hf.2.2.2.2⟩
  | release hr =>
    rw [hr] at hreader
    obtain ⟨rfl, hr'⟩ := hreader.releasing
    have hstep : t'.step .release = some { t' with requests := t'.requests.release, reader := .idle } := by
      simp only [Link.step, hr']
    exact ⟨_, hstep, ⟨h.correlator.requests.release, hcalls⟩, rfl, h.outlet, h.posts, h.closing⟩
  | @deliver m hr =>
    rw [hr] at hreader
    rcases hreader.delivering with ⟨rfl, hr'⟩ | ⟨rfl, _⟩
    · have hstep : t'.step .deliver = some (t'.deliver m) := by simp only [Link.step, hr']
      refine ⟨_, hstep, ?_, ?_, by simp [h.outlet], by simp [h.posts], by simp [h.closing]⟩
      · rw [deliver_toCorrelator, deliver_toCorrelator]
        exact ⟨h.correlator.requests, hcalls⟩
      · rw [deliver_toCorrelator, deliver_toCorrelator]
        rfl
    · exact absurd rfl (hd rfl)
  | recv | closeApp => exact absurd trivial ha

end Link

end Dig
