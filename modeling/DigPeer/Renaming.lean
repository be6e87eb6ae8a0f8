import DigPeer.Link
import DigPeer.Rekey
/-!
# Renaming — a link under other opcodes and other payloads

A `Renaming` replaces each opcode by its image under a permutation of the bytes, and each byte of a payload by any
other: in the messages, the calls and the entries of the map, in the results, in the keys of the limiter's counters and
table, and in the frames.  Every operation commutes with it (`Link.step_rename`): a link compares opcodes and looks them
up, asks a payload for its length, and makes nothing else of either.

A table converted from Chia's has no entry in the DIG band, so a permutation of the band leaves it alone, and to a link
the messages of the band are opaque (`dig_messages_opaque`).
-/
namespace Dig

open Correlator Lts

/-! ## What is renamed -/

structure Renaming where
  opcode : Equiv.Perm UInt8
  byte   : UInt8 → UInt8

section

variable (σ : Renaming)

def DigMessage.rename (m : DigMessage) : DigMessage := ⟨σ.opcode m.msgType, m.id, m.data.map σ.byte⟩

/-- A frame from its length prefix on: all that comes after the prefix is replaced. -/
def renameBody : Bytes → Bytes
  | n₀ :: n₁ :: n₂ :: n₃ :: rest => n₀ :: n₁ :: n₂ :: n₃ :: rest.map σ.byte
  | short                        => short

def renameFrame : Bytes → Bytes
  | msgType :: hasId :: rest =>
    σ.opcode msgType :: hasId ::
      if hasId ≠ 0 then
        match rest with
        | i₀ :: i₁ :: rest => i₀ :: i₁ :: renameBody σ rest
        | short            => short
      else renameBody σ rest
  | short => short

def LinkError.rename : LinkError → LinkError
  | .invalidResponse expected found => .invalidResponse (expected.map σ.opcode) (σ.opcode found)
  | .unsendable opcode length       => .unsendable (σ.opcode opcode) length
  | .sendTimeout opcode             => .sendTimeout (σ.opcode opcode)
  | .requestTimeout opcode          => .requestTimeout (σ.opcode opcode)
  | error                           => error

def renameResult : Except LinkError DigMessage → Except LinkError DigMessage
  | .ok m        => .ok (m.rename σ)
  | .error error => .error (error.rename σ)

/-! ### The limiter and the sink -/

def OpcodeRateLimits.rename (limits : OpcodeRateLimits) : OpcodeRateLimits where
  defaultSettings   := limits.defaultSettings
  nonTxFrequency    := limits.nonTxFrequency
  nonTxMaxTotalSize := limits.nonTxMaxTotalSize
  tx                := limits.tx.relabel σ.opcode.toEmbedding id
  other             := limits.other.relabel σ.opcode.toEmbedding id

def OpcodeRateLimiter.rename (l : OpcodeRateLimiter) : OpcodeRateLimiter where
  direction       := l.direction
  resetSeconds    := l.resetSeconds
  period          := l.period
  limitFactor     := l.limitFactor
  counts          := l.counts.relabel σ.opcode.toEmbedding id
  cumulativeSizes := l.cumulativeSizes.relabel σ.opcode.toEmbedding id
  nonTxCount      := l.nonTxCount
  nonTxSize       := l.nonTxSize
  limits          := l.limits.rename σ

def Written.rename (w : Written) : Written := ⟨w.writer, renameFrame σ w.frame⟩

def Outlet.rename (o : Outlet) : Outlet := ⟨o.limiter.rename σ, o.sink.map (Written.rename σ)⟩

def Progress.rename : Progress → Progress
  | .failed error => .failed (error.rename σ)
  | progress      => progress

/-! ### The map, the calls and the reader -/

def Request.rename (r : Request) : Request := ⟨r.sender, r.expected.map σ.opcode, r.undeclared.map σ.opcode⟩

def Correlation.rename : Correlation → Correlation
  | .answer request => .answer (request.rename σ)
  | correlation     => correlation

def RequestMap.rename (rm : RequestMap) : RequestMap where
  items    := rm.items.relabel (.refl UInt16) (Request.rename σ)
  capacity := rm.capacity
  nextId   := rm.nextId

def Oneshot.rename (o : Oneshot) : Oneshot := { o with value := o.value.map (DigMessage.rename σ) }

def Stage.rename : Stage → Stage
  | .cancelling error        => .cancelling (error.rename σ)
  | .reclaimed request error => .reclaimed (request.map (Request.rename σ)) (error.rename σ)
  | .returned result         => .returned (renameResult σ result)
  | stage                    => stage

def Phase.rename : Phase → Phase
  | .registered id stage => .registered id (stage.rename σ)
  | phase                => phase

def Call.rename (call : Call) : Call where
  opcode   := σ.opcode call.opcode
  data     := call.data.map σ.byte
  expected := call.expected.map σ.opcode
  channel  := call.channel.rename σ
  phase    := call.phase.rename σ

def Reader.rename : Reader → Reader
  | .answering waiter m => .answering (waiter.rename σ) (m.rename σ)
  | .delivering m       => .delivering (m.rename σ)
  | reader              => reader

def Correlator.rename (s : Correlator) : Correlator where
  requests := s.requests.rename σ
  calls    := s.calls.map (Call.rename σ)
  reader   := s.reader.rename σ

/-! ### The link -/

def PostPhase.rename : PostPhase → PostPhase
  | .returned (.error error) => .returned (.error (error.rename σ))
  | phase                    => phase

def Post.rename (post : Post) : Post := ⟨post.message.rename σ, post.phase.rename σ⟩

def Link.rename (s : Link) : Link where
  toCorrelator := s.toCorrelator.rename σ
  outlet       := s.outlet.rename σ
  posts        := s.posts.map (Post.rename σ)
  closing      := s.closing
  inbox        := s.inbox.map (DigMessage.rename σ)
  appOpen      := s.appOpen

def Item.rename : Item → Item
  | .binary bytes => .binary (renameFrame σ bytes)
  | item          => item

def Action.rename : Action → Action
  | .request opcode data expected => .request (σ.opcode opcode) (data.map σ.byte) (expected.map σ.opcode)
  | .post message                 => .post (message.rename σ)
  | .inbound item                 => .inbound (item.rename σ)
  | action                        => action

end

variable {σ : Renaming}

/-! ## Frames -/

/-- **The frame of a renamed message is the message's, renamed.** -/
theorem toBytes_rename (m : DigMessage) : (m.rename σ).toBytes = renameFrame σ m.toBytes := by
  obtain ⟨msgType, id, data⟩ := m
  have hlength : (data.map σ.byte).length = data.length := List.length_map _
  cases id <;> simp only [DigMessage.rename, DigMessage.toBytes, hlength] <;> rfl

theorem parseBody_rename (msgType : UInt8) (id : Option UInt16) : ∀ bytes : Bytes,
    parseBody (σ.opcode msgType) id (renameBody σ bytes) = (parseBody msgType id bytes).map (DigMessage.rename σ)
  | [] | [_] | [_, _] | [_, _, _] => rfl
  | n₀ :: n₁ :: n₂ :: n₃ :: rest  => by
    simp only [renameBody, parseBody, List.length_map]
    split
    · simp only [Option.map_some, DigMessage.rename, List.map_take]
    · rfl

/-- **The grammar makes nothing of an opcode**, and of a payload its length. -/
theorem parse_rename : ∀ bytes : Bytes, parse (renameFrame σ bytes) = (parse bytes).map (DigMessage.rename σ)
  | [] | [_]                 => rfl
  | msgType :: hasId :: rest => by
    by_cases h : hasId ≠ 0
    · match rest with
      | [] | [_]         => simp only [renameFrame, parse, if_pos h]; rfl
      | i₀ :: i₁ :: rest => simp only [renameFrame, parse, if_pos h, parseBody_rename]
    · simp only [renameFrame, parse, if_neg h, parseBody_rename]

theorem size_rename (m : DigMessage) : (m.rename σ).size = m.size := by
  rw [DigMessage.size, DigMessage.size, DigMessage.rename, List.length_map]

/-! ## The limiter -/

namespace OpcodeRateLimits

variable (limits : OpcodeRateLimits) (factor : ℚ) (m : DigMessage)

theorem lookup_tx_rename (b : UInt8) : (limits.rename σ).tx.lookup (σ.opcode b) = limits.tx.lookup b :=
  AList.lookup_relabel_id (e := σ.opcode.toEmbedding) limits.tx b

theorem lookup_other_rename (b : UInt8) : (limits.rename σ).other.lookup (σ.opcode b) = limits.other.lookup b :=
  AList.lookup_relabel_id (e := σ.opcode.toEmbedding) limits.other b

theorem limit_rename (b : UInt8) : (limits.rename σ).limit (σ.opcode b) = limits.limit b := by
  rw [limit, limit, lookup_tx_rename, lookup_other_rename]
  rfl

theorem countsAgainstNonTx_rename (b : UInt8) :
    (limits.rename σ).countsAgainstNonTx (σ.opcode b) = limits.countsAgainstNonTx b := by
  rw [countsAgainstNonTx, countsAgainstNonTx, lookup_tx_rename, lookup_other_rename]

theorem fitsAnEmptyWindow_rename :
    (limits.rename σ).FitsAnEmptyWindow factor (m.rename σ) ↔ limits.FitsAnEmptyWindow factor m := by
  unfold FitsAnEmptyWindow
  show _ ≤ ((limits.rename σ).limit (σ.opcode m.msgType)).maxSize ∧ _ ↔ _
  rw [size_rename, show (m.rename σ).msgType = σ.opcode m.msgType from rfl, limit_rename, countsAgainstNonTx_rename]
  exact Iff.rfl

/-- **A table that has entries for none of the opcodes that are moved stays the same.** -/
theorem rename_eq_self (htx : ∀ b ∈ limits.tx, σ.opcode b = b) (hother : ∀ b ∈ limits.other, σ.opcode b = b) :
    limits.rename σ = limits := by
  unfold rename
  rw [AList.relabel_eq_self htx, AList.relabel_eq_self hother]

end OpcodeRateLimits

namespace OpcodeRateLimiter

variable {l : OpcodeRateLimiter} {m : DigMessage} {now : ℕ}

theorem count_rename (b : UInt8) : (l.rename σ).count (σ.opcode b) = l.count b :=
  congrArg (Option.getD · 0) (AList.lookup_relabel_id (e := σ.opcode.toEmbedding) l.counts b)

theorem cumulativeSize_rename (b : UInt8) : (l.rename σ).cumulativeSize (σ.opcode b) = l.cumulativeSize b :=
  congrArg (Option.getD · 0) (AList.lookup_relabel_id (e := σ.opcode.toEmbedding) l.cumulativeSizes b)

theorem rollWindow_rename : (l.rename σ).rollWindow now = (l.rollWindow now).rename σ := by
  by_cases h : l.period = now / l.resetSeconds
  · rw [rollWindow_of_eq h]
    exact rollWindow_of_eq h
  · rw [rollWindow, rollWindow, if_neg h]
    exact if_neg h

theorem charge_rename : (l.rename σ).charge (m.rename σ) = (l.charge m).rename σ := by
  have hcounts : (l.rename σ).counts.insert (σ.opcode m.msgType) (l.count m.msgType + 1) =
      (l.counts.insert m.msgType (l.count m.msgType + 1)).relabel σ.opcode.toEmbedding id :=
    AList.relabel_insert (e := σ.opcode.toEmbedding) (g := id) m.msgType (l.count m.msgType + 1) l.counts
  have hsizes : (l.rename σ).cumulativeSizes.insert (σ.opcode m.msgType) (l.cumulativeSize m.msgType + m.size) =
      (l.cumulativeSizes.insert m.msgType (l.cumulativeSize m.msgType + m.size)).relabel σ.opcode.toEmbedding id :=
    AList.relabel_insert (e := σ.opcode.toEmbedding) (g := id) m.msgType (l.cumulativeSize m.msgType + m.size)
      l.cumulativeSizes
  have hclass : (l.rename σ).limits.countsAgainstNonTx (σ.opcode m.msgType) = l.limits.countsAgainstNonTx m.msgType :=
    l.limits.countsAgainstNonTx_rename m.msgType
  unfold charge
  rw [show (m.rename σ).msgType = σ.opcode m.msgType from rfl, count_rename, cumulativeSize_rename, hclass,
    size_rename, hcounts, hsizes]
  rfl

theorem verdict_rename : (l.rename σ).verdict (m.rename σ) = l.verdict m := by
  have hthis : (l.rename σ).FitsThisWindow (m.rename σ) ↔ l.FitsThisWindow m := by
    unfold FitsThisWindow
    rw [charge_rename, show (m.rename σ).msgType = σ.opcode m.msgType from rfl, count_rename, cumulativeSize_rename,
      show (l.rename σ).limits = l.limits.rename σ from rfl, OpcodeRateLimits.limit_rename]
    exact Iff.rfl
  unfold verdict
  congr 1
  · exact decide_eq_decide.2 (l.limits.fitsAnEmptyWindow_rename l.limitFactor m)
  · exact decide_eq_decide.2 hthis

/-- **A limiter gives a renamed message the verdict of the message.** -/
theorem admitAt_rename :
    (l.rename σ).admitAt now (m.rename σ) = ((l.admitAt now m).1, (l.admitAt now m).2.rename σ) := by
  refine Prod.ext ?_ ?_
  · rw [admitAt_fst, admitAt_fst, rollWindow_rename, verdict_rename]
  · rw [admitAt_snd]
    dsimp only
    rw [admitAt_snd, rollWindow_rename, verdict_rename, charge_rename, apply_ite (OpcodeRateLimiter.rename σ)]
    rfl

end OpcodeRateLimiter

theorem ofAdmission_rename (m : DigMessage) (admission : Admission) :
    Progress.ofAdmission (m.rename σ) admission = (Progress.ofAdmission m admission).rename σ := by
  cases admission with
  | admitted | deferred => rfl
  | unsendable          => exact congrArg (Progress.failed ∘ LinkError.unsendable _) (List.length_map _)

theorem ofProgress_rename (progress : Progress) :
    Stage.ofProgress (progress.rename σ) = (Stage.ofProgress progress).rename σ := by
  cases progress <;> rfl

theorem postPhase_ofProgress_rename (progress : Progress) :
    PostPhase.ofProgress (progress.rename σ) = (PostPhase.ofProgress progress).rename σ := by
  cases progress <;> rfl

theorem Outlet.send_rename (o : Outlet) (writer : Writer) (m : DigMessage) (phase : SendPhase) (e : SendEvent) :
    (o.rename σ).send writer (m.rename σ) phase e =
      (o.send writer m phase e).map (Prod.map (Progress.rename σ) (Outlet.rename σ)) := by
  cases phase with
  | admitting =>
    cases e with
    | attempt now =>
      have hadmit : (o.rename σ).limiter.admitAt now (m.rename σ) = _ := OpcodeRateLimiter.admitAt_rename
      simp only [send, hadmit, Option.map_some, Option.some.injEq]
      exact Prod.ext (ofAdmission_rename m _) rfl
    | retry | giveUp | lock | feed | flush => rfl
  | deferred | writing => cases e <;> rfl
  | feeding =>
    cases e with
    | feed ok =>
      cases ok with
      | true =>
        simp only [send, rename, Option.map_some, Prod.map, toBytes_rename, List.map_append]
        rfl
      | false => rfl
    | attempt | retry | giveUp | lock | flush => rfl
  | flushing =>
    cases e with
    | flush ok => cases ok <;> rfl
    | attempt | retry | giveUp | lock | feed => rfl

/-! ## The map -/

namespace RequestMap

variable {rm : RequestMap} {isClosed : CallId → Bool} {sender : CallId} {expected : List UInt8} {id : UInt16}

theorem lookup_items_rename (rm : RequestMap) (id : UInt16) :
    (rm.rename σ).items.lookup id = (rm.items.lookup id).map (Request.rename σ) :=
  AList.lookup_relabel (e := .refl UInt16) rm.items id

theorem acquire_rename : (rm.rename σ).acquire = rm.acquire.map (RequestMap.rename σ) := by
  unfold acquire
  by_cases h : 0 < rm.capacity
  · rw [if_pos h]
    exact if_pos h
  · rw [if_neg h]
    exact if_neg h

theorem retain_rename : (rm.rename σ).retain isClosed = (rm.retain isClosed).rename σ := by
  have hitems : (rm.rename σ).items.retain (fun _ request => !isClosed request.sender) =
      (rm.items.retain fun _ request => !isClosed request.sender).relabel (.refl UInt16) (Request.rename σ) :=
    AList.relabel_retain (fun _ _ => rfl) rm.items
  unfold retain
  dsimp only
  rw [hitems, AList.size_relabel, show (rm.rename σ).items.size = rm.items.size from AList.size_relabel rm.items]
  rfl

theorem scan_rename (items : AList fun _ : UInt16 => Request) : ∀ (fuel : ℕ) (id : UInt16),
    scan (items.relabel (.refl UInt16) (Request.rename σ)) fuel id = scan items fuel id
  | 0, _         => rfl
  | fuel + 1, id => by
    have hmem : id ∈ items.relabel (.refl UInt16) (Request.rename σ) ↔ id ∈ items :=
      AList.mem_relabel (e := .refl UInt16)
    rw [scan, scan, scan_rename items fuel]
    exact if_congr hmem rfl rfl

theorem insert_items_rename (items : AList fun _ : UInt16 => Request) (r : Request) :
    (items.relabel (.refl UInt16) (Request.rename σ)).insert id (r.rename σ) =
      (items.insert id r).relabel (.refl UInt16) (Request.rename σ) :=
  AList.relabel_insert (e := .refl UInt16) id r items

theorem erase_items_rename (items : AList fun _ : UInt16 => Request) :
    (items.relabel (.refl UInt16) (Request.rename σ)).erase id =
      (items.erase id).relabel (.refl UInt16) (Request.rename σ) :=
  AList.relabel_erase (e := .refl UInt16) id items

/-- **A request under renamed opcodes gets the same id.** -/
theorem insert_rename : (rm.rename σ).insert isClosed sender (expected.map σ.opcode) =
    (rm.insert isClosed sender expected).map fun x => (x.1, x.2.rename σ) := by
  unfold insert
  simp only [retain_rename]
  generalize rm.retain isClosed = rm
  have hscan : scan (rm.rename σ).items (2 ^ 16) (rm.rename σ).nextId = scan rm.items (2 ^ 16) rm.nextId :=
    scan_rename rm.items (2 ^ 16) rm.nextId
  rw [hscan]
  cases scan rm.items (2 ^ 16) rm.nextId with
  | none    => rfl
  | some id =>
    exact congrArg (fun items => some (id, RequestMap.mk items _ _))
      (insert_items_rename rm.items ⟨sender, expected, none⟩)

theorem take_rename (msgType : UInt8) : (rm.rename σ).take id (σ.opcode msgType) =
    ((rm.take id msgType).1.rename σ, (rm.take id msgType).2.rename σ) := by
  cases hl : rm.items.lookup id with
  | none =>
    have hl' : (rm.rename σ).items.lookup id = none := by rw [lookup_items_rename, hl]; rfl
    rw [take_of_none hl, take_of_none hl']
    rfl
  | some request =>
    have hl' : (rm.rename σ).items.lookup id = some (request.rename σ) := by rw [lookup_items_rename, hl]; rfl
    have hmem : σ.opcode msgType ∈ (request.rename σ).expected ↔ msgType ∈ request.expected :=
      List.mem_map_of_injective σ.opcode.injective
    by_cases h : msgType ∈ request.expected
    · rw [take_of_mem hl h, take_of_mem hl' (hmem.2 h)]
      exact congrArg (fun items => (_, RequestMap.mk items _ _)) (erase_items_rename rm.items)
    · rw [take_of_notMem hl h, take_of_notMem hl' (mt hmem.1 h)]
      exact congrArg (fun items => (_, RequestMap.mk items _ _))
        (insert_items_rename rm.items { request with undeclared := some msgType })

theorem cancel_rename (id : UInt16) : (rm.rename σ).cancel id =
    ((rm.cancel id).1.map (Request.rename σ), (rm.cancel id).2.rename σ) :=
  Prod.ext (lookup_items_rename rm id) (congrArg (RequestMap.mk · _ _) (erase_items_rename rm.items))

end RequestMap

/-! ## The correlator -/

namespace Correlator

variable {s : Correlator} {c : CallId} {call : Call}

theorem getElem?_calls_rename (s : Correlator) (c : CallId) :
    (s.rename σ).calls[c]? = s.calls[c]?.map (Call.rename σ) :=
  List.getElem?_map

theorem isClosed_rename : (s.rename σ).isClosed = s.isClosed := by
  funext c
  unfold isClosed
  rw [getElem?_calls_rename]
  cases s.calls[c]? <;> rfl

theorem modify_calls_rename {f g : Call → Call} (hf : ∀ call, g (call.rename σ) = (f call).rename σ)
    (calls : List Call) : (calls.map (Call.rename σ)).modify c g = (calls.modify c f).map (Call.rename σ) := by
  apply List.ext_getElem?
  intro i
  rw [List.getElem?_modify, List.getElem?_map, List.getElem?_map, List.getElem?_modify]
  cases calls[i]? with
  | none => rfl
  | some call =>
    by_cases h : c = i
    · simp [h, hf]
    · simp [h]

theorem modifyCall_rename {f g : Call → Call} (hf : ∀ call, g (call.rename σ) = (f call).rename σ) :
    (s.rename σ).modifyCall c g = (s.modifyCall c f).rename σ :=
  congrArg (Correlator.mk _ · _) (modify_calls_rename hf s.calls)

theorem dropRequest_rename (request : Option Request) :
    (s.rename σ).dropRequest (request.map (Request.rename σ)) = (s.dropRequest request).rename σ := by
  cases request with
  | none   => rfl
  | some r =>
    have hdrop (call : Call) : (call.rename σ).dropSender = call.dropSender.rename σ := rfl
    exact congrArg (Correlator.mk _ · _) (modify_calls_rename hdrop s.calls)

theorem route_rename (m : DigMessage) : (s.rename σ).route (m.rename σ) = (s.route m).rename σ := by
  unfold route
  rw [show (m.rename σ).id = m.id from rfl]
  cases m.id with
  | none    => rfl
  | some id =>
    dsimp only
    have htake : (s.rename σ).requests.take id (m.rename σ).msgType = _ := RequestMap.take_rename m.msgType
    rw [htake]
    rcases s.requests.take id m.msgType with ⟨correlation, requests⟩
    cases correlation <;> rfl

theorem inbound_rename (item : Item) : (s.rename σ).inbound (item.rename σ) = (s.inbound item).rename σ := by
  cases item with
  | close | error | finished | ping | pong | frame | text => rfl
  | binary bytes =>
    have hdecode : DigMessage.fromBytesOwned (renameFrame σ bytes) = .ok ((parse bytes).map (DigMessage.rename σ)) := by
      rw [DigMessage.fromBytesOwned_eq, parse_rename]
    show (s.rename σ).inbound (.binary (renameFrame σ bytes)) = _
    simp only [inbound, hdecode, DigMessage.fromBytesOwned_eq]
    cases parse bytes with
    | none   => rfl
    | some m => exact route_rename m

theorem expiryError_rename (call : Call) (request : Option Request) :
    expiryError (call.rename σ) (request.map (Request.rename σ)) = (expiryError call request).rename σ := by
  cases request with
  | none => rfl
  | some r =>
    obtain ⟨sender, expected, undeclared⟩ := r
    cases undeclared <;> rfl

theorem poll_rename (o : Oneshot) : (o.rename σ).poll = o.poll.map (renameResult σ) := by
  obtain ⟨value, senderDropped, receiverDropped⟩ := o
  cases value <;> cases senderDropped <;> rfl

theorem goTo_rename (requests : RequestMap) (p : Phase) :
    { (s.rename σ).modifyCall c (.goTo (p.rename σ)) with requests := requests.rename σ } =
      Correlator.rename σ { s.modifyCall c (.goTo p) with requests } := by
  have hcall : (s.rename σ).modifyCall c (.goTo (p.rename σ)) = (s.modifyCall c (.goTo p)).rename σ :=
    modifyCall_rename fun _ => rfl
  rw [hcall]
  rfl

theorem goTo_dropReceiver_rename (p : Phase) :
    (s.rename σ).modifyCall c (.goTo (p.rename σ) ∘ .dropReceiver) =
      (s.modifyCall c (.goTo p ∘ .dropReceiver)).rename σ :=
  modifyCall_rename fun _ => rfl

/-- **A call under renamed opcodes takes the steps of the call.** -/
theorem callStep_rename (s : Correlator) (c : CallId) (e : CallEvent) :
    (s.rename σ).callStep c e = (s.callStep c e).map (Correlator.rename σ) := by
  unfold callStep
  rw [getElem?_calls_rename]
  cases s.calls[c]? with
  | none      => rfl
  | some call =>
    obtain ⟨opcode, data, expected, channel, phase⟩ := call
    have hcancel (id : UInt16) : (s.rename σ).requests.cancel id = _ := RequestMap.cancel_rename id
    cases phase with
    | acquiring =>
      cases e with
      | acquire =>
        have hacquire : (s.rename σ).requests.acquire = _ := RequestMap.acquire_rename
        dsimp only [Option.map_some, Call.rename, Phase.rename]
        rw [hacquire]
        cases s.requests.acquire with
        | none          => rfl
        | some requests => exact congrArg some (goTo_rename requests .inserting)
      | abandon => exact congrArg some (goTo_dropReceiver_rename .withdrawn)
      | insert | send | receive | expire | cancel | finish => rfl
    | inserting =>
      cases e with
      | insert =>
        have hinsert : (s.rename σ).requests.insert (s.rename σ).isClosed c (expected.map σ.opcode) = _ :=
          RequestMap.insert_rename
        dsimp only [Option.map_some, Call.rename, Phase.rename]
        rw [hinsert, isClosed_rename]
        cases s.requests.insert s.isClosed c expected with
        | none   => rfl
        | some x =>
          exact congrArg some (goTo_rename x.2 (.registered x.1 (.sending .admitting)))
      | abandon =>
        exact congrArg (fun t : Correlator => some { t with requests := (s.requests.release).rename σ })
          (goTo_dropReceiver_rename .withdrawn)
      | acquire | send | receive | expire | cancel | finish => rfl
    | withdrawn => cases e <;> rfl
    | registered id stage =>
      cases stage with
      | sending phase =>
        cases e with
        | abandon => exact congrArg some (goTo_dropReceiver_rename (.registered id .dropped))
        | acquire | insert | send | receive | expire | cancel | finish => rfl
      | cancelling error =>
        cases e with
        | cancel =>
          dsimp only [Option.map_some, Call.rename, Phase.rename, Stage.rename]
          rw [hcancel]
          exact congrArg some
            (goTo_rename (s.requests.cancel id).2 (.registered id (.reclaimed (s.requests.cancel id).1 error)))
        | abandon => exact congrArg some (goTo_dropReceiver_rename (.registered id .dropped))
        | acquire | insert | send | receive | expire | finish => rfl
      | waiting =>
        cases e with
        | receive =>
          dsimp only [Option.map_some, Call.rename, Phase.rename, Stage.rename]
          rw [poll_rename]
          cases channel.poll with
          | none        => rfl
          | some result => exact congrArg some (goTo_dropReceiver_rename (.registered id (.returned result)))
        | expire => exact congrArg some (goTo_dropReceiver_rename (.registered id .expired))
        | abandon => exact congrArg some (goTo_dropReceiver_rename (.registered id .dropped))
        | acquire | insert | send | cancel | finish => rfl
      | expired =>
        cases e with
        | cancel =>
          have herror : expiryError (Call.rename σ ⟨opcode, data, expected, channel, .registered id .expired⟩)
              ((s.requests.cancel id).1.map (Request.rename σ)) = _ := expiryError_rename _ _
          dsimp only [Option.map_some, Call.rename, Phase.rename, Stage.rename] at herror ⊢
          rw [hcancel]
          dsimp only
          rw [herror]
          exact congrArg some
            (goTo_rename (s.requests.cancel id).2 (.registered id (.reclaimed (s.requests.cancel id).1 _)))
        | abandon => exact congrArg some (goTo_dropReceiver_rename (.registered id .dropped))
        | acquire | insert | send | receive | expire | finish => rfl
      | reclaimed request error =>
        cases e with
        | finish =>
          dsimp only [Option.map_some, Call.rename, Phase.rename, Stage.rename]
          rw [dropRequest_rename]
          exact congrArg some (goTo_dropReceiver_rename (.registered id (.returned (.error error))))
        | acquire | insert | send | receive | expire | cancel | abandon => rfl
      | returned | dropped => cases e <;> rfl

end Correlator

/-! ## The link -/

namespace Link

theorem getElem?_posts_rename (s : Link) (p : ℕ) : (s.rename σ).posts[p]? = s.posts[p]?.map (Post.rename σ) :=
  List.getElem?_map

theorem sinkLocked_rename (s : Link) : (s.rename σ).sinkLocked = s.sinkLocked := by
  have hcall : Call.hasLock ∘ Call.rename σ = Call.hasLock := by
    funext ⟨opcode, data, expected, channel, phase⟩
    cases phase with
    | registered id stage => cases stage <;> rfl
    | acquiring | inserting | withdrawn => rfl
  have hpost : Post.hasLock ∘ Post.rename σ = Post.hasLock := by
    funext ⟨message, phase⟩
    cases phase with
    | returned result => cases result <;> rfl
    | sending | dropped => rfl
  have hcalls : ((s.rename σ).calls).any Call.hasLock = s.calls.any Call.hasLock := List.any_map.trans (by rw [hcall])
  have hposts : ((s.rename σ).posts).any Post.hasLock = s.posts.any Post.hasLock := List.any_map.trans (by rw [hpost])
  rw [sinkLocked, sinkLocked, hcalls, hposts]
  rfl

theorem send_rename (s : Link) (w : Writer) (m : DigMessage) (phase : SendPhase) (e : SendEvent) :
    (s.rename σ).send w (m.rename σ) phase e =
      (s.send w m phase e).map (Prod.map (Progress.rename σ) (Outlet.rename σ)) := by
  have hallows : (s.rename σ).sinkAllows e = s.sinkAllows e := by
    unfold sinkAllows
    rw [sinkLocked_rename, show (s.rename σ).closing = s.closing from rfl]
  rw [send, send, hallows]
  split
  · exact Outlet.send_rename s.outlet w m phase e
  · rfl

theorem close_rename (s : Link) (e : CloseEvent) : (s.rename σ).close e = s.close e := by
  unfold close
  rw [sinkLocked_rename, show (s.rename σ).closing = s.closing from rfl]

theorem callSend_rename (s : Link) (c : CallId) (e : SendEvent) :
    (s.rename σ).callSend c e = (s.callSend c e).map (Link.rename σ) := by
  unfold callSend
  have hc : (s.rename σ).calls[c]? = s.calls[c]?.map (Call.rename σ) := getElem?_calls_rename s.toCorrelator c
  rw [hc]
  cases s.calls[c]? with
  | none      => rfl
  | some call =>
    obtain ⟨opcode, data, expected, channel, phase⟩ := call
    cases phase with
    | acquiring | inserting | withdrawn => rfl
    | registered id stage =>
      cases stage with
      | sending phase =>
        have hsend : (s.rename σ).send (.call c) ⟨σ.opcode opcode, some id, data.map σ.byte⟩ phase e = _ :=
          send_rename s (.call c) ⟨opcode, some id, data⟩ phase e
        dsimp only [Option.map_some, Call.rename, Phase.rename, Stage.rename, Call.message]
        rw [hsend]
        cases s.send (.call c) ⟨opcode, some id, data⟩ phase e with
        | none   => rfl
        | some x =>
          obtain ⟨progress, outlet⟩ := x
          dsimp only [Option.map_some, Prod.map]
          rw [ofProgress_rename]
          exact congrArg (fun t : Correlator => some { s.rename σ with toCorrelator := t, outlet := outlet.rename σ })
            (goTo_rename s.requests (.registered id (.ofProgress progress)))
      | cancelling | waiting | expired | reclaimed | returned | dropped => rfl

theorem set_posts_rename (s : Link) (p : ℕ) (post : Post) :
    (s.rename σ).posts.set p (post.rename σ) = (s.posts.set p post).map (Post.rename σ) :=
  List.map_set.symm

theorem postStep_rename (s : Link) (p : ℕ) (e : PostEvent) :
    (s.rename σ).postStep p e = (s.postStep p e).map (Link.rename σ) := by
  unfold postStep
  rw [getElem?_posts_rename]
  cases s.posts[p]? with
  | none      => rfl
  | some post =>
    obtain ⟨message, phase⟩ := post
    cases phase with
    | sending phase =>
      cases e with
      | send e =>
        have hsend : (s.rename σ).send (.post p) (message.rename σ) phase e = _ :=
          send_rename s (.post p) message phase e
        dsimp only [Option.map_some, Post.rename, PostPhase.rename]
        rw [hsend]
        cases s.send (.post p) message phase e with
        | none   => rfl
        | some x =>
          obtain ⟨progress, outlet⟩ := x
          dsimp only [Option.map_some, Prod.map]
          rw [postPhase_ofProgress_rename]
          exact congrArg (fun posts => some { s.rename σ with posts, outlet := outlet.rename σ })
            (set_posts_rename s p ⟨message, .ofProgress progress⟩)
      | abandon =>
        exact congrArg (fun posts => some { s.rename σ with posts }) (set_posts_rename s p ⟨message, .dropped⟩)
    | returned result => cases e <;> cases result <;> rfl
    | dropped => cases e <;> rfl

theorem deliver_rename (s : Link) (m : DigMessage) : (s.rename σ).deliver (m.rename σ) = (s.deliver m).rename σ := by
  have hlength : (s.rename σ).inbox.length = s.inbox.length := List.length_map _
  unfold deliver
  rw [hlength]
  by_cases h : s.appOpen ∧ s.inbox.length < inboundChannelCapacity
  · rw [if_pos h]
    have hinbox : (s.rename σ).inbox ++ [m.rename σ] = (s.inbox ++ [m]).map (DigMessage.rename σ) := by
      rw [List.map_append]
      rfl
    refine (if_pos h).trans ?_
    exact congrArg (Link.mk _ _ _ _ · _) hinbox
  · rw [if_neg h]
    exact if_neg h

theorem send_channel_rename (m : DigMessage) (call : Call) :
    { call.rename σ with channel := (call.rename σ).channel.send (m.rename σ) } =
      Call.rename σ { call with channel := call.channel.send m } := by
  obtain ⟨_, _, _, ⟨value, senderDropped, receiverDropped⟩, _⟩ := call
  cases receiverDropped <;> rfl

/-- **Every step of a link commutes with a renaming of its opcodes.** -/
theorem step_rename (s : Link) (a : Action) : (s.rename σ).step (a.rename σ) = (s.step a).map (Link.rename σ) := by
  have hreader : (s.rename σ).reader = s.reader.rename σ := rfl
  cases a with
  | request opcode data expected =>
    have hcalls : (s.rename σ).calls ++ [Call.new (σ.opcode opcode) (data.map σ.byte) (expected.map σ.opcode)] =
        (s.calls ++ [Call.new opcode data expected]).map (Call.rename σ) := by
      rw [List.map_append]
      rfl
    exact congrArg (fun calls => some { s.rename σ with calls }) hcalls
  | call c e =>
    have hstep : (s.rename σ).toCorrelator.callStep c e = _ := callStep_rename s.toCorrelator c e
    cases e with
    | send e => exact callSend_rename s c e
    | acquire | insert | receive | expire | cancel | finish | abandon =>
      dsimp only [step, Action.rename]
      rw [hstep, Option.map_map, Option.map_map]
      rfl
  | post message =>
    have hposts : (s.rename σ).posts ++ [Post.mk (message.rename σ) (.sending .admitting)] =
        (s.posts ++ [Post.mk message (.sending .admitting)]).map (Post.rename σ) := by
      rw [List.map_append]
      rfl
    exact congrArg (fun posts => some { s.rename σ with posts }) hposts
  | postStep p e => exact postStep_rename s p e
  | close e =>
    dsimp only [step, Action.rename]
    rw [close_rename, Option.map_map]
    rfl
  | inbound item =>
    dsimp only [step, Action.rename]
    rw [hreader]
    cases s.reader with
    | idle =>
      exact congrArg (fun t : Correlator => some { s.rename σ with toCorrelator := t }) (inbound_rename item)
    | answering | releasing | delivering | ended => rfl
  | handoff =>
    dsimp only [step, Action.rename]
    rw [hreader]
    cases s.reader with
    | answering waiter m =>
      exact congrArg (fun calls => some { s.rename σ with calls, reader := .releasing })
        (modify_calls_rename (f := fun call => { call with channel := call.channel.send m })
          (g := fun call => { call with channel := call.channel.send (m.rename σ) }) (send_channel_rename m) s.calls)
    | idle | releasing | delivering | ended => rfl
  | release =>
    dsimp only [step, Action.rename]
    rw [hreader]
    cases s.reader <;> rfl
  | deliver =>
    dsimp only [step, Action.rename]
    rw [hreader]
    cases s.reader with
    | delivering m => exact congrArg some (deliver_rename s m)
    | idle | answering | releasing | ended => rfl
  | recv =>
    have hinbox : (s.rename σ).inbox = s.inbox.map (DigMessage.rename σ) := rfl
    dsimp only [step, Action.rename]
    rw [hinbox]
    cases s.inbox with
    | nil => rfl
    | cons m inbox =>
      rw [List.map_cons]
      dsimp only
      rw [apply_ite (Option.map (Link.rename σ))]
      rfl
  | closeApp => rfl

theorem fromParts_rename (now : ℕ) (factor : ℚ) (limits : OpcodeRateLimits) :
    (fromParts now factor limits).rename σ = fromParts now factor (limits.rename σ) := rfl

theorem frames_rename (s : Link) :
    (s.rename σ).outlet.sink.map Written.frame = (s.outlet.sink.map Written.frame).map (renameFrame σ) := by
  show (s.outlet.sink.map (Written.rename σ)).map Written.frame = _
  rw [List.map_map, List.map_map]
  rfl

end Link

/-! ## The DIG band -/

def digBandStart : UInt8 := 200

def isDigOpcode (opcode : UInt8) : Bool := digBandStart ≤ opcode

/-- **No Chia opcode is in the band**: a converted table has no entry for an opcode of DIG's. -/
theorem not_isDigOpcode_of_mem_rekey {P : Type} {toBytes : P → Option Bytes} {byte : P → UInt8}
    (h : SingleByte toBytes byte) {map : AList fun _ : P => RateLimit} {opcode : UInt8}
    (hmem : opcode ∈ OpcodeRateLimits.rekey toBytes map) : isDigOpcode opcode = false := by
  refine decide_eq_false fun hdig => ?_
  have hnone := OpcodeRateLimits.lookup_rekey_of_notMem h map (OpcodeRateLimits.SingleByte.ne_of_le h hdig)
  exact AList.lookup_eq_none.1 hnone hmem

/-- The renaming moves no opcode of Chia's. -/
def Renaming.KeepsChia (σ : Renaming) : Prop := ∀ b, isDigOpcode b = false → σ.opcode b = b

/-- **A permutation of the DIG band leaves a converted table as it is.** -/
theorem rename_ofRateLimits {P : Type} {toBytes : P → Option Bytes} {byte : P → UInt8} (h : SingleByte toBytes byte)
    (limits : RateLimits P) (hσ : σ.KeepsChia) :
    (OpcodeRateLimits.ofRateLimits toBytes limits).rename σ = .ofRateLimits toBytes limits :=
  OpcodeRateLimits.rename_eq_self _ (fun _ hb => hσ _ (not_isDigOpcode_of_mem_rekey h hb))
    fun _ hb => hσ _ (not_isDigOpcode_of_mem_rekey h hb)

/-- **To a link the messages it carries are opaque.**  Take any permutation of the DIG band, assigned opcodes or not,
any replacement of payload bytes by others, and any list of things that can happen to a link under a Chia table.  With
every opcode and every payload replaced, in the calls, their declared answers, the sends and the frames that come in,
the same list can happen, to the point where the first could, and the link it leads to is the first's with the same
replaced: the same ids, the same verdicts of the limiter, the same frames in the sink but for opcode and payload, the
same answers to the same calls, the same deliveries to the application. -/
theorem dig_messages_opaque {P : Type} {toBytes : P → Option Bytes} {byte : P → UInt8} (h : SingleByte toBytes byte)
    (limits : RateLimits P) (hσ : σ.KeepsChia) (now : ℕ) (factor : ℚ) (as : List Action) :
    run Link.step (Link.fromParts now factor (.ofRateLimits toBytes limits)) (as.map (Action.rename σ)) =
      (run Link.step (Link.fromParts now factor (.ofRateLimits toBytes limits)) as).map (Link.rename σ) := by
  have hstart := Link.fromParts_rename (σ := σ) now factor (.ofRateLimits toBytes limits)
  rw [rename_ofRateLimits h limits hσ] at hstart
  have hrun := run_map (Link.step_rename (σ := σ)) as (Link.fromParts now factor (.ofRateLimits toBytes limits))
  rwa [hstart] at hrun

/-- 220 and 250 exchanged, and every payload zeroed. -/
def swapped : Renaming := ⟨Equiv.swap 220 250, fun _ => 0⟩

theorem dig_messages_opaque_swapped :
    let start := Link.fromParts 0 1 (.ofRateLimits (fun v : IntroducerOpcode => some [v.toByte])
      OpcodeRateLimiter.overlapping)
    let as : List Action := [.request 220 [5] [221], .call 0 .acquire, .call 0 .insert, .call 0 (.send (.attempt 0)),
      .call 0 (.send .lock), .call 0 (.send (.feed true)), .call 0 (.send (.flush true)),
      .inbound (.binary (DigMessage.toBytes ⟨221, some 0, [7]⟩)), .handoff, .release, .call 0 .receive]
    (run Link.step start as).map (fun t => t.outlet.sink.map Written.frame) = some [[220, 1, 0, 0, 0, 0, 0, 1, 5]] ∧
      (run Link.step start (as.map (Action.rename swapped))).map (fun t => t.outlet.sink.map Written.frame) =
        some [[250, 1, 0, 0, 0, 0, 0, 1, 0]] := by
  intro start as
  have hband : swapped.KeepsChia := by
    intro b hb
    refine Equiv.swap_apply_of_ne_of_ne ?_ ?_ <;> rintro rfl <;> cases hb
  have halike := dig_messages_opaque OpcodeRateLimiter.singleByte_introducer OpcodeRateLimiter.overlapping hband 0 1 as
  have hsink : (run Link.step start as).map (fun t => t.outlet.sink.map Written.frame) =
      some [[220, 1, 0, 0, 0, 0, 0, 1, 5]] := by decide +kernel
  refine ⟨hsink, ?_⟩
  obtain ⟨t, ht, hframes⟩ := Option.map_eq_some_iff.1 hsink
  rw [show run Link.step start (as.map (Action.rename swapped)) = _ from halike, ht, Option.map_some, Option.map_some,
    Link.frames_rename, hframes]
  decide

end Dig
