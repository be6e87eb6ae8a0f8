import DigPeer.Agreement
import DigPeer.Compatibility
import DigPeer.Introducer
/-!
# Typed — sends and requests of typed bodies (`send`, `request_*` and `opcode_of` in `link.rs`)

A typed request is an `async fn` around one `request_message`: it fails before that, or it has its arguments and makes
something of its outcome.  On a pair of links a call returns what the other application sent in answer
to the body that was delivered to it (`exchanged_of_returned`), so a typed request returns a value exactly where the
answer to this very body is that value's encoding.
-/
namespace Dig

open Correlator Lts

variable {ε α β γ : Type}

/-- What the link knows of a type that is `Streamable` and a `ChiaProtocolMessage`: its `msg_type()` and its format. -/
structure ProtocolBody (types : ProtocolMessageTypes ε) (α : Type) where
  msgType : types.Variant
  wire    : Wire ε α

namespace ProtocolBody

variable {types : ProtocolMessageTypes ε}

def toBytes (B : ProtocolBody types α) (body : α) : Except LinkError Bytes :=
  (B.wire.encode body).mapError fun _ => .streamable

def fromBytes (B : ProtocolBody types α) (tooLong : ε) (data : Bytes) : Except LinkError α :=
  (B.wire.fromBytes tooLong data).mapError fun _ => .streamable

def opcode (B : ProtocolBody types α) : UInt8 := types.toByte B.msgType

/-- The message is this body, with this id. -/
def Carries (B : ProtocolBody types α) (body : α) (id : Option UInt16) (m : DigMessage) : Prop :=
  m.msgType = B.opcode ∧ m.id = id ∧ B.wire.encode body = .ok m.data

def Malformed (B : ProtocolBody types α) (m : DigMessage) : Prop :=
  m.msgType = B.opcode ∧ ∀ body, B.wire.encode body ≠ .ok m.data

end ProtocolBody

def opcodeOf {types : ProtocolMessageTypes ε} (B : ProtocolBody types α) : Except LinkError UInt8 := do
  let bytes ← (types.wire.encode B.msgType).mapError fun _ => LinkError.streamable
  match bytes.head? with
  | some opcode => return opcode
  | none        => throw .malformedOpcode

/-- A request that has come to its `request_message`: how it calls it, and what it makes of the outcome. -/
structure Started (α : Type) where
  action : Action
  finish : Except LinkError DigMessage → Except LinkError α

namespace DigLink

variable {types : ProtocolMessageTypes ε} (tooLong : ε)

/-- `send`, up to its `send_message`. -/
def send (B : ProtocolBody types β) (body : β) : Except LinkError Action := do
  return .post ⟨← opcodeOf B, none, ← B.toBytes body⟩

def requestRaw (R : ProtocolBody types γ) (B : ProtocolBody types β) (body : β) :
    Except LinkError (Started DigMessage) := do
  return ⟨.request (← opcodeOf B) (← B.toBytes body) [← opcodeOf R], id⟩

def requestDig (opcode : UInt8) (expected : List UInt8) (data : Bytes) : Started DigMessage where
  action := .request opcode data expected
  finish := id

def requestInfallible (T : ProtocolBody types α) (B : ProtocolBody types β) (body : β) :
    Except LinkError (Started α) := do
  let expected ← opcodeOf T
  return ⟨.request (← opcodeOf B) (← B.toBytes body) [expected], Dig.requestInfallible (T.fromBytes tooLong) expected⟩

def requestFallible (T : ProtocolBody types α) (E : ProtocolBody types γ) (B : ProtocolBody types β) (body : β) :
    Except LinkError (Started (Except γ α)) := do
  let accepted ← opcodeOf T
  let rejected ← opcodeOf E
  return ⟨.request (← opcodeOf B) (← B.toBytes body) [accepted, rejected],
    Dig.requestFallible (T.fromBytes tooLong) (E.fromBytes tooLong) accepted rejected⟩

end DigLink

/-! ## Opcodes and bodies -/

section Bodies

variable {types : ProtocolMessageTypes ε} {B : ProtocolBody types β} {body : β} {data : Bytes} {tooLong : ε}

/-- **Every type has an opcode.** -/
theorem opcodeOf_eq (B : ProtocolBody types β) : opcodeOf B = .ok B.opcode := by
  unfold opcodeOf
  rw [types.encode_wire]
  rfl

theorem mapError_eq_ok {ε' : Type} {f : ε → ε'} {x : Except ε α} {a : α} : x.mapError f = .ok a ↔ x = .ok a := by
  cases x <;> simp [Except.mapError]

theorem map_eq_ok {f : α → β} {x : Except ε α} {b : β} : f <$> x = .ok b ↔ ∃ a, x = .ok a ∧ f a = b := by
  cases x <;> simp [Functor.map, Except.map]

theorem map_eq_error {f : α → β} {x : Except ε α} {e : ε} : f <$> x = .error e ↔ x = .error e := by
  cases x <;> simp [Functor.map, Except.map]

theorem ProtocolBody.toBytes_eq_ok : B.toBytes body = .ok data ↔ B.wire.encode body = .ok data := mapError_eq_ok

theorem ProtocolBody.fromBytes_eq_ok : B.fromBytes tooLong data = .ok body ↔ B.wire.encode body = .ok data :=
  mapError_eq_ok.trans Wire.fromBytes_eq_ok

/-- **A payload that is no body's encoding is an error**, and of one kind. -/
theorem ProtocolBody.fromBytes_eq_error {e : LinkError} :
    B.fromBytes tooLong data = .error e ↔ e = .streamable ∧ ∀ body, B.wire.encode body ≠ .ok data := by
  have herror : (∃ x, B.wire.fromBytes tooLong data = .error x) ↔ ∀ body, B.wire.encode body ≠ .ok data :=
    Wire.fromBytes_eq_error
  rw [← herror, fromBytes]
  cases B.wire.fromBytes tooLong data <;> simp [Except.mapError, eq_comm]

variable {T : ProtocolBody types α} {E : ProtocolBody types γ}

theorem DigLink.send_eq_ok {message : DigMessage} : DigLink.send B body = .ok (.post message) ↔
    message.msgType = B.opcode ∧ message.id = none ∧ B.wire.encode body = .ok message.data := by
  simp only [DigLink.send, opcodeOf_eq, Wire.bind_eq_ok_iff, ProtocolBody.toBytes_eq_ok, Except.ok.injEq, exists_eq_left',
    pure, Except.pure, Action.post.injEq]
  constructor
  · rintro ⟨data, hdata, rfl⟩
    exact ⟨rfl, rfl, hdata⟩
  · rintro ⟨hopcode, hid, hdata⟩
    exact ⟨_, hdata, by rw [← hopcode, ← hid]⟩

theorem DigLink.requestRaw_eq_ok {started : Started DigMessage} : DigLink.requestRaw T B body = .ok started ↔
    ∃ data, B.wire.encode body = .ok data ∧ ⟨.request B.opcode data [T.opcode], id⟩ = started := by
  simp only [DigLink.requestRaw, opcodeOf_eq, Wire.bind_eq_ok_iff, ProtocolBody.toBytes_eq_ok, Except.ok.injEq,
    exists_eq_left', pure, Except.pure]

theorem DigLink.requestInfallible_eq_ok {started : Started α} : DigLink.requestInfallible tooLong T B body = .ok started ↔
    ∃ data, B.wire.encode body = .ok data ∧
      ⟨.request B.opcode data [T.opcode], Dig.requestInfallible (T.fromBytes tooLong) T.opcode⟩ = started := by
  simp only [DigLink.requestInfallible, opcodeOf_eq, Wire.bind_eq_ok_iff, ProtocolBody.toBytes_eq_ok, Except.ok.injEq,
    exists_eq_left', pure, Except.pure]

theorem DigLink.requestFallible_eq_ok {started : Started (Except γ α)} :
    DigLink.requestFallible tooLong T E B body = .ok started ↔ ∃ data, B.wire.encode body = .ok data ∧
      ⟨.request B.opcode data [T.opcode, E.opcode],
        Dig.requestFallible (T.fromBytes tooLong) (E.fromBytes tooLong) T.opcode E.opcode⟩ = started := by
  simp only [DigLink.requestFallible, opcodeOf_eq, Wire.bind_eq_ok_iff, ProtocolBody.toBytes_eq_ok, Except.ok.injEq,
    exists_eq_left', pure, Except.pure]

end Bodies

/-! ## An exchange -/

section Exchange

variable {tr : List (Duplex × Side × Event)} {d : Duplex} {side : Side} {c : CallId} {call : Call} {k : UInt16}
  {m : DigMessage} {now : Side → ℕ} {factor : Side → ℚ} {limits : Side → OpcodeRateLimits}

/-- The other application was delivered `request`, which the call wrote, and answered it with `reply` and with nothing
else. -/
def Duplex.Exchanged (d : Duplex) (side : Side) (c : CallId) (request reply : DigMessage) : Prop :=
  ∃ n p y post, (d side).link.outlet.sink[n]? = some y ∧ y.writer = .call c ∧ y.decoded = some request ∧
    n ∈ (d side.other).received ∧ (d side.other).purposes[p]? = some (.answers n) ∧
    (d side.other).link.posts[p]? = some post ∧ post.message = reply ∧ ∀ p', d.AnswersCall side c p' → p' = p

/-- **What a call returns was exchanged for the message it sent.** -/
theorem exchanged_of_returned (h : Runs Duplex.step (Duplex.start now factor limits) tr d)
    (hfits : ∀ side, (limits side).FitsHeader) (hfew : d.Few) (hapart : d.OpcodesApart) (hdisciplined : d.Disciplined)
    (hc : (d side).link.calls[c]? = some call) (hp : call.phase = .registered k (.returned (.ok m))) :
    d.Exchanged side c (call.message k) m ∧ m.id = some k ∧ m.msgType ∈ call.expected := by
  obtain ⟨_, hlink⟩ := link_runs h side
  have hsent := sent_of_runs hlink
  obtain ⟨p, hmessage, hanswers⟩ := answered_of_duplex_runs h hfits hfew hapart hdisciplined side c m
    (Or.inr ⟨call, hc, Or.inr ⟨k, hp⟩⟩)
  obtain ⟨post, hpost, hm⟩ := Option.map_eq_some_iff.1 hmessage
  obtain ⟨n, y, hpurpose, hn, hy, hw⟩ := id hanswers
  -- the frame that was delivered is the one the call wrote
  have hdelivered := (tracked_of_runs h side.other).received n hn
  simp only [Duplex.channel, Side.other_other] at hdelivered
  obtain ⟨request, hframe⟩ := Option.isSome_iff_exists.1 hdelivered
  obtain ⟨y', hy', hdecoded⟩ := Option.bind_eq_some_iff.1 hframe
  rw [hy] at hy'
  cases hy'
  have hrequest := message?_of_decoded hsent (hfits side) (List.mem_of_getElem? hy) hdecoded
  rw [hw, Link.message?_call hc hp] at hrequest
  cases hrequest
  obtain ⟨_, hans⟩ := (history_of_runs hlink).answersAt ⟨call, hc, rfl, hp⟩
  refine ⟨⟨n, p, y, post, hy, hw, hdecoded, hn, hpurpose, hpost, hm, fun p' hp' => ?_⟩, hans.id, hans.declared⟩
  exact Duplex.AnswersCall.unique hsent (posted_of_runs h hfits side.other) hp' hanswers

/-! ## What a typed request comes to -/

variable {types : ProtocolMessageTypes ε} {tooLong : ε} {T : ProtocolBody types α} {E : ProtocolBody types γ}
  {B : ProtocolBody types β} {body : β} {result : Except LinkError DigMessage}

/-- The other application was delivered the body, in the request of the call, and answered it with `reply`. -/
def Duplex.RepliedTo (d : Duplex) (side : Side) (c : CallId) (k : UInt16) (B : ProtocolBody types β) (body : β)
    (reply : DigMessage) : Prop :=
  ∃ request, d.Exchanged side c request reply ∧ B.Carries body (some k) request

/-- The call was sent for the body, and came back with `reply`. -/
def Duplex.Came (d : Duplex) (side : Side) (c : CallId) (k : UInt16) (B : ProtocolBody types β) (body : β)
    (result : Except LinkError DigMessage) (reply : DigMessage) : Prop :=
  result = .ok reply ∧ d.RepliedTo side c k B body reply

/-- What an infallible request makes of the outcome of its call. -/
structure Duplex.AgreesInfallible (d : Duplex) (side : Side) (c : CallId) (k : UInt16) (T : ProtocolBody types α)
    (B : ProtocolBody types β) (body : β) (result : Except LinkError DigMessage) (made : Except LinkError α) : Prop where
  value : ∀ v, made = .ok v ↔ ∃ reply, d.Came side c k B body result reply ∧ T.Carries v (some k) reply
  error : ∀ e, made = .error e ↔ result = .error e ∨
    e = .streamable ∧ ∃ reply, d.Came side c k B body result reply ∧ T.Malformed reply

structure Duplex.AgreesFallible (d : Duplex) (side : Side) (c : CallId) (k : UInt16) (T : ProtocolBody types α)
    (E : ProtocolBody types γ) (B : ProtocolBody types β) (body : β) (result : Except LinkError DigMessage)
    (made : Except LinkError (Except γ α)) : Prop where
  accepted : ∀ v, made = .ok (.ok v) ↔ ∃ reply, d.Came side c k B body result reply ∧ T.Carries v (some k) reply
  rejected : ∀ x, made = .ok (.error x) ↔ T.opcode ≠ E.opcode ∧
    ∃ reply, d.Came side c k B body result reply ∧ E.Carries x (some k) reply
  error    : ∀ e, made = .error e ↔ result = .error e ∨
    e = .streamable ∧ ∃ reply, d.Came side c k B body result reply ∧
      (T.Malformed reply ∨ T.opcode ≠ E.opcode ∧ E.Malformed reply)

theorem Duplex.exists_came_ok {P : DigMessage → Prop} (hm : d.Came side c k B body (.ok m) m) :
    (∃ reply, d.Came side c k B body (.ok m) reply ∧ P reply) ↔ P m := by
  constructor
  · rintro ⟨reply, ⟨hreply, -⟩, hP⟩
    cases hreply
    exact hP
  · exact fun hP => ⟨m, hm, hP⟩

theorem Duplex.not_exists_came_error {P : DigMessage → Prop} {e : LinkError} :
    ¬ ∃ reply, d.Came side c k B body (.error e) reply ∧ P reply := by
  rintro ⟨reply, ⟨hreply, -⟩, -⟩
  cases hreply

theorem agreesInfallible_of_came (hcame : ∀ m, result = .ok m → d.Came side c k B body result m ∧ m.id = some k ∧
    m.msgType ∈ [T.opcode]) :
    d.AgreesInfallible side c k T B body result (Dig.requestInfallible (T.fromBytes tooLong) T.opcode result) := by
  have hmade := requestInfallible_eq (T.fromBytes tooLong) fun m hm => List.mem_singleton.1 (hcame m hm).2.2
  rw [hmade]
  cases result with
  | error e₀ =>
    refine ⟨fun v => iff_of_false (fun h => by cases h) Duplex.not_exists_came_error, fun e => ?_⟩
    simp [Duplex.not_exists_came_error, bind, Except.bind]
  | ok m =>
    obtain ⟨hm, hid, htype⟩ := hcame m rfl
    rw [List.mem_singleton] at htype
    show d.AgreesInfallible side c k T B body (.ok m) (T.fromBytes tooLong m.data)
    refine ⟨fun v => ?_, fun e => ?_⟩
    · rw [ProtocolBody.fromBytes_eq_ok, Duplex.exists_came_ok hm]
      simp [ProtocolBody.Carries, htype, hid]
    · rw [ProtocolBody.fromBytes_eq_error, Duplex.exists_came_ok hm]
      simp [ProtocolBody.Malformed, htype]

/-- The second body is read only under an opcode that the first does not have. -/
theorem agreesFallible_of_came (hcame : ∀ m, result = .ok m → d.Came side c k B body result m ∧ m.id = some k ∧
    m.msgType ∈ [T.opcode, E.opcode]) :
    d.AgreesFallible side c k T E B body result
      (Dig.requestFallible (T.fromBytes tooLong) (E.fromBytes tooLong) T.opcode E.opcode result) := by
  have hmade := requestFallible_eq (T.fromBytes tooLong) (E.fromBytes tooLong) fun m hm =>
    by simpa using (hcame m hm).2.2
  rw [hmade]
  cases result with
  | error e₀ =>
    refine ⟨fun v => iff_of_false (fun h => by cases h) Duplex.not_exists_came_error,
      fun x => iff_of_false (fun h => by cases h) fun h => Duplex.not_exists_came_error h.2, fun e => ?_⟩
    simp [Duplex.not_exists_came_error, bind, Except.bind]
  | ok m =>
    obtain ⟨hm, hid, htype⟩ := hcame m rfl
    have hbody : ((.ok m : Except LinkError DigMessage) >>= fun m => if m.msgType = T.opcode then
        .ok <$> T.fromBytes tooLong m.data else .error <$> E.fromBytes tooLong m.data) =
          (if m.msgType = T.opcode then .ok <$> T.fromBytes tooLong m.data
            else .error <$> E.fromBytes tooLong m.data : Except LinkError (Except γ α)) := rfl
    rw [hbody]
    by_cases haccepted : m.msgType = T.opcode
    · rw [if_pos haccepted]
      refine ⟨fun v => ?_, fun x => ?_, fun e => ?_⟩
      · rw [map_eq_ok, Duplex.exists_came_ok hm]
        simp [ProtocolBody.fromBytes_eq_ok, ProtocolBody.Carries, haccepted, hid]
      · rw [map_eq_ok, Duplex.exists_came_ok hm]
        simp only [ProtocolBody.Carries, haccepted]
        exact iff_of_false (by simp) fun h => h.1 h.2.1
      · rw [map_eq_error, ProtocolBody.fromBytes_eq_error, Duplex.exists_came_ok hm]
        simp only [ProtocolBody.Malformed, haccepted, reduceCtorEq, false_or, true_and]
        exact and_congr_right fun _ => (or_iff_left fun h => h.1 h.2.1).symm
    · have hrejected : m.msgType = E.opcode := by simpa [haccepted] using htype
      have hne : T.opcode ≠ E.opcode := fun he => haccepted (hrejected.trans he.symm)
      rw [if_neg haccepted]
      refine ⟨fun v => ?_, fun x => ?_, fun e => ?_⟩
      · rw [map_eq_ok, Duplex.exists_came_ok hm]
        simp [ProtocolBody.Carries, haccepted]
      · rw [map_eq_ok, Duplex.exists_came_ok hm]
        simp [ProtocolBody.fromBytes_eq_ok, ProtocolBody.Carries, hrejected, hid, hne]
      · rw [map_eq_error, ProtocolBody.fromBytes_eq_error, Duplex.exists_came_ok hm]
        simp [ProtocolBody.Malformed, hrejected, hne, hne.symm]

/-- **Typed requests are answered as they were asked.**  A request that a call was made for returns a value exactly
where the call came back with this value's encoding, sent by the other application in answer to the body that was asked
with and that it was delivered; it fails as the call does, or else because that answer is no encoding of its type.  An
unparsed one returns the answer, under the opcode that was asked for.  This needs tables whose payloads a length field
can describe (`FitsHeader`), few calls (`Few`), requests that are not mistaken for answers (`OpcodesApart`) and
applications that put ids on answers alone (`Disciplined`). -/
theorem typed_agreement (h : Runs Duplex.step (Duplex.start now factor limits) tr d)
    (hfits : ∀ side, (limits side).FitsHeader) (hfew : d.Few) (hapart : d.OpcodesApart) (hdisciplined : d.Disciplined)
    (hc : (d side).link.calls[c]? = some call) (hp : call.phase = .registered k (.returned result))
    (T : ProtocolBody types α) (E : ProtocolBody types γ) (B : ProtocolBody types β) (body : β) (tooLong : ε) :
    (∀ started, DigLink.requestInfallible tooLong T B body = .ok started →
      started.action = .request call.opcode call.data call.expected →
        d.AgreesInfallible side c k T B body result (started.finish result)) ∧
    (∀ started, DigLink.requestFallible tooLong T E B body = .ok started →
      started.action = .request call.opcode call.data call.expected →
        d.AgreesFallible side c k T E B body result (started.finish result)) ∧
    (∀ started, DigLink.requestRaw T B body = .ok started →
      started.action = .request call.opcode call.data call.expected →
        ∀ m, started.finish result = .ok m → d.Came side c k B body result m ∧ m.id = some k ∧ m.msgType = T.opcode) := by
  have hcame : ∀ m, result = .ok m → call.opcode = B.opcode → B.wire.encode body = .ok call.data →
      d.Came side c k B body result m ∧ m.id = some k ∧ m.msgType ∈ call.expected := by
    rintro m rfl hopcode hbody
    obtain ⟨hexchanged, hid, hdeclared⟩ := exchanged_of_returned h hfits hfew hapart hdisciplined hc hp
    exact ⟨⟨rfl, call.message k, hexchanged, hopcode, rfl, hbody⟩, hid, hdeclared⟩
  refine ⟨?_, ?_, ?_⟩
  · intro started hstarted haction
    obtain ⟨data, hbody, rfl⟩ := DigLink.requestInfallible_eq_ok.1 hstarted
    simp only [Action.request.injEq] at haction
    obtain ⟨hopcode, rfl, hexpected⟩ := haction
    refine agreesInfallible_of_came fun m hm => ?_
    rw [hexpected]
    exact hcame m hm hopcode.symm hbody
  · intro started hstarted haction
    obtain ⟨data, hbody, rfl⟩ := DigLink.requestFallible_eq_ok.1 hstarted
    simp only [Action.request.injEq] at haction
    obtain ⟨hopcode, rfl, hexpected⟩ := haction
    refine agreesFallible_of_came fun m hm => ?_
    rw [hexpected]
    exact hcame m hm hopcode.symm hbody
  · intro started hstarted haction m hm
    obtain ⟨data, hbody, rfl⟩ := DigLink.requestRaw_eq_ok.1 hstarted
    simp only [Action.request.injEq] at haction
    obtain ⟨hopcode, rfl, hexpected⟩ := haction
    obtain ⟨hcame, hid, hdeclared⟩ := hcame m hm hopcode.symm hbody
    rw [← hexpected, List.mem_singleton] at hdeclared
    exact ⟨hcame, hid, hdeclared⟩

end Exchange

/-! ## A peer list, asked for and sent -/

theorem opcodesApart_of_nil {d : Duplex} (hb : (d .b).link.calls = []) : d.OpcodesApart := by
  intro side c c' call call' hc hc'
  cases side with
  | a =>
    rw [Side.other, hb] at hc'
    cases hc'
  | b =>
    rw [hb] at hc
    cases hc

/-- `#[streamable(message)]`. -/
def RequestPeersIntroducer.body : ProtocolBody introducerTypes RequestPeersIntroducer where
  msgType := .requestPeersIntroducer
  wire    := wire

def RespondPeersIntroducer.body : ProtocolBody introducerTypes (RespondPeersIntroducer (String × UInt16 × UInt64)) where
  msgType := .respondPeersIntroducer
  wire    := wire .reference .reference

def onePeer : Bytes := [0, 0, 0, 1, 0, 0, 0, 1, 97, 0, 7, 0, 0, 0, 0, 0, 0, 0, 0]

def askForPeers : List (Side × Event) :=
  requestSteps .a 63 [64] ++ answerSteps .b ⟨64, some 0, onePeer⟩ ++ returnSteps .a

theorem typed_agreement_askForPeers : ∃ tr d started, Runs Duplex.step startDefault tr d ∧
    DigLink.requestInfallible .inputTooLong RespondPeersIntroducer.body RequestPeersIntroducer.body ⟨⟩ = .ok started ∧
    d.AgreesInfallible .a 0 0 RespondPeersIntroducer.body RequestPeersIntroducer.body ⟨⟩ (.ok ⟨64, some 0, onePeer⟩)
      (started.finish (.ok ⟨64, some 0, onePeer⟩)) ∧
    started.finish (.ok ⟨64, some 0, onePeer⟩) = .ok ⟨[("a", 7, 0)]⟩ := by
  have hsome : (run Duplex.step startDefault askForPeers).isSome = true := by decide +kernel
  generalize hd : reach Duplex.step startDefault askForPeers = d
  have hrun := runs_reach hsome
  rw [hd] at hrun
  have ha : (d .a).link.calls = [⟨63, [], [64], ⟨some ⟨64, some 0, onePeer⟩, true, true⟩,
      .registered 0 (.returned (.ok ⟨64, some 0, onePeer⟩))⟩] := by rw [← hd]; decide +kernel
  have hb : (d .b).link.calls = [] := by rw [← hd]; decide +kernel
  have hfew : d.Few := by intro side; cases side <;> simp [ha, hb]
  have hc : (d .a).link.calls[0]? = some ⟨63, [], [64], ⟨some ⟨64, some 0, onePeer⟩, true, true⟩,
      .registered 0 (.returned (.ok ⟨64, some 0, onePeer⟩))⟩ := by rw [ha]; rfl
  have hdisciplined : d.Disciplined := Duplex.disciplined_of_not_own fun side => by
    rw [← hd]
    cases side <;> decide +kernel
  have hagree := (typed_agreement hrun (fun _ => fitsHeader_defaultOnly) hfew (opcodesApart_of_nil hb) hdisciplined hc rfl
    RespondPeersIntroducer.body RespondPeersIntroducer.body RequestPeersIntroducer.body ⟨⟩ .inputTooLong).1 _ rfl rfl
  exact ⟨_, d, _, hrun, rfl, hagree, by decide +kernel⟩

/-! ## A registration -/

/-- A registration: the peer as it was sent, and the acknowledgement that came back for it. -/
structure Duplex.Registers (d : Duplex) (side : Side) (c : CallId) (k : UInt16) (chia : ChiaTraits ε)
    (peer : RegisterPeer) (request reply : DigMessage) : Prop where
  exchanged    : d.Exchanged side c request reply
  delivered    : RegisterPeer.fromDigMessage chia request = some (.ok peer)
  id           : request.id = some k ∧ reply.id = some k
  acknowledged : ∀ a, RegisterAck.fromDigMessage chia reply = some (.ok a) ↔ a.toDigMessage chia (some k) = .ok reply
  corrupt      : (∃ e, RegisterAck.fromDigMessage chia reply = some (.error e)) ↔ BadAck reply.data
  opcode       : RegisterAck.fromDigMessage chia reply ≠ none

/-- **A registration is acknowledged as it was made.**  Where a registration sent by `request_dig` returns a message,
the introducer's application was delivered this very peer and sent that message in answer to it; it reads as the
acknowledgement that was put in it, or as an error if none was, and never as another type of message.  This needs
`FitsHeader`, `Few`, `OpcodesApart` and `Disciplined`, as typed requests do. -/
theorem registration_agreement {tr : List (Duplex × Side × Event)} {d : Duplex} {side : Side} {c : CallId} {call : Call}
    {k : UInt16} {reply msg : DigMessage} {now : Side → ℕ} {factor : Side → ℚ} {limits : Side → OpcodeRateLimits}
    (h : Runs Duplex.step (Duplex.start now factor limits) tr d) (hfits : ∀ side, (limits side).FitsHeader) (hfew : d.Few)
    (hapart : d.OpcodesApart) (hdisciplined : d.Disciplined) (hc : (d side).link.calls[c]? = some call)
    (hp : call.phase = .registered k (.returned (.ok reply))) (chia : ChiaTraits ε) (peer : RegisterPeer)
    (hmsg : peer.toDigMessage chia none = .ok msg)
    (haction : (DigLink.requestDig msg.msgType [DigMessageType.registerAck.toByte] msg.data).action =
      .request call.opcode call.data call.expected) :
    ∃ request, d.Registers side c k chia peer request reply := by
  obtain ⟨htype, -, hdata⟩ := bodyToDigMessage_eq_ok.1 hmsg
  simp only [DigLink.requestDig, Action.request.injEq] at haction
  obtain ⟨hopcode, hbody, hexpected⟩ := haction
  obtain ⟨hexchanged, hid, hdeclared⟩ := exchanged_of_returned h hfits hfew hapart hdisciplined hc hp
  rw [← hexpected, List.mem_singleton] at hdeclared
  refine ⟨call.message k, hexchanged, ?_, ⟨rfl, hid⟩, fun a => ?_, ?_, ?_⟩
  · refine bodyFromDigMessage_eq_ok.2 ⟨?_, ?_⟩
    · rw [← htype]
      exact hopcode.symm
    · rw [hdata]
      exact congrArg Except.ok hbody
  · exact bodyFromDigMessage_eq_ok.trans
      ⟨fun ⟨hack, ha⟩ => bodyToDigMessage_eq_ok.2 ⟨hack, hid, ha⟩, fun ha => ⟨hdeclared, (bodyToDigMessage_eq_ok.1 ha).2.2⟩⟩
  · exact bodyFromDigMessage_eq_error.trans ((and_iff_right hdeclared).trans badAck_iff.symm)
  · exact fun hnone => bodyFromDigMessage_eq_none.1 hnone hdeclared

def registerAndRefuse : List (Side × Event) :=
  [(.a, .act (.request 218 [0, 0, 0, 1, 97, 0x24, 0xe4, 1] [219])), (.a, .act (.call 0 .acquire)),
    (.a, .act (.call 0 .insert))] ++ sendSteps.map (fun e => (.a, .act (.call 0 (.send e)))) ++
    answerSteps .b ⟨219, some 0, [0]⟩ ++ returnSteps .a

theorem registration_agreement_refused : ∃ tr d request, Runs Duplex.step startDefault tr d ∧
    d.Registers .a 0 0 ChiaTraits.reference ⟨"a", 9444, .fullNode⟩ request ⟨219, some 0, [0]⟩ ∧
    RegisterAck.fromDigMessage ChiaTraits.reference ⟨219, some 0, [0]⟩ = some (.ok ⟨false⟩) := by
  have hsome : (run Duplex.step startDefault registerAndRefuse).isSome = true := by decide +kernel
  generalize hd : reach Duplex.step startDefault registerAndRefuse = d
  have hrun := runs_reach hsome
  rw [hd] at hrun
  have ha : (d .a).link.calls = [⟨218, [0, 0, 0, 1, 97, 0x24, 0xe4, 1], [219], ⟨some ⟨219, some 0, [0]⟩, true, true⟩,
      .registered 0 (.returned (.ok ⟨219, some 0, [0]⟩))⟩] := by rw [← hd]; decide +kernel
  have hb : (d .b).link.calls = [] := by rw [← hd]; decide +kernel
  have hmsg : RegisterPeer.toDigMessage ChiaTraits.reference ⟨"a", 9444, .fullNode⟩ none =
      .ok ⟨218, none, [0, 0, 0, 1, 97, 0x24, 0xe4, 1]⟩ := by rfl
  have hdisciplined : d.Disciplined := Duplex.disciplined_of_not_own fun side => by
    rw [← hd]
    cases side <;> decide +kernel
  obtain ⟨request, hregisters⟩ := registration_agreement hrun (fun _ => fitsHeader_defaultOnly)
    (by intro side; cases side <;> simp [ha, hb]) (opcodesApart_of_nil hb) hdisciplined
    (show (d .a).link.calls[0]? = some _ by rw [ha]; rfl) rfl ChiaTraits.reference ⟨"a", 9444, .fullNode⟩
    hmsg rfl
  exact ⟨_, d, request, hrun, hregisters, by rfl⟩

end Dig
