import DigPeer.Outlet
import DigPeer.RequestMap
import DigPeer.Lib.Lts
/-!
# Link — one link as a state machine (`link.rs`)

A link runs any number of `request_message` calls, any number of `send_message` calls of the application (posts), and
one reader.  They interleave at their await points, and on several threads also between two locks, so a step is what one
of them does under one lock or on one channel end; the lock of the sink alone is held across steps.  Deadlines are
actions that the environment takes at any moment the code waits with one.

The request map, the calls and the reader are the `Correlator`: nothing else decides which frame answers which call.
-/
namespace Dig

/-! ## A oneshot channel -/

structure Oneshot where
  value           : Option DigMessage
  senderDropped   : Bool
  receiverDropped : Bool
deriving DecidableEq, Repr

namespace Oneshot

def new : Oneshot where
  value           := none
  senderDropped   := false
  receiverDropped := false

/-- `send`, which consumes the sender: a message for a dropped receiver is lost. -/
def send (o : Oneshot) (m : DigMessage) : Oneshot :=
  { o with value := if o.receiverDropped then o.value else some m, senderDropped := true }

def dropSender (o : Oneshot) : Oneshot := { o with senderDropped := true }

def dropReceiver (o : Oneshot) : Oneshot := { o with receiverDropped := true }

def poll (o : Oneshot) : Option (Except LinkError DigMessage) :=
  match o.value, o.senderDropped with
  | some m, _    => some (.ok m)
  | none, true   => some (.error .recv)
  | none, false  => none

end Oneshot

/-! ## The parties -/

/-- Where a call stands once it has an id.  `reclaimed` holds what its `cancel` took out of the map, until it is
dropped; `dropped` is a call whose future its caller has dropped. -/
inductive Stage where
  | sending (phase : SendPhase)
  | cancelling (error : LinkError)
  | waiting
  | expired
  | reclaimed (request : Option Request) (error : LinkError)
  | returned (result : Except LinkError DigMessage)
  | dropped
deriving DecidableEq

inductive Phase where
  | acquiring
  | inserting
  | withdrawn
  | registered (id : UInt16) (stage : Stage)
deriving DecidableEq

structure Call where
  opcode   : UInt8
  data     : Bytes
  expected : List UInt8
  channel  : Oneshot
  phase    : Phase
deriving DecidableEq

namespace Call

def new (opcode : UInt8) (data : Bytes) (expected : List UInt8) : Call where
  opcode   := opcode
  data     := data
  expected := expected
  channel  := .new
  phase    := .acquiring

def goTo (phase : Phase) (call : Call) : Call := { call with phase }

def dropSender (call : Call) : Call := { call with channel := call.channel.dropSender }

def dropReceiver (call : Call) : Call := { call with channel := call.channel.dropReceiver }

def message (call : Call) (id : UInt16) : DigMessage := ⟨call.opcode, some id, call.data⟩

end Call

/-- Where `read_inbound` stands: between frames, with an answer to hand over, with a permit to drop after it, or with a
frame for the application. -/
inductive Reader where
  | idle
  | answering (waiter : Request) (message : DigMessage)
  | releasing
  | delivering (message : DigMessage)
  | ended
deriving DecidableEq, Repr

structure Correlator where
  requests : RequestMap
  calls    : List Call
  reader   : Reader

inductive PostPhase where
  | sending (phase : SendPhase)
  | returned (result : Except LinkError Unit)
  | dropped

structure Post where
  message : DigMessage
  phase   : PostPhase

/-- Whether a `close` has the sink's lock, and whether one has closed the sink. -/
structure Closing where
  hasLock : Bool
  done    : Bool
deriving DecidableEq, Repr

structure Link extends Correlator where
  outlet  : Outlet
  posts   : List Post
  closing : Closing
  inbox   : List DigMessage
  appOpen : Bool

def inboundChannelCapacity : ℕ := 32

/-- `from_parts`, at clock reading `now`. -/
def Link.fromParts (now : ℕ) (rateLimitFactor : ℚ) (limits : OpcodeRateLimits) : Link where
  requests := .new
  calls    := []
  reader   := .idle
  outlet   := ⟨.new now .outbound rateLimitWindowSeconds rateLimitFactor limits, []⟩
  posts    := []
  closing  := ⟨false, false⟩
  inbox    := []
  appOpen  := true

/-! ## What can happen -/

/-- What `stream.next()` yields; `finished` is the `None` at its end. -/
inductive Item where
  | binary (bytes : Bytes)
  | text
  | ping
  | pong
  | frame
  | close
  | error
  | finished
deriving DecidableEq, Repr

inductive CallEvent where
  | acquire
  | insert
  | send (e : SendEvent)
  | receive
  | expire
  | cancel
  | finish
  | abandon
deriving DecidableEq, Repr

inductive PostEvent where
  | send (e : SendEvent)
  | abandon
deriving DecidableEq, Repr

/-- What a `close` of the sink does: it gets the lock, and closes the sink, unless it is dropped before that. -/
inductive CloseEvent where
  | lock
  | finish (done : Bool)
deriving DecidableEq, Repr

inductive Action where
  | request (opcode : UInt8) (data : Bytes) (expected : List UInt8)
  | call (c : CallId) (e : CallEvent)
  | post (message : DigMessage)
  | postStep (p : ℕ) (e : PostEvent)
  | close (e : CloseEvent)
  | inbound (item : Item)
  | handoff
  | release
  | deliver
  | recv
  | closeApp
deriving DecidableEq, Repr

/-! ## The correlator's own steps -/

namespace Correlator

def modifyCall (s : Correlator) (c : CallId) (f : Call → Call) : Correlator := { s with calls := s.calls.modify c f }

def isClosed (s : Correlator) (c : CallId) : Bool :=
  match s.calls[c]? with
  | some call => call.channel.receiverDropped
  | none      => true

def dropRequest (s : Correlator) : Option Request → Correlator
  | none         => s
  | some request => { s with requests := s.requests.release, calls := s.calls.modify request.sender .dropSender }

def route (s : Correlator) (m : DigMessage) : Correlator :=
  match m.id with
  | none    => { s with reader := .delivering m }
  | some id =>
    match s.requests.take id m.msgType with
    | (.answer waiter, requests) => { s with requests, reader := .answering waiter m }
    | (.undeclared, requests)    => { s with requests, reader := .delivering m }
    | (.unknown, requests)       => { s with requests, reader := .delivering m }

/-- An item of the stream.  A panic would end the reader's task. -/
def inbound (s : Correlator) : Item → Correlator
  | .close | .error | .finished     => { s with reader := .ended }
  | .ping | .pong | .frame | .text  => s
  | .binary bytes =>
    match DigMessage.fromBytesOwned bytes with
    | .error _     => { s with reader := .ended }
    | .ok none     => s
    | .ok (some m) => s.route m

/-- The error of a call whose deadline has passed, from what its `cancel` took. -/
def expiryError (call : Call) (request : Option Request) : LinkError :=
  match request.bind Request.intoDiagnosis with
  | some (expected, found) => .invalidResponse expected found
  | none                   => .requestTimeout call.opcode

/-- A step of `request_message` other than one of its send.  The receiver goes with the wait it is moved into, so it is
gone before an expired call cancels, and in every other case when the call returns.  A message that arrives between the
last look at the channel and the deadline is lost with it. -/
def callStep (s : Correlator) (c : CallId) (e : CallEvent) : Option Correlator :=
  match s.calls[c]? with
  | none      => none
  | some call =>
    match call.phase, e with
    | .acquiring, .acquire =>
      match s.requests.acquire with
      | none          => none
      | some requests => some { s.modifyCall c (.goTo .inserting) with requests }
    | .inserting, .insert =>
      match s.requests.insert s.isClosed c call.expected with
      | none                => none
      | some (id, requests) => some { s.modifyCall c (.goTo (.registered id (.sending .admitting))) with requests }
    | .registered id .waiting, .receive =>
      match call.channel.poll with
      | none        => none
      | some result => some (s.modifyCall c (.goTo (.registered id (.returned result)) ∘ .dropReceiver))
    | .registered id .waiting, .expire => some (s.modifyCall c (.goTo (.registered id .expired) ∘ .dropReceiver))
    | .registered id (.cancelling error), .cancel =>
      let (request, requests) := s.requests.cancel id
      some { s.modifyCall c (.goTo (.registered id (.reclaimed request error))) with requests }
    | .registered id .expired, .cancel =>
      let (request, requests) := s.requests.cancel id
      some { s.modifyCall c (.goTo (.registered id (.reclaimed request (expiryError call request)))) with requests }
    | .registered id (.reclaimed request error), .finish =>
      some ((s.dropRequest request).modifyCall c (.goTo (.registered id (.returned (.error error))) ∘ .dropReceiver))
    | .acquiring, .abandon => some (s.modifyCall c (.goTo .withdrawn ∘ .dropReceiver))
    | .inserting, .abandon =>
      some { s.modifyCall c (.goTo .withdrawn ∘ .dropReceiver) with requests := s.requests.release }
    | .registered id (.sending _), .abandon | .registered id (.cancelling _), .abandon
    | .registered id .waiting, .abandon | .registered id .expired, .abandon =>
      some (s.modifyCall c (.goTo (.registered id .dropped) ∘ .dropReceiver))
    | _, _ => none

end Correlator

/-! ## A step of the link -/

def Stage.ofProgress : Progress → Stage
  | .at phase     => .sending phase
  | .failed error => .cancelling error
  | .sent         => .waiting

def PostPhase.ofProgress : Progress → PostPhase
  | .at phase     => .sending phase
  | .failed error => .returned (.error error)
  | .sent         => .returned (.ok ())

def Call.hasLock (call : Call) : Bool :=
  match call.phase with
  | .registered _ (.sending phase) => phase.hasLock
  | _ => false

def Post.hasLock (post : Post) : Bool :=
  match post.phase with
  | .sending phase => phase.hasLock
  | _ => false

namespace Link

/-- Whether the sink's lock is taken.  Its guard is part of the future that has it, and goes with it when that is
dropped. -/
def sinkLocked (s : Link) : Bool := s.closing.hasLock || s.calls.any Call.hasLock || s.posts.any Post.hasLock

/-- Whether the sink is such that a send can take the step: its lock is not taken, and it has not been closed. -/
def sinkAllows (s : Link) : SendEvent → Bool
  | .lock      => !s.sinkLocked
  | .feed true => !s.closing.done
  | _          => true

/-- A step of one `send_message` among the others, which waits while the sink's lock is taken. -/
def send (s : Link) (writer : Writer) (message : DigMessage) (phase : SendPhase) (e : SendEvent) :
    Option (Progress × Outlet) :=
  if s.sinkAllows e then s.outlet.send writer message phase e else none

def callSend (s : Link) (c : CallId) (e : SendEvent) : Option Link :=
  match s.calls[c]? with
  | none      => none
  | some call =>
    match call.phase with
    | .registered id (.sending phase) =>
      match s.send (.call c) (call.message id) phase e with
      | none                    => none
      | some (progress, outlet) =>
        some { s with
          toCorrelator := s.toCorrelator.modifyCall c (.goTo (.registered id (.ofProgress progress))), outlet }
    | _ => none

def postStep (s : Link) (p : ℕ) (e : PostEvent) : Option Link :=
  match s.posts[p]? with
  | none      => none
  | some post =>
    match post.phase, e with
    | .sending phase, .send e =>
      match s.send (.post p) post.message phase e with
      | none                    => none
      | some (progress, outlet) => some { s with posts := s.posts.set p ⟨post.message, .ofProgress progress⟩, outlet }
    | .sending _, .abandon => some { s with posts := s.posts.set p ⟨post.message, .dropped⟩ }
    | _, _ => none

def close (s : Link) : CloseEvent → Option Closing
  | .lock        => if s.sinkLocked then none else some ⟨true, s.closing.done⟩
  | .finish done => if s.closing.hasLock then some ⟨false, s.closing.done || done⟩ else none

/-- The reader's `sender.try_send(unmatched)`: a full queue drops the frame, and so does a closed one. -/
def deliver (s : Link) (m : DigMessage) : Link :=
  if s.appOpen ∧ s.inbox.length < inboundChannelCapacity then { s with inbox := s.inbox ++ [m], reader := .idle }
  else { s with reader := .idle }

def step (s : Link) : Action → Option Link
  | .request opcode data expected => some { s with calls := s.calls ++ [.new opcode data expected] }
  | .call c (.send e) => s.callSend c e
  | .call c e => (s.toCorrelator.callStep c e).map fun t => { s with toCorrelator := t }
  | .post message => some { s with posts := s.posts ++ [⟨message, .sending .admitting⟩] }
  | .postStep p e => s.postStep p e
  | .close e => (s.close e).map fun closing => { s with closing }
  | .inbound item =>
    match s.reader with
    | .idle => some { s with toCorrelator := s.toCorrelator.inbound item }
    | _     => none
  | .handoff =>
    match s.reader with
    | .answering waiter message =>
      some { s with
        calls := s.calls.modify waiter.sender fun call => { call with channel := call.channel.send message }
        reader := .releasing }
    | _ => none
  | .release =>
    match s.reader with
    | .releasing => some { s with requests := s.requests.release, reader := .idle }
    | _          => none
  | .deliver =>
    match s.reader with
    | .delivering message => some (s.deliver message)
    | _                   => none
  | .recv =>
    match s.inbox with
    | []         => none
    | _ :: inbox => if s.appOpen then some { s with inbox } else none
  | .closeApp => some { s with appOpen := false }

end Link

/-! ## What is made of an answer -/

def requestInfallible {T : Type} (fromBytes : Bytes → Except LinkError T) (expected : UInt8)
    (outcome : Except LinkError DigMessage) : Except LinkError T := do
  let message ← outcome
  if message.msgType ≠ expected then throw (.invalidResponse [expected] message.msgType)
  fromBytes message.data

def requestFallible {T E : Type} (acceptance : Bytes → Except LinkError T) (rejection : Bytes → Except LinkError E)
    (accepted rejected : UInt8) (outcome : Except LinkError DigMessage) : Except LinkError (Except E T) := do
  let message ← outcome
  if message.msgType = accepted then return .ok (← acceptance message.data)
  else if message.msgType = rejected then return .error (← rejection message.data)
  else throw (.invalidResponse [accepted, rejected] message.msgType)

end Dig
