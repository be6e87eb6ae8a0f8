import DigPeer.Lib.Lts
import DigPeer.Lib.BigEndian
import DigPeer.Lib.FiniteMap
import DigPeer.Lib.Channel
import DigPeer.Lib.Mealy
import DigPeer.Lib.Windows
import DigPeer.Lib.Wire
import DigPeer.Message
import DigPeer.Codec
import DigPeer.Streamable
import DigPeer.Payload
import DigPeer.Compatibility
import DigPeer.Registration
import DigPeer.RateLimit
import DigPeer.Rekey
import DigPeer.Isolation
import DigPeer.Budgets
import DigPeer.Outlet
import DigPeer.Refusals
import DigPeer.Retry
import DigPeer.RequestMap
import DigPeer.Link
import DigPeer.Effect
import DigPeer.Answers
import DigPeer.Inbox
import DigPeer.Routing
import DigPeer.Diagnosis
import DigPeer.Blind
import DigPeer.Unmatched
import DigPeer.Ownership
import DigPeer.Pool
import DigPeer.Capacity
import DigPeer.Reissue
import DigPeer.Sending
import DigPeer.Lock
import DigPeer.Ledger
import DigPeer.Cleanup
import DigPeer.Ids
import DigPeer.Duplex
import DigPeer.Agreement
import DigPeer.Introducer
import DigPeer.Typed
import DigPeer.Stream
import DigPeer.Outcomes
import DigPeer.Progress
import DigPeer.Gate
import DigPeer.Pacing
import DigPeer.Renaming
import DigPeer.Response
import DigPeer.Turns
