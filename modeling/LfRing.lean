import LfRing.Library.Machine
import LfRing.Library.Matching
import LfRing.Library.Bytes
import LfRing.Library.Circular
import LfRing.Library.Atomic
import LfRing.Library.Progress
import LfRing.Library.Ledger
import LfRing.Layout
import LfRing.Mapping
import LfRing.Bounds
import LfRing.Resources
import LfRing.Ring.Stream
import LfRing.Ring.Writer
import LfRing.Ring.WriterInvariant
import LfRing.Ring.History
import LfRing.Ring.Producers
import LfRing.Ring.Reader
import LfRing.Ring.Alone
import LfRing.Ring.Mpsc
import LfRing.Ring.MpmcReader
import LfRing.Ring.MpmcAlone
import LfRing.Ring.Mpmc
import LfRing.Ring.SpscWriter
import LfRing.Ring.Spsc
import LfRing.Ring.Calls
import LfRing.Ring.Numbering
import LfRing.Ring.Drained
import LfRing.Ring.Outcome
import LfRing.Ring.Agreement
import LfRing.Ring.Passes
import LfRing.Ring.Contained
import LfRing.Ring.Opening
import LfRing.Arrival
import LfRing.Ring.Atomic
import LfRing.Ring.MpmcAtomic
import LfRing.Ring.Turns
import LfRing.Ring.MpmcTurns
import LfRing.Ring.Size
import LfRing.Typed.Codec
import LfRing.Typed.Messages
import LfRing.Typed.Spans
import LfRing.Topic.Bytes
import LfRing.Topic.Path
import LfRing.Queue.Slots
import LfRing.Queue.Steps
import LfRing.Queue.Fifo
import LfRing.Queue.Overlap
import LfRing.Queue.Size
import LfRing.Queue.Subscriber
import LfRing.Queue.Restart
import LfRing.Queue.Atomic
import LfRing.Latest.Writer
import LfRing.Latest.Reader
import LfRing.Latest.Slot
import LfRing.Latest.WaitFree
import LfRing.Latest.Reads
import LfRing.Latest.Behind
import LfRing.Latest.Waiting
import LfRing.Latest.Subscriber
import LfRing.Latest.Deliveries
import LfRing.Latest.Recovery
import LfRing.Latest.Following
import LfRing.Latest.Detection
import LfRing.Latest.Heartbeats
import LfRing.Latest.Alarms
import LfRing.Latest.Race
import LfRing.Latest.Atomic
import LfRing.Takeover
