import Copper.Arena.Complete
import Copper.Arena.Soundness
import Copper.Base64.InBounds
import Copper.Base64.RoundTrip
import Copper.Base64.Sizes
import Copper.Endian
import Copper.ErrorContract
import Copper.Fs.Anchor
import Copper.Fs.Basename
import Copper.Fs.Bounds
import Copper.Fs.Canonical
import Copper.Fs.Complete
import Copper.Fs.Copied
import Copper.Fs.Escape
import Copper.Fs.Join
import Copper.Fs.Race
import Copper.Fs.Walk
import Copper.Log.Boundary
import Copper.Log.Dispatch
import Copper.Log.Format
import Copper.Log.LongNames
import Copper.Log.Message
import Copper.Log.SizeRoll
import Copper.Log.TimeRoll
import Copper.Rand.Bytes
import Copper.Rand.Failing
import Copper.RingBuf.Copies
import Copper.RingBuf.Queue
import Copper.RingBuf.Spsc
import Copper.RingBuf.Snapshot
import Copper.Time.Monotonic
import Copper.Time.Order
import Copper.Atomic.Backends
import Copper.Atomic.Fallback
import Copper.Fs.Meaning
import Copper.Fs.ReadAll
import Copper.Fs.Apart
import Copper.Log.StreamSink
import Copper.Log.Buffered
import Copper.Log.Lines
import Copper.RingBuf.Linear
import Copper.Thread.Sound
import Copper.Foundation.Terminal
import Copper.Log.Console
import Copper.Fs.Restore
import Copper.Arena.Lifecycle
