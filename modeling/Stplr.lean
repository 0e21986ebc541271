import Stplr.Equiv.Abandon
import Stplr.Equiv.Batch
import Stplr.Equiv.ChangeLog
import Stplr.Equiv.Converge
import Stplr.Equiv.Counter
import Stplr.Equiv.Crash
import Stplr.Equiv.Discovery
import Stplr.Equiv.Elector
import Stplr.Equiv.Enqueue
import Stplr.Equiv.Expiry
import Stplr.Equiv.Fleet
import Stplr.Equiv.GateProgress
import Stplr.Equiv.Java
import Stplr.Equiv.LastCopy
import Stplr.Equiv.Limits
import Stplr.Equiv.Listeners
import Stplr.Equiv.Movement
import Stplr.Equiv.Orphans
import Stplr.Equiv.Pipeline
import Stplr.Equiv.Placement
import Stplr.Equiv.Replay
import Stplr.Equiv.RespStore
import Stplr.Equiv.Resume
import Stplr.Equiv.SeqKey
import Stplr.Equiv.Smart
import Stplr.Equiv.SmartScan
import Stplr.Equiv.Ttl
import Stplr.Equiv.Writer
