import Awak.Lib.Lts
import Awak.Lib.Word
import Awak.Lib.Ledger
import Awak.Lib.Arc
import Awak.Lib.History
import Awak.Lib.Pipe
import Awak.Lib.Prog
import Awak.Lib.Object
import Awak.Lib.Owners
import Awak.WakerFn
import Awak.Local
import Awak.Parking
import Awak.Poller
import Awak.Kqueue
import Awak.BlockOn
import Awak.Tokens
import Awak.ReactorThread
import Awak.ReactorUsers
import Awak.Queue
import Awak.Sleepers
import Awak.Cancel
import Awak.Executor
import Awak.Wakeups
import Awak.Tasks
import Awak.Sessions
import Awak.Workers
import Awak.Search
import Awak.Alone
import Awak.Fairness
import Awak.Timers
import Awak.TimerOps
import Awak.Timer
import Awak.ProcessTimers
import Awak.IdleTimeout
import Awak.TimerAlone
import Awak.Delay
import Awak.Interval
import Awak.Timeout
import Awak.Async
import Awak.Sources
import Awak.Epoll
import Awak.React
import Awak.Readiness
import Awak.AsyncIo
import Awak.Connect
import Awak.Connecting
import Awak.ReactAlone
import Awak.Attribution
import Awak.CopyBuffer
import Awak.CopyBidirectional
