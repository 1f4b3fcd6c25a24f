import Athread.Node
import Athread.Task
import Athread.Graph
import Athread.Trace
import Athread.TraceSound
import Athread.Verdicts
import Athread.TraceReturns
import Athread.Edges
import Athread.Ownership
import Athread.Worker
import Athread.Run
import Athread.Safety
import Athread.Schedules
import Athread.Waits
import Athread.Pool
import Athread.PoolRuns
import Athread.PoolWait
import Athread.WaitFor
import Athread.Mutex
import Athread.Completion
import Athread.Executor
