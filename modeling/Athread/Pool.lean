import Athread.Node
import Mathlib.Logic.Relation

/-!
# The thread pool

`ThreadPool` and its subclass `ThreadPoolFixed` (threadpool.h), with the workers they create,
`ThreadPoolWorker` and `ThreadSeasonalWorker` (worker.h, worker.cpp), as a step relation over one
client thread and the pool's worker threads.

The workers share only the queue, under `_task_queue_mutex`, and the atomic flags; a worker's
`_state` is an atomic only its own thread stores, and `push` loads it without the mutex. One step
is one atomic piece of code:

* the client's `push`: the call of `executable()`, each load of a worker's state in
  `clean_complete_workers` (with the erase of a COMPLETED context), each load in the scan for a
  READY worker, the creation of a worker, and the locked enqueue with its `notify_one`;
* the client's `wait()`: each load in its `clean_complete_workers`, each `future.get()` of its loop
  over the contexts, and the joins with `reset()` and the final throw, which come after every
  thread has finished;
* the client's `start()`, `terminate(false)` and `clear()`: atomic stores with a `notify_all`, or
  the locked deletion of the queue. `terminate(true)` is `terminate(false)` followed by `wait()`,
  and the destructor is `terminate(true)` followed by `clear()`;
* a worker's `await_start_signal`, its store of `Ready`, its locked section (the wait's predicate
  is checked under the mutex, so the check, the store of `Busy` and the pop or the break are one
  step), an idle timeout of a seasonal worker's `wait_for`, its job returning or throwing, and its
  store of `Completed` before `_done.set_value()`.

A waiting worker may wake whenever its predicate holds (a notification or a spurious wakeup), and
a seasonal one may time out whenever it does not: the alive duration is left out and every
timeout is possible, as with `ThreadPoolFixed`'s zero duration.
-/

namespace Athread

open Relation

/-- `WorkerState` (worker.h). -/
inductive WorkerState where
  | ready
  | delay
  | busy
  | completed
  deriving DecidableEq, Repr

/-- The `process_tasks` a pool worker runs: `ThreadPoolWorker`'s, whose wait has no timeout, or
`ThreadSeasonalWorker`'s, whose wait times out after the alive duration. -/
inductive WorkerKind where
  | core
  | seasonal
  deriving DecidableEq, Repr

/-- Where a pool worker's thread is in its `process_tasks`: in `await_start_signal`; at the top of
the loop, before `_state.store(WorkerState::Ready)`; after that store, before it takes
`_task_queue_mutex`; blocked in the condition wait; running the job it popped; out of the loop,
before `_state.store(WorkerState::Completed)`; past `_done.set_value()`; or past
`_done.set_exception(e)` in the `catch (...)`, after a job threw `e`. -/
inductive PoolPc where
  | starting
  | idle
  | locking
  | waiting
  | running (job : Nat)
  | exiting
  | exited
  | threw (e : Thrown)
  deriving DecidableEq, Repr

/-- A worker context: the worker's class, its `_state`, where its thread is, and whether its
future is still valid (`wait` calls `get()` on it once). -/
structure PoolWorker where
  kind : WorkerKind
  state : WorkerState
  pc : PoolPc
  futureValid : Bool := true
  deriving DecidableEq, Repr

/-- The context `create_worker` or `create_seasonal_worker` pushes: the worker's constructor has
stored `Delay`, and its thread is about to await the start signal. -/
def PoolWorker.fresh (kind : WorkerKind) : PoolWorker := { kind, state := .delay, pc := .starting }

/-- A pool object. Jobs are named by numbers; `fixed` when the object is a `ThreadPoolFixed`, whose
`executable` and `create_worker` the virtual calls reach. -/
structure ThreadPool where
  coreThreadCount : Nat
  maxThreadCount : Nat
  fixed : Bool := false
  taskQueue : List Nat := []
  terminationFlag : Bool := false
  waitForStartSignal : Bool
  workerContexts : List PoolWorker := []
  deriving DecidableEq, Repr

/-- `ThreadPool(core_thread_count, max_thread_count, alive_seasonal_time, wait_for_start_signal)`. -/
def threadPool (coreThreadCount maxThreadCount : Nat) (waitForStartSignal : Bool) : ThreadPool :=
  { coreThreadCount, maxThreadCount, waitForStartSignal }

/-- `ThreadPoolFixed(coreSize)`: `ThreadPool(coreSize, coreSize, 0s, true)` with its overrides. -/
def threadPoolFixed (coreSize : Nat) : ThreadPool :=
  { threadPool coreSize coreSize true with fixed := true }

namespace ThreadPool

/-- `ThreadPool::executable`. -/
def baseExecutable (p : ThreadPool) : Bool := !p.terminationFlag

/-- `ThreadPoolFixed::executable`: before the start signal it accepts, after it only while the
context vector is non-empty. -/
def fixedExecutable (p : ThreadPool) : Bool :=
  if p.terminationFlag then false
  else if p.waitForStartSignal then true
  else 0 < p.workerContexts.length

/-- The virtual call `executable()`. -/
def executable (p : ThreadPool) : Bool := if p.fixed then p.fixedExecutable else p.baseExecutable

/-- `create_seasonal_worker(1, ...)`: the new worker has stored `Delay` and awaits the signal. -/
def createSeasonalWorker (p : ThreadPool) : ThreadPool :=
  { p with workerContexts := p.workerContexts ++ [.fresh .seasonal] }

/-- The virtual call `create_worker(1)`: `ThreadPoolFixed`'s makes a seasonal worker. -/
def createWorker (p : ThreadPool) : ThreadPool :=
  if p.fixed then p.createSeasonalWorker
  else { p with workerContexts := p.workerContexts ++ [.fresh .core] }

/-- `_worker_contexts.size() < _max_thread_count || _max_thread_count == 0`. -/
def belowMax (p : ThreadPool) : Bool :=
  decide (p.workerContexts.length < p.maxThreadCount) || p.maxThreadCount == 0

/-- The branch of `push` that creates a worker: a seasonal one once the core count is reached. -/
def grow (p : ThreadPool) : ThreadPool :=
  if p.coreThreadCount ≤ p.workerContexts.length then p.createSeasonalWorker else p.createWorker

/-- The predicate of the workers' waits: `_termination_flag || !_task_queue.empty()`. -/
def workAvailable (p : ThreadPool) : Bool := p.terminationFlag || !p.taskQueue.isEmpty

/-- `start()`. -/
def start (p : ThreadPool) : ThreadPool := { p with waitForStartSignal := false, terminationFlag := false }

/-- `terminate(false)`. -/
def terminate (p : ThreadPool) : ThreadPool := { p with terminationFlag := true }

/-- `reset()`, at the end of `wait()`: its `clean_complete_workers` and the `clear()` of the
context vector leave no context. -/
def reset (p : ThreadPool) : ThreadPool :=
  { p with terminationFlag := false, waitForStartSignal := true, workerContexts := [] }

/-- `clear()`: the queued jobs are deleted. -/
def clear (p : ThreadPool) : ThreadPool := { p with taskQueue := [] }

/-- The erase in `clean_complete_workers`. -/
def eraseContext (p : ThreadPool) (i : Nat) : ThreadPool :=
  { p with workerContexts := p.workerContexts.eraseIdx i }

@[simp] theorem taskQueue_eraseContext (p : ThreadPool) (i : Nat) :
    (p.eraseContext i).taskQueue = p.taskQueue := rfl
@[simp] theorem contexts_eraseContext (p : ThreadPool) (i : Nat) :
    (p.eraseContext i).workerContexts = p.workerContexts.eraseIdx i := rfl
@[simp] theorem taskQueue_start (p : ThreadPool) : p.start.taskQueue = p.taskQueue := rfl
@[simp] theorem contexts_start (p : ThreadPool) : p.start.workerContexts = p.workerContexts := rfl
@[simp] theorem flag_start (p : ThreadPool) : p.start.terminationFlag = false := rfl
@[simp] theorem signal_start (p : ThreadPool) : p.start.waitForStartSignal = false := rfl
@[simp] theorem taskQueue_terminate (p : ThreadPool) : p.terminate.taskQueue = p.taskQueue := rfl
@[simp] theorem contexts_terminate (p : ThreadPool) :
    p.terminate.workerContexts = p.workerContexts := rfl

@[simp] theorem taskQueue_grow (p : ThreadPool) : p.grow.taskQueue = p.taskQueue := by
  unfold grow createWorker createSeasonalWorker
  split_ifs <;> rfl

@[simp] theorem flag_grow (p : ThreadPool) : p.grow.terminationFlag = p.terminationFlag := by
  unfold grow createWorker createSeasonalWorker
  split_ifs <;> rfl

@[simp] theorem fixed_grow (p : ThreadPool) : p.grow.fixed = p.fixed := by
  unfold grow createWorker createSeasonalWorker
  split_ifs <;> rfl

@[simp] theorem core_grow (p : ThreadPool) : p.grow.coreThreadCount = p.coreThreadCount := by
  unfold grow createWorker createSeasonalWorker
  split_ifs <;> rfl

/-- `grow` appends one fresh context, a core one exactly when `ThreadPool::create_worker` is
reached. -/
theorem contexts_grow (p : ThreadPool) :
    ∃ kind, p.grow.workerContexts = p.workerContexts ++ [.fresh kind] ∧
      (kind = .core ↔ p.fixed = false ∧ p.workerContexts.length < p.coreThreadCount) := by
  unfold grow createWorker createSeasonalWorker
  by_cases full : p.coreThreadCount ≤ p.workerContexts.length
  · exact ⟨.seasonal, by simp [full], by simp [Nat.not_lt.2 full]⟩
  · cases fixed : p.fixed
    · exact ⟨.core, by simp [full, fixed], by simp [Nat.lt_of_not_le full]⟩
    · exact ⟨.seasonal, by simp [full, fixed], by simp⟩

end ThreadPool

/-- The client call a `clean_complete_workers` runs in. -/
inductive PoolCall where
  | push (job : Nat)
  | wait
  deriving DecidableEq, Repr

/-- Where the client thread is: in no call; in the `clean_complete_workers` of `push(job)` or of
`wait()`, at context `i`; in `push(job)`'s scan for a READY worker, at context `i`; in `push(job)`,
before the locked enqueue; or in `wait()`'s loop over the futures, at context `i`, with the
messages collected so far. -/
inductive ClientPc where
  | idle
  | cleaning (call : PoolCall) (i : Nat)
  | scanning (job i : Nat)
  | enqueuing (job : Nat)
  | draining (i : Nat) (msg : String)
  deriving DecidableEq, Repr

/-- Where a call goes once its `clean_complete_workers` has looked at every context: `push` to the
scan when it may create a worker, else to the enqueue; `wait` to its loop over the futures. -/
def PoolCall.afterClean (p : ThreadPool) : PoolCall → ClientPc
  | push job => if p.belowMax then .scanning job 0 else .enqueuing job
  | wait => .draining 0 ""

/-- What `wait()` throws after `reset()`: nothing, or the collected messages. -/
def waitResult (msg : String) : Option Thrown :=
  if msg.isEmpty then none else some (.runtimeError ("Exception occurred in worker thread: " ++ msg))

/-- The pool, its client, and a ghost history: the jobs `push` returned true for, oldest first, and
what each call of `wait()` ended with (`none` when it returned). -/
structure PoolSys where
  pool : ThreadPool
  client : ClientPc := .idle
  accepted : List Nat := []
  waited : List (Option Thrown) := []
  deriving DecidableEq, Repr

namespace PoolSys

/-- A pool just built, with no call made on it yet. -/
def init (p : ThreadPool) : PoolSys := { pool := p }

/-- Worker `i`'s context after one of its own stores. -/
def setWorker (s : PoolSys) (i : Nat) (w : PoolWorker) : PoolSys :=
  { s with pool := { s.pool with workerContexts := s.pool.workerContexts.set i w } }

/-- The locked enqueue of `push(job)`, after which `push` returns true. -/
def enqueue (s : PoolSys) (job : Nat) : PoolSys :=
  { s with pool := { s.pool with taskQueue := s.pool.taskQueue ++ [job] }, client := .idle,
           accepted := s.accepted ++ [job] }

/-- Worker `i` pops the front of the queue, `job`, and runs it. -/
def pop (s : PoolSys) (i : Nat) (w : PoolWorker) (job : Nat) : PoolSys :=
  { s.setWorker i { w with state := .busy, pc := .running job } with
    pool := { s.pool with
      taskQueue := s.pool.taskQueue.tail
      workerContexts := s.pool.workerContexts.set i { w with state := .busy, pc := .running job } } }

/-- `clear()`. -/
def clear (s : PoolSys) : PoolSys :=
  { s with pool := s.pool.clear }

/-- `future.get()` on context `i` in `wait()`'s loop, after which the client is at `next`. -/
def consume (s : PoolSys) (i : Nat) (c : PoolWorker) (next : ClientPc) : PoolSys :=
  { s.setWorker i { c with futureValid := false } with client := next }

/-- The end of `wait()`: the joins, `reset()`, and the throw of the collected messages. -/
def finishWait (s : PoolSys) (msg : String) : PoolSys :=
  { s with pool := s.pool.reset, client := .idle, waited := s.waited ++ [waitResult msg] }

@[simp] theorem setWorker_taskQueue (s : PoolSys) (i : Nat) (w : PoolWorker) :
    (s.setWorker i w).pool.taskQueue = s.pool.taskQueue := rfl
@[simp] theorem setWorker_contexts (s : PoolSys) (i : Nat) (w : PoolWorker) :
    (s.setWorker i w).pool.workerContexts = s.pool.workerContexts.set i w := rfl
@[simp] theorem setWorker_flag (s : PoolSys) (i : Nat) (w : PoolWorker) :
    (s.setWorker i w).pool.terminationFlag = s.pool.terminationFlag := rfl
@[simp] theorem setWorker_signal (s : PoolSys) (i : Nat) (w : PoolWorker) :
    (s.setWorker i w).pool.waitForStartSignal = s.pool.waitForStartSignal := rfl
@[simp] theorem setWorker_fixed (s : PoolSys) (i : Nat) (w : PoolWorker) :
    (s.setWorker i w).pool.fixed = s.pool.fixed := rfl
@[simp] theorem setWorker_core (s : PoolSys) (i : Nat) (w : PoolWorker) :
    (s.setWorker i w).pool.coreThreadCount = s.pool.coreThreadCount := rfl
@[simp] theorem setWorker_client (s : PoolSys) (i : Nat) (w : PoolWorker) :
    (s.setWorker i w).client = s.client := rfl
@[simp] theorem setWorker_accepted (s : PoolSys) (i : Nat) (w : PoolWorker) :
    (s.setWorker i w).accepted = s.accepted := rfl

end PoolSys

/-- Who moves in a step: the client, inside one of its calls (`clean call` inside the
`clean_complete_workers` of `call`), or worker `i`. -/
inductive PoolAct where
  | push
  | wait
  | clean (call : PoolCall)
  | clear
  | start
  | terminate
  | worker (i : Nat)
  deriving DecidableEq, Repr

/-- The steps of the workers and of a client that calls only `push()` and `start()`. -/
def PoolAct.PushOrStart : PoolAct → Prop
  | push | start | worker _ | clean (.push _) => True
  | wait | clean .wait | clear | terminate => False

/-- One atomic step of the client or of a worker. In `wait()`'s loop, `drainSkip` passes a
future already consumed, and `future.get()` returns (`drainValue`), rethrows a `std::exception`
whose `what()` is collected (`drainStd`), or rethrows anything else, which leaves `wait()` before
the joins and `reset()` (`drainEscape`). A worker's wait returns on the termination flag
(`leave`) or on a non-empty queue (`pop`), and a seasonal worker's `wait_for` may time out on a
false predicate (`timeout`). A job returns (`finish`; `ThreadPoolWorker` stores `Busy` again,
which its state already is) or throws (`throw`: `catch (...)` stores the exception in the promise,
and the state stays). -/
inductive PoolStep : PoolSys → PoolAct → PoolSys → Prop
  | call {s} (job : Nat) : s.client = .idle → s.pool.executable = true →
      PoolStep s .push { s with client := .cleaning (.push job) 0 }
  | waitCall {s} : s.client = .idle → PoolStep s .wait { s with client := .cleaning .wait 0 }
  | cleanErase {s call i w} : s.client = .cleaning call i → s.pool.workerContexts[i]? = some w →
      w.state = .completed → PoolStep s (.clean call)
        { s with pool := s.pool.eraseContext i }
  | cleanKeep {s call i w} : s.client = .cleaning call i → s.pool.workerContexts[i]? = some w →
      w.state ≠ .completed → PoolStep s (.clean call)
        { s with client := .cleaning call (i + 1) }
  | cleaned {s call i} : s.client = .cleaning call i → s.pool.workerContexts.length ≤ i →
      PoolStep s (.clean call) { s with client := call.afterClean s.pool }
  | scanReady {s job i w} : s.client = .scanning job i → s.pool.workerContexts[i]? = some w →
      w.state = .ready → PoolStep s .push { s with client := .enqueuing job }
  | scanNext {s job i w} : s.client = .scanning job i → s.pool.workerContexts[i]? = some w →
      w.state ≠ .ready → PoolStep s .push { s with client := .scanning job (i + 1) }
  | create {s job i} : s.client = .scanning job i → s.pool.workerContexts.length ≤ i →
      PoolStep s .push { s with pool := s.pool.grow, client := .enqueuing job }
  | enqueue {s job} : s.client = .enqueuing job → PoolStep s .push (s.enqueue job)
  | drainSkip {s i msg c} : s.client = .draining i msg → s.pool.workerContexts[i]? = some c →
      c.futureValid = false → PoolStep s .wait { s with client := .draining (i + 1) msg }
  | drainValue {s i msg c} : s.client = .draining i msg → s.pool.workerContexts[i]? = some c →
      c.futureValid = true → c.pc = .exited →
      PoolStep s .wait (s.consume i c (.draining (i + 1) msg))
  | drainStd {s i msg c e} : s.client = .draining i msg → s.pool.workerContexts[i]? = some c →
      c.futureValid = true → c.pc = .threw e → e.isStd = true →
      PoolStep s .wait (s.consume i c (.draining (i + 1) (msg ++ e.what ++ "\n")))
  | drainEscape {s i msg c e} : s.client = .draining i msg → s.pool.workerContexts[i]? = some c →
      c.futureValid = true → c.pc = .threw e → e.isStd = false →
      PoolStep s .wait { s.consume i c .idle with waited := s.waited ++ [some e] }
  | drained {s i msg} : s.client = .draining i msg → s.pool.workerContexts.length ≤ i →
      PoolStep s .wait (s.finishWait msg)
  | clear {s} : s.client = .idle → PoolStep s .clear s.clear
  | start {s} : s.client = .idle → PoolStep s .start { s with pool := s.pool.start }
  | terminate {s} : s.client = .idle → PoolStep s .terminate { s with pool := s.pool.terminate }
  | awaitStart {s i w} : s.pool.workerContexts[i]? = some w → w.pc = .starting →
      s.pool.waitForStartSignal = false → PoolStep s (.worker i) (s.setWorker i { w with pc := .idle })
  | ready {s i w} : s.pool.workerContexts[i]? = some w → w.pc = .idle →
      PoolStep s (.worker i) (s.setWorker i { w with state := .ready, pc := .locking })
  | block {s i w} : s.pool.workerContexts[i]? = some w → w.pc = .locking →
      s.pool.workAvailable = false → PoolStep s (.worker i) (s.setWorker i { w with pc := .waiting })
  | leave {s i w} : s.pool.workerContexts[i]? = some w → w.pc = .locking ∨ w.pc = .waiting →
      s.pool.terminationFlag = true →
      PoolStep s (.worker i) (s.setWorker i { w with state := .busy, pc := .exiting })
  | pop {s i w job rest} : s.pool.workerContexts[i]? = some w → w.pc = .locking ∨ w.pc = .waiting →
      s.pool.terminationFlag = false → s.pool.taskQueue = job :: rest →
      PoolStep s (.worker i) (s.pop i w job)
  | timeout {s i w} : s.pool.workerContexts[i]? = some w → w.kind = .seasonal → w.pc = .waiting →
      s.pool.workAvailable = false →
      PoolStep s (.worker i) (s.setWorker i { w with state := .busy, pc := .exiting })
  | finish {s i w job} : s.pool.workerContexts[i]? = some w → w.pc = .running job →
      PoolStep s (.worker i) (s.setWorker i { w with pc := .idle })
  | throw {s i w job} (e : Thrown) : s.pool.workerContexts[i]? = some w → w.pc = .running job →
      PoolStep s (.worker i) (s.setWorker i { w with pc := .threw e })
  | exit {s i w} : s.pool.workerContexts[i]? = some w → w.pc = .exiting →
      PoolStep s (.worker i) (s.setWorker i { w with state := .completed, pc := .exited })

/-- The states any run from `s₀` reaches. -/
def PoolReach (s₀ s : PoolSys) : Prop := ReflTransGen (fun s s' => ∃ a, PoolStep s a s') s₀ s

/-- The states a run from `s₀` reaches while its client calls only `push()` and `start()`. -/
def PushRun (s₀ s : PoolSys) : Prop :=
  ReflTransGen (fun s s' => ∃ a, a.PushOrStart ∧ PoolStep s a s') s₀ s

theorem PushRun.poolReach {s₀ s : PoolSys} (run : PushRun s₀ s) : PoolReach s₀ s :=
  ReflTransGen.mono (fun _ _ ⟨a, _, step⟩ => ⟨a, step⟩) run

end Athread
