import Athread.Task
import Mathlib.Data.List.Nodup

/-!
# The thread graph and its client calls

`ThreadGraph` (threadgraph.h, threadgraph.cpp) owns a pool of nodes, the ready cache a trace
starts from, the worker contexts of the current run and two atomic flags. The record below keeps
every member the modelled calls read; the pool carries its own duplicate-freedom, which `push`
establishes and nothing else can break.

* `push`, `erase`, `clear` mutate the pool and the heap;
* `start` runs `wait`, `reset` and `reset_all_tasks_state`, copies the pool into the ready cache
  and creates the workers;
* `wait` drains every worker's future, joins the threads and resets the graph; a future holding
  an exception not derived from `std::exception` leaves `wait` at once.

A call that would block (a `future.get()` or `join()` on a worker still running) is `none`.
-/

namespace Athread

/-- Where a `GraphWorker` is in `GraphWorker::process_tasks` (worker.cpp); `hint` is
`nextNode.second`, the node the next trace starts from. -/
inductive WorkerPc where
  /-- At the top of the loop, about to load `_termination_flag`. -/
  | checking (hint : Option NodeId)
  /-- The flag was clear: about to lock `_tasks_mutex` and trace. -/
  | tracing (hint : Option NodeId)
  /-- Blocked in `_task_available_condition.wait(lk)` after a PENDING verdict. -/
  | waiting (hint : Option NodeId)
  /-- Inside `execute()` of the node it claimed. -/
  | running (n : NodeId)
  /-- `execute()` returned: about to store `Completed`. -/
  | finishing (n : NodeId)
  /-- `Completed` stored: about to `notify_all`. -/
  | notifying (n : NodeId)
  /-- Out of the loop: about to `notify_all` and `_done.set_value()`. -/
  | exiting
  /-- In `catch (...)`: about to set the termination flag. -/
  | caught (e : Thrown)
  /-- Flag set: about to `notify_all` and `_done.set_exception`. -/
  | raising (e : Thrown)
  /-- `_done` is set, with the exception if there was one; the thread function has returned. -/
  | done (result : Option Thrown)
  deriving DecidableEq, Repr

/-- `at::WorkerContext`: a worker with its thread and the future of its `_done` promise. -/
structure WorkerContext where
  pc : WorkerPc
  futureValid : Bool := true
  joinable : Bool := true
  deriving DecidableEq, Repr

/-- The members of `at::ThreadGraph` the modelled calls use. -/
structure ThreadGraph where
  enableOptimizedThreads : Bool := true
  threadCount : Nat := 2
  terminationFlag : Bool := false
  executingFlag : Bool := false
  taskPool : List NodeId := []
  readyTasksCache : List NodeId := []
  workerContexts : List WorkerContext := []
  taskPool_nodup : taskPool.Nodup := by decide

namespace ThreadGraph

/-- `ThreadGraph::executing`. -/
def executing (g : ThreadGraph) : Bool := g.executingFlag

/-- `ThreadGraph::reset`. -/
def reset (g : ThreadGraph) : ThreadGraph :=
  { g with executingFlag := false, terminationFlag := false, readyTasksCache := [],
           workerContexts := [] }

/-- `ThreadGraph::remove_ready_cache`: erases the first occurrence of `n` from the ready cache. -/
def removeReadyCache (g : ThreadGraph) (n : NodeId) : ThreadGraph :=
  { g with readyTasksCache := g.readyTasksCache.erase n }

/-- The number of workers `start` creates. -/
def numThreads (g : ThreadGraph) : Nat :=
  if g.enableOptimizedThreads then min g.threadCount g.taskPool.length else g.threadCount

/-- `ThreadGraph::create_worker`: `count` new workers, each about to enter its loop with the hint
`nullptr`. -/
def createWorker (g : ThreadGraph) (count : Nat) : ThreadGraph :=
  { g with workerContexts := g.workerContexts ++ List.replicate count { pc := .checking none } }

@[simp] theorem reset_taskPool (g : ThreadGraph) : g.reset.taskPool = g.taskPool := rfl
@[simp] theorem reset_workerContexts (g : ThreadGraph) : g.reset.workerContexts = [] := rfl
@[simp] theorem reset_executingFlag (g : ThreadGraph) : g.reset.executingFlag = false := rfl
@[simp] theorem reset_terminationFlag (g : ThreadGraph) : g.reset.terminationFlag = false := rfl
@[simp] theorem reset_readyTasksCache (g : ThreadGraph) : g.reset.readyTasksCache = [] := rfl

end ThreadGraph

open ThreadGraph

/-- Every edge of a pooled node leads to a pooled node. -/
def EdgesClosed (heap : Heap) (pool : List NodeId) : Prop :=
  ∀ n ∈ pool, (∀ p ∈ (heap n).predecessors, p ∈ pool) ∧ (∀ s ∈ (heap n).successors, s ∈ pool)

/-- `ThreadGraph::push(INode*)`. -/
def push (heap : Heap) (g : ThreadGraph) (node : Option NodeId) : Except Fault (ThreadGraph × Task) :=
  match node with
  | none => .error (.raised (.invalidArgument "Node is null. A valid node must be provided."))
  | some n =>
    if g.executing then .error (.raised (.runtimeError "Cannot push tasks while executing."))
    else if (heap n).state = .executing ∨ (heap n).state = .completed then
      .error (.raised (.invalidArgument
        "Node is already in EXECUTING or COMPLETE state. A valid node must be provided."))
    else if fresh : n ∈ g.taskPool then
      .error (.raised (.invalidArgument "Node is already in the graph. A valid node must be provided."))
    else
      .ok ({ g with taskPool := g.taskPool ++ [n],
                    taskPool_nodup := List.nodup_append.2
                      ⟨g.taskPool_nodup, List.nodup_singleton n, by simpa using fresh⟩ },
           ⟨some n⟩)

/-- The two unlinking loops of `ThreadGraph::erase`: `n` leaves the successor list of each of its
predecessors, then the predecessor list of each of its successors. -/
def unlink (heap : Heap) (n : NodeId) : Heap :=
  let heap := (heap n).predecessors.foldl (fun h p => h.modify p (·.removeSuccessor n)) heap
  (heap n).successors.foldl (fun h s => h.modify s (·.removePredecessor n)) heap

/-- `ThreadGraph::erase(Task&)`: returns whether the node was removed (the handle is then
nulled). `delete` frees the address; the model puts a freshly constructed node there, which is
what a later allocation at that address holds. -/
def erase (heap : Heap) (g : ThreadGraph) (t : Task) : Except Fault (Heap × ThreadGraph × Bool) :=
  match t.node with
  | none => .ok (heap, g, false)
  | some n =>
    if g.executing then .error (.raised (.runtimeError "Cannot erase tasks while executing."))
    else if n ∈ g.taskPool then
      .ok (Function.update (unlink heap n) n {},
           { g with taskPool := g.taskPool.erase n, taskPool_nodup := g.taskPool_nodup.erase n },
           true)
    else .ok (heap, g, false)

/-- A `push` that returns appends the node, which was not in the pool. -/
theorem push_eq_ok {heap : Heap} {g g' : ThreadGraph} {n : NodeId} {t : Task}
    (pushed : push heap g (some n) = .ok (g', t)) : n ∉ g.taskPool ∧ g'.taskPool = g.taskPool ++ [n] := by
  simp only [push] at pushed
  split_ifs at pushed with executing busy fresh
  cases pushed
  exact ⟨fresh, rfl⟩

/-- An `erase` that returns either changed nothing, or unlinked and deleted a pool node. -/
theorem erase_eq_ok {heap heap' : Heap} {g g' : ThreadGraph} {t : Task} {removed : Bool}
    (erased : erase heap g t = .ok (heap', g', removed)) :
    heap' = heap ∧ g' = g ∧ removed = false ∨
      ∃ n, t.node = some n ∧ n ∈ g.taskPool ∧ heap' = Function.update (unlink heap n) n {} ∧
        g'.taskPool = g.taskPool.erase n ∧ removed = true := by
  unfold erase at erased
  split at erased
  · cases erased
    exact .inl ⟨rfl, rfl, rfl⟩
  · rename_i n named
    split_ifs at erased with executing pooled
    · cases erased
      exact .inr ⟨n, named, pooled, rfl, rfl, rfl⟩
    · cases erased
      exact .inl ⟨rfl, rfl, rfl⟩

/-- `ThreadGraph::clear`: `reset`, then every pooled node is deleted without unlinking. -/
def clear (heap : Heap) (g : ThreadGraph) : Heap × ThreadGraph :=
  (g.taskPool.foldl (fun h n => Function.update h n {}) heap,
   { g.reset with taskPool := [], taskPool_nodup := List.nodup_nil })

@[simp] theorem clear_taskPool (heap : Heap) (g : ThreadGraph) : (clear heap g).2.taskPool = [] := rfl

theorem foldl_update_apply (l : List NodeId) (heap : Heap) (node : Node) (m : NodeId) :
    (l.foldl (fun h n => Function.update h n node) heap) m = if m ∈ l then node else heap m := by
  induction l generalizing heap with
  | nil => simp
  | cons n rest inductionHypothesis =>
    simp only [List.foldl_cons, inductionHypothesis, List.mem_cons]
    by_cases same : m = n
    · subst same
      simp
    · by_cases inRest : m ∈ rest <;> simp [inRest, same]

theorem clear_apply (heap : Heap) (g : ThreadGraph) (m : NodeId) :
    (clear heap g).1 m = if m ∈ g.taskPool then {} else heap m :=
  foldl_update_apply g.taskPool heap {} m

/-- `ThreadGraph::reset_all_tasks_state`: every pooled node is stored `Ready`. -/
def resetAllTasksState (heap : Heap) (g : ThreadGraph) : Heap :=
  g.taskPool.foldl (fun h n => h.setState n .ready) heap

/-- The first loop of `ThreadGraph::wait`: `future.get()` on every valid future, appending
`e.what()` and a newline for each `std::exception`; any other exception leaves `wait` at once. A
consumed future is no longer valid, whether `get` returned or threw. -/
def collectFutures : List WorkerContext → String →
    Option (List WorkerContext × Except Thrown String)
  | [], msg => some ([], .ok msg)
  | c :: cs, msg =>
    if c.futureValid then
      match c.pc with
      | .done none => (collectFutures cs msg).map fun r => ({ c with futureValid := false } :: r.1, r.2)
      | .done (some e) =>
        if e.isStd then
          (collectFutures cs (msg ++ e.what ++ "\n")).map fun r =>
            ({ c with futureValid := false } :: r.1, r.2)
        else some ({ c with futureValid := false } :: cs, .error e)
      | _ => none
    else (collectFutures cs msg).map fun r => (c :: r.1, r.2)

/-- The second loop of `ThreadGraph::wait`: `join()` every joinable thread. -/
def joinAll : List WorkerContext → Option (List WorkerContext)
  | [] => some []
  | c :: cs =>
    if c.joinable then
      match c.pc with
      | .done _ => (joinAll cs).map ({ c with joinable := false } :: ·)
      | _ => none
    else (joinAll cs).map (c :: ·)

/-- `ThreadGraph::wait`: the graph it leaves and the exception it raises, if any. -/
def wait (g : ThreadGraph) : Option (ThreadGraph × Option Thrown) :=
  match collectFutures g.workerContexts "" with
  | none => none
  | some (cs, .error e) => some ({ g with workerContexts := cs }, some e)
  | some (cs, .ok msg) =>
    (joinAll cs).map fun cs' =>
      (({ g with workerContexts := cs' }).reset,
       if msg.isEmpty then none
       else some (.runtimeError ("Exception occurred in worker thread: " ++ msg)))

@[simp] theorem resetAllTasksState_state (heap : Heap) (g : ThreadGraph) (n : NodeId) :
    (resetAllTasksState heap g n).state = if n ∈ g.taskPool then .ready else (heap n).state := by
  unfold resetAllTasksState
  induction g.taskPool generalizing heap with
  | nil => simp
  | cons m rest inductionHypothesis =>
    simp only [List.foldl_cons, inductionHypothesis, Heap.setState_state, List.mem_cons]
    by_cases inRest : n ∈ rest <;> by_cases same : n = m <;> simp [inRest, same]

@[simp] theorem resetAllTasksState_predecessors (heap : Heap) (g : ThreadGraph) (n : NodeId) :
    (resetAllTasksState heap g n).predecessors = (heap n).predecessors := by
  unfold resetAllTasksState
  induction g.taskPool generalizing heap with
  | nil => rfl
  | cons m rest inductionHypothesis => simp [inductionHypothesis]

@[simp] theorem resetAllTasksState_successors (heap : Heap) (g : ThreadGraph) (n : NodeId) :
    (resetAllTasksState heap g n).successors = (heap n).successors := by
  unfold resetAllTasksState
  induction g.taskPool generalizing heap with
  | nil => rfl
  | cons m rest inductionHypothesis => simp [inductionHypothesis]

/-- What `ThreadGraph::start` does once its `wait()` has returned: `reset`,
`reset_all_tasks_state`, the executing flag, the ready cache as a copy of the pool, and the
workers. -/
def startAfterWait (heap : Heap) (g : ThreadGraph) : Heap × ThreadGraph :=
  (resetAllTasksState heap g,
   ({ g.reset with executingFlag := true, readyTasksCache := g.taskPool }).createWorker g.numThreads)

@[simp] theorem startAfterWait_taskPool (heap : Heap) (g : ThreadGraph) :
    (startAfterWait heap g).2.taskPool = g.taskPool := rfl

@[simp] theorem startAfterWait_readyTasksCache (heap : Heap) (g : ThreadGraph) :
    (startAfterWait heap g).2.readyTasksCache = g.taskPool := rfl

@[simp] theorem startAfterWait_terminationFlag (heap : Heap) (g : ThreadGraph) :
    (startAfterWait heap g).2.terminationFlag = false := rfl

@[simp] theorem startAfterWait_workerContexts (heap : Heap) (g : ThreadGraph) :
    (startAfterWait heap g).2.workerContexts = List.replicate g.numThreads { pc := .checking none } := by
  simp [startAfterWait, ThreadGraph.createWorker]

/-- `ThreadGraph::start`. -/
def start (heap : Heap) (g : ThreadGraph) : Option (Heap × ThreadGraph × Option Fault) :=
  if g.executing then
    some (heap, g, some (.raised (.runtimeError "Cannot start execution while already executing.")))
  else
    match wait g with
    | none => none
    | some (g', some e) => some (heap, g', some (.raised e))
    | some (g', none) =>
      let started := startAfterWait heap g'
      some (started.1, started.2, none)

/-- `wait` keeps the pool and the thread settings. -/
theorem wait_keeps {g g' : ThreadGraph} {raised : Option Thrown} (waited : wait g = some (g', raised)) :
    g'.taskPool = g.taskPool ∧ g'.threadCount = g.threadCount ∧
      g'.enableOptimizedThreads = g.enableOptimizedThreads := by
  unfold wait at waited
  split at waited
  · cases waited
  · cases waited
    exact ⟨rfl, rfl, rfl⟩
  · obtain ⟨cs, -, same⟩ := Option.map_eq_some'.1 waited
    cases same
    exact ⟨rfl, rfl, rfl⟩

/-- A `start()` that returns has launched the run from the graph its `wait()` left. -/
theorem start_eq_launch {heap heap' : Heap} {g g' : ThreadGraph}
    (started : start heap g = some (heap', g', none)) :
    ∃ g₀, g₀.taskPool = g.taskPool ∧ g₀.threadCount = g.threadCount ∧
      g₀.enableOptimizedThreads = g.enableOptimizedThreads ∧ (heap', g') = startAfterWait heap g₀ := by
  unfold start at started
  split_ifs at started
  · simp at started
  · split at started
    · cases started
    · simp at started
    · rename_i g₀ waited
      cases started
      obtain ⟨samePool, sameCount, sameOptimized⟩ := wait_keeps waited
      exact ⟨g₀, samePool, sameCount, sameOptimized, rfl⟩

/-- A `start()` that returns keeps the pool and launches `numThreads` workers. -/
theorem start_workers {heap heap' : Heap} {g g' : ThreadGraph}
    (started : start heap g = some (heap', g', none)) :
    g'.taskPool = g.taskPool ∧ g'.workerContexts.length = g.numThreads := by
  obtain ⟨g₀, samePool, sameCount, sameOptimized, launched⟩ := start_eq_launch started
  obtain ⟨-, rfl⟩ := Prod.ext_iff.1 launched
  simp [ThreadGraph.numThreads, samePool, sameCount, sameOptimized]

/-- `ThreadGraph::terminate(call_wait)`: the flag is stored, no one is notified. -/
def terminate (g : ThreadGraph) (callWait : Bool) : Option (ThreadGraph × Option Thrown) :=
  let g := { g with terminationFlag := true }
  if callWait then wait g else some (g, none)

end Athread
