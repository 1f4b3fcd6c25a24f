import Athread.TraceSound

/-!
# The workers of one run

`GraphWorker::process_tasks` (worker.cpp) as a step relation over the whole process: the heap,
the graph with its worker contexts, and a ghost history of what the payloads did.

One step is one atomic piece of a worker's loop, or the client's `terminate()`:

* the load of `_termination_flag` at the top of the loop;
* the locked section: `trace_ready_node`, then the claim (`set_state(Executing)` and
  `remove_ready_cache`), the wait, or the exit. The section is one step, and the stores other
  workers make meanwhile without the mutex are what `Reads` lets its loads see;
* the payload returning or throwing, the store of `Completed`, each `notify_all`, the flag store
  in the `catch`, a spurious wakeup of a waiting worker.

`notify_all` releases every waiting worker at once; a worker that starts waiting after it is not
released.
-/

namespace Athread

/-- What happened in a run, newest first. The code keeps no such record: it is the history the
properties of whole runs are stated over. -/
inductive Event where
  | started (n : NodeId)
  | returned (n : NodeId)
  | threw (n : NodeId) (e : Thrown)
  | terminated
  deriving DecidableEq, Repr

/-- The process while a graph runs. -/
structure Sys where
  heap : Heap
  graph : ThreadGraph
  log : List Event

namespace WorkerPc

/-- The node whose payload the worker is running or has just run. -/
def held : WorkerPc → Option NodeId
  | running n => some n
  | finishing n => some n
  | _ => none

/-- The node a worker's place names: its hint, or the node it runs or has just run. -/
def node : WorkerPc → Option NodeId
  | checking h | tracing h | waiting h => h
  | running n | finishing n | notifying n => some n
  | _ => none

/-- The exception a worker is handling or has stored. -/
def fault : WorkerPc → Option Thrown
  | caught e => some e
  | raising e => some e
  | done (some e) => some e
  | _ => none

/-- What `notify_all` does to a worker: a blocked one returns to the top of its loop (it takes
the mutex back and drops it at once). -/
def wake : WorkerPc → WorkerPc
  | waiting h => checking h
  | pc => pc

@[simp] theorem held_wake (pc : WorkerPc) : pc.wake.held = pc.held := by cases pc <;> rfl
@[simp] theorem node_wake (pc : WorkerPc) : pc.wake.node = pc.node := by cases pc <;> rfl
@[simp] theorem fault_wake (pc : WorkerPc) : pc.wake.fault = pc.fault := by cases pc <;> rfl
@[simp] theorem wake_exiting : exiting.wake = exiting := rfl
@[simp] theorem wake_done (r : Option Thrown) : (done r).wake = done r := rfl
@[simp] theorem wake_eq_exiting (pc : WorkerPc) : pc.wake = exiting ↔ pc = exiting := by
  cases pc <;> simp [wake]
@[simp] theorem wake_eq_done (pc : WorkerPc) (r : Option Thrown) : pc.wake = done r ↔ pc = done r := by
  cases pc <;> simp [wake]

end WorkerPc

namespace Sys

def states (s : Sys) (n : NodeId) : RunnableState := (s.heap n).state

/-- The place of worker `i`, if there is one. -/
def pc? (s : Sys) (i : Nat) : Option WorkerPc := s.graph.workerContexts[i]?.map (·.pc)

def setPc (s : Sys) (i : Nat) (pc : WorkerPc) : Sys :=
  { s with graph := { s.graph with
      workerContexts := s.graph.workerContexts.modify (fun c => { c with pc := pc }) i } }

/-- `_task_available_condition.notify_all()`. -/
def notifyAll (s : Sys) : Sys :=
  { s with graph := { s.graph with
      workerContexts := s.graph.workerContexts.map fun c => { c with pc := c.pc.wake } } }

def record (s : Sys) (e : Event) : Sys := { s with log := e :: s.log }

/-- `_termination_flag.store(true)`. -/
def setFlag (s : Sys) : Sys := { s with graph := { s.graph with terminationFlag := true } }

/-- The end of the locked section on a READY verdict for `n`: `set_state(Executing)`,
`remove_ready_cache(n)`, and the call of `execute()`. -/
def claim (s : Sys) (i : Nat) (n : NodeId) : Sys :=
  { heap := s.heap.setState n .executing,
    graph := ((s.setPc i (.running n)).graph).removeReadyCache n,
    log := .started n :: s.log }

/-- `set_state(Completed)` after `execute()` returned. -/
def store (s : Sys) (i : Nat) (n : NodeId) : Sys :=
  { s.setPc i (.notifying n) with heap := s.heap.setState n .completed }

/-- The state `ThreadGraph::start` leaves once its `wait()` has returned. -/
def launch (heap : Heap) (g : ThreadGraph) : Sys :=
  { heap := (startAfterWait heap g).1, graph := (startAfterWait heap g).2, log := [] }

@[simp] theorem states_launch (heap : Heap) (g : ThreadGraph) (n : NodeId) :
    (launch heap g).states n = if n ∈ g.taskPool then .ready else (heap n).state :=
  resetAllTasksState_state heap g n

@[simp] theorem predecessors_launch (heap : Heap) (g : ThreadGraph) (n : NodeId) :
    ((launch heap g).heap n).predecessors = (heap n).predecessors :=
  resetAllTasksState_predecessors heap g n

@[simp] theorem taskPool_launch (heap : Heap) (g : ThreadGraph) :
    (launch heap g).graph.taskPool = g.taskPool := rfl
@[simp] theorem cache_launch (heap : Heap) (g : ThreadGraph) :
    (launch heap g).graph.readyTasksCache = g.taskPool := rfl
@[simp] theorem flag_launch (heap : Heap) (g : ThreadGraph) :
    (launch heap g).graph.terminationFlag = false := rfl
@[simp] theorem log_launch (heap : Heap) (g : ThreadGraph) : (launch heap g).log = [] := rfl

@[simp] theorem pc?_launch (heap : Heap) (g : ThreadGraph) (i : Nat) :
    (launch heap g).pc? i = if i < g.numThreads then some (.checking none) else none := by
  simp [launch, pc?, List.getElem?_replicate]

@[simp] theorem pc?_setPc (s : Sys) (i j : Nat) (pc : WorkerPc) :
    (s.setPc i pc).pc? j = if i = j then (s.pc? j).map fun _ => pc else s.pc? j := by
  simp only [pc?, setPc, List.getElem?_modify]
  split_ifs <;> cases s.graph.workerContexts[j]? <;> simp_all

@[simp] theorem pc?_notifyAll (s : Sys) (j : Nat) : s.notifyAll.pc? j = (s.pc? j).map WorkerPc.wake := by
  simp only [pc?, notifyAll, List.getElem?_map]
  cases s.graph.workerContexts[j]? <;> rfl

theorem pc?_setPc_eq_some {s : Sys} {i j : Nat} {pc q : WorkerPc} (current : (s.setPc i pc).pc? j = some q) :
    i = j ∧ q = pc ∨ i ≠ j ∧ s.pc? j = some q := by
  rw [pc?_setPc] at current
  split_ifs at current with same
  · obtain ⟨_, -, rfl⟩ := Option.map_eq_some'.1 current
    exact .inl ⟨same, rfl⟩
  · exact .inr ⟨same, current⟩

theorem pc?_notifyAll_eq_some {s : Sys} {j : Nat} {q : WorkerPc} (current : s.notifyAll.pc? j = some q) :
    ∃ q₀, s.pc? j = some q₀ ∧ q = q₀.wake := by
  rw [pc?_notifyAll] at current
  obtain ⟨q₀, before, rfl⟩ := Option.map_eq_some'.1 current
  exact ⟨q₀, before, rfl⟩

@[simp] theorem pc?_record (s : Sys) (e : Event) (j : Nat) : (s.record e).pc? j = s.pc? j := rfl
@[simp] theorem pc?_setFlag (s : Sys) (j : Nat) : s.setFlag.pc? j = s.pc? j := rfl

@[simp] theorem pc?_claim (s : Sys) (i j : Nat) (n : NodeId) :
    (s.claim i n).pc? j = if i = j then (s.pc? j).map fun _ => .running n else s.pc? j :=
  pc?_setPc s i j _

@[simp] theorem pc?_store (s : Sys) (i j : Nat) (n : NodeId) :
    (s.store i n).pc? j = if i = j then (s.pc? j).map fun _ => .notifying n else s.pc? j :=
  pc?_setPc s i j _

@[simp] theorem states_setPc (s : Sys) (i : Nat) (pc : WorkerPc) : (s.setPc i pc).states = s.states := rfl
@[simp] theorem states_notifyAll (s : Sys) : s.notifyAll.states = s.states := rfl
@[simp] theorem states_record (s : Sys) (e : Event) : (s.record e).states = s.states := rfl
@[simp] theorem states_setFlag (s : Sys) : s.setFlag.states = s.states := rfl

@[simp] theorem states_claim (s : Sys) (i : Nat) (n m : NodeId) :
    (s.claim i n).states m = if m = n then .executing else s.states m := by
  simp [claim, states]

@[simp] theorem states_store (s : Sys) (i : Nat) (n m : NodeId) :
    (s.store i n).states m = if m = n then .completed else s.states m := by
  simp [store, states]

@[simp] theorem heap_setPc (s : Sys) (i : Nat) (pc : WorkerPc) : (s.setPc i pc).heap = s.heap := rfl
@[simp] theorem heap_notifyAll (s : Sys) : s.notifyAll.heap = s.heap := rfl
@[simp] theorem heap_record (s : Sys) (e : Event) : (s.record e).heap = s.heap := rfl
@[simp] theorem heap_setFlag (s : Sys) : s.setFlag.heap = s.heap := rfl
@[simp] theorem heap_claim (s : Sys) (i : Nat) (n : NodeId) :
    (s.claim i n).heap = s.heap.setState n .executing := rfl
@[simp] theorem heap_store (s : Sys) (i : Nat) (n : NodeId) :
    (s.store i n).heap = s.heap.setState n .completed := rfl

@[simp] theorem log_setPc (s : Sys) (i : Nat) (pc : WorkerPc) : (s.setPc i pc).log = s.log := rfl
@[simp] theorem log_notifyAll (s : Sys) : s.notifyAll.log = s.log := rfl
@[simp] theorem log_record (s : Sys) (e : Event) : (s.record e).log = e :: s.log := rfl
@[simp] theorem log_setFlag (s : Sys) : s.setFlag.log = s.log := rfl
@[simp] theorem log_claim (s : Sys) (i : Nat) (n : NodeId) : (s.claim i n).log = .started n :: s.log := rfl
@[simp] theorem log_store (s : Sys) (i : Nat) (n : NodeId) : (s.store i n).log = s.log := rfl

@[simp] theorem taskPool_setPc (s : Sys) (i : Nat) (pc : WorkerPc) :
    (s.setPc i pc).graph.taskPool = s.graph.taskPool := rfl
@[simp] theorem taskPool_notifyAll (s : Sys) : s.notifyAll.graph.taskPool = s.graph.taskPool := rfl
@[simp] theorem taskPool_record (s : Sys) (e : Event) : (s.record e).graph.taskPool = s.graph.taskPool := rfl
@[simp] theorem taskPool_setFlag (s : Sys) : s.setFlag.graph.taskPool = s.graph.taskPool := rfl
@[simp] theorem taskPool_claim (s : Sys) (i : Nat) (n : NodeId) :
    (s.claim i n).graph.taskPool = s.graph.taskPool := rfl
@[simp] theorem taskPool_store (s : Sys) (i : Nat) (n : NodeId) :
    (s.store i n).graph.taskPool = s.graph.taskPool := rfl

@[simp] theorem cache_setPc (s : Sys) (i : Nat) (pc : WorkerPc) :
    (s.setPc i pc).graph.readyTasksCache = s.graph.readyTasksCache := rfl
@[simp] theorem cache_notifyAll (s : Sys) : s.notifyAll.graph.readyTasksCache = s.graph.readyTasksCache := rfl
@[simp] theorem cache_record (s : Sys) (e : Event) :
    (s.record e).graph.readyTasksCache = s.graph.readyTasksCache := rfl
@[simp] theorem cache_setFlag (s : Sys) : s.setFlag.graph.readyTasksCache = s.graph.readyTasksCache := rfl
@[simp] theorem cache_claim (s : Sys) (i : Nat) (n : NodeId) :
    (s.claim i n).graph.readyTasksCache = s.graph.readyTasksCache.erase n := rfl
@[simp] theorem cache_store (s : Sys) (i : Nat) (n : NodeId) :
    (s.store i n).graph.readyTasksCache = s.graph.readyTasksCache := rfl

@[simp] theorem flag_setPc (s : Sys) (i : Nat) (pc : WorkerPc) :
    (s.setPc i pc).graph.terminationFlag = s.graph.terminationFlag := rfl
@[simp] theorem flag_notifyAll (s : Sys) : s.notifyAll.graph.terminationFlag = s.graph.terminationFlag := rfl
@[simp] theorem flag_record (s : Sys) (e : Event) :
    (s.record e).graph.terminationFlag = s.graph.terminationFlag := rfl
@[simp] theorem flag_setFlag (s : Sys) : s.setFlag.graph.terminationFlag = true := rfl
@[simp] theorem flag_claim (s : Sys) (i : Nat) (n : NodeId) :
    (s.claim i n).graph.terminationFlag = s.graph.terminationFlag := rfl
@[simp] theorem flag_store (s : Sys) (i : Nat) (n : NodeId) :
    (s.store i n).graph.terminationFlag = s.graph.terminationFlag := rfl

end Sys

/-- Which worker did what in one step. -/
inductive Action where
  | check (i : Nat)
  | claim (i : Nat) (n : NodeId)
  | block (i : Nat)
  | finish (i : Nat)
  | ret (i : Nat) (n : NodeId)
  | throw (i : Nat) (n : NodeId)
  | store (i : Nat) (n : NodeId)
  | notify (i : Nat)
  | exit (i : Nat)
  | flag (i : Nat)
  | raise (i : Nat)
  | spurious (i : Nat)
  | terminate
  deriving DecidableEq, Repr

/-- One step of a run of `GraphWorker::process_tasks`, or the client's `terminate()`. The trace
in the locked section may return with any fuel, and its loads may see any states `Reads` allows
for the states at which the section ends. -/
inductive Step : Sys → Action → Sys → Prop
  | check {s i h} : s.pc? i = some (.checking h) →
      Step s (.check i) (s.setPc i (if s.graph.terminationFlag then .exiting else .tracing h))
  | claim {s i h view fuel n k} : s.pc? i = some (.tracing h) → Reads view s.states →
      traceReadyNode s.heap view s.graph fuel h 0 = some ((.ready, some n), k) →
      Step s (.claim i n) (s.claim i n)
  | block {s i h view fuel x k} : s.pc? i = some (.tracing h) → Reads view s.states →
      traceReadyNode s.heap view s.graph fuel h 0 = some ((.pending, x), k) →
      Step s (.block i) (s.setPc i (.waiting x))
  | finish {s i h view fuel x k} : s.pc? i = some (.tracing h) → Reads view s.states →
      traceReadyNode s.heap view s.graph fuel h 0 = some ((.completed, x), k) →
      Step s (.finish i) (s.setPc i .exiting)
  | ret {s i n} : s.pc? i = some (.running n) →
      Step s (.ret i n) ((s.setPc i (.finishing n)).record (.returned n))
  | throw {s i n} (e : Thrown) : s.pc? i = some (.running n) →
      Step s (.throw i n) ((s.setPc i (.caught e)).record (.threw n e))
  | store {s i n} : s.pc? i = some (.finishing n) → Step s (.store i n) (s.store i n)
  | notify {s i n} : s.pc? i = some (.notifying n) →
      Step s (.notify i) (s.setPc i (.checking (some n))).notifyAll
  | exit {s i} : s.pc? i = some .exiting → Step s (.exit i) (s.setPc i (.done none)).notifyAll
  | flag {s i e} : s.pc? i = some (.caught e) → Step s (.flag i) (s.setPc i (.raising e)).setFlag
  | raise {s i e} : s.pc? i = some (.raising e) →
      Step s (.raise i) (s.setPc i (.done (some e))).notifyAll
  | spurious {s i h} : s.pc? i = some (.waiting h) → Step s (.spurious i) (s.setPc i (.checking h))
  | terminate {s} : Step s .terminate (s.setFlag.record .terminated)

/-- The states a run reaches from `s₀`. -/
inductive Reachable (s₀ : Sys) : Sys → Prop
  | refl : Reachable s₀ s₀
  | step {s s' : Sys} {a : Action} : Reachable s₀ s → Step s a s' → Reachable s₀ s'

/-- A run neither adds nor removes worker contexts. -/
theorem Step.contexts_length {s s' : Sys} {a : Action} (step : Step s a s') :
    s'.graph.workerContexts.length = s.graph.workerContexts.length := by
  cases step <;> simp [Sys.setPc, Sys.notifyAll, Sys.claim, Sys.store, Sys.record, Sys.setFlag,
    ThreadGraph.removeReadyCache]

/-- Node edges and the pool do not change during a run. -/
theorem Step.heap_edges {s s' : Sys} {a : Action} (step : Step s a s') (n : NodeId) :
    (s'.heap n).predecessors = (s.heap n).predecessors ∧
      (s'.heap n).successors = (s.heap n).successors ∧ s'.graph.taskPool = s.graph.taskPool := by
  cases step <;> simp

theorem Reachable.contexts_length {s₀ s : Sys} (reach : Reachable s₀ s) :
    s.graph.workerContexts.length = s₀.graph.workerContexts.length := by
  induction reach with
  | refl => rfl
  | step _ step inductionHypothesis => rw [step.contexts_length, inductionHypothesis]

theorem Reachable.taskPool {s₀ s : Sys} (reach : Reachable s₀ s) : s.graph.taskPool = s₀.graph.taskPool := by
  induction reach with
  | refl => rfl
  | step _ step inductionHypothesis => rw [(step.heap_edges 0).2.2, inductionHypothesis]

theorem Reachable.predecessors {s₀ s : Sys} (reach : Reachable s₀ s) (n : NodeId) :
    (s.heap n).predecessors = (s₀.heap n).predecessors := by
  induction reach with
  | refl => rfl
  | step _ step inductionHypothesis => rw [(step.heap_edges n).1, inductionHypothesis]

end Athread
