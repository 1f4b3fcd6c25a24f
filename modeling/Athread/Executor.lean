import Athread.Completion
import Athread.WaitFor

/-!
# The executor's thread

`Executor::start(graph)` and `Executor::start_loop(graph, times)` hand the graph to a detached
thread. It calls `graph.start()` and `graph.wait()` in turn and settles its promise: with a value
after the last `wait()`, or with whatever either call threw (`catch (...)`). Here that thread runs
beside the graph's workers: a step of the whole is a step of the refined model of `Athread.Mutex`
(a worker's, or the client's `terminate(false)`), or a call of the executor thread. Each run the
thread launches starts a fresh log of events.

* `startLoop_start_succeeds`: whatever the graph is doing when `start_loop` is called, every
  `graph.start()` of the loop returns without raising. The `wait()` before it has reset the graph,
  and no worker step can make it execute again.
* `startLoop_exception_thrown`: on a graph without workers, the promise holds an exception only
  when a payload of the last run threw.
* `startLoop_value_completed`: it holds a value after at least one run only when that run completed
  every pool node, or `terminate()` was called in it. No throw is lost on the way.
* `startLoop_can_settle`: on a graph whose edges stay in its pool and form no cycle, from every
  point at which no payload of the current run has thrown and `terminate()` has not been called,
  the workers and the executor thread can go on until the promise has its value.
* `start_promise_outcome` and `start_can_settle`: the same for `Executor::start` on a graph handed
  over at rest, which runs as the last round of `start_loop(graph, 1)`.
-/

namespace Athread

open Relation

/-- Where the executor's thread is: before `graph.wait()`, with `left` calls of `graph.start()`
still to make after it; before `graph.start()`, with `left` calls after it; or past the promise. -/
inductive ExecPc where
  | wait (left : Nat)
  | start (left : Nat)
  | setValue
  | setException (e : Thrown)
  deriving DecidableEq, Repr

/-- Where the thread goes once a `graph.wait()` has returned: the next round of the loop, or
`promise.set_value()`. -/
def ExecPc.afterWait : Nat → ExecPc
  | 0 => .setValue
  | left + 1 => .start left

namespace Executor

/-- `Executor::start`: `graph.start()`, then `graph.wait()`. -/
def start : ExecPc := .start 0

/-- `Executor::start_loop`: `times` rounds of `graph.wait()` and `graph.start()`, then a last
`graph.wait()`. -/
def startLoop (times : Nat) : ExecPc := .wait times

end Executor

/-- The graph's workers with `_tasks_mutex`, and the executor's thread. -/
structure ExecSys where
  run : LockSys
  pc : ExecPc

/-- A step of a worker or of the client's `terminate(false)`, or a call of the executor thread.
`graph.start()` launches a run with a fresh log and a free mutex: its `wait()` returned only once
every worker had finished. -/
inductive ExecStep : ExecSys → ExecSys → Prop
  | worker {ls ls' pc a} : LockStep ls a ls' → ExecStep ⟨ls, pc⟩ ⟨ls', pc⟩
  | waited {s m left g'} : wait s.graph = some (g', none) →
      ExecStep ⟨⟨s, m⟩, .wait left⟩ ⟨⟨{ s with graph := g' }, m⟩, ExecPc.afterWait left⟩
  | waitRaised {s m left g' e} : wait s.graph = some (g', some e) →
      ExecStep ⟨⟨s, m⟩, .wait left⟩ ⟨⟨{ s with graph := g' }, m⟩, .setException e⟩
  | started {s m left heap' g'} : start s.heap s.graph = some (heap', g', none) →
      ExecStep ⟨⟨s, m⟩, .start left⟩ ⟨⟨⟨heap', g', []⟩, none⟩, .wait left⟩
  | startRaised {s m left heap' g' e} : start s.heap s.graph = some (heap', g', some (.raised e)) →
      ExecStep ⟨⟨s, m⟩, .start left⟩ ⟨⟨{ s with heap := heap', graph := g' }, m⟩, .setException e⟩

/-- The states the executor's thread and the workers reach together. -/
def ExecReach : ExecSys → ExecSys → Prop := ReflTransGen ExecStep

theorem LockReach.exec {ls ls' : LockSys} (run : LockReach ls ls') (pc : ExecPc) :
    ExecReach ⟨ls, pc⟩ ⟨ls', pc⟩ := by
  induction run with
  | refl => exact .refl
  | tail _ step reach =>
    obtain ⟨a, step⟩ := step
    exact reach.tail (.worker step)

/-! ## `wait()` and `start()` -/

/-- No worker: none to wait for, none to join, and nothing executing. -/
def Idle (g : ThreadGraph) : Prop := g.workerContexts = [] ∧ g.executingFlag = false

theorem wait_of_no_workers {g : ThreadGraph} (empty : g.workerContexts = []) :
    wait g = some (g.reset, none) := by
  simp [wait, empty, collectFutures, joinAll, ThreadGraph.reset]
  decide

theorem start_of_idle {heap : Heap} {g : ThreadGraph} (idle : Idle g) :
    start heap g = some ((startAfterWait heap g.reset).1, (startAfterWait heap g.reset).2, none) := by
  simp [start, ThreadGraph.executing, idle.2, wait_of_no_workers idle.1]

/-- A `wait()` that raises nothing leaves a graph without workers that is not executing. -/
theorem wait_idle {g g' : ThreadGraph} (waited : wait g = some (g', none)) : Idle g' := by
  unfold wait at waited
  split at waited
  · cases waited
  · cases waited
  · obtain ⟨cs, -, same⟩ := Option.map_eq_some'.1 waited
    simp only [Prod.mk.injEq] at same
    obtain ⟨rfl, -⟩ := same
    exact ⟨rfl, rfl⟩

/-- `future.get()` rethrows a non-std exception only from a worker that stored it. -/
theorem collectFutures_error {cs cs' : List WorkerContext} {msg : String} {e : Thrown}
    (collected : collectFutures cs msg = some (cs', .error e)) : ∃ c ∈ cs, c.pc = .done (some e) := by
  induction cs generalizing msg cs' with
  | nil => cases collected
  | cons c cs inductionHypothesis =>
    have rest : ∀ {msg'} {f : List WorkerContext → List WorkerContext},
        (collectFutures cs msg').map (fun r => (f r.1, r.2)) = some (cs', .error e) →
          ∃ c' ∈ c :: cs, c'.pc = .done (some e) := fun collected' => by
      obtain ⟨⟨rest, r⟩, collected'', same⟩ := Option.map_eq_some'.1 collected'
      simp only [Prod.mk.injEq] at same
      obtain ⟨-, rfl⟩ := same
      obtain ⟨c', member, done⟩ := inductionHypothesis collected''
      exact ⟨c', List.mem_cons_of_mem _ member, done⟩
    unfold collectFutures at collected
    split_ifs at collected
    · split at collected
      · exact rest collected
      · split_ifs at collected
        · exact rest collected
        · rename_i done _
          simp only [Option.some.injEq, Prod.mk.injEq, Except.error.injEq] at collected
          exact ⟨c, List.mem_cons_self _ _, collected.2 ▸ done⟩
      · cases collected
    · exact rest collected

/-- The messages `wait()` gathers: none, with every consumed future holding no exception, or more,
with some worker holding one. -/
theorem collectFutures_ok {cs cs' : List WorkerContext} {msg msg' : String}
    (collected : collectFutures cs msg = some (cs', .ok msg')) :
    ((∀ c ∈ cs, c.futureValid → c.pc = .done none) ∧ msg' = msg) ∨
      ((∃ c ∈ cs, ∃ e, c.pc = .done (some e)) ∧ msg.length < msg'.length) := by
  induction cs generalizing msg cs' with
  | nil =>
    cases collected
    exact .inl ⟨by simp, rfl⟩
  | cons c cs inductionHypothesis =>
    have rest : ∀ {msg₀} {f : List WorkerContext → List WorkerContext},
        (collectFutures cs msg₀).map (fun r => (f r.1, r.2)) = some (cs', .ok msg') →
          ((∀ c ∈ cs, c.futureValid → c.pc = .done none) ∧ msg' = msg₀) ∨
            ((∃ c ∈ cs, ∃ e, c.pc = .done (some e)) ∧ msg₀.length < msg'.length) :=
      fun collected' => by
        obtain ⟨⟨rest, r⟩, collected'', same⟩ := Option.map_eq_some'.1 collected'
        simp only [Prod.mk.injEq] at same
        obtain ⟨-, rfl⟩ := same
        exact inductionHypothesis collected''
    have extend : (c.futureValid → c.pc = .done none) →
        ((∀ c ∈ cs, c.futureValid → c.pc = .done none) ∧ msg' = msg) ∨
          ((∃ c ∈ cs, ∃ e, c.pc = .done (some e)) ∧ msg.length < msg'.length) →
        ((∀ c' ∈ c :: cs, c'.futureValid → c'.pc = .done none) ∧ msg' = msg) ∨
          ((∃ c' ∈ c :: cs, ∃ e, c'.pc = .done (some e)) ∧ msg.length < msg'.length) := by
      rintro first (⟨none, same⟩ | ⟨⟨c', member, e, threw⟩, longer⟩)
      · refine .inl ⟨fun c' member => ?_, same⟩
        rcases List.mem_cons.1 member with rfl | member
        · exact first
        · exact none c' member
      · exact .inr ⟨⟨c', List.mem_cons_of_mem _ member, e, threw⟩, longer⟩
    unfold collectFutures at collected
    split_ifs at collected with valid
    · split at collected
      · rename_i done
        exact extend (fun _ => done) (rest collected)
      · split_ifs at collected
        · rename_i e done _
          have grown : msg.length < (msg ++ e.what ++ "\n").length := by
            simp only [String.length_append]
            have newline : "\n".length = 1 := rfl
            omega
          refine .inr ⟨⟨c, List.mem_cons_self _ _, e, done⟩, ?_⟩
          rcases rest collected with ⟨-, same⟩ | ⟨-, longer⟩
          · rwa [same]
          · omega
        · simp at collected
      · cases collected
    · exact extend (fun valid' => by simp [valid'] at valid) (rest collected)

/-- A `wait()` that raises nothing consumed only futures without an exception. -/
theorem wait_done_none {g g' : ThreadGraph} (waited : wait g = some (g', none)) :
    ∀ c ∈ g.workerContexts, c.futureValid → c.pc = .done none := by
  unfold wait at waited
  split at waited
  · cases waited
  · cases waited
  · rename_i msg collected
    obtain ⟨cs, -, same⟩ := Option.map_eq_some'.1 waited
    simp only [Prod.mk.injEq, ite_eq_left_iff, reduceCtorEq, imp_false, not_not] at same
    have empty : msg.length = "".length := (string_isEmpty_iff msg).1 same.2
    rcases collectFutures_ok collected with ⟨none, -⟩ | ⟨-, longer⟩
    · exact none
    · omega

/-- A `wait()` that raises found a worker that stored an exception. -/
theorem wait_raised_done {g g' : ThreadGraph} {e : Thrown} (waited : wait g = some (g', some e)) :
    ∃ c ∈ g.workerContexts, ∃ e', c.pc = .done (some e') := by
  unfold wait at waited
  split at waited
  · cases waited
  · rename_i e' collected
    exact ⟨_, (collectFutures_error collected).choose_spec.1, e',
      (collectFutures_error collected).choose_spec.2⟩
  · rename_i msg collected
    obtain ⟨cs, -, same⟩ := Option.map_eq_some'.1 waited
    have nonempty : msg.length ≠ "".length := fun empty => by
      simp [(string_isEmpty_iff msg).2 empty] at same
    rcases collectFutures_ok collected with ⟨-, rfl⟩ | ⟨done, -⟩
    · exact (nonempty rfl).elim
    · exact done

/-! ## What a run keeps for `wait()` -/

/-- Every payload exception of the run is still held by a worker: one that caught it, is raising
it, or stored it in its future. -/
def Reported (place : Nat → Option WorkerPc) (log : List Event) : Prop :=
  ∀ n e, .threw n e ∈ log → ∃ i pc, place i = some pc ∧ pc.fault = some e

section Reported

variable {s s' : Sys} {place : Nat → Option WorkerPc} {log : List Event}

theorem Reported.cons (reported : Reported place log) {ev : Event}
    (quiet : ∀ n e, ev ≠ .threw n e) : Reported place (ev :: log) :=
  fun n e threw => reported n e ((List.mem_cons.1 threw).resolve_left fun same => quiet n e same.symm)

theorem Reported.setPc (reported : Reported s.pc? log) {i : Nat} {old new : WorkerPc}
    (current : s.pc? i = some old) (kept : old.fault = none ∨ new.fault = old.fault) :
    Reported (s.setPc i new).pc? log := by
  intro n e threw
  obtain ⟨j, pc, atJ, fault⟩ := reported n e threw
  by_cases same : i = j
  · subst same
    obtain rfl : pc = old := Option.some.inj (atJ.symm.trans current)
    refine ⟨i, new, by simp [current], ?_⟩
    rcases kept with unfaulted | kept
    · simp [unfaulted] at fault
    · rw [kept, fault]
  · exact ⟨j, pc, by simp [same, atJ], fault⟩

theorem Reported.notifyAll (reported : Reported s.pc? log) : Reported s.notifyAll.pc? log := by
  intro n e threw
  obtain ⟨j, pc, atJ, fault⟩ := reported n e threw
  exact ⟨j, pc.wake, by simp [atJ], by simp [fault]⟩

/-- A worker that handles an exception keeps it; every other step moves a worker that holds
none. -/
theorem Reported.step (reported : Reported s.pc? s.log) {a : Action} (step : Step s a s') :
    Reported s'.pc? s'.log := by
  cases step with
  | check current | block current | finish current | store current | spurious current =>
    exact reported.setPc current (.inl rfl)
  | claim current | ret current => exact (reported.setPc current (.inl rfl)).cons (by simp)
  | @throw i n e current =>
    intro m e' threw
    rcases List.mem_cons.1 threw with new | old
    · cases new
      exact ⟨i, .caught e, by simp [current], rfl⟩
    · exact reported.setPc current (.inl rfl) m e' old
  | notify current | exit current => exact (reported.setPc current (.inl rfl)).notifyAll
  | flag current => exact reported.setPc current (.inr (by rfl))
  | raise current => exact (reported.setPc current (.inr (by rfl))).notifyAll
  | terminate => exact reported.cons (by simp)

theorem Reachable.reported {s₀ : Sys} (init : Reported s₀.pc? s₀.log) (reach : Reachable s₀ s) :
    Reported s.pc? s.log := by
  induction reach with
  | refl => exact init
  | step _ step reported => exact reported.step step

end Reported

/-! ## What the executor thread carries from run to run -/

/-- The settings `start()` reads: the pool, the thread count and the optimisation switch. -/
structure Settings (g' g : ThreadGraph) : Prop where
  taskPool : g'.taskPool = g.taskPool
  threadCount : g'.threadCount = g.threadCount
  optimized : g'.enableOptimizedThreads = g.enableOptimizedThreads

theorem Settings.trans {g₁ g₂ g₃ : ThreadGraph} (first : Settings g₁ g₂) (second : Settings g₂ g₃) :
    Settings g₁ g₃ :=
  ⟨first.1.trans second.1, first.2.trans second.2, first.3.trans second.3⟩

theorem Settings.numThreads {g' g : ThreadGraph} (same : Settings g' g) :
    g'.numThreads = g.numThreads := by
  simp [ThreadGraph.numThreads, same.taskPool, same.threadCount, same.optimized]

theorem Step.settings {s s' : Sys} {a : Action} (step : Step s a s') : Settings s'.graph s.graph := by
  cases step <;> exact ⟨rfl, rfl, rfl⟩

theorem wait_settings {g g' : ThreadGraph} {raised : Option Thrown}
    (waited : wait g = some (g', raised)) :
    Settings g' g :=
  ⟨(wait_keeps waited).1, (wait_keeps waited).2.1, (wait_keeps waited).2.2⟩

/-- Two heaps with the same edges. -/
def SameEdges (h₁ h₂ : Heap) : Prop :=
  ∀ n, (h₁ n).predecessors = (h₂ n).predecessors ∧ (h₁ n).successors = (h₂ n).successors

theorem SameEdges.trans {h₁ h₂ h₃ : Heap} (first : SameEdges h₁ h₂) (second : SameEdges h₂ h₃) :
    SameEdges h₁ h₃ :=
  fun n => ⟨(first n).1.trans (second n).1, (first n).2.trans (second n).2⟩

theorem SameEdges.closed {h₁ h₂ : Heap} (same : SameEdges h₁ h₂) {pool : List NodeId}
    (closed : EdgesClosed h₂ pool) : EdgesClosed h₁ pool := fun n member => by
  rw [(same n).1, (same n).2]
  exact closed n member

theorem SameEdges.predEdge {h₁ h₂ : Heap} (same : SameEdges h₁ h₂) : PredEdge h₁ = PredEdge h₂ := by
  funext a b
  simp only [PredEdge, (same b).1]

theorem Step.sameEdges {s s' : Sys} {a : Action} (step : Step s a s') : SameEdges s'.heap s.heap :=
  fun n => ⟨(step.heap_edges n).1, (step.heap_edges n).2.1⟩

theorem LockStep.sameEdges {ls ls' : LockSys} {a : LockAction} (step : LockStep ls a ls') :
    SameEdges ls'.sys.heap ls.sys.heap := by
  rcases step.step with same | ⟨a', step'⟩
  · exact fun n => by simp [same]
  · exact step'.sameEdges

theorem LockStep.settings {ls ls' : LockSys} {a : LockAction} (step : LockStep ls a ls') :
    Settings ls'.sys.graph ls.sys.graph := by
  rcases step.step with same | ⟨a', step'⟩
  · rw [same]
    exact ⟨rfl, rfl, rfl⟩
  · exact step'.settings

/-- Without workers, the only step left is the client's `terminate(false)`. -/
theorem LockStep.of_no_workers {ls ls' : LockSys} {a : LockAction} (step : LockStep ls a ls')
    (empty : ls.sys.graph.workerContexts = []) : ls'.sys = (ls.sys.setFlag).record .terminated := by
  have absent : ∀ i, ls.sys.pc? i = none := fun i => by simp [Sys.pc?, empty]
  cases step with
  | lock current | claim current | block current | finish current => simp [absent] at current
  | free _ step =>
    cases step with
    | terminate => rfl
    | _ => simp_all

theorem Idle.of_lockStep {ls ls' : LockSys} {a : LockAction} (idle : Idle ls.sys.graph)
    (step : LockStep ls a ls') : Idle ls'.sys.graph := by
  rw [step.of_no_workers idle.1]
  exact idle

/-! ## `start_loop` starts only a graph at rest -/

/-- Before each `graph.start()` of the thread, the graph has no worker and is not executing. -/
def StartsIdle (es : ExecSys) : Prop := ∀ left, es.pc = .start left → Idle es.run.sys.graph

theorem StartsIdle.step {es es' : ExecSys} (idle : StartsIdle es) (step : ExecStep es es') :
    StartsIdle es' := by
  intro left starting
  cases step with
  | worker step => exact (idle left starting).of_lockStep step
  | @waited s m left' g' waited =>
    cases left' with
    | zero => cases starting
    | succ k => exact wait_idle waited
  | waitRaised | started | startRaised => cases starting

theorem StartsIdle.reach {es es' : ExecSys} (idle : StartsIdle es) (run : ExecReach es es') :
    StartsIdle es' := by
  induction run with
  | refl => exact idle
  | tail _ step idle' => exact idle'.step step

/-- Whatever the graph is doing when `start_loop` is called, each `graph.start()` of the loop
returns, without raising: the `wait()` before it has reset the graph, and with no worker left the
only step beside the thread is the client's `terminate(false)`. -/
theorem startLoop_start_succeeds {heap : Heap} {g : ThreadGraph} {times left : Nat} {es : ExecSys}
    (run : ExecReach ⟨⟨⟨heap, g, []⟩, none⟩, Executor.startLoop times⟩ es)
    (starting : es.pc = .start left) :
    ∃ heap' g', start es.run.sys.heap es.run.sys.graph = some (heap', g', none) := by
  have idle := StartsIdle.reach (fun _ starting => by simp [Executor.startLoop] at starting) run
  exact ⟨_, _, start_of_idle (idle left starting)⟩

/-- `start_loop(graph, 1)` on the graph of a run in which worker 0 runs A: the client calls
`terminate(false)`, both workers leave, and the thread's `wait()` returns before its `start()`. -/
theorem startLoop_start_succeeds_claimed :
    pairClaimed.pc? 0 = some (.running 0) ∧
    ∃ es, (ExecReach ⟨⟨⟨pairClaimed.heap, pairClaimed.graph, []⟩, none⟩, Executor.startLoop 1⟩ es ∧
      es.pc = .start 0) ∧ ∃ heap' g', start es.run.sys.heap es.run.sys.graph = some (heap', g', none) := by
  obtain ⟨es, run, starting⟩ : ∃ es,
      ExecReach ⟨⟨⟨pairClaimed.heap, pairClaimed.graph, []⟩, none⟩, Executor.startLoop 1⟩ es ∧
        es.pc = .start 0 :=
    ⟨_, ReflTransGen.single (.worker (.free (by trivial) .terminate))
      |>.tail (.worker (.free (by trivial) (@Step.check _ 1 none (by decide))))
      |>.tail (.worker (.free (by trivial) (@Step.exit _ 1 (by decide))))
      |>.tail (.worker (.free (by trivial) (@Step.ret _ 0 0 (by decide))))
      |>.tail (.worker (.free (by trivial) (@Step.store _ 0 0 (by decide))))
      |>.tail (.worker (.free (by trivial) (@Step.notify _ 0 0 (by decide))))
      |>.tail (.worker (.free (by trivial) (@Step.check _ 0 (some 0) (by decide))))
      |>.tail (.worker (.free (by trivial) (@Step.exit _ 0 (by decide))))
      |>.tail (.waited (by rfl)), by rfl⟩
  exact ⟨by decide, es, ⟨run, starting⟩, startLoop_start_succeeds run starting⟩

/-! ## From one run to the next -/

/-- What holds at each place of the executor thread. Before a `wait()`: the graph as the client
handed it over, without workers, or a run the thread's own `start()` launched. Before a `start()`:
a graph without workers that is not executing. Once the promise has its value: the same, and the
last run completed every pool node unless `terminate()` was called in it. Once it has an exception:
a payload of the last run threw. -/
def ExecPhase (heap : Heap) (g : ThreadGraph) (times : Nat) : ExecSys → Prop
  | ⟨ls, .wait left⟩ => (left = times ∧ ls.sys.graph.workerContexts = []) ∨
      ∃ heap₀ g₀, SameEdges heap₀ heap ∧ Settings g₀ g ∧ LockReach ⟨Sys.launch heap₀ g₀, none⟩ ls
  | ⟨ls, .start _⟩ => Idle ls.sys.graph
  | ⟨ls, .setValue⟩ => Idle ls.sys.graph ∧ (times = 0 ∨ g.threadCount = 0 ∨
      (∀ t ∈ g.taskPool, ls.sys.states t = .completed) ∨ .terminated ∈ ls.sys.log)
  | ⟨ls, .setException _⟩ => ∃ n e, .threw n e ∈ ls.sys.log

/-- The executor thread's invariant for `start_loop(graph, times)` on a graph first handed over
without workers, and for `Executor::start` (one round) on a graph handed over at rest: the edges
and the settings stay as they were, and each place has its phase. -/
structure ExecInv (heap : Heap) (g : ThreadGraph) (times : Nat) (es : ExecSys) : Prop where
  edges : SameEdges es.run.sys.heap heap
  settings : Settings es.run.sys.graph g
  phase : ExecPhase heap g times es

/-- A `wait()` that raises nothing at the end of a launched run: there was no thread, or the run
completed every pool node, or `terminate()` was called in it. A payload's throw would have left
its exception in a future. -/
theorem launched_completion {heap₀ : Heap} {g₀ : ThreadGraph} {ls : LockSys}
    (run : LockReach ⟨Sys.launch heap₀ g₀, none⟩ ls) {g' : ThreadGraph}
    (waited : wait ls.sys.graph = some (g', none)) :
    g₀.threadCount = 0 ∨ (∀ t ∈ g₀.taskPool, ls.sys.states t = .completed) ∨
      .terminated ∈ ls.sys.log := by
  have reach := LockReach.reachable run
  have inv := (runInv_launch heap₀ g₀).reachable reach
  have reported := reach.reported fun n e threw => by simp at threw
  have valid : ∀ c ∈ ls.sys.graph.workerContexts, c.pc = .done none :=
    fun c member => wait_done_none waited c member (reach.futureValid member)
  by_cases threads : g₀.threadCount = 0
  · exact .inl threads
  by_cases empty : g₀.taskPool = []
  · exact .inr (.inl (by simp [empty]))
  have someWorker : 0 < ls.sys.graph.workerContexts.length := by
    have pooled := List.length_pos.2 empty
    rw [reach.contexts_length]
    simp only [Sys.launch, startAfterWait_workerContexts, List.length_replicate,
      ThreadGraph.numThreads]
    split <;> omega
  obtain ⟨c, cs, first⟩ := List.exists_cons_of_length_pos someWorker
  have ok := inv.workers 0 c.pc (by simp [Sys.pc?, first])
  rw [valid c (by simp [first])] at ok
  rcases ok with completed | terminated | ⟨n, e, threw⟩
  · exact .inr (.inl fun t member => completed t (by rwa [reach.taskPool]))
  · exact .inr (.inr terminated)
  · obtain ⟨i, pc, atI, fault⟩ := reported n e threw
    obtain ⟨c', atI', rfl⟩ := Option.map_eq_some'.1 atI
    rw [valid c' (List.mem_iff_getElem?.2 ⟨i, atI'⟩)] at fault
    cases fault

section ExecInv

variable {heap : Heap} {g : ThreadGraph} {times : Nat}

theorem ExecInv.launch (empty : g.workerContexts = []) :
    ExecInv heap g times ⟨⟨⟨heap, g, []⟩, none⟩, Executor.startLoop times⟩ :=
  ⟨fun _ => ⟨rfl, rfl⟩, ⟨rfl, rfl, rfl⟩, .inl ⟨rfl, empty⟩⟩

/-- `Executor::start` is the last round of `start_loop(graph, 1)`, entered with the graph at rest. -/
theorem ExecInv.launchStart (idle : Idle g) :
    ExecInv heap g 1 ⟨⟨⟨heap, g, []⟩, none⟩, Executor.start⟩ :=
  ⟨fun _ => ⟨rfl, rfl⟩, ⟨rfl, rfl, rfl⟩, idle⟩

theorem ExecInv.worker {ls ls' : LockSys} {pc : ExecPc} {a : LockAction}
    (inv : ExecInv heap g times ⟨ls, pc⟩) (step : LockStep ls a ls') :
    ExecInv heap g times ⟨ls', pc⟩ := by
  refine ⟨step.sameEdges.trans inv.edges, step.settings.trans inv.settings, ?_⟩
  have phase := inv.phase
  cases pc with
  | wait left =>
    rcases phase with ⟨same, empty⟩ | ⟨heap₀, g₀, edges, settings, run⟩
    · exact .inl ⟨same, by rw [step.of_no_workers empty]; exact empty⟩
    · exact .inr ⟨heap₀, g₀, edges, settings, run.tail ⟨a, step⟩⟩
  | start left => exact Idle.of_lockStep phase step
  | setValue =>
    obtain ⟨idle, -⟩ := phase
    have after := step.of_no_workers idle.1
    refine ⟨idle.of_lockStep step, .inr (.inr (.inr ?_))⟩
    rw [after]
    exact List.mem_cons_self _ _
  | setException e =>
    obtain ⟨n, e', threw⟩ := phase
    exact ⟨n, e', step.log_subset threw⟩

theorem ExecInv.waited {s : Sys} {m : Option (Nat × (NodeId → RunnableState))} {left : Nat}
    {g' : ThreadGraph} (inv : ExecInv heap g times ⟨⟨s, m⟩, .wait left⟩)
    (waited : wait s.graph = some (g', none)) :
    ExecInv heap g times ⟨⟨{ s with graph := g' }, m⟩, ExecPc.afterWait left⟩ := by
  refine ⟨inv.edges, (wait_settings waited).trans inv.settings, ?_⟩
  cases left with
  | succ k => exact wait_idle waited
  | zero =>
    refine ⟨wait_idle waited, ?_⟩
    rcases inv.phase with ⟨same, -⟩ | ⟨heap₀, g₀, -, settings, run⟩
    · exact .inl same.symm
    · have done := launched_completion run waited
      rw [← settings.threadCount, ← settings.taskPool]
      exact .inr done

theorem ExecInv.waitRaised {s : Sys} {m : Option (Nat × (NodeId → RunnableState))} {left : Nat}
    {g' : ThreadGraph} {e : Thrown} (inv : ExecInv heap g times ⟨⟨s, m⟩, .wait left⟩)
    (waited : wait s.graph = some (g', some e)) :
    ExecInv heap g times ⟨⟨{ s with graph := g' }, m⟩, .setException e⟩ := by
  refine ⟨inv.edges, (wait_settings waited).trans inv.settings, ?_⟩
  rcases inv.phase with ⟨-, empty⟩ | ⟨heap₀, g₀, -, -, run⟩
  · rw [wait_of_no_workers empty] at waited
    simp at waited
  · have inv := (runInv_launch heap₀ g₀).reachable (LockReach.reachable run)
    obtain ⟨c, member, e', done⟩ := wait_raised_done waited
    obtain ⟨i, atI⟩ := List.mem_iff_getElem?.1 member
    have ok := inv.workers i c.pc (by simp [Sys.pc?, atI])
    rw [done] at ok
    obtain ⟨n, threw⟩ := ok
    exact ⟨n, e', threw⟩

theorem ExecInv.started {s : Sys} {m : Option (Nat × (NodeId → RunnableState))} {left : Nat}
    {heap' : Heap} {g' : ThreadGraph} (inv : ExecInv heap g times ⟨⟨s, m⟩, .start left⟩)
    (started : start s.heap s.graph = some (heap', g', none)) :
    ExecInv heap g times ⟨⟨⟨heap', g', []⟩, none⟩, .wait left⟩ := by
  obtain ⟨g₀, samePool, sameCount, sameOptimized, launched⟩ := start_eq_launch started
  have settings₀ : Settings g₀ g := (Settings.mk samePool sameCount sameOptimized).trans inv.settings
  obtain ⟨rfl, rfl⟩ := Prod.ext_iff.1 launched
  refine ⟨fun n => ?_, Settings.trans (by exact ⟨rfl, rfl, rfl⟩) settings₀,
    .inr ⟨s.heap, g₀, inv.edges, settings₀, .refl⟩⟩
  simpa [startAfterWait] using inv.edges n

theorem ExecInv.step {es es' : ExecSys} (inv : ExecInv heap g times es) (step : ExecStep es es') :
    ExecInv heap g times es' := by
  cases step with
  | worker step => exact inv.worker step
  | waited waited => exact inv.waited waited
  | waitRaised waited => exact inv.waitRaised waited
  | started started => exact inv.started started
  | startRaised started =>
    rw [start_of_idle inv.phase] at started
    simp at started

theorem ExecInv.reach {es es' : ExecSys} (inv : ExecInv heap g times es) (run : ExecReach es es') :
    ExecInv heap g times es' := by
  induction run with
  | refl => exact inv
  | tail _ step inv' => exact inv'.step step

end ExecInv

/-! ## The promise -/

section Promise

variable {heap : Heap} {g : ThreadGraph} {times : Nat} {es : ExecSys}

theorem ExecInv.exception_thrown {e : Thrown} (inv : ExecInv heap g times es)
    (failed : es.pc = .setException e) : ∃ n e', .threw n e' ∈ es.run.sys.log := by
  obtain ⟨ls, pc⟩ := es
  cases failed
  exact inv.phase

theorem ExecInv.value_completed (inv : ExecInv heap g times es) (threads : 1 ≤ g.threadCount)
    (looped : 0 < times) (settled : es.pc = .setValue) :
    (∀ t ∈ g.taskPool, es.run.sys.states t = .completed) ∨ .terminated ∈ es.run.sys.log := by
  obtain ⟨ls, pc⟩ := es
  cases settled
  obtain ⟨-, zero | noThreads | done⟩ := inv.phase
  · omega
  · omega
  · exact done

/-- How far the thread is from its promise: two calls for each round left, and the pending
`wait()`. -/
def ExecPc.left : ExecPc → Nat
  | .wait k => 2 * k + 1
  | .start k => 2 * k + 2
  | _ => 0

theorem ExecPc.left_afterWait (k : Nat) : (ExecPc.afterWait k).left < 2 * k + 1 := by
  cases k <;> simp only [afterWait, left] <;> omega

section Settle

variable (closed : EdgesClosed heap g.taskPool)
  (acyclic : ∀ n ∈ g.taskPool, ¬ TransGen (PredEdge heap) n n)
include closed acyclic

/-- Before a call of the thread, without faults, the call after it can be reached without faults:
a `start()` at once, a `wait()` once the run's workers have all returned. -/
theorem ExecInv.advance (inv : ExecInv heap g times es) (clean : ¬ Faulted es.run.sys.log)
    (pending : 0 < es.pc.left) :
    ∃ es₁, ExecReach es es₁ ∧ es₁.pc.left < es.pc.left ∧ ¬ Faulted es₁.run.sys.log := by
  obtain ⟨⟨s, m⟩, pc⟩ := es
  cases pc with
  | start k =>
    exact ⟨_, .single (.started (start_of_idle inv.phase)), by simp [ExecPc.left], by simp [Faulted]⟩
  | wait k =>
    rcases inv.phase with ⟨-, empty⟩ | ⟨heap₀, g₀, edges, settings, run⟩
    · exact ⟨_, .single (.waited (wait_of_no_workers empty)), ExecPc.left_afterWait k, clean⟩
    · have closed₀ : EdgesClosed heap₀ g₀.taskPool := edges.closed (settings.taskPool ▸ closed)
      have acyclic₀ : ∀ n ∈ g₀.taskPool, ¬ TransGen (PredEdge heap₀) n n := by
        rw [edges.predEdge, settings.taskPool]
        exact acyclic
      obtain ⟨ls', rest, clean', finished⟩ := LockReach.can_finish closed₀ acyclic₀ _ run clean
      obtain ⟨g', waited, -⟩ := wait_of_finished (Sys.contexts_done finished)
      exact ⟨_, (LockReach.exec rest _).tail (.waited waited), ExecPc.left_afterWait k, clean'⟩
  | setValue | setException e => simp [ExecPc.left] at pending

/-- Without faults, the promise's value can always be reached. -/
theorem ExecInv.can_settle (inv : ExecInv heap g times es) (clean : ¬ Faulted es.run.sys.log) :
    ∃ es', ExecReach es es' ∧ es'.pc = .setValue ∧ ¬ Faulted es'.run.sys.log := by
  induction es using WellFounded.induction (measure fun es : ExecSys => es.pc.left).wf with
  | _ es descend =>
  rcases Nat.eq_zero_or_pos es.pc.left with zero | pending
  · obtain ⟨ls, pc⟩ := es
    cases pc with
    | setValue => exact ⟨_, .refl, rfl, clean⟩
    | setException e =>
      obtain ⟨n, e', threw⟩ := inv.phase
      exact (clean (.inr ⟨n, e', threw⟩)).elim
    | wait k | start k => simp [ExecPc.left] at zero
  · obtain ⟨es₁, reach₁, lower, clean₁⟩ := inv.advance closed acyclic clean pending
    obtain ⟨es', reach', settled, clean'⟩ := descend es₁ lower (inv.reach reach₁) clean₁
    exact ⟨es', reach₁.trans reach', settled, clean'⟩

/-- Without faults, the promise's value can be reached with the graph at rest; after at least one
round on a graph with a thread, its last run has then completed every pool node. -/
theorem ExecInv.settles (inv : ExecInv heap g times es) (threads : 1 ≤ g.threadCount)
    (clean : ¬ Faulted es.run.sys.log) :
    ∃ es', ExecReach es es' ∧ es'.pc = .setValue ∧ ¬ Faulted es'.run.sys.log ∧
      Idle es'.run.sys.graph ∧ (0 < times → ∀ t ∈ g.taskPool, es'.run.sys.states t = .completed) := by
  obtain ⟨⟨ls', pc'⟩, reach', settled, clean'⟩ := inv.can_settle closed acyclic clean
  have inv' := inv.reach reach'
  cases settled
  exact ⟨_, reach', rfl, clean', inv'.phase.1, fun looped =>
    (inv'.value_completed threads looped rfl).resolve_right fun terminated =>
      clean' (.inl terminated)⟩

end Settle

/-- On a graph handed over without workers, `start_loop`'s promise holds an exception only when a
payload of the last run threw. -/
theorem startLoop_exception_thrown {e : Thrown} (empty : g.workerContexts = [])
    (run : ExecReach ⟨⟨⟨heap, g, []⟩, none⟩, Executor.startLoop times⟩ es)
    (failed : es.pc = .setException e) : ∃ n e', .threw n e' ∈ es.run.sys.log :=
  ((ExecInv.launch empty).reach run).exception_thrown failed

/-- The run of `[A, B]` as the executor thread launches it, once worker 0 has claimed A. -/
def pairLaunched : ExecSys :=
  ⟨⟨((Sys.launch chainHeap pairGraph.reset).setPc 0 (.tracing none)).claim 0 0, none⟩, .wait 0⟩

theorem pairLaunched_clean : ¬ Faulted pairLaunched.run.sys.log := by
  have log : pairLaunched.run.sys.log = [.started 0] := rfl
  simp [Faulted, log]

theorem start_reaches_pairLaunched :
    ExecReach ⟨⟨⟨chainHeap, pairGraph, []⟩, none⟩, Executor.start⟩ pairLaunched :=
  .tail (.tail (.tail (.single
    (.started (start_of_idle ⟨rfl, rfl⟩)))
    (.worker (.free (by trivial) (@Step.check _ 0 none (by decide)))))
    (.worker (@LockStep.lock _ 0 none (by decide))))
    (.worker (@LockStep.claim _ 0 none _ _ 1 0 2 (by decide) (reads_const _) (startsAt_const _)
      (by decide)))

theorem startLoop_reaches_pairLaunched :
    ExecReach ⟨⟨⟨chainHeap, pairGraph, []⟩, none⟩, Executor.startLoop 1⟩ pairLaunched :=
  .head (.waited (wait_of_no_workers rfl)) start_reaches_pairLaunched

/-- A's payload throws `boom`: worker 0 raises the flag and stores the exception, worker 1 loads the
flag and exits, and the thread's `wait()` raises. -/
theorem startLoop_exception_thrown_pair :
    ∃ es e, (pairGraph.workerContexts = [] ∧
      ExecReach ⟨⟨⟨chainHeap, pairGraph, []⟩, none⟩, Executor.startLoop 1⟩ es ∧
        es.pc = .setException e) ∧ ∃ n e', .threw n e' ∈ es.run.sys.log := by
  obtain ⟨es, e, run, failed⟩ : ∃ es e,
      ExecReach ⟨⟨⟨chainHeap, pairGraph, []⟩, none⟩, Executor.startLoop 1⟩ es ∧
        es.pc = .setException e :=
    ⟨_, _, startLoop_reaches_pairLaunched
      |>.tail (.worker (.free (by trivial) (@Step.throw _ 0 0 boom (by decide))))
      |>.tail (.worker (.free (by trivial) (@Step.flag _ 0 boom (by decide))))
      |>.tail (.worker (.free (by trivial) (@Step.raise _ 0 boom (by decide))))
      |>.tail (.worker (.free (by trivial) (@Step.check _ 1 none (by decide))))
      |>.tail (.worker (.free (by trivial) (@Step.exit _ 1 (by decide))))
      |>.tail (.waitRaised (by rfl)), rfl⟩
  exact ⟨es, e, ⟨rfl, run, failed⟩, startLoop_exception_thrown rfl run failed⟩

/-- On a graph handed over without workers and with at least one thread, when `start_loop`'s
promise holds a value after at least one round, its last run completed every pool node or was
terminated: a payload's throw always ends in the promise's exception. -/
theorem startLoop_value_completed (empty : g.workerContexts = []) (threads : 1 ≤ g.threadCount)
    (looped : 0 < times) (run : ExecReach ⟨⟨⟨heap, g, []⟩, none⟩, Executor.startLoop times⟩ es)
    (settled : es.pc = .setValue) :
    (∀ t ∈ g.taskPool, es.run.sys.states t = .completed) ∨ .terminated ∈ es.run.sys.log :=
  ((ExecInv.launch empty).reach run).value_completed threads looped settled

/-- The loop's round on `[A, B]`, carried on from worker 0's claim of A until the promise has
its value. -/
theorem startLoop_value_completed_pair :
    ∃ es, (pairGraph.workerContexts = [] ∧ 1 ≤ pairGraph.threadCount ∧ 0 < 1 ∧
      ExecReach pairLaunched es ∧
      ExecReach ⟨⟨⟨chainHeap, pairGraph, []⟩, none⟩, Executor.startLoop 1⟩ es ∧
        es.pc = .setValue) ∧
      ((∀ t ∈ pairGraph.taskPool, es.run.sys.states t = .completed) ∨
        .terminated ∈ es.run.sys.log) := by
  obtain ⟨es, settles, settled, -⟩ :=
    ((ExecInv.launch rfl).reach startLoop_reaches_pairLaunched).can_settle pairGraph_closed
      pairGraph_acyclic pairLaunched_clean
  have run := startLoop_reaches_pairLaunched.trans settles
  exact ⟨es, ⟨rfl, by decide, by decide, settles, run, settled⟩,
    startLoop_value_completed rfl (by decide) (by decide) run settled⟩

/-- On a graph handed over at rest, with at least one thread, `Executor::start`'s own `start()`
never raises: its promise holds a value only once the run completed every pool node or was
terminated, and an exception only when a payload of the run threw. -/
theorem start_promise_outcome (idle : Idle g) (threads : 1 ≤ g.threadCount)
    (run : ExecReach ⟨⟨⟨heap, g, []⟩, none⟩, Executor.start⟩ es) :
    (es.pc = .setValue →
      (∀ t ∈ g.taskPool, es.run.sys.states t = .completed) ∨ .terminated ∈ es.run.sys.log) ∧
    ∀ e, es.pc = .setException e → ∃ n e', .threw n e' ∈ es.run.sys.log :=
  have inv := (ExecInv.launchStart idle).reach run
  ⟨inv.value_completed threads Nat.one_pos, fun _ => inv.exception_thrown⟩

theorem start_promise_outcome_pair :
    ∃ es, (Idle pairGraph ∧ 1 ≤ pairGraph.threadCount ∧ ExecReach pairLaunched es ∧
      ExecReach ⟨⟨⟨chainHeap, pairGraph, []⟩, none⟩, Executor.start⟩ es) ∧ es.pc = .setValue ∧
      ((∀ t ∈ pairGraph.taskPool, es.run.sys.states t = .completed) ∨
        .terminated ∈ es.run.sys.log) := by
  obtain ⟨es, settles, settled, -⟩ :=
    ((ExecInv.launchStart ⟨rfl, rfl⟩).reach start_reaches_pairLaunched).can_settle pairGraph_closed
      pairGraph_acyclic pairLaunched_clean
  have run := start_reaches_pairLaunched.trans settles
  exact ⟨es, ⟨⟨rfl, rfl⟩, by decide, settles, run⟩, settled,
    (start_promise_outcome ⟨rfl, rfl⟩ (by decide) run).1 settled⟩

/-- On a graph handed over without workers, whose edges stay in its pool and form no cycle, with at
least one thread: from every point of `start_loop` at which no payload of the current run has
thrown and `terminate()` has not been called, the workers and the thread can go on until the
promise holds its value. The graph is then at rest, and after at least one round its last run has
completed every pool node. -/
theorem startLoop_can_settle (empty : g.workerContexts = []) (closed : EdgesClosed heap g.taskPool)
    (acyclic : ∀ n ∈ g.taskPool, ¬ TransGen (PredEdge heap) n n) (threads : 1 ≤ g.threadCount)
    (run : ExecReach ⟨⟨⟨heap, g, []⟩, none⟩, Executor.startLoop times⟩ es)
    (clean : ¬ Faulted es.run.sys.log) :
    ∃ es', ExecReach es es' ∧ es'.pc = .setValue ∧ ¬ Faulted es'.run.sys.log ∧
      Idle es'.run.sys.graph ∧ (0 < times → ∀ t ∈ g.taskPool, es'.run.sys.states t = .completed) :=
  ((ExecInv.launch empty).reach run).settles closed acyclic threads clean

/-- From worker 0's claim of A in the loop's round, the promise can still get its value. -/
theorem startLoop_can_settle_pair :
    (pairGraph.workerContexts = [] ∧ EdgesClosed chainHeap pairGraph.taskPool ∧
      (∀ n ∈ pairGraph.taskPool, ¬ TransGen (PredEdge chainHeap) n n) ∧
      1 ≤ pairGraph.threadCount ∧
      ExecReach ⟨⟨⟨chainHeap, pairGraph, []⟩, none⟩, Executor.startLoop 1⟩ pairLaunched ∧
      ¬ Faulted pairLaunched.run.sys.log) ∧
    ∃ es', ExecReach pairLaunched es' ∧ es'.pc = .setValue ∧
      ∀ t ∈ pairGraph.taskPool, es'.run.sys.states t = .completed := by
  obtain ⟨es', reach, settled, -, -, done⟩ := startLoop_can_settle rfl pairGraph_closed
    pairGraph_acyclic (by decide) startLoop_reaches_pairLaunched pairLaunched_clean
  exact ⟨⟨rfl, pairGraph_closed, pairGraph_acyclic, by decide, startLoop_reaches_pairLaunched,
    pairLaunched_clean⟩, es', reach, settled, done (by decide)⟩

/-- On a graph handed over at rest, whose edges stay in its pool and form no cycle, with at least
one thread: from every point of `Executor::start` at which no payload has thrown and `terminate()`
has not been called, the workers and the thread can go on until the promise holds its value, with
every pool node completed and the graph at rest again. -/
theorem start_can_settle (idle : Idle g) (closed : EdgesClosed heap g.taskPool)
    (acyclic : ∀ n ∈ g.taskPool, ¬ TransGen (PredEdge heap) n n) (threads : 1 ≤ g.threadCount)
    (run : ExecReach ⟨⟨⟨heap, g, []⟩, none⟩, Executor.start⟩ es)
    (clean : ¬ Faulted es.run.sys.log) :
    ∃ es', ExecReach es es' ∧ es'.pc = .setValue ∧ ¬ Faulted es'.run.sys.log ∧
      Idle es'.run.sys.graph ∧ ∀ t ∈ g.taskPool, es'.run.sys.states t = .completed := by
  obtain ⟨es', reach, settled, clean', idle', done⟩ :=
    ((ExecInv.launchStart idle).reach run).settles closed acyclic threads clean
  exact ⟨es', reach, settled, clean', idle', done Nat.one_pos⟩

theorem start_can_settle_pair :
    (Idle pairGraph ∧ EdgesClosed chainHeap pairGraph.taskPool ∧
      (∀ n ∈ pairGraph.taskPool, ¬ TransGen (PredEdge chainHeap) n n) ∧
      1 ≤ pairGraph.threadCount ∧
      ExecReach ⟨⟨⟨chainHeap, pairGraph, []⟩, none⟩, Executor.start⟩ pairLaunched ∧
      ¬ Faulted pairLaunched.run.sys.log) ∧
    ∃ es', ExecReach pairLaunched es' ∧ es'.pc = .setValue ∧
      ∀ t ∈ pairGraph.taskPool, es'.run.sys.states t = .completed := by
  obtain ⟨es', reach, settled, -, -, done⟩ := start_can_settle ⟨rfl, rfl⟩ pairGraph_closed
    pairGraph_acyclic (by decide) start_reaches_pairLaunched pairLaunched_clean
  exact ⟨⟨⟨rfl, rfl⟩, pairGraph_closed, pairGraph_acyclic, by decide, start_reaches_pairLaunched,
    pairLaunched_clean⟩, es', reach, settled, done⟩

end Promise

end Athread
