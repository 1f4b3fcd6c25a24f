import Athread.Safety

/-!
# Two schedules of a started run

Runs that `ThreadGraph::start` can take, built step by step over the graph `B.depend(A)` with two
workers:

* `run_reaches_lost_wakeup`: A's payload throws. Worker 1 loads the clear termination flag, then
  worker 0 sets it and broadcasts from its `catch` without taking `_tasks_mutex`, and exits; worker
  1 then traces, gets `(PENDING, A)` and blocks. No worker is left to notify it: from this state
  only a spurious wakeup moves a worker (`Stuck.step`), so `wait()` need never return.
* `run_blocks_beside_runnable`: with a third node C that depends on nothing, worker 1 blocks on
  `(PENDING, A)` while C is claimable, since the trace from the null hint searches only the
  ancestry of the first cached node.
-/

namespace Athread

/-- Worker `i` is blocked on `_task_available_condition` and every other worker has exited or is
blocked too. -/
def Stuck (s : Sys) (i : Nat) : Prop :=
  (∃ h, s.pc? i = some (.waiting h)) ∧
    ∀ j pc, j ≠ i → s.pc? j = some pc → (∃ r, pc = .done r) ∨ ∃ h, pc = .waiting h

/-- In a stuck state every worker has exited or is blocked. -/
theorem Stuck.blocked {s : Sys} {i : Nat} (stuck : Stuck s i) :
    ∀ j pc, s.pc? j = some pc → (∃ r, pc = .done r) ∨ ∃ h, pc = .waiting h := by
  obtain ⟨⟨h, waiting⟩, others⟩ := stuck
  intro j pc current
  by_cases same : j = i
  · subst same
    rw [waiting] at current
    cases current
    exact .inr ⟨h, rfl⟩
  · exact others j pc same current

/-- From a stuck state only a spurious wakeup moves a worker; `terminate()` wakes no one. -/
theorem Stuck.step {s s' : Sys} {i : Nat} {a : Action} (stuck : Stuck s i) (step : Step s a s') :
    (∃ j, a = .spurious j) ∨ a = .terminate ∧ Stuck s' i := by
  cases step with
  | spurious => exact .inl ⟨_, rfl⟩
  | terminate => exact .inr ⟨rfl, stuck⟩
  | check current | claim current | block current | finish current | ret current | store current
    | notify current | exit current | flag current | raise current =>
    simpa using stuck.blocked _ _ current
  | throw e current => simpa using stuck.blocked _ _ current

/-- What A's payload throws. -/
def boom : Thrown := .runtimeError "boom"

/-- Worker 0 claims A; worker 1 loads the clear flag; A throws and worker 0 sets the flag,
broadcasts and exits; worker 1 traces and blocks. -/
def lostWakeup : Sys :=
  let traced := ((pairRun.setPc 0 (.tracing none)).claim 0 0).setPc 1 (.tracing none)
  let raised := ((((traced.setPc 0 (.caught boom)).record (.threw 0 boom)).setPc 0
    (.raising boom)).setFlag.setPc 0 (.done (some boom))).notifyAll
  raised.setPc 1 (.waiting (some 0))

/-- In `lostWakeup`, worker 0 has exited and worker 1 waits for a broadcast no one will send. -/
theorem lostWakeup_stuck : Stuck lostWakeup 1 := by
  refine ⟨⟨some 0, by decide⟩, fun j pc other current => ?_⟩
  have exited : lostWakeup.pc? 0 = some (.done (some boom)) := by decide
  have beyond : ∀ j, lostWakeup.pc? (j + 2) = none := fun j => by
    simp [lostWakeup, pairRun, pairGraph, ThreadGraph.numThreads]
  rcases j with _ | _ | j
  · rw [exited] at current
    cases current
    exact .inl ⟨_, rfl⟩
  · exact (other rfl).elim
  · rw [beyond] at current
    cases current

theorem run_reaches_lost_wakeup :
    start chainHeap pairGraph = some (pairRun.heap, pairRun.graph, none) ∧
      Reachable pairRun lostWakeup ∧ Stuck lostWakeup 1 := by
  refine ⟨rfl, ?_, lostWakeup_stuck⟩
  exact .step (.step (.step (.step (.step (.step (.step .refl
    (@Step.check _ 0 none (by decide)))
    (@Step.claim _ 0 none _ 1 0 2 (by decide) (reads_const _) (by decide)))
    (@Step.check _ 1 none (by decide)))
    (.throw boom (by decide)))
    (.flag (by decide)))
    (.raise (by decide)))
    (@Step.block _ 1 none _ 1 (some 0) 4 (by decide) (reads_const _) (by decide))

/-- The pool `[A, B, C]` of `chainHeap`: only B has a predecessor. -/
def chainStart : ThreadGraph := { taskPool := [0, 1, 2] }

def chainRun : Sys := Sys.launch chainHeap chainStart

/-- Worker 0 has claimed A, and worker 1 has found the flag clear. -/
def chainClaimed : Sys := ((chainRun.setPc 0 (.tracing none)).claim 0 0).setPc 1 (.tracing none)

theorem run_blocks_beside_runnable :
    start chainHeap chainStart = some (chainRun.heap, chainRun.graph, none) ∧
      Reachable chainRun chainClaimed ∧
      traceReadyNode chainClaimed.heap (fun _ => chainClaimed.states) chainClaimed.graph 1 none 0 =
        some ((.pending, some 0), 4) ∧
      Step chainClaimed (.block 1) (chainClaimed.setPc 1 (.waiting (some 0))) ∧
      2 ∈ chainClaimed.graph.taskPool ∧ Runnable chainClaimed.heap chainClaimed.states 2 := by
  have trace : traceReadyNode chainClaimed.heap (fun _ => chainClaimed.states) chainClaimed.graph 1
      none 0 = some ((.pending, some 0), 4) := by decide
  refine ⟨rfl, ?_, trace, .block (by decide) (reads_const _) trace, by decide, by decide, ?_⟩
  · exact .step (.step (.step .refl (@Step.check _ 0 none (by decide)))
      (@Step.claim _ 0 none _ 1 0 2 (by decide) (reads_const _) (by decide)))
      (@Step.check _ 1 none (by decide))
  · simp [chainClaimed, chainRun, chainHeap]

end Athread
