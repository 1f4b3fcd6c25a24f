import Athread.Waits

/-!
# `wait_for` and its deadline

`ThreadGraph::wait_for(timeout)` reads the clock once to fix a deadline, then waits on each valid
worker future in turn with the time that is left, and reads the clock again after each one. It
returns TIMEOUT when a future is not ready in time, or when no time is left once it is; only past
the last future does it call `wait()` and return READY.

The clock is explicit: worker `i`'s future becomes ready at time `readyAt i`, and the clock moves
only while a `future.wait_for` blocks, so each call returns at the earliest moment it can.

* `waitForFutures_iff`: the loop runs to its end exactly when every valid future became ready
  strictly before the deadline, and the call itself began before it.
* `waitFor_of_finished`: then `wait_for` is `wait()`; with every worker finished, it resets the
  graph and returns READY, or raises when a future held an exception.
* `waitFor_eq_timeout_iff`, `waitFor_timeout_of_nonpos`: otherwise it answers TIMEOUT and leaves
  the graph as it was. With a timeout of zero this is the answer while any future is valid,
  however long ago its worker finished: polling `wait_for(0)` never sees READY, and the graph
  stays executing until a `wait()`.
-/

namespace Athread

/-- `at::WaitStatus` (athread.h). -/
inductive WaitStatus where
  | ready
  | timeout
  | interrupted
  deriving DecidableEq, Repr

/-- The future loop of `ThreadGraph::wait_for`, at context `i`, time `now`, deadline `endTime`
and `remaining` left: `true` when it runs past the last context. `future.wait_for(remaining)`
returns when the future becomes ready, at once if it already is, and times out at
`now + remaining` (at once for a duration that is not positive). -/
def waitForFutures (readyAt : Nat → Int) (endTime : Int) :
    List WorkerContext → Nat → Int → Int → Bool
  | [], _, _, _ => true
  | c :: cs, i, now, remaining =>
    if !c.futureValid then waitForFutures readyAt endTime cs (i + 1) now remaining
    else if now + max remaining 0 < readyAt i then false
    else
      let now := max now (readyAt i)
      if endTime - now ≤ 0 then false
      else waitForFutures readyAt endTime cs (i + 1) now (endTime - now)

/-- `ThreadGraph::wait_for(timeout)`, called at time `now`; `g` is the graph when its loop ends.
The loop reads only which futures are valid, and only the client changes that. -/
def waitFor (readyAt : Nat → Int) (now timeout : Int) (g : ThreadGraph) :
    Option (ThreadGraph × Except Thrown WaitStatus) :=
  if waitForFutures readyAt (now + timeout) g.workerContexts 0 now timeout then
    (wait g).map fun (g', raised) =>
      (g', match raised with
        | some e => .error e
        | none => .ok .ready)
  else some (g, .ok .timeout)

/-- The times at which the valid futures from context `i` on become ready. -/
def readyTimes (readyAt : Nat → Int) : List WorkerContext → Nat → List Int
  | [], _ => []
  | c :: cs, i =>
    if c.futureValid then readyAt i :: readyTimes readyAt cs (i + 1)
    else readyTimes readyAt cs (i + 1)

theorem readyTimes_ne_nil {readyAt : Nat → Int} {cs : List WorkerContext}
    (valid : ∃ c ∈ cs, c.futureValid = true) (i : Nat) : readyTimes readyAt cs i ≠ [] := by
  induction cs generalizing i with
  | nil => simp at valid
  | cons c cs inductionHypothesis =>
    obtain ⟨c', member, valid'⟩ := valid
    unfold readyTimes
    split
    · exact List.cons_ne_nil _ _
    · rename_i invalid
      rcases List.mem_cons.1 member with rfl | later
      · exact (invalid valid').elim
      · exact inductionHypothesis ⟨c', later, valid'⟩ (i + 1)

/-- The loop runs to its end exactly when each valid future from context `i` on became ready
strictly before the deadline, and the loop began before it. -/
theorem waitForFutures_iff (readyAt : Nat → Int) (endTime : Int) (cs : List WorkerContext)
    (i : Nat) (now : Int) :
    waitForFutures readyAt endTime cs i now (endTime - now) = true ↔
      ∀ t ∈ readyTimes readyAt cs i, max now t < endTime := by
  induction cs generalizing i now with
  | nil => simp [waitForFutures, readyTimes]
  | cons c cs inductionHypothesis =>
    cases valid : c.futureValid
    · simp [waitForFutures, readyTimes, valid, inductionHypothesis]
    · simp only [waitForFutures, readyTimes, valid, Bool.not_true, Bool.false_eq_true, if_false,
        if_true, List.forall_mem_cons]
      by_cases inTime : max now (readyAt i) < endTime
      · have notLate : ¬ now + max (endTime - now) 0 < readyAt i := by omega
        have left : ¬ endTime - max now (readyAt i) ≤ 0 := by omega
        rw [if_neg notLate, if_neg left, inductionHypothesis, and_iff_right inTime]
        exact forall₂_congr fun t _ => by omega
      · simp only [inTime, false_and, iff_false]
        split_ifs with late left
        · exact not_false
        · exact not_false
        · exact (inTime (by omega)).elim

/-- `wait_for` runs its loop from the call's own time, with the whole timeout left. -/
theorem waitFor_loop_iff (readyAt : Nat → Int) (now timeout : Int) (g : ThreadGraph) :
    waitForFutures readyAt (now + timeout) g.workerContexts 0 now timeout = true ↔
      ∀ t ∈ readyTimes readyAt g.workerContexts 0, max now t < now + timeout := by
  have loop := waitForFutures_iff readyAt (now + timeout) g.workerContexts 0 now
  have whole : now + timeout - now = timeout := by omega
  rwa [whole] at loop

/-- `wait_for` answers TIMEOUT exactly when some valid future became ready only at the deadline or
later, or the call began at the deadline or later; it then leaves the graph as it was. -/
theorem waitFor_eq_timeout_iff (readyAt : Nat → Int) (now timeout : Int) (g : ThreadGraph) :
    waitFor readyAt now timeout g = some (g, .ok .timeout) ↔
      ∃ t ∈ readyTimes readyAt g.workerContexts 0, now + timeout ≤ max now t := by
  unfold waitFor
  split
  · rename_i loop
    have inTime := (waitFor_loop_iff readyAt now timeout g).1 loop
    refine iff_of_false (fun waited => ?_)
      fun ⟨t, member, late⟩ => (inTime t member).not_le late
    obtain ⟨⟨g', raised⟩, -, same⟩ := Option.map_eq_some'.1 waited
    cases raised <;> simp at same
  · rename_i late
    rw [waitFor_loop_iff] at late
    push_neg at late
    exact iff_of_true rfl late

/-- A timeout that is not positive leaves no time after the first valid future: `wait_for`
answers TIMEOUT and leaves the graph as it was, however long ago every worker finished. -/
theorem waitFor_timeout_of_nonpos {readyAt : Nat → Int} {now timeout : Int} {g : ThreadGraph}
    (noTime : timeout ≤ 0) (valid : ∃ c ∈ g.workerContexts, c.futureValid = true) :
    waitFor readyAt now timeout g = some (g, .ok .timeout) := by
  obtain ⟨t, member⟩ := List.exists_mem_of_ne_nil _ (readyTimes_ne_nil valid 0)
  exact (waitFor_eq_timeout_iff readyAt now timeout g).2 ⟨t, member, by omega⟩

example : waitFor (fun _ => 0) 5 0 { workerContexts := [{ pc := .done none }] } =
    some ({ workerContexts := [{ pc := .done none }] }, .ok .timeout) := rfl

example : waitFor (fun _ => 0) 5 1 { workerContexts := [{ pc := .done none }] } =
    some (ThreadGraph.reset
      { workerContexts := [{ pc := .done none, futureValid := false, joinable := false }] },
      .ok .ready) := rfl

/-! ## `wait_for` during a run -/

@[simp] theorem Sys.futures_setPc (s : Sys) (i : Nat) (pc : WorkerPc) :
    (s.setPc i pc).graph.workerContexts.map (·.futureValid) =
      s.graph.workerContexts.map (·.futureValid) := by
  apply List.ext_getElem?
  intro j
  simp only [Sys.setPc, List.getElem?_map, List.getElem?_modify]
  split <;> cases s.graph.workerContexts[j]? <;> rfl

@[simp] theorem Sys.futures_notifyAll (s : Sys) :
    s.notifyAll.graph.workerContexts.map (·.futureValid) =
      s.graph.workerContexts.map (·.futureValid) := by
  simp [Sys.notifyAll]

@[simp] theorem Sys.executing_setPc (s : Sys) (i : Nat) (pc : WorkerPc) :
    (s.setPc i pc).graph.executingFlag = s.graph.executingFlag := rfl
@[simp] theorem Sys.executing_notifyAll (s : Sys) :
    s.notifyAll.graph.executingFlag = s.graph.executingFlag := rfl

/-- The workers leave alone what `wait_for` reads: which futures are valid, and the executing
flag. -/
theorem Step.futures_keep {s s' : Sys} {a : Action} (step : Step s a s') :
    s'.graph.workerContexts.map (·.futureValid) = s.graph.workerContexts.map (·.futureValid) ∧
      s'.graph.executingFlag = s.graph.executingFlag := by
  cases step <;> simp [Sys.claim, Sys.store, Sys.record, Sys.setFlag, ThreadGraph.removeReadyCache]

theorem Reachable.futures_keep {s₀ s : Sys} (reach : Reachable s₀ s) :
    s.graph.workerContexts.map (·.futureValid) = s₀.graph.workerContexts.map (·.futureValid) ∧
      s.graph.executingFlag = s₀.graph.executingFlag := by
  induction reach with
  | refl => exact ⟨rfl, rfl⟩
  | step _ step inductionHypothesis =>
    obtain ⟨futures, executing⟩ := step.futures_keep
    exact ⟨futures.trans inductionHypothesis.1, executing.trans inductionHypothesis.2⟩

/-- In a run that `start()` launched, every worker's future is still to be consumed. -/
theorem Reachable.futureValid {heap : Heap} {g : ThreadGraph} {s : Sys}
    (reach : Reachable (Sys.launch heap g) s)
    {c : WorkerContext} (member : c ∈ s.graph.workerContexts) : c.futureValid = true := by
  have valid : c.futureValid ∈ s.graph.workerContexts.map (·.futureValid) :=
    List.mem_map_of_mem _ member
  rw [reach.futures_keep.1] at valid
  simp [Sys.launch, startAfterWait_workerContexts] at valid
  exact valid.2

/-- In every state of a run that `start()` began with at least one worker, `wait_for` with a
timeout that is not positive answers TIMEOUT and leaves the graph executing: even once every
worker has finished, only `wait()` ends the run. -/
theorem waitFor_nonpos_during_run {heap heap' : Heap} {g g' : ThreadGraph} {s : Sys}
    (started : start heap g = some (heap', g', none)) (workers : 0 < g.numThreads)
    (reach : Reachable ⟨heap', g', []⟩ s) (readyAt : Nat → Int) {now timeout : Int}
    (noTime : timeout ≤ 0) :
    waitFor readyAt now timeout s.graph = some (s.graph, .ok .timeout) ∧
      s.graph.executing = true := by
  obtain ⟨g₀, samePool, sameCount, sameOptimized, launched⟩ := start_eq_launch started
  obtain ⟨-, rfl⟩ := Prod.ext_iff.1 launched
  have sameThreads : g₀.numThreads = g.numThreads := by
    simp only [ThreadGraph.numThreads, samePool, sameCount, sameOptimized]
  obtain ⟨futures, executing⟩ := reach.futures_keep
  have valid : ∃ c ∈ s.graph.workerContexts, c.futureValid = true := by
    have member : true ∈ s.graph.workerContexts.map (·.futureValid) := by
      simp only [futures, startAfterWait_workerContexts, List.map_replicate]
      exact List.mem_replicate.2 ⟨by omega, rfl⟩
    simpa using member
  exact ⟨waitFor_timeout_of_nonpos noTime valid, executing⟩

/-- Polling `wait_for(0)` while worker 0 runs A answers TIMEOUT. -/
theorem waitFor_nonpos_during_run_claimed :
    (start chainHeap pairGraph = some (pairRun.heap, pairRun.graph, none) ∧
      0 < pairGraph.numThreads ∧ Reachable ⟨pairRun.heap, pairRun.graph, []⟩ pairClaimed ∧
      (0 : Int) ≤ 0) ∧
    waitFor (fun _ => 0) 0 0 pairClaimed.graph = some (pairClaimed.graph, .ok .timeout) ∧
      pairClaimed.graph.executing = true :=
  ⟨⟨pairRun_started, by decide, .step pairRun_checks pairRun_claims, le_rfl⟩,
    waitFor_nonpos_during_run pairRun_started (by decide) (.step pairRun_checks pairRun_claims)
      (fun _ => 0) le_rfl⟩

end Athread
