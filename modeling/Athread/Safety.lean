import Athread.Run
import Athread.TraceReturns

/-!
# What a started run guarantees

The invariants of `Athread.Run`, read back as properties of the runs `ThreadGraph::start` begins:

* `run_respects_dependencies`: a node becomes EXECUTING only in a worker's locked section, while it
  is READY with every predecessor COMPLETED; states only advance READY, EXECUTING, COMPLETED; a
  node becomes COMPLETED only after its payload returned; every predecessor returned before its
  successor started; and nothing downstream of a payload that threw is ever started.
* `run_claims_each_once`: each payload runs at most once; a run with no throw and no
  `terminate()` whose workers have all exited has run every pool node exactly once; and a
  COMPLETED verdict is given only once every pool node is COMPLETED.
* `run_cache_exact`: the ready cache is always the pool's READY nodes, in pool order.
* `run_tracing_steps`: on a pool without cycles, a worker in its locked section can always leave
  it, since its trace returns at a depth of the pool's size.

The run `pairRun` of the pool `[A, B]` with `B.depend(A)` and two workers instances each of them:
worker 0 claims A from the null hint, runs it, claims B from the hint A, runs it and exits, and
worker 1 then finds the graph COMPLETED and exits.
-/

namespace Athread

open Relation

/-- One step of the life of a node in a run: READY, then EXECUTING, then COMPLETED. -/
def Advances (a b : RunnableState) : Prop :=
  a = b ∨ a = .ready ∧ b = .executing ∨ a = .executing ∧ b = .completed

section Runs

variable {s s' : Sys} {a : Action}

/-- The only steps that change a node's state: a claim of a claimable node, and the store after
the node's payload returned. -/
theorem RunInv.step_states (inv : RunInv s) (step : Step s a s') (n : NodeId) :
    s'.states n = s.states n ∨
    (∃ i, a = .claim i n) ∧ Runnable s.heap s.states n ∧ s'.states n = .executing ∨
    (∃ i, a = .store i n) ∧ s.states n = .executing ∧ .returned n ∈ s.log ∧
      s'.states n = .completed := by
  cases step with
  | @claim i _ _ _ m _ _ reads trace =>
    by_cases same : n = m
    · subst same
      exact .inr (.inl ⟨⟨i, rfl⟩, (traceReadyNode_sound reads inv.cacheExact trace).1, by simp⟩)
    · exact .inl (by simp [same])
  | @store i m current =>
    by_cases same : n = m
    · subst same
      obtain ⟨executing, returned, -⟩ := inv.workers i _ current
      exact .inr (.inr ⟨⟨i, rfl⟩, executing, returned, by simp⟩)
    · exact .inl (by simp [same])
  | _ => exact .inl rfl

/-- Every state a run started by `start()` reaches has the run invariant, and `PoolInv` too when
the graph's edges stay in its pool. -/
theorem start_reachable {heap heap' : Heap} {g g' : ThreadGraph}
    (started : start heap g = some (heap', g', none)) (reach : Reachable ⟨heap', g', []⟩ s) :
    RunInv s ∧ (EdgesClosed heap g.taskPool → PoolInv s) := by
  obtain ⟨g₀, samePool, -, -, launched⟩ := start_eq_launch started
  have init : (⟨heap', g', []⟩ : Sys) = Sys.launch heap g₀ := by simp [Sys.launch, ← launched]
  rw [init] at reach
  refine ⟨(runInv_launch heap g₀).reachable reach, fun closed => ?_⟩
  rw [← samePool] at closed
  exact ((poolInv_launch closed).reachable (runInv_launch heap g₀) reach).1

/-- On a pool without cycles the trace of a tracing worker returns, with the pool's size as depth
and loads of the current states. -/
theorem RunInv.trace_returns (inv : RunInv s) (pool : PoolInv s)
    (acyclic : ∀ n ∈ s.graph.taskPool, ¬ TransGen (PredEdge s.heap) n n) {i : Nat}
    {h : Option NodeId} (current : s.pc? i = some (.tracing h)) :
    ∃ r k, traceReadyNode s.heap (fun _ => s.states) s.graph s.graph.taskPool.length h 0 =
      some (r, k) := by
  have cached : ∀ e ∈ s.graph.readyTasksCache, e ∈ s.graph.taskPool := fun e member => by
    rw [inv.cache_eq] at member
    exact (List.mem_filter.1 member).1
  have hinted : ∀ e ∈ h, e ∈ s.graph.taskPool ∧ ∀ n ∈ (s.heap e).successors, n ∈ s.graph.taskPool :=
    fun e hint => ⟨pool.named i _ e current hint, (pool.closed e (pool.named i _ e current hint)).2⟩
  obtain ⟨⟨r, k⟩, trace⟩ := Option.isSome_iff_exists.1 (traceReadyNode_isSome
    (fun e member k => traceReadyDepend_returns (fun n pooled => (pool.closed n pooled).1) acyclic
      le_rfl (fun _ => s.states) [] member k) cached hinted 0)
  exact ⟨r, k, trace⟩

/-- On a pool without cycles a tracing worker can always end its locked section: its trace, with
the pool's size as depth and loads of the current states, returns, so the worker claims, blocks
or finishes. -/
theorem RunInv.tracing_steps (inv : RunInv s) (pool : PoolInv s)
    (acyclic : ∀ n ∈ s.graph.taskPool, ¬ TransGen (PredEdge s.heap) n n) {i : Nat}
    {h : Option NodeId} (current : s.pc? i = some (.tracing h)) :
    ∃ a s', Step s a s' ∧ ((∃ n, a = .claim i n) ∨ a = .block i ∨ a = .finish i) := by
  have reads := reads_const s.states
  obtain ⟨⟨verdict, x⟩, k, trace⟩ := inv.trace_returns pool acyclic current
  cases verdict
  · cases x with
    | none => exact (traceReadyNode_sound reads inv.cacheExact trace).elim
    | some n => exact ⟨_, _, .claim current reads trace, .inl ⟨n, rfl⟩⟩
  · exact ⟨_, _, .block current reads trace, .inr (.inl rfl)⟩
  · exact ⟨_, _, .finish current reads trace, .inr (.inr rfl)⟩

/-- The pool `[A, B]` of `chainHeap`, with the default two threads. -/
def pairGraph : ThreadGraph := { taskPool := [0, 1] }

def pairRun : Sys := Sys.launch chainHeap pairGraph

theorem pairRun_started : start chainHeap pairGraph = some (pairRun.heap, pairRun.graph, none) := rfl

theorem pairGraph_closed : EdgesClosed chainHeap pairGraph.taskPool := by
  unfold EdgesClosed
  decide

theorem pairGraph_acyclic : ∀ n ∈ pairGraph.taskPool, ¬ TransGen (PredEdge chainHeap) n n :=
  acyclic_of_lt (by decide) (by decide)

/-- Worker 0 has claimed A from the null hint. -/
def pairClaimed : Sys := (pairRun.setPc 0 (.tracing none)).claim 0 0

/-- Worker 0 has run A, claimed B from the hint A, run it, and is back in its trace with the hint
B; worker 1 has not loaded the flag yet. -/
def pairTraced : Sys :=
  let ranA := ((pairClaimed.setPc 0 (.finishing 0)).record (.returned 0)).store 0 0
  let tracedA := ((ranA.setPc 0 (.checking (some 0))).notifyAll).setPc 0 (.tracing (some 0))
  let ranB := (((tracedA.claim 0 1).setPc 0 (.finishing 1)).record (.returned 1)).store 0 1
  ((ranB.setPc 0 (.checking (some 1))).notifyAll).setPc 0 (.tracing (some 1))

/-- Worker 0 finds the graph COMPLETED and exits; then worker 1 does the same. -/
def pairDone : Sys :=
  let exited := ((pairTraced.setPc 0 .exiting).setPc 0 (.done none)).notifyAll
  (((exited.setPc 1 (.tracing none)).setPc 1 .exiting).setPc 1 (.done none)).notifyAll

theorem pairRun_checks : Reachable pairRun (pairRun.setPc 0 (.tracing none)) :=
  .step .refl (@Step.check _ 0 none (by decide))

theorem pairRun_claims : Step (pairRun.setPc 0 (.tracing none)) (.claim 0 0) pairClaimed :=
  @Step.claim _ 0 none _ 1 0 2 (by decide) (reads_const _) (by decide)

theorem pairRun_reaches_traced : Reachable pairRun pairTraced :=
  .step (.step (.step (.step (.step (.step (.step (.step (.step (.step pairRun_checks pairRun_claims)
    (.ret (by decide)))
    (.store (by decide)))
    (.notify (by decide)))
    (@Step.check _ 0 (some 0) (by decide)))
    (@Step.claim _ 0 (some 0) _ 1 1 8 (by decide) (reads_const _) (by decide)))
    (.ret (by decide)))
    (.store (by decide)))
    (.notify (by decide)))
    (@Step.check _ 0 (some 1) (by decide))

theorem pairTraced_finish : Step pairTraced (.finish 0) (pairTraced.setPc 0 .exiting) :=
  @Step.finish _ 0 (some 1) _ 1 none 5 (by decide) (reads_const _) (by decide)

theorem pairRun_reaches_done : Reachable pairRun pairDone :=
  .step (.step (.step (.step (.step pairRun_reaches_traced pairTraced_finish)
    (.exit (by decide)))
    (@Step.check _ 1 none (by decide)))
    (@Step.finish _ 1 none _ 1 none 2 (by decide) (reads_const _) (by decide)))
    (.exit (by decide))

/-- From `start()` on a graph whose edges stay in its pool and form no cycle, no worker is ever
stuck in its locked section. -/
theorem run_tracing_steps {heap heap' : Heap} {g g' : ThreadGraph}
    (started : start heap g = some (heap', g', none)) (closed : EdgesClosed heap g.taskPool)
    (acyclic : ∀ n ∈ g.taskPool, ¬ TransGen (PredEdge heap) n n)
    (reach : Reachable ⟨heap', g', []⟩ s) {i : Nat} {h : Option NodeId}
    (current : s.pc? i = some (.tracing h)) :
    ∃ a s', Step s a s' ∧ ((∃ n, a = .claim i n) ∨ a = .block i ∨ a = .finish i) := by
  obtain ⟨inv, pool⟩ := start_reachable started reach
  obtain ⟨g₀, samePool, -, -, launched⟩ := start_eq_launch started
  have init : (⟨heap', g', []⟩ : Sys) = Sys.launch heap g₀ := by simp [Sys.launch, ← launched]
  rw [init] at reach
  have edges : PredEdge s.heap = PredEdge heap := by
    funext a b
    simp only [PredEdge, reach.predecessors, Sys.predecessors_launch]
  refine inv.tracing_steps (pool closed) ?_ current
  rw [reach.taskPool, Sys.taskPool_launch, samePool, edges]
  exact acyclic

theorem run_tracing_steps_pair :
    (start chainHeap pairGraph = some (pairRun.heap, pairRun.graph, none) ∧
      EdgesClosed chainHeap pairGraph.taskPool ∧
      (∀ n ∈ pairGraph.taskPool, ¬ TransGen (PredEdge chainHeap) n n) ∧
      Reachable ⟨pairRun.heap, pairRun.graph, []⟩ pairTraced ∧
      pairTraced.pc? 0 = some (.tracing (some 1))) ∧
    ∃ a s', Step pairTraced a s' ∧ ((∃ n, a = .claim 0 n) ∨ a = .block 0 ∨ a = .finish 0) :=
  ⟨⟨pairRun_started, pairGraph_closed, pairGraph_acyclic, pairRun_reaches_traced, by decide⟩,
    run_tracing_steps pairRun_started pairGraph_closed pairGraph_acyclic pairRun_reaches_traced
      (by decide : pairTraced.pc? 0 = some (.tracing (some 1)))⟩

/-- Along predecessor edges into a claimed pool node, every node is COMPLETED. -/
theorem RunInv.completed_of_path (inv : RunInv s) (pool : PoolInv s) {P X : NodeId}
    (path : TransGen (PredEdge s.heap) P X) :
    X ∈ s.graph.taskPool → s.states X ≠ .ready → s.states P = .completed := by
  induction path with
  | single edge => exact fun pooled notReady => inv.claimed_preds _ pooled notReady P edge
  | tail _ edge inductionHypothesis =>
    intro pooled notReady
    have done := inv.claimed_preds _ pooled notReady _ edge
    exact inductionHypothesis ((pool.closed _ pooled).1 _ edge) (by simp [done])

theorem run_respects_dependencies {heap heap' : Heap} {g g' : ThreadGraph}
    (started : start heap g = some (heap', g', none)) (closed : EdgesClosed heap g.taskPool)
    (reach : Reachable ⟨heap', g', []⟩ s) (step : Step s a s') :
    (∀ n, s.states n ≠ .executing → s'.states n = .executing →
      (∃ i, a = .claim i n) ∧ Runnable s.heap s.states n) ∧
    (∀ n, Advances (s.states n) (s'.states n)) ∧
    (∀ n, s.states n ≠ .completed → s'.states n = .completed →
      (∃ i, a = .store i n) ∧ s.states n = .executing ∧ .returned n ∈ s.log) ∧
    (∀ S newer older, s.log = newer ++ .started S :: older →
      ∀ P ∈ (s.heap S).predecessors, .returned P ∈ older) ∧
    (∀ P e S, .threw P e ∈ s.log → TransGen (PredEdge s.heap) P S → .started S ∉ s.log) := by
  obtain ⟨inv, pool⟩ := start_reachable started reach
  have pool := pool closed
  refine ⟨fun n before after => ?_, fun n => ?_, fun n before after => ?_, ?_, ?_⟩
  · rcases inv.step_states step n with same | ⟨claim, runnable, -⟩ | ⟨-, -, -, done⟩
    · exact (before (same ▸ after)).elim
    · exact ⟨claim, runnable⟩
    · simp [done] at after
  · rcases inv.step_states step n with same | ⟨-, runnable, claimed⟩ | ⟨-, executing, -, done⟩
    · exact .inl same.symm
    · exact .inr (.inl ⟨runnable.1, claimed⟩)
    · exact .inr (.inr ⟨executing, done⟩)
  · rcases inv.step_states step n with same | ⟨-, -, claimed⟩ | ⟨store, executing, returned, -⟩
    · exact (before (same ▸ after)).elim
    · simp [claimed] at after
    · exact ⟨store, executing, returned⟩
  · intro S newer older split P pred
    have pooled := pool.started_pooled S (by simp [split])
    exact inv.returned_before S newer older split P pred ((pool.closed S pooled).1 P pred)
  · intro P e S threw path started
    have done := inv.completed_of_path pool path (pool.started_pooled S started)
      (inv.started_not_ready S started)
    simp [inv.threw_executing P e threw] at done

/-- Worker 0's claim of A: A was READY with no predecessor, and is EXECUTING after it. -/
theorem run_respects_dependencies_pair :
    (start chainHeap pairGraph = some (pairRun.heap, pairRun.graph, none) ∧
      EdgesClosed chainHeap pairGraph.taskPool ∧
      Reachable ⟨pairRun.heap, pairRun.graph, []⟩ (pairRun.setPc 0 (.tracing none)) ∧
      Step (pairRun.setPc 0 (.tracing none)) (.claim 0 0) pairClaimed) ∧
    (pairRun.setPc 0 (.tracing none)).states 0 = .ready ∧ pairClaimed.states 0 = .executing ∧
    Runnable (pairRun.setPc 0 (.tracing none)).heap (pairRun.setPc 0 (.tracing none)).states 0 :=
  ⟨⟨pairRun_started, pairGraph_closed, pairRun_checks, pairRun_claims⟩, by decide, by decide,
    ((run_respects_dependencies pairRun_started pairGraph_closed pairRun_checks pairRun_claims).1 0
      (by decide) (by decide)).2⟩

theorem run_claims_each_once {heap heap' : Heap} {g g' : ThreadGraph}
    (started : start heap g = some (heap', g', none)) (threads : 1 ≤ g.threadCount)
    (reach : Reachable ⟨heap', g', []⟩ s) :
    (∀ n, s.log.count (.started n) ≤ 1) ∧
    (¬ Faulted s.log → (∀ c ∈ s.graph.workerContexts, ∃ r, c.pc = .done r) →
      ∀ t ∈ s.graph.taskPool, s.states t = .completed ∧ s.log.count (.started t) = 1 ∧
        .returned t ∈ s.log) ∧
    (∀ i s', Step s (.finish i) s' → ∀ t ∈ s.graph.taskPool, s.states t = .completed) := by
  obtain ⟨inv, -⟩ := start_reachable started reach
  refine ⟨inv.started_once, fun clean exited t member => ?_, fun i s' step => ?_⟩
  · obtain ⟨samePool, launched⟩ := start_workers started
    have someWorker : 0 < s.graph.workerContexts.length := by
      have pooled : 0 < g.taskPool.length := by
        rw [← samePool]
        exact List.length_pos_of_mem (by simpa [reach.taskPool] using member)
      rw [reach.contexts_length, launched]
      unfold ThreadGraph.numThreads
      split <;> omega
    obtain ⟨c, rest, first⟩ := List.exists_cons_of_length_pos someWorker
    obtain ⟨r, exit⟩ := exited c (by simp [first])
    have ok := inv.workers 0 c.pc (by simp [Sys.pc?, first])
    rw [exit] at ok
    have done : s.states t = .completed := by
      cases r with
      | none => exact (ok.resolve_right clean) t member
      | some e =>
        obtain ⟨n, threw⟩ := ok
        exact (clean (.inr ⟨n, e, threw⟩)).elim
    have startedT := inv.pool_started t member (by simp [done])
    exact ⟨done, le_antisymm (inv.started_once t) (List.count_pos_iff.2 startedT),
      inv.completed_returned t member done⟩
  · cases step with
    | finish current reads trace => exact traceReadyNode_sound reads inv.cacheExact trace

/-- The run where worker 0 runs A then B and both workers exit: worker 0's finish comes after
both nodes completed, and at the end each node ran once. -/
theorem run_claims_each_once_pair :
    (start chainHeap pairGraph = some (pairRun.heap, pairRun.graph, none) ∧
      1 ≤ pairGraph.threadCount ∧ Reachable ⟨pairRun.heap, pairRun.graph, []⟩ pairTraced ∧
      Step pairTraced (.finish 0) (pairTraced.setPc 0 .exiting) ∧
      Reachable ⟨pairRun.heap, pairRun.graph, []⟩ pairDone ∧ ¬ Faulted pairDone.log ∧
      ∀ c ∈ pairDone.graph.workerContexts, ∃ r, c.pc = .done r) ∧
    (∀ t ∈ pairTraced.graph.taskPool, pairTraced.states t = .completed) ∧
    ∀ t ∈ pairDone.graph.taskPool, pairDone.states t = .completed ∧
      pairDone.log.count (.started t) = 1 ∧ .returned t ∈ pairDone.log := by
  have clean : ¬ Faulted pairDone.log := by
    have log : pairDone.log = [.returned 1, .started 1, .returned 0, .started 0] := rfl
    simp [Faulted, log]
  have exited : ∀ c ∈ pairDone.graph.workerContexts, ∃ r, c.pc = .done r := by
    have done : ∀ c ∈ pairDone.graph.workerContexts, c.pc = .done none := by decide
    exact fun c member => ⟨none, done c member⟩
  have threads : 1 ≤ pairGraph.threadCount := by decide
  exact ⟨⟨pairRun_started, threads, pairRun_reaches_traced, pairTraced_finish, pairRun_reaches_done, clean,
      exited⟩,
    (run_claims_each_once pairRun_started threads pairRun_reaches_traced).2.2 0 _ pairTraced_finish,
    (run_claims_each_once pairRun_started threads pairRun_reaches_done).2.1 clean exited⟩

/-- From `start()` on, in every reachable state, `_ready_tasks_cache` is the subsequence of the
pool made of its READY nodes: without duplicates, and with no EXECUTING or COMPLETED node. -/
theorem run_cache_exact {heap heap' : Heap} {g g' : ThreadGraph}
    (started : start heap g = some (heap', g', none)) (reach : Reachable ⟨heap', g', []⟩ s) :
    s.graph.readyTasksCache = s.graph.taskPool.filter (s.states · = .ready) ∧
    s.graph.readyTasksCache.Nodup ∧ ∀ n ∈ s.graph.readyTasksCache, s.states n = .ready := by
  obtain ⟨inv, -⟩ := start_reachable started reach
  rw [inv.cache_eq]
  exact ⟨rfl, s.graph.taskPool_nodup.filter _,
    fun n member => by simpa using (List.mem_filter.1 member).2⟩

/-- After worker 0's claim of A, the cache holds B alone. -/
theorem run_cache_exact_pair :
    (start chainHeap pairGraph = some (pairRun.heap, pairRun.graph, none) ∧
      Reachable ⟨pairRun.heap, pairRun.graph, []⟩ pairClaimed) ∧
    pairClaimed.graph.readyTasksCache = [1] ∧
    pairClaimed.graph.readyTasksCache =
      pairClaimed.graph.taskPool.filter (pairClaimed.states · = .ready) ∧
    pairClaimed.graph.readyTasksCache.Nodup ∧
    ∀ n ∈ pairClaimed.graph.readyTasksCache, pairClaimed.states n = .ready :=
  ⟨⟨pairRun_started, .step pairRun_checks pairRun_claims⟩, by decide,
    run_cache_exact pairRun_started (.step pairRun_checks pairRun_claims)⟩

end Runs

end Athread
