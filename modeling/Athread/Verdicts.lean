import Athread.TraceSound

/-!
# The verdicts of `trace_ready_node`

What a worker may conclude from the pair `trace_ready_node` returns, for a graph whose edges stay
in its pool, a ready cache holding exactly the READY pool nodes, and a hint that is `nullptr` or
a pool node. Other workers may complete nodes while the trace runs, so "when the trace began"
and "when it returns" must be told apart:

* a READY verdict names a pool node that is claimable when the trace returns;
* a COMPLETED verdict is given only if every pool node is COMPLETED when the trace returns, and is
  always given if every pool node was COMPLETED when it began;
* a PENDING verdict names a node that was EXECUTING when the trace began, and that node may have
  completed before the trace returns.

A PENDING verdict also says nothing about the READY nodes outside the ancestries the trace
searched: those of the hint, of the first cached node, and of the successors of a hint that was
EXECUTING or COMPLETED.
-/

namespace Athread

open Relation

/-- Walking predecessor edges backwards from a pool node stays in a closed pool. -/
theorem EdgesClosed.pooled_of_path {heap : Heap} {pool : List NodeId} (closed : EdgesClosed heap pool)
    {n e : NodeId} (path : ReflTransGen (PredEdge heap) n e) (pooled : e ∈ pool) : n ∈ pool := by
  induction path with
  | refl => exact pooled
  | tail _ edge inductionHypothesis => exact inductionHypothesis ((closed _ pooled).1 _ edge)

theorem CacheExact.of_reads {g : ThreadGraph} {view : View} {start now : NodeId → RunnableState}
    (reads : Reads view now) (starts : StartsAt view start) (cache : CacheExact g start) :
    CacheExact g now := fun t => by
  rw [cache t, ← reads.ready_iff 0 t]
  constructor
  · rintro ⟨pooled, ready⟩
    exact ⟨pooled, starts.ready reads ready 0⟩
  · rintro ⟨pooled, ready⟩
    exact ⟨pooled, by simpa [ready] using starts t⟩

/-- The nodes whose ancestries a trace searches are pool nodes. -/
theorem Searched.pooled {heap : Heap} {g : ThreadGraph} {st : NodeId → RunnableState}
    {hint : Option NodeId} {e : NodeId} (closed : EdgesClosed heap g.taskPool) (cache : CacheExact g st)
    (pooled : ∀ h, hint = some h → h ∈ g.taskPool) (searched : Searched heap g hint e) :
    e ∈ g.taskPool := by
  rcases searched with cached | rfl | ⟨h, rfl, successor⟩
  · exact ((cache e).1 cached).1
  · exact pooled e rfl
  · exact (closed h (pooled h rfl)).2 e successor

/-- A trace of a graph whose edges stay in its pool names only pool nodes in its READY and PENDING
verdicts. -/
theorem traceReadyNode_pooled {heap : Heap} {g : ThreadGraph} {view : View}
    {now : NodeId → RunnableState} {hint : Option NodeId} {fuel k : Nat} {verdict : TraceNodeState}
    {n : NodeId} (closed : EdgesClosed heap g.taskPool) (cache : CacheExact g now)
    (pooled : ∀ h, hint = some h → h ∈ g.taskPool) (reads : Reads view now)
    (trace : traceReadyNode heap view g fuel hint 0 = some ((verdict, some n), k))
    (named : verdict ≠ .completed) : n ∈ g.taskPool := by
  have sound := traceReadyNode_sound reads cache trace
  cases verdict with
  | ready =>
    obtain ⟨-, e, searched, path⟩ := sound
    exact closed.pooled_of_path path (searched.pooled closed cache pooled)
  | pending =>
    rcases sound.2 with ⟨e, searched, path⟩ | member
    · exact closed.pooled_of_path path (searched.pooled closed cache pooled)
    · exact member
  | completed => exact (named rfl).elim

/-- The pool `[A, B, C]` with `B` depending on `A`, as `B.depend(A)` leaves it. -/
def chainHeap : Heap := fun n =>
  if n = 0 then { successors := [1] } else if n = 1 then { predecessors := [0] } else {}

/-- `A` claimed by one worker, `B` and `C` still cached. -/
def chainGraph : ThreadGraph := { taskPool := [0, 1, 2], readyTasksCache := [1, 2] }

def chainStates : NodeId → RunnableState := fun n => if n = 0 then .executing else .ready

theorem chainGraph_closed : EdgesClosed chainHeap chainGraph.taskPool := by
  unfold EdgesClosed
  decide

theorem chainGraph_cached : CacheExact chainGraph chainStates := fun t => by
  by_cases zero : t = 0 <;> simp [chainGraph, chainStates, zero]

section Verdicts

variable {heap : Heap} {g : ThreadGraph} {view : View} {start now : NodeId → RunnableState}
  {hint : Option NodeId} {fuel : Nat}

theorem traceReadyNode_verdicts (closed : EdgesClosed heap g.taskPool) (cache : CacheExact g start)
    (pooled : ∀ h, hint = some h → h ∈ g.taskPool) (reads : Reads view now)
    (starts : StartsAt view start) :
    (∀ r k', traceReadyNode heap view g fuel hint 0 = some (r, k') → r.1 = .ready →
      ∃ n, r.2 = some n ∧ n ∈ g.taskPool ∧ Runnable heap now n) ∧
    (∀ x k', traceReadyNode heap view g fuel hint 0 = some ((.completed, x), k') →
      ∀ t ∈ g.taskPool, now t = .completed) ∧
    ((∀ t ∈ g.taskPool, start t = .completed) →
      ∃ k', traceReadyNode heap view g fuel hint 0 = some ((.completed, none), k')) ∧
    (∀ x k', traceReadyNode heap view g fuel hint 0 = some ((.pending, x), k') →
      ∃ n, x = some n ∧ start n = .executing) := by
  have sound := fun {r k'} (trace : traceReadyNode heap view g fuel hint 0 = some (r, k')) =>
    traceReadyNode_sound reads (cache.of_reads reads starts) trace
  refine ⟨fun r k' trace ready => ?_, fun x k' trace => sound trace,
    fun done => traceReadyNode_of_completed reads starts closed cache pooled done fuel 0,
    fun x k' trace => ?_⟩
  · rcases r with ⟨_ | _ | _, _ | n⟩ <;> cases ready
    · exact (sound trace).elim
    · exact ⟨n, rfl, traceReadyNode_pooled closed (cache.of_reads reads starts) pooled reads trace
        (by simp), (sound trace).1⟩
  · rcases x with _ | n
    · exact (sound trace).elim
    · obtain ⟨⟨j, executing⟩, _⟩ := sound trace
      exact ⟨n, rfl, starts.executing reads executing⟩

/-- One pool node without edges, claimed before the trace starts. -/
def loneGraph : ThreadGraph := { taskPool := [0] }

/-- Its worker stores COMPLETED right after the first load of the trace. -/
def completingView : View := fun k _ => if k = 0 then .executing else .completed

/-- On the pool `[A, B, C]` with `A` EXECUTING, the hint `C` gives a READY verdict and `nullptr`
a PENDING one on `A`. -/
theorem traceReadyNode_verdicts_chain :
    (EdgesClosed chainHeap chainGraph.taskPool ∧ CacheExact chainGraph chainStates ∧
      (∀ h, some 2 = some h → h ∈ chainGraph.taskPool) ∧
      Reads (fun _ => chainStates) chainStates ∧ StartsAt (fun _ => chainStates) chainStates) ∧
    traceReadyNode chainHeap (fun _ => chainStates) chainGraph 1 (some 2) 0 =
      some ((.ready, some 2), 4) ∧
    (∃ n, some 2 = some n ∧ n ∈ chainGraph.taskPool ∧ Runnable chainHeap chainStates n) ∧
    traceReadyNode chainHeap (fun _ => chainStates) chainGraph 1 none 0 =
      some ((.pending, some 0), 4) ∧
    ∃ n, some 0 = some n ∧ chainStates n = .executing := by
  have pooled : ∀ h, some 2 = some h → h ∈ chainGraph.taskPool := by simp [chainGraph]
  have ready : traceReadyNode chainHeap (fun _ => chainStates) chainGraph 1 (some 2) 0 =
      some ((.ready, some 2), 4) := by decide
  have pending : traceReadyNode chainHeap (fun _ => chainStates) chainGraph 1 none 0 =
      some ((.pending, some 0), 4) := by decide
  exact ⟨⟨chainGraph_closed, chainGraph_cached, pooled, reads_const _, startsAt_const _⟩, ready,
    (traceReadyNode_verdicts chainGraph_closed chainGraph_cached pooled (reads_const _)
      (startsAt_const _)).1 _ _ ready rfl, pending,
    (traceReadyNode_verdicts chainGraph_closed chainGraph_cached (by simp) (reads_const _)
      (startsAt_const _)).2.2.2 _ _ pending⟩

/-- The claim read at the moment the verdict is returned fails: the trace returns
`(PENDING, node 0)` although node 0, the whole pool, is COMPLETED by then. -/
theorem traceReadyNode_pending_on_completed :
    Reads completingView (fun _ => .completed) ∧ StartsAt completingView (fun _ => .executing) ∧
    EdgesClosed (fun _ => {}) loneGraph.taskPool ∧ CacheExact loneGraph (fun _ => .executing) ∧
    traceReadyNode (fun _ => {}) completingView loneGraph 0 (some 0) 0 =
      some ((.pending, some 0), 2) ∧
    ∀ t ∈ loneGraph.taskPool, (fun _ => RunnableState.completed) t = .completed := by
  refine ⟨⟨fun k n => ?_, fun k n => ?_⟩, fun n => ?_, by simp [EdgesClosed],
    by simp [CacheExact, loneGraph], by decide, by simp⟩
  · rcases k with _ | k <;> simp [completingView, StateLe]
  · rcases k with _ | k <;> simp [completingView, StateLe]
  · simp [completingView, StateLe]

/-- A PENDING verdict rules out a claimable node only in the ancestries the trace searched: no
node claimable when the trace began reaches, along READY nodes, the hint, the first cached node,
or a successor of a hint that was EXECUTING or COMPLETED when the trace began. -/
theorem traceReadyNode_pending_searched {k k' : Nat} {x : Option NodeId} {n e : NodeId}
    (reads : Reads view now) (starts : StartsAt view start)
    (trace : traceReadyNode heap view g fuel hint k = some ((.pending, x), k'))
    (runnable : Runnable heap start n) (path : ReflTransGen (ReadyEdge heap start) n e) :
    g.readyTasksCache.head? ≠ some e ∧ hint ≠ some e ∧
      ∀ h, hint = some h → start h ≠ .ready → e ∉ (heap h).successors := by
  have notReady : ¬ (g.readyTasksCache.head? = some e ∨ hint = some e) := fun searched =>
    nomatch traceReadyNode_complete reads starts trace runnable path searched
  refine ⟨(not_or.1 notReady).1, (not_or.1 notReady).2, ?_⟩
  rintro h rfl hintNotReady successor
  nomatch traceReadyNode_successor_complete reads starts trace hintNotReady runnable path successor

theorem traceReadyNode_pending_searched_chain :
    (Reads (fun _ => chainStates) chainStates ∧ StartsAt (fun _ => chainStates) chainStates ∧
      traceReadyNode chainHeap (fun _ => chainStates) chainGraph 1 (some 0) 0 =
        some ((.pending, some 0), 10) ∧
      Runnable chainHeap chainStates 2 ∧ ReflTransGen (ReadyEdge chainHeap chainStates) 2 2) ∧
    (chainGraph.readyTasksCache.head? ≠ some 2 ∧ some 0 ≠ some 2 ∧
      ∀ h, some 0 = some h → chainStates h ≠ .ready → 2 ∉ (chainHeap h).successors) := by
  have trace : traceReadyNode chainHeap (fun _ => chainStates) chainGraph 1 (some 0) 0 =
      some ((.pending, some 0), 10) := by decide
  have runnable : Runnable chainHeap chainStates 2 := by simp [Runnable, chainStates, chainHeap]
  exact ⟨⟨reads_const _, startsAt_const _, trace, runnable, .refl⟩,
    traceReadyNode_pending_searched (reads_const _) (startsAt_const _) trace runnable .refl⟩

end Verdicts

end Athread
