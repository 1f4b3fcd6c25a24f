import Athread.Graph

/-!
# The trace algorithm

`ThreadGraph::trace_ready_depend` and `ThreadGraph::trace_ready_node` (threadgraph.cpp), the
search a worker runs under `_tasks_mutex` for its next node.

The trace holds the mutex, but the stores `Executing → Completed` of other workers do not take
it, so two loads of one node's state in one trace may disagree. The model makes every load
explicit: the `k`-th load of a trace reads `view k`, and each function threads the load count.
Which sequences of views a trace can meet is stated in `Athread.TraceSound`; a trace on a
quiescent graph reads one view throughout.

The recursion of `trace_ready_depend` descends along predecessors and never returns on a cyclic
graph, so it takes a depth `fuel` and gives `none` when the fuel is spent.
`trace_ready_node` calls itself only with `nullptr`, whose branch does not recurse: that branch
is `traceReadyEntry`.
-/

namespace Athread

/-- The pair a trace returns, `std::pair<TraceNodeState, INode*>`. -/
abbrev TraceResult := TraceNodeState × Option NodeId

/-- The node states the `k`-th atomic load of one trace sees. -/
abbrev View := Nat → NodeId → RunnableState

section Trace

variable (heap : Heap) (view : View)

/-- The loop of `trace_ready_depend` over `entryNode->_predecessors`. A READY predecessor is
traced (`trace` is the recursive call) and a READY verdict ends the loop; a PENDING verdict, or
an EXECUTING predecessor, is remembered in `exe`. -/
def dependScan (avoids : List NodeId) (trace : NodeId → Nat → Option (TraceResult × Nat)) :
    List NodeId → TraceResult → Nat → Option (TraceResult × Nat)
  | [], exe, k => some (exe, k)
  | p :: ps, exe, k =>
    if p ∈ avoids then dependScan avoids trace ps exe k
    else if view k p = .ready then
      match trace p (k + 1) with
      | none => none
      | some ((.ready, x), k') => some ((.ready, x), k')
      | some ((.pending, x), k') => dependScan avoids trace ps (.pending, x) k'
      | some ((.completed, _), k') => dependScan avoids trace ps exe k'
    else if view (k + 1) p = .executing then dependScan avoids trace ps (.pending, some p) (k + 2)
    else dependScan avoids trace ps exe (k + 2)

/-- `ThreadGraph::trace_ready_depend(entryNode, avoids)`, starting at load `k`. `exe` starts as
the value-initialised pair `(Ready, nullptr)`. -/
def traceReadyDepend (avoids : List NodeId) : Nat → NodeId → Nat → Option (TraceResult × Nat)
  | 0, _, _ => none
  | fuel + 1, e, k =>
    if view k e = .executing then some ((.pending, some e), k + 1)
    else if view (k + 1) e = .completed then some ((.completed, some e), k + 2)
    else
      match dependScan view avoids (traceReadyDepend avoids fuel) (heap e).predecessors
          (.ready, none) (k + 2) with
      | none => none
      | some (exe, k') => some (if exe.2.isSome then exe else (.ready, some e), k')

/-- The loops of `trace_ready_node` over `entryNode->_successors`: each READY successor is traced,
a READY verdict is returned at once, and otherwise the last PENDING verdict (`delay`) is. The
EXECUTING branch of `trace_ready_node` keeps only a READY verdict. -/
def successorScan (fuel : Nat) : List NodeId → TraceResult → Nat → Option (TraceResult × Nat)
  | [], delay, k => some (delay, k)
  | s :: ss, delay, k =>
    if view k s = .ready then
      match traceReadyDepend heap view [] fuel s (k + 1) with
      | none => none
      | some ((.ready, x), k') => some ((.ready, x), k')
      | some ((.pending, x), k') => successorScan fuel ss (.pending, x) k'
      | some ((.completed, _), k') => successorScan fuel ss delay k'
    else successorScan fuel ss delay (k + 1)

/-- The scan of `_task_pool` for an EXECUTING node in `trace_ready_node(nullptr)`. -/
def scanExecuting : List NodeId → Nat → TraceResult × Nat
  | [], k => ((.completed, none), k)
  | t :: ts, k => if view k t = .executing then ((.pending, some t), k + 1) else scanExecuting ts (k + 1)

/-- `trace_ready_node(nullptr)`: the first cached node is traced, or, with an empty cache, the
pool is scanned for an EXECUTING node. -/
def traceReadyEntry (g : ThreadGraph) (fuel k : Nat) : Option (TraceResult × Nat) :=
  match g.readyTasksCache with
  | e :: _ => traceReadyDepend heap view [] fuel e k
  | [] => some (scanExecuting view g.taskPool k)

/-- `ThreadGraph::trace_ready_node(entryNode)`, dispatched on the loaded state of the hint. -/
def traceReadyNode (g : ThreadGraph) (fuel : Nat) : Option NodeId → Nat → Option (TraceResult × Nat)
  | none, k => traceReadyEntry heap view g fuel k
  | some e, k =>
    if view k e = .executing then
      match successorScan heap view fuel (heap e).successors (.pending, none) (k + 1) with
      | none => none
      | some (found, k') =>
        if found.1 = .ready then some (found, k')
        else
          match traceReadyEntry heap view g fuel k' with
          | none => none
          | some (next, k'') => some (if next.1 = .ready then next else (.pending, some e), k'')
    else if view (k + 1) e = .ready then
      match traceReadyDepend heap view [] fuel e (k + 2) with
      | none => none
      | some (readyDepend, k') =>
        match readyDepend.1 with
        | .ready => some (readyDepend, k')
        | .pending =>
          match traceReadyEntry heap view g fuel k' with
          | none => none
          | some (next, k'') => some (if next.1 = .ready then next else readyDepend, k'')
        | .completed => some ((.completed, none), k')
    else if view (k + 2) e = .completed then
      match successorScan heap view fuel (heap e).successors (.pending, none) (k + 3) with
      | none => none
      | some (delay, k') =>
        if delay.1 = .ready then some (delay, k')
        else
          match traceReadyEntry heap view g fuel k' with
          | none => none
          | some (next, k'') =>
            some (if next.1 = .ready then next
                  else if delay.2.isSome then delay
                  else if next.1 = .pending then next
                  else (.completed, none), k'')
    else some ((.completed, none), k + 3)

end Trace

end Athread
