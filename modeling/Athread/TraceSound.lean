import Athread.Trace
import Mathlib.Logic.Relation

/-!
# What a trace's verdict means

The loads of one trace can disagree only as the lock-free stores allow: between two loads a node
may go from EXECUTING to COMPLETED, and nothing else changes while the tracing worker holds
`_tasks_mutex`. `Reads view now` says exactly this of the loads `view` of a trace that returns at
the states `now`; `StartsAt view start` adds the states at which it began.

* `traceReadyDepend_sound`: a READY verdict names a node that is READY with every predecessor
  COMPLETED when the trace returns, and reaches the entry node along predecessor edges; a PENDING
  verdict names a node some load saw EXECUTING.
* `traceReadyDepend_complete`: if a node that was claimable when the trace began reaches the
  entry node along READY nodes, the verdict is READY.
* `traceReadyNode_sound` lifts the first to `trace_ready_node`, given a ready cache that holds
  exactly the READY pool nodes.
-/

namespace Athread

open Relation

/-- A load may lag the state it is compared with only by a node that has since completed. -/
def StateLe (a b : RunnableState) : Prop :=
  a = b ∨ (a = .executing ∧ b = .completed)

namespace StateLe

theorem refl (a : RunnableState) : StateLe a a := .inl rfl

theorem trans {a b c : RunnableState} (ab : StateLe a b) (bc : StateLe b c) : StateLe a c := by
  rcases ab with rfl | ⟨rfl, rfl⟩ <;> rcases bc with rfl | ⟨h, rfl⟩
  · exact .inl rfl
  · exact .inr ⟨h, rfl⟩
  · exact .inr ⟨rfl, rfl⟩
  · cases h

@[simp] theorem ready_left {b : RunnableState} : StateLe .ready b ↔ b = .ready := by
  simp [StateLe, eq_comm]

@[simp] theorem ready_right {a : RunnableState} : StateLe a .ready ↔ a = .ready := by
  simp [StateLe]

@[simp] theorem completed_left {b : RunnableState} : StateLe .completed b ↔ b = .completed := by
  simp [StateLe, eq_comm]

@[simp] theorem executing_right {a : RunnableState} : StateLe a .executing ↔ a = .executing := by
  simp [StateLe]

end StateLe

/-- The loads of one trace: each sees no less than the one before and no more than the states
`now` at which the trace returns. -/
structure Reads (view : View) (now : NodeId → RunnableState) : Prop where
  mono : ∀ k n, StateLe (view k n) (view (k + 1) n)
  le_now : ∀ k n, StateLe (view k n) (now n)

/-- The first load sees no less than the states `start` at which the trace began. -/
def StartsAt (view : View) (start : NodeId → RunnableState) : Prop :=
  ∀ n, StateLe (start n) (view 0 n)

/-- A trace on a quiescent graph loads the same states throughout. -/
theorem reads_const (now : NodeId → RunnableState) : Reads (fun _ => now) now :=
  ⟨fun _ _ => .refl _, fun _ _ => .refl _⟩

theorem startsAt_const (start : NodeId → RunnableState) : StartsAt (fun _ => start) start :=
  fun n => .refl (start n)

namespace Reads

variable {view : View} {now : NodeId → RunnableState} (reads : Reads view now)
include reads

theorem le_of_le {k k' : Nat} (n : NodeId) (before : k ≤ k') : StateLe (view k n) (view k' n) := by
  induction before with
  | refl => exact .refl _
  | step _ inductionHypothesis => exact inductionHypothesis.trans (reads.mono _ n)

theorem ready_iff (k : Nat) (n : NodeId) : view k n = .ready ↔ now n = .ready := by
  constructor
  · intro ready
    simpa [ready] using reads.le_now k n
  · intro ready
    simpa [ready] using reads.le_now k n

theorem completed {k : Nat} {n : NodeId} (done : view k n = .completed) : now n = .completed := by
  simpa [done] using reads.le_now k n

theorem executing_of_succ {k : Nat} {n : NodeId} (later : view (k + 1) n = .executing) :
    view k n = .executing := by
  simpa [later] using reads.mono k n

/-- A load that is neither READY nor, at the next load, EXECUTING shows a COMPLETED node. -/
theorem completed_of_not {k : Nat} {n : NodeId} (notReady : view k n ≠ .ready)
    (notExecuting : view (k + 1) n ≠ .executing) : now n = .completed := by
  cases next : view (k + 1) n
  · exact absurd ((reads.ready_iff k n).2 ((reads.ready_iff (k + 1) n).1 next)) notReady
  · exact absurd next notExecuting
  · exact reads.completed next

/-- A load that is not EXECUTING, followed by one that is not COMPLETED, shows a READY node. -/
theorem ready_of_not {k : Nat} {n : NodeId} (notExecuting : view k n ≠ .executing)
    (notCompleted : view (k + 1) n ≠ .completed) : now n = .ready := by
  cases next : view (k + 1) n
  · exact (reads.ready_iff (k + 1) n).1 next
  · exact absurd (reads.executing_of_succ next) notExecuting
  · exact absurd next notCompleted

end Reads

theorem StartsAt.le {view : View} {now start : NodeId → RunnableState} (reads : Reads view now)
    (starts : StartsAt view start) (k : Nat) (n : NodeId) : StateLe (start n) (view k n) :=
  (starts n).trans (reads.le_of_le n (Nat.zero_le k))

/-- `a` is a predecessor of `b`. -/
def PredEdge (heap : Heap) (a b : NodeId) : Prop :=
  a ∈ (heap b).predecessors

/-- READY with every predecessor COMPLETED: a node a worker may claim. -/
def Runnable (heap : Heap) (st : NodeId → RunnableState) (n : NodeId) : Prop :=
  st n = .ready ∧ ∀ p ∈ (heap n).predecessors, st p = .completed

/-- What a result of `trace_ready_depend(e)` tells about the graph. -/
def DependSound (heap : Heap) (view : View) (now : NodeId → RunnableState) (e : NodeId) :
    TraceResult → Prop
  | (.ready, some n) => Runnable heap now n ∧ ReflTransGen (PredEdge heap) n e
  | (.pending, some x) => (∃ k, view k x = .executing) ∧ ReflTransGen (PredEdge heap) x e
  | (.completed, some x) => x = e ∧ now e = .completed
  | (_, none) => False

section Sound

variable {heap : Heap} {view : View} {now : NodeId → RunnableState}

variable (heap view now) in
/-- How the predecessor loop over `ps`, started with `exe`, can end: with a READY verdict from the
ancestry of a scanned predecessor, with a PENDING verdict on a node of such an ancestry seen
EXECUTING, or with `exe` untouched and every predecessor COMPLETED. -/
def ScanOutcome (ps : List NodeId) (exe r : TraceResult) : Prop :=
  (∃ n, r = (.ready, some n) ∧ Runnable heap now n ∧ ∃ p ∈ ps, ReflTransGen (PredEdge heap) n p) ∨
  (∃ x, r = (.pending, some x) ∧ (∃ j, view j x = .executing) ∧
    ∃ p ∈ ps, ReflTransGen (PredEdge heap) x p) ∨
  (r = exe ∧ ∀ p ∈ ps, now p = .completed)

namespace ScanOutcome

variable {p : NodeId} {ps : List NodeId} {exe r : TraceResult}

theorem found {n : NodeId} (runnable : Runnable heap now n)
    (path : ReflTransGen (PredEdge heap) n p) : ScanOutcome heap view now (p :: ps) exe (.ready, some n) :=
  .inl ⟨n, rfl, runnable, p, List.mem_cons_self p ps, path⟩

theorem cons_pending {x : NodeId} (rest : ScanOutcome heap view now ps (.pending, some x) r)
    (seen : ∃ j, view j x = .executing) (path : ReflTransGen (PredEdge heap) x p) :
    ScanOutcome heap view now (p :: ps) exe r := by
  rcases rest with ⟨n, rfl, runnable, q, member, path⟩ | ⟨y, rfl, seen, q, member, path⟩ | ⟨rfl, _⟩
  · exact .inl ⟨n, rfl, runnable, q, List.mem_cons_of_mem p member, path⟩
  · exact .inr (.inl ⟨y, rfl, seen, q, List.mem_cons_of_mem p member, path⟩)
  · exact .inr (.inl ⟨x, rfl, seen, p, List.mem_cons_self p ps, path⟩)

theorem cons_completed (rest : ScanOutcome heap view now ps exe r) (done : now p = .completed) :
    ScanOutcome heap view now (p :: ps) exe r := by
  rcases rest with ⟨n, rfl, runnable, q, member, path⟩ | ⟨y, rfl, seen, q, member, path⟩ |
    ⟨rfl, completed⟩
  · exact .inl ⟨n, rfl, runnable, q, List.mem_cons_of_mem p member, path⟩
  · exact .inr (.inl ⟨y, rfl, seen, q, List.mem_cons_of_mem p member, path⟩)
  · exact .inr (.inr ⟨rfl, List.forall_mem_cons.2 ⟨done, completed⟩⟩)

end ScanOutcome

theorem dependScan_sound (reads : Reads view now) {trace : NodeId → Nat → Option (TraceResult × Nat)}
    (traceOk : ∀ p k r k', trace p k = some (r, k') → DependSound heap view now p r) :
    ∀ {ps : List NodeId} {exe r : TraceResult} {k k' : Nat},
      dependScan view [] trace ps exe k = some (r, k') → ScanOutcome heap view now ps exe r
  | [], exe, r, k, k', scan => by
    simp only [dependScan, Option.some.injEq, Prod.mk.injEq] at scan
    exact .inr (.inr ⟨scan.1.symm, by simp⟩)
  | p :: ps, exe, r, k, k', scan => by
    have rest := @dependScan_sound reads trace traceOk ps
    simp only [dependScan, List.not_mem_nil, if_false] at scan
    split_ifs at scan with ready executing
    · rcases recursion : trace p (k + 1) with _ | ⟨⟨verdict, _ | x⟩, k''⟩
      · simp [recursion] at scan
      · have sound := traceOk p _ _ _ recursion
        cases verdict <;> simp [DependSound] at sound
      · have sound := traceOk p _ _ _ recursion
        cases verdict <;> simp only [recursion, DependSound] at scan sound
        · cases scan
          exact .found sound.1 sound.2
        · exact (rest scan).cons_pending sound.1 sound.2
        · exact (rest scan).cons_completed (sound.1 ▸ sound.2)
    · exact (rest scan).cons_pending ⟨k + 1, executing⟩ .refl
    · exact (rest scan).cons_completed (reads.completed_of_not ready executing)

/-- `trace_ready_depend(e)` with no node to avoid, whenever it returns. -/
theorem traceReadyDepend_sound (reads : Reads view now) :
    ∀ {fuel : Nat} {e : NodeId} {k k' : Nat} {r : TraceResult},
      traceReadyDepend heap view [] fuel e k = some (r, k') → DependSound heap view now e r
  | 0, _, _, _, _, trace => by simp [traceReadyDepend] at trace
  | fuel + 1, e, k, _, _, trace => by
    simp only [traceReadyDepend] at trace
    split_ifs at trace with executing completed
    · cases trace
      exact ⟨⟨k, executing⟩, .refl⟩
    · cases trace
      exact ⟨rfl, reads.completed completed⟩
    · have ready := reads.ready_of_not executing completed
      rcases scan : dependScan view [] (traceReadyDepend heap view [] fuel) (heap e).predecessors
          (.ready, none) (k + 2) with _ | ⟨exe, _⟩ <;>
        simp only [scan, Option.some.injEq, Prod.mk.injEq, reduceCtorEq] at trace
      obtain ⟨rfl, rfl⟩ := trace
      rcases dependScan_sound reads (fun _ _ _ _ => traceReadyDepend_sound reads) scan with
        ⟨n, rfl, runnable, p, member, path⟩ | ⟨x, rfl, seen, p, member, path⟩ |
        ⟨rfl, completedPredecessors⟩
      · show DependSound heap view now e (.ready, some n)
        exact ⟨runnable, path.tail member⟩
      · show DependSound heap view now e (.pending, some x)
        exact ⟨seen, path.tail member⟩
      · show DependSound heap view now e (.ready, some e)
        exact ⟨⟨ready, completedPredecessors⟩, .refl⟩

variable (heap view now) in
/-- How the successor loop over `ss`, started with `delay`, can end: with a READY verdict from the
ancestry of a scanned successor, with a PENDING verdict on a node of such an ancestry seen
EXECUTING, or with `delay` untouched. -/
def SuccessorOutcome (ss : List NodeId) (delay r : TraceResult) : Prop :=
  (∃ n, r = (.ready, some n) ∧ Runnable heap now n ∧ ∃ s ∈ ss, ReflTransGen (PredEdge heap) n s) ∨
  (∃ x, r = (.pending, some x) ∧ (∃ j, view j x = .executing) ∧
    ∃ s ∈ ss, ReflTransGen (PredEdge heap) x s) ∨
  r = delay

theorem SuccessorOutcome.cons {s : NodeId} {ss : List NodeId} {d delay r : TraceResult}
    (rest : SuccessorOutcome heap view now ss d r)
    (start : d = delay ∨ ∃ x, d = (.pending, some x) ∧ (∃ j, view j x = .executing) ∧
      ReflTransGen (PredEdge heap) x s) :
    SuccessorOutcome heap view now (s :: ss) delay r := by
  rcases rest with ⟨n, rfl, runnable, q, member, path⟩ | ⟨y, rfl, seen, q, member, path⟩ | rfl
  · exact .inl ⟨n, rfl, runnable, q, List.mem_cons_of_mem s member, path⟩
  · exact .inr (.inl ⟨y, rfl, seen, q, List.mem_cons_of_mem s member, path⟩)
  · rcases start with rfl | ⟨x, rfl, seen, path⟩
    · exact .inr (.inr rfl)
    · exact .inr (.inl ⟨x, rfl, seen, s, List.mem_cons_self s ss, path⟩)

theorem successorScan_sound (reads : Reads view now) {fuel : Nat} :
    ∀ {ss : List NodeId} {delay r : TraceResult} {k k' : Nat},
      successorScan heap view fuel ss delay k = some (r, k') →
      SuccessorOutcome heap view now ss delay r
  | [], _, _, _, _, scan => by
    simp only [successorScan, Option.some.injEq, Prod.mk.injEq] at scan
    exact .inr (.inr scan.1.symm)
  | s :: ss, delay, r, k, k', scan => by
    have rest := @successorScan_sound reads fuel ss
    simp only [successorScan] at scan
    split_ifs at scan
    · rcases recursion : traceReadyDepend heap view [] fuel s (k + 1) with _ | ⟨⟨verdict, _ | x⟩, _⟩
      · simp [recursion] at scan
      · have sound := traceReadyDepend_sound reads recursion
        cases verdict <;> simp [DependSound] at sound
      · have sound := traceReadyDepend_sound reads recursion
        cases verdict <;> simp only [recursion, DependSound] at scan sound
        · cases scan
          exact .inl ⟨x, rfl, sound.1, s, List.mem_cons_self s ss, sound.2⟩
        · exact (rest scan).cons (.inr ⟨x, rfl, sound⟩)
        · exact (rest scan).cons (.inl rfl)
    · exact (rest scan).cons (.inl rfl)

theorem scanExecuting_sound (reads : Reads view now) :
    ∀ {ts : List NodeId} {k k' : Nat} {r : TraceResult}, scanExecuting view ts k = (r, k') →
      (∃ t ∈ ts, r = (.pending, some t) ∧ ∃ j, view j t = .executing) ∨
      (r = (.completed, none) ∧ ∀ t ∈ ts, now t ≠ .executing)
  | [], _, _, _, scan => by
    simp only [scanExecuting, Prod.mk.injEq] at scan
    exact .inr ⟨scan.1.symm, by simp⟩
  | t :: ts, k, _, _, scan => by
    simp only [scanExecuting] at scan
    split_ifs at scan with executing
    · cases scan
      exact .inl ⟨t, List.mem_cons_self t ts, rfl, k, executing⟩
    · rcases scanExecuting_sound reads scan with ⟨u, member, pending⟩ | ⟨rfl, notExecuting⟩
      · exact .inl ⟨u, List.mem_cons_of_mem t member, pending⟩
      · refine .inr ⟨rfl, List.forall_mem_cons.2 ⟨fun nowExecuting => executing ?_, notExecuting⟩⟩
        simpa [nowExecuting] using reads.le_now k t

variable (heap view now) in
/-- What a result of `trace_ready_node` tells about the graph, for a trace that searched the
ancestries of the nodes `searched` and scanned the pool. -/
def NodeSound (g : ThreadGraph) (searched : NodeId → Prop) : TraceResult → Prop
  | (.ready, some n) => Runnable heap now n ∧ ∃ e, searched e ∧ ReflTransGen (PredEdge heap) n e
  | (.ready, none) => False
  | (.pending, some x) => (∃ j, view j x = .executing) ∧
      ((∃ e, searched e ∧ ReflTransGen (PredEdge heap) x e) ∨ x ∈ g.taskPool)
  | (.pending, none) => False
  | (.completed, _) => ∀ t ∈ g.taskPool, now t = .completed

theorem NodeSound.mono {g : ThreadGraph} {searched searched' : NodeId → Prop}
    (wider : ∀ e, searched e → searched' e) :
    ∀ {r : TraceResult}, NodeSound heap view now g searched r → NodeSound heap view now g searched' r
  | (.ready, some _), ⟨runnable, e, member, path⟩ => ⟨runnable, e, wider e member, path⟩
  | (.pending, some _), ⟨seen, .inl ⟨e, member, path⟩⟩ => ⟨seen, .inl ⟨e, wider e member, path⟩⟩
  | (.pending, some _), ⟨seen, .inr pooled⟩ => ⟨seen, .inr pooled⟩
  | (.completed, _), completed => completed

/-- The ready cache holds exactly the READY pool nodes. -/
def CacheExact (g : ThreadGraph) (st : NodeId → RunnableState) : Prop :=
  ∀ t, t ∈ g.readyTasksCache ↔ t ∈ g.taskPool ∧ st t = .ready

/-- `trace_ready_node(nullptr)`, whenever it returns. -/
theorem traceReadyEntry_sound (reads : Reads view now) {g : ThreadGraph} (cache : CacheExact g now)
    {fuel k k' : Nat} {r : TraceResult} (trace : traceReadyEntry heap view g fuel k = some (r, k')) :
    NodeSound heap view now g (· ∈ g.readyTasksCache) r := by
  unfold traceReadyEntry at trace
  split at trace
  · rename_i e _ first
    have sound := traceReadyDepend_sound reads trace
    have cached : e ∈ g.readyTasksCache := by simp [first]
    rcases r with ⟨_ | _ | _, _ | x⟩ <;> simp only [DependSound, NodeSound] at sound ⊢
    · exact ⟨sound.1, e, cached, sound.2⟩
    · exact ⟨sound.1, .inl ⟨e, cached, sound.2⟩⟩
    · have := ((cache e).1 cached).2
      simp [sound.2] at this
  · rename_i empty
    rw [Option.some.injEq] at trace
    rcases scanExecuting_sound reads trace with ⟨t, member, same, seen⟩ | ⟨same, notExecuting⟩
    · rw [same]
      exact ⟨seen, .inr member⟩
    · rw [same]
      intro t member
      cases state : now t
      · simpa [empty] using (cache t).2 ⟨member, state⟩
      · exact absurd state (notExecuting t member)
      · rfl

/-- A hint's three loads cannot all miss: the state can only move forward between them. -/
theorem Reads.hint_loaded (reads : Reads view now) {k : Nat} {e : NodeId}
    (notExecuting : view k e ≠ .executing) (notReady : view (k + 1) e ≠ .ready)
    (notCompleted : view (k + 2) e ≠ .completed) : False := by
  cases next : view (k + 1) e
  · exact notReady next
  · exact notExecuting (reads.executing_of_succ next)
  · exact notCompleted (by simpa [next] using reads.mono (k + 1) e)

/-- The nodes whose ancestries `trace_ready_node(hint)` searches: the first cached node, the hint
and the hint's successors. -/
def Searched (heap : Heap) (g : ThreadGraph) (hint : Option NodeId) (e : NodeId) : Prop :=
  e ∈ g.readyTasksCache ∨ hint = some e ∨ ∃ h, hint = some h ∧ e ∈ (heap h).successors

/-- `trace_ready_node(hint)`, whenever it returns. -/
theorem traceReadyNode_sound (reads : Reads view now) {g : ThreadGraph} (cache : CacheExact g now)
    {fuel k k' : Nat} {hint : Option NodeId} {r : TraceResult}
    (trace : traceReadyNode heap view g fuel hint k = some (r, k')) :
    NodeSound heap view now g (Searched heap g hint) r := by
  have entry : ∀ {k k' r}, traceReadyEntry heap view g fuel k = some (r, k') →
      NodeSound heap view now g (Searched heap g hint) r :=
    fun trace => (traceReadyEntry_sound reads cache trace).mono fun _ cached => .inl cached
  cases hint with
  | none => exact entry trace
  | some e =>
    have fromSuccessors : ∀ {j k' r}, successorScan heap view fuel (heap e).successors
        (.pending, none) j = some (r, k') → r.1 = .ready ∨ r.2.isSome →
        NodeSound heap view now g (Searched heap g (some e)) r := by
      intro j k' r scan named
      rcases successorScan_sound reads scan with ⟨n, rfl, runnable, s, member, path⟩ |
        ⟨x, rfl, seen, s, member, path⟩ | rfl
      · exact ⟨runnable, s, .inr (.inr ⟨e, rfl, member⟩), path⟩
      · exact ⟨seen, .inl ⟨s, .inr (.inr ⟨e, rfl, member⟩), path⟩⟩
      · simp at named
    simp only [traceReadyNode] at trace
    by_cases executing : view k e = .executing
    · -- EXECUTING: a successor's ancestry, else the cache head, else wait on the hint
      rw [if_pos executing] at trace
      rcases succ : successorScan heap view fuel (heap e).successors (.pending, none) (k + 1) with
        _ | ⟨found, mid⟩ <;> simp only [succ, reduceCtorEq] at trace
      by_cases foundReady : found.1 = .ready
      · simp only [foundReady, if_true, Option.some.injEq, Prod.mk.injEq] at trace
        obtain ⟨rfl, rfl⟩ := trace
        exact fromSuccessors succ (.inl foundReady)
      · simp only [foundReady, if_false] at trace
        rcases entryTrace : traceReadyEntry heap view g fuel mid with _ | ⟨next, _⟩ <;>
          simp only [entryTrace, reduceCtorEq, Option.some.injEq, Prod.mk.injEq] at trace
        obtain ⟨rfl, rfl⟩ := trace
        split_ifs
        · exact entry entryTrace
        · exact ⟨⟨k, executing⟩, .inl ⟨e, .inr (.inl rfl), .refl⟩⟩
    by_cases ready : view (k + 1) e = .ready
    · -- READY: the hint's own ancestry, else the cache head
      rw [if_neg executing, if_pos ready] at trace
      have nowReady := (reads.ready_iff (k + 1) e).1 ready
      rcases dep : traceReadyDepend heap view [] fuel e (k + 2) with _ | ⟨readyDepend, mid⟩ <;>
        simp only [dep, reduceCtorEq] at trace
      have sound := traceReadyDepend_sound reads dep
      rcases readyDepend with ⟨_ | _ | _, _ | x⟩ <;> simp only [DependSound] at sound
      · cases trace
        exact ⟨sound.1, e, .inr (.inl rfl), sound.2⟩
      · rcases entryTrace : traceReadyEntry heap view g fuel mid with _ | ⟨next, _⟩ <;>
          simp only [entryTrace, reduceCtorEq, Option.some.injEq, Prod.mk.injEq] at trace
        obtain ⟨rfl, rfl⟩ := trace
        split_ifs
        · exact entry entryTrace
        · exact ⟨sound.1, .inl ⟨e, .inr (.inl rfl), sound.2⟩⟩
      · simp [sound.2] at nowReady
    by_cases completed : view (k + 2) e = .completed
    · -- COMPLETED: the successors' ancestries, else the cache head, else a remembered PENDING
      rw [if_neg executing, if_neg ready, if_pos completed] at trace
      rcases succ : successorScan heap view fuel (heap e).successors (.pending, none) (k + 3) with
        _ | ⟨delay, mid⟩ <;> simp only [succ, reduceCtorEq] at trace
      by_cases delayReady : delay.1 = .ready
      · simp only [delayReady, if_true, Option.some.injEq, Prod.mk.injEq] at trace
        obtain ⟨rfl, rfl⟩ := trace
        exact fromSuccessors succ (.inl delayReady)
      · simp only [delayReady, if_false] at trace
        rcases entryTrace : traceReadyEntry heap view g fuel mid with _ | ⟨next, _⟩ <;>
          simp only [entryTrace, reduceCtorEq, Option.some.injEq, Prod.mk.injEq] at trace
        obtain ⟨rfl, rfl⟩ := trace
        have nextSound := entry entryTrace
        split_ifs with nextReady remembered nextPending
        · exact nextSound
        · exact fromSuccessors succ (.inr remembered)
        · exact nextSound
        · rcases next with ⟨_ | _ | _, _⟩
          · cases nextReady rfl
          · cases nextPending rfl
          · exact nextSound
    exact (reads.hint_loaded executing ready completed).elim

/-! ## What a trace cannot miss -/

/-- `a` is a READY predecessor of the READY node `b`. -/
def ReadyEdge (heap : Heap) (st : NodeId → RunnableState) (a b : NodeId) : Prop :=
  a ∈ (heap b).predecessors ∧ st a = .ready ∧ st b = .ready

variable {start : NodeId → RunnableState}

theorem StartsAt.ready (reads : Reads view now) (starts : StartsAt view start) {n : NodeId}
    (ready : start n = .ready) (k : Nat) : view k n = .ready := by
  simpa [ready] using starts.le reads k n

theorem StartsAt.completed (reads : Reads view now) (starts : StartsAt view start) {n : NodeId}
    (done : start n = .completed) (k : Nat) : view k n = .completed := by
  simpa [done] using starts.le reads k n

theorem StartsAt.executing (reads : Reads view now) (starts : StartsAt view start) {n : NodeId}
    {k : Nat} (executing : view k n = .executing) : start n = .executing := by
  simpa [executing] using starts.le reads k n

/-- The end of a path of READY nodes from a claimable node was READY. -/
theorem Runnable.ready_of_path {n e : NodeId} (runnable : Runnable heap start n)
    (path : ReflTransGen (ReadyEdge heap start) n e) : start e = .ready := by
  rcases path.cases_tail with rfl | ⟨_, _, edge⟩
  · exact runnable.1
  · exact edge.2.2

/-- The predecessor loop leaves `exe` alone when every predecessor was COMPLETED at the start. -/
theorem dependScan_of_completed (reads : Reads view now) (starts : StartsAt view start)
    {trace : NodeId → Nat → Option (TraceResult × Nat)} :
    ∀ {ps : List NodeId} {exe : TraceResult} {k : Nat}, (∀ p ∈ ps, start p = .completed) →
      dependScan view [] trace ps exe k = some (exe, k + 2 * ps.length)
  | [], _, _, _ => rfl
  | p :: ps, exe, k, done => by
    have loaded := starts.completed reads (done p (List.mem_cons_self p ps))
    simp only [dependScan, List.not_mem_nil, if_false, loaded, reduceCtorEq,
      dependScan_of_completed reads starts fun q member => done q (List.mem_cons_of_mem p member)]
    simp only [List.length_cons]
    congr 2
    omega

/-- The predecessor loop returns READY when the trace of some predecessor that was READY at the
start always does. -/
theorem dependScan_complete (reads : Reads view now) (starts : StartsAt view start)
    {trace : NodeId → Nat → Option (TraceResult × Nat)} :
    ∀ {ps : List NodeId} {exe r : TraceResult} {k k' : Nat},
      dependScan view [] trace ps exe k = some (r, k') →
      (∃ p ∈ ps, start p = .ready ∧ ∀ j r' j', trace p j = some (r', j') → r'.1 = .ready) →
      r.1 = .ready
  | [], _, _, _, _, _, ⟨_, member, _⟩ => by simp at member
  | p :: ps, exe, r, k, k', scan, ⟨q, member, qReady, qTrace⟩ => by
    have rest := @dependScan_complete reads starts trace ps
    simp only [dependScan, List.not_mem_nil, if_false] at scan
    rcases List.mem_cons.1 member with rfl | later
    · simp only [starts.ready reads qReady, if_true] at scan
      rcases recursion : trace q (k + 1) with _ | ⟨⟨verdict, x⟩, _⟩
      · simp [recursion] at scan
      · have ready := qTrace _ _ _ recursion
        simp only at ready
        subst ready
        simp only [recursion, Option.some.injEq, Prod.mk.injEq] at scan
        rw [← scan.1]
    · split_ifs at scan
      · rcases recursion : trace p (k + 1) with _ | ⟨⟨verdict, x⟩, _⟩
        · simp [recursion] at scan
        · cases verdict <;> simp only [recursion, Option.some.injEq, Prod.mk.injEq] at scan
          · rw [← scan.1]
          · exact rest scan ⟨q, later, qReady, qTrace⟩
          · exact rest scan ⟨q, later, qReady, qTrace⟩
      · exact rest scan ⟨q, later, qReady, qTrace⟩
      · exact rest scan ⟨q, later, qReady, qTrace⟩

/-- If a node that was claimable at the start reaches `e` along READY nodes, `trace_ready_depend(e)`
returns READY whenever it returns. -/
theorem traceReadyDepend_complete (reads : Reads view now) (starts : StartsAt view start) :
    ∀ {fuel : Nat} {e n : NodeId} {k k' : Nat} {r : TraceResult},
      traceReadyDepend heap view [] fuel e k = some (r, k') → Runnable heap start n →
      ReflTransGen (ReadyEdge heap start) n e → r.1 = .ready
  | 0, _, _, _, _, _, trace, _, _ => by simp [traceReadyDepend] at trace
  | fuel + 1, e, n, k, k', r, trace, runnable, path => by
    simp only [traceReadyDepend, starts.ready reads (runnable.ready_of_path path), reduceCtorEq,
      if_false] at trace
    rcases scan : dependScan view [] (traceReadyDepend heap view [] fuel) (heap e).predecessors
        (.ready, none) (k + 2) with _ | ⟨exe, _⟩ <;>
      simp only [scan, reduceCtorEq, Option.some.injEq, Prod.mk.injEq] at trace
    obtain ⟨rfl, rfl⟩ := trace
    have exeReady : exe.1 = .ready := by
      rcases path.cases_tail with rfl | ⟨p, prefixPath, edge⟩
      · rw [dependScan_of_completed reads starts runnable.2] at scan
        cases scan
        rfl
      · exact dependScan_complete reads starts scan ⟨p, edge.1, edge.2.1,
          fun _ _ _ recursion => traceReadyDepend_complete reads starts recursion runnable prefixPath⟩
    split_ifs
    · exact exeReady
    · rfl

theorem successorScan_of_completed (reads : Reads view now) (starts : StartsAt view start)
    {fuel : Nat} : ∀ {ss : List NodeId} {delay : TraceResult} {k : Nat},
      (∀ s ∈ ss, start s = .completed) →
      successorScan heap view fuel ss delay k = some (delay, k + ss.length)
  | [], _, _, _ => rfl
  | s :: ss, delay, k, done => by
    simp only [successorScan, starts.completed reads (done s (List.mem_cons_self s ss)),
      reduceCtorEq, if_false, List.length_cons,
      successorScan_of_completed reads starts fun q member => done q (List.mem_cons_of_mem s member)]
    congr 2
    omega

theorem scanExecuting_of_completed (reads : Reads view now) (starts : StartsAt view start) :
    ∀ {ts : List NodeId} {k : Nat}, (∀ t ∈ ts, start t = .completed) →
      scanExecuting view ts k = ((.completed, none), k + ts.length)
  | [], _, _ => rfl
  | t :: ts, k, done => by
    simp only [scanExecuting, starts.completed reads (done t (List.mem_cons_self t ts)),
      reduceCtorEq, if_false, List.length_cons,
      scanExecuting_of_completed reads starts fun q member => done q (List.mem_cons_of_mem t member)]
    congr 1
    omega

theorem traceReadyEntry_complete (reads : Reads view now) (starts : StartsAt view start)
    {g : ThreadGraph} {fuel k k' : Nat} {r : TraceResult} {n e : NodeId}
    (trace : traceReadyEntry heap view g fuel k = some (r, k')) (runnable : Runnable heap start n)
    (path : ReflTransGen (ReadyEdge heap start) n e) (first : g.readyTasksCache.head? = some e) :
    r.1 = .ready := by
  unfold traceReadyEntry at trace
  split at trace
  · rename_i e' _ cached
    simp only [cached, List.head?_cons, Option.some.injEq] at first
    subst first
    exact traceReadyDepend_complete reads starts trace runnable path
  · rename_i empty
    simp [empty] at first

/-- If a node that was claimable at the start reaches the hint or the first cached node along
READY nodes, `trace_ready_node(hint)` returns READY whenever it returns. -/
theorem traceReadyNode_complete (reads : Reads view now) (starts : StartsAt view start)
    {g : ThreadGraph} {fuel k k' : Nat} {hint : Option NodeId} {r : TraceResult} {n e : NodeId}
    (trace : traceReadyNode heap view g fuel hint k = some (r, k')) (runnable : Runnable heap start n)
    (path : ReflTransGen (ReadyEdge heap start) n e)
    (searched : g.readyTasksCache.head? = some e ∨ hint = some e) : r.1 = .ready := by
  have eReady := runnable.ready_of_path path
  have entry : ∀ {j j' next}, traceReadyEntry heap view g fuel j = some (next, j') →
      hint ≠ some e → next.1 = .ready := fun entryTrace notHint =>
    traceReadyEntry_complete reads starts entryTrace runnable path (searched.resolve_right notHint)
  cases hint with
  | none => exact entry trace (by simp)
  | some h =>
    simp only [traceReadyNode] at trace
    by_cases executing : view k h = .executing
    · rw [if_pos executing] at trace
      have notHint : some h ≠ some e := by
        rintro ⟨⟩
        simp [starts.ready reads eReady] at executing
      rcases succ : successorScan heap view fuel (heap h).successors (.pending, none) (k + 1) with
        _ | ⟨found, mid⟩ <;> simp only [succ, reduceCtorEq] at trace
      by_cases foundReady : found.1 = .ready
      · simp only [foundReady, if_true, Option.some.injEq, Prod.mk.injEq] at trace
        rw [← trace.1, foundReady]
      · simp only [foundReady, if_false] at trace
        rcases entryTrace : traceReadyEntry heap view g fuel mid with _ | ⟨next, _⟩ <;>
          simp only [entryTrace, reduceCtorEq, Option.some.injEq, Prod.mk.injEq] at trace
        rw [← trace.1, if_pos (entry entryTrace notHint)]
        exact entry entryTrace notHint
    by_cases ready : view (k + 1) h = .ready
    · rw [if_neg executing, if_pos ready] at trace
      rcases dep : traceReadyDepend heap view [] fuel h (k + 2) with _ | ⟨readyDepend, mid⟩ <;>
        simp only [dep, reduceCtorEq] at trace
      have sound := traceReadyDepend_sound reads dep
      rcases readyDepend with ⟨_ | _ | _, x⟩
      · simp only [Option.some.injEq, Prod.mk.injEq] at trace
        rw [← trace.1]
      · by_cases isHint : some h = some e
        · cases isHint
          cases traceReadyDepend_complete reads starts dep runnable path
        · simp only at trace
          rcases entryTrace : traceReadyEntry heap view g fuel mid with _ | ⟨next, _⟩ <;>
            simp only [entryTrace, reduceCtorEq, Option.some.injEq, Prod.mk.injEq] at trace
          rw [← trace.1, if_pos (entry entryTrace isHint)]
          exact entry entryTrace isHint
      · rcases x with _ | x <;> simp only [DependSound] at sound
        have := (reads.ready_iff (k + 1) h).1 ready
        simp [sound.2] at this
    by_cases completed : view (k + 2) h = .completed
    · rw [if_neg executing, if_neg ready, if_pos completed] at trace
      have notHint : some h ≠ some e := by
        rintro ⟨⟩
        simp [starts.ready reads eReady] at ready
      rcases succ : successorScan heap view fuel (heap h).successors (.pending, none) (k + 3) with
        _ | ⟨delay, mid⟩ <;> simp only [succ, reduceCtorEq] at trace
      by_cases delayReady : delay.1 = .ready
      · simp only [delayReady, if_true, Option.some.injEq, Prod.mk.injEq] at trace
        rw [← trace.1, delayReady]
      · simp only [delayReady, if_false] at trace
        rcases entryTrace : traceReadyEntry heap view g fuel mid with _ | ⟨next, _⟩ <;>
          simp only [entryTrace, reduceCtorEq, Option.some.injEq, Prod.mk.injEq] at trace
        rw [← trace.1, if_pos (entry entryTrace notHint)]
        exact entry entryTrace notHint
    exact (reads.hint_loaded executing ready completed).elim

/-- The successor loop returns READY when a node that was claimable at the start reaches one of
the successors along READY nodes. -/
theorem successorScan_complete (reads : Reads view now) (starts : StartsAt view start)
    {fuel : Nat} {n : NodeId} (runnable : Runnable heap start n) :
    ∀ {ss : List NodeId} {delay r : TraceResult} {k k' : Nat},
      successorScan heap view fuel ss delay k = some (r, k') →
      (∃ s ∈ ss, ReflTransGen (ReadyEdge heap start) n s) → r.1 = .ready
  | [], _, _, _, _, _, ⟨_, member, _⟩ => by simp at member
  | s :: ss, delay, r, k, k', scan, ⟨q, member, path⟩ => by
    have rest := @successorScan_complete reads starts fuel n runnable ss
    simp only [successorScan] at scan
    rcases List.mem_cons.1 member with rfl | later
    · rw [if_pos (starts.ready reads (runnable.ready_of_path path) k)] at scan
      rcases dep : traceReadyDepend heap view [] fuel q (k + 1) with _ | ⟨⟨verdict, x⟩, _⟩
      · simp [dep] at scan
      · have ready := traceReadyDepend_complete reads starts dep runnable path
        simp only at ready
        subst ready
        simp only [dep, Option.some.injEq, Prod.mk.injEq] at scan
        rw [← scan.1]
    · split_ifs at scan
      · rcases dep : traceReadyDepend heap view [] fuel s (k + 1) with _ | ⟨⟨verdict, x⟩, _⟩
        · simp [dep] at scan
        · cases verdict <;> simp only [dep, Option.some.injEq, Prod.mk.injEq] at scan
          · rw [← scan.1]
          · exact rest scan ⟨q, later, path⟩
          · exact rest scan ⟨q, later, path⟩
      · exact rest scan ⟨q, later, path⟩

/-- If a node that was claimable at the start reaches a successor of a hint that was not READY at
the start, `trace_ready_node(hint)` returns READY whenever it returns: an EXECUTING or COMPLETED
hint has its READY successors traced first. -/
theorem traceReadyNode_successor_complete (reads : Reads view now) (starts : StartsAt view start)
    {g : ThreadGraph} {fuel k k' : Nat} {h n e : NodeId} {r : TraceResult}
    (trace : traceReadyNode heap view g fuel (some h) k = some (r, k'))
    (notReady : start h ≠ .ready) (runnable : Runnable heap start n)
    (path : ReflTransGen (ReadyEdge heap start) n e) (successor : e ∈ (heap h).successors) :
    r.1 = .ready := by
  have scanned : ∀ {j found j'}, successorScan heap view fuel (heap h).successors (.pending, none) j =
      some (found, j') → found.1 = .ready := fun scan =>
    successorScan_complete reads starts runnable scan ⟨e, successor, path⟩
  simp only [traceReadyNode] at trace
  have notLoaded : view (k + 1) h ≠ .ready := fun loaded =>
    notReady (by simpa [loaded] using starts.le reads (k + 1) h)
  by_cases executing : view k h = .executing
  · rw [if_pos executing] at trace
    rcases succ : successorScan heap view fuel (heap h).successors (.pending, none) (k + 1) with
      _ | ⟨found, mid⟩ <;> simp only [succ, reduceCtorEq] at trace
    simp only [scanned succ, if_true, Option.some.injEq, Prod.mk.injEq] at trace
    rw [← trace.1, scanned succ]
  rw [if_neg executing, if_neg notLoaded] at trace
  by_cases completed : view (k + 2) h = .completed
  · rw [if_pos completed] at trace
    rcases succ : successorScan heap view fuel (heap h).successors (.pending, none) (k + 3) with
      _ | ⟨delay, mid⟩ <;> simp only [succ, reduceCtorEq] at trace
    simp only [scanned succ, if_true, Option.some.injEq, Prod.mk.injEq] at trace
    rw [← trace.1, scanned succ]
  exact (reads.hint_loaded executing notLoaded completed).elim

/-- With every pool node COMPLETED at the start, `trace_ready_node` from a pooled hint or from
`nullptr` returns `(Completed, nullptr)`, whatever the fuel. -/
theorem traceReadyNode_of_completed (reads : Reads view now) (starts : StartsAt view start)
    {g : ThreadGraph} (closed : EdgesClosed heap g.taskPool) (cache : CacheExact g start)
    {hint : Option NodeId} (pooled : ∀ h, hint = some h → h ∈ g.taskPool)
    (done : ∀ t ∈ g.taskPool, start t = .completed) (fuel k : Nat) :
    ∃ k', traceReadyNode heap view g fuel hint k = some ((.completed, none), k') := by
  have emptyCache : g.readyTasksCache = [] := List.eq_nil_iff_forall_not_mem.2 fun t cached => by
    have pooledReady := (cache t).1 cached
    simp [done t pooledReady.1] at pooledReady
  have entry : ∀ j, traceReadyEntry heap view g fuel j =
      some ((.completed, none), j + g.taskPool.length) := fun j => by
    simp [traceReadyEntry, emptyCache, scanExecuting_of_completed reads starts done]
  cases hint with
  | none => exact ⟨_, entry k⟩
  | some h =>
    have hDone := starts.completed reads (done h (pooled h rfl))
    refine ⟨k + 3 + (heap h).successors.length + g.taskPool.length, ?_⟩
    simp only [traceReadyNode, hDone, reduceCtorEq, if_false, if_true,
      successorScan_of_completed reads starts fun s member =>
        done s ((closed h (pooled h rfl)).2 s member), entry, Option.isSome_none]

end Sound


end Athread
