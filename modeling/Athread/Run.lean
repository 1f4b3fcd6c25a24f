import Athread.Worker
import Athread.Verdicts

/-!
# What every run keeps

The invariant of a run of `GraphWorker::process_tasks` from the state `ThreadGraph::start` leaves,
over every interleaving of the workers' steps and the client's `terminate()`:

* the ready cache holds exactly the READY pool nodes, in pool order;
* a node a worker runs is EXECUTING, and no two workers hold the same node;
* a node is started at most once, and a started node is never READY again;
* a COMPLETED pool node has returned, a claimed pool node has only COMPLETED predecessors, and
  every pool predecessor of a started node returned before it was started;
* a worker leaves its loop only once every pool node is COMPLETED, or after a payload threw or
  the client called `terminate()`.

Each step keeps the invariant (`RunInv.step`), so every reachable state has it
(`RunInv.reachable`).
-/

namespace Athread

open Relation

/-- A payload threw, or the client called `terminate()`. -/
def Faulted (log : List Event) : Prop :=
  .terminated ∈ log ∨ ∃ n e, .threw n e ∈ log

theorem Faulted.mono {log log' : List Event} (grows : log ⊆ log') : Faulted log → Faulted log'
  | .inl terminated => .inl (grows terminated)
  | .inr ⟨n, e, threw⟩ => .inr ⟨n, e, grows threw⟩

/-- What the invariant asks of one worker's place. -/
def PcOk (st : NodeId → RunnableState) (log : List Event) (pool : List NodeId) : WorkerPc → Prop
  | .running n => st n = .executing ∧ .returned n ∉ log ∧ ∀ e, .threw n e ∉ log
  | .finishing n => st n = .executing ∧ .returned n ∈ log ∧ ∀ e, .threw n e ∉ log
  | .caught e | .raising e | .done (some e) => ∃ n, .threw n e ∈ log
  | .exiting | .done none => (∀ t ∈ pool, st t = .completed) ∨ Faulted log
  | _ => True

section PcOk

variable {st st' : NodeId → RunnableState} {log log' : List Event} {pool : List NodeId}
  {pc : WorkerPc}

@[simp] theorem pcOk_wake : PcOk st log pool pc.wake = PcOk st log pool pc := by
  cases pc <;> rfl

theorem PcOk.held_executing (ok : PcOk st log pool pc) {n : NodeId} (held : pc.held = some n) :
    st n = .executing := by
  cases pc <;> cases held
  exacts [ok.1, ok.1]

/-- A worker's place stays sound while the states only complete, the log only grows, and nothing
changes about the node it holds. -/
theorem PcOk.mono (ok : PcOk st log pool pc) (grows : log ⊆ log')
    (completes : ∀ t, st t = .completed → st' t = .completed)
    (holds : ∀ n, pc.held = some n → st' n = st n ∧ (.returned n ∈ log' ↔ .returned n ∈ log) ∧
      ∀ e, .threw n e ∈ log' ↔ .threw n e ∈ log) :
    PcOk st' log' pool pc := by
  have outcome : ∀ {e}, (∃ n, .threw n e ∈ log) → ∃ n, .threw n e ∈ log' :=
    fun ⟨n, threw⟩ => ⟨n, grows threw⟩
  have exits : (∀ t ∈ pool, st t = .completed) ∨ Faulted log →
      (∀ t ∈ pool, st' t = .completed) ∨ Faulted log' :=
    Or.imp (fun done t member => completes t (done t member)) (Faulted.mono grows)
  cases pc with
  | running n =>
    obtain ⟨same, returned, threw⟩ := holds n rfl
    simpa only [PcOk, same, returned, threw] using ok
  | finishing n =>
    obtain ⟨same, returned, threw⟩ := holds n rfl
    simpa only [PcOk, same, returned, threw] using ok
  | caught e => exact outcome ok
  | raising e => exact outcome ok
  | exiting => exact exits ok
  | done r =>
    cases r
    · exact exits ok
    · exact outcome ok
  | checking | tracing | waiting | notifying => trivial

end PcOk

/-- No two workers hold the same node. -/
def HeldUnique (pcs : Nat → Option WorkerPc) : Prop :=
  ∀ i j pc pc' n, pcs i = some pc → pcs j = some pc' → pc.held = some n → pc'.held = some n → i = j

/-- Worker `i` moves to a place that holds nothing, or its old node, or a node no one holds. -/
theorem HeldUnique.setPc {s : Sys} (unique : HeldUnique s.pc?) {i : Nat} {old pc : WorkerPc}
    (current : s.pc? i = some old)
    (fresh : ∀ n, pc.held = some n → old.held = some n ∨ ∀ j q, s.pc? j = some q → q.held ≠ some n) :
    HeldUnique (s.setPc i pc).pc? := by
  intro j k q q' n atJ atK heldJ heldK
  rcases Sys.pc?_setPc_eq_some atJ with ⟨rfl, rfl⟩ | ⟨otherJ, beforeJ⟩ <;>
    rcases Sys.pc?_setPc_eq_some atK with ⟨rfl, rfl⟩ | ⟨otherK, beforeK⟩
  · rfl
  · rcases fresh n heldJ with same | free
    · exact unique _ _ _ _ n current beforeK same heldK
    · exact (free k q' beforeK heldK).elim
  · rcases fresh n heldK with same | free
    · exact unique _ _ _ _ n beforeJ current heldJ same
    · exact (free j q beforeJ heldJ).elim
  · exact unique _ _ _ _ n beforeJ beforeK heldJ heldK

theorem HeldUnique.notifyAll {s : Sys} (unique : HeldUnique s.pc?) : HeldUnique s.notifyAll.pc? := by
  intro j k q q' n atJ atK heldJ heldK
  obtain ⟨q₀, beforeJ, rfl⟩ := Sys.pc?_notifyAll_eq_some atJ
  obtain ⟨q₀', beforeK, rfl⟩ := Sys.pc?_notifyAll_eq_some atK
  rw [WorkerPc.held_wake] at heldJ heldK
  exact unique _ _ _ _ n beforeJ beforeK heldJ heldK

/-- Every pool predecessor of a started node returned before the node was started. -/
def ReturnedBefore (preds : NodeId → List NodeId) (pool : List NodeId) (log : List Event) : Prop :=
  ∀ S newer older, log = newer ++ .started S :: older → ∀ P ∈ preds S, P ∈ pool → .returned P ∈ older

theorem ReturnedBefore.cons {preds : NodeId → List NodeId} {pool : List NodeId} {log : List Event}
    {ev : Event} (before : ReturnedBefore preds pool log)
    (fresh : ∀ S, ev = .started S → ∀ P ∈ preds S, P ∈ pool → .returned P ∈ log) :
    ReturnedBefore preds pool (ev :: log) := by
  intro S newer older split
  cases newer with
  | nil =>
    simp only [List.nil_append, List.cons.injEq] at split
    obtain ⟨rfl, rfl⟩ := split
    exact fresh S rfl
  | cons x newer =>
    simp only [List.cons_append, List.cons.injEq] at split
    exact before S newer older split.2

/-- The invariant of a run. -/
structure RunInv (s : Sys) : Prop where
  cache_eq : s.graph.readyTasksCache = s.graph.taskPool.filter (s.states · = .ready)
  workers : ∀ i pc, s.pc? i = some pc → PcOk s.states s.log s.graph.taskPool pc
  held_unique : HeldUnique s.pc?
  started_once : ∀ n, s.log.count (.started n) ≤ 1
  started_not_ready : ∀ n, .started n ∈ s.log → s.states n ≠ .ready
  returned_not_ready : ∀ n, .returned n ∈ s.log → s.states n ≠ .ready
  threw_executing : ∀ n e, .threw n e ∈ s.log → s.states n = .executing
  pool_started : ∀ t ∈ s.graph.taskPool, s.states t ≠ .ready → .started t ∈ s.log
  completed_returned : ∀ t ∈ s.graph.taskPool, s.states t = .completed → .returned t ∈ s.log
  claimed_preds : ∀ t ∈ s.graph.taskPool, s.states t ≠ .ready →
    ∀ p ∈ (s.heap t).predecessors, s.states p = .completed
  returned_before : ReturnedBefore (fun t => (s.heap t).predecessors) s.graph.taskPool s.log
  flag_faulted : s.graph.terminationFlag = true → Faulted s.log

section Steps

variable {s : Sys}

theorem RunInv.cacheExact (inv : RunInv s) : CacheExact s.graph s.states := fun t => by
  simp [inv.cache_eq]

/-- The state `ThreadGraph::start` leaves: every pool node READY, every worker at the top of its
loop, the flag clear, and nothing done yet. -/
theorem runInv_launch (heap : Heap) (g : ThreadGraph) : RunInv (Sys.launch heap g) where
  cache_eq := (List.filter_eq_self.2 fun t member => by simp_all).symm
  workers i pc current := by
    simp only [Sys.pc?_launch] at current
    split_ifs at current
    cases current
    trivial
  held_unique i j pc pc' n current _ held _ := by
    simp only [Sys.pc?_launch] at current
    split_ifs at current
    cases current
    cases held
  started_once n := by simp
  started_not_ready n started := by simp at started
  returned_not_ready n returned := by simp at returned
  threw_executing n e threw := by simp at threw
  pool_started t member notReady := by simp_all
  completed_returned t member completed := by simp_all
  claimed_preds t member notReady := by simp_all
  returned_before S newer older split := by simp at split
  flag_faulted flag := by simp at flag

/-- Worker `i` moves to a sound place that holds nothing, or the node it held. -/
theorem RunInv.setPc (inv : RunInv s) {i : Nat} {old : WorkerPc} (pc : WorkerPc) (current : s.pc? i = some old)
    (ok : PcOk s.states s.log s.graph.taskPool pc) (held : pc.held = none ∨ pc.held = old.held) :
    RunInv (s.setPc i pc) :=
  { inv with
    workers := fun j q atJ => by
      rcases Sys.pc?_setPc_eq_some atJ with ⟨-, rfl⟩ | ⟨-, before⟩
      exacts [ok, inv.workers j q before]
    held_unique := inv.held_unique.setPc current fun n heldN => .inl <| by
      rcases held with free | same
      · simp [free] at heldN
      · rwa [← same] }

theorem RunInv.notifyAll (inv : RunInv s) : RunInv s.notifyAll :=
  { inv with
    workers := fun j q atJ => by
      obtain ⟨q₀, before, rfl⟩ := Sys.pc?_notifyAll_eq_some atJ
      rw [pcOk_wake]
      exact inv.workers j q₀ before
    held_unique := inv.held_unique.notifyAll }

theorem RunInv.setFlag (inv : RunInv s) (faulted : Faulted s.log) : RunInv s.setFlag :=
  { inv with flag_faulted := fun _ => faulted }

/-- The client's `terminate()`. -/
theorem RunInv.terminate (inv : RunInv s) : RunInv (s.setFlag.record .terminated) where
  cache_eq := inv.cache_eq
  workers j q atJ := (inv.workers j q atJ).mono (List.subset_cons_self _ _) (fun _ => id)
    fun n _ => by simp
  held_unique := inv.held_unique
  started_once n := by simpa using inv.started_once n
  started_not_ready n started := inv.started_not_ready n (by simpa using started)
  returned_not_ready n returned := inv.returned_not_ready n (by simpa using returned)
  threw_executing n e threw := inv.threw_executing n e (by simpa using threw)
  pool_started t member notReady := List.mem_cons_of_mem _ (inv.pool_started t member notReady)
  completed_returned t member done := List.mem_cons_of_mem _ (inv.completed_returned t member done)
  claimed_preds := inv.claimed_preds
  returned_before := inv.returned_before.cons (by simp)
  flag_faulted _ := .inl (List.mem_cons_self _ _)

/-- Worker `i`'s payload returned or threw: the outcome is logged and the worker moves on. -/
theorem RunInv.outcome (inv : RunInv s) {i : Nat} {n : NodeId} (current : s.pc? i = some (.running n))
    {pc : WorkerPc} {ev : Event}
    (outcome : ev = .returned n ∧ pc = .finishing n ∨ ∃ e, ev = .threw n e ∧ pc = .caught e) :
    RunInv ((s.setPc i pc).record ev) := by
  obtain ⟨executing, notReturned, notThrew⟩ := inv.workers i _ current
  have notStarted : ∀ S, ev ≠ .started S := by rintro S rfl; simp at outcome
  have others : ∀ m, m ≠ n → (.returned m ∈ ev :: s.log ↔ .returned m ∈ s.log) ∧
      ∀ e, .threw m e ∈ ev :: s.log ↔ .threw m e ∈ s.log := by
    intro m other
    rcases outcome with ⟨rfl, -⟩ | ⟨e, rfl, -⟩ <;> simp [other]
  have aboutN : ∀ m, ((∃ e, .threw m e = ev) ∨ .returned m = ev) → m = n := by
    rcases outcome with ⟨rfl, -⟩ | ⟨e, rfl, -⟩ <;> rintro m (⟨e', same⟩ | same) <;> simp_all
  exact {
    cache_eq := inv.cache_eq
    workers := fun j q atJ => by
      rcases Sys.pc?_setPc_eq_some atJ with ⟨-, rfl⟩ | ⟨other, before⟩
      · rcases outcome with ⟨rfl, rfl⟩ | ⟨e, rfl, rfl⟩
        · exact ⟨executing, List.mem_cons_self _ _, by simpa using notThrew⟩
        · exact ⟨n, List.mem_cons_self _ _⟩
      · refine (inv.workers j q before).mono (List.subset_cons_self _ _) (fun _ => id) fun m held => ?_
        have : m ≠ n := fun same => other (inv.held_unique i j _ q n current before rfl (same ▸ held))
        exact ⟨rfl, others m this⟩
    held_unique := inv.held_unique.setPc current fun m held => .inl <| by
      rcases outcome with ⟨-, rfl⟩ | ⟨e, -, rfl⟩
      · exact held
      · cases held
    started_once := fun m => by
      simpa [List.count_cons, notStarted, fun h => notStarted m (Eq.symm h)] using inv.started_once m
    started_not_ready := fun m started => inv.started_not_ready m <|
      (List.mem_cons.1 started).resolve_left fun same => notStarted m same.symm
    returned_not_ready := fun m returned => by
      rcases List.mem_cons.1 returned with same | returned
      · rw [aboutN m (.inr same)]
        simp [executing]
      · exact inv.returned_not_ready m returned
    threw_executing := fun m e threw => by
      rcases List.mem_cons.1 threw with same | threw
      · rw [aboutN m (.inl ⟨e, same⟩)]
        exact executing
      · exact inv.threw_executing m e threw
    pool_started := fun t member notReady => List.mem_cons_of_mem _ (inv.pool_started t member notReady)
    completed_returned := fun t member done =>
      List.mem_cons_of_mem _ (inv.completed_returned t member done)
    claimed_preds := inv.claimed_preds
    returned_before := inv.returned_before.cons fun S started => (notStarted S started).elim
    flag_faulted := fun flag => (inv.flag_faulted flag).mono (List.subset_cons_self _ _) }

/-- The locked section ends in the claim of `n`, a node that is READY with every predecessor
COMPLETED. -/
theorem RunInv.claim (inv : RunInv s) {i : Nat} {h : Option NodeId} {n : NodeId}
    (current : s.pc? i = some (.tracing h)) (runnable : Runnable s.heap s.states n) :
    RunInv (s.claim i n) := by
  have ready := runnable.1
  have stays : ∀ t, s.states t ≠ .ready → (s.claim i n).states t = s.states t := by
    intro t notReady
    rw [Sys.states_claim, if_neg]
    rintro rfl
    exact notReady ready
  have notStarted : .started n ∉ s.log := fun started => inv.started_not_ready n started ready
  have atJ : ∀ {j q}, (s.claim i n).pc? j = some q → i = j ∧ q = .running n ∨ i ≠ j ∧ s.pc? j = some q :=
    fun atJ => @Sys.pc?_setPc_eq_some s _ _ _ _ atJ
  exact {
    cache_eq := by
      rw [Sys.cache_claim, inv.cache_eq, (s.graph.taskPool_nodup.filter _).erase_eq_filter,
        List.filter_filter]
      refine List.filter_congr fun t _ => ?_
      by_cases same : t = n <;> simp [same, ready]
    workers := fun j q current' => by
      rcases atJ current' with ⟨-, rfl⟩ | ⟨-, before⟩
      · refine ⟨by simp, by simpa using fun returned => inv.returned_not_ready n returned ready,
          fun e => by simpa using fun threw => by simpa [ready] using inv.threw_executing n e threw⟩
      · have ok := inv.workers j q before
        exact ok.mono (List.subset_cons_self _ _) (fun t done => by rw [stays t (by simp [done])]; exact done)
          fun m held => ⟨stays m (by simp [ok.held_executing held]), by simp, by simp⟩
    held_unique := inv.held_unique.setPc current fun m held => .inr fun j q atJ heldJ => by
      cases held
      simpa [ready] using (inv.workers j q atJ).held_executing heldJ
    started_once := fun m => by
      by_cases same : m = n
      · subst same
        simp [List.count_cons, List.count_eq_zero_of_not_mem notStarted]
      · simpa [List.count_cons, same, Ne.symm same] using inv.started_once m
    started_not_ready := fun m started => by
      rcases List.mem_cons.1 started with same | started
      · cases same
        simp
      · rw [stays m (inv.started_not_ready m started)]
        exact inv.started_not_ready m started
    returned_not_ready := fun m returned => by
      have returned : .returned m ∈ s.log := by simpa using returned
      rw [stays m (inv.returned_not_ready m returned)]
      exact inv.returned_not_ready m returned
    threw_executing := fun m e threw => by
      have executing := inv.threw_executing m e (by simpa using threw)
      rw [stays m (by simp [executing])]
      exact executing
    pool_started := fun t member notReady => by
      by_cases same : t = n
      · simp [same]
      · simp only [Sys.states_claim, same, if_false] at notReady
        exact List.mem_cons_of_mem _ (inv.pool_started t member notReady)
    completed_returned := fun t member done => by
      have other : t ≠ n := by rintro rfl; simp at done
      simp only [Sys.states_claim, other, if_false] at done
      exact List.mem_cons_of_mem _ (inv.completed_returned t member done)
    claimed_preds := fun t member notReady p pred => by
      have pred : p ∈ (s.heap t).predecessors := by simpa using pred
      have done : s.states p = .completed := by
        by_cases same : t = n
        · exact runnable.2 p (same ▸ pred)
        · simp only [Sys.states_claim, same, if_false] at notReady
          exact inv.claimed_preds t member notReady p pred
      rw [stays p (by simp [done])]
      exact done
    returned_before := by
      have fresh := @ReturnedBefore.cons _ _ _ (.started n) inv.returned_before fun S same P pred pooled => by
        cases same
        exact inv.completed_returned P pooled (runnable.2 P pred)
      simpa using fresh
    flag_faulted := fun flag => (inv.flag_faulted flag).mono (List.subset_cons_self _ _) }

/-- `set_state(Completed)` once worker `i`'s payload returned. -/
theorem RunInv.store (inv : RunInv s) {i : Nat} {n : NodeId} (current : s.pc? i = some (.finishing n)) :
    RunInv (s.store i n) := by
  obtain ⟨executing, returned, notThrew⟩ := inv.workers i _ current
  have stays : ∀ t, t ≠ n → (s.store i n).states t = s.states t := fun t other => by simp [other]
  have completes : ∀ t, s.states t = .completed → (s.store i n).states t = .completed := by
    intro t done
    by_cases same : t = n <;> simp [same, done]
  have readyIff : ∀ t, (s.store i n).states t = .ready ↔ s.states t = .ready := by
    intro t
    by_cases same : t = n <;> simp [same, executing]
  have atJ : ∀ {j q}, (s.store i n).pc? j = some q →
      i = j ∧ q = .notifying n ∨ i ≠ j ∧ s.pc? j = some q :=
    fun atJ => @Sys.pc?_setPc_eq_some s _ _ _ _ atJ
  exact {
    cache_eq := by
      rw [Sys.cache_store, inv.cache_eq]
      exact List.filter_congr fun t _ => by simp only [readyIff]
    workers := fun j q current' => by
      rcases atJ current' with ⟨-, rfl⟩ | ⟨other, before⟩
      · trivial
      · refine (inv.workers j q before).mono (List.Subset.refl _) completes
          fun m held => ⟨stays m ?_, Iff.rfl, fun _ => Iff.rfl⟩
        rintro rfl
        exact other (inv.held_unique i j _ q m current before rfl held)
    held_unique := inv.held_unique.setPc current fun m held => by cases held
    started_once := inv.started_once
    started_not_ready := fun m started => mt (readyIff m).1 (inv.started_not_ready m started)
    returned_not_ready := fun m returned => mt (readyIff m).1 (inv.returned_not_ready m returned)
    threw_executing := fun m e threw => by
      rw [stays m (by rintro rfl; exact notThrew e threw)]
      exact inv.threw_executing m e threw
    pool_started := fun t member notReady => inv.pool_started t member (mt (readyIff t).2 notReady)
    completed_returned := fun t member done => by
      by_cases same : t = n
      · exact same ▸ returned
      · rw [stays t same] at done
        exact inv.completed_returned t member done
    claimed_preds := fun t member notReady p pred =>
      completes p (inv.claimed_preds t member (mt (readyIff t).2 notReady) p (by simpa using pred))
    returned_before := by simpa using inv.returned_before
    flag_faulted := inv.flag_faulted }

/-- Every step of a run keeps the invariant. -/
theorem RunInv.step (inv : RunInv s) {a : Action} {s' : Sys} (step : Step s a s') : RunInv s' := by
  cases step with
  | check current =>
    cases flag : s.graph.terminationFlag
    · exact inv.setPc _ current trivial (.inl rfl)
    · exact inv.setPc _ current (.inr (inv.flag_faulted flag)) (.inl rfl)
  | claim current reads trace =>
    exact inv.claim current (traceReadyNode_sound reads inv.cacheExact trace).1
  | block current => exact inv.setPc _ current trivial (.inl rfl)
  | finish current reads trace =>
    exact inv.setPc _ current (.inl (traceReadyNode_sound reads inv.cacheExact trace)) (.inl rfl)
  | ret current => exact inv.outcome current (.inl ⟨rfl, rfl⟩)
  | throw e current => exact inv.outcome current (.inr ⟨e, rfl, rfl⟩)
  | store current => exact inv.store current
  | notify current => exact (inv.setPc (.checking _) current trivial (.inl rfl)).notifyAll
  | exit current => exact (inv.setPc (.done none) current (inv.workers _ .exiting current) (.inl rfl)).notifyAll
  | flag current =>
    obtain ⟨n, threw⟩ := inv.workers _ _ current
    exact (inv.setPc (.raising _) current ⟨n, threw⟩ (.inl rfl)).setFlag (.inr ⟨n, _, threw⟩)
  | raise current =>
    exact (inv.setPc (.done (some _)) current (inv.workers _ (.raising _) current) (.inl rfl)).notifyAll
  | spurious current => exact inv.setPc _ current trivial (.inl rfl)
  | terminate => exact inv.terminate

theorem RunInv.reachable {s₀ : Sys} (init : RunInv s₀) (reach : Reachable s₀ s) : RunInv s := by
  induction reach with
  | refl => exact init
  | step _ step inductionHypothesis => exact inductionHypothesis.step step

end Steps

/-! ## Graphs whose edges stay in the pool -/

/-- What a run keeps when the graph's edges stay in its pool: every node a worker names, and
every node started, is a pool node. -/
structure PoolInv (s : Sys) : Prop where
  closed : EdgesClosed s.heap s.graph.taskPool
  named : ∀ i pc n, s.pc? i = some pc → pc.node = some n → n ∈ s.graph.taskPool
  started_pooled : ∀ n, .started n ∈ s.log → n ∈ s.graph.taskPool

section Pool

variable {s : Sys}

theorem poolInv_launch {heap : Heap} {g : ThreadGraph} (closed : EdgesClosed heap g.taskPool) :
    PoolInv (Sys.launch heap g) where
  closed n member := by simpa [Sys.launch, startAfterWait] using closed n member
  named i pc n current named := by
    simp only [Sys.pc?_launch] at current
    split_ifs at current
    cases current
    cases named
  started_pooled n started := by simp at started

/-- A trace that names a node, in a PENDING or a READY verdict, names a pool node. -/
theorem PoolInv.traced (pool : PoolInv s) (inv : RunInv s) {i : Nat} {h : Option NodeId}
    {view : View} {fuel k : Nat} {verdict : TraceNodeState} {n : NodeId}
    (current : s.pc? i = some (.tracing h)) (reads : Reads view s.states)
    (trace : traceReadyNode s.heap view s.graph fuel h 0 = some ((verdict, some n), k))
    (named : verdict ≠ .completed) : n ∈ s.graph.taskPool :=
  traceReadyNode_pooled pool.closed inv.cacheExact (fun e hint => pool.named i _ e current hint) reads
    trace named

theorem PoolInv.setPc (pool : PoolInv s) {i : Nat} (pc : WorkerPc)
    (named : ∀ n, pc.node = some n → n ∈ s.graph.taskPool) : PoolInv (s.setPc i pc) where
  closed := pool.closed
  named j q n atJ nodeN := by
    rcases Sys.pc?_setPc_eq_some atJ with ⟨-, rfl⟩ | ⟨-, before⟩
    exacts [named n nodeN, pool.named j q n before nodeN]
  started_pooled := pool.started_pooled

theorem PoolInv.notifyAll (pool : PoolInv s) : PoolInv s.notifyAll :=
  { pool with
    named := fun j q n atJ nodeN => by
      obtain ⟨q₀, before, rfl⟩ := Sys.pc?_notifyAll_eq_some atJ
      exact pool.named j q₀ n before (by simpa using nodeN) }

theorem PoolInv.record (pool : PoolInv s) {ev : Event}
    (fresh : ∀ n, ev = .started n → n ∈ s.graph.taskPool) : PoolInv (s.record ev) :=
  { pool with
    started_pooled := fun n started => (List.mem_cons.1 started).elim (fun same => fresh n same.symm)
      (pool.started_pooled n) }

/-- Every step of a run of a graph whose edges stay in its pool keeps `PoolInv`. -/
theorem PoolInv.step (pool : PoolInv s) (inv : RunInv s) {a : Action} {s' : Sys}
    (step : Step s a s') : PoolInv s' := by
  have same : ∀ {i old} pc, s.pc? i = some old → pc.node = old.node → PoolInv (s.setPc i pc) :=
    fun pc current node => pool.setPc pc fun n named => pool.named _ _ n current (node ▸ named)
  have unnamed : ∀ {i} pc, pc.node = none → PoolInv (s.setPc i pc) :=
    fun pc node => pool.setPc pc fun n named => by simp [node] at named
  cases step with
  | check current =>
    cases s.graph.terminationFlag
    exacts [same (.tracing _) current rfl, unnamed .exiting rfl]
  | claim current reads trace =>
    have pooled := pool.traced inv current reads trace (by simp)
    exact {
      closed := fun t member => by simpa using pool.closed t member
      named := fun j q m atJ nodeM => by
        rcases @Sys.pc?_setPc_eq_some s _ _ _ _ atJ with ⟨-, rfl⟩ | ⟨-, before⟩
        · cases nodeM
          exact pooled
        · exact pool.named j q m before nodeM
      started_pooled := fun m started => (List.mem_cons.1 started).elim
        (fun same => by cases same; exact pooled) (pool.started_pooled m) }
  | block current reads trace =>
    refine pool.setPc (.waiting _) fun n named => ?_
    cases named
    exact pool.traced inv current reads trace (by simp)
  | finish => exact unnamed .exiting rfl
  | ret current => exact (same (.finishing _) current rfl).record (by simp)
  | throw e current => exact (unnamed (.caught e) rfl).record (by simp)
  | store current =>
    have stored := same (.notifying _) current rfl
    exact { stored with closed := fun t member => by simpa using pool.closed t member }
  | notify current => exact (same (.checking _) current rfl).notifyAll
  | exit => exact (unnamed (.done none) rfl).notifyAll
  | flag => exact { unnamed (.raising _) rfl with }
  | raise => exact (unnamed (.done (some _)) rfl).notifyAll
  | spurious current => exact same (.checking _) current rfl
  | terminate => exact { pool.record (by simp) with }

theorem PoolInv.reachable {s₀ : Sys} (init : PoolInv s₀) (initInv : RunInv s₀)
    (reach : Reachable s₀ s) : PoolInv s ∧ RunInv s := by
  induction reach with
  | refl => exact ⟨init, initInv⟩
  | step _ step inductionHypothesis =>
    exact ⟨inductionHypothesis.1.step inductionHypothesis.2 step, inductionHypothesis.2.step step⟩

end Pool

end Athread
