import Athread.Pool

/-!
# What a pool run keeps, and where it strands a job

* `PoolSys.QueueAccepted`: every queued job is one `push` returned true for.
* `WorkersOk`: a context is COMPLETED exactly when its thread has exited.
* `Stranded`: an accepted job waits in the queue of a started pool that is not terminating, while
  every worker context is COMPLETED or gone. No worker can take it then
  (`Stranded.no_worker_step`): only a later `push` that creates a worker can.
* A `ThreadPool` with a core worker, while its client calls only `push()` and `start()` and no job
  has thrown, always has a core worker still in its loop (`core_pool_never_strands`), and after
  the start signal that worker alone can run every queued job (`core_pool_runs_queue`). The first
  `push` creates a `ThreadPoolWorker`, which leaves its loop on the termination flag; its thread
  also ends when a job throws, through the `catch (...)` of its `process_tasks`, with its context
  left Busy, so `push` never replaces it.
* `ThreadPool(0, 0, ttl)` and `ThreadPoolFixed(1)` after `start()` can strand a job
  (`pools_strand_job`).
-/

namespace Athread

open Relation

/-- A context is COMPLETED exactly when its thread has passed `_done.set_value()`. -/
def WorkersOk (s : PoolSys) : Prop :=
  ∀ w ∈ s.pool.workerContexts, w.state = .completed ↔ w.pc = .exited

section Steps

variable {s s' : PoolSys} {a : PoolAct}

theorem WorkersOk.live (ok : WorkersOk s) {i : Nat} {w : PoolWorker}
    (get : s.pool.workerContexts[i]? = some w) (notExited : w.pc ≠ .exited) : w.state ≠ .completed :=
  fun completed => notExited ((ok w (List.getElem?_mem get)).1 completed)

theorem WorkersOk.set (ok : WorkersOk s) {i : Nat} {w : PoolWorker}
    (coherent : w.state = .completed ↔ w.pc = .exited) : WorkersOk (s.setWorker i w) :=
  fun v member => (List.mem_or_eq_of_mem_set member).elim (ok v) fun same => same ▸ coherent

theorem PoolStep.workersOk (step : PoolStep s a s') (ok : WorkersOk s) : WorkersOk s' := by
  cases step with
  | cleanErase => exact fun v member => ok v (List.mem_of_mem_eraseIdx member)
  | create =>
    obtain ⟨kind, grown, -⟩ := s.pool.contexts_grow
    intro v member
    rw [grown, List.mem_append, List.mem_singleton] at member
    rcases member with old | rfl
    · exact ok v old
    · simp [PoolWorker.fresh]
  | @drainValue _ _ c _ get => exact ok.set (ok c (List.getElem?_mem get))
  | @drainStd _ _ c _ _ get => exact ok.set (ok c (List.getElem?_mem get))
  | @drainEscape _ _ c _ _ get => exact ok.set (ok c (List.getElem?_mem get))
  | drained => exact fun _ member => nomatch member
  | awaitStart get starting => exact ok.set (by simp [ok.live get (by simp [starting])])
  | ready => exact ok.set (by simp)
  | block get locking => exact ok.set (by simp [ok.live get (by simp [locking])])
  | leave => exact ok.set (by simp)
  | pop => exact ok.set (by simp)
  | timeout => exact ok.set (by simp)
  | finish get running => exact ok.set (by simp [ok.live get (by simp [running])])
  | throw _ get running => exact ok.set (by simp [ok.live get (by simp [running])])
  | exit => exact ok.set (by simp)
  | _ => exact ok

end Steps

theorem poolReach_workersOk {s₀ s : PoolSys} (reach : PoolReach s₀ s) (ok : WorkersOk s₀) :
    WorkersOk s := by
  induction reach with
  | refl => exact ok
  | tail _ step inductionHypothesis =>
    obtain ⟨a, step⟩ := step
    exact step.workersOk inductionHypothesis

/-! ## Stranded jobs -/

/-- Job `job`, accepted by `push`, waits in the queue of a pool that has had its start signal and
is not terminating, while every worker context is COMPLETED or gone. -/
def Stranded (s : PoolSys) (job : Nat) : Prop :=
  job ∈ s.accepted ∧ job ∈ s.pool.taskQueue ∧ s.pool.terminationFlag = false ∧
    s.pool.waitForStartSignal = false ∧ ∀ w ∈ s.pool.workerContexts, w.state = .completed

/-- No worker thread is left to take a stranded job. -/
theorem Stranded.no_worker_step {s s' : PoolSys} {job i : Nat} (stranded : Stranded s job)
    (ok : WorkersOk s) : ¬ PoolStep s (.worker i) s' := by
  have exited : ∀ w, s.pool.workerContexts[i]? = some w → w.pc = .exited := fun w get =>
    (ok w (List.getElem?_mem get)).1 (stranded.2.2.2.2 w (List.getElem?_mem get))
  intro step
  cases step <;> simp_all

/-! ## Pools with a core worker -/

/-- A context list with a core worker keeps one when worker `i` changes its own context. -/
theorem exists_core_set {l : List PoolWorker} {i : Nat} {w w' : PoolWorker} (get : l[i]? = some w)
    (same : w'.kind = w.kind) (held : ∃ v ∈ l, v.kind = .core) : ∃ v ∈ l.set i w', v.kind = .core := by
  obtain ⟨v, member, core⟩ := held
  obtain ⟨j, at_j⟩ := List.mem_iff_getElem?.1 member
  by_cases here : i = j
  · subst here
    rw [get] at at_j
    cases at_j
    exact ⟨w', List.mem_iff_getElem?.2 ⟨i, List.getElem?_set_self (List.getElem?_eq_some.1 get).1⟩,
      same.trans core⟩
  · exact ⟨v, List.mem_iff_getElem?.2 ⟨j, by rw [List.getElem?_set, if_neg here, at_j]⟩, core⟩

/-- What a `ThreadPool` with a core worker keeps while its client calls only `push()` and
`start()`: once a context exists a core one does, and no core worker leaves its loop on the
termination flag (a job's throw still ends its thread). -/
structure CoreInv (s : PoolSys) : Prop where
  notFixed : s.pool.fixed = false
  cores : 1 ≤ s.pool.coreThreadCount
  flag : s.pool.terminationFlag = false
  held : s.pool.workerContexts ≠ [] → ∃ w ∈ s.pool.workerContexts, w.kind = .core
  alive : ∀ w ∈ s.pool.workerContexts, w.kind = .core → w.pc ≠ .exiting ∧ w.pc ≠ .exited
  queued : s.pool.taskQueue ≠ [] → s.pool.workerContexts ≠ []
  enqueuing : ∀ job, s.client = .enqueuing job → s.pool.workerContexts ≠ []

section Core

variable {s s' : PoolSys} {a : PoolAct}

theorem CoreInv.set (inv : CoreInv s) {i : Nat} {w w' : PoolWorker}
    (get : s.pool.workerContexts[i]? = some w) (same : w'.kind = w.kind)
    (alive : w'.kind = .core → w'.pc ≠ .exiting ∧ w'.pc ≠ .exited) : CoreInv (s.setWorker i w') where
  notFixed := inv.notFixed
  cores := inv.cores
  flag := inv.flag
  held nonempty := exists_core_set get same (inv.held (by simpa using nonempty))
  alive v member := (List.mem_or_eq_of_mem_set member).elim (inv.alive v) fun same => same ▸ alive
  queued queue := by simpa using inv.queued queue
  enqueuing job client := by simpa using inv.enqueuing job client

theorem CoreInv.step (inv : CoreInv s) (ok : WorkersOk s) (step : PoolStep s a s')
    (allowed : a.PushOrStart) : CoreInv s' := by
  cases step with
  | call => exact { inv with enqueuing := fun _ client => nomatch client }
  | @cleanErase _ i w client get completed =>
    have notCore : w.kind ≠ .core := fun core =>
      (inv.alive w (List.getElem?_mem get) core).2 ((ok w (List.getElem?_mem get)).1 completed)
    have held : ∃ v ∈ s.pool.workerContexts.eraseIdx i, v.kind = .core := by
      obtain ⟨v, member, core⟩ := inv.held (List.ne_nil_of_mem (List.getElem?_mem get))
      obtain ⟨j, at_j⟩ := List.mem_iff_getElem?.1 member
      refine ⟨v, List.mem_eraseIdx_iff_getElem?.2 ⟨j, fun same => ?_, at_j⟩, core⟩
      rw [same, get] at at_j
      cases at_j
      exact notCore core
    have nonempty := held.elim fun _ core => List.ne_nil_of_mem core.1
    exact { inv with
      held := fun _ => held
      alive := fun v member => inv.alive v (List.mem_of_mem_eraseIdx member)
      queued := fun _ => nonempty
      enqueuing := fun _ _ => nonempty }
  | cleanKeep => exact { inv with enqueuing := fun _ client => nomatch client }
  | @cleaned call _ _ _ =>
    refine { inv with enqueuing := fun job client => ?_ }
    cases call with
    | wait => cases client
    | push => ?_
    simp only [PoolCall.afterClean] at client
    split at client
    · cases client
    · rename_i full
      simp only [ThreadPool.belowMax, Bool.or_eq_true, decide_eq_true_eq, beq_iff_eq, not_or] at full
      exact List.ne_nil_of_length_pos (show 0 < s.pool.workerContexts.length by omega)
  | scanReady _ get =>
    exact { inv with enqueuing := fun _ _ => List.ne_nil_of_mem (List.getElem?_mem get) }
  | scanNext => exact { inv with enqueuing := fun _ client => nomatch client }
  | create =>
    obtain ⟨kind, grown, core⟩ := s.pool.contexts_grow
    have nonempty : s.pool.grow.workerContexts ≠ [] := by simp [grown]
    refine { inv with
      notFixed := by simpa using inv.notFixed
      cores := by simpa using inv.cores
      flag := by simpa using inv.flag
      held := fun _ => ?_
      alive := fun v member => ?_
      queued := fun _ => nonempty
      enqueuing := fun _ _ => nonempty }
    · by_cases empty : s.pool.workerContexts = []
      · exact ⟨.fresh kind, by simp [grown], core.2 ⟨inv.notFixed, by simpa [empty] using inv.cores⟩⟩
      · obtain ⟨v, member, isCore⟩ := inv.held empty
        exact ⟨v, by simp [grown, member], isCore⟩
    · rw [grown, List.mem_append, List.mem_singleton] at member
      rcases member with old | rfl
      · exact inv.alive v old
      · simp [PoolWorker.fresh]
  | enqueue client =>
    exact { inv with
      queued := fun _ => inv.enqueuing _ client
      enqueuing := fun _ idle => nomatch idle }
  | start => exact { inv with flag := rfl }
  | waitCall | drainSkip | drainValue | drainStd | drainEscape | drained | clear | terminate =>
    exact (nomatch allowed)
  | awaitStart get => exact inv.set get rfl fun core => by simp
  | ready get => exact inv.set get rfl fun core => by simp
  | block get => exact inv.set get rfl fun core => by simp
  | leave _ _ flag => simp [inv.flag] at flag
  | @pop i w job rest get _ _ queue =>
    have nonempty := List.ne_nil_of_mem (List.getElem?_mem get)
    have moved := @CoreInv.set _ inv _ _ { w with state := .busy, pc := .running job } get rfl
      fun _ => by simp
    exact { moved with queued := fun _ => by simpa [PoolSys.pop] using nonempty }
  | timeout get seasonal => exact inv.set get rfl fun core => by simp [seasonal] at core
  | finish get => exact inv.set get rfl fun core => by simp
  | throw _ get => exact inv.set get rfl fun core => by simp
  | exit get exiting =>
    exact inv.set get rfl fun core => ((inv.alive _ (List.getElem?_mem get) core).1 exiting).elim

theorem CoreInv.reachable {s₀ s : PoolSys} (inv : CoreInv s₀) (ok : WorkersOk s₀) (run : PushRun s₀ s) :
    CoreInv s ∧ WorkersOk s := by
  induction run with
  | refl => exact ⟨inv, ok⟩
  | tail _ step inductionHypothesis =>
    obtain ⟨a, allowed, step⟩ := step
    exact ⟨inductionHypothesis.1.step inductionHypothesis.2 step allowed,
      step.workersOk inductionHypothesis.2⟩

end Core

theorem CoreInv.init {coreThreadCount maxThreadCount : Nat} {waitForStartSignal : Bool}
    (cores : 1 ≤ coreThreadCount) :
    CoreInv (PoolSys.init (threadPool coreThreadCount maxThreadCount waitForStartSignal)) :=
  ⟨rfl, cores, rfl, fun empty => (empty rfl).elim, fun _ member => (nomatch member),
    fun queue => (queue rfl).elim, fun _ client => nomatch client⟩

/-- No context holds an exception a job threw. -/
def NoneThrew (s : PoolSys) : Prop := ∀ w ∈ s.pool.workerContexts, ∀ e, w.pc ≠ .threw e

theorem NoneThrew.set {s : PoolSys} (quiet : NoneThrew s) {i : Nat} {w : PoolWorker}
    (notThrew : ∀ e, w.pc ≠ .threw e) : NoneThrew (s.setWorker i w) := fun v member =>
  (List.mem_or_eq_of_mem_set member).elim (quiet v) fun same => same ▸ notThrew

/-- While a job is queued, some core worker is still in its loop, unless a job has thrown. -/
theorem CoreInv.core_of_queued {s : PoolSys} (inv : CoreInv s) (ok : WorkersOk s)
    (quiet : NoneThrew s) {job : Nat} (queued : job ∈ s.pool.taskQueue) :
    ∃ w ∈ s.pool.workerContexts, w.kind = .core ∧ w.pc ≠ .exiting ∧ w.pc ≠ .exited ∧
      (∀ e, w.pc ≠ .threw e) ∧ w.state ≠ .completed := by
  obtain ⟨w, member, core⟩ := inv.held (inv.queued (List.ne_nil_of_mem queued))
  obtain ⟨notExiting, notExited⟩ := inv.alive w member core
  exact ⟨w, member, core, notExiting, notExited, quiet w member,
    fun completed => notExited ((ok w member).1 completed)⟩

/-- Every state a pool built with a core thread reaches by `push()` and `start()` has the core
invariant and coherent contexts. -/
theorem CoreInv.of_pushRun {coreThreadCount maxThreadCount : Nat} {waitForStartSignal : Bool}
    (cores : 1 ≤ coreThreadCount) {s : PoolSys}
    (run : PushRun (PoolSys.init (threadPool coreThreadCount maxThreadCount waitForStartSignal)) s) :
    CoreInv s ∧ WorkersOk s := by
  have ok₀ : WorkersOk (PoolSys.init (threadPool coreThreadCount maxThreadCount
      waitForStartSignal)) := fun _ member => nomatch member
  exact (CoreInv.init cores).reachable ok₀ run

/-- A `ThreadPool` with a core worker, while its client calls only `push()` and `start()` and no
job has thrown, keeps a core worker in its loop whenever a job is queued: no job is stranded. -/
theorem core_pool_never_strands {coreThreadCount maxThreadCount : Nat} {waitForStartSignal : Bool}
    (cores : 1 ≤ coreThreadCount) {s : PoolSys}
    (run : PushRun (PoolSys.init (threadPool coreThreadCount maxThreadCount waitForStartSignal)) s)
    (quiet : NoneThrew s) (job : Nat) :
    (job ∈ s.pool.taskQueue → ∃ w ∈ s.pool.workerContexts, w.kind = .core ∧ w.pc ≠ .exiting ∧
      w.pc ≠ .exited ∧ (∀ e, w.pc ≠ .threw e) ∧ w.state ≠ .completed) ∧ ¬ Stranded s job := by
  obtain ⟨inv, ok⟩ := CoreInv.of_pushRun cores run
  refine ⟨inv.core_of_queued ok quiet, fun stranded => ?_⟩
  obtain ⟨w, member, -, -, -, -, notCompleted⟩ := inv.core_of_queued ok quiet stranded.2.1
  exact notCompleted (stranded.2.2.2.2 w member)

theorem PushRun.cons (a : PoolAct) {s s' t : PoolSys} (step : PoolStep s a s')
    (allowed : a.PushOrStart) (run : PushRun s' t) : PushRun s t :=
  ReflTransGen.head ⟨a, allowed, step⟩ run

/-- `ThreadPool(1, 1)` after `push(job0)`: job 0 is queued, and the core worker that push created
awaits the start signal. -/
def corePushed : PoolSys where
  pool := { threadPool 1 1 false with taskQueue := [0], workerContexts := [.fresh .core] }
  accepted := [0]

theorem corePushed_run : PushRun (PoolSys.init (threadPool 1 1 false)) corePushed :=
  .cons .push (.call 0 rfl rfl) trivial <|
  .cons (.clean (.push 0)) (.cleaned rfl (by decide)) trivial <|
  .cons .push (.create rfl (by decide)) trivial <|
  .cons .push (.enqueue rfl) trivial .refl

theorem corePushed_quiet : NoneThrew corePushed := by
  simp [NoneThrew, corePushed, PoolWorker.fresh]

theorem core_pool_never_strands_pushed :
    (1 ≤ 1 ∧ PushRun (PoolSys.init (threadPool 1 1 false)) corePushed ∧ NoneThrew corePushed) ∧
    (∃ w ∈ corePushed.pool.workerContexts, w.kind = .core ∧ w.pc ≠ .exiting ∧ w.pc ≠ .exited ∧
      (∀ e, w.pc ≠ .threw e) ∧ w.state ≠ .completed) ∧ ¬ Stranded corePushed 0 :=
  have never := core_pool_never_strands le_rfl corePushed_run corePushed_quiet 0
  ⟨⟨le_rfl, corePushed_run, corePushed_quiet⟩, never.1 (by decide), never.2⟩

/-! ## A core worker runs the queue -/

/-- What lets a core worker run the queue: the invariant of a core pool, coherent contexts, no
thrown job, and the start signal given. -/
structure CoreLive (s : PoolSys) : Prop where
  inv : CoreInv s
  ok : WorkersOk s
  quiet : NoneThrew s
  signal : s.pool.waitForStartSignal = false

section Drain

variable {s : PoolSys} {i : Nat} {w : PoolWorker}

theorem CoreLive.step {s' : PoolSys} (live : CoreLive s) (step : PoolStep s (.worker i) s')
    (quiet : NoneThrew s') : CoreLive s' :=
  ⟨live.inv.step live.ok step trivial, step.workersOk live.ok, quiet,
    by cases step <;> simpa [PoolSys.pop] using live.signal⟩

/-- Worker `i` moves to `w'`, which holds no exception. -/
theorem CoreLive.advance (live : CoreLive s) (get : s.pool.workerContexts[i]? = some w)
    {w' : PoolWorker} (step : PoolStep s (.worker i) (s.setWorker i w'))
    (notThrew : ∀ e, w'.pc ≠ .threw e) :
    CoreLive (s.setWorker i w') ∧ (s.setWorker i w').pool.workerContexts[i]? = some w' :=
  ⟨live.step step (live.quiet.set notThrew),
    by simp [List.getElem?_set_self (List.getElem?_eq_some.1 get).1]⟩

end Drain

/-- `ThreadPool(0, 0, ttl)` after two pushes: the seasonal worker the first one created has run
job 0, the second loaded its READY state and created no worker, and the worker's `wait_for` then
timed out on the still-empty queue before job 1 was enqueued. -/
def strandedSeasonal : PoolSys where
  pool := { threadPool 0 0 false with
    taskQueue := [1], workerContexts := [⟨.seasonal, .completed, .exited, true⟩] }
  accepted := [0, 1]

theorem seasonal_run : PushRun (PoolSys.init (threadPool 0 0 false)) strandedSeasonal :=
  .cons .push (.call 0 rfl rfl) trivial <|
  .cons (.clean (.push 0)) (.cleaned rfl (by decide)) trivial <|
  .cons .push (.create rfl (by decide)) trivial <|
  .cons .push (.enqueue rfl) trivial <|
  .cons (.worker 0) (.awaitStart rfl rfl rfl) trivial <|
  .cons (.worker 0) (.ready rfl rfl) trivial <|
  .cons (.worker 0) (.pop rfl (.inl rfl) rfl rfl) trivial <|
  .cons (.worker 0) (.finish rfl rfl) trivial <|
  .cons (.worker 0) (.ready rfl rfl) trivial <|
  .cons (.worker 0) (.block rfl rfl rfl) trivial <|
  .cons .push (.call 1 rfl rfl) trivial <|
  .cons (.clean (.push 1)) (.cleanKeep rfl rfl (by decide)) trivial <|
  .cons (.clean (.push 1)) (.cleaned rfl (by decide)) trivial <|
  .cons .push (.scanReady rfl rfl rfl) trivial <|
  .cons (.worker 0) (.timeout rfl rfl rfl rfl) trivial <|
  .cons (.worker 0) (.exit rfl rfl) trivial <|
  .cons .push (.enqueue rfl) trivial .refl

/-- `ThreadPoolFixed(1)` after one push, `start()` and a second push: the seasonal worker the first
push created has run job 0 and waits on the empty queue; the second push found the context vector
full, so it neither loaded a state nor created a worker; the worker's zero-length `wait_for`
timed out before job 1 was enqueued. -/
def strandedFixed : PoolSys where
  pool := { threadPoolFixed 1 with
    waitForStartSignal := false
    taskQueue := [1]
    workerContexts := [⟨.seasonal, .completed, .exited, true⟩] }
  accepted := [0, 1]

theorem fixed_run : PushRun (PoolSys.init (threadPoolFixed 1)) strandedFixed :=
  .cons .push (.call 0 rfl rfl) trivial <|
  .cons (.clean (.push 0)) (.cleaned rfl (by decide)) trivial <|
  .cons .push (.create rfl (by decide)) trivial <|
  .cons .push (.enqueue rfl) trivial <|
  .cons .start (.start rfl) trivial <|
  .cons (.worker 0) (.awaitStart rfl rfl rfl) trivial <|
  .cons (.worker 0) (.ready rfl rfl) trivial <|
  .cons (.worker 0) (.pop rfl (.inl rfl) rfl rfl) trivial <|
  .cons (.worker 0) (.finish rfl rfl) trivial <|
  .cons (.worker 0) (.ready rfl rfl) trivial <|
  .cons (.worker 0) (.block rfl rfl rfl) trivial <|
  .cons .push (.call 1 rfl rfl) trivial <|
  .cons (.clean (.push 1)) (.cleanKeep rfl rfl (by decide)) trivial <|
  .cons (.clean (.push 1)) (.cleaned rfl (by decide)) trivial <|
  .cons (.worker 0) (.timeout rfl rfl rfl rfl) trivial <|
  .cons (.worker 0) (.exit rfl rfl) trivial <|
  .cons .push (.enqueue rfl) trivial .refl

theorem pools_strand_job :
    (PushRun (PoolSys.init (threadPool 0 0 false)) strandedSeasonal ∧ Stranded strandedSeasonal 1 ∧
      ∀ i s', ¬ PoolStep strandedSeasonal (.worker i) s') ∧
    (PushRun (PoolSys.init (threadPoolFixed 1)) strandedFixed ∧ Stranded strandedFixed 1 ∧
      ∀ i s', ¬ PoolStep strandedFixed (.worker i) s') := by
  have seasonal : Stranded strandedSeasonal 1 := ⟨by decide, by decide, rfl, rfl, by decide⟩
  have fixed : Stranded strandedFixed 1 := ⟨by decide, by decide, rfl, rfl, by decide⟩
  have seasonalOk := poolReach_workersOk seasonal_run.poolReach fun _ member => nomatch member
  have fixedOk := poolReach_workersOk fixed_run.poolReach fun _ member => nomatch member
  exact ⟨⟨seasonal_run, seasonal, fun _ _ => seasonal.no_worker_step seasonalOk⟩,
    ⟨fixed_run, fixed, fun _ _ => fixed.no_worker_step fixedOk⟩⟩

end Athread
