import Athread.Mutex
import Athread.WaitFor
import Mathlib

/-!
# A run without faults can always finish

`Athread.Mutex` shows that a run of `start()` in which no payload throws and the client does not
call `terminate()` never leaves every worker blocked or exited while one is blocked. This module
shows more: from every state of such a run, on a graph whose edges stay in its pool and form no
cycle, some schedule of the workers' own steps (no spurious wakeup needed) reaches the end of the
run. There every worker has returned from `process_tasks` without an exception, every pool node is
COMPLETED and was started exactly once, and `ThreadGraph::wait()` returns without raising.

* `Lagging`: the worker holding `_tasks_mutex` is in its locked section, and the states it found
  when it took the mutex differ from the current ones only by completions, so its trace can be
  run on the current states.
* `LockSys.measure`: what the run has left to do, ordered lexicographically: the workers that have
  not returned; the weight of the pool's states with the broadcasts still owed; the workers'
  distances to their next claim, wait, exit or store, with one more while the mutex is free.
* `progress`: from every reachable unfinished state one step lowers the measure.
* `clean_run_can_finish`: the measure is well founded, so the end of the run stays reachable.
* `genuine_runs_finite`: every step of the workers' own code lowers the measure, throws included,
  so only spurious wakeups and calls of `terminate()` can make a schedule infinite; on a pool
  without cycles the workers run out of such steps only where the threads of the code stop, with
  the mutex free and every worker returned or blocked.
* `clean_run_stops_finished`: without faults the workers never deadlock: they run out of steps only
  once every one has returned normally.
* `lockRun_terminate_strands`: `terminate()` alone, with no throw, can leave a worker blocked for
  good, so these results need both halves of `¬ Faulted`.
* `stuck_run_hangs`: once a worker is stuck, no continuation without spurious wakeups unsticks it,
  and `wait()`, so `terminate(true)` too, never returns.
-/

namespace Athread

open Relation

/-! ## The holder of `_tasks_mutex` -/

/-- The worker holding `_tasks_mutex` is tracing, and the states it found when it took the mutex
lag the current ones only by completions. -/
def Lagging (ls : LockSys) : Prop :=
  ∀ i σ, ls.mutex = some (i, σ) → (∃ h, ls.sys.pc? i = some (.tracing h)) ∧
    ∀ n, StateLe (σ n) (ls.sys.states n)

section Lagging

variable {s s' : Sys} {a : Action}

/-- A step that takes no mutex is never a step of a tracing worker. -/
theorem Step.keeps_tracing (step : Step s a s') (free : a.LockFree) {j : Nat} {h : Option NodeId}
    (tracing : s.pc? j = some (.tracing h)) : s'.pc? j = some (.tracing h) := by
  cases step with
  | claim | block | finish => exact free.elim
  | terminate => simpa using tracing
  | check current | ret current | throw _ current | store current | notify current
  | exit current | flag current | raise current | spurious current =>
    simp [Sys.ne_of_pc current tracing (by simp), tracing, WorkerPc.wake]

/-- A step that takes no mutex changes states only by a completion. -/
theorem Step.states_le (inv : RunInv s) (step : Step s a s') (free : a.LockFree) (n : NodeId) :
    StateLe (s.states n) (s'.states n) := by
  cases step with
  | claim | block | finish => exact free.elim
  | @store i m current =>
    rw [Sys.states_store]
    split_ifs with same
    · subst same
      rw [(inv.workers i _ current).1]
      exact .inr ⟨rfl, rfl⟩
    · exact .refl _
  | _ => exact .refl _

theorem Lagging.step {ls ls' : LockSys} {a : LockAction} (lagging : Lagging ls)
    (inv : RunInv ls.sys) (step : LockStep ls a ls') : Lagging ls' := by
  cases step with
  | lock current =>
    intro j σ held
    cases held
    exact ⟨⟨_, current⟩, fun n => .refl _⟩
  | claim | block | finish => exact fun _ _ held => nomatch held
  | free lockFree step =>
    intro j σ held
    obtain ⟨⟨h, tracing⟩, lag⟩ := lagging j σ held
    exact ⟨⟨h, step.keeps_tracing lockFree tracing⟩,
      fun n => (lag n).trans (step.states_le inv lockFree n)⟩

theorem Lagging.reachable {heap : Heap} {g : ThreadGraph} {ls : LockSys}
    (run : LockReach ⟨Sys.launch heap g, none⟩ ls) : Lagging ls := by
  induction run with
  | refl => exact fun _ _ held => nomatch held
  | tail before step lagging =>
    obtain ⟨a, step⟩ := step
    exact lagging.step ((runInv_launch heap g).reachable (LockReach.reachable before)) step

end Lagging

/-! ## What a run has left to do -/

namespace WorkerPc

/-- One while the worker's thread function has not returned. -/
def live : WorkerPc → Nat
  | done _ => 0
  | _ => 1

/-- One while the worker owes the broadcast after storing `Completed`. -/
def owes : WorkerPc → Nat
  | notifying _ => 1
  | _ => 0

/-- The worker's own steps before it claims, waits, leaves its loop, finishes its payload or, after
a throw, ends its thread function. -/
def rank : WorkerPc → Nat
  | checking _ => 5
  | tracing _ => 4
  | running _ => 3
  | caught _ => 2
  | raising _ => 1
  | _ => 0

@[simp] theorem live_wake (pc : WorkerPc) : pc.wake.live = pc.live := by cases pc <;> rfl
@[simp] theorem owes_wake (pc : WorkerPc) : pc.wake.owes = pc.owes := by cases pc <;> rfl

end WorkerPc

/-- What a node still weighs on a run: its claim, then its completion, worth two since the
completion leaves a broadcast owed. -/
def RunnableState.weight : RunnableState → Nat
  | .ready => 3
  | .executing => 2
  | .completed => 0

/-- Changing `g` at one element of a list without duplicates changes the sum at that element. -/
theorem sum_map_update {l : List NodeId} (nodup : l.Nodup) {n : NodeId} (member : n ∈ l)
    (f g : NodeId → Nat) (same : ∀ m, m ≠ n → g m = f m) :
    (l.map g).sum + f n = (l.map f).sum + g n := by
  induction l with
  | nil => cases member
  | cons x xs inductionHypothesis =>
    rw [List.nodup_cons] at nodup
    simp only [List.map_cons, List.sum_cons]
    by_cases here : x = n
    · subst here
      have rest : (xs.map g).sum = (xs.map f).sum :=
        congrArg List.sum (List.map_congr_left fun m inXs =>
          same m fun equal => nodup.1 (equal ▸ inXs))
      omega
    · have rest := inductionHypothesis nodup.2 ((List.mem_cons.1 member).resolve_left (Ne.symm here))
      rw [same x here]
      omega

/-- Changing one element of a list changes the sum at that element. -/
theorem sum_map_modify {α : Type} (F : α → Nat) (g : α → α) :
    ∀ (l : List α) (i : Nat) (c : α), l[i]? = some c →
      ((l.modify g i).map F).sum + F c = (l.map F).sum + F (g c)
  | [], i, c, found => by simp at found
  | x :: xs, 0, c, found => by
    simp only [List.getElem?_cons_zero, Option.some.injEq] at found
    subst found
    simp only [List.modify_zero_cons, List.map_cons, List.sum_cons]
    omega
  | x :: xs, i + 1, c, found => by
    simp only [List.getElem?_cons_succ] at found
    have rest := sum_map_modify F g xs i c found
    simp only [List.modify_succ_cons, List.map_cons, List.sum_cons]
    omega

namespace Sys

/-- The sum of `f` over the places of the workers. -/
def total (s : Sys) (f : WorkerPc → Nat) : Nat :=
  (s.graph.workerContexts.map fun c => f c.pc).sum

/-- The weight of the pool's states and of the broadcasts still owed. -/
def load (s : Sys) : Nat :=
  (s.graph.taskPool.map fun n => (s.states n).weight).sum + s.total WorkerPc.owes

variable {s : Sys}

theorem total_setPc {i : Nat} {old : WorkerPc} (current : s.pc? i = some old) (new : WorkerPc)
    (f : WorkerPc → Nat) : (s.setPc i new).total f + f old = s.total f + f new := by
  obtain ⟨c, found, rfl⟩ := Option.map_eq_some'.1 current
  exact sum_map_modify (fun c => f c.pc) (fun c => { c with pc := new }) _ i c found

theorem total_notifyAll {f : WorkerPc → Nat} (keeps : ∀ pc, f pc.wake = f pc) :
    s.notifyAll.total f = s.total f := by
  simp [total, notifyAll, Function.comp_def, keeps]

@[simp] theorem total_record (e : Event) (f : WorkerPc → Nat) : (s.record e).total f = s.total f :=
  rfl

theorem total_claim (i : Nat) (n : NodeId) (f : WorkerPc → Nat) :
    (s.claim i n).total f = (s.setPc i (.running n)).total f := rfl

theorem total_store (i : Nat) (n : NodeId) (f : WorkerPc → Nat) :
    (s.store i n).total f = (s.setPc i (.notifying n)).total f := rfl

/-- The pool's weight after one node's state changes. -/
theorem poolWeight_set {n : NodeId} (pooled : n ∈ s.graph.taskPool) (st' : NodeId → RunnableState)
    (same : ∀ m, m ≠ n → st' m = s.states m) :
    (s.graph.taskPool.map fun m => (st' m).weight).sum + (s.states n).weight =
      (s.graph.taskPool.map fun m => (s.states m).weight).sum + (st' n).weight :=
  sum_map_update s.graph.taskPool_nodup pooled (fun m => (s.states m).weight)
    (fun m => (st' m).weight)
    fun m other => congrArg RunnableState.weight (same m other)

end Sys

/-- Unfinished workers, then the load, then the workers' ranks with one more while the mutex is
free. -/
def LockSys.measure (ls : LockSys) : Nat × Nat × Nat :=
  (ls.sys.total WorkerPc.live, ls.sys.load,
   ls.sys.total WorkerPc.rank + if ls.mutex.isNone then 1 else 0)

/-- The order the measure descends in. -/
def Lower (ls' ls : LockSys) : Prop :=
  Prod.Lex (· < ·) (Prod.Lex (· < ·) (· < ·)) ls'.measure ls.measure

theorem lower_wellFounded : WellFounded Lower :=
  InvImage.wf LockSys.measure
    (WellFounded.prod_lex wellFounded_lt (WellFounded.prod_lex wellFounded_lt wellFounded_lt))

/-- A well-founded relation has no infinite descending sequence. -/
theorem no_infinite_descent {α : Type} {r : α → α → Prop} (wf : WellFounded r) (f : Nat → α) :
    ¬ ∀ k, r (f (k + 1)) (f k) := by
  intro descent
  have never : ∀ x k, f k ≠ x := fun x => by
    induction x using wf.induction with
    | _ x below => exact fun k same => below (f (k + 1)) (same ▸ descent k) (k + 1) rfl
  exact never (f 0) 0 rfl

/-! ## One step closer to the end -/

section Lower

variable {s : Sys} {m : Option (Nat × (NodeId → RunnableState))} {i : Nat}

theorem lower_of_live {ls ls' : LockSys}
    (fewer : ls'.sys.total WorkerPc.live < ls.sys.total WorkerPc.live) : Lower ls' ls :=
  Prod.Lex.left _ _ fewer

theorem lower_of_load {ls ls' : LockSys}
    (live : ls'.sys.total WorkerPc.live = ls.sys.total WorkerPc.live)
    (lighter : ls'.sys.load < ls.sys.load) : Lower ls' ls := by
  unfold Lower LockSys.measure
  rw [live]
  exact Prod.Lex.right _ (Prod.Lex.left _ _ lighter)

theorem lower_of_rank {ls ls' : LockSys}
    (live : ls'.sys.total WorkerPc.live = ls.sys.total WorkerPc.live)
    (load : ls'.sys.load = ls.sys.load)
    (closer : ls'.sys.total WorkerPc.rank + (if ls'.mutex.isNone then 1 else 0) <
      ls.sys.total WorkerPc.rank + (if ls.mutex.isNone then 1 else 0)) : Lower ls' ls := by
  unfold Lower LockSys.measure
  rw [live, load]
  exact Prod.Lex.right _ (Prod.Lex.right _ closer)

/-- Taking the mutex. -/
theorem lower_lock (σ : NodeId → RunnableState) : Lower ⟨s, some (i, σ)⟩ ⟨s, none⟩ :=
  lower_of_rank rfl rfl (by simp)

/-- A worker moves closer to its next claim, wait, exit or store, and owes the same. -/
theorem lower_setPc {old new : WorkerPc} (current : s.pc? i = some old) (live : new.live = old.live)
    (owes : new.owes = old.owes) (closer : new.rank < old.rank) :
    Lower ⟨s.setPc i new, m⟩ ⟨s, m⟩ := by
  have lives := s.total_setPc current new WorkerPc.live
  have owed := s.total_setPc current new WorkerPc.owes
  have ranks := s.total_setPc current new WorkerPc.rank
  refine lower_of_rank (by dsimp only; omega) ?_ (by dsimp only; omega)
  simp only [Sys.load, Sys.states_setPc, Sys.taskPool_setPc]
  omega

/-- The holder ends its section in a wait or an exit and releases the mutex. -/
theorem lower_unlock {h : Option NodeId} {new : WorkerPc} (current : s.pc? i = some (.tracing h))
    (live : new.live = 1) (owes : new.owes = 0) (rank : new.rank = 0)
    (σ : NodeId → RunnableState) : Lower ⟨s.setPc i new, none⟩ ⟨s, some (i, σ)⟩ := by
  have lives := s.total_setPc current new WorkerPc.live
  have owed := s.total_setPc current new WorkerPc.owes
  have ranks := s.total_setPc current new WorkerPc.rank
  rw [live] at lives
  rw [owes] at owed
  rw [rank] at ranks
  simp only [WorkerPc.live, WorkerPc.owes, WorkerPc.rank] at lives owed ranks
  refine lower_of_rank (by dsimp only; omega) ?_ (by simp only [Option.isNone_none,
    Option.isNone_some, if_true, Bool.false_eq_true, if_false]; omega)
  simp only [Sys.load, Sys.states_setPc, Sys.taskPool_setPc]
  omega

/-- The holder claims a READY pool node and releases the mutex. -/
theorem lower_claim {h : Option NodeId} {n : NodeId} (current : s.pc? i = some (.tracing h))
    (ready : s.states n = .ready) (pooled : n ∈ s.graph.taskPool) (σ : NodeId → RunnableState) :
    Lower ⟨s.claim i n, none⟩ ⟨s, some (i, σ)⟩ := by
  have lives := s.total_setPc current (.running n) WorkerPc.live
  have owed := s.total_setPc current (.running n) WorkerPc.owes
  have weights := s.poolWeight_set pooled (s.claim i n).states fun m other => by simp [other]
  rw [ready, Sys.states_claim, if_pos rfl, RunnableState.weight.eq_1,
    RunnableState.weight.eq_2] at weights
  simp only [WorkerPc.live, WorkerPc.owes] at lives owed
  refine lower_of_load (by simp only [Sys.total_claim]; omega) ?_
  simp only [Sys.load, Sys.taskPool_claim, Sys.total_claim]
  omega

/-- A worker stores `Completed` for the pool node it ran. -/
theorem lower_store {n : NodeId} (current : s.pc? i = some (.finishing n))
    (executing : s.states n = .executing) (pooled : n ∈ s.graph.taskPool) :
    Lower ⟨s.store i n, m⟩ ⟨s, m⟩ := by
  have lives := s.total_setPc current (.notifying n) WorkerPc.live
  have owed := s.total_setPc current (.notifying n) WorkerPc.owes
  have weights := s.poolWeight_set pooled (s.store i n).states fun m other => by simp [other]
  rw [executing, Sys.states_store, if_pos rfl, RunnableState.weight.eq_2,
    RunnableState.weight.eq_3] at weights
  simp only [WorkerPc.live, WorkerPc.owes] at lives owed
  refine lower_of_load (by simp only [Sys.total_store]; omega) ?_
  simp only [Sys.load, Sys.taskPool_store, Sys.total_store]
  omega

/-- A worker pays the broadcast it owed. -/
theorem lower_notify {n : NodeId} (current : s.pc? i = some (.notifying n)) :
    Lower ⟨(s.setPc i (.checking (some n))).notifyAll, m⟩ ⟨s, m⟩ := by
  have lives := s.total_setPc current (.checking (some n)) WorkerPc.live
  have owed := s.total_setPc current (.checking (some n)) WorkerPc.owes
  simp only [WorkerPc.live, WorkerPc.owes] at lives owed
  refine lower_of_load (by simp only [Sys.total_notifyAll WorkerPc.live_wake]; omega) ?_
  simp only [Sys.load, Sys.states_notifyAll, Sys.taskPool_notifyAll, Sys.states_setPc,
    Sys.taskPool_setPc, Sys.total_notifyAll WorkerPc.owes_wake]
  omega

/-- A worker's thread function returns, normally or after storing an exception. -/
theorem lower_return {old : WorkerPc} (current : s.pc? i = some old) (live : old.live = 1)
    (r : Option Thrown) : Lower ⟨(s.setPc i (.done r)).notifyAll, m⟩ ⟨s, m⟩ := by
  have lives := s.total_setPc current (.done r) WorkerPc.live
  rw [live] at lives
  simp only [WorkerPc.live] at lives
  exact lower_of_live (by simp only [Sys.total_notifyAll WorkerPc.live_wake]; omega)

end Lower

/-! ## Every step of the workers' own code lowers the measure -/

/-- A step the workers' code takes: neither a spurious wakeup of the condition variable nor the
client's `terminate()`. -/
def LockAction.Genuine : LockAction → Prop
  | .act (.spurious _) | .act .terminate => False
  | _ => True

/-- Every genuine step of a run lowers the measure, whether a payload throws or not. -/
theorem LockStep.lower {ls ls' : LockSys} {a : LockAction} (inv : RunInv ls.sys)
    (pool : PoolInv ls.sys) (step : LockStep ls a ls') (genuine : a.Genuine) : Lower ls' ls := by
  cases step with
  | lock => exact lower_lock _
  | claim current reads _ trace =>
    exact lower_claim current (traceReadyNode_sound reads inv.cacheExact trace).1.1
      (pool.traced inv current reads trace (by simp)) _
  | block current | finish current => exact lower_unlock current (by rfl) (by rfl) (by rfl) _
  | free lockFree step =>
    cases step with
    | claim | block | finish => cases lockFree
    | check current =>
      exact lower_setPc current (by split <;> rfl) (by split <;> rfl)
        (by split <;> simp [WorkerPc.rank])
    | ret current | throw _ current =>
      exact lower_setPc current (by rfl) (by rfl) (by simp [WorkerPc.rank])
    | flag current =>
      exact @lower_setPc _ _ _ _ (.raising _) current (by rfl) (by rfl) (by simp [WorkerPc.rank])
    | store current =>
      exact lower_store current (inv.workers _ _ current).1 (pool.named _ _ _ current rfl)
    | notify current => exact lower_notify current
    | exit current | raise current => exact lower_return current rfl _
    | spurious | terminate => cases genuine

/-! ## Progress -/

/-- A claim or a return adds no fault. -/
theorem Faulted.of_cons {ev : Event} {log : List Event} (faulted : Faulted (ev :: log))
    (kept : ev ≠ .terminated) (quiet : ∀ n e, ev ≠ .threw n e) : Faulted log := by
  rcases faulted with terminated | ⟨n, e, threw⟩
  · exact .inl ((List.mem_cons.1 terminated).resolve_left fun same => kept same.symm)
  · exact .inr ⟨n, e, (List.mem_cons.1 threw).resolve_left fun same => quiet n e same.symm⟩

/-- While some worker has not returned, some worker is awake. -/
theorem exists_awake {s : Sys} (awake : Awake s) {i : Nat} {pc : WorkerPc}
    (current : s.pc? i = some pc) (live : pc.live = 1) : ∃ j q, s.pc? j = some q ∧ q.Awake := by
  cases pc with
  | waiting h => exact awake i h current
  | done r => cases live
  | _ => exact ⟨i, _, current, trivial⟩

/-- From a state of a run without faults on a pool without cycles in which some worker has not
returned, one genuine step lowers the measure: the holder of the mutex ends its section, or else an
awake worker takes its own next step. No step throws. -/
theorem progress {ls : LockSys} (inv : RunInv ls.sys) (pool : PoolInv ls.sys)
    (awake : Awake ls.sys) (lagging : Lagging ls) (clean : ¬ Faulted ls.sys.log)
    (acyclic : ∀ n ∈ ls.sys.graph.taskPool, ¬ TransGen (PredEdge ls.sys.heap) n n)
    {i : Nat} {pc : WorkerPc} (current : ls.sys.pc? i = some pc) (live : pc.live = 1) :
    ∃ a ls', LockStep ls a ls' ∧ a.Genuine ∧ ¬ Faulted ls'.sys.log ∧ Lower ls' ls := by
  obtain ⟨s, m⟩ := ls
  have quiet : ∀ n, ¬ Faulted (.started n :: s.log) ∧ ¬ Faulted (.returned n :: s.log) :=
    fun n => ⟨fun faulted => clean (faulted.of_cons (by simp) (by simp)),
      fun faulted => clean (faulted.of_cons (by simp) (by simp))⟩
  cases m with
  | some held =>
    obtain ⟨j, σ⟩ := held
    obtain ⟨⟨h, tracing⟩, lag⟩ := lagging j σ rfl
    have reads := reads_const s.states
    obtain ⟨⟨verdict, x⟩, k, trace⟩ := inv.trace_returns pool acyclic tracing
    have sound := traceReadyNode_sound reads inv.cacheExact trace
    cases verdict
    · cases x with
      | none => exact sound.elim
      | some n =>
        exact ⟨_, _, .claim tracing reads lag trace, trivial, (quiet n).1,
          lower_claim tracing sound.1.1 (pool.traced inv tracing reads trace (by simp)) σ⟩
    · exact ⟨_, _, .block tracing reads lag trace, trivial, clean,
        lower_unlock tracing (by rfl) (by rfl) (by rfl) σ⟩
    · exact ⟨_, _, .finish tracing reads lag trace, trivial, clean,
        lower_unlock tracing (by rfl) (by rfl) (by rfl) σ⟩
  | none =>
    obtain ⟨j, q, atJ, awakeJ⟩ := exists_awake awake current live
    have ok := inv.workers j q atJ
    cases q with
    | checking h =>
      have flag : s.graph.terminationFlag = false :=
        Bool.eq_false_iff.2 fun flagged => clean (inv.flag_faulted flagged)
      refine ⟨_, _, .free (by trivial) (.check atJ), trivial, clean, ?_⟩
      simp only [flag, Bool.false_eq_true, if_false]
      exact lower_setPc atJ rfl rfl (by simp [WorkerPc.rank])
    | tracing h => exact ⟨_, _, .lock atJ, trivial, clean, lower_lock s.states⟩
    | running n =>
      exact ⟨_, _, .free (by trivial) (.ret atJ), trivial, (quiet n).2,
        lower_setPc atJ (by rfl) (by rfl) (by simp [WorkerPc.rank])⟩
    | finishing n =>
      exact ⟨_, _, .free (by trivial) (.store atJ), trivial, clean,
        lower_store atJ ok.1 (pool.named j _ n atJ rfl)⟩
    | notifying n => exact ⟨_, _, .free (by trivial) (.notify atJ), trivial, clean, lower_notify atJ⟩
    | exiting => exact ⟨_, _, .free (by trivial) (.exit atJ), trivial, clean,
        lower_return atJ rfl none⟩
    | caught e | raising e =>
      obtain ⟨n, threw⟩ := ok
      exact (clean (.inr ⟨n, e, threw⟩)).elim
    | waiting h | done r => exact awakeJ.elim

/-- On a pool without cycles, a state of a run with no genuine step left has its mutex free and
every worker returned or blocked: the trace of the holder of the mutex returns, so the workers stop
only where the code's threads stop. -/
theorem LockSys.rest_of_stopped {ls : LockSys} (inv : RunInv ls.sys) (pool : PoolInv ls.sys)
    (lagging : Lagging ls) (acyclic : ∀ n ∈ ls.sys.graph.taskPool, ¬ TransGen (PredEdge ls.sys.heap) n n)
    (stopped : ∀ a ls', LockStep ls a ls' → ¬ a.Genuine) :
    ls.mutex = none ∧ ∀ i pc, ls.sys.pc? i = some pc → (∃ r, pc = .done r) ∨ ∃ h, pc = .waiting h := by
  obtain ⟨s, m⟩ := ls
  have moves : ∀ {a ls'}, LockStep ⟨s, m⟩ a ls' → a.Genuine → False := fun step =>
    stopped _ _ step
  cases m with
  | some held =>
    obtain ⟨j, σ⟩ := held
    obtain ⟨⟨h, tracing⟩, lag⟩ := lagging j σ rfl
    have reads := reads_const s.states
    obtain ⟨⟨verdict, x⟩, k, trace⟩ := inv.trace_returns pool acyclic tracing
    cases verdict with
    | ready =>
      cases x with
      | none => exact (traceReadyNode_sound reads inv.cacheExact trace).elim
      | some n => exact (moves (.claim tracing reads lag trace) trivial).elim
    | pending => exact (moves (.block tracing reads lag trace) trivial).elim
    | completed => exact (moves (.finish tracing reads lag trace) trivial).elim
  | none =>
    refine ⟨rfl, fun i pc current => ?_⟩
    cases pc with
    | waiting h => exact .inr ⟨h, rfl⟩
    | done r => exact .inl ⟨r, rfl⟩
    | tracing h => exact (moves (.lock current) trivial).elim
    | checking h => exact (moves (.free (by trivial) (.check current)) trivial).elim
    | running n => exact (moves (.free (by trivial) (.ret current)) trivial).elim
    | finishing n => exact (moves (.free (by trivial) (.store current)) trivial).elim
    | notifying n => exact (moves (.free (by trivial) (.notify current)) trivial).elim
    | exiting => exact (moves (.free (by trivial) (.exit current)) trivial).elim
    | caught e => exact (moves (.free (by trivial) (.flag current)) trivial).elim
    | raising e => exact (moves (.free (by trivial) (.raise current)) trivial).elim

/-! ## A clean run can finish -/

section Finish

variable {s : Sys}

/-- Once a worker has returned normally from a run without faults, every pool node has completed
and has started exactly once. -/
theorem RunInv.pool_done (inv : RunInv s) (clean : ¬ Faulted s.log) {i : Nat}
    (current : s.pc? i = some (.done none)) (t : NodeId) (member : t ∈ s.graph.taskPool) :
    s.states t = .completed ∧ s.log.count (.started t) = 1 := by
  have done := (inv.workers i _ current).resolve_right clean t member
  exact ⟨done, le_antisymm (inv.started_once t)
    (List.count_pos_iff.2 (inv.pool_started t member (by simp [done])))⟩

/-- Every worker whose place is known has returned normally: so has every worker context. -/
theorem Sys.contexts_done (finished : ∀ i pc, s.pc? i = some pc → pc = .done none) :
    ∀ c ∈ s.graph.workerContexts, c.pc = .done none := fun c member => by
  obtain ⟨i, atI⟩ := List.mem_iff_getElem?.1 member
  exact finished i c.pc (by simp [Sys.pc?, atI])

/-- `wait()` once every worker has returned normally: it resets the graph and raises nothing. -/
theorem wait_of_finished {g : ThreadGraph} (finished : ∀ c ∈ g.workerContexts, c.pc = .done none) :
    ∃ g', wait g = some (g', none) ∧ g'.executingFlag = false := by
  obtain ⟨g', raised, waited, idle, -, -, -, raisedIff⟩ :=
    wait_of_std fun c member => ⟨none, finished c member, fun _ no => nomatch no⟩
  cases raised with
  | none => exact ⟨g', waited, idle⟩
  | some e =>
    obtain ⟨c, member, -, e', done⟩ := raisedIff.1 rfl
    simp [finished c member] at done

/-- With no worker left to run, in a run without faults, every worker returned normally. -/
theorem RunInv.done_none (inv : RunInv s) (clean : ¬ Faulted s.log)
    (quiet : ¬ ∃ i pc, s.pc? i = some pc ∧ pc.live = 1) :
    ∀ i pc, s.pc? i = some pc → pc = .done none := fun i pc current => by
  cases pc with
  | done r =>
    cases r with
    | none => rfl
    | some e =>
      obtain ⟨n, threw⟩ := inv.workers i _ current
      exact (clean (.inr ⟨n, e, threw⟩)).elim
  | _ => exact (quiet ⟨i, _, current, rfl⟩).elim

/-- A run keeps the pool and its edges, so it keeps a pool without cycles. -/
theorem LockReach.acyclic {heap : Heap} {g : ThreadGraph} {ls : LockSys}
    (run : LockReach ⟨Sys.launch heap g, none⟩ ls)
    (acyclic : ∀ n ∈ g.taskPool, ¬ TransGen (PredEdge heap) n n) :
    ∀ n ∈ ls.sys.graph.taskPool, ¬ TransGen (PredEdge ls.sys.heap) n n := by
  have reach := LockReach.reachable run
  have edges : PredEdge ls.sys.heap = PredEdge heap := by
    funext a b
    simp only [PredEdge, reach.predecessors, Sys.predecessors_launch]
  rw [reach.taskPool, Sys.taskPool_launch, edges]
  exact acyclic

/-- A `start()` that returns launches the run of the graph its `wait()` left, on the same pool. -/
theorem start_launches {heap heap' : Heap} {g g' : ThreadGraph}
    (started : start heap g = some (heap', g', none)) :
    ∃ g₀, g₀.taskPool = g.taskPool ∧ (⟨heap', g', []⟩ : Sys) = Sys.launch heap g₀ := by
  obtain ⟨g₀, samePool, -, -, launched⟩ := start_eq_launch started
  exact ⟨g₀, samePool, by simp [Sys.launch, ← launched]⟩

/-- The run invariants of `Athread.Run` on the states of the refined model. -/
theorem LockReach.invariants {heap : Heap} {g : ThreadGraph} {ls : LockSys}
    (closed : EdgesClosed heap g.taskPool) (run : LockReach ⟨Sys.launch heap g, none⟩ ls) :
    PoolInv ls.sys ∧ RunInv ls.sys :=
  (poolInv_launch closed).reachable (runInv_launch heap g) (LockReach.reachable run)

/-- Every reachable state of the refined model without faults, on a pool without cycles, has a
continuation without faults in which every worker has returned normally. -/
theorem LockReach.can_finish {heap : Heap} {g : ThreadGraph} (closed : EdgesClosed heap g.taskPool)
    (acyclic : ∀ n ∈ g.taskPool, ¬ TransGen (PredEdge heap) n n) (ls : LockSys)
    (run : LockReach ⟨Sys.launch heap g, none⟩ ls) (clean : ¬ Faulted ls.sys.log) :
    ∃ ls', LockReach ls ls' ∧ ¬ Faulted ls'.sys.log ∧
      ∀ i pc, ls'.sys.pc? i = some pc → pc = .done none := by
  induction ls using WellFounded.induction lower_wellFounded with
  | _ ls descend =>
  obtain ⟨pool, inv⟩ := run.invariants closed
  by_cases unfinished : ∃ i pc, ls.sys.pc? i = some pc ∧ pc.live = 1
  · obtain ⟨i, pc, current, live⟩ := unfinished
    obtain ⟨a, ls', step, -, clean', lower⟩ :=
      progress inv pool (Carried.reachable closed run clean).2 (Lagging.reachable run) clean
        (run.acyclic acyclic) current live
    obtain ⟨ls'', rest, clean'', finished⟩ := descend ls' lower (run.tail ⟨a, step⟩) clean'
    exact ⟨ls'', .head ⟨a, step⟩ rest, clean'', finished⟩
  · exact ⟨ls, .refl, clean, inv.done_none clean unfinished⟩

/-- From any point of a run of `start()` on a graph whose edges stay in its pool and have no
cycle, with at least one thread, while no payload has thrown and `terminate()` has not been called,
the workers can go on without a fault until each has returned normally: every pool node has then
completed and started exactly once, and `wait()` resets the graph and raises nothing. -/
theorem clean_run_can_finish {heap heap' : Heap} {g g' : ThreadGraph} {ls : LockSys}
    (started : start heap g = some (heap', g', none)) (closed : EdgesClosed heap g.taskPool)
    (acyclic : ∀ n ∈ g.taskPool, ¬ TransGen (PredEdge heap) n n) (threads : 1 ≤ g.threadCount)
    (run : LockReach ⟨⟨heap', g', []⟩, none⟩ ls) (clean : ¬ Faulted ls.sys.log) :
    ∃ ls', LockReach ls ls' ∧ ¬ Faulted ls'.sys.log ∧
      (∀ i pc, ls'.sys.pc? i = some pc → pc = .done none) ∧
      (∀ t ∈ g.taskPool, ls'.sys.states t = .completed ∧ ls'.sys.log.count (.started t) = 1) ∧
      ∃ g'', wait ls'.sys.graph = some (g'', none) ∧ g''.executingFlag = false := by
  obtain ⟨g₀, samePool, init⟩ := start_launches started
  obtain ⟨pooled, workers⟩ := start_workers started
  rw [← samePool] at closed acyclic
  obtain ⟨ls', rest, clean', finished⟩ :=
    LockReach.can_finish closed acyclic ls (by rw [← init]; exact run) clean
  have reach : Reachable ⟨heap', g', []⟩ ls'.sys := LockReach.reachable (run.trans rest)
  have inv : RunInv ls'.sys := (init ▸ runInv_launch heap g₀).reachable reach
  refine ⟨ls', rest, clean', finished, fun t member => ?_, ?_⟩
  · have someWorker : 0 < ls'.sys.graph.workerContexts.length := by
      have nonempty : 0 < g.taskPool.length := List.length_pos_of_mem member
      rw [reach.contexts_length, workers]
      unfold ThreadGraph.numThreads
      split <;> omega
    obtain ⟨c, cs, first⟩ := List.exists_cons_of_length_pos someWorker
    have returned := finished 0 c.pc (by simp [Sys.pc?, first])
    have atZero : ls'.sys.pc? 0 = some (.done none) := by simp [Sys.pc?, first, returned]
    exact inv.pool_done clean' atZero t (by rw [reach.taskPool]; exact pooled ▸ member)
  · exact wait_of_finished (Sys.contexts_done finished)

/-- From worker 1 blocked on A while worker 0 runs it, the run can still finish. -/
theorem clean_run_can_finish_blocked :
    (start chainHeap pairGraph = some (pairRun.heap, pairRun.graph, none) ∧
      EdgesClosed chainHeap pairGraph.taskPool ∧
      (∀ n ∈ pairGraph.taskPool, ¬ TransGen (PredEdge chainHeap) n n) ∧
      1 ≤ pairGraph.threadCount ∧
      LockReach ⟨⟨pairRun.heap, pairRun.graph, []⟩, none⟩ ⟨pairBlocked, none⟩ ∧
      ¬ Faulted pairBlocked.log) ∧
    ∃ ls', LockReach ⟨pairBlocked, none⟩ ls' ∧
      ∀ t ∈ pairGraph.taskPool, ls'.sys.states t = .completed := by
  obtain ⟨ls', rest, -, -, done, -⟩ := clean_run_can_finish pairRun_started pairGraph_closed
    pairGraph_acyclic (by decide) lockRun_reaches_blocked pairBlocked_clean
  exact ⟨⟨pairRun_started, pairGraph_closed, pairGraph_acyclic, by decide, lockRun_reaches_blocked,
    pairBlocked_clean⟩, ls', rest, fun t member => (done t member).1⟩

/-- From every state of a run of `start()` on a graph whose edges stay in its pool and form no
cycle, no schedule of genuine steps is infinite: without spurious wakeups and calls of
`terminate()`, the workers stop after finitely many steps, whether payloads throw or not. Where
they stop, the mutex is free and every worker has returned or is blocked on the condition
variable. -/
theorem genuine_runs_finite {heap heap' : Heap} {g g' : ThreadGraph} {ls : LockSys}
    (started : start heap g = some (heap', g', none)) (closed : EdgesClosed heap g.taskPool)
    (acyclic : ∀ n ∈ g.taskPool, ¬ TransGen (PredEdge heap) n n)
    (run : LockReach ⟨⟨heap', g', []⟩, none⟩ ls) :
    (∀ schedule : Nat → LockSys, schedule 0 = ls →
      ¬ ∀ k, ∃ a, LockStep (schedule k) a (schedule (k + 1)) ∧ a.Genuine) ∧
    ((∀ a ls', LockStep ls a ls' → ¬ a.Genuine) → ls.mutex = none ∧
      ∀ i pc, ls.sys.pc? i = some pc → (∃ r, pc = .done r) ∨ ∃ h, pc = .waiting h) := by
  obtain ⟨g₀, samePool, init⟩ := start_launches started
  rw [← samePool] at closed acyclic
  rw [init] at run
  refine ⟨fun schedule first steps => ?_, fun stopped => ?_⟩
  · have reach : ∀ k, LockReach ⟨Sys.launch heap g₀, none⟩ (schedule k) := by
      intro k
      induction k with
      | zero => exact first ▸ run
      | succ k reached =>
        obtain ⟨a, step, -⟩ := steps k
        exact reached.tail ⟨a, step⟩
    refine no_infinite_descent lower_wellFounded schedule fun k => ?_
    obtain ⟨a, step, genuine⟩ := steps k
    obtain ⟨pool, inv⟩ := (reach k).invariants closed
    exact step.lower inv pool genuine
  · obtain ⟨pool, inv⟩ := run.invariants closed
    exact LockSys.rest_of_stopped inv pool (Lagging.reachable run) (run.acyclic acyclic) stopped

/-- A step of the refined model from a stuck state with the mutex free is a spurious wakeup or
`terminate()`. -/
theorem Stuck.lockStep {ls ls' : LockSys} {a : LockAction} {i : Nat} (stuck : Stuck ls.sys i)
    (free : ls.mutex = none) (step : LockStep ls a ls') :
    (∃ j, a = .act (.spurious j)) ∨
      a = .act .terminate ∧ ls' = ⟨ls.sys.setFlag.record .terminated, none⟩ := by
  cases step with
  | lock current =>
    exact (stuck.blocked _ _ current).elim (fun ⟨_, h⟩ => nomatch h) fun ⟨_, h⟩ => nomatch h
  | claim | block | finish => cases free
  | free _ step =>
    cases free
    rcases stuck.step step with ⟨j, rfl⟩ | ⟨rfl, -⟩
    · exact .inl ⟨j, rfl⟩
    · cases step
      exact .inr ⟨rfl, rfl⟩

/-- The lost wakeup of `Athread.Schedules`: worker 0 raised, worker 1 waits. No genuine step is
left, and no schedule of them goes on. -/
theorem genuine_runs_finite_lost :
    (start chainHeap pairGraph = some (pairRun.heap, pairRun.graph, none) ∧
      EdgesClosed chainHeap pairGraph.taskPool ∧
      (∀ n ∈ pairGraph.taskPool, ¬ TransGen (PredEdge chainHeap) n n) ∧
      LockReach ⟨⟨pairRun.heap, pairRun.graph, []⟩, none⟩ ⟨lostWakeup, none⟩ ∧
      ∀ a ls', LockStep ⟨lostWakeup, none⟩ a ls' → ¬ a.Genuine) ∧
    (∀ schedule : Nat → LockSys, schedule 0 = ⟨lostWakeup, none⟩ →
      ¬ ∀ k, ∃ a, LockStep (schedule k) a (schedule (k + 1)) ∧ a.Genuine) ∧
    ∀ i pc, lostWakeup.pc? i = some pc → (∃ r, pc = .done r) ∨ ∃ h, pc = .waiting h := by
  have stopped : ∀ a ls', LockStep ⟨lostWakeup, none⟩ a ls' → ¬ a.Genuine := fun a ls' step => by
    rcases @Stuck.lockStep ⟨lostWakeup, none⟩ _ _ 1 lostWakeup_stuck rfl step with ⟨j, rfl⟩ | ⟨rfl, -⟩ <;>
      exact id
  have finite := genuine_runs_finite pairRun_started pairGraph_closed pairGraph_acyclic
    lockRun_reaches_lost_wakeup.1
  exact ⟨⟨pairRun_started, pairGraph_closed, pairGraph_acyclic, lockRun_reaches_lost_wakeup.1,
    stopped⟩, finite.1, (finite.2 stopped).2⟩

/-- A genuine step moves a worker that has not returned. -/
theorem LockStep.live_of_genuine {ls ls' : LockSys} {a : LockAction} (step : LockStep ls a ls')
    (genuine : a.Genuine) : ∃ i pc, ls.sys.pc? i = some pc ∧ pc.live = 1 := by
  cases step with
  | lock current | claim current | block current | finish current => exact ⟨_, _, current, rfl⟩
  | free _ step =>
    cases step with
    | check current | claim current | block current | finish current | ret current
      | throw _ current | store current | notify current | exit current | flag current
      | raise current | spurious current => exact ⟨_, _, current, rfl⟩
    | terminate => cases genuine

/-- In a run without faults on a graph whose edges stay in its pool and form no cycle, the workers
can stop, with no genuine step left, only once every one of them has returned normally: whatever the
interleaving, they never deadlock. -/
theorem clean_run_stops_finished {heap heap' : Heap} {g g' : ThreadGraph} {ls : LockSys}
    (started : start heap g = some (heap', g', none)) (closed : EdgesClosed heap g.taskPool)
    (acyclic : ∀ n ∈ g.taskPool, ¬ TransGen (PredEdge heap) n n)
    (run : LockReach ⟨⟨heap', g', []⟩, none⟩ ls) (clean : ¬ Faulted ls.sys.log)
    (stopped : ∀ a ls', LockStep ls a ls' → ¬ a.Genuine) :
    ∀ i pc, ls.sys.pc? i = some pc → pc = .done none := by
  obtain ⟨g₀, samePool, init⟩ := start_launches started
  rw [← samePool] at closed acyclic
  rw [init] at run
  obtain ⟨pool, inv⟩ := run.invariants closed
  refine inv.done_none clean fun ⟨i, pc, current, live⟩ => ?_
  obtain ⟨a, ls', step, genuine, -⟩ := progress inv pool (Carried.reachable closed run clean).2
    (Lagging.reachable run) clean (run.acyclic acyclic) current live
  exact stopped a ls' step genuine

/-- The run from worker 1 blocked on A, carried on until it stops. -/
theorem clean_run_stops_finished_blocked :
    ∃ ls, (start chainHeap pairGraph = some (pairRun.heap, pairRun.graph, none) ∧
      EdgesClosed chainHeap pairGraph.taskPool ∧
      (∀ n ∈ pairGraph.taskPool, ¬ TransGen (PredEdge chainHeap) n n) ∧
      LockReach ⟨pairBlocked, none⟩ ls ∧
      LockReach ⟨⟨pairRun.heap, pairRun.graph, []⟩, none⟩ ls ∧ ¬ Faulted ls.sys.log ∧
      ∀ a ls', LockStep ls a ls' → ¬ a.Genuine) ∧
    ∀ i pc, ls.sys.pc? i = some pc → pc = .done none := by
  obtain ⟨ls, rest, clean, finished⟩ := LockReach.can_finish pairGraph_closed pairGraph_acyclic
    ⟨pairBlocked, none⟩ lockRun_reaches_blocked pairBlocked_clean
  have run := lockRun_reaches_blocked.trans rest
  have stopped : ∀ a ls', LockStep ls a ls' → ¬ a.Genuine := fun a ls' step genuine => by
    obtain ⟨i, pc, current, live⟩ := step.live_of_genuine genuine
    rw [finished i pc current] at live
    cases live
  exact ⟨ls, ⟨pairRun_started, pairGraph_closed, pairGraph_acyclic, rest, run, clean, stopped⟩,
    clean_run_stops_finished pairRun_started pairGraph_closed pairGraph_acyclic run clean stopped⟩

end Finish

/-! ## `terminate()` can strand a worker

`terminate()` stores the flag and broadcasts nothing; the workers that load it exit without taking
the mutex. So a worker can leave after its broadcasts while another, inside its locked section,
still traces from the states it found and then waits: the `clean` hypotheses above exclude
`terminate()` for this reason, and `terminate(true)`'s own `wait()` then waits for that worker. -/

/-- Worker 0 claims A; worker 1 loads the clear flag and takes the mutex while A executes. -/
def terminateLocked : Sys := ((pairRun.setPc 0 (.tracing none)).claim 0 0).setPc 1 (.tracing none)

/-- A's payload returns, worker 0 stores COMPLETED and broadcasts; the client calls `terminate()`;
worker 0 loads the flag and exits with a broadcast. Worker 1 still holds the mutex. -/
def terminateExited : Sys :=
  let stored := (((terminateLocked.setPc 0 (.finishing 0)).record (.returned 0)).store 0 0).setPc 0
    (.checking (some 0))
  (((stored.notifyAll.setFlag.record .terminated).setPc 0 .exiting).setPc 0 (.done none)).notifyAll

/-- Worker 1's trace, from the states it found, blocks. -/
def terminateStrands : Sys := terminateExited.setPc 1 (.waiting (some 0))

/-- In a run of `start()` on A → B with two workers in which no payload throws, `terminate()`
leaves worker 1 blocked and worker 0 exited: only a spurious wakeup moves worker 1 again
(`Stuck.step`). -/
theorem lockRun_terminate_strands :
    LockReach ⟨pairRun, none⟩ ⟨terminateStrands, none⟩ ∧ .terminated ∈ terminateStrands.log ∧
      (∀ n e, .threw n e ∉ terminateStrands.log) ∧ Stuck terminateStrands 1 := by
  have before : LockReach ⟨pairRun, none⟩ ⟨terminateExited, some (1, terminateLocked.states)⟩ :=
    .tail (.tail (.tail (.tail (.tail (.tail (.tail (.tail (.tail (.tail (.tail .refl
      ⟨_, .free (by trivial) (@Step.check _ 0 none (by decide))⟩)
      ⟨_, @LockStep.lock _ 0 none (by decide)⟩)
      ⟨_, @LockStep.claim _ 0 none _ _ 1 0 2 (by decide) (reads_const _) (startsAt_const _) (by decide)⟩)
      ⟨_, .free (by trivial) (@Step.check _ 1 none (by decide))⟩)
      ⟨_, @LockStep.lock _ 1 none (by decide)⟩)
      ⟨_, .free (by trivial) (@Step.ret _ 0 0 (by decide))⟩)
      ⟨_, .free (by trivial) (@Step.store _ 0 0 (by decide))⟩)
      ⟨_, .free (by trivial) (@Step.notify _ 0 0 (by decide))⟩)
      ⟨_, .free (by trivial) .terminate⟩)
      ⟨_, .free (by trivial) (@Step.check _ 0 (some 0) (by decide))⟩)
      ⟨_, .free (by trivial) (@Step.exit _ 0 (by decide))⟩
  have lag := ((Lagging.reachable before) 1 _ rfl).2
  refine ⟨before.tail ⟨_, @LockStep.block _ 1 none _ (fun _ => terminateLocked.states) 1 (some 0) 4
    (by decide) ⟨fun _ _ => .refl _, fun _ => lag⟩ (startsAt_const _) (by decide)⟩, by decide,
    fun n e => by simp [terminateStrands, terminateExited, terminateLocked, Sys.record, pairRun,
      Sys.launch], ⟨⟨some 0, by decide⟩, fun j pc other current => ?_⟩⟩
  have exited : terminateStrands.pc? 0 = some (.done none) := by decide
  have beyond : ∀ j, terminateStrands.pc? (j + 2) = none := fun j => by
    simp [terminateStrands, terminateExited, terminateLocked, pairRun, pairGraph,
      ThreadGraph.numThreads]
  rcases j with _ | _ | j
  · rw [exited] at current
    cases current
    exact .inl ⟨_, rfl⟩
  · exact (other rfl).elim
  · rw [beyond] at current
    cases current

/-- In a run of `start()`, once a worker is stuck with the mutex free, every continuation without
spurious wakeups, calls of `terminate()` included, keeps it stuck, and `wait()` never returns in
it: `future.get()` blocks on the stuck worker's future, since no payload threw an exception that
`wait()` would let through first. So `terminate(true)` never returns either. -/
theorem stuck_run_hangs {heap heap' : Heap} {g g' : ThreadGraph} {ls ls' : LockSys} {i : Nat}
    (started : start heap g = some (heap', g', none)) (run : LockReach ⟨⟨heap', g', []⟩, none⟩ ls)
    (stuck : Stuck ls.sys i) (free : ls.mutex = none)
    (std : ∀ n e, .threw n e ∈ ls.sys.log → e.isStd = true)
    (rest : ReflTransGen (fun ls ls' => ∃ a, LockStep ls a ls' ∧ ∀ j, a ≠ .act (.spurious j))
      ls ls') :
    Stuck ls'.sys i ∧ ls'.mutex = none ∧ wait ls'.sys.graph = none := by
  obtain ⟨g₀, -, init⟩ := start_launches started
  rw [init] at run
  have inv := (runInv_launch heap g₀).reachable (LockReach.reachable run)
  have kept : Stuck ls'.sys i ∧ ls'.mutex = none ∧
      ls'.sys.graph.workerContexts = ls.sys.graph.workerContexts := by
    induction rest with
    | refl => exact ⟨stuck, free, rfl⟩
    | tail _ move inductionHypothesis =>
      obtain ⟨a, step, notSpurious⟩ := move
      obtain ⟨stuck', free', contexts⟩ := inductionHypothesis
      rcases stuck'.lockStep free' step with ⟨j, rfl⟩ | ⟨rfl, rfl⟩
      · exact (notSpurious j rfl).elim
      · exact ⟨stuck', rfl, contexts⟩
  obtain ⟨stuck', free', contexts⟩ := kept
  have stdContexts : ∀ c ∈ ls.sys.graph.workerContexts, ∀ e, c.pc = .done (some e) →
      e.isStd = true := fun c member e done => by
    obtain ⟨j, atJ⟩ := List.mem_iff_getElem?.1 member
    obtain ⟨n, threw⟩ := inv.workers j (.done (some e)) (by simp [Sys.pc?, atJ, done])
    exact std n e threw
  obtain ⟨h, waiting⟩ := stuck.1
  obtain ⟨c, atI, blocked⟩ := Option.map_eq_some'.1 waiting
  have member : c ∈ ls.sys.graph.workerContexts := List.mem_iff_getElem?.2 ⟨i, atI⟩
  refine ⟨stuck', free', ?_⟩
  unfold wait
  rw [contexts, collectFutures_blocked "" stdContexts ⟨c, member,
    (LockReach.reachable run).futureValid member, fun r done => nomatch blocked.symm.trans done⟩]

/-- The client calls `terminate(true)` on the stranded run: after the flag is stored, `wait()`
blocks on worker 1's future. -/
theorem stuck_run_hangs_terminated :
    (start chainHeap pairGraph = some (pairRun.heap, pairRun.graph, none) ∧
      LockReach ⟨⟨pairRun.heap, pairRun.graph, []⟩, none⟩ ⟨terminateStrands, none⟩ ∧
      Stuck terminateStrands 1 ∧ (∀ n e, .threw n e ∈ terminateStrands.log → e.isStd = true) ∧
      ReflTransGen (fun ls ls' => ∃ a, LockStep ls a ls' ∧ ∀ j, a ≠ .act (.spurious j))
        ⟨terminateStrands, none⟩ ⟨terminateStrands.setFlag.record .terminated, none⟩) ∧
    Stuck (terminateStrands.setFlag.record .terminated) 1 ∧
      wait (terminateStrands.setFlag.record .terminated).graph = none := by
  obtain ⟨run, -, quiet, stuck⟩ := lockRun_terminate_strands
  have std : ∀ n e, .threw n e ∈ terminateStrands.log → e.isStd = true :=
    fun n e threw => (quiet n e threw).elim
  have terminate : ReflTransGen (fun ls ls' => ∃ a, LockStep ls a ls' ∧ ∀ j, a ≠ .act (.spurious j))
      ⟨terminateStrands, none⟩ ⟨terminateStrands.setFlag.record .terminated, none⟩ :=
    .single ⟨_, .free (by trivial) .terminate, fun _ same => nomatch same⟩
  obtain ⟨stuck', -, hangs⟩ := stuck_run_hangs pairRun_started run stuck rfl std terminate
  exact ⟨⟨pairRun_started, run, stuck, std, terminate⟩, stuck', hangs⟩

end Athread
