import Athread.Schedules

/-!
# `_tasks_mutex`, and the runs that cannot deadlock

`Athread.Worker` makes a worker's locked section one step, whose loads may lag the states at its
end as far as `Reads` allows. The worker takes `_tasks_mutex` at a moment of its own, though: a
load in the section misses only the stores made after that moment, and no other worker enters a
section until this one ends. `LockStep` adds the moment: worker `i` takes the free mutex from
`tracing` and keeps the states it found, and the loads of its section start from them
(`StartsAt`).

* `LockStep.step`, `LockReach.reachable`: each step of the refined model is a step of
  `Athread.Worker` or leaves the process as it was, so every run invariant of `Athread.Run` holds
  of its runs.
* `clean_run_never_stuck`: in a run of `start()`, on a graph whose edges stay in its pool, with no
  payload throwing and no `terminate()`, no worker is ever blocked while every other has exited or
  is blocked too. A worker blocks only on a node it found EXECUTING after it took the mutex; the
  worker that runs that node cannot wait or exit before it takes the mutex in turn, and its
  broadcast after the store, or at its exit, comes after the wait began.
* `lockRun_reaches_lost_wakeup`: a throw still loses the wakeup in the refined model; the
  broadcast from the `catch` takes no mutex.
-/

namespace Athread

open Relation

/-- The process with `_tasks_mutex`: the worker holding it, with the states it found when it took
it. -/
structure LockSys where
  sys : Sys
  mutex : Option (Nat × (NodeId → RunnableState))

/-- A step of the refined model: a worker taking the mutex, or a step of `Athread.Worker`. -/
inductive LockAction where
  | lock (i : Nat)
  | act (a : Action)
  deriving DecidableEq, Repr

/-- The steps of `Athread.Worker` that take no mutex: all but the ends of a locked section. -/
def Action.LockFree : Action → Prop
  | .claim _ _ | .block _ | .finish _ => False
  | _ => True

/-- One step with `_tasks_mutex` explicit. Worker `i` takes the free mutex after loading a clear
flag; its section ends in a claim, a wait or an exit, with loads that start from the states it
found and release the mutex; every other step takes no mutex. -/
inductive LockStep : LockSys → LockAction → LockSys → Prop
  | lock {s i h} : s.pc? i = some (.tracing h) →
      LockStep ⟨s, none⟩ (.lock i) ⟨s, some (i, s.states)⟩
  | claim {s i h σ view fuel n k} : s.pc? i = some (.tracing h) → Reads view s.states →
      StartsAt view σ → traceReadyNode s.heap view s.graph fuel h 0 = some ((.ready, some n), k) →
      LockStep ⟨s, some (i, σ)⟩ (.act (.claim i n)) ⟨s.claim i n, none⟩
  | block {s i h σ view fuel x k} : s.pc? i = some (.tracing h) → Reads view s.states →
      StartsAt view σ → traceReadyNode s.heap view s.graph fuel h 0 = some ((.pending, x), k) →
      LockStep ⟨s, some (i, σ)⟩ (.act (.block i)) ⟨s.setPc i (.waiting x), none⟩
  | finish {s i h σ view fuel x k} : s.pc? i = some (.tracing h) → Reads view s.states →
      StartsAt view σ → traceReadyNode s.heap view s.graph fuel h 0 = some ((.completed, x), k) →
      LockStep ⟨s, some (i, σ)⟩ (.act (.finish i)) ⟨s.setPc i .exiting, none⟩
  | free {s s' m a} : a.LockFree → Step s a s' → LockStep ⟨s, m⟩ (.act a) ⟨s', m⟩

/-- The states a run of the refined model reaches. -/
def LockReach : LockSys → LockSys → Prop :=
  ReflTransGen fun ls ls' => ∃ a, LockStep ls a ls'

/-- Each step of the refined model is a step of `Athread.Worker`, or leaves the process as it
was. -/
theorem LockStep.step {ls ls' : LockSys} {a : LockAction} (step : LockStep ls a ls') :
    ls'.sys = ls.sys ∨ ∃ a', Step ls.sys a' ls'.sys := by
  cases step with
  | lock => exact .inl rfl
  | claim current reads _ trace => exact .inr ⟨_, .claim current reads trace⟩
  | block current reads _ trace => exact .inr ⟨_, .block current reads trace⟩
  | finish current reads _ trace => exact .inr ⟨_, .finish current reads trace⟩
  | free _ step => exact .inr ⟨_, step⟩

theorem LockReach.reachable {ls₀ ls : LockSys} (run : LockReach ls₀ ls) :
    Reachable ls₀.sys ls.sys := by
  induction run with
  | refl => exact .refl
  | tail _ step reach =>
    obtain ⟨a, step⟩ := step
    rcases step.step with same | ⟨a', step'⟩
    · rwa [same]
    · exact reach.step step'

theorem Step.log_subset {s s' : Sys} {a : Action} (step : Step s a s') : s.log ⊆ s'.log := by
  cases step <;> simp [Sys.claim, Sys.store, List.subset_cons_self]

theorem LockStep.log_subset {ls ls' : LockSys} {a : LockAction} (step : LockStep ls a ls') :
    ls.sys.log ⊆ ls'.sys.log := by
  rcases step.step with same | ⟨a', step'⟩
  · exact fun _ member => same ▸ member
  · exact step'.log_subset

/-! ## Who keeps a run without faults going -/

namespace WorkerPc

/-- Neither blocked nor finished: the worker still has a step of its own to take. -/
def Awake : WorkerPc → Prop
  | waiting _ | done _ => False
  | _ => True

/-- The worker runs `x`, or ran it, and has not taken the mutex since. -/
def Carries (x : NodeId) : WorkerPc → Prop
  | running n | finishing n | notifying n => n = x
  | checking h | tracing h => h = some x
  | _ => False

theorem Carries.awake {x : NodeId} {pc : WorkerPc} (carries : pc.Carries x) : pc.Awake := by
  cases pc <;> trivial

/-- A broadcast leaves a worker that carries a node where it is. -/
theorem Carries.wake {x : NodeId} {pc : WorkerPc} (carries : pc.Carries x) : pc.wake.Carries x := by
  cases pc <;> first | exact carries | exact carries.elim

theorem carries_of_held {x : NodeId} {pc : WorkerPc} (held : pc.held = some x) : pc.Carries x := by
  cases pc <;> cases held <;> rfl

end WorkerPc

/-- Every EXECUTING pool node is held by some worker, and while a worker holds the mutex, each pool
node it found EXECUTING is carried by another worker: the worker running it, or the one that ran
it and has not taken the mutex since. -/
structure Carried (ls : LockSys) : Prop where
  held : ∀ x ∈ ls.sys.graph.taskPool, ls.sys.states x = .executing →
    ∃ j pc, ls.sys.pc? j = some pc ∧ pc.held = some x
  locked : ∀ i σ, ls.mutex = some (i, σ) → ∀ x ∈ ls.sys.graph.taskPool, σ x = .executing →
    ∃ j pc, j ≠ i ∧ ls.sys.pc? j = some pc ∧ pc.Carries x

/-- Whenever a worker is blocked, some worker is awake. -/
def Awake (s : Sys) : Prop :=
  ∀ i h, s.pc? i = some (.waiting h) → ∃ j pc, s.pc? j = some pc ∧ pc.Awake

section Carried

variable {s : Sys} {m : Option (Nat × (NodeId → RunnableState))}

/-- Two workers at different places are two workers. -/
theorem Sys.ne_of_pc {i j : Nat} {pc pc' : WorkerPc} (atI : s.pc? i = some pc)
    (atJ : s.pc? j = some pc') (differ : pc ≠ pc') : i ≠ j := by
  rintro rfl
  exact differ (Option.some.inj (atI.symm.trans atJ))

theorem Carried.release (carried : Carried ⟨s, m⟩) : Carried ⟨s, none⟩ where
  held := carried.held
  locked _ _ held := nomatch held

/-- Worker `i` moves from `old` to `new` and nothing else changes: it keeps holding the node it
held, and, while another worker holds the mutex, keeps carrying what it carried. -/
theorem Carried.setPc (carried : Carried ⟨s, m⟩) {i : Nat} {old new : WorkerPc}
    (current : s.pc? i = some old) (holds : ∀ x, old.held = some x → new.held = some x)
    (carries : ∀ j σ, m = some (j, σ) → j ≠ i → ∀ x, old.Carries x → new.Carries x) :
    Carried ⟨s.setPc i new, m⟩ where
  held x pooled executing := by
    obtain ⟨j, pc, atJ, heldX⟩ := carried.held x pooled executing
    by_cases same : i = j
    · subst same
      rw [current] at atJ
      cases atJ
      exact ⟨i, new, by simp [current], holds x heldX⟩
    · exact ⟨j, pc, by simpa [same] using atJ, heldX⟩
  locked j σ held x pooled executing := by
    obtain ⟨k, pc, other, atK, carriesX⟩ := carried.locked j σ held x pooled executing
    by_cases same : i = k
    · subst same
      rw [current] at atK
      cases atK
      exact ⟨i, new, other, by simp [current], carries j σ held other.symm x carriesX⟩
    · exact ⟨k, pc, other, by simpa [same] using atK, carriesX⟩

/-- The worker holding the mutex ends its section at `new` and releases the mutex. -/
theorem Carried.unlock (carried : Carried ⟨s, m⟩) {i : Nat} {h : Option NodeId} {new : WorkerPc}
    (current : s.pc? i = some (.tracing h)) : Carried ⟨s.setPc i new, none⟩ :=
  carried.release.setPc current (fun _ held => nomatch held) fun _ _ held => nomatch held

theorem Carried.notifyAll (carried : Carried ⟨s, m⟩) : Carried ⟨s.notifyAll, m⟩ where
  held x pooled executing := by
    obtain ⟨j, pc, atJ, heldX⟩ := carried.held x pooled executing
    exact ⟨j, pc.wake, by simp [atJ], by simpa using heldX⟩
  locked j σ held x pooled executing := by
    obtain ⟨k, pc, other, atK, carriesX⟩ := carried.locked j σ held x pooled executing
    exact ⟨k, pc.wake, other, by simp [atK], carriesX.wake⟩

/-- After a broadcast no worker is blocked. -/
theorem awake_notifyAll (s : Sys) : Awake s.notifyAll := fun i h waiting => by
  obtain ⟨q, -, wake⟩ := Sys.pc?_notifyAll_eq_some waiting
  cases q <;> cases wake

/-- Worker `i` moved to an awake place. -/
theorem awake_setPc {i : Nat} {old pc : WorkerPc} (current : s.pc? i = some old)
    (awake : pc.Awake) : Awake (s.setPc i pc) := fun _ _ _ =>
  ⟨i, pc, by simp [current], awake⟩

/-- Each step of a run with no fault keeps `Carried` and `Awake`. -/
theorem Carried.step {ls ls' : LockSys} {a : LockAction} (carried : Carried ls)
    (awake : Awake ls.sys) (inv : RunInv ls.sys) (pool : PoolInv ls.sys)
    (step : LockStep ls a ls') (clean : ¬ Faulted ls'.sys.log) :
    Carried ls' ∧ Awake ls'.sys := by
  cases step with
  | @lock s i h current =>
    refine ⟨⟨carried.held, fun j σ held x pooled executing => ?_⟩, awake⟩
    cases held
    obtain ⟨j, pc, atJ, heldX⟩ := carried.held x pooled executing
    exact ⟨j, pc, Sys.ne_of_pc atJ current (by rintro rfl; cases heldX), atJ,
      WorkerPc.carries_of_held heldX⟩
  | @claim s i h σ view fuel n k current reads starts trace =>
    refine ⟨⟨fun x pooled executing => ?_, fun _ _ held => nomatch held⟩,
      fun _ _ _ => ⟨i, .running n, by simp [current], trivial⟩⟩
    by_cases same : x = n
    · exact ⟨i, .running n, by simp [current], by subst same; rfl⟩
    · simp only [Sys.taskPool_claim, Sys.states_claim, same, if_false] at pooled executing
      obtain ⟨j, pc, atJ, heldX⟩ := carried.held x pooled executing
      have other : i ≠ j := Sys.ne_of_pc current atJ (by rintro rfl; cases heldX)
      exact ⟨j, pc, by simp [other, atJ], heldX⟩
  | @block s i h σ view fuel x k current reads starts trace =>
    refine ⟨carried.unlock current, fun _ _ _ => ?_⟩
    obtain ⟨x, rfl⟩ : ∃ x', x = some x' := by
      cases x with
      | none => exact (traceReadyNode_sound reads inv.cacheExact trace).elim
      | some x' => exact ⟨x', rfl⟩
    obtain ⟨⟨j', seen⟩, -⟩ := traceReadyNode_sound reads inv.cacheExact trace
    have pooled := pool.traced inv current reads trace (by simp)
    obtain ⟨j, pc, other, atJ, carriesX⟩ :=
      carried.locked i σ rfl x pooled (starts.executing reads seen)
    exact ⟨j, pc, by simp [other.symm, atJ], carriesX.awake⟩
  | finish current =>
    exact ⟨carried.unlock current, awake_setPc current trivial⟩
  | @free s s' m a' lockFree step =>
    have unheld : ∀ {i old} new, s.pc? i = some old → old.held = none →
        (∀ x, old.Carries x → new.Carries x) → Carried ⟨s.setPc i new, m⟩ :=
      fun _ current unheldOld carries => carried.setPc current
        (fun _ heldX => by rw [unheldOld] at heldX; cases heldX) fun _ _ _ _ => carries
    cases step with
    | claim | block | finish => exact lockFree.elim
    | @check i h current =>
      cases flag : s.graph.terminationFlag
      · simp only [flag, Bool.false_eq_true, if_false]
        exact ⟨unheld (.tracing h) current rfl fun _ carries => carries, awake_setPc current trivial⟩
      · exact (clean (inv.flag_faulted flag)).elim
    | @ret i n current =>
      have moved := @Carried.setPc s m carried i _ (.finishing n) current (fun _ heldX => heldX)
        fun _ _ _ _ _ carries => carries
      exact ⟨⟨moved.held, moved.locked⟩, awake_setPc current trivial⟩
    | @throw i n e current => exact (clean (.inr ⟨n, e, List.mem_cons_self _ _⟩)).elim
    | @store i n current =>
      refine ⟨⟨fun x pooled executing => ?_, fun j σ held x pooled executing => ?_⟩,
        awake_setPc current trivial⟩
      · have other : x ≠ n := fun same => by simp [same] at executing
        simp only [Sys.taskPool_store, Sys.states_store, other, if_false] at pooled executing
        obtain ⟨j, pc, atJ, heldX⟩ := carried.held x pooled executing
        have notMine : i ≠ j :=
          Sys.ne_of_pc current atJ (by rintro rfl; cases heldX; exact other rfl)
        exact ⟨j, pc, by simp [notMine, atJ], heldX⟩
      · obtain ⟨k, pc, other, atK, carriesX⟩ := carried.locked j σ held x pooled executing
        by_cases same : i = k
        · subst same
          rw [current] at atK
          cases atK
          exact ⟨i, .notifying n, other, by simp [current], carriesX⟩
        · exact ⟨k, pc, other, by simpa [same] using atK, carriesX⟩
    | @notify i n current =>
      exact ⟨(unheld (.checking (some n)) current rfl fun _ carries => congrArg some carries).notifyAll,
        awake_notifyAll _⟩
    | exit current =>
      exact ⟨(unheld (.done none) current rfl fun _ carries => carries.elim).notifyAll,
        awake_notifyAll _⟩
    | @flag i e current =>
      have moved := unheld (.raising e) current rfl fun _ carries => carries.elim
      exact ⟨⟨moved.held, moved.locked⟩, awake_setPc current trivial⟩
    | @raise i e current =>
      exact ⟨(unheld (.done (some e)) current rfl fun _ carries => carries.elim).notifyAll,
        awake_notifyAll _⟩
    | @spurious i h current =>
      exact ⟨unheld (.checking h) current rfl fun _ carries => carries.elim,
        awake_setPc current trivial⟩
    | terminate => exact (clean (.inl (List.mem_cons_self _ _))).elim

end Carried

/-- Every state of a run with no fault, from the state `start()` launches on a graph whose edges
stay in its pool, is `Carried` and `Awake`. -/
theorem Carried.reachable {heap : Heap} {g : ThreadGraph} (closed : EdgesClosed heap g.taskPool)
    {ls : LockSys} (run : LockReach ⟨Sys.launch heap g, none⟩ ls)
    (clean : ¬ Faulted ls.sys.log) :
    Carried ls ∧ Awake ls.sys := by
  induction run with
  | refl =>
    refine ⟨⟨fun x pooled executing => ?_, fun _ _ held => nomatch held⟩, fun i h waiting => ?_⟩
    · rw [Sys.taskPool_launch] at pooled
      simp [pooled] at executing
    · simp only [Sys.pc?_launch] at waiting
      split_ifs at waiting
      cases waiting
  | tail before step inductionHypothesis =>
    obtain ⟨a, step⟩ := step
    obtain ⟨pool, inv⟩ := (poolInv_launch closed).reachable (runInv_launch heap g)
      (LockReach.reachable before)
    obtain ⟨carried, awake⟩ := inductionHypothesis fun faulted =>
      clean (faulted.mono step.log_subset)
    exact carried.step awake inv pool step clean

/-- With the mutex explicit, a run of `start()` on a graph whose edges stay in its pool, in which
no payload throws and `terminate()` is not called, never leaves a worker blocked while every other
worker has exited or is blocked. -/
theorem clean_run_never_stuck {heap heap' : Heap} {g g' : ThreadGraph} {ls : LockSys}
    (started : start heap g = some (heap', g', none)) (closed : EdgesClosed heap g.taskPool)
    (run : LockReach ⟨⟨heap', g', []⟩, none⟩ ls) (clean : ¬ Faulted ls.sys.log) (i : Nat) :
    ¬ Stuck ls.sys i := by
  obtain ⟨g₀, samePool, -, -, launched⟩ := start_eq_launch started
  have init : (⟨heap', g', []⟩ : Sys) = Sys.launch heap g₀ := by simp [Sys.launch, ← launched]
  rw [init] at run
  rw [← samePool] at closed
  obtain ⟨-, awake⟩ := Carried.reachable closed run clean
  rintro ⟨⟨h, waiting⟩, others⟩
  obtain ⟨j, pc, atJ, awakeJ⟩ := awake i h waiting
  have other : j ≠ i := Sys.ne_of_pc atJ waiting (by rintro rfl; exact awakeJ)
  rcases others j pc other atJ with ⟨r, rfl⟩ | ⟨h', rfl⟩ <;> exact awakeJ

/-- Worker 0 has claimed A and runs it; worker 1 took the mutex after the claim, found A
EXECUTING and waits. -/
def pairBlocked : Sys := (pairClaimed.setPc 1 (.tracing none)).setPc 1 (.waiting (some 0))

theorem lockRun_reaches_blocked : LockReach ⟨pairRun, none⟩ ⟨pairBlocked, none⟩ :=
  .tail (.tail (.tail (.tail (.tail (.tail .refl
    ⟨_, .free (by trivial) (@Step.check _ 0 none (by decide))⟩)
    ⟨_, @LockStep.lock _ 0 none (by decide)⟩)
    ⟨_, @LockStep.claim _ 0 none _ _ 1 0 2 (by decide) (reads_const _) (startsAt_const _) (by decide)⟩)
    ⟨_, .free (by trivial) (@Step.check _ 1 none (by decide))⟩)
    ⟨_, @LockStep.lock _ 1 none (by decide)⟩)
    ⟨_, @LockStep.block _ 1 none _ _ 1 (some 0) 4 (by decide) (reads_const _) (startsAt_const _)
      (by decide)⟩

theorem pairBlocked_clean : ¬ Faulted pairBlocked.log := by
  have log : pairBlocked.log = [.started 0] := rfl
  simp [Faulted, log]

/-- Worker 1 waits on A while worker 0 runs it: not stuck, since worker 0 will broadcast. -/
theorem clean_run_never_stuck_blocked :
    (start chainHeap pairGraph = some (pairRun.heap, pairRun.graph, none) ∧
      EdgesClosed chainHeap pairGraph.taskPool ∧
      LockReach ⟨⟨pairRun.heap, pairRun.graph, []⟩, none⟩ ⟨pairBlocked, none⟩ ∧
      ¬ Faulted pairBlocked.log ∧ pairBlocked.pc? 1 = some (.waiting (some 0))) ∧
    ¬ Stuck pairBlocked 1 :=
  ⟨⟨pairRun_started, pairGraph_closed, lockRun_reaches_blocked, pairBlocked_clean, by decide⟩,
    clean_run_never_stuck pairRun_started pairGraph_closed lockRun_reaches_blocked
      pairBlocked_clean 1⟩

/-- A throw still loses the wakeup with the mutex explicit: each worker of the run of
`Athread.Schedules` takes the mutex at its own moment, no load of it lags, and the broadcast from
the `catch` still comes before worker 1's wait. -/
theorem lockRun_reaches_lost_wakeup :
    LockReach ⟨pairRun, none⟩ ⟨lostWakeup, none⟩ ∧ Faulted lostWakeup.log ∧
      Stuck lostWakeup 1 := by
  refine ⟨?_, .inr ⟨0, boom, by decide⟩, lostWakeup_stuck⟩
  exact .tail (.tail (.tail (.tail (.tail (.tail (.tail (.tail (.tail .refl
    ⟨_, .free (by trivial) (@Step.check _ 0 none (by decide))⟩)
    ⟨_, @LockStep.lock _ 0 none (by decide)⟩)
    ⟨_, @LockStep.claim _ 0 none _ _ 1 0 2 (by decide) (reads_const _) (startsAt_const _) (by decide)⟩)
    ⟨_, .free (by trivial) (@Step.check _ 1 none (by decide))⟩)
    ⟨_, .free (by trivial) (.throw boom (by decide))⟩)
    ⟨_, .free (by trivial) (.flag (by decide))⟩)
    ⟨_, .free (by trivial) (.raise (by decide))⟩)
    ⟨_, @LockStep.lock _ 1 none (by decide)⟩)
    ⟨_, @LockStep.block _ 1 none _ _ 1 (some 0) 4 (by decide) (reads_const _) (startsAt_const _)
      (by decide)⟩

end Athread
