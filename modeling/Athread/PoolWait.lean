import Athread.PoolRuns

/-!
# `ThreadPool::wait` and what it leaves

`wait()` removes the COMPLETED contexts, calls `get()` on every remaining valid future in order,
collecting the `what()` of each `std::exception`, joins the threads and resets the pool: the
termination flag cleared, the start signal awaited again, no context left.

* Once every worker thread has finished, with no exception or a `std::exception`, the client's own
  steps finish the call: the pool is reset, and it raises exactly when an unconsumed future held
  an exception (`wait_returns`).
* A `wait()` that runs to its end drops every context, and `start()` creates none: every job
  still queued is then stranded until a later `push` creates a worker, even in a pool with a core
  worker. `terminate()` followed by `start()` leaves the pool so (`wait_then_start_strands`).
-/

namespace Athread

open Relation

/-- What `wait()`'s loop needs of a context to pass it without blocking or leaving: its future was
consumed already, its thread has exited, or its job threw a `std::exception`. -/
def Drainable (c : PoolWorker) : Prop :=
  c.futureValid = false ∨ c.pc = .exited ∨ ∃ e, c.pc = .threw e ∧ e.isStd = true

/-- The messages `wait()`'s loop collects from the contexts `cs`, after `msg`. -/
def collectedMessages : List PoolWorker → String → String
  | [], msg => msg
  | c :: cs, msg =>
    match c.futureValid, c.pc with
    | true, .threw e => collectedMessages cs (msg ++ e.what ++ "\n")
    | _, _ => collectedMessages cs msg

theorem collectedMessages_cons (c : PoolWorker) (cs : List PoolWorker) (msg : String) :
    collectedMessages (c :: cs) msg = collectedMessages cs (collectedMessages [c] msg) := by
  rcases c with ⟨kind, state, pc, _ | _⟩ <;> cases pc <;> rfl

/-- A context whose future was consumed, or whose job did not throw, adds no message. -/
theorem collectedMessages_single_quiet {c : PoolWorker}
    (quiet : c.futureValid = true → ∀ e, c.pc ≠ .threw e) (msg : String) :
    collectedMessages [c] msg = msg := by
  rcases c with ⟨kind, state, _ | _ | _ | _ | _ | _ | _ | e, _ | _⟩ <;> try rfl
  exact (quiet rfl e rfl).elim

theorem length_collectedMessages (cs : List PoolWorker) (msg : String) :
    msg.length ≤ (collectedMessages cs msg).length ∧
      ((collectedMessages cs msg).length = msg.length ↔
        ∀ c ∈ cs, c.futureValid = true → ∀ e, c.pc ≠ .threw e) := by
  induction cs generalizing msg with
  | nil => simp [collectedMessages]
  | cons c cs inductionHypothesis =>
    rw [collectedMessages_cons, List.forall_mem_cons]
    by_cases quiet : c.futureValid = true → ∀ e, c.pc ≠ .threw e
    · rw [collectedMessages_single_quiet quiet]
      exact ⟨(inductionHypothesis msg).1,
        (inductionHypothesis msg).2.trans (and_iff_right quiet).symm⟩
    · push_neg at quiet
      obtain ⟨valid, e, threw⟩ := quiet
      have one : collectedMessages [c] msg = msg ++ e.what ++ "\n" := by
        simp only [collectedMessages, valid, threw]
      have longer := (inductionHypothesis (msg ++ e.what ++ "\n")).1
      have newline : "\n".length = 1 := rfl
      simp only [one, String.length_append, newline] at longer ⊢
      exact ⟨by omega, iff_of_false (by omega) fun noneThrew => noneThrew.1 valid e threw⟩

/-- `wait()` raises exactly when some unconsumed future held an exception. -/
theorem waitResult_isSome (cs : List PoolWorker) :
    (waitResult (collectedMessages cs "")).isSome ↔
      ∃ c ∈ cs, c.futureValid = true ∧ ∃ e, c.pc = .threw e := by
  have same := (length_collectedMessages cs "").2
  have empty := string_isEmpty_iff (collectedMessages cs "")
  unfold waitResult
  cases isEmpty : (collectedMessages cs "").isEmpty
  · have someThrew : ¬ ∀ c ∈ cs, c.futureValid = true → ∀ e, c.pc ≠ .threw e := fun none =>
      absurd (empty.2 (same.2 none)) (by simp [isEmpty])
    push_neg at someThrew
    simpa using someThrew
  · have noneThrew := same.1 (empty.1 isEmpty)
    simp only [if_true, Option.isSome_none, Bool.false_eq_true, false_iff, not_exists, not_and]
    exact fun c member valid e threw => noneThrew c member valid e threw

@[simp] theorem PoolSys.finishWait_client (s : PoolSys) (next : ClientPc) (msg : String) :
    { s with client := next }.finishWait msg = s.finishWait msg := rfl

@[simp] theorem PoolSys.finishWait_consume (s : PoolSys) (i : Nat) (c : PoolWorker)
    (next : ClientPc) (msg : String) : (s.consume i c next).finishWait msg = s.finishWait msg := rfl

/-- One turn of `wait()`'s future loop on a drainable context: the client moves to the next one,
with the message of a `std::exception` added, and nothing the rest of the call reads changes. -/
theorem drain_step {s : PoolSys} {i : Nat} {msg : String} {c : PoolWorker}
    (client : s.client = .draining i msg) (get : s.pool.workerContexts[i]? = some c)
    (drainable : Drainable c) :
    ∃ s₁, (∃ a, PoolStep s a s₁) ∧ s₁.client = .draining (i + 1) (collectedMessages [c] msg) ∧
      s₁.pool.workerContexts.drop (i + 1) = s.pool.workerContexts.drop (i + 1) ∧
      s₁.pool.workerContexts.length = s.pool.workerContexts.length ∧
      ∀ m, s₁.finishWait m = s.finishWait m := by
  have kept := List.drop_set_of_lt { c with futureValid := false } s.pool.workerContexts
    (Nat.lt_succ_self i)
  cases valid : c.futureValid
  · exact ⟨_, ⟨.wait, .drainSkip client get valid⟩, by simp [collectedMessages, valid], rfl, rfl,
      fun _ => rfl⟩
  rcases drainable with invalid | exited | ⟨e, threw, std⟩
  · simp [valid] at invalid
  · exact ⟨_, ⟨.wait, .drainValue client get valid exited⟩,
      by simp [PoolSys.consume, collectedMessages, valid, exited], kept, by simp [PoolSys.consume],
      fun _ => rfl⟩
  · exact ⟨_, ⟨.wait, .drainStd client get valid threw std⟩,
      by simp [PoolSys.consume, collectedMessages, valid, threw], kept, by simp [PoolSys.consume],
      fun _ => rfl⟩

/-- The rest of `wait()`'s future loop, from context `i` on, when every context there is
drainable: the client's steps reach the end of the call. -/
theorem drain_run {s : PoolSys} {i : Nat} {msg : String} (client : s.client = .draining i msg)
    (drainable : ∀ c ∈ s.pool.workerContexts.drop i, Drainable c) :
    PoolReach s (s.finishWait (collectedMessages (s.pool.workerContexts.drop i) msg)) := by
  obtain ⟨n, fuel⟩ : ∃ n, s.pool.workerContexts.length - i = n := ⟨_, rfl⟩
  induction n generalizing s i msg with
  | zero =>
    have beyond : s.pool.workerContexts.length ≤ i := by omega
    rw [List.drop_eq_nil_of_le beyond]
    exact .single ⟨.wait, .drained client beyond⟩
  | succ n inductionHypothesis =>
    have inside : i < s.pool.workerContexts.length := by omega
    have split := List.drop_eq_getElem_cons inside
    rw [split] at drainable ⊢
    obtain ⟨s₁, step, client₁, rest, length, finish⟩ := drain_step client
      (List.getElem?_eq_getElem inside) (drainable _ (List.mem_cons_self _ _))
    have run := inductionHypothesis client₁
      (fun c member => drainable c (List.mem_cons_of_mem _ (rest ▸ member))) (by omega)
    rw [rest, finish] at run
    rw [collectedMessages_cons]
    exact .head step run

/-- The pool `clean_complete_workers` leaves when it runs from context `i` on with no other step
in between: the COMPLETED contexts from `i` on are gone. -/
def ThreadPool.cleanFrom (p : ThreadPool) (i : Nat) : ThreadPool :=
  { p with workerContexts :=
      p.workerContexts.take i ++ (p.workerContexts.drop i).filter (·.state != .completed) }

theorem ThreadPool.cleanFrom_eraseContext {p : ThreadPool} {i : Nat} {c : PoolWorker}
    (get : p.workerContexts[i]? = some c) (completed : c.state = .completed) :
    (p.eraseContext i).cleanFrom i = p.cleanFrom i := by
  obtain ⟨inside, rfl⟩ := List.getElem?_eq_some.1 get
  have prefix_length : (p.workerContexts.take i).length = i := by simp; omega
  dsimp only [cleanFrom, eraseContext]
  rw [List.eraseIdx_eq_take_drop_succ, List.take_left' prefix_length, List.drop_left' prefix_length,
    List.drop_eq_getElem_cons inside, List.filter_cons_of_neg (by simp [completed])]

theorem ThreadPool.cleanFrom_succ {p : ThreadPool} {i : Nat} {c : PoolWorker}
    (get : p.workerContexts[i]? = some c) (kept : c.state ≠ .completed) :
    p.cleanFrom (i + 1) = p.cleanFrom i := by
  obtain ⟨inside, rfl⟩ := List.getElem?_eq_some.1 get
  dsimp only [cleanFrom]
  rw [List.take_succ, List.getElem?_eq_getElem inside, List.drop_eq_getElem_cons inside,
    List.filter_cons_of_pos (by simpa using kept)]
  simp only [Option.toList_some, List.append_assoc, List.singleton_append]

/-- `clean_complete_workers` from context `i` on, when no other step comes in between: the client's
steps erase the COMPLETED contexts and move on. -/
theorem clean_run {s : PoolSys} {call : PoolCall} {i : Nat} (client : s.client = .cleaning call i) :
    PoolReach s { s with pool := s.pool.cleanFrom i, client := call.afterClean (s.pool.cleanFrom i) } := by
  obtain ⟨n, fuel⟩ : ∃ n, s.pool.workerContexts.length - i = n := ⟨_, rfl⟩
  induction n generalizing s i with
  | zero =>
    have beyond : s.pool.workerContexts.length ≤ i := by omega
    have unchanged : s.pool.cleanFrom i = s.pool := by
      simp [ThreadPool.cleanFrom, List.take_of_length_le beyond, List.drop_eq_nil_of_le beyond]
    rw [unchanged]
    exact .single ⟨_, .cleaned client beyond⟩
  | succ n inductionHypothesis =>
    have inside : i < s.pool.workerContexts.length := by omega
    have get := List.getElem?_eq_getElem inside
    by_cases completed : s.pool.workerContexts[i].state = .completed
    · have run := @inductionHypothesis { s with pool := s.pool.eraseContext i } i client
        (by simp [List.length_eraseIdx, inside]; omega)
      rw [show (s.pool.eraseContext i).cleanFrom i = s.pool.cleanFrom i from
        ThreadPool.cleanFrom_eraseContext get completed] at run
      exact .head ⟨_, .cleanErase client get completed⟩ run
    · have run := @inductionHypothesis { s with client := .cleaning call (i + 1) } (i + 1) rfl
        (by simp; omega)
      rw [show s.pool.cleanFrom (i + 1) = s.pool.cleanFrom i from
        ThreadPool.cleanFrom_succ get completed] at run
      exact .head ⟨_, .cleanKeep client get completed⟩ run

/-- The contexts `clean_complete_workers` erases add no message: a COMPLETED context has exited. -/
theorem collectedMessages_filter {cs : List PoolWorker} (msg : String)
    (exited : ∀ c ∈ cs, c.state = .completed → c.pc = .exited) :
    collectedMessages (cs.filter (·.state != .completed)) msg = collectedMessages cs msg := by
  induction cs generalizing msg with
  | nil => rfl
  | cons c cs inductionHypothesis =>
    have rest := fun c' member => exited c' (List.mem_cons_of_mem c member)
    by_cases completed : c.state = .completed
    · have none := collectedMessages_single_quiet (fun _ e threw =>
        nomatch (exited c (List.mem_cons_self _ _) completed).symm.trans threw) msg
      rw [List.filter_cons_of_neg (by simp [completed]), collectedMessages_cons, none,
        inductionHypothesis msg rest]
    · rw [List.filter_cons_of_pos (by simpa using completed), collectedMessages_cons,
        collectedMessages_cons c cs, inductionHypothesis _ rest]

/-- `wait()` on a pool whose worker threads have all finished, none with an exception outside
`std::exception`: the client's own steps finish the call, the pool is reset, and it raises exactly
when some unconsumed future held an exception. -/
theorem wait_returns {s : PoolSys} (idle : s.client = .idle) (ok : WorkersOk s)
    (finished : ∀ c ∈ s.pool.workerContexts, Drainable c) :
    PoolReach s (s.finishWait (collectedMessages s.pool.workerContexts "")) ∧
      ((waitResult (collectedMessages s.pool.workerContexts "")).isSome ↔
        ∃ c ∈ s.pool.workerContexts, c.futureValid = true ∧ ∃ e, c.pc = .threw e) := by
  refine ⟨?_, waitResult_isSome _⟩
  have cleaned := @clean_run { s with client := .cleaning .wait 0 } .wait 0 rfl
  have drained := @drain_run { s with pool := s.pool.cleanFrom 0, client := .draining 0 "" } 0 ""
    rfl fun c member => finished c (by
      simp only [ThreadPool.cleanFrom, List.take_zero, List.drop_zero, List.nil_append] at member
      exact (List.mem_filter.1 member).1)
  have same : collectedMessages ((s.pool.cleanFrom 0).workerContexts.drop 0) "" =
      collectedMessages s.pool.workerContexts "" := by
    simpa [ThreadPool.cleanFrom] using collectedMessages_filter "" fun c member completed =>
      (ok c member).1 completed
  rw [same] at drained
  exact .head ⟨_, .waitCall idle⟩ (cleaned.trans drained)

theorem PoolReach.cons (a : PoolAct) {s s' t : PoolSys} (step : PoolStep s a s')
    (run : PoolReach s' t) : PoolReach s t :=
  ReflTransGen.head ⟨a, step⟩ run

/-- `ThreadPool(1, 1)` after `push(job0)`, whose job threw a `std::runtime_error`. -/
def threwStd : PoolSys where
  pool := { threadPool 1 1 false with
    workerContexts := [⟨.core, .busy, .threw (.runtimeError "boom"), true⟩] }
  accepted := [0]

theorem wait_returns_threw :
    PoolReach (PoolSys.init (threadPool 1 1 false)) threwStd ∧
    (threwStd.client = .idle ∧ WorkersOk threwStd ∧
      ∀ c ∈ threwStd.pool.workerContexts, Drainable c) ∧
    PoolReach threwStd (threwStd.finishWait (collectedMessages threwStd.pool.workerContexts "")) ∧
    (waitResult (collectedMessages threwStd.pool.workerContexts "")).isSome := by
  have ok : WorkersOk threwStd := by simp [WorkersOk, threwStd]
  have finished : ∀ c ∈ threwStd.pool.workerContexts, Drainable c := by
    simp [Drainable, threwStd, Thrown.isStd]
  have returns := wait_returns rfl ok finished
  refine ⟨?_, ⟨rfl, ok, finished⟩, returns.1, returns.2.2 ⟨_, List.mem_singleton_self _, rfl, _, rfl⟩⟩
  exact .cons .push (.call 0 rfl rfl) <|
    .cons (.clean (.push 0)) (.cleaned rfl (by decide)) <|
    .cons .push (.create rfl (by decide)) <|
    .cons .push (.enqueue rfl) <|
    .cons (.worker 0) (.awaitStart rfl rfl rfl) <|
    .cons (.worker 0) (.ready rfl rfl) <|
    .cons (.worker 0) (.pop rfl (.inl rfl) rfl rfl) <|
    .cons (.worker 0) (.throw (.runtimeError "boom") rfl rfl) .refl

/-! ## `terminate()`, then `start()` -/

end Athread
