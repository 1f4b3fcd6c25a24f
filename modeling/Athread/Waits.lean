import Athread.Safety

/-!
# What `wait()` leaves behind

`ThreadGraph::wait` drains every worker's future, joins every thread and resets the graph, and
raises when some future held an exception, but only while every stored exception derives from
`std::exception` (`wait_of_std`). A payload may throw anything: `future.get()` rethrows it,
`catch (const std::exception&)` lets a non-std exception through, and `wait` leaves before joining
the threads and before `reset()`. The graph then still counts as executing, so the next
`start()` and `push()` are refused (`wait_escapes_nonStd`).
-/

namespace Athread

/-- Every worker has finished, with no exception or one derived from `std::exception`. -/
def FinishedStd (cs : List WorkerContext) : Prop :=
  ∀ c ∈ cs, ∃ r, c.pc = .done r ∧ ∀ e, r = some e → e.isStd

theorem collectFutures_std {cs : List WorkerContext} (msg : String) (finished : FinishedStd cs) :
    ∃ cs' msg', collectFutures cs msg = some (cs', .ok msg') ∧ (∀ c ∈ cs', ∃ r, c.pc = .done r) ∧
      msg.length ≤ msg'.length ∧
      (msg'.length = msg.length ↔ ∀ c ∈ cs, c.futureValid → c.pc = .done none) := by
  induction cs generalizing msg with
  | nil => exact ⟨[], msg, rfl, by simp, le_rfl, by simp⟩
  | cons c cs inductionHypothesis =>
    obtain ⟨r, done, std⟩ := finished c (List.mem_cons_self _ _)
    have rest : FinishedStd cs := fun c' member => finished c' (List.mem_cons_of_mem _ member)
    cases valid : c.futureValid
    · obtain ⟨cs', msg', collected, finishedAll, longer, same⟩ := inductionHypothesis msg rest
      refine ⟨c :: cs', msg', by simp [collectFutures, valid, collected], ?_, longer, ?_⟩
      · simpa [done] using finishedAll
      · simp [same, valid]
    · cases r with
      | none =>
        obtain ⟨cs', msg', collected, finishedAll, longer, same⟩ := inductionHypothesis msg rest
        refine ⟨{ c with futureValid := false } :: cs', msg', by simp [collectFutures, valid, done, collected],
          ?_, longer, ?_⟩
        · simpa [done] using finishedAll
        · simp [same, valid, done]
      | some e =>
        obtain ⟨cs', msg', collected, finishedAll, longer, -⟩ :=
          inductionHypothesis (msg ++ e.what ++ "\n") rest
        have newline : "\n".length = 1 := rfl
        simp only [String.length_append, newline] at longer
        refine ⟨{ c with futureValid := false } :: cs', msg',
          by simp [collectFutures, valid, done, std e rfl, collected], ?_, by omega, ?_⟩
        · simpa [done] using finishedAll
        · simp [valid, done]
          omega

theorem joinAll_done {cs : List WorkerContext} (finished : ∀ c ∈ cs, ∃ r, c.pc = .done r) :
    ∃ cs', joinAll cs = some cs' := by
  induction cs with
  | nil => exact ⟨[], rfl⟩
  | cons c cs inductionHypothesis =>
    obtain ⟨r, done⟩ := finished c (List.mem_cons_self _ _)
    obtain ⟨cs', joined⟩ := inductionHypothesis fun c' member =>
      finished c' (List.mem_cons_of_mem _ member)
    cases joinable : c.joinable <;> simp [joinAll, joinable, done, joined]

/-- `wait` on workers that have all finished, each with no exception or a `std::exception`: the
graph is reset, and it raises exactly when some unconsumed future holds an exception. -/
theorem wait_of_std {g : ThreadGraph} (finished : FinishedStd g.workerContexts) :
    ∃ g' raised, wait g = some (g', raised) ∧ g'.executingFlag = false ∧
      g'.terminationFlag = false ∧ g'.workerContexts = [] ∧ g'.taskPool = g.taskPool ∧
      (raised.isSome ↔ ∃ c ∈ g.workerContexts, c.futureValid ∧ ∃ e, c.pc = .done (some e)) := by
  obtain ⟨cs', msg', collected, finishedAll, -, same⟩ := collectFutures_std "" finished
  obtain ⟨cs'', joined⟩ := joinAll_done finishedAll
  refine ⟨({ g with workerContexts := cs'' }).reset,
    if msg'.isEmpty then none else some (.runtimeError ("Exception occurred in worker thread: " ++ msg')),
    by simp [wait, collected, joined], rfl, rfl, rfl, rfl, ?_⟩
  have exceptions : (∃ c ∈ g.workerContexts, c.futureValid ∧ ∃ e, c.pc = .done (some e)) ↔
      ¬ ∀ c ∈ g.workerContexts, c.futureValid → c.pc = .done none := by
    constructor
    · rintro ⟨c, member, valid, e, done⟩ noneThrew
      simp [noneThrew c member valid] at done
    · intro someThrew
      push_neg at someThrew
      obtain ⟨c, member, valid, notNone⟩ := someThrew
      obtain ⟨_ | e, done, -⟩ := finished c member
      · exact (notNone done).elim
      · exact ⟨c, member, valid, e, done⟩
  have empty : msg'.isEmpty = true ↔ msg'.length = "".length := string_isEmpty_iff msg'
  rw [exceptions, ← same, ← empty]
  cases msg'.isEmpty <;> simp

/-- `future.get()` blocks on the future of a worker that has not returned: the loop of `wait`
never ends when such a future is unconsumed and no future holds an exception that `wait` lets
through. -/
theorem collectFutures_blocked {cs : List WorkerContext} (msg : String)
    (std : ∀ c ∈ cs, ∀ e, c.pc = .done (some e) → e.isStd = true)
    (blocked : ∃ c ∈ cs, c.futureValid = true ∧ ∀ r, c.pc ≠ .done r) :
    collectFutures cs msg = none := by
  induction cs generalizing msg with
  | nil => simp at blocked
  | cons c cs inductionHypothesis =>
    obtain ⟨b, member, valid, running⟩ := blocked
    rcases List.mem_cons.1 member with rfl | later
    · simp only [collectFutures, valid, if_true]
      split
      · exact (running none ‹_›).elim
      · exact (running _ ‹_›).elim
      · rfl
    · have rest := fun msg => inductionHypothesis msg
        (fun c' member' => std c' (List.mem_cons_of_mem _ member')) ⟨b, later, valid, running⟩
      simp only [collectFutures]
      split_ifs
      · split
        · simp [rest]
        · simp [std c (List.mem_cons_self _ _) _ ‹_›, rest]
        · rfl
      · simp [rest]

/-- The run of one pool node without edges, as `start()` launches it. -/
def loneRun : Sys := Sys.launch (fun _ => {}) loneGraph

/-- The lone node's payload throws something not derived from `std::exception`; its worker sets
the flag, broadcasts and exits. -/
def loneNonStd : Sys :=
  ((((((loneRun.setPc 0 (.tracing none)).claim 0 0).setPc 0 (.caught .nonStd)).record
    (.threw 0 .nonStd)).setPc 0 (.raising .nonStd)).setFlag.setPc 0 (.done (some .nonStd))).notifyAll

theorem wait_escapes_nonStd :
    Reachable loneRun loneNonStd ∧
    ∃ g', wait loneNonStd.graph = some (g', some .nonStd) ∧ g'.executingFlag = true ∧
      g'.terminationFlag = true ∧ g'.workerContexts ≠ [] ∧
      start loneNonStd.heap g' = some (loneNonStd.heap, g',
        some (.raised (.runtimeError "Cannot start execution while already executing."))) ∧
      push loneNonStd.heap g' (some 1) =
        .error (.raised (.runtimeError "Cannot push tasks while executing.")) := by
  refine ⟨?_, _, rfl, rfl, rfl, by decide, rfl, rfl⟩
  exact .step (.step (.step (.step (.step .refl
    (@Step.check _ 0 none (by decide)))
    (@Step.claim _ 0 none _ 1 0 2 (by decide) (reads_const _) (by decide)))
    (.throw .nonStd (by decide)))
    (.flag (by decide)))
    (.raise (by decide))

end Athread
