import Athread.TraceSound

/-!
# The edge lists the graph calls keep

Every edge `p → n` is stored twice, `p` in `n->_predecessors` and `n` in `p->_successors`, and the
calls of `Task` and `ThreadGraph` edit both ends together. Over any sequence of `push`, `erase`
and the edge calls on non-empty handles, including calls that raise:

* `EdgesSound` holds: the two lists agree, no list has a duplicate or the node itself, and no two
  nodes are each other's predecessor (`depend` rejects the direct back edge);
* `erase` leaves no list naming the erased node.

`depend` checks only the direct back edge, so a longer cycle is accepted, and on a cycle of READY
nodes `trace_ready_depend` never returns (`depend_accepts_cycle`).
-/

namespace Athread

open Relation

/-- The edge lists every call on handles keeps. -/
structure EdgesSound (heap : Heap) : Prop where
  symm : ∀ a b, b ∈ (heap a).successors ↔ a ∈ (heap b).predecessors
  nodup_predecessors : ∀ a, (heap a).predecessors.Nodup
  nodup_successors : ∀ a, (heap a).successors.Nodup
  irrefl : ∀ a, a ∉ (heap a).predecessors
  asymm : ∀ a b, a ∈ (heap b).predecessors → b ∉ (heap a).predecessors

theorem EdgesSound.of_fresh {heap : Heap}
    (fresh : ∀ a, (heap a).predecessors = [] ∧ (heap a).successors = []) : EdgesSound heap where
  symm a b := by simp [(fresh a).2, (fresh b).1]
  nodup_predecessors a := by simp [(fresh a).1]
  nodup_successors a := by simp [(fresh a).2]
  irrefl a := by simp [(fresh a).1]
  asymm a b := by simp [(fresh b).1]

/-- `for (auto p : l) p->edit(...)`, each write an idempotent edit of the node at `p`. -/
theorem foldl_modify_apply (l : List NodeId) (f : Node → Node) (idempotent : ∀ x, f (f x) = f x)
    (heap : Heap) (m : NodeId) :
    (l.foldl (fun h p => h.modify p f) heap) m = if m ∈ l then f (heap m) else heap m := by
  induction l generalizing heap with
  | nil => simp
  | cons p ps inductionHypothesis =>
    simp only [List.foldl_cons, inductionHypothesis, Heap.modify_apply, List.mem_cons]
    by_cases inRest : m ∈ ps <;> by_cases same : m = p <;> simp [inRest, same, idempotent]

section Sound

variable {heap heap' : Heap}

/-- Lists that only shrank, and still agree, stay sound. -/
theorem EdgesSound.shrink (sound : EdgesSound heap)
    (symm : ∀ a b, b ∈ (heap' a).successors ↔ a ∈ (heap' b).predecessors)
    (preds : ∀ m, List.Sublist (heap' m).predecessors (heap m).predecessors)
    (succs : ∀ m, List.Sublist (heap' m).successors (heap m).successors) : EdgesSound heap' where
  symm := symm
  nodup_predecessors m := (sound.nodup_predecessors m).sublist (preds m)
  nodup_successors m := (sound.nodup_successors m).sublist (succs m)
  irrefl a self := sound.irrefl a ((preds a).subset self)
  asymm a b edge back := sound.asymm a b ((preds b).subset edge) ((preds a).subset back)

theorem filter_sublist_ite (c : Prop) [Decidable c] (l : List NodeId) (p : NodeId → Bool) :
    List.Sublist (if c then l.filter p else l) l := by
  split
  · exact List.filter_sublist l
  · exact List.Sublist.refl l

theorem EdgesSound.depend (sound : EdgesSound heap) {this t : Task}
    (success : depend heap this t = .ok heap') : EdgesSound heap' := by
  obtain ⟨n, tn, -, -, distinct, noBack, rfl⟩ := depend_eq_ok success
  have preds := link_predecessors heap distinct
  have succs := link_successors heap distinct
  have memPreds : ∀ m q, q ∈ (((heap.modify n (·.addPredecessor tn)).modify tn
      (·.addSuccessor n)) m).predecessors ↔ q ∈ (heap m).predecessors ∨ m = n ∧ q = tn := by
    intro m q
    rw [preds]
    split <;> simp [*]
  refine ⟨fun a b => ?_, fun a => ?_, fun a => ?_, fun a => ?_, fun a b edge back => ?_⟩
  · rw [succs, memPreds]
    split <;> simp [*, sound.symm, and_comm]
  · rw [preds]
    split
    · exact Node.nodup_addPredecessor tn (sound.nodup_predecessors a)
    · exact sound.nodup_predecessors a
  · rw [succs]
    split
    · exact Node.nodup_addSuccessor n (sound.nodup_successors a)
    · exact sound.nodup_successors a
  · rw [memPreds]
    rintro (self | ⟨rfl, rfl⟩)
    exacts [sound.irrefl a self, distinct rfl]
  · rw [memPreds] at edge back
    rcases edge with edge | ⟨bN, aTn⟩ <;> rcases back with back | ⟨aN, bTn⟩
    · exact sound.asymm a b edge back
    · exact noBack (aN ▸ bTn ▸ edge)
    · exact noBack (bN ▸ aTn ▸ back)
    · exact distinct (bN.symm.trans bTn)

theorem EdgesSound.dependAll (sound : EdgesSound heap) (this : Task) (ts : List Task) :
    EdgesSound (dependAll heap this ts).1 := by
  induction ts generalizing heap with
  | nil => exact sound
  | cons t ts inductionHypothesis =>
    unfold Athread.dependAll
    split
    · exact inductionHypothesis (sound.depend ‹_›)
    · exact sound

theorem EdgesSound.precedeAll (sound : EdgesSound heap) (this : Task) (ts : List Task) :
    EdgesSound (precedeAll heap this ts).1 := by
  induction ts generalizing heap with
  | nil => exact sound
  | cons t ts inductionHypothesis =>
    unfold Athread.precedeAll
    split
    · exact inductionHypothesis (sound.depend ‹_›)
    · exact sound

theorem EdgesSound.eraseDepend (sound : EdgesSound heap) (this other : Task) :
    EdgesSound (eraseDepend heap this other) := by
  match this, other with
  | ⟨some n⟩, ⟨some o⟩ =>
    refine sound.shrink (fun a b => ?_) (fun m => ?_) (fun m => ?_)
    · by_cases atO : a = o <;> by_cases atN : b = n <;> simp [atO, atN, sound.symm]
    · simpa using filter_sublist_ite (m = n) _ _
    · simpa using filter_sublist_ite (m = o) _ _
  | ⟨none⟩, _ => exact sound
  | ⟨some _⟩, ⟨none⟩ => exact sound

theorem EdgesSound.erasePrecede (sound : EdgesSound heap) (this other : Task) :
    EdgesSound (erasePrecede heap this other) := by
  match this, other with
  | ⟨some n⟩, ⟨some o⟩ =>
    refine sound.shrink (fun a b => ?_) (fun m => ?_) (fun m => ?_)
    · by_cases atN : a = n <;> by_cases atO : b = o <;> simp [atO, atN, sound.symm]
    · simpa using filter_sublist_ite (m = o) _ _
    · simpa using filter_sublist_ite (m = n) _ _
  | ⟨none⟩, _ => exact sound
  | ⟨some _⟩, ⟨none⟩ => exact sound

theorem EdgesSound.eraseDependAll (sound : EdgesSound heap) (this : Task) (others : List Task) :
    EdgesSound (eraseDependAll heap this others) := by
  unfold Athread.eraseDependAll
  induction others generalizing heap with
  | nil => exact sound
  | cons other others inductionHypothesis => exact inductionHypothesis (sound.eraseDepend this other)

theorem EdgesSound.erasePrecedeAll (sound : EdgesSound heap) (this : Task) (others : List Task) :
    EdgesSound (erasePrecedeAll heap this others) := by
  unfold Athread.erasePrecedeAll
  induction others generalizing heap with
  | nil => exact sound
  | cons other others inductionHypothesis => exact inductionHypothesis (sound.erasePrecede this other)

/-- `erase` first drops the node from the lists of its neighbours, which by `symm` are all the
lists that name it. -/
theorem EdgesSound.unlink_apply (sound : EdgesSound heap) (n m : NodeId) :
    (unlink heap n m).predecessors = (heap m).predecessors.filter (· != n) ∧
      (unlink heap n m).successors = (heap m).successors.filter (· != n) := by
  have first := foldl_modify_apply (heap n).predecessors (·.removeSuccessor n)
    (fun x => x.removeSuccessor_removeSuccessor n) heap
  have self : ((heap n).predecessors.foldl (fun h p => h.modify p (·.removeSuccessor n)) heap) n =
      heap n := by rw [first, if_neg (sound.irrefl n)]
  have untouched : ∀ {l : List NodeId}, n ∉ l → l.filter (· != n) = l := fun absent =>
    List.filter_eq_self.2 fun x member => by simp only [bne_iff_ne]; rintro rfl; exact absent member
  simp only [unlink, self]
  rw [foldl_modify_apply _ _ (fun x => x.removePredecessor_removePredecessor n), first]
  constructor
  · by_cases succ : m ∈ (heap n).successors
    · split_ifs <;> simp [succ, Node.removePredecessor]
    · have absent : n ∉ (heap m).predecessors := fun p => succ ((sound.symm n m).2 p)
      split_ifs <;> simp [succ, untouched absent]
  · by_cases pred : m ∈ (heap n).predecessors
    · split_ifs <;> simp [pred, Node.removeSuccessor]
    · have absent : n ∉ (heap m).successors := fun s => pred ((sound.symm m n).1 s)
      split_ifs <;> simp [pred, untouched absent]

/-- The lists once `erase` unlinked node `n` and deleted it. -/
theorem EdgesSound.deleted_apply (sound : EdgesSound heap) (n m : NodeId) :
    (Function.update (unlink heap n) n {} m).predecessors =
        (if m = n then [] else (heap m).predecessors.filter (· != n)) ∧
      (Function.update (unlink heap n) n {} m).successors =
        (if m = n then [] else (heap m).successors.filter (· != n)) := by
  by_cases same : m = n
  · subst same
    simp
  · simpa [same] using sound.unlink_apply n m

/-- `erase` keeps the lists sound, and once it returns true no list names the erased node. -/
theorem EdgesSound.erase (sound : EdgesSound heap) {g g' : ThreadGraph} {t : Task}
    {removed : Bool} (erased : erase heap g t = .ok (heap', g', removed)) :
    EdgesSound heap' ∧ (removed = true → ∀ n, t.node = some n →
      ∀ m, n ∉ (heap' m).predecessors ∧ n ∉ (heap' m).successors) := by
  rcases erase_eq_ok erased with ⟨rfl, -, rfl⟩ | ⟨n, named, -, rfl, -, -⟩
  · exact ⟨sound, by simp⟩
  have lists := sound.deleted_apply n
  refine ⟨sound.shrink (fun a b => ?_) (fun m => ?_) (fun m => ?_), fun _ n' same m => ?_⟩
  · rw [(lists a).2, (lists b).1]
    by_cases atA : a = n <;> by_cases atB : b = n <;> simp [atA, atB, sound.symm]
  · rw [(lists m).1]
    split
    · exact List.nil_sublist _
    · exact List.filter_sublist _
  · rw [(lists m).2]
    split
    · exact List.nil_sublist _
    · exact List.filter_sublist _
  · rw [named] at same
    cases same
    rw [(lists m).1, (lists m).2]
    split <;> simp

end Sound

/-! ## Sequences of calls on one graph -/

/-- The calls on one graph that edit its pool or its edges: `push` of a node, `erase`, and the
edge calls of `Task`, single and vector forms. -/
inductive GraphCall where
  | push (n : NodeId)
  | erase (t : Task)
  | depend (this t : Task)
  | dependAll (this : Task) (ts : List Task)
  | precede (this t : Task)
  | precedeAll (this : Task) (ts : List Task)
  | eraseDepend (this other : Task)
  | eraseDependAll (this : Task) (others : List Task)
  | erasePrecede (this other : Task)
  | erasePrecedeAll (this : Task) (others : List Task)
  deriving DecidableEq, Repr

namespace GraphCall

/-- The handles a call is given. -/
def handles : GraphCall → List Task
  | push _ => []
  | erase t => [t]
  | depend this t | precede this t | eraseDepend this t | erasePrecede this t => [this, t]
  | dependAll this ts | precedeAll this ts | eraseDependAll this ts | erasePrecedeAll this ts =>
    this :: ts

/-- The heap and graph a call leaves. A call that raises keeps what it did before raising:
nothing, except a vector form, which keeps the edges of the handles before the failing one. -/
def run : GraphCall → Heap × ThreadGraph → Heap × ThreadGraph
  | push n, (heap, g) =>
    match Athread.push heap g (some n) with
    | .ok (g', _) => (heap, g')
    | .error _ => (heap, g)
  | erase t, (heap, g) =>
    match Athread.erase heap g t with
    | .ok (heap', g', _) => (heap', g')
    | .error _ => (heap, g)
  | depend this t, (heap, g) =>
    match Athread.depend heap this t with
    | .ok heap' => (heap', g)
    | .error _ => (heap, g)
  | dependAll this ts, (heap, g) => ((Athread.dependAll heap this ts).1, g)
  | precede this t, (heap, g) =>
    match Athread.precede heap this t with
    | .ok heap' => (heap', g)
    | .error _ => (heap, g)
  | precedeAll this ts, (heap, g) => ((Athread.precedeAll heap this ts).1, g)
  | eraseDepend this other, (heap, g) => (Athread.eraseDepend heap this other, g)
  | eraseDependAll this others, (heap, g) => (Athread.eraseDependAll heap this others, g)
  | erasePrecede this other, (heap, g) => (Athread.erasePrecede heap this other, g)
  | erasePrecedeAll this others, (heap, g) => (Athread.erasePrecedeAll heap this others, g)

end GraphCall

/-- One call on non-empty handles. -/
def CallStep (s s' : Heap × ThreadGraph) : Prop :=
  ∃ c : GraphCall, (∀ t ∈ c.handles, t.node.isSome) ∧ s' = c.run s

theorem EdgesSound.run {s : Heap × ThreadGraph} (sound : EdgesSound s.1) (c : GraphCall) :
    EdgesSound (c.run s).1 := by
  obtain ⟨heap, g⟩ := s
  cases c with
  | push n =>
    simp only [GraphCall.run]
    split <;> exact sound
  | erase t =>
    simp only [GraphCall.run]
    split
    · exact (sound.erase ‹_›).1
    · exact sound
  | depend this t =>
    simp only [GraphCall.run]
    split
    · exact sound.depend ‹_›
    · exact sound
  | precede this t =>
    simp only [GraphCall.run]
    split
    · exact sound.depend ‹_›
    · exact sound
  | dependAll this ts => exact sound.dependAll this ts
  | precedeAll this ts => exact sound.precedeAll this ts
  | eraseDepend this other => exact sound.eraseDepend this other
  | eraseDependAll this others => exact sound.eraseDependAll this others
  | erasePrecede this other => exact sound.erasePrecede this other
  | erasePrecedeAll this others => exact sound.erasePrecedeAll this others

/-- Calls on non-empty handles, from fresh nodes, keep the edge lists sound. -/
theorem EdgesSound.of_calls {heap₀ : Heap} {g₀ : ThreadGraph}
    (fresh : ∀ a, (heap₀ a).predecessors = [] ∧ (heap₀ a).successors = [])
    {s : Heap × ThreadGraph} (reach : ReflTransGen CallStep (heap₀, g₀) s) : EdgesSound s.1 := by
  induction reach with
  | refl => exact EdgesSound.of_fresh fresh
  | tail _ step inductionHypothesis =>
    obtain ⟨c, -, rfl⟩ := step
    exact inductionHypothesis.run c

theorem calls_keep_edges {heap₀ : Heap} {g₀ : ThreadGraph}
    (fresh : ∀ a, (heap₀ a).predecessors = [] ∧ (heap₀ a).successors = [])
    {s : Heap × ThreadGraph} (reach : ReflTransGen CallStep (heap₀, g₀) s) :
    (∀ a b, b ∈ (s.1 a).successors ↔ a ∈ (s.1 b).predecessors) ∧
    (∀ a, (s.1 a).predecessors.Nodup ∧ (s.1 a).successors.Nodup ∧
      a ∉ (s.1 a).predecessors ∧ a ∉ (s.1 a).successors) ∧
    (∀ a b, a ∈ (s.1 b).predecessors → b ∉ (s.1 a).predecessors) ∧
    (∀ n heap' g', erase s.1 s.2 ⟨some n⟩ = .ok (heap', g', true) →
      ∀ m, n ∉ (heap' m).predecessors ∧ n ∉ (heap' m).successors) := by
  have sound := EdgesSound.of_calls fresh reach
  refine ⟨sound.symm, fun a => ⟨sound.nodup_predecessors a, sound.nodup_successors a,
    sound.irrefl a, fun self => sound.irrefl a ((sound.symm a a).1 self)⟩, sound.asymm,
    fun n heap' g' erased => (sound.erase erased).2 rfl n rfl⟩

/-- Fresh nodes, after `Task(1).depend(Task(0))`. -/
def dependedOnce : Heap × ThreadGraph := (GraphCall.depend ⟨some 1⟩ ⟨some 0⟩).run (fun _ => {}, {})

theorem dependedOnce_reach : ReflTransGen CallStep (fun _ => {}, {}) dependedOnce :=
  .single ⟨_, by simp [GraphCall.handles], rfl⟩

theorem calls_keep_edges_depend :
    ((∀ a, ((fun _ => {} : Heap) a).predecessors = [] ∧ ((fun _ => {} : Heap) a).successors = []) ∧
      ReflTransGen CallStep (fun _ => {}, {}) dependedOnce) ∧
    0 ∈ (dependedOnce.1 1).predecessors ∧
    (∀ a b, b ∈ (dependedOnce.1 a).successors ↔ a ∈ (dependedOnce.1 b).predecessors) ∧
    (∀ a, (dependedOnce.1 a).predecessors.Nodup ∧ (dependedOnce.1 a).successors.Nodup ∧
      a ∉ (dependedOnce.1 a).predecessors ∧ a ∉ (dependedOnce.1 a).successors) ∧
    (∀ a b, a ∈ (dependedOnce.1 b).predecessors → b ∉ (dependedOnce.1 a).predecessors) ∧
    (∀ n heap' g', erase dependedOnce.1 dependedOnce.2 ⟨some n⟩ = .ok (heap', g', true) →
      ∀ m, n ∉ (heap' m).predecessors ∧ n ∉ (heap' m).successors) :=
  ⟨⟨fun _ => ⟨rfl, rfl⟩, dependedOnce_reach⟩, by decide,
    calls_keep_edges (fun _ => ⟨rfl, rfl⟩) dependedOnce_reach⟩

/-! ## A cycle `depend` accepts -/

/-- `t2.depend(t1); t3.depend(t2); t1.depend(t3)` on three fresh nodes, each edge written on
both ends as `depend` writes it. -/
def cycleHeap : Heap :=
  let linked₁ := (Heap.modify (fun _ => {}) 2 (·.addPredecessor 1)).modify 1 (·.addSuccessor 2)
  let linked₂ := (linked₁.modify 3 (·.addPredecessor 2)).modify 2 (·.addSuccessor 3)
  (linked₂.modify 1 (·.addPredecessor 3)).modify 3 (·.addSuccessor 1)

/-- On the READY cycle each trace recurses into the one predecessor of its node, so it never
returns, whatever the fuel. -/
theorem traceReadyDepend_cycleHeap (fuel : Nat) :
    ∀ e ∈ [1, 2, 3], ∀ k, traceReadyDepend cycleHeap (fun _ _ => .ready) [] fuel e k = none := by
  induction fuel with
  | zero => exact fun _ _ _ => rfl
  | succ fuel inductionHypothesis =>
    intro e member k
    obtain ⟨p, onCycle, preds⟩ : ∃ p ∈ [1, 2, 3], (cycleHeap e).predecessors = [p] := by
      simp only [List.mem_cons, List.not_mem_nil, or_false] at member
      rcases member with rfl | rfl | rfl <;> decide
    simp [traceReadyDepend, dependScan, preds, inductionHypothesis p onCycle]

theorem depend_accepts_cycle :
    (depend (fun _ => {}) ⟨some 2⟩ ⟨some 1⟩ >>= fun h => depend h ⟨some 3⟩ ⟨some 2⟩ >>=
      fun h => depend h ⟨some 1⟩ ⟨some 3⟩) = .ok cycleHeap ∧
    TransGen (PredEdge cycleHeap) 1 1 ∧
    ∀ fuel k, traceReadyDepend cycleHeap (fun _ _ => .ready) [] fuel 1 k = none := by
  have edge : ∀ a b, a ∈ (cycleHeap b).predecessors → PredEdge cycleHeap a b := fun _ _ => id
  exact ⟨rfl, .tail (.tail (.single (edge 1 2 (by decide))) (edge 2 3 (by decide)))
    (edge 3 1 (by decide)), fun fuel => traceReadyDepend_cycleHeap fuel 1 (by simp)⟩

/-- From fresh nodes, every sequence of calls on non-empty handles keeps the predecessor relation
free of direct back edges, and `depend` on two distinct nodes raises CYCLE exactly when the
receiver is already a predecessor of its argument. That is the only cycle check. -/
theorem depend_checks_back_edge {heap₀ : Heap} {g₀ : ThreadGraph}
    (fresh : ∀ a, (heap₀ a).predecessors = [] ∧ (heap₀ a).successors = [])
    {s : Heap × ThreadGraph} (reach : ReflTransGen CallStep (heap₀, g₀) s) :
    (∀ a b, a ∈ (s.1 b).predecessors → b ∉ (s.1 a).predecessors) ∧
    ∀ n m, n ≠ m → (depend s.1 ⟨some n⟩ ⟨some m⟩ =
      .error (.raised (.runtimeError "Circular dependency detected")) ↔ n ∈ (s.1 m).predecessors) := by
  have sound := EdgesSound.of_calls fresh reach
  refine ⟨sound.asymm, fun n m different => ?_⟩
  have distinct : (some m : Option NodeId) ≠ some n := by simpa using different.symm
  by_cases back : n ∈ (s.1 m).predecessors <;> simp [depend, distinct, back]

theorem depend_checks_back_edge_depended :
    ((∀ a, ((fun _ => {} : Heap) a).predecessors = [] ∧ ((fun _ => {} : Heap) a).successors = []) ∧
      ReflTransGen CallStep (fun _ => {}, {}) dependedOnce ∧ (0 : NodeId) ≠ 1) ∧
    depend dependedOnce.1 ⟨some 0⟩ ⟨some 1⟩ =
      .error (.raised (.runtimeError "Circular dependency detected")) :=
  ⟨⟨fun _ => ⟨rfl, rfl⟩, dependedOnce_reach, by decide⟩,
    ((depend_checks_back_edge (fun _ => ⟨rfl, rfl⟩) dependedOnce_reach).2 0 1 (by decide)).2
      (by decide)⟩

end Athread
