import Athread.Edges
import Athread.Verdicts

/-!
# Nodes shared between graphs

A client may hold any number of `ThreadGraph`s over one heap. `push` looks for duplicates only in
its own pool and `Task::depend` does not look at graphs at all, so one node can be pushed into two
graphs and an edge can join nodes of two graphs (`graphs_share_node`).

The library leaves ownership to its client: push a node only when no graph holds it, and give the
calls that add edges on a graph (`depend` and `precede`, single and vector forms) only handles of
that graph's nodes. `erase` of a node outside the graph's pool returns false and changes nothing,
and `erase_depend` and `erase_precede` only remove entries, so these take any handles. Under that
discipline every node stays in at most one pool, every pool keeps its edges inside it, no node
outside a pool points into it (so its `clear()` leaves nothing dangling), and a trace of one graph
names only that graph's nodes (`disciplined_calls_keep_ownership`).
-/

namespace Athread

open Relation

/-- The graphs a client holds and the heap their nodes live in. -/
structure World where
  heap : Heap
  graphs : Nat → ThreadGraph

/-- A call on graph `i`, or its `clear()`, which its destructor also runs. -/
inductive WorldCall where
  | call (i : Nat) (c : GraphCall)
  | clear (i : Nat)

def WorldCall.run : WorldCall → World → World
  | call i c, w =>
    let r := c.run (w.heap, w.graphs i)
    ⟨r.1, Function.update w.graphs i r.2⟩
  | clear i, w =>
    let r := Athread.clear w.heap (w.graphs i)
    ⟨r.1, Function.update w.graphs i r.2⟩

/-- Any call on any graph. -/
def WorldStep (w w' : World) : Prop := ∃ c : WorldCall, w' = c.run w

/-- The handle names a node of `pool`. -/
def InPool (pool : List NodeId) (t : Task) : Prop := ∃ n, t.node = some n ∧ n ∈ pool

/-- The client's side of ownership: push only a node no graph holds, and give the calls that add
edges on a graph only handles of its own nodes. -/
def WorldCall.Disciplined (w : World) : WorldCall → Prop
  | call _ (.push n) => ∀ j, n ∉ (w.graphs j).taskPool
  | call i (.depend this t) | call i (.precede this t) =>
    InPool (w.graphs i).taskPool this ∧ InPool (w.graphs i).taskPool t
  | call i (.dependAll this ts) | call i (.precedeAll this ts) =>
    ∀ t ∈ this :: ts, InPool (w.graphs i).taskPool t
  | _ => True

def DisciplinedStep (w w' : World) : Prop := ∃ c : WorldCall, c.Disciplined w ∧ w' = c.run w

/-- One owner per node: pools are disjoint, each keeps its edges inside it, and a node no graph
holds has no edges. -/
structure Owned (w : World) : Prop where
  sound : EdgesSound w.heap
  disjoint : ∀ n i j, n ∈ (w.graphs i).taskPool → n ∈ (w.graphs j).taskPool → i = j
  closed : ∀ i, EdgesClosed w.heap (w.graphs i).taskPool
  outside : ∀ n, (∀ i, n ∉ (w.graphs i).taskPool) →
    (w.heap n).predecessors = [] ∧ (w.heap n).successors = []

/-- Every list entry the edit adds joins two nodes of `pool`. -/
def EditsWithin (pool : List NodeId) (heap heap' : Heap) : Prop :=
  ∀ m q, (q ∈ (heap' m).predecessors → q ∈ (heap m).predecessors ∨ m ∈ pool ∧ q ∈ pool) ∧
    (q ∈ (heap' m).successors → q ∈ (heap m).successors ∨ m ∈ pool ∧ q ∈ pool)

section Edits

variable {pool : List NodeId} {heap heap' heap'' : Heap}

theorem EditsWithin.refl (pool : List NodeId) (heap : Heap) : EditsWithin pool heap heap :=
  fun _ _ => ⟨.inl, .inl⟩

theorem EditsWithin.trans (first : EditsWithin pool heap heap') (second : EditsWithin pool heap' heap'') :
    EditsWithin pool heap heap'' := fun m q =>
  ⟨fun pred => ((second m q).1 pred).elim (first m q).1 .inr,
    fun succ => ((second m q).2 succ).elim (first m q).2 .inr⟩

theorem EditsWithin.of_subset (preds : ∀ m, (heap' m).predecessors ⊆ (heap m).predecessors)
    (succs : ∀ m, (heap' m).successors ⊆ (heap m).successors) : EditsWithin pool heap heap' :=
  fun m _ => ⟨fun pred => .inl (preds m pred), fun succ => .inl (succs m succ)⟩

theorem InPool.node {t : Task} {n : NodeId} (named : InPool pool t) (node : t.node = some n) :
    n ∈ pool := by
  obtain ⟨n', node', member⟩ := named
  rw [node] at node'
  cases node'
  exact member

theorem depend_within {this t : Task} (thisIn : InPool pool this) (tIn : InPool pool t)
    (success : depend heap this t = .ok heap') : EditsWithin pool heap heap' := by
  obtain ⟨n, tn, thisNode, tNode, distinct, -, rfl⟩ := depend_eq_ok success
  have nIn := thisIn.node thisNode
  have tnIn := tIn.node tNode
  refine fun m q => ⟨fun pred => ?_, fun succ => ?_⟩
  · rw [link_predecessors heap distinct] at pred
    split at pred
    · rename_i atN
      rcases (Node.mem_addPredecessor _ _ _).1 pred with old | rfl
      exacts [.inl old, .inr ⟨atN ▸ nIn, tnIn⟩]
    · exact .inl pred
  · rw [link_successors heap distinct] at succ
    split at succ
    · rename_i atTn
      rcases (Node.mem_addSuccessor _ _ _).1 succ with old | rfl
      exacts [.inl old, .inr ⟨atTn ▸ tnIn, nIn⟩]
    · exact .inl succ

theorem dependAll_within {this : Task} {ts : List Task} (named : ∀ t ∈ this :: ts, InPool pool t) :
    EditsWithin pool heap (dependAll heap this ts).1 := by
  induction ts generalizing heap with
  | nil => exact .refl pool heap
  | cons t ts inductionHypothesis =>
    unfold dependAll
    split
    · refine (depend_within (named this (by simp)) (named t (by simp)) ‹_›).trans
        (inductionHypothesis fun t' member => named t' ?_)
      rcases List.mem_cons.1 member with rfl | member <;> simp [*]
    · exact .refl pool heap

theorem precedeAll_within {this : Task} {ts : List Task} (named : ∀ t ∈ this :: ts, InPool pool t) :
    EditsWithin pool heap (precedeAll heap this ts).1 := by
  induction ts generalizing heap with
  | nil => exact .refl pool heap
  | cons t ts inductionHypothesis =>
    unfold precedeAll
    split
    · refine (depend_within (named t (by simp)) (named this (by simp)) ‹_›).trans
        (inductionHypothesis fun t' member => named t' ?_)
      rcases List.mem_cons.1 member with rfl | member <;> simp [*]
    · exact .refl pool heap

theorem eraseDepend_within (this other : Task) : EditsWithin pool heap (eraseDepend heap this other) := by
  match this, other with
  | ⟨some n⟩, ⟨some o⟩ =>
    exact .of_subset (fun m => by simpa using (filter_sublist_ite (m = n) _ _).subset)
      (fun m => by simpa using (filter_sublist_ite (m = o) _ _).subset)
  | ⟨none⟩, _ => exact .refl pool heap
  | ⟨some _⟩, ⟨none⟩ => exact .refl pool heap

theorem erasePrecede_within (this other : Task) :
    EditsWithin pool heap (erasePrecede heap this other) := by
  match this, other with
  | ⟨some n⟩, ⟨some o⟩ =>
    exact .of_subset (fun m => by simpa using (filter_sublist_ite (m = o) _ _).subset)
      (fun m => by simpa using (filter_sublist_ite (m = n) _ _).subset)
  | ⟨none⟩, _ => exact .refl pool heap
  | ⟨some _⟩, ⟨none⟩ => exact .refl pool heap

theorem eraseDependAll_within (this : Task) (others : List Task) :
    EditsWithin pool heap (eraseDependAll heap this others) := by
  unfold eraseDependAll
  induction others generalizing heap with
  | nil => exact .refl pool heap
  | cons other others inductionHypothesis =>
    exact (eraseDepend_within this other).trans inductionHypothesis

theorem erasePrecedeAll_within (this : Task) (others : List Task) :
    EditsWithin pool heap (erasePrecedeAll heap this others) := by
  unfold erasePrecedeAll
  induction others generalizing heap with
  | nil => exact .refl pool heap
  | cons other others inductionHypothesis =>
    exact (erasePrecede_within this other).trans inductionHypothesis

end Edits

section Owned

variable {w : World}

/-- No node outside pool `i` has an edge to a node of it. -/
theorem Owned.foreign (owned : Owned w) {i : Nat} {m q : NodeId}
    (outsider : m ∉ (w.graphs i).taskPool)
    (edge : q ∈ (w.heap m).predecessors ∨ q ∈ (w.heap m).successors) :
    q ∉ (w.graphs i).taskPool := by
  by_cases held : ∃ j, m ∈ (w.graphs j).taskPool
  · obtain ⟨j, member⟩ := held
    have inJ : q ∈ (w.graphs j).taskPool :=
      edge.elim ((owned.closed j m member).1 q) ((owned.closed j m member).2 q)
    intro inI
    have same := owned.disjoint q j i inJ inI
    exact outsider (same ▸ member)
  · push_neg at held
    obtain ⟨noPreds, noSuccs⟩ := owned.outside m held
    simp [noPreds, noSuccs] at edge

/-- An edit that adds list entries only inside pool `i` keeps ownership. -/
theorem Owned.edit (owned : Owned w) {i : Nat} {heap' : Heap} (sound : EdgesSound heap')
    (within : EditsWithin (w.graphs i).taskPool w.heap heap') : Owned ⟨heap', w.graphs⟩ where
  sound := sound
  disjoint := owned.disjoint
  closed j m member := by
    have inside : ∀ q, (q ∈ (w.heap m).predecessors ∨ m ∈ (w.graphs i).taskPool ∧
        q ∈ (w.graphs i).taskPool) ∨ (q ∈ (w.heap m).successors ∨ m ∈ (w.graphs i).taskPool ∧
        q ∈ (w.graphs i).taskPool) → q ∈ (w.graphs j).taskPool := by
      rintro q ((pred | ⟨mIn, qIn⟩) | (succ | ⟨mIn, qIn⟩))
      · exact (owned.closed j m member).1 q pred
      · exact owned.disjoint m i j mIn member ▸ qIn
      · exact (owned.closed j m member).2 q succ
      · exact owned.disjoint m i j mIn member ▸ qIn
    exact ⟨fun q pred => inside q (.inl ((within m q).1 pred)),
      fun q succ => inside q (.inr ((within m q).2 succ))⟩
  outside m free := by
    obtain ⟨noPreds, noSuccs⟩ := owned.outside m free
    refine ⟨List.eq_nil_iff_forall_not_mem.2 fun q pred => ?_,
      List.eq_nil_iff_forall_not_mem.2 fun q succ => ?_⟩
    · rcases (within m q).1 pred with old | ⟨mIn, -⟩
      · simp [noPreds] at old
      · exact free i mIn
    · rcases (within m q).2 succ with old | ⟨mIn, -⟩
      · simp [noSuccs] at old
      · exact free i mIn

/-- `clear()` of graph `i` deletes its nodes, and no other node points at them. -/
theorem Owned.clear (owned : Owned w) (i : Nat) : Owned ((WorldCall.clear i).run w) := by
  have heap' := clear_apply w.heap (w.graphs i)
  have pools : ∀ j, ((WorldCall.clear i).run w).graphs j =
      if j = i then (Athread.clear w.heap (w.graphs i)).2 else w.graphs j := fun j => by
    simp [WorldCall.run, Function.update_apply]
  refine ⟨owned.sound.shrink (fun a b => ?_) (fun m => ?_) (fun m => ?_), fun n j k => ?_,
    fun j m member => ?_, fun m free => ?_⟩
  · simp only [WorldCall.run, heap']
    by_cases aIn : a ∈ (w.graphs i).taskPool <;> by_cases bIn : b ∈ (w.graphs i).taskPool
    · simp [aIn, bIn]
    · simp only [aIn, bIn, if_true, if_false]
      exact ⟨fun succ => by simp at succ, fun pred => (owned.foreign bIn (.inl pred) aIn).elim⟩
    · simp only [aIn, bIn, if_true, if_false]
      exact ⟨fun succ => (owned.foreign aIn (.inr succ) bIn).elim, fun pred => by simp at pred⟩
    · simp only [aIn, bIn, if_false]
      exact owned.sound.symm a b
  · simp only [WorldCall.run, heap']
    split
    · exact List.nil_sublist _
    · exact List.Sublist.refl _
  · simp only [WorldCall.run, heap']
    split
    · exact List.nil_sublist _
    · exact List.Sublist.refl _
  · rw [pools, pools]
    split_ifs <;> simp_all [owned.disjoint n j k]
  · rw [pools] at member ⊢
    split_ifs at member ⊢ with same
    · simp at member
    · have outsider : m ∉ (w.graphs i).taskPool := fun mIn => same (owned.disjoint m i j mIn member).symm
      simp only [WorldCall.run, heap', outsider, if_false]
      exact owned.closed j m member
  · simp only [WorldCall.run, heap']
    split
    · exact ⟨rfl, rfl⟩
    · rename_i outsider
      refine owned.outside m fun j member => ?_
      have stays := free j
      rw [pools] at stays
      split_ifs at stays with same
      · exact outsider (same ▸ member)
      · exact stays member

/-- `push` of a node no graph holds keeps ownership. -/
theorem Owned.push (owned : Owned w) {i : Nat} {n : NodeId} (free : ∀ j, n ∉ (w.graphs j).taskPool) :
    Owned ((WorldCall.call i (.push n)).run w) := by
  simp only [WorldCall.run, GraphCall.run]
  split
  · rename_i g' _ pushed
    have mem : ∀ j m, m ∈ (Function.update w.graphs i g' j).taskPool ↔
        m ∈ (w.graphs j).taskPool ∨ j = i ∧ m = n := fun j m => by
      by_cases same : j = i
      · subst same
        simp [(push_eq_ok pushed).2]
      · simp [same]
    refine ⟨owned.sound, fun m j k inJ inK => ?_, fun j m member => ?_, fun m unheld => ?_⟩
    · rcases (mem j m).1 inJ with oldJ | ⟨rfl, isN⟩ <;>
        rcases (mem k m).1 inK with oldK | ⟨rfl, isN'⟩
      · exact owned.disjoint m j k oldJ oldK
      · exact (free j (isN' ▸ oldJ)).elim
      · exact (free k (isN ▸ oldK)).elim
      · rfl
    · rcases (mem j m).1 member with member | ⟨-, rfl⟩
      · exact ⟨fun q pred => (mem j q).2 (.inl ((owned.closed j m member).1 q pred)),
          fun q succ => (mem j q).2 (.inl ((owned.closed j m member).2 q succ))⟩
      · simp [(owned.outside m free).1, (owned.outside m free).2]
    · exact owned.outside m fun j member => unheld j ((mem j m).2 (.inl member))
  · rw [Function.update_eq_self]
    exact owned

/-- `erase` on graph `i` keeps ownership: it deletes a node of that graph's pool, or nothing. -/
theorem Owned.erase (owned : Owned w) (i : Nat) (t : Task) :
    Owned ((WorldCall.call i (.erase t)).run w) := by
  simp only [WorldCall.run, GraphCall.run]
  split
  · rename_i heap' g' _ erased
    rcases erase_eq_ok erased with ⟨rfl, rfl, -⟩ | ⟨n, -, nIn, rfl, erasedPool, -⟩
    · rw [Function.update_eq_self]
      exact owned
    have mem : ∀ j m, m ∈ (Function.update w.graphs i g' j).taskPool ↔
        m ∈ (w.graphs j).taskPool ∧ m ≠ n := fun j m => by
      by_cases same : j = i
      · subst same
        simp [erasedPool, (w.graphs j).taskPool_nodup.mem_erase_iff, and_comm]
      · rw [Function.update_noteq same, iff_self_and]
        exact fun mIn (isN : m = n) => same (owned.disjoint m j i mIn (isN ▸ nIn))
    have lists := owned.sound.deleted_apply n
    refine ⟨(owned.sound.erase erased).1, fun m j k inJ inK => ?_, fun j m member => ?_,
      fun m unheld => ?_⟩
    · exact owned.disjoint m j k ((mem j m).1 inJ).1 ((mem k m).1 inK).1
    · obtain ⟨member, isNotN⟩ := (mem j m).1 member
      simp only [(lists m).1, (lists m).2, if_neg isNotN, List.mem_filter, bne_iff_ne, ne_eq,
        decide_eq_true_eq]
      exact ⟨fun q pred => (mem j q).2 ⟨(owned.closed j m member).1 q pred.1, pred.2⟩,
        fun q succ => (mem j q).2 ⟨(owned.closed j m member).2 q succ.1, succ.2⟩⟩
    · rw [(lists m).1, (lists m).2]
      split
      · exact ⟨rfl, rfl⟩
      · rename_i isNotN
        have old := owned.outside m fun j member => unheld j ((mem j m).2 ⟨member, isNotN⟩)
        simp [old.1, old.2]
  · rw [Function.update_eq_self]
    exact owned

/-- A call the client's discipline allows keeps ownership. -/
theorem Owned.step (owned : Owned w) {c : WorldCall} (disciplined : c.Disciplined w) :
    Owned (c.run w) := by
  cases c with
  | clear i => exact owned.clear i
  | call i c =>
    have keep : ∀ {heap'}, EdgesSound heap' → EditsWithin (w.graphs i).taskPool w.heap heap' →
        Owned ⟨heap', Function.update w.graphs i (w.graphs i)⟩ := fun sound within => by
      rw [Function.update_eq_self]
      exact owned.edit sound within
    cases c with
    | push n => exact owned.push disciplined
    | erase t => exact owned.erase i t
    | depend this t =>
      simp only [WorldCall.run, GraphCall.run]
      split
      · exact keep (owned.sound.depend ‹_›) (depend_within disciplined.1 disciplined.2 ‹_›)
      · exact keep owned.sound (.refl _ _)
    | precede this t =>
      simp only [WorldCall.run, GraphCall.run]
      split
      · exact keep (owned.sound.depend ‹_›) (depend_within disciplined.2 disciplined.1 ‹_›)
      · exact keep owned.sound (.refl _ _)
    | dependAll this ts => exact keep (owned.sound.dependAll this ts) (dependAll_within disciplined)
    | precedeAll this ts =>
      exact keep (owned.sound.precedeAll this ts) (precedeAll_within disciplined)
    | eraseDepend this other =>
      exact keep (owned.sound.eraseDepend this other) (eraseDepend_within this other)
    | eraseDependAll this others =>
      exact keep (owned.sound.eraseDependAll this others) (eraseDependAll_within this others)
    | erasePrecede this other =>
      exact keep (owned.sound.erasePrecede this other) (erasePrecede_within this other)
    | erasePrecedeAll this others =>
      exact keep (owned.sound.erasePrecedeAll this others) (erasePrecedeAll_within this others)

/-- Fresh nodes and empty graphs: ownership holds trivially. -/
theorem Owned.fresh {heap₀ : Heap} {graphs₀ : Nat → ThreadGraph}
    (fresh : ∀ a, (heap₀ a).predecessors = [] ∧ (heap₀ a).successors = [])
    (empty : ∀ i, (graphs₀ i).taskPool = []) : Owned ⟨heap₀, graphs₀⟩ where
  sound := .of_fresh fresh
  disjoint n i _ member := by simp [empty i] at member
  closed i n member := by simp [empty i] at member
  outside n _ := fresh n

theorem Owned.reachable {w w' : World} (owned : Owned w) (reach : ReflTransGen DisciplinedStep w w') :
    Owned w' := by
  induction reach with
  | refl => exact owned
  | tail _ step inductionHypothesis =>
    obtain ⟨c, disciplined, rfl⟩ := step
    exact inductionHypothesis.step disciplined

end Owned

theorem disciplined_calls_keep_ownership {heap₀ : Heap} {graphs₀ : Nat → ThreadGraph}
    (fresh : ∀ a, (heap₀ a).predecessors = [] ∧ (heap₀ a).successors = [])
    (empty : ∀ i, (graphs₀ i).taskPool = []) {w : World}
    (reach : ReflTransGen DisciplinedStep ⟨heap₀, graphs₀⟩ w) :
    (∀ n i j, n ∈ (w.graphs i).taskPool → n ∈ (w.graphs j).taskPool → i = j) ∧
    (∀ i, EdgesClosed w.heap (w.graphs i).taskPool) ∧
    (∀ i m q, m ∉ (w.graphs i).taskPool → q ∈ (w.graphs i).taskPool →
      q ∉ ((Athread.clear w.heap (w.graphs i)).1 m).predecessors ∧
      q ∉ ((Athread.clear w.heap (w.graphs i)).1 m).successors) ∧
    (∀ i view now fuel hint verdict n k, CacheExact (w.graphs i) now →
      (∀ h, hint = some h → h ∈ (w.graphs i).taskPool) → Reads view now →
      traceReadyNode w.heap view (w.graphs i) fuel hint 0 = some ((verdict, some n), k) →
      verdict ≠ .completed → n ∈ (w.graphs i).taskPool ∧ ∀ j, j ≠ i → n ∉ (w.graphs j).taskPool) := by
  have owned := (Owned.fresh fresh empty).reachable reach
  refine ⟨owned.disjoint, owned.closed, fun i m q outsider member => ?_,
    fun i view now fuel hint verdict n k cache pooled reads trace named => ?_⟩
  · rw [clear_apply, if_neg outsider]
    exact ⟨fun pred => owned.foreign outsider (.inl pred) member,
      fun succ => owned.foreign outsider (.inr succ) member⟩
  · have member := traceReadyNode_pooled (owned.closed i) cache pooled reads trace named
    exact ⟨member, fun j other inJ => other (owned.disjoint n j i inJ member)⟩

/-- Nodes 0 and 1 pushed into graph 0, `Task(1).depend(Task(0))` through its handles, node 2
pushed into graph 1, and `erase` on graph 1 of node 0, which graph 1 does not hold. -/
def ownedCalls : List WorldCall :=
  [.call 0 (.push 0), .call 0 (.push 1), .call 0 (.depend ⟨some 1⟩ ⟨some 0⟩), .call 1 (.push 2),
    .call 1 (.erase ⟨some 0⟩)]

def ownedWorld : World := ownedCalls.foldl (fun w c => c.run w) ⟨fun _ => {}, fun _ => {}⟩

theorem ownedWorld_reach : ReflTransGen DisciplinedStep ⟨fun _ => {}, fun _ => {}⟩ ownedWorld :=
  .tail (.tail (.tail (.tail (.single
    ⟨.call 0 (.push 0), fun _ => List.not_mem_nil 0, rfl⟩)
    ⟨.call 0 (.push 1), fun j => by
      rcases j with _ | j
      · decide
      · simp [WorldCall.run, Function.update_apply], rfl⟩)
    ⟨.call 0 (.depend ⟨some 1⟩ ⟨some 0⟩), ⟨⟨1, rfl, by decide⟩, ⟨0, rfl, by decide⟩⟩, rfl⟩)
    ⟨.call 1 (.push 2), fun j => by
      rcases j with _ | j
      · decide
      · simp [WorldCall.run, Function.update_apply], rfl⟩)
    ⟨.call 1 (.erase ⟨some 0⟩), trivial, rfl⟩

theorem disciplined_calls_keep_ownership_owned :
    ((∀ a, ((fun _ => {} : Heap) a).predecessors = [] ∧ ((fun _ => {} : Heap) a).successors = []) ∧
      (∀ i, ((fun _ => {} : Nat → ThreadGraph) i).taskPool = []) ∧
      ReflTransGen DisciplinedStep ⟨fun _ => {}, fun _ => {}⟩ ownedWorld) ∧
    0 ∈ (ownedWorld.heap 1).predecessors ∧
    (∀ n i j, n ∈ (ownedWorld.graphs i).taskPool → n ∈ (ownedWorld.graphs j).taskPool → i = j) ∧
    (∀ i, EdgesClosed ownedWorld.heap (ownedWorld.graphs i).taskPool) ∧
    (∀ i m q, m ∉ (ownedWorld.graphs i).taskPool → q ∈ (ownedWorld.graphs i).taskPool →
      q ∉ ((Athread.clear ownedWorld.heap (ownedWorld.graphs i)).1 m).predecessors ∧
      q ∉ ((Athread.clear ownedWorld.heap (ownedWorld.graphs i)).1 m).successors) := by
  have fresh : ∀ a, ((fun _ => {} : Heap) a).predecessors = [] ∧
      ((fun _ => {} : Heap) a).successors = [] := fun _ => ⟨rfl, rfl⟩
  have empty : ∀ i, ((fun _ => {} : Nat → ThreadGraph) i).taskPool = [] := fun _ => rfl
  obtain ⟨disjoint, closed, cleared, -⟩ :=
    disciplined_calls_keep_ownership fresh empty ownedWorld_reach
  exact ⟨⟨fresh, empty, ownedWorld_reach⟩, by decide, disjoint, closed, cleared⟩

/-! ## Without the discipline -/

theorem worldStep_foldl (cs : List WorldCall) (w : World) :
    ReflTransGen WorldStep w (cs.foldl (fun w c => c.run w) w) := by
  induction cs generalizing w with
  | nil => exact .refl
  | cons c cs inductionHypothesis => exact .head ⟨c, rfl⟩ (inductionHypothesis _)

/-- Node 0 pushed into graphs 0 and 1, node 1 into graph 1, then `Task(0).depend(Task(1))`
through graph 0's handles. -/
def sharedCalls : List WorldCall :=
  [.call 0 (.push 0), .call 1 (.push 0), .call 1 (.push 1), .call 0 (.depend ⟨some 0⟩ ⟨some 1⟩)]

def sharedWorld : World := sharedCalls.foldl (fun w c => c.run w) ⟨fun _ => {}, fun _ => {}⟩

/-- Both `push`es of node 0 succeed, graph 0's node 0 depends on node 1 of graph 1 alone, and
`clear()` of graph 0 leaves node 1 naming the deleted node 0 as a successor. -/
theorem graphs_share_node :
    ReflTransGen WorldStep ⟨fun _ => {}, fun _ => {}⟩ sharedWorld ∧
    0 ∈ (sharedWorld.graphs 0).taskPool ∧ 0 ∈ (sharedWorld.graphs 1).taskPool ∧
    1 ∈ (sharedWorld.heap 0).predecessors ∧ 1 ∉ (sharedWorld.graphs 0).taskPool ∧
    0 ∈ ((Athread.clear sharedWorld.heap (sharedWorld.graphs 0)).1 1).successors :=
  ⟨worldStep_foldl sharedCalls _, by decide, by decide, by decide, by decide, by decide⟩

end Athread
