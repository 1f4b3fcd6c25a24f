import Athread.Node

/-!
# Edge operations of a task handle

`Task::depend`, `Task::precede`, their vector forms and the two edge erasures (task.cpp). Each
works on the shared heap in place; a raised exception leaves the edits made before it.

* `depend` checks its argument, then the direct back edge, then adds the edge on both ends.
* `dependAll` is the loop over a vector: it stops at the first fault and keeps what the earlier
  calls did, so it returns the heap together with the fault.
* `precede` is `depend` with the handles swapped, exactly as `Task tmp = t; tmp.depend(*this)`.
-/

namespace Athread

/-- `Task::depend(const Task& t)`: the node of `this` gains the predecessor `t`. The receiver's
node is checked nowhere, so an empty receiver reaches `_node->_predecessors`. -/
def depend (heap : Heap) (this t : Task) : Except Fault Heap :=
  match t.node with
  | none => .error (.raised (.invalidArgument "Task is not valid"))
  | some tn =>
    if t.node = this.node then .error (.raised (.invalidArgument "Cannot set relation to itself"))
    else
      match this.node with
      | none => .error .nullDereference
      | some n =>
        if n ∈ (heap tn).predecessors then
          .error (.raised (.runtimeError "Circular dependency detected"))
        else .ok ((heap.modify n (·.addPredecessor tn)).modify tn (·.addSuccessor n))

/-- `Task::depend(const std::vector<Task>&)`: `depend` on each handle in order; the first fault
leaves the loop with the edges added so far. -/
def dependAll (heap : Heap) (this : Task) : List Task → Heap × Option Fault
  | [] => (heap, none)
  | t :: ts =>
    match depend heap this t with
    | .ok heap' => dependAll heap' this ts
    | .error f => (heap, some f)

/-- `Task::precede(const Task& t)`: `t` gains the predecessor `this`. -/
def precede (heap : Heap) (this t : Task) : Except Fault Heap :=
  depend heap t this

def precedeAll (heap : Heap) (this : Task) : List Task → Heap × Option Fault
  | [] => (heap, none)
  | t :: ts =>
    match precede heap this t with
    | .ok heap' => precedeAll heap' this ts
    | .error f => (heap, some f)

/-- `Task::erase_depend`: drops `other` from this node's predecessors and this node from
`other`'s successors; nothing happens unless both handles are non-empty. -/
def eraseDepend (heap : Heap) (this other : Task) : Heap :=
  match this.node, other.node with
  | some n, some o => (heap.modify n (·.removePredecessor o)).modify o (·.removeSuccessor n)
  | _, _ => heap

def eraseDependAll (heap : Heap) (this : Task) (others : List Task) : Heap :=
  others.foldl (fun heap other => eraseDepend heap this other) heap

/-- `Task::erase_precede`: drops `other` from this node's successors and this node from
`other`'s predecessors. -/
def erasePrecede (heap : Heap) (this other : Task) : Heap :=
  match this.node, other.node with
  | some n, some o => (heap.modify n (·.removeSuccessor o)).modify o (·.removePredecessor n)
  | _, _ => heap

def erasePrecedeAll (heap : Heap) (this : Task) (others : List Task) : Heap :=
  others.foldl (fun heap other => erasePrecede heap this other) heap

/-! ## What one call does -/

/-- The lists `depend` leaves once it adds the edge `p → n` on both ends. -/
theorem link_predecessors (heap : Heap) {n p : NodeId} (distinct : n ≠ p) (m : NodeId) :
    (((heap.modify n (·.addPredecessor p)).modify p (·.addSuccessor n)) m).predecessors =
      if m = n then ((heap m).addPredecessor p).predecessors else (heap m).predecessors := by
  by_cases atN : m = n <;> by_cases atP : m = p <;> simp_all

theorem link_successors (heap : Heap) {n p : NodeId} (distinct : n ≠ p) (m : NodeId) :
    (((heap.modify n (·.addPredecessor p)).modify p (·.addSuccessor n)) m).successors =
      if m = p then ((heap m).addSuccessor n).successors else (heap m).successors := by
  by_cases atN : m = n <;> by_cases atP : m = p <;> simp_all

@[simp] theorem eraseDepend_predecessors (heap : Heap) (n o m : NodeId) :
    (eraseDepend heap ⟨some n⟩ ⟨some o⟩ m).predecessors =
      if m = n then (heap m).predecessors.filter (· != o) else (heap m).predecessors := by
  by_cases atN : m = n <;> by_cases atO : m = o <;> simp_all [eraseDepend, Node.removePredecessor]

@[simp] theorem eraseDepend_successors (heap : Heap) (n o m : NodeId) :
    (eraseDepend heap ⟨some n⟩ ⟨some o⟩ m).successors =
      if m = o then (heap m).successors.filter (· != n) else (heap m).successors := by
  by_cases atN : m = n <;> by_cases atO : m = o <;> simp_all [eraseDepend, Node.removeSuccessor]

@[simp] theorem erasePrecede_successors (heap : Heap) (n o m : NodeId) :
    (erasePrecede heap ⟨some n⟩ ⟨some o⟩ m).successors =
      if m = n then (heap m).successors.filter (· != o) else (heap m).successors := by
  by_cases atN : m = n <;> by_cases atO : m = o <;> simp_all [erasePrecede, Node.removeSuccessor]

@[simp] theorem erasePrecede_predecessors (heap : Heap) (n o m : NodeId) :
    (erasePrecede heap ⟨some n⟩ ⟨some o⟩ m).predecessors =
      if m = o then (heap m).predecessors.filter (· != n) else (heap m).predecessors := by
  by_cases atN : m = n <;> by_cases atO : m = o <;> simp_all [erasePrecede, Node.removePredecessor]

/-- `depend` on two distinct non-empty handles succeeds exactly when the reverse edge is absent,
and then adds the edge on both ends. -/
theorem depend_some (heap : Heap) {n tn : NodeId} (distinct : n ≠ tn) :
    depend heap ⟨some n⟩ ⟨some tn⟩ =
      if n ∈ (heap tn).predecessors then
        .error (.raised (.runtimeError "Circular dependency detected"))
      else .ok ((heap.modify n (·.addPredecessor tn)).modify tn (·.addSuccessor n)) := by
  simp [depend, Ne.symm distinct]

theorem depend_eq_ok {heap heap' : Heap} {this t : Task} (success : depend heap this t = .ok heap') :
    ∃ n tn, this.node = some n ∧ t.node = some tn ∧ n ≠ tn ∧
      n ∉ (heap tn).predecessors ∧
      heap' = (heap.modify n (·.addPredecessor tn)).modify tn (·.addSuccessor n) := by
  unfold depend at success
  split at success
  · cases success
  · rename_i tn tNode
    split at success
    · cases success
    · rename_i distinct
      split at success
      · cases success
      · rename_i n thisNode
        split at success
        · cases success
        · refine ⟨n, tn, thisNode, tNode, ?_, ‹_›, (Except.ok.inj success).symm⟩
          rintro rfl
          exact distinct (tNode.trans thisNode.symm)

/-! ## Empty handles

`depend` checks its argument and never its receiver, and `precede` hands its own handle to
`depend` as the receiver, so whether an empty handle is caught depends on the side it stands on.
-/

/-- An empty argument of `depend`, or an empty receiver of `precede`, raises `INVALID_ARGUMENT`
before anything is read. An empty receiver of `depend`, or an empty argument of `precede`, beside
a non-empty handle reaches the null node, alone or at the head of a vector. In a vector an empty
handle after a valid one still raises, but the valid handle's edge stays. -/
theorem empty_handle_dereferenced (heap : Heap) (this : Task) (n m : NodeId) (ts : List Task) :
    depend heap this ⟨none⟩ = .error (.raised (.invalidArgument "Task is not valid")) ∧
    precede heap ⟨none⟩ this = .error (.raised (.invalidArgument "Task is not valid")) ∧
    depend heap ⟨none⟩ ⟨some m⟩ = .error .nullDereference ∧
    precede heap ⟨some m⟩ ⟨none⟩ = .error .nullDereference ∧
    dependAll heap ⟨none⟩ (⟨some m⟩ :: ts) = (heap, some .nullDereference) ∧
    precedeAll heap ⟨some m⟩ (⟨none⟩ :: ts) = (heap, some .nullDereference) ∧
    (n ≠ m → n ∉ (heap m).predecessors →
      m ∈ ((dependAll heap ⟨some n⟩ [⟨some m⟩, ⟨none⟩]).1 n).predecessors ∧
      (dependAll heap ⟨some n⟩ [⟨some m⟩, ⟨none⟩]).2 =
        some (.raised (.invalidArgument "Task is not valid"))) := by
  refine ⟨rfl, rfl, rfl, rfl, rfl, rfl, fun distinct fresh => ?_⟩
  have linked := depend_some heap distinct
  rw [if_neg fresh] at linked
  rw [dependAll, linked]
  simp [dependAll, depend, distinct]

theorem empty_handle_dereferenced_fresh :
    1 ∈ ((dependAll (fun _ => {}) ⟨some 0⟩ [⟨some 1⟩, ⟨none⟩]).1 0).predecessors ∧
      (dependAll (fun _ => {}) ⟨some 0⟩ [⟨some 1⟩, ⟨none⟩]).2 =
        some (.raised (.invalidArgument "Task is not valid")) :=
  (empty_handle_dereferenced (fun _ => {}) ⟨none⟩ 0 1 []).2.2.2.2.2.2 (by decide) (by decide)

end Athread
