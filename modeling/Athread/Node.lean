import Mathlib.Logic.Function.Basic
import Mathlib.Data.List.Nodup
import Mathlib.Data.String.Basic

/-!
# Nodes, the node heap and task handles

`INode` (node.h) is a runnable with an atomic state and two edge lists. Nodes live on the C++ heap
and are shared by raw pointer between a graph, its workers and every `Task` handle, so the model
keeps one heap `NodeId → Node` for the whole process and lets graphs and handles hold node ids.

* `RunnableState` is `IRunnable::RunnableState`, `TraceNodeState` the verdict of a trace.
* `Node` holds what the graph code reads of an `INode`: its state and its edge lists.
* `Heap.modify` and `Heap.setState` are the in-place writes, with one `@[simp]` lemma per field.
* `Thrown` and `Fault` are what a call can end with besides a normal return.
-/

namespace Athread

/-- `IRunnable::RunnableState`. -/
inductive RunnableState where
  | ready
  | executing
  | completed
  deriving DecidableEq, Repr

/-- `at::TraceNodeState`, the first half of what a trace returns. -/
inductive TraceNodeState where
  | ready
  | pending
  | completed
  deriving DecidableEq, Repr

/-- A node's identity, its address in the C++ heap. -/
abbrev NodeId := Nat

/-- The part of an `INode` the graph code reads and writes. A node is created `Ready` with no
edges (`IRunnable::IRunnable`). -/
structure Node where
  state : RunnableState := .ready
  predecessors : List NodeId := []
  successors : List NodeId := []
  deriving DecidableEq, Repr

namespace Node

/-- `push_back` of `p` unless `std::find` already finds it. -/
def addPredecessor (node : Node) (p : NodeId) : Node :=
  if p ∈ node.predecessors then node else { node with predecessors := node.predecessors ++ [p] }

def addSuccessor (node : Node) (s : NodeId) : Node :=
  if s ∈ node.successors then node else { node with successors := node.successors ++ [s] }

/-- The erase-remove idiom `v.erase(std::remove(v.begin(), v.end(), p), v.end())`. -/
def removePredecessor (node : Node) (p : NodeId) : Node :=
  { node with predecessors := node.predecessors.filter (· != p) }

def removeSuccessor (node : Node) (s : NodeId) : Node :=
  { node with successors := node.successors.filter (· != s) }

@[simp] theorem addPredecessor_state (node : Node) (p : NodeId) :
    (node.addPredecessor p).state = node.state := by
  unfold addPredecessor; split <;> rfl

@[simp] theorem addPredecessor_successors (node : Node) (p : NodeId) :
    (node.addPredecessor p).successors = node.successors := by
  unfold addPredecessor; split <;> rfl

@[simp] theorem mem_addPredecessor (node : Node) (p q : NodeId) :
    q ∈ (node.addPredecessor p).predecessors ↔ q ∈ node.predecessors ∨ q = p := by
  unfold addPredecessor; split <;> simp_all [or_iff_left_of_imp]

@[simp] theorem addSuccessor_state (node : Node) (s : NodeId) :
    (node.addSuccessor s).state = node.state := by
  unfold addSuccessor; split <;> rfl

@[simp] theorem addSuccessor_predecessors (node : Node) (s : NodeId) :
    (node.addSuccessor s).predecessors = node.predecessors := by
  unfold addSuccessor; split <;> rfl

@[simp] theorem mem_addSuccessor (node : Node) (s q : NodeId) :
    q ∈ (node.addSuccessor s).successors ↔ q ∈ node.successors ∨ q = s := by
  unfold addSuccessor; split <;> simp_all [or_iff_left_of_imp]

theorem nodup_addPredecessor {node : Node} (p : NodeId) (nodup : node.predecessors.Nodup) :
    (node.addPredecessor p).predecessors.Nodup := by
  unfold addPredecessor
  split
  · exact nodup
  · exact nodup.append (List.nodup_singleton p) (List.disjoint_singleton.2 ‹_›)

theorem nodup_addSuccessor {node : Node} (s : NodeId) (nodup : node.successors.Nodup) :
    (node.addSuccessor s).successors.Nodup := by
  unfold addSuccessor
  split
  · exact nodup
  · exact nodup.append (List.nodup_singleton s) (List.disjoint_singleton.2 ‹_›)

@[simp] theorem removePredecessor_state (node : Node) (p : NodeId) :
    (node.removePredecessor p).state = node.state := rfl

@[simp] theorem removePredecessor_successors (node : Node) (p : NodeId) :
    (node.removePredecessor p).successors = node.successors := rfl

@[simp] theorem mem_removePredecessor (node : Node) (p q : NodeId) :
    q ∈ (node.removePredecessor p).predecessors ↔ q ∈ node.predecessors ∧ q ≠ p := by
  simp [removePredecessor]

@[simp] theorem removePredecessor_removePredecessor (node : Node) (p : NodeId) :
    (node.removePredecessor p).removePredecessor p = node.removePredecessor p := by
  simp [removePredecessor, List.filter_filter]

@[simp] theorem removeSuccessor_state (node : Node) (s : NodeId) :
    (node.removeSuccessor s).state = node.state := rfl

@[simp] theorem removeSuccessor_predecessors (node : Node) (s : NodeId) :
    (node.removeSuccessor s).predecessors = node.predecessors := rfl

@[simp] theorem mem_removeSuccessor (node : Node) (s q : NodeId) :
    q ∈ (node.removeSuccessor s).successors ↔ q ∈ node.successors ∧ q ≠ s := by
  simp [removeSuccessor]

@[simp] theorem removeSuccessor_removeSuccessor (node : Node) (s : NodeId) :
    (node.removeSuccessor s).removeSuccessor s = node.removeSuccessor s := by
  simp [removeSuccessor, List.filter_filter]

end Node

/-- Every node of the process, by address. -/
abbrev Heap := NodeId → Node

namespace Heap

/-- An in-place write to the node at `n`. -/
def modify (heap : Heap) (n : NodeId) (f : Node → Node) : Heap :=
  Function.update heap n (f (heap n))

/-- `INode::set_state`, the atomic store of a node's state. -/
def setState (heap : Heap) (n : NodeId) (st : RunnableState) : Heap :=
  heap.modify n fun node => { node with state := st }

@[simp] theorem modify_apply (heap : Heap) (n m : NodeId) (f : Node → Node) :
    heap.modify n f m = if m = n then f (heap n) else heap m := by
  by_cases same : m = n
  · subst same; simp [modify]
  · simp [modify, same]

@[simp] theorem setState_state (heap : Heap) (n m : NodeId) (st : RunnableState) :
    (heap.setState n st m).state = if m = n then st else (heap m).state := by
  by_cases same : m = n <;> simp [setState, same]

@[simp] theorem setState_predecessors (heap : Heap) (n m : NodeId) (st : RunnableState) :
    (heap.setState n st m).predecessors = (heap m).predecessors := by
  by_cases same : m = n <;> simp [setState, same]

@[simp] theorem setState_successors (heap : Heap) (n m : NodeId) (st : RunnableState) :
    (heap.setState n st m).successors = (heap m).successors := by
  by_cases same : m = n <;> simp [setState, same]

end Heap

/-- `at::Task`: a non-owning handle, `_node` possibly null. -/
structure Task where
  node : Option NodeId
  deriving DecidableEq, Repr

/-- An exception object in flight. The library throws `std::invalid_argument` and
`std::runtime_error` (`AT_INVALID_ARGUMENT`, `AT_RUNTIME_ERROR` in athread.h); a node payload may
throw anything, derived from `std::exception` or not. -/
inductive Thrown where
  | invalidArgument (what : String)
  | runtimeError (what : String)
  | otherStd (what : String)
  | nonStd
  deriving DecidableEq, Repr

namespace Thrown

/-- Whether `catch (const std::exception& e)` catches it. -/
def isStd : Thrown → Bool
  | nonStd => false
  | _ => true

/-- `e.what()` of a std exception. -/
def what : Thrown → String
  | invalidArgument w => w
  | runtimeError w => w
  | otherStd w => w
  | nonStd => ""

end Thrown

/-- A string is empty exactly when it has no characters: the test `wait` makes of its collected
messages. -/
theorem string_isEmpty_iff (s : String) : s.isEmpty = true ↔ s.length = 0 := by
  rw [String.isEmpty_iff]
  exact ⟨fun empty => empty ▸ rfl, fun empty => String.ext (List.eq_nil_of_length_eq_zero empty)⟩

/-- How a client call can fail: an exception leaves it, or it dereferences a null node pointer
(undefined behaviour in C++). -/
inductive Fault where
  | raised (e : Thrown)
  | nullDereference
  deriving DecidableEq, Repr

end Athread
