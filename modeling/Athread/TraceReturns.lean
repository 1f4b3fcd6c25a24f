import Athread.Verdicts
import Mathlib.Data.Finset.Card

/-!
# The trace returns, and what it returns on a quiescent graph

`trace_ready_depend` is not memoized: it descends along predecessor edges into READY nodes and
visits a shared ancestor once per path. It returns as soon as its depth exceeds every chain of
such edges, so on a finite acyclic graph the node count is depth enough. `trace_ready_node`
adds no recursion of its own: its only self-call is `traceReadyEntry`, which calls nothing but
`trace_ready_depend`.

* `traceReadyDepend_isSome`: the trace returns once no chain of the edges it may descend is as
  long as its fuel.
* `descends_lt_length`: in a finite node set closed under predecessors and without cycles, every
  chain of predecessor edges is shorter than the set.
* `trace_terminates`: on such a set a fuel of its size lets `trace_ready_depend` return for every
  view and avoid list, and `trace_ready_node` for every hint in the set.
* `traceReadyDepend_quiescent`: on a quiescent acyclic graph `trace_ready_depend(e, {})` answers
  PENDING on an EXECUTING entry, COMPLETED on a COMPLETED one, and on a READY one a claimable
  node with a READY path to it when there is one, else an EXECUTING predecessor of a node with
  such a path.
-/

namespace Athread

open Relation

/-- A chain of `depth` edges of `edge`, each leading down from the node before it. -/
inductive Descends (edge : NodeId → NodeId → Prop) : Nat → NodeId → Prop
  | base (e : NodeId) : Descends edge 0 e
  | step {depth : Nat} {p e : NodeId} : edge p e → Descends edge depth p → Descends edge (depth + 1) e

section Returns

variable {heap : Heap} {view : View} {avoids : List NodeId}

/-- The predecessor loop returns when the trace of every predecessor it may trace does. -/
theorem dependScan_isSome {trace : NodeId → Nat → Option (TraceResult × Nat)} :
    ∀ {ps : List NodeId},
      (∀ p ∈ ps, p ∉ avoids → ∀ k, view k p = .ready → (trace p (k + 1)).isSome) →
      ∀ {exe : TraceResult} {k : Nat}, (dependScan view avoids trace ps exe k).isSome
  | [], _, _, _ => rfl
  | p :: ps, calls, exe, k => by
    have rest : ∀ {exe k}, (dependScan view avoids trace ps exe k).isSome :=
      dependScan_isSome fun q member => calls q (List.mem_cons_of_mem p member)
    simp only [dependScan]
    split_ifs with avoided ready
    · exact rest
    · obtain ⟨⟨⟨verdict, x⟩, k'⟩, recursion⟩ :=
        Option.isSome_iff_exists.1 (calls p (List.mem_cons_self p ps) avoided k ready)
      cases verdict <;> simp only [recursion] <;> first | rfl | exact rest
    · exact rest
    · exact rest

/-- `trace_ready_depend` returns once its fuel exceeds every chain of the edges it may descend.
`calls` names those edges from what the trace loaded before each recursive call: the entry was
not EXECUTING, then not COMPLETED, and the predecessor, not avoided, was READY. -/
theorem traceReadyDepend_isSome {edge : NodeId → NodeId → Prop}
    (calls : ∀ e p k k', view k e ≠ .executing → view (k + 1) e ≠ .completed →
      p ∈ (heap e).predecessors → p ∉ avoids → view k' p = .ready → edge p e) :
    ∀ {fuel : Nat} {e : NodeId} {k : Nat}, ¬ Descends edge fuel e →
      (traceReadyDepend heap view avoids fuel e k).isSome
  | 0, e, _, short => (short (.base e)).elim
  | fuel + 1, e, k, short => by
    simp only [traceReadyDepend]
    split_ifs with executing completed
    · rfl
    · rfl
    · have scan : (dependScan view avoids (traceReadyDepend heap view avoids fuel)
          (heap e).predecessors (.ready, none) (k + 2)).isSome :=
        dependScan_isSome fun p member avoided j ready =>
          traceReadyDepend_isSome calls fun deeper =>
            short (.step (calls e p k j executing completed member avoided ready) deeper)
      obtain ⟨⟨exe, k'⟩, scanned⟩ := Option.isSome_iff_exists.1 scan
      simp only [scanned]
      rfl

/-- The successor loops return when the trace of every successor they may trace does. -/
theorem successorScan_isSome {fuel : Nat} :
    ∀ {ss : List NodeId},
      (∀ s ∈ ss, ∀ k, view k s = .ready → (traceReadyDepend heap view [] fuel s (k + 1)).isSome) →
      ∀ {delay : TraceResult} {k : Nat}, (successorScan heap view fuel ss delay k).isSome
  | [], _, _, _ => rfl
  | s :: ss, calls, delay, k => by
    have rest : ∀ {delay k}, (successorScan heap view fuel ss delay k).isSome :=
      successorScan_isSome fun t member => calls t (List.mem_cons_of_mem s member)
    simp only [successorScan]
    split_ifs with ready
    · obtain ⟨⟨⟨verdict, x⟩, k'⟩, recursion⟩ :=
        Option.isSome_iff_exists.1 (calls s (List.mem_cons_self s ss) k ready)
      cases verdict <;> simp only [recursion] <;> first | rfl | exact rest
    · exact rest

theorem traceReadyEntry_isSome {g : ThreadGraph} {fuel : Nat}
    (calls : ∀ e ∈ g.readyTasksCache, ∀ k, (traceReadyDepend heap view [] fuel e k).isSome)
    (k : Nat) : (traceReadyEntry heap view g fuel k).isSome := by
  unfold traceReadyEntry
  split
  · rename_i cached
    exact calls _ (cached ▸ List.mem_cons_self _ _) k
  · rfl

/-- `trace_ready_node` returns when the trace of every node it may start one from does: the
cached nodes, the hint, and the hint's successors. -/
theorem traceReadyNode_isSome {g : ThreadGraph} {fuel : Nat} {nodes : List NodeId}
    (calls : ∀ e ∈ nodes, ∀ k, (traceReadyDepend heap view [] fuel e k).isSome)
    (cached : ∀ e ∈ g.readyTasksCache, e ∈ nodes) :
    ∀ {hint : Option NodeId}, (∀ e ∈ hint, e ∈ nodes ∧ ∀ s ∈ (heap e).successors, s ∈ nodes) →
      ∀ k, (traceReadyNode heap view g fuel hint k).isSome
  | none, _, k => traceReadyEntry_isSome (fun e member => calls e (cached e member)) k
  | some e, inNodes, k => by
    obtain ⟨member, successors⟩ := inNodes e rfl
    have entry := traceReadyEntry_isSome (fun e member => calls e (cached e member))
    have scan : ∀ j, (successorScan heap view fuel (heap e).successors (.pending, none) j).isSome :=
      fun j => successorScan_isSome fun s later j' _ => calls s (successors s later) (j' + 1)
    rw [traceReadyNode]
    by_cases executing : view k e = .executing
    · obtain ⟨⟨found, k'⟩, scanned⟩ := Option.isSome_iff_exists.1 (scan (k + 1))
      obtain ⟨⟨next, k''⟩, entered⟩ := Option.isSome_iff_exists.1 (entry k')
      rw [if_pos executing, scanned]
      dsimp only
      rw [entered]
      split <;> rfl
    rw [if_neg executing]
    by_cases ready : view (k + 1) e = .ready
    · obtain ⟨⟨⟨verdict, x⟩, k'⟩, traced⟩ := Option.isSome_iff_exists.1 (calls e member (k + 2))
      obtain ⟨⟨next, k''⟩, entered⟩ := Option.isSome_iff_exists.1 (entry k')
      rw [if_pos ready, traced]
      cases verdict <;> dsimp only <;> (try rw [entered]) <;> rfl
    rw [if_neg ready]
    by_cases done : view (k + 2) e = .completed
    · obtain ⟨⟨delay, k'⟩, scanned⟩ := Option.isSome_iff_exists.1 (scan (k + 3))
      obtain ⟨⟨next, k''⟩, entered⟩ := Option.isSome_iff_exists.1 (entry k')
      rw [if_pos done, scanned]
      dsimp only
      rw [entered]
      split <;> rfl
    rw [if_neg done]
    rfl

end Returns

/-! ## Finite acyclic graphs -/

section Acyclic

variable {heap : Heap} {nodes : List NodeId}

/-- In a node set closed under predecessors and without cycles, fewer nodes of the set lie below
a predecessor than below the node itself, so every chain of predecessor edges from the set is
shorter than the set. -/
theorem descends_lt_length (closed : ∀ n ∈ nodes, ∀ p ∈ (heap n).predecessors, p ∈ nodes)
    (acyclic : ∀ n ∈ nodes, ¬ TransGen (PredEdge heap) n n) {depth : Nat} {e : NodeId}
    (member : e ∈ nodes) (chain : Descends (PredEdge heap) depth e) : depth < nodes.length := by
  classical
  have shrinks : ∀ {p x}, x ∈ nodes → PredEdge heap p x →
      (nodes.toFinset.filter (TransGen (PredEdge heap) · p)).card <
        (nodes.toFinset.filter (TransGen (PredEdge heap) · x)).card := by
    intro p x member edge
    have pMember := closed x member p edge
    refine Finset.card_lt_card ((Finset.ssubset_iff_of_subset fun y => ?_).2 ⟨p, ?_, ?_⟩)
    · simp only [Finset.mem_filter]
      exact fun ⟨inNodes, below⟩ => ⟨inNodes, below.tail edge⟩
    · simp [pMember, TransGen.single edge]
    · simp [acyclic p pMember]
  have bounded : ∀ {depth x}, Descends (PredEdge heap) depth x → x ∈ nodes →
      depth ≤ (nodes.toFinset.filter (TransGen (PredEdge heap) · x)).card := by
    intro depth x chain
    induction chain with
    | base => exact fun _ => Nat.zero_le _
    | step edge _ inductionHypothesis =>
      exact fun member => (inductionHypothesis (closed _ member _ edge)).trans_lt (shrinks member edge)
  calc depth ≤ (nodes.toFinset.filter (TransGen (PredEdge heap) · e)).card := bounded chain member
    _ < nodes.toFinset.card :=
      Finset.card_lt_card (Finset.filter_ssubset.2 ⟨e, List.mem_toFinset.2 member, acyclic e member⟩)
    _ ≤ nodes.length := List.toFinset_card_le nodes

/-- A node set whose predecessors come earlier in a numbering, as nodes pushed in order and
linked only backwards, has no cycle. -/
theorem acyclic_of_lt (closed : ∀ n ∈ nodes, ∀ p ∈ (heap n).predecessors, p ∈ nodes)
    (earlier : ∀ n ∈ nodes, ∀ p ∈ (heap n).predecessors, p < n) :
    ∀ n ∈ nodes, ¬ TransGen (PredEdge heap) n n := by
  have below : ∀ {a b}, TransGen (PredEdge heap) a b → b ∈ nodes → a ∈ nodes ∧ a < b := by
    intro a b path
    induction path with
    | single edge => exact fun member => ⟨closed _ member _ edge, earlier _ member _ edge⟩
    | tail _ edge inductionHypothesis =>
      intro member
      obtain ⟨inNodes, lower⟩ := inductionHypothesis (closed _ member _ edge)
      exact ⟨inNodes, lower.trans (earlier _ member _ edge)⟩
  exact fun n member cycle => (below cycle member).2.false

/-- From a node of a finite acyclic set closed under predecessors, `trace_ready_depend` returns
once its fuel is the size of the set, whatever it loads and avoids. -/
theorem traceReadyDepend_returns (closed : ∀ n ∈ nodes, ∀ p ∈ (heap n).predecessors, p ∈ nodes)
    (acyclic : ∀ n ∈ nodes, ¬ TransGen (PredEdge heap) n n) {fuel : Nat}
    (enough : nodes.length ≤ fuel) (view : View) (avoids : List NodeId) {e : NodeId}
    (member : e ∈ nodes) (k : Nat) : (traceReadyDepend heap view avoids fuel e k).isSome :=
  traceReadyDepend_isSome (fun _ _ _ _ _ _ edge _ _ => (edge : PredEdge heap _ _)) fun chain =>
    absurd enough (Nat.not_le.2 (descends_lt_length closed acyclic member chain))

theorem trace_terminates (closed : EdgesClosed heap nodes)
    (acyclic : ∀ n ∈ nodes, ¬ TransGen (PredEdge heap) n n) {fuel : Nat}
    (enough : nodes.length ≤ fuel) :
    (∀ (view : View) (avoids : List NodeId), ∀ e ∈ nodes, ∀ k,
      (traceReadyDepend heap view avoids fuel e k).isSome) ∧
    (∀ (view : View) (now : NodeId → RunnableState) (avoids : List NodeId), Reads view now →
      ∀ depth e k, ¬ Descends (ReadyEdge heap now) depth e →
        (traceReadyDepend heap view avoids depth e k).isSome) ∧
    (∀ (view : View) (g : ThreadGraph) (hint : Option NodeId), (∀ e ∈ hint, e ∈ nodes) →
      (∀ e ∈ g.readyTasksCache, e ∈ nodes) → ∀ k, (traceReadyNode heap view g fuel hint k).isSome) := by
  have predecessors := fun n member => (closed n member).1
  refine ⟨fun view avoids e member k =>
    traceReadyDepend_returns predecessors acyclic enough view avoids member k, ?_, ?_⟩
  · intro view now avoids reads depth e k short
    exact traceReadyDepend_isSome (fun _ _ _ _ executing completed edge _ ready =>
      ⟨edge, (reads.ready_iff _ _).1 ready, reads.ready_of_not executing completed⟩) short
  · intro view g hint hinted cached k
    exact traceReadyNode_isSome
      (fun e member k => traceReadyDepend_returns predecessors acyclic enough view [] member k)
      cached (fun e member => ⟨hinted e member, (closed e (hinted e member)).2⟩) k

/-- The pool `[A, B, C]` of `chainHeap`, traced from the hint `B` with a fuel of three. -/
theorem trace_terminates_chain :
    (EdgesClosed chainHeap [0, 1, 2] ∧ (∀ n ∈ [0, 1, 2], ¬ TransGen (PredEdge chainHeap) n n) ∧
      [0, 1, 2].length ≤ 3) ∧
    (traceReadyNode chainHeap (fun _ => chainStates) chainGraph 3 (some 1) 0).isSome := by
  have closed : EdgesClosed chainHeap [0, 1, 2] := by unfold EdgesClosed; decide
  have acyclic := acyclic_of_lt (fun n member => (closed n member).1) (by decide)
  exact ⟨⟨closed, acyclic, by decide⟩,
    (trace_terminates closed acyclic (by decide)).2.2 _ chainGraph (some 1) (by simp)
      (by decide) 0⟩

end Acyclic

/-! ## Verdicts on a quiescent graph -/

section Quiescent

variable {heap : Heap} {view : View} {now : NodeId → RunnableState}

variable (heap now) in
/-- The READY nodes a result of `trace_ready_depend(e)` passed through: a READY verdict names a
node with a path of READY nodes to `e`, and a PENDING verdict names `e` or a predecessor of a
node with such a path. -/
def ReadyTrace (e : NodeId) : TraceResult → Prop
  | (.ready, some n) => ReflTransGen (ReadyEdge heap now) n e
  | (.pending, some x) => x = e ∨ ∃ y, x ∈ (heap y).predecessors ∧ ReflTransGen (ReadyEdge heap now) y e
  | _ => True

/-- What the trace of a READY predecessor `p` found, seen from its READY successor `e`. -/
theorem ReadyTrace.lift {p e : NodeId} {r : TraceResult} (found : ReadyTrace heap now p r)
    (edge : ReadyEdge heap now p e) : ReadyTrace heap now e r := by
  rcases r with ⟨_ | _ | _, _ | x⟩
  · trivial
  · exact ReflTransGen.tail found edge
  · trivial
  · rcases found with rfl | ⟨y, member, path⟩
    · exact .inr ⟨e, edge.1, .refl⟩
    · exact .inr ⟨y, member, path.tail edge⟩
  · trivial
  · trivial

theorem dependScan_ready (reads : Reads view now) {trace : NodeId → Nat → Option (TraceResult × Nat)}
    (traceOk : ∀ p k r k', trace p k = some (r, k') → ReadyTrace heap now p r) {e : NodeId}
    (ready : now e = .ready) :
    ∀ {ps : List NodeId} {exe r : TraceResult} {k k' : Nat}, (∀ p ∈ ps, p ∈ (heap e).predecessors) →
      ReadyTrace heap now e exe → dependScan view [] trace ps exe k = some (r, k') →
      ReadyTrace heap now e r
  | [], exe, r, k, k', _, exeOk, scan => by
    simp only [dependScan, Option.some.injEq, Prod.mk.injEq] at scan
    exact scan.1 ▸ exeOk
  | p :: ps, exe, r, k, k', predecessors, exeOk, scan => by
    have member := predecessors p (List.mem_cons_self p ps)
    have rest := @dependScan_ready reads trace traceOk e ready ps
    have later := fun q member => predecessors q (List.mem_cons_of_mem p member)
    simp only [dependScan, List.not_mem_nil, if_false] at scan
    split_ifs at scan with loaded
    · have edge : ReadyEdge heap now p e := ⟨member, (reads.ready_iff k p).1 loaded, ready⟩
      rcases recursion : trace p (k + 1) with _ | ⟨⟨verdict, x⟩, k''⟩
      · simp [recursion] at scan
      · have lifted := (traceOk _ _ _ _ recursion).lift edge
        cases verdict <;> simp only [recursion, Option.some.injEq, Prod.mk.injEq] at scan
        · exact scan.1 ▸ lifted
        · exact rest later lifted scan
        · exact rest later exeOk scan
    · exact rest later (by exact .inr ⟨e, member, .refl⟩) scan
    · exact rest later exeOk scan

/-- `trace_ready_depend(e, {})` with no node to avoid passes only through READY nodes. -/
theorem traceReadyDepend_ready (reads : Reads view now) :
    ∀ {fuel : Nat} {e : NodeId} {k k' : Nat} {r : TraceResult},
      traceReadyDepend heap view [] fuel e k = some (r, k') → ReadyTrace heap now e r
  | 0, _, _, _, _, trace => by simp [traceReadyDepend] at trace
  | fuel + 1, e, k, _, _, trace => by
    simp only [traceReadyDepend] at trace
    split_ifs at trace with executing completed
    · cases trace
      exact .inl rfl
    · cases trace
      trivial
    · rcases scan : dependScan view [] (traceReadyDepend heap view [] fuel) (heap e).predecessors
          (.ready, none) (k + 2) with _ | ⟨exe, _⟩ <;>
        simp only [scan, Option.some.injEq, Prod.mk.injEq, reduceCtorEq] at trace
      obtain ⟨rfl, rfl⟩ := trace
      have found := dependScan_ready reads (fun _ _ _ _ => traceReadyDepend_ready reads)
        (reads.ready_of_not executing completed) (fun _ => id) (by trivial) scan
      split_ifs
      · exact found
      · exact .refl

theorem traceReadyDepend_quiescent {nodes : List NodeId} {st : NodeId → RunnableState}
    (closed : ∀ n ∈ nodes, ∀ p ∈ (heap n).predecessors, p ∈ nodes)
    (acyclic : ∀ n ∈ nodes, ¬ TransGen (PredEdge heap) n n) {e : NodeId} (member : e ∈ nodes)
    {fuel : Nat} (enough : nodes.length ≤ fuel) (k : Nat) :
    ∃ r k', traceReadyDepend heap (fun _ => st) [] fuel e k = some (r, k') ∧
      (st e = .executing → r = (.pending, some e)) ∧
      (st e = .completed → r = (.completed, some e)) ∧
      (st e = .ready →
        ((∃ n, Runnable heap st n ∧ ReflTransGen (ReadyEdge heap st) n e) →
          ∃ n, r = (.ready, some n) ∧ Runnable heap st n ∧ ReflTransGen (ReadyEdge heap st) n e) ∧
        ((¬ ∃ n, Runnable heap st n ∧ ReflTransGen (ReadyEdge heap st) n e) →
          ∃ x y, r = (.pending, some x) ∧ st x = .executing ∧ x ∈ (heap y).predecessors ∧
            ReflTransGen (ReadyEdge heap st) y e)) := by
  obtain ⟨⟨r, k'⟩, trace⟩ := Option.isSome_iff_exists.1
    (traceReadyDepend_returns closed acyclic enough (fun _ => st) [] member k)
  obtain ⟨fuel, rfl⟩ : ∃ f, fuel = f + 1 :=
    Nat.exists_eq_succ_of_ne_zero (by have := List.length_pos_of_mem member; omega)
  have sound := traceReadyDepend_sound (reads_const st) trace
  have paths := traceReadyDepend_ready (reads_const st) trace
  refine ⟨r, k', trace, fun executing => ?_, fun done => ?_, fun ready => ⟨?_, fun none => ?_⟩⟩
  · simp only [traceReadyDepend, executing, if_true, Option.some.injEq, Prod.mk.injEq] at trace
    exact trace.1.symm
  · simp only [traceReadyDepend, done, reduceCtorEq, if_false, if_true, Option.some.injEq,
      Prod.mk.injEq] at trace
    exact trace.1.symm
  · rintro ⟨n, runnable, path⟩
    have verdict := traceReadyDepend_complete (reads_const st) (fun n => .refl (st n)) trace
      runnable path
    rcases r with ⟨_ | _ | _, _ | found⟩ <;> cases verdict
    · exact sound.elim
    · exact ⟨found, rfl, sound.1, paths⟩
  · rcases r with ⟨_ | _ | _, _ | x⟩
    · exact sound.elim
    · exact (none ⟨x, sound.1, paths⟩).elim
    · exact sound.elim
    · obtain ⟨⟨_, executing⟩, _⟩ := sound
      rcases paths with rfl | ⟨y, predecessor, path⟩
      · simp [executing] at ready
      · exact ⟨x, y, rfl, executing, predecessor, path⟩
    · exact sound.elim
    · simp [sound.2] at ready

/-- On the pool `[A, B, C]` of `chainHeap` with `A` EXECUTING, no claimable node reaches `B`, and
`trace_ready_depend(B, {})` answers PENDING on an EXECUTING predecessor. -/
theorem traceReadyDepend_quiescent_chain :
    ((∀ n ∈ [0, 1, 2], ∀ p ∈ (chainHeap n).predecessors, p ∈ [0, 1, 2]) ∧
      (∀ n ∈ [0, 1, 2], ¬ TransGen (PredEdge chainHeap) n n)) ∧
      ∃ r k', traceReadyDepend chainHeap (fun _ => chainStates) [] 3 1 0 = some (r, k') ∧
        ((¬ ∃ n, Runnable chainHeap chainStates n ∧ ReflTransGen (ReadyEdge chainHeap chainStates) n 1) →
          ∃ x y, r = (.pending, some x) ∧ chainStates x = .executing ∧
            x ∈ (chainHeap y).predecessors ∧ ReflTransGen (ReadyEdge chainHeap chainStates) y 1) := by
  have closed : ∀ n ∈ [0, 1, 2], ∀ p ∈ (chainHeap n).predecessors, p ∈ [0, 1, 2] := by decide
  have acyclic := acyclic_of_lt closed (by decide)
  obtain ⟨r, k', trace, -, -, ready⟩ := traceReadyDepend_quiescent closed acyclic
    (by decide : 1 ∈ [0, 1, 2]) (by decide : [0, 1, 2].length ≤ 3) 0
  exact ⟨⟨closed, acyclic⟩, r, k', trace, (ready rfl).2⟩

end Quiescent

end Athread
