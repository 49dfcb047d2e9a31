import Covenant.Chain.Gas
import Covenant.Proofs.Code.Walks

/-!
The cost of the most expensive path through a function is an upper bound for the walks through its
graph that go back no more often than loops are counted for, as long as amounts stay below the
ceiling.
-/

namespace Covenant

def GasCovers (amount exact : Nat) : Prop := min exact gasCeiling ≤ amount

namespace GasCovers

variable {amount other exact more : Nat}

theorem zero : GasCovers 0 0 := Nat.min_le_left 0 gasCeiling

theorem le_trans (covers : GasCovers amount more) (less : exact ≤ more) :
    GasCovers amount exact := by
  unfold GasCovers at covers ⊢
  omega

theorem add (covers : GasCovers amount exact) (others : GasCovers other more) :
    GasCovers (gasAdd amount other) (exact + more) := by
  unfold GasCovers gasAdd at *
  omega

theorem mul (covers : GasCovers amount exact) (count : Nat) :
    GasCovers (gasMul amount count) (exact * count) := by
  unfold GasCovers gasMul at *
  by_cases small : exact ≤ amount
  · have products := Nat.mul_le_mul_right count small
    omega
  · cases count with
    | zero => simp
    | succ count =>
      have large : gasCeiling ≤ amount * (count + 1) := by
        have reaches : gasCeiling ≤ amount := by omega
        exact Nat.le_trans reaches (Nat.le_mul_of_pos_right amount (Nat.succ_pos count))
      omega

end GasCovers

namespace GasSetting

open FlowGraph

variable {setting : GasSetting} {graph : FlowGraph} {costs : List Nat} {weight : BlockId → Nat}

theorem covers_body (covers : ∀ block, GasCovers (costs.getD block 0) (weight block))
    (blocks : List BlockId) {amount exact : Nat} (start : GasCovers amount exact) :
    GasCovers (blocks.foldl (fun sum inner => gasAdd sum (costs.getD inner 0)) amount)
      (exact + weigh weight blocks) := by
  induction blocks generalizing amount exact with
  | nil => exact start
  | cons block rest ih =>
    rw [List.foldl_cons, weigh_cons, ← Nat.add_assoc]
    exact ih (start.add (covers block))

/-- What loops add to the block that they start at is enough for all their blocks, each time that
they are counted. -/
theorem covers_loopCost (covers : ∀ block, GasCovers (costs.getD block 0) (weight block))
    (block : BlockId) :
    GasCovers (setting.loopCost graph graph.backEdges costs block)
      (weigh weight (graph.loop block) * setting.loopBound) := by
  have general (edges : List (BlockId × BlockId)) {amount exact : Nat}
      (start : GasCovers amount exact) :
      GasCovers (edges.foldl (fun total edge =>
          if edge.2 == block then
            let body := (graph.naturalLoop edge.1 edge.2).foldl
              (fun sum inner => gasAdd sum (costs.getD inner 0)) 0
            gasAdd total (gasMul body setting.loopBound)
          else total) amount)
        (exact + weigh weight (edges.flatMap fun edge => if edge.2 == block then
          graph.naturalLoop edge.1 edge.2 else []) * setting.loopBound) := by
    induction edges generalizing amount exact with
    | nil => simpa using start
    | cons edge rest ih =>
      rw [List.foldl_cons, List.flatMap_cons, weigh_append, Nat.add_mul, ← Nat.add_assoc]
      refine ih ?_
      split
      · have body := covers_body covers (graph.naturalLoop edge.1 edge.2) .zero
        rw [Nat.zero_add] at body
        exact start.add (body.mul setting.loopBound)
      · simpa using start
  have whole := general graph.backEdges .zero
  rwa [Nat.zero_add] at whole

def standingCost (setting : GasSetting) (graph : FlowGraph) (costs : List Nat) (block : BlockId) :
    Nat :=
  gasAdd (costs.getD block 0) (setting.loopCost graph graph.backEdges costs block)

def nextCost (graph : FlowGraph) (found : List (BlockId × Nat)) (block : BlockId) : Nat :=
  ((graph.successors block).filter fun target => !graph.backEdges.contains (block, target)).foldl
    (fun worst target => max worst ((found.lookup target).getD 0)) 0

def addPathCost (setting : GasSetting) (graph : FlowGraph) (costs : List Nat) (block : BlockId)
    (found : List (BlockId × Nat)) : List (BlockId × Nat) :=
  (block, gasAdd (setting.standingCost graph costs block) (nextCost graph found block)) :: found

theorem pathCosts_eq (setting : GasSetting) (graph : FlowGraph) (costs : List Nat) :
    setting.pathCosts graph costs = graph.reversePostorder.foldr
      (setting.addPathCost graph costs) [] := rfl

def pathCost (found : List (BlockId × Nat)) (block : BlockId) : Nat := (found.lookup block).getD 0

theorem le_foldl_max (value : BlockId → Nat) (targets : List BlockId) (start : Nat) :
    start ≤ targets.foldl (fun worst target => max worst (value target)) start ∧
      ∀ target ∈ targets, value target ≤ targets.foldl
        (fun worst target => max worst (value target)) start := by
  induction targets generalizing start with
  | nil => simp
  | cons first rest ih =>
    obtain ⟨above, each⟩ := ih (max start (value first))
    rw [List.foldl_cons]
    refine ⟨by omega, List.forall_mem_cons.mpr ⟨by omega, each⟩⟩

theorem le_nextCost (found : List (BlockId × Nat)) {block target : BlockId}
    (edge : target ∈ graph.successors block) (onward : (block, target) ∉ graph.backEdges) :
    pathCost found target ≤ nextCost graph found block :=
  (le_foldl_max (pathCost found) _ 0).2 target (List.mem_filter.mpr ⟨edge, by simpa using onward⟩)

theorem pathCost_cons (block other cost : Nat) (found : List (BlockId × Nat)) :
    pathCost ((block, cost) :: found) other = if other = block then cost
      else pathCost found other := by
  unfold pathCost
  rw [List.lookup_cons]
  by_cases same : other = block
  · simp [same]
  · rw [beq_false_of_ne same, if_neg same]

/-- The path cost of a block is that of the block and of what follows along any of its edges. -/
theorem le_pathCost (setting : GasSetting) (costs : List Nat) {order : List BlockId}
    (ordered : Reach.Ordered graph.successors
      (fun source target => graph.dominates target source = true) order)
    (reached : ∀ block ∈ order, block ∈ graph.reversePostorder) :
    ∀ block ∈ order, min (setting.standingCost graph costs block) gasCeiling ≤
        pathCost (order.foldr (setting.addPathCost graph costs) []) block ∧
      ∀ target ∈ graph.successors block, (block, target) ∉ graph.backEdges →
        gasAdd (setting.standingCost graph costs block)
            (pathCost (order.foldr (setting.addPathCost graph costs) []) target) ≤
          pathCost (order.foldr (setting.addPathCost graph costs) []) block := by
  induction order with
  | nil => simp
  | cons first rest ih =>
    obtain ⟨fresh, edges, further⟩ := ordered
    obtain ⟨here, later⟩ := List.forall_mem_cons.mp reached
    -- what an edge leads on to is listed later, so its path cost is known when that of the block is
    -- found
    have kept {target : BlockId} (listed : target ∈ rest) {cost : Nat}
        (found : List (BlockId × Nat)) :
        pathCost ((first, cost) :: found) target = pathCost found target := by
      have apart : target ≠ first := fun same => fresh (same ▸ listed)
      rw [pathCost_cons, if_neg apart]
    have ahead {block target : BlockId} (member : block ∈ first :: rest)
        (edge : target ∈ graph.successors block)
        (onward : (block, target) ∉ graph.backEdges) : target ∈ rest := by
      have forth : ¬ graph.dominates target block = true := fun back =>
        onward (mem_backEdges.mpr ⟨reached block member, edge, back⟩)
      rcases List.mem_cons.mp member with rfl | listed
      · exact (edges target edge).resolve_left forth
      · exact (Reach.Ordered.idxOf_lt further listed edge forth).1
    rw [List.foldr_cons, addPathCost]
    refine List.forall_mem_cons.mpr ⟨?_, fun block listed => ?_⟩
    · rw [pathCost_cons, if_pos rfl]
      refine ⟨by unfold gasAdd; omega, fun target edge onward => ?_⟩
      have next := le_nextCost (rest.foldr (setting.addPathCost graph costs) []) edge onward
      rw [kept (ahead List.mem_cons_self edge onward)]
      unfold gasAdd
      omega
    · obtain ⟨own, onwards⟩ := ih further later block listed
      rw [kept listed]
      refine ⟨own, fun target edge onward => ?_⟩
      rw [kept (ahead (List.mem_cons_of_mem first listed) edge onward)]
      exact onwards target edge onward

theorem labels_pathCost (reducible : graph.Reducible)
    (covers : ∀ block, GasCovers (costs.getD block 0) (weight block)) :
    graph.Labels weight setting.loopBound gasCeiling
      (pathCost (setting.pathCosts graph costs)) := by
  have standing (block : BlockId) : GasCovers (setting.standingCost graph costs block)
      (weight block + weigh weight (graph.loop block) * setting.loopBound) :=
    (covers block).add (covers_loopCost covers block)
  have paths := le_pathCost setting costs reducible fun _ listed => listed
  rw [← pathCosts_eq] at paths
  refine ⟨fun block reached => ?_, fun block reached target edge onward => ?_⟩
  · have own := standing block
    have path := (paths block reached).1
    unfold GasCovers at own
    omega
  · have own := standing block
    have path := (paths block reached).2 target edge onward
    unfold GasCovers at own
    unfold gasAdd at path
    omega

theorem covers_graphCost {function : Function} (inside : function.entry < function.blocks.length)
    (reducible : (ofFunction function).Reducible)
    (covers : ∀ block, GasCovers (costs.getD block 0) (weight block)) {rest : List BlockId}
    (walks : (ofFunction function).IsWalk (function.entry :: rest))
    (within : (ofFunction function).TurnsWithin setting.loopBound (function.entry :: rest)) :
    GasCovers (setting.graphCost (ofFunction function) costs)
      (weigh weight (function.entry :: rest)) :=
  reducible.weigh_le_label_entry inside (labels_pathCost reducible covers) walks within

end GasSetting

end Covenant
