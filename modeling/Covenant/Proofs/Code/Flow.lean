import Covenant.Code.FlowGraph
import Covenant.Proofs.Code.Order
import Covenant.Proofs.Code.Search
import Mathlib.Tactic.ByContra

/-!
The blocks that running code can come to are among those that the graph of a function says can be
reached.
-/

namespace Covenant

inductive Function.Reaches (function : Function) : BlockId → Prop
  | entry : Reaches function function.entry
  | next {id : BlockId} {block : BasicBlock} {target : BlockId} : Reaches function id →
      function.block? id = some block → target ∈ block.terminator.node.successors →
      Reaches function target

theorem FlowGraph.mem_successors {function : Function} {id target : BlockId} :
    target ∈ (FlowGraph.ofFunction function).successors id ↔
      ∃ block, function.block? id = some block ∧ target ∈ block.terminator.node.successors ∧
        target < function.blocks.length := by
  have there : function.block? id = function.blocks[id]? := rfl
  rw [there]
  cases found : function.blocks[id]? with
  | none => simp [successors, ofFunction, ofSuccessors, found]
  | some block => simp [successors, ofFunction, ofSuccessors, found]

namespace FlowGraph

section Bounds

variable {graph : FlowGraph} {block target : BlockId}

theorem mem_predecessors :
    block ∈ graph.predecessors target ↔ block < graph.size ∧ target ∈ graph.successors block := by
  simp [predecessors, blocks]

theorem lt_size_of_next (edge : target ∈ graph.successors block) : block < graph.size := by
  by_contra outside
  simp [successors, List.getD, List.getElem?_eq_none (Nat.le_of_not_lt outside)] at edge

theorem closed_predecessors (graph : FlowGraph) :
    ∀ node ∈ List.range graph.size, ∀ other ∈ graph.predecessors node,
      other ∈ List.range graph.size :=
  fun _ _ _ listed => List.mem_range.mpr (mem_predecessors.mp listed).1

theorem flatMap_successors (graph : FlowGraph) :
    (List.range graph.size).flatMap graph.successors = graph.edges.flatten := by
  rw [List.flatMap_def]
  refine congrArg List.flatten (List.ext_getElem (by simp [size]) fun index _ low => ?_)
  simp [successors, List.getElem?_eq_getElem low]

theorem length_successors_le (graph : FlowGraph) (block : BlockId) :
    (graph.successors block).length ≤ graph.edges.flatten.length := by
  by_cases low : block < graph.size
  · rw [← flatMap_successors, List.flatMap_def]
    exact (List.infix_of_mem_flatten (List.mem_map_of_mem (List.mem_range.mpr low))).length_le
  · have none : graph.successors block = [] := List.eq_nil_iff_forall_not_mem.mpr fun _ edge =>
      low (lt_size_of_next edge)
    simp [none]

theorem length_predecessors_le (graph : FlowGraph) (blocks : List BlockId) :
    (blocks.flatMap graph.predecessors).length ≤ blocks.length * graph.size := by
  induction blocks with
  | nil => exact Nat.zero_le _
  | cons block rest ih =>
    have here : (graph.predecessors block).length ≤ graph.size :=
      Nat.le_trans (List.length_filter_le _ _) (by simp [blocks])
    rw [List.flatMap_cons, List.length_append, List.length_cons, Nat.succ_mul]
    omega

theorem patience_eq (graph : FlowGraph) :
    graph.patience = graph.size * graph.size + 2 * graph.size + 1 + 2 *
      graph.edges.flatten.length := by
  rw [patience, Nat.add_mul, Nat.mul_add]
  omega

end Bounds

/-! What blocks weigh together. -/

section Weights

variable {weight : BlockId → Nat} {block : BlockId} {blocks : List BlockId}

def weigh (weight : BlockId → Nat) : List BlockId → Nat
  | [] => 0
  | block :: rest => weight block + weigh weight rest

@[simp] theorem weigh_nil (weight : BlockId → Nat) : weigh weight [] = 0 := rfl

@[simp] theorem weigh_cons (weight : BlockId → Nat) (block : BlockId) (rest : List BlockId) :
    weigh weight (block :: rest) = weight block + weigh weight rest := rfl

@[simp] theorem weigh_append (weight : BlockId → Nat) (first rest : List BlockId) :
    weigh weight (first ++ rest) = weigh weight first + weigh weight rest := by
  induction first with
  | nil => simp
  | cons block others ih => simp [ih, Nat.add_assoc]

theorem weigh_le_of_le {bound : Nat} (light : ∀ block, weight block ≤ bound)
    (blocks : List BlockId) :
    weigh weight blocks ≤ blocks.length * bound := by
  induction blocks with
  | nil => exact Nat.zero_le _
  | cons block rest ih =>
    have here := light block
    rw [weigh_cons, List.length_cons, Nat.succ_mul]
    omega

theorem weigh_mono {other : BlockId → Nat} (light : ∀ block, weight block ≤ other block)
    (blocks : List BlockId) :
    weigh weight blocks ≤ weigh other blocks := by
  induction blocks with
  | nil => exact Nat.le_refl _
  | cons block rest ih => exact Nat.add_le_add (light block) ih

theorem weigh_lt {other : BlockId → Nat} (light : ∀ block, weight block ≤ other block)
    (member : block ∈ blocks) (lighter : weight block < other block) :
    weigh weight blocks < weigh other blocks := by
  induction blocks with
  | nil => simp at member
  | cons first rest ih =>
    rcases List.mem_cons.mp member with rfl | later
    · exact Nat.add_lt_add_of_lt_of_le lighter (weigh_mono light rest)
    · exact Nat.add_lt_add_of_le_of_lt (light first) (ih later)

end Weights

variable {function : Function} {id block target : BlockId}

theorem size_ofFunction (function : Function) :
    (ofFunction function).size = function.blocks.length := by
  simp [size, ofFunction, ofSuccessors]

theorem closed_ofFunction (function : Function) : ∀ node ∈ List.range function.blocks.length,
    ∀ other ∈ (ofFunction function).successors node, other ∈ List.range function.blocks.length := by
  intro node _ other listed
  obtain ⟨_, _, _, low⟩ := mem_successors.mp listed
  exact List.mem_range.mpr low

theorem length_range_lt (function : Function) :
    (List.range function.blocks.length).length < (ofFunction function).size + 1 := by
  rw [size_ofFunction, List.length_range]
  omega

/-! The blocks that can be reached from the entry. -/

theorem reversePostorder?_eq (inside : function.entry < function.blocks.length) {fuel : Nat}
    (enough : (ofFunction function).patience ≤ fuel) :
    (ofFunction function).reversePostorder? fuel =
      some (Reach.closure (ofFunction function).successors ((ofFunction function).size + 1) []
        [function.entry]) := by
  have low : (ofFunction function).entry < (ofFunction function).size :=
    (size_ofFunction function).symm ▸ inside
  rw [reversePostorder?, if_pos low]
  refine Reach.descend?_eq (closed_ofFunction function) (List.mem_range.mpr inside)
    (length_range_lt function) ?_
  have total := patience_eq (ofFunction function)
  rw [← flatMap_successors, size_ofFunction] at total
  rw [List.length_range]
  omega

theorem reversePostorder?_of_outside (outside : ¬ function.entry < function.blocks.length)
    (fuel : Nat) :
    (ofFunction function).reversePostorder? fuel = some [] :=
  if_neg ((size_ofFunction function).symm ▸ outside)

theorem reversePostorder_eq (inside : function.entry < function.blocks.length) :
    (ofFunction function).reversePostorder =
    Reach.closure (ofFunction function).successors ((ofFunction function).size + 1) []
      [function.entry] := by
  rw [reversePostorder, reversePostorder?_eq inside (Nat.le_refl _), Option.getD_some]

theorem reversePostorder?_of_patience {fuel : Nat}
    (enough : (ofFunction function).patience ≤ fuel) :
    (ofFunction function).reversePostorder? fuel = some (ofFunction function).reversePostorder := by
  by_cases inside : function.entry < function.blocks.length
  · rw [reversePostorder?_eq inside enough, reversePostorder_eq inside]
  · rw [reversePostorder, reversePostorder?_of_outside inside, reversePostorder?_of_outside inside,
      Option.getD_some]

theorem reversePostorder_of_outside (outside : ¬ function.entry < function.blocks.length) :
    (ofFunction function).reversePostorder = [] := by
  rw [reversePostorder, reversePostorder?_of_outside outside, Option.getD_some]

theorem entry_mem_reversePostorder (inside : function.entry < function.blocks.length) :
    function.entry ∈ (ofFunction function).reversePostorder := by
  rw [reversePostorder_eq inside]
  exact Reach.mem_closure_of_root (closed_ofFunction function) (length_range_lt function)
    (by simpa using inside) List.mem_cons_self List.not_mem_nil

theorem inside_of_mem_reversePostorder (reached : id ∈ (ofFunction function).reversePostorder) :
    function.entry < function.blocks.length := by
  by_contra outside
  simp [reversePostorder_of_outside outside] at reached

theorem mem_reversePostorder_of_next (reached : id ∈ (ofFunction function).reversePostorder)
    (edge : target ∈ (ofFunction function).successors id) :
    target ∈ (ofFunction function).reversePostorder := by
  have inside := inside_of_mem_reversePostorder reached
  rw [reversePostorder_eq inside] at reached ⊢
  exact Reach.mem_closure_of_next (closed_ofFunction function) (length_range_lt function)
    (by simpa using inside) reached edge List.not_mem_nil

theorem forall_mem_reversePostorder (holds : BlockId → Prop) (entry : holds function.entry)
    (step : ∀ id, holds id → ∀ target ∈ (ofFunction function).successors id, holds target) :
    ∀ id ∈ (ofFunction function).reversePostorder, holds id := by
  intro id reached
  rw [reversePostorder_eq (inside_of_mem_reversePostorder reached)] at reached
  refine Reach.forall_mem_closure (fun root listed _ => ?_)
    (fun id holds target edge _ => step id holds target edge) id reached
  exact List.mem_singleton.mp listed ▸ entry

theorem head_reversePostorder (inside : function.entry < function.blocks.length) :
    (ofFunction function).reversePostorder.head? = some function.entry := by
  rw [reversePostorder_eq inside]
  simp [Reach.closure, Reach.visit]

theorem ordered_reversePostorder (function : Function) :
    Reach.Ordered (ofFunction function).successors
    (fun start other => Relation.ReflTransGen
      (fun source target => target ∈ (ofFunction function).successors source) other start)
      (ofFunction function).reversePostorder := by
  by_cases inside : function.entry < function.blocks.length
  · rw [reversePostorder_eq inside]
    exact (Reach.discipline_of_ways _ (List.range function.blocks.length)).ordered_closure
      (closed_ofFunction function) (length_range_lt function) (List.mem_range.mpr inside) trivial
  · rw [reversePostorder_of_outside inside]
    trivial

theorem nodup_reversePostorder (function : Function) :
    (ofFunction function).reversePostorder.Nodup :=
  (ordered_reversePostorder function).nodup

theorem exists_earlier (reached : id ∈ (ofFunction function).reversePostorder)
    (apart : id ≠ function.entry) :
    ∃ other ∈ (ofFunction function).reversePostorder, id ∈ (ofFunction function).successors other ∧
      (ofFunction function).reversePostorder.idxOf other <
        (ofFunction function).reversePostorder.idxOf id := by
  have led : Reach.Led (ofFunction function).successors (· = function.entry)
      (ofFunction function).reversePostorder := by
    rw [reversePostorder_eq (inside_of_mem_reversePostorder reached)]
    exact Reach.led_visit trivial rfl
  exact led.idxOf_lt reached apart

/-! The blocks that can be reached from a block. -/

theorem mem_reachableFrom {start : BlockId} : target ∈ (ofFunction function).reachableFrom start ↔
    Relation.TransGen (fun source target => target ∈ (ofFunction function).successors source) start
      target := by
  have roots : ∀ root ∈ ((ofFunction function).successors start).reverse,
      root ∈ List.range function.blocks.length := by
    intro root listed
    obtain ⟨_, _, _, low⟩ := mem_successors.mp (List.mem_reverse.mp listed)
    exact List.mem_range.mpr low
  have enough : ((ofFunction function).successors start).reverse.length + Reach.unmetCost
      (fun node => ((ofFunction function).successors node).length)
      (List.range function.blocks.length) [] ≤
      (ofFunction function).patience := by
    have total := patience_eq (ofFunction function)
    have first := length_successors_le (ofFunction function) start
    rw [← flatMap_successors, size_ofFunction] at total first
    rw [List.length_reverse, Reach.unmetCost_length]
    omega
  obtain ⟨result, ends⟩ := Reach.gather?_isSome (closed_ofFunction function) roots enough
  rw [reachableFrom, ends, Option.getD_some, Reach.mem_gather?_iff ends,
    Relation.TransGen.head'_iff]
  simp only [List.not_mem_nil, not_false_eq_true, and_true, true_and, false_or, List.mem_reverse]

end FlowGraph

theorem Function.Reaches.isReachable {function : Function} {id : BlockId}
    (reaches : function.Reaches id) (entry : function.entry < function.blocks.length)
    (inside : ∀ block ∈ function.blocks, ∀ target ∈ block.terminator.node.successors,
      target < function.blocks.length) :
    (FlowGraph.ofFunction function).isReachable id = true := by
  have member : id ∈ (FlowGraph.ofFunction function).reversePostorder := by
    induction reaches with
    | entry => exact FlowGraph.entry_mem_reversePostorder entry
    | @next id block target _ found leads ih =>
      have low := inside block (List.mem_of_getElem? found) target leads
      exact FlowGraph.mem_reversePostorder_of_next ih
        (FlowGraph.mem_successors.mpr ⟨block, found, leads, low⟩)
  simpa [FlowGraph.isReachable] using member

end Covenant
