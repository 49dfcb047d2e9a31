import Covenant.Proofs.Code.Dominators

/-!
Dominance, seen from the edges that code follows, and the edges that lead back. In a reducible
graph, reverse postorder puts each block before those that it leads to in another way than back.
-/

namespace Covenant

namespace FlowGraph

def Reducible (graph : FlowGraph) : Prop :=
  Reach.Ordered graph.successors (fun source target => graph.dominates target source = true)
    graph.reversePostorder

/-- Whether an edge between blocks that can be reached does not lead back. -/
def Onward (graph : FlowGraph) (source target : BlockId) : Prop :=
  source ∈ graph.reversePostorder ∧ target ∈ graph.successors source ∧
    (source, target) ∉ graph.backEdges

theorem mem_backEdges {graph : FlowGraph} {source target : BlockId} :
    (source, target) ∈ graph.backEdges ↔
    source ∈ graph.reversePostorder ∧ target ∈ graph.successors source ∧
    graph.dominates target source = true := by
  simp [backEdges, dominates]

namespace Reducible

variable {graph : FlowGraph} {source target : BlockId}

theorem idxOf_lt (reducible : graph.Reducible) (onward : graph.Onward source target) :
    graph.reversePostorder.idxOf source < graph.reversePostorder.idxOf target := by
  obtain ⟨reached, edge, onward⟩ := onward
  exact (Reach.Ordered.idxOf_lt reducible reached edge fun back =>
    onward (mem_backEdges.mpr ⟨reached, edge, back⟩)).2

theorem acyclic (reducible : graph.Reducible) (block : BlockId) :
    ¬ Relation.TransGen graph.Onward block block := by
  have climbs {first last : BlockId} (way : Relation.TransGen graph.Onward first last) :
      graph.reversePostorder.idxOf first < graph.reversePostorder.idxOf last := by
    induction way with
    | single onward => exact reducible.idxOf_lt onward
    | tail _ onward ih => exact Nat.lt_trans ih (reducible.idxOf_lt onward)
  exact fun cycle => Nat.lt_irrefl _ (climbs cycle)

end Reducible

variable {function : Function} {block id target : BlockId}

theorem eq_of_dominates_entry
    (dominates : (ofFunction function).dominates block function.entry = true) :
    block = function.entry :=
  (dominates_iff.mp dominates).eq_of_entry

theorem dominates_of_next (reached : id ∈ (ofFunction function).reversePostorder)
    (edge : target ∈ (ofFunction function).successors id) (apart : block ≠ target)
    (dominates : (ofFunction function).dominates block target = true) :
    (ofFunction function).dominates block id = true :=
  dominates_iff.mpr
    ((dominates_iff.mp dominates).of_leads (Function.leads_iff.mpr edge) apart reached)

theorem dominates_self (reached : id ∈ (ofFunction function).reversePostorder) :
    (ofFunction function).dominates id id = true :=
  dominates_iff.mpr (Function.dominates_self reached)

theorem idxOf_le_of_dominates (dominates : function.Dominates block target) :
    (ofFunction function).reversePostorder.idxOf block ≤
      (ofFunction function).reversePostorder.idxOf target := by
  have settled := settled_dominators (inside_of_mem_reversePostorder dominates.reached)
  have order := settled.stage.order
  have high := settled.stage.rooted.place_le
    ((settled.above_iff (order ▸ dominates.reached)).mpr dominates)
  rwa [DominatorTree.place, DominatorTree.place, order] at high

def Climbs (function : Function) (rank : BlockId → Nat) : Prop :=
  ∀ id ∈ (ofFunction function).reversePostorder, ∀ target, function.Leads id target →
    rank id < rank target ∨ function.Dominates target id

theorem Climbs.rank_le {rank : BlockId → Nat} (climbs : Climbs function rank)
    (dominates : function.Dominates block target) :
    rank block ≤ rank target := by
  induction size : (ofFunction function).reversePostorder.idxOf target using
    Nat.strongRecOn generalizing target with
  | ind size ih =>
    by_cases same : block = target
    · exact same ▸ Nat.le_refl _
    · have below : target ≠ function.entry := by
        rintro rfl
        exact same dominates.eq_of_entry
      obtain ⟨source, reached, edge, earlier⟩ := exists_earlier dominates.reached below
      have leads := Function.leads_iff.mpr edge
      have before := ih _ (size ▸ earlier) (dominates.of_leads leads same reached) rfl
      rcases climbs source reached target leads with up | back
      · omega
      · exact absurd (idxOf_le_of_dominates back) (Nat.not_le.mpr earlier)

/-- A graph is reducible if all edges lead up in a ranking of the blocks, or back to a dominator. -/
theorem Climbs.reducible {rank : BlockId → Nat} (climbs : Climbs function rank) :
    (ofFunction function).Reducible := by
  by_cases inside : ¬ function.entry < function.blocks.length
  · rw [Reducible, reversePostorder_of_outside inside]
    trivial
  rw [not_not] at inside
  let graph := ofFunction function
  let nodes := (List.range function.blocks.length).filter graph.reversePostorder.contains
  have mem_nodes {id : BlockId} (reached : id ∈ graph.reversePostorder)
      (low : id < function.blocks.length) :
      id ∈ nodes := List.mem_filter.mpr ⟨List.mem_range.mpr low, by simpa using reached⟩
  have reached {id : BlockId} (member : id ∈ nodes) : id ∈ graph.reversePostorder := by
    simpa using (List.mem_filter.mp member).2
  have closed : ∀ id ∈ nodes, ∀ target ∈ graph.successors id, target ∈ nodes := by
    intro id member target edge
    obtain ⟨_, _, _, low⟩ := mem_successors.mp edge
    exact mem_nodes (mem_reversePostorder_of_next (reached member) edge) low
  have enough : nodes.length < graph.size + 1 :=
    Nat.lt_of_le_of_lt (List.length_filter_le _ _) (length_range_lt function)
  have start := mem_nodes (entry_mem_reversePostorder inside) inside
  have reducible : Reach.Reducible graph.successors nodes function.entry
      (fun upper other => other ∈ nodes → graph.dominates upper other = true) rank := {
    refl := fun id member => dominates_self (reached member)
    root := fun upper dominates => eq_of_dominates_entry (dominates start)
    edge := by
      intro id member target edge upper dominates
      by_cases same : upper = target
      · exact .inl same
      · exact .inr fun _ => dominates_of_next (reached member) edge same
          (dominates (closed id member target edge))
    climbs := fun id member target edge => (climbs id (reached member) target
      (Function.leads_iff.mpr edge)).symm.imp_left fun back _ => dominates_iff.mpr back }
  have order := reducible.discipline.ordered_closure closed enough start
    fun upper dominates => .inl (reducible.root upper dominates)
  have same : graph.reversePostorder = Reach.closure graph.successors (graph.size + 1) []
      [function.entry] :=
    reversePostorder_eq inside
  rw [Reducible, same]
  refine order.mono fun id member target edge back => back (mem_nodes (same ▸ member) ?_)
  obtain ⟨_, found, _⟩ := mem_successors.mp edge
  exact (List.getElem?_eq_some_iff.mp found).1

end FlowGraph

/-!
What the searches through the graph of a function find, told by paths: the blocks that can be
reached from the entry, the loop that an edge leads back to the start of, and the blocks that can be
reached from a block.
-/

theorem reflTransGen_past_iff {α : Type} {leads : α → α → Prop} (holds : α → Prop)
    {first last : α} :
    holds first ∧ Relation.ReflTransGen (fun source target => leads source target ∧ holds target)
      first last ↔
      holds last ∧ Relation.ReflTransGen (fun source target => leads source target ∧ holds source)
        first last := by
  constructor
  · rintro ⟨start, way⟩
    induction way with
    | refl => exact ⟨start, .refl⟩
    | tail _ edge ih => exact ⟨edge.2, ih.2.tail ⟨edge.1, ih.1⟩⟩
  · rintro ⟨final, way⟩
    induction way using Relation.ReflTransGen.head_induction_on with
    | refl => exact ⟨final, .refl⟩
    | head edge _ ih => exact ⟨edge.2, .head ⟨edge.1, ih.1⟩ ih.2⟩

namespace FlowGraph

section Loops

variable {graph : FlowGraph} {source header block : BlockId}

theorem exists_naturalLoop (header : BlockId) (inside : source < graph.size) : ∃ found,
    Reach.gather? graph.predecessors graph.patience [header] [source] = some found ∧
      graph.naturalLoop source header = found.mergeSort fun left right => left ≤ right := by
  have enough : [source].length + Reach.unmetCost (fun node => (graph.predecessors node).length)
      (List.range graph.size) [header] ≤ graph.patience := by
    have less := Reach.unmetCost_mono (fun node => (graph.predecessors node).length)
      (List.nil_subset [header]) (List.range graph.size)
    have most := length_predecessors_le graph (List.range graph.size)
    have total := patience_eq graph
    rw [Reach.unmetCost_length] at less
    rw [List.length_range] at most
    rw [List.length_singleton]
    omega
  obtain ⟨found, ends⟩ := Reach.gather?_isSome (closed_predecessors graph)
    (by simpa using inside) enough
  exact ⟨found, ends, by rw [naturalLoop, ends, Option.getD_some]⟩

theorem mem_naturalLoop (inside : source < graph.size) :
    block ∈ graph.naturalLoop source header ↔ block = header ∨
    source ≠ header ∧
    Relation.ReflTransGen (fun target other => other ∈ graph.predecessors target ∧ other ≠ header)
      source block := by
  obtain ⟨found, ends, same⟩ := exists_naturalLoop header inside
  rw [same, List.mem_mergeSort, Reach.mem_gather?_iff ends]
  simp

theorem pairwise_naturalLoop (inside : source < graph.size) :
    (graph.naturalLoop source header).Pairwise (· < ·) := by
  obtain ⟨found, ends, same⟩ := exists_naturalLoop header inside
  have nodup : (graph.naturalLoop source header).Nodup := by
    rw [same]
    exact (List.mergeSort_perm found _).nodup_iff.mpr (Reach.nodup_gather? ends (by simp))
  have trans (first second third : BlockId) (low : decide (first ≤ second) = true)
      (high : decide (second ≤ third) = true) :
      decide (first ≤ third) = true :=
    decide_eq_true (Nat.le_trans (of_decide_eq_true low) (of_decide_eq_true high))
  have total (left right : BlockId) : (decide (left ≤ right) || decide (right ≤ left)) = true := by
    simpa using Nat.le_total left right
  have sorted : (graph.naturalLoop source header).Pairwise fun left right =>
      decide (left ≤ right) = true :=
    same ▸ List.pairwise_mergeSort trans total found
  exact sorted.imp₂ (fun _ _ low apart => Nat.lt_of_le_of_ne (of_decide_eq_true low) apart) nodup

end Loops

variable {function : Function} {source header block : BlockId}

theorem mem_naturalLoop_iff_path (inside : source < function.blocks.length) :
    block ∈ (ofFunction function).naturalLoop source header ↔
      block = header ∨ ∃ blocks, function.Path blocks block source ∧ header ∉ blocks := by
  have edges (start target : BlockId) :
      start ∈ (ofFunction function).predecessors target ↔ function.Leads start target := by
    rw [mem_predecessors, Function.leads_iff]
    exact ⟨And.right, fun edge => ⟨lt_size_of_next edge, edge⟩⟩
  have paths := Function.exists_path_iff function block source (· ≠ header)
  simp only [ne_eq, List.forall_mem_ne'] at paths
  rw [mem_naturalLoop (size_ofFunction function ▸ inside), paths, and_assoc]
  refine or_congr_right ?_
  rw [reflTransGen_past_iff fun other => ¬ other = header, ← Relation.reflTransGen_swap]
  simp only [edges]
  refine (and_iff_right_of_imp fun ⟨_, way⟩ => ?_).symm
  rcases way.cases_head with rfl | ⟨_, ⟨leads, _⟩, _⟩
  · exact inside
  · exact leads.source_lt

theorem dominates_of_path (dominates : function.Dominates header source) {blocks : List BlockId}
    (path : function.Path blocks block source) (past : header ∉ blocks)
    (reached : block ∈ (ofFunction function).reversePostorder) :
    function.Dominates header block := by
  have holds : ∀ other ∈ blocks, other ≠ header := fun other member same => past (same ▸ member)
  obtain ⟨start, way⟩ := (Function.exists_path_iff function block source (· ≠ header)).mp
    ⟨blocks, path, holds⟩
  clear path past holds start
  revert reached
  induction way using Relation.ReflTransGen.head_induction_on with
  | refl => exact fun _ => dominates
  | @head first next edge _ ih =>
    intro reached
    have further := ih (mem_reversePostorder_of_next reached (Function.leads_iff.mp edge.1))
    exact further.of_leads edge.1 (Ne.symm edge.2) reached

/-- Reverse postorder has the blocks that can be reached from the entry, each once and the entry
first, and a block comes before those that it leads to and that do not lead back to it. The loop of
an edge that leads back has its header and the blocks with a path to the start of the edge past the
header, in ascending order and each once, and the header dominates those of them that can be
reached. From a block, the ends of all paths of two blocks or more can be reached. -/
theorem traversals_correct (function : Function) :
    let graph := ofFunction function
    ((∀ fuel, graph.patience ≤ fuel → graph.reversePostorder? fuel = some graph.reversePostorder) ∧
      (∀ block, block ∈ graph.reversePostorder ↔ ∃ blocks,
        function.Path blocks function.entry block) ∧
      graph.reversePostorder.Nodup ∧
      (∀ first rest, graph.reversePostorder = first :: rest → first = function.entry) ∧
      ∀ source ∈ graph.reversePostorder, ∀ target, function.Leads source target →
        graph.reversePostorder.idxOf source < graph.reversePostorder.idxOf target ∨
          ∃ blocks, function.Path blocks target source) ∧
    (∀ source header, (source, header) ∈ graph.backEdges →
      (graph.naturalLoop source header).Pairwise (· < ·) ∧
      (∀ block, block ∈ graph.naturalLoop source header ↔
        block = header ∨ ∃ blocks, function.Path blocks block source ∧ header ∉ blocks) ∧
      ∀ block ∈ graph.naturalLoop source header, block ∈ graph.reversePostorder →
      function.Dominates header block) ∧
    ∀ start block, block ∈ graph.reachableFrom start ↔ ∃ blocks, function.Path blocks start block ∧
    1 < blocks.length := by
  intro graph
  refine ⟨⟨fun fuel => reversePostorder?_of_patience, fun block => mem_reversePostorder_iff,
    nodup_reversePostorder function, fun first rest order => ?_, fun source reached target leads =>
      ?_⟩, fun source header back => ?_, fun start block => ?_⟩
  · have inside :=
      inside_of_mem_reversePostorder (order ▸ List.mem_cons_self : first ∈ graph.reversePostorder)
    have head := head_reversePostorder inside
    exact Option.some.inj ((congrArg List.head? order).symm.trans head)
  · have edge := Function.leads_iff.mp leads
    have ordered := ordered_reversePostorder function
    rw [← Function.leads_eq] at ordered
    by_cases back : Relation.ReflTransGen function.Leads target source
    · exact .inr (Function.exists_path_iff_reflTransGen.mpr ⟨leads.target_lt, back⟩)
    · exact .inl (ordered.idxOf_lt reached edge back).2
  · obtain ⟨reached, edge, back⟩ := mem_backEdges.mp back
    have low := size_ofFunction function ▸ lt_size_of_next edge
    have dominates := dominates_iff.mp back
    refine ⟨pairwise_naturalLoop (lt_size_of_next edge), fun block => mem_naturalLoop_iff_path low,
      fun block member further => ?_⟩
    rcases (mem_naturalLoop_iff_path low).mp member with rfl | ⟨blocks, path, past⟩
    · exact Function.dominates_self further
    · exact dominates_of_path dominates path past further
  · rw [mem_reachableFrom, Function.exists_path_iff_transGen, Function.leads_eq]

end FlowGraph

end Covenant
