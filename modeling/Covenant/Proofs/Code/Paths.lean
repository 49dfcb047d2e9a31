import Covenant.Proofs.Code.Flow
import Mathlib.Data.List.Chain

/-!
Paths through a function, told from what its blocks name at their ends. Blocks that are named but do
not exist are on no path.
-/

namespace Covenant

namespace Function

def Leads (function : Function) (source target : BlockId) : Prop :=
  ∃ block, function.block? source = some block ∧ target ∈ block.terminator.node.successors ∧
    target < function.blocks.length

/-- Whether blocks are those that some way from one block to another goes through, both included. -/
structure Path (function : Function) (blocks : List BlockId) (first last : BlockId) : Prop where
  chain : blocks.IsChain function.Leads
  head : blocks.head? = some first
  last : blocks.getLast? = some last
  inside : ∀ block ∈ blocks, block < function.blocks.length

/-- Whether a block can be come to from the entry, and only through another one. -/
def Dominates (function : Function) (block other : BlockId) : Prop :=
  (∃ blocks, function.Path blocks function.entry other) ∧
    ∀ blocks, function.Path blocks function.entry other → block ∈ blocks

/-- Whether a block dominates another one, and is dominated by all others that do. -/
def ImmediatelyDominates (function : Function) (block other : BlockId) : Prop :=
  (function.Dominates block other ∧ block ≠ other) ∧
    ∀ upper, function.Dominates upper other → upper ≠ other → function.Dominates upper block

variable {function : Function} {first last next : BlockId} {blocks : List BlockId}

theorem leads_iff {source target : BlockId} :
    function.Leads source target ↔ target ∈ (FlowGraph.ofFunction function).successors source :=
  FlowGraph.mem_successors.symm

theorem leads_eq (function : Function) :
    function.Leads = fun source target =>
      target ∈ (FlowGraph.ofFunction function).successors source :=
  funext fun _ => funext fun _ => propext leads_iff

theorem Leads.source_lt {source target : BlockId} (leads : function.Leads source target) :
    source < function.blocks.length := by
  obtain ⟨_, found, _⟩ := leads
  exact (List.getElem?_eq_some_iff.mp found).1

theorem Leads.target_lt {source target : BlockId} (leads : function.Leads source target) :
    target < function.blocks.length := by
  obtain ⟨_, _, _, low⟩ := leads
  exact low

namespace Path

theorem single (inside : first < function.blocks.length) : function.Path [first] first first where
  chain := List.isChain_singleton first
  head := rfl
  last := rfl
  inside := by simpa using inside

theorem concat (path : function.Path blocks first last) (leads : function.Leads last next) :
    function.Path (blocks ++ [next]) first next where
  chain := by
    refine List.isChain_append.mpr
      ⟨path.chain, List.isChain_singleton next, fun source final target start => ?_⟩
    obtain rfl : last = source := Option.some.inj (path.last.symm.trans final)
    obtain rfl : next = target := Option.some.inj start
    exact leads
  head := by rw [List.head?_append, path.head, Option.some_or]
  last := List.getLast?_concat
  inside := by
    intro block member
    rcases List.mem_append.mp member with earlier | here
    · exact path.inside block earlier
    · exact List.mem_singleton.mp here ▸ leads.target_lt

theorem first_mem (path : function.Path blocks first last) : first ∈ blocks :=
  List.mem_of_head? path.head

theorem last_mem (path : function.Path blocks first last) : last ∈ blocks :=
  List.mem_of_getLast? path.last

/-- A path is a single block, or a shorter path and one more block. -/
theorem induction_last {motive : List BlockId → BlockId → Prop}
    (path : function.Path blocks first last) (single : motive [first] first)
    (concat : ∀ blocks last next, function.Path blocks first last → function.Leads last next →
      motive blocks last →
      motive (blocks ++ [next]) next) : motive blocks last := by
  induction blocks using List.reverseRecOn generalizing last with
  | nil => exact absurd path.head nofun
  | append_singleton earlier block ih =>
    obtain rfl : block = last := Option.some.inj (List.getLast?_concat.symm.trans path.last)
    cases before : earlier.getLast? with
    | none =>
      obtain rfl := List.getLast?_eq_none_iff.mp before
      obtain rfl : block = first := Option.some.inj path.head
      exact single
    | some source =>
      obtain ⟨chain, _, leads⟩ := List.isChain_append.mp path.chain
      have start : earlier.head? = some first := by
        have head := path.head
        cases earlier with
        | nil => simp at before
        | cons start rest => exact head
      have shorter : function.Path earlier first source :=
        ⟨chain, start, before, fun other member =>
          path.inside other (List.mem_append_left _ member)⟩
      exact concat earlier source block shorter (leads source before block rfl) (ih shorter)

end Path

theorem exists_path_iff (function : Function) (first last : BlockId) (holds : BlockId → Prop) :
    (∃ blocks, function.Path blocks first last ∧ ∀ block ∈ blocks, holds block) ↔
      (first < function.blocks.length ∧ holds first) ∧
        Relation.ReflTransGen (fun source target => function.Leads source target ∧ holds target)
          first last := by
  constructor
  · rintro ⟨blocks, path, all⟩
    refine ⟨⟨path.inside first path.first_mem, all first path.first_mem⟩, ?_⟩
    refine path.induction_last (motive := fun blocks last => (∀ block ∈ blocks, holds block) →
      Relation.ReflTransGen
        (fun source target => function.Leads source target ∧ holds target) first last)
      (fun _ => .refl) (fun blocks last next _ leads way all => ?_) all
    obtain ⟨earlier, here⟩ := List.forall_mem_append.mp all
    exact (way earlier).tail ⟨leads, here next List.mem_cons_self⟩
  · rintro ⟨⟨inside, here⟩, way⟩
    induction way with
    | refl => exact ⟨[first], .single inside, by simpa using here⟩
    | @tail last next _ leads ih =>
      obtain ⟨blocks, path, all⟩ := ih
      refine ⟨blocks ++ [next], path.concat leads.1, List.forall_mem_append.mpr ⟨all, ?_⟩⟩
      simpa using leads.2

theorem exists_path_iff_reflTransGen : (∃ blocks, function.Path blocks first last) ↔
    first < function.blocks.length ∧ Relation.ReflTransGen function.Leads first last := by
  simpa using exists_path_iff function first last fun _ => True

theorem exists_path_iff_transGen : (∃ blocks, function.Path blocks first last ∧ 1 < blocks.length) ↔
    Relation.TransGen function.Leads first last := by
  constructor
  · rintro ⟨blocks, path, long⟩
    refine path.induction_last (motive := fun blocks last => 1 < blocks.length →
      Relation.TransGen function.Leads first last) (fun long => absurd long (Nat.lt_irrefl 1))
        (fun blocks last next path leads _ _ => ?_) long
    exact .tail' (exists_path_iff_reflTransGen.mp ⟨blocks, path⟩).2 leads
  · intro way
    obtain ⟨_, start, _⟩ := Relation.TransGen.head'_iff.mp way
    obtain ⟨before, earlier, leads⟩ := Relation.TransGen.tail'_iff.mp way
    obtain ⟨blocks, path⟩ := exists_path_iff_reflTransGen.mpr ⟨start.source_lt, earlier⟩
    have some := List.length_pos_of_mem path.first_mem
    exact ⟨blocks ++ [last], path.concat leads, by simpa using some⟩

end Function

theorem FlowGraph.mem_reversePostorder_iff {function : Function} {id : BlockId} :
    id ∈ (ofFunction function).reversePostorder ↔ ∃ blocks,
      function.Path blocks function.entry id := by
  constructor
  · intro reached
    have inside := inside_of_mem_reversePostorder reached
    refine forall_mem_reversePostorder (fun id => ∃ blocks, function.Path blocks function.entry id)
      ⟨_, .single inside⟩ ?_ id reached
    rintro id ⟨blocks, path⟩ target edge
    exact ⟨_, path.concat (Function.leads_iff.mpr edge)⟩
  · rintro ⟨blocks, path⟩
    exact path.induction_last (motive := fun _ id => id ∈ (ofFunction function).reversePostorder)
      (entry_mem_reversePostorder (path.inside _ path.first_mem))
      fun _ _ _ _ leads reached => mem_reversePostorder_of_next reached
      (Function.leads_iff.mp leads)

namespace Function

variable {function : Function} {block other source : BlockId}

theorem Dominates.reached (dominates : function.Dominates block other) :
    other ∈ (FlowGraph.ofFunction function).reversePostorder :=
  FlowGraph.mem_reversePostorder_iff.mpr dominates.1

theorem dominates_self (reached : block ∈ (FlowGraph.ofFunction function).reversePostorder) :
    function.Dominates block block :=
  ⟨FlowGraph.mem_reversePostorder_iff.mp reached, fun _ path => path.last_mem⟩

theorem Dominates.eq_of_entry (dominates : function.Dominates block function.entry) :
    block = function.entry := by
  have inside := FlowGraph.inside_of_mem_reversePostorder dominates.reached
  exact List.mem_singleton.mp (dominates.2 _ (.single inside))

theorem Dominates.of_leads (dominates : function.Dominates block other)
    (leads : function.Leads source other) (apart : block ≠ other)
    (reached : source ∈ (FlowGraph.ofFunction function).reversePostorder) :
    function.Dominates block source := by
  refine ⟨FlowGraph.mem_reversePostorder_iff.mp reached, fun blocks path => ?_⟩
  have further := dominates.2 _ (path.concat leads)
  simpa [apart] using further

end Function

end Covenant
