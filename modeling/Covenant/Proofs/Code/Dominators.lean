import Covenant.Proofs.Code.DominatorRounds
import Mathlib.Data.List.Perm.Subperm

/-!
The search for dominators ends and finds them. Nothing changes any more at some time, and then what
is above a block is above all blocks that lead to it, and thus on every path to it; and all
dominators of a block are above it.
-/

namespace Covenant

namespace FlowGraph

open DominatorTree

variable {function : Function} {tree : DominatorTree} {block upper : BlockId}

theorem length_reversePostorder_le (function : Function) :
    (ofFunction function).reversePostorder.length ≤ function.blocks.length := by
  have inside : (ofFunction function).reversePostorder ⊆ List.range function.blocks.length := by
    intro block reached
    obtain ⟨blocks, path⟩ := mem_reversePostorder_iff.mp reached
    exact List.mem_range.mpr (path.inside block path.last_mem)
  have shorter := (List.subperm_of_subset (nodup_reversePostorder function) inside).length_le
  rwa [List.length_range] at shorter

theorem parent?_startTree (inside : function.entry < function.blocks.length) (order : List BlockId)
    (block : BlockId) :
    ((ofFunction function).startTree order).parent? block = if block = function.entry then
      some function.entry else none := by
  have start : (ofFunction function).entry = function.entry := rfl
  simp only [startTree, parent?, List.getD_eq_getElem?_getD, List.getElem?_set,
    List.length_replicate, size_ofFunction, start, inside, if_true]
  by_cases same : block = function.entry
  · simp [same]
  · rw [if_neg (Ne.symm same), if_neg same]
    cases found : (List.replicate function.blocks.length (none : Option BlockId))[block]? with
    | none => rfl
    | some held => simpa using (List.mem_replicate.mp (List.mem_of_getElem? found)).2

theorem stage_start (inside : function.entry < function.blocks.length) :
    Stage function 1 ((ofFunction function).startTree (ofFunction function).reversePostorder) := by
  have parents := parent?_startTree inside (ofFunction function).reversePostorder
  have alone {block parent : BlockId}
      (found : ((ofFunction function).startTree (ofFunction function).reversePostorder).parent?
        block = some parent)
      (below : block ≠ function.entry) : False := by
    rw [parents, if_neg below] at found
    simp at found
  have rooted : ((ofFunction function).startTree (ofFunction function).reversePostorder).Rooted
      function.entry := {
    root := by rw [parents, if_pos rfl]
    first := head_reversePostorder inside
    known := by
      rintro block ⟨parent, found⟩
      by_contra outside
      exact alone found fun same => outside (same ▸ entry_mem_reversePostorder inside)
    rises := fun block parent found below => (alone found below).elim }
  exact {
    order := rfl
    size := by simp [startTree, size_ofFunction]
    rooted
    known := fun block member low =>
      rooted.eq_of_place_eq rooted.known_entry
        (rooted.place_entry.trans (Nat.lt_one_iff.mp low).symm) ▸ rooted.known_entry
    dominated := fun block parent found below => (alone found below).elim
    deep := fun block parent found below => (alone found below).elim
    spread := fun block parent found below => (alone found below).elim }

namespace Settled

theorem mem_of_above (settled : Settled function tree) {blocks : List BlockId}
    (path : function.Path blocks function.entry block) (above : tree.Above upper block) :
    upper ∈ blocks := by
  have order := settled.stage.order
  refine path.induction_last (motive := fun blocks block => ∀ upper, tree.Above upper block →
    upper ∈ blocks) ?_ ?_ upper above
  · intro upper above
    cases above with
    | refl => exact List.mem_cons_self
    | step found apart _ =>
      exact absurd (Option.some.inj (found.symm.trans settled.stage.rooted.root)) apart
  · intro blocks last next path leads earlier upper above
    by_cases same : upper = next
    · exact List.mem_append_right _ (same ▸ List.mem_cons_self)
    · refine List.mem_append_left _ ?_
      by_cases below : next = function.entry
      · subst below
        cases above with
        | refl => exact absurd rfl same
        | step found apart _ =>
          exact absurd (Option.some.inj (found.symm.trans settled.stage.rooted.root)) apart
      · have reached := mem_reversePostorder_iff.mpr ⟨_, path⟩
        have further := mem_reversePostorder_of_next reached (Function.leads_iff.mp leads)
        obtain ⟨parent, found, meets⟩ := settled.meets next (order ▸ further) below
        have known := settled.known last (order ▸ reached)
        exact earlier upper ((above.of_parent same found).trans (meets.above last ⟨leads, known⟩))

theorem above_iff (settled : Settled function tree) (member : block ∈ tree.order) :
    tree.Above upper block ↔ function.Dominates upper block := by
  refine ⟨fun above => ⟨?_, fun blocks path => settled.mem_of_above path above⟩, ?_⟩
  · exact mem_reversePostorder_iff.mp (settled.stage.order ▸ member)
  · exact settled.stage.above_of_dominates (settled.known block member)

theorem dominates_iff (settled : Settled function tree) :
    tree.dominates upper block = true ↔ function.Dominates upper block := by
  rw [settled.stage.rooted.dominates_iff settled.known]
  refine ⟨fun ⟨member, above⟩ => (settled.above_iff member).mp above, fun dominates => ?_⟩
  have member : block ∈ tree.order := settled.stage.order ▸ dominates.reached
  exact ⟨member, (settled.above_iff member).mpr dominates⟩

theorem exists_immediate (settled : Settled function tree) (member : block ∈ tree.order)
    (below : block ≠ function.entry) :
    ∃ parent, tree.parent? block = some parent ∧ tree.immediate? block = some parent ∧
      function.ImmediatelyDominates parent block := by
  have rooted := settled.stage.rooted
  obtain ⟨parent, found, meets⟩ := settled.meets block member below
  have apart : parent ≠ block :=
    fun same => Nat.lt_irrefl _ (same ▸ (rooted.rises block parent found below).2)
  have dominates := (settled.above_iff member).mp (.step found apart .refl)
  refine ⟨parent, found, by simp [immediate?, found, apart], ⟨dominates, apart⟩,
    fun upper further different => ?_⟩
  have above := (settled.above_iff member).mpr further
  exact (settled.above_iff (rooted.known parent meets.known)).mp (above.of_parent different found)

theorem immediate?_iff (settled : Settled function tree) :
    tree.immediate? block = some upper ↔ function.ImmediatelyDominates upper block := by
  have rooted := settled.stage.rooted
  constructor
  · intro given
    obtain ⟨found, apart⟩ := Option.filter_eq_some_iff.mp given
    have below : block ≠ function.entry := by
      rintro rfl
      have same : upper = function.entry := Option.some.inj (found.symm.trans rooted.root)
      simp [same] at apart
    obtain ⟨parent, _, answer, immediate⟩ :=
      settled.exists_immediate (rooted.known block ⟨upper, found⟩) below
    exact Option.some.inj (given.symm.trans answer) ▸ immediate
  · rintro ⟨⟨dominates, apart⟩, closest⟩
    have member : block ∈ tree.order := settled.stage.order ▸ dominates.reached
    have below : block ≠ function.entry := fun same => apart (same ▸ (same ▸ dominates).eq_of_entry)
    obtain ⟨parent, found, answer, ⟨above, different⟩, nearest⟩ :=
      settled.exists_immediate member below
    have known := (rooted.rises block parent found below).1
    have one := (settled.above_iff (rooted.known parent known)).mpr (nearest upper dominates apart)
    have two :=
      (settled.above_iff (settled.stage.order ▸ (closest parent above different).reached)).mpr
        (closest parent above different)
    rw [answer, rooted.antisymm known two one]

/-- There is only one tree in which nothing changes any more. -/
theorem unique {other : DominatorTree} (settled : Settled function tree)
    (also : Settled function other) : tree = other := by
  have order := settled.stage.order
  have same := also.stage.order
  have parents : ∀ block, tree.parent? block = other.parent? block := by
    intro block
    by_cases reached : block ∈ (ofFunction function).reversePostorder
    · by_cases start : block = function.entry
      · rw [start, settled.stage.rooted.root, also.stage.rooted.root]
      · obtain ⟨parent, found, _, immediate⟩ := settled.exists_immediate (order ▸ reached) start
        have given := also.immediate?_iff.mpr immediate
        rw [found, (Option.filter_eq_some_iff.mp given).1]
    · have none {tree : DominatorTree} (stage : Stage function 1 tree) :
          tree.parent? block = none := by
        by_contra known
        obtain ⟨parent, found⟩ := Option.ne_none_iff_exists'.mp known
        exact reached (stage.leads_reached ⟨parent, found⟩)
      rw [none settled.stage, none also.stage]
  have lists : tree.parents = other.parents := by
    refine List.ext_getElem (settled.stage.size.trans also.stage.size.symm) fun index low high => ?_
    simpa [parent?, low, high] using parents index
  obtain ⟨_, _⟩ := tree
  obtain ⟨_, _⟩ := other
  simp only at order same lists
  rw [order, same, lists]

end Settled

theorem dominators?_eq (inside : function.entry < function.blocks.length) :
    ∃ tree, Settled function tree ∧
      ∀ fuel, (ofFunction function).patience ≤ fuel → (ofFunction function).dominators? fuel =
        some tree := by
  have finds (fuel : Nat) (enough : (ofFunction function).patience ≤ fuel) :
      ∃ tree, Settled function tree ∧ (ofFunction function).dominators? fuel = some tree := by
    let order := (ofFunction function).reversePostorder
    have total := patience_eq (ofFunction function)
    rw [size_ofFunction] at total
    have short : order.length ≤ function.blocks.length := length_reversePostorder_le function
    have square := Nat.mul_le_mul short short
    have high : ((ofFunction function).startTree order).height ≤ order.length * order.length :=
      DominatorTree.height_le _
    have steps : 2 * ((ofFunction function).startTree order).order.length ≤ fuel :=
      Nat.le_trans (Nat.mul_le_mul_left 2 short) (by omega)
    have rounds : ((ofFunction function).startTree order).height < fuel := by omega
    obtain ⟨tree, ends, settled⟩ := (stage_start inside).settle?_eq steps rounds
    refine ⟨tree, settled, ?_⟩
    have found : (ofFunction function).reversePostorder? fuel = some order := by
      rw [reversePostorder?_eq inside enough, ← reversePostorder_eq inside]
    rw [dominators?, found]
    exact ends
  obtain ⟨tree, settled, _⟩ := finds _ (Nat.le_refl _)
  refine ⟨tree, settled, fun fuel enough => ?_⟩
  obtain ⟨other, also, ends⟩ := finds fuel enough
  rw [ends, settled.unique also]

theorem dominators?_of_outside (outside : ¬ function.entry < function.blocks.length) {fuel : Nat}
    (some? : 0 < fuel) :
    (ofFunction function).dominators? fuel = some ((ofFunction function).startTree []) := by
  obtain ⟨fuel, rfl⟩ := Nat.exists_eq_add_of_lt some?
  rw [dominators?, reversePostorder?_of_outside outside]
  simp only [Option.bind_eq_bind, Option.bind_some, settle?, round?, startTree, List.tail_nil,
    List.foldlM_nil]
  exact if_pos (beq_self_eq_true _)

theorem patience_pos (graph : FlowGraph) : 0 < graph.patience := by
  rw [patience_eq]
  omega

theorem dominators_of_outside (outside : ¬ function.entry < function.blocks.length) :
    (ofFunction function).dominators = (ofFunction function).startTree [] := by
  rw [dominators, dominators?_of_outside outside (patience_pos _), Option.getD_some]

theorem settled_dominators (inside : function.entry < function.blocks.length) :
    Settled function (ofFunction function).dominators := by
  obtain ⟨tree, settled, ends⟩ := dominators?_eq inside
  rwa [dominators, ends _ (Nat.le_refl _), Option.getD_some]

theorem dominators?_of_patience {fuel : Nat} (enough : (ofFunction function).patience ≤ fuel) :
    (ofFunction function).dominators? fuel = some (ofFunction function).dominators := by
  by_cases inside : function.entry < function.blocks.length
  · obtain ⟨tree, _, ends⟩ := dominators?_eq inside
    rw [ends fuel enough, dominators, ends _ (Nat.le_refl _), Option.getD_some]
  · rw [dominators_of_outside inside, dominators?_of_outside inside
      (Nat.lt_of_lt_of_le (patience_pos _) enough)]

theorem not_path_of_outside (outside : ¬ function.entry < function.blocks.length)
    {block : BlockId} :
    ¬ ∃ blocks, function.Path blocks function.entry block :=
  fun ⟨_, path⟩ => outside (path.inside _ path.first_mem)

theorem dominates_iff {block other : BlockId} :
    (ofFunction function).dominates block other = true ↔ function.Dominates block other := by
  by_cases inside : function.entry < function.blocks.length
  · exact (settled_dominators inside).dominates_iff
  · refine iff_of_false ?_ fun dominates => not_path_of_outside inside dominates.1
    simp [dominates, dominators_of_outside inside, startTree, DominatorTree.dominates]

theorem immediateDominator?_iff {block upper : BlockId} :
    (ofFunction function).immediateDominator? block = some upper ↔
      function.ImmediatelyDominates upper block := by
  by_cases inside : function.entry < function.blocks.length
  · exact (settled_dominators inside).immediate?_iff
  · refine iff_of_false ?_ fun immediate => not_path_of_outside inside immediate.1.1.1
    have alone : ((ofFunction function).startTree []).parents =
        List.replicate function.blocks.length none := by
      rw [startTree, size_ofFunction]
      refine List.set_eq_of_length_le ?_
      rw [List.length_replicate]
      exact Nat.le_of_not_lt inside
    have none : ((ofFunction function).startTree []).parent? block = none := by
      rw [parent?, alone, List.getD_eq_getElem?_getD, List.getElem?_replicate]
      split <;> rfl
    simp [immediateDominator?, dominators_of_outside inside, immediate?, none]

/-- The search for dominators ends, and so does going up from a block to the entry. One block
dominates another exactly if the other can be reached, but only through it; and every block that can
be reached, other than the entry, has a closest dominator, which is the one that is found. -/
theorem dominators_correct (function : Function) :
    let graph := ofFunction function
    (∀ fuel, graph.patience ≤ fuel → graph.dominators? fuel = some graph.dominators) ∧
    (∀ block other, graph.isReachable other = true →
      ∃ answer, graph.dominators.climbs? block (graph.dominators.order.length + 1) other =
        some answer) ∧
    (∀ block other, graph.dominates block other = true ↔ function.Dominates block other) ∧
    (∀ block upper, graph.immediateDominator? block = some upper ↔
      function.ImmediatelyDominates upper block) ∧
    ∀ block, (∃ blocks, function.Path blocks function.entry block) → block ≠ function.entry →
      ∃ upper, graph.immediateDominator? block = some upper := by
  refine ⟨fun fuel => dominators?_of_patience, fun block other reached => ?_,
    fun block other => dominates_iff, fun block upper => immediateDominator?_iff,
    fun block reached below => ?_⟩
  · have member : other ∈ (ofFunction function).reversePostorder := by
      simpa [isReachable] using reached
    have settled := settled_dominators (inside_of_mem_reversePostorder member)
    have known := settled.known other (settled.stage.order.symm ▸ member)
    obtain ⟨answer, ends, _⟩ :=
      settled.stage.rooted.climbs?_eq block known
        (Nat.lt_succ_of_lt (settled.stage.rooted.place_lt known))
    exact ⟨answer, ends⟩
  · have member := mem_reversePostorder_iff.mpr reached
    have settled := settled_dominators (inside_of_mem_reversePostorder member)
    obtain ⟨parent, _, answer, _⟩ :=
      settled.exists_immediate (settled.stage.order.symm ▸ member) below
    exact ⟨parent, answer⟩

end FlowGraph

end Covenant
