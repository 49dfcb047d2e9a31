import Covenant.Proofs.Code.DominatorTree
import Covenant.Proofs.Code.Paths

/-!
Rounds through the blocks, in each of which a block is given the closest block above all that lead
to it. A round only ever moves the parent of a block up, to a block above its old parent, and no
dominator of a block is ever lost from above it.

That parents only move up hangs on what holds in the middle of a round: the parent of a block is no
higher than the closest block above all that lead to it, as they are at that time; and for what lies
above the parent and has not been gone past in this round, one of the blocks that lead to it from
earlier in the order lies below that, too.
-/

namespace Covenant

namespace DominatorTree

variable {tree : DominatorTree} {entry upper block other each : BlockId}

/-! A block is given a parent. -/

theorem parent?_give_self (inside : block < tree.parents.length) :
    (tree.give block upper).parent? block = some upper := by
  simp [give, parent?, inside]

theorem parent?_give_other (apart : other ≠ block) :
    (tree.give block upper).parent? other = tree.parent? other := by
  simp [give, parent?, Ne.symm apart]

structure Takes (tree : DominatorTree) (entry block upper : BlockId) : Prop where
  rooted : tree.Rooted entry
  inside : block < tree.parents.length
  member : block ∈ tree.order
  below : block ≠ entry
  known : tree.Known upper
  earlier : tree.place upper < tree.place block
  rises : ∀ parent, tree.parent? block = some parent → tree.Above upper parent

namespace Takes

theorem known_give (takes : tree.Takes entry block upper) :
    (tree.give block upper).Known each ↔ each = block ∨ tree.Known each := by
  by_cases same : each = block
  · subst same
    simp [Known, parent?_give_self takes.inside]
  · simp [Known, parent?_give_other same, same]

theorem parent?_cases (takes : tree.Takes entry block upper) {parent : BlockId}
    (found : (tree.give block upper).parent? each = some parent) :
    each = block ∧ parent = upper ∨ each ≠ block ∧ tree.parent? each = some parent := by
  by_cases same : each = block
  · subst same
    exact .inl ⟨rfl, (Option.some.inj ((parent?_give_self takes.inside).symm.trans found)).symm⟩
  · exact .inr ⟨same, (parent?_give_other same).symm.trans found⟩

theorem rooted_give (takes : tree.Takes entry block upper) :
    (tree.give block upper).Rooted entry where
  root := by rw [parent?_give_other (Ne.symm takes.below), takes.rooted.root]
  first := takes.rooted.first
  known each known := by
    rcases takes.known_give.mp known with rfl | known
    · exact takes.member
    · exact takes.rooted.known each known
  rises each parent found apart := by
    rcases takes.parent?_cases found with ⟨rfl, rfl⟩ | ⟨_, found⟩
    · exact ⟨takes.known_give.mpr (.inr takes.known), takes.earlier⟩
    · obtain ⟨known, lower⟩ := takes.rooted.rises each parent found apart
      exact ⟨takes.known_give.mpr (.inr known), lower⟩

theorem above_give (takes : tree.Takes entry block upper) (above : tree.Above other each)
    (clear : ¬ tree.Above block each ∨ tree.place block ≤ tree.place other) :
    (tree.give block upper).Above other each := by
  induction above with
  | refl => exact .refl
  | @step each parent found apart above ih =>
    have different : each ≠ block := by
      rintro rfl
      rcases clear with never | high
      · exact never .refl
      · have low := takes.rooted.place_le above
        have lower := (takes.rooted.rises each parent found takes.below).2
        omega
    refine .step ((parent?_give_other different).trans found) apart (ih ?_)
    exact clear.imp_left fun never above => never (.step found apart above)

theorem above_give_of_lt (takes : tree.Takes entry block upper) (above : tree.Above other each)
    (lower : tree.place each < tree.place block) : (tree.give block upper).Above other each :=
  takes.above_give above
    (.inl fun passes => absurd (takes.rooted.place_le passes) (Nat.not_le.mpr lower))

theorem above_of_give (takes : tree.Takes entry block upper)
    (above : (tree.give block upper).Above other each) (known : tree.Known each) :
    tree.Above other each := by
  induction above with
  | refl => exact .refl
  | @step each parent found apart _ ih =>
    rcases takes.parent?_cases found with ⟨rfl, rfl⟩ | ⟨_, found⟩
    · -- where the parent has changed, the old one lies below the new one
      obtain ⟨old, had⟩ := known
      have lower := (takes.rooted.rises each old had takes.below).2
      exact .step had (fun same => Nat.lt_irrefl _ (same ▸ lower))
        ((ih takes.known).trans (takes.rises old had))
    · have below : each ≠ entry := by
        rintro rfl
        exact apart (Option.some.inj (found.symm.trans takes.rooted.root))
      exact .step found apart (ih (takes.rooted.rises each parent found below).1)

end Takes

end DominatorTree

namespace FlowGraph

open DominatorTree

variable {function : Function} {done : Nat} {tree : DominatorTree} {block parent upper : BlockId}

structure Stage (function : Function) (done : Nat) (tree : DominatorTree) : Prop where
  order : tree.order = (ofFunction function).reversePostorder
  size : tree.parents.length = function.blocks.length
  rooted : tree.Rooted function.entry
  known : ∀ block ∈ tree.order, tree.place block < done → tree.Known block
  dominated : ∀ block parent, tree.parent? block = some parent → block ≠ function.entry →
    ∀ upper, function.Dominates upper block → upper ≠ block → function.Dominates upper parent
  deep : ∀ block parent, tree.parent? block = some parent → block ≠ function.entry → ∀ upper,
    (∀ source, function.Leads source block ∧ tree.Known source → tree.Above upper source) →
      tree.Above upper parent
  spread : ∀ block parent, tree.parent? block = some parent → block ≠ function.entry → ∀ upper,
    tree.Above upper parent → tree.place block < done ∨ done ≤ tree.place upper →
      ∃ source, (function.Leads source block ∧ tree.Known source) ∧ tree.place source <
        tree.place block ∧
        tree.Above upper source

namespace Stage

theorem above_of_dominates (stage : Stage function done tree) (known : tree.Known block)
    (dominates : function.Dominates upper block) : tree.Above upper block := by
  refine stage.rooted.induction_up (motive := fun block => function.Dominates upper block →
    tree.Above upper block) (fun dominates => dominates.eq_of_entry ▸ .refl)
      (fun block parent below found _ above dominates => ?_) known dominates
  by_cases same : upper = block
  · exact same ▸ .refl
  · have lower := (stage.rooted.rises block parent found below).2
    exact .step found (fun same => Nat.lt_irrefl _ (same ▸ lower))
      (above (stage.dominated block parent found below upper dominates same))

theorem dominates_of_above (stage : Stage function done tree) {other : BlockId}
    (above : tree.Above other block) (dominates : function.Dominates upper block)
    (known : tree.Known block) (beyond : tree.Above upper other) :
    function.Dominates upper other := by
  induction above with
  | refl => exact dominates
  | @step block parent found apart above ih =>
    have below : block ≠ function.entry := by
      rintro rfl
      exact apart (Option.some.inj (found.symm.trans stage.rooted.root))
    obtain ⟨further, lower⟩ := stage.rooted.rises block parent found below
    refine ih (stage.dominated block parent found below upper dominates ?_) further
    rintro rfl
    have first := stage.rooted.place_le above
    have second := stage.rooted.place_le beyond
    omega

theorem leads_reached (stage : Stage function done tree) {source : BlockId}
    (known : tree.Known source) :
    source ∈ (ofFunction function).reversePostorder :=
  stage.order ▸ stage.rooted.known source known

theorem exists_source (stage : Stage function done tree) (member : block ∈ tree.order)
    (below : block ≠ function.entry) (next : tree.place block ≤ done) :
    ∃ source, (function.Leads source block ∧ tree.Known source) ∧ tree.place source <
      tree.place block := by
  obtain ⟨source, reached, edge, earlier⟩ := exists_earlier (stage.order ▸ member) below
  have lower : tree.place source < tree.place block := by
    rw [place, place, stage.order]
    exact earlier
  exact ⟨source,
    ⟨Function.leads_iff.mpr edge, stage.known source (stage.order ▸ reached) (by omega)⟩, lower⟩

theorem takes (stage : Stage function done tree) (member : block ∈ tree.order)
    (below : block ≠ function.entry) (next : tree.place block ≤ done)
    (meets : tree.Meets (fun source => function.Leads source block ∧ tree.Known source) upper) :
    tree.Takes function.entry block upper where
  rooted := stage.rooted
  inside := by
    obtain ⟨source, ⟨leads, _⟩, _⟩ := stage.exists_source member below next
    exact stage.size ▸ leads.target_lt
  member := member
  below := below
  known := meets.known
  earlier := by
    obtain ⟨source, leads, lower⟩ := stage.exists_source member below next
    have high := stage.rooted.place_le (meets.above source leads)
    omega
  rises parent found := stage.deep block parent found below upper meets.above

theorem deep_give_self (takes : tree.Takes function.entry block upper)
    (meets : tree.Meets (fun source => function.Leads source block ∧ tree.Known source) upper)
    {other : BlockId}
    (above : ∀ source, function.Leads source block ∧ (tree.give block upper).Known source →
      (tree.give block upper).Above other source) : (tree.give block upper).Above other upper := by
  refine takes.above_give_of_lt (meets.closest other fun source among => ?_) takes.earlier
  exact takes.above_of_give (above source ⟨among.1, takes.known_give.mpr (.inr among.2)⟩) among.2

theorem deep_give_other (stage : Stage function done tree)
    (takes : tree.Takes function.entry block upper) (next : tree.place block = done)
    {target : BlockId} (found : tree.parent? target = some parent)
    (below : target ≠ function.entry) {other : BlockId}
    (above : ∀ source, function.Leads source target ∧ (tree.give block upper).Known source →
      (tree.give block upper).Above other source) : (tree.give block upper).Above other parent := by
  have before : tree.Above other parent :=
    stage.deep target parent found below other fun source among =>
    takes.above_of_give (above source ⟨among.1, takes.known_give.mpr (.inr among.2)⟩) among.2
  by_cases clear : ¬ tree.Above block parent ∨ tree.place block ≤ tree.place other
  · exact takes.above_give before clear
  · obtain ⟨passes, lower⟩ : tree.Above block parent ∧ tree.place other < tree.place block := by
      simpa only [not_or, not_not, Nat.not_le] using clear
    obtain ⟨source, among, _, under⟩ := stage.spread target parent found below block passes
      (.inr (Nat.le_of_eq next.symm))
    have one := above source ⟨among.1, takes.known_give.mpr (.inr among.2)⟩
    have two := takes.above_give under (.inr (Nat.le_refl _))
    rcases Rooted.linear one two with higher | deeper
    · exact higher.trans (takes.above_give passes (.inr (Nat.le_refl _)))
    · have known :=
        stage.rooted.known_of_above before (stage.rooted.rises target parent found below).1
      have high := stage.rooted.place_le (takes.above_of_give deeper known)
      omega

theorem spread_give_other (stage : Stage function done tree)
    (takes : tree.Takes function.entry block upper) (next : tree.place block = done)
    {target : BlockId} (different : target ≠ block) (found : tree.parent? target = some parent)
    (below : target ≠ function.entry) {other : BlockId}
    (above : (tree.give block upper).Above other parent)
    (clear : tree.place target < done + 1 ∨ done + 1 ≤ tree.place other) :
    ∃ source, (function.Leads source target ∧ (tree.give block upper).Known source) ∧
      tree.place source < tree.place target ∧ (tree.give block upper).Above other source := by
  obtain ⟨known, lower⟩ := stage.rooted.rises target parent found below
  have listed := stage.rooted.known target ⟨parent, found⟩
  have moved : tree.place target ≠ tree.place block :=
    fun same => different ((List.idxOf_inj listed).mp same)
  obtain ⟨source, among, earlier, under⟩ := stage.spread target parent found below other
    (takes.above_of_give above known) (by omega)
  refine ⟨source, ⟨among.1, takes.known_give.mpr (.inr among.2)⟩, earlier, ?_⟩
  rcases clear with before | after
  · exact takes.above_give_of_lt under (by omega)
  · exact takes.above_give under (.inr (by omega))

/-- Giving the next block its parent takes a round one block further. -/
theorem give (stage : Stage function done tree) (member : block ∈ tree.order)
    (below : block ≠ function.entry) (next : tree.place block = done)
    (meets : tree.Meets (fun source => function.Leads source block ∧ tree.Known source) upper) :
    Stage function (done + 1) (tree.give block upper) := by
  have takes := stage.takes member below (Nat.le_of_eq next) meets
  obtain ⟨first, among, lower⟩ := stage.exists_source member below (Nat.le_of_eq next)
  exact {
    order := stage.order
    size := by rw [DominatorTree.give, List.length_set, stage.size]
    rooted := takes.rooted_give
    known := by
      intro target listed lower
      refine takes.known_give.mpr ?_
      rcases Nat.lt_succ_iff_lt_or_eq.mp lower with earlier | here
      · exact .inr (stage.known target listed earlier)
      · exact .inl ((List.idxOf_inj listed).mp (here.trans next.symm))
    dominated := by
      intro target parent found apart other dominates different
      rcases takes.parent?_cases found with ⟨rfl, rfl⟩ | ⟨_, found⟩
      · -- what dominates the block dominates, and is above, all that lead to it
        have sources (source : BlockId) (among : function.Leads source target ∧ tree.Known source) :
            function.Dominates other source :=
          dominates.of_leads among.1 different (stage.leads_reached among.2)
        have beyond := meets.closest other fun source among => stage.above_of_dominates among.2
          (sources source among)
        exact stage.dominates_of_above (meets.above first among)
          (sources first among) among.2 beyond
      · exact stage.dominated target parent found apart other dominates different
    deep := by
      intro target parent found apart other above
      rcases takes.parent?_cases found with ⟨rfl, rfl⟩ | ⟨_, found⟩
      · exact deep_give_self takes meets above
      · exact stage.deep_give_other takes next found apart above
    spread := by
      intro target parent found apart other above clear
      rcases takes.parent?_cases found with ⟨rfl, rfl⟩ | ⟨different, found⟩
      · have high := (takes.above_of_give above meets.known).trans (meets.above first among)
        exact ⟨first, ⟨among.1, takes.known_give.mpr (.inr among.2)⟩, lower,
          takes.above_give_of_lt high lower⟩
      · exact stage.spread_give_other takes next different found apart above clear }

end Stage

end FlowGraph

/-! What a round changes. -/

namespace DominatorTree

variable {tree : DominatorTree} {entry upper block : BlockId}

def level (tree : DominatorTree) (block : BlockId) : Nat :=
  match tree.parent? block with
  | some parent => tree.place parent
  | none => tree.order.length

def height (tree : DominatorTree) : Nat := FlowGraph.weigh tree.level tree.order

theorem height_le (tree : DominatorTree) : tree.height ≤ tree.order.length * tree.order.length := by
  refine FlowGraph.weigh_le_of_le (fun block => ?_) tree.order
  unfold level
  split
  · exact List.idxOf_le_length
  · exact Nat.le_refl _

theorem Takes.height_give (takes : tree.Takes entry block upper) :
    tree.give block upper = tree ∨ (tree.give block upper).height < tree.height := by
  by_cases same : tree.parent? block = some upper
  · left
    have found : tree.parents[block]? = some (some upper) := by
      rw [List.getElem?_eq_getElem takes.inside]
      simpa [parent?, takes.inside] using same
    obtain ⟨_, found⟩ := List.getElem?_eq_some_iff.mp found
    rw [give, ← found, List.set_getElem_self]
  · right
    have elsewhere {each : BlockId} (apart : each ≠ block) : (tree.give block upper).level each =
        tree.level each := by
      rw [level, parent?_give_other apart]
      rfl
    have here : (tree.give block upper).level block = tree.place upper := by
      rw [level, parent?_give_self takes.inside]
      rfl
    have lower : (tree.give block upper).level block < tree.level block := by
      rw [here, level]
      cases found : tree.parent? block with
      | none => exact takes.rooted.place_lt takes.known
      | some parent =>
        have high := takes.rooted.place_le (takes.rises parent found)
        refine Nat.lt_of_le_of_ne high fun equal => same ?_
        rw [found, takes.rooted.eq_of_place_eq takes.known equal]
    refine FlowGraph.weigh_lt (fun each => ?_) takes.member lower
    by_cases same : each = block
    · subst same
      exact Nat.le_of_lt lower
    · exact Nat.le_of_eq (elsewhere same)

end DominatorTree

namespace FlowGraph

open DominatorTree

variable {function : Function} {done fuel : Nat} {tree : DominatorTree} {block upper : BlockId}

namespace Stage

theorem revise?_eq (stage : Stage function done tree) (member : block ∈ tree.order)
    (below : block ≠ function.entry) (next : tree.place block ≤ done)
    (enough : 2 * tree.order.length ≤ fuel) :
    ∃ upper, tree.Meets (fun source => function.Leads source block ∧ tree.Known source) upper ∧
      (ofFunction function).revise? fuel tree block = some (tree.give block upper) := by
  have start : ∀ common, none = some common → tree.Meets (fun _ => False) common := nofun
  obtain ⟨result, answer, meets, nothing⟩ :=
    stage.rooted.meetAll?_eq enough start (fun _ _ => id) ((ofFunction function).predecessors block)
  have same : ∀ source,
    (False ∨ source ∈ (ofFunction function).predecessors block ∧ tree.Known source) ↔
      function.Leads source block ∧ tree.Known source := by
    intro source
    rw [false_or, mem_predecessors, Function.leads_iff]
    exact and_congr_left fun _ => ⟨And.right, fun edge => ⟨lt_size_of_next edge, edge⟩⟩
  cases result with
  | none =>
    obtain ⟨source, among, _⟩ := stage.exists_source member below next
    exact absurd ((same source).mpr among) (nothing rfl source)
  | some upper =>
    refine ⟨upper, (meets upper rfl).congr same, ?_⟩
    simp only [revise?, answer, Option.bind_eq_bind, Option.bind_some]
    rfl

/-- Going through further blocks changes nothing, or moves parents up. -/
theorem foldlM_revise? (stage : Stage function done tree) (begun : 0 < done) {rest : List BlockId}
    (further : tree.order.drop done = rest) (enough : 2 * tree.order.length ≤ fuel) :
    ∃ later, rest.foldlM ((ofFunction function).revise? fuel) tree = some later ∧
      Stage function (done + rest.length) later ∧
      (later = tree ∧ (∀ block ∈ rest, (ofFunction function).revise? fuel tree block = some tree) ∨
        later.height < tree.height) := by
  induction rest generalizing done tree with
  | nil => exact ⟨tree, rfl, stage, .inl ⟨rfl, nofun⟩⟩
  | cons block rest ih =>
    have found : tree.order[done]? = some block := by
      rw [← Nat.add_zero done, ← List.getElem?_drop, further]
      rfl
    obtain ⟨low, here⟩ := List.getElem?_eq_some_iff.mp found
    have nodup : tree.order.Nodup := stage.order ▸ nodup_reversePostorder function
    have next : tree.place block = done := by
      rw [place, ← here]
      exact nodup.idxOf_getElem done low
    have member : block ∈ tree.order := List.mem_of_getElem? found
    have below : block ≠ function.entry := by
      rintro rfl
      have first := stage.rooted.place_entry
      omega
    obtain ⟨upper, meets, revised⟩ := stage.revise?_eq member below (Nat.le_of_eq next) enough
    have given := stage.give member below next meets
    have later : (tree.give block upper).order.drop (done + 1) = rest := by
      have tail : tree.order.drop (done + 1) = rest := by
        rw [← List.drop_drop, further, List.drop_one, List.tail_cons]
      exact tail
    obtain ⟨final, goes, stands, moves⟩ := ih given (Nat.succ_pos _) later enough
    refine ⟨final, ?_, ?_, ?_⟩
    · rw [List.foldlM_cons, revised]
      exact goes
    · rw [List.length_cons, Nat.add_comm rest.length, ← Nat.add_assoc]
      exact stands
    · rcases (stage.takes member below (Nat.le_of_eq next) meets).height_give with same | lower
      · rw [same] at moves revised
        rcases moves with unchanged | further
        · exact .inl ⟨unchanged.1, List.forall_mem_cons.mpr ⟨revised, unchanged.2⟩⟩
        · exact .inr further
      · right
        rcases moves with ⟨rfl, _⟩ | further
        · exact lower
        · exact Nat.lt_trans further lower

theorem restart (stage : Stage function done tree) (all : tree.order.length ≤ done) :
    Stage function 1 tree where
  order := stage.order
  size := stage.size
  rooted := stage.rooted
  known block member _ :=
    stage.known block member (Nat.lt_of_lt_of_le (List.idxOf_lt_length_of_mem member) all)
  dominated := stage.dominated
  deep := stage.deep
  spread block parent found below upper above _ := by
    refine stage.spread block parent found below upper above (.inl ?_)
    exact Nat.lt_of_lt_of_le (stage.rooted.place_lt ⟨parent, found⟩) all

end Stage

structure Settled (function : Function) (tree : DominatorTree) : Prop where
  stage : Stage function 1 tree
  known : ∀ block ∈ tree.order, tree.Known block
  meets : ∀ block ∈ tree.order, block ≠ function.entry → ∃ upper, tree.parent? block = some upper ∧
    tree.Meets (fun source => function.Leads source block ∧ tree.Known source) upper

theorem Stage.settled (stage : Stage function 1 tree)
    (stands : Stage function (1 + tree.order.tail.length) tree)
    (enough : 2 * tree.order.length ≤ fuel)
    (unchanged : ∀ block ∈ tree.order.tail,
      (ofFunction function).revise? fuel tree block = some tree) :
    Settled function tree := by
  have length : tree.order.length ≤ 1 + tree.order.tail.length := by
    rw [List.length_tail]
    omega
  refine ⟨stage, fun block member => ?_, fun block member below => ?_⟩
  · exact stands.known block member (Nat.lt_of_lt_of_le (List.idxOf_lt_length_of_mem member) length)
  · have tail : block ∈ tree.order.tail := by
      obtain ⟨rest, order⟩ := List.head?_eq_some_iff.mp stage.rooted.first
      rw [order] at member ⊢
      exact (List.mem_cons.mp member).resolve_left below
    have last : tree.place block ≤ 1 + tree.order.tail.length :=
      Nat.le_trans List.idxOf_le_length length
    obtain ⟨upper, meets, revised⟩ := stands.revise?_eq member below last enough
    have same : tree.give block upper = tree :=
      Option.some.inj (revised.symm.trans (unchanged block tail))
    refine ⟨upper, ?_, meets⟩
    rw [← same]
    exact parent?_give_self (stands.takes member below last meets).inside

theorem Stage.settle?_eq (stage : Stage function 1 tree) (enough : 2 * tree.order.length ≤ fuel)
    {rounds : Nat} (often : tree.height < rounds) :
    ∃ final, (ofFunction function).settle? fuel rounds tree = some final ∧
      Settled function final := by
  induction rounds generalizing tree with
  | zero => omega
  | succ rounds ih =>
    obtain ⟨later, goes, stands, moves⟩ := stage.foldlM_revise? Nat.one_pos (List.drop_one) enough
    have round : (ofFunction function).round? fuel tree = some later := goes
    simp only [settle?, round, Option.bind_eq_bind, Option.bind_some]
    rcases moves with ⟨rfl, unchanged⟩ | lower
    · rw [if_pos (beq_self_eq_true later)]
      exact ⟨later, rfl, stage.settled stands enough unchanged⟩
    · have different : ¬ (later == tree) = true :=
        fun equal => Nat.lt_irrefl _ (eq_of_beq equal ▸ lower)
      have same : later.order = tree.order := stands.order.trans stage.order.symm
      have all : later.order.length ≤ 1 + tree.order.tail.length := by
        rw [same, List.length_tail]
        omega
      rw [if_neg different]
      exact ih (stands.restart all) (same ▸ enough) (by omega)

end FlowGraph

end Covenant
