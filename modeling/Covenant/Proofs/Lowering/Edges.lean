import Covenant.Proofs.Code.Traversals
import Covenant.Proofs.Lowering.Headers
import Covenant.Proofs.Lowering.Outline
import Covenant.Proofs.Lowering.TypedBodies
import Covenant.Scan.Summary

/-!
How the blocks of a function lead to each other. A statement adds edges from the block that it
starts in and from the blocks that it starts itself, and only to the latter. So code comes to the
block behind a requirement only from the requirement, and to what stands behind a conditional only
from its condition if one of its sides reverts at once.
-/

namespace Covenant

/-! Building. -/

def Builder.outline (builder : Builder) : Outline :=
  ⟨builder.blocks.map fun block => block.terminator.map Located.node, builder.current⟩

namespace Build

open Builder

instance : Unaffected outline where
  emit := by
    intro builder instruction span
    refine congrArg (Outline.mk · builder.current) (List.ext_getElem? fun id => ?_)
    rw [List.getElem?_map, List.getElem?_map, getElem?_emit]
    cases builder.blocks[id]? with
    | none => rfl
    | some block =>
      simp only [Option.map_some, Option.some.injEq]
      split <;> rfl
  fresh := fun _ => rfl
  addLocal := fun _ _ _ => rfl

@[simp] theorem outline_withBlock (builder : Builder) :
    builder.withBlock.outline = builder.outline.withBlock := by
  simp [outline, Builder.withBlock, Outline.withBlock]

theorem count_outline (builder : Builder) : builder.outline.count = builder.blocks.length := by
  simp [outline, Outline.count]

theorem outline_moveTo (builder : Builder) (block : BlockId) :
    (builder.moveTo block).outline = builder.outline.moveTo block := rfl

@[simp] theorem outline_terminate (builder : Builder) (terminator : Terminator) (span : Span) :
    (builder.terminate terminator span).outline = builder.outline.terminate terminator := by
  refine congrArg (Outline.mk · builder.current) (List.ext_getElem? fun id => ?_)
  simp only [outline, Builder.terminate, List.getElem?_map, List.getElem?_modify]
  cases builder.blocks[id]? with
  | none => rfl
  | some block =>
    by_cases here : builder.current = id
    · cases ended : block.terminator <;> simp [here, ended]
    · simp [here]

theorem sound_withBlock {builder : Builder} (sound : builder.outline.Sound) :
    builder.withBlock.outline.Sound := by
  rw [outline_withBlock]
  exact sound.withBlock

theorem sound_terminate {builder : Builder} {terminator : Terminator}
    (sound : builder.outline.Sound)
    (inside : ∀ target ∈ terminator.successors, target < builder.outline.count) (span : Span) :
    (builder.terminate terminator span).outline.Sound := by
  rw [outline_terminate]
  exact sound.terminate inside

theorem sound_branch {builder : Builder} {thenBlock elseBlock : Nat}
    (sound : builder.outline.Sound) (thens : thenBlock < builder.outline.count)
    (elses : elseBlock < builder.outline.count) (value : ValueId) (span : Span) :
    (builder.terminate (.branch value thenBlock elseBlock) span).outline.Sound :=
  sound_terminate sound (successors_branch_lt thens elses) span

/-- Whether a step of building adds only edges from where it starts and from new blocks, and only to
new blocks. The ways back lead to blocks that test the given conditions. -/
def Develops (conditions : List Expression) (step : Build Unit) : Prop :=
  ∀ ⦃builder final : Builder⦄, builder.outline.Sound → step builder = .ok () final →
    builder.outline.Develops (final.Heads conditions) final.outline

variable {conditions more : List Expression}

theorem Quiet.develops {step : Build Unit} (quiet : Quiet outline step) :
    Develops conditions step := by
  intro builder final sound built
  rw [quiet.of_ok built]
  exact sound.develops

theorem Develops.bind {first rest : Build Unit} (before : Develops conditions first)
    (behind : Develops more rest) (spares : Spares rest) :
    Develops (conditions ++ more) (do first; rest) := by
  intro builder final sound built
  obtain ⟨_, middle, one, two⟩ := bind_eq_ok.mp built
  have start := (before sound one).mono fun id _ heads =>
    (heads.spares (spares two)).mono fun _ listed => List.mem_append_left more listed
  have rests := (behind (start.sound sound) two).mono fun id _ heads =>
    heads.mono fun _ listed => List.mem_append_right conditions listed
  exact start.trans rests

theorem develops_stop {terminator : Terminator} (stops : terminator.successors = []) (span : Span) :
    Develops conditions (terminate terminator span) := by
  intro builder final sound built
  obtain rfl := terminate_eq_ok.mp built
  rw [outline_terminate]
  exact sound.develops_terminate stops

theorem develops_returnStatement (value : Option Expression) (span : Span) :
    Develops conditions (returnStatement value span) := by
  intro builder final sound built
  simp only [returnStatement, bind_eq_ok, get_eq_ok] at built
  obtain ⟨_, _, ⟨rfl, rfl⟩, built⟩ := built
  cases value with
  | none =>
    cases returns : builder.returns with
    | none => exact develops_stop rfl span sound (by simpa [returns] using built)
    | some ty => simp [returns, fail_eq_ok] at built
  | some value =>
    cases returns : builder.returns with
    | none => simp [returns, fail_eq_ok] at built
    | some ty =>
      simp only [returns, bind_eq_ok] at built
      obtain ⟨result, middle, lowered, built⟩ := built
      have quiet : Quiet outline (typed value ty) := quiet_typed value ty
      have same := quiet.of_ok lowered
      rw [← same] at sound ⊢
      exact develops_stop rfl span sound built

theorem develops_guardStatement (condition : Expression) (kind : GuardKind)
    (message : Option String) (span : Span) :
    Develops conditions (guardStatement condition kind message span) := by
  intro builder final sound built
  simp only [guardStatement, bind_eq_ok, newBlock_eq_ok, terminate_eq_ok, switchTo_eq_ok] at built
  obtain ⟨value, middle, lowered, _, _, ⟨rfl, rfl⟩, _, _, rfl, rfl⟩ := built
  have quiet : Quiet outline (typed condition .bool) := quiet_typed condition .bool
  rw [← quiet.of_ok lowered] at sound ⊢
  rw [outline_moveTo, outline_terminate, outline_withBlock, ← count_outline]
  exact sound.develops_guard value kind message

theorem develops_continueDead : Develops conditions continueDead := by
  intro builder final sound built
  simp only [continueDead, bind_eq_ok, get_eq_ok, ite_eq_ok, newBlock_eq_ok, switchTo_eq_ok,
    pure_eq_ok] at built
  obtain ⟨_, _, ⟨rfl, rfl⟩, ⟨_, _, _, ⟨rfl, rfl⟩, rfl⟩ | ⟨_, _, rfl⟩⟩ := built
  · rw [outline_moveTo, outline_withBlock, ← count_outline]
    exact builder.outline.develops_dead
  · exact sound.develops

theorem develops_inBlock {body : Build Unit} (develops : Develops conditions body) :
    Develops conditions (inBlock body) := by
  intro builder final sound built
  simp only [inBlock, bind_eq_ok, modify_eq_ok] at built
  obtain ⟨_, _, rfl, _, last, inner, rfl⟩ := built
  have opened : Outline.Sound (outline { builder with visible := [] :: builder.visible }) := sound
  have inside := develops opened inner
  exact inside

theorem detours_region {builder middle : Builder} {body : Build Unit} {start : BlockId}
    (join : BlockId) (span : Span) (develops : Develops conditions body)
    (sound : builder.outline.Sound) (inside : start < builder.outline.count)
    (old : join < builder.outline.count) (built : body (builder.moveTo start) = .ok () middle)
    (heads : Nat → Prop)
    (wide : ∀ id, builder.outline.count ≤ id →
      (middle.terminate (.jump join) span).Heads conditions id → heads id) :
    builder.outline.Detours heads start join (middle.terminate (.jump join) span).outline := by
  have moved : (builder.moveTo start).outline.Sound := sound.moveTo inside
  have whole : (builder.outline.moveTo start).Develops heads middle.outline :=
    (develops moved built).mono fun id new found => wide id new (found.terminate _ _)
  rw [outline_terminate]
  exact whole.detours old

theorem develops_conditional (condition : Expression) (thenSpan : Span) {thenBody : Build Unit}
    (thenDevelops : Develops conditions thenBody) :
    Develops conditions (conditional condition thenSpan thenBody none) := by
  intro builder final sound built
  simp only [conditional, bind_eq_ok, newBlock_eq_ok, terminate_eq_ok, switchTo_eq_ok] at built
  obtain ⟨value, middle, lowered, _, _, ⟨rfl, rfl⟩, _, _, ⟨rfl, rfl⟩, _, _, rfl, _, _, rfl, _, last,
    inner, _, _, rfl, rfl⟩ := built
  have quiet : Quiet outline (typed condition .bool) := quiet_typed condition .bool
  rw [← quiet.of_ok lowered] at sound ⊢
  simp only [← count_outline, outline_withBlock, Outline.count_withBlock] at inner ⊢
  have room : middle.withBlock.withBlock.outline.count = middle.outline.count + 2 := by simp
  have thens : middle.outline.count < middle.withBlock.withBlock.outline.count := by omega
  have joins : middle.outline.count + 1 < middle.withBlock.withBlock.outline.count := by omega
  have branches :=
    sound_branch (sound_withBlock (sound_withBlock sound)) thens joins value condition.span
  rw [outline_moveTo]
  refine sound.develops_conditional value ?_
  rw [← outline_withBlock, ← outline_withBlock, ← outline_terminate _ _ condition.span]
  have inside : middle.outline.count <
      (middle.withBlock.withBlock.terminate
        (.branch value middle.outline.count (middle.outline.count + 1))
        condition.span).outline.count := by
    rwa [outline_terminate, Outline.count_terminate]
  refine detours_region (middle.outline.count + 1) thenSpan thenDevelops branches inside
    (by simp) inner _ fun id new heads => heads.moveTo ?_
  rw [outline_terminate, Outline.count_terminate] at new
  omega

/-- Loops on the one side stay as they are while the other side is built. -/
theorem develops_branch (condition : Expression) (thenSpan elseSpan : Span)
    {thenBody elseBody : Build Unit} (thenDevelops : Develops conditions thenBody)
    (elseDevelops : Develops more elseBody) (elseSpares : Spares elseBody) :
    Develops (conditions ++ more)
      (conditional condition thenSpan thenBody (some (elseSpan, elseBody))) := by
  intro builder final sound built
  simp only [conditional, bind_eq_ok, newBlock_eq_ok, terminate_eq_ok, switchTo_eq_ok] at built
  obtain ⟨value, middle, lowered, _, _, ⟨rfl, rfl⟩, _, _, ⟨rfl, rfl⟩, _, _, ⟨rfl, rfl⟩, _, _, rfl,
    _, _, rfl, _, last, first, _, _, rfl, _, _, rfl, _, other, second, _, _, rfl, rfl⟩ := built
  have quiet : Quiet outline (typed condition .bool) := quiet_typed condition .bool
  rw [← quiet.of_ok lowered] at sound ⊢
  simp only [← count_outline, outline_withBlock, Outline.count_withBlock, Nat.add_assoc,
    Nat.reduceAdd] at first second ⊢
  have room : middle.withBlock.withBlock.withBlock.outline.count = middle.outline.count +
      3 := by simp
  have thens : middle.outline.count < middle.withBlock.withBlock.withBlock.outline.count := by omega
  have joins : middle.outline.count + 1 < middle.withBlock.withBlock.withBlock.outline.count := by
    omega
  have elses : middle.outline.count + 2 < middle.withBlock.withBlock.withBlock.outline.count := by
    omega
  have branches := sound_branch (sound_withBlock (sound_withBlock (sound_withBlock sound))) thens
    elses value condition.span
  have thenPart := detours_region (middle.outline.count + 1) thenSpan thenDevelops branches
    (by simpa using thens) (by simp) first
  have between := (thenPart (fun _ => True) fun _ _ _ => trivial).sound branches (by simp)
  have inside := (thenPart (fun _ => True) fun _ _ _ => trivial).room
  rw [outline_terminate, Outline.count_terminate] at inside
  have elsePart := detours_region (middle.outline.count + 1) elseSpan elseDevelops between
    (Nat.lt_of_lt_of_le elses inside) (Nat.lt_of_lt_of_le joins inside) second
  simp only [outline_terminate _ (.branch _ _ _), outline_withBlock, Outline.count_terminate,
    Outline.count_withBlock, Nat.add_assoc, Nat.reduceAdd] at thenPart inside
  refine sound.develops_branch value (thenPart _ fun id new heads => ?_)
    (elsePart _ fun id new heads => ?_)
  · have turned := (heads.moveTo (Nat.ne_of_gt new)).spares (elseSpares second)
    refine ((turned.terminate _ _).moveTo ?_).mono fun _ listed => List.mem_append_left more listed
    omega
  · refine (heads.moveTo ?_).mono fun _ listed => List.mem_append_right conditions listed
    omega

theorem tests_header {builder middle : Builder} {condition : Expression} {span : Span}
    {value : ValueId} (inside : builder.current < builder.blocks.length)
    (lowered : typed condition .bool
      ((builder.withBlock.terminate (.jump builder.blocks.length) span).moveTo
        builder.blocks.length) = .ok value middle)
    (enter leave : BlockId) :
    ∃ instructions, middle.blocks[builder.blocks.length]? = some ⟨instructions, none⟩ ∧
      Tests builder.scope condition instructions
        ⟨.branch value enter leave, builder.scope.lines.location condition.span.start⟩ := by
  let start := (builder.withBlock.terminate (.jump builder.blocks.length) span).moveTo
    builder.blocks.length
  have blank : start.IsBlank start.current :=
    (isBlank_withBlock builder).terminate (Nat.ne_of_gt inside) (.jump builder.blocks.length) span
  have quiet : Quiet outline (typed condition .bool) := quiet_typed condition .bool
  have unended : middle.blocks[start.current]?.map
      (fun block => block.terminator.map Located.node) = some none := by
    have same := congrArg (·.ends[start.current]?) (quiet.of_ok lowered)
    simp only [outline, List.getElem?_map] at same
    exact same.trans
      (congrArg (Option.map fun block : OpenBlock => block.terminator.map Located.node) blank)
  obtain ⟨block, found, free⟩ := Option.map_eq_some_iff.mp unended
  obtain ⟨instructions, terminator⟩ := block
  obtain rfl : terminator = none := by simpa using free
  exact ⟨instructions, found, start, middle, value, enter, leave, rfl, blank, lowered, found, rfl⟩

theorem develops_loop (condition : Expression) (span bodySpan : Span) {body : Build Unit}
    (develops : Develops conditions body) (spares : Spares body) :
    Develops (condition :: conditions) (loop condition span bodySpan body) := by
  intro builder final sound built
  simp only [loop, bind_eq_ok, newBlock_eq_ok, terminate_eq_ok, switchTo_eq_ok] at built
  obtain ⟨_, _, ⟨rfl, rfl⟩, _, _, rfl, _, _, rfl, value, middle, lowered, _, _, ⟨rfl, rfl⟩, _, _,
    ⟨rfl, rfl⟩, _, _, rfl, _, _, rfl, _, last, inner, _, _, rfl, rfl⟩ := built
  have quiet : Quiet outline (typed condition .bool) := quiet_typed condition .bool
  have same : middle.outline =
      (builder.outline.withBlock.terminate (.jump builder.outline.count)).moveTo
        builder.outline.count := by
    rw [quiet.of_ok lowered, count_outline, outline_moveTo, outline_terminate, outline_withBlock]
  have size : middle.blocks.length = builder.outline.count + 1 := by
    rw [← count_outline, same, Outline.count_moveTo, Outline.count_terminate,
      Outline.count_withBlock]
  obtain ⟨instructions, found, tests⟩ := tests_header
    (count_outline builder ▸ sound.current) lowered (builder.outline.count + 1)
    (builder.outline.count + 2)
  simp only [length_withBlock, size, ← count_outline builder] at inner found ⊢
  have header : middle.outline.Sound := by
    rw [same]
    exact (sound.withBlock.terminate (by simp [Terminator.successors])).moveTo (by simp)
  have room : middle.withBlock.withBlock.outline.count = builder.outline.count + 3 := by simp [same]
  have enters : builder.outline.count + 1 < middle.withBlock.withBlock.outline.count := by omega
  have leaves : builder.outline.count + 2 < middle.withBlock.withBlock.outline.count := by omega
  have branches :=
    sound_branch (sound_withBlock (sound_withBlock header)) enters leaves value condition.span
  have again : builder.outline.count < middle.withBlock.withBlock.outline.count := by omega
  have region := detours_region builder.outline.count bodySpan develops branches
    (by simpa using enters) (by simpa using again) inner
  simp only [outline_terminate _ (.branch _ _ _), outline_withBlock, same, Outline.count_terminate,
    Outline.count_withBlock, Outline.count_moveTo, Nat.add_assoc, Nat.reduceAdd] at region
  rw [outline_moveTo]
  refine sound.develops_loop value ?_ (region _ fun id new heads => ?_)
  · have current : middle.withBlock.withBlock.current = builder.outline.count :=
      congrArg Outline.current same
    have scope : middle.scope = builder.scope :=
      ((quiet_typed condition .bool).spares lowered).scope
    have kept : middle.withBlock.withBlock.blocks[builder.outline.count]? =
        some ⟨instructions, none⟩ := by
      have low : builder.outline.count < middle.blocks.length := size ▸ Nat.lt_succ_self _
      rw [getElem?_withBlock (Nat.lt_trans low (by simp)), getElem?_withBlock low, found]
    have ended := terminate_running current kept
      (.branch value (builder.outline.count + 1) (builder.outline.count + 2)) condition.span
    have heads : Heads (condition :: conditions) _ builder.outline.count :=
      heads_of_tests List.mem_cons_self ended (Nat.succ_ne_self _) (scope ▸ tests)
    refine ((heads.spares (spares inner)).terminate _ _).moveTo ?_
    omega
  · refine (heads.moveTo ?_).mono fun _ listed => List.mem_cons_of_mem condition listed
    omega

mutual

theorem develops_statement : ∀ source : Statement, Develops source.loopConditions (statement source)
  | .declare span name written source => (quiet_declaration name written source span).develops
  | .assign span written op source => (quiet_assignment written op source span).develops
  | .require span condition message => develops_guardStatement condition .require message span
  | .assert span condition => develops_guardStatement condition .assert none span
  | .revert span _ => develops_stop rfl span
  | .branch _ condition thenBlock none =>
    develops_conditional condition thenBlock.span (develops_block thenBlock)
  | .branch _ condition thenBlock (some elseBlock) =>
    develops_branch condition thenBlock.span elseBlock.span (develops_block thenBlock)
      (develops_block elseBlock) (spares_block elseBlock)
  | .loop span condition body =>
    develops_loop condition span body.span (develops_block body) (spares_block body)
  | .ret span source => develops_returnStatement source span
  | .emit span event args => (quiet_emission (fun _ _ => rfl) event args span).develops
  | .expression _ source => (quiet_callStatement source).develops

theorem develops_statements : ∀ sources : List Statement,
    Develops (Statement.allLoopConditions sources) (statements sources)
  | [] => Quiet.develops (quiet_pure ())
  | first :: rest =>
    have dead : Develops [] continueDead := develops_continueDead
    dead.bind ((develops_statement first).bind (develops_statements rest) (spares_statements rest))
      ((spares_statement first).bind (spares_statements rest))

theorem develops_block : ∀ source : Block, Develops source.loopConditions (block source)
  | .mk body _ => develops_inBlock (develops_statements body)

end

/-- The edges of a finished function are those that were built. Those that lead back lead to what
tests the conditions of the loops in the body. -/
theorem outline_function {header : Header} {body : Block} {scope : ContractScope}
    {known : EventScope} {function : Function} {final : Builder}
    (built : Build.function header body
      (Builder.start scope header.name (header.returns.map Ty.ofExpr) known) =
      .ok function final) :
    ∃ outline : Outline,
      (∀ id terminator, outline.Ends id terminator → outline.Separates 1 id terminator) ∧
      outline.Reducible
        (fun id => ∃ condition ∈ body.loopConditions, function.Tests scope condition id) ∧
      ∀ id block, function.block? id = some block →
        outline.Ends id block.terminator.node ∨ block.terminator.node = .ret none := by
  obtain ⟨entered, ended, read, inside, rfl, same⟩ := function_eq_ok built
  have quiet : Quiet outline (params header.params) := quiet_params header.params
  have start : entered.outline = ⟨[none], 0⟩ := quiet.of_ok read
  have first {id : Nat} {terminator : Terminator} : ¬ entered.outline.Ends id terminator := by
    rw [start]
    cases id <;> simp [Outline.Ends]
  have empty {source target : Nat} : ¬ entered.outline.Edge source target := by
    rintro ⟨terminator, ends, _⟩
    exact first ends
  have sound : entered.outline.Sound :=
    ⟨by simp [start, Outline.count], fun source target edge => absurd edge empty⟩
  have within : ended.scope = scope :=
    (spares_block body inside).scope.trans ((quiet_params header.params).spares read).scope
  have blocks : function.blocks = closeBlocks (ended.scope.lines.location body.span.stop)
      (ended.terminate (.ret none) ⟨body.span.stop - 1, body.span.stop⟩).blocks := by rw [same]; rfl
  have develops := (develops_block body sound inside).mono fun id _ heads =>
    show ∃ condition ∈ body.loopConditions, function.Tests scope condition id by
      obtain ⟨condition, listed, instructions, terminator, apart, tests⟩ := heads.terminate
        (.ret none) ⟨body.span.stop - 1, body.span.stop⟩
      have found : function.block? id = some ⟨id, instructions, terminator⟩ := by
        rw [Function.block?, blocks, getElem?_closeBlocks, apart.1]
        rfl
      exact ⟨condition, listed, _, found, within ▸ tests⟩
  refine ⟨ended.outline, fun id terminator ends => ?_, develops.reducible empty (by rw [start])
    (by rw [start]; rfl), fun id block found => ?_⟩
  · have separates := (develops.separates id terminator ends).resolve_left first
    rwa [start] at separates
  · obtain ⟨before, there, _, _, finished | ⟨_, nothing⟩⟩ := closed_block blocks found
    · left
      simp [Outline.Ends, outline, there, finished]
    · exact .inr nothing

end Build

def Function.Guarded (function : Function) : Prop :=
  ∀ id block target, function.block? id = some block →
    Contract.checkedBlock? function block.terminator.node = some target →
    target ≠ function.entry ∧ ∀ other source, function.Reaches other → function.block? other =
      some source →
      target ∈ source.terminator.node.successors → other = id

/-- If nothing leads from the other side of a condition, code comes to its one side only from the
condition. -/
theorem Outline.FromOr.eq_source {outline : Outline} {function : Function}
    {source other target first last : Nat}
    (holds : outline.FromOr 1 source other target first last)
    (edges : ∀ id block next, function.block? id = some block →
      next ∈ block.terminator.node.successors →
      outline.Edge id next)
    (entry : function.entry = 0) (stops : ∀ next, ¬ outline.Edge other next) :
    ∀ id block, function.Reaches id → function.block? id = some block →
      target ∈ block.terminator.node.successors →
      id = source := by
  -- nothing leads to the blocks behind the other side
  have apart {id : BlockId} (reaches : function.Reaches id) : ¬ (first ≤ id ∧ id < last) := by
    induction reaches with
    | entry =>
      have low := holds.range.1
      rw [entry]
      omega
    | @next id block next _ found leads ih =>
      rintro ⟨above, below⟩
      have edge := edges id block next found leads
      rcases holds.behind id next edge above below with rfl | behind
      · exact stops next edge
      · exact ih behind
  intro id block reaches found leads
  have edge := edges id block target found leads
  rcases holds.edges id edge with here | rfl | behind
  · exact here
  · exact absurd edge (stops target)
  · exact absurd behind (apart reaches)

theorem Outline.edge_of_closed {outline : Outline} {function : Function}
    (closed : ∀ id block, function.block? id = some block →
      outline.Ends id block.terminator.node ∨ block.terminator.node = .ret none) :
    ∀ id block next, function.block? id = some block → next ∈ block.terminator.node.successors →
      outline.Edge id next := by
  intro id block next found leads
  rcases closed id block found with ends | nothing
  · exact ⟨_, ends, leads⟩
  · simp [nothing, Terminator.successors] at leads

theorem ContractSet.guarded_of_ofText {text : String} {contract : Contract}
    (member : contract ∈ (ofText text).contracts) {function : Function}
    (listed : function ∈ contract.functions) : function.Guarded := by
  obtain ⟨decl, declared, _, rfl⟩ := Lowering.mem_contractsOf member
  obtain ⟨header, body, known, final, _, built⟩ := Lowering.mem_functionsOf listed
  obtain ⟨outline, separates, _, closed⟩ := Build.outline_function built
  have entry : function.entry = 0 := by
    obtain ⟨_, _, _, _, _, rfl⟩ := Build.function_eq_ok built
    rfl
  have edges := Outline.edge_of_closed closed
  have reverts {other : BlockId} (revert : function.isRevertBlock other = true) :
      ∀ next, ¬ outline.Edge other next := by
    rintro next ⟨terminator, ends, leads⟩
    simp only [Function.isRevertBlock] at revert
    split at revert
    · rename_i block found
      rcases closed other block found with finished | nothing
      · obtain rfl := Option.some.inj (Option.some.inj (ends.symm.trans finished))
        split at revert <;> simp_all [Terminator.successors]
      · simp [nothing] at revert
    · simp at revert
  intro id block target found checked
  have fair {node : Terminator} (same : block.terminator.node = node) (goes : node ≠ .ret none) :
      outline.Separates 1 id node :=
    separates id node (same ▸ (closed id block found).resolve_right (same ▸ goes))
  rw [entry]
  cases node : block.terminator.node with
  | guard value kind message next =>
    rw [node, Contract.checkedBlock?] at checked
    obtain rfl := Option.some.inj checked
    have only := fair node (by simp)
    exact ⟨Nat.ne_of_gt only.new, fun other source _ there leads =>
      only.edges other (edges other source _ there leads)⟩
  | branch value thenBlock elseBlock =>
    obtain ⟨⟨first, last, thenFrom⟩, start, stop, elseFrom⟩ := fair node (by simp)
    rw [node, Contract.checkedBlock?] at checked
    split at checked
    · rename_i revert _
      obtain rfl := Option.some.inj checked
      exact ⟨Nat.ne_of_gt elseFrom.new, elseFrom.eq_source edges entry (reverts revert)⟩
    · rename_i _ revert
      obtain rfl := Option.some.inj checked
      exact ⟨Nat.ne_of_gt thenFrom.new, thenFrom.eq_source edges entry (reverts revert)⟩
    · simp at checked
  | _ => simp [node, Contract.checkedBlock?] at checked

/-!
The graphs of functions are reducible: the only edges that lead back are those of loops, and they
lead to the block in front of the condition, which code has come through before.
-/

theorem Outline.LeadsBack.dominates {outline : Outline} {heads : Nat → Prop} {function : Function}
    {source target : BlockId} (back : outline.LeadsBack heads 1 source target)
    (entry : function.entry = 0)
    (edges : ∀ id block next, function.block? id = some block →
      next ∈ block.terminator.node.successors →
      outline.Edge id next)
    (reached : source ∈ (FlowGraph.ofFunction function).reversePostorder) :
    function.Dominates target source := by
  obtain ⟨_, body, first, last, encloses⟩ := back
  have range := encloses.range
  refine ⟨FlowGraph.mem_reversePostorder_iff.mp reached, fun blocks path => ?_⟩
  refine path.induction_last (motive := fun blocks id => id = body ∨ first ≤ id ∧ id < last →
    target ∈ blocks) (fun among => ?_) (fun blocks id next path leads earlier among => ?_)
      encloses.inside
  · have start : (0 : Nat) = body ∨ first ≤ 0 ∧ 0 < last := entry ▸ among
    omega
  · obtain ⟨block, found, goes, _⟩ := leads
    rcases encloses.entered id next (edges id block next found goes) among with rfl | before
    · exact List.mem_append_left _ path.last_mem
    · exact List.mem_append_left _ (earlier before)

/-- The edges of a function that lead back are those of the loops in its body. -/
theorem Build.climbs_of_function {header : Header} {body : Block} {scope : ContractScope}
    {known : EventScope} {function : Function} {final : Builder}
    (built : Build.function header body
      (Builder.start scope header.name (header.returns.map Ty.ofExpr) known) =
      .ok function final) :
    ∃ rank, FlowGraph.Climbs function rank ∧ ∀ source target,
      (source, target) ∈ (FlowGraph.ofFunction function).backEdges →
        ∃ condition ∈ body.loopConditions, function.Tests scope condition target := by
  have entry : function.entry = 0 := by
    obtain ⟨_, _, _, _, _, rfl⟩ := function_eq_ok built
    rfl
  obtain ⟨outline, _, ⟨rank, climbs⟩, closed⟩ := outline_function built
  have edges := Outline.edge_of_closed closed
  have leads {source target : BlockId} (leads : function.Leads source target) :
      outline.Edge source target := by
    obtain ⟨block, found, goes, _⟩ := leads
    exact edges source block target found goes
  have ranked : FlowGraph.Climbs function rank := fun source reached target edge =>
    (climbs source target (leads edge)).imp_right fun back => back.dominates entry edges reached
  refine ⟨rank, ranked, fun source target back => ?_⟩
  obtain ⟨_, edge, dominates⟩ := FlowGraph.mem_backEdges.mp back
  have low := ranked.rank_le (FlowGraph.dominates_iff.mp dominates)
  exact ((climbs source target (leads (Function.leads_iff.mpr edge))).resolve_left
    (Nat.not_lt.mpr low)).1

theorem ContractSet.reducible_of_ofText {text : String} {contract : Contract}
    (member : contract ∈ (ofText text).contracts) {function : Function}
    (listed : function ∈ contract.functions) : (FlowGraph.ofFunction function).Reducible := by
  obtain ⟨decl, _, _, rfl⟩ := Lowering.mem_contractsOf member
  obtain ⟨header, body, known, final, _, built⟩ := Lowering.mem_functionsOf listed
  obtain ⟨rank, climbs, _⟩ := Build.climbs_of_function built
  exact climbs.reducible

/-- The functions of a lowered tree are reducible: without the edges that lead back, reverse
postorder sorts the blocks that can be reached so that edges lead from earlier to later ones, and
there are no cycles; and the edges that lead back lead to blocks that do nothing but find out the
condition of a loop in the body of the function, and go by it. -/
theorem SyntaxTree.reducible_of_lower (tree : SyntaxTree) (lines : LineTable) {contract : Contract}
    (member : contract ∈ (tree.lower lines).set.contracts) {function : Function}
    (listed : function ∈ contract.functions) :
    let graph := FlowGraph.ofFunction function
    ((∀ block, block ∈ graph.reversePostorder ↔ ∃ blocks,
      function.Path blocks function.entry block) ∧
      graph.reversePostorder.Nodup ∧
      ∀ source target, graph.Onward source target →
        graph.reversePostorder.idxOf source < graph.reversePostorder.idxOf target) ∧
    (∀ block, ¬ Relation.TransGen graph.Onward block block) ∧
    ∃ decl ∈ tree.contracts, decl.name.name = contract.name ∧ ∃ header body, (header, body) ∈
      Lowering.bodiesOf decl ∧
      header.name = function.name ∧ ∀ source target, (source, target) ∈ graph.backEdges →
        ∃ condition ∈ body.loopConditions,
          function.Tests (Lowering.scopeOf lines decl) condition target := by
  obtain ⟨decl, declared, _, rfl⟩ := Lowering.mem_contractsOf member
  obtain ⟨header, body, known, final, bodied, built⟩ := Lowering.mem_functionsOf listed
  have named : function.name = header.name := by
    obtain ⟨_, _, _, _, _, rfl⟩ := Build.function_eq_ok built
    rfl
  obtain ⟨rank, climbs, loops⟩ := Build.climbs_of_function built
  have reducible := climbs.reducible
  exact ⟨⟨fun block => FlowGraph.mem_reversePostorder_iff,
    FlowGraph.nodup_reversePostorder function, fun source target => reducible.idxOf_lt⟩,
    reducible.acyclic, decl, declared, rfl, header, body, bodied, named.symm, loops⟩

theorem SyntaxTree.reducible_of_lower_of_nested_loops :
    let text :=
      "contract A \x7b f() \x7b while true \x7b if true \x7b while false \x7b \x7d \x7d else \x7b return \x7d \x7d \x7d \x7d"
    let tree := (SyntaxTree.read text).tree
    let lines := LineTable.ofText text
    ∃ contract ∈ (tree.lower lines).set.contracts, ∃ function ∈ contract.functions,
      (FlowGraph.ofFunction function).backEdges = [(5, 1), (8, 7)] ∧
      (∀ block, ¬ Relation.TransGen (FlowGraph.ofFunction function).Onward block block) ∧
      ∃ decl ∈ tree.contracts, ∃ header body, (header, body) ∈ Lowering.bodiesOf decl ∧
      ∀ source target,
        (source, target) ∈ [(5, 1), (8, 7)] →
          ∃ condition ∈ body.loopConditions,
            function.Tests (Lowering.scopeOf lines decl) condition target := by
  intro text tree lines
  have facts : ∃ contract ∈ (tree.lower lines).set.contracts, ∃ function ∈ contract.functions,
      (FlowGraph.ofFunction function).backEdges = [(5, 1), (8, 7)] := by decide +kernel
  obtain ⟨contract, member, function, listed, back⟩ := facts
  obtain ⟨_, acyclic, decl, declared, _, header, body, bodied, _, loops⟩ :=
    reducible_of_lower tree lines member listed
  exact ⟨contract, member, function, listed, back, acyclic, decl, declared, header, body, bodied,
    back ▸ loops⟩

end Covenant
