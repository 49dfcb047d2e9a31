import Covenant.Proofs.Lowering.Growth
import Covenant.Proofs.Lowering.Quiet

/-!
The blocks in front of loops. Lowering a loop starts a block that finds out the condition, and
nothing else, and ends by going by it. Such a block stays as it is: what is built later changes no
earlier block but the one that it starts in.
-/

namespace Covenant

mutual

def Statement.loopConditions : Statement → List Expression
  | .branch _ _ thenBlock none => thenBlock.loopConditions
  | .branch _ _ thenBlock (some elseBlock) => thenBlock.loopConditions ++ elseBlock.loopConditions
  | .loop _ condition body => condition :: body.loopConditions
  | _ => []

def Statement.allLoopConditions : List Statement → List Expression
  | [] => []
  | first :: rest => first.loopConditions ++ Statement.allLoopConditions rest

def Block.loopConditions : Block → List Expression
  | .mk body _ => Statement.allLoopConditions body

end

/-- Whether instructions are those that a condition is lowered to, and a block that ends behind them
goes by its value. -/
def Build.Tests (scope : ContractScope) (condition : Expression)
    (instructions : List (Located Instruction)) (terminator : Located Terminator) : Prop :=
  ∃ (start final : Builder) (value : ValueId) (enter leave : BlockId),
    start.scope = scope ∧ start.IsBlank start.current ∧ Build.typed condition .bool start =
      .ok value final ∧
      final.blocks[start.current]? = some ⟨instructions, none⟩ ∧
      terminator = ⟨.branch value enter leave, scope.lines.location condition.span.start⟩

/-- Whether a block of a function finds out a condition, and nothing else, and goes by it. -/
def Function.Tests (function : Function) (scope : ContractScope) (condition : Expression)
    (id : BlockId) : Prop :=
  ∃ block, function.block? id = some block ∧
    Build.Tests scope condition block.instructions block.terminator

namespace Builder

def Apart (builder : Builder) (id : Nat) (block : OpenBlock) : Prop :=
  builder.blocks[id]? = some block ∧ id ≠ builder.current

structure Spares (builder final : Builder) : Prop where
  scope : final.scope = builder.scope
  room : builder.blocks.length ≤ final.blocks.length
  apart : ∀ id block, builder.Apart id block → final.Apart id block

def Heads (conditions : List Expression) (builder : Builder) (id : Nat) : Prop :=
  ∃ condition ∈ conditions, ∃ instructions terminator,
    builder.Apart id ⟨instructions, some terminator⟩ ∧
    Build.Tests builder.scope condition instructions terminator

variable {builder middle final : Builder} {id : Nat} {block : OpenBlock}
  {conditions more : List Expression}

theorem Apart.lt (apart : builder.Apart id block) : id < builder.blocks.length :=
  (List.getElem?_eq_some_iff.mp apart.1).1

theorem getElem?_withBlock (inside : id < builder.blocks.length) :
    builder.withBlock.blocks[id]? = builder.blocks[id]? :=
  List.getElem?_append_left inside

namespace Spares

theorem refl (builder : Builder) : builder.Spares builder :=
  ⟨rfl, Nat.le_refl _, fun _ _ apart => apart⟩

theorem trans (first : builder.Spares middle) (second : middle.Spares final) :
    builder.Spares final where
  scope := second.scope.trans first.scope
  room := Nat.le_trans first.room second.room
  apart id block apart := second.apart id block (first.apart id block apart)

theorem withBlock (spares : builder.Spares final) : builder.Spares final.withBlock where
  scope := spares.scope
  room := Nat.le_trans spares.room (by simp)
  apart id block apart := by
    have kept := spares.apart id block apart
    exact ⟨(getElem?_withBlock kept.lt).trans kept.1, kept.2⟩

theorem terminate (spares : builder.Spares final) (terminator : Terminator) (span : Span) :
    builder.Spares (final.terminate terminator span) where
  scope := spares.scope
  room := Nat.le_trans spares.room (by simp)
  apart id block apart := by
    have kept := spares.apart id block apart
    exact ⟨by simp [Builder.terminate, kept.1, Ne.symm kept.2], kept.2⟩

theorem moveTo (spares : builder.Spares final) {target : Nat}
    (new : builder.blocks.length ≤ target) :
    builder.Spares (final.moveTo target) where
  scope := spares.scope
  room := spares.room
  apart id block apart :=
    ⟨(spares.apart id block apart).1, Nat.ne_of_lt (Nat.lt_of_lt_of_le apart.lt new)⟩

end Spares

theorem terminate_running {instructions : List (Located Instruction)}
    (current : builder.current = id) (running : builder.blocks[id]? = some ⟨instructions, none⟩)
    (terminator : Terminator) (span : Span) :
    (builder.terminate terminator span).blocks[id]? =
      some ⟨instructions, some ⟨terminator, builder.scope.lines.location span.start⟩⟩ := by
  simp [terminate, current, running]

theorem heads_of_tests {condition : Expression} (listed : condition ∈ conditions)
    {instructions : List (Located Instruction)} {terminator : Located Terminator}
    (ended : builder.blocks[id]? = some ⟨instructions, some terminator⟩) {target : Nat}
    (other : target ≠ id) (tests : Build.Tests builder.scope condition instructions terminator) :
    (builder.moveTo target).Heads conditions id :=
  ⟨condition, listed, instructions, terminator, ⟨ended, Ne.symm other⟩, tests⟩

namespace Heads

theorem mono (heads : builder.Heads conditions id)
    (among : ∀ condition ∈ conditions, condition ∈ more) :
    builder.Heads more id := by
  obtain ⟨condition, listed, tests⟩ := heads
  exact ⟨condition, among condition listed, tests⟩

theorem spares (heads : builder.Heads conditions id) (spares : builder.Spares final) :
    final.Heads conditions id := by
  obtain ⟨condition, listed, instructions, terminator, apart, tests⟩ := heads
  exact ⟨condition, listed, instructions, terminator, spares.apart id _ apart, spares.scope ▸ tests⟩

theorem terminate (heads : builder.Heads conditions id) (terminator : Terminator) (span : Span) :
    (builder.terminate terminator span).Heads conditions id :=
  heads.spares ((Spares.refl builder).terminate terminator span)

theorem moveTo (heads : builder.Heads conditions id) {target : Nat} (other : id ≠ target) :
    (builder.moveTo target).Heads conditions id := by
  obtain ⟨condition, listed, instructions, terminator, apart, tests⟩ := heads
  exact ⟨condition, listed, instructions, terminator, ⟨apart.1, other⟩, tests⟩

end Heads

def elsewhere (builder : Builder) : ContractScope × BlockId × List OpenBlock :=
  (builder.scope, builder.current, builder.blocks.modify builder.current fun _ => ⟨[], none⟩)

theorem spares_of_elsewhere (same : final.elsewhere = builder.elsewhere) :
    builder.Spares final := by
  simp only [elsewhere, Prod.mk.injEq] at same
  obtain ⟨scope, current, blocks⟩ := same
  have length := congrArg List.length blocks
  simp only [List.length_modify] at length
  refine ⟨scope, Nat.le_of_eq length.symm, fun id block apart => ⟨?_, current ▸ apart.2⟩⟩
  have there := congrArg (·[id]?) blocks
  simpa [List.getElem?_modify, current, Ne.symm apart.2, apart.1] using there

end Builder

namespace Build

open Builder

instance : Unaffected elsewhere where
  emit builder instruction span := by
    simp only [elsewhere, Builder.emit, List.modify_modify_eq]
    rfl
  fresh _ := rfl
  addLocal _ _ _ := rfl

def Spares (step : Build Unit) : Prop :=
  ∀ ⦃builder final : Builder⦄, step builder = .ok () final → builder.Spares final

theorem Quiet.spares {α : Type} {step : Build α} (quiet : Quiet elsewhere step)
    {builder final : Builder} {value : α} (built : step builder = .ok value final) :
    builder.Spares final :=
  spares_of_elsewhere (quiet.of_ok built)

theorem spares_terminate (terminator : Terminator) (span : Span) :
    Spares (terminate terminator span) := by
  intro builder final built
  obtain rfl := terminate_eq_ok.mp built
  exact (Spares.refl builder).terminate terminator span

theorem spares_guardStatement (condition : Expression) (kind : GuardKind) (message : Option String)
    (span : Span) :
    Spares (guardStatement condition kind message span) := by
  intro builder final built
  simp only [guardStatement, bind_eq_ok, newBlock_eq_ok, terminate_eq_ok, switchTo_eq_ok] at built
  obtain ⟨value, middle, lowered, _, _, ⟨rfl, rfl⟩, _, _, rfl, rfl⟩ := built
  have before := (quiet_typed condition .bool).spares lowered
  exact (before.withBlock.terminate _ span).moveTo before.room

theorem spares_returnStatement (value : Option Expression) (span : Span) :
    Spares (returnStatement value span) := by
  intro builder final built
  simp only [returnStatement, bind_eq_ok, get_eq_ok] at built
  obtain ⟨_, _, ⟨rfl, rfl⟩, built⟩ := built
  cases value with
  | none =>
    cases returns : builder.returns with
    | none => exact spares_terminate _ _ (by simpa [returns] using built)
    | some ty => simp [returns, fail_eq_ok] at built
  | some value =>
    cases returns : builder.returns with
    | none => simp [returns, fail_eq_ok] at built
    | some ty =>
      simp only [returns, bind_eq_ok] at built
      obtain ⟨result, middle, lowered, built⟩ := built
      exact ((quiet_typed value ty).spares lowered).trans (spares_terminate _ _ built)

theorem spares_continueDead : Spares continueDead := by
  intro builder final built
  simp only [continueDead, bind_eq_ok, get_eq_ok, ite_eq_ok, newBlock_eq_ok, switchTo_eq_ok,
    pure_eq_ok] at built
  obtain ⟨_, _, ⟨rfl, rfl⟩, ⟨_, _, _, ⟨rfl, rfl⟩, rfl⟩ | ⟨_, _, rfl⟩⟩ := built
  · exact (Spares.refl builder).withBlock.moveTo (Nat.le_refl _)
  · exact .refl builder

theorem spares_inBlock {body : Build Unit} (spares : Spares body) : Spares (inBlock body) := by
  intro builder final built
  simp only [inBlock, bind_eq_ok, modify_eq_ok] at built
  obtain ⟨_, _, rfl, _, last, inner, rfl⟩ := built
  obtain ⟨scope, room, apart⟩ := spares inner
  exact ⟨scope, room, apart⟩

theorem spares_conditional (condition : Expression) (thenSpan : Span) {thenBody : Build Unit}
    (elsePart : Option (Span × Build Unit)) (thenSpares : Spares thenBody)
    (elseSpares : ∀ part, elsePart = some part → Spares part.2) :
    Spares (conditional condition thenSpan thenBody elsePart) := by
  intro builder final built
  simp only [conditional, bind_eq_ok, newBlock_eq_ok] at built
  obtain ⟨value, middle, lowered, _, _, ⟨rfl, rfl⟩, _, _, ⟨rfl, rfl⟩, built⟩ := built
  have before := (quiet_typed condition .bool).spares lowered
  have room := before.room
  cases elsePart with
  | none =>
    simp only [bind_eq_ok, terminate_eq_ok, switchTo_eq_ok] at built
    obtain ⟨_, _, rfl, _, _, rfl, _, last, inner, _, _, rfl, rfl⟩ := built
    have entered terminator :=
      (before.withBlock.withBlock.terminate terminator condition.span).moveTo room
    refine (((entered _).trans (thenSpares inner)).terminate _ _).moveTo ?_
    rw [length_withBlock]
    omega
  | some part =>
    simp only [bind_eq_ok, newBlock_eq_ok, terminate_eq_ok, switchTo_eq_ok] at built
    obtain ⟨_, _, ⟨rfl, rfl⟩, _, _, rfl, _, _, rfl, _, last, first, _, _, rfl, _, _, rfl, _, other,
      second, _, _, rfl, rfl⟩ := built
    have entered terminator :=
      (before.withBlock.withBlock.withBlock.terminate terminator condition.span).moveTo room
    have passed := ((entered _).trans (thenSpares first)).terminate
      (.jump middle.withBlock.blocks.length) thenSpan
    have further : builder.blocks.length ≤ middle.withBlock.withBlock.blocks.length := by
      rw [length_withBlock, length_withBlock]
      omega
    refine (((passed.moveTo further).trans (elseSpares part rfl second)).terminate _ _).moveTo ?_
    rw [length_withBlock]
    omega

theorem spares_loop (condition : Expression) (span bodySpan : Span) {body : Build Unit}
    (spares : Spares body) :
    Spares (loop condition span bodySpan body) := by
  intro builder final built
  simp only [loop, bind_eq_ok, newBlock_eq_ok, terminate_eq_ok, switchTo_eq_ok] at built
  obtain ⟨_, _, ⟨rfl, rfl⟩, _, _, rfl, _, _, rfl, value, middle, lowered, _, _, ⟨rfl, rfl⟩, _, _,
    ⟨rfl, rfl⟩, _, _, rfl, _, _, rfl, _, last, inner, _, _, rfl, rfl⟩ := built
  have header :=
    ((Spares.refl builder).withBlock.terminate (.jump builder.blocks.length) span).moveTo
      (Nat.le_refl _)
  have before := header.trans ((quiet_typed condition .bool).spares lowered)
  have room := before.room
  have entered terminator :=
    (before.withBlock.withBlock.terminate terminator condition.span).moveTo room
  refine (((entered _).trans (spares inner)).terminate _ _).moveTo ?_
  rw [length_withBlock]
  omega

theorem quiet_emission {γ : Type} {part : Builder → γ} [Unaffected part]
    (known : ∀ (builder : Builder) (events : EventScope), part { builder with events } =
      part builder)
    (event : Ident) (args : List Expression) (span : Span) :
    Quiet part (emission event args span) :=
  quiet_get.bind fun builder => by
    cases builder.events.types? event.name with
    | some types =>
      dsimp only
      split
      · exact quiet_fail _ _
      · exact (quiet_arguments args types).bind fun _ => quiet_emit _ _
    | none =>
      exact (quiet_mapM_expression args).bind fun results =>
        Quiet.bind (fun builder => known builder _) fun _ => quiet_emit _ _

theorem Spares.bind {first rest : Build Unit} (before : Spares first) (behind : Spares rest) :
    Spares (do first; rest) := by
  intro builder final built
  obtain ⟨_, middle, one, two⟩ := bind_eq_ok.mp built
  exact (before one).trans (behind two)

mutual

theorem spares_statement : ∀ source : Statement, Spares (statement source)
  | .declare span name written source =>
    fun _ _ built => (quiet_declaration name written source span).spares built
  | .assign span written op source =>
    fun _ _ built => (quiet_assignment written op source span).spares built
  | .require span condition message => spares_guardStatement condition .require message span
  | .assert span condition => spares_guardStatement condition .assert none span
  | .revert span message => spares_terminate (.revert message) span
  | .branch _ condition thenBlock none =>
    spares_conditional condition thenBlock.span none (spares_block thenBlock) fun _ same =>
      nomatch same
  | .branch _ condition thenBlock (some elseBlock) => by
    have spares := spares_block elseBlock
    refine spares_conditional condition thenBlock.span (some (elseBlock.span, block elseBlock))
      (spares_block thenBlock) fun part same => ?_
    obtain rfl := Option.some.inj same
    exact spares
  | .loop span condition body => spares_loop condition span body.span (spares_block body)
  | .ret span source => spares_returnStatement source span
  | .emit span event args =>
    fun _ _ built => (quiet_emission (fun _ _ => rfl) event args span).spares built
  | .expression _ source => fun _ _ built => (quiet_callStatement source).spares built

theorem spares_statements : ∀ sources : List Statement, Spares (statements sources)
  | [] => fun _ _ built => (quiet_pure ()).spares built
  | first :: rest =>
    spares_continueDead.bind ((spares_statement first).bind (spares_statements rest))

theorem spares_block : ∀ source : Block, Spares (block source)
  | .mk body _ => spares_inBlock (spares_statements body)

end

end Build

end Covenant
