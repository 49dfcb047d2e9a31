import Covenant.Proofs.Lowering.Growth
import Covenant.Proofs.Lowering.Quiet

/-!
What lowering does to the events of a contract, whether or not it succeeds. Expressions do not
change what is known, and statements only make more events known.
-/

namespace Covenant

namespace Build

open Builder

instance : Unaffected Builder.events := ⟨fun _ _ _ => rfl, fun _ => rfl, fun _ _ _ => rfl⟩

variable {α β : Type}

def KeepsEvents (step : Build α) : Prop :=
  ∀ builder : Builder, builder.events.Extends (left (step builder)).events

theorem Quiet.keepsEvents {step : Build α} (quiet : Quiet events step) : KeepsEvents step := by
  intro builder
  rw [quiet builder]
  exact .refl _

theorem KeepsEvents.bind {step : Build α} {next : α → Build β} (first : KeepsEvents step)
    (second : ∀ value, KeepsEvents (next value)) : KeepsEvents (step >>= next) := by
  intro builder
  rcases left_bind step next builder with ⟨value, middle, stepped, same⟩ | same
  · have before := first builder
    rw [stepped] at before
    rw [same]
    exact before.trans (second value middle)
  · rw [same]
    exact first builder

theorem Quiet.before {step : Build α} {next : α → Build β} (first : Quiet events step)
    (second : ∀ value, KeepsEvents (next value)) : KeepsEvents (step >>= next) :=
  first.keepsEvents.bind second

theorem keepsEvents_get {next : Builder → Build α}
    (keeps : ∀ builder : Builder, builder.events.Extends (left (next builder builder)).events) :
    KeepsEvents (get >>= next) := keeps

theorem quiet_terminate (terminator : Terminator) (span : Span) :
    Quiet events (terminate terminator span) :=
  fun _ => rfl

theorem quiet_newBlock : Quiet events newBlock := fun _ => rfl

theorem quiet_switchTo (block : BlockId) : Quiet events (switchTo block) := fun _ => rfl

theorem quiet_guardStatement (condition : Expression) (kind : GuardKind) (message : Option String)
    (span : Span) :
    Quiet events (guardStatement condition kind message span) :=
  (quiet_typed condition .bool).bind fun _ => quiet_newBlock.bind fun _ =>
    (quiet_terminate _ _).bind fun _ =>
    quiet_switchTo _

theorem quiet_returnStatement (value : Option Expression) (span : Span) :
    Quiet events (returnStatement value span) :=
  quiet_get.bind fun builder => by
    cases value with
    | none =>
      cases builder.returns with
      | none => exact quiet_terminate _ _
      | some ty => exact quiet_fail _ _
    | some value =>
      cases builder.returns with
      | none => exact quiet_fail _ _
      | some ty => exact (quiet_typed value ty).bind fun _ => quiet_terminate _ _

theorem keepsEvents_emission (event : Ident) (args : List Expression) (span : Span) :
    KeepsEvents (emission event args span) := by
  refine keepsEvents_get fun builder => ?_
  cases known : builder.events.types? event.name with
  | some types =>
    dsimp only
    split
    · exact (quiet_fail _ _).keepsEvents builder
    · exact ((quiet_arguments args types).bind fun _ => quiet_emit _ _).keepsEvents builder
  | none =>
    rcases left_bind (args.mapM fun arg => expression arg none) _
      builder with ⟨results, middle, lowered, same⟩ | same
    · have quiet : Quiet events (args.mapM fun arg => expression arg none) :=
        quiet_mapM_expression args
      have before := quiet.of_ok lowered
      rw [same]
      change builder.events.Extends (middle.events.imply event.name (results.map Prod.snd))
      rw [before]
      exact EventScope.extends_imply known _
    · rw [same]
      exact (quiet_mapM_expression args).keepsEvents builder

theorem keepsEvents_inBlock {body : Build Unit} (keeps : KeepsEvents body) :
    KeepsEvents (inBlock body) :=
  have opens : Quiet events
      (modify fun builder => { builder with visible := [] :: builder.visible }) := fun _ => rfl
  have closes : Quiet events
      (modify fun builder => { builder with visible := builder.visible.tail }) := fun _ => rfl
  opens.before fun _ => keeps.bind fun _ => closes.keepsEvents

theorem quiet_continueDead : Quiet events continueDead :=
  quiet_get.bind fun builder => by
    split
    · exact quiet_newBlock.bind fun _ => quiet_switchTo _
    · exact quiet_pure _

theorem keepsEvents_conditional (condition : Expression) (thenSpan : Span) {thenBody : Build Unit}
    (elsePart : Option (Span × Build Unit)) (thenKeeps : KeepsEvents thenBody)
    (elseKeeps : ∀ part, elsePart = some part → KeepsEvents part.2) :
    KeepsEvents (conditional condition thenSpan thenBody elsePart) := by
  refine (quiet_typed condition .bool).before fun _ => quiet_newBlock.before fun _ =>
    quiet_newBlock.before fun _ => ?_
  cases elsePart with
  | none =>
    exact (quiet_terminate _ _).before fun _ => (quiet_switchTo _).before fun _ =>
      thenKeeps.bind fun _ =>
      (quiet_terminate _ _).before fun _ => (quiet_switchTo _).keepsEvents
  | some part =>
    exact quiet_newBlock.before fun _ => (quiet_terminate _ _).before fun _ =>
      (quiet_switchTo _).before fun _ =>
      thenKeeps.bind fun _ => (quiet_terminate _ _).before fun _ =>
        (quiet_switchTo _).before fun _ =>
        (elseKeeps part rfl).bind fun _ => (quiet_terminate _ _).before fun _ =>
          (quiet_switchTo _).keepsEvents

theorem keepsEvents_loop (condition : Expression) (span bodySpan : Span) {body : Build Unit}
    (keeps : KeepsEvents body) : KeepsEvents (loop condition span bodySpan body) :=
  quiet_newBlock.before fun _ => (quiet_terminate _ _).before fun _ =>
    (quiet_switchTo _).before fun _ =>
    (quiet_typed condition .bool).before fun _ => quiet_newBlock.before fun _ =>
      quiet_newBlock.before fun _ =>
      (quiet_terminate _ _).before fun _ => (quiet_switchTo _).before fun _ => keeps.bind fun _ =>
        (quiet_terminate _ _).before fun _ => (quiet_switchTo _).keepsEvents

mutual

theorem keepsEvents_statement : ∀ source : Statement, KeepsEvents (statement source)
  | .declare span name ty value => (quiet_declaration name ty value span).keepsEvents
  | .assign span target op value => (quiet_assignment target op value span).keepsEvents
  | .require span condition message =>
    (quiet_guardStatement condition .require message span).keepsEvents
  | .assert span condition => (quiet_guardStatement condition .assert none span).keepsEvents
  | .revert span message => (quiet_terminate (.revert message) span).keepsEvents
  | .branch _ condition thenBlock none =>
    keepsEvents_conditional condition thenBlock.span none (keepsEvents_block thenBlock)
      fun _ same => nomatch same
  | .branch _ condition thenBlock (some elseBlock) => by
    have keeps := keepsEvents_block elseBlock
    refine keepsEvents_conditional condition thenBlock.span (some (elseBlock.span, block elseBlock))
      (keepsEvents_block thenBlock) fun part same => ?_
    obtain rfl := Option.some.inj same
    exact keeps
  | .loop span condition body => keepsEvents_loop condition span body.span (keepsEvents_block body)
  | .ret span value => (quiet_returnStatement value span).keepsEvents
  | .emit span event args => keepsEvents_emission event args span
  | .expression _ value => (quiet_callStatement value).keepsEvents

theorem keepsEvents_statements : ∀ sources : List Statement, KeepsEvents (statements sources)
  | [] => (quiet_pure _).keepsEvents
  | first :: rest => quiet_continueDead.before fun _ => (keepsEvents_statement first).bind fun _ =>
      keepsEvents_statements rest

theorem keepsEvents_block : ∀ source : Block, KeepsEvents (block source)
  | .mk body _ => keepsEvents_inBlock (keepsEvents_statements body)

end

theorem keepsEvents_function (header : Header) (body : Block) :
    KeepsEvents (function header body) := by
  refine quiet_get.before fun builder => ?_
  split
  · exact (quiet_fail _ _).keepsEvents
  · refine (quiet_params header.params).before fun declared =>
      (keepsEvents_block body).bind fun _ =>
      quiet_get.before fun _ => quiet_get.before fun _ => (quiet_terminate _ _).before
        fun _ => quiet_get.before fun _ => ?_
    dsimp only
    split
    · exact (quiet_fail _ _).keepsEvents
    · exact (quiet_pure _).keepsEvents

end Build

namespace Lowering

variable (scope : ContractScope)

theorem functionOf_extends (events : EventScope) (header : Header) (body : Block) :
    events.Extends (functionOf scope events header body).2 := by
  have keeps := Build.keepsEvents_function header body
    (Builder.start scope header.name (header.returns.map Ty.ofExpr) events)
  unfold functionOf
  cases built : Build.function header body
    (Builder.start scope header.name (header.returns.map Ty.ofExpr) events) with
  | ok result final =>
    rw [built] at keeps
    exact keeps
  | error problem final =>
    rw [built] at keeps
    exact keeps

/-- Every event that a lowered function knows stays known, whether or not other functions can be
lowered. -/
theorem functionsOf_extends (events : EventScope) (bodies : List (Header × Block)) :
    events.Extends (functionsOf scope events bodies).2.1 ∧
      ∀ function ∈ (functionsOf scope events bodies).1, ∃ header body known final,
        (header, body) ∈ bodies ∧
        Build.function header body
          (Builder.start scope header.name (header.returns.map Ty.ofExpr) known) =
          .ok function final ∧ final.events.Extends (functionsOf scope events bodies).2.1 := by
  induction bodies generalizing events with
  | nil => exact ⟨.refl events, by simp [functionsOf]⟩
  | cons entry rest ih =>
    obtain ⟨header, body⟩ := entry
    have first := functionOf_extends scope events header body
    simp only [functionsOf]
    simp only [functionOf] at first ⊢
    cases built : Build.function header body
        (Builder.start scope header.name (header.returns.map Ty.ofExpr) events) with
    | ok result final =>
      simp only [built] at first ⊢
      obtain ⟨later, others⟩ := ih final.events
      refine ⟨first.trans later, fun function member => ?_⟩
      rcases List.mem_cons.mp member with rfl | behind
      · exact ⟨header, body, events, final, List.mem_cons_self, built, later⟩
      · obtain ⟨other, text, known, ended, listed, found⟩ := others function behind
        exact ⟨other, text, known, ended, List.mem_cons_of_mem _ listed, found⟩
    | error problem final =>
      simp only [built] at first ⊢
      obtain ⟨later, others⟩ := ih final.events
      refine ⟨first.trans later, fun function member => ?_⟩
      obtain ⟨other, text, known, ended, listed, found⟩ := others function member
      exact ⟨other, text, known, ended, List.mem_cons_of_mem _ listed, found⟩

/-- A body is lowered to a function of its name, or there is a problem with it, which is reported.
-/
theorem functionsOf_cases (events : EventScope) {bodies : List (Header × Block)} {header : Header}
    {body : Block} (member : (header, body) ∈ bodies) :
    (∃ function ∈ (functionsOf scope events bodies).1, function.name = header.name) ∨
      ∃ known problem, (functionOf scope known header body).1 = .error problem ∧
        problem ∈ (functionsOf scope events bodies).2.2 := by
  induction bodies generalizing events with
  | nil => simp at member
  | cons entry rest ih =>
    obtain ⟨first, text⟩ := entry
    simp only [functionsOf]
    cases lowered : functionOf scope events first text with
    | mk result known =>
      rcases List.mem_cons.mp member with same | behind
      · obtain ⟨rfl, rfl⟩ := Prod.mk.inj same
        cases result with
        | ok function =>
          left
          refine ⟨function, List.mem_cons_self, ?_⟩
          unfold functionOf at lowered
          split at lowered
          · rename_i result final built
            obtain ⟨_, _, _, _, _, rfl⟩ := Build.function_eq_ok built
            obtain rfl := Except.ok.inj (Prod.mk.inj lowered).1
            rfl
          · simp at lowered
        | error problem =>
          right
          exact ⟨events, problem, by rw [lowered], List.mem_cons_self⟩
      · cases result with
        | ok function =>
          rcases ih known behind with ⟨found, listed, named⟩ | failed
          · exact .inl ⟨found, List.mem_cons_of_mem _ listed, named⟩
          · exact .inr failed
        | error problem =>
          rcases ih known behind with found | ⟨events, other, failed, listed⟩
          · exact .inl found
          · exact .inr ⟨events, other, failed, List.mem_cons_of_mem _ listed⟩

end Lowering

end Covenant
