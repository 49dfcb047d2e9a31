import Covenant.Proofs.Lowering.Parallel
import Mathlib.Data.List.Nodup

/-!
What a function that cannot be lowered costs the rest of its contract. The other functions and their
problems are the same whatever its body is, unless they emit an event that the body was the first to
use: such events outlive the failure.
-/

namespace Covenant

namespace EventScope

structure Alike (names : List String) (first second : List Event) (events other : EventScope) :
    Prop where
  types? : ∀ name ∈ names, events.types? name = other.types? name
  implied : ∃ later, events.implied = first ++ later ∧ other.implied = second ++ later

theorem Alike.agreesOn {names : List String} (first second : List Event) {name : String}
    (member : name ∈ names) :
    AgreesOn (Alike names first second) name where
  types? := fun _ _ related => related.types? name member
  imply := by
    intro events other types related
    obtain ⟨later, left, right⟩ := related.implied
    refine ⟨fun asked listed => ?_,
      _, by rw [imply, left, List.append_assoc], by rw [imply, right, List.append_assoc]⟩
    rw [types?_imply, types?_imply, related.types? asked listed]

end EventScope

/-- Whether lowering a block fails at its first statement, an expression that is no call. -/
def Block.failsAtOnce : Block → Bool
  | .mk (.expression _ value :: _) _ =>
    match value with
    | .selfCall _ _ _ => false
    | .externalCall _ _ _ _ => false
    | _ => true
  | _ => false

namespace Build

variable {α β : Type}

def Stops (step : Build α) : Prop :=
  ∀ builder, ∃ problem final, step builder = .error problem final ∧ final.events = builder.events

theorem stops_fail (cause : SemanticCause) (span : Span) : Stops (fail cause span : Build α) :=
  fun builder => ⟨_, builder, rfl, rfl⟩

theorem Stops.bind {step : Build α} (stops : Stops step) (next : α → Build β) :
    Stops (step >>= next) := by
  intro builder
  obtain ⟨problem, final, failed, same⟩ := stops builder
  exact ⟨problem, final, by simp only [Bind.bind, EStateM.bind, failed], same⟩

theorem Quiet.stops {step : Build α} {next : α → Build β} (quiet : Quiet Builder.events step)
    (stops : ∀ value, Stops (next value)) : Stops (step >>= next) := by
  intro builder
  have kept := quiet builder
  simp only [Bind.bind, EStateM.bind]
  cases stepped : step builder with
  | error problem final =>
    rw [stepped] at kept
    exact ⟨problem, final, rfl, kept⟩
  | ok value middle =>
    rw [stepped] at kept
    obtain ⟨problem, final, failed, same⟩ := stops value middle
    exact ⟨problem, final, failed, same.trans kept⟩

theorem stops_block {body : Block} (stops : body.failsAtOnce = true) : Stops (block body) := by
  unfold Block.failsAtOnce at stops
  split at stops
  · rename_i span value rest whole
    have opens : Quiet Builder.events
        (modify fun builder : Builder => { builder with visible := [] :: builder.visible }) :=
      fun _ => rfl
    have called : Stops (callStatement value) := by
      cases value with
      | selfCall span function args => simp at stops
      | externalCall span kind target amount => simp at stops
      | _ => exact stops_fail _ _
    exact opens.stops fun _ => (quiet_continueDead.stops fun _ => called.bind _).bind _
  · simp at stops

theorem stops_function (header : Header) {body : Block} (stops : body.failsAtOnce = true) :
    Stops (function header body) := by
  refine quiet_get.stops fun builder => ?_
  split
  · exact stops_fail _ _
  · exact (quiet_params header.params).stops fun _ => (stops_block stops).bind _

end Build

/-- Whether a contract becomes another one when the body of its handler, or of a function that it
keeps, is replaced. -/
inductive ContractDecl.Rebodied (decl : ContractDecl) : Header → Block → Block → ContractDecl → Prop
  | handler {handler rest body} : decl.inits = handler :: rest →
      Rebodied decl (initHeader handler) handler.body body
        { decl with inits := { handler with body } :: rest }
  | function {first function rest body} : decl.functions = first ++ function :: rest →
      (∀ earlier ∈ first, earlier.name.name ≠ function.name.name) →
      Rebodied decl (functionHeader function) function.body body
        { decl with functions := first ++ { function with body } :: rest }

namespace Lowering

variable {lines : LineTable} {decl other : ContractDecl} {header : Header} {body replaced : Block}

/-! One function, and functions one after another. -/

section Functions

variable (scope : ContractScope) {alike : EventScope → EventScope → Prop}
  {events known : EventScope}

theorem functionOf_parallel (header : Header) {body : Block}
    (agrees : ∀ name ∈ body.eventNames, EventScope.AgreesOn alike name)
    (related : alike events known) :
    (functionOf scope events header body).1 = (functionOf scope known header body).1 ∧
      alike (functionOf scope events header body).2 (functionOf scope known header body).2 ∧
      ∀ problem, (functionOf scope events header body).1 = .error problem →
      problem.function = some header.name := by
  have together := Build.parallel_function header agrees
    (Builder.start scope header.name (header.returns.map Ty.ofExpr) events) known related
  have same : (Builder.start scope header.name (header.returns.map Ty.ofExpr) events).withEvents
    known =
      Builder.start scope header.name (header.returns.map Ty.ofExpr) known := rfl
  rw [same] at together
  unfold functionOf
  generalize Build.function header body
    (Builder.start scope header.name (header.returns.map Ty.ofExpr) events) =
      left, Build.function header body
        (Builder.start scope header.name (header.returns.map Ty.ofExpr) known) =
      right at together
  cases together with
  | ok final _ => exact ⟨rfl, final, by simp⟩
  | error final named => exact ⟨rfl, final, fun problem same => Except.error.inj same ▸ named⟩

theorem functionsOf_parallel (bodies : List (Header × Block))
    (agrees : ∀ entry ∈ bodies, ∀ name ∈ entry.2.eventNames, EventScope.AgreesOn alike name)
    (related : alike events known) :
    (functionsOf scope events bodies).1 = (functionsOf scope known bodies).1 ∧
      alike (functionsOf scope events bodies).2.1 (functionsOf scope known bodies).2.1 ∧
      (functionsOf scope events bodies).2.2 = (functionsOf scope known bodies).2.2 := by
  induction bodies generalizing events known with
  | nil => exact ⟨rfl, related, rfl⟩
  | cons entry rest ih =>
    obtain ⟨header, body⟩ := entry
    obtain ⟨same, further, -⟩ :=
      functionOf_parallel scope header (agrees _ List.mem_cons_self) related
    have behind := ih (fun entry listed => agrees entry (List.mem_cons_of_mem _ listed)) further
    simp only [functionsOf]
    generalize functionOf scope events header body = left, functionOf scope known header body =
      right at same behind
    obtain ⟨result, events⟩ := left
    obtain ⟨_, known⟩ := right
    obtain rfl : result = _ := same
    cases result with
    | ok function => exact ⟨congrArg (function :: ·) behind.1, behind.2⟩
    | error problem => exact ⟨behind.1, behind.2.1, congrArg (problem :: ·) behind.2.2⟩

theorem functionsOf_append (before after : List (Header × Block)) :
    functionsOf scope events (before ++ after) =
      let first := functionsOf scope events before
      let second := functionsOf scope first.2.1 after
      (first.1 ++ second.1, second.2.1, first.2.2 ++ second.2.2) := by
  induction before generalizing events with
  | nil => rfl
  | cons entry rest ih =>
    obtain ⟨header, body⟩ := entry
    simp only [List.cons_append, functionsOf]
    obtain ⟨result, known⟩ := functionOf scope events header body
    cases result with
    | ok function => simp only [ih, List.cons_append]
    | error problem => simp only [ih, List.cons_append]

theorem functionsOf_append_error (before after : List (Header × Block)) {left : EventScope}
    {problem : SemanticError} (reached : (functionsOf scope events before).2.1 = known)
    (failed : functionOf scope known header body = (.error problem, left)) :
    functionsOf scope events (before ++ (header, body) :: after) =
      let first := functionsOf scope events before
      let second := functionsOf scope left after
      (first.1 ++ second.1, second.2.1, first.2.2 ++ problem :: second.2.2) := by
  simp only [functionsOf_append, functionsOf, reached, failed]

theorem functionOf_implied (events : EventScope) (header : Header) (body : Block) :
    ∃ added, (functionOf scope events header body).2.implied = events.implied ++ added := by
  have related : EventScope.Alike body.eventNames events.implied [] events
      { events with implied := [] } :=
    ⟨fun _ _ => rfl, [], by simp, rfl⟩
  have further :=
    (functionOf_parallel scope header (fun _ listed => EventScope.Alike.agreesOn _ _ listed)
      related).2.1
  obtain ⟨added, same, -⟩ := further.implied
  exact ⟨added, same⟩

theorem functionOf_error {problem : SemanticError}
    (failed : (functionOf scope events header body).1 = .error problem) :
    problem.function = some header.name := by
  have agrees (name : String) : EventScope.AgreesOn Eq name :=
    ⟨fun _ _ same => congrArg (EventScope.types? · name) same, fun _ _ types same =>
      congrArg (·.imply name types) same⟩
  exact (functionOf_parallel scope header (fun name _ => agrees name) rfl).2.2 problem failed

theorem functionOf_failsAtOnce (events : EventScope) (header : Header)
    (stops : replaced.failsAtOnce = true) :
    ∃ problem, functionOf scope events header replaced = (.error problem, events) := by
  obtain ⟨problem, final, failed, same⟩ := Build.stops_function header stops
    (Builder.start scope header.name (header.returns.map Ty.ofExpr) events)
  exact ⟨problem, by simp only [functionOf, failed, same]; rfl⟩

/-- What changes when a body that cannot be lowered is replaced by one that fails before it can emit
anything. -/
theorem functionsOf_replaced (before : List (Header × Block)) {after : List (Header × Block)}
    {left : EventScope} {problem : SemanticError}
    (reached : (functionsOf scope events before).2.1 = known)
    (failed : functionOf scope known header body = (.error problem, left))
    (stops : replaced.failsAtOnce = true)
    (untouched : ∀ entry ∈ after, ∀ name ∈ entry.2.eventNames, known.types? name = none →
      left.types? name = none) :
    ∃ functions added later first last again final ended,
      left.implied = known.implied ++ added ∧ again.function = some header.name ∧
      final.implied = known.implied ++ added ++ later ∧ ended.implied = known.implied ++ later ∧
      functionsOf scope events (before ++ (header, body) :: after) =
        (functions, final, first ++ problem :: last) ∧
      functionsOf scope events (before ++ (header, replaced) :: after) =
        (functions, ended, first ++ again :: last) := by
  obtain ⟨again, stopped⟩ := functionOf_failsAtOnce scope known header stops
  obtain ⟨added, grown⟩ := functionOf_implied scope known header body
  have kept := functionOf_extends scope known header body
  rw [failed] at grown kept
  -- What is behind the body starts from other events, but from the same shapes of those that it
  -- emits.
  have related :
      EventScope.Alike (after.flatMap fun entry => entry.2.eventNames) left.implied known.implied
        left known := by
    refine ⟨fun name listed => ?_, [], by simp, by simp⟩
    obtain ⟨entry, member, emitted⟩ := List.mem_flatMap.mp listed
    cases found : known.types? name with
    | none => exact untouched entry member name emitted found
    | some types => exact kept.kept name types found
  have agrees : ∀ entry ∈ after, ∀ name ∈ entry.2.eventNames, EventScope.AgreesOn (EventScope.Alike
      (after.flatMap fun entry => entry.2.eventNames) left.implied known.implied) name :=
    fun entry member name emitted => EventScope.Alike.agreesOn _ _
      (List.mem_flatMap.mpr ⟨entry, member, emitted⟩)
  obtain ⟨same, further, problems⟩ := functionsOf_parallel scope after agrees related
  obtain ⟨later, old, new⟩ := further.implied
  rw [grown] at old
  rw [functionsOf_append_error scope before after reached failed,
    functionsOf_append_error scope before after reached stopped]
  simp only [same, problems]
  exact ⟨_, added, later, _, _, again, _, _, grown, functionOf_error scope (by rw [stopped]), old,
    new, rfl, rfl⟩

end Functions

section SplitRepeated

variable {α : Type} {name : α → String}

/-- Which items are kept does not depend on what the first item of a name holds besides it. -/
theorem splitRepeated_insert (name : α → String) {known : List String} {first : List α}
    {wanted : String} (rest : List α) (fresh : wanted ∉ known)
    (free : ∀ earlier ∈ first, name earlier ≠ wanted) :
    ∃ before after repeated, ∀ item, name item = wanted →
      splitRepeated name known (first ++ item :: rest) = (before ++ item :: after, repeated) := by
  induction first generalizing known with
  | nil =>
    refine ⟨[], (splitRepeated name (wanted :: known) rest).1,
      (splitRepeated name (wanted :: known) rest).2, fun item named => ?_⟩
    simp [splitRepeated, named, fresh]
  | cons earlier others ih =>
    have behind : ∀ other ∈ others, name other ≠ wanted :=
      fun other listed => free other (List.mem_cons_of_mem _ listed)
    simp only [List.cons_append, splitRepeated]
    split
    · obtain ⟨before, after, repeated, kept⟩ := ih fresh behind
      exact ⟨before, after, earlier :: repeated, fun item named => by rw [kept item named]⟩
    · have apart : wanted ∉ name earlier :: known := by
        rw [List.mem_cons, not_or]
        exact ⟨(free earlier List.mem_cons_self).symm, fresh⟩
      obtain ⟨before, after, repeated, kept⟩ := ih apart behind
      exact ⟨earlier :: before, after, repeated,
        fun item named => by rw [kept item named, List.cons_append]⟩

end SplitRepeated

theorem bodiesOf_nodup (decl : ContractDecl) : (bodiesOf decl).Nodup := by
  have functions :
      ((functionDecls decl).map fun function =>
        (ContractDecl.functionHeader function, function.body)).Nodup := by
    refine List.Nodup.of_map (fun entry => entry.1.name) ?_
    rw [List.map_map]
    exact splitRepeated_nodup [] decl.functions
  unfold bodiesOf
  cases decl.inits.head? with
  | none => exact functions
  | some handler =>
    refine List.nodup_cons.mpr ⟨fun member => ?_, functions⟩
    obtain ⟨function, -, same⟩ := List.mem_map.mp member
    have kind : (ContractDecl.functionHeader function).kind = .init :=
      congrArg (fun entry => entry.1.kind) same
    unfold ContractDecl.functionHeader at kind
    cases visible : function.visibility <;> simp [visible] at kind

def outerProblems (lines : LineTable) (decl : ContractDecl) : List SemanticError :=
  let scope := scopeOf lines decl
  (splitRepeated (fun field => field.name.name) [] decl.fields).2.map (fun field =>
      scope.error (.duplicateField field.name.name) none field.name.span) ++
    (declaredEvents lines decl).2.2 ++
    (splitRepeated (fun function => function.name.name) [] decl.functions).2.map (fun function =>
      scope.error (.duplicateFunction function.name.name) none function.name.span) ++
    decl.inits.tail.map fun handler => scope.error .duplicateInit none handler.span

theorem contractOf_problems :
    (contractOf lines decl).2 = outerProblems lines decl ++ (loweredBodies lines decl).2.2 := rfl

end Lowering

namespace ContractDecl

open Lowering

theorem Rebodied.same (lines : LineTable) {decl other : ContractDecl} {header : Header}
    {body replaced : Block} (rebodied : decl.Rebodied header body replaced other) :
    scopeOf lines other = scopeOf lines decl ∧ declaredEvents lines other =
      declaredEvents lines decl ∧
      outerProblems lines other = outerProblems lines decl ∧
      (contractOf lines other).1 =
        { (contractOf lines decl).1 with
          functions := (loweredBodies lines other).1
          events := (declaredEvents lines other).1 ++ (loweredBodies lines other).2.1.implied } ∧
      ∃ before after, bodiesOf decl = before ++ (header, body) :: after ∧
        bodiesOf other = before ++ (header, replaced) :: after := by
  cases rebodied with
  | @handler handler rest _ listed =>
    refine ⟨rfl, rfl, ?_, rfl, [],
      (functionDecls decl).map fun function => (functionHeader function, function.body), ?_, rfl⟩
    · simp only [outerProblems, listed]
      rfl
    · simp only [bodiesOf, listed]
      rfl
  | @function first function rest _ listed free =>
    obtain ⟨before, after, repeated, kept⟩ :=
      splitRepeated_insert (fun function => function.name.name) rest List.not_mem_nil free
    have old : splitRepeated (fun function => function.name.name) [] decl.functions =
        (before ++ function :: after, repeated) := by rw [listed, kept function rfl]
    have new := kept { function with body := replaced } rfl
    have scopes : scopeOf lines
        { decl with functions := first ++ { function with body := replaced } :: rest } =
        scopeOf lines decl := by
      simp only [scopeOf, functionDecls, old, new, List.map_append, List.map_cons]
      rfl
    have declared :
        declaredEvents lines
          { decl with functions := first ++ { function with body := replaced } :: rest } =
          declaredEvents lines decl := by
      simp only [declaredEvents, scopes]
    refine ⟨scopes, declared, ?_, ?_,
      (decl.inits.head?.map fun handler => (initHeader handler, handler.body)).toList ++
        before.map fun function => (functionHeader function, function.body),
      after.map fun function => (functionHeader function, function.body), ?_, ?_⟩
    · simp only [outerProblems, scopes, declared, old, new]
    · rfl
    · simp only [bodiesOf, functionDecls, old, List.map_append, List.map_cons, List.append_assoc]
    · simp only [bodiesOf, functionDecls, new, List.map_append, List.map_cons, List.append_assoc]
      rfl

end ContractDecl

namespace Lowering

variable {lines : LineTable} {decl other : ContractDecl} {header : Header} {body replaced : Block}

/-- A body that cannot be lowered costs its own function, and leaves behind the events that it was
the first to use. All else is as with a body that fails at once, unless a function further behind
emits one of these events. -/
theorem contractOf_rebodied {before after : List (Header × Block)} {known left : EventScope}
    {problem : SemanticError} (rebodied : decl.Rebodied header body replaced other)
    (stops : replaced.failsAtOnce = true)
    (split : bodiesOf decl = before ++ (header, body) :: after)
    (reached : (functionsOf (scopeOf lines decl) (declaredEvents lines decl).2.1 before).2.1 =
      known)
    (failed : functionOf (scopeOf lines decl) known header body = (.error problem, left))
    (untouched : ∀ entry ∈ after, ∀ name ∈ entry.2.eventNames, known.types? name = none →
      left.types? name = none) :
    ∃ earlier added later first last again,
      left.implied = known.implied ++ added ∧
      (contractOf lines decl).1.events = earlier ++ added ++ later ∧
      (contractOf lines other).1 = { (contractOf lines decl).1 with events := earlier ++ later } ∧
      (contractOf lines decl).2 = first ++ problem :: last ∧
      (contractOf lines other).2 = first ++ again :: last ∧
      problem.function = some header.name ∧ again.function = some header.name := by
  obtain ⟨scopes, declared, outer, whole, before', after', old, new⟩ := rebodied.same lines
  -- The body stands in one place only, so this is the place that is known already.
  have distinct := bodiesOf_nodup decl
  rw [split, List.nodup_middle, List.nodup_cons, List.mem_append, not_or] at distinct
  obtain ⟨rfl, -, rfl⟩ := (List.append_cons_inj_of_notMem distinct.1.1 distinct.1.2).mp
    (split.symm.trans old)
  obtain ⟨functions, added, later, first, last, again, final, ended, grown, named, more, fewer,
    lowered, relowered⟩ :=
    functionsOf_replaced (scopeOf lines decl) before reached failed stops untouched
  have bodies : loweredBodies lines decl = (functions, final, first ++ problem :: last) := by
    rw [loweredBodies, old, lowered]
  have others : loweredBodies lines other = (functions, ended, first ++ again :: last) := by
    rw [loweredBodies, scopes, declared, new, relowered]
  refine ⟨(declaredEvents lines decl).1 ++ known.implied, added, later, outerProblems lines decl ++
    first, last, again, grown, ?_, ?_, ?_, ?_, functionOf_error _ (by rw [failed]), named⟩
  · rw [contractOf_events, bodies, more]
    simp only [List.append_assoc]
  · have kept : functions = (contractOf lines decl).1.functions := by
      rw [contractOf_functions, bodies]
    rw [whole, others, declared, fewer, kept]
    simp only [List.append_assoc]
  · rw [contractOf_problems, bodies, List.append_assoc]
  · rw [contractOf_problems, others, outer, List.append_assoc]

theorem contractOf_rebodied_of_two_functions :
    let span : Span := ⟨0, 1⟩
    let one : Expression := .int span "1" 10
    let event (name : String) (value : Expression) : Statement := .emit span ⟨name, span⟩ [value]
    let function (name : String) (body : List Statement) : FunctionDecl :=
      ⟨[], .everyone, ⟨name, span⟩, [], none, .mk body span, span⟩
    let failing := function "f" [event "E" one, .expression span one]
    let behind := function "g" [event "F" (.bool span true)]
    let decl : ContractDecl := ⟨[], ⟨"A", span⟩, [], [], [], [failing, behind], span⟩
    let other := { decl with functions := [function "f" [.expression span one], behind] }
    decl.Rebodied (ContractDecl.functionHeader failing) failing.body
    (.mk [.expression span one] span) other ∧
      ∃ earlier added later, added.map Event.name = ["E"] ∧
        (contractOf (.ofText "") decl).1.events = earlier ++ added ++ later ∧
        (contractOf (.ofText "") other).1 =
          { (contractOf (.ofText "") decl).1 with events := earlier ++ later } := by
  intro span one event function failing behind decl other
  have rebodied :=
    @ContractDecl.Rebodied.function decl [] failing [behind]
      (.mk [.expression span one] span) rfl (by simp)
  have failed : functionOf (scopeOf (.ofText "") decl) ⟨[], []⟩
      (ContractDecl.functionHeader failing) failing.body =
      (.error ⟨.unusedExpression, "A", some "f", ⟨1, 1⟩, span⟩,
        .imply ⟨[], []⟩ "E" [.defaultInteger]) := by
    rfl
  have untouched : ∀ entry ∈ [(ContractDecl.functionHeader behind, behind.body)],
    ∀ name ∈ entry.2.eventNames,
      (⟨[], []⟩ : EventScope).types? name = none →
        (EventScope.imply ⟨[], []⟩ "E" [.defaultInteger]).types? name = none := by
    intro entry listed name emitted _
    obtain rfl := List.mem_singleton.mp listed
    obtain rfl := List.mem_singleton.mp emitted
    rfl
  obtain ⟨earlier, added, later, -, -, -, grown, events, same, -⟩ :=
    contractOf_rebodied rebodied rfl rfl rfl failed untouched
  obtain rfl : _ = added := grown
  exact ⟨rebodied, earlier, _, later, rfl, events, same⟩

/-- A function is lost if it emits an event in another way than one that failed before it. -/
example :
    let functions (body : String) := (ContractSet.ofText
      ("contract A \x7b f() \x7b " ++ body ++
        " \x7d g() \x7b emit E(true) \x7d \x7d")).contracts.map fun contract =>
        contract.functions.map Function.name
    functions "emit E(1) 2" = [[]] ∧ functions "2" = [["g"]] := by
  decide +kernel

end Lowering

end Covenant
