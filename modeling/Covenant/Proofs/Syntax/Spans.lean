import Covenant.Proofs.Source.Lexing
import Covenant.Proofs.Syntax.Tracks

/-!
The spans of a syntax tree. Whatever a text holds, and whatever had to be skipped in it, each node
that is read covers characters of the text, its children stand inside it, one behind another, and
the nodes are visited in the order in which they start.
-/

namespace Covenant

namespace Parse

open ParseState (Ordered Leads)

variable {limit start : Nat} {seen : List Node} {state : ParseState} {token : Token}

/-! Types and expressions. -/

theorem roams_typeWith {part : Parse TypeExpr} {enter : Parse Unit} (inner : Roams limit part)
    (entered : Roams limit enter) : Roams limit (typeWith part enter) := by
  refine (roams_expectIdent _ _).seq fun name => ?_
  split
  · exact roams_pure _
  · refine roams_ite ?_ (tracks_fail _ _ _)
    exact entered.seq fun _ => (roams_expect _).seq fun _ => inner.seq fun _ =>
      (roams_expect _).seq fun _ =>
      inner.seq fun _ => (roams_expect _).seq fun _ => roams_previousStop.seq fun _ => roams_pure _

theorem roams_typeExpr (room : Nat) : Roams limit (typeExpr room) := by
  induction room with
  | zero => exact roams_typeWith tracks_failTooDeep tracks_failTooDeep
  | succ room ih => exact roams_typeWith ih (roams_pure _)

/-- Each further operator makes a node around those of its operands. -/
theorem meets_binaryTail {operand : Parse Expression} (inner : Places limit .expression operand)
    (operators : List (Punct × BinaryOp)) (fuel : Nat) {lhs : Expression}
    (gathered : Gathered limit start [.expression lhs] state) :
    Meets limit (fun expr next => Node.Laid limit start next.previousStop [.expression expr])
      (binaryTail operand operators fuel lhs) state := by
  induction fuel generalizing state lhs with
  | zero => exact meets_pure gathered.ordered gathered.laid
  | succ fuel ih =>
    refine meets_look rfl ?_
    split
    · exact meets_pure gathered.ordered gathered.laid
    · rename_i op found
      refine gathered.skip roams_bump fun _ later gathered =>
        gathered.add inner fun rhs last gathered => ih ?_
      -- The new node reaches from the start of one operand to the end of the other, around both.
      have laid : Node.Laid limit start last.previousStop
          (Node.expression (.binary ⟨lhs.span.start, rhs.span.stop⟩ op lhs rhs)).children :=
        gathered.laid
      have within := laid.within (.expression lhs) List.mem_cons_self
      have ordered := laid.to_last [.expression lhs] (.expression lhs) List.mem_cons_self
      refine ⟨gathered.ordered, gathered.behind, laid.reach [.expression lhs] rfl rfl within.1 ?_⟩
      intro child below
      rcases List.mem_pair.mp below with rfl | rfl
      · exact Nat.le_refl _
      · exact ordered.1

theorem places_binary {operand : Parse Expression} (inner : Places limit .expression operand)
    (levels : List (List (Punct × BinaryOp))) :
    Places limit .expression (binary operand levels) := by
  induction levels with
  | nil => exact inner
  | cons operators tighter ih =>
    intro state ordered
    refine (gathered_start ordered).add ih fun lhs later gathered => meets_look rfl ?_
    exact meets_binaryTail ih _ _ gathered

section Primary

variable {expression : Parse Expression}

theorem meets_envValue (object : String) (ordered : state.Ordered limit)
    (found : state.peek? = some token) :
    Meets limit (fun expr next => Node.Laid limit state.front next.previousStop [.expression expr])
      (envValue object state.span) state := by
  refine (gathered_start ordered).enterBump found fun under =>
    under.skip roams_bump fun _ _ under => ?_
  refine under.skip (roams_expectIdent _ _) fun member later under => ?_
  split
  · exact under.node rfl rfl rfl
  · exact meets_fail _ _ _ under.ordered

theorem meets_externalCall (inner : Places limit .expression expression) (name : String)
    (ordered : state.Ordered limit) (found : state.peek? = some token) :
    Meets limit (fun expr next => Node.Laid limit state.front next.previousStop [.expression expr])
      (externalCall expression name state.span) state := by
  unfold externalCall
  split
  · exact meets_fail _ _ _ ordered
  · refine (gathered_start ordered).enterBump found fun under => ?_
    refine under.add (tracks_parenthesised inner) fun args later under => ?_
    split
    · exact under.node rfl rfl rfl
    · exact meets_look rfl (meets_fail _ _ _ under.ordered)

theorem meets_named (inner : Places limit .expression expression) (name : String)
    (ordered : state.Ordered limit) (found : state.peek? = some token) :
    Meets limit (fun expr next => Node.Laid limit state.front next.previousStop [.expression expr])
      (named expression name) state := by
  refine meets_look rfl ?_
  dsimp only
  split
  · exact meets_ite (meets_envValue name ordered found) (meets_leaf ordered found rfl rfl)
  · exact meets_externalCall inner name ordered found
  · exact meets_leaf ordered found rfl rfl

theorem meets_member (inner : Places limit .expression expression) (ordered : state.Ordered limit)
    (found : state.peek? = some token) :
    Meets limit (fun expr next => Node.Laid limit state.front next.previousStop [.expression expr])
      (member expression state.span.start) state := by
  refine (gathered_start ordered).enterBump found fun under => under.skip (roams_expect _)
    fun _ _ under => ?_
  refine under.skip (roams_expectIdent _ _) fun name _ under =>
    under.skip (roams_isAt _) fun _ _ under => ?_
  refine meets_ite ?_ ?_
  · refine under.add (tracks_parenthesised inner) fun args later under => under.node rfl rfl ?_
    exact List.map_eq_flatMap
  · refine under.skip (roams_eat _) fun _ _ under => meets_ite ?_ (under.node rfl rfl rfl)
    exact under.add inner fun key _ under => under.skip (roams_expect _) fun _ _ under =>
      under.node rfl rfl rfl

theorem children_withSpan (expr : Expression) (span : Span) :
    (Node.expression (expr.withSpan span)).children = (Node.expression expr).children := by
  cases expr <;> rfl

theorem span_withSpan (expr : Expression) (span : Span) : (expr.withSpan span).span = span := by
  cases expr <;> rfl

theorem places_primary (inner : Places limit .expression expression) :
    Places limit .expression (primary expression) := by
  intro state ordered
  refine meets_look rfl (meets_look rfl ?_)
  split <;> rename_i found
  · exact meets_leaf ordered found rfl rfl
  · exact meets_leaf ordered found rfl rfl
  · exact meets_leaf ordered found rfl rfl
  · exact meets_leaf ordered found rfl rfl
  · exact meets_leaf ordered found rfl rfl
  · exact meets_member inner ordered found
  · exact meets_named inner _ ordered found
  · refine (gathered_start ordered).enterBump found fun under =>
      under.add inner fun expr _ under => ?_
    refine under.skip (roams_expect _) fun _ later under => ?_
    have inside : Underway limit state.front (Node.expression expr).children later := under.descend
    exact inside.node rfl (span_withSpan _ _) (children_withSpan _ _)
  · exact tracks_failExpecting _ _ state ordered

end Primary

theorem places_unary (room : Nat) : Places limit .expression (unary room) := by
  induction room with
  | zero =>
    intro state ordered
    refine (gathered_start ordered).enterEat (fun under => ?_) ?_
    · exact (tracks_failTooDeep _ under.ordered).weaken fun _ _ _ laid =>
        laid.widen under.behind (Nat.le_refl _)
    · exact places_primary tracks_failTooDeep state ordered
  | succ room ih =>
    intro state ordered
    refine meets_look rfl ((gathered_start ordered).enterEat (fun under => ?_) ?_)
    · refine under.add ih fun operand last under => ?_
      refine meets_pure under.ordered (under.laid.reach [] rfl rfl (Nat.le_refl _) ?_)
      intro child below
      exact (under.laid.within child below).1
    · exact places_primary (places_binary ih _) state ordered

theorem places_expression (room : Nat) : Places limit .expression (expression room) := by
  cases room with
  | zero => exact tracks_failTooDeep
  | succ room => exact places_binary (places_unary room) _

/-! Statements and blocks. -/

theorem places_conditional {condition : Parse Expression} {block : Parse Block}
    (test : Places limit .expression condition)
    (inner : Tracks limit (fun block => block.statements.map Node.statement) block) (fuel : Nat) :
    Places limit .statement (conditional condition block fuel) := by
  induction fuel with
  | zero => exact tracks_failTooDeep
  | succ fuel ih =>
    intro state ordered
    refine meets_look rfl ?_
    refine (gathered_start ordered).enter (roams_expectKeyword _) ?_ fun _ _ under => ?_
    · intro _ later stepped
      exact ((reads_expectKeyword (by simp) state).of_ok stepped).2 trivial
    refine under.add test fun _ _ under => under.add inner fun thenBlock _ under => ?_
    refine under.skip (roams_isAt _) fun _ _ under => meets_ite ?_ ?_
    · refine under.skip roams_bump fun _ _ under => under.skip (roams_isAt _) fun _ _ under =>
        meets_ite ?_ ?_
      · refine under.add ih fun nested _ under => under.node rfl rfl ?_
        simp [Node.children, Statement.inner, Statement.expressions, Block.statements]
      · refine under.add inner fun elseBlock _ under => under.node rfl rfl ?_
        simp [Node.children, Statement.inner, Statement.expressions]
    · exact under.node rfl rfl rfl

section Statements

variable (room : Nat)

theorem meets_declaration (under : Underway limit start [] state) :
    Meets limit (fun stmt next => Node.Laid limit start next.previousStop [.statement stmt])
      (declaration room start) state := by
  refine under.skip (roams_expectIdent _ _) fun _ _ under =>
    under.skip (roams_eat _) fun _ _ under => ?_
  refine under.skipOptional (roams_typeExpr _) fun _ _ under => under.skip (roams_expect _)
    fun _ _ under => ?_
  exact under.add (places_expression _) fun _ _ under => under.node rfl rfl rfl

theorem meets_requirement (under : Underway limit start [] state) :
    Meets limit (fun stmt next => Node.Laid limit start next.previousStop [.statement stmt])
      (requirement room start) state := by
  refine under.skip (roams_expect _) fun _ _ under => under.add (places_expression _)
    fun _ _ under => ?_
  refine under.skip (roams_eat _) fun _ _ under => under.skipOptional roams_expectString
    fun _ _ under => ?_
  exact under.skip (roams_expect _) fun _ _ under => under.node rfl rfl rfl

theorem meets_assertion (under : Underway limit start [] state) :
    Meets limit (fun stmt next => Node.Laid limit start next.previousStop [.statement stmt])
      (assertion room start) state := by
  refine under.skip (roams_expect _) fun _ _ under => under.add (places_expression _)
    fun _ _ under => ?_
  exact under.skip (roams_expect _) fun _ _ under => under.node rfl rfl rfl

theorem meets_reversion (under : Underway limit start [] state) :
    Meets limit (fun stmt next => Node.Laid limit start next.previousStop [.statement stmt])
      (reversion start) state := by
  refine under.skip (roams_expect _) fun _ _ under => under.skip roams_peek fun _ _ under => ?_
  split
  · refine under.skip (Roams.map roams_expectString _) fun _ _ under => ?_
    exact under.skip (roams_expect _) fun _ _ under => under.node rfl rfl rfl
  · refine under.skip (roams_pure _) fun _ _ under => ?_
    exact under.skip (roams_expect _) fun _ _ under => under.node rfl rfl rfl

theorem meets_returned (under : Underway limit start [] state) :
    Meets limit (fun stmt next => Node.Laid limit start next.previousStop [.statement stmt])
      (returned room start) state := by
  refine meets_look rfl
    (under.addOptional (places_expression _) fun value _ under => under.node rfl rfl ?_)
  cases value <;> rfl

theorem meets_emission (under : Underway limit start [] state) :
    Meets limit (fun stmt next => Node.Laid limit start next.previousStop [.statement stmt])
      (emission room start) state := by
  refine under.skip (roams_expectIdent _ _) fun _ _ under => ?_
  refine under.add (tracks_parenthesised (places_expression _)) fun args _ under =>
    under.node rfl rfl ?_
  simp [Node.children, Statement.expressions, Statement.inner, List.map_eq_flatMap]

theorem children_of_place {target : Expression} {place : Place}
    (taken : place? target = some place) :
    place.key?.toList.map Node.expression = (Node.expression target).children := by
  cases target
    <;> simp only [place?, reduceCtorEq, Option.some.injEq] at taken <;> subst taken <;> rfl

theorem meets_assignment (ordered : state.Ordered limit) :
    Meets limit (fun stmt next => Node.Laid limit state.front next.previousStop [.statement stmt])
      (assignment room state.span.start) state := by
  refine (gathered_start ordered).enter (places_expression _) ?_ fun target _ under => ?_
  · intro _ later stepped
    exact ((reads_expression _ state).of_ok stepped).2 trivial
  refine under.skip roams_peek fun next _ under => ?_
  split
  · exact under.node rfl rfl rfl
  · refine under.skip roams_bump fun _ _ under => ?_
    split
    · exact meets_fail _ _ _ under.ordered
    · rename_i place taken
      refine under.descend.add (places_expression _) fun value _ under => under.node rfl rfl ?_
      simp [Node.children, Statement.expressions, Statement.inner, children_of_place taken]

end Statements

theorem places_statement (room : Nat) {block : Parse Block}
    (inner : Tracks limit (fun block => block.statements.map Node.statement) block) :
    Places limit .statement (statement room block) := by
  intro state ordered
  refine meets_look rfl (meets_look rfl ?_)
  have start := gathered_start ordered
  split <;> rename_i found
  · exact start.enterBump found fun under => meets_declaration room under
  · exact start.enterBump found fun under => meets_requirement room under
  · exact start.enterBump found fun under => meets_assertion room under
  · exact start.enterBump found fun under => meets_reversion under
  · exact meets_look rfl (places_conditional (places_expression room) inner _ state ordered)
  · refine start.enterBump found fun under => under.add (places_expression room) fun _ _ under => ?_
    exact under.add inner fun _ _ under => under.node rfl rfl rfl
  · exact start.enterBump found fun under => meets_returned room under
  · exact start.enterBump found fun under => meets_emission room under
  · exact meets_assignment room ordered

theorem tracks_block (room : Nat) :
    Tracks limit (fun block => block.statements.map Node.statement) (block room) := by
  induction room with
  | zero => exact tracks_failTooDeep
  | succ room ih =>
    intro state ordered
    refine (gathered_start ordered).skip (roams_expect _) fun opening _ gathered => ?_
    have inner : Tracks limit (fun found => found.toList.flatMap fun stmt => [Node.statement stmt])
        (statementOrClose opening (statement room (block room))) := by
      refine fun state ordered => meets_look rfl ?_
      split
      · exact meets_fail _ _ _ ordered
      · exact (gathered_start ordered).skip roams_bump fun _ _ gathered =>
          meets_pure gathered.ordered gathered.laid
      · exact meets_map (places_statement room ih state ordered)
    refine gathered.add (tracks_repeated inner) fun stmts _ gathered =>
      meets_look rfl (meets_pure gathered.ordered ?_)
    simpa [Block.statements, List.map_eq_flatMap] using gathered.laid

end Parse

/-! Declarations. -/

namespace ParseState

variable {limit : Nat} {state : ParseState}

theorem Ordered.skipToMember (depth fuel : Nat) (ordered : state.Ordered limit) :
    state.Leads limit (state.skipToMember depth fuel) := by
  induction fuel generalizing state with
  | zero => exact ordered.leads
  | succ fuel ih =>
    unfold ParseState.skipToMember
    split
    · exact ordered.leads
    · exact ordered.congr rfl rfl
    · split
      · exact ordered.leads
      · split
        · exact ordered.leads
        · exact ordered.bump.trans (ih ordered.bump.ordered)

theorem Ordered.recoverMember (depth before : Nat) (ordered : state.Ordered limit) :
    state.Leads limit (state.recoverMember depth before) := by
  unfold ParseState.recoverMember
  dsimp only
  split
  · exact ordered.bump.trans (ordered.bump.ordered.skipToMember _ _)
  · exact ordered.skipToMember _ _

theorem Ordered.skipToContract (fuel : Nat) (ordered : state.Ordered limit) :
    state.Leads limit (state.skipToContract fuel) := by
  induction fuel generalizing state with
  | zero => exact ordered.leads
  | succ fuel ih =>
    unfold ParseState.skipToContract
    split
    · exact ordered.leads
    · exact ordered.leads
    · exact ordered.bump.trans (ih ordered.bump.ordered)

theorem Ordered.recoverContract (before : Nat) (ordered : state.Ordered limit) :
    state.Leads limit (state.recoverContract before) := by
  have closed {moved : ParseState} (leads : state.Leads limit moved) :
      state.Leads limit { moved.skipToContract (moved.rest.length + 1) with braces := 0 } := by
    have skipped := leads.ordered.skipToContract (moved.rest.length + 1)
    exact (leads.trans skipped).trans (skipped.ordered.congr rfl rfl)
  unfold ParseState.recoverContract
  dsimp only
  split
  · exact closed ordered.bump
  · exact closed ordered.leads

end ParseState

def MemberDecl.nodes : MemberDecl → List Node
  | field decl => [.field decl]
  | event _ => []
  | init handler => [.init handler]
  | function decl => [.function decl]

theorem MemberDecl.nodes_perm (decls : List MemberDecl) :
    ((decls.filterMap field?).map Node.field ++ (decls.filterMap init?).map Node.init ++
      (decls.filterMap function?).map Node.function).Perm (decls.flatMap nodes) := by
  induction decls with
  | nil => exact .nil
  | cons decl decls ih =>
    rw [List.flatMap_cons]
    cases decl with
    | field decl => exact ih.cons _
    | event decl => exact ih
    | init handler =>
      rw [List.append_assoc] at ih ⊢
      exact List.perm_middle.trans (ih.cons _)
    | function decl => exact List.perm_middle.trans (ih.cons _)

namespace Parse

open ParseState (Ordered Leads)

variable {limit start : Nat} {seen : List Node} {state : ParseState} {token : Token}

theorem roams_annotations : Roams limit annotations := by
  have inner : Roams limit annotation :=
    (roams_eat _).seq fun _ => roams_ite (Roams.map (roams_expectIdent _ _) _) (roams_pure _)
  have silent : Tracks limit (fun found => found.toList.flatMap fun _ => []) annotation :=
    inner.tracks (by simp)
  exact (tracks_repeated silent).roams

theorem roams_params : Roams limit params := by
  have inner : Roams limit param :=
    (roams_expectIdent _ _).seq fun _ => (roams_expect _).seq fun _ =>
      (roams_typeExpr _).seq fun _ => roams_pure _
  exact (tracks_parenthesised inner).roams

theorem meets_functionDecl (notes : List Ident) (visibility : Visibility)
    (gathered : Gathered limit start [] state) :
    Meets limit (fun decl next => Node.Laid limit start next.previousStop decl.nodes)
      (functionDecl notes visibility start) state := by
  refine gathered.enter (roams_expectIdent _ _) ?_ fun name _ under => ?_
  · intro _ later stepped
    exact ((reads_expectIdent _ _ state).of_ok stepped).2 trivial
  refine under.skip roams_params fun _ _ under => under.skip (roams_eat _) fun _ _ under => ?_
  refine under.skipOptional (roams_typeExpr _) fun _ _ under =>
    under.add (tracks_block _) fun _ _ under => ?_
  exact under.node rfl rfl rfl

theorem meets_fieldDecl (gathered : Gathered limit start [] state) :
    Meets limit (fun decl next => Node.Laid limit start next.previousStop decl.nodes)
      (fieldDecl start) state := by
  refine gathered.enter (roams_expectIdent _ _) ?_ fun name _ under => ?_
  · intro _ later stepped
    exact ((reads_expectIdent _ _ state).of_ok stepped).2 trivial
  exact under.skip (roams_expect _) fun _ _ under => under.skip (roams_typeExpr _) fun _ _ under =>
    under.node rfl rfl rfl

theorem tracks_memberDecl : Tracks limit MemberDecl.nodes memberDecl := by
  refine fun state ordered =>
    meets_look rfl ((gathered_start ordered).skip roams_annotations fun _ _ gathered => ?_)
  refine meets_look rfl ?_
  split <;> rename_i found
  · refine gathered.enterBump found fun under => under.skip roams_params fun _ _ under => ?_
    exact under.add (tracks_block _) fun _ _ under => under.node rfl rfl rfl
  · refine gathered.enterBump found fun under => under.skip (roams_expectIdent _ _)
      fun _ _ under => ?_
    refine under.skip roams_params fun _ _ under => under.skip roams_previousStop
      fun _ _ under => ?_
    exact meets_pure under.ordered under.laid
  · exact gathered.enterBump found fun under => meets_functionDecl _ _ under.toGathered
  · refine meets_look rfl ?_
    split
    · exact meets_fieldDecl gathered
    · exact meets_functionDecl _ _ gathered
    · exact gathered.enterBump found fun under => meets_look rfl (meets_throw _ under.ordered)
  · exact meets_look rfl (meets_throw _ gathered.ordered)

theorem tracks_attempt {α : Type} {view : α → List Node} {step : Parse α}
    (inner : Tracks limit view step) :
    Tracks limit (fun found => found.toOption.toList.flatMap view) (attempt step) := by
  intro state ordered
  have meets := inner state ordered
  unfold Meets
  cases stepped : step state with
  | ok result next =>
    have attempted := attempt_of_ok stepped
    obtain ⟨leads, laid⟩ := meets.of_ok stepped
    rw [attempted]
    exact ⟨leads, by simpa [Except.toOption] using laid⟩
  | error problem next =>
    have attempted := attempt_of_error stepped
    rw [attempted]
    exact ⟨meets.of_error stepped, Node.laid_nil _ _ _⟩

theorem Gathered.finish {α : Type} {view : α → List Node}
    (gathered : Gathered limit start seen state) (problems : List Diagnostic) :
    Meets limit (fun found next => Node.Laid limit start next.previousStop
      (seen ++ found.1.flatMap view)) (pure ([], problems) : Parse (Found α)) state :=
  meets_pure gathered.ordered (by simpa using gathered.laid)

theorem meets_members (name : Ident) (depth fuel : Nat)
    (gathered : Gathered limit start seen state) :
    Meets limit (fun found next => Node.Laid limit start next.previousStop
      (seen ++ found.1.flatMap MemberDecl.nodes)) (members name depth fuel) state := by
  induction fuel generalizing state seen with
  | zero => exact gathered.finish _
  | succ fuel ih =>
    refine meets_look rfl ?_
    split
    · exact gathered.finish _
    · exact gathered.skip roams_bump fun _ _ gathered => gathered.finish _
    · exact gathered.finish _
    · refine gathered.add (tracks_attempt tracks_memberDecl) fun found _ gathered => ?_
      split
      · refine (ih gathered).bind fun found last _ leads laid => meets_pure leads.ordered ?_
        simpa [Except.toOption] using laid
      · refine gathered.skip (roams_modify fun _ ordered => ordered.recoverMember _ _)
          fun _ _ gathered => ?_
        refine (ih gathered).bind fun found last _ leads laid => meets_pure leads.ordered ?_
        simpa [Except.toOption] using laid

theorem tracks_members (name : Ident) (depth fuel : Nat) :
    Tracks limit (fun found => found.1.flatMap MemberDecl.nodes) (members name depth fuel) :=
  fun _ ordered => meets_members name depth fuel (gathered_start ordered)

theorem Underway.perm {others : List Node} (under : Underway limit start seen state)
    (same : others.Perm seen)
    (ordered : others.Pairwise fun first second => first.span.start ≤ second.span.start) :
    Underway limit start others state :=
  ⟨⟨under.ordered, under.behind, under.laid.perm same ordered⟩, under.begun⟩

/-- The declarations of a contract, sorted by their kinds and then by their places, stand where they
were read. -/
theorem places_contract : Places limit (fun found => .contract found.1) contract := by
  intro state ordered
  refine meets_look rfl
    ((gathered_start ordered).skip roams_annotations fun notes middle gathered => ?_)
  refine gathered.enter (roams_expectKeyword _) ?_ fun _ _ under => ?_
  · intro _ later stepped
    rcases expectKeyword_cases .contractWord middle with ⟨found, started⟩ | ⟨_, problem, failed⟩
    · rw [started] at stepped
      obtain rfl : middle.bump = later := by injection stepped
      exact ParseState.length_bump found
    · rw [failed] at stepped
      cases stepped
  refine under.skip (roams_expectIdent _ _) fun name _ under => under.skip (roams_expect _)
    fun _ _ under => ?_
  refine meets_look rfl (under.add (tracks_members _ _ _) fun found _ under => ?_)
  obtain ⟨decls, problems⟩ := found
  refine under.skip (roams_modify fun _ ordered => ordered.congr rfl rfl) fun _ _ under => ?_
  refine (under.perm ?_ ?_).node rfl rfl rfl
  · exact (List.mergeSort_perm _ _).trans (MemberDecl.nodes_perm decls)
  · refine (List.pairwise_mergeSort ?_ ?_ _).imp ?_
    · intro first second third
      simpa using Nat.le_trans
    · intro first second
      simpa using Nat.le_total _ _
    · intro first second
      simp

theorem meets_contracts (fuel : Nat) (gathered : Gathered limit start seen state) :
    Meets limit (fun found next =>
      Node.Laid limit start next.previousStop
        (seen ++ found.1.flatMap fun decl => [.contract decl]))
      (contracts fuel) state := by
  induction fuel generalizing state seen with
  | zero => exact gathered.finish _
  | succ fuel ih =>
    refine meets_look rfl (meets_ite (gathered.finish _) ?_)
    refine gathered.add (tracks_attempt places_contract) fun found _ gathered => ?_
    split
    · refine (ih gathered).bind fun found last _ leads laid => meets_pure leads.ordered ?_
      simpa [Except.toOption] using laid
    · refine gathered.skip (roams_modify fun _ ordered => ordered.recoverContract _)
        fun _ _ gathered => ?_
      refine (ih gathered).bind fun found last _ leads laid => meets_pure leads.ordered ?_
      simpa [Except.toOption] using laid

end Parse

namespace SyntaxTree

theorem laid_ofLexemes {chars : List Char} (lines : LineTable) {lexemes : List Lexeme}
    (lays : Lexer.Lays chars 0 lexemes) :
    ∃ stop, Node.Laid chars.length 0 stop
      ((ofLexemes lines lexemes).1.contracts.map Node.contract) := by
  have ordered : (ParseState.start lines lexemes).Ordered chars.length :=
    ⟨lays.filled, lays.apart, lays.behind, Nat.zero_le _⟩
  have gathered : Parse.Gathered chars.length 0 [] (ParseState.start lines lexemes) :=
    ⟨ordered, Nat.zero_le _, Node.laid_nil _ _ _⟩
  have meets := Parse.meets_contracts (lexemes.length + 1) gathered
  unfold ofLexemes
  split
  · rename_i contracts problems last read
    exact ⟨last.previousStop, by simpa [List.map_eq_flatMap] using (meets.of_ok read).2⟩
  · exact ⟨0, Node.laid_nil _ _ _⟩

theorem laid_read (text : String) :
    ∃ stop, Node.Laid text.length 0 stop ((read text).tree.contracts.map Node.contract) := by
  have lays : Lexer.Lays text.toList 0
      ((Lexer.run (.ofChars text.toList) text.toList).lexemes.getD []) := by
    cases read : (Lexer.run (.ofChars text.toList) text.toList).lexemes with
    | none => exact Lexer.lays_nil _ _
    | some lexemes => exact Lexer.run_lays read
  rw [← String.length_toList]
  exact laid_ofLexemes _ lays

/-- Every node that is visited covers characters of the text and holds its children apart and in
order. The nodes visited are the parts of the tree, each one once and in pre-order, and none starts
before the one visited before it. -/
theorem nodes_lie_in_order (text : String) :
    let tree := (read text).tree
    (∀ node ∈ tree.nodes, node.span.start < node.span.stop ∧ node.span.stop ≤ text.length ∧
      (∀ child ∈ node.children, node.span.start ≤ child.span.start ∧
        child.span.stop ≤ node.span.stop) ∧
      node.children.Pairwise fun first second => first.span.stop ≤ second.span.start) ∧
      (∀ node, node ∈ tree.nodes ↔ tree.Has node) ∧ tree.nodes.Nodup ∧
      Node.Preorder (tree.contracts.map Node.contract) tree.nodes ∧
      tree.nodes.Pairwise fun first second => first.span.start ≤ second.span.start := by
  obtain ⟨stop, laid⟩ := laid_read text
  intro tree
  have before : tree.nodes.Pairwise Node.Before := by
    rw [nodes_eq]
    exact laid.pairwise_before
  refine ⟨?_, fun node => mem_nodes_iff, before.imp And.left, preorder_nodes tree,
    before.imp And.right⟩
  intro node member
  rw [nodes_eq] at member
  obtain ⟨root, listed, below⟩ := List.mem_flatMap.mp member
  have neat := laid.neat root listed node below
  exact ⟨neat.filled, neat.inside, neat.around, neat.apart⟩

end SyntaxTree

end Covenant
