import Covenant.Proofs.Syntax.Readable
import Covenant.Syntax.Node

/-!
How deeply the statements of a tree are nested. Each block that a statement stands in costs a level,
of which there are as many as the parser has room for. A conditional behind `else` is read in the
room of the one that it continues, so that a chain of them has any length.
-/

namespace Covenant

def Block.Continues (block : Block) : Prop := ∃ next : Statement, block = .mk [next] next.span

namespace Statement

/-- Whether a statement stands in another one, in the given number of blocks between braces, and
behind the given number of conditions that continue others. The two numbers together are the number
of statements around it. -/
inductive Within (inner : Statement) : Nat → Nat → Statement → Prop
  | self : Within inner 0 0 inner
  | thenBlock {braced chained : Nat} {span condition thenBlock elseBlock} {outer : Statement} :
      outer ∈ thenBlock.statements → Within inner braced chained outer →
      Within inner (braced + 1) chained (.branch span condition thenBlock elseBlock)
  | elseBlock {braced chained : Nat} {span condition thenBlock} {elseBlock : Block}
      {outer : Statement} :
      ¬ elseBlock.Continues → outer ∈ elseBlock.statements → Within inner braced chained outer →
      Within inner (braced + 1) chained (.branch span condition thenBlock (some elseBlock))
  | chained {braced chained : Nat} {span condition thenBlock} {next : Statement} :
      Within inner braced chained next →
      Within inner braced (chained + 1)
        (.branch span condition thenBlock (some (.mk [next] next.span)))
  | loop {braced chained : Nat} {span condition body} {outer : Statement} :
      outer ∈ body.statements → Within inner braced chained outer →
      Within inner (braced + 1) chained (.loop span condition body)

theorem within_of_inner {inner next outer : Statement} {braced chained : Nat}
    (listed : next ∈ outer.inner) (within : Within inner braced chained next) :
    ∃ more further, Within inner more further outer ∧ more + further = braced + chained + 1 := by
  have total : braced + 1 + chained = braced + chained + 1 := Nat.add_right_comm _ _ _
  cases outer with
  | branch span condition thenBlock elseBlock =>
    cases elseBlock with
    | none => exact ⟨_, _, .thenBlock listed within, total⟩
    | some elseBlock =>
      rcases List.mem_append.mp listed with first | second
      · exact ⟨_, _, .thenBlock first within, total⟩
      · by_cases continues : elseBlock.Continues
        · obtain ⟨other, rfl⟩ := continues
          obtain rfl := List.mem_singleton.mp second
          exact ⟨_, _, .chained within, rfl⟩
        · exact ⟨_, _, .elseBlock continues second within, total⟩
  | loop span condition body => exact ⟨_, _, .loop listed within, total⟩
  | _ => cases listed

def next? : Statement → Option Statement
  | branch _ _ _ (some (.mk [next] span)) => if span = next.span then some next else none
  | _ => none

theorem within_of_next? {next stmt : Statement} (same : stmt.next? = some next) :
    Within next 0 1 stmt := by
  unfold next? at same
  split at same
  · obtain ⟨rfl, found⟩ := Option.ite_none_right_eq_some.mp same
    obtain rfl := Option.some.inj found
    exact .chained .self
  · cases same

def Shallow (room : Nat) (stmt : Statement) : Prop :=
  ∀ inner braced chained, Within inner braced chained stmt → braced < room

variable {room : Nat} {span : Span} {condition : Expression} {thenBlock body : Block}

theorem shallow_of_no_inner {stmt : Statement} (plain : stmt.inner = []) :
    stmt.Shallow (room + 1) := by
  intro inner braced chained within
  cases within with
  | self => exact Nat.succ_pos _
  | @thenBlock _ _ _ _ thenBlock elseBlock _ listed =>
    have none : thenBlock.statements = [] := by
      cases elseBlock with
      | none => exact plain
      | some elseBlock => exact (List.append_eq_nil_iff.mp plain).1
    rw [none] at listed
    cases listed
  | elseBlock _ listed =>
    rw [(List.append_eq_nil_iff.mp plain).2] at listed
    cases listed
  | chained => exact absurd (List.append_eq_nil_iff.mp plain).2 (List.cons_ne_nil _ _)
  | @loop _ _ _ _ body _ listed =>
    rw [show body.statements = [] from plain] at listed
    cases listed

end Statement

def Block.Shallow (room : Nat) (block : Block) : Prop :=
  ∀ stmt ∈ block.statements, stmt.Shallow room

namespace Statement

variable {room : Nat} {span : Span} {condition : Expression} {thenBlock body : Block}

theorem shallow_loop (inside : body.Shallow room) :
    (loop span condition body).Shallow (room + 1) := by
  intro inner braced chained within
  cases within with
  | self => exact Nat.succ_pos _
  | loop listed within => exact Nat.succ_lt_succ (inside _ listed inner _ _ within)

theorem shallow_branch {elseBlock : Block} (first : thenBlock.Shallow room)
    (second : elseBlock.Shallow room) :
    (branch span condition thenBlock (some elseBlock)).Shallow (room + 1) := by
  intro inner braced chained within
  cases within with
  | self => exact Nat.succ_pos _
  | thenBlock listed within => exact Nat.succ_lt_succ (first _ listed inner _ _ within)
  | elseBlock _ listed within => exact Nat.succ_lt_succ (second _ listed inner _ _ within)
  | chained within =>
    exact Nat.lt_succ_of_lt (second _ (List.mem_singleton.mpr rfl) inner _ _ within)

theorem shallow_branch_alone (first : thenBlock.Shallow room) :
    (branch span condition thenBlock none).Shallow (room + 1) := by
  intro inner braced chained within
  cases within with
  | self => exact Nat.succ_pos _
  | thenBlock listed within => exact Nat.succ_lt_succ (first _ listed inner _ _ within)

theorem shallow_chain {next : Statement} (first : thenBlock.Shallow room)
    (second : next.Shallow (room + 1)) :
    (branch span condition thenBlock (some (.mk [next] next.span))).Shallow (room + 1) := by
  intro inner braced chained within
  cases within with
  | self => exact Nat.succ_pos _
  | thenBlock listed within => exact Nat.succ_lt_succ (first _ listed inner _ _ within)
  | elseBlock braces => exact absurd ⟨next, rfl⟩ braces
  | chained within => exact second inner _ _ within

end Statement

namespace Parse

variable {room : Nat}

theorem gives_repeatWith {α : Type} {good : α → Prop} {step : Parse (Option α)}
    (inner : Gives (fun found => ∀ item, found = some item → good item) step) (fuel : Nat) :
    Gives (fun items => ∀ item ∈ items, good item) (repeatWith step fuel) := by
  induction fuel with
  | zero => exact gives_pure (by simp)
  | succ fuel ih =>
    refine gives_bind inner fun found holds => ?_
    cases found with
    | none => exact gives_pure (by simp)
    | some item =>
      exact gives_bind ih fun items hold => gives_pure (by simpa using ⟨holds item rfl, hold⟩)

theorem gives_repeated {α : Type} {good : α → Prop} {step : Parse (Option α)}
    (inner : Gives (fun found => ∀ item, found = some item → good item) step) :
    Gives (fun items => ∀ item ∈ items, good item) (repeated step) :=
  keeps_seq keeps_get fun _ => gives_repeatWith inner _

theorem gives_conditional {condition : Parse Expression} {block : Parse Block}
    (test : Strolls condition) (inner : Gives (Block.Shallow room) block) (fuel : Nat) :
    Gives (Statement.Shallow (room + 1)) (conditional condition block fuel) := by
  induction fuel with
  | zero => exact gives_failTooDeep
  | succ fuel ih =>
    refine keeps_seq keeps_span fun _ => keeps_seq (keeps_expectKeyword _) fun _ =>
      keeps_seq test.keeps fun _ => ?_
    refine gives_bind inner fun thenBlock first => keeps_seq (keeps_isAt _) fun _ => gives_ite ?_ ?_
    · refine keeps_seq keeps_bump fun _ => keeps_seq (keeps_isAt _) fun _ => gives_ite ?_ ?_
      · exact gives_bind ih fun next second => keeps_seq keeps_previousStop fun _ =>
          gives_pure (Statement.shallow_chain first second)
      · exact gives_bind inner fun elseBlock second => keeps_seq keeps_previousStop fun _ =>
          gives_pure (Statement.shallow_branch first second)
    · exact keeps_seq keeps_previousStop fun _ => gives_pure (Statement.shallow_branch_alone first)

/-! Statements of the other kinds hold no statements. -/

section Plain

variable (space start : Nat)

theorem gives_declaration : Gives (Statement.Shallow (room + 1)) (declaration space start) :=
  keeps_seq (reads_expectIdent _ _).keeps fun _ => keeps_seq (strolls_eat _).keeps fun _ =>
    keeps_optional (reads_typeExpr _).keeps fun _ => keeps_seq (reads_expect _).keeps fun _ =>
      keeps_seq (reads_expression _).keeps fun _ => keeps_seq keeps_previousStop fun _ =>
        gives_pure (Statement.shallow_of_no_inner rfl)

theorem gives_requirement : Gives (Statement.Shallow (room + 1)) (requirement space start) :=
  keeps_seq (reads_expect _).keeps fun _ => keeps_seq (reads_expression _).keeps fun _ =>
    keeps_seq (strolls_eat _).keeps fun _ => keeps_optional reads_expectString.keeps fun _ =>
      keeps_seq (reads_expect _).keeps fun _ => keeps_seq keeps_previousStop fun _ =>
        gives_pure (Statement.shallow_of_no_inner rfl)

theorem gives_assertion : Gives (Statement.Shallow (room + 1)) (assertion space start) :=
  keeps_seq (reads_expect _).keeps fun _ => keeps_seq (reads_expression _).keeps fun _ =>
    keeps_seq (reads_expect _).keeps fun _ => keeps_seq keeps_previousStop fun _ =>
      gives_pure (Statement.shallow_of_no_inner rfl)

theorem gives_reversion : Gives (Statement.Shallow (room + 1)) (reversion start) := by
  refine keeps_seq (reads_expect _).keeps fun _ => keeps_seq keeps_peek fun _ => ?_
  split
  · exact keeps_seq (reads_expectString.strolls.map _).keeps fun _ =>
      keeps_seq (reads_expect _).keeps fun _ =>
      keeps_seq keeps_previousStop fun _ => gives_pure (Statement.shallow_of_no_inner rfl)
  · exact keeps_seq (keeps_pure _) fun _ => keeps_seq (reads_expect _).keeps fun _ =>
      keeps_seq keeps_previousStop fun _ => gives_pure (Statement.shallow_of_no_inner rfl)

theorem gives_returned : Gives (Statement.Shallow (room + 1)) (returned space start) :=
  keeps_seq keeps_get fun _ => keeps_optional (reads_expression _).keeps fun _ =>
    keeps_seq keeps_previousStop fun _ => gives_pure (Statement.shallow_of_no_inner rfl)

theorem gives_emission : Gives (Statement.Shallow (room + 1)) (emission space start) :=
  keeps_seq (reads_expectIdent _ _).keeps fun _ =>
    keeps_seq (reads_parenthesised (reads_expression _).strolls).keeps fun _ =>
      keeps_seq keeps_previousStop fun _ => gives_pure (Statement.shallow_of_no_inner rfl)

theorem gives_assignment : Gives (Statement.Shallow (room + 1)) (assignment space start) := by
  refine keeps_seq (reads_expression _).keeps fun _ => keeps_seq keeps_peek fun _ => ?_
  split
  · exact keeps_seq keeps_previousStop fun _ => gives_pure (Statement.shallow_of_no_inner rfl)
  · refine keeps_seq keeps_bump fun _ => ?_
    split
    · exact gives_fail _ _ _
    · exact keeps_seq (reads_expression _).keeps fun _ => keeps_seq keeps_previousStop fun _ =>
        gives_pure (Statement.shallow_of_no_inner rfl)

end Plain

theorem gives_statement (space : Nat) {block : Parse Block}
    (inner : Gives (Block.Shallow room) block) :
    Gives (Statement.Shallow (room + 1)) (statement space block) := by
  refine keeps_seq keeps_span fun _ => keeps_seq keeps_peek fun _ => ?_
  split
  · exact keeps_seq keeps_bump fun _ => gives_declaration _ _
  · exact keeps_seq keeps_bump fun _ => gives_requirement _ _
  · exact keeps_seq keeps_bump fun _ => gives_assertion _ _
  · exact keeps_seq keeps_bump fun _ => gives_reversion _
  · exact keeps_seq keeps_get fun _ => gives_conditional (reads_expression _).strolls inner _
  · exact keeps_seq keeps_bump fun _ => keeps_seq (reads_expression _).keeps fun _ =>
      gives_bind inner fun _ inside =>
      keeps_seq keeps_previousStop fun _ => gives_pure (Statement.shallow_loop inside)
  · exact keeps_seq keeps_bump fun _ => gives_returned _ _
  · exact keeps_seq keeps_bump fun _ => gives_emission _ _
  · exact gives_assignment _ _

theorem gives_block (room : Nat) : Gives (Block.Shallow room) (block room) := by
  induction room with
  | zero => exact gives_failTooDeep
  | succ room ih =>
    refine keeps_seq (reads_expect _).keeps fun opening => ?_
    have closes : Gives (fun found => ∀ stmt, found = some stmt → stmt.Shallow (room + 1))
        (statementOrClose opening (statement room (block room))) := by
      refine keeps_seq keeps_peek fun _ => ?_
      split
      · exact gives_fail _ _ _
      · exact keeps_seq keeps_bump fun _ => gives_pure (by simp)
      · refine gives_map (gives_statement room ih) fun stmt shallow other same => ?_
        rw [← Option.some.inj same]
        exact shallow
    exact gives_bind (gives_repeated closes) fun _ shallow => keeps_seq keeps_previousStop fun _ =>
      gives_pure shallow

end Parse

def ContractDecl.bodies (decl : ContractDecl) : List Block :=
  decl.inits.map InitHandler.body ++ decl.functions.map FunctionDecl.body

def ContractDecl.Shallow (decl : ContractDecl) : Prop :=
  ∀ body ∈ decl.bodies, body.Shallow Parse.nestingLimit

def MemberDecl.Shallow : MemberDecl → Prop
  | field _ => True
  | event _ => True
  | init handler => handler.body.Shallow Parse.nestingLimit
  | function decl => decl.body.Shallow Parse.nestingLimit

namespace Parse

theorem gives_functionDecl_shallow (notes : List Ident) (visibility : Visibility) (start : Nat) :
    Gives MemberDecl.Shallow (functionDecl notes visibility start) :=
  keeps_seq (reads_expectIdent _ _).keeps fun _ => keeps_seq reads_params.keeps fun _ =>
    keeps_seq (strolls_eat _).keeps fun _ => keeps_optional (reads_typeExpr _).keeps fun _ =>
      gives_bind (gives_block _) fun _ shallow => keeps_seq keeps_previousStop fun _ =>
        gives_pure shallow

theorem gives_memberDecl_shallow : Gives MemberDecl.Shallow memberDecl := by
  refine keeps_seq keeps_span fun _ => keeps_seq strolls_annotations.keeps fun _ =>
    keeps_seq keeps_peek fun next => ?_
  split
  · refine keeps_seq keeps_bump fun _ => keeps_seq reads_params.keeps fun _ => ?_
    exact gives_bind (gives_block _) fun _ shallow => keeps_seq keeps_previousStop fun _ =>
      gives_pure shallow
  · exact keeps_seq keeps_bump fun _ => keeps_seq (reads_expectIdent _ _).keeps fun _ =>
      keeps_seq reads_params.keeps fun _ => keeps_seq keeps_previousStop fun _ => gives_pure trivial
  · exact keeps_seq keeps_bump fun _ => gives_functionDecl_shallow _ _ _
  · refine keeps_seq keeps_get fun _ => ?_
    split
    · exact keeps_seq (reads_expectIdent _ _).keeps fun _ =>
        keeps_seq (reads_expect _).keeps fun _ =>
        keeps_seq (reads_typeExpr _).keeps fun _ => keeps_seq keeps_previousStop fun _ =>
          gives_pure trivial
    · exact gives_functionDecl_shallow _ _ _
    · exact keeps_seq keeps_bump fun _ => gives_failExpecting _ _
  · exact gives_failExpecting _ _

end Parse

namespace SyntaxTree

theorem shallow_of_read {text : String} {decl : ContractDecl}
    (listed : decl ∈ (read text).tree.contracts) :
    decl.Shallow := by
  refine fine_of_read (Parse.gives_contract Parse.gives_memberDecl_shallow ?_) listed
  intro decls good notes name span body member
  rcases List.mem_append.mp member with handled | called
  · obtain ⟨handler, declared, rfl⟩ := List.mem_map.mp handled
    obtain ⟨decl, among, same⟩ := List.mem_filterMap.mp declared
    have shallow := good decl among
    cases decl <;> simp only [MemberDecl.init?, reduceCtorEq, Option.some.injEq] at same
    rwa [← same]
  · obtain ⟨function, declared, rfl⟩ := List.mem_map.mp called
    obtain ⟨decl, among, same⟩ := List.mem_filterMap.mp declared
    have shallow := good decl among
    cases decl <;> simp only [MemberDecl.function?, reduceCtorEq, Option.some.injEq] at same
    rwa [← same]

/-- Every statement of a text stands in fewer blocks between braces than the limit, and unless it
stands behind several conditions that continue others, at most as many statements as the limit are
around it. -/
theorem braces_lt_of_read {text : String} {decl : ContractDecl} {body : Block}
    {inner stmt : Statement} {braced chained : Nat} (listed : decl ∈ (read text).tree.contracts)
    (member : body ∈ decl.bodies) (stands : stmt ∈ body.statements)
    (within : Statement.Within inner braced chained stmt) :
    braced < Parse.nestingLimit ∧ (chained ≤ 1 → braced + chained ≤ Parse.nestingLimit) := by
  have few : braced < Parse.nestingLimit :=
    shallow_of_read listed body member stmt stands inner braced chained within
  exact ⟨few, fun once => by omega⟩

theorem braces_lt_of_read_of_chain :
    let text := "contract A \x7b f() \x7b if true \x7b \x7d else if true \x7b \x7d \x7d \x7d"
    ∃ decl ∈ (read text).tree.contracts, ∃ body ∈ decl.bodies, ∃ stmt ∈ body.statements,
      ∃ inner, Statement.Within inner 0 1 stmt ∧ 0 < Parse.nestingLimit ∧
        0 + 1 ≤ Parse.nestingLimit := by
  intro text
  have continued : ∃ decl ∈ (read text).tree.contracts, ∃ body ∈ decl.bodies,
    ∃ stmt ∈ body.statements,
      stmt.next?.isSome := by decide +kernel
  obtain ⟨decl, listed, body, member, stmt, stands, follows⟩ := continued
  obtain ⟨inner, same⟩ := Option.isSome_iff_exists.mp follows
  have within := Statement.within_of_next? same
  obtain ⟨few, whole⟩ := braces_lt_of_read listed member stands within
  exact ⟨decl, listed, body, member, stmt, stands, inner, within, few, whole (Nat.le_refl _)⟩

end SyntaxTree

end Covenant
