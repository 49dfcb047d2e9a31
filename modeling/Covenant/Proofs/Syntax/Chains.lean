import Covenant.Proofs.Source.Lexing
import Covenant.Proofs.Syntax.Nesting
import Covenant.Proofs.Syntax.Printing

/-!
The depth to which statements are nested. Braces are bounded by the limit of the parser. Conditions
that continue others are not: for each number there is a text that is read without a problem and in
which so many of them are nested.
-/

namespace Covenant

namespace Parse

variable {state : ParseState} {rest : List Token}

theorem expectKeyword_of_tokens {word : Keyword} (left : state.tokens = .keyword word :: rest) :
    expectKeyword word state = .ok () state.bump := by
  rcases expectKeyword_cases word state with ⟨_, read⟩ | ⟨other, _⟩
  · exact read
  · exact absurd (ParseState.peek_of_tokens left) other

theorem close_of_tokens (left : state.tokens = .punct .rightBrace :: rest) (opening : Span)
    (statement : Parse Statement) :
    statementOrClose opening statement state = .ok none state.bump := by
  rw [statementOrClose, bind_of_ok (peek_run state), ParseState.peek_of_tokens left]
  rfl

theorem statement_of_tokens {word : Keyword} (left : state.tokens = .keyword word :: rest)
    {opening : Span} {statement : Parse Statement} {stmt : Statement} {next : ParseState}
    (read : statement state = .ok stmt next) :
    statementOrClose opening statement state = .ok (some stmt) next := by
  rw [statementOrClose, bind_of_ok (peek_run state), ParseState.peek_of_tokens left]
  simp only [Functor.map, EStateM.map, read]

theorem block_of_statements {room : Nat} {middle : ParseState} {stmts : List Statement}
    (left : state.tokens = .punct .leftBrace :: rest)
    (read : ∀ opening,
      repeated (statementOrClose opening (statement room (block room))) state.bump =
      .ok stmts middle) : ∃ span, block (room + 1) state = .ok (.mk stmts span) middle := by
  obtain ⟨opening, opened⟩ := expect_of_tokens left
  refine ⟨⟨opening.start, middle.previousStop⟩, ?_⟩
  rw [block, bind_of_ok opened, bind_of_ok (read opening)]
  rfl

theorem repeated_nothing {α : Type} {step : Parse (Option α)} {next : ParseState}
    (read : step state = .ok none next) :
    repeated step state = .ok [] next := by
  rw [repeated, bind_of_ok (get_run state), repeatWith, bind_of_ok read]
  rfl

theorem repeated_once {α : Type} {step : Parse (Option α)} {item : α} {middle next : ParseState}
    (left : state.rest ≠ []) (first : step state = .ok (some item) middle)
    (second : step middle = .ok none next) :
    repeated step state = .ok [item] next := by
  obtain ⟨lexeme, others, same⟩ := List.exists_cons_of_ne_nil left
  have ended : repeatWith step (others.length + 1) middle = .ok [] next := by
    rw [repeatWith, bind_of_ok second]
    rfl
  rw [repeated, bind_of_ok (get_run state), same, List.length_cons, repeatWith, bind_of_ok first]
  simp only
  rw [bind_of_ok ended]
  rfl

def chain : Nat → List Token
  | 0 => [.keyword .ifWord, .keyword .trueWord, .punct .leftBrace, .punct .rightBrace]
  | count + 1 =>
    [.keyword .ifWord, .keyword .trueWord, .punct .leftBrace, .punct .rightBrace,
      .keyword .elseWord] ++
    chain count

theorem chain_cons (count : Nat) : ∃ others, chain count = .keyword .ifWord :: others := by
  cases count <;> exact ⟨_, rfl⟩

theorem length_chain (count : Nat) : (chain count).length = 5 * count + 4 := by
  induction count with
  | zero => rfl
  | succ count ih =>
    rw [chain, List.length_append, ih]
    simp only [List.length_cons, List.length_nil]
    omega

/-- A condition with an empty block, up to where another one may continue it. -/
theorem conditional_head (space room fuel : Nat)
    (left : state.tokens = .keyword .ifWord :: .keyword .trueWord :: .punct .leftBrace ::
      .punct .rightBrace :: rest) :
    ∃ (test : Expression) (span : Span) (after : ParseState), after.tokens = rest ∧
      conditional (expression (space + 1)) (block (room + 1)) (fuel + 1) state = (do
        if ← isAt (.keyword .elseWord) then
          bump
          if ← isAt (.keyword .ifWord) then
            let nested ← conditional (expression (space + 1)) (block (room + 1)) fuel
            return Statement.branch ⟨state.span.start, ← previousStop⟩ test (.mk [] span)
              (some (.mk [nested] nested.span))
          else
            let elseBlock ← block (room + 1)
            return Statement.branch ⟨state.span.start, ← previousStop⟩ test (.mk [] span)
              (some elseBlock)
        else
          return Statement.branch ⟨state.span.start, ← previousStop⟩ test (.mk [] span) none)
        after := by
  have printed : (Expression.bool ⟨0, 0⟩ true).Prints 6 0 [.keyword .trueWord] := .yes
  have tested := (recovers_of_prints printed space (Nat.zero_le _)).stands
  obtain ⟨test, middle, read, _, opens⟩ := tested state.bump _ (ParseState.tokens_bump left)
    (stops_of_mark (by simp) _)
  have closes := ParseState.tokens_bump opens
  obtain ⟨span, nothing⟩ : ∃ span, block (room + 1) middle = .ok (.mk [] span) middle.bump.bump :=
    block_of_statements opens fun opening => repeated_nothing (close_of_tokens closes opening _)
  refine ⟨test, span, middle.bump.bump, ParseState.tokens_bump closes, ?_⟩
  rw [conditional, bind_of_ok (span_run state), bind_of_ok (expectKeyword_of_tokens left),
    bind_of_ok read, bind_of_ok nothing]

/-- By induction on the chain: what stands behind `else` is read in the room of the condition before
it. -/
theorem conditional_chain (space room count : Nat) {fuel : Nat}
    (left : state.tokens = chain count ++ rest) (ends : rest.head? ≠ some (.keyword .elseWord))
    (enough : count < fuel) :
    ∃ stmt next, conditional (expression (space + 1)) (block (room + 1)) fuel state =
      .ok stmt next ∧
      next.tokens = rest ∧ ∃ inner, Statement.Within inner 0 count stmt := by
  induction count generalizing state fuel with
  | zero =>
    obtain ⟨fuel, rfl⟩ := Nat.exists_eq_add_one.mpr enough
    obtain ⟨test, span, after, follows, read⟩ := conditional_head space room fuel left
    refine ⟨.branch ⟨state.span.start, after.previousStop⟩ test (.mk [] span) none, after, ?_,
      follows, _, .self⟩
    rw [read, bind_of_ok (isAt_of_head (follows ▸ ends))]
    rfl
  | succ count ih =>
    obtain ⟨fuel, rfl⟩ := Nat.exists_eq_add_one.mpr (Nat.zero_lt_of_lt enough)
    simp only [chain, List.cons_append, List.nil_append] at left
    obtain ⟨test, span, after, follows, read⟩ := conditional_head space room fuel left
    have continues := ParseState.tokens_bump follows
    obtain ⟨nested, next, deeper, ended, inner, within⟩ :=
      ih continues (Nat.lt_of_succ_lt_succ enough)
    obtain ⟨others, starts⟩ := chain_cons count
    rw [starts, List.cons_append] at continues
    refine ⟨.branch ⟨state.span.start, next.previousStop⟩ test (.mk [] span)
      (some (.mk [nested] nested.span)), next, ?_, ended, inner, .chained within⟩
    rw [read, bind_of_ok (isAt_of_tokens follows)]
    simp only [if_true]
    rw [bind_of_ok (bump_run after), bind_of_ok (isAt_of_tokens continues)]
    simp only [if_true]
    rw [bind_of_ok deeper]
    rfl

/-- A body whose only statement is a chain of conditions. -/
theorem block_chain (room count : Nat)
    (left : state.tokens = .punct .leftBrace :: (chain count ++ .punct .rightBrace :: rest)) :
    ∃ stmt span next, block (room + 2) state = .ok (.mk [stmt] span) next ∧ next.tokens = rest ∧
      ∃ inner, Statement.Within inner 0 count stmt := by
  have opens := ParseState.tokens_bump left
  have enough : count < state.bump.rest.length + 1 := by
    have long := length_chain count
    rw [← ParseState.length_tokens, opens, List.length_append]
    omega
  obtain ⟨stmt, middle, read, after, inner, within⟩ :=
    conditional_chain room room count opens (by simp) enough
  obtain ⟨others, starts⟩ := chain_cons count
  rw [starts, List.cons_append] at opens
  have chosen : statement (room + 1) (block (room + 1)) state.bump = .ok stmt middle := by
    rw [statement, bind_of_ok (span_run state.bump), bind_of_ok (peek_run state.bump),
      ParseState.peek_of_tokens opens]
    exact read
  have some : state.bump.rest ≠ [] := by
    intro none
    rw [ParseState.tokens, none] at opens
    cases opens
  obtain ⟨span, whole⟩ : ∃ span, block (room + 2) state = .ok (.mk [stmt] span) middle.bump :=
    block_of_statements left fun opening =>
      repeated_once some (statement_of_tokens opens chosen) (close_of_tokens after opening _)
  exact ⟨stmt, span, middle.bump, whole, ParseState.tokens_bump after, inner, within⟩

theorem parenthesised_nothing {α : Type} (item : Parse α)
    (left : state.tokens = .punct .leftParen :: .punct .rightParen :: rest) :
    parenthesised item state = .ok [] state.bump.bump := by
  obtain ⟨_, opened⟩ := expect_of_tokens left
  rw [parenthesised, bind_of_ok opened, bind_of_ok (get_run state.bump), itemsWith,
    bind_of_ok (eat_of_tokens (ParseState.tokens_bump left))]
  rfl

theorem annotations_of_tokens {token : Token} (left : state.tokens = token :: rest)
    (other : token ≠ .punct .atSign) :
    annotations state = .ok [] state := by
  refine annotations_of_no_mark ?_
  rw [ParseState.peek_of_tokens left]
  simpa using other

theorem memberDecl_function {name : String} {body : Block} {next : ParseState}
    (left : state.tokens = .ident name :: .punct .leftParen :: .punct .rightParen ::
      .punct .leftBrace :: rest)
    (read : block nestingLimit state.bump.bump.bump = .ok body next) :
    ∃ decl : FunctionDecl, memberDecl state = .ok (.function decl) next ∧ decl.body = body := by
  have opens := ParseState.tokens_bump left
  have unmarked : state.bump.bump.bump.tokens.head? ≠ some (.punct .arrow) := by
    rw [ParseState.tokens_bump (ParseState.tokens_bump opens)]
    simp
  obtain ⟨place, named⟩ := expectIdent_of_tokens left "a function name" none
  refine ⟨⟨[], .everyone, ⟨name, place⟩, [], none, body, ⟨state.span.start, next.previousStop⟩⟩, ?_,
    rfl⟩
  rw [memberDecl, bind_of_ok (span_run state), bind_of_ok (annotations_of_tokens left (by simp)),
    bind_of_ok (peek_run state), ParseState.peek_of_tokens left]
  simp only
  rw [bind_of_ok (get_run state), second_of_tokens left]
  simp only [List.head?_cons]
  rw [functionDecl, bind_of_ok named, params, bind_of_ok (parenthesised_nothing _ opens),
    bind_of_ok (eat_of_head unmarked)]
  simp only [Bool.false_eq_true, if_false]
  rw [bind_of_ok (rfl : (pure none : Parse (Option TypeExpr)) _ = .ok none _), bind_of_ok read]
  rfl

theorem members_function {called : String} {decl : MemberDecl} {middle : ParseState}
    (left : state.tokens = .ident called :: rest) (read : memberDecl state = .ok decl middle)
    (closes : middle.tokens = [.punct .rightBrace]) (name : Ident) (depth fuel : Nat) :
    members name depth (fuel + 2) state = .ok ([decl], []) middle.bump := by
  have attempted := attempt_of_ok read
  have ended : members name depth (fuel + 1) middle = .ok ([], []) middle.bump := by
    rw [members, bind_of_ok (get_run middle), ParseState.peek_of_tokens closes]
    rfl
  rw [members, bind_of_ok (get_run state), ParseState.peek_of_tokens left]
  simp only
  rw [bind_of_ok attempted]
  simp only
  rw [bind_of_ok ended]
  rfl

/-- A contract with a single function, given how the body of that is read. -/
theorem contract_function {name called : String} {body : Block} {middle : ParseState}
    (left : state.tokens = .keyword .contractWord :: .ident name :: .punct .leftBrace ::
      .ident called ::
      .punct .leftParen :: .punct .rightParen :: .punct .leftBrace :: rest)
    (read : block nestingLimit state.bump.bump.bump.bump.bump.bump = .ok body middle)
    (closes : middle.tokens = [.punct .rightBrace]) :
    ∃ decl next, contract state = .ok (decl, []) next ∧ next.rest = [] ∧ decl.bodies = [body] := by
  have named := ParseState.tokens_bump left
  have opens := ParseState.tokens_bump named
  have inside := ParseState.tokens_bump opens
  obtain ⟨place, identified⟩ := expectIdent_of_tokens named "a contract name" none
  obtain ⟨_, opened⟩ := expect_of_tokens opens
  obtain ⟨decl, declared, same⟩ := memberDecl_function inside read
  have ended : middle.bump.rest = [] := List.map_eq_nil_iff.mp (ParseState.tokens_bump closes)
  obtain ⟨fuel, enough⟩ : ∃ fuel, state.bump.bump.bump.rest.length + 1 = fuel + 2 := by
    refine ⟨state.bump.bump.bump.rest.length - 1, ?_⟩
    rw [← ParseState.length_tokens, inside, List.length_cons]
    omega
  refine ⟨⟨[], ⟨name, place⟩, [], [], [], [decl], ⟨state.span.start, middle.bump.previousStop⟩⟩,
    { middle.bump with braces := 0 }, ?_, ended, by simp [ContractDecl.bodies, same]⟩
  rw [contract, bind_of_ok (span_run state), bind_of_ok (annotations_of_tokens left (by simp)),
    bind_of_ok (expectKeyword_of_tokens left), bind_of_ok identified, bind_of_ok opened,
    bind_of_ok (get_run state.bump.bump.bump), enough,
    bind_of_ok (members_function inside declared closes _ _ _)]
  rfl

theorem contracts_alone {decl : ContractDecl} {next : ParseState} (left : state.rest ≠ [])
    (read : contract state = .ok (decl, []) next) (ended : next.rest = []) (fuel : Nat) :
    contracts (fuel + 2) state = .ok ([decl], []) next := by
  have attempted := attempt_of_ok read
  have nothing : contracts (fuel + 1) next = .ok ([], []) next := by
    rw [contracts, bind_of_ok (get_run next), ended]
    rfl
  have goes : state.rest.isEmpty = false := by simpa using left
  rw [contracts, bind_of_ok (get_run state), goes]
  simp only [Bool.false_eq_true, if_false]
  rw [bind_of_ok attempted]
  simp only
  rw [bind_of_ok nothing]
  rfl

end Parse

def chained (count : Nat) : List Token :=
  .keyword .contractWord :: .ident "A" :: .punct .leftBrace :: .ident "f" :: .punct .leftParen ::
    .punct .rightParen :: .punct .leftBrace ::
    (Parse.chain count ++ [.punct .rightBrace, .punct .rightBrace])

theorem chained_writable (count : Nat) : ∀ token ∈ chained count, token.IsWritable := by
  have inner : ∀ token ∈ Parse.chain count, token.IsWritable := by
    induction count with
    | zero => simp [Parse.chain, Token.IsWritable]
    | succ count ih => simpa [Parse.chain, Token.IsWritable] using ih
  have name (char : Char) (start : Lexer.isWordStart char)
      (free : Keyword.ofWord? (String.ofList [char]) = none) :
      (Token.ident (String.ofList [char])).IsWritable :=
    ⟨⟨char, [], by simp, start, by simp⟩, free⟩
  intro token member
  simp only [chained, List.mem_cons, List.mem_append, List.not_mem_nil, or_false] at member
  rcases member with rfl | rfl | rfl | rfl | rfl | rfl | rfl | member | rfl | rfl
  · trivial
  · exact name 'A' (by decide) (by decide +kernel)
  · trivial
  · exact name 'f' (by decide) (by decide +kernel)
  · trivial
  · trivial
  · trivial
  · exact inner token member
  · trivial
  · trivial

namespace SyntaxTree

/-- However many conditions continue one another, they are read. -/
theorem chain_of_read (count : Nat) : ∃ text : String, (read text).problems = [] ∧
    ∃ decl ∈ (read text).tree.contracts, ∃ body ∈ decl.bodies, ∃ stmt ∈ body.statements,
      ∃ inner, Statement.Within inner 0 count stmt := by
  let text := Lexer.written (chained count)
  let lines := LineTable.ofChars text.toList
  obtain ⟨lexemes, lexed, tokens⟩ := Lexer.run_written lines (chained_writable count)
  let state := ParseState.start lines lexemes
  have left : state.tokens = chained count := tokens
  have body := ParseState.tokens_bump
    (ParseState.tokens_bump
      (ParseState.tokens_bump
        (ParseState.tokens_bump (ParseState.tokens_bump (ParseState.tokens_bump left)))))
  obtain ⟨stmt, span, middle, blocked, closes, inner, within⟩ := Parse.block_chain 62 count body
  obtain ⟨decl, next, contracted, ended, bodies⟩ := Parse.contract_function left blocked closes
  obtain ⟨lexeme, others, rfl⟩ : ∃ lexeme others, lexemes = lexeme :: others := by
    cases lexemes with
    | nil => cases left
    | cons lexeme others => exact ⟨lexeme, others, rfl⟩
  have parsed := Parse.contracts_alone (List.cons_ne_nil _ _) contracted ended others.length
  have parts : ofLexemes lines (lexeme :: others) = (⟨[decl]⟩, []) := by
    rw [ofLexemes, List.length_cons, parsed]
  have whole : SyntaxTree.read text = ⟨⟨[decl]⟩, []⟩ := by
    have nothing : ([] : List Diagnostic).mergeSort
        (fun left right => left.span.start ≤ right.span.start) = [] :=
      List.mergeSort_nil
    simp only [SyntaxTree.read, text, lines, lexed, parts, Option.getD_some,
      List.append_nil, nothing]
  refine ⟨text, by rw [whole], decl, by rw [whole]; exact List.mem_cons_self,
    .mk [stmt] span, by simp [bodies], stmt, List.mem_cons_self, inner, within⟩

/-- The number of statements around a statement is not bounded by the limit. -/
theorem nesting_unbounded :
    ¬ ∀ (text : String), ∀ decl ∈ (read text).tree.contracts, ∀ body ∈ decl.bodies,
    ∀ stmt ∈ body.statements, ∀ inner braced chained, Statement.Within inner braced chained stmt →
      braced + chained ≤ Parse.nestingLimit := by
  intro bounded
  obtain ⟨text, _, decl, listed, body, member, stmt, stands, inner, within⟩ :=
    chain_of_read (Parse.nestingLimit + 1)
  have few := bounded text decl listed body member stmt stands inner _ _ within
  omega

end SyntaxTree

end Covenant
