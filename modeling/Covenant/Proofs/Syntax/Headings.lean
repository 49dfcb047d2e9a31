import Covenant.Proofs.Syntax.Walks
import Mathlib.Data.List.Infix

/-!
Recovery from errors neither loses a contract nor invents one. Whatever stands between them, reading
gives one contract for each place at which the word, a name and an opening brace stand one after
another, and it ends behind the last token.
-/

namespace Covenant

namespace Token

def heading? : List Token → Option String
  | .keyword .contractWord :: .ident name :: .punct .leftBrace :: _ => some name
  | _ => none

def headings (tokens : List Token) : List String := tokens.tails.filterMap heading?

theorem headings_nil : headings [] = [] := rfl

theorem headings_cons (token : Token) (rest : List Token) :
    headings (token :: rest) = (heading? (token :: rest)).toList ++ headings rest := by
  rw [headings, List.tails_cons, List.filterMap_cons]
  cases heading? (token :: rest) <;> rfl

theorem headings_cons_of_ne {token : Token} (other : token ≠ .keyword .contractWord)
    (rest : List Token) :
    headings (token :: rest) = headings rest := by
  have none : heading? (token :: rest) = none := by
    unfold heading?
    split
    · rename_i same
      exact absurd (List.cons.inj same).1 other
    · rfl
  rw [headings_cons, none]
  rfl

end Token

namespace ParseState

variable {state next : ParseState}

def headings (state : ParseState) : List String := Token.headings (state.rest.map Lexeme.token)

theorem Passes.headings_eq (passes : state.Passes next) : state.headings = next.headings := by
  obtain ⟨passed, reached, free⟩ := passes
  unfold headings
  rw [reached, List.map_append]
  clear reached
  induction passed with
  | nil => rfl
  | cons lexeme passed ih =>
    rw [List.map_cons, List.cons_append, Token.headings_cons_of_ne (free lexeme (by simp))]
    exact ih fun other member => free other (List.mem_cons_of_mem _ member)

theorem Passes.rest_eq (passes : state.Passes next) (same : next.rest.length = state.rest.length) :
    next.rest = state.rest := by
  obtain ⟨passed, reached, _⟩ := passes
  have none : passed = [] := by
    rw [reached, List.length_append] at same
    exact List.eq_nil_of_length_eq_zero (by omega)
  rw [reached, none, List.nil_append]

theorem headings_of_word (word : state.peek? = some (.keyword .contractWord)) {name : String}
    (named : state.bump.peek? = some (.ident name))
    (opened : state.bump.bump.peek? = some (.punct .leftBrace)) :
    state.headings = name :: state.bump.headings := by
  obtain ⟨first, left⟩ := rest_of_peek word
  obtain ⟨second, later⟩ := rest_of_peek named
  obtain ⟨third, last⟩ := rest_of_peek opened
  rw [headings, headings, left, List.map_cons, Token.headings_cons, later, last]
  rfl

theorem headings_of_unopened (word : state.peek? = some (.keyword .contractWord))
    (unopened : ∀ name, state.bump.peek? = some (.ident name) → state.bump.bump.peek? ≠
      some (.punct .leftBrace)) :
    state.headings = state.bump.headings := by
  obtain ⟨first, left⟩ := rest_of_peek word
  have none : Token.heading? (.keyword .contractWord :: state.bump.rest.map Lexeme.token) =
      none := by
    unfold Token.heading?
    split
    · rename_i name rest same
      have after : state.bump.rest.map Lexeme.token = .ident name :: .punct .leftBrace :: rest :=
        (List.cons.inj same).2
      have named : state.bump.peek? = some (.ident name) := by
        rw [peek?, ← List.head?_map, after]; rfl
      have opened : state.bump.bump.peek? = some (.punct .leftBrace) := by
        rw [peek?, rest_bump, ← List.head?_map, List.map_tail, after]; rfl
      exact absurd opened (unopened name named)
    · rfl
  rw [headings, headings, left, List.map_cons, Token.headings_cons, none]
  rfl

def Stuck (state next : ParseState) : Prop :=
  next.rest.length ≤ state.rest.length ∧
    (next.rest.length = state.rest.length → ∃ token, token ≠ .keyword .contractWord ∧
      next.peek? = some token)

theorem Stuck.moves (stuck : state.Stuck next) :
    ∃ moved, (if next.rest.length == state.rest.length then next.bump else next) = moved ∧
      next.Passes moved ∧
      moved.rest.length < state.rest.length := by
  have bound := stuck.1
  by_cases same : next.rest.length = state.rest.length
  · obtain ⟨token, other, found⟩ := stuck.2 same
    have shorter := length_bump found
    exact ⟨next.bump, by simp [same], passes_bump found other, by omega⟩
  · exact ⟨next, by simp [same], .refl next, by omega⟩

theorem Stuck.recoverContract (stuck : state.Stuck next) :
    next.Passes (next.recoverContract state.rest.length) ∧
      (next.recoverContract state.rest.length).rest.length < state.rest.length := by
  obtain ⟨moved, same, passed, shorter⟩ := stuck.moves
  have skipped := skipToContract_passes (moved.rest.length + 1) moved
  unfold ParseState.recoverContract
  rw [same]
  exact ⟨passed.trans skipped, Nat.lt_of_le_of_lt skipped.length_le shorter⟩

theorem Stuck.recoverMember (depth : Nat) (stuck : state.Stuck next)
    (inside : next.rest.length = state.rest.length → next.peek? ≠ some (.punct .rightBrace)) :
    next.Passes (next.recoverMember depth state.rest.length) ∧
      (next.recoverMember depth state.rest.length).rest.length < state.rest.length := by
  obtain ⟨moved, same, passed, shorter⟩ := stuck.moves
  have skipped := skipToMember_passes depth (moved.rest.length + 1) moved
  have decides : (next.rest.length == state.rest.length && !next.isAt (.punct .rightBrace)) =
      (next.rest.length == state.rest.length) := by
    by_cases equal : next.rest.length = state.rest.length
    · simp [equal, isAt, inside equal]
    · simp [equal]
  unfold ParseState.recoverMember
  rw [decides, same]
  exact ⟨passed.trans skipped, Nat.lt_of_le_of_lt skipped.length_le shorter⟩

end ParseState

namespace Parse

variable {α β : Type} {state : ParseState}

/-! What is read does not depend on the bounds on the rounds of the loops, which are never reached.
-/

theorem bind_eq_bind {step : Parse α} {next other : α → Parse β}
    (same : ∀ result later, step state = .ok result later → next result later =
      other result later) :
    (step >>= next) state = (step >>= other) state := by
  cases stepped : step state with
  | ok result later => rw [bind_of_ok stepped, bind_of_ok stepped, same result later stepped]
  | error problem later => rw [bind_of_error stepped, bind_of_error stepped]

theorem bind_eq_of_eq {step other : Parse α} (same : step state = other state)
    (next : α → Parse β) :
    (step >>= next) state = (other >>= next) state := by
  simp only [bind, EStateM.bind, same]

theorem repeatWith_add {step : Parse (Option α)} (finds : Finds step) {fuel : Nat}
    (enough : state.rest.length < fuel) (more : Nat) :
    repeatWith step (fuel + more) state = repeatWith step fuel state := by
  induction fuel generalizing state with
  | zero => omega
  | succ fuel ih =>
    rw [Nat.succ_add]
    refine bind_eq_bind fun found later stepped => ?_
    cases found with
    | none => rfl
    | some item =>
      have shorter := ((finds state).of_ok stepped).2 rfl
      exact bind_eq_of_eq (ih (by omega)) _

theorem itemsWith_add {item : Parse α} (reads : Reads item) {fuel : Nat}
    (enough : state.rest.length < fuel) (more : Nat) :
    itemsWith item (fuel + more) state = itemsWith item fuel state := by
  induction fuel generalizing state with
  | zero => omega
  | succ fuel ih =>
    rw [Nat.succ_add]
    refine bind_eq_bind fun closed start stepped => ?_
    have started := ((strolls_eat _ state).of_ok stepped).1.length_le
    split
    · rfl
    · refine bind_eq_bind fun first middle found => bind_eq_bind fun separated later eaten => ?_
      have shorter := ((reads start).of_ok found).2 trivial
      have shortest := ((strolls_eat _ middle).of_ok eaten).1.length_le
      split
      · exact bind_eq_of_eq (ih (by omega)) _
      · rfl

theorem binaryTail_add {operand : Parse Expression} (reads : Reads operand)
    (operators : List (Punct × BinaryOp)) {fuel : Nat} (enough : state.rest.length < fuel)
    (more : Nat) (lhs : Expression) :
    binaryTail operand operators (fuel + more) lhs state =
      binaryTail operand operators fuel lhs state := by
  induction fuel generalizing state lhs with
  | zero => omega
  | succ fuel ih =>
    rw [Nat.succ_add]
    refine bind_eq_bind fun operator later looked => ?_
    obtain rfl : state = later := by injection looked
    cases operator with
    | none => rfl
    | some op =>
      refine bind_eq_bind fun _ next bumped => bind_eq_bind fun rhs last read => ?_
      obtain rfl : state.bump = next := by injection bumped
      have shorter := ((reads state.bump).of_ok read).2 trivial
      have bound : state.bump.rest.length ≤ state.rest.length := by simp [ParseState.rest_bump]
      exact ih (by omega) _

theorem conditional_add {condition : Parse Expression} {block : Parse Block}
    (test : Strolls condition) (inner : Strolls block) {fuel : Nat}
    (enough : state.rest.length < fuel) (more : Nat) :
    conditional condition block (fuel + more) state = conditional condition block fuel state := by
  induction fuel generalizing state with
  | zero => omega
  | succ fuel ih =>
    rw [Nat.succ_add]
    refine bind_eq_bind fun start next looked => ?_
    obtain rfl : state = next := by injection looked
    refine bind_eq_bind fun _ opened started => bind_eq_bind fun tested middle read =>
      bind_eq_bind fun thenBlock last closed => bind_eq_bind fun continued after looked => ?_
    have shorter := ((reads_expectKeyword (by simp) state).of_ok started).2 trivial
    have tested := ((test opened).of_ok read).1.length_le
    have branched := ((inner middle).of_ok closed).1.length_le
    obtain rfl : last = after := by injection looked
    split
    · refine bind_eq_bind fun _ later bumped => bind_eq_bind fun chained final seen => ?_
      obtain rfl : last.bump = later := by injection bumped
      obtain rfl : last.bump = final := by injection seen
      have bound : last.bump.rest.length ≤ last.rest.length := by simp [ParseState.rest_bump]
      split
      · exact bind_eq_of_eq (ih (by omega)) _
      · rfl
    · rfl

/-- A round of reading declarations is the last one, or consumes a token. -/
theorem members_succ (name : Ident) (depth : Nat) (state : ParseState) :
    (∃ found last, state.Passes last ∧ ∀ fuel, members name depth (fuel + 1) state =
      .ok found last) ∨
      ∃ (extend : Found MemberDecl → Found MemberDecl) (later : ParseState),
        state.Passes later ∧ later.rest.length < state.rest.length ∧ ∀ fuel,
          members name depth (fuel + 1) state =
            (members name depth fuel >>= fun found => pure (extend found)) later := by
  have looked : (get : Parse ParseState) state = .ok state state := rfl
  simp only [members, bind_of_ok looked]
  cases found : state.peek? with
  | none => exact .inl ⟨_, state, .refl state, fun _ => rfl⟩
  | some token =>
    by_cases closes : token = .punct .rightBrace
    · subst closes
      exact .inl ⟨_, state.bump, ParseState.passes_bump found (by simp), fun _ => rfl⟩
    by_cases starts : token = .keyword .contractWord
    · subst starts
      exact .inl ⟨_, state, .refl state, fun _ => rfl⟩
    refine .inr ?_
    simp only
    cases read : memberDecl state with
    | ok decl later =>
      obtain ⟨passed, shorter⟩ := (reads_memberDecl state).of_ok read
      have attempted := attempt_of_ok read
      refine ⟨fun found => (decl :: found.1, found.2), later, passed, shorter trivial,
        fun fuel => ?_⟩
      rw [bind_of_ok attempted]
    | error problem next =>
      have passed := (reads_memberDecl state).of_error read
      have attempted := attempt_of_error read
      have unmoved (same : next.rest.length = state.rest.length) : next.peek? = some token := by
        rw [ParseState.peek?, passed.rest_eq same]
        exact found
      have stuck : state.Stuck next := ⟨passed.length_le, fun same => ⟨token, starts, unmoved same⟩⟩
      have inside (same : next.rest.length = state.rest.length) :
          next.peek? ≠ some (.punct .rightBrace) := by
        rw [unmoved same]
        simpa using closes
      obtain ⟨skipped, shorter⟩ := stuck.recoverMember depth inside
      refine ⟨fun found => (found.1, problem :: found.2), _, passed.trans skipped, shorter,
        fun fuel => ?_⟩
      rw [bind_of_ok attempted]
      rfl

theorem members_add (name : Ident) (depth : Nat) {fuel : Nat} (enough : state.rest.length < fuel)
    (more : Nat) :
    members name depth (fuel + more) state = members name depth fuel state := by
  induction fuel generalizing state with
  | zero => omega
  | succ fuel ih =>
    rw [Nat.succ_add]
    rcases members_succ name depth state with ⟨found, last, _, ended⟩
      | ⟨extend, later, _, shorter, continued⟩
    · rw [ended, ended]
    · rw [continued, continued]
      exact bind_eq_of_eq (ih (by omega)) _

theorem members_ok (name : Ident) (depth fuel : Nat) (state : ParseState) :
    ∃ found last, members name depth fuel state = .ok found last ∧ state.Passes last := by
  induction fuel generalizing state with
  | zero => exact ⟨_, state, rfl, .refl state⟩
  | succ fuel ih =>
    rcases members_succ name depth state with ⟨found, last, passed, ended⟩
      | ⟨extend, later, passed, _, continued⟩
    · exact ⟨found, last, ended fuel, passed⟩
    · obtain ⟨found, last, ended, further⟩ := ih later
      exact ⟨extend found, last, by rw [continued, bind_of_ok ended]; rfl, passed.trans further⟩

theorem annotations_of_no_mark (plain : state.peek? ≠ some (.punct .atSign)) :
    annotations state = .ok [] state := by
  have unmarked : state.isAt (.punct .atSign) = false := by simpa [ParseState.isAt] using plain
  have looked : isAt (.punct .atSign) state = .ok false state := by rw [← unmarked]; rfl
  have uneaten : eat .atSign state = .ok false state := by rw [eat, bind_of_ok looked]; rfl
  have nothing : annotation state = .ok none state := by rw [ annotation, bind_of_ok uneaten]; rfl
  rw [annotations, repeated, bind_of_ok (rfl : (get : Parse ParseState) state = .ok state state),
    repeatWith, bind_of_ok nothing]
  rfl

theorem expectKeyword_cases (word : Keyword) (state : ParseState) :
    (state.peek? = some (.keyword word) ∧ expectKeyword word state = .ok () state.bump) ∨
      (state.peek? ≠ some (.keyword word) ∧ ∃ problem, expectKeyword word state =
        .error problem state) := by
  have looked : isAt (.keyword word) state = .ok (state.isAt (.keyword word)) state := rfl
  rw [expectKeyword, bind_of_ok looked]
  by_cases found : state.peek? = some (.keyword word)
  · exact .inl ⟨found, by simp [ParseState.isAt, found]; rfl⟩
  · exact .inr ⟨found, _, by simp [ParseState.isAt, found]; rfl⟩

theorem expect_cases (mark : Punct) (state : ParseState) :
    (state.peek? = some (.punct mark) ∧ ∃ span, expect mark state = .ok span state.bump) ∨
      (state.peek? ≠ some (.punct mark) ∧ ∃ problem, expect mark state = .error problem state) := by
  have looked : isAt (.punct mark) state = .ok (state.isAt (.punct mark)) state := rfl
  rw [expect, bind_of_ok looked]
  by_cases found : state.peek? = some (.punct mark)
  · exact .inl ⟨found, _, by simp [ParseState.isAt, found]; rfl⟩
  · exact .inr ⟨found, _, by simp [ParseState.isAt, found]; rfl⟩

theorem eat_cases (mark : Punct) (state : ParseState) :
    (state.peek? = some (.punct mark) ∧ eat mark state = .ok true state.bump) ∨
      (state.peek? ≠ some (.punct mark) ∧ eat mark state = .ok false state) := by
  have looked : isAt (.punct mark) state = .ok (state.isAt (.punct mark)) state := rfl
  rw [eat, bind_of_ok looked]
  by_cases found : state.peek? = some (.punct mark)
  · exact .inl ⟨found, by simp [ParseState.isAt, found]; rfl⟩
  · exact .inr ⟨found, by simp [ParseState.isAt, found]; rfl⟩

theorem expectIdent_cases (what : String) (hint : Option String) (state : ParseState) :
    (∃ ident, state.peek? = some (.ident ident.name) ∧ expectIdent what hint state =
      .ok ident state.bump) ∨
      ((∀ name, state.peek? ≠ some (.ident name)) ∧ ∃ problem, expectIdent what hint state =
        .error problem state) := by
  have looked : peek? state = .ok state.peek? state := rfl
  rw [expectIdent, bind_of_ok looked]
  cases found : state.peek? with
  | none => exact .inr ⟨by simp, _, rfl⟩
  | some token =>
    cases token with
    | ident name => exact .inl ⟨⟨name, state.span⟩, rfl, rfl⟩
    | _ => exact .inr ⟨by simp, _, rfl⟩

def Opens (state : ParseState) :
    EStateM.Result Diagnostic ParseState (ContractDecl × List Diagnostic) → Prop
  | .ok found next =>
    state.headings = found.1.name.name :: next.headings ∧ next.rest.length < state.rest.length
  | .error _ next => state.headings = next.headings ∧ (state.rest ≠ [] → state.Stuck next)

theorem opens_contract (state : ParseState) : Opens state (contract state) := by
  have looked : span state = .ok state.span state := rfl
  rw [contract, bind_of_ok looked]
  cases noted : annotations state with
  | error problem next =>
    rw [bind_of_error noted]
    have passed := (strolls_annotations state).of_error noted
    refine ⟨passed.headings_eq, fun left => ⟨passed.length_le, fun same => ?_⟩⟩
    obtain ⟨lexeme, rest, first⟩ := List.exists_cons_of_ne_nil left
    refine ⟨lexeme.token, fun word => ?_, by rw [ParseState.peek?, passed.rest_eq same, first]; rfl⟩
    -- No annotation stands where a contract starts, so none can fail.
    have plain : annotations state = .ok [] state :=
      annotations_of_no_mark (by simp [ParseState.peek?, first, word])
    rw [plain] at noted
    injection noted
  | ok notes middle =>
    have passed := ((strolls_annotations state).of_ok noted).1
    have bound := passed.length_le
    rw [bind_of_ok noted]
    rcases expectKeyword_cases .contractWord middle with ⟨word, started⟩ | ⟨other, problem, failed⟩
    · have shorter := ParseState.length_bump word
      rw [bind_of_ok started]
      rcases expectIdent_cases "a contract name" none middle.bump with ⟨name, named, read⟩
        | ⟨unnamed, problem, failed⟩
      · have shorter := ParseState.length_bump named
        rw [bind_of_ok read]
        have after := ParseState.passes_bump named (by simp)
        rcases expect_cases .leftBrace middle.bump.bump with ⟨opened, brace, entered⟩
          | ⟨unopened, problem, failed⟩
        · obtain ⟨found, last, ended, inside⟩ := members_ok name middle.bump.bump.bump.braces
            (middle.bump.bump.bump.rest.length + 1) middle.bump.bump.bump
          have here : (get : Parse ParseState) middle.bump.bump.bump = .ok _ _ := rfl
          rw [bind_of_ok entered, bind_of_ok here, bind_of_ok ended]
          have within := (ParseState.passes_bump opened (by simp)).trans inside
          have bound := within.length_le
          refine ⟨?_, by show last.rest.length < _; omega⟩
          rw [passed.headings_eq, ParseState.headings_of_word word named opened, after.headings_eq,
            within.headings_eq]
          rfl
        · rw [bind_of_error failed]
          refine ⟨?_, fun _ => ⟨by omega, by omega⟩⟩
          rw [passed.headings_eq, ParseState.headings_of_unopened word fun _ _ => unopened,
            after.headings_eq]
      · rw [bind_of_error failed]
        refine ⟨?_, fun _ => ⟨by omega, by omega⟩⟩
        rw [passed.headings_eq, ParseState.headings_of_unopened word fun name named =>
          absurd named (unnamed name)]
    · rw [bind_of_error failed]
      refine ⟨passed.headings_eq, fun left => ⟨passed.length_le, fun same => ?_⟩⟩
      obtain ⟨lexeme, rest, first⟩ := List.exists_cons_of_ne_nil left
      have found : middle.peek? = some lexeme.token := by
        rw [ParseState.peek?, passed.rest_eq same, first]; rfl
      exact ⟨lexeme.token, fun word => other (found.trans (congrArg some word)), found⟩

/-- Reading contracts goes on to the end of the tokens. -/
theorem contracts_ok {fuel : Nat} (enough : state.rest.length < fuel) :
    ∃ found last, (∀ more, contracts (fuel + more) state = .ok found last) ∧ last.rest = [] ∧
      found.1.map (fun decl => decl.name.name) = state.headings := by
  induction fuel generalizing state with
  | zero => omega
  | succ fuel ih =>
    have looked : (get : Parse ParseState) state = .ok state state := rfl
    simp only [Nat.succ_add, contracts, bind_of_ok looked]
    by_cases left : state.rest = []
    · exact ⟨([], []), state, fun _ => by simp [left]; rfl,
        left, by simp [ParseState.headings, left, Token.headings_nil]⟩
    have goes : state.rest.isEmpty = false := by simpa using left
    simp only [goes, Bool.false_eq_true, if_false]
    have opens := opens_contract state
    cases read : contract state with
    | ok found next =>
      rw [read] at opens
      have attempted := attempt_of_ok read
      have shorter : next.rest.length < fuel := by
        have := opens.2
        omega
      obtain ⟨others, last, ended, consumed, same⟩ := ih shorter
      refine ⟨(found.1 :: others.1, found.2 ++ others.2), last, fun more => ?_, consumed, ?_⟩
      · rw [bind_of_ok attempted]
        exact bind_of_ok (ended more) _
      · rw [opens.1, List.map_cons, same]
    | error problem next =>
      rw [read] at opens
      have attempted := attempt_of_error read
      obtain ⟨skipped, shorter⟩ := (opens.2 left).recoverContract
      have still : (next.recoverContract state.rest.length).rest.length < fuel := by omega
      obtain ⟨others, last, ended, consumed, same⟩ := ih still
      refine ⟨(others.1, problem :: others.2), last, fun more => ?_, consumed, ?_⟩
      · rw [bind_of_ok attempted]
        exact bind_of_ok (ended more) _
      · rw [opens.1, skipped.headings_eq, same]

end Parse

/-- Reading consumes all tokens, whatever they are, and gives the contracts that start in them. -/
theorem SyntaxTree.contracts_ofLexemes (lines : LineTable) (lexemes : List Lexeme) :
    ∃ contracts problems last, ofLexemes lines lexemes = (⟨contracts⟩, problems) ∧
      (∀ more, Parse.contracts (lexemes.length + 1 + more) (ParseState.start lines lexemes) =
        .ok (contracts, problems) last) ∧
      last.rest = [] ∧ contracts.map (fun decl => decl.name.name) = Token.headings
        (lexemes.map Lexeme.token) := by
  have enough : (ParseState.start lines lexemes).rest.length < lexemes.length + 1 :=
    Nat.lt_succ_self _
  obtain ⟨⟨contracts, problems⟩, last, ended, consumed, same⟩ := Parse.contracts_ok enough
  refine ⟨contracts, problems, last, ?_, ended, consumed, same⟩
  rw [ofLexemes, ended 0]

/-- Neither an open parameter list nor a stray keyword hides the contract behind it. -/
example :
    (SyntaxTree.read "contract A \x7b f(x: contract contract B \x7b \x7d \x7d").tree.contracts.map
    (fun decl => decl.name.name) = ["A", "B"] := by decide +kernel

end Covenant
