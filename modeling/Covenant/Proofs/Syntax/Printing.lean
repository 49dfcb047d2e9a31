import Covenant.Proofs.Syntax.Headings
import Covenant.Syntax.Node

/-!
Expressions that are written down are read back. `Expression.Prints` says how an expression may be
written, with the parentheses that the operators need and with any others. Reading gives the
expression again, whatever stands behind it, as long as that cannot go on with an expression.
-/

namespace Covenant

namespace BinaryOp

def level : BinaryOp → Nat
  | or => 0
  | and => 1
  | eq | ne => 2
  | lt | le | gt | ge => 3
  | add | sub => 4
  | mul | div | mod => 5

def mark : BinaryOp → Punct
  | add => .plus
  | sub => .minus
  | mul => .star
  | div => .slash
  | mod => .percent
  | eq => .equalEqual
  | ne => .notEqual
  | lt => .less
  | le => .lessEqual
  | gt => .greater
  | ge => .greaterEqual
  | and => .andAnd
  | or => .orOr

theorem level_lt (op : BinaryOp) : op.level < 6 := by
  cases op <;> decide

theorem mem_precedence {level : Nat} {entry : Punct × BinaryOp}
    (listed : entry ∈ Parse.precedence.getD level []) :
    entry.1 = entry.2.mark ∧ entry.2.level = level := by
  have all : ∀ level < 6, ∀ entry ∈ Parse.precedence.getD level [], entry.1 = entry.2.mark ∧
      entry.2.level = level := by
    decide
  by_cases bounded : level < 6
  · exact all level bounded entry listed
  · have none : Parse.precedence[level]? = none := List.getElem?_eq_none (Nat.le_of_not_lt bounded)
    rw [List.getD_eq_getElem?_getD, none] at listed
    cases listed

theorem find_mark (op : BinaryOp) :
    ((Parse.precedence.getD op.level []).find? fun entry =>
      some (Token.punct op.mark) == some (Token.punct entry.1)).map Prod.snd = some op := by
  cases op <;> decide

end BinaryOp

namespace EnvVar

def parts : EnvVar → String × String
  | sender => ("msg", "sender")
  | value => ("msg", "value")
  | timestamp => ("block", "timestamp")
  | blockNumber => ("block", "number")
  | origin => ("tx", "origin")

theorem ofParts_parts (var : EnvVar) : ofParts? var.parts.1 var.parts.2 = some var := by
  cases var <;> decide +kernel

end EnvVar

def ExternalKind.name : ExternalKind → String
  | transfer => "transfer"
  | call => "call"

theorem ExternalKind.externalKind_name (kind : ExternalKind) :
    Parse.externalKind? kind.name = some kind := by
  cases kind <;> rfl

namespace Expression

mutual

def bare : Expression → Expression
  | int _ digits radix => int ⟨0, 0⟩ digits radix
  | bool _ value => bool ⟨0, 0⟩ value
  | str _ text => str ⟨0, 0⟩ text
  | var _ name => var ⟨0, 0⟩ ⟨name.name, ⟨0, 0⟩⟩
  | field _ name => field ⟨0, 0⟩ ⟨name.name, ⟨0, 0⟩⟩
  | mapIndex _ map key => mapIndex ⟨0, 0⟩ ⟨map.name, ⟨0, 0⟩⟩ key.bare
  | selfCall _ function args => selfCall ⟨0, 0⟩ ⟨function.name, ⟨0, 0⟩⟩ (listBare args)
  | env _ source => env ⟨0, 0⟩ source
  | externalCall _ kind target amount => externalCall ⟨0, 0⟩ kind target.bare amount.bare
  | binary _ op lhs rhs => binary ⟨0, 0⟩ op lhs.bare rhs.bare
  | not _ operand => not ⟨0, 0⟩ operand.bare

def listBare : List Expression → List Expression
  | [] => []
  | first :: rest => first.bare :: listBare rest

end

theorem bare_withSpan (expr : Expression) (span : Span) :
    (expr.withSpan span).bare = expr.bare := by
  cases expr <;> rfl

mutual

/-- Whether an expression may be written with the given tokens. The first number tells how tightly
the loosest operator that is not in parentheses binds, with six for none. The second one is the
number of levels that are nested: by parentheses, keys, arguments and negations. -/
inductive Prints : Expression → Nat → Nat → List Token → Prop
  | int {span digits} : Prints (.int span digits 10) 6 0 [.int digits]
  | hex {span digits} : Prints (.int span digits 16) 6 0 [.hex digits]
  | str {span text} : Prints (.str span text) 6 0 [.str text]
  | yes {span} : Prints (.bool span true) 6 0 [.keyword .trueWord]
  | no {span} : Prints (.bool span false) 6 0 [.keyword .falseWord]
  | var {span ident} : Prints (.var span ident) 6 0 [.ident ident.name]
  | env {span source} : Prints (.env span source) 6 0
      [.ident source.parts.1, .punct .dot, .ident source.parts.2]
  | field {span ident} :
      Prints (.field span ident) 6 0 [.keyword .selfWord, .punct .dot, .ident ident.name]
  | mapIndex {span map key level depth tokens} : Prints key level depth tokens →
      Prints (.mapIndex span map key) 6 (depth + 1)
        ([.keyword .selfWord, .punct .dot, .ident map.name, .punct .leftBracket] ++ tokens ++
          [.punct .rightBracket])
  | selfCall {span function args depth tokens} : ListPrints args depth tokens →
      Prints (.selfCall span function args) 6 depth
        ([.keyword .selfWord, .punct .dot, .ident function.name, .punct .leftParen] ++ tokens ++
          [.punct .rightParen])
  | externalCall {span kind target amount depth tokens} : ListPrints [target, amount] depth tokens →
      Prints (.externalCall span kind target amount) 6 depth
        ([.ident kind.name, .punct .leftParen] ++ tokens ++ [.punct .rightParen])
  | not {span operand depth tokens} : Prints operand 6 depth tokens →
      Prints (.not span operand) 6 (depth + 1) (.punct .bang :: tokens)
  | binary {span op lhs rhs left leftDepth leftTokens right rightDepth rightTokens} :
      Prints lhs left leftDepth leftTokens → op.level ≤ left →
      Prints rhs right rightDepth rightTokens → op.level < right →
      Prints (.binary span op lhs rhs) op.level (max leftDepth rightDepth)
        (leftTokens ++ .punct op.mark :: rightTokens)
  | parens {expr level depth tokens} : Prints expr level depth tokens →
      Prints expr 6 (depth + 1) (.punct .leftParen :: tokens ++ [.punct .rightParen])

inductive ListPrints : List Expression → Nat → List Token → Prop
  | none : ListPrints [] 0 []
  | last {arg level depth tokens} : Prints arg level depth tokens →
      ListPrints [arg] (depth + 1) tokens
  | more {arg level depth tokens next rest restDepth restTokens} : Prints arg level depth tokens →
      ListPrints (next :: rest) restDepth restTokens →
      ListPrints (arg :: next :: rest) (max (depth + 1) restDepth)
        (tokens ++ .punct .comma :: restTokens)

end

def level : Expression → Nat
  | binary _ op _ _ => op.level
  | _ => 6

def wrap (needed : Bool) (tokens : List Token) : List Token :=
  if needed then .punct .leftParen :: tokens ++ [.punct .rightParen] else tokens

mutual

def print : Expression → List Token
  | int _ digits radix => [if radix = 16 then .hex digits else .int digits]
  | bool _ value => [.keyword (if value then .trueWord else .falseWord)]
  | str _ text => [.str text]
  | var _ ident => [.ident ident.name]
  | field _ ident => [.keyword .selfWord, .punct .dot, .ident ident.name]
  | env _ source => [.ident source.parts.1, .punct .dot, .ident source.parts.2]
  | mapIndex _ map key =>
    [.keyword .selfWord, .punct .dot, .ident map.name, .punct .leftBracket] ++ key.print ++
      [.punct .rightBracket]
  | selfCall _ function args =>
    [.keyword .selfWord, .punct .dot, .ident function.name, .punct .leftParen] ++ listPrint args ++
      [.punct .rightParen]
  | externalCall _ kind target amount =>
    [.ident kind.name, .punct .leftParen] ++ (target.print ++ .punct .comma :: amount.print) ++
      [.punct .rightParen]
  | binary _ op lhs rhs =>
    wrap (lhs.level < op.level) lhs.print ++ .punct op.mark :: wrap (rhs.level ≤ op.level) rhs.print
  | not _ operand => .punct .bang :: wrap (operand.level < 6) operand.print

def listPrint : List Expression → List Token
  | [] => []
  | [last] => last.print
  | arg :: next :: rest => arg.print ++ .punct .comma :: listPrint (next :: rest)

end

mutual

def Printable : Expression → Prop
  | int _ _ radix => radix = 10 ∨ radix = 16
  | bool .. | str .. | var .. | field .. | env .. => True
  | mapIndex _ _ key => key.Printable
  | selfCall _ _ args => ListPrintable args
  | externalCall _ _ target amount => target.Printable ∧ amount.Printable
  | binary _ _ lhs rhs => lhs.Printable ∧ rhs.Printable
  | not _ operand => operand.Printable

def ListPrintable : List Expression → Prop
  | [] => True
  | first :: rest => first.Printable ∧ ListPrintable rest

end

theorem Prints.level_le {expr : Expression} {level depth : Nat} {tokens : List Token}
    (printed : expr.Prints level depth tokens) : level ≤ 6 := by
  cases printed with
  | @binary _ op => exact Nat.le_of_lt op.level_lt
  | _ => exact Nat.le_refl 6

theorem Prints.wrap {expr : Expression} {depth : Nat} {tokens : List Token}
    (printed : expr.Prints expr.level depth tokens) {least : Nat} (bounded : least ≤ 6)
    (needed : Bool) (loose : expr.level < least → needed = true) :
    ∃ level depth, least ≤ level ∧ expr.Prints level depth (wrap needed tokens) := by
  cases needed with
  | true => exact ⟨6, depth + 1, bounded, printed.parens⟩
  | false =>
    have binds : ¬ expr.level < least := fun looser => Bool.false_ne_true (loose looser)
    exact ⟨expr.level, depth, Nat.le_of_not_lt binds, printed⟩

mutual

/-- The tokens of an expression are one of the ways of writing it. -/
theorem prints_print :
    ∀ expr : Expression, expr.Printable → ∃ depth, expr.Prints expr.level depth expr.print
  | int _ _ radix, printable => by
    rcases printable with rfl | rfl
    · exact ⟨0, .int⟩
    · exact ⟨0, .hex⟩
  | bool _ value, _ => by
    cases value
    · exact ⟨0, .no⟩
    · exact ⟨0, .yes⟩
  | str .., _ => ⟨0, .str⟩
  | var .., _ => ⟨0, .var⟩
  | field .., _ => ⟨0, .field⟩
  | env .., _ => ⟨0, .env⟩
  | mapIndex _ _ key, printable => by
    obtain ⟨depth, printed⟩ := prints_print key printable
    exact ⟨depth + 1, .mapIndex printed⟩
  | selfCall _ _ args, printable => by
    obtain ⟨depth, printed⟩ := listPrints_print args printable
    exact ⟨depth, .selfCall printed⟩
  | externalCall _ _ target amount, printable => by
    obtain ⟨first, targeted⟩ := prints_print target printable.1
    obtain ⟨second, amounted⟩ := prints_print amount printable.2
    exact ⟨_, .externalCall (.more targeted (.last amounted))⟩
  | binary _ op lhs rhs, printable => by
    obtain ⟨first, left⟩ := prints_print lhs printable.1
    obtain ⟨second, right⟩ := prints_print rhs printable.2
    obtain ⟨_, _, atLeast, left⟩ :=
      left.wrap (Nat.le_of_lt op.level_lt) (lhs.level < op.level) (by simp)
    obtain ⟨_, _, tighter, right⟩ := right.wrap op.level_lt (rhs.level ≤ op.level) fun looser =>
      decide_eq_true (Nat.le_of_lt_succ looser)
    exact ⟨_, .binary left atLeast right tighter⟩
  | not _ operand, printable => by
    obtain ⟨_, printed⟩ := prints_print operand printable
    obtain ⟨level, depth, tightest, printed⟩ :=
      printed.wrap (Nat.le_refl 6) (operand.level < 6) (by simp)
    obtain rfl : level = 6 := Nat.le_antisymm printed.level_le tightest
    exact ⟨depth + 1, .not printed⟩

theorem listPrints_print : ∀ args : List Expression, ListPrintable args →
    ∃ depth, ListPrints args depth (listPrint args)
  | [], _ => ⟨0, .none⟩
  | [last], printable => by
    obtain ⟨depth, printed⟩ := prints_print last printable.1
    exact ⟨depth + 1, .last printed⟩
  | arg :: next :: rest, printable => by
    obtain ⟨depth, printed⟩ := prints_print arg printable.1
    obtain ⟨others, follows⟩ := listPrints_print (next :: rest) printable.2
    exact ⟨_, .more printed follows⟩

end

end Expression

def Token.Extends (level : Nat) (token : Token) : Prop :=
  token = .punct .leftParen ∨ token = .punct .leftBracket ∨ token = .punct .dot ∨
    ∃ op : BinaryOp, level ≤ op.level ∧ token = .punct op.mark

def Stops (level : Nat) (tokens : List Token) : Prop :=
  ∀ token, tokens.head? = some token → ¬ token.Extends level

theorem Stops.tighter {level tighter : Nat} {tokens : List Token} (stops : Stops level tokens)
    (bound : level ≤ tighter) : Stops tighter tokens := by
  intro token first goes
  refine stops token first ?_
  rcases goes with paren | bracket | dot | ⟨op, binds, same⟩
  · exact .inl paren
  · exact .inr (.inl bracket)
  · exact .inr (.inr (.inl dot))
  · exact .inr (.inr (.inr ⟨op, Nat.le_trans bound binds, same⟩))

theorem stops_mark {op : BinaryOp} {level : Nat} (looser : op.level < level) (rest : List Token) :
    Stops level (.punct op.mark :: rest) := by
  intro token first goes
  obtain rfl : Token.punct op.mark = token := by simpa using first
  rcases goes with paren | bracket | dot | ⟨other, binds, same⟩
  · cases op <;> cases paren
  · cases op <;> cases bracket
  · cases op <;> cases dot
  · have equal : op.level = other.level := by
      revert same
      cases op <;> cases other <;> decide
    omega

namespace ParseState

def tokens (state : ParseState) : List Token := state.rest.map Lexeme.token

variable {state : ParseState} {token : Token} {rest : List Token}

theorem peek_of_tokens (left : state.tokens = token :: rest) : state.peek? = some token := by
  rw [peek?, ← List.head?_map, ← tokens, left]
  rfl

theorem tokens_bump (left : state.tokens = token :: rest) : state.bump.tokens = rest := by
  rw [tokens, rest_bump, List.map_tail, ← tokens, left]
  rfl

theorem peek_eq_head (state : ParseState) : state.peek? = state.tokens.head? := by
  rw [peek?, tokens, List.head?_map]

theorem length_tokens (state : ParseState) : state.tokens.length = state.rest.length :=
  List.length_map _

end ParseState

namespace Parse

variable {state : ParseState} {rest : List Token}

theorem get_run (state : ParseState) : (get : Parse ParseState) state = .ok state state := rfl

theorem span_run (state : ParseState) : span state = .ok state.span state := rfl

theorem peek_run (state : ParseState) : peek? state = .ok state.peek? state := rfl

theorem bump_run (state : ParseState) : bump state = .ok () state.bump := rfl

theorem expect_of_tokens {mark : Punct} (left : state.tokens = .punct mark :: rest) :
    ∃ span, expect mark state = .ok span state.bump := by
  rcases expect_cases mark state with ⟨_, read⟩ | ⟨other, _⟩
  · exact read
  · exact absurd (ParseState.peek_of_tokens left) other

theorem expectIdent_of_tokens {name : String} (left : state.tokens = .ident name :: rest)
    (what : String) (hint : Option String) :
    ∃ span, expectIdent what hint state = .ok ⟨name, span⟩ state.bump := by
  have found := ParseState.peek_of_tokens left
  rcases expectIdent_cases what hint state with ⟨ident, named, read⟩ | ⟨other, _⟩
  · obtain rfl : name = ident.name := by simpa [found] using named
    exact ⟨ident.span, read⟩
  · exact absurd found (other name)

theorem eat_of_tokens {mark : Punct} (left : state.tokens = .punct mark :: rest) :
    eat mark state = .ok true state.bump := by
  rcases eat_cases mark state with ⟨_, read⟩ | ⟨other, _⟩
  · exact read
  · exact absurd (ParseState.peek_of_tokens left) other

theorem eat_of_head {mark : Punct} (other : state.tokens.head? ≠ some (.punct mark)) :
    eat mark state = .ok false state := by
  rcases eat_cases mark state with ⟨found, _⟩ | ⟨_, kept⟩
  · exact absurd (state.peek_eq_head ▸ found) other
  · exact kept

/-! Operators. -/

theorem drop_precedence {level : Nat} (bounded : level < 6) :
    precedence.drop level = precedence.getD level [] :: precedence.drop (level + 1) := by
  rw [List.drop_eq_getElem_cons bounded, List.getD_eq_getElem?_getD,
    List.getElem?_eq_getElem bounded]
  rfl

theorem operatorAmong_mark {op : BinaryOp} (left : state.tokens = .punct op.mark :: rest) :
    operatorAmong? (precedence.getD op.level []) state = .ok (some op) state := by
  have found := ParseState.peek_of_tokens left
  rw [operatorAmong?, bind_of_ok (peek_run state), found, op.find_mark]
  rfl

theorem operatorAmong_stops {level : Nat} (stops : Stops level state.tokens) :
    operatorAmong? (precedence.getD level []) state = .ok none state := by
  have none : ((precedence.getD level []).find? fun entry => state.peek? == some (.punct entry.1)) =
      none := by
    refine List.find?_eq_none.mpr ?_
    intro entry listed same
    obtain ⟨mark, binds⟩ := BinaryOp.mem_precedence listed
    have first : state.tokens.head? = some (.punct entry.1) := by
      rw [← ParseState.peek_eq_head]
      simpa using same
    exact stops _ first (.inr (.inr (.inr ⟨entry.2, Nat.le_of_eq binds.symm, by rw [mark]⟩)))
  rw [operatorAmong?, bind_of_ok (peek_run state), none]
  rfl

def Takes (room level : Nat) (expr : Expression) (tokens : List Token) : Prop :=
  ∀ (state : ParseState) (rest : List Token), state.tokens = tokens ++ rest → Stops level rest →
    ∃ found next, binary (unary room) (precedence.drop level) state = .ok found next ∧
    found.bare = expr.bare ∧
      next.tokens = rest

def Runs (room level : Nat) (expr : Expression) (tokens : List Token) : Prop :=
  ∀ (state : ParseState) (rest : List Token), state.tokens = tokens ++ rest →
    Stops (level + 1) rest →
    ∃ found next fuel, binary (unary room) (precedence.drop level) state =
        binaryTail (binary (unary room) (precedence.drop (level + 1)))
          (precedence.getD level []) fuel found next ∧
      found.bare = expr.bare ∧ next.tokens = rest ∧ next.rest.length < fuel

structure Recovers (room level : Nat) (expr : Expression) (tokens : List Token) : Prop where
  takes : ∀ looser ≤ level, Takes room looser expr tokens
  runs : ∀ looser ≤ level, looser < 6 → Runs room looser expr tokens

section Levels

variable {room level : Nat} {expr : Expression} {tokens : List Token}

theorem Runs.takes (runs : Runs room level expr tokens) : Takes room level expr tokens := by
  intro state rest left stops
  obtain ⟨found, next, fuel, read, same, after, enough⟩ :=
    runs state rest left (stops.tighter (Nat.le_succ _))
  obtain ⟨fuel, rfl⟩ := Nat.exists_eq_add_one.mpr (Nat.zero_lt_of_lt enough)
  refine ⟨found, next, ?_, same, after⟩
  rw [read, binaryTail, bind_of_ok (operatorAmong_stops (after ▸ stops))]
  rfl

theorem Takes.runs (bounded : level < 6) (takes : Takes room (level + 1) expr tokens) :
    Runs room level expr tokens := by
  intro state rest left stops
  obtain ⟨found, next, read, same, after⟩ := takes state rest left stops
  refine ⟨found, next, next.rest.length + 1, ?_, same, after, Nat.lt_succ_self _⟩
  rw [drop_precedence bounded, binary, bind_of_ok read]
  rfl

theorem Takes.looser {tighter : Nat} (bound : level ≤ tighter) (bounded : tighter ≤ 6)
    (takes : Takes room tighter expr tokens) : Takes room level expr tokens := by
  induction bound with
  | refl => exact takes
  | step bound ih => exact ih (Nat.le_of_succ_le bounded) (Takes.runs bounded takes).takes

theorem Takes.recovers (takes : Takes room 6 expr tokens) : Recovers room 6 expr tokens :=
  ⟨fun _ bound => takes.looser bound (Nat.le_refl _),
    fun _ _ bounded => Takes.runs bounded (takes.looser bounded (Nat.le_refl _))⟩

theorem Runs.recovers (bounded : level < 6) (runs : Runs room level expr tokens) :
    Recovers room level expr tokens := by
  refine ⟨fun _ bound => runs.takes.looser bound (Nat.le_of_lt bounded), ?_⟩
  intro looser bound _
  rcases Nat.lt_or_eq_of_le bound with below | rfl
  · exact Takes.runs (by omega) (runs.takes.looser below (Nat.le_of_lt bounded))
  · exact runs

/-- An operator between two operands: the left one may hold operators of its level, the right one
only tighter ones. -/
theorem Recovers.binary {span : Span} {op : BinaryOp} {lhs rhs : Expression} {left right : Nat}
    {leftTokens rightTokens : List Token} (first : Recovers room left lhs leftTokens)
    (atLeast : op.level ≤ left) (second : Recovers room right rhs rightTokens)
    (tighter : op.level < right) :
    Recovers room op.level (.binary span op lhs rhs)
      (leftTokens ++ .punct op.mark :: rightTokens) := by
  refine Runs.recovers op.level_lt ?_
  intro state rest written stops
  -- The left operand runs into the loop of its level, where the operator makes the loop go on.
  have between := stops_mark (Nat.lt_succ_self op.level) (rightTokens ++ rest)
  obtain ⟨found, next, fuel, read, same, after, enough⟩ :=
    first.runs op.level atLeast op.level_lt state _ (by simpa using written) between
  obtain ⟨fuel, rfl⟩ := Nat.exists_eq_add_one.mpr (Nat.zero_lt_of_lt enough)
  have passed := ParseState.tokens_bump after
  obtain ⟨other, last, continued, alike, ended⟩ :=
    second.takes (op.level + 1) tighter next.bump rest passed stops
  have shorter : last.rest.length < fuel := by
    rw [← ParseState.length_tokens, ended]
    rw [← ParseState.length_tokens, after] at enough
    simp only [List.length_cons, List.length_append] at enough
    omega
  refine ⟨.binary ⟨found.span.start, other.span.stop⟩ op found other, last, fuel, ?_, ?_,
    ended, shorter⟩
  · rw [read, binaryTail, bind_of_ok (operatorAmong_mark after)]
    simp only
    rw [bind_of_ok (bump_run next), bind_of_ok continued]
  · simp only [Expression.bare, same, alike]

end Levels

/-! Expressions without operators around them. -/

section Primary

variable {room : Nat} {expr : Expression} {tokens : List Token}

def Alone (room : Nat) (expr : Expression) (tokens : List Token) : Prop :=
  ∀ (state : ParseState) (rest : List Token), state.tokens = tokens ++ rest → Stops 6 rest →
    ∃ found next, primary (expression room) state = .ok found next ∧ found.bare = expr.bare ∧
    next.tokens = rest

theorem unary_of_head (other : state.tokens.head? ≠ some (.punct .bang)) :
    unary room state = primary (expression room) state := by
  have kept := eat_of_head other
  cases room with
  | zero =>
    rw [unary, bind_of_ok kept]
    rfl
  | succ room =>
    rw [unary, bind_of_ok (span_run state), bind_of_ok kept]
    rfl

theorem Alone.recovers (alone : Alone room expr tokens)
    (begins : ∃ first others, tokens = first :: others ∧ first ≠ .punct .bang) :
    Recovers room 6 expr tokens := by
  refine Takes.recovers ?_
  intro state rest left stops
  obtain ⟨first, others, rfl, other⟩ := begins
  have head : state.tokens.head? ≠ some (.punct .bang) := by
    rw [left]
    simpa using other
  obtain ⟨found, next, read, same, after⟩ := alone state rest left stops
  exact ⟨found, next, (unary_of_head head).trans read, same, after⟩

theorem recovers_token {token : Token}
    (reads : ∀ state : ParseState, state.peek? = some token →
      primary (expression room) state = .ok (expr.withSpan state.span) state.bump)
    (other : token ≠ .punct .bang) : Recovers room 6 expr [token] := by
  refine Alone.recovers ?_ ⟨_, _, rfl, other⟩
  intro state rest left _
  exact ⟨_, _, reads state (ParseState.peek_of_tokens left), expr.bare_withSpan _,
    ParseState.tokens_bump left⟩

theorem primary_ident {name : String} (left : state.tokens = .ident name :: rest)
    (expression : Parse Expression) :
    primary expression state = named expression name state := by
  rw [primary, bind_of_ok (span_run state), bind_of_ok (peek_run state),
    ParseState.peek_of_tokens left]

theorem primary_self (left : state.tokens = .keyword .selfWord :: rest)
    (expression : Parse Expression) :
    primary expression state = member expression state.span.start state := by
  rw [primary, bind_of_ok (span_run state), bind_of_ok (peek_run state),
    ParseState.peek_of_tokens left]

theorem second_of_tokens {token : Token} (left : state.tokens = token :: rest) :
    (state.rest.drop 1).head?.map Lexeme.token = rest.head? := by
  rw [← ParseState.peek_bump, ParseState.peek_eq_head, ParseState.tokens_bump left]

theorem recovers_var (span : Span) (ident : Ident) :
    Recovers room 6 (.var span ident) [.ident ident.name] := by
  refine Alone.recovers ?_ ⟨_, _, rfl, by simp⟩
  intro state rest left stops
  rw [List.singleton_append] at left
  have read : primary (expression room) state =
      .ok (.var state.span ⟨ident.name, state.span⟩) state.bump := by
    rw [primary_ident left, named, bind_of_ok (get_run state), second_of_tokens left]
    cases head : rest.head? with
    | none => rfl
    | some token =>
      have other := stops token head
      cases token with
      | punct mark =>
        cases mark with
        | dot => exact absurd (.inr (.inr (.inl rfl))) other
        | leftParen => exact absurd (.inl rfl) other
        | _ => rfl
      | _ => rfl
  exact ⟨_, _, read, rfl, ParseState.tokens_bump left⟩

theorem recovers_env (span : Span) (source : EnvVar) :
    Recovers room 6 (.env span source)
      [.ident source.parts.1, .punct .dot, .ident source.parts.2] := by
  refine Alone.recovers ?_ ⟨_, _, rfl, by simp⟩
  intro state rest left _
  simp only [List.cons_append, List.nil_append] at left
  have dotted := ParseState.tokens_bump left
  have named := ParseState.tokens_bump dotted
  obtain ⟨place, read⟩ := expectIdent_of_tokens named s!"a member of `{source.parts.1}`" none
  have object : (source.parts.1 == "msg" || source.parts.1 == "block" || source.parts.1 == "tx") =
      true := by
    cases source <;> rfl
  refine ⟨.env ⟨state.span.start, state.bump.bump.bump.previousStop⟩ source, state.bump.bump.bump,
    ?_, rfl, ParseState.tokens_bump named⟩
  rw [primary_ident left, Parse.named, bind_of_ok (get_run state), second_of_tokens left]
  simp only [List.head?_cons, object, if_true]
  rw [envValue, bind_of_ok (bump_run state), bind_of_ok (bump_run state.bump), bind_of_ok read]
  simp only [EnvVar.ofParts_parts]
  rfl

theorem primary_member {name : String}
    (left : state.tokens = .keyword .selfWord :: .punct .dot :: .ident name :: rest) :
    ∃ (after : ParseState) (ident : Ident), ident.name = name ∧ after.tokens = rest ∧
      primary (expression room) state = (do
        if ← isAt (.punct .leftParen) then
          let args ← parenthesised (expression room)
          return Expression.selfCall ⟨state.span.start, ← previousStop⟩ ident args
        else if ← eat .leftBracket then
          let key ← expression room
          let _ ← expect .rightBracket
          return Expression.mapIndex ⟨state.span.start, ← previousStop⟩ ident key
        else return Expression.field ⟨state.span.start, ← previousStop⟩ ident) after := by
  have dotted := ParseState.tokens_bump left
  have named := ParseState.tokens_bump dotted
  obtain ⟨_, dot⟩ := expect_of_tokens dotted
  obtain ⟨place, read⟩ := expectIdent_of_tokens named "a field or function name after `self.`" none
  refine ⟨state.bump.bump.bump, ⟨name, place⟩, rfl, ParseState.tokens_bump named, ?_⟩
  rw [primary_self left, member, bind_of_ok (bump_run state), bind_of_ok dot, bind_of_ok read]

theorem isAt_of_head {token : Token} (other : state.tokens.head? ≠ some token) :
    isAt token state = .ok false state := by
  have unlike : state.isAt token = false := by
    rw [ParseState.isAt, ParseState.peek_eq_head]
    simpa using other
  rw [isAt, bind_of_ok (get_run state), unlike]
  rfl

theorem isAt_of_tokens {token : Token} (left : state.tokens = token :: rest) :
    isAt token state = .ok true state := by
  have alike : state.isAt token = true := by simp [ParseState.isAt, ParseState.peek_of_tokens left]
  rw [isAt, bind_of_ok (get_run state), alike]
  rfl

theorem recovers_field (span : Span) (ident : Ident) :
    Recovers room 6 (.field span ident) [.keyword .selfWord, .punct .dot, .ident ident.name] := by
  refine Alone.recovers ?_ ⟨_, _, rfl, by simp⟩
  intro state rest left stops
  simp only [List.cons_append, List.nil_append] at left
  obtain ⟨after, name, same, follows, read⟩ := primary_member left
  have uncalled : after.tokens.head? ≠ some (.punct .leftParen) := fun first =>
    stops _ (follows ▸ first) (.inl rfl)
  have unindexed : after.tokens.head? ≠ some (.punct .leftBracket) := fun first =>
    stops _ (follows ▸ first) (.inr (.inl rfl))
  refine ⟨.field ⟨state.span.start, after.previousStop⟩ name, after,
    ?_, by simp [Expression.bare, same], follows⟩
  rw [read, bind_of_ok (isAt_of_head uncalled)]
  simp only [Bool.false_eq_true, if_false]
  rw [bind_of_ok (eat_of_head unindexed)]
  rfl

def Stands (room : Nat) (expr : Expression) (tokens : List Token) : Prop :=
  ∀ (state : ParseState) (rest : List Token), state.tokens = tokens ++ rest → Stops 0 rest →
    ∃ found next, expression room state = .ok found next ∧ found.bare = expr.bare ∧
    next.tokens = rest

theorem Recovers.stands {level : Nat} (recovers : Recovers room level expr tokens) :
    Stands (room + 1) expr tokens :=
  recovers.takes 0 (Nat.zero_le _)

theorem stops_of_mark {mark : Punct}
    (closes : mark = .rightParen ∨ mark = .rightBracket ∨ mark = .comma ∨ mark = .leftBrace)
    (rest : List Token) :
    Stops 0 (.punct mark :: rest) := by
  intro token first goes
  obtain rfl : Token.punct mark = token := by simpa using first
  rcases goes with paren | bracket | dot | ⟨op, _, same⟩
  · rcases closes with rfl | rfl | rfl | rfl <;> cases paren
  · rcases closes with rfl | rfl | rfl | rfl <;> cases bracket
  · rcases closes with rfl | rfl | rfl | rfl <;> cases dot
  · rcases closes with rfl | rfl | rfl | rfl <;> cases op <;> cases same

theorem recovers_mapIndex (span : Span) (map : Ident) {key : Expression}
    (stands : Stands room key tokens) :
    Recovers room 6 (.mapIndex span map key)
      ([.keyword .selfWord, .punct .dot, .ident map.name, .punct .leftBracket] ++ tokens ++
        [.punct .rightBracket]) := by
  refine Alone.recovers ?_ ⟨_, _, rfl, by simp⟩
  intro state rest left _
  simp only [List.cons_append, List.nil_append, List.append_assoc] at left
  obtain ⟨after, name, same, follows, read⟩ := primary_member left
  have opened := ParseState.tokens_bump follows
  obtain ⟨found, next, within, alike, ended⟩ :=
    stands after.bump _ opened (stops_of_mark (by simp) rest)
  obtain ⟨_, closed⟩ := expect_of_tokens ended
  refine ⟨.mapIndex ⟨state.span.start, next.bump.previousStop⟩ name found, next.bump, ?_,
    by simp [Expression.bare, same, alike], ParseState.tokens_bump ended⟩
  have uncalled : after.tokens.head? ≠ some (.punct .leftParen) := by simp [follows]
  rw [read, bind_of_ok (isAt_of_head uncalled)]
  simp only [Bool.false_eq_true, if_false]
  rw [bind_of_ok (eat_of_tokens follows)]
  simp only [if_true]
  rw [bind_of_ok within, bind_of_ok closed]
  rfl

def Lists (room : Nat) (args : List Expression) (tokens : List Token) : Prop :=
  ∀ (state : ParseState) (rest : List Token) (fuel : Nat), state.tokens = tokens ++
    .punct .rightParen :: rest →
    state.rest.length < fuel →
    ∃ found next, itemsWith (expression room) fuel state = .ok found next ∧
      Expression.listBare found = Expression.listBare args ∧ next.tokens = rest

theorem Lists.parenthesised {args : List Expression} (lists : Lists room args tokens)
    (left : state.tokens = .punct .leftParen :: (tokens ++ .punct .rightParen :: rest)) :
    ∃ found next, parenthesised (expression room) state = .ok found next ∧
      Expression.listBare found = Expression.listBare args ∧ next.tokens = rest := by
  obtain ⟨_, opened⟩ := expect_of_tokens left
  obtain ⟨found, next, read, same, after⟩ :=
    lists state.bump rest (state.bump.rest.length + 1) (ParseState.tokens_bump left)
      (Nat.lt_succ_self _)
  refine ⟨found, next, ?_, same, after⟩
  rw [Parse.parenthesised, bind_of_ok opened, bind_of_ok (get_run state.bump), read]

theorem recovers_selfCall (span : Span) (function : Ident) {args : List Expression}
    (lists : Lists room args tokens) :
    Recovers room 6 (.selfCall span function args)
      ([.keyword .selfWord, .punct .dot, .ident function.name, .punct .leftParen] ++ tokens ++
        [.punct .rightParen]) := by
  refine Alone.recovers ?_ ⟨_, _, rfl, by simp⟩
  intro state rest left _
  simp only [List.cons_append, List.nil_append, List.append_assoc] at left
  obtain ⟨after, name, same, follows, read⟩ := primary_member left
  obtain ⟨found, next, within, alike, ended⟩ := lists.parenthesised follows
  refine ⟨.selfCall ⟨state.span.start, next.previousStop⟩ name found, next, ?_,
    by simp [Expression.bare, same, alike], ended⟩
  rw [read, bind_of_ok (isAt_of_tokens follows)]
  simp only [if_true]
  rw [bind_of_ok within]
  rfl

theorem listBare_pair {found : List Expression} {target amount : Expression}
    (alike : Expression.listBare found = Expression.listBare [target, amount]) :
    ∃ first second, found = [first, second] ∧ first.bare = target.bare ∧
      second.bare = amount.bare := by
  match found, alike with
  | [first, second], alike =>
    simp only [Expression.listBare, List.cons.injEq, and_true] at alike
    exact ⟨first, second, rfl, alike⟩
  | [], alike => cases alike
  | [_], alike => simp [Expression.listBare] at alike
  | _ :: _ :: _ :: _, alike => simp [Expression.listBare] at alike

theorem recovers_externalCall (span : Span) (kind : ExternalKind) {target amount : Expression}
    (lists : Lists room [target, amount] tokens) :
    Recovers room 6 (.externalCall span kind target amount)
      ([.ident kind.name, .punct .leftParen] ++ tokens ++ [.punct .rightParen]) := by
  refine Alone.recovers ?_ ⟨_, _, rfl, by simp⟩
  intro state rest left _
  simp only [List.cons_append, List.nil_append, List.append_assoc] at left
  obtain ⟨found, next, within, alike, ended⟩ := lists.parenthesised (ParseState.tokens_bump left)
  obtain ⟨first, second, rfl, targeted, amounted⟩ := listBare_pair alike
  refine ⟨.externalCall ⟨state.span.start, next.previousStop⟩ kind first second, next, ?_,
    by simp only [Expression.bare, targeted, amounted], ended⟩
  rw [primary_ident left, named, bind_of_ok (get_run state), second_of_tokens left]
  simp only [List.head?_cons]
  rw [externalCall, kind.externalKind_name]
  simp only
  rw [bind_of_ok (bump_run state), bind_of_ok within]
  rfl

theorem recovers_parens (stands : Stands room expr tokens) :
    Recovers room 6 expr (.punct .leftParen :: tokens ++ [.punct .rightParen]) := by
  refine Alone.recovers ?_ ⟨_, _, rfl, by simp⟩
  intro state rest left _
  simp only [List.cons_append, List.nil_append, List.append_assoc] at left
  obtain ⟨found, next, within, alike, ended⟩ :=
    stands state.bump _ (ParseState.tokens_bump left) (stops_of_mark (by simp) rest)
  obtain ⟨_, closed⟩ := expect_of_tokens ended
  refine ⟨found.withSpan ⟨state.span.start, next.bump.previousStop⟩, next.bump, ?_,
    (found.bare_withSpan _).trans alike, ParseState.tokens_bump ended⟩
  rw [primary, bind_of_ok (span_run state), bind_of_ok (peek_run state),
    ParseState.peek_of_tokens left]
  simp only
  rw [bind_of_ok (bump_run state), bind_of_ok within, bind_of_ok closed]
  rfl

theorem recovers_not (place : Span) {operand : Expression}
    (inner : Recovers room 6 operand tokens) :
    Recovers (room + 1) 6 (.not place operand) (.punct .bang :: tokens) := by
  refine Takes.recovers ?_
  intro state rest left stops
  obtain ⟨found, next, taken, same, after⟩ :=
    inner.takes 6 (Nat.le_refl _) state.bump rest (ParseState.tokens_bump left) stops
  have read : unary room state.bump = .ok found next := taken
  refine ⟨.not ⟨state.span.start, found.span.stop⟩ found, next,
    ?_, by simp [Expression.bare, same], after⟩
  change unary (room + 1) state = _
  rw [unary, bind_of_ok (span_run state), bind_of_ok (eat_of_tokens left)]
  simp only [if_true]
  rw [bind_of_ok read]
  rfl

theorem lists_none : Lists room [] [] := by
  intro state rest fuel left enough
  obtain ⟨fuel, rfl⟩ := Nat.exists_eq_add_one.mpr (Nat.zero_lt_of_lt enough)
  refine ⟨[], state.bump, ?_, rfl, ParseState.tokens_bump left⟩
  rw [itemsWith, bind_of_ok (eat_of_tokens left)]
  rfl

theorem Stands.last {arg : Expression} (stands : Stands room arg tokens)
    (begins : ∃ first others, tokens = first :: others ∧ first ≠ .punct .rightParen) :
    Lists room [arg] tokens := by
  intro state rest fuel left enough
  obtain ⟨fuel, rfl⟩ := Nat.exists_eq_add_one.mpr (Nat.zero_lt_of_lt enough)
  obtain ⟨first, others, rfl, other⟩ := begins
  have opened : state.tokens.head? ≠ some (.punct .rightParen) := by
    rw [left]
    simpa using other
  obtain ⟨found, next, read, same, after⟩ := stands state _ left (stops_of_mark (by simp) rest)
  have closes : next.tokens.head? ≠ some (.punct .comma) := by simp [after]
  obtain ⟨_, closed⟩ := expect_of_tokens after
  refine ⟨[found], next.bump, ?_, by simp [Expression.listBare, same], ParseState.tokens_bump after⟩
  rw [itemsWith, bind_of_ok (eat_of_head opened)]
  simp only [Bool.false_eq_true, if_false]
  rw [bind_of_ok read, bind_of_ok (eat_of_head closes)]
  simp only [Bool.false_eq_true, if_false]
  rw [bind_of_ok closed]
  rfl

theorem Stands.more {arg : Expression} {args : List Expression} {others : List Token}
    (stands : Stands room arg tokens)
    (begins : ∃ first rest, tokens = first :: rest ∧ first ≠ .punct .rightParen)
    (lists : Lists room args others) :
    Lists room (arg :: args) (tokens ++ .punct .comma :: others) := by
  intro state rest fuel left enough
  obtain ⟨fuel, rfl⟩ := Nat.exists_eq_add_one.mpr (Nat.zero_lt_of_lt enough)
  rw [List.append_assoc, List.cons_append] at left
  obtain ⟨first, behind, rfl, other⟩ := begins
  have opened : state.tokens.head? ≠ some (.punct .rightParen) := by
    rw [left]
    simpa using other
  obtain ⟨found, next, read, same, after⟩ := stands state _ left (stops_of_mark (by simp) _)
  have shorter : next.bump.rest.length < fuel := by
    have passed := congrArg List.length (ParseState.tokens_bump after)
    have whole := congrArg List.length left
    rw [ParseState.length_tokens] at passed whole
    simp only [List.length_append, List.length_cons] at passed whole
    omega
  obtain ⟨items, last, continued, alike, ended⟩ :=
    lists next.bump rest fuel (ParseState.tokens_bump after) shorter
  refine ⟨found :: items, last, ?_, by simp [Expression.listBare, same, alike], ended⟩
  rw [itemsWith, bind_of_ok (eat_of_head opened)]
  simp only [Bool.false_eq_true, if_false]
  rw [bind_of_ok read, bind_of_ok (eat_of_tokens after)]
  simp only [if_true]
  rw [bind_of_ok continued]
  rfl

end Primary

theorem begins_of_prints {expr : Expression} {level depth : Nat} {tokens : List Token}
    (printed : expr.Prints level depth tokens) :
    ∃ first others, tokens = first :: others ∧ first ≠ .punct .rightParen := by
  cases printed with
  | binary first _ _ _ =>
    obtain ⟨token, others, rfl, other⟩ := begins_of_prints first
    exact ⟨token, _, rfl, other⟩
  | _ => exact ⟨_, _, rfl, by simp⟩

theorem stands_of_deeper {expr : Expression} {level depth room : Nat} {tokens : List Token}
    (inner : ∀ room, depth ≤ room → Recovers room level expr tokens) (fits : depth + 1 ≤ room) :
    Stands room expr tokens := by
  obtain ⟨room, rfl⟩ := Nat.exists_eq_add_one.mpr (Nat.zero_lt_of_lt fits)
  exact (inner room (Nat.le_of_succ_le_succ fits)).stands

mutual

theorem recovers_of_prints {expr : Expression} {level depth : Nat} {tokens : List Token}
    (printed : expr.Prints level depth tokens) :
    ∀ room, depth ≤ room → Recovers room level expr tokens := by
  cases printed with
  | int | hex | str | yes | no =>
    intro room _
    refine recovers_token (fun state found => ?_) (by simp)
    rw [primary, bind_of_ok (span_run state), bind_of_ok (peek_run state), found]
    rfl
  | var => exact fun _ _ => recovers_var _ _
  | env => exact fun _ _ => recovers_env _ _
  | field => exact fun _ _ => recovers_field _ _
  | mapIndex key =>
    have inner := recovers_of_prints key
    exact fun _ fits => recovers_mapIndex _ _ (stands_of_deeper inner fits)
  | selfCall args =>
    have inner := lists_of_prints args
    exact fun room fits => recovers_selfCall _ _ (inner room fits)
  | externalCall args =>
    have inner := lists_of_prints args
    exact fun room fits => recovers_externalCall _ _ (inner room fits)
  | not operand =>
    have inner := recovers_of_prints operand
    intro room fits
    obtain ⟨room, rfl⟩ := Nat.exists_eq_add_one.mpr (Nat.zero_lt_of_lt fits)
    exact recovers_not _ (inner room (Nat.le_of_succ_le_succ fits))
  | binary first atLeast second tighter =>
    have lhs := recovers_of_prints first
    have rhs := recovers_of_prints second
    intro room fits
    exact (lhs room (Nat.le_trans (Nat.le_max_left _ _) fits)).binary atLeast
      (rhs room (Nat.le_trans (Nat.le_max_right _ _) fits)) tighter
  | parens wrapped =>
    have inner := recovers_of_prints wrapped
    exact fun _ fits => recovers_parens (stands_of_deeper inner fits)
termination_by (tokens.length, 0)
decreasing_by
  all_goals
    simp [Prod.lex_def]
    try omega

theorem lists_of_prints {args : List Expression} {depth : Nat} {tokens : List Token}
    (printed : Expression.ListPrints args depth tokens) :
    ∀ room, depth ≤ room → Lists room args tokens := by
  cases printed with
  | none => exact fun _ _ => lists_none
  | last arg =>
    have inner := recovers_of_prints arg
    exact fun _ fits => (stands_of_deeper inner fits).last (begins_of_prints arg)
  | more arg others =>
    have inner := recovers_of_prints arg
    have rest := lists_of_prints others
    intro room fits
    exact (stands_of_deeper inner (Nat.le_trans (Nat.le_max_left _ _) fits)).more
      (begins_of_prints arg) (rest room (Nat.le_trans (Nat.le_max_right _ _) fits))
termination_by (tokens.length, 1)
decreasing_by
  all_goals
    simp [Prod.lex_def, *]
    try omega

end

/-- An expression that is written in any way that its operators allow is read back, with nothing
read of what stands behind it, as long as there is room for its nesting and nothing behind it goes
on with it. -/
theorem expression_of_prints {expr : Expression} {level depth : Nat} {tokens : List Token}
    (printed : expr.Prints level depth tokens) {room : Nat} (fits : depth < room)
    {state : ParseState} {lexemes following : List Lexeme}
    (left : state.rest = lexemes ++ following) (spelled : lexemes.map Lexeme.token = tokens)
    (stops : Stops 0 (following.map Lexeme.token)) :
    ∃ found next, expression room state = .ok found next ∧ found.bare = expr.bare ∧
      next.rest = following := by
  obtain ⟨room, rfl⟩ := Nat.exists_eq_add_one.mpr (Nat.zero_lt_of_lt fits)
  have stands := (recovers_of_prints printed room (Nat.le_of_lt_succ fits)).stands
  have written : state.tokens = tokens ++ following.map Lexeme.token := by
    rw [ParseState.tokens, left, List.map_append, spelled]
  obtain ⟨found, next, read, same, after⟩ := stands state _ written stops
  refine ⟨found, next, read, same, ?_⟩
  -- The tokens left are the same, and they stand at the end of those there were.
  obtain ⟨passed, reached, _⟩ := ((reads_expression _ state).of_ok read).1
  have long : next.rest.length = following.length := by
    have := congrArg List.length after
    rwa [ParseState.length_tokens, List.length_map] at this
  rw [left] at reached
  exact (List.append_inj_right' reached long.symm).symm

/-- The tokens of `a - b - (c - 0xf) == self.f(!d)`, with an opening brace behind them. -/
theorem expression_of_prints_of_differences :
    let place : Span := ⟨0, 0⟩
    let name (word : String) : Expression := .var place ⟨word, place⟩
    let tokens : List Token :=
      [.ident "a", .punct .minus, .ident "b", .punct .minus, .punct .leftParen, .ident "c",
        .punct .minus, .hex "f", .punct .rightParen, .punct .equalEqual, .keyword .selfWord,
        .punct .dot, .ident "f", .punct .leftParen, .punct .bang, .ident "d", .punct .rightParen]
    let brace : Lexeme := ⟨.punct .leftBrace, place⟩
    ∃ found next,
      expression 3 (.start (.ofText "") (tokens.map (fun token => ⟨token, place⟩) ++ [brace])) =
        .ok found next ∧
        found.bare =
          .binary place .eq
            (.binary place .sub (.binary place .sub (name "a") (name "b"))
              (.binary place .sub (name "c") (.int place "f" 16)))
            (.selfCall place ⟨"f", place⟩ [.not place (name "d")]) ∧
        next.rest = [brace] := by
  intro place name tokens brace
  have first : (Expression.binary place .sub (name "a") (name "b")).Prints 4 0
      ([.ident "a"] ++ .punct .minus :: [.ident "b"]) := .binary .var (by decide) .var (by decide)
  have second : (Expression.binary place .sub (name "c") (.int place "f" 16)).Prints 4 0
      ([.ident "c"] ++ .punct .minus :: [.hex "f"]) := .binary .var (by decide) .hex (by decide)
  have called : Expression.ListPrints [.not place (name "d")] 2 [.punct .bang, .ident "d"] :=
    .last (.not .var)
  have differences : (Expression.binary place .sub (.binary place .sub (name "a") (name "b"))
      (.binary place .sub (name "c") (.int place "f" 16))).Prints 4 1
      (([.ident "a"] ++ .punct .minus :: [.ident "b"]) ++ .punct .minus ::
        (.punct .leftParen :: ([.ident "c"] ++ .punct .minus :: [.hex "f"]) ++
          [.punct .rightParen])) :=
    .binary first (by decide) second.parens (by decide)
  have call : (Expression.selfCall place ⟨"f", place⟩ [.not place (name "d")]).Prints 6 2 _ :=
    .selfCall called
  have printed : Expression.Prints (.binary place .eq _ _) 2 2 (_ ++ .punct .equalEqual :: _) :=
    .binary differences (by decide) call (by decide)
  exact expression_of_prints printed (by decide) rfl rfl (stops_of_mark (by simp) [])

end Parse

end Covenant
