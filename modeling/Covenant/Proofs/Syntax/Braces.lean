import Covenant.Proofs.Syntax.Nesting
import Covenant.Proofs.Syntax.Printing

/-!
The braces of what the parser reads. Where reading succeeds, types and expressions have no braces,
and in statements each brace that is opened is closed again. Between the braces of a contract that
is read without problems there are, outermost, just those of the bodies of its functions.
-/

namespace Covenant

@[simp]
def Token.Plain (token : Token) : Prop :=
  token ≠ .punct .leftBrace ∧ token ≠ .punct .rightBrace ∧ token ≠ .keyword .contractWord

inductive Braced : List Lexeme → List Span → Prop
  | nil : Braced [] []
  | plain {lexeme rest spans} : lexeme.token.Plain → Braced rest spans →
      Braced (lexeme :: rest) spans
  | block {opening inner closing rest within spans} : opening.token = .punct .leftBrace →
      Braced inner within →
      closing.token = .punct .rightBrace → Braced rest spans →
      Braced (opening :: (inner ++ closing :: rest))
        (⟨opening.span.start, closing.span.stop⟩ :: spans)

namespace Braced

variable {first second : List Lexeme} {spans others : List Span}

theorem append (one : Braced first spans) (two : Braced second others) :
    Braced (first ++ second) (spans ++ others) := by
  induction one with
  | nil => exact two
  | plain plain _ ih => exact .plain plain ih
  | block opens inner closes _ _ ih =>
    rw [List.cons_append, List.append_assoc, List.cons_append]
    exact .block opens inner closes ih

theorem ends (braced : Braced first spans) :
    ∀ span ∈ spans, (∃ lexeme ∈ first, lexeme.span.start = span.start) ∧
    ∃ lexeme ∈ first, lexeme.span.stop = span.stop := by
  induction braced with
  | nil => simp
  | plain _ _ ih =>
    intro span member
    obtain ⟨⟨opening, starts, start⟩, closing, stops, stop⟩ := ih span member
    exact ⟨⟨opening, .tail _ starts, start⟩, closing, .tail _ stops, stop⟩
  | @block opening inner closing rest _ _ _ _ _ _ _ ih =>
    intro span member
    obtain rfl | later := List.mem_cons.mp member
    · exact ⟨⟨opening, by simp, rfl⟩, closing, by simp, rfl⟩
    · obtain ⟨⟨first, starts, start⟩, last, stops, stop⟩ := ih span later
      exact ⟨⟨first, by simp [starts], start⟩, last, by simp [stops], stop⟩

theorem plain_of_no_blocks (braced : Braced first spans) (none : spans = []) :
    ∀ lexeme ∈ first, lexeme.token.Plain := by
  induction braced with
  | nil => simp
  | plain plain _ ih => exact List.forall_mem_cons.mpr ⟨plain, ih none⟩
  | block => cases none

theorem single {token : Token} (plain : token.Plain) (span : Span) : Braced [⟨token, span⟩] [] :=
  .plain plain .nil

end Braced

class Seamless (good : List Lexeme → Prop) : Prop where
  nil : good []
  append : ∀ {first second}, good first → good second → good (first ++ second)
  single : ∀ {token : Token} (span), token.Plain → good [⟨token, span⟩]

def Level (passed : List Lexeme) : Prop := Braced passed []

theorem Level.plain {passed : List Lexeme} (level : Level passed) :
    ∀ lexeme ∈ passed, lexeme.token.Plain :=
  level.plain_of_no_blocks rfl

def Even (passed : List Lexeme) : Prop := ∃ spans, Braced passed spans

instance : Seamless Level :=
  ⟨.nil, fun one two => one.append two, fun span plain => .single plain span⟩

instance : Seamless Even :=
  ⟨⟨[], .nil⟩, fun ⟨_, one⟩ ⟨_, two⟩ => ⟨_, one.append two⟩, fun span plain =>
    ⟨[], .single plain span⟩⟩

namespace ParseState

variable {state middle next : ParseState} {token : Token} {passed more : List Lexeme}

structure Over (state next : ParseState) (passed : List Lexeme) : Prop where
  rest : state.rest = passed ++ next.rest
  previous : next.previous = (passed.getLast?.map Lexeme.span).or state.previous

theorem over_refl (state : ParseState) : state.Over state [] := ⟨rfl, rfl⟩

theorem Over.trans (first : state.Over middle passed) (second : middle.Over next more) :
    state.Over next (passed ++ more) := by
  refine ⟨by rw [first.rest, second.rest, List.append_assoc], ?_⟩
  rw [second.previous, first.previous, List.getLast?_append]
  cases more.getLast? <;> rfl

theorem over_bump (found : state.peek? = some token) :
    ∃ span, state.span = span ∧ state.Over state.bump [⟨token, span⟩] := by
  obtain ⟨span, left⟩ := rest_of_peek found
  have previous : state.bump.previous = some span := by
    unfold bump
    rw [left]
  exact ⟨span, by unfold ParseState.span; rw [left], left, previous⟩

theorem Over.previousStop {lexeme : Lexeme} (along : state.Over next (passed ++ [lexeme])) :
    next.previousStop = lexeme.span.stop := by
  rw [ParseState.previousStop, along.previous, List.getLast?_concat]
  rfl

end ParseState

def MemberDecl.bodies : MemberDecl → List Block
  | field _ => []
  | event _ => []
  | init handler => [handler.body]
  | function decl => [decl.body]

namespace Parse

def Consumes {α : Type} (shape : α → List Lexeme → Prop) (step : Parse α) (state : ParseState) :
    Prop :=
  ∀ result next, step state = .ok result next → ∃ passed, state.Over next passed ∧
    shape result passed

abbrev Covers {α : Type} (good : List Lexeme → Prop) (step : Parse α) : Prop :=
  ∀ state, Consumes (fun _ => good) step state

section Rules

variable {α β : Type} {shape : β → List Lexeme → Prop} {good : List Lexeme → Prop}
  {state : ParseState}

theorem ok_of_bind {step : Parse α} {next : α → Parse β} {last : ParseState} {final : β}
    (ended : (step >>= next) state = .ok final last) :
    ∃ result later, step state = .ok result later ∧ next result later = .ok final last := by
  cases stepped : step state with
  | error problem later =>
    rw [bind_of_error stepped] at ended
    cases ended
  | ok result later => exact ⟨result, later, rfl, by rwa [bind_of_ok stepped] at ended⟩

theorem Consumes.bind {first : α → List Lexeme → Prop} {step : Parse α} {next : α → Parse β}
    (one : Consumes first step state)
    (two : ∀ result later passed, step state = .ok result later → state.Over later passed →
      first result passed →
      Consumes (fun final more => shape final (passed ++ more)) (next result) later) :
    Consumes shape (step >>= next) state := by
  intro final last ended
  obtain ⟨result, reached, stepped, ended⟩ := ok_of_bind ended
  obtain ⟨passed, along, shaped⟩ := one result reached stepped
  obtain ⟨more, further, whole⟩ := two result reached passed stepped along shaped final last ended
  exact ⟨passed ++ more, along.trans further, whole⟩

theorem Consumes.weaken {step : Parse β} {other : β → List Lexeme → Prop}
    (consumes : Consumes shape step state)
    (weaker : ∀ result passed, shape result passed → other result passed) :
    Consumes other step state := by
  intro result next stepped
  obtain ⟨passed, along, shaped⟩ := consumes result next stepped
  exact ⟨passed, along, weaker result passed shaped⟩

theorem consumes_pure {result : β} (nothing : shape result []) :
    Consumes shape (pure result) state := by
  intro final last ended
  cases ended
  exact ⟨[], state.over_refl, nothing⟩

theorem consumes_throw (problem : Diagnostic) : Consumes shape (throw problem) state := by
  intro final last ended
  cases ended

theorem consumes_look {look : Parse α} {next : α → Parse β} {seen : α}
    (looks : look state = .ok seen state) (second : Consumes shape (next seen) state) :
    Consumes shape (look >>= next) state := by
  intro final last ended
  rw [bind_of_ok looks] at ended
  exact second final last ended

theorem consumes_bump_then {next : Unit → Parse β} {token : Token}
    (found : state.peek? = some token)
    (second : ∀ span, state.span = span → state.Over state.bump [⟨token, span⟩] →
      Consumes (fun final more => shape final (⟨token, span⟩ :: more)) (next ()) state.bump) :
    Consumes shape (bump >>= next) state := by
  obtain ⟨span, here, along⟩ := ParseState.over_bump found
  intro final last ended
  have bumped : (bump : Parse Unit) state = .ok () state.bump := rfl
  rw [bind_of_ok bumped] at ended
  obtain ⟨more, further, whole⟩ := second span here along final last ended
  exact ⟨⟨token, span⟩ :: more, along.trans further, whole⟩

theorem consumes_map {step : Parse α} {change : α → β}
    (first : Consumes (fun result => shape (change result)) step state) :
    Consumes shape (change <$> step) state := by
  intro final last ended
  cases stepped : step state with
  | error problem reached =>
    simp only [Functor.map, EStateM.map, stepped] at ended
    cases ended
  | ok result reached =>
    simp only [Functor.map, EStateM.map, stepped, EStateM.Result.ok.injEq] at ended
    obtain ⟨rfl, rfl⟩ := ended
    exact first result reached stepped

theorem consumes_ite {condition : Prop} [Decidable condition] {first second : Parse β}
    (yes : condition → Consumes shape first state)
    (no : ¬ condition → Consumes shape second state) :
    Consumes shape (if condition then first else second) state := by
  split
  · exact yes ‹_›
  · exact no ‹_›

section Seamless

variable [Seamless good]

theorem covers_pure (result : β) : Covers good (pure result) := fun _ => consumes_pure Seamless.nil

theorem Consumes.then {step : Parse α} {next : α → Parse β}
    (first : Consumes (fun _ => good) step state) (second : ∀ result, Covers good (next result)) :
    Consumes (fun _ => good) (step >>= next) state :=
  first.bind fun result later _ _ _ shaped =>
    (second result later).weaken fun _ _ further => Seamless.append shaped further

theorem Covers.seq {step : Parse α} {next : α → Parse β} (first : Covers good step)
    (second : ∀ result, Covers good (next result)) : Covers good (step >>= next) :=
  fun state => (first state).then second

theorem consumes_bump_cover {next : Unit → Parse β} {token : Token}
    (found : state.peek? = some token) (plain : token.Plain)
    (second : Consumes (fun _ => good) (next ()) state.bump) :
    Consumes (fun _ => good) (bump >>= next) state :=
  consumes_bump_then found fun span _ _ => second.weaken fun _ _ further =>
    Seamless.append (Seamless.single span plain) further

end Seamless

theorem Covers.map {step : Parse α} (first : Covers good step) (change : α → β) :
    Covers good (change <$> step) :=
  fun state => consumes_map (first state)

theorem covers_ite {condition : Prop} [Decidable condition] {first second : Parse β}
    (yes : Covers good first) (no : Covers good second) :
    Covers good (if condition then first else second) :=
  fun state => consumes_ite (fun _ => yes state) fun _ => no state

theorem covers_optional [Seamless good] {part : Parse α} {next : Option α → Parse β}
    {present : Prop} [Decidable present] (inner : Covers good part)
    (after : ∀ found, Covers good (next found)) :
    Covers good (if present then some <$> part >>= next else pure none >>= next) :=
  covers_ite ((inner.map _).seq after) ((covers_pure none).seq after)

end Rules

/-! The steps from which the parser is built. -/

section Steps

variable {α : Type} {good : List Lexeme → Prop} {state : ParseState}
  {shape : α → List Lexeme → Prop}

theorem consumes_fail (message : String) (span : Span) (hint : Option String) :
    Consumes shape (fail message span hint) state :=
  consumes_look rfl (consumes_throw _)

theorem consumes_failExpecting (what : String) (hint : Option String) :
    Consumes shape (failExpecting what hint : Parse α) state :=
  consumes_look rfl (consumes_throw _)

theorem consumes_failTooDeep : Consumes shape (failTooDeep : Parse α) state :=
  consumes_look rfl (consumes_fail _ _ _)

theorem consumes_expect (mark : Punct) :
    Consumes (fun found passed => passed = [⟨.punct mark, found⟩]) (expect mark) state := by
  refine consumes_look rfl (consumes_ite ?_ fun _ => consumes_failExpecting _ _)
  intro found
  refine consumes_look rfl
    (consumes_bump_then (ParseState.peek_of_isAt found) fun span here _ => ?_)
  exact consumes_pure (by rw [here])

theorem consumes_expectIdent (what : String) (hint : Option String) :
    Consumes (fun name passed => passed = [⟨.ident name.name, name.span⟩])
      (expectIdent what hint) state := by
  refine consumes_look rfl ?_
  split
  · rename_i name found
    refine consumes_look rfl (consumes_bump_then found fun span here _ => ?_)
    exact consumes_pure (by rw [here])
  · exact consumes_failExpecting _ _

theorem consumes_expectKeyword (word : Keyword) :
    Consumes (fun _ passed => ∃ span, passed = [⟨.keyword word, span⟩])
      (expectKeyword word) state := by
  refine consumes_look rfl (consumes_ite ?_ fun _ => consumes_failExpecting _ _)
  intro found result next stepped
  obtain ⟨span, _, along⟩ := ParseState.over_bump (ParseState.peek_of_isAt found)
  cases stepped
  exact ⟨_, along, span, rfl⟩

variable [Seamless good]

theorem covers_of_look {look : Parse α} (looks : ∀ state, ∃ seen, look state = .ok seen state) :
    Covers good look := by
  intro state result next stepped
  obtain ⟨seen, looked⟩ := looks state
  rw [looked] at stepped
  cases stepped
  exact ⟨[], state.over_refl, Seamless.nil⟩

theorem covers_get : Covers good (get : Parse ParseState) := covers_of_look fun _ => ⟨_, rfl⟩

theorem covers_previousStop : Covers good previousStop := covers_of_look fun _ => ⟨_, rfl⟩

theorem covers_isAt (token : Token) : Covers good (isAt token) := covers_of_look fun _ => ⟨_, rfl⟩

theorem covers_expect {mark : Punct} (plain : (Token.punct mark).Plain) :
    Covers good (expect mark) :=
  fun _ => (consumes_expect mark).weaken fun found _ passed => passed ▸ Seamless.single found plain

theorem covers_expectIdent (what : String) (hint : Option String) :
    Covers good (expectIdent what hint) :=
  fun _ => (consumes_expectIdent what hint).weaken fun name _ passed =>
    passed ▸ Seamless.single name.span (by simp)

theorem covers_expectKeyword {word : Keyword} (plain : (Token.keyword word).Plain) :
    Covers good (expectKeyword word) :=
  fun _ => (consumes_expectKeyword word).weaken fun _ _ ⟨span, passed⟩ =>
    passed ▸ Seamless.single span plain

theorem covers_eat {mark : Punct} (plain : (Token.punct mark).Plain) : Covers good (eat mark) := by
  intro state
  refine consumes_look rfl ?_
  split
  · rename_i found
    exact consumes_bump_cover (ParseState.peek_of_isAt found) plain (covers_pure _ _)
  · exact covers_pure _ _

theorem covers_expectString : Covers good expectString := by
  intro state
  refine consumes_look rfl ?_
  split
  · rename_i text found
    exact consumes_bump_cover found (by simp) (covers_pure _ _)
  · exact consumes_failExpecting _ _

theorem covers_repeatWith {step : Parse (Option α)} (inner : Covers good step) (fuel : Nat) :
    Covers good (repeatWith step fuel) := by
  induction fuel with
  | zero => exact covers_pure _
  | succ fuel ih =>
    refine inner.seq fun found => ?_
    cases found with
    | none => exact covers_pure _
    | some item => exact ih.seq fun _ => covers_pure _

theorem covers_itemsWith {item : Parse α} (inner : Covers good item) (fuel : Nat) :
    Covers good (itemsWith item fuel) := by
  induction fuel with
  | zero => exact covers_pure _
  | succ fuel ih =>
    refine (covers_eat (by simp)).seq fun _ => covers_ite (covers_pure _) ?_
    refine inner.seq fun first => (covers_eat (by simp)).seq fun _ => covers_ite ?_ ?_
    · exact ih.seq fun _ => covers_pure _
    · exact (covers_expect (by simp)).seq fun _ => covers_pure _

theorem covers_parenthesised {item : Parse α} (inner : Covers good item) :
    Covers good (parenthesised item) :=
  (covers_expect (by simp)).seq fun _ => covers_get.seq fun _ =>
    covers_itemsWith inner _

end Steps

section Productions

variable {good : List Lexeme → Prop} [Seamless good] {state : ParseState}

/-! Types and expressions. -/

theorem covers_typeWith {part : Parse TypeExpr} {enter : Parse Unit} (inner : Covers good part)
    (entered : Covers good enter) : Covers good (typeWith part enter) := by
  refine (covers_expectIdent _ _).seq fun name => ?_
  split
  · exact covers_pure _
  · refine covers_ite ?_ fun _ => consumes_fail _ _ _
    exact entered.seq fun _ => (covers_expect (by simp)).seq fun _ => inner.seq fun _ =>
      (covers_expect (by simp)).seq fun _ => inner.seq fun _ =>
        (covers_expect (by simp)).seq fun _ =>
        covers_previousStop.seq fun _ => covers_pure _

theorem covers_typeExpr (room : Nat) : Covers good (typeExpr room) := by
  induction room with
  | zero => exact covers_typeWith (fun _ => consumes_failTooDeep) fun _ => consumes_failTooDeep
  | succ room ih => exact covers_typeWith ih (covers_pure _)

theorem covers_binaryTail {operand : Parse Expression} (inner : Covers good operand)
    {operators : List (Punct × BinaryOp)}
    (plain : ∀ entry ∈ operators, (Token.punct entry.1).Plain) (fuel : Nat) (lhs : Expression) :
    Covers good (binaryTail operand operators fuel lhs) := by
  induction fuel generalizing lhs with
  | zero => exact covers_pure _
  | succ fuel ih =>
    intro state
    refine consumes_look rfl ?_
    split
    · exact covers_pure _ state
    · rename_i op found
      obtain ⟨entry, chosen, _⟩ := Option.map_eq_some_iff.mp found
      have next : state.peek? = some (.punct entry.1) := by simpa using List.find?_some chosen
      exact consumes_bump_cover next (plain entry (List.mem_of_find?_eq_some chosen))
        (inner.seq (fun _ => ih _) _)

theorem covers_binary {operand : Parse Expression} (inner : Covers good operand)
    {levels : List (List (Punct × BinaryOp))}
    (plain : ∀ operators ∈ levels, ∀ entry ∈ operators, (Token.punct entry.1).Plain) :
    Covers good (binary operand levels) := by
  induction levels with
  | nil => exact inner
  | cons operators tighter ih =>
    obtain ⟨here, further⟩ := List.forall_mem_cons.mp plain
    exact (ih further).seq fun _ => covers_get.seq fun _ => covers_binaryTail (ih further) here _ _

theorem plain_of_precedence :
    ∀ operators ∈ precedence, ∀ entry ∈ operators, (Token.punct entry.1).Plain := by
  unfold Token.Plain
  decide

section Primary

variable {expression : Parse Expression} {object : String}

theorem consumes_envValue (first : state.peek? = some (.ident object))
    (second : (state.rest.drop 1).head?.map Lexeme.token = some (.punct .dot)) (span : Span) :
    Consumes (fun _ => good) (envValue object span) state := by
  refine consumes_bump_cover first (by simp) ?_
  refine consumes_bump_cover (state.peek_bump.trans second) (by simp) ?_
  refine (covers_expectIdent _ _).seq (fun member => ?_) _
  split
  · exact covers_previousStop.seq fun _ => covers_pure _
  · exact fun _ => consumes_fail _ _ _

theorem consumes_externalCall (first : state.peek? = some (.ident object))
    (inner : Covers good expression) (span : Span) :
    Consumes (fun _ => good) (externalCall expression object span) state := by
  unfold externalCall
  split
  · exact consumes_fail _ _ _
  · refine consumes_bump_cover first (by simp) ((covers_parenthesised inner).seq (fun args => ?_) _)
    split
    · exact covers_previousStop.seq fun _ => covers_pure _
    · exact covers_previousStop.seq fun _ _ => consumes_fail _ _ _

theorem consumes_named (first : state.peek? = some (.ident object))
    (inner : Covers good expression) :
    Consumes (fun _ => good) (named expression object) state := by
  refine consumes_look rfl ?_
  dsimp only
  split
  · rename_i dotted
    exact consumes_ite (fun _ => consumes_envValue first dotted _) fun _ =>
      consumes_bump_cover first (by simp) (covers_pure _ _)
  · exact consumes_externalCall first inner _
  · exact consumes_bump_cover first (by simp) (covers_pure _ _)

theorem consumes_member (first : state.peek? = some (.keyword .selfWord))
    (inner : Covers good expression) (start : Nat) :
    Consumes (fun _ => good) (member expression start) state := by
  refine consumes_bump_cover first (by simp) ?_
  refine (covers_expect (by simp)).seq (fun _ => (covers_expectIdent _ _).seq fun name => ?_) _
  refine (covers_isAt _).seq fun _ => covers_ite ?_ ?_
  · exact (covers_parenthesised inner).seq fun _ => covers_previousStop.seq fun _ => covers_pure _
  · refine (covers_eat (by simp)).seq fun _ =>
      covers_ite ?_ (covers_previousStop.seq fun _ => covers_pure _)
    exact inner.seq fun _ => (covers_expect (by simp)).seq fun _ => covers_previousStop.seq fun _ =>
      covers_pure _

theorem covers_primary (inner : Covers good expression) : Covers good (primary expression) := by
  intro state
  refine consumes_look rfl (consumes_look rfl ?_)
  split <;> rename_i found
  · exact consumes_bump_cover found (by simp) (covers_pure _ _)
  · exact consumes_bump_cover found (by simp) (covers_pure _ _)
  · exact consumes_bump_cover found (by simp) (covers_pure _ _)
  · exact consumes_bump_cover found (by simp) (covers_pure _ _)
  · exact consumes_bump_cover found (by simp) (covers_pure _ _)
  · exact consumes_member found inner _
  · exact consumes_named found inner
  · refine consumes_bump_cover found (by simp) (inner.seq (fun _ => ?_) _)
    exact (covers_expect (by simp)).seq fun _ => covers_previousStop.seq fun _ => covers_pure _
  · exact consumes_failExpecting _ _

end Primary

theorem covers_unary (room : Nat) : Covers good (unary room) := by
  induction room with
  | zero =>
    exact (covers_eat (by simp)).seq fun _ => covers_ite (fun _ => consumes_failTooDeep)
      (covers_primary fun _ => consumes_failTooDeep)
  | succ room ih =>
    intro state
    refine consumes_look rfl ((covers_eat (by simp)).seq (fun _ => covers_ite ?_ ?_) state)
    · exact ih.seq fun _ => covers_pure _
    · exact covers_primary (covers_binary ih plain_of_precedence)

theorem covers_expression (room : Nat) : Covers good (expression room) := by
  cases room with
  | zero => exact fun _ => consumes_failTooDeep
  | succ room => exact covers_binary (covers_unary room) plain_of_precedence

/-! Statements, given what the blocks inside them are read over. -/

theorem covers_conditional {condition : Parse Expression} {block : Parse Block}
    (test : Covers good condition) (inner : Covers good block) (fuel : Nat) :
    Covers good (conditional condition block fuel) := by
  induction fuel with
  | zero => exact fun _ => consumes_failTooDeep
  | succ fuel ih =>
    intro state
    refine consumes_look rfl ((covers_expectKeyword (by simp)).seq (fun _ => ?_) state)
    refine test.seq fun _ => inner.seq fun _ later => consumes_look rfl ?_
    split
    · rename_i found
      refine consumes_bump_cover (ParseState.peek_of_isAt found) (by simp) ?_
      refine (covers_isAt _).seq (fun _ => covers_ite ?_ ?_) _
      · exact ih.seq fun _ => covers_previousStop.seq fun _ => covers_pure _
      · exact inner.seq fun _ => covers_previousStop.seq fun _ => covers_pure _
    · exact covers_previousStop.seq (fun _ => covers_pure _) later

theorem covers_declaration (room start : Nat) : Covers good (declaration room start) :=
  (covers_expectIdent _ _).seq fun _ => (covers_eat (by simp)).seq fun _ =>
    covers_optional (covers_typeExpr _) fun _ => (covers_expect (by simp)).seq fun _ =>
      (covers_expression _).seq fun _ => covers_previousStop.seq fun _ => covers_pure _

theorem covers_requirement (room start : Nat) : Covers good (requirement room start) :=
  (covers_expect (by simp)).seq fun _ => (covers_expression _).seq fun _ =>
    (covers_eat (by simp)).seq fun _ =>
    covers_optional covers_expectString fun _ => (covers_expect (by simp)).seq fun _ =>
      covers_previousStop.seq fun _ => covers_pure _

theorem covers_assertion (room start : Nat) : Covers good (assertion room start) :=
  (covers_expect (by simp)).seq fun _ => (covers_expression _).seq fun _ =>
    (covers_expect (by simp)).seq fun _ => covers_previousStop.seq fun _ => covers_pure _

theorem covers_reversion (start : Nat) : Covers good (reversion start) := by
  refine (covers_expect (by simp)).seq fun _ state => consumes_look rfl ?_
  have ending : ∀ message : Option String, Covers good (do
      let _ ← expect .rightParen
      return Statement.revert ⟨start, ← previousStop⟩ message) := fun _ =>
    (covers_expect (by simp)).seq fun _ => covers_previousStop.seq fun _ => covers_pure _
  split
  · exact (covers_expectString.map _).seq ending state
  · exact (covers_pure _).seq ending state

theorem covers_returned (room start : Nat) : Covers good (returned room start) :=
  covers_get.seq fun _ => covers_optional (covers_expression _) fun _ =>
    covers_previousStop.seq fun _ => covers_pure _

theorem covers_emission (room start : Nat) : Covers good (emission room start) :=
  (covers_expectIdent _ _).seq fun _ => (covers_parenthesised (covers_expression _)).seq fun _ =>
    covers_previousStop.seq fun _ => covers_pure _

theorem covers_assignment (room start : Nat) : Covers good (assignment room start) := by
  refine (covers_expression _).seq fun target state => consumes_look rfl ?_
  split
  · exact covers_previousStop.seq (fun _ => covers_pure _) state
  · rename_i op assigns
    obtain ⟨token, found, same⟩ := Option.bind_eq_some_iff.mp assigns
    have plain : token.Plain := by
      refine ⟨?_, ?_, ?_⟩ <;> rintro rfl <;> cases same
    refine consumes_bump_cover found plain ?_
    split
    · exact consumes_fail _ _ _
    · exact (covers_expression _).seq (fun _ => covers_previousStop.seq fun _ => covers_pure _) _

theorem covers_statement (room : Nat) {block : Parse Block} (inner : Covers good block) :
    Covers good (statement room block) := by
  intro state
  refine consumes_look rfl (consumes_look rfl ?_)
  split <;> rename_i found
  · exact consumes_bump_cover found (by simp) (covers_declaration _ _ _)
  · exact consumes_bump_cover found (by simp) (covers_requirement _ _ _)
  · exact consumes_bump_cover found (by simp) (covers_assertion _ _ _)
  · exact consumes_bump_cover found (by simp) (covers_reversion _ _)
  · exact consumes_look rfl (covers_conditional (covers_expression _) inner _ _)
  · refine consumes_bump_cover found (by simp)
      ((covers_expression _).seq (fun _ => inner.seq fun _ => ?_) _)
    exact covers_previousStop.seq fun _ => covers_pure _
  · exact consumes_bump_cover found (by simp) (covers_returned _ _ _)
  · exact consumes_bump_cover found (by simp) (covers_emission _ _ _)
  · exact covers_assignment _ _ _

/-! Blocks. -/

theorem consumes_repeatWith {α : Type} {step : Parse (Option α)} {last : List Lexeme → Prop}
    (finds : Finds step)
    (round : ∀ state,
      Consumes (fun found passed => if found.isSome then good passed else last passed) step state)
    {fuel : Nat} (enough : state.rest.length < fuel) :
    Consumes (fun _ passed => ∃ inner behind, passed = inner ++ behind ∧ good inner ∧ last behind)
      (repeatWith step fuel) state := by
  induction fuel generalizing state with
  | zero => omega
  | succ fuel ih =>
    refine (round state).bind fun found later passed stepped _ shaped => ?_
    cases found with
    | none => exact consumes_pure ⟨[], passed, by simp, Seamless.nil, shaped⟩
    | some item =>
      have shorter := ((finds state).of_ok stepped).2 rfl
      refine (ih (by omega)).bind fun _ _ more _ _ ⟨inner, behind, split, kept, closes⟩ => ?_
      refine consumes_pure ⟨passed ++ inner, behind, ?_, Seamless.append shaped kept, closes⟩
      rw [List.append_nil, split, List.append_assoc]

end Productions

section Declarations

variable {state : ParseState} {α β : Type}

theorem consumes_statementOrClose {good : List Lexeme → Prop} (opening : Span)
    {statement : Parse Statement} (inner : Covers good statement) :
    Consumes (fun found passed => if found.isSome then good passed else ∃ span,
      passed = [⟨.punct .rightBrace, span⟩]) (statementOrClose opening statement) state := by
  refine consumes_look rfl ?_
  split
  · exact consumes_fail _ _ _
  · rename_i found
    exact consumes_bump_then found fun span _ _ => consumes_pure ⟨span, rfl⟩
  · exact consumes_map (inner state)

theorem consumes_block (room : Nat) :
    Consumes (fun body passed => Braced passed [body.span]) (block room) state := by
  induction room generalizing state with
  | zero => exact consumes_failTooDeep
  | succ room ih =>
    -- Inside a block only the outermost braces are asked for, so the blocks in it may be forgotten.
    have nested : Covers Even (block room) := fun _ => ih.weaken fun body _ braced =>
      ⟨[body.span], braced⟩
    refine (consumes_expect .leftBrace).bind fun opening opened _ _ _ opens => ?_
    refine Consumes.bind (consumes_look rfl (consumes_repeatWith
      (finds_statementOrClose opening (reads_statement room (reads_block room).strolls))
      (fun _ => consumes_statementOrClose opening (covers_statement room nested))
      (Nat.lt_succ_self _))) ?_
    intro statements closed passed _ along ⟨inner, behind, split, ⟨spans, braced⟩, span, closes⟩
    subst opens split closes
    refine consumes_look rfl (consumes_pure ?_)
    rw [along.previousStop]
    have whole : Braced (⟨.punct .leftBrace, opening⟩ :: (inner ++ [⟨.punct .rightBrace, span⟩]))
        [⟨opening.start, span.stop⟩] := .block rfl braced rfl .nil
    simpa [Block.span] using whole

theorem Covers.before {step : Parse α} {next : α → Parse β} {spans : β → List Span}
    (first : Covers Level step)
    (second : ∀ result later, Consumes (fun final more => Braced more (spans final))
      (next result) later) :
    Consumes (fun final passed => Braced passed (spans final)) (step >>= next) state :=
  (first state).bind fun result later _ _ _ level => (second result later).weaken fun _ _ braced =>
    level.append braced

theorem covers_annotations : Covers Level annotations := by
  have inner : Covers Level annotation :=
    (covers_eat (by simp)).seq fun _ => covers_ite ((covers_expectIdent _ _).map _) (covers_pure _)
  exact covers_get.seq fun _ => covers_repeatWith inner _

theorem covers_params : Covers Level params :=
  covers_parenthesised ((covers_expectIdent _ _).seq fun _ => (covers_expect (by simp)).seq fun _ =>
    (covers_typeExpr _).seq fun _ => covers_pure _)

theorem consumes_body {make : Block → Nat → MemberDecl}
    (bodies : ∀ body stop, (make body stop).bodies = [body]) :
    Consumes (fun decl passed => Braced passed (decl.bodies.map Block.span))
      (do
        let body ← block nestingLimit
        return make body (← previousStop)) state := by
  refine (consumes_block _).bind fun body later passed _ _ braced =>
    consumes_look rfl (consumes_pure ?_)
  rwa [bodies, List.append_nil]

theorem consumes_functionDecl (notes : List Ident) (visibility : Visibility) (start : Nat) :
    Consumes (fun decl passed => Braced passed (decl.bodies.map Block.span))
      (functionDecl notes visibility start)
      state := by
  refine (covers_expectIdent _ _).before fun name _ => covers_params.before fun params _ => ?_
  refine Covers.before (covers_eat (by simp)) fun _ _ => consumes_ite (fun _ => ?_) fun _ => ?_
  · exact ((covers_typeExpr _).map _).before fun _ _ => consumes_body fun _ _ => rfl
  · exact (covers_pure none).before fun _ _ => consumes_body fun _ _ => rfl

theorem consumes_fieldDecl (start : Nat) :
    Consumes (fun decl passed => Braced passed (decl.bodies.map Block.span))
      (fieldDecl start) state :=
  (covers_expectIdent _ _).before fun _ _ => (covers_expect (by simp)).before fun _ _ =>
    (covers_typeExpr _).before fun _ _ => covers_previousStop.before fun _ _ => consumes_pure .nil

theorem consumes_bump_before {next : Unit → Parse β} {spans : β → List Span} {token : Token}
    (found : state.peek? = some token) (plain : token.Plain)
    (second : Consumes (fun final more => Braced more (spans final)) (next ()) state.bump) :
    Consumes (fun final passed => Braced passed (spans final)) (bump >>= next) state :=
  consumes_bump_then found fun _ _ _ => second.weaken fun _ _ braced => .plain plain braced

theorem consumes_memberDecl :
    Consumes (fun decl passed => Braced passed (decl.bodies.map Block.span)) memberDecl state := by
  refine consumes_look rfl (covers_annotations.before fun notes later => consumes_look rfl ?_)
  split <;> rename_i found
  · refine consumes_bump_before found (by simp) (covers_params.before fun params _ => ?_)
    exact consumes_body fun _ _ => rfl
  · refine consumes_bump_before found (by simp) ((covers_expectIdent _ _).before fun _ _ => ?_)
    exact covers_params.before fun _ _ => covers_previousStop.before fun _ _ => consumes_pure .nil
  · exact consumes_bump_before found (by simp) (consumes_functionDecl _ _ _)
  · refine consumes_look rfl ?_
    split
    · exact consumes_fieldDecl _
    · exact consumes_functionDecl _ _ _
    · exact consumes_bump_before found (by simp) (consumes_failExpecting _ _)
  · exact consumes_failExpecting _ _

end Declarations

/-- The declarations of a contract that are read without problems, and its closing brace. -/
theorem over_members {name : Ident} {depth fuel : Nat} {state next : ParseState}
    {decls : List MemberDecl} (enough : state.rest.length < fuel)
    (clean : members name depth fuel state = .ok (decls, []) next) :
    ∃ inner closing, state.Over next (inner ++ [⟨.punct .rightBrace, closing⟩]) ∧
      Braced inner ((decls.flatMap MemberDecl.bodies).map Block.span) := by
  induction fuel generalizing state decls with
  | zero => omega
  | succ fuel ih =>
    simp only [members, bind_of_ok (get_run state)] at clean
    cases found : state.peek? with
    | none =>
      rw [found] at clean
      cases clean
    | some token =>
      rw [found] at clean
      by_cases closes : token = .punct .rightBrace
      · subst closes
        obtain ⟨closing, _, along⟩ := ParseState.over_bump found
        cases clean
        exact ⟨[], closing, along, .nil⟩
      by_cases starts : token = .keyword .contractWord
      · subst starts
        cases clean
      simp only at clean
      -- A declaration that cannot be read leaves a problem, whatever is found behind it.
      cases read : memberDecl state with
      | error problem later =>
        have attempted := attempt_of_error read
        rw [bind_of_ok attempted] at clean
        obtain ⟨_, _, _, clean⟩ := ok_of_bind clean
        obtain ⟨_, _, _, clean⟩ := ok_of_bind clean
        cases clean
      | ok decl later =>
        have attempted := attempt_of_ok read
        rw [bind_of_ok attempted] at clean
        obtain ⟨⟨others, problems⟩, last, ended, clean⟩ := ok_of_bind clean
        cases clean
        obtain ⟨passed, along, braced⟩ := consumes_memberDecl decl later read
        have shorter := ((reads_memberDecl state).of_ok read).2 trivial
        obtain ⟨inner, closing, further, within⟩ := ih (by omega) ended
        refine ⟨passed ++ inner, closing, by simpa using along.trans further, ?_⟩
        rw [List.flatMap_cons, List.map_append]
        exact braced.append within

end Parse

structure ContractForm where
  notes : List Lexeme
  word : Span
  name : Ident
  opening : Span
  inner : List Lexeme
  closing : Span

namespace ContractForm

def heading (form : ContractForm) : List Lexeme :=
  form.notes ++ [⟨.keyword .contractWord, form.word⟩, ⟨.ident form.name.name, form.name.span⟩]

def lexemes (form : ContractForm) : List Lexeme :=
  form.heading ++ ⟨.punct .leftBrace, form.opening⟩ ::
    (form.inner ++ [⟨.punct .rightBrace, form.closing⟩])

def braces (form : ContractForm) : Span := ⟨form.opening.start, form.closing.stop⟩

end ContractForm

structure ContractDecl.HasForm (decl : ContractDecl) (form : ContractForm) : Prop where
  level : Level form.notes
  name : form.name = decl.name
  braced : ∃ spans, Braced form.inner spans ∧ ∀ span, span ∈ spans ↔ ∃ body ∈ decl.bodies,
    body.span = span
  start : form.lexemes.head?.map (fun lexeme => lexeme.span.start) = some decl.span.start
  stop : form.closing.stop = decl.span.stop

theorem MemberDecl.mem_bodies {decls : List MemberDecl} {notes : List Ident} {name : Ident}
    {span : Span} {body : Block} :
    body ∈ ContractDecl.bodies
      { annotations := notes
        name
        fields := decls.filterMap MemberDecl.field?
        events := decls.filterMap MemberDecl.event?
        inits := decls.filterMap MemberDecl.init?
        functions := decls.filterMap MemberDecl.function?
        span } ↔ body ∈ decls.flatMap MemberDecl.bodies := by
  induction decls with
  | nil => simp [ContractDecl.bodies]
  | cons decl decls ih =>
    simp only [ContractDecl.bodies, List.mem_append] at ih ⊢
    rw [List.flatMap_cons, List.mem_append, ← ih]
    cases decl <;> simp [MemberDecl.init?, MemberDecl.function?, MemberDecl.bodies, or_assoc,
      or_left_comm]

namespace Parse

variable {state next : ParseState}

/-- A contract that is read without problems. -/
theorem over_contract {decl : ContractDecl} (clean : contract state = .ok (decl, []) next) :
    ∃ form, state.Over next form.lexemes ∧ decl.HasForm form := by
  rw [contract] at clean
  obtain ⟨first, _, looked, clean⟩ := ok_of_bind clean
  cases looked
  obtain ⟨notes, noted, annotated, clean⟩ := ok_of_bind clean
  obtain ⟨before, marked, level⟩ := covers_annotations state notes noted annotated
  obtain ⟨_, worded, started, clean⟩ := ok_of_bind clean
  obtain ⟨_, begun, word, rfl⟩ := consumes_expectKeyword .contractWord () worded started
  obtain ⟨name, identified, named, clean⟩ := ok_of_bind clean
  obtain ⟨_, called, rfl⟩ := consumes_expectIdent _ _ name identified named
  obtain ⟨opening, entered, opened, clean⟩ := ok_of_bind clean
  obtain ⟨_, inside, rfl⟩ := consumes_expect .leftBrace opening entered opened
  obtain ⟨_, _, looked, clean⟩ := ok_of_bind clean
  cases looked
  obtain ⟨⟨decls, problems⟩, last, gathered, clean⟩ := ok_of_bind clean
  cases clean
  obtain ⟨inner, closing, ended, braced⟩ := over_members (Nat.lt_succ_self _) gathered
  let form : ContractForm := ⟨before, word, name, opening, inner, closing⟩
  have along : state.Over last form.lexemes := by
    have whole := marked.trans (begun.trans (called.trans (inside.trans ended)))
    simpa [form, ContractForm.lexemes, ContractForm.heading] using whole
  have first : form.lexemes.head?.map (fun lexeme => lexeme.span.start) =
      some state.span.start := by
    obtain ⟨lexeme, rest, starts⟩ : ∃ lexeme rest, form.lexemes = lexeme :: rest := by
      cases before <;> exact ⟨_, _, rfl⟩
    rw [ParseState.span, along.rest, starts]
    rfl
  refine ⟨form, ⟨along.rest, along.previous⟩, level, rfl, ⟨_, braced, fun span => ?_⟩, first,
    ended.previousStop.symm⟩
  simp only [List.mem_map, MemberDecl.mem_bodies]

/-- The contracts of a text that is read without problems. -/
theorem forms_of_contracts {fuel : Nat} {decls : List ContractDecl}
    (enough : state.rest.length < fuel) (clean : contracts fuel state = .ok (decls, []) next) :
    ∃ forms, List.Forall₂ ContractDecl.HasForm decls forms ∧
      state.rest = forms.flatMap ContractForm.lexemes := by
  induction fuel generalizing state decls with
  | zero => omega
  | succ fuel ih =>
    rw [contracts, bind_of_ok (get_run state)] at clean
    by_cases left : state.rest = []
    · rw [left] at clean
      cases clean
      exact ⟨[], .nil, left⟩
    have goes : state.rest.isEmpty = false := by simpa using left
    simp only [goes, Bool.false_eq_true, if_false] at clean
    cases read : contract state with
    | error problem later =>
      have attempted := attempt_of_error read
      rw [bind_of_ok attempted] at clean
      obtain ⟨_, _, _, clean⟩ := ok_of_bind clean
      obtain ⟨_, _, _, clean⟩ := ok_of_bind clean
      cases clean
    | ok found later =>
      obtain ⟨decl, inside⟩ := found
      have attempted := attempt_of_ok read
      rw [bind_of_ok attempted] at clean
      obtain ⟨⟨others, problems⟩, last, further, clean⟩ := ok_of_bind clean
      simp only [pure, EStateM.pure, EStateM.Result.ok.injEq, Prod.mk.injEq,
        List.append_eq_nil_iff] at clean
      obtain ⟨⟨rfl, rfl, rfl⟩, rfl⟩ := clean
      obtain ⟨form, along, written⟩ := over_contract read
      have shorter : later.rest.length < state.rest.length := by
        have opens := opens_contract state
        rw [read] at opens
        exact opens.2
      obtain ⟨forms, ordered, rest⟩ := ih (by omega) further
      exact ⟨form :: forms, .cons written ordered, by rw [along.rest, rest, List.flatMap_cons]⟩

end Parse

end Covenant
