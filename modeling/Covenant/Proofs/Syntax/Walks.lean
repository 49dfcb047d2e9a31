import Covenant.Syntax.Program

/-!
What the readers of the parts of a contract consume. None of them passes over the word that starts a
contract, whether it succeeds or fails, and one that succeeds has read something. So each loop of
the parser ends by itself, before the bound on its rounds is reached.
-/

namespace Covenant

namespace ParseState

variable {state next : ParseState} {token : Token}

def Passes (state next : ParseState) : Prop :=
  ∃ passed, state.rest = passed ++ next.rest ∧ ∀ lexeme ∈ passed, lexeme.token ≠
    .keyword .contractWord

theorem Passes.refl (state : ParseState) : state.Passes state := ⟨[], rfl, by simp⟩

theorem Passes.trans {middle : ParseState} (first : state.Passes middle)
    (second : middle.Passes next) :
    state.Passes next := by
  obtain ⟨passed, reached, free⟩ := first
  obtain ⟨more, ended, clear⟩ := second
  refine ⟨passed ++ more, by rw [reached, ended, List.append_assoc], ?_⟩
  intro lexeme member
  rcases List.mem_append.mp member with early | late
  · exact free lexeme early
  · exact clear lexeme late

theorem Passes.length_le (passes : state.Passes next) : next.rest.length ≤ state.rest.length := by
  obtain ⟨passed, reached, _⟩ := passes
  rw [reached, List.length_append]
  omega

theorem rest_bump (state : ParseState) : state.bump.rest = state.rest.tail := by
  unfold bump
  cases left : state.rest <;> simp [left]

theorem rest_of_peek (found : state.peek? = some token) :
    ∃ span, state.rest = ⟨token, span⟩ :: state.bump.rest := by
  rw [rest_bump]
  cases left : state.rest with
  | nil => simp [peek?, left] at found
  | cons lexeme rest =>
    have same : lexeme.token = token := by simpa [peek?, left] using found
    exact ⟨lexeme.span, by rw [← same]; rfl⟩

theorem passes_bump (found : state.peek? = some token) (other : token ≠ .keyword .contractWord) :
    state.Passes state.bump := by
  obtain ⟨span, left⟩ := rest_of_peek found
  exact ⟨[⟨token, span⟩], left, by simpa using other⟩

theorem length_bump (found : state.peek? = some token) :
    state.bump.rest.length < state.rest.length := by
  obtain ⟨span, left⟩ := rest_of_peek found
  simp [left]

theorem peek_bump (state : ParseState) :
    state.bump.peek? = (state.rest.drop 1).head?.map Lexeme.token := by
  rw [peek?, rest_bump, List.drop_one]

theorem skipToMember_passes (depth fuel : Nat) (state : ParseState) :
    state.Passes (state.skipToMember depth fuel) := by
  induction fuel generalizing state with
  | zero => exact .refl state
  | succ fuel ih =>
    unfold skipToMember
    split
    · exact .refl state
    · exact .refl state
    · rename_i token other found
      split
      · exact .refl state
      · split
        · exact .refl state
        · exact (passes_bump found (by simpa using other)).trans (ih state.bump)

theorem skipToContract_passes (fuel : Nat) (state : ParseState) :
    state.Passes (state.skipToContract fuel) := by
  induction fuel generalizing state with
  | zero => exact .refl state
  | succ fuel ih =>
    unfold skipToContract
    split
    · exact .refl state
    · exact .refl state
    · rename_i token other found
      exact (passes_bump found (by simpa using other)).trans (ih state.bump)

theorem peek_of_isAt (found : state.isAt token = true) : state.peek? = some token := by
  simpa [isAt] using found

end ParseState

namespace Parse

def Walks {α : Type} (far : α → Prop) (step : Parse α) (state : ParseState) : Prop :=
  match step state with
  | .ok result next => state.Passes next ∧ (far result → next.rest.length < state.rest.length)
  | .error _ next => state.Passes next

abbrev Strolls {α : Type} (step : Parse α) : Prop := ∀ state, Walks (fun _ => False) step state

abbrev Reads {α : Type} (step : Parse α) : Prop := ∀ state, Walks (fun _ => True) step state

abbrev Finds {α : Type} (step : Parse (Option α)) : Prop :=
  ∀ state, Walks (fun found => found.isSome) step state

section Rules

variable {α β : Type} {near : α → Prop} {far : β → Prop} {state : ParseState}

theorem bind_of_ok {step : Parse α} {result : α} {later : ParseState}
    (stepped : step state = .ok result later) (next : α → Parse β) :
    (step >>= next) state = next result later := by
  simp only [bind, EStateM.bind, stepped]

theorem bind_of_error {step : Parse α} {problem : Diagnostic} {later : ParseState}
    (stepped : step state = .error problem later) (next : α → Parse β) :
    (step >>= next) state = .error problem later := by
  simp only [bind, EStateM.bind, stepped]

theorem attempt_of_ok {step : Parse α} {result : α} {later : ParseState}
    (stepped : step state = .ok result later) :
    attempt step state = .ok (.ok result) later := by
  simp only [attempt, stepped]

theorem attempt_of_error {step : Parse α} {problem : Diagnostic} {later : ParseState}
    (stepped : step state = .error problem later) :
    attempt step state = .ok (.error problem) later := by
  simp only [attempt, stepped]

theorem Walks.weaken {step : Parse β} {less : β → Prop} (walks : Walks far step state)
    (weaker : ∀ result, less result → far result) : Walks less step state := by
  unfold Walks at walks ⊢
  split at walks
  · exact ⟨walks.1, fun holds => walks.2 (weaker _ holds)⟩
  · exact walks

theorem Walks.of_ok {step : Parse β} {result : β} {next : ParseState} (walks : Walks far step state)
    (stepped : step state = .ok result next) :
    state.Passes next ∧ (far result → next.rest.length < state.rest.length) := by
  unfold Walks at walks
  rwa [stepped] at walks

theorem Walks.of_error {step : Parse β} {problem : Diagnostic} {next : ParseState}
    (walks : Walks far step state) (stepped : step state = .error problem next) :
    state.Passes next := by
  unfold Walks at walks
  rwa [stepped] at walks

theorem walks_pure {result : β} (close : ¬ far result) : Walks far (pure result) state :=
  ⟨.refl state, fun holds => absurd holds close⟩

theorem strolls_pure (result : β) : Strolls (pure result) := fun _ => walks_pure id

theorem walks_throw (problem : Diagnostic) : Walks far (throw problem) state :=
  ParseState.Passes.refl state

/-- One step after another: both pass over no contract, and each token that one of them consumes is
consumed. -/
theorem walks_bind {far : β → Prop} {step : Parse α} {next : α → Parse β} {less : β → Prop}
    (first : Walks near step state)
    (second : ∀ result later, step state = .ok result later → Walks less (next result) later)
    (either : ∀ result final, far final → near result ∨ less final) :
    Walks far (step >>= next) state := by
  unfold Walks
  cases stepped : step state with
  | error problem reached =>
    rw [bind_of_error stepped]
    exact first.of_error stepped
  | ok result reached =>
    have ⟨passed, consumed⟩ := first.of_ok stepped
    rw [bind_of_ok stepped]
    cases ended : next result reached with
    | error problem last => exact passed.trans ((second result reached stepped).of_error ended)
    | ok final last =>
      have ⟨more, further⟩ := (second result reached stepped).of_ok ended
      refine ⟨passed.trans more, fun holds => ?_⟩
      have shorter := passed.length_le
      have shortest := more.length_le
      rcases either result final holds with here | there
      · have := consumed here
        omega
      · have := further there
        omega

theorem Walks.thenStroll {step : Parse α} {next : α → Parse β}
    (first : Walks (fun _ => True) step state) (second : ∀ result, Strolls (next result)) :
    Walks far (step >>= next) state :=
  walks_bind first (fun result later _ => second result later) fun _ _ _ => .inl trivial

theorem Walks.then {step : Parse α} {next : α → Parse β} (first : Walks near step state)
    (second : ∀ result later, Walks far (next result) later) : Walks far (step >>= next) state :=
  walks_bind first (fun result later _ => second result later) fun _ _ holds => .inr holds

theorem walks_look {look : Parse α} {next : α → Parse β} {seen : α}
    (looks : look state = .ok seen state) (second : Walks far (next seen) state) :
    Walks far (look >>= next) state := by
  unfold Walks at second ⊢
  rwa [bind_of_ok looks]

theorem walks_bump {far : Unit → Prop} {token : Token} (found : state.peek? = some token)
    (other : token ≠ .keyword .contractWord) : Walks far bump state :=
  ⟨ParseState.passes_bump found other, fun _ => ParseState.length_bump found⟩

theorem walks_bump_then {next : Unit → Parse β} {token : Token} (found : state.peek? = some token)
    (other : token ≠ .keyword .contractWord)
    (second : Walks (fun _ => False) (next ()) state.bump) :
    Walks far (bump >>= next) state := by
  have consumes : Walks (fun _ => True) bump state := walks_bump found other
  have after : ∀ result later, bump state = .ok result later →
      Walks (fun _ => False) (next result) later := by
    intro result later stepped
    obtain rfl : state.bump = later := by injection stepped
    exact second
  exact walks_bind consumes after fun _ _ _ => .inl trivial

theorem walks_map {step : Parse α} {change : α → β} (first : Walks near step state)
    (nearer : ∀ result, far (change result) → near result) : Walks far (change <$> step) state := by
  unfold Walks at first ⊢
  cases stepped : step state with
  | ok result next =>
    have changed : (change <$> step) state = .ok (change result) next := by
      simp only [Functor.map, EStateM.map, stepped]
    rw [stepped] at first
    rw [changed]
    exact ⟨first.1, fun holds => first.2 (nearer result holds)⟩
  | error problem next =>
    have failed : (change <$> step) state = .error problem next := by
      simp only [Functor.map, EStateM.map, stepped]
    rw [stepped] at first
    rwa [failed]

theorem walks_ite {condition : Prop} [Decidable condition] {first second : Parse β}
    (yes : Walks far first state) (no : Walks far second state) :
    Walks far (if condition then first else second) state := by
  split
  · exact yes
  · exact no

theorem Reads.strolls {step : Parse α} (reads : Reads step) : Strolls step :=
  fun state => (reads state).weaken fun _ => False.elim

theorem Strolls.seq {step : Parse α} {next : α → Parse β} (first : Strolls step)
    (second : ∀ result, Strolls (next result)) : Strolls (step >>= next) :=
  fun state => (first state).then second

theorem Strolls.map {step : Parse α} (first : Strolls step) (change : α → β) :
    Strolls (change <$> step) :=
  fun state => walks_map (first state) fun _ => id

theorem strolls_ite {condition : Prop} [Decidable condition] {first second : Parse β}
    (yes : Strolls first) (no : Strolls second) : Strolls (if condition then first else second) :=
  fun state => walks_ite (yes state) (no state)

theorem Reads.seq {step : Parse α} {next : α → Parse β} (first : Reads step)
    (second : ∀ result, Strolls (next result)) : Reads (step >>= next) :=
  fun state => (first state).thenStroll second

theorem strolls_optional {part : Parse α} {next : Option α → Parse β} {present : Prop}
    [Decidable present] (inner : Strolls part) (after : ∀ found, Strolls (next found)) :
    Strolls (if present then some <$> part >>= next else pure none >>= next) :=
  strolls_ite ((inner.map _).seq after) ((strolls_pure _).seq after)

end Rules

/-! The steps from which the parser is built. -/

theorem walks_fail {α : Type} {far : α → Prop} {state : ParseState} (message : String) (span : Span)
    (hint : Option String) : Walks far (fail message span hint) state :=
  walks_look rfl (walks_throw _)

theorem walks_failExpecting {α : Type} {far : α → Prop} {state : ParseState} (what : String)
    (hint : Option String) :
    Walks far (failExpecting what hint : Parse α) state :=
  walks_look rfl (walks_throw _)

theorem walks_failTooDeep {α : Type} {far : α → Prop} {state : ParseState} :
    Walks far (failTooDeep : Parse α) state :=
  walks_look rfl (walks_fail _ _ _)

theorem strolls_get : Strolls (get : Parse ParseState) := fun state => ⟨.refl state, False.elim⟩

theorem strolls_previousStop : Strolls previousStop := fun state => ⟨.refl state, False.elim⟩

theorem strolls_isAt (token : Token) : Strolls (isAt token) :=
  fun state => ⟨.refl state, False.elim⟩

theorem walks_eat (mark : Punct) (state : ParseState) :
    Walks (fun eaten => eaten = true) (eat mark) state := by
  refine walks_look rfl ?_
  split
  · rename_i found
    exact walks_bump_then (ParseState.peek_of_isAt found) (by simp) (strolls_pure _ _)
  · exact walks_pure (by simp)

theorem strolls_eat (mark : Punct) : Strolls (eat mark) :=
  fun state => (walks_eat mark state).weaken fun _ => False.elim

theorem reads_expect (mark : Punct) : Reads (expect mark) := by
  intro state
  refine walks_look rfl ?_
  split
  · rename_i found
    exact walks_look rfl
      (walks_bump_then (ParseState.peek_of_isAt found) (by simp) (strolls_pure _ _))
  · exact walks_failExpecting _ _

theorem reads_expectKeyword {word : Keyword} (other : word ≠ .contractWord) :
    Reads (expectKeyword word) := by
  intro state
  refine walks_look rfl ?_
  split
  · rename_i found
    exact walks_bump (ParseState.peek_of_isAt found) (by simpa using other)
  · exact walks_failExpecting _ _

theorem reads_expectIdent (what : String) (hint : Option String) :
    Reads (expectIdent what hint) := by
  intro state
  refine walks_look rfl ?_
  split
  · rename_i name found
    exact walks_look rfl (walks_bump_then found (by simp) (strolls_pure _ _))
  · exact walks_failExpecting _ _

theorem reads_expectString : Reads expectString := by
  intro state
  refine walks_look rfl ?_
  split
  · rename_i text found
    exact walks_bump_then found (by simp) (strolls_pure _ _)
  · exact walks_failExpecting _ _

theorem strolls_repeatWith {α : Type} {step : Parse (Option α)} (inner : Strolls step)
    (fuel : Nat) :
    Strolls (repeatWith step fuel) := by
  induction fuel with
  | zero => exact strolls_pure _
  | succ fuel ih =>
    refine inner.seq fun found => ?_
    cases found with
    | none => exact strolls_pure _
    | some item => exact ih.seq fun _ => strolls_pure _

theorem strolls_repeated {α : Type} {step : Parse (Option α)} (inner : Strolls step) :
    Strolls (repeated step) :=
  strolls_get.seq fun _ => strolls_repeatWith inner _

theorem strolls_itemsWith {α : Type} {item : Parse α} (inner : Strolls item) (fuel : Nat) :
    Strolls (itemsWith item fuel) := by
  induction fuel with
  | zero => exact strolls_pure _
  | succ fuel ih =>
    refine (strolls_eat _).seq fun _ => strolls_ite (strolls_pure _) (inner.seq fun first => ?_)
    refine (strolls_eat _).seq fun _ => strolls_ite (ih.seq fun _ => strolls_pure _) ?_
    exact (reads_expect _).strolls.seq fun _ => strolls_pure _

theorem reads_parenthesised {α : Type} {item : Parse α} (inner : Strolls item) :
    Reads (parenthesised item) :=
  (reads_expect _).seq fun _ => strolls_get.seq fun _ => strolls_itemsWith inner _

/-! Types and expressions. -/

theorem reads_typeWith {part : Parse TypeExpr} {enter : Parse Unit} (inner : Strolls part)
    (entered : Strolls enter) :
    Reads (typeWith part enter) := by
  refine (reads_expectIdent _ _).seq fun name => ?_
  split
  · exact strolls_pure _
  · refine strolls_ite ?_ fun _ => walks_fail _ _ _
    exact entered.seq fun _ => (reads_expect _).strolls.seq fun _ => inner.seq fun _ =>
      (reads_expect _).strolls.seq fun _ => inner.seq fun _ => (reads_expect _).strolls.seq fun _ =>
        strolls_previousStop.seq fun _ => strolls_pure _

theorem reads_typeExpr (room : Nat) : Reads (typeExpr room) := by
  induction room with
  | zero => exact reads_typeWith (fun _ => walks_failTooDeep) fun _ => walks_failTooDeep
  | succ room ih => exact reads_typeWith ih.strolls (strolls_pure _)

theorem strolls_binaryTail {operand : Parse Expression} (inner : Strolls operand)
    (operators : List (Punct × BinaryOp)) (fuel : Nat) (lhs : Expression) :
    Strolls (binaryTail operand operators fuel lhs) := by
  induction fuel generalizing lhs with
  | zero => exact strolls_pure _
  | succ fuel ih =>
    intro state
    refine walks_look rfl ?_
    split
    · exact strolls_pure _ state
    · rename_i op found
      obtain ⟨entry, chosen, _⟩ := Option.map_eq_some_iff.mp found
      have next : state.peek? = some (.punct entry.1) := by simpa using List.find?_some chosen
      exact walks_bump_then next (by simp) (inner.seq (fun _ => ih _) _)

theorem reads_binary {operand : Parse Expression} (inner : Reads operand)
    (levels : List (List (Punct × BinaryOp))) : Reads (binary operand levels) := by
  induction levels with
  | nil => exact inner
  | cons operators tighter ih =>
    exact ih.seq fun _ => strolls_get.seq fun _ => strolls_binaryTail ih.strolls _ _ _

section Primary

variable {far : Expression → Prop} {state : ParseState} {expression : Parse Expression}
  {object : String}

theorem walks_envValue (first : state.peek? = some (.ident object))
    (second : (state.rest.drop 1).head?.map Lexeme.token = some (.punct .dot)) (span : Span) :
    Walks far (envValue object span) state := by
  refine walks_bump_then first (by simp) ?_
  refine walks_bump_then (state.peek_bump.trans second) (by simp) ?_
  refine (reads_expectIdent _ _).strolls.seq (fun member => ?_) _
  split
  · exact strolls_previousStop.seq fun _ => strolls_pure _
  · exact fun _ => walks_fail _ _ _

theorem walks_externalCall (first : state.peek? = some (.ident object))
    (inner : Strolls expression) (span : Span) :
    Walks far (externalCall expression object span) state := by
  unfold externalCall
  split
  · exact walks_fail _ _ _
  · refine walks_bump_then first (by simp)
      ((reads_parenthesised inner).strolls.seq (fun args => ?_) _)
    split
    · exact strolls_previousStop.seq fun _ => strolls_pure _
    · exact strolls_previousStop.seq fun _ _ => walks_fail _ _ _

theorem walks_named (first : state.peek? = some (.ident object)) (inner : Strolls expression) :
    Walks far (named expression object) state := by
  refine walks_look rfl ?_
  dsimp only
  split
  · rename_i dotted
    exact walks_ite (walks_envValue first dotted _)
      (walks_bump_then first (by simp) (strolls_pure _ _))
  · exact walks_externalCall first inner _
  · exact walks_bump_then first (by simp) (strolls_pure _ _)

theorem walks_member (first : state.peek? = some (.keyword .selfWord)) (inner : Strolls expression)
    (start : Nat) :
    Walks far (member expression start) state := by
  refine walks_bump_then first (by simp) ?_
  refine (reads_expect _).strolls.seq
    (fun _ => (reads_expectIdent _ _).strolls.seq fun name => ?_) _
  refine (strolls_isAt _).seq fun _ => strolls_ite ?_ ?_
  · exact (reads_parenthesised inner).strolls.seq fun _ => strolls_previousStop.seq fun _ =>
      strolls_pure _
  · refine (strolls_eat _).seq fun _ =>
      strolls_ite ?_ (strolls_previousStop.seq fun _ => strolls_pure _)
    exact inner.seq fun _ => (reads_expect _).strolls.seq fun _ => strolls_previousStop.seq fun _ =>
      strolls_pure _

theorem reads_primary (inner : Strolls expression) : Reads (primary expression) := by
  intro state
  refine walks_look rfl (walks_look rfl ?_)
  split <;> rename_i found
  · exact walks_bump_then found (by simp) (strolls_pure _ _)
  · exact walks_bump_then found (by simp) (strolls_pure _ _)
  · exact walks_bump_then found (by simp) (strolls_pure _ _)
  · exact walks_bump_then found (by simp) (strolls_pure _ _)
  · exact walks_bump_then found (by simp) (strolls_pure _ _)
  · exact walks_member found inner _
  · exact walks_named found inner
  · refine walks_bump_then found (by simp) (inner.seq (fun _ => ?_) _)
    exact (reads_expect _).strolls.seq fun _ => strolls_previousStop.seq fun _ => strolls_pure _
  · exact walks_failExpecting _ _

end Primary

theorem reads_unary (room : Nat) : Reads (unary room) := by
  induction room with
  | zero =>
    intro state
    exact (strolls_eat _ _).then fun _ later => walks_ite walks_failTooDeep
      (reads_primary (fun _ => walks_failTooDeep) later)
  | succ room ih =>
    intro state
    refine walks_look rfl ((strolls_eat _ _).then fun _ later => walks_ite ?_ ?_)
    · exact ih.seq (fun _ => strolls_pure _) later
    · exact reads_primary (reads_binary ih _).strolls later

theorem reads_expression (room : Nat) : Reads (expression room) := by
  cases room with
  | zero => exact fun _ => walks_failTooDeep
  | succ room => exact reads_binary (reads_unary room) _

/-! Statements and blocks. -/

theorem reads_conditional {condition : Parse Expression} {block : Parse Block}
    (test : Strolls condition) (inner : Strolls block) (fuel : Nat) :
    Reads (conditional condition block fuel) := by
  induction fuel with
  | zero => exact fun _ => walks_failTooDeep
  | succ fuel ih =>
    intro state
    refine walks_look rfl ((reads_expectKeyword (by simp)).seq (fun _ => ?_) state)
    refine test.seq fun _ => inner.seq fun _ later => walks_look rfl ?_
    split
    · rename_i found
      refine walks_bump_then (ParseState.peek_of_isAt found) (by simp) ?_
      refine (strolls_isAt _).seq (fun _ => strolls_ite ?_ ?_) _
      · exact ih.strolls.seq fun _ => strolls_previousStop.seq fun _ => strolls_pure _
      · exact inner.seq fun _ => strolls_previousStop.seq fun _ => strolls_pure _
    · exact strolls_previousStop.seq (fun _ => strolls_pure _) later

theorem strolls_declaration (room start : Nat) : Strolls (declaration room start) :=
  (reads_expectIdent _ _).strolls.seq fun _ => (strolls_eat _).seq fun _ =>
    strolls_optional (reads_typeExpr _).strolls fun _ => (reads_expect _).strolls.seq fun _ =>
      (reads_expression _).strolls.seq fun _ => strolls_previousStop.seq fun _ => strolls_pure _

theorem strolls_requirement (room start : Nat) : Strolls (requirement room start) :=
  (reads_expect _).strolls.seq fun _ => (reads_expression _).strolls.seq fun _ =>
    (strolls_eat _).seq fun _ =>
    strolls_optional reads_expectString.strolls fun _ => (reads_expect _).strolls.seq fun _ =>
      strolls_previousStop.seq fun _ => strolls_pure _

theorem strolls_assertion (room start : Nat) : Strolls (assertion room start) :=
  (reads_expect _).strolls.seq fun _ => (reads_expression _).strolls.seq fun _ =>
    (reads_expect _).strolls.seq fun _ => strolls_previousStop.seq fun _ => strolls_pure _

theorem strolls_reversion (start : Nat) : Strolls (reversion start) := by
  refine (reads_expect _).strolls.seq fun _ state => walks_look rfl ?_
  have ending : ∀ message : Option String, Strolls (do
      let _ ← expect .rightParen
      return Statement.revert ⟨start, ← previousStop⟩ message) := fun _ =>
    (reads_expect _).strolls.seq fun _ => strolls_previousStop.seq fun _ => strolls_pure _
  split
  · exact (reads_expectString.strolls.map _).seq ending state
  · exact (strolls_pure _).seq ending state

theorem strolls_returned (room start : Nat) : Strolls (returned room start) :=
  strolls_get.seq fun _ => strolls_optional (reads_expression _).strolls fun _ =>
    strolls_previousStop.seq fun _ => strolls_pure _

theorem strolls_emission (room start : Nat) : Strolls (emission room start) :=
  (reads_expectIdent _ _).strolls.seq fun _ =>
    (reads_parenthesised (reads_expression _).strolls).strolls.seq fun _ =>
      strolls_previousStop.seq fun _ => strolls_pure _

theorem reads_assignment (room start : Nat) : Reads (assignment room start) := by
  refine (reads_expression _).seq fun target state => walks_look rfl ?_
  split
  · exact strolls_previousStop.seq (fun _ => strolls_pure _) state
  · rename_i op assigns
    obtain ⟨token, found, same⟩ := Option.bind_eq_some_iff.mp assigns
    refine walks_bump_then found (by rintro rfl; simp [assignOp?] at same) ?_
    split
    · exact walks_fail _ _ _
    · exact (reads_expression _).strolls.seq
        (fun _ => strolls_previousStop.seq fun _ => strolls_pure _) _

theorem reads_statement (room : Nat) {block : Parse Block} (inner : Strolls block) :
    Reads (statement room block) := by
  intro state
  refine walks_look rfl (walks_look rfl ?_)
  split <;> rename_i found
  · exact walks_bump_then found (by simp) (strolls_declaration _ _ _)
  · exact walks_bump_then found (by simp) (strolls_requirement _ _ _)
  · exact walks_bump_then found (by simp) (strolls_assertion _ _ _)
  · exact walks_bump_then found (by simp) (strolls_reversion _ _)
  · exact walks_look rfl (reads_conditional (reads_expression _).strolls inner _ _)
  · refine walks_bump_then found (by simp)
      ((reads_expression _).strolls.seq (fun _ => inner.seq fun _ => ?_) _)
    exact strolls_previousStop.seq fun _ => strolls_pure _
  · exact walks_bump_then found (by simp) (strolls_returned _ _ _)
  · exact walks_bump_then found (by simp) (strolls_emission _ _ _)
  · exact reads_assignment _ _ _

theorem finds_statementOrClose (opening : Span) {statement : Parse Statement}
    (inner : Reads statement) :
    Finds (statementOrClose opening statement) := by
  intro state
  refine walks_look rfl ?_
  split
  · exact walks_fail _ _ _
  · rename_i found
    exact walks_bump_then found (by simp) (strolls_pure _ _)
  · exact walks_map (inner state) fun _ _ => trivial

theorem Finds.strolls {α : Type} {step : Parse (Option α)} (finds : Finds step) : Strolls step :=
  fun state => (finds state).weaken fun _ => False.elim

theorem reads_block (room : Nat) : Reads (block room) := by
  induction room with
  | zero => exact fun _ => walks_failTooDeep
  | succ room ih =>
    exact (reads_expect _).seq fun _ =>
      (strolls_repeated (finds_statementOrClose _ (reads_statement _ ih.strolls)).strolls).seq
        fun _ =>
        strolls_previousStop.seq fun _ => strolls_pure _

/-! Declarations. -/

theorem finds_mark : Finds annotation := by
  intro state
  refine (strolls_eat _ _).then fun _ later => walks_ite ?_ (walks_pure (by simp))
  exact walks_map (reads_expectIdent _ _ later) fun _ _ => trivial

theorem strolls_annotations : Strolls annotations := strolls_repeated finds_mark.strolls

theorem reads_params : Reads params :=
  reads_parenthesised
    ((reads_expectIdent _ _).strolls.seq fun _ => (reads_expect _).strolls.seq fun _ =>
    (reads_typeExpr _).strolls.seq fun _ => strolls_pure _)

theorem reads_functionDecl (notes : List Ident) (visibility : Visibility) (start : Nat) :
    Reads (functionDecl notes visibility start) :=
  (reads_expectIdent _ _).seq fun _ => reads_params.strolls.seq fun _ =>
    (strolls_eat _).seq fun _ =>
    strolls_optional (reads_typeExpr _).strolls fun _ => (reads_block _).strolls.seq fun _ =>
      strolls_previousStop.seq fun _ => strolls_pure _

theorem reads_fieldDecl (start : Nat) : Reads (fieldDecl start) :=
  (reads_expectIdent _ _).seq fun _ => (reads_expect _).strolls.seq fun _ =>
    (reads_typeExpr _).strolls.seq fun _ =>
    strolls_previousStop.seq fun _ => strolls_pure _

theorem reads_memberDecl : Reads memberDecl := by
  intro state
  refine walks_look rfl ((strolls_annotations _).then fun _ later => walks_look rfl ?_)
  split <;> rename_i found
  · refine walks_bump_then found (by simp) (reads_params.strolls.seq (fun _ => ?_) _)
    exact (reads_block _).strolls.seq fun _ => strolls_previousStop.seq fun _ => strolls_pure _
  · refine walks_bump_then found (by simp) ((reads_expectIdent _ _).strolls.seq (fun _ => ?_) _)
    exact reads_params.strolls.seq fun _ => strolls_previousStop.seq fun _ => strolls_pure _
  · exact walks_bump_then found (by simp) ((reads_functionDecl _ _ _).strolls _)
  · refine walks_look rfl ?_
    split
    · exact reads_fieldDecl _ _
    · exact reads_functionDecl _ _ _ _
    · exact walks_bump_then found (by simp) (walks_failExpecting _ _)
  · exact walks_failExpecting _ _

end Parse

end Covenant
