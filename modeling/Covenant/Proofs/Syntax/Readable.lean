import Covenant.Proofs.Syntax.Walks

/-!
What is true of every tree that was read from a text. A word that is a keyword is never read as a
name, so no function is named like the handler that runs at deployment. Integer types have one of
the widths that the language knows.
-/

namespace Covenant

def TypeExpr.Sized : TypeExpr → Prop
  | uint _ width => 0 < width ∧ width ≤ 128
  | bool _ => True
  | address _ => True
  | map _ key value => key.Sized ∧ value.Sized

def MemberDecl.Readable : MemberDecl → Prop
  | field decl => decl.ty.Sized
  | event _ => True
  | init handler => ∀ param ∈ handler.params, param.ty.Sized
  | function decl => Keyword.ofWord? decl.name.name = none ∧ ∀ param ∈ decl.params, param.ty.Sized

structure ContractDecl.Readable (decl : ContractDecl) : Prop where
  fields : ∀ field ∈ decl.fields, field.ty.Sized
  inits : ∀ handler ∈ decl.inits, ∀ param ∈ handler.params, param.ty.Sized
  names : ∀ function ∈ decl.functions, Keyword.ofWord? function.name.name = none
  params : ∀ function ∈ decl.functions, ∀ param ∈ function.params, param.ty.Sized

def Token.IsLexical : Token → Prop
  | ident name => Keyword.ofWord? name = none
  | _ => True

namespace Lexer

theorem word_isLexical (chars : List Char) : (word chars).IsLexical := by
  unfold word
  dsimp only
  cases found : Keyword.ofWord? (String.ofList chars) with
  | none =>
    simp only
    exact found
  | some keyword => trivial

theorem token_isLexical {chars : List Char} {token : Token} {width : Nat}
    (read : token? chars = some (token, width)) : token.IsLexical := by
  unfold token? at read
  split at read
  · simp at read
  · dsimp only at read
    split at read <;>
      · simp only [Option.some.injEq, Prod.mk.injEq] at read
        rw [← read.1]
        trivial
  · dsimp only at read
    split at read
    · simp only [Option.some.injEq, Prod.mk.injEq] at read
      rw [← read.1]
      trivial
    · simp at read
  · split at read
    · simp only [Option.some.injEq, Prod.mk.injEq] at read
      rw [← read.1]
      trivial
    · split at read
      · simp only [Option.some.injEq, Prod.mk.injEq] at read
        rw [← read.1]
        exact word_isLexical _
      · split at read
        · simp only [Option.some.injEq, Prod.mk.injEq] at read
          rw [← read.1]
          trivial
        · simp only [Option.map_eq_some_iff, Prod.mk.injEq] at read
          obtain ⟨punct, _, same, _⟩ := read
          rw [← same]
          trivial

theorem read_isLexical {cursor : Cursor} {reading : Reading} (found : read? cursor = some reading) :
    reading.lexeme.token.IsLexical := by
  simp only [read?, Option.map_eq_some_iff] at found
  obtain ⟨⟨token, width⟩, read, rfl⟩ := found
  exact token_isLexical read

theorem resume_isLexical {offset : Nat} {chars : List Char} {reading : Reading}
    (found : resume? offset chars = some reading) : reading.lexeme.token.IsLexical := by
  induction chars generalizing offset with
  | nil => simp [resume?] at found
  | cons char rest ih =>
    simp only [resume?] at found
    split at found
    · rename_i first read
      simp only [Option.some.injEq] at found
      rw [← found]
      exact read_isLexical read
    · exact ih found

/-- Every token of a text is one that the lexer can give. -/
theorem readAll_isLexical (lines : LineTable) : ∀ fuel opened cursor lexemes,
    (readAll lines opened fuel cursor).lexemes = some lexemes → ∀ lexeme ∈ lexemes,
    lexeme.token.IsLexical := by
  intro fuel
  induction fuel with
  | zero =>
    intro opened cursor lexemes read
    simp only [readAll, Option.some.injEq] at read
    simp [← read]
  | succ fuel ih =>
    intro opened cursor lexemes read
    simp only [readAll] at read
    split at read
    · simp only [Option.some.injEq] at read
      simp [← read]
    · split at read
      · rename_i reading found
        simp only [Outcome.cons, Option.map_eq_some_iff] at read
        obtain ⟨others, rest, rfl⟩ := read
        intro lexeme member
        rcases List.mem_cons.mp member with same | later
        · rw [same]
          exact read_isLexical found
        · exact ih _ _ _ rest lexeme later
      · split at read
        · rename_i reading found
          simp only [Outcome.cons, Option.map_eq_some_iff] at read
          obtain ⟨others, rest, rfl⟩ := read
          intro lexeme member
          rcases List.mem_cons.mp member with same | later
          · rw [same]
            exact resume_isLexical found
          · exact ih _ _ _ rest lexeme later
        · split at read <;> simp at read

end Lexer

def ParseState.Lexical (state : ParseState) : Prop := ∀ lexeme ∈ state.rest, lexeme.token.IsLexical

theorem ParseState.Passes.lexical {state next : ParseState} (passes : state.Passes next)
    (lexical : state.Lexical) :
    next.Lexical := by
  obtain ⟨passed, reached, _⟩ := passes
  intro lexeme member
  exact lexical lexeme (by rw [reached]; exact List.mem_append_right _ member)

theorem ParseState.Lexical.bump {state : ParseState} (lexical : state.Lexical) :
    state.bump.Lexical := by
  intro lexeme member
  rw [rest_bump] at member
  exact lexical lexeme (List.mem_of_mem_tail member)

namespace Parse

def Gives {α : Type} (good : α → Prop) (step : Parse α) : Prop :=
  ∀ state : ParseState, state.Lexical →
    match step state with
    | .ok result next => next.Lexical ∧ good result
    | .error _ next => next.Lexical

abbrev Keeps {α : Type} (step : Parse α) : Prop := Gives (fun _ => True) step

section Rules

variable {α β : Type} {good : α → Prop} {fine : β → Prop}

theorem gives_pure {result : α} (holds : good result) : Gives good (pure result) :=
  fun _ lexical => ⟨lexical, holds⟩

theorem keeps_pure (result : α) : Keeps (pure result) := gives_pure trivial

theorem gives_bind {step : Parse α} {next : α → Parse β} (first : Gives good step)
    (second : ∀ result, good result → Gives fine (next result)) : Gives fine (step >>= next) := by
  intro state lexical
  have reached := first state lexical
  cases stepped : step state with
  | ok result other =>
    rw [stepped] at reached
    rw [bind_of_ok stepped]
    exact second result reached.2 other reached.1
  | error problem other =>
    rw [stepped] at reached
    rw [bind_of_error stepped]
    exact reached

theorem keeps_seq {step : Parse α} {next : α → Parse β} (first : Keeps step)
    (second : ∀ result, Gives fine (next result)) : Gives fine (step >>= next) :=
  gives_bind first fun result _ => second result

theorem gives_map {step : Parse α} {change : α → β} (first : Gives good step)
    (second : ∀ result, good result → fine (change result)) : Gives fine (change <$> step) :=
  gives_bind first fun result holds => gives_pure (second result holds)

theorem gives_throw (problem : Diagnostic) : Gives good (throw problem : Parse α) :=
  fun _ lexical => lexical

theorem gives_ite {condition : Prop} [Decidable condition] {first second : Parse α}
    (yes : Gives good first) (no : Gives good second) :
    Gives good (if condition then first else second) := by
  split
  · exact yes
  · exact no

theorem Strolls.keeps {step : Parse α} (strolls : Strolls step) : Keeps step := by
  intro state lexical
  cases stepped : step state with
  | ok result next => exact ⟨((strolls state).of_ok stepped).1.lexical lexical, trivial⟩
  | error problem next => exact ((strolls state).of_error stepped).lexical lexical

theorem Reads.keeps {step : Parse α} (reads : Reads step) : Keeps step := reads.strolls.keeps

theorem keeps_get : Keeps (get : Parse ParseState) := fun _ lexical => ⟨lexical, trivial⟩

theorem keeps_modify {change : ParseState → ParseState}
    (safe : ∀ state : ParseState, state.Lexical → (change state).Lexical) :
    Keeps (modify change : Parse PUnit) :=
  fun state lexical => ⟨safe state lexical, trivial⟩

end Rules

/-! The steps from which the parser is built. -/

theorem keeps_peek : Keeps peek? := fun _ lexical => ⟨lexical, trivial⟩

theorem keeps_span : Keeps span := fun _ lexical => ⟨lexical, trivial⟩

theorem keeps_previousStop : Keeps previousStop := fun _ lexical => ⟨lexical, trivial⟩

theorem keeps_isAt (token : Token) : Keeps (isAt token) := fun _ lexical => ⟨lexical, trivial⟩

theorem keeps_bump : Keeps bump := keeps_modify fun _ lexical => lexical.bump

theorem gives_fail {α : Type} {good : α → Prop} (message : String) (span : Span)
    (hint : Option String) :
    Gives good (fail message span hint : Parse α) :=
  keeps_seq keeps_get fun _ => gives_throw _

theorem gives_failExpecting {α : Type} {good : α → Prop} (what : String) (hint : Option String) :
    Gives good (failExpecting what hint : Parse α) :=
  keeps_seq keeps_get fun _ => gives_throw _

theorem gives_failTooDeep {α : Type} {good : α → Prop} : Gives good (failTooDeep : Parse α) :=
  keeps_seq keeps_span fun _ => gives_fail _ _ _

theorem keeps_expectKeyword (word : Keyword) : Keeps (expectKeyword word) :=
  keeps_seq (keeps_isAt _) fun _ => gives_ite keeps_bump (gives_failExpecting _ _)

theorem gives_peek : Gives (fun next => ∀ token, next = some token → token.IsLexical) peek? := by
  intro state lexical
  refine ⟨lexical, ?_⟩
  intro token found
  simp only [ParseState.peek?, Option.map_eq_some_iff] at found
  obtain ⟨lexeme, first, rfl⟩ := found
  exact lexical lexeme (List.mem_of_head? first)

theorem gives_expectIdent (what : String) (hint : Option String) :
    Gives (fun ident => Keyword.ofWord? ident.name = none) (expectIdent what hint) := by
  refine gives_bind gives_peek ?_
  intro next lexical
  split
  · rename_i name
    exact keeps_seq keeps_span fun _ => keeps_seq keeps_bump fun _ => gives_pure (lexical _ rfl)
  · exact gives_failExpecting _ _

theorem Gives.keeps {α : Type} {good : α → Prop} {step : Parse α} (gives : Gives good step) :
    Keeps step := by
  intro state lexical
  have reached := gives state lexical
  cases stepped : step state with
  | ok result next =>
    rw [stepped] at reached
    exact ⟨reached.1, trivial⟩
  | error problem next =>
    rw [stepped] at reached
    exact reached

theorem gives_itemsWith {α : Type} {good : α → Prop} {item : Parse α} (first : Gives good item)
    (fuel : Nat) :
    Gives (fun items => ∀ found ∈ items, good found) (itemsWith item fuel) := by
  induction fuel with
  | zero => exact gives_pure (by simp)
  | succ fuel ih =>
    refine keeps_seq (strolls_eat _).keeps fun _ => gives_ite (gives_pure (by simp)) ?_
    refine gives_bind first fun found holds => keeps_seq (strolls_eat _).keeps fun _ =>
      gives_ite ?_ ?_
    · refine gives_bind ih fun others hold => gives_pure ?_
      intro other member
      rcases List.mem_cons.mp member with same | later
      · rw [same]
        exact holds
      · exact hold other later
    · exact keeps_seq (reads_expect _).keeps fun _ => gives_pure (by simpa using holds)

theorem gives_parenthesised {α : Type} {good : α → Prop} {item : Parse α}
    (first : Gives good item) :
    Gives (fun items => ∀ found ∈ items, good found) (parenthesised item) :=
  keeps_seq (reads_expect _).keeps fun _ => keeps_seq keeps_get fun _ => gives_itemsWith first _

/-! Types and expressions. -/

theorem sized_simpleType {span : Span} {name : String} {ty : TypeExpr}
    (found : simpleType? span name = some ty) :
    ty.Sized := by
  unfold simpleType? at found
  split at found <;> simp only [Option.some.injEq, reduceCtorEq] at found <;> subst found <;>
    simp [TypeExpr.Sized]

theorem gives_typeWith {part : Parse TypeExpr} {enter : Parse Unit}
    (inner : Gives TypeExpr.Sized part) (entered : Keeps enter) :
    Gives TypeExpr.Sized (typeWith part enter) := by
  refine keeps_seq (reads_expectIdent _ _).keeps fun name => ?_
  split
  · rename_i ty found
    exact gives_pure (sized_simpleType found)
  · refine gives_ite ?_ (gives_fail _ _ _)
    exact keeps_seq entered fun _ => keeps_seq (reads_expect _).keeps fun _ =>
      gives_bind inner fun _ key =>
      keeps_seq (reads_expect _).keeps fun _ => gives_bind inner fun _ value =>
        keeps_seq (reads_expect _).keeps fun _ =>
        keeps_seq keeps_previousStop fun _ => gives_pure ⟨key, value⟩

theorem gives_typeExpr (room : Nat) : Gives TypeExpr.Sized (typeExpr room) := by
  induction room with
  | zero => exact gives_typeWith gives_failTooDeep gives_failTooDeep
  | succ room ih => exact gives_typeWith ih (keeps_pure _)

theorem keeps_optional {α β : Type} {fine : β → Prop} {part : Parse α} {next : Option α → Parse β}
    {present : Prop} [Decidable present] (inner : Keeps part)
    (after : ∀ found, Gives fine (next found)) :
    Gives fine (if present then some <$> part >>= next else pure none >>= next) :=
  gives_ite (keeps_seq (gives_map inner fun _ _ => trivial) after) (keeps_seq (keeps_pure _) after)

/-! Declarations. -/

theorem gives_params : Gives (fun params => ∀ param ∈ params, param.ty.Sized) params :=
  gives_parenthesised
    (keeps_seq (reads_expectIdent _ _).keeps fun _ => keeps_seq (reads_expect _).keeps fun _ =>
    gives_bind (gives_typeExpr _) fun _ sized => gives_pure sized)

theorem gives_functionDecl (notes : List Ident) (visibility : Visibility) (start : Nat) :
    Gives MemberDecl.Readable (functionDecl notes visibility start) :=
  gives_bind (gives_expectIdent _ _) fun _ free => gives_bind gives_params fun _ sized =>
    keeps_seq (strolls_eat _).keeps fun _ => keeps_optional (reads_typeExpr _).keeps fun _ =>
      keeps_seq (reads_block _).keeps fun _ => keeps_seq keeps_previousStop fun _ =>
        gives_pure ⟨free, sized⟩

theorem gives_fieldDecl (start : Nat) : Gives MemberDecl.Readable (fieldDecl start) :=
  keeps_seq (reads_expectIdent _ _).keeps fun _ => keeps_seq (reads_expect _).keeps fun _ =>
    gives_bind (gives_typeExpr _) fun _ sized => keeps_seq keeps_previousStop fun _ =>
      gives_pure sized

theorem gives_memberDecl : Gives MemberDecl.Readable memberDecl := by
  refine keeps_seq keeps_span fun _ => keeps_seq strolls_annotations.keeps fun _ =>
    keeps_seq keeps_peek fun next => ?_
  split
  · exact keeps_seq keeps_bump fun _ => gives_bind gives_params fun _ sized =>
      keeps_seq (reads_block _).keeps fun _ =>
      keeps_seq keeps_previousStop fun _ => gives_pure sized
  · exact keeps_seq keeps_bump fun _ => keeps_seq (reads_expectIdent _ _).keeps fun _ =>
      keeps_seq gives_params.keeps fun _ => keeps_seq keeps_previousStop fun _ => gives_pure trivial
  · exact keeps_seq keeps_bump fun _ => gives_functionDecl _ _ _
  · refine keeps_seq keeps_get fun _ => ?_
    split
    · exact gives_fieldDecl _
    · exact gives_functionDecl _ _ _
    · exact keeps_seq keeps_bump fun _ => gives_failExpecting _ _
  · exact gives_failExpecting _ _

theorem gives_attempt {α : Type} {good : α → Prop} {step : Parse α} (inner : Gives good step) :
    Gives (fun outcome => ∀ result, outcome = .ok result → good result) (attempt step) := by
  intro state lexical
  have reached := inner state lexical
  unfold attempt
  cases stepped : step state with
  | ok result next =>
    rw [stepped] at reached
    refine ⟨reached.1, ?_⟩
    intro other same
    simp only [Except.ok.injEq] at same
    rw [← same]
    exact reached.2
  | error problem next =>
    rw [stepped] at reached
    exact ⟨reached, by simp⟩

theorem keeps_recoverMember (depth before : Nat) :
    Keeps (modify (ParseState.recoverMember depth before)) := by
  refine keeps_modify fun state lexical => (ParseState.skipToMember_passes _ _ _).lexical ?_
  split
  · exact lexical.bump
  · exact lexical

theorem keeps_recoverContract (before : Nat) :
    Keeps (modify (ParseState.recoverContract before)) := by
  refine keeps_modify fun state lexical => ?_
  have moved : (if state.rest.length == before then state.bump else state).Lexical := by
    split
    · exact lexical.bump
    · exact lexical
  exact (ParseState.skipToContract_passes _ _).lexical moved

theorem gives_members {good : MemberDecl → Prop} (inner : Gives good memberDecl) (name : Ident)
    (depth fuel : Nat) :
    Gives (fun found => ∀ decl ∈ found.1, good decl) (members name depth fuel) := by
  induction fuel with
  | zero => exact gives_pure (by simp)
  | succ fuel ih =>
    refine keeps_seq keeps_get fun state => ?_
    split
    · exact gives_pure (by simp)
    · exact keeps_seq keeps_bump fun _ => gives_pure (by simp)
    · exact gives_pure (by simp)
    · refine gives_bind (gives_attempt inner) fun outcome fine => ?_
      split
      · rename_i decl
        refine gives_bind ih fun found good => gives_pure ?_
        intro other member
        rcases List.mem_cons.mp member with same | later
        · rw [same]
          exact fine decl rfl
        · exact good other later
      · exact keeps_seq (keeps_recoverMember _ _) fun _ => gives_bind ih fun found good =>
          gives_pure good

theorem readable_of_members {decls : List MemberDecl} (good : ∀ decl ∈ decls, decl.Readable)
    {notes : List Ident} {name : Ident} {span : Span} :
    ContractDecl.Readable
      { annotations := notes
        name
        fields := decls.filterMap MemberDecl.field?
        events := decls.filterMap MemberDecl.event?
        inits := decls.filterMap MemberDecl.init?
        functions := decls.filterMap MemberDecl.function?
        span } := by
  constructor
  · intro field member
    obtain ⟨decl, declared, same⟩ := List.mem_filterMap.mp member
    have readable := good decl declared
    cases decl <;> simp_all [MemberDecl.field?, MemberDecl.Readable]
  · intro handler member
    obtain ⟨decl, declared, same⟩ := List.mem_filterMap.mp member
    have readable := good decl declared
    cases decl <;> simp_all [MemberDecl.init?, MemberDecl.Readable]
  · intro function member
    obtain ⟨decl, declared, same⟩ := List.mem_filterMap.mp member
    have readable := good decl declared
    cases decl <;> simp_all [MemberDecl.function?, MemberDecl.Readable]
  · intro function member
    obtain ⟨decl, declared, same⟩ := List.mem_filterMap.mp member
    have readable := good decl declared
    cases decl <;> simp_all [MemberDecl.function?, MemberDecl.Readable]

theorem gives_contract {good : MemberDecl → Prop} {fine : ContractDecl → Prop}
    (inner : Gives good memberDecl)
    (gathered : ∀ decls : List MemberDecl, (∀ decl ∈ decls, good decl) → ∀ notes name span,
      fine
        { annotations := notes
          name
          fields := decls.filterMap MemberDecl.field?
          events := decls.filterMap MemberDecl.event?
          inits := decls.filterMap MemberDecl.init?
          functions := decls.filterMap MemberDecl.function?
          span }) :
    Gives (fun found => fine found.1) contract :=
  keeps_seq keeps_span fun _ => keeps_seq strolls_annotations.keeps fun _ =>
    keeps_seq (keeps_expectKeyword _) fun _ => keeps_seq (reads_expectIdent _ _).keeps fun _ =>
      keeps_seq (reads_expect _).keeps fun _ => keeps_seq keeps_get fun _ =>
        gives_bind (gives_members inner _ _ _) fun _ good =>
          keeps_seq (keeps_modify fun _ lexical => lexical) fun _ =>
            keeps_seq keeps_previousStop fun _ =>
            gives_pure (gathered _ good _ _ _)

theorem gives_contracts {fine : ContractDecl → Prop}
    (inner : Gives (fun found => fine found.1) contract) (fuel : Nat) :
    Gives (fun found => ∀ decl ∈ found.1, fine decl) (contracts fuel) := by
  induction fuel with
  | zero => exact gives_pure (by simp)
  | succ fuel ih =>
    refine keeps_seq keeps_get fun state => gives_ite (gives_pure (by simp)) ?_
    refine gives_bind (gives_attempt inner) fun outcome fine => ?_
    split
    · rename_i decl inside
      refine gives_bind ih fun found good => gives_pure ?_
      intro other member
      rcases List.mem_cons.mp member with same | later
      · rw [same]
        exact fine _ rfl
      · exact good other later
    · exact keeps_seq (keeps_recoverContract _) fun _ => gives_bind ih fun found good =>
        gives_pure good

end Parse

namespace SyntaxTree

theorem fine_of_ofLexemes {fine : ContractDecl → Prop}
    (inner : Parse.Gives (fun found => fine found.1) Parse.contract) {lines : LineTable}
    {lexemes : List Lexeme} (lexical : ∀ lexeme ∈ lexemes, lexeme.token.IsLexical)
    {decl : ContractDecl} (read : decl ∈ (ofLexemes lines lexemes).1.contracts) : fine decl := by
  have good := Parse.gives_contracts inner (lexemes.length + 1)
    (ParseState.start lines lexemes) lexical
  unfold ofLexemes at read
  cases parsed : Parse.contracts (lexemes.length + 1) (ParseState.start lines lexemes) with
  | ok found next =>
    rw [parsed] at good
    simp only [parsed] at read
    exact good.2 decl read
  | error problem next => simp [parsed] at read

theorem fine_of_read {fine : ContractDecl → Prop}
    (inner : Parse.Gives (fun found => fine found.1) Parse.contract) {text : String}
    {decl : ContractDecl} (member : decl ∈ (read text).tree.contracts) : fine decl := by
  refine fine_of_ofLexemes inner ?_ member
  intro lexeme listed
  cases lexed : (Lexer.run (LineTable.ofChars text.toList) text.toList).lexemes with
  | none => simp [lexed] at listed
  | some lexemes =>
    simp only [lexed, Option.getD_some] at listed
    exact Lexer.readAll_isLexical _ _ _ _ _ lexed lexeme listed

theorem readable_of_read {text : String} {decl : ContractDecl}
    (member : decl ∈ (read text).tree.contracts) :
    decl.Readable :=
  fine_of_read (Parse.gives_contract Parse.gives_memberDecl fun _ good _ _ _ =>
    Parse.readable_of_members good) member

end SyntaxTree

theorem ContractDecl.Readable.name_ne_init {decl : ContractDecl} (readable : decl.Readable)
    {function : FunctionDecl} (declared : function ∈ decl.functions) :
    function.name.name ≠ "init" := by
  intro same
  have free := readable.names function declared
  rw [same] at free
  revert free
  decide

end Covenant
