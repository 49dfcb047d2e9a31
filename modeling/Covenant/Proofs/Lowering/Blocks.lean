import Covenant.Proofs.Lowering.Assignments

/-!
Conditionals, loops and sequences of statements: the blocks that they are lowered to are gone
through as the statements say. Blocks that nothing leads to are built like all others, but never
entered.
-/

namespace Covenant

structure Builder.Resumes (function : Function) (builder target : Builder) : Prop where
  embeds : function.Embeds target
  blank : target.IsBlank target.current
  visible : target.visible = builder.visible
  locals : builder.locals <+: target.locals

theorem Outcome.jump {setting : Setting} {function : Function} {callers : List Caller}
    {builder target : Builder} {result : Flow × Scopes} {world : World} {state : Running}
    {span : Span} (outcome : Outcome setting function callers builder result world state)
    (ends : function.Embeds (builder.terminate (.jump target.current) span))
    (resumes : builder.Resumes function target) :
    ∃ last, state.Reaches setting last ∧
      Outcome setting function callers target result world last := by
  obtain ⟨flow, scopes⟩ := result
  cases flow with
  | returned value => exact ⟨state, .refl state, outcome⟩
  | next =>
    obtain ⟨running, stands⟩ := outcome
    obtain ⟨last, leads, there⟩ := stands.jump running ends resumes.embeds resumes.blank
      (stands.kept.outer resumes.visible resumes.locals)
    exact ⟨last, leads.reaches, resumes.blank.isOpen, there⟩

theorem Stands.withBlocks {function : Function} {callers : List Caller} {builder : Builder}
    {scopes : Scopes} {world : World} {state : Running}
    (stands : Stands function callers builder scopes world state) (count : Nat) :
    Stands function callers (builder.withBlocks count) scopes world state := by
  induction count with
  | zero => exact stands
  | succ count ih => exact ih.withBlock

namespace Builder

def headed (span : Span) (builder : Builder) : Builder :=
  (builder.withBlock.terminate (.jump builder.blocks.length) span).moveTo builder.blocks.length

def forked (between : Nat) (id : ValueId) (span : Span) (builder : Builder) : Builder :=
  (builder.withBlocks (between + 2)).terminate
    (.branch id builder.blocks.length (builder.blocks.length + between + 1)) span

section

variable {builder : Builder} {between : Nat} {id : ValueId} {span : Span}

@[simp] theorem length_forked :
    (builder.forked between id span).blocks.length = builder.blocks.length + (between + 2) := by
  simp [forked]

theorem grows_forked : Grows builder.blocks.length builder (builder.forked between id span) :=
  (grows_withBlocks (Nat.le_refl _)).trans (grows_terminate _ _ _)

theorem isBlank_forked (running : builder.IsOpen) {place : Nat} (fresh : place < between + 2) :
    (builder.forked between id span).IsBlank (builder.blocks.length + place) := by
  refine (isBlank_withBlocks fresh).terminate ?_ _ _
  rw [current_withBlocks]
  exact Nat.ne_of_gt (Nat.lt_add_right _ running.inside)

end

end Builder

namespace Link

variable {link : Link} {function : Function} {returns : Option Ty} {body : Build Unit}
  {meaning : Effectful}

/-! Blocks. -/

def opened (builder : Builder) : Builder := { builder with visible := [] :: builder.visible }

open Build in
/-- The variables of a block are forgotten behind it. -/
theorem compilesBlock_inBlock (compiles : link.Compiles function returns body meaning) :
    link.CompilesBlock function returns (inBlock body) (Meaning.enclosed meaning) where
  grows := by
    intro builder final scope running built
    simp only [inBlock, bind_eq_ok, modify_eq_ok] at built
    obtain ⟨_, _, rfl, _, last, inner, rfl⟩ := built
    have opening : (opened builder).IsOpen := running
    have within : (opened builder).scope = link.scope := scope
    have grows := compiles.grows within opening inner
    exact { grows with
      outer := by
        change last.visible.tail.tail = _
        rw [grows.outer]
        rfl }
  follows := by
    intro builder final scopes world callers state scope same running built embeds knows stands
    simp only [inBlock, bind_eq_ok, modify_eq_ok] at built
    obtain ⟨_, _, rfl, _, last, inner, rfl⟩ := built
    have opening : (opened builder).IsOpen := running
    have within : (opened builder).scope = link.scope := scope
    have returned : (opened builder).returns = returns := same
    have entered : Stands function callers (opened builder) ([] :: scopes) world state :=
      { stands with kept := stands.kept.push }
    refine (compiles.follows within returned opening inner
      ⟨embeds.locals, embeds.blocks⟩ knows entered).bind ?_
    rintro ⟨flow, inside⟩ changed next outcome
    cases flow with
    | returned value => exact .give outcome
    | next =>
      obtain ⟨lastOpen, there⟩ := outcome
      exact .give ⟨lastOpen, { there with kept := there.kept.pop }⟩
  restores := by
    intro builder final scope running built
    simp only [inBlock, bind_eq_ok, modify_eq_ok] at built
    obtain ⟨_, _, rfl, _, last, inner, rfl⟩ := built
    have opening : (opened builder).IsOpen := running
    have within : (opened builder).scope = link.scope := scope
    exact (compiles.grows within opening inner).outer

open Build in
theorem grows_continueDead {builder final : Builder}
    (inside : builder.current < builder.blocks.length)
    (built : continueDead builder = .ok () final) :
    final.IsOpen ∧ Builder.Grows builder.blocks.length builder final ∧
      (builder.IsOpen → final = builder) := by
  simp only [continueDead, bind_eq_ok, get_eq_ok] at built
  obtain ⟨_, _, ⟨rfl, rfl⟩, built⟩ := built
  cases ended : builder.isEnded with
  | false =>
    simp only [ended, Bool.false_eq_true, if_false, pure_eq_ok, true_and] at built
    subst built
    exact ⟨Builder.isOpen_of_not_isEnded ended inside, .refl builder, fun _ => rfl⟩
  | true =>
    simp only [ended, if_true, bind_eq_ok, newBlock_eq_ok, switchTo_eq_ok] at built
    obtain ⟨_, _, ⟨rfl, rfl⟩, rfl⟩ := built
    refine ⟨(Builder.isBlank_withBlock builder).isOpen, ?_, fun running => ?_⟩
    · refine (Builder.grows_withBlock builder (Nat.le_refl _)).trans
        (Builder.grows_moveTo _ (Nat.le_refl _) ?_)
      simp
    · rw [running.not_isEnded] at ended
      simp at ended

/-! Conditionals. -/

theorem compiles_of_built
    (each : ∀ {builder final : Builder}, builder.scope = link.scope → builder.IsOpen →
      body builder = .ok () final →
      Builder.Grows builder.blocks.length builder final ∧
      ∀ {scopes : Scopes} {world : World} {callers : List Caller} {state : Running},
        builder.returns = returns →
        function.Embeds final → link.KnowsEvents final →
        Stands function callers builder scopes world state →
        Follows link.setting link.fuel state world (meaning scopes)
          (Outcome link.setting function callers final)) :
    link.Compiles function returns body meaning where
  grows := fun scope running built => (each scope running built).1
  follows := fun scope same running built => (each scope running built).2 same

theorem CompilesBlock.follows_jump (part : link.CompilesBlock function returns body meaning)
    {builder last target : Builder} {span : Span} {scopes : Scopes} {world : World}
    {callers : List Caller} {state : Running} (scope : builder.scope = link.scope)
    (same : builder.returns = returns) (running : builder.IsOpen)
    (built : body builder = .ok () last)
    (ends : function.Embeds (last.terminate (.jump target.current) span))
    (knows : link.KnowsEvents last) (resumes : last.Resumes function target)
    (stands : Stands function callers builder scopes world state) :
    Follows link.setting link.fuel state world (meaning scopes)
      (Outcome link.setting function callers target) :=
  (part.follows scope same running built ends.of_terminate knows stands).further
    fun _ _ _ outcome => outcome.jump ends resumes

/-- A condition is evaluated behind which the code forks, and one of the two sides is entered. -/
theorem follows_choose {condition : Scopes → Meaning Nat} {yes no : Effectful}
    {builder middle first second : Builder} {code : List (Located Instruction)} {id : ValueId}
    {between times : Nat} {span : Span} {scopes : Scopes} {world : World} {callers : List Caller}
    {state : Running} {after : Flow × Scopes → World → Running → Prop}
    (computes : link.Computes code builder middle (fun _ => True) condition fun frame truth =>
      frame.Holds id truth)
    (running : builder.IsOpen) (stands : Stands function callers builder scopes world state)
    (ends : function.Embeds (middle.forked between id span)) (few : times ≤ link.fuel)
    (onto : middle.Resumes function first) (start : first.current = middle.blocks.length)
    (past : middle.Resumes function second)
    (stop : second.current = middle.blocks.length + between + 1)
    (taken : ∀ {world : World} {state : Running}, Stands function callers first scopes world state →
      Follows link.setting times state world (yes scopes) after)
    (skipped : ∀ {world : World} {state : Running},
      Stands function callers second scopes world state →
      Follows link.setting times state world (no scopes) after) :
    Follows link.setting times state world (Meaning.choose condition yes no scopes) after := by
  have embeds : function.Embeds middle :=
    (Builder.grows_forked : Builder.Grows _ middle (middle.forked between id span)).embeds ends
  refine ((stands.computes computes trivial running embeds).less few).bind ?_
  rintro truth changed next ⟨arrived, held⟩
  have opened : (middle.withBlocks (between + 2)).IsOpen :=
    (computes.emits.isOpen running).withBlocks
  have decided := arrived.withBlocks (between + 2)
  cases chosen : truth != 0 with
  | true =>
    obtain ⟨last, leads, entered⟩ := decided.branch opened held ends onto.embeds onto.blank
      (by rw [chosen]; exact start) (arrived.kept.outer onto.visible onto.locals)
    simp only [if_true]
    exact .of_reaches leads.reaches (taken entered)
  | false =>
    obtain ⟨last, leads, entered⟩ := decided.branch opened held ends past.embeds past.blank
      (by rw [chosen]; exact stop) (arrived.kept.outer past.visible past.locals)
    simp only [Bool.false_eq_true, if_false]
    exact .of_reaches leads.reaches (skipped entered)

section Conditional

variable {condition : Expression} {thenSpan elseSpan : Span} {thenBody elseBody : Build Unit}
  {yes no : Effectful}

open Build in
theorem parts_of_conditional {builder final : Builder}
    (built : conditional condition thenSpan thenBody none builder = .ok () final) :
    ∃ id middle last, typed condition .bool builder = .ok id middle ∧
      thenBody ((middle.forked 0 id condition.span).moveTo middle.blocks.length) = .ok () last ∧
      final = (last.terminate (.jump (middle.blocks.length + 1)) thenSpan).moveTo
        (middle.blocks.length + 1) := by
  simp only [conditional, bind_eq_ok, newBlock_eq_ok, terminate_eq_ok, switchTo_eq_ok] at built
  obtain ⟨id, middle, lowered, _, _, ⟨rfl, rfl⟩, _, _, ⟨rfl, rfl⟩, _, _, rfl, _, _, rfl, _, last,
    inner, _, _, rfl, rfl⟩ := built
  rw [Builder.length_withBlock] at inner ⊢
  exact ⟨id, middle, last, lowered, inner, rfl⟩

theorem compiles_conditional (thenPart : link.CompilesBlock function returns thenBody yes) :
    link.Compiles function returns (Build.conditional condition thenSpan thenBody none)
      (Meaning.choose (fun scopes => link.around.value link.call scopes condition (some .bool)) yes
        fun scopes => pure (.next, scopes)) := by
  refine compiles_of_built ?_
  intro builder final scope running built
  obtain ⟨id, middle, last, lowered, inner, rfl⟩ := parts_of_conditional built
  obtain ⟨_, code, computes⟩ := computes_typed scope lowered
  have length := computes.emits.length
  have middleOpen := computes.emits.isOpen running
  have thenBlank : (middle.forked 0 id condition.span).IsBlank middle.blocks.length :=
    Builder.isBlank_forked middleOpen Nat.zero_lt_two
  have joinBlank : (middle.forked 0 id condition.span).IsBlank (middle.blocks.length + 1) :=
    Builder.isBlank_forked middleOpen Nat.one_lt_two
  have within : ((middle.forked 0 id condition.span).moveTo middle.blocks.length).scope =
      link.scope :=
    computes.scope.trans scope
  have grown := thenPart.grows within thenBlank.isOpen inner
  have visible := thenPart.restores within thenBlank.isOpen inner
  have doneBlank := joinBlank.behind grown joinBlank.inside (Nat.succ_ne_self _)
    (.jump (middle.blocks.length + 1)) thenSpan
  constructor
  · have toThen := Builder.grows_moveTo (middle.forked 0 id condition.span)
      (Nat.le_refl _) thenBlank.inside
    have toLast := grown.mono (Nat.le_of_lt thenBlank.inside)
    have toJoin := Builder.grows_leave (Nat.le_succ _) doneBlank
    exact (computes.emits.grows running _).trans
      (length ▸ Builder.grows_forked.trans (toThen.trans (toLast.trans toJoin)))
  · intro scopes world callers state same embeds knows stands
    have ends := embeds.of_moveTo
    have embedsThen := grown.embeds ends.of_terminate
    have returning := (computes.emits.grows running 0).returns.trans same
    have join : middle.Resumes function _ := ⟨embeds, doneBlank, visible, grown.locals⟩
    refine follows_choose computes running stands embedsThen.of_moveTo (Nat.le_refl _)
      ⟨embedsThen, thenBlank, rfl, List.prefix_refl _⟩ rfl join rfl (fun entered => ?_)
      fun entered => ?_
    · exact thenPart.follows_jump within returning thenBlank.isOpen inner ends knows
        ⟨embeds, doneBlank, rfl, List.prefix_refl _⟩ entered
    · exact .give ⟨doneBlank.isOpen, entered⟩

open Build in
theorem parts_of_conditional_else {builder final : Builder}
    (built : conditional condition thenSpan thenBody (some (elseSpan, elseBody)) builder =
      .ok () final) :
    ∃ id middle thenLast elseLast, typed condition .bool builder = .ok id middle ∧
      thenBody ((middle.forked 1 id condition.span).moveTo middle.blocks.length) = .ok () thenLast ∧
      elseBody ((thenLast.terminate (.jump (middle.blocks.length + 1)) thenSpan).moveTo
        (middle.blocks.length + 2)) = .ok () elseLast ∧
      final = (elseLast.terminate (.jump (middle.blocks.length + 1)) elseSpan).moveTo
        (middle.blocks.length + 1) := by
  simp only [conditional, bind_eq_ok, newBlock_eq_ok, terminate_eq_ok, switchTo_eq_ok] at built
  obtain ⟨id, middle, lowered, _, _, ⟨rfl, rfl⟩, _, _, ⟨rfl, rfl⟩, _, _, ⟨rfl, rfl⟩, _, _, rfl, _,
    _, rfl, _, thenLast, thenBuilt, _, _, rfl, _, _, rfl, _, elseLast, elseBuilt, _, _, rfl,
    rfl⟩ := built
  simp only [Builder.length_withBlock] at thenBuilt elseBuilt ⊢
  exact ⟨id, middle, thenLast, elseLast, lowered, thenBuilt, elseBuilt, rfl⟩

theorem compiles_conditional_else (thenPart : link.CompilesBlock function returns thenBody yes)
    (elsePart : link.CompilesBlock function returns elseBody no) :
    link.Compiles function returns
      (Build.conditional condition thenSpan thenBody (some (elseSpan, elseBody)))
      (Meaning.choose (fun scopes => link.around.value link.call scopes condition (some .bool))
        yes no) := by
  refine compiles_of_built ?_
  intro builder final scope running built
  obtain ⟨id, middle, thenLast, elseLast, lowered, thenBuilt, elseBuilt, rfl⟩ :=
    parts_of_conditional_else built
  obtain ⟨_, code, computes⟩ := computes_typed scope lowered
  have length := computes.emits.length
  have middleOpen := computes.emits.isOpen running
  let split := middle.forked 1 id condition.span
  have thenBlank : split.IsBlank middle.blocks.length :=
    Builder.isBlank_forked middleOpen (Nat.zero_lt_succ _)
  have joinBlank : split.IsBlank (middle.blocks.length + 1) :=
    Builder.isBlank_forked middleOpen (by decide)
  have elseBlank : split.IsBlank (middle.blocks.length + 2) :=
    Builder.isBlank_forked middleOpen (by decide)
  have within : (split.moveTo middle.blocks.length).scope = link.scope := computes.scope.trans scope
  have thenGrown := thenPart.grows within thenBlank.isOpen thenBuilt
  have thenVisible := thenPart.restores within thenBlank.isOpen thenBuilt
  let turned := thenLast.terminate (.jump (middle.blocks.length + 1)) thenSpan
  have elseStart : turned.IsBlank (middle.blocks.length + 2) :=
    elseBlank.behind thenGrown elseBlank.inside
      (Nat.ne_of_gt (Nat.lt_add_of_pos_right Nat.two_pos)) _ _
  have joinWaits : turned.IsBlank (middle.blocks.length + 1) :=
    joinBlank.behind thenGrown joinBlank.inside (Nat.succ_ne_self _) _ _
  have withinElse : (turned.moveTo (middle.blocks.length + 2)).scope = link.scope :=
    thenGrown.scope.trans within
  have elseGrown := elsePart.grows withinElse elseStart.isOpen elseBuilt
  have elseVisible := elsePart.restores withinElse elseStart.isOpen elseBuilt
  have doneBlank := joinWaits.behind elseGrown joinWaits.inside (Nat.ne_of_lt (Nat.lt_succ_self _))
    (.jump (middle.blocks.length + 1)) elseSpan
  constructor
  · have toThen := Builder.grows_moveTo split (Nat.le_refl _) thenBlank.inside
    have toElse := (thenGrown.mono (Nat.le_of_lt thenBlank.inside)).trans
      (Builder.grows_leave (Nat.le_add_right _ 2) elseStart)
    have toJoin := (elseGrown.mono (Nat.le_of_lt (Nat.lt_of_succ_lt joinWaits.inside))).trans
      (Builder.grows_leave (Nat.le_succ _) doneBlank)
    exact (computes.emits.grows running _).trans
      (length ▸ Builder.grows_forked.trans (toThen.trans (toElse.trans toJoin)))
  · intro scopes world callers state same embeds knows stands
    have elseEnds := embeds.of_moveTo
    have embedsElse := elseGrown.embeds elseEnds.of_terminate
    have thenEnds := embedsElse.of_moveTo
    have embedsThen := thenGrown.embeds thenEnds.of_terminate
    have returning := (computes.emits.grows running 0).returns.trans same
    have knowsThen : link.KnowsEvents thenLast :=
      fun name types found => knows name types (elseGrown.events.kept name types found)
    refine follows_choose computes running stands embedsThen.of_moveTo (Nat.le_refl _)
      ⟨embedsThen, thenBlank, rfl, List.prefix_refl _⟩ rfl
      ⟨embedsElse, elseStart, thenVisible, thenGrown.locals⟩ rfl (fun entered => ?_)
      fun entered => ?_
    · exact thenPart.follows_jump within returning thenBlank.isOpen thenBuilt thenEnds knowsThen
        ⟨embeds, doneBlank, elseVisible, elseGrown.locals⟩ entered
    · exact elsePart.follows_jump withinElse (thenGrown.returns.trans returning) elseStart.isOpen
        elseBuilt elseEnds knows ⟨embeds, doneBlank, rfl, List.prefix_refl _⟩ entered

end Conditional

/-! Loops. -/

theorem follows_repeatWhile {setting : Setting} {fuel : Nat} {condition : Scopes → Meaning Nat}
    {round : Effectful} {starts : Scopes → World → Running → Prop}
    {after : Flow × Scopes → World → Running → Prop}
    (once : ∀ {times : Nat} {rest : Effectful} {scopes : Scopes} {world : World} {state : Running},
      times < fuel →
      starts scopes world state →
      (∀ {scopes : Scopes} {world : World} {state : Running}, starts scopes world state →
        Follows setting times state world (rest scopes) after) →
      Follows setting (times + 1) state world
        (Meaning.choose condition (Meaning.sequence round rest)
          (fun scopes => pure (.next, scopes)) scopes) after) :
    ∀ {times : Nat} {scopes : Scopes} {world : World} {state : Running}, times ≤ fuel →
      starts scopes world state →
      Follows setting times state world
        (Meaning.repeatWhile condition round times scopes) after := by
  intro times
  induction times with
  | zero => exact fun {_ _ state} _ _ => Running.outlasts_zero state
  | succ times ih =>
    exact fun few start => once few start fun again => ih (Nat.le_of_succ_le few) again

open Build in
theorem parts_of_loop {condition : Expression} {span bodySpan : Span} {builder final : Builder}
    (built : loop condition span bodySpan body builder = .ok () final) :
    ∃ id middle last, typed condition .bool (builder.headed span) = .ok id middle ∧
      body ((middle.forked 0 id condition.span).moveTo middle.blocks.length) = .ok () last ∧
      final = (last.terminate (.jump builder.blocks.length) bodySpan).moveTo
        (middle.blocks.length + 1) := by
  simp only [loop, bind_eq_ok, newBlock_eq_ok, terminate_eq_ok, switchTo_eq_ok] at built
  obtain ⟨_, _, ⟨rfl, rfl⟩, _, _, rfl, _, _, rfl, id, middle, lowered, _, _, ⟨rfl, rfl⟩, _, _,
    ⟨rfl, rfl⟩, _, _, rfl, _, _, rfl, _, last, inner, _, _, rfl, rfl⟩ := built
  rw [Builder.length_withBlock] at inner ⊢
  exact ⟨id, middle, last, lowered, inner, rfl⟩

/-- A loop. Its condition is evaluated in a block of its own, which the body goes back to. -/
theorem compiles_loop {condition : Expression} {span bodySpan : Span} {round : Effectful}
    (bodyPart : link.CompilesBlock function returns body round) :
    link.Compiles function returns (Build.loop condition span bodySpan body)
      (Meaning.repeatWhile (fun scopes => link.around.value link.call scopes condition (some .bool))
        round link.fuel) := by
  refine compiles_of_built ?_
  intro builder final scope running built
  obtain ⟨id, middle, last, lowered, inner, rfl⟩ := parts_of_loop built
  have headerBlank : (builder.headed span).IsBlank builder.blocks.length :=
    (Builder.isBlank_withBlock builder).terminate (Nat.ne_of_gt running.inside) _ _
  have headerOpen : (builder.headed span).IsOpen := ⟨_, headerBlank, rfl⟩
  have headed : (builder.headed span).scope = link.scope := scope
  obtain ⟨_, code, computes⟩ := computes_typed headed lowered
  have middleOpen := computes.emits.isOpen headerOpen
  have emitted := computes.emits.grows headerOpen
  have low : builder.blocks.length ≤ middle.blocks.length := by
    rw [computes.emits.length]
    exact Nat.le_of_lt headerBlank.inside
  have bodyBlank : (middle.forked 0 id condition.span).IsBlank middle.blocks.length :=
    Builder.isBlank_forked middleOpen Nat.zero_lt_two
  have exitBlank : (middle.forked 0 id condition.span).IsBlank (middle.blocks.length + 1) :=
    Builder.isBlank_forked middleOpen Nat.one_lt_two
  have within : ((middle.forked 0 id condition.span).moveTo middle.blocks.length).scope =
      link.scope :=
    computes.scope.trans headed
  have grown := bodyPart.grows within bodyBlank.isOpen inner
  have visible := bodyPart.restores within bodyBlank.isOpen inner
  have doneBlank := exitBlank.behind grown exitBlank.inside (Nat.succ_ne_self _)
    (.jump builder.blocks.length) bodySpan
  constructor
  · have toHeader : Builder.Grows builder.blocks.length builder (builder.headed span) :=
      (Builder.grows_withBlock builder (Nat.le_refl _)).trans
        (Builder.grows_leave (Nat.le_refl _) headerBlank)
    have toBody := Builder.grows_moveTo (middle.forked 0 id condition.span) low bodyBlank.inside
    have toLast := grown.mono (Nat.le_trans low (Nat.le_of_lt bodyBlank.inside))
    have toExit := Builder.grows_leave (Nat.le_succ_of_le low) doneBlank
    exact toHeader.trans
      ((emitted _).trans
        ((Builder.grows_forked.mono low).trans (toBody.trans (toLast.trans toExit))))
  · intro scopes world callers state same embeds knows stands
    have ends := embeds.of_moveTo
    have embedsBody := grown.embeds ends.of_terminate
    have embedsHeader :=
      ((emitted 0).trans (Builder.grows_forked.mono (Nat.zero_le _))).embeds embedsBody.of_moveTo
    have returning := (emitted 0).returns.trans same
    have shown : last.visible = (builder.headed span).visible := by
      rw [visible]
      change middle.visible = _
      rw [computes.emits.same]
      rfl
    obtain ⟨next, leads, standing⟩ := stands.withBlock.jump running.withBlock embedsHeader.of_moveTo
      embedsHeader headerBlank (stands.kept.outer rfl (List.prefix_refl _))
    refine .of_reaches leads.reaches (follows_repeatWhile ?_ (Nat.le_refl _) standing)
    intro times rest scopes world state few start again
    refine follows_choose computes headerOpen start embedsBody.of_moveTo few
      ⟨embedsBody, bodyBlank, rfl, List.prefix_refl _⟩ rfl
      ⟨embeds, doneBlank, visible, grown.locals⟩ rfl (fun entered => ?_) fun entered =>
      .give ⟨doneBlank.isOpen, entered⟩
    refine ((bodyPart.follows within returning bodyBlank.isOpen inner ends.of_terminate knows
      entered).less few).bind ?_
    rintro ⟨flow, inside⟩ other there outcome
    cases flow with
    | returned value => exact .give outcome
    | next =>
      obtain ⟨lastOpen, lastStands⟩ := outcome
      obtain ⟨_, back, returned⟩ := lastStands.jump lastOpen ends embedsHeader headerBlank
        (lastStands.kept.back start.kept shown ((emitted 0).locals.trans grown.locals))
      exact .of_leads back (again returned)

/-! All statements. -/

structure CompilesAll (link : Link) (function : Function) (returns : Option Ty) (body : Build Unit)
    (meaning : Effectful) : Prop extends link.Compiles function returns body meaning where
  growsAnyway : ∀ {builder final : Builder}, builder.scope = link.scope →
    builder.current < builder.blocks.length →
    body builder = .ok () final → Builder.Grows builder.blocks.length builder final

open Build in
theorem compilesAll_cons {first rest : Build Unit} {start later : Effectful}
    (firstPart : link.Compiles function returns first start)
    (restPart : link.CompilesAll function returns rest later) :
    link.CompilesAll function returns (do
      continueDead
      first
      rest) (Meaning.sequence start later) := by
  have parts {builder final : Builder} (scope : builder.scope = link.scope)
      (inside : builder.current < builder.blocks.length)
      (built : (do
        continueDead
        first
        rest) builder = .ok () final) :
      ∃ ready middle, (builder.IsOpen → ready = builder) ∧ ready.scope = link.scope ∧ ready.IsOpen ∧
        first ready = .ok () middle ∧ rest middle = .ok () final ∧
        Builder.Grows builder.blocks.length builder middle ∧
        Builder.Grows builder.blocks.length middle final := by
    simp only [bind_eq_ok] at built
    obtain ⟨_, ready, continued, _, middle, firstBuilt, restBuilt⟩ := built
    obtain ⟨readyOpen, grown, same⟩ := grows_continueDead inside continued
    have readyScope := grown.scope.trans scope
    have firstGrown := firstPart.grows readyScope readyOpen firstBuilt
    have restGrown := restPart.growsAnyway (firstGrown.scope.trans readyScope)
      (firstGrown.inside readyOpen.inside) restBuilt
    exact ⟨ready, middle, same, readyScope, readyOpen, firstBuilt, restBuilt,
      grown.trans (firstGrown.mono grown.length_le),
      restGrown.mono (Nat.le_trans grown.length_le firstGrown.length_le)⟩
  have grows {builder final : Builder} (scope : builder.scope = link.scope)
      (inside : builder.current < builder.blocks.length)
      (built : (do
        continueDead
        first
        rest) builder = .ok () final) : Builder.Grows builder.blocks.length builder final := by
    obtain ⟨_, _, _, _, _, _, _, toMiddle, toFinal⟩ := parts scope inside built
    exact toMiddle.trans toFinal
  refine ⟨⟨fun scope running built => grows scope running.inside built, ?_⟩, grows⟩
  intro builder final scopes world callers state scope same running built embeds knows stands
  obtain ⟨ready, middle, unchanged, _, _, firstBuilt, restBuilt, toMiddle, toFinal⟩ :=
    parts scope running.inside built
  obtain rfl := unchanged running
  refine (firstPart.follows scope same running firstBuilt (toFinal.embeds embeds)
    (KnowsEvents.of_grows knows toFinal) stands).bind ?_
  rintro ⟨flow, inside⟩ changed next outcome
  cases flow with
  | returned value => exact .give outcome
  | next =>
    obtain ⟨middleOpen, there⟩ := outcome
    exact restPart.follows (toMiddle.scope.trans scope) (toMiddle.returns.trans same) middleOpen
      restBuilt embeds knows there

mutual

theorem compiles_statement (link : Link) (function : Function) (returns : Option Ty) :
    ∀ source : Statement, link.Compiles function returns (Build.statement source)
      (link.around.statement link.call link.fuel returns source)
  | .declare span name written source => compiles_declaration name written source span
  | .assign span written op source => compiles_assignment written op source span
  | .require span condition message => compiles_guardStatement condition .require message span
  | .assert span condition => compiles_guardStatement condition .assert none span
  | .revert span message => compiles_revert message span
  | .branch _ _ thenBlock none =>
    compiles_conditional (compiles_block link function returns thenBlock)
  | .branch _ _ thenBlock (some elseBlock) =>
    compiles_conditional_else (compiles_block link function returns thenBlock)
      (compiles_block link function returns elseBlock)
  | .loop _ _ body => compiles_loop (compiles_block link function returns body)
  | .ret span source => compiles_returnStatement source span
  | .emit span event args => compiles_emission event args span
  | .expression span source => compiles_callStatement source span

theorem compiles_statements (link : Link) (function : Function) (returns : Option Ty) :
    ∀ sources : List Statement, link.CompilesAll function returns (Build.statements sources)
      (link.around.statements link.call link.fuel returns sources)
  | [] => by
    have same {builder final : Builder} (built : Build.statements [] builder = .ok () final) :
        builder = final := by
      simpa only [Build.statements, Build.pure_eq_ok, true_and] using built
    refine ⟨⟨fun _ _ built => same built ▸ .refl _, ?_⟩, fun _ _ built => same built ▸ .refl _⟩
    intro builder final scopes world callers state _ _ running built _ _ stands
    obtain rfl := same built
    exact .give ⟨running, stands⟩
  | first :: rest => compilesAll_cons (compiles_statement link function returns first)
      (compiles_statements link function returns rest)

theorem compiles_block (link : Link) (function : Function) (returns : Option Ty) :
    ∀ source : Block, link.CompilesBlock function returns (Build.block source)
      (link.around.block link.call link.fuel returns source)
  | .mk body _ => compilesBlock_inBlock (compiles_statements link function returns body).toCompiles

end

end Link

end Covenant
