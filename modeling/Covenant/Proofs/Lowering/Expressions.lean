import Covenant.Proofs.Lowering.Scopes

/-!
The instructions that an expression is lowered to compute its value.
-/

namespace Covenant

def Frame.receive (frame : Frame) (dest : Option ValueId) (value : Option Cell) : Frame :=
  match dest with
  | some dest => frame.define dest (value.getD (.clean 0))
  | none => frame

def CallsFollow (setting : Setting) (fuel : Nat) (scope : ContractScope)
    (call : Surroundings.Calls) : Prop :=
  ∀ (state : Running) (rest : List (Located Instruction)) (world : World) (dest : Option ValueId)
    (name : String)
    (signature : Signature) (args : List ValueId) (given : List Nat) (location : Location),
    scope.signature? name = some signature → args.length = signature.params.length →
    state.frame.pending = ⟨.call dest name args, location⟩ :: rest →
    List.Forall₂ state.frame.Holds args given →
    state.effects.Shows world →
    Follows setting fuel state world (call name given) fun result changed next =>
      ∃ (value : Option Cell) (after : Effects), value.map Cell.value = result ∧
        after.Shows changed ∧
        next =
          { state with
            frame := ({ state.frame with pending := rest } : Frame).receive dest value,
              effects := after }

structure Link where
  setting : Setting
  around : Surroundings
  scope : ContractScope
  fuel : Nat
  call : Surroundings.Calls
  knows : Build.KnowsFields around scope
  env : setting.env = around.env
  callsSucceed : setting.callsSucceed = around.callsSucceed
  calls : CallsFollow setting fuel scope call

namespace Link

structure Computes {α : Type} (link : Link) (code : List (Located Instruction))
    (builder final : Builder) (needs : Frame → Prop) (meaning : Scopes → Meaning α)
    (holds : Frame → α → Prop) : Prop where
  emits : builder.Emits code final
  follows :
    ∀ (scopes : Scopes) (state : Running) (rest : List (Located Instruction)) (world : World),
      scopes.KeptIn builder state.frame.locals → needs state.frame → state.frame.pending =
        code ++ rest →
    state.effects.Shows world →
    Follows link.setting link.fuel state world (meaning scopes) fun result changed next =>
      state.Past builder.nextValue rest next ∧ next.effects.Shows changed ∧ holds next.frame result

namespace Computes

variable {α β : Type} {link : Link} {code more : List (Located Instruction)}
  {builder middle final : Builder} {needs : Frame → Prop} {meaning : Scopes → Meaning α}
  {holds : Frame → α → Prop}

theorem give (builder : Builder) (result : α) (enough : ∀ frame, needs frame → holds frame result) :
    link.Computes [] builder builder needs (fun _ => pure result) holds where
  emits := .refl builder
  follows := fun _ _ _ _ _ needed pending showing => .give ⟨.refl pending, showing, enough _ needed⟩

theorem bind {next : Scopes → α → Meaning β} {result : Frame → β → Prop}
    (first : link.Computes code builder middle needs meaning holds)
    (second : ∀ value, link.Computes more middle final (fun frame => holds frame value)
      (fun scopes => next scopes value) result) [Nonempty α] :
    link.Computes (code ++ more) builder final needs (fun scopes => meaning scopes >>= next scopes)
      result where
  emits := by
    obtain ⟨value⟩ := ‹Nonempty α›
    exact first.emits.trans (second value).emits
  follows := by
    intro scopes state rest world kept needed pending showing
    rw [List.append_assoc] at pending
    refine (first.follows scopes state (more ++ rest) world kept needed pending showing).bind ?_
    intro value changed reached holding
    obtain ⟨past, shown, held⟩ := holding
    have still : scopes.KeptIn middle reached.frame.locals := by
      rw [past.locals, first.emits.same]
      exact kept.outer rfl (List.prefix_refl _)
    refine ((second value).follows scopes reached rest changed still held past.pending shown).mono
      ?_
    intro answer other last finished
    exact ⟨past.trans finished.1 first.emits.fresh, finished.2⟩

theorem keep (computes : link.Computes code builder final needs meaning holds)
    {before : Frame → Prop} (enough : ∀ frame, before frame → needs frame)
    (stable : ∀ (state next : Running) rest, state.Past builder.nextValue rest next →
      before state.frame → before next.frame) :
    link.Computes code builder final before meaning
      (fun frame result => before frame ∧ holds frame result) where
  emits := computes.emits
  follows := by
    intro scopes state rest world kept needed pending showing
    refine (computes.follows scopes state rest world kept (enough _ needed) pending showing).mono ?_
    intro result changed next finished
    exact ⟨finished.1, finished.2.1, stable _ _ _ finished.1 needed, finished.2.2⟩

theorem keepValue (computes : link.Computes code builder final (fun _ => True) meaning holds)
    {id : ValueId} {value : Nat} (small : id < builder.nextValue) :
    link.Computes code builder final (fun frame => frame.Holds id value) meaning
      (fun frame result => frame.Holds id value ∧ holds frame result) :=
  computes.keep (fun _ _ => trivial) fun _ _ _ past held => past.holds small held

theorem congr_of_needs {other : Scopes → Meaning α}
    (computes : link.Computes code builder final needs meaning holds)
    (same : ∀ (scopes : Scopes) (frame : Frame), scopes.KeptIn builder frame.locals → needs frame →
      other scopes = meaning scopes) : link.Computes code builder final needs other holds where
  emits := computes.emits
  follows := by
    intro scopes state rest world kept needed pending showing
    rw [same scopes _ kept needed]
    exact computes.follows scopes state rest world kept needed pending showing

theorem congr {other : Scopes → Meaning α}
    (computes : link.Computes code builder final needs meaning holds)
    (same : ∀ scopes cells, scopes.KeptIn builder cells → other scopes = meaning scopes) :
    link.Computes code builder final needs other holds :=
  computes.congr_of_needs fun scopes _ kept _ => same scopes _ kept

theorem mono {more : Frame → Prop} {less : Frame → α → Prop}
    (computes : link.Computes code builder final needs meaning holds)
    (enough : ∀ frame, more frame → needs frame)
    (implies : ∀ frame result, holds frame result → less frame result) :
    link.Computes code builder final more meaning less where
  emits := computes.emits
  follows := by
    intro scopes state rest world kept needed pending showing
    refine (computes.follows scopes state rest world kept (enough _ needed) pending showing).mono ?_
    intro result changed next finished
    exact ⟨finished.1, finished.2.1, implies _ _ finished.2.2⟩

theorem ignore (computes : link.Computes code builder final needs meaning holds) :
    link.Computes code builder final needs (fun scopes => do
      let _ ← meaning scopes
      return ()) fun _ _ => True where
  emits := computes.emits
  follows := by
    intro scopes state rest world kept needed pending showing
    refine (computes.follows scopes state rest world kept needed pending showing).bind ?_
    intro result changed next finished
    exact .give ⟨finished.1, finished.2.1, trivial⟩

theorem define {meaning : Scopes → Meaning Nat} (builder : Builder) (instruction : Instruction)
    (span : Span)
    (steps :
      ∀ (scopes : Scopes) (state : Running) (rest : List (Located Instruction))
        (world : World) location,
      scopes.KeptIn builder state.frame.locals → needs state.frame →
      state.frame.pending = ⟨instruction, location⟩ :: rest → state.effects.Shows world →
      ∃ cell effects changed,
        (∀ depth, state.step (link.setting.withDepth depth) =
          .ok (.running (state.defined rest builder.nextValue cell effects))) ∧
        meaning scopes world = some (.gives cell.value changed) ∧ effects.Shows changed) :
    link.Computes [⟨instruction, builder.scope.lines.location span.start⟩] builder
      ({ builder with nextValue := builder.nextValue + 1 }.emit instruction span) needs meaning
      (fun frame value => frame.Holds builder.nextValue value) where
  emits := .define builder instruction span
  follows := by
    intro scopes state rest world kept needed pending showing
    obtain ⟨cell, effects, changed, stepped, answer, shown⟩ :=
      steps scopes state rest world _ kept needed pending showing
    unfold Follows
    rw [answer]
    exact ⟨_, (Running.leads_of_step stepped).reaches, Running.past_defined _ _ _ _ (Nat.le_refl _),
      shown, Running.holds_defined _ _ _ _ _⟩

end Computes

/-! Expressions. -/

abbrev ComputesValue (link : Link) (builder final : Builder) (id : ValueId)
    (meaning : Scopes → Meaning Nat) : Prop :=
  id < final.nextValue ∧
    ∃ code, link.Computes code builder final (fun _ => True) meaning fun frame value =>
      frame.Holds id value

abbrev ComputesValues (link : Link) (builder final : Builder) (ids : List ValueId)
    (meaning : Scopes → Meaning (List Nat)) : Prop :=
  (∀ id ∈ ids, id < final.nextValue) ∧
    ∃ code, link.Computes code builder final (fun _ => True) meaning fun frame values =>
      List.Forall₂ frame.Holds ids values

section Instructions

variable {link : Link} {needs : Frame → Prop} (builder : Builder) (span : Span)

theorem computes_const (value : Nat) (ty : Ty) :
    link.Computes [⟨.const builder.nextValue value ty, builder.scope.lines.location span.start⟩]
      builder ({ builder with nextValue := builder.nextValue + 1 }.emit
        (.const builder.nextValue value ty) span) needs
      (fun _ => pure value) fun frame result => frame.Holds builder.nextValue result := by
  refine .define builder _ span ?_
  intro scopes state rest world location kept needed pending showing
  refine ⟨.clean value, state.effects, world, ?_, rfl, showing⟩
  intro depth
  rw [Running.step_of_pending pending]
  rfl

theorem computes_env (var : EnvVar) :
    link.Computes [⟨.env builder.nextValue var, builder.scope.lines.location span.start⟩] builder
      ({ builder with nextValue := builder.nextValue + 1 }.emit (.env builder.nextValue var) span)
      needs (fun _ => pure (link.around.env.get var)) fun frame result =>
      frame.Holds builder.nextValue result := by
  refine .define builder _ span ?_
  intro scopes state rest world location kept needed pending showing
  refine ⟨.clean (link.around.env.get var), state.effects, world, ?_, rfl, showing⟩
  intro depth
  rw [Running.step_of_pending pending, ← link.env]
  rfl

theorem computes_loadLocal {builder : Builder} {name : String} {slot : LocalId}
    (found : builder.find? name = some slot) :
    link.Computes [⟨.loadLocal builder.nextValue slot, builder.scope.lines.location span.start⟩]
      builder ({ builder with nextValue := builder.nextValue + 1 }.emit
        (.loadLocal builder.nextValue slot) span) needs
      (fun scopes => do
        let held ← Meaning.known (scopes.find? name)
        return held.value) fun frame result => frame.Holds builder.nextValue result := by
  refine .define builder _ span ?_
  intro scopes state rest world location kept needed pending showing
  obtain ⟨var, present, _, cell, stored, same⟩ := kept.findSlot found
  refine ⟨cell, state.effects, world, ?_, ?_, showing⟩
  · intro depth
    rw [Running.step_of_pending pending]
    simp only [Running.instruction, stored]
    rfl
  · simp only [present, same]
    rfl

theorem computes_loadField (field : String) :
    link.Computes
      [⟨.loadField builder.nextValue field none, builder.scope.lines.location span.start⟩] builder
      ({ builder with nextValue := builder.nextValue + 1 }.emit
        (.loadField builder.nextValue field none) span) needs (fun _ => Meaning.load ⟨field, none⟩)
        fun frame result => frame.Holds builder.nextValue result := by
  refine .define builder _ span ?_
  intro scopes state rest world location kept needed pending showing
  refine ⟨state.effects.load ⟨field, none⟩, state.effects, world, ?_, ?_, showing⟩
  · intro depth
    rw [Running.step_of_pending pending]
    rfl
  · simp only [Meaning.load, Effects.load, showing.storage]

theorem computes_loadEntry (field : String) (key : ValueId) (index : Nat)
    (has : ∀ frame, needs frame → frame.Holds key index) :
    link.Computes
      [⟨.loadField builder.nextValue field (some key), builder.scope.lines.location span.start⟩]
      builder
      ({ builder with nextValue := builder.nextValue + 1 }.emit
        (.loadField builder.nextValue field (some key)) span) needs
        (fun _ => Meaning.load ⟨field, some index⟩)
      fun frame result => frame.Holds builder.nextValue result := by
  refine .define builder _ span ?_
  intro scopes state rest world location kept needed pending showing
  obtain ⟨cell, got, same⟩ := (has _ needed).get
  refine ⟨state.effects.load ⟨field, some index⟩, state.effects, world, ?_, ?_, showing⟩
  · intro depth
    rw [Running.step_of_pending pending]
    have there : ({ state.frame with pending := rest } : Frame).get? key = .ok cell := got
    simp only [Running.instruction, Frame.place, there, same, bind, Except.bind, pure, Except.pure]
    rfl
  · simp only [Meaning.load, Effects.load, showing.storage]

theorem computes_not (operand : ValueId) (truth : Nat)
    (has : ∀ frame, needs frame → frame.Holds operand truth) :
    link.Computes [⟨.not builder.nextValue operand, builder.scope.lines.location span.start⟩]
      builder ({ builder with nextValue := builder.nextValue + 1 }.emit
        (.not builder.nextValue operand) span) needs
      (fun _ => pure (ofBool (truth == 0))) fun frame result =>
      frame.Holds builder.nextValue result := by
  refine .define builder _ span ?_
  intro scopes state rest world location kept needed pending showing
  obtain ⟨cell, got, same⟩ := (has _ needed).get
  refine ⟨.clean (ofBool (truth == 0)), state.effects, world, ?_, rfl, showing⟩
  intro depth
  rw [Running.step_of_pending pending]
  have there : ({ state.frame with pending := rest } : Frame).get? operand = .ok cell := got
  simp only [Running.instruction, there, same, bind, Except.bind]
  rfl

theorem computes_binary (op : BinaryOp) (ty : Ty) (lhs rhs : ValueId) (left right : Nat)
    (has : ∀ frame, needs frame → frame.Holds lhs left ∧ frame.Holds rhs right) :
    link.Computes
      [⟨.binary builder.nextValue op ty lhs rhs, builder.scope.lines.location span.start⟩] builder
      ({ builder with nextValue := builder.nextValue + 1 }.emit
        (.binary builder.nextValue op ty lhs rhs) span) needs
        (fun _ => Meaning.operate op ty left right) fun frame result =>
        frame.Holds builder.nextValue result where
  emits := .define builder _ span
  follows := by
    intro scopes state rest world kept needed pending showing
    rw [List.singleton_append] at pending
    obtain ⟨leftCell, leftGot, leftSame⟩ := (has _ needed).1.get
    obtain ⟨rightCell, rightGot, rightSame⟩ := (has _ needed).2.get
    have leftThere : ({ state.frame with pending := rest } : Frame).get? lhs = .ok leftCell :=
      leftGot
    have rightThere : ({ state.frame with pending := rest } : Frame).get? rhs = .ok rightCell :=
      rightGot
    unfold Follows
    cases computed : op.eval? ty left right with
    | none =>
      have reverts : Meaning.operate op ty left right world =
          some (.reverts (some "division by zero")) := by
        simp only [Meaning.operate, computed, Meaning.revert]
      rw [reverts]
      let location := builder.scope.lines.location span.start
      have stepped : state.step (link.setting.withDepth 0) =
        .ok (.ended (.reverted (some "division by zero"))
          (state.effects.record { state.frame with pending := rest } location
            .divisionByZero)) := by
        rw [Running.step_of_pending pending]
        simp only [Running.instruction, leftThere, rightThere, leftSame, rightSame, computed, bind,
          Except.bind]
        rfl
      exact ⟨_, Running.endsWith_of_step stepped⟩
    | some value =>
      have gives : Meaning.operate op ty left right world = some (.gives value world) := by
        simp only [Meaning.operate, computed, Meaning.give]
      rw [gives]
      let wrapped := op == .sub && leftCell.value < rightCell.value
      let cell : Cell := ⟨value, leftCell.tainted || rightCell.tainted || wrapped⟩
      have stepped : ∀ depth, state.step (link.setting.withDepth depth) =
          .ok (.running (state.defined rest builder.nextValue cell state.effects)) := by
        intro depth
        rw [Running.step_of_pending pending]
        simp only [Running.instruction, leftThere, rightThere, leftSame, rightSame, computed, bind,
          Except.bind]
        simp only [cell, wrapped, leftSame, rightSame]
        rfl
      exact ⟨_, (Running.leads_of_step stepped).reaches, Running.past_defined _ _ _ _
        (Nat.le_refl _), showing, Running.holds_defined _ _ _ cell _⟩

theorem computes_externalCall (kind : ExternalKind) (target amount : ValueId) (receiver sent : Nat)
    (has : ∀ frame, needs frame → frame.Holds target receiver ∧ frame.Holds amount sent) :
    link.Computes
      [⟨.externalCall builder.nextValue kind target amount,
        builder.scope.lines.location span.start⟩]
      builder ({ builder with nextValue := builder.nextValue + 1 }.emit
        (.externalCall builder.nextValue kind target amount) span) needs
      (fun _ => Meaning.callOut link.around.callsSucceed kind receiver sent)
      fun frame result => frame.Holds builder.nextValue result where
  emits := .define builder _ span
  follows := by
    intro scopes state rest world kept needed pending showing
    rw [List.singleton_append] at pending
    obtain ⟨targetCell, targetGot, targetSame⟩ := (has _ needed).1.get
    obtain ⟨amountCell, amountGot, amountSame⟩ := (has _ needed).2.get
    have targetThere : ({ state.frame with pending := rest } : Frame).get? target =
        .ok targetCell := targetGot
    have amountThere : ({ state.frame with pending := rest } : Frame).get? amount =
        .ok amountCell := amountGot
    let succeeds := link.around.callsSucceed
    let location := builder.scope.lines.location span.start
    let recorded := state.effects.record { state.frame with pending := rest } location
      (.externalCall kind receiver sent succeeds)
    let effects := { recorded with calls := ⟨kind, receiver, sent⟩ :: state.effects.calls }
    unfold Follows
    cases failing : kind == .transfer && !succeeds with
    | true =>
      have reverts : Meaning.callOut succeeds kind receiver sent world =
          some (.reverts (some "transfer failed")) := by
        simp only [Meaning.callOut, failing, if_true]
      rw [reverts]
      have stepped : state.step (link.setting.withDepth 0) =
          .ok (.ended (.reverted (some "transfer failed")) effects) := by
        rw [Running.step_of_pending pending]
        simp only [Running.instruction, targetThere, amountThere, targetSame, amountSame, bind,
          Except.bind, Setting.withDepth, link.callsSucceed]
        rw [if_pos failing]
        rfl
      exact ⟨_, Running.endsWith_of_step stepped⟩
    | false =>
      have gives : Meaning.callOut succeeds kind receiver sent world =
          some (.gives (ofBool succeeds)
            { world with calls := world.calls ++ [⟨kind, receiver, sent⟩] }) := by
        simp only [Meaning.callOut, failing, Bool.false_eq_true, if_false]
      rw [gives]
      let cell := Cell.clean (ofBool succeeds)
      have stepped : ∀ depth, state.step (link.setting.withDepth depth) =
          .ok (.running (state.defined rest builder.nextValue cell effects)) := by
        intro depth
        rw [Running.step_of_pending pending]
        simp only [Running.instruction, targetThere, amountThere, targetSame, amountSame, bind,
          Except.bind, Setting.withDepth, link.callsSucceed]
        rw [if_neg (by rw [failing]; exact Bool.false_ne_true)]
        rfl
      refine ⟨_, (Running.leads_of_step stepped).reaches, Running.past_defined _ _ _ _
        (Nat.le_refl _), ⟨showing.storage, showing.events, ?_⟩, Running.holds_defined _ _ _ cell _⟩
      change (ExternalCallRecord.mk kind receiver sent :: state.effects.calls).reverse = _
      rw [List.reverse_cons, showing.calls]

theorem computes_storeField (field : String) (key : Option ValueId) (id : ValueId)
    (index : Option Nat) (value : Nat)
    (has : ∀ frame, needs frame → frame.place field key = .ok ⟨field, index⟩ ∧ frame.Holds id value)
    (carries : ∀ frame rest, needs frame → needs { frame with pending := rest }) :
    link.Computes [⟨.storeField field key id, builder.scope.lines.location span.start⟩] builder
      (builder.emit (.storeField field key id) span) needs
      (fun _ => Meaning.store ⟨field, index⟩ value) fun _ _ => True where
  emits := .emit builder _ span
  follows := by
    intro scopes state rest world kept needed pending showing
    rw [List.singleton_append] at pending
    obtain ⟨placed, holds⟩ := has _ (carries _ rest needed)
    obtain ⟨cell, got, same⟩ := holds.get
    let frame : Frame := { state.frame with pending := rest }
    let effects := (state.effects.record frame (builder.scope.lines.location span.start)
      (.setStorage ⟨field, index⟩ cell.value)).store ⟨field, index⟩ cell
    have leads : state.Leads link.setting { state with frame, effects } := by
      refine Running.leads_of_step fun depth => ?_
      rw [Running.step_of_pending pending]
      simp only [Running.instruction, placed, got, bind, Except.bind]
      rfl
    refine ⟨_, leads.reaches, ⟨rfl, rfl, rfl, rfl, rfl, fun _ _ => rfl⟩,
      ⟨?_, showing.events, showing.calls⟩, trivial⟩
    change Storage.put ⟨field, index⟩ cell.value state.effects.storage = _
    rw [showing.storage, same]

theorem computes_emit (event : String) (args : List ValueId) (given : List Nat)
    (has : ∀ frame, needs frame → List.Forall₂ frame.Holds args given) :
    link.Computes [⟨.emit event args, builder.scope.lines.location span.start⟩] builder
      (builder.emit (.emit event args) span) needs (fun _ => Meaning.emit event given)
      fun _ _ => True where
  emits := .emit builder _ span
  follows := by
    intro scopes state rest world kept needed pending showing
    rw [List.singleton_append] at pending
    obtain ⟨cells, got, same⟩ := Frame.Holds.getAll (has _ needed)
    let frame : Frame := { state.frame with pending := rest }
    have there : args.mapM frame.get? = .ok cells := got
    let recorded := state.effects.record frame (builder.scope.lines.location span.start)
      (.emit event)
    let effects := { recorded with events := ⟨event, given⟩ :: state.effects.events }
    have leads : state.Leads link.setting { state with frame, effects } := by
      refine Running.leads_of_step fun depth => ?_
      rw [Running.step_of_pending pending]
      simp only [Running.instruction]
      change (args.mapM frame.get? >>= _) = _
      rw [there]
      simp only [bind, Except.bind, same]
      rfl
    refine ⟨_, leads.reaches, ⟨rfl, rfl, rfl, rfl, rfl, fun _ _ => rfl⟩,
      ⟨showing.storage, ?_, showing.calls⟩, trivial⟩
    change (EmittedEvent.mk event given :: state.effects.events).reverse = _
    rw [List.reverse_cons, showing.events]

theorem computes_call {final : Builder} {dest : Option ValueId} {name : String}
    {args : List ValueId} {location : Location}
    (emits : builder.Emits [⟨.call dest name args, location⟩] final)
    (fresh : ∀ id, dest = some id → builder.nextValue ≤ id) {signature : Signature}
    (known : link.scope.signature? name = some signature)
    (count : args.length = signature.params.length) (given : List Nat)
    (has : ∀ frame, needs frame → List.Forall₂ frame.Holds args given) :
    link.Computes [⟨.call dest name args, location⟩] builder final needs
      (fun _ => link.call name given) fun frame result => ∀ id, dest = some id →
        frame.Holds id (result.getD 0) where
  emits := emits
  follows := by
    intro scopes state rest world kept needed pending showing
    rw [List.singleton_append] at pending
    have follows := link.calls state rest world dest name signature args given location known count
      pending (has _ needed) showing
    refine follows.mono ?_
    rintro result changed next ⟨value, after, returned, shown, rfl⟩
    refine ⟨?_, shown, ?_⟩
    · cases dest with
      | none => exact ⟨rfl, rfl, rfl, rfl, rfl, fun _ _ => rfl⟩
      | some id =>
        exact Running.past_defined state rest (value.getD (.clean 0)) after (fresh id rfl)
    · rintro id rfl
      subst returned
      cases value with
      | none => exact Frame.holds_define _ _ _
      | some cell => exact Frame.holds_define _ _ _

end Instructions

open Build in
/-- A call of a function of the contract, given what its arguments compute. -/
theorem computes_selfCall {link : Link} {builder final : Builder} {function : Ident}
    {args : List Expression} {span : Span} {result : Option (ValueId × Ty)}
    (scope : builder.scope = link.scope)
    (inner : ∀ types ids middle, arguments args types builder = .ok ids middle →
      (ids.length = min args.length types.length) ∧ link.ComputesValues builder middle ids
        fun scopes => link.around.values link.call scopes args types)
    (built : selfCall function args.length span (arguments args) builder = .ok result final) :
    (∀ found, result = some found → found.1 < final.nextValue) ∧
      ∃ code, link.Computes code builder final (fun _ => True)
        (fun scopes => do
          let given ← link.around.values link.call scopes args
            (link.around.paramTypes function.name)
          link.call function.name given)
        fun frame value => ∀ found, result = some found → frame.Holds found.1 (value.getD 0) := by
  simp only [selfCall, bind_eq_ok, get_eq_ok] at built
  obtain ⟨_, _, ⟨rfl, rfl⟩, built⟩ := built
  cases known : builder.scope.signature? function.name with
  | none => simp [known, fail_eq_ok] at built
  | some signature =>
    simp only [known, ite_eq_ok, fail_eq_ok, and_false, false_or, bind_eq_ok] at built
    obtain ⟨arity, ids, middle, lowered, built⟩ := built
    have arity : signature.params.length = args.length := by simpa using arity
    obtain ⟨length, small, code, computes⟩ := inner _ _ _ lowered
    rw [scope] at known
    have types : link.around.paramTypes function.name = signature.params := by
      rw [link.knows.signatures] at known
      simp [Surroundings.paramTypes, known]
    have count : ids.length = signature.params.length := by omega
    rw [types]
    cases returns : signature.returns with
    | none =>
      simp only [returns, bind_eq_ok, emit_eq_ok, pure_eq_ok] at built
      obtain ⟨_, _, rfl, rfl, rfl⟩ := built
      have called (given : List Nat) :=
        computes_call middle (.emit middle (.call none function.name ids) span)
          (by simp) known count given fun frame (held : List.Forall₂ frame.Holds ids given) => held
      exact ⟨by simp, _, computes.bind fun given =>
        (called given).mono (fun _ held => held) (by simp)⟩
    | some ty =>
      simp only [returns, bind_eq_ok, fresh_eq_ok, emit_eq_ok, pure_eq_ok] at built
      obtain ⟨_, _, ⟨rfl, rfl⟩, _, _, rfl, rfl, rfl⟩ := built
      have fresh : ∀ id, some middle.nextValue = some id → middle.nextValue ≤ id := by
        rintro id same
        exact Nat.le_of_eq (Option.some.inj same)
      have called (given : List Nat) :=
        computes_call middle (.define middle (.call (some middle.nextValue) function.name ids) span)
          fresh known count given fun frame (held : List.Forall₂ frame.Holds ids given) => held
      refine ⟨?_, _, computes.bind fun given => (called given).mono (fun _ held => held) ?_⟩
      · rintro found same
        obtain rfl := Option.some.inj same
        exact Nat.lt_succ_self _
      · intro frame value held found same
        obtain rfl := Option.some.inj same
        exact held _ rfl

open Build in
mutual

/-- An expression is lowered to instructions that compute its value. -/
theorem computes_expression (link : Link) :
    ∀ (source : Expression) (expected : Option Ty) {builder final : Builder}
      {result : ValueId × Ty},
      builder.scope = link.scope → expression source expected builder = .ok result final →
        link.ComputesValue builder final result.1 fun scopes =>
          link.around.value link.call scopes source expected
  | .int span digits radix, expected, builder, final, result, scope, built => by
    simp only [expression, literal, ite_eq_ok, bind_eq_ok, fresh_eq_ok, emit_eq_ok, fail_eq_ok,
      pure_eq_ok, and_false, or_false] at built
    obtain ⟨_, _, _, ⟨rfl, rfl⟩, _, _, rfl, rfl, rfl⟩ := built
    exact ⟨Nat.lt_succ_self _, _, computes_const builder span _ _⟩
  | .bool span truth, expected, builder, final, result, scope, built => by
    simp only [expression, bind_eq_ok, fresh_eq_ok, emit_eq_ok, pure_eq_ok] at built
    obtain ⟨_, _, ⟨rfl, rfl⟩, _, _, rfl, rfl, rfl⟩ := built
    exact ⟨Nat.lt_succ_self _, _, computes_const builder span _ _⟩
  | .str span text, expected, builder, final, result, scope, built => by
      simp [expression, fail_eq_ok] at built
  | .var span name, expected, builder, final, result, scope, built => by
    simp only [expression, bind_eq_ok, localNamed_eq_ok, fresh_eq_ok, emit_eq_ok, get_eq_ok,
      pure_eq_ok] at built
    obtain ⟨slot, _, ⟨found, rfl⟩, _, _, ⟨rfl, rfl⟩, _, _, rfl, _, _, ⟨rfl, rfl⟩, rfl, rfl⟩ := built
    exact ⟨Nat.lt_succ_self _, _, computes_loadLocal span found⟩
  | .field span field, expected, builder, final, result, scope, built => by
    simp only [expression, bind_eq_ok, scalarType_eq_ok, fresh_eq_ok, emit_eq_ok,
      pure_eq_ok] at built
    obtain ⟨ty, _, ⟨found, _, rfl⟩, _, _, ⟨rfl, rfl⟩, _, _, rfl, rfl, rfl⟩ := built
    exact ⟨Nat.lt_succ_self _, _, computes_loadField builder span field.name⟩
  | .mapIndex span field key, expected, builder, final, result, scope, built => by
    simp only [expression, bind_eq_ok, entryTypes_eq_ok, withType_eq_ok, fresh_eq_ok, emit_eq_ok,
      pure_eq_ok] at built
    obtain ⟨⟨keyTy, valueTy⟩, _, ⟨found, rfl⟩, id, middle, lowered, _, _, ⟨rfl, rfl⟩, _, _, rfl,
      rfl, rfl⟩ := built
    obtain ⟨small, code, computes⟩ := computes_expression link key (some keyTy) scope lowered
    rw [scope, link.knows.fields] at found
    have wanted : link.around.keyType? field.name = some keyTy := by
      simp [Surroundings.keyType?, found]
    simp only [Surroundings.value, wanted]
    exact ⟨Nat.lt_succ_self _, _, computes.bind fun index =>
      computes_loadEntry middle span field.name id index fun _ held => held⟩
  | .selfCall span function args, expected, builder, final, result, scope, built => by
    simp only [expression, bind_eq_ok] at built
    obtain ⟨called, middle, lowered, built⟩ := built
    cases called with
    | none => simp [fail_eq_ok] at built
    | some found =>
      simp only [pure_eq_ok] at built
      obtain ⟨rfl, rfl⟩ := built
      obtain ⟨small, code, computes⟩ := computes_selfCall scope
        (fun types ids middle => computes_arguments link args types scope) lowered
      have finish (value : Option Nat) : link.Computes [] middle middle
          (fun frame => ∀ other, some found = some other → frame.Holds other.1 (value.getD 0))
          (fun _ => pure (value.getD 0)) fun frame number => frame.Holds found.1 number :=
        .give middle _ fun frame held => held found rfl
      refine ⟨small found rfl, code ++ [], (computes.bind finish).congr fun scopes cells _ => ?_⟩
      simp only [Surroundings.value, bind_assoc]
  | .env span var, expected, builder, final, result, scope, built => by
    simp only [expression, bind_eq_ok, fresh_eq_ok, emit_eq_ok, pure_eq_ok] at built
    obtain ⟨_, _, ⟨rfl, rfl⟩, _, _, rfl, rfl, rfl⟩ := built
    exact ⟨Nat.lt_succ_self _, _, computes_env builder span var⟩
  | .externalCall span .call target amount, expected, builder, final, result, scope, built => by
    simp only [expression, externalCall, bind_eq_ok, withType_eq_ok, fresh_eq_ok, emit_eq_ok,
      pure_eq_ok] at built
    obtain ⟨_, _, ⟨receiver, middle, first, sent, last, second, _, _, ⟨rfl, rfl⟩, _, _, rfl, rfl,
      rfl⟩, rfl, rfl⟩ := built
    obtain ⟨small, code, computes⟩ := computes_expression link target (some .address) scope first
    have scopes : middle.scope = link.scope := by rw [computes.emits.same]; exact scope
    obtain ⟨_, more, further⟩ :=
      computes_expression link amount (some .defaultInteger) scopes second
    exact ⟨Nat.lt_succ_self _, _, computes.bind fun left => (further.keepValue small).bind
      fun right =>
      computes_externalCall last span .call receiver sent left right fun _ held => held⟩
  | .externalCall span .transfer target amount, expected, builder, final, result, scope, built => by
    simp [expression, fail_eq_ok] at built
  | .binary span op lhs rhs, expected, builder, final, result, scope, built => by
    simp only [expression, ite_eq_ok] at built
    rcases built with ⟨logical, built⟩ | ⟨plain, built⟩
    · simp only [bind_eq_ok, booleanOperand_eq_ok, fresh_eq_ok, emit_eq_ok, pure_eq_ok] at built
      obtain ⟨left, middle, first, right, last, second, _, _, ⟨rfl, rfl⟩, _, _, rfl, rfl, rfl⟩ :=
        built
      obtain ⟨small, code, computes⟩ := computes_expression link lhs (some .bool) scope first
      have scopes : middle.scope = link.scope := by rw [computes.emits.same]; exact scope
      obtain ⟨_, more, further⟩ := computes_expression link rhs (some .bool) scopes second
      refine ⟨Nat.lt_succ_self _, _,
        (computes.bind fun leftValue => (further.keepValue small).bind fun rightValue =>
        computes_binary last span op .bool left right leftValue rightValue fun _ held =>
          held).congr ?_⟩
      intro scopes cells _
      simp only [Surroundings.value, Surroundings.operandHint?, Surroundings.operandType,
        logical, if_true]
    · simp only [bind_eq_ok, get_eq_ok, operation, ite_eq_ok, fail_eq_ok, and_false, false_or,
        fresh_eq_ok, emit_eq_ok, pure_eq_ok] at built
      obtain ⟨_, _, ⟨rfl, rfl⟩, ⟨left, ty⟩, middle, first, ⟨right, rightTy⟩, last, second, _, _, _,
        _, ⟨rfl, rfl⟩, _, _, rfl, rfl, rfl⟩ := built
      obtain ⟨small, code, computes⟩ := computes_expression link lhs _ scope first
      have scopes : middle.scope = link.scope := by rw [computes.emits.same]; exact scope
      obtain ⟨_, more, further⟩ := computes_expression link rhs (some ty) scopes second
      refine ⟨Nat.lt_succ_self _, _,
        (computes.bind fun leftValue => (further.keepValue small).bind fun rightValue =>
        computes_binary last span op ty left right leftValue rightValue fun _ held =>
          held).congr ?_⟩
      intro scopes cells kept
      have knows : KnowsFields link.around builder.scope := scope ▸ link.knows
      have hint : link.around.operandHint? scopes op lhs rhs expected =
          ((typeHint builder lhs).or (typeHint builder rhs)).or
            (if op.isArithmetic then expected else none) := by
        rw [typeHint_eq knows kept, typeHint_eq knows kept]
        simp only [Surroundings.operandHint?, plain, Bool.false_eq_true, if_false]
      have working : link.around.operandType scopes op lhs rhs expected = ty := by
        simp only [Surroundings.operandType, plain, Bool.false_eq_true, if_false, hint]
        exact (expression_type knows kept lhs _ first).symm
      simp only [Surroundings.value, hint, working]
  | .not span operand, expected, builder, final, result, scope, built => by
    simp only [expression, bind_eq_ok, booleanOperand_eq_ok, fresh_eq_ok, emit_eq_ok,
      pure_eq_ok] at built
    obtain ⟨id, middle, lowered, _, _, ⟨rfl, rfl⟩, _, _, rfl, rfl, rfl⟩ := built
    obtain ⟨small, code, computes⟩ := computes_expression link operand (some .bool) scope lowered
    exact ⟨Nat.lt_succ_self _, _, computes.bind fun truth => computes_not middle span id truth
      fun _ held => held⟩

theorem computes_arguments (link : Link) :
    ∀ (sources : List Expression) (types : List Ty) {builder final : Builder} {ids : List ValueId},
      builder.scope = link.scope → arguments sources types builder = .ok ids final →
        (ids.length = min sources.length types.length) ∧ link.ComputesValues builder final ids
          fun scopes => link.around.values link.call scopes sources types
  | [], types, builder, final, ids, scope, built => by
    simp only [arguments, pure_eq_ok] at built
    obtain ⟨rfl, rfl⟩ := built
    exact ⟨by simp, by simp, [], .give builder _ fun _ _ => .nil⟩
  | source :: sources, [], builder, final, ids, scope, built => by
    simp only [arguments, pure_eq_ok] at built
    obtain ⟨rfl, rfl⟩ := built
    exact ⟨by simp, by simp, [], .give builder _ fun _ _ => .nil⟩
  | source :: sources, ty :: types, builder, final, ids, scope, built => by
    simp only [arguments, bind_eq_ok, withType_eq_ok, pure_eq_ok] at built
    obtain ⟨id, middle, first, others, last, rest, rfl, rfl⟩ := built
    obtain ⟨small, code, computes⟩ := computes_expression link source (some ty) scope first
    have scopes : middle.scope = link.scope := by rw [computes.emits.same]; exact scope
    obtain ⟨length, smaller, more, further⟩ := computes_arguments link sources types scopes rest
    have fresh := further.emits.fresh
    refine ⟨by simp [length], ?_, (code ++ (more ++ [])), ?_⟩
    · intro other member
      rcases List.mem_cons.mp member with rfl | later
      · exact Nat.lt_of_lt_of_le small fresh
      · exact smaller other later
    · exact computes.bind fun head => (further.keepValue small).bind fun tail =>
        Computes.give last _ fun frame held => .cons held.1 held.2

end

end Link

end Covenant
