import Covenant.Proofs.Lowering.Statements

/-!
Assignments write what they mean to where they mean it. The slot that an assignment is lowered to
write to is what its target has become in the code.
-/

namespace Covenant

instance : Inhabited Target := ⟨.var "" .bool⟩

def Slot.Aims (slot : Slot) (ty : Ty) (builder : Builder) (frame : Frame) : Target → Prop
  | .var name held => held = ty ∧ ∃ index, slot = .slot index ∧ builder.find? name = some index
  | .place spot held =>
    held = ty ∧ ∃ key, slot = .field spot.field key ∧ frame.place spot.field key = .ok spot ∧
      ∀ id, key = some id → id < builder.nextValue

namespace Slot.Aims

variable {slot : Slot} {ty : Ty} {builder : Builder} {target : Target}

theorem ty_eq {frame : Frame} (aims : slot.Aims ty builder frame target) : target.ty = ty := by
  cases target with
  | var name held => exact aims.1
  | place spot held => exact aims.1

theorem past {state next : Running} {rest : List (Located Instruction)}
    (past : state.Past builder.nextValue rest next)
    (aims : slot.Aims ty builder state.frame target) :
    slot.Aims ty builder next.frame target := by
  cases target with
  | var name held => exact aims
  | place spot held =>
    obtain ⟨same, key, field, placed, small⟩ := aims
    refine ⟨same, key, field, ?_, small⟩
    cases key with
    | none => exact placed
    | some id =>
      have kept : next.frame.get? id = state.frame.get? id := by
        simp only [Frame.get?, past.kept id (small id rfl)]
      simp only [Frame.place, kept] at placed ⊢
      exact placed

theorem emits {final : Builder} {frame : Frame} {code : List (Located Instruction)}
    (aims : slot.Aims ty builder frame target) (emits : builder.Emits code final) :
    slot.Aims ty final frame target := by
  cases target with
  | var name held =>
    obtain ⟨same, index, here, found⟩ := aims
    refine ⟨same, index, here, ?_⟩
    rw [emits.same]
    exact found
  | place spot held =>
    obtain ⟨same, key, field, placed, small⟩ := aims
    exact ⟨same, key, field, placed, fun id here => Nat.lt_of_lt_of_le (small id here) emits.fresh⟩

end Slot.Aims

namespace Link

variable {link : Link} {function : Function} {returns : Option Ty}

open Build in
/-- The slot of a place is what its target has become. -/
theorem computes_slotOf {builder final : Builder} {written : Place} {slot : Slot} {ty : Ty}
    (scope : builder.scope = link.scope) (built : slotOf written builder = .ok (slot, ty) final) :
    ∃ code, link.Computes code builder final (fun _ => True)
      (fun scopes => link.around.target link.call scopes written)
      fun frame target => slot.Aims ty final frame target := by
  cases written with
  | slot name =>
    simp only [slotOf, bind_eq_ok, localNamed_eq_ok, get_eq_ok, pure_eq_ok, Prod.mk.injEq] at built
    obtain ⟨index, _, ⟨found, rfl⟩, _, _, ⟨rfl, rfl⟩, ⟨rfl, rfl⟩, rfl⟩ := built
    refine ⟨[], .refl builder, ?_⟩
    intro scopes state rest world kept _ pending showing
    obtain ⟨var, present, ⟨entry, declared, typed⟩, _⟩ := kept.findSlot found
    have held : builder.localType index = var.ty := by
      simp only [Builder.localType, declared, typed]
    refine .known present (.give ⟨.refl pending, showing, held.symm, index, rfl, found⟩)
  | field field =>
    simp only [slotOf, bind_eq_ok, scalarType_eq_ok, pure_eq_ok, Prod.mk.injEq] at built
    obtain ⟨_, _, ⟨found, _, rfl⟩, ⟨rfl, rfl⟩, rfl⟩ := built
    rw [scope, link.knows.fields] at found
    refine ⟨[], .refl builder, ?_⟩
    intro scopes state rest world _ _ pending showing
    exact .known found (.give ⟨.refl pending, showing, rfl, none, rfl, rfl, by simp⟩)
  | mapEntry field key =>
    simp only [slotOf, bind_eq_ok, entryTypes_eq_ok, pure_eq_ok, Prod.mk.injEq] at built
    obtain ⟨⟨keyTy, valueTy⟩, _, ⟨found, rfl⟩, id, middle, lowered, ⟨rfl, rfl⟩, rfl⟩ := built
    obtain ⟨small, code, computes⟩ := computes_typed scope lowered
    rw [scope, link.knows.fields] at found
    have wanted : link.around.keyType? field.name = some keyTy := by
      simp [Surroundings.keyType?, found]
    have typed (scopes : Scopes) : link.around.hint? scopes (.mapIndex key.span field key) =
        some valueTy := by
      simp [Surroundings.hint?, found]
    refine ⟨code, computes.emits, ?_⟩
    intro scopes state rest world kept needed pending showing
    simp only [Surroundings.target, wanted, typed]
    refine (computes.follows scopes state rest world kept needed pending showing).bind ?_
    rintro index changed next ⟨past, shown, held⟩
    obtain ⟨cell, got, same⟩ := held.get
    have placed : next.frame.place field.name (some id) = .ok ⟨field.name, some index⟩ := by
      simp only [Frame.place, got, bind, Except.bind, pure, Except.pure, same]
    refine .known rfl (.give ⟨past, shown, rfl, some id, rfl, placed, fun other here => ?_⟩)
    obtain rfl := Option.some.inj here
    exact small

/-- Reading a target before it is written to. -/
theorem computes_load (builder : Builder) (span : Span) (slot : Slot) (ty : Ty) (target : Target) :
    link.Computes [⟨slot.load builder.nextValue, builder.scope.lines.location span.start⟩] builder
      ({ builder with nextValue := builder.nextValue + 1 }.emit (slot.load builder.nextValue) span)
      (fun frame => slot.Aims ty builder frame target) (fun scopes => target.read scopes)
      fun frame value => frame.Holds builder.nextValue value := by
  refine .define builder _ span ?_
  intro scopes state rest world location kept aims pending showing
  cases target with
  | var name held =>
    obtain ⟨_, index, rfl, found⟩ := aims
    obtain ⟨var, present, _, cell, stored, same⟩ := kept.findSlot found
    refine ⟨cell, state.effects, world, ?_, ?_, showing⟩
    · intro depth
      rw [Running.step_of_pending pending]
      simp only [Slot.load, Running.instruction, stored]
      rfl
    · simp only [Target.read, present, same]
      rfl
  | place spot held =>
    obtain ⟨_, key, rfl, placed, _⟩ := aims
    refine ⟨state.effects.load spot, state.effects, world, ?_, ?_, showing⟩
    · intro depth
      rw [Running.step_of_pending pending]
      have there : ({ state.frame with pending := rest } : Frame).place spot.field key =
          .ok spot := by
        cases key <;> exact placed
      simp only [Slot.load, Running.instruction, there, bind, Except.bind]
      rfl
    · simp only [Target.read, Meaning.load, Effects.load, showing.storage]

theorem Computes.keepTarget {α : Type} {code : List (Located Instruction)}
    {builder final : Builder} {needs : Frame → Prop} (meaning : Ty → Scopes → Meaning α)
    {holds : Frame → α → Prop} {ty : Ty}
    (computes : link.Computes code builder final needs (meaning ty) holds) (slot : Slot)
    (target : Target)
    (stable : ∀ (state next : Running) rest, state.Past builder.nextValue rest next →
      needs state.frame → needs next.frame) :
    link.Computes code builder final (fun frame => slot.Aims ty builder frame target ∧ needs frame)
      (meaning target.ty) fun frame result => slot.Aims ty final frame target ∧ needs frame ∧
        holds frame result := by
  have kept : link.Computes code builder final
      (fun frame => slot.Aims ty builder frame target ∧ needs frame)
      (meaning ty) _ :=
    computes.keep (fun _ held => held.2) fun _ _ _ past held =>
      ⟨held.1.past past, stable _ _ _ past held.2⟩
  have same : link.Computes code builder final
      (fun frame => slot.Aims ty builder frame target ∧ needs frame)
      (meaning target.ty) _ :=
    kept.congr_of_needs fun scopes _ _ held => by rw [held.1.ty_eq]
  exact same.mono (fun _ held => held) fun _ _ held =>
    ⟨held.1.1.emits computes.emits, held.1.2, held.2⟩

def assigned (around : Surroundings) (call : Surroundings.Calls) (scopes : Scopes)
    (written : Place) (op : AssignOp) (source : Expression) : Meaning (Target × Nat) := do
  let target ← around.target call scopes written
  match op.binaryOp? with
  | none =>
    let result ← around.value call scopes source (some target.ty)
    return (target, result)
  | some operator =>
    let before ← target.read scopes
    let operand ← around.value call scopes source (some target.ty)
    let result ← Meaning.operate operator target.ty before operand
    return (target, result)

theorem assign_eq (around : Surroundings) (call : Surroundings.Calls) (scopes : Scopes)
    (written : Place) (op : AssignOp) (source : Expression) :
    around.assign call scopes written op source =
      assigned around call scopes written op source >>= fun aimed =>
        aimed.1.write scopes aimed.2 := by
  unfold Surroundings.assign assigned
  cases op.binaryOp? with
  | none => simp only [bind_assoc, pure_bind]
  | some operator => simp only [bind_assoc, pure_bind]

open Build in
/-- The code of an assignment up to where it writes. -/
theorem computes_assigned {builder final : Builder} {written : Place} {op : AssignOp}
    {source : Expression} {span : Span} (scope : builder.scope = link.scope)
    (built : assignment written op source span builder = .ok () final) :
    ∃ slot ty id last code, final = last.emit (Slot.store slot id) span ∧
      link.Computes code builder last (fun _ => True)
        (fun scopes => assigned link.around link.call scopes written op source)
        fun frame aimed => slot.Aims ty last frame aimed.1 ∧ frame.Holds id aimed.2 := by
  simp only [assignment, bind_eq_ok] at built
  obtain ⟨⟨slot, ty⟩, middle, first, built⟩ := built
  obtain ⟨code, targets⟩ := computes_slotOf scope first
  have middleScope := targets.scope.trans scope
  cases operation : op.binaryOp? with
  | none =>
    simp only [operation, bind_eq_ok, emit_eq_ok] at built
    obtain ⟨id, last, second, rfl⟩ := built
    obtain ⟨_, more, computes⟩ := computes_typed middleScope second
    have values (target : Target) :
      link.Computes more middle last (fun frame => slot.Aims ty middle frame target)
        (fun scopes => link.around.value link.call scopes source (some target.ty))
        (fun frame result => slot.Aims ty last frame target ∧ frame.Holds id result) :=
      (computes.keepTarget (fun ty scopes => link.around.value link.call scopes source (some ty))
        slot target fun _ _ _ _ _ => trivial).mono (fun _ aims => ⟨aims, trivial⟩) fun _ _ held =>
        ⟨held.1, held.2.2⟩
    have whole : link.Computes _ builder last (fun _ => True) _
        (fun frame (aimed : Target × Nat) => slot.Aims ty last frame aimed.1 ∧
          frame.Holds id aimed.2) :=
      targets.bind fun target => (values target).bind fun result =>
        Computes.give last (target, result) fun frame held => held
    exact ⟨slot, ty, id, last, _, rfl,
      whole.congr fun scopes cells _ => by simp only [assigned, operation]⟩
  | some operator =>
    simp only [operation, ite_eq_ok, fail_eq_ok, and_false, or_false, bind_eq_ok, fresh_eq_ok,
      emit_eq_ok] at built
    obtain ⟨_, _, _, ⟨rfl, rfl⟩, _, _, rfl, operand, last, second, _, _, ⟨rfl, rfl⟩, _, _, rfl,
      rfl⟩ := built
    let loaded : Builder := { middle with nextValue := middle.nextValue + 1 }.emit
      (slot.load middle.nextValue) span
    let computed : Builder := { last with nextValue := last.nextValue + 1 }.emit
      (.binary last.nextValue operator ty middle.nextValue operand) span
    have small : middle.nextValue < loaded.nextValue := Nat.lt_succ_self _
    have loadedScope : loaded.scope = link.scope := middleScope
    obtain ⟨known, more, computes⟩ := computes_typed loadedScope second
    have loads (target : Target) :
      link.Computes _ middle loaded (fun frame => slot.Aims ty middle frame target)
        (fun scopes => target.read scopes)
        (fun frame before => slot.Aims ty loaded frame target ∧
          frame.Holds middle.nextValue before) :=
      ((computes_load middle span slot ty target).keep (fun _ aims => aims)
        fun _ _ _ past aims => aims.past past).mono (fun _ aims => aims) fun _ _ held =>
        ⟨held.1.emits (.define _ _ _), held.2⟩
    have operands (before : Nat) :
      link.Computes more loaded last (fun frame => frame.Holds middle.nextValue before)
        (fun scopes => link.around.value link.call scopes source (some ty)) fun frame value =>
        frame.Holds operand value :=
      computes.mono (fun _ _ => trivial) fun _ _ held => held
    have values (target : Target) (before : Nat) := (operands before).keepTarget
      (fun ty scopes => link.around.value link.call scopes source (some ty)) slot target
      fun _ _ _ past held => past.holds small held
    have operates (before value : Nat) : link.Computes _ last computed
        (fun frame => frame.Holds middle.nextValue before ∧ frame.Holds operand value)
        (fun _ => Meaning.operate operator ty before value) _ :=
      computes_binary last span operator ty middle.nextValue operand before value fun _ held => held
    have results (target : Target) (before value : Nat) : link.Computes _ last computed
        (fun frame => slot.Aims ty last frame target ∧ frame.Holds middle.nextValue before ∧
          frame.Holds operand value)
        (fun _ => Meaning.operate operator target.ty before value)
        (fun frame result => slot.Aims ty computed frame target ∧
          frame.Holds last.nextValue result) :=
      ((operates before value).keepTarget (fun ty _ => Meaning.operate operator ty before value)
        slot target fun _ _ _ past held =>
        ⟨past.holds (Nat.lt_of_lt_of_le small computes.emits.fresh) held.1,
          past.holds known held.2⟩).mono (fun _ held => held) fun _ _ held => ⟨held.1, held.2.2⟩
    have whole : link.Computes _ builder computed (fun _ => True) _
        (fun frame (aimed : Target × Nat) => slot.Aims ty computed frame aimed.1 ∧
          frame.Holds last.nextValue aimed.2) :=
      targets.bind fun target => (loads target).bind fun before => (values target before).bind
        fun value =>
        (results target before value).bind fun result => Computes.give computed (target, result)
          fun frame held => held
    exact ⟨slot, ty, last.nextValue, computed, _, rfl,
      whole.congr fun scopes cells _ => by simp only [assigned, operation]⟩

/-- Writing to a target is what an assignment ends with. -/
theorem compiles_assignment (written : Place) (op : AssignOp) (source : Expression) (span : Span) :
    link.Compiles function returns (Build.assignment written op source span)
      fun scopes => link.around.assign link.call scopes written op source where
  grows := by
    intro builder final scope running built
    obtain ⟨slot, ty, id, last, code, rfl, computes⟩ := computes_assigned scope built
    exact (computes.emits.trans (.emit last _ span)).grows running _
  follows := by
    intro builder final scopes world callers state scope _ running built embeds _ stands
    obtain ⟨slot, ty, id, last, code, rfl, computes⟩ := computes_assigned scope built
    have lastOpen := computes.emits.isOpen running
    have finalOpen := (Builder.Emits.emit last (slot.store id) span).isOpen lastOpen
    have inner : function.Embeds last :=
      ((Builder.Emits.emit last (slot.store id) span).grows lastOpen 0).embeds embeds
    rw [assign_eq]
    refine (stands.computes computes trivial running inner).bind ?_
    rintro ⟨target, value⟩ changed next ⟨arrived, aims, held⟩
    cases target with
    | var name heldTy =>
      obtain ⟨_, index, rfl, found⟩ := aims
      obtain ⟨var, _, ⟨entry, declared, _⟩, _⟩ := arrived.kept.findSlot found
      have room : index < function.locals.length :=
        Nat.lt_of_lt_of_le (List.getElem?_eq_some_iff.mp declared).1 inner.locals.length_le
      have kept (cell : Cell) (same : cell.value = value) : (scopes.set name value).KeptIn
          (last.emit (Slot.store (.slot index) id) span) (next.frame.locals.set index cell) := by
        subst same
        exact (arrived.kept.set found cell).outer rfl (List.prefix_refl _)
      obtain ⟨after, leads, there⟩ := arrived.storeLocal lastOpen held span
        (last.emit (Slot.store (.slot index) id) span) rfl rfl embeds room kept
      exact .of_reaches leads.reaches (.give ⟨finalOpen, there⟩)
    | place spot heldTy =>
      obtain ⟨_, key, rfl, placed, _⟩ := aims
      have storing : link.Computes _ last (last.emit (Slot.store (.field spot.field key) id) span)
          (fun frame => frame.place spot.field key = .ok spot ∧ frame.Holds id value)
          (fun _ => Meaning.store spot value) fun _ _ => True :=
        computes_storeField last span spot.field key id spot.key value (fun _ held => held)
          fun frame rest held => by
          refine ⟨?_, held.2⟩
          cases key <;> exact held.1
      refine (arrived.computes storing ⟨placed, held⟩ lastOpen embeds).bind ?_
      rintro _ changed next ⟨there, _⟩
      exact .give ⟨finalOpen, there⟩

end Link

end Covenant
