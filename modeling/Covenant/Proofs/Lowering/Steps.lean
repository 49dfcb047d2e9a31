import Covenant.Lowering.Contract

/-!
When a step of building a function succeeds, and what it leaves behind. Each lemma turns a step that
is known to have succeeded into the steps that it is made of.
-/

namespace Covenant

namespace Builder

def withBlock (builder : Builder) : Builder :=
  { builder with blocks := builder.blocks ++ [OpenBlock.mk [] none] }

def moveTo (builder : Builder) (block : BlockId) : Builder := { builder with current := block }

end Builder

namespace Build

section Rules

variable {α β : Type} {builder final : Builder}

theorem bind_eq_ok {step : Build α} {next : α → Build β} {result : β} :
    (step >>= next) builder = .ok result final ↔
      ∃ value middle, step builder = .ok value middle ∧ next value middle = .ok result final := by
  constructor
  · intro built
    simp only [bind, EStateM.bind] at built
    cases stepped : step builder with
    | ok value middle =>
      rw [stepped] at built
      exact ⟨value, middle, rfl, built⟩
    | error problem middle =>
      rw [stepped] at built
      simp at built
  · rintro ⟨value, middle, stepped, built⟩
    simp only [bind, EStateM.bind, stepped]
    exact built

theorem pure_eq_ok {value result : α} :
    (pure value : Build α) builder = .ok result final ↔ value = result ∧ builder = final := by
  simp only [pure, EStateM.pure, EStateM.Result.ok.injEq]

theorem get_eq_ok {result : Builder} :
    (get : Build Builder) builder = .ok result final ↔ builder = result ∧ builder = final := by
  change EStateM.Result.ok builder builder = .ok result final ↔ _
  simp only [EStateM.Result.ok.injEq]

theorem set_eq_ok {other : Builder} {result : PUnit} :
    (set other : Build PUnit) builder = .ok result final ↔ other = final := by
  change EStateM.Result.ok PUnit.unit other = .ok result final ↔ _
  simp only [EStateM.Result.ok.injEq, true_and]

theorem modify_eq_ok {change : Builder → Builder} {result : PUnit} :
    (modify change : Build PUnit) builder = .ok result final ↔ change builder = final := by
  change EStateM.Result.ok PUnit.unit (change builder) = .ok result final ↔ _
  simp only [EStateM.Result.ok.injEq, true_and]

theorem map_eq_ok {step : Build α} {change : α → β} {result : β} :
    (change <$> step) builder = .ok result final ↔
      ∃ value, step builder = .ok value final ∧ change value = result := by
  simp only [Functor.map, EStateM.map]
  cases step builder with
  | ok value middle =>
    simp only [EStateM.Result.ok.injEq]
    constructor
    · rintro ⟨same, rfl⟩
      exact ⟨value, ⟨rfl, rfl⟩, same⟩
    · rintro ⟨other, ⟨rfl, rfl⟩, same⟩
      exact ⟨same, rfl⟩
  | error problem middle => simp

theorem fail_eq_ok {cause : SemanticCause} {span : Span} {result : α} :
    (fail cause span : Build α) builder = .ok result final ↔ False := by
  change EStateM.Result.error _ builder = .ok result final ↔ False
  simp

theorem ite_eq_ok {condition : Prop} [Decidable condition] {first second : Build α} {result : α} :
    (if condition then first else second) builder = .ok result final ↔
      (condition ∧ first builder = .ok result final) ∨
      (¬ condition ∧ second builder = .ok result final) := by
  split <;> simp_all

end Rules

variable {builder final : Builder}

theorem emit_eq_ok {instruction : Instruction} {span : Span} {result : Unit} :
    emit instruction span builder = .ok result final ↔ builder.emit instruction span = final :=
  modify_eq_ok

theorem terminate_eq_ok {terminator : Terminator} {span : Span} {result : Unit} :
    terminate terminator span builder = .ok result final ↔
      builder.terminate terminator span = final :=
  modify_eq_ok

theorem switchTo_eq_ok {block : BlockId} {result : Unit} :
    switchTo block builder = .ok result final ↔ builder.moveTo block = final :=
  modify_eq_ok

theorem fresh_eq_ok {value : ValueId} :
    fresh builder = .ok value final ↔
      builder.nextValue = value ∧ { builder with nextValue := builder.nextValue + 1 } = final := by
  simp only [fresh, bind_eq_ok, get_eq_ok, set_eq_ok, pure_eq_ok]
  constructor
  · rintro ⟨_, _, ⟨rfl, rfl⟩, _, _, rfl, rfl, rfl⟩
    exact ⟨rfl, rfl⟩
  · rintro ⟨rfl, rfl⟩
    exact ⟨_, _, ⟨rfl, rfl⟩, ⟨⟩, _, rfl, rfl, rfl⟩

theorem newBlock_eq_ok {block : BlockId} :
    newBlock builder = .ok block final ↔
      builder.blocks.length = block ∧ builder.withBlock = final := by
  simp only [newBlock, bind_eq_ok, get_eq_ok, set_eq_ok, pure_eq_ok]
  constructor
  · rintro ⟨_, _, ⟨rfl, rfl⟩, _, _, rfl, rfl, rfl⟩
    exact ⟨rfl, rfl⟩
  · rintro ⟨rfl, rfl⟩
    exact ⟨_, _, ⟨rfl, rfl⟩, ⟨⟩, _, rfl, rfl, rfl⟩

theorem localNamed_eq_ok {name : Ident} {slot : LocalId} :
    localNamed name builder = .ok slot final ↔ builder.find? name.name = some slot ∧
      builder = final := by
  simp only [localNamed, bind_eq_ok, get_eq_ok]
  constructor
  · rintro ⟨_, _, ⟨rfl, rfl⟩, built⟩
    cases found : builder.find? name.name with
    | none => simp [found, fail_eq_ok] at built
    | some other =>
      simp only [found, pure_eq_ok] at built
      exact ⟨by rw [built.1], built.2⟩
  · rintro ⟨found, rfl⟩
    exact ⟨_, _, ⟨rfl, rfl⟩, by simp [found, pure_eq_ok]⟩

theorem declare_eq_ok {name : Ident} {ty : Ty} {slot : LocalId} :
    declare name ty builder = .ok slot final ↔
      builder.find? name.name = none ∧ builder.locals.length = slot ∧
        builder.addLocal name.name ty = final := by
  simp only [declare, bind_eq_ok, get_eq_ok]
  constructor
  · rintro ⟨_, _, ⟨rfl, rfl⟩, built⟩
    cases found : builder.find? name.name with
    | some other => simp [found, fail_eq_ok] at built
    | none =>
      simp only [found, Option.isSome_none, Bool.false_eq_true, if_false, bind_eq_ok, set_eq_ok,
        pure_eq_ok] at built
      obtain ⟨_, _, rfl, rfl, rfl⟩ := built
      exact ⟨rfl, rfl, rfl⟩
  · rintro ⟨found, rfl, rfl⟩
    refine ⟨_, _, ⟨rfl, rfl⟩, ?_⟩
    simp only [found, Option.isSome_none, Bool.false_eq_true, if_false, bind_eq_ok,
      set_eq_ok, pure_eq_ok]
    exact ⟨⟨⟩, _, rfl, trivial, rfl⟩

theorem fieldType_eq_ok {field : Ident} {ty : Ty} :
    fieldType field builder = .ok ty final ↔ builder.scope.field? field.name = some ty ∧
      builder = final := by
  simp only [fieldType, bind_eq_ok, get_eq_ok]
  constructor
  · rintro ⟨_, _, ⟨rfl, rfl⟩, built⟩
    cases found : builder.scope.field? field.name with
    | none => simp [found, fail_eq_ok] at built
    | some other =>
      simp only [found, pure_eq_ok] at built
      exact ⟨by rw [built.1], built.2⟩
  · rintro ⟨found, rfl⟩
    exact ⟨_, _, ⟨rfl, rfl⟩, by simp [found, pure_eq_ok]⟩

theorem scalarType_eq_ok {field : Ident} {ty : Ty} :
    scalarType field builder = .ok ty final ↔
      builder.scope.field? field.name = some ty ∧ ty.isMap = false ∧ builder = final := by
  simp only [scalarType, bind_eq_ok, fieldType_eq_ok, ite_eq_ok, fail_eq_ok, pure_eq_ok]
  constructor
  · rintro ⟨_, _, ⟨found, rfl⟩, ⟨_, ⟨⟩⟩ | ⟨scalar, rfl, rfl⟩⟩
    exact ⟨found, by simpa using scalar, rfl⟩
  · rintro ⟨found, scalar, rfl⟩
    exact ⟨ty, builder, ⟨found, rfl⟩, .inr ⟨by simp [scalar], rfl, rfl⟩⟩

theorem entryTypes_eq_ok {field : Ident} {types : Ty × Ty} :
    entryTypes field builder = .ok types final ↔
      builder.scope.field? field.name = some (.map types.1 types.2) ∧ builder = final := by
  simp only [entryTypes, bind_eq_ok, fieldType_eq_ok]
  constructor
  · rintro ⟨ty, _, ⟨found, rfl⟩, built⟩
    cases ty with
    | map key value =>
      simp only [pure_eq_ok] at built
      obtain ⟨rfl, rfl⟩ := built
      exact ⟨found, rfl⟩
    | _ => simp [fail_eq_ok] at built
  · rintro ⟨found, rfl⟩
    exact ⟨_, _, ⟨found, rfl⟩, by simp [pure_eq_ok]⟩

theorem withType_eq_ok {expected : Ty} {span : Span} {value : Build (ValueId × Ty)}
    {result : ValueId} :
    withType expected span value builder = .ok result final ↔
      value builder = .ok (result, expected) final := by
  simp only [withType, bind_eq_ok, ite_eq_ok, fail_eq_ok, pure_eq_ok, beq_iff_eq]
  constructor
  · rintro ⟨⟨id, ty⟩, _, built, ⟨rfl, rfl, rfl⟩ | ⟨_, ⟨⟩⟩⟩
    exact built
  · intro built
    exact ⟨_, _, built, .inl ⟨rfl, rfl, rfl⟩⟩

theorem booleanOperand_eq_ok {operator : String} {span : Span} {value : Build (ValueId × Ty)}
    {result : ValueId} :
    booleanOperand operator span value builder = .ok result final ↔
      value builder = .ok (result, .bool) final := by
  simp only [booleanOperand, bind_eq_ok, ite_eq_ok, fail_eq_ok, pure_eq_ok, beq_iff_eq]
  constructor
  · rintro ⟨⟨id, ty⟩, _, built, ⟨rfl, rfl, rfl⟩ | ⟨_, ⟨⟩⟩⟩
    exact built
  · intro built
    exact ⟨_, _, built, .inl ⟨rfl, rfl, rfl⟩⟩

end Build

end Covenant
