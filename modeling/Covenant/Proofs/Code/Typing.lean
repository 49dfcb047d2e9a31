import Covenant.Lowering.Builder
import Covenant.Proofs.Code.Flow
import Covenant.Proofs.Lowering.Names
import Mathlib.Data.List.Forall2

/-!
Types of code. Every value of a function has one type and one definition, and is used only behind
its definition in the same block; all instructions agree on types with each other and with the
declarations of the contract.
-/

namespace Covenant

/-- What the code of a contract may refer to: fields, functions whether or not they could be
lowered, and events. -/
structure Declarations where
  field? : String → Option Ty
  signature? : String → Option Signature
  event? : String → Option (List Ty)

structure Declarations.Extends (declared more : Declarations) : Prop where
  field? : more.field? = declared.field?
  signature? : more.signature? = declared.signature?
  event? : ∀ name shape, declared.event? name = some shape → more.event? name = some shape

theorem Declarations.Extends.refl (declared : Declarations) : declared.Extends declared :=
  ⟨rfl, rfl, fun _ _ known => known⟩

inductive Ty.KeyedBy (types : List Ty) : Ty → Option ValueId → Prop
  | scalar {ty : Ty} : ty.isMap = false → KeyedBy types ty none
  | entry {key value : Ty} {id : ValueId} : types[id]? = some key →
      KeyedBy types (.map key value) (some id)

abbrev ListTyped (types : List Ty) (values : List ValueId) (expected : List Ty) : Prop :=
  List.Forall₂ (fun value ty => types[value]? = some ty) values expected

/-- Whether an instruction agrees with the declarations of its contract, the local variables and the
types of values. -/
inductive Instruction.Typed (declared : Declarations) (locals : List LocalVar) (types : List Ty) :
    Instruction → Prop
  | const {dest value ty} : types[dest]? = some ty → value < ty.bound →
      Typed declared locals types (.const dest value ty)
  | env {dest var} : types[dest]? = some (Ty.ofEnv var) →
      Typed declared locals types (.env dest var)
  | loadLocal {dest slot entry} : locals[slot]? = some entry → types[dest]? = some entry.ty →
      Typed declared locals types (.loadLocal dest slot)
  | storeLocal {slot value entry} : locals[slot]? = some entry → types[value]? = some entry.ty →
      Typed declared locals types (.storeLocal slot value)
  | loadField {dest field key ty} : declared.field? field = some ty → ty.KeyedBy types key →
      types[dest]? = some ty.content → Typed declared locals types (.loadField dest field key)
  | storeField {field key value ty} : declared.field? field = some ty → ty.KeyedBy types key →
      types[value]? = some ty.content → Typed declared locals types (.storeField field key value)
  | arithmetic {dest op width lhs rhs} : op.isArithmetic = true → types[lhs]? = some (.uint width) →
      types[rhs]? = some (.uint width) → types[dest]? = some (.uint width) →
      Typed declared locals types (.binary dest op (.uint width) lhs rhs)
  | relation {dest op ty lhs rhs} : op.isArithmetic = false → types[lhs]? = some ty →
      types[rhs]? = some ty →
      types[dest]? = some .bool → Typed declared locals types (.binary dest op ty lhs rhs)
  | not {dest operand} : types[operand]? = some .bool → types[dest]? = some .bool →
      Typed declared locals types (.not dest operand)
  | call {dest name args signature} : declared.signature? name = some signature →
      ListTyped types args signature.params →
      (∀ id : ValueId, dest = some id → ∃ ty, signature.returns = some ty ∧ types[id]? = some ty) →
      Typed declared locals types (.call dest name args)
  | externalCall {dest kind target amount} : types[target]? = some .address →
      types[amount]? = some .defaultInteger →
      types[dest]? = some .bool →
      Typed declared locals types (.externalCall dest kind target amount)
  | emit {event args shape} : declared.event? event = some shape → ListTyped types args shape →
      Typed declared locals types (.emit event args)

/-- Whether the end of a block agrees with the type that the function returns and with the types of
values. -/
inductive Terminator.Typed (returns : Option Ty) (types : List Ty) : Terminator → Prop
  | jump (target) : Typed returns types (.jump target)
  | branch {condition thenBlock elseBlock} : types[condition]? = some .bool →
      Typed returns types (.branch condition thenBlock elseBlock)
  | guard {condition kind message next} : types[condition]? = some .bool →
      Typed returns types (.guard condition kind message next)
  | retNothing : returns = none → Typed returns types (.ret none)
  | retValue {value ty} : returns = some ty → types[value]? = some ty →
      Typed returns types (.ret (some value))
  | revert (message) : Typed returns types (.revert message)

def definedBy (instructions : List (Located Instruction)) : List ValueId :=
  instructions.filterMap fun instruction => instruction.node.dest?

def ReadsEarlier (instructions : List (Located Instruction)) : Prop :=
  ∀ (index : Nat) (instruction : Located Instruction), instructions[index]? = some instruction →
    ∀ value ∈ instruction.node.operands, value ∈ definedBy (instructions.take index)

structure Terminator.Stands (count : Nat) (defined : List ValueId) (terminator : Terminator) :
    Prop where
  successors : ∀ target ∈ terminator.successors, target < count
  reads : ∀ value : ValueId, terminator.operand? = some value → value ∈ defined

theorem getElem?_of_longer {α : Type} {items more : List α} {index : Nat} {item : α}
    (longer : items <+: more) (found : items[index]? = some item) : more[index]? = some item := by
  obtain ⟨inside, same⟩ := List.getElem?_eq_some_iff.mp found
  rw [List.prefix_iff_getElem?.mp longer index inside, same]

section Growth

variable {declared more : Declarations} {locals moreLocals : List LocalVar}
  {types moreTypes : List Ty}

theorem Ty.KeyedBy.mono {ty : Ty} {key : Option ValueId} (keyed : ty.KeyedBy types key)
    (longer : types <+: moreTypes) :
    ty.KeyedBy moreTypes key := by
  cases keyed with
  | scalar plain => exact .scalar plain
  | entry found => exact .entry (getElem?_of_longer longer found)

theorem Ty.KeyedBy.isSome_eq {ty : Ty} {key : Option ValueId} (keyed : ty.KeyedBy types key) :
    key.isSome = ty.isMap := by
  cases keyed with
  | scalar plain => rw [plain]; rfl
  | entry found => rfl

theorem ListTyped.mono {values : List ValueId} {expected : List Ty}
    (typed : ListTyped types values expected) (longer : types <+: moreTypes) :
    ListTyped moreTypes values expected :=
  typed.imp fun _ _ found => getElem?_of_longer longer found

theorem Instruction.Typed.mono {instruction : Instruction}
    (typed : instruction.Typed declared locals types) (wider : declared.Extends more)
    (longerLocals : locals <+: moreLocals) (longer : types <+: moreTypes) :
    instruction.Typed more moreLocals moreTypes := by
  have keep {id : ValueId} {ty : Ty} (found : types[id]? = some ty) : moreTypes[id]? = some ty :=
    getElem?_of_longer longer found
  cases typed with
  | const dest small => exact .const (keep dest) small
  | env dest => exact .env (keep dest)
  | loadLocal found dest => exact .loadLocal (getElem?_of_longer longerLocals found) (keep dest)
  | storeLocal found value => exact .storeLocal (getElem?_of_longer longerLocals found) (keep value)
  | loadField field key dest =>
    exact .loadField (wider.field? ▸ field) (key.mono longer) (keep dest)
  | storeField field key value =>
    exact .storeField (wider.field? ▸ field) (key.mono longer) (keep value)
  | arithmetic op lhs rhs dest => exact .arithmetic op (keep lhs) (keep rhs) (keep dest)
  | relation op lhs rhs dest => exact .relation op (keep lhs) (keep rhs) (keep dest)
  | not operand dest => exact .not (keep operand) (keep dest)
  | call known args dest =>
    refine .call (wider.signature? ▸ known) (ListTyped.mono args longer) fun id same => ?_
    obtain ⟨ty, returns, found⟩ := dest id same
    exact ⟨ty, returns, keep found⟩
  | externalCall target amount dest => exact .externalCall (keep target) (keep amount) (keep dest)
  | emit known args => exact .emit (wider.event? _ _ known) (ListTyped.mono args longer)

theorem Terminator.Typed.mono {returns : Option Ty} {terminator : Terminator}
    (typed : terminator.Typed returns types) (longer : types <+: moreTypes) :
    terminator.Typed returns moreTypes := by
  cases typed with
  | jump target => exact .jump target
  | branch condition => exact .branch (getElem?_of_longer longer condition)
  | guard condition => exact .guard (getElem?_of_longer longer condition)
  | retNothing none => exact .retNothing none
  | retValue known value => exact .retValue known (getElem?_of_longer longer value)
  | revert message => exact .revert message

theorem Terminator.Stands.mono {count room : Nat} {defined later : List ValueId}
    {terminator : Terminator} (stands : terminator.Stands count defined) (more : count ≤ room)
    (kept : ∀ value ∈ defined, value ∈ later) :
    terminator.Stands room later :=
  ⟨fun target leads => Nat.lt_of_lt_of_le (stands.successors target leads) more,
    fun value used => kept value (stands.reads value used)⟩

theorem Instruction.Typed.dest_lt {instruction : Instruction}
    (typed : instruction.Typed declared locals types) {dest : ValueId}
    (defines : instruction.dest? = some dest) : dest < types.length := by
  have inside {id : ValueId} {ty : Ty} (found : types[id]? = some ty) : id < types.length :=
    (List.getElem?_eq_some_iff.mp found).1
  cases typed with
  | const found => exact Option.some.inj defines ▸ inside found
  | env found => exact Option.some.inj defines ▸ inside found
  | loadLocal _ found => exact Option.some.inj defines ▸ inside found
  | storeLocal => simp [Instruction.dest?] at defines
  | loadField _ _ found => exact Option.some.inj defines ▸ inside found
  | storeField => simp [Instruction.dest?] at defines
  | arithmetic _ _ _ found => exact Option.some.inj defines ▸ inside found
  | relation _ _ _ found => exact Option.some.inj defines ▸ inside found
  | not _ found => exact Option.some.inj defines ▸ inside found
  | call _ _ found =>
    obtain ⟨_, _, there⟩ := found dest defines
    exact inside there
  | externalCall _ _ found => exact Option.some.inj defines ▸ inside found
  | emit => simp [Instruction.dest?] at defines

end Growth

/-! Sequences of instructions. -/

theorem definedBy_append (first second : List (Located Instruction)) :
    definedBy (first ++ second) = definedBy first ++ definedBy second := List.filterMap_append

theorem ReadsEarlier.nil : ReadsEarlier [] := by
  intro index instruction found
  simp at found

theorem ReadsEarlier.snoc {instructions : List (Located Instruction)}
    (earlier : ReadsEarlier instructions) {last : Located Instruction}
    (reads : ∀ value ∈ last.node.operands, value ∈ definedBy instructions) :
    ReadsEarlier (instructions ++ [last]) := by
  intro index instruction found value used
  by_cases inside : index < instructions.length
  · rw [List.getElem?_append_left inside] at found
    rw [List.take_append_of_le_length (Nat.le_of_lt inside)]
    exact earlier index instruction found value used
  · have behind := (List.getElem?_eq_some_iff.mp found).1
    obtain rfl : index = instructions.length := by
      simp only [List.length_append, List.length_singleton] at behind
      omega
    rw [List.getElem?_append_right (Nat.le_refl _), Nat.sub_self] at found
    obtain rfl := Option.some.inj found
    rw [List.take_left' rfl]
    exact reads value used

structure Function.Typed (declared : Declarations) (function : Function) (types : List Ty) :
    Prop where
  entry : function.entry = 0 ∧ 0 < function.blocks.length
  ids : ∀ (id : BlockId) (block : BasicBlock), function.block? id = some block → block.id = id
  instructions : ∀ block ∈ function.blocks, ∀ instruction ∈ block.instructions,
    instruction.node.Typed declared function.locals types
  reads : ∀ block ∈ function.blocks, ReadsEarlier block.instructions
  stands : ∀ block ∈ function.blocks,
    block.terminator.node.Stands function.blocks.length (definedBy block.instructions)
  ends : ∀ (id : BlockId) (block : BasicBlock), function.Reaches id → function.block? id =
    some block →
    block.terminator.node.Typed function.returns types
  once : (function.blocks.flatMap fun block => definedBy block.instructions).Nodup
  params : (function.params.map fun param => LocalVar.mk param.1 param.2) <+: function.locals

theorem Function.Typed.mono {declared more : Declarations} {function : Function} {types : List Ty}
    (typed : function.Typed declared types) (wider : declared.Extends more) :
    function.Typed more types :=
  { typed with
    instructions := fun block member instruction listed =>
      (typed.instructions block member instruction listed).mono wider (List.prefix_refl _)
        (List.prefix_refl _) }

theorem Function.Typed.mem_reversePostorder {declared : Declarations} {function : Function}
    {types : List Ty} (typed : function.Typed declared types) {id : BlockId}
    (reaches : function.Reaches id) :
    id ∈ (FlowGraph.ofFunction function).reversePostorder := by
  have reachable := reaches.isReachable (typed.entry.1 ▸ typed.entry.2) fun block member =>
    (typed.stands block member).successors
  simpa [FlowGraph.isReachable] using reachable

namespace Contract

def eventTypes? (contract : Contract) (name : String) : Option (List Ty) :=
  (contract.events.find? fun event => event.name == name).map fun event => event.params.map Prod.snd

/-- Whether all code of a contract has types, and its declarations are those that the code was typed
with. -/
structure Typed (contract : Contract) (declared : Declarations) : Prop where
  formed : contract.WellFormed
  fields : ∀ name, declared.field? name = (contract.field? name).map Field.ty
  events : ∀ name, declared.event? name = contract.eventTypes? name
  signatures : ∀ name signature callee, declared.signature? name = some signature →
    contract.function? name = some callee → signature = ⟨callee.params.map Prod.snd, callee.returns⟩
  functions : ∀ function ∈ contract.functions, ∃ types, function.Typed declared types

end Contract

end Covenant
