import Covenant.Proofs.Code.Typing
import Covenant.Proofs.Run.Operators
import Covenant.Proofs.Run.Storage

/-!
Running code keeps to its types. Code that has types never lacks a value, a block or a local
variable that it needs; and if what a run is given fits the types that are declared for it, so does
all that it computes.
-/

namespace Covenant

def Action.Fits (contract : Contract) (function : String) : Action → Prop
  | .setLocal name value =>
    ∃ owner entry, contract.function? function = some owner ∧ entry ∈ owner.locals ∧
      entry.name = name ∧ value ≤ entry.ty.maxValue
  | .setStorage place value => Storage.Admits contract place value
  | .externalCall _ target amount _ =>
    target ≤ Ty.address.maxValue ∧ amount ≤ Ty.defaultInteger.maxValue
  | .ret (some value) =>
    ∃ owner ty, contract.function? function = some owner ∧ owner.returns = some ty ∧
      value ≤ ty.maxValue
  | _ => True

def EmittedEvent.Fits (contract : Contract) (event : EmittedEvent) : Prop :=
  ∃ shape, contract.eventTypes? event.name = some shape ∧
    List.Forall₂ (fun ty arg => arg ≤ ty.maxValue) shape event.args

def ExternalCallRecord.Fits (call : ExternalCallRecord) : Prop :=
  call.target ≤ Ty.address.maxValue ∧ call.amount ≤ Ty.defaultInteger.maxValue

structure Effects.Fits (contract : Contract) (effects : Effects) : Prop where
  storage : effects.storage.Fits contract
  trace : ∀ step ∈ effects.trace, step.action.Fits contract step.function
  events : ∀ event ∈ effects.events, event.Fits contract
  stores : ∀ record ∈ effects.stores, Storage.Admits contract record.place record.value
  calls : ∀ call ∈ effects.calls, call.Fits

/-- Whether a frame stands in a function of a contract and has all values that its block has defined
so far, apart from the one that it awaits. Values fit their types if what the run is given does. -/
structure Frame.Typed (given : Prop) (contract : Contract) (declared : Declarations)
    (types : List Ty) (awaited : Option ValueId) (frame : Frame) : Prop where
  member : frame.function ∈ contract.functions
  function : frame.function.Typed declared types
  block : frame.function.block? frame.block.id = some frame.block
  reached : frame.function.Reaches frame.block.id
  place : ∃ done, frame.block.instructions = done ++ frame.pending ∧
    ∀ value ∈ definedBy done, some value ≠ awaited → ∃ cell, frame.values.lookup value = some cell
  values : ∀ entry ∈ frame.values, ∀ ty, types[entry.1]? = some ty → given →
    entry.2.value < ty.bound
  locals : List.Forall₂ (fun entry cell => given → cell.value < entry.ty.bound)
    frame.function.locals frame.locals

abbrev ResultTyped (given : Prop) (returns : Option Ty) (value : Option Cell) : Prop :=
  Option.Rel (fun ty cell => given → cell.value < ty.bound) returns value

structure Caller.Typed (given : Prop) (contract : Contract) (declared : Declarations)
    (returns : Option Ty) (types : List Ty) (caller : Caller) : Prop where
  frame : caller.frame.Typed given contract declared types caller.dest
  dest : ∀ dest, caller.dest = some dest → ∃ ty, returns = some ty ∧ types[dest]? = some ty

def Caller.receive (caller : Caller) (value : Option Cell) : Frame :=
  match caller.dest with
  | some dest => caller.frame.define dest (value.getD (.clean 0))
  | none => caller.frame

def Caller.Waiting (given : Prop) (contract : Contract) (declared : Declarations)
    (result : Option Ty) :
    Option Ty → List Caller → Prop
  | returns, [] => returns = result
  | returns, caller :: callers =>
    (∃ types, caller.Typed given contract declared returns types) ∧
      Waiting given contract declared result caller.frame.function.returns callers

structure Running.Typed (given : Prop) (contract : Contract) (declared : Declarations)
    (result : Option Ty) (state : Running) : Prop where
  frame : ∃ types, state.frame.Typed given contract declared types none
  callers : Caller.Waiting given contract declared result state.frame.function.returns state.callers
  effects : given → state.effects.Fits contract

inductive Running.Ends (given : Prop) (contract : Contract) (declared : Declarations)
    (result : Option Ty) :
    Except ExecutionError (Ending × Effects) → Prop
  | returned {value effects} : ResultTyped given result value → (given → effects.Fits contract) →
      Ends given contract declared result (.ok (.returned value, effects))
  | reverted {message effects} : (given → effects.Fits contract) →
      Ends given contract declared result (.ok (.reverted message, effects))
  | outOfFuel (budget) : Ends given contract declared result (.error (.outOfFuel budget))
  | callDepthExceeded (limit) :
      Ends given contract declared result (.error (.callDepthExceeded limit))
  | unknownFunction {name signature} : declared.signature? name = some signature →
      contract.function? name = none →
      Ends given contract declared result (.error (.unknownFunction name))

inductive Running.Keeps (given : Prop) (contract : Contract) (declared : Declarations)
    (result : Option Ty) :
    Except ExecutionError Step → Prop
  | running {next} : Running.Typed given contract declared result next →
      Keeps given contract declared result (.ok (.running next))
  | ended {ending effects} : Ends given contract declared result (.ok (ending, effects)) →
      Keeps given contract declared result (.ok (.ended ending effects))
  | failed {problem} : Ends given contract declared result (.error problem) →
      Keeps given contract declared result (.error problem)

theorem Caller.Waiting.typed {given : Prop} {contract : Contract} {declared : Declarations}
    {result returns : Option Ty} {callers : List Caller}
    (waiting : Waiting given contract declared result returns callers) :
    ∀ caller ∈ callers, ∃ returns types, caller.Typed given contract declared returns types := by
  induction callers generalizing returns with
  | nil => simp
  | cons caller callers ih => exact List.forall_mem_cons.mpr ⟨⟨returns, waiting.1⟩, ih waiting.2⟩

/-! Effects. -/

section Effects

variable {contract : Contract} {declared : Declarations}

theorem Contract.Typed.content_fits (typed : contract.Typed declared) {storage : Storage}
    (fits : storage.Fits contract) {place : StorageKey} {ty : Ty}
    (known : declared.field? place.field = some ty) (keyed : place.key.isSome = ty.isMap) :
    storage.get place < ty.content.bound := by
  rw [typed.fields] at known
  obtain ⟨field, found, rfl⟩ := Option.map_eq_some_iff.mp known
  obtain ⟨member, named⟩ := Contract.mem_of_field? found
  have small := fits field member place.key keyed
  rw [named] at small
  exact Ty.le_maxValue_iff.mp small

theorem Contract.Typed.admits (typed : contract.Typed declared) {place : StorageKey} {ty : Ty}
    {value : Nat} (known : declared.field? place.field = some ty)
    (keyed : place.key.isSome = ty.isMap) (small : value < ty.content.bound) :
    Storage.Admits contract place value := by
  rw [typed.fields] at known
  obtain ⟨field, found, rfl⟩ := Option.map_eq_some_iff.mp known
  exact ⟨field, found, keyed, Ty.le_maxValue_iff.mpr small⟩

theorem Storage.Fits.put (formed : contract.WellFormed) {storage : Storage}
    (fits : storage.Fits contract) {place : StorageKey} {value : Nat}
    (admits : Storage.Admits contract place value) :
    (Storage.put place value storage).Fits contract := by
  intro field member key keyed
  by_cases same : ⟨field.name, key⟩ = place
  · subst same
    obtain ⟨found, there, _, small⟩ := admits
    rw [formed.field? member] at there
    rw [Storage.get_put_same, Option.some.inj there]
    exact small
  · rw [Storage.get_put_other same]
    exact fits field member key keyed

theorem Effects.Fits.record {effects : Effects} (fits : effects.Fits contract) {frame : Frame}
    {action : Action} (location : Location) (reports : action.Fits contract frame.function.name) :
    (effects.record frame location action).Fits contract :=
  { fits with trace := List.forall_mem_cons.mpr ⟨reports, fits.trace⟩ }

theorem Effects.Fits.store {effects : Effects} (formed : contract.WellFormed)
    (fits : effects.Fits contract) {place : StorageKey} {cell : Cell}
    (admits : Storage.Admits contract place cell.value) :
    (effects.store place cell).Fits contract :=
  { fits with
    storage := fits.storage.put formed admits
    stores := List.forall_mem_cons.mpr ⟨admits, fits.stores⟩ }

theorem Effects.fits_start {storage : Storage} (fits : storage.Fits contract) :
    (Effects.start storage).Fits contract :=
  ⟨fits, by simp [Effects.start], by simp [Effects.start], by simp [Effects.start], by
    simp [Effects.start]⟩

end Effects

/-! Frames. -/

section Frames

variable {given : Prop} {contract : Contract} {declared : Declarations} {types : List Ty}
  {awaited : Option ValueId} {frame : Frame} {next : Located Instruction}
  {rest : List (Located Instruction)}

namespace Frame.Typed

theorem instruction (typed : frame.Typed given contract declared types awaited)
    (pending : frame.pending = next :: rest) :
    next.node.Typed declared frame.function.locals types := by
  obtain ⟨done, split, _⟩ := typed.place
  have listed : next ∈ frame.block.instructions := by
    rw [split, pending]
    exact List.mem_append_right _ List.mem_cons_self
  exact typed.function.instructions frame.block (List.mem_of_getElem? typed.block) next listed

theorem held (typed : frame.Typed given contract declared types awaited) {value : ValueId}
    {cell : Cell} {ty : Ty} (found : frame.values.lookup value = some cell)
    (known : types[value]? = some ty) : given → cell.value < ty.bound :=
  typed.values (value, cell) (mem_of_lookup found) ty known

theorem operand (typed : frame.Typed given contract declared types none)
    (pending : frame.pending = next :: rest) {value : ValueId} (used : value ∈ next.node.operands)
    {ty : Ty} (known : types[value]? = some ty) :
    ∃ cell, Frame.get? { frame with pending := rest } value = .ok cell ∧
      (given → cell.value < ty.bound) := by
  obtain ⟨done, split, available⟩ := typed.place
  have here : frame.block.instructions[done.length]? = some next := by
    rw [split, pending, List.getElem?_append_right (Nat.le_refl _), Nat.sub_self]
    rfl
  have earlier := typed.function.reads frame.block (List.mem_of_getElem? typed.block) done.length
    next here value used
  rw [split, List.take_left' rfl] at earlier
  obtain ⟨cell, found⟩ := available value earlier nofun
  exact ⟨cell, by simp only [get?, found], typed.held found known⟩

theorem ending (typed : frame.Typed given contract declared types none)
    (pending : frame.pending = []) {value : ValueId}
    (used : frame.block.terminator.node.operand? = some value) :
    ∃ cell, frame.get? value = .ok cell ∧ ∀ ty, types[value]? = some ty → given →
      cell.value < ty.bound := by
  obtain ⟨done, split, available⟩ := typed.place
  have defined :=
    (typed.function.stands frame.block (List.mem_of_getElem? typed.block)).reads value used
  rw [split, pending, List.append_nil] at defined
  obtain ⟨cell, found⟩ := available value defined nofun
  exact ⟨cell, by simp only [get?, found], fun ty known => typed.held found known⟩

theorem operands (typed : frame.Typed given contract declared types none)
    (pending : frame.pending = next :: rest) {values : List ValueId} {expected : List Ty}
    (known : ListTyped types values expected)
    (used : ∀ value ∈ values, value ∈ next.node.operands) :
    ∃ cells, values.mapM (Frame.get? { frame with pending := rest }) = .ok cells ∧
      List.Forall₂ (fun ty cell => given → cell.value < ty.bound) expected cells := by
  induction known with
  | nil => exact ⟨[], rfl, .nil⟩
  | @cons value ty values expected first _ ih =>
    obtain ⟨cell, got, fits⟩ := typed.operand pending (used value List.mem_cons_self) first
    obtain ⟨cells, others, small⟩ := ih fun other listed =>
      used other (List.mem_cons_of_mem _ listed)
    exact ⟨cell :: cells, by simp only [List.mapM_cons, got, others]; rfl, .cons fits small⟩

theorem localCell (typed : frame.Typed given contract declared types awaited) {slot : LocalId}
    {entry : LocalVar} (found : frame.function.locals[slot]? = some entry) :
    ∃ cell, frame.locals[slot]? = some cell ∧ (given → cell.value < entry.ty.bound) := by
  obtain ⟨low, same⟩ := List.getElem?_eq_some_iff.mp found
  have high : slot < frame.locals.length := typed.locals.length_eq ▸ low
  have fits := typed.locals.get low high
  simp only [List.get_eq_getElem, same] at fits
  exact ⟨frame.locals[slot], List.getElem?_eq_getElem high, fits⟩

theorem placeOf (typed : frame.Typed given contract declared types none)
    (pending : frame.pending = next :: rest) (field : String) {ty : Ty} {key : Option ValueId}
    (keyed : ty.KeyedBy types key) (used : ∀ value ∈ key.toList, value ∈ next.node.operands) :
    ∃ place, Frame.place { frame with pending := rest } field key = .ok place ∧
      place.field = field ∧
      place.key.isSome = ty.isMap := by
  cases keyed with
  | scalar plain => exact ⟨⟨field, none⟩, rfl, rfl, plain.symm⟩
  | entry known =>
    obtain ⟨cell, got, _⟩ := typed.operand pending (used _ (by simp)) known
    refine ⟨⟨field, some cell.value⟩, ?_, rfl, rfl⟩
    change (Frame.get? { frame with pending := rest } _ >>= fun cell =>
      pure (StorageKey.mk field (some cell.value))) = _
    rw [got]
    rfl

theorem past (typed : frame.Typed given contract declared types none)
    (pending : frame.pending = next :: rest) :
    Frame.Typed given contract declared types next.node.dest? { frame with pending := rest } := by
  obtain ⟨done, split, available⟩ := typed.place
  have same : frame.block.instructions = (done ++ [next]) ++ rest := by
    rw [split, pending, List.append_cons]
  refine { typed with place := ⟨done ++ [next], same, fun value defined apart => ?_⟩ }
  rw [definedBy_append] at defined
  rcases List.mem_append.mp defined with old | new
  · exact available value old nofun
  · obtain ⟨instruction, listed, defines⟩ := List.mem_filterMap.mp new
    rw [List.mem_singleton.mp listed] at defines
    exact absurd defines.symm apart

theorem define (typed : frame.Typed given contract declared types awaited) {dest : ValueId}
    (waits : awaited = some dest) {cell : Cell} {ty : Ty} (known : types[dest]? = some ty)
    (fits : given → cell.value < ty.bound) :
    (frame.define dest cell).Typed given contract declared types none := by
  obtain ⟨done, split, available⟩ := typed.place
  refine { typed with place := ⟨done, split, fun value defined _ => ?_⟩, values := ?_ }
  · simp only [Frame.define, List.lookup_cons]
    cases same : value == dest with
    | true => exact ⟨cell, rfl⟩
    | false =>
      have apart : some value ≠ awaited := by
        rw [waits]
        exact fun equal => (beq_eq_false_iff_ne.mp same) (Option.some.inj equal)
      exact available value defined apart
  · intro entry member other held
    rcases List.mem_cons.mp member with rfl | old
    · rw [known] at held
      exact Option.some.inj held ▸ fits
    · exact typed.values entry old other held

theorem setLocal (typed : frame.Typed given contract declared types awaited) {slot : LocalId}
    {cell : Cell} {entry : LocalVar} (there : frame.function.locals[slot]? = some entry)
    (fits : given → cell.value < entry.ty.bound) :
    Frame.Typed given contract declared types awaited
      { frame with locals := frame.locals.set slot cell } := by
  refine { typed with locals := List.forall₂_iff_get.mpr ⟨?_, fun index low high => ?_⟩ }
  · simpa using typed.locals.length_eq
  · simp only [List.get_eq_getElem, List.getElem_set] at low high ⊢
    split
    · rename_i same
      subst same
      rw [List.getElem?_eq_getElem low] at there
      rw [Option.some.inj there]
      exact fits
    · exact typed.locals.get low (by simpa using high)

theorem enter (typed : frame.Typed given contract declared types awaited) {target : BlockId}
    (leads : target ∈ frame.block.terminator.node.successors) :
    ∃ inner, frame.enter target = .ok inner ∧ inner.function = frame.function ∧
      inner.Typed given contract declared types none := by
  have inside :=
    (typed.function.stands frame.block (List.mem_of_getElem? typed.block)).successors target leads
  obtain ⟨block, found⟩ : ∃ block, frame.function.block? target = some block :=
    ⟨_, List.getElem?_eq_getElem inside⟩
  have numbered := typed.function.ids target block found
  refine ⟨{ frame with block, pending := block.instructions, values := [] }, by
    simp only [Frame.enter, found], rfl, typed.member, typed.function, ?_, ?_, ⟨[], rfl, ?_⟩, ?_,
      typed.locals⟩
  · dsimp only
    rw [numbered]
    exact found
  · dsimp only
    rw [numbered]
    exact .next typed.reached typed.block leads
  · simp [definedBy]
  · simp

end Frame.Typed

theorem Caller.function_receive (caller : Caller) (value : Option Cell) :
    (caller.receive value).function = caller.frame.function := by
  unfold Caller.receive
  split <;> rfl

theorem Caller.block_receive (caller : Caller) (value : Option Cell) :
    (caller.receive value).block = caller.frame.block := by
  unfold Caller.receive
  split <;> rfl

theorem Caller.pending_receive (caller : Caller) (value : Option Cell) :
    (caller.receive value).pending = caller.frame.pending := by
  unfold Caller.receive
  split <;> rfl

theorem Caller.Typed.receive {caller : Caller} {returns : Option Ty}
    (typed : caller.Typed given contract declared returns types) {value : Option Cell}
    (result : ResultTyped given returns value) :
    (caller.receive value).Typed given contract declared types none := by
  have standing := typed.frame
  unfold Caller.receive
  split
  · rename_i dest waits
    obtain ⟨ty, same, known⟩ := typed.dest dest waits
    refine standing.define waits known ?_
    cases result with
    | none => simp at same
    | some small => exact Option.some.inj same ▸ small
  · rename_i waits
    rw [waits] at standing
    exact standing

/-- A function starts with its arguments in the first local variables. -/
theorem Function.Typed.entered {function : Function} (typed : function.Typed declared types)
    (member : function ∈ contract.functions) {cells : List Cell}
    (fits : List.Forall₂ (fun ty cell => given → cell.value < ty.bound)
      (function.params.map Prod.snd) cells) :
    ∃ inner, function.frame cells = .ok inner ∧ inner.function = function ∧
      inner.Typed given contract declared types none := by
  have inside : function.entry < function.blocks.length := typed.entry.1 ▸ typed.entry.2
  obtain ⟨block, found⟩ : ∃ block, function.block? function.entry = some block :=
    ⟨_, List.getElem?_eq_getElem inside⟩
  have numbered := typed.ids function.entry block found
  refine ⟨⟨function, block, block.instructions, [], cells.take function.locals.length ++
      List.replicate (function.locals.length - cells.length) (.clean 0)⟩, by
        simp only [Function.frame, found], rfl,
    member, typed, ?_, ?_, ⟨[], rfl, ?_⟩, ?_, ?_⟩
  · dsimp only
    rw [numbered]
    exact found
  · dsimp only
    rw [numbered]
    exact .entry
  · simp [definedBy]
  · simp
  · dsimp only
    obtain ⟨others, split⟩ := typed.params
    have count : cells.length = function.params.length := by simpa using fits.length_eq.symm
    have room : cells.length ≤ function.locals.length := by
      rw [count, ← split]
      simp
    have first : (function.locals.take cells.length).map LocalVar.ty =
        function.params.map Prod.snd := by
      rw [← split, List.take_left' (by simpa using count.symm), List.map_map]
      rfl
    have zeros (entries : List LocalVar) :
      List.Forall₂ (fun entry cell => given → cell.value < entry.ty.bound) entries
        (List.replicate entries.length (Cell.clean 0)) := by
      induction entries with
      | nil => exact .nil
      | cons entry entries ih => exact .cons (fun _ => entry.ty.bound_pos) ih
    have whole : function.locals = function.locals.take cells.length ++
        function.locals.drop cells.length :=
      (List.take_append_drop _ _).symm
    have dropped : (function.locals.drop cells.length).length = function.locals.length -
        cells.length :=
      List.length_drop
    rw [List.take_of_length_le room, ← dropped]
    conv => arg 2; rw [whole]
    refine List.rel_append ?_ (zeros _)
    rw [← first, List.forall₂_map_left_iff] at fits
    exact fits

end Frames

/-! Steps. -/

namespace Running

variable {given : Prop} {setting : Setting} {declared : Declarations} {result : Option Ty}
  {types : List Ty} {state : Running} {rest : List (Located Instruction)} {location : Location}

theorem Typed.goesOn (typed : state.Typed given setting.contract declared result) {frame : Frame}
    {effects : Effects} (stands : frame.Typed given setting.contract declared types none)
    (same : frame.function = state.frame.function) (fits : given → effects.Fits setting.contract) :
    Keeps given setting.contract declared result (state.goOn frame effects) :=
  .running ⟨⟨types, stands⟩, same ▸ typed.callers, fits⟩

theorem Typed.givesBack (typed : state.Typed given setting.contract declared result)
    {value : Option Cell} {effects : Effects}
    (returns : ResultTyped given state.frame.function.returns value)
    (fits : given → effects.Fits setting.contract) :
    Keeps given setting.contract declared result (.ok (state.giveBack value effects)) := by
  have waiting := typed.callers
  unfold giveBack
  cases callers : state.callers with
  | nil =>
    rw [callers] at waiting
    have last : state.frame.function.returns = result := waiting
    rw [last] at returns
    exact .ended (.returned returns fits)
  | cons caller others =>
    rw [callers] at waiting
    obtain ⟨⟨types, waits⟩, further⟩ := waiting
    refine .running ⟨⟨types, waits.receive returns⟩, ?_, fits⟩
    change Caller.Waiting _ _ _ _ (caller.receive value).function.returns others
    rw [caller.function_receive]
    exact further

section Instructions

variable (typed : state.Typed given setting.contract declared result)
  (standing : state.frame.Typed given setting.contract declared types none)

include typed standing

theorem operation_keeps {dest lhs rhs : ValueId} {op : BinaryOp} {ty : Ty}
    (pending : state.frame.pending = ⟨.binary dest op ty lhs rhs, location⟩ :: rest)
    (left : types[lhs]? = some ty) (right : types[rhs]? = some ty)
    (known : types[dest]? = some (op.resultTy ty)) :
    Keeps given setting.contract declared result
      (state.instruction setting { state.frame with pending := rest } location
        (.binary dest op ty lhs rhs)) := by
  obtain ⟨first, gotFirst, _⟩ := standing.operand pending (by simp [Instruction.operands]) left
  obtain ⟨second, gotSecond, _⟩ := standing.operand pending (by simp [Instruction.operands]) right
  simp only [instruction, gotFirst, gotSecond, bind, Except.bind]
  cases computed : op.eval? ty first.value second.value with
  | none => exact .ended (.reverted fun holds => (typed.effects holds).record location trivial)
  | some value =>
    exact typed.goesOn ((standing.past pending).define rfl known fun _ => BinaryOp.eval_lt computed)
      rfl typed.effects

/-- A call goes on in the callee, unless calls are nested too deeply or the callee could not be
lowered. -/
theorem call_keeps (code : setting.contract.Typed declared) {dest : Option ValueId} {name : String}
    {args : List ValueId} {signature : Signature}
    (pending : state.frame.pending = ⟨.call dest name args, location⟩ :: rest)
    (known : declared.signature? name = some signature)
    (passed : ListTyped types args signature.params)
    (returns : ∀ id, dest = some id → ∃ ty, signature.returns = some ty ∧ types[id]? = some ty) :
    Keeps given setting.contract declared result
      (state.enterCall setting { state.frame with pending := rest } location dest name args) := by
  unfold enterCall
  cases found : setting.contract.function? name with
  | none => exact .failed (.unknownFunction known found)
  | some callee =>
    obtain rfl := code.signatures name signature callee known found
    obtain ⟨cells, got, fits⟩ := standing.operands pending passed fun _ used => used
    simp only [got, bind, Except.bind]
    by_cases deep : state.callers.length + 1 > setting.depthLimit
    · simp only [deep, if_true]
      exact .failed (.callDepthExceeded _)
    · simp only [deep, if_false]
      obtain ⟨member, _⟩ := Contract.mem_of_function? found
      obtain ⟨others, checked⟩ := code.functions callee member
      obtain ⟨inner, framed, same, stands⟩ := checked.entered member fits
      simp only [framed]
      refine .running
        ⟨⟨others, stands⟩, ⟨⟨types, standing.past pending, fun id defines => ?_⟩, typed.callers⟩,
          ?_⟩
      · rw [same]
        exact returns id defines
      · exact fun holds => (typed.effects holds).record location trivial

theorem instruction_keeps (code : setting.contract.Typed declared) (env : given → setting.env.Fits)
    {next : Located Instruction} (pending : state.frame.pending = next :: rest) :
    Keeps given setting.contract declared result
      (state.instruction setting { state.frame with pending := rest } next.location next.node) := by
  have checked := standing.instruction pending
  have after := standing.past pending
  have named := code.formed.function? standing.member
  obtain ⟨node, location⟩ := next
  dsimp only at checked after ⊢
  cases checked with
  | const known small =>
    exact typed.goesOn (after.define rfl known fun _ => small) rfl typed.effects
  | env known =>
    exact typed.goesOn (after.define rfl known fun holds => Ty.le_maxValue_iff.mp (env holds _)) rfl
      typed.effects
  | @loadLocal dest slot entry found known =>
    obtain ⟨cell, there, fits⟩ := standing.localCell found
    simp only [instruction, there]
    exact typed.goesOn (after.define rfl known fits) rfl typed.effects
  | @storeLocal slot value entry found known =>
    obtain ⟨cell, got, fits⟩ := standing.operand pending (by simp [Instruction.operands]) known
    obtain ⟨_, there, _⟩ := standing.localCell found
    have inside : slot < state.frame.locals.length := (List.getElem?_eq_some_iff.mp there).1
    simp only [instruction, got, bind, Except.bind, inside, if_true, found]
    refine typed.goesOn (after.setLocal found fits) rfl fun holds =>
      (typed.effects holds).record location ?_
    exact ⟨state.frame.function, entry, named, List.mem_of_getElem? found, rfl,
      Ty.le_maxValue_iff.mpr (fits holds)⟩
  | @loadField dest name key ty field keyed known =>
    obtain ⟨place, means, same, index⟩ := standing.placeOf pending name keyed fun _ used => used
    simp only [instruction, means, bind, Except.bind]
    refine typed.goesOn (after.define rfl known fun holds => ?_) rfl typed.effects
    exact code.content_fits (typed.effects holds).storage (same ▸ field) index
  | @storeField name key value ty field index known =>
    obtain ⟨place, means, same, keyed⟩ := standing.placeOf pending name index fun _ used =>
      List.mem_append_left _ used
    obtain ⟨cell, got, fits⟩ :=
      standing.operand pending (List.mem_append_right _ List.mem_cons_self) known
    simp only [instruction, means, got, bind, Except.bind]
    refine typed.goesOn after rfl fun holds => ?_
    have admits : Storage.Admits setting.contract place cell.value :=
      code.admits (same ▸ field) keyed (fits holds)
    have recorded : (state.effects.record { state.frame with pending := rest } location
        (.setStorage place cell.value)).Fits setting.contract :=
      (typed.effects holds).record location admits
    exact recorded.store code.formed admits
  | arithmetic operator left right known =>
    exact operation_keeps typed standing pending left right
      (BinaryOp.resultTy_of_arithmetic operator _ ▸ known)
  | relation operator left right known =>
    exact operation_keeps typed standing pending left right
      (BinaryOp.resultTy_of_relation operator _ ▸ known)
  | not operand known =>
    obtain ⟨cell, got, _⟩ := standing.operand pending (by simp [Instruction.operands]) operand
    simp only [instruction, got, bind, Except.bind]
    exact typed.goesOn (after.define rfl known fun _ => ofBool_lt _) rfl typed.effects
  | call known passed returns => exact call_keeps typed standing code pending known passed returns
  | @externalCall dest kind target amount receives pays known =>
    obtain ⟨receiver, got, fits⟩ :=
      standing.operand pending (by simp [Instruction.operands]) receives
    obtain ⟨sent, alsoGot, small⟩ := standing.operand pending (by simp [Instruction.operands]) pays
    have passes (holds : given) : receiver.value ≤ Ty.address.maxValue ∧
        sent.value ≤ Ty.defaultInteger.maxValue :=
      ⟨Ty.le_maxValue_iff.mpr (fits holds), Ty.le_maxValue_iff.mpr (small holds)⟩
    have called (holds : given) : Effects.Fits setting.contract
        { state.effects.record { state.frame with pending := rest } location
            (.externalCall kind receiver.value sent.value setting.callsSucceed) with
          calls := ⟨kind, receiver.value, sent.value⟩ :: state.effects.calls } := by
      have recorded : (state.effects.record { state.frame with pending := rest } location
          (.externalCall kind receiver.value sent.value setting.callsSucceed)).Fits
          setting.contract :=
        (typed.effects holds).record location (passes holds)
      exact { recorded with
        calls := List.forall_mem_cons.mpr ⟨passes holds, (typed.effects holds).calls⟩ }
    simp only [instruction, got, alsoGot, bind, Except.bind]
    split
    · exact .ended (.reverted called)
    · exact typed.goesOn (after.define rfl known fun _ => ofBool_lt _) rfl called
  | @emit event args shape known passed =>
    obtain ⟨cells, got, fits⟩ := standing.operands pending passed fun _ used => used
    simp only [instruction, got, bind, Except.bind]
    refine typed.goesOn after rfl fun holds => ?_
    have recorded :
        (state.effects.record { state.frame with pending := rest } location (.emit event)).Fits
        setting.contract := (typed.effects holds).record location trivial
    refine { recorded with
      events := List.forall_mem_cons.mpr ⟨⟨shape, ?_, ?_⟩, (typed.effects holds).events⟩ }
    · rw [← code.events]
      exact known
    · rw [List.forall₂_map_right_iff]
      exact fits.imp fun _ _ small => Ty.le_maxValue_iff.mpr (small holds)

/-- The end of a block that has run leads to another block, or ends the call. -/
theorem terminator_keeps (code : setting.contract.Typed declared)
    (pending : state.frame.pending = []) :
    Keeps given setting.contract declared result
      (state.terminator state.frame.block.terminator.location
        state.frame.block.terminator.node) := by
  have checked := standing.function.ends _ _ standing.reached standing.block
  have operand {value : ValueId} (used : state.frame.block.terminator.node.operand? = some value) :=
    standing.ending pending used
  have enters {target : BlockId} (leads : target ∈ state.frame.block.terminator.node.successors) :=
    standing.enter leads
  have named := code.formed.function? standing.member
  generalize state.frame.block.terminator.location = location
  generalize state.frame.block.terminator.node = node at checked operand enters ⊢
  cases checked with
  | jump target =>
    obtain ⟨inner, entered, same, stands⟩ := enters (List.mem_singleton.mpr rfl)
    simp only [terminator, entered, bind, Except.bind]
    exact typed.goesOn stands same typed.effects
  | @branch condition thenBlock elseBlock truth =>
    obtain ⟨cell, got, _⟩ := operand rfl
    have leads : (if (cell.value != 0) = true then thenBlock else elseBlock) ∈
        (Terminator.branch condition thenBlock elseBlock).successors := by
      split <;> simp [Terminator.successors]
    obtain ⟨inner, entered, same, stands⟩ := enters leads
    simp only [terminator, got, entered, bind, Except.bind]
    exact typed.goesOn stands same fun holds => (typed.effects holds).record location trivial
  | @guard condition kind message next truth =>
    obtain ⟨cell, got, _⟩ := operand rfl
    simp only [terminator, got, bind, Except.bind]
    split
    · obtain ⟨inner, entered, same, stands⟩ := enters (List.mem_singleton.mpr rfl)
      simp only [entered]
      exact typed.goesOn stands same fun holds => (typed.effects holds).record location trivial
    · exact .ended (.reverted fun holds => (typed.effects holds).record location trivial)
  | retNothing returns =>
    refine typed.givesBack ?_ fun holds => (typed.effects holds).record location trivial
    rw [returns]
    exact .none
  | @retValue value ty returns known =>
    obtain ⟨cell, got, fits⟩ := operand rfl
    simp only [terminator, got, bind, Except.bind]
    refine typed.givesBack ?_ fun holds => (typed.effects holds).record location ?_
    · rw [returns]
      exact .some (fits ty known)
    · exact ⟨state.frame.function, ty, named, returns, Ty.le_maxValue_iff.mpr (fits ty known holds)⟩
  | revert message =>
    exact .ended (.reverted fun holds => (typed.effects holds).record location trivial)

end Instructions

theorem step_keeps (code : setting.contract.Typed declared) (env : given → setting.env.Fits)
    (typed : state.Typed given setting.contract declared result) :
    Keeps given setting.contract declared result (state.step setting) := by
  obtain ⟨types, standing⟩ := typed.frame
  unfold step
  split
  · rename_i next rest pending
    exact instruction_keeps typed standing code env pending
  · rename_i pending
    exact terminator_keeps typed standing code pending

theorem run_ends (code : setting.contract.Typed declared) (env : given → setting.env.Fits)
    (budget : Nat) :
    ∀ (fuel : Nat) {state : Running}, state.Typed given setting.contract declared result →
      Ends given setting.contract declared result (run setting budget fuel state)
  | 0, _, _ => .outOfFuel budget
  | fuel + 1, state, typed => by
    have keeps := step_keeps code env typed
    unfold run
    cases stepped : state.step setting with
    | error problem =>
      rw [stepped] at keeps
      cases keeps with
      | failed ends => exact ends
    | ok next =>
      rw [stepped] at keeps
      cases keeps with
      | running later => exact run_ends code env budget fuel later
      | ended ends => exact ends

end Running

end Covenant
