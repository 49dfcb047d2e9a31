import Covenant.Proofs.Scan.Effects
import Covenant.Proofs.Symbolic.Decision
import Covenant.Proofs.Symbolic.Growth
import Covenant.Proofs.Symbolic.Meaning

/-!
What the unknowns of a search stand for in a run. A place in storage that was written so many times
holds what it does in the run after as many writes to its field; a call of a function that only
reads gives what every such call gives.
-/

namespace Covenant

structure Course where
  contract : Contract
  declared : Declarations
  summaries : Summaries
  setting : Setting
  initial : Storage
  args : List Cell
  stores : List StoreRecord

namespace Course

structure Sound (course : Course) : Prop where
  code : course.contract.Typed course.declared
  summarized : course.contract.Summarized course.summaries
  same : course.setting.contract = course.contract
  env : course.setting.env.Fits
  initial : course.initial.Fits course.contract
  stores : ∀ store ∈ course.stores, Storage.Admits course.contract store.place store.value

inductive Answers (course : Course) (name : String) (args : List Nat)
    (versions : List (String × Nat)) : Nat → Prop
  | returns {function setting cells frame effects last cell final}
      (found : course.contract.function? name = some function)
      (contract : setting.contract = course.contract) (env : setting.env = course.setting.env)
      (passed : cells.map Cell.value = args) (framed : function.frame cells = .ok frame)
      (typed : Running.Typed True course.contract course.declared function.returns
        ⟨frame, [], effects⟩)
      (quiet : Running.OnlyReads setting (fun field => ∃ version, (field, version) ∈ versions)
        ⟨frame, [], effects⟩)
      (storage : ∀ (place : StorageKey) (version : Nat), (place.field, version) ∈ versions →
        effects.storage.get place = course.initial.atVersion course.stores place version)
      (reaches : Running.Reaches setting ⟨frame, [], effects⟩ last)
      (stops : last.Stops cell final) :
      Answers course name args versions ((cell.map Cell.value).getD 0)

open Classical in
noncomputable def valuation (course : Course) : Valuation where
  param index := (course.args.getD index (.clean 0)).value
  env var := course.setting.env.get var
  field name key version := course.initial.atVersion course.stores ⟨name, key⟩ version
  call name args versions :=
    if given : ∃ value, course.Answers name args versions value then Classical.choose given else 0
  external _ := ofBool course.setting.callsSucceed

variable {course : Course} {name : String} {args : List Nat} {versions : List (String × Nat)}

theorem Answers.unique {value other : Nat} (first : course.Answers name args versions value)
    (second : course.Answers name args versions other) : value = other := by
  obtain @⟨function, setting, cells, frame, effects, last, cell, final, found, contract, env,
    passed, framed, _, quiet, storage, reaches, stops⟩ := first
  obtain @⟨function', setting', cells', frame', effects', last', cell', final', found', contract',
    env', passed', framed', _, quiet', storage', reaches', stops'⟩ := second
  obtain rfl := Option.some.inj (found.symm.trans found')
  have twin : Running.Twin (fun field => ∃ version, (field, version) ∈ versions)
    ⟨frame, [], effects⟩
      ⟨frame', [], effects'⟩ := by
    refine ⟨Function.twin_of_frame framed framed' (passed'.trans passed.symm), .nil, ?_⟩
    rintro place ⟨version, member⟩
    exact (storage' place version member).trans (storage place version member).symm
  rw [twin.returns (contract'.trans contract.symm)
    (env'.trans env.symm) quiet reaches stops reaches' stops' quiet']

theorem call_eq {value : Nat} (answers : course.Answers name args versions value) :
    course.valuation.call name args versions = value := by
  have given : ∃ value, course.Answers name args versions value := ⟨value, answers⟩
  have chosen : course.valuation.call name args versions = Classical.choose given := by
    unfold valuation
    exact dif_pos given
  rw [chosen]
  exact (Classical.choose_spec given).unique answers

theorem Answers.fits (sound : course.Sound) {value : Nat}
    (answers : course.Answers name args versions value) {function : Function} {ty : Ty}
    (found : course.contract.function? name = some function)
    (returns : function.returns = some ty) : value < ty.bound := by
  obtain @⟨other, setting, cells, frame, effects, last, cell, final, there, contract, env, _, _,
    typed, _, _, reaches, stops⟩ := answers
  obtain rfl := Option.some.inj (found.symm.trans there)
  rw [← contract] at typed
  have code : setting.contract.Typed course.declared := contract ▸ sound.code
  have fits := (reaches.typed code (fun _ => env ▸ sound.env) typed).result_of_stops stops
  rw [returns] at fits
  cases fits with
  | some small => exact small trivial

theorem call_fits (sound : course.Sound) {function : Function} {ty : Ty}
    (found : course.contract.function? name = some function)
    (returns : function.returns = some ty) :
    course.valuation.call name args versions < ty.bound := by
  by_cases given : ∃ value, course.Answers name args versions value
  · obtain ⟨value, answers⟩ := given
    rw [call_eq answers]
    exact answers.fits sound found returns
  · have none : course.valuation.call name args versions = 0 := by
      unfold valuation
      exact dif_neg given
    rw [none]
    exact ty.bound_pos

theorem afterWrites_fits (sound : course.Sound) {place : StorageKey} {ty : Ty}
    (known : course.declared.field? place.field = some ty) (keyed : place.key.isSome = ty.isMap)
    {stores : List StoreRecord} (suffix : stores <:+ course.stores) :
    course.initial.afterWrites stores place < ty.content.bound := by
  unfold Storage.afterWrites
  cases found : latest? stores place with
  | none => exact sound.code.content_fits sound.initial known keyed
  | some store =>
    obtain ⟨field, declared, _, small⟩ :=
      sound.stores store (suffix.mem (List.mem_of_find?_eq_some found))
    have here := List.find?_some found
    rw [beq_iff_eq] at here
    rw [sound.code.fields, ← here, declared] at known
    exact Ty.le_maxValue_iff.mp (Option.some.inj known ▸ small)

theorem field_fits (sound : course.Sound) {ty : Ty} (known : course.declared.field? name = some ty)
    {key : Option Nat} (keyed : key.isSome = ty.isMap) (version : Nat) :
    course.valuation.field name key version < ty.content.bound := by
  have general (stores : List StoreRecord) (suffix : stores <:+ course.stores) :
      course.initial.atVersion stores ⟨name, key⟩ version < ty.content.bound := by
    induction stores with
    | nil => exact sound.code.content_fits sound.initial known keyed
    | cons store earlier ih =>
      simp only [Storage.atVersion]
      split
      · exact afterWrites_fits sound known keyed suffix
      · exact ih ((List.suffix_cons store earlier).trans suffix)
  exact general course.stores (List.suffix_refl _)

end Course

/-!
When a path matches running code: both stand at the same place, the symbolic values of the path
stand for the values of the run, the facts that the path assumes are true, and its writes are those
of the run.
-/

namespace Constraints

variable {assignment : SymbolId → Nat} {constraints : Constraints}

theorem satisfies_empty : Satisfies assignment empty := ⟨by simp [empty], by simp [empty]⟩

theorem satisfies_declare (satisfied : Satisfies assignment constraints) {atom : SymbolId}
    {largest : Nat} (within : assignment atom ≤ largest) :
    Satisfies assignment (constraints.declare atom largest) := by
  unfold declare
  split
  · exact satisfied
  · refine ⟨satisfied.1, fun other limit known => ?_⟩
    simp only [List.lookup_cons] at known
    split at known
    · rename_i same
      rw [eq_of_beq same, eq_of_coefficient? (Option.some.inj known)]
      exact Int.ofNat_le.mpr within
    · exact satisfied.2 other limit known

theorem satisfies_declareAll (satisfied : Satisfies assignment constraints)
    {atoms : List (SymbolId × Nat)} (within : ∀ atom ∈ atoms, assignment atom.1 ≤ atom.2) :
    Satisfies assignment (constraints.declareAll atoms) := by
  induction atoms generalizing constraints with
  | nil => exact satisfied
  | cons atom rest ih =>
    exact ih (satisfies_declare satisfied (within atom List.mem_cons_self))
      fun other member => within other (List.mem_cons_of_mem _ member)

theorem satisfies_assume (satisfied : Satisfies assignment constraints) {fact : LinearForm}
    (holds : Holds assignment fact) : Satisfies assignment (constraints.assume fact) := by
  unfold assume
  split
  · exact satisfied
  · refine ⟨fun other member => ?_, satisfied.2⟩
    rcases List.mem_append.mp member with earlier | last
    · exact satisfied.1 other earlier
    · rw [List.mem_singleton.mp last]
      exact holds

end Constraints

/-! The types of what instructions define. -/

def Instruction.type? (declared : Declarations) (locals : List LocalVar) : Instruction → Option Ty
  | .const _ _ ty => some ty
  | .env _ var => some (Ty.ofEnv var)
  | .loadLocal _ slot => locals[slot]?.map LocalVar.ty
  | .loadField _ field _ => (declared.field? field).map Ty.content
  | .binary _ op ty _ _ => some (op.resultTy ty)
  | .not _ _ => some .bool
  | .call _ name _ => (declared.signature? name).bind Signature.returns
  | .externalCall _ _ _ _ => some .bool
  | .storeLocal _ _ | .storeField _ _ _ | .emit _ _ => none

theorem Instruction.Typed.type_of_dest {declared : Declarations} {locals : List LocalVar}
    {types : List Ty} {instruction : Instruction} (typed : instruction.Typed declared locals types)
    {dest : ValueId} (defines : instruction.dest? = some dest) :
    types[dest]? = instruction.type? declared locals := by
  cases typed with
  | const known small => cases defines; exact known
  | env known => cases defines; exact known
  | loadLocal found known => cases defines; simp [type?, found, known]
  | loadField field keyed known => cases defines; simp [type?, field, known]
  | arithmetic operator left right known =>
    cases defines
    rw [known, type?, BinaryOp.resultTy_of_arithmetic operator]
  | relation operator left right known =>
    cases defines
    rw [known, type?, BinaryOp.resultTy_of_relation operator]
  | not operand known => cases defines; exact known
  | call known passed returns =>
    obtain ⟨ty, same, there⟩ := returns dest defines
    simp [type?, known, same, there]
  | externalCall receives pays known => cases defines; exact known
  | storeLocal | storeField | emit => cases defines

def Function.HasType (declared : Declarations) (function : Function) (value : ValueId) (ty : Ty) :
    Prop :=
  ∀ types, function.Typed declared types → types[value]? = some ty

theorem Frame.Typed.hasType {given : Prop} {contract : Contract} {declared : Declarations}
    {types : List Ty} {awaited : Option ValueId} {frame : Frame}
    (typed : frame.Typed given contract declared types awaited) {next : Located Instruction}
    {rest : List (Located Instruction)} (pending : frame.pending = next :: rest) {dest : ValueId}
    (defines : next.node.dest? = some dest) {ty : Ty}
    (known : next.node.type? declared frame.function.locals = some ty) :
    frame.function.HasType declared dest ty := by
  intro others checked
  obtain ⟨done, split, _⟩ := typed.place
  have listed : next ∈ frame.block.instructions := by
    rw [split, pending]
    exact List.mem_append_right _ List.mem_cons_self
  rw [(checked.instructions frame.block (List.mem_of_getElem? typed.block) next listed).type_of_dest
    defines, known]

variable {course : Course} {arena later : Arena} {numbers : SymbolId → Nat} {mindful : Bool}

structure SymbolicFrame.Matches (course : Course) (arena : Arena) (numbers : SymbolId → Nat)
    (mindful : Bool) (symbolic : SymbolicFrame) (frame : Frame) : Prop where
  function : symbolic.function = frame.function
  block : symbolic.block = frame.block
  pending : symbolic.pending = frame.pending
  values : ∀ value id, symbolic.values.lookup value = some id → ∃ cell ty,
    frame.get? value = .ok cell ∧
    frame.function.HasType course.declared value ty ∧ arena.Describes numbers mindful id ty cell
  locals : ∀ slot id, symbolic.locals.getD slot none = some id → ∃ cell entry,
    frame.locals[slot]? = some cell ∧
    frame.function.locals[slot]? = some entry ∧ arena.Describes numbers mindful id entry.ty cell
  unset : ∀ slot cell, symbolic.locals.getD slot none = none → frame.locals[slot]? = some cell →
    cell = .clean 0

structure StoreEvent.Matches (course : Course) (arena : Arena) (numbers : SymbolId → Nat)
    (mindful : Bool) (event : StoreEvent) (store : StoreRecord) : Prop where
  place : store.place = ⟨event.field, event.key.map numbers⟩
  value : ∃ ty, course.declared.field? event.field = some ty ∧
    arena.Describes numbers mindful event.value ty.content ⟨store.value, store.underflowed⟩

structure PathState.Matches (course : Course) (arena : Arena) (numbers : SymbolId → Nat)
    (mindful : Bool) (state : PathState) (effects : Effects) : Prop where
  satisfied : Constraints.Satisfies numbers state.constraints
  empty : state.startsEmpty = true → ∀ place, course.initial.get place = 0
  writes : List.Forall₂ (StoreEvent.Matches course arena numbers mindful) state.writes
    effects.stores
  recorded : effects.Recorded course.initial
  suffix : effects.stores <:+ course.stores

def SymbolicCaller.AllMatch (course : Course) (arena : Arena) (numbers : SymbolId → Nat)
    (mindful : Bool) :
    Option Ty → List SymbolicCaller → List Caller → Prop
  | _, [], [] => True
  | returns, first :: rest, caller :: callers =>
    first.frame.Matches course arena numbers mindful caller.frame ∧ first.dest = caller.dest ∧
      (∀ dest, caller.dest = some dest →
        ∃ ty, returns = some ty ∧ caller.frame.function.HasType course.declared dest ty) ∧
      AllMatch course arena numbers mindful caller.frame.function.returns rest callers
  | _, [], _ :: _ => False
  | _, _ :: _, [] => False

structure Path.Matches (course : Course) (arena : Arena) (numbers : SymbolId → Nat)
    (mindful : Bool) (path : Path) (state : Running) : Prop where
  frame : path.frame.Matches course arena numbers mindful state.frame
  callers : SymbolicCaller.AllMatch course arena numbers mindful state.frame.function.returns
    path.callers state.callers
  state : path.state.Matches course arena numbers mindful state.effects

theorem SymbolicFrame.get?_eq_ok {symbolic : SymbolicFrame} {value : ValueId} {id : SymbolId} :
    symbolic.get? value = .ok id ↔ symbolic.values.lookup value = some id := by
  unfold get?
  cases symbolic.values.lookup value <;> simp

theorem SymbolicFrame.getOption?_eq_ok {symbolic : SymbolicFrame} {key : ValueId}
    {place : Option SymbolId} :
    symbolic.getOption? (some key) = .ok place ↔ ∃ id, symbolic.get? key = .ok id ∧
      place = some id := by
  simp only [getOption?]
  cases symbolic.get? key <;> simp [Functor.map, Except.map, eq_comm]

namespace SymbolicFrame.Matches

variable {symbolic : SymbolicFrame} {frame : Frame}

theorem mono (matched : symbolic.Matches course arena numbers mindful frame)
    (ordered : arena.Scoped) (grown : arena.Extends later) :
    symbolic.Matches course later numbers mindful frame :=
  { matched with
    values := by
      intro value id found
      obtain ⟨cell, ty, held, known, describes⟩ := matched.values value id found
      exact ⟨cell, ty, held, known, describes.mono ordered grown⟩
    locals := by
      intro slot id found
      obtain ⟨cell, entry, held, known, describes⟩ := matched.locals slot id found
      exact ⟨cell, entry, held, known, describes.mono ordered grown⟩ }

theorem get? (matched : symbolic.Matches course arena numbers mindful frame) {value : ValueId}
    {id : SymbolId} (found : symbolic.get? value = .ok id) :
    ∃ cell ty, frame.get? value = .ok cell ∧
      frame.function.HasType course.declared value ty ∧
      arena.Describes numbers mindful id ty cell :=
  matched.values value id (SymbolicFrame.get?_eq_ok.mp found)

theorem describes (matched : symbolic.Matches course arena numbers mindful frame) {value : ValueId}
    {id : SymbolId} (found : symbolic.get? value = .ok id) {cell : Cell}
    (held : frame.get? value = .ok cell) {ty : Ty} {types : List Ty}
    (typed : frame.function.Typed course.declared types) (known : types[value]? = some ty) :
    arena.Describes numbers mindful id ty cell := by
  obtain ⟨other, another, there, always, describes⟩ := matched.get? found
  obtain rfl := Except.ok.inj (held.symm.trans there)
  obtain rfl := Option.some.inj (known.symm.trans (always types typed))
  exact describes

theorem place_eq (matched : symbolic.Matches course arena numbers mindful frame) {field : String}
    {key : Option ValueId} {place : Option SymbolId} (found : symbolic.getOption? key = .ok place)
    {there : StorageKey} (placed : frame.place field key = .ok there) :
    there = ⟨field, place.map numbers⟩ := by
  rw [Frame.place_eq placed]
  cases key with
  | none =>
    obtain rfl := Except.ok.inj found
    rfl
  | some value =>
    obtain ⟨id, got, rfl⟩ := SymbolicFrame.getOption?_eq_ok.mp found
    obtain ⟨cell, ty, held, _, describes⟩ := matched.get? got
    simp [Frame.valueOf_eq held, describes.means.value]

theorem past (matched : symbolic.Matches course arena numbers mindful frame)
    (rest : List (Located Instruction)) :
    SymbolicFrame.Matches course arena numbers mindful { symbolic with pending := rest }
      (frame.past rest) :=
  { matched with pending := rfl }

theorem define (matched : symbolic.Matches course arena numbers mindful frame) {dest : ValueId}
    {id : SymbolId} {ty : Ty} {cell : Cell}
    (known : frame.function.HasType course.declared dest ty)
    (describes : arena.Describes numbers mindful id ty cell) :
    (symbolic.define dest id).Matches course arena numbers mindful (frame.define dest cell) :=
  { matched with
    values := by
      intro value other found
      simp only [SymbolicFrame.define, Frame.define, Frame.get?, List.lookup_cons] at found ⊢
      cases same : value == dest with
      | true =>
        rw [same] at found
        obtain rfl := Option.some.inj found
        rw [eq_of_beq same]
        exact ⟨cell, ty, rfl, known, describes⟩
      | false =>
        rw [same] at found
        exact matched.values value other found }

theorem getD_setLocal (symbolic : SymbolicFrame) (slot other : LocalId) (id : SymbolId) :
    (symbolic.setLocal slot id).locals.getD other none =
      if other = slot then some id else symbolic.locals.getD other none := by
  have room : slot <
      (symbolic.locals ++ List.replicate (slot + 1 - symbolic.locals.length) none).length := by
    simp only [List.length_append, List.length_replicate]
    exact Nat.sub_le_iff_le_add'.mp (Nat.le_refl _)
  simp only [SymbolicFrame.setLocal, List.getD_eq_getElem?_getD, List.getElem?_set]
  by_cases same : slot = other
  · rw [if_pos same, if_pos room, if_pos same.symm]
    rfl
  · rw [if_neg same, if_neg (Ne.symm same), List.getElem?_append]
    split
    · rfl
    · rename_i outside
      rw [List.getElem?_eq_none (Nat.le_of_not_lt outside), List.getElem?_replicate]
      split <;> rfl

theorem setLocal (matched : symbolic.Matches course arena numbers mindful frame) {slot : LocalId}
    {id : SymbolId} {entry : LocalVar} {cell : Cell}
    (known : frame.function.locals[slot]? = some entry) (room : slot < frame.locals.length)
    (describes : arena.Describes numbers mindful id entry.ty cell) :
    (symbolic.setLocal slot id).Matches course arena numbers mindful
      { frame with locals := frame.locals.set slot cell } :=
  { matched with
    locals := by
      intro other found there
      rw [getD_setLocal] at there
      simp only [List.getElem?_set]
      split at there
      · rename_i same
        subst same
        obtain rfl := Option.some.inj there
        exact ⟨cell, entry, by rw [if_pos rfl, if_pos room], known, describes⟩
      · rename_i apart
        obtain ⟨held, declared, same, typed, described⟩ := matched.locals other found there
        exact ⟨held, declared, by rw [if_neg (Ne.symm apart), same], typed, described⟩
    unset := by
      intro other held there found
      rw [getD_setLocal] at there
      simp only [List.getElem?_set] at found
      split at there
      · simp at there
      · rename_i apart
        rw [if_neg (Ne.symm apart)] at found
        exact matched.unset other held there found }

theorem started (matched : symbolic.Matches course arena numbers mindful frame)
    (block : BasicBlock) :
    SymbolicFrame.Matches course arena numbers mindful
      { symbolic with block, pending := block.instructions, values := [] } (frame.started block) :=
  { matched with
    block := rfl
    pending := rfl
    values := by
      intro value id found
      simp at found }

theorem enter (matched : symbolic.Matches course arena numbers mindful frame) {target : BlockId}
    {entered : SymbolicFrame} (enters : symbolic.enter target = .ok entered) {block : BasicBlock}
    (found : frame.function.block? target = some block) :
    entered.Matches course arena numbers mindful (frame.started block) := by
  rw [← matched.function] at found
  simp only [SymbolicFrame.enter, found] at enters
  obtain rfl := Except.ok.inj enters
  exact matched.started block

end SymbolicFrame.Matches

theorem SymbolicCaller.AllMatch.mono {returns : Option Ty} {waiting : List SymbolicCaller}
    {callers : List Caller}
    (matched : AllMatch course arena numbers mindful returns waiting callers)
    (ordered : arena.Scoped) (grown : arena.Extends later) :
    AllMatch course later numbers mindful returns waiting callers := by
  induction waiting generalizing returns callers with
  | nil => cases callers <;> exact matched
  | cons first rest ih =>
    cases callers with
    | nil => exact matched
    | cons caller callers =>
      obtain ⟨frames, dest, typed, others⟩ := matched
      exact ⟨frames.mono ordered grown, dest, typed, ih others⟩

/-! States of paths. -/

theorem StoreEvent.Matches.mono {event : StoreEvent} {store : StoreRecord}
    (matched : event.Matches course arena numbers mindful store) (ordered : arena.Scoped)
    (grown : arena.Extends later) :
    event.Matches course later numbers mindful store where
  place := matched.place
  value := by
    obtain ⟨ty, known, describes⟩ := matched.value
    exact ⟨ty, known, describes.mono ordered grown⟩

namespace PathState.Matches

variable {state next : PathState} {effects : Effects}

theorem mono (matched : state.Matches course arena numbers mindful effects) (ordered : arena.Scoped)
    (grown : arena.Extends later) : state.Matches course later numbers mindful effects :=
  { matched with writes := matched.writes.imp fun _ _ same => same.mono ordered grown }

theorem of_same (matched : state.Matches course arena numbers mindful effects) {others : Effects}
    (same : effects.Same others) : state.Matches course arena numbers mindful others :=
  { matched with
    writes := same.stores ▸ matched.writes
    recorded := matched.recorded.same same
    suffix := same.stores ▸ matched.suffix }

theorem of_constraints (matched : state.Matches course arena numbers mindful effects)
    (satisfied : Constraints.Satisfies numbers next.constraints)
    (starts : next.startsEmpty = state.startsEmpty) (writes : next.writes = state.writes) :
    next.Matches course arena numbers mindful effects :=
  { matched with
    satisfied
    empty := starts ▸ matched.empty
    writes := writes ▸ matched.writes }

theorem assume (matched : state.Matches course arena numbers mindful effects) {fact : RangedForm}
    (holds : fact.Holds numbers) {mayHold : Bool}
    (assumed : state.assume fact = .ok (next, mayHold)) :
    mayHold = true ∧ next.Matches course arena numbers mindful effects := by
  obtain ⟨answer, decided, same⟩ := chain_eq_ok.mp assumed
  obtain ⟨rfl, rfl⟩ := Prod.mk.inj (Except.ok.inj same)
  have satisfied := Constraints.satisfies_assume
    (Constraints.satisfies_declareAll matched.satisfied holds.2) holds.1
  refine ⟨?_, matched.of_constraints satisfied rfl rfl⟩
  have possible := Constraints.isFeasible?_ne_false satisfied
  unfold Halt.orOverflow at decided
  split at decided
  · rename_i found
    obtain rfl := Except.ok.inj decided
    rw [found] at possible
    simpa using possible
  · simp at decided

theorem assumeAll (matched : state.Matches course arena numbers mindful effects)
    {facts : List RangedForm} (hold : ∀ fact ∈ facts, fact.Holds numbers) {mayHold : Bool}
    (assumed : state.assumeAll facts = .ok (next, mayHold)) :
    mayHold = true ∧ next.Matches course arena numbers mindful effects := by
  induction facts generalizing state next mayHold with
  | nil =>
    obtain ⟨rfl, rfl⟩ := Prod.mk.inj (Except.ok.inj assumed)
    exact ⟨rfl, matched⟩
  | cons fact rest ih =>
    obtain ⟨⟨middle, first⟩, here, assumed⟩ := chain_eq_ok.mp assumed
    obtain ⟨⟨last, others⟩, behind, same⟩ := chain_eq_ok.mp assumed
    obtain ⟨rfl, rfl⟩ := Prod.mk.inj (Except.ok.inj same)
    obtain ⟨rfl, kept⟩ := matched.assume (hold fact List.mem_cons_self) here
    obtain ⟨rfl, after⟩ :=
      ih kept (fun other member => hold other (List.mem_cons_of_mem _ member)) behind
    exact ⟨rfl, after⟩

theorem linear? (matched : state.Matches course arena numbers mindful effects) {id : SymbolId}
    {form : LinearForm} (found : state.linear? arena id = some (form, next)) {value : Int}
    (described : ∀ ranged, arena.linear? id = some ranged → ranged.Describes numbers value) :
    form.eval (fun atom => (numbers atom : Int)) = value ∧
      next.Matches course arena numbers mindful effects := by
  obtain ⟨ranged, formed, same⟩ := Option.map_eq_some_iff.mp found
  obtain ⟨rfl, rfl⟩ := Prod.mk.inj same
  have tells := described ranged formed
  exact ⟨tells.eval,
    matched.of_constraints
      (Constraints.satisfies_declareAll matched.satisfied tells.within) rfl rfl⟩

theorem version_eq (matched : state.Matches course arena numbers mindful effects) (field : String) :
    state.version field = writesTo effects.stores field := by
  have writes := matched.writes
  unfold PathState.version writesTo
  generalize state.writes = events at writes
  generalize effects.stores = stores at writes
  induction writes with
  | nil => rfl
  | cons first _ ih => simp only [List.countP_cons, ih, first.place]

theorem write (matched : state.Matches course arena numbers mindful effects) {field : String}
    {key : Option SymbolId} {value : SymbolId} {ty : Ty} {cell : Cell}
    (known : course.declared.field? field = some ty)
    (describes : arena.Describes numbers mindful value ty.content cell)
    (suffix : (effects.store ⟨field, key.map numbers⟩ cell).stores <:+ course.stores) :
    (state.write field key value).Matches course arena numbers mindful
    (effects.store ⟨field, key.map numbers⟩ cell) :=
  { matched with
    writes := .cons ⟨rfl, ty, known, describes⟩ matched.writes
    recorded := matched.recorded.store _ _
    suffix }

end PathState.Matches

end Covenant
