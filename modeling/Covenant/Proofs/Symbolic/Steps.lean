import Covenant.Proofs.Run.Moves
import Covenant.Proofs.Symbolic.Forks
import Covenant.Proofs.Symbolic.Matching

/-!
What a path reads. A place that was last written at a known key holds what was written; any other
place holds what it held when its field had been written as often as now.
-/

namespace Covenant

section

theorem forall₂_find? {α β : Type} {related : α → β → Prop} {left : List α} {right : List β}
    (all : List.Forall₂ related left right) (first : α → Bool) (second : β → Bool)
    (same : ∀ item other, related item other → first item = second other) :
    (left.find? first = none ∧ right.find? second = none) ∨
      ∃ item other, left.find? first = some item ∧ right.find? second = some other ∧
      related item other := by
  induction all with
  | nil => exact .inl ⟨rfl, rfl⟩
  | @cons item other items others here _ ih =>
    simp only [List.find?_cons, same item other here]
    cases second other with
    | true => exact .inr ⟨item, other, rfl, rfl, here⟩
    | false => exact ih

def PathState.unmarked (state : PathState) (arena : Arena) (field : String) : Bool :=
  state.writes.all fun event => event.field != field || !arena.underflows event.value

variable {course : Course} {arena later : Arena} {numbers : SymbolId → Nat} {mindful : Bool}
  {state : PathState} {effects : Effects} {field : String} {ty : Ty}

theorem PathState.Matches.load_clean (matched : state.Matches course arena numbers mindful effects)
    (mind : mindful) {place : StorageKey} (unmarked : state.unmarked arena place.field = true) :
    (effects.load place).tainted = false := by
  have both := forall₂_find? matched.writes
    (fun event => (⟨event.field, event.key.map numbers⟩ : StorageKey) == place)
    (fun store => store.place == place) fun event store same => by rw [same.place]
  rw [matched.recorded.load, latest?]
  rcases both with ⟨_, untouched⟩ | ⟨event, store, last, written, same⟩
  · rw [untouched]
    rfl
  · rw [written]
    obtain ⟨ty, _, describes⟩ := same.value
    have here : ⟨event.field, event.key.map numbers⟩ = place := by simpa using List.find?_some last
    have listed := List.all_eq_true.mp unmarked event (List.mem_of_find?_eq_some last)
    simp only [← here, bne_self_eq_false, Bool.false_or, Bool.not_eq_true'] at listed
    by_contra tainted
    have marked := describes.tainted mind (by simpa using tainted)
    simp [listed] at marked

inductive PathState.Finds (course : Course) (arena : Arena) (numbers : SymbolId → Nat)
    (mindful : Bool) (state : PathState) (field : String) (ty : Ty) (key : Option SymbolId)
    (writes : List StoreEvent) (stores : List StoreRecord) :
    SymbolId × Arena → Prop
  | written {event : StoreEvent} {store : StoreRecord} : latest? stores ⟨field, key.map numbers⟩ =
      some store →
      event.field = field →
      event.Matches course arena numbers mindful store →
      Finds course arena numbers mindful state field ty key writes stores (event.value, arena)
  | untouched : latest? stores ⟨field, key.map numbers⟩ = none →
      Finds course arena numbers mindful state field ty key writes stores
        (Explorer.initial arena state field ty key 0)
  | unsure {event : StoreEvent} : event ∈ writes → event.field = field →
      Finds course arena numbers mindful state field ty key writes stores
        (Explorer.initial arena state field ty key (state.version field))

namespace Explorer

theorem finds_entryValue (respects : arena.Respects course.valuation numbers) {key : SymbolId}
    {writes : List StoreEvent} {stores : List StoreRecord}
    (matched : List.Forall₂ (StoreEvent.Matches course arena numbers mindful) writes stores) :
    state.Finds course arena numbers mindful field ty (some key) writes stores
      (entryValue arena state field ty key writes) := by
  induction matched with
  | nil => exact .untouched rfl
  | @cons event store events stores here _ ih =>
    have skip (apart : ¬ (event.field = field ∧ event.key.map numbers = some (numbers key)))
        (same : entryValue arena state field ty key (event :: events) =
          entryValue arena state field ty key events) :
        state.Finds course arena numbers mindful field ty (some key) (event :: events)
          (store :: stores) (entryValue arena state field ty key (event :: events)) := by
      have passed : latest? (store :: stores) ⟨field, some (numbers key)⟩ = latest? stores
          ⟨field, some (numbers key)⟩ := by
        have other : (store.place == ⟨field, some (numbers key)⟩) = false := by
          rw [here.place, beq_eq_false_iff_ne]
          intro equal
          exact apart ⟨congrArg StorageKey.field equal, congrArg StorageKey.key equal⟩
        simp only [latest?, List.find?_cons, other]
      rw [same]
      generalize entryValue arena state field ty key events = reads at ih ⊢
      cases ih with
      | written found named matched => exact .written (passed.trans found) named matched
      | untouched found => exact .untouched (passed.trans found)
      | unsure member named => exact .unsure (List.mem_cons_of_mem _ member) named
    have unsure (named : event.field = field)
      (found : entryValue arena state field ty key (event :: events) =
        initial arena state field ty (some key) (state.version field)) :
        state.Finds course arena numbers mindful field ty (some key) (event :: events)
          (store :: stores) (entryValue arena state field ty key (event :: events)) := by
      rw [found]
      exact .unsure List.mem_cons_self named
    by_cases named : event.field = field
    · cases at_ : event.key with
      | none => exact skip (by simp [at_]) (by simp [entryValue, named, at_])
      | some written =>
        by_cases same : written = key
        · have found : entryValue arena state field ty key (event :: events) =
              (event.value, arena) := by
            simp [entryValue, named, at_, same]
          rw [found]
          refine .written ?_ named here
          simp [latest?, here.place, named, at_, same]
        · cases left : arena.const? written with
          | none => exact unsure named (by simp [entryValue, named, at_, same, left])
          | some first =>
            cases right : arena.const? key with
            | none => exact unsure named (by simp [entryValue, named, at_, same, left, right])
            | some second =>
              by_cases equal : first = second
              · exact unsure named (by simp [entryValue, named, at_, same, left, right, equal])
              · refine skip ?_ (by simp [entryValue, named, at_, same, left, right, equal])
                rw [at_, Option.map_some, Arena.value_of_const left respects,
                  Arena.value_of_const right respects]
                simp [equal]
    · exact skip (fun both => named both.1) (by simp [entryValue, named])

theorem finds_fieldValue {explorer : Explorer} (sound : course.Sound)
    (contract : explorer.contract = course.contract)
    (respects : arena.Respects course.valuation numbers)
    (matched : state.Matches course arena numbers mindful effects)
    (known : course.declared.field? field = some ty) {key : Option SymbolId}
    {found : SymbolId × Arena} (reads : explorer.fieldValue arena state field key = .ok found) :
    state.Finds course arena numbers mindful field ty.content key state.writes
      effects.stores found := by
  have declaredTy {declared : Field} (there : explorer.contract.field? field = some declared) :
      declared.ty = ty := by
    rw [contract] at there
    rw [sound.code.fields, there] at known
    exact Option.some.inj known
  cases key with
  | some key =>
    obtain ⟨declared, there, rfl⟩ := fieldValue_entry.mp reads
    rw [declaredTy there]
    exact finds_entryValue respects matched.writes
  | none =>
    obtain ⟨declared, there, rfl⟩ := fieldValue_scalar.mp reads
    rw [declaredTy there]
    have both := forall₂_find? matched.writes
      (fun event => event.field == field && event.key.isNone)
      (fun store => store.place == ⟨field, none⟩) (by
        intro event store same
        rw [same.place, Bool.eq_iff_iff]
        cases event.key <;> simp [StorageKey.mk.injEq])
    rcases both with ⟨free, untouched⟩ | ⟨event, store, last, same, written⟩
    · rw [free]
      exact .untouched untouched
    · rw [last]
      have named := List.find?_some last
      simp only [Bool.and_eq_true, beq_iff_eq] at named
      exact .written same named.1 written

theorem means_initial (sound : course.Sound) (ordered : later.Scoped)
    (known : course.declared.field? field = some ty) {key : Option SymbolId}
    (keyed : key.isSome = ty.isMap) {version : Nat} {id : SymbolId}
    (empty : state.startsEmpty = true → ∀ place, course.initial.get place = 0)
    (found : initial arena state field ty.content key version = (id, later))
    (respects : later.Respects course.valuation numbers) :
    later.Means numbers id ty.content
      (course.initial.atVersion course.stores ⟨field, key.map numbers⟩ version) := by
  unfold initial at found
  split at found
  · rename_i fresh
    simp only [Bool.and_eq_true, beq_iff_eq] at fresh
    obtain ⟨starts, rfl⟩ := fresh
    rw [Storage.atVersion_zero, empty starts]
    exact Arena.means_const ordered found respects ty.content.bound_pos
  · exact Arena.means_given ordered found respects rfl
      (Course.field_fits sound known (by simpa using keyed) version)

/-- What a path reads stands for what the run reads, unless it is tainted and the path does not
know. -/
theorem describes_fieldValue {explorer : Explorer} (sound : course.Sound)
    (contract : explorer.contract = course.contract) (ordered : arena.Scoped)
    (within : state.Within arena) (matched : state.Matches course arena numbers mindful effects)
    (known : course.declared.field? field = some ty) {key : Option SymbolId}
    (keyed : key.isSome = ty.isMap) (inside : ∀ id ∈ key, id < arena.symbols.size) {id : SymbolId}
    (reads : explorer.fieldValue arena state field key = .ok (id, later))
    (respects : later.Respects course.valuation numbers)
    (remembers : mindful → ∀ name key version, later.term? id = some (.field name key version) →
      version = 0 ∨ state.unmarked arena field = true) :
    later.Describes numbers mindful id ty.content (effects.load ⟨field, key.map numbers⟩) := by
  have stored := stores_fieldValue ordered within inside reads
  have finds := finds_fieldValue sound contract
    (respects.of_extends ordered stored.grown) matched known reads
  generalize pair : (id, later) = found at finds
  cases finds with
  | @written event store last named same =>
    obtain ⟨rfl, rfl⟩ := Prod.mk.inj pair
    rw [matched.recorded.load, last]
    obtain ⟨other, declared, describes⟩ := same.value
    rw [named, known] at declared
    obtain rfl := Option.some.inj declared
    exact describes
  | untouched last =>
    have means := means_initial sound stored.ordered known keyed matched.empty pair.symm respects
    rw [Storage.atVersion_zero] at means
    rw [matched.recorded.load, last]
    exact means.describes
  | @unsure event member named =>
    have means := means_initial sound stored.ordered known keyed matched.empty pair.symm respects
    rw [matched.version_eq] at means
    have holds : course.initial.atVersion course.stores ⟨field, key.map numbers⟩
      (writesTo effects.stores field) =
        effects.storage.get ⟨field, key.map numbers⟩ := by
      rw [matched.recorded.storage]
      exact Storage.atVersion_eq_afterWrites matched.suffix
    rw [holds] at means
    refine ⟨means, fun mind tainted => ?_⟩
    have written : state.version field ≠ 0 := by
      have counted : 0 < state.version field :=
        List.countP_pos_iff.mpr ⟨event, member, by simp [named]⟩
      exact Nat.ne_of_gt counted
    have unknown : initial arena state field ty.content key (state.version field) =
        arena.intern (.field field key (state.version field)) ty.content := by
      unfold initial
      simp [written]
    rw [unknown] at pair
    have term : later.term? id = some (.field field key (state.version field)) := by
      simp only [Arena.term?, Arena.symbol_of_intern pair.symm, Option.map_some]
      rfl
    have unmarked := (remembers mind _ _ _ term).resolve_left written
    have clean : (effects.load ⟨field, key.map numbers⟩).tainted = false :=
      matched.load_clean mind unmarked
    exact absurd tainted (by simp [clean])

/-! Calls of functions that only read. -/

theorem get_eq_atVersion {explorer : Explorer} {name : String}
    (matched : state.Matches course arena numbers mindful effects) {place : StorageKey}
    {version : Nat} (member : (place.field, version) ∈ explorer.readVersions state name) :
    effects.storage.get place = course.initial.atVersion course.stores place version := by
  have now : version = state.version place.field := by
    unfold readVersions at member
    split at member
    · obtain ⟨other, _, same⟩ := List.mem_map.mp member
      obtain ⟨rfl, rfl⟩ := Prod.mk.inj same
      rfl
    · simp at member
  rw [now, matched.version_eq, matched.recorded.storage]
  exact (Storage.atVersion_eq_afterWrites matched.suffix).symm

/-- A call of a function whose results are unknowns only reads the fields that are listed with the
result. -/
theorem onlyReads_of_isOpaque {explorer : Explorer} {setting : Setting} (sound : course.Sound)
    (contract : explorer.contract = course.contract)
    (summaries : explorer.summaries = course.summaries) (same : setting.contract = course.contract)
    {name : String} (quiet : explorer.contract.isOpaque explorer.summaries name = true)
    {function : Function} (found : course.contract.function? name = some function) {frame : Frame}
    (begun : frame.function = function) {result : Option Ty}
    (typed : Running.Typed True course.contract course.declared result ⟨frame, [], effects⟩)
    (state : PathState) :
    Running.OnlyReads setting
      (fun field => ∃ version, (field, version) ∈ explorer.readVersions state name)
      ⟨frame, [], effects⟩ := by
  have named : function.name = name := (Contract.mem_of_function? found).2
  unfold Contract.isOpaque at quiet
  rw [contract, found] at quiet
  cases there : explorer.summaries.get? course.contract.name name with
  | none => simp [there] at quiet
  | some summary =>
    simp only [there, Bool.and_eq_true, List.isEmpty_iff, Bool.not_eq_true'] at quiet
    have listed : explorer.summaries.get? setting.contract.name frame.function.name =
        some summary := by
      rw [same, begun, named]
      exact there
    have reads := Running.onlyReads_of_summary (same ▸ summaries ▸ sound.summarized)
      (same ▸ sound.code) (same ▸ typed.weaken False.elim) listed quiet.1.2 quiet.2
    refine reads.mono fun field member => ⟨state.version field, ?_⟩
    simp only [readVersions, contract, there]
    exact List.mem_map.mpr ⟨field, member, rfl⟩

theorem means_callValue {explorer : Explorer} (sound : course.Sound)
    (contract : explorer.contract = course.contract) (ordered : arena.Scoped) {name : String}
    {args : List SymbolId} (inside : ∀ id ∈ args, id < arena.symbols.size) {id : SymbolId}
    {function : Function} (ty : Ty) (found : course.contract.function? name = some function)
    (returns : function.returns = some ty)
    (called : explorer.callValue arena state name args = .ok (id, later))
    (respects : later.Respects course.valuation numbers) :
    later.Means numbers id ty
      (course.valuation.call name (args.map numbers) (explorer.readVersions state name)) := by
  have grown := stores_callValue ordered inside called
  obtain ⟨other, same, stored⟩ := callValue_eq_ok.mp called
  rw [contract, found, Option.bind_some, returns] at same
  obtain rfl := Option.some.inj same
  exact Arena.means_given grown.ordered stored respects rfl (Course.call_fits sound found returns)

end Explorer

end

/-!
Steps of a path. Where a run goes on, so does one of the paths behind a step of the path that it
matches, as long as the search attends to all that the step may do.
-/

namespace Explorer

/-- Whether what is read from a place may not be an entry of a map of which the search only knows
that it was written, and perhaps with what is computed from a subtraction below zero. -/
def remembers (explorer : Explorer) (arena : Arena) (path : Path) (field : String)
    (key : Option ValueId) : Bool :=
  match path.frame.getOption? key with
  | .error _ => true
  | .ok place =>
    match explorer.fieldValue arena path.state field place with
    | .error _ => true
    | .ok (id, later) =>
      match later.term? id with
      | some (.field _ _ version) => version == 0 || path.state.unmarked arena field
      | _ => true

/-- Whether nothing that is computed from a subtraction below zero can come out of a function that
is not followed: it is passed no such value, reads none from storage, and subtracts nothing. -/
def spares (explorer : Explorer) (arena : Arena) (path : Path) (name : String)
    (args : List ValueId) : Bool :=
  explorer.contract.subtractsNothing name &&
    (explorer.readVersions path.state name).all (fun read => path.state.unmarked arena read.1) &&
    match args.mapM path.frame.get? with
    | .ok ids => ids.all fun id => !arena.underflows id
    | .error _ => true

/-- Whether the search attends to all that an instruction may do: it finds out whether arithmetic
wraps around. If it has to be mindful of underflow, it also asks of each difference whether it goes
below zero, and takes no unknown for what may be computed from such a difference. -/
def attendsInstruction (explorer : Explorer) (mindful : Bool) (arena : Arena) (path : Path) :
    Instruction → Bool
  | .binary _ op ty lhs rhs => attendsOperator mindful arena path op ty lhs rhs
  | .loadField _ field key => !mindful || explorer.remembers arena path field key
  | .call _ name args =>
    !(mindful && explorer.contract.isOpaque explorer.summaries name) ||
      explorer.spares arena path name args
  | _ => true

def attends (explorer : Explorer) (mindful : Bool) (arena : Arena) (path : Path) : Bool :=
  match path.frame.pending with
  | next :: rest =>
    explorer.attendsInstruction mindful arena
      { path with frame := { path.frame with pending := rest } } next.node
  | [] => true

end Explorer

variable {course : Course} {arena later : Arena} {numbers : SymbolId → Nat} {mindful : Bool}

theorem SymbolicFrame.isSome_getOption? {frame : SymbolicFrame} {key : Option ValueId}
    {place : Option SymbolId} (found : frame.getOption? key = .ok place) :
    place.isSome = key.isSome := by
  cases key with
  | none =>
    obtain rfl := Except.ok.inj found
    rfl
  | some key =>
    obtain ⟨id, _, rfl⟩ := getOption?_eq_ok.mp found
    rfl

def SymbolicCaller.receive (caller : SymbolicCaller) (value : Option SymbolId) : SymbolicFrame :=
  match caller.dest, value with
  | some dest, some id => caller.frame.define dest id
  | _, _ => caller.frame

/-- A call that is given values that stand for those of a run matches it at its start. -/
theorem Function.matches_symbolicFrame {function : Function} {ids : List SymbolId}
    {cells : List Cell}
    (params : (function.params.map fun param => LocalVar.mk param.1 param.2) <+: function.locals)
    (count : cells.length = ids.length)
    (shown : ∀ (index : Nat) (id : SymbolId), ids[index]? = some id → ∃ cell param,
      cells[index]? = some cell ∧
      function.params[index]? = some param ∧ arena.Describes numbers mindful id param.2 cell)
    {symbolic : SymbolicFrame} (begun : function.symbolicFrame ids = .ok symbolic) {frame : Frame}
    (framed : function.frame cells = .ok frame) :
    symbolic.Matches course arena numbers mindful frame := by
  unfold symbolicFrame at begun
  unfold Function.frame at framed
  split at begun
  · rename_i block found
    simp only [found, Except.ok.injEq] at framed
    obtain rfl := Except.ok.inj begun
    subst framed
    have listed (slot : Nat) :
      (ids.map some ++ List.replicate (function.locals.length - ids.length) none).getD slot none =
        ids[slot]? := by
      rw [List.getD_eq_getElem?_getD, List.getElem?_append]
      split
      · rename_i inside
        rw [List.length_map] at inside
        simp [inside]
      · rename_i outside
        rw [List.length_map] at outside
        rw [List.getElem?_eq_none (Nat.le_of_not_lt outside), List.getElem?_replicate]
        split <;> rfl
    refine ⟨rfl, rfl, rfl, by simp, ?_, ?_⟩
    · intro slot id there
      dsimp only at there
      rw [listed] at there
      obtain ⟨cell, param, held, declared, describes⟩ := shown slot id there
      have entry : function.locals[slot]? = some (LocalVar.mk param.1 param.2) :=
        getElem?_of_longer params (by simp [declared])
      refine ⟨cell, _, ?_, entry, describes⟩
      have inside : slot < function.locals.length := (List.getElem?_eq_some_iff.mp entry).1
      have room : slot < (cells.take function.locals.length).length := by
        have low := (List.getElem?_eq_some_iff.mp held).1
        rw [List.length_take]
        omega
      dsimp only
      rw [List.getElem?_append_left room, List.getElem?_take, if_pos inside, held]
    · intro slot cell unset there
      dsimp only at unset there
      rw [listed] at unset
      have outside := List.getElem?_eq_none_iff.mp unset
      rw [List.getElem?_append_right (by rw [List.length_take]; omega),
        List.getElem?_replicate] at there
      split at there
      · exact (Option.some.inj there).symm
      · simp at there
  · simp at begun

namespace Explorer

variable {explorer : Explorer} {path : Path} {continuations : List Continuation} {frame : Frame}
  {effects : Effects} {types : List Ty} {result : Option Ty} {instruction : Located Instruction}
  {rest : List (Located Instruction)}

/-! Instructions other than calls. -/

def Covers (course : Course) (arena : Arena) (numbers : SymbolId → Nat) (mindful : Bool)
    (callers : List SymbolicCaller) (continuations : List Continuation) (after : Frame)
    (following : Effects) : Prop :=
  ∃ next, .pending next ∈ continuations ∧ next.callers = callers ∧
    next.frame.Matches course arena numbers mindful after ∧
    next.state.Matches course arena numbers mindful following

section Instructions

variable (sound : course.Sound) (contract : explorer.contract = course.contract)
  (ordered : arena.Scoped) (standing : frame.Typed True course.contract course.declared types none)
  (pending : frame.pending = instruction :: rest)
  (framed : path.frame.Matches course arena numbers mindful (frame.past rest))

include ordered standing pending framed

theorem matches_define {dest : ValueId} {id : SymbolId} {ty : Ty} {cell : Cell}
    (grown : arena.Extends later) (defines : instruction.node.dest? = some dest)
    (known : instruction.node.type? course.declared frame.function.locals = some ty)
    (describes : later.Describes numbers mindful id ty cell) :
    (path.frame.define dest id).Matches course later numbers mindful
    ((frame.past rest).define dest cell) :=
  (framed.mono ordered grown).define (standing.hasType pending defines known) describes

variable (within : path.Within arena) (respects : later.Respects course.valuation numbers)
  (states : path.state.Matches course arena numbers mindful effects)

include states

theorem covers_define {dest : ValueId} {id : SymbolId} {ty : Ty} {cell : Cell}
    (grown : arena.Extends later) (defines : instruction.node.dest? = some dest)
    (known : instruction.node.type? course.declared frame.function.locals = some ty)
    (describes : later.Describes numbers mindful id ty cell) :
    Covers course later numbers mindful path.callers [.pending (path.define dest id)]
      ((frame.past rest).define dest cell)
      effects :=
  ⟨_, List.mem_singleton.mpr rfl, rfl, matches_define ordered standing pending framed grown defines
    known describes, states.mono ordered grown⟩

include within respects

/-- One of the paths behind an operator is that of the run. -/
theorem covers_operator {dest : ValueId} {op : BinaryOp} {ty : Ty} {lhs rhs : ValueId}
    {location : Location} {first second : Cell} {value : Nat}
    (same : instruction = ⟨.binary dest op ty lhs rhs, location⟩)
    (leftHeld : (frame.past rest).get? lhs = .ok first)
    (rightHeld : (frame.past rest).get? rhs = .ok second)
    (computed : op.eval? ty first.value second.value = some value)
    (stepped : binary arena path dest op ty lhs rhs = .ok (continuations, later))
    (attends : attendsOperator mindful arena path op ty lhs rhs = true) :
    Covers course later numbers mindful path.callers continuations
      ((frame.past rest).define dest (computedCell op first second value)) effects := by
  have checked := standing.instruction pending
  have grown := (grows_binary ordered within stepped).grown
  subst same
  have covered (leftKnown : types[lhs]? = some ty) (rightKnown : types[rhs]? = some ty)
      (integer : op.isArithmetic = true → ∃ width, ty = .uint width) :
      Covers course later numbers mindful path.callers continuations
        ((frame.past rest).define dest (computedCell op first second value)) effects := by
    obtain ⟨id, state, member, describes, kept⟩ := covers_binary ordered within stepped respects
      (fun _ found => framed.describes found leftHeld standing.function leftKnown)
      (fun _ found => framed.describes found rightHeld standing.function rightKnown) integer
      computed states attends
    exact ⟨_, member, rfl, matches_define ordered standing pending framed grown rfl rfl describes,
      kept⟩
  cases checked with
  | arithmetic _ leftKnown rightKnown _ => exact covered leftKnown rightKnown fun _ => ⟨_, rfl⟩
  | relation other leftKnown rightKnown _ =>
    exact covered leftKnown rightKnown fun arithmetic => by simp [other] at arithmetic

/-- A local variable that was never set on the path is zero in the run. -/
theorem covers_loadLocal {dest : ValueId} {slot : LocalId} {location : Location} {cell : Cell}
    (same : instruction = ⟨.loadLocal dest slot, location⟩)
    (held : (frame.past rest).locals[slot]? = some cell)
    (stepped : explorer.instruction arena path (.loadLocal dest slot) =
      .ok (continuations, later)) :
    Covers course later numbers mindful path.callers continuations
      ((frame.past rest).define dest cell) effects := by
  have checked := standing.instruction pending
  have grows := grows_instruction ordered within stepped
  subst same
  cases checked with
  | @loadLocal _ _ entry found known =>
    have type : (Instruction.loadLocal dest slot).type? course.declared frame.function.locals =
        some entry.ty := by
      simp [Instruction.type?, found]
    simp only [Explorer.instruction] at stepped
    split at stepped
    · rename_i id there
      obtain ⟨other, declared, alike, shape, describes⟩ := framed.locals slot id there
      obtain rfl := Option.some.inj (held.symm.trans alike)
      obtain rfl := Option.some.inj (found.symm.trans shape)
      obtain ⟨rfl, rfl⟩ := Prod.mk.inj (Except.ok.inj stepped)
      exact covers_define ordered standing pending framed states grows.grown rfl type describes
    · rename_i unset
      obtain rfl := framed.unset slot cell unset held
      have typed : path.frame.localTy slot = entry.ty := by
        have function : path.frame.function = frame.function := framed.function
        simp [SymbolicFrame.localTy, function, found]
      rw [typed] at stepped
      obtain ⟨rfl, rfl⟩ := Prod.mk.inj (Except.ok.inj stepped)
      exact covers_define ordered standing pending framed states grows.grown rfl type
        (Arena.means_const grows.ordered rfl respects entry.ty.bound_pos).describes

/-- A call out of the contract gives what such calls give: a transfer that does not succeed reverts.
-/
theorem covers_externalCall {dest : ValueId} {kind : ExternalKind} {target amount : ValueId}
    {location : Location} (same : instruction = ⟨.externalCall dest kind target amount, location⟩)
    (allowed : (kind == .transfer && !course.setting.callsSucceed) = false)
    (stepped : explorer.instruction arena path (.externalCall dest kind target amount) =
      .ok (continuations, later)) :
    Covers course later numbers mindful path.callers continuations
      ((frame.past rest).define dest (.clean (ofBool course.setting.callsSucceed))) effects := by
  have grows := grows_instruction ordered within stepped
  subst same
  cases kind with
  | transfer =>
    have succeeds : course.setting.callsSucceed = true := by simpa using allowed
    have one : ofBool course.setting.callsSucceed = 1 := by rw [succeeds]; rfl
    rw [one]
    obtain ⟨rfl, rfl⟩ := Prod.mk.inj (Except.ok.inj stepped)
    exact covers_define ordered standing pending framed states grows.grown rfl rfl
      (Arena.means_const grows.ordered rfl respects (by decide)).describes
  | call =>
    obtain ⟨rfl, rfl⟩ := Prod.mk.inj (Except.ok.inj stepped)
    have counted : PathState.Matches course arena numbers mindful
        { path.state with externals := path.state.externals + 1 } effects :=
      states.of_constraints states.satisfied rfl rfl
    refine ⟨_, List.mem_singleton.mpr rfl, rfl, ?_, counted.mono ordered grows.grown⟩
    exact matches_define ordered standing pending framed grows.grown rfl rfl
      (Arena.means_given grows.ordered rfl respects rfl (ofBool_lt _)).describes

omit ordered within respects in
/-- A write to storage is one of the path as well. -/
theorem covers_storeField {field : String} {key : Option ValueId} {value : ValueId}
    {location : Location} {place : StorageKey} {cell : Cell}
    (same : instruction = ⟨.storeField field key value, location⟩)
    (placed : (frame.past rest).place field key = .ok place)
    (held : (frame.past rest).get? value = .ok cell)
    (suffix : (effects.store place cell).stores <:+ course.stores)
    (stepped : explorer.instruction arena path (.storeField field key value) =
      .ok (continuations, later)) :
    Covers course later numbers mindful path.callers continuations (frame.past rest)
      ((effects.record (frame.past rest) location (.setStorage place cell.value)).store
        place cell) := by
  have checked := standing.instruction pending
  subst same
  obtain ⟨there, found, stepped⟩ := chain_eq_ok.mp stepped
  obtain ⟨id, got, stepped⟩ := chain_eq_ok.mp stepped
  obtain ⟨rfl, rfl⟩ := Prod.mk.inj (Except.ok.inj stepped)
  obtain rfl := framed.place_eq found placed
  cases checked with
  | storeField declared keyed known =>
    have describes := framed.describes got held standing.function known
    have recorded : path.state.Matches course arena numbers mindful
        (effects.record (frame.past rest) location
          (.setStorage ⟨field, there.map numbers⟩ cell.value)) :=
      states.of_same ⟨rfl, rfl, rfl⟩
    exact ⟨_, List.mem_singleton.mpr rfl, rfl, framed, recorded.write declared describes suffix⟩

include sound contract

/-- What is read from storage is what the path takes it for, or is not tainted if the search has to
be mindful. -/
theorem covers_loadField {dest : ValueId} {field : String} {key : Option ValueId}
    {location : Location} {place : StorageKey}
    (same : instruction = ⟨.loadField dest field key, location⟩)
    (placed : (frame.past rest).place field key = .ok place)
    (stepped : explorer.instruction arena path (.loadField dest field key) =
      .ok (continuations, later))
    (attends : explorer.attendsInstruction mindful arena path (.loadField dest field key) = true) :
    Covers course later numbers mindful path.callers continuations
      ((frame.past rest).define dest (effects.load place))
      effects := by
  have checked := standing.instruction pending
  have grows := grows_instruction ordered within stepped
  subst same
  cases checked with
  | @loadField _ _ _ ty declared keyed known =>
    obtain ⟨there, found, stepped⟩ := chain_eq_ok.mp stepped
    obtain ⟨⟨id, middle⟩, loaded, stepped⟩ := chain_eq_ok.mp stepped
    obtain ⟨rfl, rfl⟩ := Prod.mk.inj (Except.ok.inj stepped)
    have sameKey : there.isSome = ty.isMap :=
      (SymbolicFrame.isSome_getOption? found).trans keyed.isSome_eq
    obtain rfl := framed.place_eq found placed
    have type : (Instruction.loadField dest field key).type? course.declared frame.function.locals =
        some ty.content := by
      simp [Instruction.type?, declared]
    refine covers_define ordered standing pending framed states grows.grown rfl type ?_
    refine describes_fieldValue sound contract ordered within.state states declared sameKey
      (within.frame.getOption? found) loaded respects fun mind name other version term => ?_
    unfold attendsInstruction remembers at attends
    simpa [mind, found, loaded, term] using attends

/-- One of the paths behind an instruction other than a call is that of the run. -/
theorem covers_does {after : Frame} {following : Effects}
    (does : (frame.past rest).Does course.setting effects instruction.location instruction.node
      after following)
    (suffix : following.stores <:+ course.stores)
    (stepped : explorer.instruction arena path instruction.node = .ok (continuations, later))
    (attends : explorer.attendsInstruction mindful arena path instruction.node = true) :
    Covers course later numbers mindful path.callers continuations after following := by
  have checked := standing.instruction pending
  have grows := grows_instruction ordered within stepped
  obtain ⟨node, location⟩ := instruction
  dsimp only at does stepped attends checked
  cases does with
  | const dest value ty =>
    obtain ⟨rfl, rfl⟩ := Prod.mk.inj (Except.ok.inj stepped)
    cases checked with
    | const known small =>
      exact covers_define ordered standing pending framed states grows.grown rfl rfl
        (Arena.means_const grows.ordered rfl respects small).describes
  | env dest var =>
    obtain ⟨rfl, rfl⟩ := Prod.mk.inj (Except.ok.inj stepped)
    exact covers_define ordered standing pending framed states grows.grown rfl rfl
      (Arena.means_given grows.ordered rfl respects rfl
        (Ty.le_maxValue_iff.mp (sound.env var))).describes
  | loadLocal held =>
    exact covers_loadLocal ordered standing pending framed within respects states rfl held stepped
  | @storeLocal slot value cell name held room =>
    obtain ⟨id, got, stepped⟩ := chain_eq_ok.mp stepped
    obtain ⟨rfl, rfl⟩ := Prod.mk.inj (Except.ok.inj stepped)
    cases checked with
    | storeLocal found known =>
      have describes := framed.describes got held standing.function known
      exact ⟨_, List.mem_singleton.mpr rfl, rfl, framed.setLocal found room describes,
        states.of_same ⟨rfl, rfl, rfl⟩⟩
  | loadField placed =>
    exact covers_loadField sound contract ordered standing pending framed within respects states rfl
      placed stepped attends
  | storeField placed held =>
    exact covers_storeField standing pending framed states rfl placed held suffix stepped
  | binary leftHeld rightHeld computed =>
    exact covers_operator ordered standing pending framed within respects states rfl leftHeld
      rightHeld computed stepped attends
  | @not dest operand cell held =>
    cases checked with
    | not operandKnown _ =>
      obtain ⟨id, found, stepped⟩ := chain_eq_ok.mp stepped
      obtain ⟨rfl, rfl⟩ := Prod.mk.inj (Except.ok.inj stepped)
      have describes := framed.describes found held standing.function operandKnown
      have means := Arena.means_not ordered rfl respects describes.means.faithful
      rw [describes.means.value] at means
      exact covers_define ordered standing pending framed states grows.grown rfl rfl means.describes
  | externalCall _ _ allowed =>
    obtain ⟨next, member, callers, frames, kept⟩ :=
      covers_externalCall ordered standing pending framed within respects states rfl allowed stepped
    exact ⟨next, member, callers, frames, kept.of_same ⟨rfl, rfl, rfl⟩⟩
  | emit =>
    obtain ⟨rfl, rfl⟩ := Prod.mk.inj (Except.ok.inj stepped)
    exact ⟨_, List.mem_singleton.mpr rfl, rfl, framed, states.of_same ⟨rfl, rfl, rfl⟩⟩

end Instructions

end Explorer

end Covenant
