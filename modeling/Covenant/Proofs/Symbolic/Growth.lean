import Covenant.Proofs.Failure
import Covenant.Proofs.Lowering.Names
import Covenant.Proofs.Symbolic.Meaning

/-!
The values that a path refers to are in the arena, and a step of the search keeps this: it adds
values to the arena, made of values that are there, and changes none.
-/

namespace Covenant

structure Arena.Stores (arena later : Arena) (id : SymbolId) : Prop where
  grown : arena.Extends later
  ordered : later.Scoped
  inside : id < later.symbols.size

structure SymbolicFrame.Within (arena : Arena) (frame : SymbolicFrame) : Prop where
  values : ∀ entry ∈ frame.values, entry.2 < arena.symbols.size
  locals : ∀ id : SymbolId, some id ∈ frame.locals → id < arena.symbols.size

structure PathState.Within (arena : Arena) (state : PathState) : Prop where
  values : ∀ event ∈ state.writes, event.value < arena.symbols.size
  keys : ∀ event ∈ state.writes, ∀ key ∈ event.key, key < arena.symbols.size

structure Path.Within (arena : Arena) (path : Path) : Prop where
  frame : path.frame.Within arena
  callers : ∀ caller ∈ path.callers, caller.frame.Within arena
  state : path.state.Within arena

def Continuation.Within (arena : Arena) : Continuation → Prop
  | .pending path => path.Within arena
  | .finished path => path.state.Within arena

variable {arena later : Arena}

namespace SymbolicFrame.Within

variable {frame : SymbolicFrame}

theorem mono (within : frame.Within arena) (grown : arena.Extends later) : frame.Within later where
  values := fun entry member => Nat.lt_of_lt_of_le (within.values entry member) grown.size_le
  locals := fun id member => Nat.lt_of_lt_of_le (within.locals id member) grown.size_le

theorem get? (within : frame.Within arena) {value : ValueId} {id : SymbolId}
    (found : frame.get? value = .ok id) :
    id < arena.symbols.size := by
  unfold SymbolicFrame.get? at found
  split at found
  · rename_i held there
    obtain rfl := Except.ok.inj found
    exact within.values _ (mem_of_lookup there)
  · simp at found

theorem getOption? (within : frame.Within arena) {value : Option ValueId} {place : Option SymbolId}
    (found : frame.getOption? value = .ok place) : ∀ id ∈ place, id < arena.symbols.size := by
  intro id member
  cases value with
  | none =>
    obtain rfl := Except.ok.inj found
    simp at member
  | some value =>
    simp only [SymbolicFrame.getOption?] at found
    cases held : frame.get? value with
    | error halt => simp [held, Functor.map, Except.map] at found
    | ok other =>
      simp only [held, Functor.map, Except.map, Except.ok.injEq] at found
      subst found
      obtain rfl := Option.some.inj member
      exact within.get? held

theorem mapM_get? (within : frame.Within arena) {values : List ValueId} {ids : List SymbolId}
    (found : values.mapM frame.get? = .ok ids) : ∀ id ∈ ids, id < arena.symbols.size := by
  induction values generalizing ids with
  | nil =>
    rw [List.mapM_nil] at found
    obtain rfl := Except.ok.inj found
    simp
  | cons value rest ih =>
    rw [List.mapM_cons] at found
    obtain ⟨first, held, found⟩ := chain_eq_ok.mp found
    obtain ⟨others, further, found⟩ := chain_eq_ok.mp found
    obtain rfl := Except.ok.inj found
    intro id member
    rcases List.mem_cons.mp member with rfl | behind
    · exact within.get? held
    · exact ih further id behind

theorem define (within : frame.Within arena) {id : SymbolId} (inside : id < arena.symbols.size)
    (value : ValueId) :
    (frame.define value id).Within arena where
  values := by
    intro entry member
    rcases List.mem_cons.mp member with rfl | old
    · exact inside
    · exact within.values entry old
  locals := within.locals

theorem setLocal (within : frame.Within arena) {id : SymbolId} (inside : id < arena.symbols.size)
    (slot : LocalId) :
    (frame.setLocal slot id).Within arena where
  values := within.values
  locals := by
    intro other member
    rcases List.mem_or_eq_of_mem_set member with old | new
    · rcases List.mem_append.mp old with here | padding
      · exact within.locals other here
      · simp at padding
    · rw [Option.some.inj new]
      exact inside

theorem enter (within : frame.Within arena) {block : BlockId} {entered : SymbolicFrame}
    (found : frame.enter block = .ok entered) : entered.Within arena := by
  unfold SymbolicFrame.enter at found
  split at found
  · obtain rfl := Except.ok.inj found
    exact ⟨by simp, within.locals⟩
  · simp at found

end SymbolicFrame.Within

theorem Function.within_symbolicFrame {function : Function} {args : List SymbolId}
    (inside : ∀ id ∈ args, id < arena.symbols.size) {frame : SymbolicFrame}
    (framed : function.symbolicFrame args = .ok frame) : frame.Within arena := by
  unfold Function.symbolicFrame at framed
  split at framed
  · obtain rfl := Except.ok.inj framed
    refine ⟨by simp, ?_⟩
    intro id member
    rcases List.mem_append.mp member with given | unset
    · obtain ⟨other, listed, same⟩ := List.mem_map.mp given
      exact Option.some.inj same ▸ inside other listed
    · simp at unset
  · simp at framed

theorem PathState.Within.mono {state : PathState} (within : state.Within arena)
    (grown : arena.Extends later) :
    state.Within later where
  values := fun event member => Nat.lt_of_lt_of_le (within.values event member) grown.size_le
  keys := fun event member key named =>
    Nat.lt_of_lt_of_le (within.keys event member key named) grown.size_le

theorem PathState.Within.of_writes {state other : PathState} (within : state.Within arena)
    (same : other.writes = state.writes) : other.Within arena where
  values := same ▸ within.values
  keys := same ▸ within.keys

namespace PathState

variable {state next : PathState}

theorem writes_assume {fact : RangedForm} {mayHold : Bool}
    (assumed : state.assume fact = .ok (next, mayHold)) :
    next.writes = state.writes := by
  obtain ⟨_, _, same⟩ := chain_eq_ok.mp assumed
  obtain ⟨rfl, _⟩ := Prod.mk.inj (Except.ok.inj same)
  rfl

theorem writes_assumeAll {facts : List RangedForm} {mayHold : Bool}
    (assumed : state.assumeAll facts = .ok (next, mayHold)) : next.writes = state.writes := by
  induction facts generalizing state next mayHold with
  | nil =>
    obtain ⟨rfl, _⟩ := Prod.mk.inj (Except.ok.inj assumed)
    rfl
  | cons fact rest ih =>
    obtain ⟨⟨middle, _⟩, first, assumed⟩ := chain_eq_ok.mp assumed
    obtain ⟨⟨last, _⟩, others, assumed⟩ := chain_eq_ok.mp assumed
    obtain ⟨rfl, _⟩ := Prod.mk.inj (Except.ok.inj assumed)
    exact (ih others).trans (writes_assume first)

theorem writes_linear? {id : SymbolId} {form : LinearForm}
    (found : state.linear? arena id = some (form, next)) :
    next.writes = state.writes := by
  obtain ⟨ranged, _, same⟩ := Option.map_eq_some_iff.mp found
  obtain ⟨_, rfl⟩ := Prod.mk.inj same
  rfl

end PathState

namespace Path.Within

variable {path : Path}

theorem mono (within : path.Within arena) (grown : arena.Extends later) : path.Within later where
  frame := within.frame.mono grown
  callers := fun caller member => (within.callers caller member).mono grown
  state := within.state.mono grown

theorem define (within : path.Within arena) {id : SymbolId} (inside : id < arena.symbols.size)
    (value : ValueId) :
    (path.define value id).Within arena :=
  { within with frame := within.frame.define inside value }

theorem withState (within : path.Within arena) {state : PathState}
    (same : state.writes = path.state.writes) :
    Path.Within arena { path with state } :=
  { within with state := within.state.of_writes same }

theorem enter {limits : VerifierLimits} {block : BlockId} {next : Path} (within : path.Within arena)
    (entered : path.enter limits block = .ok next) : next.Within arena := by
  simp only [Path.enter] at entered
  split at entered
  · simp at entered
  · split at entered
    · simp at entered
    · split at entered
      · simp at entered
      · obtain rfl := Except.ok.inj entered
        exact within.withState rfl

theorem goto {limits : VerifierLimits} {block : BlockId} {next : Path} (within : path.Within arena)
    (went : path.goto limits block = .ok next) : next.Within arena := by
  obtain ⟨middle, entered, went⟩ := chain_eq_ok.mp went
  obtain ⟨frame, found, went⟩ := chain_eq_ok.mp went
  obtain rfl := Except.ok.inj went
  exact { within.enter entered with frame := within.frame.enter found }

end Path.Within

namespace Arena

theorem stores_intern (ordered : arena.Scoped) {term : Term}
    (parts : ∀ part ∈ references term, part < arena.symbols.size) (ty : Ty) :
    arena.Stores (arena.intern term ty).2 (arena.intern term ty).1 :=
  ⟨intern_extends arena term ty, ordered.intern parts ty, intern_lt_size arena term ty⟩

theorem stores_internConst (ordered : arena.Scoped) (value : Nat) (ty : Ty) :
    arena.Stores (arena.internConst value ty).2 (arena.internConst value ty).1 :=
  stores_intern ordered (by simp [references]) ty

end Arena

namespace Explorer

variable {explorer : Explorer} {path : Path} {state : PathState}

/-! What reading storage and calling functions that only read adds to the arena. -/

theorem stores_initial (ordered : arena.Scoped) {key : Option SymbolId}
    (inside : ∀ id ∈ key, id < arena.symbols.size) (state : PathState) (field : String) (ty : Ty)
    (version : Nat) :
    arena.Stores (initial arena state field ty key version).2
      (initial arena state field ty key version).1 := by
  unfold initial
  split
  · exact Arena.stores_internConst ordered 0 ty
  · refine Arena.stores_intern ordered (fun part member => inside part ?_) ty
    exact Option.mem_toList.mp member

theorem stores_entryValue (ordered : arena.Scoped) {key : SymbolId}
    (inside : key < arena.symbols.size) (state : PathState) (field : String) (ty : Ty)
    {writes : List StoreEvent} (values : ∀ event ∈ writes, event.value < arena.symbols.size) :
    arena.Stores (entryValue arena state field ty key writes).2
      (entryValue arena state field ty key writes).1 := by
  have keyInside : ∀ id ∈ some key, id < arena.symbols.size :=
    fun id member => Option.some.inj member ▸ inside
  have unknown (version : Nat) := stores_initial ordered keyInside state field ty version
  induction writes with
  | nil => exact unknown 0
  | cons event rest ih =>
    have before := ih fun event member => values event (List.mem_cons_of_mem _ member)
    simp only [entryValue]
    split
    · exact before
    · split
      · exact before
      · split
        · exact ⟨.refl arena, ordered, values event List.mem_cons_self⟩
        · split
          · split
            · exact before
            · exact unknown _
          · exact unknown _

theorem fieldValue_entry {field : String} {key : SymbolId} {found : SymbolId × Arena} :
    explorer.fieldValue arena state field (some key) = .ok found ↔
      ∃ declared, explorer.contract.field? field = some declared ∧
        entryValue arena state field declared.ty.content key state.writes = found := by
  unfold fieldValue
  cases explorer.contract.field? field with
  | none => simp
  | some declared =>
    simp only [Option.some.injEq, exists_eq_left', Except.ok.injEq]
    cases declared.ty <;> rfl

theorem fieldValue_scalar {field : String} {found : SymbolId × Arena} :
    explorer.fieldValue arena state field none = .ok found ↔ ∃ declared,
      explorer.contract.field? field = some declared ∧
      (match state.writes.find? fun event => event.field == field && event.key.isNone with
        | some event => (event.value, arena)
        | none => initial arena state field declared.ty.content none 0) = found := by
  unfold fieldValue
  cases explorer.contract.field? field with
  | none => simp
  | some declared =>
    simp only [Option.some.injEq, exists_eq_left']
    cases state.writes.find? fun event => event.field == field && event.key.isNone with
    | some event => simp only [Except.ok.injEq]
    | none =>
      simp only [Except.ok.injEq]
      cases declared.ty <;> rfl

theorem stores_fieldValue (ordered : arena.Scoped) (within : state.Within arena) {field : String}
    {key : Option SymbolId} (inside : ∀ id ∈ key, id < arena.symbols.size) {id : SymbolId}
    (found : explorer.fieldValue arena state field key = .ok (id, later)) :
    arena.Stores later id := by
  cases key with
  | some key =>
    obtain ⟨declared, _, same⟩ := fieldValue_entry.mp found
    have entry := stores_entryValue ordered (inside key rfl) state field declared.ty.content
      within.values
    rw [same] at entry
    exact entry
  | none =>
    obtain ⟨declared, _, same⟩ := fieldValue_scalar.mp found
    split at same
    · rename_i event there
      obtain ⟨rfl, rfl⟩ := Prod.mk.inj same
      exact ⟨.refl _, ordered, within.values _ (List.mem_of_find?_eq_some there)⟩
    · have start := stores_initial ordered inside state field declared.ty.content 0
      rw [same] at start
      exact start

def readVersions (explorer : Explorer) (state : PathState) (function : String) :
    List (String × Nat) :=
  match explorer.summaries.get? explorer.contract.name function with
  | some summary => summary.effect.reads.map fun field => (field, state.version field)
  | none => []

theorem callValue_eq_ok {function : String} {args : List SymbolId} {found : SymbolId × Arena} :
    explorer.callValue arena state function args = .ok found ↔
      ∃ ty, (explorer.contract.function? function).bind Function.returns = some ty ∧
        arena.intern (.call function args (explorer.readVersions state function)) ty = found := by
  unfold callValue readVersions
  cases (explorer.contract.function? function).bind Function.returns with
  | none => simp
  | some ty =>
    simp only [Option.some.injEq, exists_eq_left']
    cases explorer.summaries.get? explorer.contract.name function <;> simp only [Except.ok.injEq]

theorem stores_callValue (ordered : arena.Scoped) {function : String} {args : List SymbolId}
    (inside : ∀ id ∈ args, id < arena.symbols.size) {id : SymbolId}
    (found : explorer.callValue arena state function args = .ok (id, later)) :
    arena.Stores later id := by
  obtain ⟨ty, _, same⟩ := callValue_eq_ok.mp found
  have parts :
    ∀ part ∈ Arena.references (.call function args (explorer.readVersions state function)),
      part < arena.symbols.size := inside
  have stored := Arena.stores_intern ordered parts ty
  rw [same] at stored
  exact stored

/-! Steps. -/

structure Grows (arena later : Arena) (continuations : List Continuation) : Prop where
  grown : arena.Extends later
  ordered : later.Scoped
  within : ∀ continuation ∈ continuations, continuation.Within later

theorem grows_pending {id : SymbolId} (stored : arena.Stores later id) {next : Path}
    (within : next.Within later) :
    Grows arena later [.pending next] :=
  ⟨stored.grown, stored.ordered, by
    intro continuation member
    rw [List.mem_singleton.mp member]
    exact within⟩

theorem grows_still (ordered : arena.Scoped) {continuations : List Continuation}
    (within : ∀ continuation ∈ continuations, continuation.Within arena) :
    Grows arena arena continuations :=
  ⟨.refl arena, ordered, within⟩

theorem grows_define {id : SymbolId} (stored : arena.Stores later id) (within : path.Within arena)
    (dest : ValueId) :
    Grows arena later [.pending (path.define dest id)] :=
  grows_pending stored ((within.mono stored.grown).define stored.inside dest)

theorem within_defineUnder? (within : path.Within arena) {dest : ValueId} {value : SymbolId}
    (inside : value < arena.symbols.size) {fact : Option LinearForm} {made : Option Continuation}
    (defined : defineUnder? path dest value fact = .ok made) :
    ∀ continuation ∈ made, continuation.Within arena := by
  cases fact with
  | none =>
    obtain rfl := Except.ok.inj defined
    simp
  | some form =>
    obtain ⟨⟨state, mayHold⟩, assumed, defined⟩ := chain_eq_ok.mp defined
    obtain rfl := Except.ok.inj defined
    intro continuation member
    split at member
    · obtain rfl := Option.some.inj member
      exact (within.withState (PathState.writes_assume assumed)).define inside dest
    · simp at member

theorem grows_fork (ordered : arena.Scoped) (within : path.Within arena) {dest : ValueId}
    {op : BinaryOp} {ty : Ty} {left right whole : SymbolId}
    (leftInside : left < arena.symbols.size) (rightInside : right < arena.symbols.size)
    (inside : whole < arena.symbols.size) {continuations : List Continuation}
    (forked : fork arena path dest op ty left right whole = .ok (continuations, later)) :
    Grows arena later continuations := by
  have plain {state : PathState} (same : state.writes = path.state.writes) :
      Grows arena arena [.pending (Path.define { path with state } dest whole)] :=
    grows_define ⟨.refl arena, ordered, inside⟩ (within.withState same) dest
  unfold fork at forked
  split at forked
  · obtain ⟨rfl, rfl⟩ := Prod.mk.inj (Except.ok.inj forked)
    exact plain rfl
  · rename_i form state linear
    have same := PathState.writes_linear? linear
    simp only at forked
    split at forked
    · obtain ⟨rfl, rfl⟩ := Prod.mk.inj (Except.ok.inj forked)
      exact plain same
    · rename_i fits wraps _
      obtain ⟨fitting, fit, forked⟩ := chain_eq_ok.mp forked
      obtain ⟨wrapping, wrap, forked⟩ := chain_eq_ok.mp forked
      obtain ⟨rfl, rfl⟩ := Prod.mk.inj (Except.ok.inj forked)
      have parts : ∀ part ∈ Arena.references (.wrapped op left right),
          part < arena.symbols.size := by
        intro part member
        simp only [Arena.references, List.mem_cons, List.not_mem_nil, or_false] at member
        rcases member with rfl | rfl
        · exact leftInside
        · exact rightInside
      have stored := Arena.stores_intern ordered parts ty
      have moved := (within.withState same).mono stored.grown
      refine ⟨stored.grown, stored.ordered, ?_⟩
      intro continuation member
      rcases List.mem_append.mp member with first | second
      · exact within_defineUnder? moved (Nat.lt_of_lt_of_le inside stored.grown.size_le) fit _
          (Option.mem_toList.mp first)
      · exact within_defineUnder? moved stored.inside wrap _ (Option.mem_toList.mp second)

theorem within_divide (within : path.Within arena) {dest : ValueId} {right quotient : SymbolId}
    (inside : quotient < arena.symbols.size) {continuations : List Continuation}
    (divided : divide arena path dest right quotient = .ok continuations) :
    ∀ continuation ∈ continuations, continuation.Within arena := by
  have plain : ∀ continuation ∈ [Continuation.pending (path.define dest quotient)],
      continuation.Within arena := by
    intro continuation member
    rw [List.mem_singleton.mp member]
    exact within.define inside dest
  unfold divide at divided
  split at divided
  · obtain rfl := Except.ok.inj divided
    simp
  · obtain rfl := Except.ok.inj divided
    exact plain
  · split at divided
    · obtain rfl := Except.ok.inj divided
      exact plain
    · rename_i divisor state linear
      split at divided
      · simp at divided
      · obtain ⟨made, defined, divided⟩ := chain_eq_ok.mp divided
        obtain rfl := Except.ok.inj divided
        intro continuation member
        exact within_defineUnder? (within.withState (PathState.writes_linear? linear)) inside
          defined _ (Option.mem_toList.mp member)

theorem binary_eq_ok {dest : ValueId} {op : BinaryOp} {ty : Ty} {lhs rhs : ValueId}
    {continuations : List Continuation}
    (stepped : binary arena path dest op ty lhs rhs = .ok (continuations, later)) :
    ∃ left right whole middle, path.frame.get? lhs = .ok left ∧ path.frame.get? rhs = .ok right ∧
      arena.intern (.binary op left right) (op.resultTy ty) = (whole, middle) ∧
      ((continuations = [.pending (path.define dest whole)] ∧ later = middle ∧
          ((middle.const? whole).isSome = true ∨ Arena.isLinear op = false)) ∨
        (middle.const? whole = none ∧ Arena.isLinear op = true ∧
          fork middle path dest op ty left right whole = .ok (continuations, later)) ∨
        ((op = .div ∨ op = .mod) ∧ divide middle path dest right whole = .ok continuations ∧
          later = middle)) := by
  unfold binary at stepped
  obtain ⟨left, leftFound, stepped⟩ := chain_eq_ok.mp stepped
  obtain ⟨right, rightFound, stepped⟩ := chain_eq_ok.mp stepped
  dsimp only at stepped
  generalize interned : arena.intern (.binary op left right)
    (if op.isComparison || op.isLogical then Ty.bool else ty) = made at stepped
  obtain ⟨whole, middle⟩ := made
  dsimp only at stepped
  refine ⟨left, right, whole, middle, leftFound, rightFound, interned, ?_⟩
  split at stepped
  · rename_i constant
    obtain ⟨rfl, rfl⟩ := Prod.mk.inj (Except.ok.inj stepped)
    exact .inl ⟨rfl, rfl, .inl constant⟩
  · rename_i unknown
    cases op
    case add | sub | mul => exact .inr (.inl ⟨by simpa using unknown, rfl, stepped⟩)
    case div | mod =>
      obtain ⟨found, divided, stepped⟩ := chain_eq_ok.mp stepped
      obtain ⟨rfl, rfl⟩ := Prod.mk.inj (Except.ok.inj stepped)
      exact .inr (.inr ⟨by simp, divided, rfl⟩)
    all_goals
      obtain ⟨rfl, rfl⟩ := Prod.mk.inj (Except.ok.inj stepped)
      exact .inl ⟨rfl, rfl, .inr rfl⟩

theorem grows_binary (ordered : arena.Scoped) (within : path.Within arena) {dest : ValueId}
    {op : BinaryOp} {ty : Ty} {lhs rhs : ValueId} {continuations : List Continuation}
    (stepped : binary arena path dest op ty lhs rhs = .ok (continuations, later)) :
    Grows arena later continuations := by
  obtain ⟨left, right, whole, middle, leftFound, rightFound, interned, outcome⟩ :=
    binary_eq_ok stepped
  have leftInside := within.frame.get? leftFound
  have rightInside := within.frame.get? rightFound
  have parts : ∀ part ∈ Arena.references (.binary op left right), part < arena.symbols.size := by
    intro part member
    simp only [Arena.references, List.mem_cons, List.not_mem_nil, or_false] at member
    rcases member with rfl | rfl
    · exact leftInside
    · exact rightInside
  have stored := Arena.stores_intern ordered parts (op.resultTy ty)
  rw [interned] at stored
  dsimp only at stored
  rcases outcome with ⟨rfl, rfl, _⟩ | ⟨_, _, forked⟩ | ⟨_, divided, rfl⟩
  · exact grows_define stored within dest
  · have after := grows_fork stored.ordered (within.mono stored.grown)
      (Nat.lt_of_lt_of_le leftInside stored.grown.size_le)
      (Nat.lt_of_lt_of_le rightInside stored.grown.size_le) stored.inside forked
    exact ⟨stored.grown.trans after.grown, after.ordered, after.within⟩
  · exact ⟨stored.grown, stored.ordered,
      within_divide (within.mono stored.grown) stored.inside divided⟩

theorem grows_call (ordered : arena.Scoped) (within : path.Within arena) {dest : Option ValueId}
    {name : String} {args : List ValueId} {continuations : List Continuation}
    (stepped : explorer.call arena path dest name args = .ok (continuations, later)) :
    Grows arena later continuations := by
  unfold call at stepped
  split at stepped
  · simp at stepped
  · rename_i callee _
    obtain ⟨ids, listed, stepped⟩ := chain_eq_ok.mp stepped
    have inside := within.frame.mapM_get? listed
    split at stepped
    · obtain ⟨⟨value, middle⟩, valued, stepped⟩ := chain_eq_ok.mp stepped
      have stored := stores_callValue ordered inside valued
      obtain ⟨rfl, rfl⟩ := Prod.mk.inj (Except.ok.inj stepped)
      refine grows_pending stored ?_
      cases dest with
      | none => exact within.mono stored.grown
      | some dest => exact (within.mono stored.grown).define stored.inside dest
    · split at stepped
      · simp [throw, throwThe, MonadExceptOf.throw] at stepped
      · obtain ⟨frame, framed, stepped⟩ := chain_eq_ok.mp stepped
        obtain ⟨entered, enters, stepped⟩ := chain_eq_ok.mp stepped
        obtain ⟨rfl, rfl⟩ := Prod.mk.inj (Except.ok.inj stepped)
        refine grows_still ordered fun continuation member => ?_
        rw [List.mem_singleton.mp member]
        refine Path.Within.enter ?_ enters
        refine ⟨Function.within_symbolicFrame inside framed, ?_, within.state⟩
        intro caller listed
        rcases List.mem_cons.mp listed with rfl | waiting
        · exact within.frame
        · exact within.callers caller waiting

theorem grows_instruction (ordered : arena.Scoped) (within : path.Within arena)
    {node : Instruction} {continuations : List Continuation}
    (stepped : explorer.instruction arena path node = .ok (continuations, later)) :
    Grows arena later continuations := by
  have define {dest : ValueId} {id : SymbolId} {middle : Arena} (stored : arena.Stores middle id)
      (same : Except.ok ([.pending (path.define dest id)], middle) =
        (.ok (continuations, later) : Except Halt _)) :
      Grows arena later continuations := by
    obtain ⟨rfl, rfl⟩ := Prod.mk.inj (Except.ok.inj same)
    exact grows_define stored within dest
  have still {next : Path} (kept : next.Within arena)
      (same : Except.ok ([.pending next], arena) = (.ok (continuations, later) : Except Halt _)) :
      Grows arena later continuations := by
    obtain ⟨rfl, rfl⟩ := Prod.mk.inj (Except.ok.inj same)
    refine grows_still ordered fun continuation member => ?_
    rw [List.mem_singleton.mp member]
    exact kept
  cases node with
  | const dest value ty => exact define (Arena.stores_internConst ordered value ty) stepped
  | env dest var =>
    exact define (Arena.stores_intern ordered (by simp [Arena.references]) _) stepped
  | loadLocal dest slot =>
    simp only [instruction] at stepped
    split at stepped
    · rename_i id found
      refine define ⟨.refl arena, ordered, within.frame.locals id ?_⟩ stepped
      rw [List.getD_eq_getElem?_getD] at found
      cases held : path.frame.locals[slot]? with
      | none => simp [held] at found
      | some entry =>
        simp only [held, Option.getD_some] at found
        exact found ▸ List.mem_of_getElem? held
    · exact define (Arena.stores_internConst ordered 0 _) stepped
  | storeLocal slot value =>
    obtain ⟨id, found, stepped⟩ := chain_eq_ok.mp stepped
    have kept : Path.Within arena { path with frame := path.frame.setLocal slot id } :=
      { within with frame := within.frame.setLocal (within.frame.get? found) slot }
    exact still kept stepped
  | loadField dest field key =>
    obtain ⟨place, found, stepped⟩ := chain_eq_ok.mp stepped
    obtain ⟨⟨id, middle⟩, loaded, stepped⟩ := chain_eq_ok.mp stepped
    exact define (stores_fieldValue ordered within.state (within.frame.getOption? found) loaded)
      stepped
  | storeField field key value =>
    obtain ⟨place, found, stepped⟩ := chain_eq_ok.mp stepped
    obtain ⟨id, held, stepped⟩ := chain_eq_ok.mp stepped
    have written : (path.state.write field place id).Within arena := by
      refine ⟨?_, ?_⟩
      · intro event member
        rcases List.mem_cons.mp member with rfl | old
        · exact within.frame.get? held
        · exact within.state.values event old
      · intro event member
        rcases List.mem_cons.mp member with rfl | old
        · exact within.frame.getOption? found
        · exact within.state.keys event old
    have kept : Path.Within arena { path with state := path.state.write field place id } :=
      { within with state := written }
    exact still kept stepped
  | binary dest op ty lhs rhs => exact grows_binary ordered within stepped
  | not dest operand =>
    obtain ⟨value, found, stepped⟩ := chain_eq_ok.mp stepped
    have inside : ∀ part ∈ Arena.references (.not value), part < arena.symbols.size := by
      intro part member
      rw [List.mem_singleton.mp member]
      exact within.frame.get? found
    exact define (Arena.stores_intern ordered inside .bool) stepped
  | call dest name args => exact grows_call ordered within stepped
  | externalCall dest kind target amount =>
    cases kind with
    | transfer => exact define (Arena.stores_internConst ordered 1 .bool) stepped
    | call =>
      obtain ⟨rfl, rfl⟩ := Prod.mk.inj (Except.ok.inj stepped)
      have inside : ∀ part ∈ Arena.references (.external (path.state.externals + 1)),
          part < arena.symbols.size := by
        simp [Arena.references]
      have stored := Arena.stores_intern ordered inside .bool
      have counted : Path.Within arena
          { path with state := { path.state with externals := path.state.externals + 1 } } :=
        within.withState rfl
      exact grows_pending stored ((counted.mono stored.grown).define stored.inside dest)
  | emit event args => exact still within stepped

theorem within_branch (within : path.Within arena) {limits : VerifierLimits} {condition : SymbolId}
    {targets : List (Bool × BlockId)} {continuations : List Continuation}
    (branched : branch limits arena path condition targets = .ok continuations) :
    ∀ continuation ∈ continuations, continuation.Within arena := by
  induction targets generalizing continuations with
  | nil =>
    obtain rfl := Except.ok.inj branched
    simp
  | cons first rest ih =>
    obtain ⟨truth, target⟩ := first
    simp only [branch] at branched
    split at branched
    · exact ih branched
    · obtain ⟨⟨state, mayHold⟩, assumed, branched⟩ := chain_eq_ok.mp branched
      dsimp only at branched
      split at branched
      · obtain ⟨next, went, branched⟩ := chain_eq_ok.mp branched
        obtain ⟨others, further, branched⟩ := chain_eq_ok.mp branched
        obtain rfl := Except.ok.inj branched
        intro continuation member
        rcases List.mem_cons.mp member with rfl | behind
        · exact (within.withState (PathState.writes_assumeAll assumed)).goto went
        · exact ih further continuation behind
      · exact ih branched

theorem within_giveBack (within : path.Within arena) {value : Option SymbolId}
    (inside : ∀ id ∈ value, id < arena.symbols.size) : (giveBack path value).Within arena := by
  unfold giveBack
  split
  · exact within.state
  · rename_i caller callers same
    have waiting : ∀ caller ∈ path.callers, caller.frame.Within arena := within.callers
    rw [same] at waiting
    refine ⟨?_, fun other member => waiting other (List.mem_cons_of_mem _ member), within.state⟩
    dsimp only
    split
    · exact (waiting caller List.mem_cons_self).define (inside _ rfl) _
    · exact waiting caller List.mem_cons_self

theorem within_terminator (within : path.Within arena) {node : Terminator}
    {continuations : List Continuation}
    (stepped : explorer.terminator arena path node = .ok continuations) :
    ∀ continuation ∈ continuations, continuation.Within arena := by
  have single {continuation : Continuation} (kept : continuation.Within arena)
      (same : Except.ok [continuation] = (.ok continuations : Except Halt _)) :
      ∀ continuation ∈ continuations, continuation.Within arena := by
    obtain rfl := Except.ok.inj same
    intro other member
    rw [List.mem_singleton.mp member]
    exact kept
  cases node with
  | jump target =>
    obtain ⟨next, went, stepped⟩ := chain_eq_ok.mp stepped
    have kept : (Continuation.pending next).Within arena := within.goto went
    exact single kept stepped
  | branch condition thenBlock elseBlock =>
    obtain ⟨id, _, stepped⟩ := chain_eq_ok.mp stepped
    exact within_branch within stepped
  | guard condition kind message next =>
    obtain ⟨id, _, stepped⟩ := chain_eq_ok.mp stepped
    exact within_branch within stepped
  | ret value =>
    obtain ⟨id, found, stepped⟩ := chain_eq_ok.mp stepped
    exact single (within_giveBack within (within.frame.getOption? found)) stepped
  | revert message =>
    obtain rfl := Except.ok.inj stepped
    simp

theorem grows_step (ordered : arena.Scoped) (within : path.Within arena)
    {continuations : List Continuation}
    (stepped : explorer.step arena path = .ok (continuations, later)) :
    Grows arena later continuations := by
  unfold step at stepped
  split at stepped
  · rename_i instruction rest _
    have past : Path.Within arena { path with frame := { path.frame with pending := rest } } :=
      { within with frame := ⟨within.frame.values, within.frame.locals⟩ }
    exact grows_instruction ordered past stepped
  · obtain ⟨found, ended, stepped⟩ := chain_eq_ok.mp stepped
    obtain ⟨rfl, rfl⟩ := Prod.mk.inj (Except.ok.inj stepped)
    exact grows_still ordered (within_terminator within ended)

end Explorer

end Covenant
