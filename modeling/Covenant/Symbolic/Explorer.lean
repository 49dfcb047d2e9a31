import Covenant.Scan.Summary
import Covenant.Symbolic.Path

/-!
The paths of a function for unknown inputs. A path forks where a condition may be true or false and
where arithmetic may wrap around; each of its continuations assumes what leads to it, and is dropped
if that contradicts what it assumes already. A path that reverts is dropped as well, since it leaves
everything as it was.

Calls are followed, except for those of functions that only read and return something: their results
are unknowns, named by how often the fields that they read were written. Such a call is taken never
to revert, which can only add paths.
-/

namespace Covenant

structure Explorer where
  contract : Contract
  summaries : Summaries
  limits : VerifierLimits

inductive Continuation where
  | pending (path : Path)
  | finished (path : PathEnd)
deriving DecidableEq, Repr

structure Exploration where
  paths : List PathEnd
  halt : Option Halt
  arena : Arena

namespace Contract

def isOpaque (contract : Contract) (summaries : Summaries) (name : String) : Bool :=
  match contract.function? name, summaries.get? contract.name name with
  | some function, some summary =>
    function.returns.isSome && summary.effect.writes.isEmpty && !summary.effect.externalCalls
  | _, _ => false

end Contract

namespace Explorer

def initial (arena : Arena) (state : PathState) (field : String) (ty : Ty) (key : Option SymbolId)
    (version : Nat) : SymbolId × Arena :=
  if state.startsEmpty && version == 0 then arena.internConst 0 ty
  else arena.intern (.field field key version) ty

def entryValue (arena : Arena) (state : PathState) (field : String) (ty : Ty) (key : SymbolId) :
    List StoreEvent → SymbolId × Arena
  | [] => initial arena state field ty (some key) 0
  | event :: rest =>
    if event.field != field then entryValue arena state field ty key rest
    else match event.key with
      | none => entryValue arena state field ty key rest
      | some written =>
        if written == key then (event.value, arena)
        else match arena.const? written, arena.const? key with
          | some left, some right =>
            if left != right then entryValue arena state field ty key rest
            else initial arena state field ty (some key) (state.version field)
          | _, _ => initial arena state field ty (some key) (state.version field)

def fieldValue (explorer : Explorer) (arena : Arena) (state : PathState) (field : String)
    (key : Option SymbolId) : Except Halt (SymbolId × Arena) :=
  match explorer.contract.field? field with
  | none => .error (.unknownField explorer.contract.name field)
  | some declared =>
    let ty := match declared.ty with
      | .map _ value => value
      | other => other
    match key with
    | some key => .ok (entryValue arena state field ty key state.writes)
    | none =>
      match state.writes.find? fun event => event.field == field && event.key.isNone with
      | some event => .ok (event.value, arena)
      | none => .ok (initial arena state field ty none 0)

def callValue (explorer : Explorer) (arena : Arena) (state : PathState) (function : String)
    (args : List SymbolId) : Except Halt (SymbolId × Arena) :=
  match (explorer.contract.function? function).bind Function.returns with
  | none => .error (.noResult function)
  | some ty =>
    let reads := match explorer.summaries.get? explorer.contract.name function with
      | some summary => summary.effect.reads.map fun field => (field, state.version field)
      | none => []
    .ok (arena.intern (.call function args reads) ty)

def start (arena : Arena) (function : Function) : Except Halt Path × Arena :=
  let (args, arena) := function.params.zipIdx.foldl (fun (found, arena) (param, index) =>
    let (id, arena) := arena.intern (.param index) param.2
    (found ++ [id], arena)) (([] : List SymbolId), arena)
  (do
    let frame ← function.symbolicFrame args
    return { frame, callers := [], state := PathState.start (function.kind == .init) }, arena)

/-- The fact that arithmetic fits its type, and the fact that it wraps around, where they can be
expressed. There are none if the largest value of the type cannot be a coefficient. -/
def wrapFacts? (op : BinaryOp) (ty : Ty) (form : LinearForm) :
    Option (Option LinearForm × Option LinearForm) :=
  if op == .sub then
    some (some form, (form.scale? (-1)).bind fun negated => negated.offset? (-1))
  else (coefficient? ty.maxValue).map fun largest =>
    ((form.scale? (-1)).bind fun negated => negated.offset? largest,
      (form.offset? (-largest)).bind fun above => above.offset? (-1))

def defineUnder? (path : Path) (dest : ValueId) (value : SymbolId) :
    Option LinearForm → Except Halt (Option Continuation)
  | none => .ok none
  | some form => do
    let (state, mayHold) ← path.state.assume ⟨form, []⟩
    return if mayHold then some (.pending ({ path with state }.define dest value)) else none

def fork (arena : Arena) (path : Path) (dest : ValueId) (op : BinaryOp) (ty : Ty)
    (left right exact : SymbolId) :
    Except Halt (List Continuation × Arena) :=
  match path.state.linear? arena exact with
  | none => .ok ([.pending (path.define dest exact)], arena)
  | some (form, state) =>
    let path := { path with state }
    match wrapFacts? op ty form with
    | none => .ok ([.pending (path.define dest exact)], arena)
    | some (fits, wraps) => do
      let (wrapped, arena) := arena.intern (.wrapped op left right) ty
      let fitting ← defineUnder? path dest exact fits
      let wrapping ← defineUnder? path dest wrapped wraps
      return (fitting.toList ++ wrapping.toList, arena)

def divide (arena : Arena) (path : Path) (dest : ValueId) (right quotient : SymbolId) :
    Except Halt (List Continuation) :=
  match arena.const? right with
  | some 0 => .ok []
  | some _ => .ok [.pending (path.define dest quotient)]
  | none =>
    match path.state.linear? arena right with
    | none => .ok [.pending (path.define dest quotient)]
    | some (divisor, state) =>
      match divisor.offset? (-1) with
      | none => .error .divisorOutOfRange
      | some positive => do
        let continuation ← defineUnder? { path with state } dest quotient (some positive)
        return continuation.toList

def binary (arena : Arena) (path : Path) (dest : ValueId) (op : BinaryOp) (ty : Ty)
    (lhs rhs : ValueId) :
    Except Halt (List Continuation × Arena) := do
  let left ← path.frame.get? lhs
  let right ← path.frame.get? rhs
  let resultTy := if op.isComparison || op.isLogical then Ty.bool else ty
  let (exact, arena) := arena.intern (.binary op left right) resultTy
  if (arena.const? exact).isSome then return ([.pending (path.define dest exact)], arena)
  else match op with
    | .add | .sub | .mul => fork arena path dest op ty left right exact
    | .div | .mod =>
      let continuations ← divide arena path dest right exact
      return (continuations, arena)
    | _ => return ([.pending (path.define dest exact)], arena)

def call (explorer : Explorer) (arena : Arena) (path : Path) (dest : Option ValueId) (name : String)
    (args : List ValueId) : Except Halt (List Continuation × Arena) :=
  match explorer.contract.function? name with
  | none => .error (.unknownFunction explorer.contract.name name)
  | some callee => do
    let ids ← args.mapM path.frame.get?
    if explorer.contract.isOpaque explorer.summaries name then
      let (value, arena) ← explorer.callValue arena path.state name ids
      return ([.pending (match dest with
        | some dest => path.define dest value
        | none => path)], arena)
    else if path.depth ≥ explorer.limits.maxCallDepth then
      throw (.callDepthExceeded explorer.limits.maxCallDepth)
    else
      let frame ← callee.symbolicFrame ids
      let inner : Path :=
        { frame, callers := ⟨path.frame, dest⟩ :: path.callers, state := path.state }
      let entered ← inner.enter explorer.limits callee.entry
      return ([.pending entered], arena)

def instruction (explorer : Explorer) (arena : Arena) (path : Path) :
    Instruction → Except Halt (List Continuation × Arena)
  | .const dest value ty =>
    let (id, arena) := arena.internConst value ty
    .ok ([.pending (path.define dest id)], arena)
  | .env dest var =>
    let (id, arena) := arena.intern (.env var) (Ty.ofEnv var)
    .ok ([.pending (path.define dest id)], arena)
  | .loadLocal dest slot =>
    match path.frame.locals.getD slot none with
    | some id => .ok ([.pending (path.define dest id)], arena)
    | none =>
      let (id, arena) := arena.internConst 0 (path.frame.localTy slot)
      .ok ([.pending (path.define dest id)], arena)
  | .storeLocal slot value => do
    let id ← path.frame.get? value
    return ([.pending { path with frame := path.frame.setLocal slot id }], arena)
  | .loadField dest field key => do
    let place ← path.frame.getOption? key
    let (id, arena) ← explorer.fieldValue arena path.state field place
    return ([.pending (path.define dest id)], arena)
  | .storeField field key value => do
    let place ← path.frame.getOption? key
    let id ← path.frame.get? value
    return ([.pending { path with state := path.state.write field place id }], arena)
  | .binary dest op ty lhs rhs => binary arena path dest op ty lhs rhs
  | .not dest operand => do
    let value ← path.frame.get? operand
    let (id, arena) := arena.intern (.not value) .bool
    return ([.pending (path.define dest id)], arena)
  | .call dest name args => explorer.call arena path dest name args
  | .externalCall dest .transfer _ _ =>
    let (id, arena) := arena.internConst 1 .bool
    .ok ([.pending (path.define dest id)], arena)
  | .externalCall dest .call _ _ =>
    let count := path.state.externals + 1
    let (id, arena) := arena.intern (.external count) .bool
    .ok ([.pending ({ path with state := { path.state with externals := count } }.define dest id)],
      arena)
  | .emit _ _ => .ok ([.pending path], arena)

def branch (limits : VerifierLimits) (arena : Arena) (path : Path) (condition : SymbolId) :
    List (Bool × BlockId) → Except Halt (List Continuation)
  | [] => .ok []
  | (truth, target) :: rest =>
    match arena.implied? condition truth with
    | none => branch limits arena path condition rest
    | some facts => do
      let (state, mayHold) ← path.state.assumeAll facts
      if mayHold then
        let next ← { path with state }.goto limits target
        let others ← branch limits arena path condition rest
        return .pending next :: others
      else branch limits arena path condition rest

def giveBack (path : Path) (value : Option SymbolId) : Continuation :=
  match path.callers with
  | [] => .finished ⟨path.state, value⟩
  | caller :: callers =>
    let frame := match caller.dest, value with
      | some dest, some id => caller.frame.define dest id
      | _, _ => caller.frame
    .pending { frame, callers, state := path.state }

def terminator (explorer : Explorer) (arena : Arena) (path : Path) :
    Terminator → Except Halt (List Continuation)
  | .jump target => do
    let next ← path.goto explorer.limits target
    return [.pending next]
  | .branch condition thenBlock elseBlock => do
    let id ← path.frame.get? condition
    branch explorer.limits arena path id [(true, thenBlock), (false, elseBlock)]
  | .guard condition _ _ next => do
    let id ← path.frame.get? condition
    branch explorer.limits arena path id [(true, next)]
  | .ret value => do
    let id ← path.frame.getOption? value
    return [giveBack path id]
  | .revert _ => .ok []

def step (explorer : Explorer) (arena : Arena) (path : Path) :
    Except Halt (List Continuation × Arena) :=
  match path.frame.pending with
  | next :: rest =>
    explorer.instruction arena { path with frame := { path.frame with pending := rest } } next.node
  | [] => do
    let continuations ← explorer.terminator arena path path.frame.block.terminator.node
    return (continuations, arena)

def pendingOf (continuations : List Continuation) : List Path :=
  continuations.filterMap fun continuation =>
    match continuation with
    | .pending path => some path
    | .finished _ => none

def finishedOf (continuations : List Continuation) : List PathEnd :=
  continuations.filterMap fun continuation =>
    match continuation with
    | .pending _ => none
    | .finished path => some path

/-- Follows the given paths, the first one first, for at most `fuel` steps. `spawned` counts the
paths met so far, and `done` holds those that have ended, the last one first. -/
def follow (explorer : Explorer) : Nat → Arena → List Path → Nat → List PathEnd → Exploration
  | _, arena, [], _, done => ⟨done.reverse, none, arena⟩
  | 0, arena, _ :: _, _, done => ⟨done.reverse, some (.outOfFuel explorer.limits.fuel), arena⟩
  | fuel + 1, arena, path :: pending, spawned, done =>
    match explorer.step arena path with
    | .error halt => ⟨done.reverse, some halt, arena⟩
    | .ok (continuations, arena) =>
      let spawned := spawned + (continuations.length - 1)
      if spawned > explorer.limits.maxPaths then
        ⟨done.reverse, some (.tooManyPaths explorer.limits.maxPaths), arena⟩
      else
        follow explorer fuel arena ((pendingOf continuations).reverse ++ pending) spawned
          ((finishedOf continuations).reverse ++ done)

def explore (explorer : Explorer) (arena : Arena) (start : Path) : Exploration :=
  explorer.follow explorer.limits.fuel arena [start] 1 []

end Explorer

namespace Exploration

def settled (exploration : Exploration) : Except Halt Exploration :=
  match exploration.halt with
  | some halt => if halt.isFault then .error halt else .ok exploration
  | none => .ok exploration

def roots (path : PathEnd) : List SymbolId :=
  path.state.constraints.facts.flatMap LinearForm.atoms ++
    (path.state.stores.flatMap fun event => event.key.toList ++ [event.value]) ++
    path.returned.toList

def referenced (exploration : Exploration) : List (SymbolId × Symbol) :=
  exploration.arena.reachable (exploration.paths.flatMap roots)

end Exploration

def Explorer.exploreFunction (explorer : Explorer) (function : Function) :
    Except Halt Exploration :=
  match start Arena.empty function with
  | (.ok path, arena) => (explorer.explore arena path).settled
  | (.error halt, arena) => (Exploration.mk [] (some halt) arena).settled

end Covenant
