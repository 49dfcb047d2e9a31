import Covenant.Lowering.Contract
import Covenant.Run.Interpreter

/-!
The meaning of source code, told from its statements and expressions alone, without blocks,
instructions or frames. Loops and calls make it partial, so it is given some fuel, which bounds how
often a loop is gone through and how deeply calls are nested; where that does not suffice there is
no answer.
-/

namespace Covenant

structure World where
  storage : Storage
  events : List EmittedEvent
  calls : List ExternalCallRecord
deriving DecidableEq, Repr

inductive Answer (α : Type) where
  | gives (result : α) (world : World)
  | reverts (message : Option String)
deriving DecidableEq, Repr

def Meaning (α : Type) : Type := World → Option (Answer α)

namespace Meaning

def give {α : Type} (result : α) : Meaning α := fun world => some (.gives result world)

def revert {α : Type} (message : Option String) : Meaning α := fun _ => some (.reverts message)

def noAnswer {α : Type} : Meaning α := fun _ => none

def andThen {α β : Type} (first : Meaning α) (next : α → Meaning β) : Meaning β := fun world =>
  match first world with
  | none => none
  | some (.reverts message) => some (.reverts message)
  | some (.gives result changed) => next result changed

instance : Monad Meaning where
  pure := give
  bind := andThen

theorem andThen_give {α : Type} (first : Meaning α) : andThen first give = first := by
  funext world
  simp only [andThen, give]
  cases first world with
  | none => rfl
  | some answer => cases answer <;> rfl

theorem andThen_assoc {α β γ : Type} (first : Meaning α) (next : α → Meaning β)
    (last : β → Meaning γ) :
    andThen (andThen first next) last = andThen first fun result => andThen (next result) last := by
  funext world
  simp only [andThen]
  cases first world with
  | none => rfl
  | some answer => cases answer <;> rfl

instance : LawfulMonad Meaning :=
  LawfulMonad.mk' Meaning andThen_give (fun _ _ => rfl) andThen_assoc

def known {α : Type} : Option α → Meaning α
  | some value => give value
  | none => noAnswer

def load (place : StorageKey) : Meaning Nat :=
  fun world => some (.gives (world.storage.get place) world)

def store (place : StorageKey) (value : Nat) : Meaning Unit := fun world =>
  some (.gives () { world with storage := Storage.put place value world.storage })

def emit (name : String) (args : List Nat) : Meaning Unit := fun world =>
  some (.gives () { world with events := world.events ++ [⟨name, args⟩] })

def callOut (succeeds : Bool) (kind : ExternalKind) (target amount : Nat) : Meaning Nat :=
  fun world =>
  if kind == .transfer && !succeeds then some (.reverts (some "transfer failed"))
  else
    some (.gives (ofBool succeeds) { world with calls := world.calls ++ [⟨kind, target, amount⟩] })

def operate (op : BinaryOp) (ty : Ty) (lhs rhs : Nat) : Meaning Nat :=
  match op.eval? ty lhs rhs with
  | some value => give value
  | none => revert (some "division by zero")

end Meaning

structure Variable where
  ty : Ty
  value : Nat
deriving DecidableEq, Repr

abbrev Scopes := List (List (String × Variable))

namespace Scopes

def find? (scopes : Scopes) (name : String) : Option Variable :=
  scopes.findSome? fun names => names.lookup name

def declare (name : String) (var : Variable) (scopes : Scopes) : Scopes :=
  scopes.modify 0 fun names => (name, var) :: names

def setIn (name : String) (value : Nat) : List (String × Variable) → List (String × Variable)
  | [] => []
  | (first, var) :: rest =>
    if name == first then (first, { var with value }) :: rest else (first, var) ::
      setIn name value rest

def set (name : String) (value : Nat) : Scopes → Scopes
  | [] => []
  | names :: outer =>
    if (names.lookup name).isSome then setIn name value names :: outer
      else names :: set name value outer

end Scopes

structure Routine where
  params : List Param
  returns : Option TypeExpr
  body : Block

namespace ContractDecl

def fieldType? (decl : ContractDecl) (name : String) : Option Ty :=
  (decl.fields.find? fun field => field.name.name == name).map fun field => Ty.ofExpr field.ty

def signature? (decl : ContractDecl) (name : String) : Option Signature :=
  (decl.functions.find? fun function => function.name.name == name).map fun function =>
    ⟨function.params.map fun param => Ty.ofExpr param.ty, function.returns.map Ty.ofExpr⟩

/-- The code that is called `init`, or the first function with another name. -/
def routine? (decl : ContractDecl) (name : String) : Option Routine :=
  if name = "init" then decl.inits.head?.map fun handler => ⟨handler.params, none, handler.body⟩
  else (decl.functions.find? fun function => function.name.name == name).map fun function =>
    ⟨function.params, function.returns, function.body⟩

end ContractDecl

structure Surroundings where
  decl : ContractDecl
  eventTypes? : String → Option (List Ty)
  env : Environment
  callsSucceed : Bool

namespace Surroundings

variable (around : Surroundings)

/-! Types. -/

def hint? (scopes : Scopes) : Expression → Option Ty
  | .int _ _ _ => none
  | .str _ _ => none
  | .bool _ _ => some .bool
  | .not _ _ => some .bool
  | .var _ name => (scopes.find? name.name).map Variable.ty
  | .field _ field => around.decl.fieldType? field.name
  | .mapIndex _ field _ =>
    match around.decl.fieldType? field.name with
    | some (.map _ value) => some value
    | _ => none
  | .selfCall _ function _ => (around.decl.signature? function.name).bind Signature.returns
  | .env _ var => some (Ty.ofEnv var)
  | .externalCall _ .call _ _ => some .bool
  | .externalCall _ .transfer _ _ => none
  | .binary _ op lhs rhs =>
    if op.isArithmetic then (hint? scopes lhs).or (hint? scopes rhs) else some .bool

def operandHint? (scopes : Scopes) (op : BinaryOp) (lhs rhs : Expression) (expected : Option Ty) :
    Option Ty :=
  if op.isLogical then some .bool
  else ((around.hint? scopes lhs).or (around.hint? scopes rhs)).or
    (if op.isArithmetic then expected else none)

def typeOf (scopes : Scopes) : Expression → Option Ty → Ty
  | .int _ _ radix, expected => Build.literalType expected radix
  | .binary _ op lhs rhs, expected =>
    if op.isArithmetic then typeOf scopes lhs (around.operandHint? scopes op lhs rhs expected)
      else .bool
  | value, _ => (around.hint? scopes value).getD Ty.defaultInteger

def operandType (scopes : Scopes) (op : BinaryOp) (lhs rhs : Expression) (expected : Option Ty) :
    Ty :=
  if op.isLogical then .bool else around.typeOf scopes lhs
    (around.operandHint? scopes op lhs rhs expected)

def keyType? (field : String) : Option Ty :=
  match around.decl.fieldType? field with
  | some (.map key _) => some key
  | _ => none

def paramTypes (function : String) : List Ty :=
  ((around.decl.signature? function).map Signature.params).getD []

/-! Expressions. -/

abbrev Calls := String → List Nat → Meaning (Option Nat)

mutual

def value (call : Calls) (scopes : Scopes) : Expression → Option Ty → Meaning Nat
  | .int _ digits radix, _ => pure (digitsValue digits radix)
  | .bool _ truth, _ => pure (ofBool truth)
  | .str _ _, _ => Meaning.noAnswer
  | .var _ name, _ => do
    let held ← Meaning.known (scopes.find? name.name)
    return held.value
  | .field _ field, _ => Meaning.load ⟨field.name, none⟩
  | .mapIndex _ field key, _ => do
    let index ← value call scopes key (around.keyType? field.name)
    Meaning.load ⟨field.name, some index⟩
  | .selfCall _ function args, _ => do
    let given ← values call scopes args (around.paramTypes function.name)
    let result ← call function.name given
    return result.getD 0
  | .env _ var, _ => pure (around.env.get var)
  | .externalCall _ kind target amount, _ => do
    let receiver ← value call scopes target (some .address)
    let sent ← value call scopes amount (some .defaultInteger)
    Meaning.callOut around.callsSucceed kind receiver sent
  | .binary _ op lhs rhs, expected => do
    let left ← value call scopes lhs (around.operandHint? scopes op lhs rhs expected)
    let right ← value call scopes rhs (some (around.operandType scopes op lhs rhs expected))
    Meaning.operate op (around.operandType scopes op lhs rhs expected) left right
  | .not _ operand, _ => do
    let truth ← value call scopes operand (some .bool)
    return ofBool (truth == 0)

def values (call : Calls) (scopes : Scopes) : List Expression → List Ty → Meaning (List Nat)
  | [], _ => pure []
  | _ :: _, [] => pure []
  | first :: rest, ty :: types => do
    let head ← value call scopes first (some ty)
    let tail ← values call scopes rest types
    return head :: tail

end

/-! Statements. -/

end Surroundings

inductive Flow where
  | next
  | returned (value : Option Nat)
deriving DecidableEq, Repr

abbrev Effectful := Scopes → Meaning (Flow × Scopes)

namespace Meaning

def sequence (first second : Effectful) : Effectful := fun scopes => do
  let (flow, changed) ← first scopes
  match flow with
  | .next => second changed
  | .returned result => return (.returned result, changed)

def enclosed (body : Effectful) : Effectful := fun scopes => do
  let (flow, changed) ← body ([] :: scopes)
  return (flow, changed.tail)

def choose (condition : Scopes → Meaning Nat) (yes no : Effectful) : Effectful := fun scopes => do
  let truth ← condition scopes
  if truth != 0 then yes scopes else no scopes

def repeatWhile (condition : Scopes → Meaning Nat) (body : Effectful) : Nat → Effectful
  | 0, _ => noAnswer
  | fuel + 1, scopes => do
    let truth ← condition scopes
    if truth != 0 then sequence body (repeatWhile condition body fuel) scopes
    else return (.next, scopes)

end Meaning

inductive Target where
  | var (name : String) (ty : Ty)
  | place (place : StorageKey) (ty : Ty)

namespace Target

def ty : Target → Ty
  | var _ ty => ty
  | place _ ty => ty

def read (scopes : Scopes) : Target → Meaning Nat
  | .var name _ => do
    let held ← Meaning.known (scopes.find? name)
    return held.value
  | .place spot _ => Meaning.load spot

def write (scopes : Scopes) (result : Nat) : Target → Meaning (Flow × Scopes)
  | .var name _ => pure (.next, scopes.set name result)
  | .place spot _ => do
    Meaning.store spot result
    return (.next, scopes)

end Target

namespace Surroundings

variable (around : Surroundings)

def target (call : Calls) (scopes : Scopes) : Place → Meaning Target
  | .slot name => do
    let held ← Meaning.known (scopes.find? name.name)
    return .var name.name held.ty
  | .field field => do
    let ty ← Meaning.known (around.decl.fieldType? field.name)
    return .place ⟨field.name, none⟩ ty
  | .mapEntry field key => do
    let index ← around.value call scopes key (around.keyType? field.name)
    let ty ← Meaning.known (around.hint? scopes (.mapIndex key.span field key))
    return .place ⟨field.name, some index⟩ ty

def assign (call : Calls) (scopes : Scopes) (written : Place) (op : AssignOp)
    (source : Expression) :
    Meaning (Flow × Scopes) := do
  let target ← around.target call scopes written
  match op.binaryOp? with
  | none =>
    let result ← around.value call scopes source (some target.ty)
    target.write scopes result
  | some operator =>
    let before ← target.read scopes
    let operand ← around.value call scopes source (some target.ty)
    let result ← Meaning.operate operator target.ty before operand
    target.write scopes result

def declaration (call : Calls) (scopes : Scopes) (name : Ident) (written : Option TypeExpr)
    (source : Expression) :
    Meaning (Flow × Scopes) := do
  let expected := written.map Ty.ofExpr
  let held ← around.value call scopes source expected
  let ty := expected.getD (around.typeOf scopes source none)
  return (.next, scopes.declare name.name ⟨ty, held⟩)

def guarded (call : Calls) (scopes : Scopes) (condition : Expression) (message : Option String) :
    Meaning (Flow × Scopes) := do
  let truth ← around.value call scopes condition (some .bool)
  if truth != 0 then return (.next, scopes) else Meaning.revert message

mutual

def statement (call : Calls) (fuel : Nat) (returns : Option Ty) : Statement → Effectful
  | .declare _ name written source =>
    fun scopes => around.declaration call scopes name written source
  | .assign _ written op source => fun scopes => around.assign call scopes written op source
  | .require _ condition message => fun scopes => around.guarded call scopes condition message
  | .assert _ condition => fun scopes => around.guarded call scopes condition none
  | .revert _ message => fun _ => Meaning.revert message
  | .branch _ condition thenBlock none =>
    Meaning.choose (fun scopes => around.value call scopes condition (some .bool))
      (block call fuel returns thenBlock) (fun scopes => pure (.next, scopes))
  | .branch _ condition thenBlock (some elseBlock) =>
    Meaning.choose (fun scopes => around.value call scopes condition (some .bool))
      (block call fuel returns thenBlock) (block call fuel returns elseBlock)
  | .loop _ condition body =>
    Meaning.repeatWhile (fun scopes => around.value call scopes condition (some .bool))
      (block call fuel returns body) fuel
  | .ret _ none => fun scopes => pure (.returned none, scopes)
  | .ret _ (some source) => fun scopes => do
    let result ← around.value call scopes source returns
    return (.returned (some result), scopes)
  | .emit _ event args => fun scopes => do
    let types ← Meaning.known (around.eventTypes? event.name)
    let given ← around.values call scopes args types
    Meaning.emit event.name given
    return (.next, scopes)
  | .expression _ (.selfCall _ function args) => fun scopes => do
    let given ← around.values call scopes args (around.paramTypes function.name)
    let _ ← call function.name given
    return (.next, scopes)
  | .expression _ source => fun scopes => do
    let _ ← around.value call scopes source none
    return (.next, scopes)

def statements (call : Calls) (fuel : Nat) (returns : Option Ty) : List Statement → Effectful
  | [] => fun scopes => pure (.next, scopes)
  | first :: rest =>
    Meaning.sequence (statement call fuel returns first) (statements call fuel returns rest)

def block (call : Calls) (fuel : Nat) (returns : Option Ty) : Block → Effectful
  | .mk body _ => Meaning.enclosed (statements call fuel returns body)

end

/-! Functions. -/

def parameters (params : List Param) (args : List Nat) : Scopes :=
  (params.zip args).foldl
    (fun scopes (param, arg) => scopes.declare param.name.name ⟨Ty.ofExpr param.ty, arg⟩) [[]]

def routine (call : Calls) (fuel : Nat) (code : Routine) (args : List Nat) : Meaning (Option Nat) :=
  do
  let (flow, _) ← around.block call fuel (code.returns.map Ty.ofExpr) code.body
    (parameters code.params args)
  match flow with
  | .next => return none
  | .returned result => return result

def call : Nat → Calls
  | 0, _, _ => Meaning.noAnswer
  | fuel + 1, name, args => do
    let code ← Meaning.known (around.decl.routine? name)
    around.routine (call fuel) fuel code args

/-- Calls a function from outside: arguments are cut down to the types of the parameters, and a call
that reverts leaves everything as it was. -/
def transaction (fuel : Nat) (name : String) (args : List Nat) (storage : Storage) :
    Option (CallResult × World) := do
  let code ← around.decl.routine? name
  let given := List.zipWith (fun param arg => (Ty.ofExpr param.ty).wrap arg) code.params args
  match ← around.call fuel name given ⟨storage, [], []⟩ with
  | .gives result world => return (.returned result, world)
  | .reverts message => return (.reverted message, ⟨storage, [], []⟩)

end Surroundings

end Covenant
