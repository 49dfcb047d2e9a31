import Covenant.Property.Inference
import Covenant.Property.Witness

/-!
Deciding whether contracts have properties. A property is examined for each function that could
break it: the function is followed along all its paths from any state in which the property holds,
and it must hold again at the end of each path. It counts as verified only if all paths were found.
If it is not, inputs that break it are looked for; if there are none, nothing is said, for a reason.
-/

namespace Covenant

namespace Property

def requireField (contract : Contract) (name : String) : Except Doubt Field :=
  match contract.field? name with
  | some field => .ok field
  | none => .error (.unknownField contract.name name)

def requireInteger (contract : Contract) (name : String) : Except Doubt Unit := do
  let field ← requireField contract name
  if field.ty.isInteger then return () else throw (.notInteger name field.ty)

def validate (contract : Contract) (summaries : Summaries) : Rule → Except Doubt Unit
  | .boundedBy field (.field bound) => do
    requireInteger contract field
    requireInteger contract bound
  | .boundedBy field (.function bound) => do
    requireInteger contract field
    if contract.isBoundFunction summaries bound then return () else throw (.notBound bound)
  | .noUnderflow name => do
    let field ← requireField contract name
    if contract.holdsIntegers name then return () else throw (.cannotUnderflow name field.ty)
  | .ownerOnly name owner => do
    let _ ← requireField contract name
    let holder ← requireField contract owner
    if holder.ty == .address then return () else throw (.notAddress owner holder.ty)

def dependencies (contract : Contract) (summaries : Summaries) : Rule → List String
  | .boundedBy field (.field bound) => [field, bound]
  | .boundedBy field (.function bound) =>
    match summaries.get? contract.name bound with
    | some summary => field :: summary.effect.reads
    | none => [field]
  | .noUnderflow field => [field]
  | .ownerOnly field _ => [field]

def relevantFunctions (contract : Contract) (summaries : Summaries) (rule : Rule) : List Function :=
  let fields := dependencies contract summaries rule
  contract.entryPoints.filter fun function =>
    (match rule with
      | .ownerOnly _ _ => function.kind == .everyone
      | _ => true) &&
    match summaries.get? contract.name function.name with
    | some summary => summary.effect.writes.any fields.contains
    | none => false

end Property

namespace Explorer

def margin? (explorer : Explorer) (arena : Arena) (state : PathState) (field : String)
    (bound : Bound) :
    Option (LinearForm × PathState) × Arena :=
  match explorer.fieldValue arena state field none with
  | .error _ => (none, arena)
  | .ok (value, arena) =>
    let limit := match bound with
      | .field name => explorer.fieldValue arena state name none
      | .function name => explorer.callValue arena state name []
    match limit with
    | .error _ => (none, arena)
    | .ok (limit, arena) =>
      (do
        let (valueForm, state) ← state.linear? arena value
        let (limitForm, state) ← state.linear? arena limit
        let difference ← limitForm.sub? valueForm
        return (difference, state), arena)

def assumeRule (explorer : Explorer) (arena : Arena) (state : PathState) :
    Rule → Except Halt (PathState × Arena)
  | .boundedBy field bound =>
    match explorer.margin? arena state field bound with
    | (some (form, state), arena) => do
      let (state, _) ← state.assume ⟨form, []⟩
      return (state, arena)
    | (none, arena) => .ok (state, arena)
  | _ => .ok (state, arena)

def isKnown (state : PathState) : Option LinearForm → Except Halt Bool
  | some form => Halt.orOverflow (state.constraints.entails? form)
  | none => .ok false

def senderIsOwner (explorer : Explorer) (arena : Arena) (state : PathState) (owner : String) :
    Except Halt (Bool × Arena) :=
  match explorer.contract.field? owner with
  | none => .ok (false, arena)
  | some declared =>
    let (holder, arena) := arena.intern (.field owner none 0) declared.ty
    let (sender, arena) := arena.intern (.env .sender) .address
    let forms := do
      let (senderForm, state) ← state.linear? arena sender
      let (holderForm, state) ← state.linear? arena holder
      return (senderForm, holderForm, state)
    match forms with
    | none => .ok (false, arena)
    | some (senderForm, holderForm, state) => do
      let above ← isKnown state (senderForm.sub? holderForm)
      if above then
        let below ← isKnown state (holderForm.sub? senderForm)
        return (below, arena)
      else return (false, arena)

def holdsAtEnd (explorer : Explorer) (arena : Arena) (path : PathEnd) :
    Rule → Except Halt (Bool × Arena)
  | .boundedBy field bound =>
    match explorer.margin? arena path.state field bound with
    | (some (form, state), arena) => do
      let known ← isKnown state (some form)
      return (known, arena)
    | (none, arena) => .ok (false, arena)
  | .noUnderflow field =>
    .ok (path.state.stores.all fun event => event.field != field || !arena.underflows event.value,
      arena)
  | .ownerOnly field owner =>
    if path.state.stores.any fun event => event.field == field then
      explorer.senderIsOwner arena path.state owner
    else .ok (true, arena)

def holdsAtEnds (explorer : Explorer) (rule : Rule) : Arena → List PathEnd → Except Halt Bool
  | _, [] => .ok true
  | arena, path :: rest => do
    let (holds, arena) ← explorer.holdsAtEnd arena path rule
    if holds then explorer.holdsAtEnds rule arena rest else return false

def assumeAtStart (explorer : Explorer) (function : Function) (rule : Rule) (arena : Arena)
    (path : Path) :
    Except Halt (PathState × Arena) :=
  if function.kind == .init then .ok (path.state, arena)
    else explorer.assumeRule arena path.state rule

def proves (explorer : Explorer) (function : Function) (rule : Rule) : Except Halt Bool :=
  match start Arena.empty function with
  | (.error halt, _) => .error halt
  | (.ok path, arena) => do
    let (state, arena) ← explorer.assumeAtStart function rule arena path
    let exploration := explorer.explore arena { path with state }
    match exploration.halt with
    | some halt => throw halt
    | none => explorer.holdsAtEnds rule exploration.arena exploration.paths

def doubt? (explorer : Explorer) (function : Function) (rule : Rule) : Except Halt (Option Doubt) :=
  match explorer.proves function rule with
  | .error halt =>
    if halt.isFault then .error halt else .ok (some (.stoppedEarly function.name halt))
  | .ok true => .ok none
  | .ok false => .ok (some (.notProven function.name))

def examine (explorer : Explorer) (rule : Rule) : List Function → Option Doubt → Except Halt Verdict
  | [], none => .ok .verified
  | [], some doubt => .ok (.unknown doubt)
  | function :: rest, earlier =>
    match explorer.doubt? function rule with
    | .error halt => .error halt
    | .ok none => explorer.examine rule rest earlier
    | .ok (some doubt) =>
      match Witness.search? explorer.contract explorer.limits function rule with
      | some counterexample => .ok (.violated counterexample)
      | none => explorer.examine rule rest (earlier.or (some doubt))

end Explorer

namespace ContractSet

def check (set : ContractSet) (summaries : Summaries) (limits : VerifierLimits)
    (property : Property) :
    Except Halt Verdict :=
  match set.contract? property.contract with
  | none => .ok (.unknown (.unknownContract property.contract))
  | some contract =>
    match Property.validate contract summaries property.rule with
    | .error doubt => .ok (.unknown doubt)
    | .ok () =>
      Explorer.examine ⟨contract, summaries, limits⟩ property.rule
        (Property.relevantFunctions contract summaries property.rule) none

def verify (set : ContractSet) (limits : VerifierLimits) (properties : List Property) :
    Except Halt (List Verification) :=
  let (summaries, cost) := Summaries.ofSet set
  if cost > limits.fuel then
    .ok (properties.map fun property => ⟨property, .unknown (.outOfBudget "verifier" limits.fuel)⟩)
  else
    properties.mapM fun property => do
      let verdict ← set.check summaries limits property
      return ⟨property, verdict⟩

end ContractSet

end Covenant
