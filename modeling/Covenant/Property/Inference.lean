import Covenant.Property.Basic
import Covenant.Symbolic.Explorer

/-!
The properties that a contract evidently means to have. Comparing a field that a function writes
with the result of a function that only reads suggests a bound; writing a difference suggests that
it must not go below zero; and comparing the sender with the address recorded at deployment suggests
that only that address may change what is written.
-/

namespace Covenant

namespace Contract

def isBoundFunction (contract : Contract) (summaries : Summaries) (name : String) : Bool :=
  match contract.function? name with
  | some function =>
    function.params.isEmpty && (function.returns.map Ty.isInteger).getD false &&
      contract.isOpaque summaries name
  | none => false

def isIntegerField (contract : Contract) (name : String) : Bool :=
  match contract.field? name with
  | some field => field.ty.isInteger
  | none => false

def holdsIntegers (contract : Contract) (name : String) : Bool :=
  match contract.field? name with
  | some field =>
    match field.ty with
    | .map _ value => value.isInteger
    | ty => ty.isInteger
  | none => false

def suggestedBounds (contract : Contract) (summaries : Summaries) (function : Function) :
    List Rule :=
  let writes := match summaries.get? contract.name function.name with
    | some summary => summary.effect.writes
    | none => []
  function.conditions.flatMap fun (site, _) =>
    let origins := function.origins site
    let bounds := origins.filterMap fun origin =>
      match origin with
      | .call callee => if contract.isBoundFunction summaries callee then some callee else none
      | _ => none
    let fields := origins.filterMap fun origin =>
      match origin with
      | .field field =>
        if writes.contains field && contract.isIntegerField field then some field else none
      | _ => none
    bounds.flatMap fun bound => fields.map fun field => .boundedBy field (.function bound)

def storedDifferences (contract : Contract) (function : Function) : List String :=
  let stores := function.instructions.filterMap fun (block, instruction) =>
    match instruction.node with
    | .storeField field _ value =>
      if contract.holdsIntegers field then some (field, Site.mk block value) else none
    | _ => none
  function.instructions.flatMap fun (block, instruction) =>
    match instruction.node with
    | .binary dest .sub _ _ _ =>
      let derived := function.derived ⟨block, dest⟩
      stores.filterMap fun store => if derived.contains store.2 then some store.1 else none
    | _ => []

def owners (contract : Contract) : List String :=
  match contract.init? with
  | none => []
  | some init =>
    init.instructions.filterMap fun (block, instruction) =>
      match instruction.node with
      | .storeField field none value =>
        if (contract.field? field).any (fun declared => declared.ty == .address) &&
            init.origins ⟨block, value⟩ == [.env .sender] then some field
        else none
      | _ => none

def checksSenderAgainst (contract : Contract) (function : Function) (owner : String) : Bool :=
  (function :: function.callees.filterMap contract.function?).any fun checked =>
    checked.conditions.any fun (site, _) =>
      let origins := checked.origins site
      origins.contains (.env .sender) && origins.contains (.field owner)

def suggestedOwners (contract : Contract) (summaries : Summaries) : List Rule :=
  contract.owners.flatMap fun owner => contract.entryPoints.flatMap fun function =>
    if function.kind == .everyone && contract.checksSenderAgainst function owner then
      match summaries.get? contract.name function.name with
      | some summary =>
        (summary.effect.sharedWrites.filter fun field => field != owner).map fun field =>
          .ownerOnly field owner
      | none => []
    else []

def suggestedRules (contract : Contract) (summaries : Summaries) : List Rule :=
  (contract.functions.flatMap fun function =>
    contract.suggestedBounds summaries function ++
      (contract.storedDifferences function).map .noUnderflow) ++
  contract.suggestedOwners summaries

end Contract

namespace Property

/-- The properties that contracts evidently mean to have, in their order and each one once. There
are none if the effects of their functions cannot be summarized within the budget. -/
def infer (set : ContractSet) : List Property :=
  let (summaries, cost) := Summaries.ofSet set
  if cost > VerifierLimits.standard.fuel then []
  else
    let found := set.contracts.flatMap fun contract =>
      (contract.suggestedRules summaries).map fun rule => Property.mk contract.name rule
    found.eraseDups.mergeSort fun left right => (left.order right).isLE

end Property

end Covenant
