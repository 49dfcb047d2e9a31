import Covenant.Code.Contract

/-!
Where the values of a function come from and where they go. Values stay inside their block, so
everything that crosses blocks goes through local variables; loading a local variable is taken to
give any value ever stored to it.
-/

namespace Covenant

inductive Origin where
  | env (var : EnvVar)
  | field (name : String)
  | param (index : LocalId)
  | const (value : Nat)
  | call (function : String)
  | external
deriving DecidableEq, Repr

namespace Origin

def isConst : Origin → Bool
  | const _ => true
  | _ => false

def rank : Origin → Nat
  | env _ => 0
  | field _ => 1
  | param _ => 2
  | const _ => 3
  | call _ => 4
  | external => 5

def order : Origin → Origin → Ordering
  | env left, env right => compare left.rank right.rank
  | field left, field right => compare left right
  | param left, param right => compare left right
  | const left, const right => compare left right
  | call left, call right => compare left right
  | left, right => compare left.rank right.rank

end Origin

structure Site where
  block : BlockId
  value : ValueId
deriving DecidableEq, Repr

namespace Function

def definitionAt? (function : Function) (site : Site) : Option Instruction :=
  ((function.block? site.block).bind fun block => block.definition? site.value).map Located.node

def storesTo (function : Function) (slot : LocalId) : List Site :=
  function.instructions.filterMap fun (block, instruction) =>
    match instruction.node with
    | .storeLocal target value => if target == slot then some ⟨block, value⟩ else none
    | _ => none

def inputsOf (function : Function) (site : Site) : List Site :=
  match function.definitionAt? site with
  | some (.loadLocal _ slot) => function.storesTo slot
  | some (.binary _ _ _ lhs rhs) => [⟨site.block, lhs⟩, ⟨site.block, rhs⟩]
  | some (.not _ operand) => [⟨site.block, operand⟩]
  | _ => []

def sourceAt? (function : Function) (site : Site) : Option Origin :=
  match function.definitionAt? site with
  | some (.const _ value _) => some (.const value)
  | some (.env _ var) => some (.env var)
  | some (.loadLocal _ slot) => if slot < function.params.length then some (.param slot) else none
  | some (.loadField _ field _) => some (.field field)
  | some (.call _ callee _) => some (.call callee)
  | some (.externalCall _ _ _ _) => some .external
  | _ => none

def slotAt? (function : Function) (site : Site) : Option LocalId :=
  match function.definitionAt? site with
  | some (.loadLocal _ slot) => some slot
  | _ => none

def tracePatience (function : Function) : Nat :=
  (function.instructions.length + 2) * (function.instructions.length + 2)

end Function

structure Tracing where
  sites : List Site
  slots : List LocalId
  origins : List Origin
deriving DecidableEq, Repr

structure Spreading where
  sites : List Site
  slots : List LocalId
deriving DecidableEq, Repr

namespace Spreading

def addSite (found : Spreading) (site : Site) : Spreading :=
  if found.sites.contains site then found else { found with sites := site :: found.sites }

def addSlot (found : Spreading) (slot : LocalId) : Spreading :=
  if found.slots.contains slot then found else { found with slots := slot :: found.slots }

def pass (found : Spreading) (entry : BlockId × Located Instruction) : Spreading :=
  match entry.2.node with
  | .binary dest _ _ lhs rhs =>
    if found.sites.contains ⟨entry.1, lhs⟩ || found.sites.contains ⟨entry.1, rhs⟩ then found.addSite
      ⟨entry.1, dest⟩
    else found
  | .not dest operand =>
    if found.sites.contains ⟨entry.1, operand⟩ then found.addSite ⟨entry.1, dest⟩ else found
  | .loadLocal dest slot =>
    if found.slots.contains slot then found.addSite ⟨entry.1, dest⟩ else found
  | .storeLocal slot value =>
    if found.sites.contains ⟨entry.1, value⟩ then found.addSlot slot else found
  | _ => found

end Spreading

namespace Function

/-- Looks at the values on the stack and at those that they are computed from, unless that takes
more than `fuel` steps. Values that were met before are passed over, and so are loads of local
variables that were. -/
def trace? (function : Function) : Nat → Tracing → List Site → Option Tracing
  | _, found, [] => some found
  | 0, _, _ :: _ => none
  | fuel + 1, found, site :: stack =>
    if found.sites.contains site then function.trace? fuel found stack
    else if (function.slotAt? site).any found.slots.contains then
      function.trace? fuel { found with sites := site :: found.sites } stack
    else
      function.trace? fuel
        { sites := site :: found.sites
          slots := (function.slotAt? site).toList ++ found.slots
          origins := (function.sourceAt? site).toList ++ found.origins }
        ((function.inputsOf site).reverse ++ stack)

def foundOrigins (function : Function) (site : Site) : List Origin :=
  ((function.trace? function.tracePatience ⟨[], [], []⟩ [site]).map Tracing.origins).getD []

def origins (function : Function) (site : Site) : List Origin :=
  (function.foundOrigins site).eraseDups.mergeSort fun left right => (left.order right).isLE

def spread? (function : Function) : Nat → Spreading → Option Spreading
  | 0, _ => none
  | fuel + 1, found =>
    let more := function.instructions.foldl Spreading.pass found
    if more == found then some found else function.spread? fuel more

def derived (function : Function) (site : Site) : List Site :=
  ((function.spread? function.tracePatience ⟨[site], []⟩).map Spreading.sites).getD []

def conditions (function : Function) : List (Site × Terminator) :=
  function.blocks.filterMap fun block =>
    block.terminator.node.condition?.map fun condition =>
      (⟨block.id, condition⟩, block.terminator.node)

def reachesStore (function : Function) (site : Site) : Bool :=
  let sites := function.derived site
  function.instructions.any fun (block, instruction) =>
    match instruction.node with
    | .storeField _ _ value => sites.contains ⟨block, value⟩
    | _ => false

def reachesCondition (function : Function) (site : Site) : Bool :=
  let sites := function.derived site
  function.conditions.any fun (condition, _) => sites.contains condition

end Function

end Covenant
