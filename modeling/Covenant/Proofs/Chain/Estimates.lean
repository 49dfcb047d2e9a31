import Covenant.Proofs.Chain.PathCosts
import Covenant.Proofs.Failure
import Covenant.Proofs.Scan.Summaries
import Mathlib.Data.List.Perm.Subperm
import Mathlib.Logic.Relation

/-!
The costs of functions that are found on the way to an estimate. Where no function calls itself,
through others or not, each cost is that of the function's graph, its blocks costing what their
instructions and the functions that they call cost by the same table.
-/

namespace Covenant

/-- Whether a function of a contract calls the function with the given name. -/
def Contract.Calls (contract : Contract) (name callee : String) : Prop :=
  ∃ function, contract.function? name = some function ∧ callee ∈ function.callees

namespace GasTable

def Extends (table more : GasTable) : Prop :=
  ∀ name cost, table.lookup name = some cost → more.lookup name = some cost

theorem Extends.refl (table : GasTable) : table.Extends table := fun _ _ found => found

theorem Extends.trans {first second third : GasTable} (before : first.Extends second)
    (behind : second.Extends third) :
    first.Extends third :=
  fun name cost found => behind name cost (before name cost found)

theorem extends_cons {table : GasTable} {name : String} (fresh : table.lookup name = none)
    (cost : Nat) :
    table.Extends ((name, cost) :: table) := by
  intro other held found
  have apart : other ≠ name := by
    rintro rfl
    simp [fresh] at found
  rw [List.lookup_cons, beq_false_of_ne apart]
  exact found

end GasTable

namespace GasSetting

variable {setting : GasSetting} {table more : GasTable}

def charge (setting : GasSetting) : Instruction → Nat
  | .emit _ args => setting.schedule.event + setting.schedule.eventArg * args.length
  | instruction => setting.ownCost instruction

def calleeCost (setting : GasSetting) (table : GasTable) : Instruction → Nat
  | .call _ name _ =>
    match setting.contract.function? name with
    | some callee => (table.lookup callee.name).getD 0
    | none => 0
  | _ => 0

def chargeAll (setting : GasSetting) (table : GasTable) : List (Located Instruction) → Nat
  | [] => 0
  | instruction :: rest =>
    setting.charge instruction.node + setting.calleeCost table instruction.node +
      setting.chargeAll table rest

def blockCharge (setting : GasSetting) (table : GasTable) (block : BasicBlock) : Nat :=
  setting.chargeAll table block.instructions + setting.endCost block.terminator.node

def blockWeight (setting : GasSetting) (table : GasTable) (function : Function) (id : BlockId) :
    Nat :=
  match function.block? id with
  | some block => setting.blockCharge table block
  | none => 0

def Knows (setting : GasSetting) (table : GasTable) (instruction : Instruction) : Prop :=
  ∀ dest name args callee, instruction = .call dest name args → setting.contract.function? name =
    some callee →
    ∃ cost, table.lookup callee.name = some cost

structure Priced (setting : GasSetting) (table : GasTable) (function : Function) (cost : Nat) :
    Prop where
  known : ∀ block ∈ function.blocks, ∀ instruction ∈ block.instructions,
    setting.Knows table instruction.node
  cost : ∃ costs, cost = setting.graphCost (FlowGraph.ofFunction function) costs ∧
    ∀ id, GasCovers (costs.getD id 0) (setting.blockWeight table function id)

def Settled (setting : GasSetting) (table : GasTable) : Prop :=
  ∀ name cost, table.lookup name = some cost →
    ∃ function, setting.contract.function? name = some function ∧ setting.Priced table function cost

theorem covers_blockWeight {function : Function} {costs : List Nat}
    (covers : ∀ id block, function.block? id = some block →
      GasCovers (costs.getD id 0) (setting.blockCharge table block)) :
    ∀ id, GasCovers (costs.getD id 0) (setting.blockWeight table function id) := by
  intro id
  unfold blockWeight
  split
  · rename_i block found
    exact covers id block found
  · exact Nat.le_trans (Nat.min_le_left 0 _) (Nat.zero_le _)

theorem covers_ownCost (setting : GasSetting) (instruction : Instruction) :
    GasCovers (setting.ownCost instruction) (setting.charge instruction) := by
  cases instruction with
  | emit event args =>
    simp only [GasCovers, ownCost, charge, gasAdd, gasMul]
    omega
  | _ => exact Nat.min_le_left _ _

theorem Knows.mono {instruction : Instruction} (knows : setting.Knows table instruction)
    (wider : table.Extends more) :
    setting.Knows more instruction := by
  intro dest name args callee calls found
  obtain ⟨cost, there⟩ := knows dest name args callee calls found
  exact ⟨cost, wider _ _ there⟩

theorem Knows.calleeCost_eq {instruction : Instruction} (knows : setting.Knows table instruction)
    (wider : table.Extends more) :
    setting.calleeCost more instruction = setting.calleeCost table instruction := by
  cases instruction with
  | call dest name args =>
    simp only [calleeCost]
    split
    · rename_i callee found
      obtain ⟨cost, there⟩ := knows dest name args callee rfl found
      rw [there, wider _ _ there]
    · rfl
  | _ => rfl

theorem chargeAll_eq {instructions : List (Located Instruction)}
    (known : ∀ instruction ∈ instructions, setting.Knows table instruction.node)
    (wider : table.Extends more) :
    setting.chargeAll more instructions = setting.chargeAll table instructions := by
  induction instructions with
  | nil => rfl
  | cons first rest ih =>
    obtain ⟨here, later⟩ := List.forall_mem_cons.mp known
    rw [chargeAll, chargeAll, here.calleeCost_eq wider, ih later]

theorem Priced.mono {function : Function} {cost : Nat} (priced : setting.Priced table function cost)
    (wider : table.Extends more) : setting.Priced more function cost := by
  obtain ⟨costs, same, covers⟩ := priced.cost
  refine ⟨fun block member instruction listed => (priced.known block member instruction listed).mono
    wider, costs, same, covers_blockWeight fun id block found => ?_⟩
  have covered := covers id
  rw [blockWeight, found] at covered
  unfold blockCharge at covered ⊢
  rwa [chargeAll_eq (priced.known block (List.mem_of_getElem? found)) wider]

structure Fills (setting : GasSetting) (active : List String) (table more : GasTable) : Prop where
  wider : table.Extends more
  settled : setting.Settled more
  kept : ∀ name ∈ active, more.lookup name = table.lookup name

theorem Settled.fills (settled : setting.Settled table) (active : List String) :
    setting.Fills active table table :=
  ⟨.refl table, settled, fun _ _ => rfl⟩

theorem Fills.trans {active : List String} {last : GasTable}
    (before : setting.Fills active table more) (behind : setting.Fills active more last) :
    setting.Fills active table last :=
  ⟨before.wider.trans behind.wider, behind.settled,
    fun name listed => (behind.kept name listed).trans (before.kept name listed)⟩

theorem Fills.insert {active : List String} {function : Function} {cost : Nat}
    (fills : setting.Fills (function.name :: active) table more) (fresh : function.name ∉ active)
    (unknown : table.lookup function.name = none)
    (known : setting.contract.function? function.name = some function)
    (priced : setting.Priced more function cost) :
    setting.Fills active table ((function.name, cost) :: more) := by
  have wider := GasTable.extends_cons ((fills.kept function.name List.mem_cons_self).trans unknown)
  refine ⟨fills.wider.trans (wider _), fun name held there => ?_, fun name listed => ?_⟩
  · rw [List.lookup_cons] at there
    by_cases same : name = function.name
    · subst same
      rw [beq_self_eq_true] at there
      obtain rfl := Option.some.inj there
      exact ⟨function, known, priced.mono (wider _)⟩
    · rw [beq_false_of_ne same] at there
      obtain ⟨other, found, right⟩ := fills.settled name held there
      exact ⟨other, found, right.mono (wider _)⟩
  · have apart : name ≠ function.name := fun same => fresh (same ▸ listed)
    rw [List.lookup_cons, beq_false_of_ne apart]
    exact fills.kept name (List.mem_cons_of_mem _ listed)

def Finds (setting : GasSetting) (active : List String)
    (callee : GasTable → Function → Nat × GasTable) (function : Function) : Prop :=
  ∀ table, setting.Settled table → setting.Fills active table (callee table function).2 ∧
    (callee table function).2.lookup function.name = some (callee table function).1

def addCost (setting : GasSetting) (callee : GasTable → Function → Nat × GasTable)
    (found : Nat × GasTable) (instruction : Instruction) : Nat × GasTable :=
  match instruction with
  | .call _ name _ =>
    match setting.contract.function? name with
    | some function =>
      (gasAdd found.1 (gasAdd (setting.ownCost instruction) (callee found.2 function).1),
        (callee found.2 function).2)
    | none => (gasAdd found.1 (setting.ownCost instruction), found.2)
  | node => (gasAdd found.1 (setting.ownCost node), found.2)

theorem blockCost_eq (setting : GasSetting) (callee : GasTable → Function → Nat × GasTable)
    (table : GasTable) (block : BasicBlock) : setting.blockCost callee table block =
      block.instructions.foldl
        (fun found instruction => setting.addCost callee found instruction.node)
        (setting.endCost block.terminator.node, table) := by
  unfold blockCost
  congr 1

variable {active : List String} {callee : GasTable → Function → Nat × GasTable}

theorem addCost_spec {instruction : Instruction} {found : Nat × GasTable} {exact : Nat}
    (finds : ∀ dest name args function, instruction = .call dest name args →
      setting.contract.function? name = some function → setting.Finds active callee function)
    (settled : setting.Settled found.2) (covers : GasCovers found.1 exact) :
    setting.Fills active found.2 (setting.addCost callee found instruction).2 ∧
      setting.Knows (setting.addCost callee found instruction).2 instruction ∧
      GasCovers (setting.addCost callee found instruction).1
        (exact + (setting.charge instruction +
          setting.calleeCost (setting.addCost callee found instruction).2 instruction)) := by
  have own := setting.covers_ownCost instruction
  by_cases calls : ∃ dest name args function, instruction = .call dest name args ∧
      setting.contract.function? name = some function
  · obtain ⟨dest, name, args, function, rfl, called⟩ := calls
    obtain ⟨fills, there⟩ := finds dest name args function rfl called found.2 settled
    simp only [addCost, called, calleeCost]
    refine ⟨fills, ?_, ?_⟩
    · intro _ other _ callee same known
      obtain ⟨_, rfl, _⟩ := Instruction.call.inj same
      obtain rfl := Option.some.inj (called.symm.trans known)
      exact ⟨_, there⟩
    · rw [there]
      exact covers.add (own.add (Nat.min_le_left _ _))
  · have plain : setting.addCost callee found instruction =
      (gasAdd found.1 (setting.ownCost instruction), found.2) ∧
        setting.calleeCost found.2 instruction = 0 := by
      cases instruction with
      | call dest name args =>
        cases called : setting.contract.function? name with
        | some function => exact absurd ⟨dest, name, args, function, rfl, called⟩ calls
        | none => simp [addCost, calleeCost, called]
      | _ => exact ⟨rfl, rfl⟩
    rw [plain.1]
    refine ⟨settled.fills active, fun dest name args function same known => ?_, ?_⟩
    · exact absurd ⟨dest, name, args, function, same, known⟩ calls
    · rw [plain.2, Nat.add_zero]
      exact covers.add own

theorem addCosts_spec {instructions : List (Located Instruction)} {found : Nat × GasTable}
    {exact : Nat}
    (finds : ∀ instruction ∈ instructions, ∀ dest name args function, instruction.node =
      .call dest name args →
      setting.contract.function? name = some function → setting.Finds active callee function)
    (settled : setting.Settled found.2) (covers : GasCovers found.1 exact) :
    let last := instructions.foldl
      (fun found instruction => setting.addCost callee found instruction.node) found
    setting.Fills active found.2 last.2 ∧
      (∀ instruction ∈ instructions, setting.Knows last.2 instruction.node) ∧
      GasCovers last.1 (exact + setting.chargeAll last.2 instructions) := by
  induction instructions generalizing found exact with
  | nil => exact ⟨settled.fills active, by simp, by simpa [chargeAll] using covers⟩
  | cons first rest ih =>
    obtain ⟨here, later⟩ := List.forall_mem_cons.mp finds
    obtain ⟨fills, knows, covered⟩ := addCost_spec here settled covers
    obtain ⟨further, known, whole⟩ := ih later fills.settled covered
    refine ⟨fills.trans further, List.forall_mem_cons.mpr ⟨knows.mono further.wider, known⟩, ?_⟩
    rw [List.foldl_cons]
    simp only [chargeAll, knows.calleeCost_eq further.wider] at whole ⊢
    rwa [← Nat.add_assoc]

theorem blockCosts_spec {blocks : List BasicBlock}
    (finds : ∀ block ∈ blocks, ∀ instruction ∈ block.instructions, ∀ dest name args function,
      instruction.node = .call dest name args → setting.contract.function? name = some function →
        setting.Finds active callee function)
    (settled : setting.Settled table) :
    setting.Fills active table (setting.blockCosts callee table blocks).2 ∧
      (∀ block ∈ blocks, ∀ instruction ∈ block.instructions,
        setting.Knows (setting.blockCosts callee table blocks).2 instruction.node) ∧
      ∀ id block, blocks[id]? = some block →
      GasCovers ((setting.blockCosts callee table blocks).1.getD id 0)
        (setting.blockCharge (setting.blockCosts callee table blocks).2 block) := by
  induction blocks generalizing table with
  | nil => exact ⟨settled.fills active, by simp, by simp⟩
  | cons first rest ih =>
    obtain ⟨here, later⟩ := List.forall_mem_cons.mp finds
    have covers : GasCovers (setting.endCost first.terminator.node, table).1
        (setting.endCost first.terminator.node) :=
      Nat.min_le_left _ _
    obtain ⟨fills, knows, covered⟩ := addCosts_spec here settled covers
    rw [← blockCost_eq] at fills knows covered
    obtain ⟨further, known, others⟩ := ih later fills.settled
    simp only [blockCosts]
    refine ⟨fills.trans further, List.forall_mem_cons.mpr
      ⟨fun instruction listed => (knows instruction listed).mono further.wider, known⟩,
      fun id block found => ?_⟩
    cases id with
    | zero =>
      obtain rfl := Option.some.inj found
      rw [blockCharge, chargeAll_eq knows further.wider, Nat.add_comm]
      exact covered
    | succ id => exact others id block found

structure Nested (setting : GasSetting) (fuel : Nat) (active : List String) (function : Function) :
    Prop where
  known : setting.contract.function? function.name = some function
  calls : ∀ name ∈ active, Relation.TransGen setting.contract.Calls name function.name
  once : active.Nodup
  names : ∀ name ∈ active, name ∈ setting.contract.functions.map Function.name
  enough : setting.contract.functions.length < fuel + active.length

namespace Nested

variable {fuel : Nat} {function : Function}

theorem start (known : setting.contract.function? function.name = some function) :
    setting.Nested (setting.contract.functions.length + 1) [] function where
  known := known
  calls := by simp
  once := List.nodup_nil
  names := by simp
  enough := Nat.lt_succ_self _

theorem exists_fuel (nested : setting.Nested fuel active function) : ∃ less, fuel = less + 1 := by
  cases fuel with
  | zero =>
    have few := (List.Nodup.subperm nested.once nested.names).length_le
    have enough := nested.enough
    rw [List.length_map] at few
    omega
  | succ fuel => exact ⟨fuel, rfl⟩

theorem call (nested : setting.Nested (fuel + 1) active function) (fresh : function.name ∉ active)
    {callee : Function} (found : setting.contract.function? callee.name = some callee)
    (calling : setting.contract.Calls function.name callee.name) :
    setting.Nested fuel (function.name :: active) callee where
  known := found
  calls := List.forall_mem_cons.mpr
    ⟨.single calling, fun name listed => (nested.calls name listed).tail calling⟩
  once := List.nodup_cons.mpr ⟨fresh, nested.once⟩
  names := List.forall_mem_cons.mpr
    ⟨List.mem_map_of_mem (Contract.mem_of_function? nested.known).1, nested.names⟩
  enough := by
    have enough := nested.enough
    rw [List.length_cons]
    omega

end Nested

theorem calls_of_mem {function callee : Function}
    (known : setting.contract.function? function.name = some function) {block : BasicBlock}
    (member : block ∈ function.blocks) {instruction : Located Instruction}
    (listed : instruction ∈ block.instructions) {dest : Option ValueId} {name : String}
    {args : List ValueId} (calls : instruction.node = .call dest name args)
    (found : setting.contract.function? name = some callee) :
    callee.name = name ∧ setting.contract.Calls function.name name := by
  obtain ⟨node, location⟩ := instruction
  obtain rfl : node = .call dest name args := calls
  exact ⟨(Contract.mem_of_function? found).2, function, known,
    Function.mem_callees (Function.mem_instructions member listed)⟩

/-- Where no function calls itself, the cost of a function is found by a table that knows it
afterwards. -/
theorem functionCost_finds (acyclic : ∀ name, ¬ Relation.TransGen setting.contract.Calls name name)
    {fuel : Nat} {function : Function} (nested : setting.Nested fuel active function) :
    setting.Finds active (setting.functionCost fuel active) function := by
  intro table settled
  induction fuel generalizing active table function with
  | zero =>
    obtain ⟨less, same⟩ := nested.exists_fuel
    omega
  | succ fuel ih =>
    have fresh : function.name ∉ active := fun listed => acyclic _ (nested.calls _ listed)
    have idle : active.contains function.name = false := by simpa using fresh
    unfold functionCost
    cases found : table.lookup function.name with
    | some cost => exact ⟨settled.fills active, found⟩
    | none =>
      have called : ∀ block ∈ function.blocks, ∀ instruction ∈ block.instructions,
        ∀ dest name args callee,
          instruction.node = .call dest name args → setting.contract.function? name = some callee →
            setting.Finds (function.name :: active)
              (fun table callee => setting.functionCost fuel (function.name :: active) table callee)
              callee := by
        intro block member instruction listed dest name args callee calls there
        obtain ⟨rfl, calling⟩ := calls_of_mem nested.known member listed calls there
        exact fun table settled => ih (nested.call fresh there calling) table settled
      obtain ⟨fills, knows, covers⟩ := blockCosts_spec called settled
      simp only [idle, Bool.false_eq_true, if_false]
      generalize setting.blockCosts
        (fun table callee => setting.functionCost fuel (function.name :: active) table callee) table
        function.blocks = filled at fills knows covers ⊢
      obtain ⟨costs, later⟩ := filled
      have priced : setting.Priced later function
          (setting.graphCost (FlowGraph.ofFunction function) costs) :=
        ⟨knows, costs, rfl, covers_blockWeight covers⟩
      exact ⟨fills.insert fresh found nested.known priced, List.lookup_cons_self⟩

theorem cost_of_mem_transactions
    (acyclic : ∀ name, ¬ Relation.TransGen setting.contract.Calls name name)
    {functions : List Function}
    (known : ∀ function ∈ functions, setting.contract.function? function.name = some function)
    (settled : setting.Settled table) {function : Function} {gas : Nat}
    (listed : (function, gas) ∈ setting.transactions table functions) :
    function ∈ functions ∧ ∃ more cost, setting.Settled more ∧
      more.lookup function.name = some cost ∧
      gas = gasAdd setting.schedule.base cost := by
  induction functions generalizing table with
  | nil => simp [transactions] at listed
  | cons first rest ih =>
    obtain ⟨here, later⟩ := List.forall_mem_cons.mp known
    obtain ⟨fills, found⟩ := functionCost_finds acyclic (.start here) table settled
    rcases List.mem_cons.mp listed with same | further
    · obtain ⟨rfl, rfl⟩ := Prod.mk.inj same
      exact ⟨List.mem_cons_self, _, _, fills.settled, found, rfl⟩
    · obtain ⟨there, priced⟩ := ih later fills.settled further
      exact ⟨List.mem_cons_of_mem first there, priced⟩

end GasSetting

end Covenant
