import Covenant.Proofs.Chain.Estimates
import Covenant.Proofs.Lowering.Typing

/-!
What an estimate owes to the estimates before it. The cost that is kept for a function was found
while other functions were being estimated, whose calls were charged nothing. It is the cost that
the function has by itself unless calls lead from the function to two functions that call one
another: of these, the cost of the one that is come to second leaves the first one out.
-/

namespace Covenant

/-- Whether calls lead from the function with the given name to no two functions that come to call
one another. -/
def Contract.Untangled (contract : Contract) (name : String) : Prop :=
  ∀ first second, Relation.ReflTransGen contract.Calls name first →
    Relation.TransGen contract.Calls first second →
    Relation.TransGen contract.Calls second first → first = second

theorem Contract.Untangled.callee {contract : Contract} {name callee : String}
    (untangled : contract.Untangled name) (calls : contract.Calls name callee) :
    contract.Untangled callee :=
  fun first second reaches => untangled first second (.head calls reaches)

theorem Contract.Untangled.eq_of_calls {contract : Contract} {name callee : String}
    (untangled : contract.Untangled name) (calls : contract.Calls name callee)
    (back : Relation.TransGen contract.Calls callee name) : callee = name :=
  (untangled name callee .refl (.single calls) back).symm

namespace GasSetting

variable {setting : GasSetting}

/-! ### Costs without a table -/

def costsBy (setting : GasSetting) (cost : Function → Nat) (blocks : List BasicBlock) : List Nat :=
  (setting.blockCosts (fun table callee => (cost callee, table)) [] blocks).1

def plainCost (setting : GasSetting) : Nat → List String → Function → Nat
  | 0, _, _ => 0
  | fuel + 1, active, function =>
    if active.contains function.name then 0
    else
      let costs := setting.costsBy (setting.plainCost fuel (function.name :: active))
        function.blocks
      setting.graphCost (FlowGraph.ofFunction function) costs

def freshCost (setting : GasSetting) (function : Function) : Nat :=
  setting.plainCost (setting.contract.functions.length + 1) [] function

theorem plainCost_of_active {fuel : Nat} {active : List String} {function : Function}
    (listed : function.name ∈ active) :
    setting.plainCost fuel active function = 0 := by
  cases fuel with
  | zero => rfl
  | succ fuel => simp [plainCost, listed]

theorem plainCost_of_fresh {fuel : Nat} {active : List String} {function : Function}
    (fresh : function.name ∉ active) :
    setting.plainCost (fuel + 1) active function = setting.graphCost (FlowGraph.ofFunction function)
      (setting.costsBy (setting.plainCost fuel (function.name :: active)) function.blocks) := by
  simp [plainCost, fresh]

def Agrees (keeps : GasTable → Prop) (calm : Prop) (callee : GasTable → Function → Nat × GasTable)
    (cost : Function → Nat) (function : Function) : Prop :=
  ∀ table, keeps table → keeps (callee table function).2 ∧
    (calm → (callee table function).1 = cost function)

variable {keeps : GasTable → Prop} {calm : Prop} {callee : GasTable → Function → Nat × GasTable}
  {cost : Function → Nat}

theorem addCost_agrees {instruction : Instruction} {found plain : Nat × GasTable}
    (agrees : ∀ dest name args function, instruction = .call dest name args →
      setting.contract.function? name = some function → Agrees keeps calm callee cost function)
    (kept : keeps found.2) (same : calm → found.1 = plain.1) :
    keeps (setting.addCost callee found instruction).2 ∧
      (calm → (setting.addCost callee found instruction).1 =
      (setting.addCost (fun table function => (cost function, table)) plain instruction).1) := by
  cases instruction with
  | call dest name args =>
    cases called : setting.contract.function? name with
    | some function =>
      obtain ⟨still, value⟩ := agrees dest name args function rfl called found.2 kept
      simp only [addCost, called]
      refine ⟨still, fun held => ?_⟩
      rw [same held, value held]
    | none =>
      simp only [addCost, called]
      exact ⟨kept, fun held => by rw [same held]⟩
  | _ => exact ⟨kept, fun held => by simp only [addCost, same held]⟩

theorem addCosts_agrees {instructions : List (Located Instruction)} {found plain : Nat × GasTable}
    (agrees : ∀ instruction ∈ instructions, ∀ dest name args function, instruction.node =
      .call dest name args →
      setting.contract.function? name = some function → Agrees keeps calm callee cost function)
    (kept : keeps found.2) (same : calm → found.1 = plain.1) :
    let add callee := fun found (instruction : Located Instruction) =>
      setting.addCost callee found instruction.node
    keeps (instructions.foldl (add callee) found).2 ∧
      (calm → (instructions.foldl (add callee) found).1 =
      (instructions.foldl (add fun table function => (cost function, table)) plain).1) := by
  induction instructions generalizing found plain with
  | nil => exact ⟨kept, same⟩
  | cons first rest ih =>
    obtain ⟨here, later⟩ := List.forall_mem_cons.mp agrees
    obtain ⟨still, value⟩ := addCost_agrees here kept same
    exact ih later still value

theorem blockCosts_agrees {blocks : List BasicBlock} {table : GasTable}
    (agrees : ∀ block ∈ blocks, ∀ instruction ∈ block.instructions, ∀ dest name args function,
      instruction.node = .call dest name args → setting.contract.function? name = some function →
        Agrees keeps calm callee cost function)
    (kept : keeps table) (other : GasTable) :
    keeps (setting.blockCosts callee table blocks).2 ∧
      (calm → (setting.blockCosts callee table blocks).1 =
      (setting.blockCosts (fun table function => (cost function, table)) other blocks).1) := by
  induction blocks generalizing table other with
  | nil => exact ⟨kept, fun _ => rfl⟩
  | cons first rest ih =>
    obtain ⟨here, later⟩ := List.forall_mem_cons.mp agrees
    have same : calm → (setting.endCost first.terminator.node, table).1 =
        (setting.endCost first.terminator.node, other).1 :=
      fun _ => rfl
    obtain ⟨still, value⟩ := addCosts_agrees here kept same
    rw [← blockCost_eq] at still value
    rw [← blockCost_eq] at value
    obtain ⟨last, values⟩ := ih later still _
    refine ⟨last, fun held => ?_⟩
    simp only [blockCosts]
    rw [value held, values held]

theorem costsBy_congr {blocks : List BasicBlock} {cost other : Function → Nat}
    (same : ∀ block ∈ blocks, ∀ instruction ∈ block.instructions, ∀ dest name args function,
      instruction.node = .call dest name args → setting.contract.function? name = some function →
        cost function = other function) :
    setting.costsBy cost blocks = setting.costsBy other blocks := by
  have agrees : ∀ block ∈ blocks, ∀ instruction ∈ block.instructions, ∀ dest name args function,
      instruction.node = .call dest name args → setting.contract.function? name = some function →
        Agrees (fun _ => True) True (fun table function => (cost function, table)) other
          function := by
    intro block member instruction listed dest name args function calls found table _
    exact ⟨trivial, fun _ =>
      same block member instruction listed dest name args function calls found⟩
  exact (blockCosts_agrees agrees trivial []).2 trivial

/-! ### Costs of untangled functions -/

theorem Nested.callee_not_mem {fuel : Nat} {active : List String} {function : Function}
    (nested : setting.Nested fuel active function)
    (untangled : setting.contract.Untangled function.name) {callee : String}
    (calling : setting.contract.Calls function.name callee) (apart : callee ≠ function.name) :
    callee ∉ function.name :: active := by
  intro listed
  rcases List.mem_cons.mp listed with same | listed
  · exact apart same
  · exact apart (untangled.eq_of_calls calling (nested.calls callee listed))

/-- The cost of an untangled function is the same whatever is being estimated around it. -/
theorem plainCost_eq {fuel more : Nat} {active others : List String} {function : Function}
    (nested : setting.Nested fuel active function) (fresh : function.name ∉ active)
    (beside : setting.Nested more others function) (new : function.name ∉ others)
    (untangled : setting.contract.Untangled function.name) :
    setting.plainCost fuel active function = setting.plainCost more others function := by
  induction fuel generalizing more active others function with
  | zero =>
    obtain ⟨less, same⟩ := nested.exists_fuel
    omega
  | succ fuel ih =>
    obtain ⟨more, rfl⟩ := beside.exists_fuel
    rw [plainCost_of_fresh fresh, plainCost_of_fresh new]
    congr 1
    apply costsBy_congr
    intro block member instruction listed dest name args callee calls found
    obtain ⟨rfl, calling⟩ := calls_of_mem nested.known member listed calls found
    by_cases same : callee.name = function.name
    · -- A call of the function itself is charged nothing.
      rw [plainCost_of_active (by simp [same]), plainCost_of_active (by simp [same])]
    · exact ih (nested.call fresh found calling) (nested.callee_not_mem untangled calling same)
        (beside.call new found calling) (beside.callee_not_mem untangled calling same)
        (untangled.callee calling)

theorem plainCost_eq_fresh {fuel : Nat} {active : List String} {function : Function}
    (nested : setting.Nested fuel active function) (fresh : function.name ∉ active)
    (untangled : setting.contract.Untangled function.name) :
    setting.plainCost fuel active function = setting.freshCost function :=
  plainCost_eq nested fresh (.start nested.known) (by simp) untangled

/-! ### What is remembered -/

structure Remembers (setting : GasSetting) (active : List String) (table : GasTable) : Prop where
  fresh : ∀ function cost, setting.contract.function? function.name = some function →
    setting.contract.Untangled function.name → table.lookup function.name = some cost →
      cost = setting.freshCost function
  unknown : ∀ name ∈ active, table.lookup name = none

namespace Remembers

variable {active : List String} {table : GasTable} {function : Function}

theorem not_mem (remembers : setting.Remembers active table) {cost : Nat}
    (found : table.lookup function.name = some cost) : function.name ∉ active := by
  intro listed
  simp [remembers.unknown _ listed] at found

theorem enter (remembers : setting.Remembers active table)
    (unknown : table.lookup function.name = none) :
    setting.Remembers (function.name :: active) table :=
  ⟨remembers.fresh, List.forall_mem_cons.mpr ⟨unknown, remembers.unknown⟩⟩

theorem leave (remembers : setting.Remembers (function.name :: active) table)
    (fresh : function.name ∉ active) {cost : Nat}
    (known : setting.contract.function? function.name = some function)
    (right : setting.contract.Untangled function.name → cost = setting.freshCost function) :
    setting.Remembers active ((function.name, cost) :: table) := by
  constructor
  · intro other held found untangled there
    by_cases same : other.name = function.name
    · obtain rfl : function = other := by
        rw [same, known] at found
        exact Option.some.inj found
      rw [List.lookup_cons_self] at there
      exact (Option.some.inj there).symm.trans (right untangled)
    · rw [List.lookup_cons, beq_false_of_ne same] at there
      exact remembers.fresh other held found untangled there
  · intro name listed
    have apart : name ≠ function.name := fun same => fresh (same ▸ listed)
    rw [List.lookup_cons, beq_false_of_ne apart]
    exact remembers.unknown name (List.mem_cons_of_mem _ listed)

end Remembers

theorem functionCost_remembers {fuel : Nat} {active : List String} {table : GasTable}
    {function : Function} (nested : setting.Nested fuel active function)
    (remembers : setting.Remembers active table) :
    setting.Remembers active (setting.functionCost fuel active table function).2 ∧
      (setting.contract.Untangled function.name →
        (setting.functionCost fuel active table function).1 =
          setting.plainCost fuel active function) := by
  induction fuel generalizing active table function with
  | zero =>
    obtain ⟨less, same⟩ := nested.exists_fuel
    omega
  | succ fuel ih =>
    unfold functionCost
    cases found : table.lookup function.name with
    | some cost =>
      refine ⟨remembers, fun untangled => ?_⟩
      rw [plainCost_eq_fresh nested (remembers.not_mem found) untangled]
      exact remembers.fresh function cost nested.known untangled found
    | none =>
      by_cases listed : function.name ∈ active
      · have idle : active.contains function.name = true := by simpa using listed
        simp only [idle, if_true]
        exact ⟨remembers, fun _ => (plainCost_of_active listed).symm⟩
      · have idle : active.contains function.name = false := by simpa using listed
        have called : ∀ block ∈ function.blocks, ∀ instruction ∈ block.instructions,
          ∀ dest name args callee,
            instruction.node = .call dest name args → setting.contract.function? name =
              some callee →
              Agrees (setting.Remembers (function.name :: active))
                (setting.contract.Untangled function.name)
                (fun table callee => setting.functionCost fuel (function.name :: active) table
                  callee) (setting.plainCost fuel (function.name :: active)) callee := by
          intro block member instruction inside dest name args callee calls known table kept
          obtain ⟨rfl, calling⟩ := calls_of_mem nested.known member inside calls known
          obtain ⟨after, value⟩ := ih (nested.call listed known calling) kept
          exact ⟨after, fun untangled => value (untangled.callee calling)⟩
        obtain ⟨still, values⟩ := blockCosts_agrees called (remembers.enter found) []
        simp only [idle, Bool.false_eq_true, if_false]
        generalize setting.blockCosts
          (fun table callee => setting.functionCost fuel (function.name :: active) table callee)
          table function.blocks = filled at still values ⊢
        obtain ⟨costs, later⟩ := filled
        -- What is put into the table was found with nothing charged for the active functions, which
        -- an untangled one does not call.
        have value (untangled : setting.contract.Untangled function.name) :
            setting.graphCost (FlowGraph.ofFunction function) costs = setting.plainCost
              (fuel + 1) active function := by
          rw [plainCost_of_fresh listed]
          exact congrArg (setting.graphCost (FlowGraph.ofFunction function)) (values untangled)
        refine ⟨still.leave listed nested.known fun untangled => ?_, value⟩
        exact (value untangled).trans (plainCost_eq_fresh nested listed untangled)

theorem remembers_nil (setting : GasSetting) : setting.Remembers [] [] :=
  ⟨fun function cost _ _ found => by simp at found, by simp⟩

theorem transaction_remembers {table : GasTable} {function : Function}
    (known : setting.contract.function? function.name = some function)
    (remembers : setting.Remembers [] table) :
    setting.Remembers [] (setting.transaction table function).2 ∧
      (setting.contract.Untangled function.name →
        (setting.transaction table function).1 = gasAdd setting.schedule.base
        (setting.freshCost function)) := by
  obtain ⟨still, value⟩ := functionCost_remembers (.start known) remembers
  exact ⟨still, fun untangled => congrArg (gasAdd setting.schedule.base) (value untangled)⟩

theorem transaction_of_mem {functions : List Function} {table : GasTable}
    (known : ∀ function ∈ functions, setting.contract.function? function.name = some function)
    (remembers : setting.Remembers [] table) {function : Function} {gas : Nat}
    (listed : (function, gas) ∈ setting.transactions table functions)
    (untangled : setting.contract.Untangled function.name) :
    gas = (setting.transaction [] function).1 := by
  induction functions generalizing table with
  | nil => simp [transactions] at listed
  | cons first rest ih =>
    obtain ⟨here, later⟩ := List.forall_mem_cons.mp known
    obtain ⟨still, value⟩ := transaction_remembers here remembers
    rcases List.mem_cons.mp listed with same | further
    · obtain ⟨rfl, rfl⟩ := Prod.mk.inj same
      exact (value untangled).trans
        ((transaction_remembers here setting.remembers_nil).2 untangled).symm
    · exact ih later still further

end GasSetting

/-- In any sequence of estimates the estimate of a function that may call itself, but from which
calls lead to no two functions that call one another, is that of an estimator which has estimated
nothing before. -/
theorem ContractSet.estimate_of_history {text : String} {contract : Contract}
    (member : contract ∈ (ofText text).contracts) (schedule : GasSchedule) (loopBound : Nat)
    {functions : List Function} (inside : ∀ function ∈ functions, function ∈ contract.functions)
    {function : Function} {estimate : Nat}
    (estimated : (function, estimate) ∈ GasSetting.transactions ⟨contract, schedule, loopBound⟩
      [] functions)
    (untangled : contract.Untangled function.name) :
    estimate = (GasSetting.transaction ⟨contract, schedule, loopBound⟩ [] function).1 := by
  obtain ⟨declared, code⟩ := typed_of_ofText member
  exact GasSetting.transaction_of_mem
    (fun function listed => code.formed.function? (inside function listed))
    (GasSetting.remembers_nil _) estimated untangled

/-- A function `f` that calls itself and `g`, asked for twice behind `p` and `q`, which call one
another. -/
theorem ContractSet.estimate_of_history_of_circles :
    let text :=
      "contract A \x7b x: u64 f() \x7b self.x = 1 self.g() self.f() \x7d g() \x7b self.x = 2 \x7d p() \x7b self.x = 3 self.q() \x7d q() \x7b self.x = 4 self.p() self.f() \x7d \x7d"
    let schedule : GasSchedule := ⟨100, 1, 2, 3, 4, 5, 6, 7, 8⟩
    ∃ contract ∈ (ofText text).contracts, ∃ function, contract.function? "f" = some function ∧
      contract.Calls "f" "f" ∧
      let setting : GasSetting := ⟨contract, schedule, 3⟩
      let asked := contract.functions.reverse ++ contract.functions
      (setting.transactions [] asked).map (fun entry => (entry.1.name, entry.2)) =
        [("q", 146), ("p", 110), ("g", 104),
          ("f", 120), ("f", 120), ("g", 104), ("p", 110), ("q", 146)] ∧
        (function, 120) ∈ setting.transactions [] asked ∧
        120 = (setting.transaction [] function).1 := by
  intro text schedule
  have facts : ∃ contract ∈ (ofText text).contracts, ∃ function ∈ contract.function? "f",
    "f" ∈ function.callees ∧
      (∀ caller ∈ contract.functions, ∀ callee ∈ caller.callees,
        caller.name ≠ "g" ∧ (caller.name = "f" → callee = "f" ∨ callee = "g")) ∧
      let setting : GasSetting := ⟨contract, schedule, 3⟩
      let asked := contract.functions.reverse ++ contract.functions
      (setting.transactions [] asked).map (fun entry => (entry.1.name, entry.2)) =
        [("q", 146), ("p", 110), ("g", 104),
          ("f", 120), ("f", 120), ("g", 104), ("p", 110), ("q", 146)] ∧
        (function, 120) ∈ setting.transactions [] asked := by
    decide +kernel
  obtain ⟨contract, member, function, found, itself, calls, estimates, estimated⟩ := facts
  have calling {name callee : String} (called : contract.Calls name callee) :
      name ≠ "g" ∧ (name = "f" → callee = "f" ∨ callee = "g") := by
    obtain ⟨caller, there, listed⟩ := called
    obtain ⟨inside, rfl⟩ := Contract.mem_of_function? there
    exact calls caller inside callee listed
  have reached {name : String} (reaches : Relation.ReflTransGen contract.Calls "f" name) :
      name = "f" ∨ name = "g" := by
    induction reaches with
    | refl => exact .inl rfl
    | tail _ last ih =>
      rcases ih with rfl | rfl
      · exact (calling last).2 rfl
      · exact absurd rfl (calling last).1
  have turns {first second : String} (reaches : Relation.ReflTransGen contract.Calls "f" first)
      (onward : Relation.TransGen contract.Calls first second) : first = "f" := by
    obtain ⟨_, called, _⟩ := Relation.TransGen.head'_iff.mp onward
    exact (reached reaches).resolve_right (calling called).1
  obtain ⟨_, named⟩ := Contract.mem_of_function? found
  have untangled : contract.Untangled function.name := by
    rw [named]
    intro first second reaches onward back
    exact (turns reaches onward).trans (turns (reaches.trans onward.to_reflTransGen) back).symm
  refine ⟨contract, member, function, found, ⟨function, found, itself⟩, estimates, estimated, ?_⟩
  exact estimate_of_history member schedule 3 (by simp) estimated untangled

/-- Where two functions call one another, what is found for the second one leaves the first one out.
-/
example :
    let text :=
      "contract A \x7b x: u64 f() \x7b self.x = 1 self.g() \x7d g() \x7b self.x = 2 self.f() \x7d \x7d"
    let schedule : GasSchedule := ⟨0, 0, 0, 1, 0, 0, 0, 0, 0⟩
    (ContractSet.ofText text).contracts.map (fun contract =>
      let setting : GasSetting := ⟨contract, schedule, 3⟩
      ((setting.transactions [] contract.functions).map Prod.snd,
        contract.functions.map fun function => (setting.transaction [] function).1)) =
          [([2, 1], [2, 2])] := by
  decide +kernel

end Covenant
