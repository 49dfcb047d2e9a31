import Covenant.Proofs.Run.Lockstep
import Covenant.Proofs.Scan.Summaries

/-!
What it means that no condition is found to depend on who started the transaction. The search stays
inside each function: values that come from storage, from a caller or from a function that was
called are sources of their own. Two runs for different originators decide alike as long as these
are the same.
-/

namespace Covenant

def ContractSet.DisregardsOrigin (set : ContractSet) : Prop :=
  ∀ entry ∈ set.functions, ∀ block ∈ entry.2.blocks,
    ∀ condition ∈ block.terminator.node.condition?.toList,
    block.id ∈ (FlowGraph.ofFunction entry.2).reversePostorder →
      Origin.env .origin ∉ entry.2.foundOrigins ⟨block.id, condition⟩

instance (set : ContractSet) : Decidable set.DisregardsOrigin :=
  inferInstanceAs (Decidable (∀ entry ∈ set.functions, ∀ block ∈ entry.2.blocks,
    ∀ condition ∈ block.terminator.node.condition?.toList,
      block.id ∈ (FlowGraph.ofFunction entry.2).reversePostorder →
        Origin.env .origin ∉ entry.2.foundOrigins ⟨block.id, condition⟩))

theorem Finding.txOrigin_eq_nil_iff {set : ContractSet} :
    (txOrigin set).issues = [] ↔ set.DisregardsOrigin := by
  unfold ContractSet.DisregardsOrigin
  simp only [← Function.mem_origins]
  unfold txOrigin
  simp only [List.flatMap_eq_nil_iff, List.filterMap_eq_nil_iff, Option.mem_toList]
  refine forall₄_congr fun entry _ block _ => ?_
  cases block.terminator.node.condition? with
  | none => simp
  | some condition => simp

theorem Finding.completes_txOrigin {set : ContractSet} {budget : Nat} (clean : set.DisregardsOrigin)
    (cost : (txOrigin set).cost ≤ budget) : Check.txOrigin.Completes set budget [] :=
  ⟨[], [],
    nofun, by
      simp only [Check.pass, Check.within, Check.findings, txOrigin_eq_nil_iff.mpr clean,
        cost, if_true]⟩

theorem Finding.not_carries_of_txOrigin {set : ContractSet} (clean : (txOrigin set).issues = [])
    {contract : Contract} (listed : contract ∈ set.contracts) {function : Function}
    (member : function ∈ contract.functions) {declared : Declarations} {types : List Ty}
    (typed : function.Typed declared types) {block : BasicBlock}
    (there : function.block? block.id = some block) (reaches : function.Reaches block.id)
    {condition : ValueId} (decides : block.terminator.node.condition? = some condition) :
    ¬ function.Carries (.env .origin) ⟨block.id, condition⟩ := by
  intro carries
  have known : (contract, function) ∈ set.functions :=
    List.mem_flatMap.mpr ⟨contract, listed, List.mem_map.mpr ⟨function, member, rfl⟩⟩
  have free := txOrigin_eq_nil_iff.mp clean _ known block (List.mem_of_getElem? there) condition
    (by simp [decides]) (typed.mem_reversePostorder reaches)
  exact free (Function.mem_origins.mp (typed.mem_origins_iff.mpr carries))

namespace Running

variable {var : EnvVar} {setting : Setting} {state : Running}

theorem condition_of_sight {holds : Bool} (shows : state.sight? = some (.decided holds)) :
    state.frame.pending = [] ∧ ∃ condition, state.frame.block.terminator.node.condition? =
      some condition ∧
      holds = (state.frame.valueOf condition != 0) := by
  unfold sight? at shows
  split at shows
  · simp at shows
  · simp at shows
  · simp at shows
  · rename_i pending
    refine ⟨pending, ?_⟩
    cases node : state.frame.block.terminator.node
      <;> simp only [node, Option.some.injEq, reduceCtorEq, Sight.decided.injEq] at shows
    case branch condition _ _ => exact ⟨condition, rfl, shows.symm⟩
    case guard condition _ _ _ => exact ⟨condition, rfl, shows.symm⟩

end Running

namespace Inputs

def withOrigin (inputs : Inputs) (origin : Nat) : Inputs :=
  { inputs with env := inputs.env.put origin .origin }

theorem alike_withOrigin (inputs : Inputs) (origin : Nat) (contract : Contract)
    (limits : RunLimits) :
    (inputs.setting contract limits).Alike .origin
    ((inputs.withOrigin origin).setting contract limits) := by
  refine ⟨rfl, rfl, fun part apart => ?_⟩
  cases part <;> first | rfl | exact absurd rfl apart

end Inputs

structure Decision where
  function : String
  block : BlockId
  holds : Bool
deriving DecidableEq, Repr

def Report.decisions (report : Report) : List Decision :=
  report.trace.filterMap fun step =>
    match step.action with
    | .branch taken => some ⟨step.function, step.block, taken⟩
    | .guard _ holds => some ⟨step.function, step.block, holds⟩
    | _ => none

namespace ContractSet

/-- Where no condition is found to depend on the originator, a call decides alike whoever that is:
as long as two runs have decided alike, have read the same from storage, and have passed the same
values to functions and back, the next branch or guard that both come to is the same and is decided
alike. -/
theorem decides_alike {text : String} {budget : Nat}
    (clean : Check.txOrigin.Completes (ofText text) budget []) {contract : Contract}
    (member : contract ∈ (ofText text).contracts) {name : String} {function : Function}
    (found : contract.function? name = some function) {inputs : Inputs} {frame : Frame}
    (framed : function.frame (function.entryCells inputs.args) = .ok frame)
    (count : function.params.length = inputs.args.length) (origin : Nat) {limits : RunLimits}
    {sights : List Sight} {state other : Running}
    (left : Running.Shows (inputs.setting contract limits)
      ⟨frame, [], Effects.start inputs.storage⟩ sights state)
    (right : Running.Shows ((inputs.withOrigin origin).setting contract limits)
      ⟨frame, [], Effects.start inputs.storage⟩ sights other)
    {holds also : Bool} (here : state.sight? = some (.decided holds))
    (there : other.sight? = some (.decided also)) :
    other.frame.function = state.frame.function ∧ other.frame.block = state.frame.block ∧
      also = holds := by
  obtain ⟨declared, code⟩ := typed_of_ofText member
  have typed := code.of_frame found count framed inputs.storage
  have alike : Running.Alike .origin ⟨frame, [], Effects.start inputs.storage⟩
      ⟨frame, [], Effects.start inputs.storage⟩ :=
    ⟨⟨rfl, rfl, rfl, fun _ _ => rfl, fun _ _ => rfl⟩, .nil⟩
  have settings := inputs.alike_withOrigin origin contract limits
  have final := left.alike right alike settings code typed (by rw [here]; rfl) (by rw [there]; rfl)
  obtain ⟨types, standing⟩ := (left.reaches.typed code False.elim typed).frame
  obtain ⟨_, condition, decides, rfl⟩ := Running.condition_of_sight here
  obtain ⟨_, again, decided, rfl⟩ := Running.condition_of_sight there
  rw [final.frame.block, decides] at decided
  obtain rfl := Option.some.inj decided
  have free := Finding.not_carries_of_txOrigin clean.issues_eq.symm member standing.member
    standing.function standing.block standing.reached decides
  exact ⟨final.frame.function, final.frame.block, by rw [final.frame.values condition free]⟩

/-- What a function stores of the originator has no part in what it requires. -/
theorem decides_alike_of_stored_originator :
    let text :=
      "contract A \x7b a: u8 b: address f() \x7b self.b = tx.origin require(self.a == 0) \x7d \x7d"
    let other := Inputs.empty.withOrigin 1
    ∃ contract ∈ (ofText text).contracts, ∃ function, contract.function? "f" = some function ∧
      ∃ frame first second, function.frame (function.entryCells []) = .ok frame ∧
        Running.Shows (Inputs.empty.setting contract .standard) ⟨frame, [], Effects.start []⟩
          [.loaded 0] first ∧
        Running.Shows (other.setting contract .standard) ⟨frame, [], Effects.start []⟩
          [.loaded 0] second ∧
        first.sight? = some (.decided true) ∧ second.sight? = some (.decided true) ∧
        second.frame.function = first.frame.function ∧ second.frame.block = first.frame.block := by
  intro text other
  have quiet : (ofText text).DisregardsOrigin ∧ (Finding.txOrigin (ofText text)).cost ≤
      Pass.standardBudget := by
    decide +kernel
  have clean := Finding.completes_txOrigin quiet.1 quiet.2
  let follow (contract : Contract) (function : Function) (inputs : Inputs) :=
    (function.frame (function.entryCells Inputs.empty.args)).toOption.bind fun frame =>
      Running.follow (inputs.setting contract .standard) 5 ⟨frame, [], Effects.start []⟩
  let shown (reached : Option (List Sight × Running)) := reached.map fun reached =>
    (reached.1, reached.2.sight?)
  have checked : ∃ contract ∈ (ofText text).contracts, ∃ function ∈ contract.function? "f",
      function.params.length = Inputs.empty.args.length ∧
      shown (follow contract function .empty) = some ([.loaded 0], some (.decided true)) ∧
        shown (follow contract function other) = some ([.loaded 0], some (.decided true)) := by
    decide +kernel
  obtain ⟨contract, member, function, found, count, left, right⟩ := checked
  obtain ⟨⟨_, first⟩, walked, same⟩ := Option.map_eq_some_iff.mp left
  obtain ⟨rfl, here⟩ := Prod.mk.inj same
  obtain ⟨⟨_, second⟩, again, same⟩ := Option.map_eq_some_iff.mp right
  obtain ⟨rfl, there⟩ := Prod.mk.inj same
  obtain ⟨frame, framed, walked⟩ := Option.bind_eq_some_iff.mp walked
  obtain ⟨_, framed', again⟩ := Option.bind_eq_some_iff.mp again
  obtain rfl := Option.some.inj (framed.symm.trans framed')
  have started := Running.toOption_eq_some.mp framed
  have ahead := Running.shows_of_follow walked
  have also := Running.shows_of_follow again
  obtain ⟨same, block, _⟩ := decides_alike clean member found started count 1 ahead also here there
  exact ⟨contract, member, function, found, frame, first, second, started, ahead, also, here, there,
    same, block⟩

/-- Nothing is found of a map that is read at the originator, though what is required is then up to
that. -/
theorem not_decides_alike_of_key :
    ¬ ∀ (text : String) (budget : Nat), Check.txOrigin.Completes (ofText text) budget [] →
      ∀ contract ∈ (ofText text).contracts,
        ∀ (name : String) (inputs : Inputs) (origin : Nat) (limits : RunLimits)
        (report other : Report), contract.run limits name inputs = .ok report →
        contract.run limits name (inputs.withOrigin origin) = .ok other →
        ∀ before first second, before ++ [first] <+: report.decisions → before ++ [second] <+:
          other.decisions →
          first.holds = second.holds := by
  intro claim
  let text := "contract A \x7b m: map<address, bool> f() \x7b require(self.m[tx.origin]) \x7d \x7d"
  let inputs : Inputs := { Inputs.empty with storage := [(⟨"m", some 0⟩, 1)] }
  have quiet : (ofText text).DisregardsOrigin ∧ (Finding.txOrigin (ofText text)).cost ≤
      Pass.standardBudget := by
    decide +kernel
  have clean := Finding.completes_txOrigin quiet.1 quiet.2
  have checked : ∃ contract ∈ (ofText text).contracts,
      (contract.run .standard "f" inputs).toOption.map Report.decisions = some [⟨"f", 0, true⟩] ∧
        (contract.run .standard "f" (inputs.withOrigin 1)).toOption.map Report.decisions =
          some [⟨"f", 0, false⟩] := by
    decide +kernel
  obtain ⟨contract, member, holds, fails⟩ := checked
  obtain ⟨report, ran, holds⟩ := Option.map_eq_some_iff.mp holds
  obtain ⟨other, also, fails⟩ := Option.map_eq_some_iff.mp fails
  have ran := Running.toOption_eq_some.mp ran
  have also := Running.toOption_eq_some.mp also
  have same := claim text _ clean contract member "f" inputs 1 .standard report other ran also []
    ⟨"f", 0, true⟩ ⟨"f", 0, false⟩ (by rw [holds]; exact List.prefix_rfl)
    (by rw [fails]; exact List.prefix_rfl)
  simp at same

end ContractSet

end Covenant
