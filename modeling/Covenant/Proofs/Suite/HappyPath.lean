import Covenant.Proofs.Lists
import Covenant.Proofs.Lowering.TypedBodies
import Covenant.Proofs.Run.Sources
import Covenant.Proofs.Run.Soundness
import Covenant.Proofs.Suite.Separation
import Covenant.Suite.Generator
import Mathlib.Data.List.GetD

/-!
Tests of calls that succeed. The candidates that are tried for a function are the choices of a
sender and of one value from the pool of each parameter, each choice once; and what is expected of
the first candidate on which the function succeeds is just what the call does.
-/

namespace Covenant

namespace Assertion

def stored? : Assertion → Option (StorageKey × Nat)
  | storageEquals place value => some (place, value)
  | _ => none

def emitted? : Assertion → Option EmittedEvent
  | emits event => some event
  | _ => none

end Assertion

/-- Whether the report of a call is as expected, where the report alone can tell. -/
inductive Report.Satisfies (report : Report) : Assertion → Prop
  | succeeds : report.result.isSuccess = true → Satisfies report .succeeds
  | reverts : report.result.isSuccess = false → Satisfies report .reverts
  | returns {value} : report.result = .returned value → Satisfies report (.returns value)
  | storageEquals {place value} : report.storage.lookup place = some value →
      Satisfies report (.storageEquals place value)
  | emits {event} : event ∈ report.events → Satisfies report (.emits event)

/-- Whether a call succeeds within the limits that hold unless others are given. -/
def Contract.SucceedsOn (contract : Contract) (name : String) (inputs : Inputs) : Prop :=
  ∃ report, contract.run .standard name inputs = .ok report ∧ report.result.isSuccess = true

instance (contract : Contract) (name : String) (inputs : Inputs) :
    Decidable (contract.SucceedsOn name inputs) :=
  match ran : contract.run .standard name inputs with
  | .ok report =>
    if success : report.result.isSuccess = true then .isTrue ⟨report, ran, success⟩
    else .isFalse fun ⟨_, also, succeeds⟩ =>
      success (Except.ok.inj (ran.symm.trans also) ▸ succeeds)
  | .error _ => .isFalse fun ⟨_, also, _⟩ => nomatch ran.symm.trans also

namespace Deployment

/-! Choices are numbers whose digits are places in the pools. -/

section Choices

variable {pools : List (List Nat)}

theorem getD_mod_mem {pool : List Nat} (filled : pool ≠ []) (number default : Nat) :
    pool.getD (number % pool.length) default ∈ pool := by
  have inside : number % pool.length < pool.length := Nat.mod_lt _ (List.length_pos_iff.mpr filled)
  rw [List.getD_eq_getElem _ _ inside]
  exact List.getElem_mem inside

theorem chooseArgs_mem (filled : ∀ pool ∈ pools, pool ≠ []) (number : Nat) :
    List.Forall₂ (· ∈ ·) (chooseArgs number pools) pools := by
  induction pools generalizing number with
  | nil => exact .nil
  | cons pool rest ih =>
    obtain ⟨first, others⟩ := List.forall_mem_cons.mp filled
    exact .cons (getD_mod_mem first number 0) (ih others _)

theorem exists_chooseArgs {args : List Nat} (chosen : List.Forall₂ (· ∈ ·) args pools) :
    ∃ number < (pools.map List.length).prod, chooseArgs number pools = args := by
  induction chosen with
  | nil => exact ⟨0, Nat.zero_lt_one, rfl⟩
  | @cons arg pool args rest member _ ih =>
    obtain ⟨higher, small, rfl⟩ := ih
    obtain ⟨index, inside, rfl⟩ := List.getElem_of_mem member
    have positive : 0 < pool.length := Nat.zero_lt_of_lt inside
    have digit : (index + pool.length * higher) % pool.length = index := by
      rw [Nat.add_mul_mod_self_left, Nat.mod_eq_of_lt inside]
    have shifted : (index + pool.length * higher) / pool.length = higher := by
      rw [Nat.add_mul_div_left _ _ positive, Nat.div_eq_of_lt inside, Nat.zero_add]
    refine ⟨index + pool.length * higher, ?_, ?_⟩
    · have grows : pool.length * (higher + 1) ≤ pool.length * (rest.map List.length).prod :=
        Nat.mul_le_mul_left _ small
      rw [Nat.mul_add_one] at grows
      rw [List.map_cons, List.prod_cons]
      omega
    · rw [chooseArgs, digit, shifted, List.getD_eq_getElem _ _ inside]

theorem chooseArgs_inj (distinct : ∀ pool ∈ pools, pool.Nodup) {first second : Nat}
    (low : first < (pools.map List.length).prod) (high : second < (pools.map List.length).prod)
    (same : chooseArgs first pools = chooseArgs second pools) : first = second := by
  induction pools generalizing first second with
  | nil =>
    simp only [List.map_nil, List.prod_nil] at low high
    omega
  | cons pool rest ih =>
    obtain ⟨once, others⟩ := List.forall_mem_cons.mp distinct
    rw [List.map_cons, List.prod_cons, Nat.mul_comm] at low high
    have positive : 0 < pool.length := by
      by_contra empty
      simp [Nat.eq_zero_of_not_pos empty] at low
    obtain ⟨head, tail⟩ := List.cons.inj same
    have lowDigit : first % pool.length < pool.length := Nat.mod_lt _ positive
    have highDigit : second % pool.length < pool.length := Nat.mod_lt _ positive
    rw [List.getD_eq_getElem _ _ lowDigit, List.getD_eq_getElem _ _ highDigit,
      once.getElem_inj_iff] at head
    have rest := ih others (Nat.div_lt_of_lt_mul (by rwa [Nat.mul_comm]))
      (Nat.div_lt_of_lt_mul (by rwa [Nat.mul_comm])) tail
    rw [← Nat.div_add_mod first pool.length, ← Nat.div_add_mod second pool.length, head, rest]

end Choices

/-! What is tried. -/

variable {deployment : Deployment} {function : Function}

/-- The inputs of a call of a function by a sender, right after the deployment if the function is
for that. -/
def inputs (deployment : Deployment) (function : Function) (sender : Nat) (args : List Nat) :
    Inputs :=
  { args
    env :=
      { sender, origin := sender, blockNumber := 1, value := 0
        timestamp := if function.kind == .init then deployedAt else deployedAt + calledAfter }
    storage := if function.kind == .init then [] else deployment.storage
    callsSucceed := true }

theorem candidate_eq (deployment : Deployment) (function : Function) {senders : List Nat}
    (filled : senders ≠ []) (pools : List (List Nat)) (number : Nat) :
    ∃ sender args, chooseArgs number (senders :: pools) = sender :: args ∧
      deployment.candidate function senders pools number =
        deployment.inputs function sender args := by
  have inside : number % senders.length < senders.length :=
    Nat.mod_lt _ (List.length_pos_iff.mpr filled)
  refine ⟨_, _, rfl, ?_⟩
  rw [candidate, List.getD_eq_getElem _ _ inside, List.getD_eq_getElem _ _ inside]
  rfl

section Candidates

variable {senders : List Nat} {pools : List (List Nat)}

theorem nodup_candidates (once : senders.Nodup) (distinct : ∀ pool ∈ pools, pool.Nodup)
    (filled : senders ≠ []) :
    ((List.range (senders.length * (pools.map List.length).prod)).map
      (deployment.candidate function senders pools)).Nodup := by
  refine List.Nodup.map_on ?_ List.nodup_range
  intro first low second high same
  obtain ⟨sender, args, chosen, one⟩ := candidate_eq deployment function filled pools first
  obtain ⟨other, others, also, two⟩ := candidate_eq deployment function filled pools second
  rw [one, two] at same
  obtain rfl : sender = other := congrArg (fun inputs : Inputs => inputs.env.sender) same
  obtain rfl : args = others := congrArg Inputs.args same
  have apart : ∀ pool ∈ senders :: pools, pool.Nodup := List.forall_mem_cons.mpr ⟨once, distinct⟩
  exact chooseArgs_inj apart (List.mem_range.mp low) (List.mem_range.mp high)
    (chosen.trans also.symm)

theorem candidate_chosen (deployment : Deployment) (function : Function) (filled : senders ≠ [])
    (some : ∀ pool ∈ pools, pool ≠ []) (number : Nat) :
    ∃ sender ∈ senders, ∃ args, List.Forall₂ (· ∈ ·) args pools ∧
      deployment.candidate function senders pools number =
        deployment.inputs function sender args := by
  obtain ⟨sender, args, chosen, same⟩ := candidate_eq deployment function filled pools number
  have members := chooseArgs_mem (List.forall_mem_cons.mpr ⟨filled, some⟩) number
  rw [chosen, List.forall₂_cons] at members
  exact ⟨sender, members.1, args, members.2, same⟩

theorem mem_candidates (filled : senders ≠ []) (some : ∀ pool ∈ pools, pool ≠ [])
    {inputs : Inputs} :
    inputs ∈ (List.range (senders.length * (pools.map List.length).prod)).map
        (deployment.candidate function senders pools) ↔
      ∃ sender ∈ senders, ∃ args, List.Forall₂ (· ∈ ·) args pools ∧
      inputs = deployment.inputs function sender args := by
  rw [List.mem_map]
  constructor
  · rintro ⟨number, _, rfl⟩
    exact candidate_chosen deployment function filled some number
  · rintro ⟨sender, known, args, chosen, rfl⟩
    obtain ⟨number, small, found⟩ := exists_chooseArgs (List.Forall₂.cons known chosen)
    obtain ⟨other, others, also, same⟩ := candidate_eq deployment function filled pools number
    obtain ⟨rfl, rfl⟩ := List.cons.inj (found.symm.trans also)
    exact ⟨number, List.mem_range.mpr small, same⟩

end Candidates

theorem mem_senders {sender : Nat} (member : sender ∈ deployment.senders) :
    sender = deployer ∨ ∃ entry ∈ deployment.storage, entry.2 = sender ∧
      ∃ field, deployment.contract.field? entry.1.field = some field ∧ field.ty = .address := by
  rw [senders, List.mem_eraseDups, List.mem_cons, List.mem_filterMap] at member
  rcases member with first | ⟨⟨place, value⟩, listed, stored⟩
  · exact .inl first
  · dsimp only at stored
    split at stored
    · rename_i field found
      split at stored
      · rename_i address
        exact .inr ⟨(place, value), listed, Option.some.inj stored, field, found, eq_of_beq address⟩
      · cases stored
    · cases stored

theorem senders_ne_nil (deployment : Deployment) : deployment.senders ≠ [] := by
  have first : deployer ∈ deployment.senders := List.mem_eraseDups.mpr List.mem_cons_self
  exact List.ne_nil_of_mem first

theorem pool_ne_nil (deployment : Deployment) (ty : Ty) (constants : List Nat) :
    deployment.pool ty constants ≠ [] := by
  have some : ∃ value, value ∈ deployment.pool ty constants := by
    cases ty with
    | address => exact ⟨deployer, List.mem_eraseDups.mpr (by simp)⟩
    | bool => exact ⟨0, List.mem_eraseDups.mpr (by simp)⟩
    | uint width => exact ⟨0, List.mem_eraseDups.mpr (by simp [Ty.wrap])⟩
    | map key value => exact ⟨0, List.mem_eraseDups.mpr (by simp [Ty.wrap])⟩
  obtain ⟨value, member⟩ := some
  exact List.ne_nil_of_mem member

theorem le_of_mem_pool {ty : Ty} {constants : List Nat} {value : Nat}
    (member : value ∈ deployment.pool ty constants) :
    value ≤ ty.maxValue := by
  have kept {values : List Nat}
      (listed : value ∈ (values.filter fun value => ty.wrap value == value).eraseDups) :
      value ≤ ty.maxValue := by
    obtain ⟨_, same⟩ := List.mem_filter.mp (List.mem_eraseDups.mp listed)
    rw [Ty.le_maxValue_iff, ← eq_of_beq same]
    exact Ty.wrap_lt ty value
  cases ty with
  | address =>
    have listed := List.mem_eraseDups.mp member
    rcases List.mem_pair.mp listed with rfl | rfl <;> decide
  | bool =>
    have listed := List.mem_eraseDups.mp member
    rcases List.mem_pair.mp listed with rfl | rfl <;> decide
  | uint width => exact kept member
  | map key content => exact kept member

theorem pools_ne_nil (deployment : Deployment) (function : Function) :
    ∀ pool ∈ deployment.pools function, pool ≠ [] :=
  List.forall_mem_map.mpr fun param _ => deployment.pool_ne_nil param.2 _

theorem nodup_of_mem_pools (deployment : Deployment) (function : Function) :
    ∀ pool ∈ deployment.pools function, pool.Nodup :=
  List.forall_mem_map.mpr fun _ _ => nodup_eraseDups _

theorem accepts_of_mem_pools {args : List Nat}
    (chosen : List.Forall₂ (· ∈ ·) args (deployment.pools function)) :
    function.Accepts args := by
  rw [pools, List.forall₂_map_right_iff] at chosen
  exact (chosen.imp fun _ _ member => le_of_mem_pool member).flip

/-! Which candidate is taken. -/

def Succeeds (deployment : Deployment) (function : Function) (number : Nat) : Prop :=
  deployment.contract.SucceedsOn function.name
    (deployment.candidate function deployment.senders (deployment.pools function) number)

/-- The first candidate on which the function succeeds is found, if it is among those that are
tried. -/
theorem search?_eq_some {number : Nat} {report : Report} (tried : number < candidateLimit)
    (ran : deployment.contract.run RunLimits.standard function.name
      (deployment.candidate function deployment.senders (deployment.pools function) number) =
        .ok report)
    (success : report.result.isSuccess = true)
    (first : ∀ earlier < number, ¬ deployment.Succeeds function earlier) :
    deployment.search? function =
      some (deployment.candidate function deployment.senders (deployment.pools function) number,
        report) := by
  obtain ⟨more, limit⟩ : ∃ more, candidateLimit = number + (more + 1) :=
    ⟨candidateLimit - (number + 1), by omega⟩
  have split : List.range candidateLimit = List.range number ++ number :: List.range'
      (number + 1) more := by
    have whole := List.range'_append_1 (s := 0) (m := number) (n := more + 1)
    rw [Nat.zero_add, List.range'_succ] at whole
    rw [limit, List.range_eq_range', List.range_eq_range', ← whole]
  rw [search?, List.findSome?_eq_some_iff]
  refine ⟨_, _, _, split, ?_, fun earlier member => ?_⟩
  · simp only [ran, success, if_true]
  · dsimp only
    split
    · rename_i other also
      split
      · rename_i succeeds
        exact absurd ⟨other, also, succeeds⟩ (first earlier (List.mem_range.mp member))
      · rfl
    · rfl

theorem of_search?_eq_some {inputs : Inputs} {report : Report}
    (found : deployment.search? function = some (inputs, report)) :
    ∃ number < candidateLimit, inputs = deployment.candidate function deployment.senders
      (deployment.pools function) number ∧
      deployment.contract.run RunLimits.standard function.name inputs = .ok report ∧
      report.result.isSuccess = true := by
  obtain ⟨number, listed, made⟩ := List.exists_of_findSome?_eq_some found
  dsimp only at made
  split at made
  · rename_i other ran
    split at made
    · rename_i success
      obtain ⟨rfl, rfl⟩ := Prod.mk.inj (Option.some.inj made)
      exact ⟨number, List.mem_range.mp listed, rfl, ran, success⟩
    · cases made
  · cases made

theorem search?_eq_none (fails : ∀ number < candidateLimit, ¬ deployment.Succeeds function number) :
    deployment.search? function = none := by
  cases found : deployment.search? function with
  | none => rfl
  | some pair =>
    obtain ⟨number, tried, same, ran, success⟩ := of_search?_eq_some found
    exact absurd ⟨pair.2, same ▸ ran, success⟩ (fails number tried)

/-! What a deployment leaves in storage. -/

theorem fits_inputs {sender : Nat} (small : sender ≤ Ty.address.maxValue) (args : List Nat) :
    (deployment.inputs function sender args).env.Fits := by
  intro var
  cases var with
  | sender => exact small
  | origin => exact small
  | value => exact Nat.zero_le _
  | blockNumber =>
    change 1 ≤ _
    decide
  | timestamp =>
    change (if function.kind == .init then deployedAt else deployedAt + calledAfter) ≤ _
    split <;> decide

theorem storage_ofContract (contract : Contract) : (ofContract contract).storage = [] ∨
    ∃ name inputs report, inputs.env.Fits ∧ inputs.storage = [] ∧
      contract.run RunLimits.standard name inputs = .ok report ∧ (ofContract contract).storage =
        report.storage := by
  simp only [ofContract]
  split
  · rename_i inputs report deployed
    obtain ⟨init, _, found⟩ := Option.bind_eq_some_iff.mp deployed
    obtain ⟨number, _, rfl, ran, _⟩ := of_search?_eq_some found
    obtain ⟨sender, known, args, _, same⟩ := candidate_chosen ⟨contract, []⟩ init
      (senders_ne_nil ⟨contract, []⟩) (pools_ne_nil ⟨contract, []⟩ init) number
    have small : sender ≤ Ty.address.maxValue := by
      rcases mem_senders known with rfl | ⟨entry, listed, _⟩
      · decide
      · cases listed
    rw [same] at ran
    refine .inr ⟨init.name, _, report, fits_inputs small args, ?_, ran, rfl⟩
    simp only [inputs, ite_self]
  · exact .inl rfl

theorem sorted_ofContract (contract : Contract) : (ofContract contract).storage.Sorted := by
  rcases storage_ofContract contract with empty | ⟨name, inputs, report, _, blank, ran, same⟩
  · rw [empty]
    exact .nil
  · rw [same]
    refine (Contract.comesFrom_of_run ran).sorted ?_
    rw [blank]
    exact .nil

/-- All values in storage after deployment fit the types of their fields. -/
theorem admits_ofContract {contract : Contract} {declared : Declarations}
    (code : contract.Typed declared) :
    ∀ entry ∈ (ofContract contract).storage, Storage.Admits contract entry.1 entry.2 := by
  intro entry member
  rcases storage_ofContract contract with empty | ⟨name, inputs, report, env, blank, ran, same⟩
  · rw [empty] at member
    cases member
  · rw [same] at member
    have comes := Contract.comesFrom_of_run ran
    rw [blank] at comes
    have fits : inputs.storage.Fits contract := by
      rw [blank]
      exact Storage.fits_nil contract
    obtain ⟨function, frame, ending, effects, found, count, framed, ended, rfl⟩ :=
      Contract.run_eq_ok_iff.mp ran
    obtain ⟨start, begun, typed⟩ := code.start found count fun _ : True => fits
    obtain rfl := Except.ok.inj (framed.symm.trans begun)
    have setting : (inputs.setting contract RunLimits.standard).contract.Typed declared := code
    have ends := Running.run_ends setting
      (fun _ => env) RunLimits.standard.fuel RunLimits.standard.fuel typed
    rw [ended] at ends
    obtain old | ⟨record, listed, rfl⟩ := comes.written entry member
    · cases old
    · exact (ends.fits trivial fits).stores record listed

theorem sender_le {contract : Contract} {declared : Declarations} (code : contract.Typed declared)
    {sender : Nat} (member : sender ∈ (ofContract contract).senders) :
    sender ≤ Ty.address.maxValue := by
  rcases mem_senders member with rfl | ⟨entry, listed, rfl, field, found, address⟩
  · decide
  · obtain ⟨other, known, _, small⟩ := admits_ofContract code entry listed
    rw [contract_ofContract] at found
    obtain rfl := Option.some.inj (known.symm.trans found)
    rwa [address] at small

/-! What is expected of the candidate. -/

section Describe

variable {inputs : Inputs} {report : Report}

theorem stored_describe (inputs : Inputs) (report : Report) :
    (describe inputs report).filterMap Assertion.stored? =
      report.storage.filter fun entry => inputs.storage.lookup entry.1 != some entry.2 := by
  unfold describe
  have events : (report.events.map Assertion.emits).filterMap Assertion.stored? = [] :=
    List.filterMap_eq_nil_iff.mpr (List.forall_mem_map.mpr fun _ _ => rfl)
  have changed (entries : Storage) :
      (entries.map fun entry => Assertion.storageEquals entry.1 entry.2).filterMap
        Assertion.stored? = entries := by
    rw [List.filterMap_map]
    exact List.filterMap_some
  simp only [List.filterMap_append, events, changed, List.append_nil]
  split <;> rfl

theorem emitted_describe (inputs : Inputs) (report : Report) :
    (describe inputs report).filterMap Assertion.emitted? = report.events := by
  unfold describe
  have events : (report.events.map Assertion.emits).filterMap Assertion.emitted? =
      report.events := by
    rw [List.filterMap_map]
    exact List.filterMap_some
  have changed (entries : Storage) :
      (entries.map fun entry => Assertion.storageEquals entry.1 entry.2).filterMap
        Assertion.emitted? = [] :=
    List.filterMap_eq_nil_iff.mpr (List.forall_mem_map.mpr fun _ _ => rfl)
  simp only [List.filterMap_append, events, changed, List.append_nil]
  split <;> rfl

theorem satisfies_describe (success : report.result.isSuccess = true)
    (sorted : report.storage.Sorted) :
    ∀ assertion ∈ describe inputs report, report.Satisfies assertion := by
  unfold describe
  refine List.forall_mem_append.mpr
    ⟨List.forall_mem_append.mpr ⟨List.forall_mem_append.mpr ⟨?_, ?_⟩, ?_⟩, ?_⟩
  · exact List.forall_mem_singleton.mpr (.succeeds success)
  · split
    · rename_i value returned
      exact List.forall_mem_singleton.mpr (.returns returned)
    · exact fun _ member => nomatch member
  · refine List.forall_mem_map.mpr fun entry member => .storageEquals ?_
    exact sorted.lookup_eq_some.mpr (List.mem_of_mem_filter member)
  · exact List.forall_mem_map.mpr fun event member => .emits member

end Describe

/-- The test is the call of the first candidate on which the function succeeds, and expects just
what that does. -/
theorem happyPath_of_first (sorted : deployment.storage.Sorted) {number : Nat}
    (tried : number < candidateLimit) (succeeds : deployment.Succeeds function number)
    (first : ∀ earlier < number, ¬ deployment.Succeeds function earlier) :
    let test := deployment.happyPath function
    test.inputs = deployment.candidate function deployment.senders
    (deployment.pools function) number ∧
      ∃ report, deployment.contract.run .standard test.function test.inputs = .ok report ∧
        (∀ assertion ∈ test.assertions, report.Satisfies assertion) ∧
        report.storage = test.inputs.storage.overlay (test.assertions.filterMap Assertion.stored?) ∧
        report.events = test.assertions.filterMap Assertion.emitted? := by
  obtain ⟨report, ran, success⟩ := succeeds
  have found := search?_eq_some tried ran success first
  generalize taken : deployment.candidate function deployment.senders
    (deployment.pools function) number = inputs at *
  have made : deployment.happyPath function = deployment.test function .happyPath inputs
      (describe inputs report) := by
    unfold happyPath
    rw [found]
  have comes := Contract.comesFrom_of_run ran
  have before : inputs.storage.Sorted := by
    rw [← taken, candidate]
    dsimp only
    split
    · exact .nil
    · exact sorted
  have after : report.storage.Sorted := comes.sorted before
  rw [made]
  refine ⟨rfl, report, ran, satisfies_describe success after, ?_,
    (emitted_describe inputs report).symm⟩
  change report.storage = inputs.storage.overlay
    ((describe inputs report).filterMap Assertion.stored?)
  rw [stored_describe, Storage.overlay_changed before after comes.keeps]

theorem happyPath_of_none
    (fails : ∀ number < candidateLimit, ¬ deployment.Succeeds function number) :
    deployment.happyPath function = deployment.test function .happyPath
      (deployment.candidate function deployment.senders (deployment.pools function) 0)
      [.succeeds] := by
  unfold happyPath
  rw [search?_eq_none fails]

theorem function_happyPath (deployment : Deployment) (function : Function) :
    (deployment.happyPath function).function = function.name := by
  unfold happyPath
  split <;> rfl

end Deployment

/-- The test of a call that succeeds is found if there is one among the candidates that are tried,
and it is exact. For each function that can be called from outside: the candidates, up to their
number, are all choices of a sender and of one value from the pool of each parameter, each choice
once, and all that is chosen fits its type. The first of 512 candidates on which the function
succeeds is the input of the test; the call reports what the test expects, a storage that is the one
before with the expected values laid over it, and just the expected events. If there is none, the
first candidate of all is expected to succeed, and nothing else. -/
theorem ContractSet.happyPath_exact {text : String} {contract : Contract}
    (member : contract ∈ (ContractSet.ofText text).contracts) {function : Function}
    (entry : function ∈ contract.entryPoints) :
    let deployment := Deployment.ofContract contract
    let senders := deployment.senders
    let pools := deployment.pools function
    let candidate := deployment.candidate function senders pools
    let candidates := (List.range (senders.length * (pools.map List.length).prod)).map candidate
    let succeeds := fun number => contract.SucceedsOn function.name (candidate number)
    let test := deployment.happyPath function
    candidates.Nodup ∧
      (∀ inputs, inputs ∈ candidates ↔ ∃ sender ∈ senders, ∃ args, List.Forall₂ (· ∈ ·) args pools ∧
        inputs = deployment.inputs function sender args) ∧
      (∀ sender ∈ senders, sender ≤ Ty.address.maxValue) ∧
      (∀ args, List.Forall₂ (· ∈ ·) args pools → function.Accepts args) ∧
      contract.function? test.function = some function ∧
      (∀ number < 512, succeeds number → (∀ earlier < number, ¬ succeeds earlier) →
        test.inputs = candidate number ∧ ∃ report,
          contract.run .standard test.function test.inputs = .ok report ∧
          (∀ assertion ∈ test.assertions, report.Satisfies assertion) ∧
          report.storage = test.inputs.storage.overlay
            (test.assertions.filterMap Assertion.stored?) ∧
          report.events = test.assertions.filterMap Assertion.emitted?) ∧
      ((∀ number < 512, ¬ succeeds number) → test.inputs = candidate 0 ∧
        test.assertions = [.succeeds]) := by
  obtain ⟨declared, code⟩ := typed_of_ofText member
  have found := (wellFormed_of_ofText member).function? (List.mem_of_mem_filter entry)
  have same := Deployment.contract_ofContract contract
  have sorted := Deployment.sorted_ofContract contract
  have small : ∀ sender ∈ (Deployment.ofContract contract).senders, sender ≤ Ty.address.maxValue :=
    fun _ known => Deployment.sender_le code known
  generalize Deployment.ofContract contract = deployment at *
  subst same
  have filled := deployment.senders_ne_nil
  refine ⟨Deployment.nodup_candidates (nodup_eraseDups _) (deployment.nodup_of_mem_pools function)
    filled, fun inputs => Deployment.mem_candidates filled (deployment.pools_ne_nil function),
    small, fun args chosen => Deployment.accepts_of_mem_pools chosen, ?_, ?_, ?_⟩
  · rw [Deployment.function_happyPath]
    exact found
  · exact fun number tried succeeds first =>
      Deployment.happyPath_of_first sorted tried succeeds first
  · intro fails
    rw [Deployment.happyPath_of_none fails]
    exact ⟨rfl, rfl⟩

/-- An owner that the deployment has stored calls a function that refuses all others, and small
numbers. -/
theorem ContractSet.happyPath_exact_of_owner :
    let text := "contract A \x7b event Taken(by: address) owner: address sum: u8 " ++
      "init(first: address) \x7b self.owner = first \x7d " ++
      "take(n: u8, by: address) \x7b require(n > 10 && msg.sender == self.owner) self.sum = n emit Taken(by) \x7d \x7d"
    ∃ contract ∈ (ofText text).contracts, ∃ function ∈ contract.entryPoints,
      let deployment := Deployment.ofContract contract
      let candidate := deployment.candidate function deployment.senders (deployment.pools function)
      let test := deployment.happyPath function
      ((List.range 16).map candidate).Nodup ∧ test.inputs = candidate 7 ∧ (candidate 7).args =
        [11, 0xb0b] ∧
        ∃ report, contract.run .standard test.function test.inputs = .ok report ∧
          report.storage = test.inputs.storage.overlay
            (test.assertions.filterMap Assertion.stored?) ∧
          report.events = test.assertions.filterMap Assertion.emitted? := by
  intro text
  have tried : ∃ contract ∈ (ofText text).contracts, ∃ function ∈ contract.entryPoints,
      let deployment := Deployment.ofContract contract
      let candidate := deployment.candidate function deployment.senders (deployment.pools function)
      deployment.senders.length * ((deployment.pools function).map List.length).prod = 16 ∧
        (candidate 7).args = [11, 0xb0b] ∧ contract.SucceedsOn function.name (candidate 7) ∧
        ∀ earlier < 7, ¬ contract.SucceedsOn function.name (candidate earlier) := by
    decide +kernel
  obtain ⟨contract, member, function, entry, count, args, succeeds, first⟩ := tried
  obtain ⟨nodup, _, _, _, _, found, _⟩ := happyPath_exact member entry
  obtain ⟨inputs, report, ran, _, storage, events⟩ := found 7 (by decide) succeeds first
  exact ⟨contract, member, function, entry, count ▸ nodup, inputs, args, report, ran,
    storage, events⟩

end Covenant
