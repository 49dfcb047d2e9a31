import Covenant.Proofs.Property.Separation
import Covenant.Proofs.Lowering.Formation

/-!
Tests are made contract by contract: those of a contract do not depend on the contracts beside it,
as long as no finding about one of these has the name of a function of the contract.
-/

namespace Covenant

namespace Deployment

theorem contract_of_mem_adversarial {deployment : Deployment} {function : Function}
    {happy test : TestCase} {issues : List Issue} {results : List Verification}
    (member : test ∈ deployment.adversarial function happy issues results) :
    test.contract = deployment.contract.name := by
  have kept (seen : List TestKind) (tests : List TestCase)
      (inside : test ∈ adversarial.firstOfEachKind seen tests) : test ∈ tests := by
    fun_induction adversarial.firstOfEachKind seen tests with
    | case1 => exact inside
    | case2 seen first rest known ih => exact List.mem_cons_of_mem _ (ih inside)
    | case3 seen first rest fresh ih =>
      rcases List.mem_cons.mp inside with rfl | later
      · exact List.mem_cons_self
      · exact List.mem_cons_of_mem _ (ih later)
  rcases List.mem_append.mp (kept _ _ member) with probe | replay
  · obtain ⟨issue, _, made⟩ := List.mem_filterMap.mp probe
    split at made
    · obtain ⟨_, _, rfl⟩ := Option.map_eq_some_iff.mp made
      rfl
    · simp at made
  · obtain ⟨result, _, made⟩ := List.mem_filterMap.mp replay
    split at made
    · split at made
      · rw [← Option.some.inj made]
        rfl
      · simp at made
    · simp at made

theorem contract_of_mem_tests {deployment : Deployment} {issues : List Issue}
    {results : List Verification} {function : Function} {test : TestCase}
    (member : test ∈ deployment.tests issues results function) :
    test.contract = deployment.contract.name := by
  have happy : (deployment.happyPath function).contract = deployment.contract.name := by
    unfold happyPath
    split <;> rfl
  have all : ∀ test ∈ deployment.happyPath function ::
      deployment.adversarial function (deployment.happyPath function) issues results,
      test.contract = deployment.contract.name := by
    rw [List.forall_mem_cons]
    exact ⟨happy, fun test other => contract_of_mem_adversarial other⟩
  exact all test member

theorem filterMap_eq_of_filter_eq {α β : Type} {keep : α → Bool} {make : α → Option β}
    {items others : List α} (same : items.filter keep = others.filter keep)
    (drops : ∀ item, keep item = false → make item = none) :
    items.filterMap make = others.filterMap make := by
  have narrowed (items : List α) : (items.filter keep).filterMap make = items.filterMap make := by
    rw [List.filterMap_filter]
    apply List.filterMap_congr
    intro item _
    cases kept : keep item with
    | true => rfl
    | false => exact (drops item kept).symm
  rw [← narrowed items, same, narrowed]

theorem tests_congr {deployment : Deployment} {issues others : List Issue}
    {results verdicts : List Verification} {function : Function}
    (findings : issues.filter (fun issue => issue.function == some function.name) =
      others.filter fun issue => issue.function == some function.name)
    (about : results.filter (fun result => result.property.contract == deployment.contract.name) =
      verdicts.filter fun result => result.property.contract == deployment.contract.name) :
    deployment.tests issues results function = deployment.tests others verdicts function := by
  refine congrArg (List.cons _) (congrArg (adversarial.firstOfEachKind []) (congrArg₂ (· ++ ·)
    (filterMap_eq_of_filter_eq findings ?_) (filterMap_eq_of_filter_eq about ?_)))
  · intro issue other
    simp [other]
  · intro result other
    split <;> simp [other]

theorem contract_ofContract (contract : Contract) : (ofContract contract).contract = contract := by
  simp only [ofContract]
  split <;> rfl

end Deployment

/-- Among things that are labelled with the different keys of what they are made from, those with
one key are the ones made from one item. -/
theorem filter_flatMap_of_label {α β : Type} {key : α → String} {label : β → String}
    {make : α → List β} {items : List α} {item : α} (distinct : (items.map key).Nodup)
    (member : item ∈ items) (labelled : ∀ item, ∀ made ∈ make item, label made = key item) :
    (items.flatMap make).filter (fun made => label made == key item) = make item := by
  have kept : (make item).filter (fun made => label made == key item) = make item := by
    rw [List.filter_eq_self]
    intro made inside
    simp [labelled item made inside]
  have dropped (others : List α) (none : ∀ other ∈ others, key other ≠ key item) :
      (others.flatMap make).filter (fun made => label made == key item) = [] := by
    rw [List.filter_eq_nil_iff]
    intro made inside
    obtain ⟨other, listed, makes⟩ := List.mem_flatMap.mp inside
    simp [labelled other made makes, none other listed]
  induction items with
  | nil => simp at member
  | cons first rest ih =>
    obtain ⟨fresh, distinct⟩ := List.nodup_cons.mp distinct
    rw [List.flatMap_cons, List.filter_append]
    rcases List.mem_cons.mp member with rfl | later
    · have others := dropped rest fun other listed same => fresh (same ▸ List.mem_map_of_mem listed)
      rw [kept, others, List.append_nil]
    · have differs : key first ≠ key item := fun same => fresh (same ▸ List.mem_map_of_mem later)
      have none := dropped [first] (by simpa using differs)
      rw [List.flatMap_cons, List.flatMap_nil, List.append_nil] at none
      rw [none, ih distinct later, List.nil_append]

namespace ContractSet

/-- Whether nothing that the tests are made from has run out of its budget: no check, and neither
finding the summaries for the properties to infer nor for those to verify. -/
structure Complete (set : ContractSet) (budget : Nat) (limits : VerifierLimits) : Prop where
  scanned : ∀ issue ∈ set.allIssues budget, issue.isAdvisory = false
  inferred : (Summaries.ofSet set).2 ≤ VerifierLimits.standard.fuel
  verified : (Summaries.ofSet set).2 ≤ limits.fuel

variable {set : ContractSet} {budget : Nat} {limits : VerifierLimits} {contract : Contract}

theorem ascending_allIssues (set : ContractSet) (budget : Nat) :
    Ascending Issue.order (set.allIssues budget) :=
  Issue.ascending_arrange _

theorem filter_tests (distinct : (set.contracts.map Contract.name).Nodup)
    (member : contract ∈ set.contracts) (issues : List Issue) (results : List Verification) :
    (set.testsFor issues results).tests.filter (fun test => test.contract == contract.name) =
      contract.entryPoints.flatMap ((Deployment.ofContract contract).tests issues results) := by
  refine filter_flatMap_of_label distinct member ?_
  intro other test inside
  obtain ⟨function, _, made⟩ := List.mem_flatMap.mp inside
  rw [Deployment.contract_of_mem_tests made, Deployment.contract_ofContract]

/-- The tests of a contract among others are the tests of the contract alone, in the same order, if
no finding about one of the others has the name of a function that is tested and the examination of
no property ends with a fault. -/
theorem tests_alone (distinct : (set.contracts.map Contract.name).Nodup)
    (member : contract ∈ set.contracts) (complete : set.Complete budget limits)
    (settled : ∀ property ∈ Property.infer set, ¬ set.Faults limits property)
    (apart : ∀ other ∈ set.contracts, other ≠ contract → ∀ issue ∈ (mk [other]).allIssues budget,
      ∀ function ∈ contract.entryPoints, issue.function ≠ some function.name) :
    ∃ suite alone, set.generateTests budget limits = .ok suite ∧
      (mk [contract]).generateTests budget limits = .ok alone ∧
      suite.tests.filter (fun test => test.contract == contract.name) = alone.tests := by
  have scanned := scanned_of_complete complete.scanned
  obtain ⟨results, verified⟩ := exists_verify_eq_ok settled
  have single := verify_alone distinct member complete.verified verified
  rw [infer_alone distinct member complete.inferred] at single
  refine ⟨_, _, chain_eq_ok.mpr ⟨_, verified, rfl⟩, chain_eq_ok.mpr ⟨_, single, rfl⟩, ?_⟩
  rw [filter_tests distinct member, testsFor]
  simp only [List.flatMap_cons, List.flatMap_nil, List.append_nil]
  apply List.flatMap_congr
  intro function listed
  apply Deployment.tests_congr
  · refine ((ascending_allIssues set budget).filter _).eq_of_mem_iff
      ((ascending_allIssues _ budget).filter _) ?_
    intro issue
    rw [List.mem_filter, List.mem_filter, scanned.mem_allIssues_iff distinct, beq_iff_eq]
    constructor
    · rintro ⟨⟨other, known, found⟩, named⟩
      by_cases same : other = contract
      · exact ⟨same ▸ found, named⟩
      · exact absurd named (apart other known same issue found function listed)
    · rintro ⟨found, named⟩
      exact ⟨⟨contract, member, found⟩, named⟩
  · rw [Deployment.contract_ofContract, List.filter_filter]
    simp only [Bool.and_self]

/-- The counter is tested as if the vault, of which there are findings as well, were not there. -/
theorem tests_alone_of_two_contracts :
    let set := ofText
      ("contract Vault \x7b\n  x: u64\n  put(n: u64) \x7b self.x = self.x + n \x7d\n\x7d\n" ++
        "contract Counter \x7b\n  c: u64\n  raise(n: u64) \x7b self.c = self.c + n \x7d\n\x7d")
    ∃ contract ∈ set.contracts, contract.name = "Counter" ∧
      (set.contracts.map Contract.name).Nodup ∧
      set.Complete Pass.standardBudget VerifierLimits.standard ∧
      ∃ suite alone, set.generateTests Pass.standardBudget VerifierLimits.standard = .ok suite ∧
        (mk [contract]).generateTests Pass.standardBudget VerifierLimits.standard = .ok alone ∧
        suite.tests.filter (fun test => test.contract == contract.name) = alone.tests := by
  intro set
  obtain ⟨distinct, ⟨contract, member, named⟩, costs, summaries, names⟩ :
      (set.contracts.map Contract.name).Nodup ∧
        (∃ contract ∈ set.contracts, contract.name = "Counter") ∧
        (∀ check ∈ Check.all, check.cost set ≤ Pass.standardBudget) ∧
        (Summaries.ofSet set).2 ≤ VerifierLimits.standard.fuel ∧
        ∀ contract ∈ set.contracts, ∀ other ∈ set.contracts, other ≠ contract →
          ∀ function ∈ contract.entryPoints, ∀ foreign ∈ other.functions, foreign.name ≠
            function.name := by
    decide +kernel
  have settled : ∀ property ∈ Property.infer set, ¬ set.Faults .standard property := by
    decide +kernel
  have scanned : set.Scanned Pass.standardBudget := fun check => costs check check.mem_all
  have complete : set.Complete Pass.standardBudget VerifierLimits.standard :=
    ⟨scanned.complete, summaries, summaries⟩
  have apart : ∀ other ∈ set.contracts, other ≠ contract →
      ∀ issue ∈ (mk [other]).allIssues Pass.standardBudget, ∀ function ∈ contract.entryPoints,
        issue.function ≠ some function.name := by
    intro other known differs issue found function listed same
    obtain ⟨foreign, inside, called⟩ := (scanned.alone distinct known).named found
    rw [called, Option.some.injEq] at same
    exact names contract member other known differs function listed foreign inside same
  exact ⟨contract, member, named, distinct, complete,
    tests_alone distinct member complete settled apart⟩

end ContractSet

end Covenant
