import Covenant.Proofs.Scan.Arrangement
import Covenant.Proofs.Scan.Isolation
import Covenant.Proofs.Scan.Summaries
import Covenant.Suite.Generator

/-!
The scanner looks at contracts one by one: what it finds in a set of contracts is what it finds in
each of them alone, as long as no check runs out of its budget.
-/

namespace Covenant

/-! What passes report. -/

namespace Pass

variable {σ κ φ : Type} [BEq κ]

theorem runWave_facts {names : List (κ × String)} {subject : σ} {budget : Nat} {facts : Facts κ φ}
    {pass : Pass σ κ φ} {found : List Issue} {fact : φ} (rest : List (Pass σ κ φ))
    (ran : runIsolated names subject facts budget pass = .ok (found, fact)) :
    ∃ known, (runWave names subject budget facts (pass :: rest)).2 = (pass.key, fact) :: known := by
  simp only [runWave, ran]
  exact ⟨_, rfl⟩

end Pass

namespace Check

def independent : List Check :=
  [functionSummaries, uncheckedArithmetic, deadStore, txOrigin, uncheckedCall, unboundedLoop]

def dependent : List Check := [reentrancy, missingAccessControl]

def named : List (Check × String) := (independent ++ dependent).map fun check => (check, check.name)

theorem mem_all (check : Check) : check ∈ all := by
  cases check <;> decide

theorem mem_waves (check : Check) : check ∈ independent ∨ check ∈ dependent := by
  cases check <;> decide

theorem not_mem_dependent {check : Check} (listed : check ∈ independent) : check ∉ dependent := by
  revert listed
  cases check <;> decide

def cost (set : ContractSet) : Check → Nat
  | functionSummaries => (Summaries.ofSet set).2
  | check => (check.findings (Summaries.ofSet set).1 set).cost

def issues (set : ContractSet) (check : Check) : List Issue :=
  (check.findings (Summaries.ofSet set).1 set).issues

theorem reported_eq (set : ContractSet) (budget : Nat) (check : Check)
    {facts : Facts Check Summaries}
    (known : check ∈ dependent → facts.lookup functionSummaries = some (Summaries.ofSet set).1) :
    Pass.reported (Pass.runIsolated named set facts budget check.pass) =
      if check.cost set ≤ budget then check.issues set
      else [Pass.incomplete (.budgetExhausted check.name budget)] := by
  have ran : Pass.runIsolated named set facts budget check.pass =
      (check.within (check.cost set) budget
        (check.issues set, if check = functionSummaries then (Summaries.ofSet set).1
          else [])).mapError (PassStop.problem check.name) := by
    cases check with
    | reentrancy => simp [Pass.runIsolated, pass, depends, known (by decide), cost, issues]
    | missingAccessControl =>
      simp [Pass.runIsolated, pass, depends, known (by decide), cost, issues]
    | _ => rfl
  rw [ran, Check.within]
  split <;> rfl

end Check

namespace ContractSet

variable {set : ContractSet} {budget : Nat} {issue : Issue}

def factsOf (set : ContractSet) (budget : Nat) : Facts Check Summaries :=
  (Pass.runWave Check.named set budget [] (Check.independent.map Check.pass)).2

theorem mem_allIssues : issue ∈ set.allIssues budget ↔
    (∃ check ∈ Check.independent,
      issue ∈ Pass.reported (Pass.runIsolated Check.named set [] budget check.pass)) ∨
    ∃ check ∈ Check.dependent,
      issue ∈ Pass.reported
        (Pass.runIsolated Check.named set (set.factsOf budget) budget check.pass) := by
  have waves : set.allIssues budget = Issue.arrange
      ((Pass.runWave Check.named set budget [] (Check.independent.map Check.pass)).1 ++
        ((Pass.runWave Check.named set budget (set.factsOf budget)
          (Check.dependent.map Check.pass)).1 ++ [])) := rfl
  rw [waves, Issue.mem_arrange, List.append_nil, List.mem_append, Pass.mem_runWave,
    Pass.mem_runWave]
  simp only [List.mem_map, exists_exists_and_eq_and]

theorem factsOf_summaries (enough : Check.functionSummaries.cost set ≤ budget) :
    (set.factsOf budget).lookup .functionSummaries = some (Summaries.ofSet set).1 := by
  have ran : Pass.runIsolated Check.named set [] budget Check.functionSummaries.pass =
      .ok ([], (Summaries.ofSet set).1) := by
    have within : Check.functionSummaries.pass.run set [] budget =
        .ok ([], (Summaries.ofSet set).1) := if_pos enough
    show (Check.functionSummaries.pass.run set [] budget).mapError _ = _
    rw [within]
    rfl
  obtain ⟨known, facts⟩ := Pass.runWave_facts (Check.independent.tail.map Check.pass) ran
  have first : set.factsOf budget = (Check.functionSummaries, (Summaries.ofSet set).1) ::
      known := facts
  rw [first]
  rfl

def Scanned (set : ContractSet) (budget : Nat) : Prop := ∀ check : Check, check.cost set ≤ budget

theorem Scanned.mem_allIssues (scanned : set.Scanned budget) :
    issue ∈ set.allIssues budget ↔ ∃ check : Check, issue ∈ check.issues set := by
  have found (check : Check) {facts : Facts Check Summaries}
      (known : check ∈ Check.dependent → facts.lookup .functionSummaries =
        some (Summaries.ofSet set).1) :
      Pass.reported (Pass.runIsolated Check.named set facts budget check.pass) = check.issues set :=
    (Check.reported_eq set budget check known).trans (if_pos (scanned check))
  have facts := factsOf_summaries (scanned .functionSummaries)
  have early (check : Check) (listed : check ∈ Check.independent) :
      Pass.reported (Pass.runIsolated Check.named set [] budget check.pass) = check.issues set :=
    found check fun late => absurd late (Check.not_mem_dependent listed)
  have late (check : Check) := found check fun _ => facts
  rw [ContractSet.mem_allIssues]
  constructor
  · rintro (⟨check, listed, member⟩ | ⟨check, _, member⟩)
    · exact ⟨check, early check listed ▸ member⟩
    · exact ⟨check, late check ▸ member⟩
  · rintro ⟨check, member⟩
    rcases check.mem_waves with listed | listed
    · exact .inl ⟨check, listed, early check listed ▸ member⟩
    · exact .inr ⟨check, listed, late check ▸ member⟩

/-- Where no finding says that a check ran out of its budget, none did. -/
theorem scanned_of_complete (complete : ∀ issue ∈ set.allIssues budget, issue.isAdvisory = false) :
    set.Scanned budget := by
  have stays (check : Check) (facts : Facts Check Summaries)
      (known : check ∈ Check.dependent → facts.lookup .functionSummaries =
        some (Summaries.ofSet set).1)
      (listed : ∀ issue ∈ Pass.reported (Pass.runIsolated Check.named set facts budget check.pass),
        issue ∈ set.allIssues budget) : check.cost set ≤ budget := by
    by_contra exceeds
    rw [Check.reported_eq set budget check known, if_neg exceeds] at listed
    have advisory := complete _ (listed _ List.mem_cons_self)
    simp [Pass.incomplete, Issue.isAdvisory] at advisory
  have early (check : Check) (listed : check ∈ Check.independent) : check.cost set ≤ budget := by
    refine stays check [] (fun late => absurd late (Check.not_mem_dependent listed)) ?_
    intro issue member
    exact mem_allIssues.mpr (.inl ⟨check, listed, member⟩)
  have facts := factsOf_summaries (early .functionSummaries List.mem_cons_self)
  intro check
  rcases check.mem_waves with listed | listed
  · exact early check listed
  · refine stays check _ (fun _ => facts) ?_
    intro issue member
    exact mem_allIssues.mpr (.inr ⟨check, listed, member⟩)

end ContractSet

/-! What checks find in each contract. -/

namespace Check

variable {summaries others : Summaries} {contract : Contract} {rest : List Contract}

theorem functions_cons (contract : Contract) (rest : List Contract) :
    (ContractSet.mk (contract :: rest)).functions =
      (ContractSet.mk [contract]).functions ++ (ContractSet.mk rest).functions := by
  simp [ContractSet.functions]

theorem openFunctions_cons (contract : Contract) (rest : List Contract) :
    Finding.openFunctions ⟨contract :: rest⟩ = Finding.openFunctions ⟨[contract]⟩ ++
      Finding.openFunctions ⟨rest⟩ := by
  simp only [Finding.openFunctions, functions_cons contract rest, List.filter_append]

theorem issues_cons (summaries : Summaries) (check : Check) (contract : Contract)
    (rest : List Contract) :
    (check.findings summaries ⟨contract :: rest⟩).issues =
      (check.findings summaries ⟨[contract]⟩).issues ++
      (check.findings summaries ⟨rest⟩).issues := by
  cases check <;>
  simp only [findings, Finding.reentrancy, Finding.missingAccessControl,
    Finding.uncheckedArithmetic, Finding.deadStore, Finding.txOrigin, Finding.uncheckedCall,
    Finding.unboundedLoop, functions_cons contract rest, openFunctions_cons contract rest,
    List.filterMap_append, List.flatMap_append, List.append_nil]

theorem cost_cons (summaries : Summaries) (check : Check) (contract : Contract)
    (rest : List Contract) :
    (check.findings summaries ⟨contract :: rest⟩).cost =
      (check.findings summaries ⟨[contract]⟩).cost + (check.findings summaries ⟨rest⟩).cost := by
  cases check <;>
  simp only [findings, Finding.reentrancy, Finding.missingAccessControl,
    Finding.uncheckedArithmetic, Finding.deadStore, Finding.txOrigin, Finding.uncheckedCall,
    Finding.unboundedLoop, Finding.openCost, functions_cons contract rest,
    openFunctions_cons contract rest, List.map_append, total_append, Nat.add_zero]

theorem issues_eq_flatMap (summaries : Summaries) (check : Check) (set : ContractSet) :
    (check.findings summaries set).issues =
      set.contracts.flatMap fun contract => (check.findings summaries ⟨[contract]⟩).issues := by
  obtain ⟨contracts⟩ := set
  induction contracts with
  | nil => cases check <;> rfl
  | cons contract rest ih => rw [issues_cons, ih, List.flatMap_cons]

theorem cost_le_of_mem (summaries : Summaries) (check : Check) {set : ContractSet}
    (member : contract ∈ set.contracts) :
    (check.findings summaries ⟨[contract]⟩).cost ≤ (check.findings summaries set).cost := by
  obtain ⟨contracts⟩ := set
  induction contracts with
  | nil => simp at member
  | cons first rest ih =>
    have split := cost_cons summaries check first rest
    rcases List.mem_cons.mp member with rfl | later
    · omega
    · have inside := ih later
      omega

/-- A finding has the name of a function that was looked at. -/
theorem named_of_mem_issues {check : Check} {set : ContractSet} {issue : Issue}
    (found : issue ∈ check.issues set) :
    issue.isAdvisory = false ∧ ∃ entry ∈ set.functions, issue.function = some entry.2.name := by
  have made (entry : Contract × Function) (id : String) (severity : Severity) (location : Location)
      (message : String)
      (member : entry ∈ set.functions) (other : id ≠ Issue.incompleteId) :
      (Finding.issue id severity location entry.2 message).isAdvisory = false ∧
        ∃ entry' ∈ set.functions,
          (Finding.issue id severity location entry.2 message).function = some entry'.2.name :=
    ⟨by simpa [Issue.isAdvisory, Finding.issue] using other, entry, member, rfl⟩
  have opened {entry : Contract × Function} (listed : entry ∈ Finding.openFunctions set) :
      entry ∈ set.functions :=
    (List.mem_filter.mp listed).1
  cases check with
  | functionSummaries => simp [issues, findings] at found
  | reentrancy =>
    obtain ⟨entry, listed, kept⟩ := List.mem_filterMap.mp found
    obtain ⟨_, _, rfl⟩ := Option.map_eq_some_iff.mp kept
    exact made _ _ _ _ _ (opened listed) (by decide)
  | missingAccessControl =>
    obtain ⟨entry, listed, kept⟩ := List.mem_filterMap.mp found
    obtain ⟨_, _, rfl⟩ := Option.map_eq_some_iff.mp kept
    exact made _ _ _ _ _ (opened listed) (by decide)
  | uncheckedArithmetic =>
    obtain ⟨entry, listed, inside⟩ := List.mem_flatMap.mp found
    obtain ⟨⟨block, instruction⟩, _, kept⟩ := List.mem_filterMap.mp inside
    simp only [Finding.wrapIssue?] at kept
    split at kept
    · simp only [Option.ite_none_left_eq_some, Option.some.injEq] at kept
      obtain ⟨_, _, _, rfl⟩ := kept
      exact made _ _ _ _ _ listed (by decide)
    · simp at kept
  | deadStore =>
    obtain ⟨entry, listed, inside⟩ := List.mem_flatMap.mp found
    obtain ⟨_, _, rfl⟩ := List.mem_map.mp inside
    exact made _ _ _ _ _ listed (by decide)
  | txOrigin =>
    obtain ⟨entry, listed, inside⟩ := List.mem_flatMap.mp found
    obtain ⟨block, _, kept⟩ := List.mem_filterMap.mp inside
    split at kept
    · simp at kept
    · split at kept
      · rw [← Option.some.inj kept]
        exact made _ _ _ _ _ listed (by decide)
      · simp at kept
  | uncheckedCall =>
    obtain ⟨entry, listed, inside⟩ := List.mem_flatMap.mp found
    obtain ⟨⟨block, instruction⟩, _, kept⟩ := List.mem_filterMap.mp inside
    simp only at kept
    split at kept
    · simp only [Option.ite_none_left_eq_some, Option.some.injEq] at kept
      obtain ⟨_, rfl⟩ := kept
      exact made _ _ _ _ _ listed (by decide)
    · simp at kept
  | unboundedLoop =>
    obtain ⟨entry, listed, inside⟩ := List.mem_flatMap.mp found
    obtain ⟨_, _, kept⟩ := List.mem_filterMap.mp inside
    split at kept
    · simp at kept
    · simp only [Option.ite_none_right_eq_some, Option.some.injEq] at kept
      obtain ⟨_, rfl⟩ := kept
      exact made _ _ _ _ _ (opened listed) (by decide)
end Check

def Summaries.Agree (contract : Contract) (summaries others : Summaries) : Prop :=
  ∀ name, summaries.get? contract.name name = others.get? contract.name name

namespace Summaries.Agree

variable {summaries others : Summaries} {contract : Contract}
  (agree : Summaries.Agree contract summaries others)
include agree

theorem effectOf : Finding.effectOf summaries contract = Finding.effectOf others contract := by
  funext instruction
  cases instruction <;> simp only [Finding.effectOf, agree _]

theorem staleField? :
    Finding.staleField? summaries contract = Finding.staleField? others contract := by
  funext function
  simp only [Finding.staleField?, agree.effectOf]

theorem checksSender :
    summaries.checksSender contract.name = others.checksSender contract.name := by
  funext name
  simp only [Summaries.checksSender, agree _]

theorem sharedWrite? (function : Function) (block : BlockId) :
    Finding.sharedWrite? summaries contract function block =
      Finding.sharedWrite? others contract function block := by
  funext instruction
  cases instruction <;> simp only [Finding.sharedWrite?, agree _]

theorem unprotectedWrite? :
    Finding.unprotectedWrite? summaries contract = Finding.unprotectedWrite? others contract := by
  funext function
  simp only [Finding.unprotectedWrite?, agree.sharedWrite?, agree.checksSender]

theorem findings (check : Check) :
    check.findings summaries ⟨[contract]⟩ = check.findings others ⟨[contract]⟩ := by
  have alone (entry : Contract × Function) (member : entry ∈ Finding.openFunctions ⟨[contract]⟩) :
      entry.1 = contract := by
    obtain ⟨listed, _⟩ := List.mem_filter.mp member
    simp only [ContractSet.functions, List.flatMap_cons, List.flatMap_nil, List.append_nil,
      List.mem_map] at listed
    obtain ⟨_, _, rfl⟩ := listed
    rfl
  cases check with
  | reentrancy =>
    simp only [Check.findings, Finding.reentrancy, Finding.Result.mk.injEq, and_true]
    apply List.filterMap_congr
    intro entry member
    simp only [alone entry member, agree.staleField?]
  | missingAccessControl =>
    simp only [Check.findings, Finding.missingAccessControl, Finding.Result.mk.injEq, and_true]
    apply List.filterMap_congr
    intro entry member
    simp only [alone entry member, agree.unprotectedWrite?]
  | _ => rfl

end Summaries.Agree

namespace ContractSet

variable {set : ContractSet} {budget : Nat} {contract : Contract}

theorem contract?_of_mem (distinct : (set.contracts.map Contract.name).Nodup)
    (member : contract ∈ set.contracts) :
    set.contract? contract.name = some contract :=
  find?_eq_some_of_nodup distinct member

theorem agree_alone (distinct : (set.contracts.map Contract.name).Nodup)
    (member : contract ∈ set.contracts) :
    Summaries.Agree contract (Summaries.ofSet set).1 (Summaries.ofSet ⟨[contract]⟩).1 := by
  intro name
  have alone : (mk [contract]).contract? contract.name = some contract := by simp [contract?]
  rw [Summaries.get?_ofSet (contract?_of_mem distinct member), Summaries.get?_ofSet alone]

theorem summaries_cost_le (member : contract ∈ set.contracts) :
    (Summaries.ofSet ⟨[contract]⟩).2 ≤ (Summaries.ofSet set).2 := by
  have costs (contracts : List Contract) : (Summaries.ofSet ⟨contracts⟩).2 =
      total (contracts.map fun contract => (Summary.ofContract contract).2) := by
    simp only [Summaries.ofSet, List.map_map]
    rfl
  obtain ⟨contracts⟩ := set
  rw [costs, costs]
  induction contracts with
  | nil => simp at member
  | cons first rest ih =>
    simp only [List.map_cons, List.map_nil, total] at ih ⊢
    rcases List.mem_cons.mp member with rfl | later
    · omega
    · have inside := ih later
      omega

theorem issues_alone (distinct : (set.contracts.map Contract.name).Nodup)
    (member : contract ∈ set.contracts) (check : Check) :
    (check.findings (Summaries.ofSet set).1 ⟨[contract]⟩).issues = check.issues ⟨[contract]⟩ := by
  rw [(agree_alone distinct member).findings, Check.issues]

theorem Scanned.alone (scanned : set.Scanned budget)
    (distinct : (set.contracts.map Contract.name).Nodup) (member : contract ∈ set.contracts) :
    (ContractSet.mk [contract]).Scanned budget := by
  have agree := agree_alone distinct member
  intro check
  have whole := scanned check
  cases check with
  | functionSummaries => exact (summaries_cost_le member).trans whole
  | _ =>
    simp only [Check.cost] at whole ⊢
    rw [← agree.findings]
    exact (Check.cost_le_of_mem _ _ member).trans whole

theorem Scanned.mem_allIssues_iff (scanned : set.Scanned budget)
    (distinct : (set.contracts.map Contract.name).Nodup) {issue : Issue} :
    issue ∈ set.allIssues budget ↔ ∃ contract ∈ set.contracts,
      issue ∈ (ContractSet.mk [contract]).allIssues budget := by
  rw [scanned.mem_allIssues]
  simp only [Check.issues, Check.issues_eq_flatMap _ _ set, List.mem_flatMap]
  constructor
  · rintro ⟨check, contract, member, found⟩
    rw [issues_alone distinct member] at found
    exact ⟨contract, member, (scanned.alone distinct member).mem_allIssues.mpr ⟨check, found⟩⟩
  · rintro ⟨contract, member, found⟩
    obtain ⟨check, listed⟩ := (scanned.alone distinct member).mem_allIssues.mp found
    exact ⟨check, contract, member, (issues_alone distinct member check).symm ▸ listed⟩

theorem Scanned.complete (scanned : set.Scanned budget) :
    ∀ issue ∈ set.allIssues budget, issue.isAdvisory = false := by
  intro issue found
  obtain ⟨check, listed⟩ := scanned.mem_allIssues.mp found
  exact (Check.named_of_mem_issues listed).1

theorem Scanned.named (scanned : (mk [contract]).Scanned budget) {issue : Issue}
    (found : issue ∈ (mk [contract]).allIssues budget) :
    ∃ function ∈ contract.functions, issue.function = some function.name := by
  obtain ⟨check, listed⟩ := scanned.mem_allIssues.mp found
  obtain ⟨_, ⟨owner, function⟩, member, named⟩ := Check.named_of_mem_issues listed
  simp only [functions, List.flatMap_cons, List.flatMap_nil, List.append_nil, List.mem_map,
    Prod.mk.injEq] at member
  obtain ⟨other, inside, _, rfl⟩ := member
  exact ⟨other, inside, named⟩

end ContractSet

end Covenant
