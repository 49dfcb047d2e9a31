import Covenant.Proofs.Property.Proven
import Covenant.Proofs.Scan.Separation
import Covenant.Property.Verifier

/-!
Properties are inferred and verified contract by contract: for each contract, the properties of a
set of contracts and the verdicts on them are those of the contract alone.
-/

namespace Covenant

/-! The order of properties. -/

def Bound.key : Bound → Nat × String
  | field name => (0, name)
  | function name => (1, name)

theorem Bound.order_eq (left right : Bound) :
    left.order right = (compare left.key.1 right.key.1).then (compare left.key.2 right.key.2) := by
  cases left <;> cases right <;> simp [order, key] <;> rfl

instance : Std.TransCmp Bound.order := by
  have kinds := transCmp_on compare fun bound : Bound => bound.key.1
  have names := transCmp_on compare fun bound : Bound => bound.key.2
  have both := @transCmp_then _ _ _ kinds names
  have same : Bound.order = _ := funext₂ Bound.order_eq
  exact same ▸ both

instance : Std.LawfulEqCmp Bound.order where
  compare_self := by
    intro bound
    cases bound <;> simp [Bound.order]
  eq_of_compare := by
    intro left right same
    cases left <;> cases right <;> simp [Bound.order] at same <;> rw [same]

def Rule.key : Rule → Nat × String × Bound
  | boundedBy field bound => (0, field, bound)
  | noUnderflow field => (1, field, .field "")
  | ownerOnly field owner => (2, field, .field owner)

theorem Rule.order_eq (left right : Rule) :
    left.order right = (compare left.key.1 right.key.1).then
      ((compare left.key.2.1 right.key.2.1).then (left.key.2.2.order right.key.2.2)) := by
  cases left <;> cases right <;> simp [order, key, Bound.order] <;> rfl

theorem Rule.key_injective : Function.Injective Rule.key := by
  intro left right same
  cases left <;> cases right <;> simp [key] at same <;> simp [same]

instance : Std.TransCmp Rule.order := by
  have kinds := transCmp_on compare fun rule : Rule => rule.key.1
  have fields := transCmp_on compare fun rule : Rule => rule.key.2.1
  have others := transCmp_on Bound.order fun rule : Rule => rule.key.2.2
  have parts := @transCmp_then _ _ _ fields others
  have all := @transCmp_then _ _ _ kinds parts
  have same : Rule.order = _ := funext₂ Rule.order_eq
  exact same ▸ all

instance : Std.LawfulEqCmp Rule.order where
  compare_self := by simp [Rule.order_eq]
  eq_of_compare := by
    intro left right same
    simp only [Rule.order_eq, Ordering.then_eq_eq, Std.LawfulEqCmp.compare_eq_iff_eq] at same
    exact Rule.key_injective (Prod.ext same.1 (Prod.ext same.2.1 same.2.2))

namespace Property

instance : Std.TransCmp order :=
  have contracts := transCmp_on compare contract
  have rules := transCmp_on Rule.order rule
  @transCmp_then _ _ _ contracts rules

instance : Std.LawfulEqCmp order where
  compare_self := by simp [order]
  eq_of_compare := by
    intro left right same
    simp only [order, Ordering.then_eq_eq, Std.LawfulEqCmp.compare_eq_iff_eq] at same
    cases left
    cases right
    simp_all

theorem ascending_infer (set : ContractSet) : Ascending order (infer set) := by
  simp only [infer]
  split
  · exact .nil
  · exact ascending_mergeSort (nodup_eraseDups _)

theorem mem_infer {set : ContractSet}
    (enough : (Summaries.ofSet set).2 ≤ VerifierLimits.standard.fuel) {property : Property} :
    property ∈ infer set ↔
      ∃ contract ∈ set.contracts, property.contract = contract.name ∧
        property.rule ∈ contract.suggestedRules (Summaries.ofSet set).1 := by
  simp only [infer, if_neg (Nat.not_lt.mpr enough), List.mem_mergeSort, List.mem_eraseDups,
    List.mem_flatMap, List.mem_map]
  constructor
  · rintro ⟨contract, member, rule, suggested, rfl⟩
    exact ⟨contract, member, rfl, suggested⟩
  · rintro ⟨contract, member, same, suggested⟩
    exact ⟨contract, member, property.rule, suggested, by rw [← same]⟩

end Property

/-! What depends on summaries. -/

namespace Summaries.Agree

variable {summaries others : Summaries} {contract : Contract}
  (agree : Summaries.Agree contract summaries others)
include agree

theorem isOpaque : contract.isOpaque summaries = contract.isOpaque others := by
  funext name
  simp only [Contract.isOpaque, agree _]

theorem isBoundFunction : contract.isBoundFunction summaries = contract.isBoundFunction others := by
  funext name
  simp only [Contract.isBoundFunction, agree.isOpaque]

theorem suggestedRules : contract.suggestedRules summaries = contract.suggestedRules others := by
  have bounds (function : Function) :
      contract.suggestedBounds summaries function = contract.suggestedBounds others function := by
    simp only [Contract.suggestedBounds, agree.isBoundFunction, agree _]
  have owners : contract.suggestedOwners summaries = contract.suggestedOwners others := by
    simp only [Contract.suggestedOwners, agree _]
  simp only [Contract.suggestedRules, bounds, owners]

theorem validate : Property.validate contract summaries = Property.validate contract others := by
  funext rule
  cases rule with
  | boundedBy field bound => cases bound <;> simp only [Property.validate, agree.isBoundFunction]
  | _ => rfl

theorem relevantFunctions :
    Property.relevantFunctions contract summaries = Property.relevantFunctions contract others := by
  funext rule
  have fields : Property.dependencies contract summaries rule =
      Property.dependencies contract others rule := by
    cases rule with
    | boundedBy field bound => cases bound <;> simp only [Property.dependencies, agree _]
    | _ => rfl
  simp only [Property.relevantFunctions, fields, agree _]

variable (limits : VerifierLimits)

theorem callValue (arena : Arena) (state : PathState) :
    Explorer.callValue ⟨contract, summaries, limits⟩ arena state =
      Explorer.callValue ⟨contract, others, limits⟩ arena state := by
  funext name args
  simp only [Explorer.callValue, agree _]

theorem step (arena : Arena) (path : Path) :
    Explorer.step ⟨contract, summaries, limits⟩ arena path = Explorer.step
      ⟨contract, others, limits⟩ arena path := by
  have calls (path : Path) (dest : Option ValueId) (name : String) (args : List ValueId) :
      Explorer.call ⟨contract, summaries, limits⟩ arena path dest name args =
        Explorer.call ⟨contract, others, limits⟩ arena path dest name args := by
    simp only [Explorer.call, agree.isOpaque, agree.callValue limits]
  have instructions (path : Path) (instruction : Instruction) :
      Explorer.instruction ⟨contract, summaries, limits⟩ arena path instruction =
        Explorer.instruction ⟨contract, others, limits⟩ arena path instruction := by
    cases instruction with
    | call dest name args => exact calls path dest name args
    | externalCall dest kind target value => cases kind <;> rfl
    | _ => rfl
  unfold Explorer.step
  split
  · exact instructions _ _
  · rfl

theorem follow (fuel : Nat) (arena : Arena) (pending : List Path) (spawned : Nat)
    (done : List PathEnd) :
    Explorer.follow ⟨contract, summaries, limits⟩ fuel arena pending spawned done =
      Explorer.follow ⟨contract, others, limits⟩ fuel arena pending spawned done := by
  induction fuel generalizing arena pending spawned done with
  | zero => cases pending <;> rfl
  | succ fuel ih =>
    cases pending with
    | nil => rfl
    | cons path rest => simp only [Explorer.follow, agree.step limits, ih]

theorem margin? (arena : Arena) (state : PathState) :
    Explorer.margin? ⟨contract, summaries, limits⟩ arena state =
      Explorer.margin? ⟨contract, others, limits⟩ arena state := by
  funext field bound
  cases bound <;> simp only [Explorer.margin?, agree.callValue limits] <;> rfl

theorem assumeRule (arena : Arena) (state : PathState) :
    Explorer.assumeRule ⟨contract, summaries, limits⟩ arena state =
      Explorer.assumeRule ⟨contract, others, limits⟩ arena state := by
  funext rule
  cases rule <;> simp only [Explorer.assumeRule, agree.margin? limits]

theorem holdsAtEnds (rule : Rule) (arena : Arena) (paths : List PathEnd) :
    Explorer.holdsAtEnds ⟨contract, summaries, limits⟩ rule arena paths =
      Explorer.holdsAtEnds ⟨contract, others, limits⟩ rule arena paths := by
  induction paths generalizing arena with
  | nil => rfl
  | cons path rest ih =>
    have first : Explorer.holdsAtEnd ⟨contract, summaries, limits⟩ arena path rule =
        Explorer.holdsAtEnd ⟨contract, others, limits⟩ arena path rule := by
      cases rule with
      | boundedBy field bound => simp only [Explorer.holdsAtEnd, agree.margin? limits]
      | _ => rfl
    simp only [Explorer.holdsAtEnds, first, ih]

theorem proves (function : Function) (rule : Rule) :
    Explorer.proves ⟨contract, summaries, limits⟩ function rule =
      Explorer.proves ⟨contract, others, limits⟩ function rule := by
  simp only [Explorer.proves, Explorer.explore, Explorer.assumeAtStart, agree.assumeRule limits,
    agree.follow limits, agree.holdsAtEnds limits]

theorem doubt? (function : Function) (rule : Rule) :
    Explorer.doubt? ⟨contract, summaries, limits⟩ function rule =
      Explorer.doubt? ⟨contract, others, limits⟩ function rule := by
  simp only [Explorer.doubt?, agree.proves limits]

theorem examine (rule : Rule) (functions : List Function) (earlier : Option Doubt) :
    Explorer.examine ⟨contract, summaries, limits⟩ rule functions earlier =
      Explorer.examine ⟨contract, others, limits⟩ rule functions earlier := by
  induction functions generalizing earlier with
  | nil => cases earlier <;> rfl
  | cons function rest ih => simp only [Explorer.examine, agree.doubt? limits, ih]

end Summaries.Agree

/-! The properties of one contract. -/

namespace ContractSet

variable {set : ContractSet} {contract : Contract} {limits : VerifierLimits}

theorem infer_alone (distinct : (set.contracts.map Contract.name).Nodup)
    (member : contract ∈ set.contracts)
    (enough : (Summaries.ofSet set).2 ≤ VerifierLimits.standard.fuel) :
    (Property.infer set).filter (fun property => property.contract == contract.name) =
      Property.infer ⟨[contract]⟩ := by
  have agree := agree_alone distinct member
  have less := (summaries_cost_le member).trans enough
  refine ((Property.ascending_infer set).filter _).eq_of_mem_iff (Property.ascending_infer _) ?_
  intro property
  rw [List.mem_filter, Property.mem_infer enough, Property.mem_infer less, beq_iff_eq]
  constructor
  · rintro ⟨⟨other, listed, same, suggested⟩, named⟩
    obtain rfl : other = contract :=
      List.inj_on_of_nodup_map distinct listed member (same.symm.trans named)
    exact ⟨other, List.mem_cons_self, same, agree.suggestedRules ▸ suggested⟩
  · rintro ⟨other, listed, same, suggested⟩
    obtain rfl := List.mem_singleton.mp listed
    exact ⟨⟨other, member, same, agree.suggestedRules ▸ suggested⟩, same⟩

theorem check_alone (distinct : (set.contracts.map Contract.name).Nodup)
    (member : contract ∈ set.contracts) (limits : VerifierLimits) {property : Property}
    (named : property.contract = contract.name) :
    set.check (Summaries.ofSet set).1 limits property =
      (mk [contract]).check (Summaries.ofSet ⟨[contract]⟩).1 limits property := by
  have agree := agree_alone distinct member
  have alone : (mk [contract]).contract? contract.name = some contract := by simp [contract?]
  simp only [check, named, contract?_of_mem distinct member, alone, agree.validate,
    agree.relevantFunctions, agree.examine]

theorem verify_alone (distinct : (set.contracts.map Contract.name).Nodup)
    (member : contract ∈ set.contracts) (enough : (Summaries.ofSet set).2 ≤ limits.fuel)
    {properties : List Property} {results : List Verification}
    (answered : set.verify limits properties = .ok results) :
    (mk [contract]).verify limits
    (properties.filter fun property => property.contract == contract.name) =
      .ok (results.filter fun result => result.property.contract == contract.name) := by
  have less := (summaries_cost_le member).trans enough
  have all := verdicts_of_verify answered enough
  rw [verify_eq_mapM less, mapM_eq_ok_iff]
  clear answered
  induction all with
  | nil => exact .nil
  | @cons property result properties results found _ ih =>
    obtain ⟨verdict, checked, rfl⟩ := found
    rw [List.filter_cons, List.filter_cons]
    by_cases named : property.contract = contract.name
    · simp only [named, beq_self_eq_true, if_true]
      rw [check_alone distinct member limits named] at checked
      exact .cons (by rw [checked]; rfl) ih
    · simpa [named] using ih

end ContractSet

end Covenant
