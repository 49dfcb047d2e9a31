import Covenant.Proofs.Code.Traversals
import Covenant.Proofs.Lowering.Edges
import Covenant.Proofs.Run.Outermost
import Covenant.Proofs.Scan.Summaries

/-!
What it means that a place lies behind a check of the sender. Code that comes to such a place has
either passed a condition that checks the sender, or has been given a result by a function that
always checks.
-/

namespace Covenant

/-! The points behind which the sender is checked. -/

inductive Contract.Checks (contract : Contract) (function : Function)
    (calleeChecks : String → Bool) :
    Checkpoint → Prop
  | condition {block value target} : block ∈ function.blocks →
      block.terminator.node.condition? = some value →
      contract.isSenderCheck (function.origins ⟨block.id, value⟩) = true →
      Contract.checkedBlock? function block.terminator.node = some target →
      Checks contract function calleeChecks ⟨target, none⟩
  | call {block index dest callee args location} : block ∈ function.blocks →
      block.instructions[index]? = some ⟨.call dest callee args, location⟩ →
      calleeChecks callee = true →
      Checks contract function calleeChecks ⟨block.id, some index⟩

namespace Contract

variable {contract : Contract} {function : Function} {calleeChecks others : String → Bool}
  {point : Checkpoint}

theorem mem_checkpoints :
    point ∈ contract.checkpoints function calleeChecks ↔
      contract.Checks function calleeChecks point := by
  unfold checkpoints Function.conditions
  simp only [List.mem_append, List.mem_filterMap, List.mem_flatMap, List.mem_zipIdx_iff_getElem?,
    Prod.exists]
  constructor
  · rintro (⟨site, terminator, ⟨block, member, decides⟩, checked⟩ |
      ⟨block, member, ⟨node, location⟩, index, there, calls⟩)
    · obtain ⟨value, condition, same⟩ := Option.map_eq_some_iff.mp decides
      obtain ⟨rfl, rfl⟩ := Prod.mk.inj same
      split at checked
      · rename_i senders
        obtain ⟨target, behind, rfl⟩ := Option.map_eq_some_iff.mp checked
        exact .condition member condition senders behind
      · simp at checked
    · cases node with
      | call dest callee args =>
        simp only at calls
        split at calls
        · rename_i checks
          obtain rfl := Option.some.inj calls
          exact .call member there checks
        · simp at calls
      | _ => simp at calls
  · rintro (⟨member, condition, senders, behind⟩ | ⟨member, there, checks⟩)
    · exact .inl ⟨_, _, ⟨_, member, by rw [condition]; rfl⟩, by simp [senders, behind]⟩
    · exact .inr ⟨_, member, _, _, there, by simp [checks]⟩

theorem Checks.mono (checks : contract.Checks function calleeChecks point)
    (wider : ∀ name, calleeChecks name = true → others name = true) :
    contract.Checks function others point := by
  cases checks with
  | condition member condition senders behind => exact .condition member condition senders behind
  | call member there checks => exact .call member there (wider _ checks)

theorem alwaysChecksSender_mono (always : contract.alwaysChecksSender function calleeChecks = true)
    (wider : ∀ name, calleeChecks name = true → others name = true) :
    contract.alwaysChecksSender function others = true := by
  simp only [alwaysChecksSender, List.all_eq_true, Bool.or_eq_true, List.any_eq_true] at always ⊢
  intro block reached
  refine (always block reached).imp_right fun ⟨point, listed, covers⟩ => ⟨point, ?_, covers⟩
  exact mem_checkpoints.mpr ((mem_checkpoints.mp listed).mono wider)

end Contract

/-! The functions that always check the sender. -/

namespace Summary

variable {contract : Contract} {known : List String}

def Justified (contract : Contract) (known : List String) : Prop :=
  ∀ name ∈ known, ∃ function ∈ contract.functions, function.name = name ∧
    contract.alwaysChecksSender function known.contains = true

theorem Justified.snoc (justified : Justified contract known) {function : Function}
    (member : function ∈ contract.functions)
    (always : contract.alwaysChecksSender function known.contains = true) :
    Justified contract (known ++ [function.name]) := by
  have wider : ∀ name, known.contains name = true →
      (known ++ [function.name]).contains name = true := by
    intro name listed
    rw [List.contains_iff_mem] at listed ⊢
    exact List.mem_append_left _ listed
  intro name listed
  rcases List.mem_append.mp listed with before | last
  · obtain ⟨other, there, named, holds⟩ := justified name before
    exact ⟨other, there, named, Contract.alwaysChecksSender_mono holds wider⟩
  · rw [List.mem_singleton.mp last]
    exact ⟨function, member, rfl, Contract.alwaysChecksSender_mono always wider⟩

theorem Justified.checkRound (justified : Justified contract known) :
    Justified contract (checkRound contract known) := by
  have general (functions : List Function)
      (inside : ∀ function ∈ functions, function ∈ contract.functions) :
      Justified contract (functions.foldl (fun checked function =>
        if checked.contains function.name then checked
        else if contract.alwaysChecksSender function checked.contains then checked ++
          [function.name]
        else checked) known) := by
    induction functions generalizing known with
    | nil => exact justified
    | cons function rest ih =>
      rw [List.foldl_cons]
      obtain ⟨member, further⟩ := List.forall_mem_cons.mp inside
      refine ih ?_ further
      split
      · exact justified
      · split
        · rename_i always
          exact justified.snoc member always
        · exact justified
  exact general contract.functions fun _ member => member

theorem Justified.settleChecks (justified : Justified contract known) (fuel : Nat) :
    Justified contract (settleChecks contract fuel known).1 := by
  induction fuel generalizing known with
  | zero => exact justified
  | succ fuel ih =>
    simp only [Summary.settleChecks]
    split
    · exact justified
    · exact ih justified.checkRound

def checked (contract : Contract) : List String :=
  (settleChecks contract (contract.functions.length + 1) []).1

theorem justified_checked (contract : Contract) : Justified contract (checked contract) :=
  Justified.settleChecks (by simp [Justified]) _

theorem checksSender_ofContract {summary : Summary} (member : summary ∈ (ofContract contract).1) :
    summary.checksSender = (checked contract).contains summary.name := by
  simp only [ofContract, List.mem_map] at member
  obtain ⟨_, _, rfl⟩ := member
  rfl

end Summary

/-- A function that is said to check the sender checks it, if the functions do that are said to. -/
theorem ContractSet.alwaysChecks {text : String} {contract : Contract}
    (member : contract ∈ (ofText text).contracts) {function : Function}
    (listed : function ∈ contract.functions)
    (checks : (Summaries.ofSet (ofText text)).1.checksSender contract.name function.name = true) :
    contract.alwaysChecksSender function
      ((Summaries.ofSet (ofText text)).1.checksSender contract.name) = true := by
  have found := find?_eq_some_of_nodup (ofText_names text) member
  have said (name : String) (summary : Summary)
      (got : (Summaries.ofSet (ofText text)).1.get? contract.name name = some summary) :
      summary.checksSender = (Summary.checked contract).contains name := by
    rw [Summaries.get?_ofSet found] at got
    have named : summary.name = name := by simpa using List.find?_some got
    rw [Summary.checksSender_ofContract (List.mem_of_find?_eq_some got), named]
  have listedChecks : function.name ∈ Summary.checked contract := by
    unfold Summaries.checksSender at checks
    split at checks
    · rename_i summary got
      rw [said _ _ got] at checks
      simpa using checks
    · simp at checks
  obtain ⟨other, there, named, always⟩ := Summary.justified_checked contract _ listedChecks
  have distinct := (wellFormed_of_ofText member).functionNames
  obtain rfl : other = function := by
    have first := find?_eq_some_of_nodup distinct there
    rw [named, find?_eq_some_of_nodup distinct listed] at first
    exact (Option.some.inj first).symm
  refine Contract.alwaysChecksSender_mono always fun name known => ?_
  obtain ⟨callee, inside, rfl, _⟩ := Summary.justified_checked contract name (by simpa using known)
  obtain ⟨summary, got⟩ := (summarized member).found callee inside
  simp only [Summaries.checksSender, got, said _ _ got, known]

end Covenant
