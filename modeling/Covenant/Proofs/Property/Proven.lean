import Covenant.Proofs.Failure
import Covenant.Proofs.Lowering.Names
import Covenant.Property.Verifier
import Covenant.Symbolic.Explorer

/-!
The search for paths under greater limits. No limit changes what a step does: it only stops the
search. So a search that no limit has stopped finds the same paths, with the same symbolic values,
under all greater limits.
-/

namespace Covenant

section

/-- Limits that leave at least as much room as others, and count the rounds of a loop without an
overflow. The number of inputs to try is of no account. -/
structure VerifierLimits.Within (limits greater : VerifierLimits) : Prop where
  paths : limits.maxPaths ≤ greater.maxPaths
  blocks : limits.maxBlocksPerPath ≤ greater.maxBlocksPerPath
  rounds : limits.loopUnroll ≤ greater.loopUnroll
  depth : limits.maxCallDepth ≤ greater.maxCallDepth
  fuel : limits.fuel ≤ greater.fuel
  countable : greater.loopUnroll < VerifierLimits.largest

variable {limits greater : VerifierLimits}

namespace Path

theorem enter_of_within (within : limits.Within greater) {path entered : Path} {block : BlockId}
    (done : path.enter limits block = .ok entered) : path.enter greater block = .ok entered := by
  obtain ⟨_, blocks, rounds, _, _, countable⟩ := within
  simp only [enter] at done ⊢
  split at done
  · simp at done
  · rename_i fewBlocks
    split at done
    · simp at done
    · split at done
      · simp at done
      · rename_i fewRounds
        rw [if_neg (by omega), if_neg (by omega), if_neg (by omega)]
        exact done

theorem goto_of_within (within : limits.Within greater) {path next : Path} {block : BlockId}
    (done : path.goto limits block = .ok next) : path.goto greater block = .ok next := by
  simp only [goto] at done ⊢
  obtain ⟨entered, kept, made⟩ := chain_eq_ok.mp done
  rw [enter_of_within within kept]
  exact made

end Path

namespace Explorer

variable {contract : Contract} {summaries : Summaries}

theorem branch_of_within (within : limits.Within greater) {arena : Arena} {path : Path}
    {condition : SymbolId} {targets : List (Bool × BlockId)} {continuations : List Continuation}
    (done : branch limits arena path condition targets = .ok continuations) :
    branch greater arena path condition targets = .ok continuations := by
  induction targets generalizing continuations with
  | nil => exact done
  | cons target rest ih =>
    simp only [branch] at done ⊢
    split at done
    · exact ih done
    · obtain ⟨⟨state, mayHold⟩, assumed, done⟩ := chain_eq_ok.mp done
      refine chain_eq_ok.mpr ⟨⟨state, mayHold⟩, assumed, ?_⟩
      cases mayHold with
      | false => exact ih done
      | true =>
        obtain ⟨next, gone, others⟩ := chain_eq_ok.mp done
        obtain ⟨later, made, same⟩ := chain_eq_ok.mp others
        exact chain_eq_ok.mpr
          ⟨next, Path.goto_of_within within gone, chain_eq_ok.mpr ⟨later, ih made, same⟩⟩

theorem call_of_within (within : limits.Within greater) {arena : Arena} {path : Path}
    {dest : Option ValueId} {name : String} {args : List ValueId}
    {result : List Continuation × Arena}
    (done : call ⟨contract, summaries, limits⟩ arena path dest name args = .ok result) :
    call ⟨contract, summaries, greater⟩ arena path dest name args = .ok result := by
  have depth := within.depth
  simp only [call] at done ⊢
  split at done
  · simp at done
  · rename_i callee found
    obtain ⟨ids, listed, done⟩ := chain_eq_ok.mp done
    refine chain_eq_ok.mpr ⟨ids, listed, ?_⟩
    split at done
    · rename_i pure
      rw [if_pos pure]
      exact done
    · rename_i impure
      split at done
      · simp [throw, throwThe, MonadExceptOf.throw] at done
      · obtain ⟨frame, framed, done⟩ := chain_eq_ok.mp done
        obtain ⟨entered, kept, same⟩ := chain_eq_ok.mp done
        rw [if_neg impure, if_neg (by omega)]
        exact chain_eq_ok.mpr
          ⟨frame, framed, chain_eq_ok.mpr ⟨entered, Path.enter_of_within within kept, same⟩⟩

theorem instruction_of_within (within : limits.Within greater) {arena : Arena} {path : Path}
    {instruction : Instruction} {result : List Continuation × Arena}
    (done : Explorer.instruction ⟨contract, summaries, limits⟩ arena path instruction =
      .ok result) :
    Explorer.instruction ⟨contract, summaries, greater⟩ arena path instruction = .ok result := by
  cases instruction with
  | call dest name args => exact call_of_within within done
  | externalCall dest kind target value => cases kind <;> exact done
  | _ => exact done

theorem terminator_of_within (within : limits.Within greater) {arena : Arena} {path : Path}
    {terminator : Terminator} {continuations : List Continuation}
    (done : Explorer.terminator ⟨contract, summaries, limits⟩ arena path terminator =
      .ok continuations) :
    Explorer.terminator ⟨contract, summaries, greater⟩ arena path terminator =
      .ok continuations := by
  cases terminator with
  | jump target =>
    obtain ⟨next, gone, same⟩ := chain_eq_ok.mp done
    exact chain_eq_ok.mpr ⟨next, Path.goto_of_within within gone, same⟩
  | branch condition thenBlock elseBlock =>
    obtain ⟨id, held, forked⟩ := chain_eq_ok.mp done
    exact chain_eq_ok.mpr ⟨id, held, branch_of_within within forked⟩
  | guard condition kind message next =>
    obtain ⟨id, held, forked⟩ := chain_eq_ok.mp done
    exact chain_eq_ok.mpr ⟨id, held, branch_of_within within forked⟩
  | ret value => exact done
  | revert message => exact done

theorem step_of_within (within : limits.Within greater) {arena : Arena} {path : Path}
    {result : List Continuation × Arena}
    (done : step ⟨contract, summaries, limits⟩ arena path = .ok result) :
    step ⟨contract, summaries, greater⟩ arena path = .ok result := by
  unfold step at done ⊢
  split at done
  · exact instruction_of_within within done
  · obtain ⟨continuations, ended, same⟩ := chain_eq_ok.mp done
    exact chain_eq_ok.mpr ⟨continuations, terminator_of_within within ended, same⟩

/-- A search that nothing has stopped is the same under greater limits: the same paths in the same
order, and the same symbolic values. -/
theorem follow_of_within (within : limits.Within greater) {fuel more : Nat} (enough : fuel ≤ more)
    {arena : Arena} {pending : List Path} {spawned : Nat} {done : List PathEnd}
    (complete : (follow ⟨contract, summaries, limits⟩ fuel arena pending spawned done).halt =
      none) :
    follow ⟨contract, summaries, greater⟩ more arena pending spawned done =
      follow ⟨contract, summaries, limits⟩ fuel arena pending spawned done := by
  have paths := within.paths
  induction fuel generalizing more arena pending spawned done with
  | zero =>
    cases pending with
    | nil => simp only [follow]
    | cons path rest => simp [follow] at complete
  | succ fuel ih =>
    obtain ⟨more, rfl⟩ : ∃ less, more = less + 1 := ⟨more - 1, by omega⟩
    cases pending with
    | nil => simp only [follow]
    | cons path rest =>
      simp only [follow] at complete ⊢
      cases stepped : step ⟨contract, summaries, limits⟩ arena path with
      | error halt => simp [stepped] at complete
      | ok result =>
        obtain ⟨continuations, next⟩ := result
        rw [step_of_within within stepped]
        simp only [stepped] at complete ⊢
        split at complete
        · simp at complete
        · rename_i few
          rw [if_neg (by omega), if_neg few]
          exact ih (by omega) complete

theorem explore_of_within (within : limits.Within greater) {arena : Arena} {start : Path}
    (complete : (explore ⟨contract, summaries, limits⟩ arena start).halt = none) :
    explore ⟨contract, summaries, greater⟩ arena start =
      explore ⟨contract, summaries, limits⟩ arena start :=
  follow_of_within within within.fuel complete

end Explorer

end

/-!
What is verified under some limits stays verified under greater ones.
-/

variable {limits greater : VerifierLimits} {contract : Contract} {summaries : Summaries}

namespace Explorer

theorem assumeRule_eq_of_limits (limits greater : VerifierLimits) (arena : Arena)
    (state : PathState) (rule : Rule) :
    assumeRule ⟨contract, summaries, greater⟩ arena state rule =
      assumeRule ⟨contract, summaries, limits⟩ arena state rule := by
  cases rule <;> rfl

theorem holdsAtEnds_eq_of_limits (limits greater : VerifierLimits) (rule : Rule) (arena : Arena)
    (paths : List PathEnd) :
    holdsAtEnds ⟨contract, summaries, greater⟩ rule arena paths =
      holdsAtEnds ⟨contract, summaries, limits⟩ rule arena paths := by
  induction paths generalizing arena with
  | nil => rfl
  | cons path rest ih =>
    have first : holdsAtEnd ⟨contract, summaries, greater⟩ arena path rule =
        holdsAtEnd ⟨contract, summaries, limits⟩ arena path rule := by
      cases rule <;> rfl
    simp only [holdsAtEnds, first, ih]

theorem proves_of_within (within : limits.Within greater) {function : Function} {rule : Rule}
    (proven : proves ⟨contract, summaries, limits⟩ function rule = .ok true) :
    proves ⟨contract, summaries, greater⟩ function rule = .ok true := by
  unfold proves at proven ⊢
  split at proven
  · simp at proven
  · rename_i path arena started
    obtain ⟨⟨state, arena⟩, assumed, proven⟩ := chain_eq_ok.mp proven
    refine chain_eq_ok.mpr ⟨⟨state, arena⟩, ?_, ?_⟩
    · rw [← assumed]
      unfold assumeAtStart
      rw [assumeRule_eq_of_limits limits greater]
    · dsimp only at proven ⊢
      split at proven
      · simp [throw, throwThe, MonadExceptOf.throw] at proven
      · rename_i complete
        -- nothing has stopped the search, so the greater limits find the same paths
        rw [explore_of_within within complete, complete]
        simpa only [holdsAtEnds_eq_of_limits limits greater] using proven

theorem doubt?_eq_none {explorer : Explorer} {function : Function} {rule : Rule} :
    explorer.doubt? function rule = .ok none ↔ explorer.proves function rule = .ok true := by
  unfold doubt?
  split
  · split <;> simp_all
  · simp_all
  · simp_all

theorem doubt?_of_within (within : limits.Within greater) {function : Function} {rule : Rule}
    (proven : doubt? ⟨contract, summaries, limits⟩ function rule = .ok none) :
    doubt? ⟨contract, summaries, greater⟩ function rule = .ok none :=
  doubt?_eq_none.mpr (proves_of_within within (doubt?_eq_none.mp proven))

theorem examine_eq_verified {explorer : Explorer} {rule : Rule} {functions : List Function}
    {earlier : Option Doubt} :
    explorer.examine rule functions earlier = .ok .verified ↔
      earlier = none ∧ ∀ function ∈ functions, explorer.doubt? function rule = .ok none := by
  induction functions generalizing earlier with
  | nil => cases earlier <;> simp [examine]
  | cons function rest ih =>
    simp only [examine, List.forall_mem_cons]
    cases found : explorer.doubt? function rule with
    | error halt => simp
    | ok doubt =>
      cases doubt with
      | none => simp [ih]
      | some doubt =>
        simp only [Except.ok.injEq, reduceCtorEq, false_and, and_false, iff_false]
        intro verified
        split at verified
        · simp at verified
        · have doubtless := (ih.mp verified).1
          cases earlier <;> simp at doubtless

end Explorer

namespace ContractSet

variable {set : ContractSet} {properties : List Property} {results : List Verification}
  {property : Property} {verdict : Verdict} {place : Nat}

def Faults (set : ContractSet) (limits : VerifierLimits) (property : Property) : Prop :=
  (Summaries.ofSet set).2 ≤ limits.fuel ∧
    (set.check (Summaries.ofSet set).1 limits property).isOk = false

instance : Decidable (set.Faults limits property) := inferInstanceAs (Decidable (_ ∧ _))

theorem verify_eq_mapM (enough : (Summaries.ofSet set).2 ≤ limits.fuel) :
    set.verify limits properties = properties.mapM fun property =>
      (set.check (Summaries.ofSet set).1 limits property).map (Verification.mk property) := by
  simp only [verify, if_neg (Nat.not_lt.mpr enough)]
  rfl

theorem exists_verify_eq_ok (settled : ∀ property ∈ properties, ¬ set.Faults limits property) :
    ∃ results, set.verify limits properties = .ok results := by
  by_cases enough : (Summaries.ofSet set).2 ≤ limits.fuel
  · rw [verify_eq_mapM enough]
    refine exists_mapM_eq_ok fun property listed => ?_
    cases checked : set.check (Summaries.ofSet set).1 limits property with
    | ok verdict => exact ⟨_, rfl⟩
    | error halt => exact absurd ⟨enough, by rw [checked]; rfl⟩ (settled property listed)
  · exact ⟨_, by simp only [verify, if_pos (Nat.lt_of_not_le enough)]; rfl⟩

theorem verdicts_of_verify (answered : set.verify limits properties = .ok results)
    (enough : (Summaries.ofSet set).2 ≤ limits.fuel) :
    List.Forall₂ (fun property result => ∃ verdict,
      set.check (Summaries.ofSet set).1 limits property = .ok verdict ∧
        result = ⟨property, verdict⟩)
      properties results := by
  rw [verify_eq_mapM enough] at answered
  refine (mapM_eq_ok_iff.mp answered).imp fun property result found => ?_
  cases checked : set.check (Summaries.ofSet set).1 limits property with
  | error halt => simp [checked, Except.map] at found
  | ok verdict =>
    rw [checked] at found
    exact ⟨verdict, rfl, (Except.ok.inj found).symm⟩

theorem check_of_verify (answered : set.verify limits properties = .ok results)
    (there : results[place]? = some ⟨property, verdict⟩)
    (known : ∀ doubt, verdict ≠ .unknown doubt) :
    (Summaries.ofSet set).2 ≤ limits.fuel ∧ properties[place]? = some property ∧
      set.check (Summaries.ofSet set).1 limits property = .ok verdict := by
  by_cases enough : (Summaries.ofSet set).2 ≤ limits.fuel
  · have all := verdicts_of_verify answered enough
    obtain ⟨short, found⟩ := List.getElem?_eq_some_iff.mp there
    have inside : place < properties.length := all.length_eq.symm ▸ short
    obtain ⟨other, checked, same⟩ := all.get inside short
    obtain ⟨rfl, rfl⟩ := Verification.mk.inj (found.symm.trans same)
    exact ⟨enough, List.getElem?_eq_getElem inside, checked⟩
  · simp only [verify, if_pos (Nat.lt_of_not_le enough), Except.ok.injEq] at answered
    rw [← answered, List.getElem?_map, Option.map_eq_some_iff] at there
    obtain ⟨_, _, same⟩ := there
    exact absurd (Verification.mk.inj same).2.symm (known _)

theorem verify_of_check (answered : set.verify limits properties = .ok results)
    (enough : (Summaries.ofSet set).2 ≤ limits.fuel) (listed : properties[place]? = some property)
    (checked : set.check (Summaries.ofSet set).1 limits property = .ok verdict) :
    results[place]? = some ⟨property, verdict⟩ := by
  have all := verdicts_of_verify answered enough
  obtain ⟨inside, rfl⟩ := List.getElem?_eq_some_iff.mp listed
  have short : place < results.length := all.length_eq ▸ inside
  obtain ⟨other, again, same⟩ := all.get inside short
  obtain rfl := Except.ok.inj (checked.symm.trans again)
  rw [List.getElem?_eq_getElem short]
  exact congrArg some same

theorem check_of_within (within : limits.Within greater)
    (verified : set.check summaries limits property = .ok .verified) :
    set.check summaries greater property = .ok .verified := by
  unfold check at verified ⊢
  split at verified
  · simp at verified
  · rename_i contract found
    split at verified
    · simp at verified
    · rename_i valid
      obtain ⟨_, proven⟩ := Explorer.examine_eq_verified.mp verified
      refine Explorer.examine_eq_verified.mpr ⟨rfl, ?_⟩
      intro function relevant
      exact Explorer.doubt?_of_within within (proven function relevant)

/-- Greater limits lose no proof. There is an answer if they lead to no fault in the examination of
a property that is not verified yet, and each property that is verified stays verified, unless the
greater limits let loops run for as many rounds as can be counted. -/
theorem verified_of_greater_limits (set : ContractSet) (properties : List Property)
    (within : limits.Within greater) (answered : set.verify limits properties = .ok results)
    (settled : ∀ property ∈ properties, ⟨property, .verified⟩ ∉ results →
      ¬ set.Faults greater property) :
    ∃ later, set.verify greater properties = .ok later ∧ ∀ (place : Nat) (property : Property),
      results[place]? = some ⟨property, .verified⟩ →
        later[place]? = some ⟨property, .verified⟩ := by
  have fuel := within.fuel
  have exists_later : ∃ later, set.verify greater properties = .ok later := by
    refine exists_verify_eq_ok fun property listed => ?_
    by_cases verified : ⟨property, .verified⟩ ∈ results
    · obtain ⟨place, there⟩ := List.mem_iff_getElem?.mp verified
      obtain ⟨_, _, checked⟩ := check_of_verify answered there (by simp)
      rintro ⟨_, faulty⟩
      rw [check_of_within within checked] at faulty
      exact Bool.noConfusion faulty
    · exact settled property listed verified
  obtain ⟨later, also⟩ := exists_later
  refine ⟨later, also, fun place property there => ?_⟩
  obtain ⟨enough, listed, checked⟩ := check_of_verify answered there (by simp)
  exact verify_of_check also (enough.trans fuel) listed (check_of_within within checked)

/-- A field that is set by a helper is verified with just enough room for the call, and with all the
room that there can be, beside a field for which there is room only then. -/
theorem verified_of_helper_call :
    let set := ofText ("contract A \x7b x: u64 y: u64 private put(n: u64) \x7b self.x = n \x7d " ++
      "go() \x7b self.put(1) \x7d private store(n: u64) \x7b self.y = n \x7d " ++
      "twice() \x7b self.store(1) self.store(2) \x7d \x7d")
    let most := VerifierLimits.largest
    let limits : VerifierLimits :=
      { maxPaths := 1, maxBlocksPerPath := 2, loopUnroll := 0, maxCallDepth := 2, fuel := 30
        witnessAttempts := 0 }
    let greater : VerifierLimits :=
      { maxPaths := most, maxBlocksPerPath := most, loopUnroll := most - 1, maxCallDepth := most
        fuel := most, witnessAttempts := 0 }
    let first : Property := ⟨"A", .noUnderflow "x"⟩
    let second : Property := ⟨"A", .noUnderflow "y"⟩
    let doubt : Doubt := .stoppedEarly "twice" (.tooManyBlocks 2)
    limits.Within greater ∧
      set.verify limits [first, second] = .ok [⟨first, .verified⟩, ⟨second, .unknown doubt⟩] ∧
      ∃ later, set.verify greater [first, second] = .ok later ∧
        later[0]? = some ⟨first, .verified⟩ := by
  intro set most limits greater first second doubt
  have within : limits.Within greater := by constructor <;> decide
  have answered : set.verify limits [first, second] =
      .ok [⟨first, .verified⟩, ⟨second, .unknown doubt⟩] := by
    decide +kernel
  have also : ¬ set.Faults greater second := by decide +kernel
  have settled : ∀ property ∈ [first, second],
      (⟨property, .verified⟩ : Verification) ∉ [⟨first, .verified⟩, ⟨second, .unknown doubt⟩] →
        ¬ set.Faults greater property := by
    intro property listed doubted
    rcases List.mem_pair.mp listed with rfl | rfl
    · exact absurd List.mem_cons_self doubted
    · exact also
  obtain ⟨later, answers, keeps⟩ := verified_of_greater_limits set _ within answered settled
  exact ⟨within, answered, later, answers, keeps 0 first rfl⟩

end ContractSet

end Covenant
