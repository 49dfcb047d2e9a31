import Covenant.Proofs.Bytecode.Reductions

/-!
What optimizing a buffer keeps. The new buffer holds a program that does the same on each input on
which the old one's run completes, whether or not the input was probed.
-/

namespace Covenant

namespace Bytecode

/-! What reductions say. -/

theorem DeadCode.notes_ne_nil {reasons : List Reason} (given : reasons ≠ []) :
    notes reasons ≠ [] := by
  obtain ⟨reason, member⟩ := List.exists_mem_of_ne_nil reasons given
  have counted : 0 < reasons.count reason := List.count_pos_iff.mpr member
  have listed : reason ∈ Reason.all := by cases reason <;> simp [Reason.all]
  intro silent
  have unsaid := List.filterMap_eq_nil_iff.mp silent reason listed
  simp [counted] at unsaid

theorem Packing.notes_ne_nil {program : Program} {reduction : Reduction}
    (reduced : reduce? program = some reduction) :
    reduction.notes ≠ [] := by
  unfold reduce? at reduced
  dsimp only at reduced
  split at reduced
  · simp at reduced
  · rename_i filled
    obtain rfl := Option.some.inj reduced
    have counted := List.length_pos_iff.mpr fun empty => filled (List.isEmpty_iff.mpr empty)
    -- What is changed is a push or an access to a slot.
    intro silent
    simp only [List.append_eq_nil_iff] at silent
    obtain ⟨slots, pushes⟩ := silent
    split at slots <;> split at pushes <;> first | omega | simp_all

theorem Transformation.notes_ne_nil {program : Program} {transformation : Transformation}
    {reduction : Reduction} (reduced : transformation.reduce? program = some reduction) :
    reduction.notes ≠ [] := by
  cases transformation with
  | deadCode =>
    change DeadCode.reduce? program = _ at reduced
    unfold DeadCode.reduce? at reduced
    dsimp only at reduced
    split at reduced
    · simp at reduced
    · rename_i given
      obtain rfl := Option.some.inj reduced
      exact DeadCode.notes_ne_nil fun none => given (List.isEmpty_iff.mpr none)
  | folding =>
    change Folding.reduce? program = _ at reduced
    unfold Folding.reduce? at reduced
    dsimp only at reduced
    split at reduced
    · simp at reduced
    · rename_i said
      obtain rfl := Option.some.inj reduced
      exact fun none => said (List.isEmpty_iff.mpr none)
  | packing => exact Packing.notes_ne_nil reduced
  | repeatedLoads =>
    change RepeatedLoads.reduce? program = _ at reduced
    unfold RepeatedLoads.reduce? at reduced
    dsimp only at reduced
    split at reduced
    · simp at reduced
    · rename_i said
      obtain rfl := Option.some.inj reduced
      exact fun none => said (List.isEmpty_iff.mpr none)

namespace Optimizer

variable {inputs : List MachineInput} {fuel : Nat} {program candidate final : Program}
  {notes : List String}

theorem accepts_iff : accepts inputs fuel program candidate = true ↔
    candidate.JumpsLand ∧ candidate.encodedLength ≤ program.encodedLength ∧ candidate ≠ program ∧
      ∀ input ∈ inputs, program.observe fuel input = candidate.observe fuel input := by
  simp [accepts, Probe.firstDifference?, Option.isNone_iff_eq_none,
    Program.strayJump?_eq_none, and_assoc]

theorem sound_of_accepts {transformation : Transformation} {reduction : Reduction}
    (regular : program.Regular) (reduced : transformation.reduce? program = some reduction)
    (accepted : accepts inputs fuel program reduction.program = true) :
    reduction.program.Regular ∧ reduction.program.Follows program := by
  have becomes := transformation.becomes regular.lands reduced
  exact ⟨⟨becomes.fits regular.fits, (accepts_iff.mp accepted).1⟩, becomes.follows regular.lands⟩

theorem sound_of_round (transformations : List Transformation) (regular : program.Regular) :
    (round inputs fuel transformations program).1.Regular ∧
      (round inputs fuel transformations program).1.Follows program := by
  induction transformations generalizing program with
  | nil => exact ⟨regular, .refl _⟩
  | cons transformation rest ih =>
    rw [round]
    split
    · exact ih regular
    · rename_i reduction reduced
      split
      · rename_i accepted
        obtain ⟨also, follows⟩ := sound_of_accepts regular reduced accepted
        obtain ⟨last, after⟩ := ih also
        exact ⟨last, after.trans follows⟩
      · exact ih regular

theorem sound_of_rounds (count : Nat) (regular : program.Regular) :
    (rounds inputs fuel count program).1.Regular ∧
      (rounds inputs fuel count program).1.Follows program := by
  induction count generalizing program with
  | zero => exact ⟨regular, .refl _⟩
  | succ count ih =>
    rw [rounds]
    dsimp only
    split
    · exact ⟨regular, .refl _⟩
    · obtain ⟨also, follows⟩ := sound_of_round Transformation.all regular
      obtain ⟨last, after⟩ := ih also
      exact ⟨last, after.trans follows⟩

def outcome (limits : OptimizerLimits) (program : Program) : Program × List String :=
  rounds (Probe.inputs program) limits.probeFuel limits.maxRounds program

theorem optimize_cases {bytes : List UInt8} (limits : OptimizerLimits)
    (decoded : Program.decode bytes = .ok program) :
    optimize limits bytes = .unchanged bytes ∨
      ∃ optimized, (outcome limits program).1.encode = .ok optimized ∧
        optimize limits bytes = ⟨bytes.length, (outcome limits program).2, optimized⟩ := by
  unfold optimize
  rw [decoded]
  dsimp only
  split
  · exact .inl rfl
  · split
    · rename_i optimized encoded
      exact .inr ⟨optimized, encoded, rfl⟩
    · exact .inl rfl

theorem follows_of_optimize {bytes : List UInt8} (limits : OptimizerLimits)
    (decoded : Program.decode bytes = .ok program) :
    ∃ optimized, Program.decode (optimize limits bytes).bytes = .ok optimized ∧
      optimized.Follows program := by
  obtain ⟨regular, follows⟩ : (outcome limits program).1.Regular ∧
    (outcome limits program).1.Follows program :=
    sound_of_rounds _ (Program.regular_of_decode decoded)
  rcases optimize_cases limits decoded with same | ⟨optimized, encoded, result⟩
  · rw [same]
    exact ⟨program, decoded, .refl _⟩
  · rw [result]
    exact ⟨_, Program.decode_of_encode regular.fits encoded, follows⟩

/-- Optimizing keeps what each run that completes is observed to do, probed or not. -/
theorem observe_optimize {limits : OptimizerLimits} {bytes : List UInt8} {input : MachineInput}
    (decoded : Program.decode bytes = .ok program) (completes : program.Completes fuel input) :
    ∃ optimized, Program.decode (optimize limits bytes).bytes = .ok optimized ∧
      optimized.observe fuel input = program.observe fuel input := by
  obtain ⟨optimized, held, follows⟩ := follows_of_optimize limits decoded
  exact ⟨optimized, held, (follows fuel input completes).2⟩

/-- The sum of an argument and of a folded constant is stored and then loaded again. -/
theorem observe_optimize_of_sum :
    let sum : Program :=
      ⟨[.arg 0, .push 1 .one, .push 2 .one, .binary .add, .binary .add, .store 0 false,
        .load 0 false, .ret]⟩
    let input : MachineInput := { MachineInput.zero with args := [7] }
    ∃ bytes, sum.encode = .ok bytes ∧ ∃ optimized,
      Program.decode (optimize .standard bytes).bytes = .ok optimized ∧
        optimized.observe 100 input = sum.observe 100 input := by
  refine ⟨_, rfl, observe_optimize (by decide +kernel) (by decide +kernel)⟩

/-- Whether a round changes nothing before the given number of rounds is over. -/
def settles (inputs : List MachineInput) (fuel : Nat) : Nat → Program → Bool
  | 0, _ => false
  | count + 1, program =>
    let (next, notes) := round inputs fuel Transformation.all program
    notes.isEmpty || settles inputs fuel count next

theorem rejected_again {others : List MachineInput} (follows : candidate.Follows program)
    (rejected : accepts inputs fuel program candidate = false)
    (probed : ∀ input ∈ inputs, program.Completes fuel input ∨ input ∈ others) :
    accepts others fuel program candidate = false := by
  rw [Bool.eq_false_iff] at rejected ⊢
  intro accepted
  obtain ⟨lands, small, changed, same⟩ := accepts_iff.mp accepted
  refine rejected (accepts_iff.mpr ⟨lands, small, changed, ?_⟩)
  intro input member
  rcases probed input member with completes | listed
  · exact (follows fuel input completes).2.symm
  · exact same input listed

theorem round_silent_iff {transformations : List Transformation} :
    (round inputs fuel transformations program).2 = [] ↔
      ∀ transformation ∈ transformations, ∀ reduction, transformation.reduce? program =
        some reduction →
        accepts inputs fuel program reduction.program = false := by
  induction transformations with
  | nil => simp [round]
  | cons transformation rest ih =>
    rw [List.forall_mem_cons, ← ih, round]
    cases reduced : transformation.reduce? program with
    | none => simp
    | some reduction =>
      cases accepted : accepts inputs fuel program reduction.program with
      | false => simp [accepted]
      | true =>
        have said := transformation.notes_ne_nil reduced
        simp [accepted, said]

theorem rounds_of_silent (silent : (round inputs fuel Transformation.all program).2 = [])
    (count : Nat) :
    rounds inputs fuel count program = (program, []) := by
  cases count with
  | zero => rfl
  | succ count => simp [rounds, silent]

theorem silent_of_settles {count : Nat} (settled : settles inputs fuel count program = true) :
    (round inputs fuel Transformation.all (rounds inputs fuel count program).1).2 = [] := by
  induction count generalizing program with
  | zero => simp [settles] at settled
  | succ count ih =>
    rw [settles] at settled
    rw [rounds]
    dsimp only at settled ⊢
    split
    · rename_i silent
      exact List.isEmpty_iff.mp silent
    · rename_i said
      exact ih (by simpa [said] using settled)

/-- Optimizing what optimizing has settled changes nothing, if each probe on which the program does
not complete is made again. -/
theorem optimize_again {limits : OptimizerLimits} {bytes : List UInt8}
    (decoded : Program.decode bytes = .ok program)
    (settled : settles (Probe.inputs program) limits.probeFuel limits.maxRounds program = true)
    (probed : ∀ input ∈ Probe.inputs program, program.Completes limits.probeFuel input ∨
      input ∈ Probe.inputs (outcome limits program).1) :
    optimize limits (optimize limits bytes).bytes = .unchanged (optimize limits bytes).bytes := by
  rcases optimize_cases limits decoded with same | ⟨optimized, encoded, result⟩
  · rw [same]
    exact same
  · rw [result]
    obtain ⟨regular, follows⟩ : (outcome limits program).1.Regular ∧
      (outcome limits program).1.Follows program :=
      sound_of_rounds _ (Program.regular_of_decode decoded)
    have silent := round_silent_iff.mp (silent_of_settles settled)
    have again :
        (round (Probe.inputs (outcome limits program).1) limits.probeFuel Transformation.all
        (outcome limits program).1).2 = [] := by
      refine round_silent_iff.mpr ?_
      intro transformation listed reduction reduced
      refine rejected_again ((transformation.becomes regular.lands reduced).follows regular.lands)
        (silent transformation listed reduction reduced) ?_
      intro input member
      exact (probed input member).imp_left fun completes => (follows _ _ completes).1
    unfold optimize
    rw [Program.decode_of_encode regular.fits encoded]
    simp [rounds_of_silent again]

theorem optimize_again_of_sum :
    let bytes : List UInt8 := [0x41, 0x56, 0x4d, 1, 0x20, 1, 0x20, 2, 1, 0x70]
    optimize .standard (optimize .standard bytes).bytes = .unchanged
    (optimize .standard bytes).bytes := by
  have decoded : Program.decode [0x41, 0x56, 0x4d, 1, 0x20, 1, 0x20, 2, 1, 0x70] =
      .ok ⟨[.push 1 .one, .push 2 .one, .binary .add, .ret]⟩ := by decide +kernel
  exact optimize_again decoded (by decide +kernel) (by decide +kernel)

/-- A faulting run hides behind a value that is probed only as long as an immediate next to it is
there to be removed. -/
example :
    let program : Program :=
      ⟨[.push 150 .one, .pop, .arg 0, .push 100 .one, .binary .sub, .push 50 .one, .binary .eq,
        .jumpIf 9, .stop, .jumpDest, .push 0 .one, .binary .add, .stop]⟩
    settles (Probe.inputs program) 100 64 program = true ∧
      (outcome ⟨64, 100⟩ (outcome ⟨64, 100⟩ program).1).2 ≠ [] := by
  decide +kernel

end Optimizer

end Bytecode

end Covenant
