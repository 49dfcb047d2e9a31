import Covenant.Proofs.Bytecode.Shrinking

/-!
What optimizing a buffer saves. The result always holds a program and is no longer than before, it
says something exactly if it has changed something, and the rounds come to an end by themselves.
-/

namespace Covenant

namespace Bytecode

namespace Program

def Encodable (program : Program) : Prop := ∃ bytes, program.encode = .ok bytes

theorem encodable_iff {program : Program} : program.Encodable ↔
    program.JumpsLand ∧ ∀ op ∈ program.ops, ∀ target, op.target? = some target →
      program.offsets.getD target 0 < 65536 := by
  have near : (∀ op ∈ program.wired, op.Near) ↔ ∀ op ∈ program.ops, ∀ target,
    op.target? = some target →
      program.offsets.getD target 0 < 65536 := by
    simp only [wired, List.forall_mem_map, Op.Near, Op.target?_mapTarget, Option.map_eq_some_iff,
      forall_exists_index, and_imp]
    constructor
    · intro each op member target aims
      exact each op member _ target aims rfl
    · rintro each op member _ target aims rfl
      exact each op member target aims
  rw [← near]
  constructor
  · rintro ⟨bytes, encoded⟩
    obtain ⟨lands, close, _⟩ := encode_eq_ok.mp encoded
    exact ⟨lands, close⟩
  · rintro ⟨lands, close⟩
    exact ⟨_, encode_eq_ok.mpr ⟨lands, close, rfl⟩⟩

theorem Shrinks.encodable {program : Program} {edits : Edits} (shrinks : program.Shrinks edits)
    (encodable : program.Encodable) : (program.splice edits).Encodable := by
  obtain ⟨lands, close⟩ := encodable_iff.mp encodable
  refine encodable_iff.mpr ⟨shrinks.lands, ?_⟩
  intro op member target aims
  obtain ⟨old, stood, before, aimed, rfl⟩ := shrinks.targets op member target aims
  obtain ⟨index, found⟩ := List.getElem?_of_mem stood
  exact Nat.lt_of_le_of_lt (shrinks.offsets before (lands index old before found aimed))
    (close old stood before aimed)

end Program

namespace Optimizer

variable {inputs : List MachineInput} {fuel : Nat} {program : Program}

/-- What rounds make of a program, and what they say about it: jumps still lead to jump
destinations, the program is no longer than before and can be encoded if it could be, and it weighs
less exactly if anything is said. -/
structure Saves (program : Program) (result : Program × List String) : Prop where
  lands : result.1.JumpsLand
  length : result.1.encodedLength ≤ program.encodedLength
  encodable : program.Encodable → result.1.Encodable
  weight : result = (program, []) ∨ result.2 ≠ [] ∧ result.1.weight < program.weight

namespace Saves

theorem refl (lands : program.JumpsLand) : Saves program (program, []) :=
  ⟨lands, Nat.le_refl _, id, .inl rfl⟩

theorem trans {next final : Program} {notes others : List String}
    (saves : Saves program (next, notes)) (later : Saves next (final, others)) :
    Saves program (final, notes ++ others) where
  lands := later.lands
  length := Nat.le_trans later.length saves.length
  encodable := fun encodable => later.encodable (saves.encodable encodable)
  weight := by
    rcases saves.weight with same | ⟨said, less⟩
    · obtain ⟨rfl, rfl⟩ := Prod.mk.inj same
      exact later.weight
    · refine .inr ⟨by simp [said], ?_⟩
      rcases later.weight with same | ⟨_, fewer⟩
      · rw [(Prod.mk.inj same).1]
        exact less
      · exact Nat.lt_trans fewer less

end Saves

theorem saves_of_accepts {transformation : Transformation} {reduction : Reduction}
    (lands : program.JumpsLand) (reduced : transformation.reduce? program = some reduction)
    (accepted : accepts inputs fuel program reduction.program = true) :
    Saves program (reduction.program, reduction.notes.map fun note =>
      s!"{transformation.name}: {note}") := by
  have shrinks := transformation.shrinks lands reduced
  have said := transformation.notes_ne_nil reduced
  have made := transformation.program_of_reduce? reduced
  have weight := shrinks.weight
  rw [← made] at weight
  obtain ⟨landsToo, short, _⟩ := accepts_iff.mp accepted
  exact ⟨landsToo, short, fun encodable => made ▸ shrinks.encodable encodable,
    .inr ⟨by simpa using said, weight⟩⟩

theorem saves_round (transformations : List Transformation) (lands : program.JumpsLand) :
    Saves program (round inputs fuel transformations program) := by
  induction transformations generalizing program with
  | nil => exact .refl lands
  | cons transformation rest ih =>
    rw [round]
    split
    · exact ih lands
    · rename_i reduction reduced
      split
      · rename_i accepted
        have first := saves_of_accepts lands reduced accepted
        exact first.trans (ih first.lands)
      · exact ih lands

theorem saves_rounds (count : Nat) (lands : program.JumpsLand) :
    Saves program (rounds inputs fuel count program) := by
  induction count generalizing program with
  | zero => exact .refl lands
  | succ count ih =>
    have first : Saves program (round inputs fuel Transformation.all program) := saves_round _ lands
    rw [rounds]
    dsimp only
    split
    · exact .refl lands
    · exact first.trans (ih first.lands)

/-- A round that says something leaves fewer bytes and operations, so that at most as many rounds
can do so as there are bytes and operations. -/
theorem rounds_eq_of_weight_le (lands : program.JumpsLand) {count more : Nat}
    (enough : program.weight ≤ count) (also : program.weight ≤ more) :
    rounds inputs fuel count program = rounds inputs fuel more program ∧
      settles inputs fuel count program = true := by
  induction count generalizing more program with
  | zero =>
    rw [Program.weight, Program.encodedLength_eq, Program.headerLength] at enough
    omega
  | succ count ih =>
    have positive : 0 < program.weight := by
      rw [Program.weight, Program.encodedLength_eq, Program.headerLength]
      omega
    obtain ⟨more, rfl⟩ : ∃ less, more = less + 1 := ⟨more - 1, by omega⟩
    have first : Saves program (round inputs fuel Transformation.all program) := saves_round _ lands
    rw [rounds, rounds, settles]
    dsimp only
    rcases first.weight with same | ⟨said, less⟩
    · simp [same]
    · have unsaid : (round inputs fuel Transformation.all program).2.isEmpty = false := by
        simpa [List.isEmpty_eq_false_iff] using said
      have fewer : (round inputs fuel Transformation.all program).1.weight ≤ more := by omega
      obtain ⟨onward, settled⟩ := ih first.lands (by omega) fewer
      simp only [unsaid, Bool.false_eq_true, if_false, onward, settled, Bool.or_true, and_self]

theorem optimize_eq {bytes : List UInt8} (limits : OptimizerLimits)
    (decoded : Program.decode bytes = .ok program) :
    ∃ optimized, (outcome limits program).1.encode = .ok optimized ∧
      optimize limits bytes = ⟨bytes.length, (outcome limits program).2, optimized⟩ := by
  have regular := Program.regular_of_decode decoded
  have encoded := Program.encode_of_decode decoded
  have saves : Saves program (outcome limits program) := saves_rounds _ regular.lands
  obtain ⟨optimized, fits⟩ := saves.encodable ⟨bytes, encoded⟩
  refine ⟨optimized, fits, ?_⟩
  unfold outcome at fits saves ⊢
  unfold optimize
  rw [decoded]
  dsimp only
  rcases saves.weight with same | ⟨said, _⟩
  · rw [same] at fits ⊢
    obtain rfl := Except.ok.inj (fits.symm.trans encoded)
    rfl
  · rw [if_neg (by simpa using said), fits]

/-- Optimizing always gives a buffer that is no longer and holds a program if the given one does; it
says something exactly if it changes the buffer. For any program, each reduction keeps jumps on jump
destinations, none of which moves to a larger byte offset, and leaves fewer bytes and operations, so
that the rounds end by themselves. -/
theorem optimize_saves :
    (∀ (limits : OptimizerLimits) (bytes : List UInt8),
      (∀ problem, Program.decode bytes = .error problem → optimize limits bytes =
        .unchanged bytes) ∧
      ∀ program, Program.decode bytes = .ok program →
        let result := optimize limits bytes
        (∃ optimized, (outcome limits program).1.encode = .ok optimized ∧
          result = ⟨bytes.length, (outcome limits program).2, optimized⟩) ∧
        Program.decode result.bytes = .ok (outcome limits program).1 ∧
        result.size ≤ bytes.length ∧ (result.notes = [] ↔ result.bytes = bytes)) ∧
    ∀ program : Program, program.JumpsLand →
      (∀ (transformation : Transformation) (reduction : Reduction), transformation.reduce? program =
        some reduction →
        reduction.program = program.splice (transformation.edits program) ∧
          program.Shrinks (transformation.edits program)) ∧
      ∀ (inputs : List MachineInput) (fuel count : Nat), program.weight ≤ count →
        rounds inputs fuel count program = rounds inputs fuel program.weight program ∧
          settles inputs fuel count program = true := by
  refine ⟨fun limits bytes => ⟨?_, ?_⟩, fun program lands => ⟨?_, ?_⟩⟩
  · intro problem undecoded
    unfold optimize
    rw [undecoded]
  · intro program decoded result
    obtain ⟨optimized, fits, same⟩ := optimize_eq limits decoded
    have regular := Program.regular_of_decode decoded
    have encoded := Program.encode_of_decode decoded
    have saves : Saves program (outcome limits program) := saves_rounds _ regular.lands
    have soundly : (outcome limits program).1.Regular := (sound_of_rounds _ regular).1
    have held : Program.decode result.bytes = .ok (outcome limits program).1 := by
      simp only [result, same]
      exact Program.decode_of_encode soundly.fits fits
    refine ⟨⟨optimized, fits, same⟩, held, ?_, ?_⟩
    · simp only [result, same, Optimized.size]
      rw [Program.length_of_encode fits, Program.length_of_encode encoded]
      exact saves.length
    · rcases saves.weight with silent | ⟨said, less⟩
      · rw [silent] at fits same
        obtain rfl := Except.ok.inj (fits.symm.trans encoded)
        simp [result, same]
      · simp only [result, same, said, false_iff]
        rintro rfl
        have again := Except.ok.inj
          ((Program.decode_of_encode soundly.fits fits).symm.trans decoded)
        rw [again] at less
        exact Nat.lt_irrefl _ less
  · intro transformation reduction reduced
    exact ⟨transformation.program_of_reduce? reduced, transformation.shrinks lands reduced⟩
  · intro inputs fuel count enough
    exact rounds_eq_of_weight_le lands enough (Nat.le_refl _)

/-- A jump that is always taken goes over a stop, and an immediate is wider than it has to be. -/
theorem optimize_saves_of_jump :
    let program : Program := ⟨[.push 1 .one, .jumpIf 3, .stop, .jumpDest, .push 300 .eight, .ret]⟩
    let bytes : List UInt8 :=
      [0x41, 0x56, 0x4d, 1, 0x20, 1, 0x51, 6, 0, 0, 0x52, 0x23, 44, 1, 0, 0, 0, 0, 0, 0, 0x70]
    Program.decode bytes = .ok program ∧ program.JumpsLand ∧ (optimize .standard bytes).size ≤
      bytes.length ∧
      (∃ reduction, Transformation.folding.reduce? program = some reduction ∧
        reduction.program.JumpsLand ∧
        reduction.program.weight < program.weight) ∧
      program.weight ≤ 64 ∧ settles [] 100 64 program = true := by
  intro program bytes
  have decoded : Program.decode bytes = .ok program := by decide +kernel
  have lands : program.JumpsLand := Program.strayJump?_eq_none.mp (by decide +kernel)
  obtain ⟨buffers, programs⟩ := optimize_saves
  obtain ⟨_, _, shorter, _⟩ := (buffers .standard bytes).2 program decoded
  obtain ⟨reductions, settled⟩ := programs program lands
  have weight : program.weight ≤ 64 := by decide +kernel
  refine ⟨decoded, lands, shorter, ?_, weight, (settled [] 100 64 weight).2⟩
  cases reduced : Transformation.folding.reduce? program with
  | none =>
    have folds : (Transformation.folding.reduce? program).isSome = true := by decide +kernel
    simp [reduced] at folds
  | some reduction =>
    obtain ⟨same, shrinks⟩ := reductions .folding reduction reduced
    exact ⟨reduction, rfl, same ▸ shrinks.lands, same ▸ shrinks.weight⟩

end Optimizer

end Bytecode

end Covenant
