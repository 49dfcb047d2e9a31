import Covenant.Proofs.Bytecode.Listing

/-!
What a text is assembled to. Operands fit, since each is checked as it is read, and jumps land,
since a label is found on the line where its destination comes to stand. The main statement joins
this with what listings give back.
-/

namespace Covenant

namespace Bytecode

namespace Assembly

theorem lt_of_numberBelow {bound line value : Nat} {what : String} {operand : Option (List Char)}
    (read : numberBelow bound line what operand = .ok value) : value < bound := by
  obtain ⟨found, _, kept⟩ := chain_eq_ok.mp read
  split at kept
  · rename_i small
    obtain rfl := Except.ok.inj kept
    exact small
  · simp at kept

theorem fits_of_pushOf {line : Nat} {width : Width} {operand : Option (List Char)} {op : Op}
    (read : pushOf line width operand = .ok op) : op.fits = true ∧ op.target? = none := by
  obtain ⟨value, _, kept⟩ := chain_eq_ok.mp read
  split at kept
  · rename_i small
    obtain rfl := Except.ok.inj kept
    refine ⟨?_, rfl⟩
    simp only [Op.fits, Width.fits, UInt64.toNat_ofNat', decide_eq_true_eq]
    exact Nat.lt_of_le_of_lt (Nat.mod_le _ _) small
  · simp at kept

theorem lookup_of_targetOf {line target : Nat} {labels : List (String × Nat)}
    {operand : Option (List Char)} (read : targetOf line labels operand = .ok target) :
    ∃ name, labels.lookup name = some target := by
  unfold targetOf at read
  split at read
  · simp at read
  · split at read
    · rename_i found
      obtain rfl := Except.ok.inj read
      exact ⟨_, found⟩
    · simp at read

theorem plain_of_plain? {mnemonic : String} {op : Op} (found : plain? mnemonic = some op) :
    op.fits = true ∧ op.target? = none := by
  unfold plain? at found
  split at found <;> first | (obtain rfl := Option.some.inj found; exact ⟨rfl, rfl⟩) | simp at found

theorem fits_loadNarrow (slot : UInt32) : (Op.loadNarrow slot).fits = true := by
  simp [Op.loadNarrow, Op.fits]

theorem fits_storeNarrow (slot : UInt32) : (Op.storeNarrow slot).fits = true := by
  simp [Op.storeNarrow, Op.fits]

theorem isNarrowSlot_ofNat {value : Nat} (small : value < 256) :
    Op.isNarrowSlot (.ofNat value) = true := by
  simp only [Op.isNarrowSlot, UInt32.toNat_ofNat', decide_eq_true_eq]
  exact Nat.lt_of_le_of_lt (Nat.mod_le _ _) small

/-- An operand that is read fits, and a jump leads to a label. -/
theorem sound_of_withOperand {line : Nat} {labels : List (String × Nat)}
    {operand : Option (List Char)} {mnemonic : String} {op : Op}
    (read : withOperand line labels operand mnemonic = .ok op) :
    op.fits = true ∧ ∀ target, op.target? = some target → ∃ name, labels.lookup name =
      some target := by
  have still {op : Op} (sound : op.fits = true ∧ op.target? = none) :
      op.fits = true ∧ ∀ target, op.target? = some target → ∃ name, labels.lookup name =
        some target :=
    ⟨sound.1, fun target aims => by simp [sound.2] at aims⟩
  unfold withOperand at read
  split at read
  case h_1 =>
    obtain ⟨value, _, made⟩ := chain_eq_ok.mp read
    obtain rfl := Except.ok.inj made
    exact still ⟨fits_pushNarrow _, rfl⟩
  case h_2 | h_3 | h_4 | h_5 => exact still (fits_of_pushOf read)
  all_goals try
    obtain ⟨value, found, made⟩ := chain_eq_ok.mp read
    obtain rfl := Except.ok.inj made
  case h_6 => exact still ⟨fits_loadNarrow _, rfl⟩
  case h_7 => exact still ⟨fits_storeNarrow _, rfl⟩
  case h_8 =>
    exact still ⟨by simpa [Op.fits] using isNarrowSlot_ofNat (lt_of_numberBelow found), rfl⟩
  case h_9 =>
    exact still ⟨by simpa [Op.fits] using isNarrowSlot_ofNat (lt_of_numberBelow found), rfl⟩
  case h_10 | h_11 | h_12 | h_13 => exact still ⟨rfl, rfl⟩
  case h_14 | h_15 =>
    refine ⟨rfl, ?_⟩
    intro target aims
    obtain rfl : value = target := Option.some.inj aims
    exact lookup_of_targetOf found
  case h_16 => simp at read

theorem sound_of_operation {labels : List (String × Nat)} {line : Nat} {code : List Char} {op : Op}
    (read : operation labels line code = .ok op) :
    op.fits = true ∧ ∀ target, op.target? = some target → ∃ name, labels.lookup name =
      some target := by
  simp only [operation] at read
  split at read
  · simp at read
  · split at read
    · rename_i plain _
      obtain rfl := Except.ok.inj read
      obtain ⟨fits, still⟩ := plain_of_plain? plain
      exact ⟨fits, fun target aims => by simp [still] at aims⟩
    · simp at read
    · exact sound_of_withOperand read

/-- A label that is found is one that was known, or stands on the line at its place. -/
theorem label_of_labelsFrom {start : Nat} {known labels : List (String × Nat)}
    {lines : List (Nat × List Char)} (found : labelsFrom start known lines = .ok labels)
    {name : String} {place : Nat} (listed : labels.lookup name = some place) :
    known.lookup name = some place ∨
      ∃ offset entry, place = start + offset ∧ lines[offset]? = some entry ∧
      (label? entry.2).isSome = true := by
  induction lines generalizing start known with
  | nil =>
    obtain rfl := Except.ok.inj found
    exact .inl listed
  | cons entry rest ih =>
    have further {known : List (String × Nat)}
        (found : labelsFrom (start + 1) known rest = .ok labels) :
        known.lookup name = some place ∨ ∃ offset other, place = start + offset ∧
          (entry :: rest)[offset]? = some other ∧ (label? other.2).isSome = true := by
      rcases ih found with earlier | ⟨offset, other, rfl, there, labelled⟩
      · exact .inl earlier
      · exact .inr ⟨offset + 1, other, by omega, there, labelled⟩
    obtain ⟨line, code⟩ := entry
    simp only [labelsFrom] at found
    split at found
    · exact further found
    · rename_i label labelled
      split at found
      · simp at found
      · split at found
        · simp at found
        · rcases further found with earlier | later
          · by_cases same : name = String.ofList label
            · rw [same, List.lookup_cons, beq_self_eq_true] at earlier
              obtain rfl := Option.some.inj earlier
              exact .inr ⟨0, (line, code), rfl, rfl, by simp [labelled]⟩
            · have other : (name == String.ofList label) = false := beq_false_of_ne same
              rw [List.lookup_cons, other] at earlier
              exact .inl earlier
          · exact .inr later

/-- The operation at a place is the one on the line there. -/
theorem operation_of_operations {labels : List (String × Nat)} {lines : List (Nat × List Char)}
    {ops : List Op} (read : operations labels lines = .ok ops) :
    List.Forall₂ (fun entry op => (if (label? entry.2).isSome then .ok .jumpDest
      else operation labels entry.1 entry.2) = (.ok op : Except Error Op)) lines ops := by
  induction lines generalizing ops with
  | nil =>
    obtain rfl := Except.ok.inj read
    exact .nil
  | cons entry rest ih =>
    obtain ⟨line, code⟩ := entry
    rw [operations] at read
    by_cases labelled : (label? code).isSome = true
    · rw [if_pos labelled] at read
      obtain ⟨op, here, made⟩ := chain_eq_ok.mp read
      obtain ⟨others, later, made⟩ := chain_eq_ok.mp made
      obtain rfl := Except.ok.inj made
      exact .cons (by rw [if_pos labelled, here]) (ih later)
    · rw [if_neg labelled] at read
      obtain ⟨op, here, made⟩ := chain_eq_ok.mp read
      obtain ⟨others, later, made⟩ := chain_eq_ok.mp made
      obtain rfl := Except.ok.inj made
      exact .cons (by rw [if_neg labelled, here]) (ih later)

/-- What is assembled line by line has operands that fit and jumps that land, so that the check
behind the last line always passes. -/
theorem regular_of_operations {lines : List (Nat × List Char)} {labels : List (String × Nat)}
    {ops : List Op} (found : labelsFrom 0 [] lines = .ok labels)
    (read : operations labels lines = .ok ops) :
    (⟨ops⟩ : Program).Regular := by
  have each := operation_of_operations read
  have sound {op : Op} (member : op ∈ ops) :
      op.fits = true ∧ ∀ target, op.target? = some target → ∃ name, labels.lookup name =
        some target := by
    obtain ⟨index, inside, rfl⟩ := List.getElem_of_mem member
    have here := each.get (each.length_eq ▸ inside) inside
    simp only [List.get_eq_getElem] at here
    split at here
    · rw [← Except.ok.inj here]
      exact ⟨rfl, by simp [Op.target?]⟩
    · exact sound_of_operation here
  constructor
  · intro op member
    exact (sound member).1
  · intro index op target there aims
    obtain ⟨name, listed⟩ := (sound (List.mem_of_getElem? there)).2 target aims
    obtain impossible | ⟨offset, entry, same, lands, labelled⟩ := label_of_labelsFrom found listed
    · simp at impossible
    · obtain rfl : target = offset := by omega
      obtain ⟨inside, rfl⟩ := List.getElem?_eq_some_iff.mp lands
      have also : target < ops.length := each.length_eq ▸ inside
      have here := each.get inside also
      simp only [List.get_eq_getElem, labelled, if_true, Except.ok.injEq] at here
      rw [List.getElem?_eq_getElem also, ← here]

end Assembly

namespace Program

theorem check_of_jumpsLand {program : Program} (lands : program.JumpsLand) :
    program.check = .ok () := by
  rw [check, strayJump?_eq_none.mpr lands]

theorem assemble_eq_ok {text : String} {program : Program} :
    assemble text = .ok program ↔ ∃ labels, Assembly.labelsFrom 0 [] (Assembly.codeLines text) =
      .ok labels ∧
      Assembly.operations labels (Assembly.codeLines text) = .ok program.ops := by
  unfold assemble
  constructor
  · intro assembled
    obtain ⟨labels, found, assembled⟩ := chain_eq_ok.mp assembled
    obtain ⟨ops, read, assembled⟩ := chain_eq_ok.mp assembled
    obtain ⟨_, _, same⟩ := chain_eq_ok.mp assembled
    obtain rfl := Except.ok.inj same
    exact ⟨labels, found, read⟩
  · rintro ⟨labels, found, read⟩
    have checked := check_of_jumpsLand (Assembly.regular_of_operations found read).lands
    simp only [bind, Except.bind, found, read, checked]
    rfl

/-- The text form of programs. What a program is listed as assembles to the program, if its operands
fit and its jumps land. Once all lines can be read, the program is accepted; its operands fit and
its jumps land, and it can be encoded unless a jump leads too far. -/
theorem assemble_listing :
    (∀ program : Program, program.check = .ok () → (∀ op ∈ program.ops, op.fits = true) →
      assemble program.disassemble = .ok program) ∧
    ∀ (text : String),
      (∀ labels ops, Assembly.labelsFrom 0 [] (Assembly.codeLines text) = .ok labels →
        Assembly.operations labels (Assembly.codeLines text) = .ok ops →
        assemble text = .ok ⟨ops⟩) ∧
      ∀ program, assemble text = .ok program →
        (∀ op ∈ program.ops, ∀ target, op.target? = some target → program.ops[target]? =
          some .jumpDest) ∧
        (∀ op ∈ program.ops, op.fits = true) ∧
        ((∀ op ∈ program.ops, ∀ target, op.target? = some target →
          program.offsets.getD target 0 ≤ 65535) →
          ∃ bytes, program.encode = .ok bytes) := by
  refine ⟨fun program valid fits => assemble_disassemble fits valid, fun text => ⟨?_, ?_⟩⟩
  · intro labels ops found read
    exact assemble_eq_ok.mpr ⟨labels, found, read⟩
  · intro program assembled
    obtain ⟨labels, found, read⟩ := assemble_eq_ok.mp assembled
    have regular := Assembly.regular_of_operations found read
    have lands : ∀ op ∈ program.ops, ∀ target, op.target? = some target →
        program.ops[target]? = some .jumpDest := by
      intro op member target aims
      obtain ⟨index, there⟩ := List.mem_iff_getElem?.mp member
      exact regular.lands index op target there aims
    refine ⟨lands, regular.fits, ?_⟩
    intro near
    cases encoded : program.encode with
    | ok bytes => exact ⟨bytes, rfl⟩
    | error problem =>
      obtain ⟨op, member, target, aims, wrong⟩ := encode_eq_error.mp ⟨problem, encoded⟩
      rcases wrong with stray | far
      · exact absurd (lands op member target aims) stray
      · have close := near op member target aims
        omega

/-- A program with jumps both ways and a destination that no jump leads to, and another text that
describes it. -/
theorem assemble_listing_of_two_jumps :
    let program : Program :=
      ⟨[.jumpDest, .arg 0, .jumpIf 5, .push 300 .two, .jump 0, .jumpDest, .load 7 true,
        .jumpDest, .stop]⟩
    let text :=
      "top: ; from the start\narg 0x0\nJUMPI done\n\nPUSH +300\njump top\ndone :\nSLOAD4 7 # wide\nJUMPDEST\nSTOP"
    program.check = .ok () ∧ (∀ op ∈ program.ops, op.fits = true) ∧ assemble program.disassemble =
      .ok program ∧
      assemble text = .ok program ∧ ∃ bytes, program.encode = .ok bytes := by
  intro program text
  obtain ⟨gives, describes⟩ := assemble_listing
  have valid : program.check = .ok () := by decide
  have fits : ∀ op ∈ program.ops, op.fits = true := by decide
  have assembled : assemble text = .ok program := by decide +kernel
  have near : ∀ op ∈ program.ops, ∀ target, op.target? = some target →
      program.offsets.getD target 0 ≤ 65535 := by
    intro op member target aims
    have places : ∀ op ∈ program.ops, ∀ target ∈ op.target?, program.offsets.getD target 0 ≤
        65535 := by decide
    exact places op member target aims
  exact ⟨valid, fits, gives program valid fits, assembled,
    ((describes text).2 program assembled).2.2 near⟩

end Program

end Bytecode

end Covenant
