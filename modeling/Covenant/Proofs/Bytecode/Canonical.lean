import Covenant.Proofs.Bytecode.Codec

/-!
The byte form of a program is the only one: a buffer that can be decoded is what the decoded program
is encoded to. With the way back this makes the codec exact, and what keeps a program from being
encoded are its jumps alone.
-/

namespace Covenant

namespace Bytecode

theorem bytesOf_ofBytes (bytes : List UInt8) : bytesOf bytes.length (ofBytes bytes) = bytes := by
  induction bytes with
  | nil => rfl
  | cons byte rest ih =>
    have low := byte.toNat_lt
    have remainder : (byte.toNat + 256 * ofBytes rest) % 256 = byte.toNat := by omega
    have quotient : (byte.toNat + 256 * ofBytes rest) / 256 = ofBytes rest := by omega
    rw [ofBytes, List.length_cons, bytesOf, remainder, quotient, ih, UInt8.ofNat_toNat]

theorem Op.near_of_target?_eq_none {op : Op} (straight : op.target? = none) : op.Near := by
  intro target aims
  rw [straight] at aims
  contradiction

theorem bytes_of_plain {opcode : UInt8} {op : Op} (shaped : shape? opcode = some (.plain op)) :
    op.bytes = [opcode] ∧ op.target? = none := by
  have same := UInt8.ofNat_toNat (x := opcode)
  unfold shape? at shaped
  split at shaped <;> simp only [Option.some.injEq, Shape.plain.injEq, reduceCtorEq] at shaped <;>
    subst shaped
  all_goals
    rename_i code
    rw [code] at same
    subst same
    exact ⟨rfl, rfl⟩

theorem bytes_of_operand {opcode : UInt8} {count : Nat} {make : Nat → Op}
    (shaped : shape? opcode = some (.operand count make)) {value : Nat}
    (small : value < 256 ^ count) :
    (make value).bytes = opcode :: bytesOf count value ∧ (make value).Near := by
  have same := UInt8.ofNat_toNat (x := opcode)
  unfold shape? at shaped
  split at shaped <;> simp only [Option.some.injEq, Shape.operand.injEq, reduceCtorEq] at shaped <;>
    obtain ⟨rfl, rfl⟩ := shaped
  all_goals
    rename_i code
    rw [code] at same
    subst same
    clear code
    simp only [Nat.reducePow] at small
  case h_17 | h_18 | h_19 | h_20 =>
    have kept : (UInt64.ofNat value).toNat = value :=
      UInt64.toNat_ofNat_of_lt' (Nat.lt_of_lt_of_le small (by decide))
    exact ⟨by simp only [Op.bytes, kept]; rfl, Op.near_of_target?_eq_none rfl⟩
  case h_21 | h_22 =>
    have kept : (UInt32.ofNat value).toNat = value :=
      UInt32.toNat_ofNat_of_lt' (Nat.lt_of_lt_of_le small (by decide))
    exact ⟨by simp [Op.bytes, encodeSlot, Op.isNarrowSlot, kept, small],
      Op.near_of_target?_eq_none rfl⟩
  case h_23 | h_24 =>
    have kept : (UInt32.ofNat value).toNat = value := UInt32.toNat_ofNat_of_lt' small
    exact ⟨by simp [Op.bytes, encodeSlot, kept], Op.near_of_target?_eq_none rfl⟩
  case h_25 | h_32 =>
    exact ⟨by simp [Op.bytes, bytesOf, Nat.mod_eq_of_lt small], Op.near_of_target?_eq_none rfl⟩
  case h_29 | h_30 => exact ⟨rfl, fun _ aims => Option.some.inj aims ▸ small⟩

/-- What is read as an operation are the bytes of that operation. -/
theorem bytes_of_readOp {offset : Nat} {opcode : UInt8} {rest tail : List UInt8} {op : Op}
    (read : readOp offset opcode rest = .ok (op, tail)) :
    opcode :: rest = op.bytes ++ tail ∧ op.Near := by
  unfold readOp at read
  split at read
  · simp at read
  · rename_i plain shaped
    obtain ⟨rfl, rfl⟩ := Prod.mk.inj (Except.ok.inj read)
    obtain ⟨written, still⟩ := bytes_of_plain shaped
    exact ⟨by rw [written]; rfl, Op.near_of_target?_eq_none still⟩
  · rename_i count make shaped
    split at read
    · simp at read
    · rename_i enough
      obtain ⟨rfl, rfl⟩ := Prod.mk.inj (Except.ok.inj read)
      have length : (rest.take count).length = count := List.length_take_of_le (by omega)
      have small := ofBytes_lt (rest.take count)
      have digits := bytesOf_ofBytes (rest.take count)
      rw [length] at small digits
      obtain ⟨written, near⟩ := bytes_of_operand shaped small
      refine ⟨?_, near⟩
      rw [written, digits, List.cons_append, List.take_append_drop]

/-- What is read as operations are their bytes, one after another. -/
theorem bytes_of_readOps {offset fuel : Nat} {code : List UInt8} {entries : List (Nat × Op)}
    (read : readOps offset fuel code = .ok entries) (enough : code.length ≤ fuel) :
    ∃ ops, entries = (Program.offsetsFrom offset ops).zip ops ∧ code = ops.flatMap Op.bytes ∧
      ∀ op ∈ ops, op.Near := by
  induction fuel generalizing offset code entries with
  | zero =>
    obtain rfl := List.eq_nil_of_length_eq_zero (Nat.le_zero.mp enough)
    obtain rfl := Except.ok.inj read
    exact ⟨[], rfl, rfl, by simp⟩
  | succ fuel ih =>
    cases code with
    | nil =>
      obtain rfl := Except.ok.inj read
      exact ⟨[], rfl, rfl, by simp⟩
    | cons opcode rest =>
      rw [readOps] at read
      cases first : readOp offset opcode rest with
      | error cause => simp [first, bind, Except.bind] at read
      | ok pair =>
        obtain ⟨op, tail⟩ := pair
        obtain ⟨written, near⟩ := bytes_of_readOp first
        -- The offset goes on by the bytes that the operation took.
        have length := congrArg List.length written
        have positive := encodedLength_pos op
        simp only [List.length_cons, List.length_append, op.length_bytes] at length enough
        have past : offset + 1 + (rest.length - tail.length) = offset + op.encodedLength := by omega
        cases later : readOps (offset + op.encodedLength) fuel tail with
        | error cause => simp [first, past, later, bind, Except.bind] at read
        | ok others =>
          simp only [first, past, later, bind, Except.bind, pure, Except.pure,
            Except.ok.injEq] at read
          subst read
          obtain ⟨ops, rfl, rfl, close⟩ := ih later (by omega)
          exact ⟨op :: ops, rfl, written, List.forall_mem_cons.mpr ⟨near, close⟩⟩

theorem offsetsFrom_congr {ops others : List Op}
    (same : List.Forall₂ (fun op other => op.encodedLength = other.encodedLength) ops others)
    (offset : Nat) :
    Program.offsetsFrom offset ops = Program.offsetsFrom offset others := by
  induction same generalizing offset with
  | nil => rfl
  | cons first _ ih => rw [Program.offsetsFrom, Program.offsetsFrom, first, ih]

theorem mapTarget_of_resolveOp? {ops : List Op} {raw op : Op}
    (resolved : resolveOp? ((Program.offsetsFrom 0 ops).zip ops) raw = some op) :
    (op.mapTarget fun target => (Program.offsetsFrom 0 ops).getD target 0) = raw ∧
      op.encodedLength = raw.encodedLength := by
  unfold resolveOp? at resolved
  split at resolved
  · rename_i still
    obtain rfl := Option.some.inj resolved
    exact ⟨Op.mapTarget_of_still still _, rfl⟩
  · rename_i offset aims
    obtain ⟨index, found, rfl⟩ := Option.map_eq_some_iff.mp resolved
    have placed := (List.getElem?_zip_eq_some.mp (getElem?_of_placeOfOffset? found)).1
    have back : (Program.offsetsFrom 0 ops).getD index 0 = offset := by
      rw [List.getD_eq_getElem?_getD, placed, Option.getD_some]
    refine ⟨?_, Op.encodedLength_mapTarget raw _⟩
    cases raw with
    | jump target => exact congrArg Op.jump (back.trans (Option.some.inj aims).symm)
    | jumpIf target => exact congrArg Op.jumpIf (back.trans (Option.some.inj aims).symm)
    | _ => simp [Op.target?] at aims

namespace Program

theorem decode_eq_ok {bytes : List UInt8} {program : Program}
    (decoded : decode bytes = .ok program) :
    ∃ code table, bytes = magic ++ version :: code ∧ readOps 0 code.length code = .ok table ∧
      resolve table table = .ok program.ops := by
  unfold decode at decoded
  split at decoded
  · rename_i first second third found code
    split at decoded
    · simp at decoded
    · rename_i begins
      split at decoded
      · simp at decoded
      · rename_i current
        cases read : readOps 0 code.length code with
        | error cause => simp [read, bind, Except.bind] at decoded
        | ok table =>
          cases resolved : resolve table table with
          | error cause => simp [read, resolved, bind, Except.bind] at decoded
          | ok ops =>
            simp only [read, resolved, bind, Except.bind, pure, Except.pure,
              Except.ok.injEq] at decoded
            subst decoded
            refine ⟨code, table, ?_, read, resolved⟩
            have header : [first, second, third] = magic := by simpa using begins
            have newest : found = version := by simpa using current
            rw [← header, newest]
            rfl
  · simp at decoded

theorem encode_of_decode {bytes : List UInt8} {program : Program}
    (decoded : decode bytes = .ok program) :
    program.encode = .ok bytes := by
  obtain ⟨code, table, rfl, read, resolved⟩ := decode_eq_ok decoded
  obtain ⟨raws, rfl, rfl, near⟩ := bytes_of_readOps read (Nat.le_refl _)
  let table := (offsetsFrom 0 raws).zip raws
  have listed : table.map Prod.snd = raws := by
    refine List.map_snd_zip ?_
    rw [length_offsetsFrom]
    omega
  have each : List.Forall₂ (fun raw op => resolveOp? table raw = some op)
      (table.map Prod.snd) program.ops :=
    List.forall₂_map_left_iff.mpr (resolve_eq_ok.mp resolved)
  rw [listed] at each
  have placed : program.offsets = offsetsFrom 0 raws :=
    offsetsFrom_congr (each.flip.imp fun _ _ resolves => (mapTarget_of_resolveOp? resolves).2) 0
  have wired : raws = program.wired := by
    rw [← List.forall₂_eq_eq_eq, Program.wired, List.forall₂_map_right_iff, placed]
    exact each.imp fun _ _ resolves => (mapTarget_of_resolveOp? resolves).1.symm
  rw [wired] at near ⊢
  exact encode_eq_ok.mpr ⟨(regular_of_decode decoded).lands, near, rfl⟩

theorem length_flatMap_bytes (ops : List Op) :
    (ops.flatMap Op.bytes).length = total (ops.map Op.encodedLength) := by
  induction ops with
  | nil => rfl
  | cons op rest ih => simp [total, op.length_bytes, ih]

theorem length_of_encode {program : Program} {bytes : List UInt8}
    (encoded : program.encode = .ok bytes) :
    bytes.length = program.encodedLength := by
  obtain ⟨_, _, rfl⟩ := encode_eq_ok.mp encoded
  have lengths : program.wired.map Op.encodedLength = program.ops.map Op.encodedLength := by
    simp only [wired, List.map_map]
    exact List.map_congr_left fun op _ => Op.encodedLength_mapTarget op _
  rw [List.length_append, List.length_cons, length_flatMap_bytes, lengths, encodedLength, magic,
    headerLength]
  simp only [List.length_cons, List.length_nil]
  omega

/-- What keeps a program from being encoded: a jump that leads elsewhere than to a jump destination,
or too far. -/
theorem encode_eq_error {program : Program} :
    (∃ problem, program.encode = .error problem) ↔
      ∃ op ∈ program.ops, ∃ target, op.target? = some target ∧
        (program.ops[target]? ≠ some .jumpDest ∨ 65535 < program.offsets.getD target 0) := by
  constructor
  · rintro ⟨problem, failed⟩
    by_contra none
    have lands : program.JumpsLand := by
      intro index op target found aims
      by_contra stray
      exact none ⟨op, List.mem_of_getElem? found, target, aims, .inl stray⟩
    have near : ∀ op ∈ program.wired, op.Near := by
      intro wired member offset aims
      obtain ⟨op, listed, rfl⟩ := List.mem_map.mp member
      rw [Op.target?_mapTarget] at aims
      obtain ⟨target, there, rfl⟩ := Option.map_eq_some_iff.mp aims
      by_contra far
      exact none ⟨op, listed, target, there, .inr (by omega)⟩
    rw [encode_eq_ok.mpr ⟨lands, near, rfl⟩] at failed
    simp at failed
  · rintro ⟨op, listed, target, aims, wrong⟩
    cases encoded : program.encode with
    | error problem => exact ⟨problem, rfl⟩
    | ok bytes =>
      obtain ⟨lands, near, _⟩ := encode_eq_ok.mp encoded
      obtain ⟨index, found⟩ := List.mem_iff_getElem?.mp listed
      rcases wrong with stray | far
      · exact absurd (lands index op target found aims) stray
      · have close := near _ (List.mem_map_of_mem listed) (program.offsets.getD target 0) (by
          rw [Op.target?_mapTarget, aims, Option.map_some])
        omega

/-- The codec is exact in both directions. A buffer holds a program just where the program has
operands that fit and is encoded to that buffer; the length is the one that is foretold; and only
jumps keep a program from being encoded. -/
theorem decode_iff_encode (bytes : List UInt8) (program : Program) :
    (decode bytes = .ok program ↔ (∀ op ∈ program.ops, op.fits = true) ∧
      program.encode = .ok bytes) ∧
    (program.encode = .ok bytes → bytes.length = program.encodedLength) ∧
    ((∃ problem, program.encode = .error problem) ↔
      ∃ op ∈ program.ops, ∃ target, op.target? = some target ∧
        (program.ops[target]? ≠ some .jumpDest ∨ 65535 < program.offsets.getD target 0)) :=
  ⟨⟨fun decoded => ⟨(regular_of_decode decoded).fits, encode_of_decode decoded⟩,
    fun ⟨fits, encoded⟩ => decode_of_encode fits encoded⟩, length_of_encode, encode_eq_error⟩

/-- A jump over an access to a wide slot is written as the offset behind it. -/
theorem decode_iff_encode_of_forward_jump :
    let program : Program := ⟨[.arg 0, .jumpIf 4, .push 300 .two, .store 7 true, .jumpDest, .stop]⟩
    let bytes := [0x41, 0x56, 0x4d, 1, 0x40, 0, 0x51, 13, 0, 0x21, 44, 1, 0x33, 7, 0, 0, 0, 0x52, 0]
    program.encode = .ok bytes ∧ decode bytes = .ok program ∧
      bytes.length = program.encodedLength := by
  intro program bytes
  obtain ⟨both, length, _⟩ := decode_iff_encode bytes program
  have encoded : program.encode = .ok bytes := by decide
  exact ⟨encoded, both.mpr ⟨by decide, encoded⟩, length encoded⟩

end Program

end Bytecode

end Covenant
