import Covenant.Bytecode.Codec
import Mathlib.Algebra.Group.Nat.Defs
import Mathlib.Data.List.Forall2

/-!
The byte form of programs gives them back. What a buffer holds has operands that fit and jumps that
land; a program with operands that fit is what the buffer made from it holds.
-/

namespace Covenant

namespace Bytecode

/-! Numbers as bytes. -/

@[simp]
theorem length_bytesOf (count value : Nat) : (bytesOf count value).length = count := by
  induction count generalizing value with
  | zero => rfl
  | succ count ih => simp [bytesOf, ih]

theorem ofBytes_bytesOf (count value : Nat) (small : value < 256 ^ count) :
    ofBytes (bytesOf count value) = value := by
  induction count generalizing value with
  | zero =>
    obtain rfl : value = 0 := by simpa using small
    rfl
  | succ count ih =>
    have rest : value / 256 < 256 ^ count :=
      Nat.div_lt_of_lt_mul (by rwa [Nat.pow_succ, Nat.mul_comm] at small)
    have low : (UInt8.ofNat (value % 256)).toNat = value % 256 := by simp
    rw [bytesOf, ofBytes, ih _ rest, low]
    exact Nat.mod_add_div value 256

theorem ofBytes_lt (bytes : List UInt8) : ofBytes bytes < 256 ^ bytes.length := by
  induction bytes with
  | nil => simp [ofBytes]
  | cons byte rest ih =>
    have small := byte.toNat_lt
    rw [ofBytes, List.length_cons, Nat.pow_succ]
    omega

/-! Single operations. -/

namespace Op

theorem target?_mapTarget (op : Op) (move : Nat → Nat) :
    (op.mapTarget move).target? = op.target?.map move := by
  cases op <;> rfl

theorem mapTarget_of_still {op : Op} (still : op.target? = none) (move : Nat → Nat) :
    op.mapTarget move = op := by
  cases op <;> first | rfl | simp [target?] at still

theorem encodedLength_mapTarget (op : Op) (move : Nat → Nat) :
    (op.mapTarget move).encodedLength = op.encodedLength := by
  cases op <;> rfl

/-- Whether the operands of an operation can be read back from the bytes that it asks for. -/
def fits : Op → Bool
  | push value width => width.fits value
  | load slot wide => wide || isNarrowSlot slot
  | store slot wide => wide || isNarrowSlot slot
  | _ => true

theorem fits_mapTarget (op : Op) (move : Nat → Nat) : (op.mapTarget move).fits = op.fits := by
  cases op <;> rfl

def Near (op : Op) : Prop := ∀ target, op.target? = some target → target < 65536

theorem length_bytes (op : Op) : op.bytes.length = op.encodedLength := by
  cases op with
  | push value width => simp [bytes, encodedLength, Nat.add_comm]
  | load slot wide => simp only [bytes, encodedLength, encodeSlot, slotBytes]; split <;> simp
  | store slot wide => simp only [bytes, encodedLength, encodeSlot, slotBytes]; split <;> simp
  | jump target => simp [bytes, encodedLength]
  | jumpIf target => simp [bytes, encodedLength]
  | _ => rfl

end Op

theorem fits_pushNarrow (value : UInt64) : (Op.pushNarrow value).fits = true := by
  have small : Width.eight.fits value = true := decide_eq_true value.toNat_lt
  simp only [Op.pushNarrow, Op.fits, Width.smallestFor]
  split
  · assumption
  · split
    · assumption
    · split <;> assumption

theorem readOp_operand {opcode : UInt8} {count : Nat} {make : Nat → Op}
    (shaped : shape? opcode = some (.operand count make)) {value : Nat}
    (small : value < 256 ^ count) (offset : Nat) (tail : List UInt8) :
    readOp offset opcode (bytesOf count value ++ tail) = .ok (make value, tail) := by
  have enough : ¬(bytesOf count value ++ tail).length < count := by simp
  simp only [readOp, shaped, enough, if_false, List.take_left' (length_bytesOf count value),
    List.drop_left' (length_bytesOf count value), ofBytes_bytesOf count value small]

/-- An operation is read back from its bytes, whatever follows them. -/
theorem readOp_bytes {op : Op} (fits : op.fits = true) (near : op.Near) :
    ∃ opcode operand, op.bytes = opcode :: operand ∧
      ∀ offset tail, readOp offset opcode (operand ++ tail) = .ok (op, tail) := by
  have narrow {slot : UInt32} (small : Op.isNarrowSlot slot = true) : slot.toNat < 256 ^ 1 := by
    simpa [Op.isNarrowSlot] using small
  have target {index : Nat} (close : index < 65536) : index < 256 ^ 2 := by simpa using close
  cases op with
  | binary op => cases op <;> exact ⟨_, _, rfl, fun _ _ => rfl⟩
  | unary op => cases op <;> exact ⟨_, _, rfl, fun _ _ => rfl⟩
  | push value width =>
    have small : value.toNat < 256 ^ width.bytes := by simpa [Op.fits, Width.fits] using fits
    refine ⟨_, _, rfl, fun offset tail => ?_⟩
    cases width <;> exact (readOp_operand rfl small offset tail).trans (by rw [UInt64.ofNat_toNat])
  | load slot wide =>
    have word : slot.toNat < 256 ^ 4 := by simpa using slot.toNat_lt
    cases wide with
    | true =>
      refine ⟨_, _, rfl, fun offset tail => ?_⟩
      exact (readOp_operand rfl word offset tail).trans (by rw [UInt32.ofNat_toNat])
    | false =>
      have small : Op.isNarrowSlot slot = true := by simpa [Op.fits] using fits
      refine ⟨0x30, bytesOf 1 slot.toNat, by simp [Op.bytes, encodeSlot, small],
        fun offset tail => ?_⟩
      exact (readOp_operand rfl (narrow small) offset tail).trans (by rw [UInt32.ofNat_toNat])
  | store slot wide =>
    have word : slot.toNat < 256 ^ 4 := by simpa using slot.toNat_lt
    cases wide with
    | true =>
      refine ⟨_, _, rfl, fun offset tail => ?_⟩
      exact (readOp_operand rfl word offset tail).trans (by rw [UInt32.ofNat_toNat])
    | false =>
      have small : Op.isNarrowSlot slot = true := by simpa [Op.fits] using fits
      refine ⟨0x31, bytesOf 1 slot.toNat, by simp [Op.bytes, encodeSlot, small],
        fun offset tail => ?_⟩
      exact (readOp_operand rfl (narrow small) offset tail).trans (by rw [UInt32.ofNat_toNat])
  | arg index =>
    have byte : index.toNat < 256 ^ 1 := by simpa using index.toNat_lt
    refine ⟨0x40, bytesOf 1 index.toNat, by simp [Op.bytes, bytesOf], fun offset tail => ?_⟩
    exact (readOp_operand rfl byte offset tail).trans (by rw [UInt8.ofNat_toNat])
  | emit topic =>
    have byte : topic.toNat < 256 ^ 1 := by simpa using topic.toNat_lt
    refine ⟨0x60, bytesOf 1 topic.toNat, by simp [Op.bytes, bytesOf], fun offset tail => ?_⟩
    exact (readOp_operand rfl byte offset tail).trans (by rw [UInt8.ofNat_toNat])
  | jump index => exact ⟨_, _, rfl, readOp_operand rfl (target (near _ rfl))⟩
  | jumpIf index => exact ⟨_, _, rfl, readOp_operand rfl (target (near _ rfl))⟩
  | _ => exact ⟨_, _, rfl, fun _ _ => rfl⟩

theorem fits_of_readOp {offset : Nat} {opcode : UInt8} {rest tail : List UInt8} {op : Op}
    (read : readOp offset opcode rest = .ok (op, tail)) : op.fits = true := by
  unfold readOp at read
  split at read
  · simp at read
  · rename_i plain shaped
    obtain ⟨rfl, _⟩ := Prod.mk.inj (Except.ok.inj read)
    unfold shape? at shaped
    split at shaped <;>
      first | (obtain rfl := Shape.plain.inj (Option.some.inj shaped); rfl) | simp at shaped
  · rename_i count make shaped
    split at read
    · simp at read
    · rename_i enough
      obtain ⟨rfl, _⟩ := Prod.mk.inj (Except.ok.inj read)
      have length : (rest.take count).length = count := by
        rw [List.length_take]
        omega
      have small := ofBytes_lt (rest.take count)
      rw [length] at small
      unfold shape? at shaped
      split at shaped <;>
        simp only [Option.some.injEq, Shape.operand.injEq, reduceCtorEq] at shaped <;>
        obtain ⟨rfl, rfl⟩ := shaped
      all_goals first
        | rfl
        | simp only [Op.fits, Width.fits, Width.bytes, Op.isNarrowSlot, Bool.false_or,
            decide_eq_true_eq, UInt64.toNat_ofNat', UInt32.toNat_ofNat']
          exact Nat.lt_of_le_of_lt (Nat.mod_le _ _) small

/-! Sequences of operations. -/

theorem length_offsetsFrom (offset : Nat) (ops : List Op) :
    (Program.offsetsFrom offset ops).length = ops.length + 1 := by
  induction ops generalizing offset with
  | nil => rfl
  | cons op rest ih => simp [Program.offsetsFrom, ih]

theorem offsetsFrom_map {change : Op → Op}
    (same : ∀ op, (change op).encodedLength = op.encodedLength) (offset : Nat) (ops : List Op) :
    Program.offsetsFrom offset (ops.map change) = Program.offsetsFrom offset ops := by
  induction ops generalizing offset with
  | nil => rfl
  | cons op rest ih => simp [Program.offsetsFrom, same, ih]

theorem le_of_mem_offsetsFrom {offset place : Nat} {ops : List Op}
    (member : place ∈ Program.offsetsFrom offset ops) :
    offset ≤ place := by
  induction ops generalizing offset with
  | nil => simp_all [Program.offsetsFrom]
  | cons op rest ih =>
    rcases List.mem_cons.mp member with rfl | later
    · exact Nat.le_refl _
    · exact Nat.le_trans (Nat.le_add_right _ _) (ih later)

theorem encodedLength_pos (op : Op) : 0 < op.encodedLength := by
  cases op <;> simp only [Op.encodedLength] <;> omega

theorem pairwise_offsetsFrom (offset : Nat) (ops : List Op) :
    (Program.offsetsFrom offset ops).Pairwise (· < ·) := by
  induction ops generalizing offset with
  | nil => simp [Program.offsetsFrom]
  | cons op rest ih =>
    refine List.pairwise_cons.mpr ⟨?_, ih _⟩
    intro place member
    have further := le_of_mem_offsetsFrom member
    have progress := encodedLength_pos op
    omega

/-- Operations are read back from their bytes, each with its offset. -/
theorem readOps_bytes {ops : List Op} (fits : ∀ op ∈ ops, op.fits = true)
    (near : ∀ op ∈ ops, op.Near) (offset : Nat) {fuel : Nat}
    (enough : (ops.flatMap Op.bytes).length ≤ fuel) :
    readOps offset fuel (ops.flatMap Op.bytes) =
      .ok ((Program.offsetsFrom offset ops).zip ops) := by
  induction ops generalizing offset fuel with
  | nil => cases fuel <;> rfl
  | cons op rest ih =>
    obtain ⟨opcode, operand, bytes, reads⟩ :=
      readOp_bytes (fits op List.mem_cons_self) (near op List.mem_cons_self)
    have length := op.length_bytes
    rw [bytes, List.length_cons] at length
    rw [List.flatMap_cons, List.length_append, bytes, List.length_cons] at enough
    obtain ⟨less, rfl⟩ : ∃ less, fuel = less + 1 := ⟨fuel - 1, by omega⟩
    have past : offset + 1 +
      ((operand ++ rest.flatMap Op.bytes).length - (rest.flatMap Op.bytes).length) =
        offset + op.encodedLength := by
      rw [List.length_append]
      omega
    have others : readOps (offset + op.encodedLength) less (rest.flatMap Op.bytes) =
        .ok ((Program.offsetsFrom (offset + op.encodedLength) rest).zip rest) :=
      ih (fun other member => fits other (List.mem_cons_of_mem _ member))
        (fun other member => near other (List.mem_cons_of_mem _ member)) _ (by omega)
    rw [List.flatMap_cons, bytes, List.cons_append, readOps, reads]
    simp only [bind, Except.bind, past, others]
    rfl

theorem fits_of_readOps {offset fuel : Nat} {code : List UInt8} {entries : List (Nat × Op)}
    (read : readOps offset fuel code = .ok entries) : ∀ entry ∈ entries, entry.2.fits = true := by
  induction fuel generalizing offset code entries with
  | zero =>
    intro entry member
    cases code with
    | nil => simp_all [readOps]
    | cons opcode rest => simp_all [readOps]
  | succ fuel ih =>
    cases code with
    | nil => simp_all [readOps]
    | cons opcode rest =>
      rw [readOps] at read
      cases first : readOp offset opcode rest with
      | error cause => simp [first, bind, Except.bind] at read
      | ok pair =>
        obtain ⟨op, tail⟩ := pair
        cases later : readOps (offset + 1 + (rest.length - tail.length)) fuel tail with
        | error cause => simp [first, later, bind, Except.bind] at read
        | ok others =>
          simp only [first, later, bind, Except.bind, pure, Except.pure, Except.ok.injEq] at read
          subst read
          exact List.forall_mem_cons.mpr ⟨fits_of_readOp first, ih later⟩

/-! Targets of jumps. -/

theorem getElem?_of_placeOfOffset? {table : List (Nat × Op)} {target index : Nat}
    (found : placeOfOffset? table target = some index) :
    table[index]? = some (target, .jumpDest) := by
  unfold placeOfOffset? at found
  split at found
  · rename_i place first
    split at found
    · rename_i there
      obtain rfl := Option.some.inj found
      obtain ⟨inside, here, _⟩ := List.findIdx?_eq_some_iff_getElem.mp first
      rw [List.getElem?_eq_getElem inside, Option.some.injEq] at there
      rw [there] at here
      obtain rfl : _ = target := eq_of_beq here
      rw [List.getElem?_eq_getElem inside, there]
    · simp at found
  · simp at found

theorem placeOfOffset?_of_getElem? {table : List (Nat × Op)}
    (ascending : table.Pairwise fun entry other => entry.1 < other.1) {target index : Nat}
    (there : table[index]? = some (target, .jumpDest)) :
    placeOfOffset? table target = some index := by
  obtain ⟨inside, here⟩ := List.getElem?_eq_some_iff.mp there
  have first : table.findIdx? (fun entry => entry.1 == target) = some index := by
    refine List.findIdx?_eq_some_iff_getElem.mpr ⟨inside, by simp [here], ?_⟩
    intro earlier before
    have less := List.pairwise_iff_getElem.mp ascending earlier index (by omega) inside before
    rw [here] at less
    simp only [beq_iff_eq]
    omega
  simp only [placeOfOffset?, first, there]

def resolveOp? (table : List (Nat × Op)) (op : Op) : Option Op :=
  match op.target? with
  | none => some op
  | some target => (placeOfOffset? table target).map fun index => op.mapTarget fun _ => index

theorem resolve_cons_eq_ok {table rest : List (Nat × Op)} {entry : Nat × Op} {ops : List Op} :
    resolve table (entry :: rest) = .ok ops ↔
      ∃ op others, resolveOp? table entry.2 = some op ∧ resolve table rest = .ok others ∧
      ops = op :: others := by
  obtain ⟨offset, op⟩ := entry
  cases aims : op.target? with
  | none =>
    cases later : resolve table rest <;>
      simp [resolve, resolveOp?, aims, later, bind, Except.bind, pure, Except.pure, eq_comm]
  | some target =>
    cases found : placeOfOffset? table target <;> cases later : resolve table rest <;>
      simp [resolve, resolveOp?, aims, found, later, bind, Except.bind, pure, Except.pure, eq_comm]

theorem resolve_eq_ok {table entries : List (Nat × Op)} {ops : List Op} :
    resolve table entries = .ok ops ↔
      List.Forall₂ (fun entry op => resolveOp? table entry.2 = some op) entries ops := by
  induction entries generalizing ops with
  | nil =>
    rw [List.forall₂_nil_left_iff]
    exact ⟨fun resolved => (Except.ok.inj resolved).symm, fun empty => by rw [empty]; rfl⟩
  | cons entry rest ih =>
    rw [List.forall₂_cons_left_iff, resolve_cons_eq_ok]
    simp only [ih]

theorem resolved_of_getElem? {table entries : List (Nat × Op)} {ops : List Op}
    (resolved : resolve table entries = .ok ops) {index : Nat} {op : Op}
    (found : ops[index]? = some op) :
    ∃ entry, entries[index]? = some entry ∧ resolveOp? table entry.2 = some op := by
  have each := resolve_eq_ok.mp resolved
  obtain ⟨inside, rfl⟩ := List.getElem?_eq_some_iff.mp found
  have also : index < entries.length := each.length_eq ▸ inside
  exact ⟨_, List.getElem?_eq_getElem also, each.get also inside⟩

theorem fits_of_resolveOp? {table : List (Nat × Op)} {raw op : Op}
    (resolved : resolveOp? table raw = some op) (fits : raw.fits = true) : op.fits = true := by
  unfold resolveOp? at resolved
  split at resolved
  · rwa [← Option.some.inj resolved]
  · obtain ⟨index, _, rfl⟩ := Option.map_eq_some_iff.mp resolved
    rwa [Op.fits_mapTarget]

theorem found_of_resolveOp? {table : List (Nat × Op)} {raw op : Op} {index : Nat}
    (resolved : resolveOp? table raw = some op) (aims : op.target? = some index) :
    ∃ offset, table[index]? = some (offset, .jumpDest) := by
  unfold resolveOp? at resolved
  split at resolved
  · rename_i still
    rw [← Option.some.inj resolved, still] at aims
    simp at aims
  · rename_i target there
    obtain ⟨place, found, rfl⟩ := Option.map_eq_some_iff.mp resolved
    rw [Op.target?_mapTarget, there] at aims
    obtain rfl : place = index := Option.some.inj aims
    exact ⟨target, getElem?_of_placeOfOffset? found⟩

namespace Program

def JumpsLand (program : Program) : Prop :=
  ∀ (index : Nat) (op : Op) (target : Nat), program.ops[index]? = some op →
    op.target? = some target →
    program.ops[target]? = some .jumpDest

theorem strayJump?_eq_none {program : Program} : program.strayJump? = none ↔ program.JumpsLand := by
  unfold strayJump?
  rw [List.findSome?_eq_none_iff]
  constructor
  · intro none index op target found aims
    have lands := none (op, index) (List.mk_mem_zipIdx_iff_getElem?.mpr found)
    simpa [aims] using lands
  · rintro lands ⟨op, index⟩ member
    have found := List.mk_mem_zipIdx_iff_getElem?.mp member
    cases aims : op.target? with
    | none => simp [aims]
    | some target => simp [aims, lands index op target found aims]

structure Regular (program : Program) : Prop where
  fits : ∀ op ∈ program.ops, op.fits = true
  lands : program.JumpsLand

theorem regular_of_decode {bytes : List UInt8} {program : Program}
    (decoded : decode bytes = .ok program) :
    program.Regular := by
  unfold decode at decoded
  split at decoded
  · rename_i first second third found code
    split at decoded
    · simp at decoded
    · split at decoded
      · simp at decoded
      · cases read : readOps 0 code.length code with
        | error cause => simp [read, bind, Except.bind] at decoded
        | ok table =>
          cases resolved : resolve table table with
          | error cause => simp [read, resolved, bind, Except.bind] at decoded
          | ok ops =>
            simp only [read, resolved, bind, Except.bind, pure, Except.pure,
              Except.ok.injEq] at decoded
            subst decoded
            constructor
            · intro op member
              obtain ⟨index, found⟩ := List.mem_iff_getElem?.mp member
              obtain ⟨entry, listed, comes⟩ := resolved_of_getElem? resolved found
              exact fits_of_resolveOp? comes
                (fits_of_readOps read entry (List.mem_of_getElem? listed))
            · intro index op target found aims
              obtain ⟨entry, _, comes⟩ := resolved_of_getElem? resolved found
              obtain ⟨offset, lands⟩ := found_of_resolveOp? comes aims
              have there : target < ops.length := by
                rw [← (resolve_eq_ok.mp resolved).length_eq]
                exact (List.getElem?_eq_some_iff.mp lands).1
              obtain ⟨marker, listed, marks⟩ :=
                resolved_of_getElem? resolved (List.getElem?_eq_getElem there)
              obtain rfl := Option.some.inj (lands.symm.trans listed)
              rw [List.getElem?_eq_getElem there]
              exact marks.symm
  · simp at decoded

def wired (program : Program) : List Op :=
  program.ops.map fun op => op.mapTarget fun target => program.offsets.getD target 0

theorem encodeOps_cons_eq_ok {offsets : List Nat} {op : Op} {rest : List Op} {bytes : List UInt8} :
    encodeOps offsets (op :: rest) = .ok bytes ↔
      (op.mapTarget fun target => offsets.getD target 0).Near ∧ ∃ others, encodeOps offsets rest =
        .ok others ∧
        bytes = (op.mapTarget fun target => offsets.getD target 0).bytes ++ others := by
  rw [encodeOps]
  generalize op.mapTarget (fun target => offsets.getD target 0) = moved
  cases aims : moved.target? with
  | none =>
    have near : moved.Near := fun target there => by simp [aims] at there
    cases later : encodeOps offsets rest
      <;> simp [near, bind, Except.bind, pure, Except.pure, eq_comm]
  | some offset =>
    have near : moved.Near ↔ offset < 65536 := by simp [Op.Near, aims]
    by_cases small : offset < 65536
    · cases later : encodeOps offsets rest <;>
        simp [near, small, bind, Except.bind, pure, Except.pure, eq_comm]
    · simp [near, small]

theorem encodeOps_eq_ok {offsets : List Nat} {ops : List Op} {bytes : List UInt8} :
    encodeOps offsets ops = .ok bytes ↔
      (∀ op ∈ ops, (op.mapTarget fun target => offsets.getD target 0).Near) ∧
        bytes = (ops.map fun op => op.mapTarget fun target => offsets.getD target 0).flatMap
          Op.bytes := by
  induction ops generalizing bytes with
  | nil => simp [encodeOps, eq_comm]
  | cons op rest ih =>
    rw [encodeOps_cons_eq_ok, List.forall_mem_cons]
    simp only [ih, List.map_cons, List.flatMap_cons]
    constructor
    · rintro ⟨near, others, ⟨rest, rfl⟩, rfl⟩
      exact ⟨⟨near, rest⟩, rfl⟩
    · rintro ⟨⟨near, rest⟩, rfl⟩
      exact ⟨near, _, ⟨rest, rfl⟩, rfl⟩

theorem encode_eq_ok {program : Program} {bytes : List UInt8} :
    program.encode = .ok bytes ↔ program.JumpsLand ∧ (∀ op ∈ program.wired, op.Near) ∧
      bytes = magic ++ version :: program.wired.flatMap Op.bytes := by
  rw [← strayJump?_eq_none, encode, check]
  cases stray : program.strayJump? with
  | some jump => simp [bind, Except.bind]
  | none =>
    cases written : encodeOps program.offsets program.ops with
    | error cause =>
      have far : ¬∀ op ∈ program.wired, op.Near := by
        intro near
        have written := encodeOps_eq_ok.mpr ⟨List.forall_mem_map.mp near, rfl⟩
        simp_all
      simp [bind, Except.bind, far]
    | ok code =>
      obtain ⟨near, rfl⟩ := encodeOps_eq_ok.mp written
      have wiredNear : ∀ op ∈ program.wired, op.Near := List.forall_mem_map.mpr near
      constructor
      · intro encoded
        exact ⟨rfl, wiredNear, (Except.ok.inj encoded).symm⟩
      · rintro ⟨_, _, rfl⟩
        rfl

theorem length_wired (program : Program) : program.wired.length = program.ops.length :=
  List.length_map _

theorem offsetsFrom_wired (program : Program) : offsetsFrom 0 program.wired = program.offsets :=
  offsetsFrom_map (fun op => Op.encodedLength_mapTarget op _) 0 program.ops

def table (program : Program) : List (Nat × Op) := program.offsets.zip program.wired

theorem getElem?_table {program : Program} {index : Nat} {op : Op}
    (found : program.ops[index]? = some op) :
    program.table[index]? =
      some (program.offsets.getD index 0, op.mapTarget fun target =>
        program.offsets.getD target 0) := by
  have inside := (List.getElem?_eq_some_iff.mp found).1
  have placed : index < program.offsets.length := by
    rw [offsets, length_offsetsFrom]
    omega
  rw [table, wired, List.getElem?_zip_eq_some]
  simp [found, placed]

theorem ascending_table (program : Program) :
    program.table.Pairwise fun entry other => entry.1 < other.1 := by
  refine List.pairwise_iff_getElem.mpr ?_
  intro index later inside also before
  simp only [table, List.getElem_zip]
  exact List.pairwise_iff_getElem.mp (pairwise_offsetsFrom 0 program.ops) index later _ _ before

theorem resolveOp?_table {program : Program} (lands : program.JumpsLand) {index : Nat} {op : Op}
    (found : program.ops[index]? = some op) :
    resolveOp? program.table (op.mapTarget fun target => program.offsets.getD target 0) =
      some op := by
  unfold resolveOp?
  rw [Op.target?_mapTarget]
  cases aims : op.target? with
  | none => simp only [Option.map_none, Op.mapTarget_of_still aims]
  | some target =>
    have there := getElem?_table (lands index op target found aims)
    have place : placeOfOffset? program.table (program.offsets.getD target 0) = some target :=
      placeOfOffset?_of_getElem? program.ascending_table there
    simp only [Option.map_some, place]
    cases op with
    | jump aim => simpa [Op.target?, Op.mapTarget, eq_comm] using aims
    | jumpIf aim => simpa [Op.target?, Op.mapTarget, eq_comm] using aims
    | _ => simp [Op.target?] at aims

/-- The buffer made from a program with operands that fit holds the program. -/
theorem decode_of_encode {program : Program} {bytes : List UInt8}
    (fits : ∀ op ∈ program.ops, op.fits = true) (encoded : program.encode = .ok bytes) :
    decode bytes = .ok program := by
  obtain ⟨lands, near, rfl⟩ := encode_eq_ok.mp encoded
  have wiredFits : ∀ op ∈ program.wired, op.fits = true := by
    intro op member
    obtain ⟨raw, listed, rfl⟩ := List.mem_map.mp member
    rw [Op.fits_mapTarget]
    exact fits raw listed
  have read := readOps_bytes wiredFits near 0 (Nat.le_refl _)
  rw [offsetsFrom_wired] at read
  have length : program.table.length = program.ops.length := by
    rw [table, List.length_zip, length_wired, offsets, length_offsetsFrom]
    omega
  have resolved : resolve program.table program.table = .ok program.ops := by
    refine resolve_eq_ok.mpr (List.forall₂_iff_get.mpr ⟨length, ?_⟩)
    intro index listed inside
    have found := List.getElem?_eq_getElem inside
    have entry := getElem?_table found
    rw [List.getElem?_eq_getElem listed] at entry
    simp only [List.get_eq_getElem, Option.some.inj entry]
    exact resolveOp?_table lands found
  have goal : decode (magic ++ version :: program.wired.flatMap Op.bytes) =
      (readOps 0 (program.wired.flatMap Op.bytes).length (program.wired.flatMap Op.bytes) >>=
        fun ops =>
        resolve ops ops >>= fun resolved => pure ⟨resolved⟩) := rfl
  rw [goal, read]
  change (resolve program.table program.table >>= fun resolved => pure (⟨resolved⟩ : Program)) =
    .ok program
  rw [resolved]
  rfl

end Program

end Bytecode

end Covenant
