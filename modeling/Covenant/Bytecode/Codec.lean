import Covenant.Bytecode.Op

/-!
The byte form of programs: a header of four bytes, then each operation as one byte for what it is,
followed by its operand with the lowest byte first. Jumps name the byte offset of their target
behind the header.
-/

namespace Covenant

namespace Bytecode

def bytesOf : Nat → Nat → List UInt8
  | 0, _ => []
  | count + 1, value => UInt8.ofNat (value % 256) :: bytesOf count (value / 256)

def ofBytes : List UInt8 → Nat
  | [] => 0
  | byte :: rest => byte.toNat + 256 * ofBytes rest

def Binary.opcode : Binary → UInt8
  | add => 0x01
  | sub => 0x02
  | mul => 0x03
  | div => 0x04
  | mod => 0x05
  | lt => 0x06
  | gt => 0x07
  | eq => 0x08
  | and => 0x0a
  | or => 0x0b

def Unary.opcode : Unary → UInt8
  | isZero => 0x09
  | not => 0x0c

def Width.opcode : Width → UInt8
  | one => 0x20
  | two => 0x21
  | four => 0x22
  | eight => 0x23

def encodeSlot (slot : UInt32) (wide : Bool) (narrowOpcode wideOpcode : UInt8) : List UInt8 :=
  if wide || !Op.isNarrowSlot slot then wideOpcode :: bytesOf 4 slot.toNat
  else narrowOpcode :: bytesOf 1 slot.toNat

def Op.bytes : Op → List UInt8
  | stop => [0x00]
  | binary op => [op.opcode]
  | unary op => [op.opcode]
  | pop => [0x10]
  | dup => [0x11]
  | swap => [0x12]
  | push value width => width.opcode :: bytesOf width.bytes value.toNat
  | load slot wide => encodeSlot slot wide 0x30 0x32
  | store slot wide => encodeSlot slot wide 0x31 0x33
  | arg index => [0x40, index]
  | caller => [0x41]
  | timestamp => [0x42]
  | callValue => [0x43]
  | jump target => 0x50 :: bytesOf 2 target
  | jumpIf target => 0x51 :: bytesOf 2 target
  | jumpDest => [0x52]
  | emit topic => [0x60, topic]
  | call => [0x61]
  | ret => [0x70]
  | revert => [0x71]

def magic : List UInt8 := [0x41, 0x56, 0x4d]

def version : UInt8 := 1

inductive Shape where
  | plain (op : Op)
  | operand (count : Nat) (op : Nat → Op)

def shape? (opcode : UInt8) : Option Shape :=
  match opcode.toNat with
  | 0x00 => some (.plain .stop)
  | 0x01 => some (.plain (.binary .add))
  | 0x02 => some (.plain (.binary .sub))
  | 0x03 => some (.plain (.binary .mul))
  | 0x04 => some (.plain (.binary .div))
  | 0x05 => some (.plain (.binary .mod))
  | 0x06 => some (.plain (.binary .lt))
  | 0x07 => some (.plain (.binary .gt))
  | 0x08 => some (.plain (.binary .eq))
  | 0x09 => some (.plain (.unary .isZero))
  | 0x0a => some (.plain (.binary .and))
  | 0x0b => some (.plain (.binary .or))
  | 0x0c => some (.plain (.unary .not))
  | 0x10 => some (.plain .pop)
  | 0x11 => some (.plain .dup)
  | 0x12 => some (.plain .swap)
  | 0x20 => some (.operand 1 fun value => .push (.ofNat value) .one)
  | 0x21 => some (.operand 2 fun value => .push (.ofNat value) .two)
  | 0x22 => some (.operand 4 fun value => .push (.ofNat value) .four)
  | 0x23 => some (.operand 8 fun value => .push (.ofNat value) .eight)
  | 0x30 => some (.operand 1 fun value => .load (.ofNat value) false)
  | 0x31 => some (.operand 1 fun value => .store (.ofNat value) false)
  | 0x32 => some (.operand 4 fun value => .load (.ofNat value) true)
  | 0x33 => some (.operand 4 fun value => .store (.ofNat value) true)
  | 0x40 => some (.operand 1 fun value => .arg (.ofNat value))
  | 0x41 => some (.plain .caller)
  | 0x42 => some (.plain .timestamp)
  | 0x43 => some (.plain .callValue)
  | 0x50 => some (.operand 2 .jump)
  | 0x51 => some (.operand 2 .jumpIf)
  | 0x52 => some (.plain .jumpDest)
  | 0x60 => some (.operand 1 fun value => .emit (.ofNat value))
  | 0x61 => some (.plain .call)
  | 0x70 => some (.plain .ret)
  | 0x71 => some (.plain .revert)
  | _ => none

def readOp (offset : Nat) (opcode : UInt8) (rest : List UInt8) : Except Error (Op × List UInt8) :=
  match shape? opcode with
  | none => .error (.unknownOpcode opcode offset)
  | some (.plain op) => .ok (op, rest)
  | some (.operand count op) =>
    if rest.length < count then .error (.truncated offset)
    else .ok (op (ofBytes (rest.take count)), rest.drop count)

def readOps (offset : Nat) : Nat → List UInt8 → Except Error (List (Nat × Op))
  | _, [] => .ok []
  | 0, _ :: _ => .ok []
  | fuel + 1, opcode :: rest => do
    let (op, tail) ← readOp offset opcode rest
    let others ← readOps (offset + 1 + (rest.length - tail.length)) fuel tail
    return (offset, op) :: others

def placeOfOffset? (ops : List (Nat × Op)) (target : Nat) : Option Nat :=
  match ops.findIdx? fun entry => entry.1 == target with
  | some index =>
    match ops[index]? with
    | some (_, .jumpDest) => some index
    | _ => none
  | none => none

def resolve (ops : List (Nat × Op)) : List (Nat × Op) → Except Error (List Op)
  | [] => .ok []
  | (offset, op) :: rest => do
    let resolved ← match op.target? with
      | none => .ok op
      | some target =>
        match placeOfOffset? ops target with
        | some index => .ok (op.mapTarget fun _ => index)
        | none => .error (.invalidJumpTarget offset target)
    return resolved :: (← resolve ops rest)

namespace Program

def decode : List UInt8 → Except Error Program
  | first :: second :: third :: found :: code =>
    if [first, second, third] != magic then .error .missingHeader
    else if found != version then .error (.unsupportedVersion found)
    else do
      let ops ← readOps 0 code.length code
      return ⟨← resolve ops ops⟩
  | _ => .error .missingHeader

def encodeOps (offsets : List Nat) : List Op → Except Error (List UInt8)
  | [] => .ok []
  | op :: rest =>
    let moved := op.mapTarget fun target => offsets.getD target 0
    match moved.target? with
    | some offset =>
      if offset < 65536 then do return moved.bytes ++ (← encodeOps offsets rest)
      else .error (.programTooLarge offset)
    | none => do return moved.bytes ++ (← encodeOps offsets rest)

def encode (program : Program) : Except Error (List UInt8) := do
  program.check
  let code ← encodeOps program.offsets program.ops
  return magic ++ version :: code

end Program

end Bytecode

end Covenant
