import Covenant.Number

/-!
The operations of the stack machine. Jumps name their target by its place in the program; byte
offsets exist in the encoded form only.
-/

namespace Covenant

namespace Bytecode

inductive Width where
  | one
  | two
  | four
  | eight
deriving DecidableEq, Repr

namespace Width

def bytes : Width → Nat
  | one => 1
  | two => 2
  | four => 4
  | eight => 8

def fits (width : Width) (value : UInt64) : Bool := value.toNat < Nat.pow 256 width.bytes

def smallestFor (value : UInt64) : Width :=
  if one.fits value then one
  else if two.fits value then two
  else if four.fits value then four
  else eight

end Width

inductive Binary where
  | add
  | sub
  | mul
  | div
  | mod
  | lt
  | gt
  | eq
  | and
  | or
deriving DecidableEq, Repr

inductive Unary where
  | isZero
  | not
deriving DecidableEq, Repr

def wordOfBool (value : Bool) : UInt64 := if value then 1 else 0

def Binary.eval : Binary → UInt64 → UInt64 → UInt64
  | add, lhs, rhs => lhs + rhs
  | sub, lhs, rhs => lhs - rhs
  | mul, lhs, rhs => lhs * rhs
  | div, lhs, rhs => if rhs = 0 then 0 else lhs / rhs
  | mod, lhs, rhs => if rhs = 0 then 0 else lhs % rhs
  | lt, lhs, rhs => wordOfBool (lhs < rhs)
  | gt, lhs, rhs => wordOfBool (lhs > rhs)
  | eq, lhs, rhs => wordOfBool (lhs == rhs)
  | and, lhs, rhs => lhs &&& rhs
  | or, lhs, rhs => lhs ||| rhs

def Unary.eval : Unary → UInt64 → UInt64
  | isZero, operand => wordOfBool (operand == 0)
  | not, operand => ~~~operand

inductive Op where
  | stop
  | binary (op : Binary)
  | unary (op : Unary)
  | pop
  | dup
  | swap
  | push (value : UInt64) (width : Width)
  | load (slot : UInt32) (wide : Bool)
  | store (slot : UInt32) (wide : Bool)
  | arg (index : UInt8)
  | caller
  | timestamp
  | callValue
  | jump (target : Nat)
  | jumpIf (target : Nat)
  | jumpDest
  | emit (topic : UInt8)
  | call
  | ret
  | revert
deriving DecidableEq, Repr, Inhabited

namespace Op

def pushNarrow (value : UInt64) : Op := push value (.smallestFor value)

def isNarrowSlot (slot : UInt32) : Bool := slot.toNat < 256

def loadNarrow (slot : UInt32) : Op := load slot (!isNarrowSlot slot)

def storeNarrow (slot : UInt32) : Op := store slot (!isNarrowSlot slot)

def slotBytes (slot : UInt32) (wide : Bool) : Nat := if wide || !isNarrowSlot slot then 4 else 1

def encodedLength : Op → Nat
  | push _ width => 1 + width.bytes
  | load slot wide => 1 + slotBytes slot wide
  | store slot wide => 1 + slotBytes slot wide
  | arg _ => 2
  | emit _ => 2
  | jump _ => 3
  | jumpIf _ => 3
  | _ => 1

def isTerminal : Op → Bool
  | stop | ret | revert | jump _ => true
  | _ => false

def target? : Op → Option Nat
  | jump target => some target
  | jumpIf target => some target
  | _ => none

def mapTarget (move : Nat → Nat) : Op → Op
  | jump target => jump (move target)
  | jumpIf target => jumpIf (move target)
  | op => op

end Op

structure Program where
  ops : List Op
deriving DecidableEq, Repr

inductive AssemblyCause where
  | invalidLabel (label : String)
  | repeatedLabel (label : String)
  | missingOperand
  | invalidNumber (operand : String)
  | outOfRange (what : String) (value : Nat)
  | tooWide (value bytes : Nat)
  | unexpected (extra : String)
  | missingLabel
  | unknownLabel (label : String)
  | unknownMnemonic (mnemonic : String)
  | needlessOperand (mnemonic operand : String)
deriving DecidableEq, Repr

def AssemblyCause.message : AssemblyCause → String
  | invalidLabel label => s!"Invalid label `{label}`"
  | repeatedLabel label => s!"Label `{label}` is defined twice"
  | missingOperand => "Missing operand"
  | invalidNumber operand => s!"Invalid number `{operand}`"
  | outOfRange what value => s!"{what} {value} is out of range"
  | tooWide value bytes => s!"{value} does not fit in {bytes} byte(s)"
  | unexpected extra => s!"Unexpected `{extra}`"
  | missingLabel => "Missing jump label"
  | unknownLabel label => s!"Unknown label `{label}`"
  | unknownMnemonic mnemonic => s!"Unknown mnemonic `{mnemonic}`"
  | needlessOperand mnemonic operand => s!"`{mnemonic}` takes no operand but got `{operand}`"

inductive Error where
  | missingHeader
  | unsupportedVersion (version : UInt8)
  | unknownOpcode (opcode : UInt8) (offset : Nat)
  | truncated (offset : Nat)
  | invalidJumpTarget (offset target : Nat)
  | programTooLarge (size : Nat)
  | unknownLabel (index target : Nat)
  | assembly (line : Nat) (cause : AssemblyCause)
deriving DecidableEq, Repr

def byteText (byte : UInt8) : String :=
  let digits := Nat.toDigits 16 byte.toNat
  "0x" ++ String.ofList (if digits.length < 2 then '0' :: digits else digits)

def Error.message : Error → String
  | missingHeader => "Buffer does not start with a valid header"
  | unsupportedVersion version => s!"Unsupported bytecode version {version.toNat}"
  | unknownOpcode opcode offset => s!"Unknown opcode {byteText opcode} at offset {offset}"
  | truncated offset => s!"Instruction at offset {offset} is truncated"
  | invalidJumpTarget offset target =>
    s!"Jump at offset {offset} targets {target}, which is not a jump destination"
  | programTooLarge size => s!"Program is too large to encode: {size} bytes"
  | unknownLabel index target =>
    s!"Instruction {index} jumps to instruction {target}, which is not a jump destination"
  | assembly line cause => s!"Line {line}: {cause.message}"

namespace Program

def headerLength : Nat := 4

def encodedLength (program : Program) : Nat :=
  headerLength + total (program.ops.map Op.encodedLength)

def offsetsFrom (offset : Nat) : List Op → List Nat
  | [] => [offset]
  | op :: rest => offset :: offsetsFrom (offset + op.encodedLength) rest

def offsets (program : Program) : List Nat := offsetsFrom 0 program.ops

def strayJump? (program : Program) : Option (Nat × Nat) :=
  program.ops.zipIdx.findSome? fun (op, index) =>
    op.target?.bind fun target =>
      if program.ops[target]? == some .jumpDest then none else some (index, target)

def check (program : Program) : Except Error Unit :=
  match program.strayJump? with
  | some (index, target) => .error (.unknownLabel index target)
  | none => .ok ()

def runsFrom (start index : Nat) : List Op → List (Nat × Nat)
  | [] => if start < index then [(start, index)] else []
  | op :: rest =>
    if op == .jumpDest then
      if start < index then (start, index) :: runsFrom (index + 1) (index + 1) rest
      else runsFrom (index + 1) (index + 1) rest
    else runsFrom start (index + 1) rest

def runs (program : Program) : List (Nat × Nat) := runsFrom 0 0 program.ops

end Program

end Bytecode

end Covenant
