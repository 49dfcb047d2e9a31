import Covenant.Bytecode.Op
import Covenant.Source.Blank

/-!
The text form of programs: one operation or label a line, with comments that start at `;` or `#`. A
label is a jump destination, and jumps name labels. Operands without a stated width take the
narrowest one.
-/

namespace Covenant

namespace Bytecode

namespace Op

def binaryMnemonic : Binary → String
  | .add => "ADD"
  | .sub => "SUB"
  | .mul => "MUL"
  | .div => "DIV"
  | .mod => "MOD"
  | .lt => "LT"
  | .gt => "GT"
  | .eq => "EQ"
  | .and => "AND"
  | .or => "OR"

def unaryMnemonic : Unary → String
  | .isZero => "ISZERO"
  | .not => "NOT"

def mnemonic : Op → String
  | stop => "STOP"
  | binary op => binaryMnemonic op
  | unary op => unaryMnemonic op
  | pop => "POP"
  | dup => "DUP"
  | swap => "SWAP"
  | push _ width => "PUSH" ++ toString width.bytes
  | load _ wide => if wide then "SLOAD4" else "SLOAD1"
  | store _ wide => if wide then "SSTORE4" else "SSTORE1"
  | arg _ => "ARG"
  | caller => "CALLER"
  | timestamp => "TIMESTAMP"
  | callValue => "CALLVALUE"
  | jump _ => "JUMP"
  | jumpIf _ => "JUMPI"
  | jumpDest => "JUMPDEST"
  | emit _ => "EMIT"
  | call => "CALL"
  | ret => "RETURN"
  | revert => "REVERT"

def operandText? : Op → Option String
  | push value _ => some (toString value.toNat)
  | load slot _ => some (toString slot.toNat)
  | store slot _ => some (toString slot.toNat)
  | arg index => some (toString index.toNat)
  | emit topic => some (toString topic.toNat)
  | jump target => some ("L" ++ toString target)
  | jumpIf target => some ("L" ++ toString target)
  | _ => none

def text (op : Op) : String :=
  match op.operandText? with
  | some operand => op.mnemonic ++ " " ++ operand
  | none => op.mnemonic

end Op

namespace Program

def disassemble (program : Program) : String :=
  let targets := program.ops.filterMap Op.target?
  "\n".intercalate (program.ops.zipIdx.map fun (op, index) =>
    if op == .jumpDest && targets.contains index then s!"L{index}:" else "    " ++ op.text)

end Program

namespace Assembly

def splitLines : List Char → List (List Char)
  | [] => [[]]
  | char :: rest =>
    if char == '\n' then [] :: splitLines rest
    else match splitLines rest with
      | [] => [[char]]
      | first :: others => (char :: first) :: others

def trim (chars : List Char) : List Char :=
  ((chars.dropWhile isBlank).reverse.dropWhile isBlank).reverse

def codeLines (text : String) : List (Nat × List Char) :=
  ((splitLines text.toList).zipIdx.map fun (line, index) =>
    (index + 1, trim (line.takeWhile fun char => char != ';' && char != '#'))).filter
      fun entry => !entry.2.isEmpty

def label? (code : List Char) : Option (List Char) :=
  if code.getLast? == some ':' then some (trim code.dropLast) else none

def labelsFrom (index : Nat) (known : List (String × Nat)) :
    List (Nat × List Char) → Except Error (List (String × Nat))
  | [] => .ok known
  | (line, code) :: rest =>
    match label? code with
    | none => labelsFrom (index + 1) known rest
    | some label =>
      let name := String.ofList label
      if label.isEmpty || label.any isBlank then .error (.assembly line (.invalidLabel name))
      else if (known.lookup name).isSome then .error (.assembly line (.repeatedLabel name))
      else labelsFrom (index + 1) ((name, index) :: known) rest

def splitWords (word : List Char) : List Char → List (List Char)
  | [] => if word.isEmpty then [] else [word.reverse]
  | char :: rest =>
    if isBlank char then
      if word.isEmpty then splitWords [] rest else word.reverse :: splitWords [] rest
    else splitWords (char :: word) rest

def digit? (radix : Nat) (char : Char) : Option Nat :=
  let value :=
    if char.isDigit then some (char.toNat - 48)
    else if 'a' ≤ char && char ≤ 'z' then some (char.toNat - 87)
    else if 'A' ≤ char && char ≤ 'Z' then some (char.toNat - 55)
    else none
  value.filter fun digit => digit < radix

def digits? (radix : Nat) (chars : List Char) : Option Nat :=
  if chars.isEmpty then none
  else chars.foldlM (fun total char => (digit? radix char).map fun digit => total * radix + digit) 0

def unsigned? (radix bound : Nat) (chars : List Char) : Option Nat :=
  let digits := match chars with
    | '+' :: rest => rest
    | _ => chars
  (digits? radix digits).filter fun value => value < bound

def number (line : Nat) : Option (List Char) → Except Error Nat
  | none => .error (.assembly line .missingOperand)
  | some operand =>
    let value := match operand with
      | '0' :: 'x' :: rest => unsigned? 16 (Nat.pow 2 64) rest
      | _ => unsigned? 10 (Nat.pow 2 64) operand
    match value with
    | some value => .ok value
    | none => .error (.assembly line (.invalidNumber (String.ofList operand)))

def numberBelow (bound line : Nat) (what : String) (operand : Option (List Char)) :
    Except Error Nat := do
  let value ← number line operand
  if value < bound then return value else .error (.assembly line (.outOfRange what value))

def pushOf (line : Nat) (width : Width) (operand : Option (List Char)) : Except Error Op := do
  let value ← number line operand
  if value < Nat.pow 256 width.bytes then return .push (.ofNat value) width
  else .error (.assembly line (.tooWide value width.bytes))

def targetOf (line : Nat) (labels : List (String × Nat)) : Option (List Char) → Except Error Nat
  | none => .error (.assembly line .missingLabel)
  | some operand =>
    match labels.lookup (String.ofList operand) with
    | some index => .ok index
    | none => .error (.assembly line (.unknownLabel (String.ofList operand)))

def plain? : String → Option Op
  | "STOP" => some .stop
  | "ADD" => some (.binary .add)
  | "SUB" => some (.binary .sub)
  | "MUL" => some (.binary .mul)
  | "DIV" => some (.binary .div)
  | "MOD" => some (.binary .mod)
  | "LT" => some (.binary .lt)
  | "GT" => some (.binary .gt)
  | "EQ" => some (.binary .eq)
  | "ISZERO" => some (.unary .isZero)
  | "AND" => some (.binary .and)
  | "OR" => some (.binary .or)
  | "NOT" => some (.unary .not)
  | "POP" => some .pop
  | "DUP" => some .dup
  | "SWAP" => some .swap
  | "CALLER" => some .caller
  | "TIMESTAMP" => some .timestamp
  | "CALLVALUE" => some .callValue
  | "JUMPDEST" => some .jumpDest
  | "CALL" => some .call
  | "RETURN" => some .ret
  | "REVERT" => some .revert
  | _ => none

def withOperand (line : Nat) (labels : List (String × Nat)) (operand : Option (List Char)) :
    String → Except Error Op
  | "PUSH" => do return .pushNarrow (.ofNat (← number line operand))
  | "PUSH1" => pushOf line .one operand
  | "PUSH2" => pushOf line .two operand
  | "PUSH4" => pushOf line .four operand
  | "PUSH8" => pushOf line .eight operand
  | "SLOAD" => do return .loadNarrow (.ofNat (← numberBelow (Nat.pow 2 32) line "Slot" operand))
  | "SSTORE" => do return .storeNarrow (.ofNat (← numberBelow (Nat.pow 2 32) line "Slot" operand))
  | "SLOAD1" => do return .load (.ofNat (← numberBelow 256 line "Slot" operand)) false
  | "SSTORE1" => do return .store (.ofNat (← numberBelow 256 line "Slot" operand)) false
  | "SLOAD4" => do return .load (.ofNat (← numberBelow (Nat.pow 2 32) line "Slot" operand)) true
  | "SSTORE4" => do return .store (.ofNat (← numberBelow (Nat.pow 2 32) line "Slot" operand)) true
  | "ARG" => do return .arg (.ofNat (← numberBelow 256 line "Argument index" operand))
  | "EMIT" => do return .emit (.ofNat (← numberBelow 256 line "Event topic" operand))
  | "JUMP" => do return .jump (← targetOf line labels operand)
  | "JUMPI" => do return .jumpIf (← targetOf line labels operand)
  | mnemonic => .error (.assembly line (.unknownMnemonic mnemonic))

def operation (labels : List (String × Nat)) (line : Nat) (code : List Char) : Except Error Op :=
  let words := splitWords [] code
  let mnemonic := String.ofList ((words.headD []).map Char.toUpper)
  match words with
  | _ :: _ :: extra :: _ => .error (.assembly line (.unexpected (String.ofList extra)))
  | _ =>
    let operand := words.tail.head?
    match plain? mnemonic, operand with
    | some op, none => .ok op
    | some _, some needless =>
      .error (.assembly line (.needlessOperand mnemonic (String.ofList needless)))
    | none, operand => withOperand line labels operand mnemonic

def operations (labels : List (String × Nat)) : List (Nat × List Char) → Except Error (List Op)
  | [] => .ok []
  | (line, code) :: rest => do
    let op ← if (label? code).isSome then .ok .jumpDest else operation labels line code
    return op :: (← operations labels rest)

end Assembly

namespace Program

def assemble (text : String) : Except Error Program := do
  let lines := Assembly.codeLines text
  let labels ← Assembly.labelsFrom 0 [] lines
  let program : Program := ⟨← Assembly.operations labels lines⟩
  program.check
  return program

end Program

end Bytecode

end Covenant
