import Covenant.Json.Basic

/-!
Reading JSON text. The grammar is the strict one: no comments, no trailing commas, no leading zeros
and no control characters inside a quoted text. An escape for half of a surrogate pair follows the
grammar, but what it is in has no meaning; that matters only to those who look at the value. Values
may be nested as deeply as the text is long.
-/

namespace Covenant

namespace Json

def isGap (char : Char) : Bool := char == ' ' || char == '\n' || char == '\t' || char == '\r'

def skipGap (chars : List Char) : List Char := chars.dropWhile isGap

def hexValue? (char : Char) : Option Nat :=
  if char.isDigit then some (char.toNat - 48)
  else if 'a' ≤ char && char ≤ 'f' then some (char.toNat - 87)
  else if 'A' ≤ char && char ≤ 'F' then some (char.toNat - 55)
  else none

def hexFour? : List Char → Option Nat
  | [first, second, third, fourth] => do
    let a ← hexValue? first
    let b ← hexValue? second
    let c ← hexValue? third
    let d ← hexValue? fourth
    pure (((a * 16 + b) * 16 + c) * 16 + d)
  | _ => none

def plainEscape? : Char → Option Char
  | '"' => some '"'
  | '\\' => some '\\'
  | '/' => some '/'
  | 'b' => some (Char.ofNat 8)
  | 'f' => some (Char.ofNat 12)
  | 'n' => some '\n'
  | 'r' => some '\r'
  | 't' => some '\t'
  | _ => none

/-- The codes of the characters of a quoted text after its opening quote, and what follows it. An
escape may stand for half of a surrogate pair. `codes` holds the codes so far, last one first. -/
def readQuoted (codes : List Nat) : List Char → Option (List Nat × List Char)
  | [] => none
  | '"' :: rest => some (codes.reverse, rest)
  | '\\' :: 'u' :: a :: b :: c :: d :: rest =>
    match hexFour? [a, b, c, d] with
    | some code => readQuoted (code :: codes) rest
    | none => none
  | '\\' :: char :: rest =>
    match plainEscape? char with
    | some plain => readQuoted (plain.toNat :: codes) rest
    | none => none
  | char :: rest =>
    if char.toNat < 0x20 || char == '\\' then none else readQuoted (char.toNat :: codes) rest

def isFirstHalf (code : Nat) : Bool := 0xD800 ≤ code && code < 0xDC00

def isSecondHalf (code : Nat) : Bool := 0xDC00 ≤ code && code < 0xE000

/-- The text whose characters have the given codes, where the two halves of a surrogate pair are one
character. There is none if a half stands alone. `read` holds the characters so far, last one first.
-/
def textOfCodes? (read : List Char) : List Nat → Option String
  | [] => some (String.ofList read.reverse)
  | first :: second :: rest =>
    if isFirstHalf first && isSecondHalf second then
      textOfCodes? (Char.ofNat (0x10000 + (first - 0xD800) * 0x400 + (second - 0xDC00)) :: read)
        rest
    else if isFirstHalf first || isSecondHalf first then none
    else textOfCodes? (Char.ofNat first :: read) (second :: rest)
  | [last] =>
    if isFirstHalf last || isSecondHalf last then none
      else some (String.ofList (Char.ofNat last :: read).reverse)

def readNumber (chars : List Char) : Option (Json × List Char) := do
  let (sign, unsigned) := match chars with
    | '-' :: rest => (['-'], rest)
    | _ => ([], chars)
  let whole := unsigned.takeWhile Char.isDigit
  guard (!whole.isEmpty && (whole.length == 1 || whole.head? != some '0'))
  let afterWhole := unsigned.drop whole.length
  let (fraction, afterFraction) ← match afterWhole with
    | '.' :: rest =>
      let digits := rest.takeWhile Char.isDigit
      if digits.isEmpty then none else some ('.' :: digits, rest.drop digits.length)
    | _ => some ([], afterWhole)
  let (exponent, rest) ← match afterFraction with
    | mark :: tail =>
      if mark == 'e' || mark == 'E' then
        let (expSign, unsignedExp) := match tail with
          | '+' :: more => (['+'], more)
          | '-' :: more => (['-'], more)
          | _ => ([], tail)
        let digits := unsignedExp.takeWhile Char.isDigit
        if digits.isEmpty then none
          else some ('e' :: expSign ++ digits, unsignedExp.drop digits.length)
      else some ([], afterFraction)
    | [] => some ([], [])
  let magnitude : Nat := whole.foldl (fun total char => total * 10 + (char.toNat - 48)) 0
  if fraction.isEmpty && exponent.isEmpty && !(sign == ['-'] && magnitude == 0) then
    pure (int (if sign.isEmpty then magnitude else -(magnitude : Int)), rest)
  else pure (decimal (String.ofList (sign ++ whole ++ fraction ++ exponent)), rest)

def readItems {α : Type} (item : List Char → Option (α × List Char)) (close : Char) :
    Nat → List Char → Option (List α × List Char)
  | 0, _ => none
  | fuel + 1, chars => do
    let (first, rest) ← item chars
    match skipGap rest with
    | ',' :: more =>
      let (others, tail) ← readItems item close fuel more
      pure (first :: others, tail)
    | char :: tail => if char == close then pure ([first], tail) else none
    | [] => none

def readWord (word : List Char) (value : Json) (chars : List Char) : Option (Json × List Char) :=
  if word.isPrefixOf chars then some (value, chars.drop word.length) else none

def readField (value : List Char → Option (Json × List Char)) (chars : List Char) :
    Option ((Option String × Json) × List Char) :=
  match skipGap chars with
  | '"' :: rest => do
    let (codes, afterName) ← readQuoted [] rest
    match skipGap afterName with
    | ':' :: tail =>
      let (field, afterField) ← value tail
      pure ((textOfCodes? [] codes, field), afterField)
    | _ => none
  | _ => none

def consumed (chars rest : List Char) : String :=
  String.ofList (chars.take (chars.length - rest.length))

def orMeaningless (value? : Option Json) (chars rest : List Char) : Json × List Char :=
  (value?.getD (meaningless (consumed chars rest)), rest)

def object? (fields : List (Option String × Json)) : Option Json := do
  let named ← fields.mapM fun (name?, value) => name?.map fun name => (name, value)
  return obj named

def readValue : Nat → List Char → Option (Json × List Char)
  | room, chars =>
    match skipGap chars with
    | '"' :: rest =>
      (readQuoted [] rest).map fun (codes, tail) =>
        orMeaningless ((textOfCodes? [] codes).map str) ('"' :: rest) tail
    | '[' :: rest =>
      match room with
      | 0 => none
      | room + 1 =>
        match skipGap rest with
        | ']' :: tail => some (arr [], tail)
        | _ => (readItems (readValue room) ']' room rest).map fun (items, tail) => (arr items, tail)
    | 'n' :: rest => readWord ['n', 'u', 'l', 'l'] null ('n' :: rest)
    | 't' :: rest => readWord ['t', 'r', 'u', 'e'] (bool true) ('t' :: rest)
    | 'f' :: rest => readWord ['f', 'a', 'l', 's', 'e'] (bool false) ('f' :: rest)
    | char :: rest =>
      if char == '\x7b' then
        match room with
        | 0 => none
        | room + 1 =>
          match skipGap rest with
          | [] => none
          | next :: tail =>
            if next == '\x7d' then some (obj [], tail)
            else (readItems (readField (readValue room)) '\x7d' room rest).map fun (fields, tail) =>
              orMeaningless (object? fields) (char :: rest) tail
      else readNumber (char :: rest)
    | [] => none

def read? (text : String) : Option Json := do
  let (value, rest) ← readValue text.length text.toList
  if (skipGap rest).isEmpty then pure value else none

end Json

end Covenant
