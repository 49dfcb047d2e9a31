/-!
White space and character escapes. Blank characters are those with the Unicode property White_Space,
a set that has been the same since version 6.3: twenty-five characters in ten ranges.
-/

namespace Covenant

def blankRanges : List (Nat × Nat) :=
  [(0x09, 0x0D), (0x20, 0x20), (0x85, 0x85), (0xA0, 0xA0), (0x1680, 0x1680), (0x2000, 0x200A),
    (0x2028, 0x2029), (0x202F, 0x202F), (0x205F, 0x205F), (0x3000, 0x3000)]

def isBlank (char : Char) : Bool :=
  blankRanges.any fun range => range.1 ≤ char.toNat && char.toNat ≤ range.2

/-- The character as it is shown in a message: printable ASCII stands for itself, quotes and the
backslash follow a backslash, and anything else is written by its code point. -/
def escapeChar (char : Char) : String :=
  match char with
  | '\t' => "\\t"
  | '\r' => "\\r"
  | '\n' => "\\n"
  | '\'' => "\\'"
  | '"' => "\\\""
  | '\\' => "\\\\"
  | _ =>
    if 0x20 ≤ char.toNat && char.toNat ≤ 0x7e then String.singleton char
    else "\\u\x7b" ++ String.ofList (Nat.toDigits 16 char.toNat) ++ "\x7d"

end Covenant
