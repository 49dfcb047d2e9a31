import Covenant.Source.Blank
import Covenant.Source.Diagnostic
import Covenant.Source.Token

/-!
Reading characters into tokens.

A token may be surrounded by trivia: blanks, line comments and block comments. A block comment that
is never closed is no comment; its first characters are then read as operators. Where no token can
be read, characters are skipped one at a time until reading works again, and one problem is recorded
for the place that was furthest from the start of the failed token. If it never works again the
whole text has no tokens.
-/

namespace Covenant

namespace Lexer

def isWordStart (char : Char) : Bool := char.isAlpha || char == '_'

def isWordPart (char : Char) : Bool := char.isAlphanum || char == '_'

def isHexDigit (char : Char) : Bool :=
  char.isDigit || ('a' ≤ char && char ≤ 'f') || ('A' ≤ char && char ≤ 'F')

def afterLine : List Char → List Char
  | [] => []
  | char :: rest => if char == '\n' then rest else afterLine rest

def afterBlock? : List Char → Option (List Char)
  | '*' :: '/' :: rest => some rest
  | _ :: rest => afterBlock? rest
  | [] => none

def afterComment? : List Char → Option (List Char)
  | '/' :: '/' :: rest => some (afterLine rest)
  | '/' :: '*' :: rest => afterBlock? rest
  | _ => none

theorem length_afterLine (chars : List Char) : (afterLine chars).length ≤ chars.length := by
  induction chars with
  | nil => simp [afterLine]
  | cons char rest ih =>
    simp only [afterLine]
    split
    · simp
    · simp only [List.length_cons]
      omega

theorem length_afterBlock {chars rest : List Char} (closed : afterBlock? chars = some rest) :
    rest.length < chars.length := by
  induction chars using afterBlock?.induct with
  | case1 tail =>
    simp only [afterBlock?, Option.some.injEq] at closed
    subst closed
    simp only [List.length_cons]
    omega
  | case2 char tail _ ih =>
    rw [afterBlock?] at closed
    · have shorter := ih closed
      simp only [List.length_cons]
      omega
    · assumption
  | case3 => simp [afterBlock?] at closed

theorem length_afterComment {chars rest : List Char} (found : afterComment? chars = some rest) :
    rest.length < chars.length := by
  unfold afterComment? at found
  split at found
  · rename_i tail
    simp only [Option.some.injEq] at found
    subst found
    have shorter := length_afterLine tail
    simp only [List.length_cons]
    omega
  · have shorter := length_afterBlock found
    simp only [List.length_cons]
    omega
  · simp at found

def afterTrivia (chars : List Char) : List Char :=
  match chars with
  | [] => []
  | char :: rest =>
    if isBlank char then afterTrivia rest
    else match _found : afterComment? (char :: rest) with
      | some next => afterTrivia next
      | none => char :: rest
termination_by chars.length
decreasing_by
  · simp
  · exact length_afterComment _found

def word (chars : List Char) : Token :=
  let spelling := String.ofList chars
  match Keyword.ofWord? spelling with
  | some keyword => .keyword keyword
  | none => .ident spelling

def token? : List Char → Option (Token × Nat)
  | [] => none
  | '0' :: 'x' :: rest =>
    let digits := rest.takeWhile isHexDigit
    if digits.isEmpty then some (.int "0", 1)
    else some (.hex (String.ofList digits), 2 + digits.length)
  | '"' :: rest =>
    let text := rest.takeWhile fun char => char != '"' && char != '\n'
    if (rest.drop text.length).head? == some '"' then
      some (.str (String.ofList text), text.length + 2)
    else none
  | char :: rest =>
    if char.isDigit then
      let tail := rest.takeWhile fun next => next.isDigit || next == '_'
      some (.int (String.ofList (char :: tail.filter (· != '_'))), 1 + tail.length)
    else if isWordStart char then
      let tail := rest.takeWhile isWordPart
      some (word (char :: tail), 1 + tail.length)
    else match rest.head?.bind (Punct.ofPair? char) with
      | some punct => some (.punct punct, 2)
      | none => (Punct.ofChar? char).map fun punct => (.punct punct, 1)

/-- How far past its start the reading of a token that cannot be read gets: a string fails at the
end of its line, half of a two-character mark at the character after it, anything else at once. -/
def failureWidth : List Char → Nat
  | '"' :: rest => 1 + (rest.takeWhile fun char => char != '"' && char != '\n').length
  | '&' :: _ => 1
  | '|' :: _ => 1
  | _ => 0

structure Cursor where
  offset : Nat
  rest : List Char

namespace Cursor

def skip (cursor : Cursor) (count : Nat) : Cursor := ⟨cursor.offset + count, cursor.rest.drop count⟩

def skipTrivia (cursor : Cursor) : Cursor :=
  let rest := afterTrivia cursor.rest
  ⟨cursor.offset + (cursor.rest.length - rest.length), rest⟩

end Cursor

/-- A token that was read: the token itself, the place after it and the trivia that follows it, and
whether its first two characters look like the start of a block comment that is not closed. -/
structure Reading where
  lexeme : Lexeme
  next : Cursor
  opensComment : Bool

def read? (cursor : Cursor) : Option Reading :=
  let start := cursor.skipTrivia
  (token? start.rest).map fun (token, width) =>
    { lexeme := { token, span := ⟨start.offset, start.offset + width⟩ }
      next := (start.skip width).skipTrivia
      opensComment := start.rest.take 2 == ['/', '*'] }

def resume? (offset : Nat) : List Char → Option Reading
  | [] => none
  | char :: rest =>
    match read? ⟨offset, char :: rest⟩ with
    | some reading => some reading
    | none => resume? (offset + 1) rest

def unexpected (lines : LineTable) (offset : Nat) : Option Char → Diagnostic
  | some '"' => .locate lines "Unterminated string literal" ⟨offset, offset + 1⟩
  | some char => .locate lines s!"Unexpected character `{escapeChar char}`" ⟨offset, offset + 1⟩
  | none => .locate lines "Unexpected end of input" ⟨offset, offset⟩

def failure (lines : LineTable) (cursor : Cursor) : Diagnostic :=
  let reached := cursor.skip (failureWidth cursor.rest)
  unexpected lines reached.offset reached.rest.head?

structure Outcome where
  lexemes : Option (List Lexeme)
  problems : List Diagnostic

def Outcome.cons (problems : List Diagnostic) (lexeme : Lexeme) (outcome : Outcome) : Outcome where
  lexemes := outcome.lexemes.map (lexeme :: ·)
  problems := problems ++ outcome.problems

/-- Reads tokens until the end. Each token takes at least one character, so the number of characters
left is fuel enough. If reading fails for good after something that looked like an open block
comment, the problem is the missing end of that comment. -/
def readAll (lines : LineTable) (opened : Bool) : Nat → Cursor → Outcome
  | 0, _ => ⟨some [], []⟩
  | fuel + 1, cursor =>
    if cursor.rest.isEmpty then ⟨some [], []⟩
    else match read? cursor with
      | some reading =>
        (readAll lines (opened || reading.opensComment) fuel reading.next).cons [] reading.lexeme
      | none => match resume? (cursor.offset + 1) cursor.rest.tail with
        | some reading =>
          (readAll lines (opened || reading.opensComment) fuel reading.next).cons
            [failure lines cursor] reading.lexeme
        | none =>
          if opened then ⟨none, [unexpected lines lines.length none]⟩
          else ⟨none, [failure lines cursor]⟩

def run (lines : LineTable) (chars : List Char) : Outcome :=
  readAll lines false (chars.length + 1) (Cursor.skipTrivia ⟨0, chars⟩)

end Lexer

end Covenant
