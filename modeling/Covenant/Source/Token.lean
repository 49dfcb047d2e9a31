import Covenant.Source.Location

/-!
The tokens of the contract language and how each of them is spelled.
-/

namespace Covenant

inductive Keyword where
  | contractWord
  | initWord
  | eventWord
  | privateWord
  | letWord
  | ifWord
  | elseWord
  | whileWord
  | returnWord
  | requireWord
  | assertWord
  | revertWord
  | emitWord
  | selfWord
  | trueWord
  | falseWord
deriving DecidableEq, Repr

namespace Keyword

def spelling : Keyword → String
  | contractWord => "contract"
  | initWord => "init"
  | eventWord => "event"
  | privateWord => "private"
  | letWord => "let"
  | ifWord => "if"
  | elseWord => "else"
  | whileWord => "while"
  | returnWord => "return"
  | requireWord => "require"
  | assertWord => "assert"
  | revertWord => "revert"
  | emitWord => "emit"
  | selfWord => "self"
  | trueWord => "true"
  | falseWord => "false"

def all : List Keyword :=
  [contractWord, initWord, eventWord, privateWord, letWord, ifWord, elseWord, whileWord, returnWord,
    requireWord, assertWord, revertWord, emitWord, selfWord, trueWord, falseWord]

def ofWord? (word : String) : Option Keyword := all.find? (fun keyword => keyword.spelling == word)

end Keyword

inductive Punct where
  | leftBrace
  | rightBrace
  | leftParen
  | rightParen
  | leftBracket
  | rightBracket
  | comma
  | dot
  | colon
  | atSign
  | arrow
  | assign
  | plusAssign
  | minusAssign
  | starAssign
  | slashAssign
  | equalEqual
  | notEqual
  | less
  | lessEqual
  | greater
  | greaterEqual
  | andAnd
  | orOr
  | plus
  | minus
  | star
  | slash
  | percent
  | bang
deriving DecidableEq, Repr

namespace Punct

def spelling : Punct → String
  | leftBrace => "\x7b"
  | rightBrace => "\x7d"
  | leftParen => "("
  | rightParen => ")"
  | leftBracket => "["
  | rightBracket => "]"
  | comma => ","
  | dot => "."
  | colon => ":"
  | atSign => "@"
  | arrow => "->"
  | assign => "="
  | plusAssign => "+="
  | minusAssign => "-="
  | starAssign => "*="
  | slashAssign => "/="
  | equalEqual => "=="
  | notEqual => "!="
  | less => "<"
  | lessEqual => "<="
  | greater => ">"
  | greaterEqual => ">="
  | andAnd => "&&"
  | orOr => "||"
  | plus => "+"
  | minus => "-"
  | star => "*"
  | slash => "/"
  | percent => "%"
  | bang => "!"

def ofPair? : Char → Char → Option Punct
  | '-', '>' => some arrow
  | '=', '=' => some equalEqual
  | '!', '=' => some notEqual
  | '<', '=' => some lessEqual
  | '>', '=' => some greaterEqual
  | '&', '&' => some andAnd
  | '|', '|' => some orOr
  | '+', '=' => some plusAssign
  | '-', '=' => some minusAssign
  | '*', '=' => some starAssign
  | '/', '=' => some slashAssign
  | _, _ => none

def ofChar? : Char → Option Punct
  | '\x7b' => some leftBrace
  | '\x7d' => some rightBrace
  | '(' => some leftParen
  | ')' => some rightParen
  | '[' => some leftBracket
  | ']' => some rightBracket
  | ',' => some comma
  | '.' => some dot
  | ':' => some colon
  | '@' => some atSign
  | '=' => some assign
  | '<' => some less
  | '>' => some greater
  | '+' => some plus
  | '-' => some minus
  | '*' => some star
  | '/' => some slash
  | '%' => some percent
  | '!' => some bang
  | _ => none

end Punct

inductive Token where
  | ident (name : String)
  | int (digits : String)
  | hex (digits : String)
  | str (text : String)
  | keyword (word : Keyword)
  | punct (mark : Punct)
deriving DecidableEq, Repr

namespace Token

def text : Token → String
  | ident name => name
  | int digits => digits
  | hex digits => "0x" ++ digits
  | str text => "\"" ++ text ++ "\""
  | keyword word => word.spelling
  | punct mark => mark.spelling

end Token

structure Lexeme where
  token : Token
  span : Span
deriving DecidableEq, Repr

end Covenant
