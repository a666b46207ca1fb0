import MacroAsm.Source.Location
import MacroAsm.Text.Quoted

/-!
# MacroAsm.Token

Tokens: the smallest pieces of a source text that mean something, each with the
place where it starts.
-/

namespace MacroAsm

/-- Punctuation of the language. -/
inductive Mark where
  | openParen
  | closeParen
  | comma
  | equals
  | openBrace
  | closeBrace
  | callOpen
deriving DecidableEq, Repr

/-- The name of a mark. -/
def Mark.kind : Mark → String
  | openParen => "LPAREN"
  | closeParen => "RPAREN"
  | comma => "COMMA"
  | equals => "EQUALS"
  | openBrace => "LBRACE"
  | closeBrace => "RBRACE"
  | callOpen => "CALL_OPEN"

/-- How a mark is written. -/
def Mark.spelling : Mark → String
  | openParen => "("
  | closeParen => ")"
  | comma => ","
  | equals => "="
  | openBrace => "\x7b"
  | closeBrace => "\x7d"
  | callOpen => "!("

/-- What a token is.  A mark carries the text by which messages show it; in a
scanned token that is its spelling. -/
inductive Lexeme where
  | newline
  | endOfInput
  | word (text : String)
  | comment (text : String)
  | mark (mark : Mark) (text : String)
deriving DecidableEq, Repr

namespace Lexeme

/-- The name of a lexeme's kind. -/
def kind : Lexeme → String
  | newline => "NEWLINE"
  | endOfInput => "EOF"
  | word _ => "WORD"
  | comment _ => "COMMENT"
  | mark m _ => m.kind

/-- The names of all kinds. -/
def kinds : List String :=
  ["NEWLINE", "EOF", "WORD", "COMMENT", "LPAREN", "RPAREN", "COMMA", "EQUALS", "LBRACE", "RBRACE",
   "CALL_OPEN"]

/-- The text that a lexeme carries. -/
def text? : Lexeme → Option String
  | newline => none
  | endOfInput => none
  | word text => some text
  | comment text => some text
  | mark _ text => some text

/-- How a message names a lexeme that it did not expect. -/
def describe : Lexeme → String
  | newline => "end of line"
  | endOfInput => "end of input"
  | word text => Text.mention text
  | comment _ => "comment"
  | mark _ text => Text.mention text

end Lexeme

/-- A lexeme and the place where it starts. -/
structure Token where
  lexeme : Lexeme
  location : Location
deriving DecidableEq, Repr

/-- A token with its kind, its text and its place, the file left out. -/
def Token.text (t : Token) : String :=
  let value :=
    match t.lexeme.text? with
    | some text => Text.quoted text ++ ", "
    | none => ""
  "Token(" ++ t.lexeme.kind ++ ", " ++ value ++ toString t.location.line ++ ":" ++
    toString t.location.column ++ ")"

end MacroAsm
