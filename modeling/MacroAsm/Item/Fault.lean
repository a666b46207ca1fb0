import MacroAsm.Opcode
import MacroAsm.Token
import MacroAsm.Token.Scan

/-!
# MacroAsm.Item.Fault

Why a text cannot be read as a program.  Each fault has its words and, where
there is something to say, a hint.
-/

namespace MacroAsm

/-- What a name in parentheses is for. -/
inductive NameRole where
  | parameter
  | argument
deriving DecidableEq, Repr

/-- The word for a role. -/
def NameRole.text : NameRole → String
  | parameter => "parameter"
  | argument => "argument"

/-- A reason to stop reading. -/
inductive Fault where
  /-- A character that is part of no token. -/
  | foreign (foreign : Foreign)
  /-- The input ends inside a body that was opened at a place. -/
  | openBody (opened : Location)
  /-- A closing brace with nothing to close. -/
  | strayBrace
  /-- A token that starts no item. -/
  | unexpected (found : Lexeme)
  /-- A word in label position that is no label. -/
  | badLabel (label : String)
  /-- Something other than a word after a label. -/
  | noOpcode (label : String) (found : Lexeme)
  /-- A word after a label that is no opcode. -/
  | badOpcode (label word : String)
  /-- A macro name with characters that names do not have. -/
  | badMacroName (name : String)
  /-- A parameter or argument with characters that names do not have. -/
  | badName (role : NameRole) (name : String)
  /-- Something other than a name in a list of names. -/
  | noName (role : NameRole) (found : Lexeme)
  /-- Something other than a comma or the end after a name in a list. -/
  | noSeparator (role : NameRole) (found : Lexeme)
  /-- Something other than `=` after the parameters of a macro. -/
  | noEquals (name : String) (found : Lexeme)
  /-- Something other than a body after the `=` of a macro. -/
  | noBody (name : String) (found : Lexeme)
deriving DecidableEq, Repr

namespace Fault

/-- The words for a fault. -/
def message : Fault → String
  | foreign .bareBang => "unexpected character '!' (macro calls are written NAME!(...))"
  | foreign (.character c) => "unexpected character " ++ Text.quoted (String.singleton c)
  | openBody _ => "unterminated macro body, expected '\x7d'"
  | strayBrace => "unexpected '\x7d' outside of a macro body"
  | unexpected found => "unexpected " ++ found.describe
  | badLabel label => "invalid label " ++ Text.mention label
  | noOpcode label found =>
    "expected opcode after label " ++ Text.mention label ++ ", found " ++ found.describe
  | badOpcode _ word => "unknown opcode " ++ Text.mention word
  | badMacroName name => "invalid macro name " ++ Text.mention name
  | badName role name => "invalid " ++ role.text ++ " name " ++ Text.mention name
  | noName role found => "expected " ++ role.text ++ " name, found " ++ found.describe
  | noSeparator role found =>
    "expected ',' or ')' in " ++ role.text ++ " list, found " ++ found.describe
  | noEquals name found =>
    "expected '=' after parameters of macro " ++ Text.mention name ++ ", found " ++ found.describe
  | noBody name found =>
    "expected '\x7b' to open body of macro " ++ Text.mention name ++ ", found " ++ found.describe

/-- What might help against a fault. -/
def hint? : Fault → Option String
  | openBody opened => some ("the body opened at " ++ opened.text ++ " is never closed")
  | badLabel _ => some "labels use letters, digits and underscores"
  | noOpcode .. => some Opcode.reminder
  | badOpcode label _ => some (Text.mention label ++ " was read as a label; " ++ Opcode.reminder)
  | badMacroName _ => some "identifiers use only letters and underscores"
  | badName .. => some "identifiers use only letters and underscores"
  | _ => none

end Fault

end MacroAsm
