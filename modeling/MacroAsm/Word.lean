import MacroAsm.Opcode

/-!
# MacroAsm.Word

The kinds of words.  A word is a run of letters, digits, `_` and `$`, all
ASCII; what it may stand for depends on the characters it is made of.
-/

namespace MacroAsm.Word

/-- ASCII letters and the underscore. -/
def isNameChar (c : Char) : Bool := c.isAlpha || c == '_'

/-- Characters of labels. -/
def isLabelChar (c : Char) : Bool := c.isAlphanum || c == '_'

/-- Characters of words. -/
def isChar (c : Char) : Bool := c.isAlphanum || c == '_' || c == '$'

/-- Names of macros, parameters and arguments: letters and underscores only. -/
def isName (word : String) : Bool :=
  !word.isEmpty && word.toList.all isNameChar

/-- What may label an instruction: letters, digits and underscores. -/
def isLabel (word : String) : Bool :=
  !word.isEmpty && word.toList.all isLabelChar

/-- Whether a word names an operation. -/
def isOpcode (word : String) : Bool := (Opcode.ofWord? word).isSome

end MacroAsm.Word
