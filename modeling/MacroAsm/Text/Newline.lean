/-!
# MacroAsm.Text.Newline

Line ends of files.  Whether lines end in LF, CR LF or CR, they are read as
ending in LF.
-/

namespace MacroAsm.Text

/-- Characters with every line end written as a line feed. -/
def unifyNewlinesIn : List Char → List Char
  | '\r' :: '\n' :: rest => '\n' :: unifyNewlinesIn rest
  | '\r' :: rest => '\n' :: unifyNewlinesIn rest
  | c :: rest => c :: unifyNewlinesIn rest
  | [] => []

/-- A text with every line end written as a line feed. -/
def unifyNewlines (text : String) : String :=
  String.ofList (unifyNewlinesIn text.toList)

end MacroAsm.Text
