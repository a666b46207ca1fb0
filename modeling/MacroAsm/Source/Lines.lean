/-!
# MacroAsm.Source.Lines

Two ways to cut a text into lines.

* *Physical* lines end at a line feed only; positions of tokens count them.
* *Visual* lines end wherever a display breaks a line: at any Unicode line
  boundary, with CR LF taken as one.  A text that ends in a boundary has no
  further, empty line.
-/

namespace MacroAsm.Source

/-! ## Physical lines -/

/-- The lines of a text that ends lines at line feeds only.  There is always at
least one, and the last may be empty. -/
def physicalLines : List Char → List (List Char)
  | [] => [[]]
  | '\n' :: rest => [] :: physicalLines rest
  | c :: rest =>
    match physicalLines rest with
    | [] => [[c]]
    | line :: lines => (c :: line) :: lines

/-- The physical line with a number counted from one. -/
def physicalLine? (source : String) (number : Int) : Option String :=
  if number < 1 then none
  else (physicalLines source.toList)[(number - 1).toNat]?.map String.ofList

/-! ## Visual lines -/

/-- Characters that end a visual line. -/
def isLineBoundary (c : Char) : Bool :=
  c == '\n' || c == '\r' || c == '\x0b' || c == '\x0c' || c == '\x1c' || c == '\x1d' ||
    c == '\x1e' || c == '\u0085' || c == '\u2028' || c == '\u2029'

/-- The visual lines of a text whose current line began with the characters
`line`, last one first. -/
def visualLinesFrom (line : List Char) : List Char → List (List Char)
  | [] => if line.isEmpty then [] else [line.reverse]
  | '\r' :: '\n' :: rest => line.reverse :: visualLinesFrom [] rest
  | c :: rest =>
    if isLineBoundary c then line.reverse :: visualLinesFrom [] rest
    else visualLinesFrom (c :: line) rest

/-- The lines of a text as a display shows them. -/
def visualLines (source : String) : List String :=
  (visualLinesFrom [] source.toList).map String.ofList

/-- The visual line with a number counted from one. -/
def visualLine? (source : String) (number : Int) : Option String :=
  if number < 1 then none else (visualLines source)[(number - 1).toNat]?

end MacroAsm.Source
