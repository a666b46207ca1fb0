/-!
# MacroAsm.Source.Location

Places in source texts.  A location names a file and a place in it by line and
column, both counted from one; locations that are built by hand may hold any
integers, so the two fields are integers.
-/

namespace MacroAsm

/-- A place in a source file. -/
structure Location where
  file : String
  line : Int
  column : Int
deriving DecidableEq, Repr, Inhabited

namespace Location

/-- The first character of a file. -/
def start (file : String) : Location := ⟨file, 1, 1⟩

/-- The place after a character: a line feed starts a new line, any other
character takes one column. -/
def next (here : Location) (c : Char) : Location :=
  if c = '\n' then { here with line := here.line + 1, column := 1 }
  else { here with column := here.column + 1 }

/-- The place after a run of characters. -/
def advance (here : Location) (text : List Char) : Location :=
  text.foldl next here

/-- The written form `file:line:column`. -/
def text (here : Location) : String :=
  here.file ++ ":" ++ toString here.line ++ ":" ++ toString here.column

@[simp] theorem advance_nil (here : Location) : here.advance [] = here := rfl

@[simp] theorem advance_cons (here : Location) (c : Char) (cs : List Char) :
    here.advance (c :: cs) = (here.next c).advance cs := rfl

theorem advance_append (here : Location) (xs ys : List Char) :
    here.advance (xs ++ ys) = (here.advance xs).advance ys := by
  simp [advance, List.foldl_append]

/-- Moving on stays in the same file. -/
@[simp] theorem file_next (here : Location) (c : Char) : (here.next c).file = here.file := by
  unfold next; split <;> rfl

end Location

end MacroAsm
