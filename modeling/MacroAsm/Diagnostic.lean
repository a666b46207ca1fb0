import MacroAsm.Source.Location
import MacroAsm.Text.Quoted
import MacroAsm.Text.Similar

/-!
# MacroAsm.Diagnostic

Diagnostics: what is wrong with a program, where, how bad it is and what might
help.  The cause decides the message (`Cause.message`); `Diagnostic.text` lays a
diagnostic out for a reader:

```text
file:line:column: severity: message
    the source line
        ^
hint: what might help
```
-/

namespace MacroAsm

/-- How bad a diagnostic is. -/
inductive Severity where
  | error
  | warning
  | named (name : String)
deriving DecidableEq, Repr

/-- The word for a severity. -/
def Severity.text : Severity → String
  | error => "error"
  | warning => "warning"
  | named name => name

/-- What is wrong. -/
inductive Cause where
  /-- The source cannot be read. -/
  | malformed (text : String)
  /-- A macro is misused in some way that has no cause of its own. -/
  | misuse (text : String)
  /-- Anything else about the source. -/
  | general (text : String)
  /-- More errors than the reader wants to hear of. -/
  | tooMany (text : String)
  /-- A call names no declared macro; some declared names are close to it. -/
  | undeclared (name : String) (similar : List String)
  /-- A call gives another number of arguments than its macro takes. -/
  | arity (name : String) (expected given : Int)
  /-- A name is declared again. -/
  | duplicate (name : String) (first : Option Location)
  /-- Calls are left over after the last pass, or, when a bound on the expanded
  calls is given, that bound is passed. -/
  | endless (passes : Int) (pending : List String) (bound : Option Int)
deriving DecidableEq, Repr

namespace Cause

/-- The words for a cause. -/
def message : Cause → String
  | malformed text => text
  | misuse text => text
  | general text => text
  | tooMany text => text
  | undeclared name _ => "call to undeclared macro " ++ Text.mention name
  | arity name expected given =>
    "macro " ++ Text.mention name ++ " takes " ++ toString expected ++
      (if expected = 1 then " argument" else " arguments") ++
      " but " ++ toString given ++ " given"
  | duplicate name _ => "duplicate macro " ++ Text.mention name ++ " is ignored"
  | endless passes _ none =>
    "macro expansion did not terminate after " ++ toString passes ++ " passes"
  | endless passes _ (some bound) =>
    "macro expansion did not terminate: more than " ++ toString bound ++
      " calls expanded in " ++ toString passes ++ " passes"

end Cause

/-- A cause with the place it concerns, the source line there, and a hint. -/
structure Diagnostic where
  cause : Cause
  severity : Severity := .error
  location : Option Location := none
  hint : Option String := none
  sourceLine : Option String := none
deriving DecidableEq, Repr

namespace Diagnostic

/-! ## Building diagnostics -/

/-- A call at `location` to a name that is not among the `known` ones. -/
def undeclared (name : String) (location : Option Location) (known : List String) : Diagnostic :=
  let similar := Text.Similar.closest name known
  let question := "did you mean " ++ Text.mentions similar ++ "?"
  { cause := .undeclared name similar
    location := location
    hint := if similar.isEmpty then none else some question }

/-- A call at `location` with a wrong number of arguments. -/
def arity (name : String) (expected given : Int) (location declaredAt : Option Location) :
    Diagnostic :=
  { cause := .arity name expected given
    location := location
    hint := declaredAt.map fun place => Text.mention name ++ " is declared at " ++ place.text }

/-- A second declaration of a name.  It is only a warning. -/
def duplicate (name : String) (location first : Option Location) : Diagnostic :=
  { cause := .duplicate name first
    severity := .warning
    location := location
    hint := first.map fun place => Text.mention name ++ " was first declared at " ++ place.text }

/-- Names in order, each once. -/
def distinctNames (names : List String) : List String :=
  (names.mergeSort fun x y => decide (x ≤ y)).eraseReps

/-- An expansion that was given up, with the calls that were left. -/
def endless (passes : Int) (pending : List String) (bound : Option Int) : Diagnostic :=
  let names := distinctNames pending
  { cause := .endless passes names bound
    hint := some ("check for recursive calls among " ++ Text.mentions names) }

/-- The error that stops a run after `capacity` errors. -/
def tooMany (capacity : Int) : Diagnostic :=
  { cause := .tooMany ("Too many errors (" ++ toString capacity ++ "), stopping") }

/-- Add a remark to the hint. -/
def remark (d : Diagnostic) (note : String) : Diagnostic :=
  match d.hint with
  | none => { d with hint := some note }
  | some hint => { d with hint := some (if hint.isEmpty then note else hint ++ "; " ++ note) }

/-! ## Layout -/

/-- The words for what is wrong. -/
def message (d : Diagnostic) : String := d.cause.message

/-- The first line: place, severity and message. -/
def headline (d : Diagnostic) : String :=
  let body := d.severity.text ++ ": " ++ d.message
  match d.location with
  | some place => place.text ++ ": " ++ body
  | none => body

/-- The source line, and under it a caret at the column if there is such a
column. -/
def excerpt (d : Diagnostic) : List String :=
  match d.sourceLine, d.location with
  | some line, some place =>
    ("    " ++ line) ::
      if 0 < place.column then
        [String.ofList (List.replicate (3 + place.column.toNat) ' ' ++ ['^'])]
      else []
  | _, _ => []

/-- The hint, if there is one. -/
def advice (d : Diagnostic) : List String :=
  match d.hint with
  | some hint => if hint.isEmpty then [] else ["hint: " ++ hint]
  | none => []

/-- A diagnostic in full. -/
def text (d : Diagnostic) : String :=
  "\n".intercalate (d.headline :: d.excerpt ++ d.advice)

end Diagnostic

end MacroAsm
