import MacroAsm.Diagnostic
import MacroAsm.Event

/-!
# MacroAsm.Diagnostic.Ledger

What went wrong during a run, kept in the order in which it came up, so that the
user hears of everything at once.  A run enters its diagnostics, but a ledger takes
anything that can be put into words.
-/

namespace MacroAsm

/-- Collected errors and warnings.  After `capacity` errors it is time to
stop. -/
structure Ledger (α : Type) where
  capacity : Int := 100
  errors : Array α := #[]
  warnings : Array α := #[]

namespace Ledger

variable {α : Type}

/-- Enter an error. -/
def addError (ledger : Ledger α) (entry : α) : Ledger α :=
  { ledger with errors := ledger.errors.push entry }

/-- Enter a warning. -/
def addWarning (ledger : Ledger α) (entry : α) : Ledger α :=
  { ledger with warnings := ledger.warnings.push entry }

/-- Whether there are as many errors as the ledger takes. -/
def isFull (ledger : Ledger α) : Bool := ledger.capacity ≤ (ledger.errors.size : Int)

/-- Enter an error, and stop if the ledger is full then. -/
def addOrStop (ledger : Ledger α) (entry : α) : Ledger α × Option Diagnostic :=
  let ledger := ledger.addError entry
  (ledger, if ledger.isFull then some (.tooMany ledger.capacity) else none)

/-- The same ledger with nothing in it. -/
def clear (ledger : Ledger α) : Ledger α := { capacity := ledger.capacity }

/-- Whether there is any error. -/
def hasErrors (ledger : Ledger α) : Bool := !ledger.errors.isEmpty

/-- Whether there is any warning. -/
def hasWarnings (ledger : Ledger α) : Bool := !ledger.warnings.isEmpty

/-- A number of things, in words. -/
def counted (n : Nat) (noun : String) : String :=
  toString n ++ " " ++ (if n = 1 then noun else noun ++ "s")

/-- All entries in the given words, errors first, and their numbers. -/
def report (text : α → String) (ledger : Ledger α) : String :=
  let errors := ledger.errors.toList.flatMap fun entry => [text entry, ""]
  let warnings :=
    if ledger.hasWarnings then
      "Warnings:" :: ledger.warnings.toList.map fun entry => "  " ++ text entry
    else []
  let totals :=
    "\n" ++ counted ledger.errors.size "error" ++ ", " ++ counted ledger.warnings.size "warning"
  "\n".intercalate (errors ++ warnings ++ [totals])

/-- All entries in the given words as lines of a log, warnings first. -/
def logLines (text : α → String) (ledger : Ledger α) : List (Level × String) :=
  (ledger.warnings.toList.map fun entry => (.warning, text entry)) ++
    ledger.errors.toList.map fun entry => (.error, text entry)

end Ledger

end MacroAsm
