import MacroAsm.Failure
import MacroAsm.Text.Plain

/-!
# MacroAsm.Command.Exit

How the command ends.  What went wrong is the fault of the source, of the way the
command was invoked, or of the command itself, and the exit code says which.
-/

namespace MacroAsm.Command

/-- Exit codes. -/
inductive ExitCode where
  | success
  | sourceError
  | invalidArguments
  | internalError
deriving DecidableEq, Repr

namespace ExitCode

/-- Every exit code. -/
def all : List ExitCode := [success, sourceError, invalidArguments, internalError]

/-- The number of an exit code. -/
def code : ExitCode → Nat
  | success => 0
  | sourceError => 1
  | invalidArguments => 2
  | internalError => 3

/-- The name of an exit code. -/
def name : ExitCode → String
  | success => "SUCCESS"
  | sourceError => "SOURCE_ERROR"
  | invalidArguments => "INVALID_ARGS"
  | internalError => "INTERNAL_ERROR"

end ExitCode

/-- The exit code that a failure calls for.  Files that do not exist or may not
be used and bad option values are matters of the invocation. -/
def exitCodeOf : Failure → ExitCode
  | .diagnosed _ => .sourceError
  | .troubled .missingFile _ => .invalidArguments
  | .troubled .deniedFile _ => .invalidArguments
  | .troubled .badParameter _ => .invalidArguments
  | .troubled _ _ => .internalError

/-- What is told about a failure, in plain text.  Diagnostics are told as they
are, after the name of the step that failed if there is one. -/
def announcement (failed : Option String) (failure : Failure) : String :=
  Text.plain <|
    match exitCodeOf failure with
    | .sourceError =>
      match failed with
      | some step => (if step.isEmpty then "" else step ++ " failed:\n") ++ failure.text
      | none => failure.text
    | .invalidArguments => "Error: " ++ failure.text
    | _ => "Internal error: " ++ failure.text

end MacroAsm.Command
