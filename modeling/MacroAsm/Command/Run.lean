import MacroAsm.Command.Config
import MacroAsm.Command.Exit
import MacroAsm.Session

/-!
# MacroAsm.Command.Run

The command as a function of its arguments, its standard input and the files
that it finds, and of how deep declarations can be nested before it gives up.
Whatever the command says is plain text; only the log repeats file names as they
are.
-/

namespace MacroAsm.Command

/-- What a run of the command leaves behind. -/
structure Outcome where
  exit : ExitCode
  out : String := ""
  err : String := ""
  store : Store

/-- Events as lines on standard error, if the user wants to see them. -/
def log (verbose : Bool) (events : List Event) : String :=
  if verbose then String.join (events.map fun e => e.line ++ "\n") else ""

/-- The conversion that a configuration asks for.  A path that comes down to `-`
stands for standard input. -/
def source (deepest : Nat) (config : Config) (session : Session) (input : ByteArray)
    (store : Store) : Step String :=
  if Path.normal config.input = "-" then
    match Session.textOf input with
    | .error f => ⟨session, [], .error f⟩
    | .ok text => session.convertWithin deepest "<stdin>" text
  else session.convertFileBy (Session.convertWithin deepest) store config.input

/-- All diagnostics of a session, if there are any. -/
def reportText (session : Session) : String :=
  if session.ledger.hasErrors || session.ledger.hasWarnings then
    Text.plain (session.ledger.report Diagnostic.text) ++ "\n"
  else ""

/-- The note that a listing was written. -/
def note (session : Session) (path : String) : String :=
  Text.plain ("Wrote " ++ toString session.program.length ++ " instructions to " ++
    Path.normal path) ++ "\n"

/-- The end of a run that failed. -/
def fail (failure : Failure) (err : String) (store : Store) : Outcome :=
  { exit := exitCodeOf failure
    err := err ++ announcement (some "Preprocessing") failure ++ "\n"
    store := store }

/-- Write the listing to a file. -/
def deliver (config : Config) (session : Session) (path err : String) (store : Store) : Outcome :=
  match session.write store path with
  | (store, ⟨_, events, .error f⟩) => fail f (err ++ log config.verbose events) store
  | (store, ⟨session, events, .ok _⟩) =>
    let note := if config.verbose then note session path else ""
    { exit := .success, err := err ++ log config.verbose events ++ note, store := store }

/-- Convert as configured. -/
def perform (deepest : Nat) (config : Config) (input : ByteArray) (store : Store) : Outcome :=
  let session := Session.new
    { strict := config.strict, limits := config.limits, separator := config.separator }
  match source deepest config session input store with
  | ⟨_, events, .error f⟩ => fail f (log config.verbose events) store
  | ⟨session, events, .ok text⟩ =>
    let err := log config.verbose events ++ reportText session
    if session.ledger.hasErrors then { exit := .sourceError, err := err, store := store }
    else
      match config.output with
      | some path => deliver config session path err store
      | none => { exit := .success, out := Text.plain text, err := err, store := store }

/-- The exit code for a bad command line. -/
def exitCodeOfMisuse : Misuse → ExitCode
  | .badValue _ .notAPath => .sourceError
  | _ => .invalidArguments

/-- About how deep declarations can be nested in an ordinary run.  The number is an estimate; what
is proved of runs is proved for every depth. -/
def usualDepth : Nat := 328

/-- Run the command. -/
def run (deepest : Nat) (args : List String) (input : ByteArray) (store : Store) : Outcome :=
  match Arguments.read args >>= Request.ofArguments store with
  | .error misuse => { exit := exitCodeOfMisuse misuse, err := misuse.text, store := store }
  | .ok .help => { exit := .success, out := helpText, store := store }
  | .ok .version => { exit := .success, out := versionText, store := store }
  | .ok (.convert config) => perform deepest config input store

end MacroAsm.Command
