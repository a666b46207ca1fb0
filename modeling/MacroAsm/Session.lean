import MacroAsm.Expansion.Expander
import MacroAsm.Failure
import MacroAsm.Listing
import MacroAsm.Program
import MacroAsm.Store
import MacroAsm.Text.Newline
import MacroAsm.Text.Utf8

/-!
# MacroAsm.Session

Converting sources one after another.  A session remembers the last one: its
instructions, its listing and its diagnostics.  A source that cannot be read or
expanded leaves nothing but its diagnostics behind; a file that cannot be opened
leaves everything as it was.
-/

namespace MacroAsm

/-- What a session is to do. -/
structure Options where
  strict : Bool := false
  limits : Limits := {}
  separator : String := " "
  capacity : Int := 100

/-- Options as numbers and texts that have not been looked at yet. -/
structure RawOptions where
  strict : Bool := false
  passes : Int := 100
  calls : Int := 100000
  separator : String := " "
  capacity : Int := 100

/-- Check the limits and look up the separator. -/
def Options.ofRaw (raw : RawOptions) : Except LimitFault Options :=
  (Limits.ofInts raw.passes raw.calls).map fun limits =>
    { strict := raw.strict
      limits := limits
      separator := separatorNamed raw.separator
      capacity := raw.capacity }

/-- The expander that a session with given options starts with. -/
def Options.expander (options : Options) : Expander :=
  { settings := ⟨options.strict, options.limits⟩, ledger := { capacity := options.capacity } }

/-- The state of a session.  Its expander lives as long as the session does, and holds the
diagnostics. -/
structure Session where
  expander : Expander
  separator : String
  program : List Instruction := []
  listing : Option String := none

/-- What a step of a session gives: the new state, what happened, and the
result. -/
structure Step (α : Type) where
  session : Session
  events : List Event
  outcome : Except Failure α

namespace Session

/-- A session that has converted nothing yet. -/
def new (options : Options) : Session :=
  { expander := options.expander, separator := options.separator }

/-- The diagnostics of the last source. -/
def ledger (s : Session) : Ledger Diagnostic := s.expander.ledger

/-- The session without anything to show of its last source. -/
def reset (s : Session) : Session :=
  { s with
    expander := { s.expander with ledger := s.ledger.clear }
    program := []
    listing := none }

/-- Convert a source text. -/
def convert (s : Session) (file source : String) : Step String :=
  let s := s.reset
  let parse := Program.ofSource file source
  match parse.outcome with
  | .error d => ⟨s, parse.events, .error (.diagnosed d)⟩
  | .ok program =>
    let expanded := s.expander.expand program
    let s := { s with expander := expanded.expander }
    let events := parse.events ++ .parsed program.length file :: expanded.events
    match expanded.outcome with
    | .error d => ⟨s, events, .error (.diagnosed d)⟩
    | .ok is =>
      let listing := Listing.ofInstructions s.separator is
      { session := { s with program := is, listing := some listing }
        events := events ++ [.converted is.length expanded.expander.passes]
        outcome := .ok listing }

/-- Convert a source text, unless its declarations are nested deeper than can be
read. -/
def convertWithin (deepest : Nat) (s : Session) (file source : String) : Step String :=
  match Program.overrun? deepest file source with
  | some events => ⟨s.reset, events, .error .tooDeep⟩
  | none => s.convert file source

/-- The source text that bytes stand for: UTF-8, with line ends of any kind. -/
def textOf (bytes : ByteArray) : Except Failure String :=
  match Text.Utf8.decode bytes with
  | .error f => .error (.ofEncoding f)
  | .ok text => .ok (Text.unifyNewlines text)

/-- The source text in a file. -/
def sourceOf (store : Store) (path : String) : Except Failure String :=
  match store.read path with
  | .error f => .error (.ofFile f)
  | .ok bytes => textOf bytes

/-- Convert a file, given how to convert its text. -/
def convertFileBy (convert : Session → String → String → Step String) (s : Session)
    (store : Store) (path : String) : Step String :=
  let path := Path.normal path
  match sourceOf store path with
  | .error f => ⟨s, [.opened path], .error f⟩
  | .ok source =>
    let step := convert s path source
    { step with events := .opened path :: step.events }

/-- Convert a file. -/
def convertFile (s : Session) (store : Store) (path : String) : Step String :=
  convertFileBy convert s store path

/-- The listing of the last source. -/
def output (s : Session) : Except Failure String :=
  match s.listing with
  | some listing => .ok listing
  | none => .error .nothingYet

/-- Write the last listing to a file. -/
def write (s : Session) (store : Store) (path : String) : Store × Step Unit :=
  match s.output with
  | .error f => (store, ⟨s, [], .error f⟩)
  | .ok listing =>
    let path := Path.normal path
    match store.write path (Text.Utf8.encode listing) with
    | (store, .error f) => (store, ⟨s, [], .error (.ofFile f)⟩)
    | (store, .ok _) => (store, ⟨s, [.wrote path], .ok ()⟩)

end Session

/-! ## Single conversions -/

/-- Expand one program.  An expansion that comes to its end also leaves a log of its
diagnostics. -/
def expand (strict : Bool) (passes calls : Int) (program : Program) :
    Except Failure (List Instruction × List (Level × String)) :=
  match Limits.ofInts passes calls with
  | .error f => .error (.ofLimit f)
  | .ok limits =>
    let expanded := Expander.expand { settings := ⟨strict, limits⟩ } program
    match expanded.outcome with
    | .error d => .error (.diagnosed d)
    | .ok is => .ok (is, expanded.expander.ledger.logLines Diagnostic.text)

/-- A step's result, or the first error of its ledger if there is one. -/
def Step.firstError (step : Step String) : Except Failure String :=
  match step.outcome, step.session.ledger.errors[0]? with
  | .ok _, some d => .error (.diagnosed d)
  | outcome, _ => outcome

/-- Convert one source text. -/
def convert (options : Options) (file source : String) : Except Failure String :=
  ((Session.new options).convert file source).firstError

/-- Convert one file. -/
def convertFile (options : Options) (store : Store) (path : String) : Except Failure String :=
  ((Session.new options).convertFile store path).firstError

end MacroAsm
