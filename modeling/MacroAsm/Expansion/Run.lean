import MacroAsm.Diagnostic.Ledger
import MacroAsm.Event
import MacroAsm.Expansion.Bindings
import MacroAsm.Expansion.Limits
import MacroAsm.Expansion.Table

/-!
# MacroAsm.Expansion.Run

Expanding a program in passes.  A pass keeps instructions, drops comments and
declarations, and puts the body of its macro in place of every call; passes go on
until no calls are left.  A call that cannot be expanded vanishes and leaves a
diagnostic.  Every item remembers the top-level call that it came from.
-/

namespace MacroAsm

/-- How an expansion goes about its work.  In a strict one, bad calls are errors
and not warnings. -/
structure Settings where
  strict : Bool := false
  limits : Limits := {}

namespace Expansion

/-- An item and the place of the top-level call that it came from; there is none
for an item that is itself at top level. -/
structure Traced where
  item : Item
  origin : Option Location

/-- Items that came from a place. -/
def trace (origin : Option Location) (items : List Item) : List Traced :=
  items.map fun item => ⟨item, origin⟩

/-- A bad call that was reported: its name, its place, and the top-level call it
came from. -/
structure Sighting where
  name : String
  place : Location
  origin : Option Location
deriving DecidableEq, Repr

/-- What a run keeps from call to call. -/
structure State where
  ledger : Ledger Diagnostic
  sightings : List Sighting := []
  calls : Nat := 0
  events : Array Event := #[]

/-- Why a call cannot be expanded. -/
inductive Obstacle where
  | undeclared
  | arity (declared : Declaration)

/-- The macro of a call, if the call can be expanded. -/
def resolve (table : Table) (call : Call) : Except Obstacle Declaration :=
  match table.get? call.name with
  | none => .error .undeclared
  | some d => if call.arguments.length = d.arity then .ok d else .error (.arity d)

/-- The diagnostic of a bad call. -/
def Obstacle.diagnostic (table : Table) (call : Call) : Obstacle → Diagnostic
  | undeclared => .undeclared call.name call.location table.names
  | arity d => .arity call.name d.arity call.arguments.length call.location d.location

/-- The diagnostic with a note on the top-level call that led to it. -/
def withOrigin (origin : Option Location) (d : Diagnostic) : Diagnostic :=
  match origin with
  | none => d
  | some place => d.remark ("in the expansion of the call at " ++ place.text)

/-- Enter a diagnostic and go on, unless it is an error too many. -/
def State.enter (strict : Bool) (d : Diagnostic) (s : State) : State × Option Diagnostic :=
  let s := { s with events := s.events.push (.droppedCall d.message) }
  if strict then
    let (ledger, stop) := s.ledger.addOrStop d
    ({ s with ledger := ledger }, stop)
  else
    ({ s with ledger := s.ledger.addWarning { d with severity := .warning } }, none)

/-- Report a bad call.  A call with a place is reported once for each top-level
call that it came from. -/
def State.report (settings : Settings) (call : Call) (origin : Option Location)
    (d : Diagnostic) (s : State) : State × Option Diagnostic :=
  match call.location with
  | none => s.enter settings.strict (withOrigin origin d)
  | some place =>
    let sighting : Sighting := ⟨call.name, place, origin⟩
    if s.sightings.contains sighting then (s, none)
    else
      { s with sightings := sighting :: s.sightings }.enter settings.strict (withOrigin origin d)

/-- Expand one call during a pass: the items that take its place, or the reason
to give up. -/
def expandCall (settings : Settings) (table : Table) (pass : Nat) (call : Call)
    (origin : Option Location) (s : State) : State × Except Diagnostic (List Item) :=
  match resolve table call with
  | .error obstacle =>
    match s.report settings call origin (obstacle.diagnostic table call) with
    | (s, none) => (s, .ok [])
    | (s, some d) => (s, .error d)
  | .ok d =>
    let s := { s with calls := s.calls + 1 }
    if settings.limits.calls < s.calls then
      (s, .error (.endless pass [call.name] (some settings.limits.calls)))
    else (s, .ok (d.body.map (Bindings.ofLists d.parameters call.arguments).item))

/-- One pass over the items that are left, with the items it has put out so
far. -/
def pass (settings : Settings) (table : Table) (number : Nat) (out : Array Traced) :
    List Traced → State → State × Except Diagnostic (Array Traced)
  | [], s => (s, .ok out)
  | ⟨item, origin⟩ :: rest, s =>
    match item with
    | .instruction i => pass settings table number (out.push ⟨.instruction i, origin⟩) rest s
    | .call c =>
      match expandCall settings table number c origin s with
      | (s, .error d) => (s, .error d)
      | (s, .ok items) =>
        pass settings table number (out ++ trace (origin.or c.location) items) rest s
    | _ => pass settings table number out rest s

/-- The calls among traced items. -/
def pending (items : List Traced) : List Call :=
  items.filterMap fun t => t.item.call?

/-- What a run comes to: how many passes it made, what it kept, and the
instructions or the reason to give up. -/
structure Run where
  passes : Nat
  state : State
  outcome : Except Diagnostic (List Instruction)

/-- Make the pass with a given number, and, while calls are left, up to `more`
passes after it. -/
def passes (settings : Settings) (table : Table) (number : Nat) (items : List Traced)
    (s : State) (more : Nat) : Run :=
  match pass settings table number #[] items s with
  | (s, .error d) => ⟨number, s, .error d⟩
  | (s, .ok out) =>
    let items := out.toList
    let calls := pending items
    if calls.isEmpty then
      ⟨number, s, .ok (items.filterMap fun t => t.item.instruction?)⟩
    else
      match more with
      | 0 => ⟨number, s, .error (.endless number (calls.map (·.name)) none)⟩
      | more + 1 => passes settings table (number + 1) items s more

/-- Expand a program with the macros of a table. -/
def run (settings : Settings) (table : Table) (s : State) (program : Program) : Run :=
  passes settings table 1 (trace none program) s (settings.limits.passes - 1)

end Expansion

end MacroAsm
