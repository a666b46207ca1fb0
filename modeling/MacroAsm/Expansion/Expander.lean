import MacroAsm.Expansion.Run

/-!
# MacroAsm.Expansion.Expander

Expanding one program after another with the same settings.  Each program brings
its own macros; the diagnostics of all of them are kept together.
-/

namespace MacroAsm

/-- An expander: its settings, the diagnostics of all its runs, and of the last one
its figures, its macros and the bad calls that it has reported. -/
structure Expander where
  settings : Settings := {}
  ledger : Ledger Diagnostic := {}
  passes : Nat := 0
  calls : Nat := 0
  table : Table := []
  sightings : List Expansion.Sighting := []

/-- What an expander gives back: itself, what happened, and the instructions or
the reason to give up. -/
structure Expanded where
  expander : Expander
  events : List Event
  outcome : Except Diagnostic (List Instruction)

namespace Expander

/-- Expand a program.  Its own declarations are the ones in effect, no bad call
counts as reported yet, and diagnostics go to the ledger. -/
def expand (e : Expander) (program : Program) : Expanded :=
  let (table, warnings) := Table.collect program
  let start : Expansion.State :=
    { ledger := warnings.foldl Ledger.addWarning e.ledger
      sightings := []
      calls := 0 }
  let run := Expansion.run e.settings table start program
  let events := run.state.events.toList
  { expander :=
      { e with
        ledger := run.state.ledger
        passes := run.passes
        calls := run.state.calls
        table := table
        sightings := run.state.sightings }
    events :=
      match run.outcome with
      | .error _ => events
      | .ok is => events ++ [.expanded run.passes run.state.calls is.length]
    outcome := run.outcome }

end Expander

end MacroAsm
