import MacroAsm.Diagnostic
import MacroAsm.Item.Reader
import MacroAsm.Source.Lines

/-!
# MacroAsm.Program

From source text to program.  A fault becomes a diagnostic that quotes the
source: a character that fits nowhere is shown in its physical line, a token
that fits nowhere in the visual line of the same number.
-/

namespace MacroAsm

/-- A fault at a place, with the source line to show. -/
def Diagnostic.ofFault (fault : Fault) (place : Location) (line : Option String) : Diagnostic :=
  { cause := .malformed fault.message
    location := some place
    hint := fault.hint?
    sourceLine := line }

/-- The diagnostic of a scan that stopped at a place in a source text. -/
def Diagnostic.ofForeign (source : String) (place : Location) (foreign : Foreign) : Diagnostic :=
  .ofFault (.foreign foreign) place (Source.physicalLine? source place.line)

/-- An attempt to read a program: what happened on the way, and the program or
what is wrong with the source. -/
structure Parse where
  events : List Event
  outcome : Except Diagnostic Program

namespace Program

/-- Read a program from tokens.  Diagnostics quote the source if it is
known. -/
def ofTokens (file : String) (source : Option String) (tokens : List Token) : Parse :=
  let reading := Reader.read (.ofTokens file tokens)
  { events := reading.events
    outcome := reading.outcome.mapError fun halt =>
      .ofFault halt.fault halt.location
        (source.bind fun text => Source.visualLine? text halt.location.line) }

/-- Read a program from source text. -/
def ofSource (file source : String) : Parse :=
  match Token.scan file source with
  | ⟨_, some (place, foreign)⟩ => ⟨[], .error (.ofForeign source place foreign)⟩
  | ⟨tokens, none⟩ =>
    let parse := ofTokens file (some source) tokens
    match parse.outcome with
    | .error d => ⟨parse.events, .error d⟩
    | .ok program => ⟨parse.events ++ [.readItems program.length file], .ok program⟩

/-- Whether reading a source text comes to declarations that are nested deeper
than given, and what happens before. -/
def overrun? (deepest : Nat) (file source : String) : Option (List Event) :=
  match Token.scan file source with
  | ⟨_, some _⟩ => none
  | ⟨tokens, none⟩ =>
    let input := Reader.Input.ofTokens file tokens
    Reader.overrun deepest input.stop [] [] input.tokens

end Program

end MacroAsm
