/-!
# MacroAsm.Command.Switch

The options of the command.
-/

namespace MacroAsm.Command

/-- An option, whether it takes a value or not. -/
inductive Switch where
  | output
  | strict
  | maxPasses
  | maxExpansions
  | separator
  | verbose
  | version
  | help
deriving DecidableEq, Repr

namespace Switch

/-- Every option. -/
def all : List Switch :=
  [output, strict, maxPasses, maxExpansions, separator, verbose, version, help]

/-- The name of an option, dashes included. -/
def long : Switch → String
  | output => "--output"
  | strict => "--strict"
  | maxPasses => "--max-passes"
  | maxExpansions => "--max-expansions"
  | separator => "--separator"
  | verbose => "--verbose"
  | version => "--version"
  | help => "--help"

/-- The letter of an option that has one. -/
def letter? : Switch → Option Char
  | output => some 'o'
  | verbose => some 'v'
  | _ => none

/-- Whether an option takes a value. -/
def takesValue : Switch → Bool
  | output => true
  | maxPasses => true
  | maxExpansions => true
  | separator => true
  | _ => false

/-- Options that are answered at once, before any value is looked at. -/
def isInquiry : Switch → Bool
  | version => true
  | help => true
  | _ => false

/-- The option that is spelled out as a name. -/
def ofLong? (name : String) : Option Switch := all.find? fun s => s.long == name

/-- The option of a letter. -/
def ofLetter? (c : Char) : Option Switch := all.find? fun s => s.letter? == some c

/-- How messages name an option. -/
def title (s : Switch) : String :=
  match s.letter? with
  | some c => "'-" ++ String.singleton c ++ "' / '" ++ s.long ++ "'"
  | none => "'" ++ s.long ++ "'"

theorem mem_all (s : Switch) : s ∈ all := by
  cases s <;> decide

end Switch

end MacroAsm.Command
