import MacroAsm.Text.Plain
import MacroAsm.Text.Quoted

/-!
# MacroAsm.Command.Usage

What the command says about its own use: the help, the version, and complaints
about a command line.
-/

namespace MacroAsm.Command

/-- The version that the command reports. -/
def version : String := "1.0.0"

/-- The answer to the question for the version. -/
def versionText : String := "lmcpp, version " ++ version ++ "\n"

/-- How the command is used, in one line. -/
def usageLine : String := "Usage: lmcpp [OPTIONS] [INPUT_FILE]\n"

/-- The help, line by line. -/
def helpLines : List String :=
  ["",
   "  Expand macros in Little Man Computer assembly.",
   "",
   "  INPUT_FILE is the macro assembly source; omit it or pass '-' to read standard",
   "  input.",
   "",
   "  Macros are declared and called like this:",
   "      IN_STO(location) = \x7b",
   "          IN",
   "          STO location",
   "      \x7d",
   "      IN_STO!(count)",
   "",
   "  Examples:",
   "      lmcpp prog.lmc               # Print expanded program",
   "      lmcpp prog.lmc -o prog.asm   # Write expanded program",
   "      lmcpp --strict prog.lmc      # Fail on bad macro calls",
   "",
   "Options:",
   "  -o, --output FILE               Output file (default: standard output)",
   "  --strict                        Treat calls to undeclared macros and argument",
   "                                  count mismatches as errors instead of",
   "                                  warnings.",
   "  --max-passes INTEGER RANGE      Maximum macro expansion passes before",
   "                                  reporting a non-terminating (recursive)",
   "                                  expansion.  [default: 100; x>=1]",
   "  --max-expansions INTEGER RANGE  Maximum macro calls expanded in one run before",
   "                                  reporting a non-terminating (recursive)",
   "                                  expansion.  [default: 100000; x>=1]",
   "  --separator [space|tab]         Separator between label, opcode and operand.",
   "                                  [default: space]",
   "  -v, --verbose                   Verbose output",
   "  --version                       Show the version and exit.",
   "  --help                          Show this message and exit."]

/-- The answer to the question for help. -/
def helpText : String := usageLine ++ String.join (helpLines.map (· ++ "\n"))

/-- What is wrong with the value of a parameter. -/
inductive BadValue where
  | notInteger (text : String)
  | tooSmall (value : Int)
  | notAChoice (text : String) (choices : List String)
  | noFile (path : String)
  | folder (path : String)
  | unreadable (path : String)
  /-- A text that is no path. -/
  | notAPath
deriving DecidableEq, Repr

/-- The words for what is wrong with a value. -/
def BadValue.message : BadValue → String
  | notInteger text => Text.quoted text ++ " is not a valid integer range."
  | tooSmall value => toString value ++ " is not in the range x>=1."
  | notAChoice text choices =>
    Text.quoted text ++ " is not one of " ++ ", ".intercalate (choices.map Text.quoted) ++ "."
  | noFile path => "File " ++ Text.quoted path ++ " does not exist."
  | folder path => "File " ++ Text.quoted path ++ " is a directory."
  | unreadable path => "File " ++ Text.quoted path ++ " is not readable."
  | notAPath => ""

/-- What is wrong with a command line. -/
inductive Misuse where
  | unknownOption (name : String) (similar : List String)
  | missingValue (name : String)
  | unwantedValue (name : String)
  | badValue (parameter : String) (problem : BadValue)
  | extraArguments (arguments : List String)
deriving DecidableEq, Repr

namespace Misuse

/-- The words for what is wrong with a command line. -/
def message : Misuse → String
  | unknownOption name [] => "No such option: " ++ name
  | unknownOption name [one] => "No such option: " ++ name ++ " Did you mean " ++ one ++ "?"
  | unknownOption name several =>
    "No such option: " ++ name ++ " (Possible options: " ++
      ", ".intercalate (several.mergeSort fun x y => decide (x ≤ y)) ++ ")"
  | missingValue name => "Option " ++ Text.quoted name ++ " requires an argument."
  | unwantedValue name => "Option " ++ Text.quoted name ++ " does not take a value."
  | badValue parameter problem =>
    "Invalid value for " ++ parameter ++ ": " ++ problem.message
  | extraArguments arguments =>
    "Got unexpected extra argument" ++ (if arguments.length = 1 then "" else "s") ++ " (" ++
      " ".intercalate arguments ++ ")"

/-- Whether a complaint comes with a reminder of the usage. -/
def showsUsage : Misuse → Bool
  | missingValue _ => false
  | unwantedValue _ => false
  | _ => true

/-- A complaint as it is printed, in plain text.  Nothing is said about a text
that is no path. -/
def text : Misuse → String
  | badValue _ .notAPath => ""
  | m =>
    (if m.showsUsage then usageLine ++ "Try 'lmcpp --help' for help.\n\n" else "") ++
      Text.plain ("Error: " ++ m.message) ++ "\n"

end Misuse

end MacroAsm.Command
