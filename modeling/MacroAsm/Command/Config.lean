import MacroAsm.Command.Arguments
import MacroAsm.Expansion.Limits
import MacroAsm.Listing
import MacroAsm.Store
import MacroAsm.Text.Capitals
import MacroAsm.Text.Numeral

/-!
# MacroAsm.Command.Config

What a command line asks for, once its values are checked.  Options are checked
in the order in which they were given, then the input file, and arguments that
are too many come last.
-/

namespace MacroAsm.Command

/-- A conversion as the command line asks for it.  Without an output file the
listing goes to standard output. -/
structure Config where
  input : String := "-"
  output : Option String := none
  strict : Bool := false
  limits : Limits := {}
  separator : String := " "
  verbose : Bool := false

/-- A request: to say something about the command, or to convert. -/
inductive Request where
  | help
  | version
  | convert (config : Config)

namespace Config

/-- A limit as it is written. -/
def limit (text : String) : Except BadValue { n : Nat // 0 < n } :=
  match Text.Numeral.int? text with
  | none => .error (.notInteger text)
  | some n => if h : n < 1 then .error (.tooSmall n) else .ok ⟨n.toNat, by omega⟩

/-- A separator by its name, in any case. -/
def separatorOf (text : String) : Except BadValue String :=
  match separators.find? fun s => Text.capitalize s.1 == Text.capitalize text with
  | some s => .ok s.2
  | none => .error (.notAChoice text (separators.map (·.1)))

/-- What is at a place must allow to be read, also if it is only written to. -/
def readable (store : Store) (place : List String) (path : String) : Except BadValue String :=
  if store.system.allowsReading place then .ok path else .error (.unreadable path)

/-- An output file may be anything but a folder. -/
def outputOf (store : Store) (path : String) : Except BadValue String :=
  match store.locate path with
  | (_, .folder) => .error (.folder path)
  | (_, .invalid) => .error .notAPath
  | (place, .file _) => readable store place path
  | (place, .device _) => readable store place path
  | _ => .ok path

/-- An input is a file or a device, or standard input as `-`. -/
def inputOf (store : Store) (path : String) : Except BadValue String :=
  if path = "-" then .ok path
  else
    match store.locate path with
    | (place, .file _) => readable store place path
    | (place, .device _) => readable store place path
    | (_, .folder) => .error (.folder path)
    | (_, .invalid) => .error .notAPath
    | _ => .error (.noFile path)

/-- Take up an option with its value. -/
def set (store : Store) (config : Config) (switch : Switch) (value : String) :
    Except BadValue Config :=
  match switch with
  | .output => do
    let path ← outputOf store value
    return { config with output := some path }
  | .maxPasses => do
    let n ← limit value
    return { config with limits := { config.limits with passes := n.1, passes_pos := n.2 } }
  | .maxExpansions => do
    let n ← limit value
    return { config with limits := { config.limits with calls := n.1, calls_pos := n.2 } }
  | .separator => do
    let separator ← separatorOf value
    return { config with separator := separator }
  | .strict => return { config with strict := true }
  | .verbose => return { config with verbose := true }
  | .version => return config
  | .help => return config

/-- Take up the given options one after another. -/
def ofSwitches (store : Store) (a : Arguments) (config : Config) :
    List Switch → Except Misuse Config
  | [] => .ok config
  | switch :: switches =>
    match set store config switch ((a.value? switch).getD "") with
    | .error problem => .error (.badValue switch.title problem)
    | .ok config => ofSwitches store a config switches

/-- Check the operands: at most one, the input. -/
def withOperands (store : Store) (config : Config) (operands : List String) :
    Except Misuse Config :=
  match inputOf store (operands.head?.getD "-") with
  | .error problem => .error (.badValue "'[INPUT_FILE]'" problem)
  | .ok input =>
    match operands.drop 1 with
    | [] => .ok { config with input := input }
    | extra => .error (.extraArguments extra)

end Config

/-- Whether a command line has its source come from standard input. -/
def Arguments.readsInput (a : Arguments) : Bool :=
  !a.switches.any Switch.isInquiry && Path.normal (a.operands.head?.getD "-") == "-"

/-- What a command line asks for.  Of the questions about the command itself, the
first is answered, whatever else is wrong. -/
def Request.ofArguments (store : Store) (a : Arguments) : Except Misuse Request :=
  match a.switches.find? Switch.isInquiry with
  | some .help => .ok .help
  | some _ => .ok .version
  | none => do
    let config ← Config.ofSwitches store a {} a.switches
    let config ← config.withOperands store a.operands
    return .convert config

end MacroAsm.Command
