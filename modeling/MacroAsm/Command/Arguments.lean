import MacroAsm.Command.Switch
import MacroAsm.Command.Usage
import MacroAsm.Text.Similar

/-!
# MacroAsm.Command.Arguments

Telling options and operands apart.  Options may stand anywhere before a `--`; a
value follows its option as the next argument, after `=` if the option is spelled
out, or right after the letter.  Letters may share a dash.
-/

namespace MacroAsm.Command

/-- An option that was given, with its value. -/
structure Given where
  switch : Switch
  value : Option String := none
deriving DecidableEq, Repr

/-- A command line taken apart. -/
structure Arguments where
  given : List Given := []
  operands : List String := []
deriving DecidableEq, Repr

/-- Options that one argument gives, and the one whose value is to follow, with
its name as written. -/
structure Reading where
  given : List Given := []
  awaiting : Option (String × Switch) := none
deriving DecidableEq, Repr

namespace Arguments

/-- An option that is spelled out. -/
def readLong (arg : String) : Except Misuse Reading :=
  let name := String.ofList (arg.toList.takeWhile (· != '='))
  match Switch.ofLong? name with
  | none =>
    .error (.unknownOption name (Text.Similar.closest name (Switch.all.map Switch.long)))
  | some switch =>
    match arg.toList.dropWhile (· != '='), switch.takesValue with
    | _ :: value, true => .ok { given := [⟨switch, some (String.ofList value)⟩] }
    | _ :: _, false => .error (.unwantedValue name)
    | [], true => .ok { awaiting := some (name, switch) }
    | [], false => .ok { given := [⟨switch, none⟩] }

/-- Letters after a single dash.  The first that takes a value takes what is left
of the argument, or else the next argument. -/
def readLetters : List Char → Except Misuse Reading
  | [] => .ok {}
  | c :: cs =>
    let name := "-" ++ String.singleton c
    match Switch.ofLetter? c with
    | none => .error (.unknownOption name [])
    | some switch =>
      if switch.takesValue then
        match cs with
        | [] => .ok { awaiting := some (name, switch) }
        | cs => .ok { given := [⟨switch, some (String.ofList cs)⟩] }
      else
        (readLetters cs).map fun r => { r with given := ⟨switch, none⟩ :: r.given }

/-- An argument that starts with a dash. -/
def readOption (arg : String) : Except Misuse Reading :=
  match arg.toList with
  | '-' :: '-' :: _ => readLong arg
  | cs => readLetters (cs.drop 1)

/-- A dash alone is an operand. -/
def isOption (arg : String) : Bool :=
  match arg.toList with
  | '-' :: _ :: _ => true
  | _ => false

/-- Take a command line apart, while the value of an option may be awaited. -/
def readFrom : (awaiting : Option (String × Switch)) → List String → Except Misuse Arguments
  | none, [] => .ok {}
  | some (name, _), [] => .error (.missingValue name)
  | some (_, switch), arg :: args =>
    (readFrom none args).map fun a => { a with given := ⟨switch, some arg⟩ :: a.given }
  | none, arg :: args =>
    if arg = "--" then .ok { operands := args }
    else if isOption arg then
      match readOption arg with
      | .error m => .error m
      | .ok r => (readFrom r.awaiting args).map fun a => { a with given := r.given ++ a.given }
    else
      (readFrom none args).map fun a => { a with operands := arg :: a.operands }

/-- Take a command line apart. -/
def read (args : List String) : Except Misuse Arguments := readFrom none args

/-- The value that counts for an option: the last one given. -/
def value? (a : Arguments) (switch : Switch) : Option String :=
  (a.given.reverse.find? fun g => g.switch == switch).bind (·.value)

/-- The options that were given, each once, in the order in which they first
appear. -/
def switches (a : Arguments) : List Switch := (a.given.map (·.switch)).eraseDups

end Arguments

end MacroAsm.Command
