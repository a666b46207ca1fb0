/-!
# MacroAsm.Event

Progress messages.  Every step of a conversion leaves a trace of events behind;
a caller shows those it is interested in.
-/

namespace MacroAsm

/-- How important an event is. -/
inductive Level where
  | debug
  | info
  | warning
  | error
deriving DecidableEq, Repr

/-- The word for a level. -/
def Level.text : Level → String
  | debug => "DEBUG"
  | info => "INFO"
  | warning => "WARNING"
  | error => "ERROR"

/-- Something that happened during a conversion. -/
inductive Event where
  /-- A declaration was read to its end. -/
  | readMacro (name : String) (parameters items : Nat)
  /-- All items of a file were read. -/
  | readItems (count : Nat) (file : String)
  /-- A bad call was left out. -/
  | droppedCall (reason : String)
  /-- No calls are left. -/
  | expanded (passes calls instructions : Nat)
  /-- A conversion starts on a file. -/
  | opened (path : String)
  /-- A conversion has its items. -/
  | parsed (count : Nat) (file : String)
  /-- A conversion has its instructions. -/
  | converted (instructions passes : Nat)
  /-- A listing was written to a file. -/
  | wrote (path : String)
deriving DecidableEq, Repr

namespace Event

/-- How important an event is: steps of the work itself are details. -/
def level : Event → Level
  | readMacro .. => .debug
  | readItems .. => .debug
  | droppedCall .. => .debug
  | expanded .. => .debug
  | opened .. => .info
  | parsed .. => .info
  | converted .. => .info
  | wrote .. => .info

/-- The words for an event. -/
def message : Event → String
  | readMacro name parameters items =>
    "Parsed macro '" ++ name ++ "' (" ++ toString parameters ++ " parameters, " ++
      toString items ++ " items)"
  | readItems count file => "Parsed " ++ toString count ++ " items from " ++ file
  | droppedCall reason => "Dropping macro call: " ++ reason
  | expanded passes calls instructions =>
    "Expansion finished after " ++ toString passes ++ " pass(es), " ++ toString calls ++
      " call(s), " ++ toString instructions ++ " instructions"
  | opened path => "Preprocessing " ++ path
  | parsed count file => "Parsed " ++ toString count ++ " items from " ++ file
  | converted instructions passes =>
    "Expanded to " ++ toString instructions ++ " instructions in " ++ toString passes ++ " pass(es)"
  | wrote path => "Wrote " ++ path

/-- An event as a line of a log. -/
def line (event : Event) : String := event.level.text ++ ": " ++ event.message

end Event

end MacroAsm
