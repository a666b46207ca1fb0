import MacroAsm.Command.Run

/-!
# MacroAsm.Main

The command on a real machine: look at the files that the command line mentions,
run the command on what was found, and carry out what it decided.  If the system
does not let it, the run ends as one on a system that is known not to.
-/

namespace MacroAsm.Main

/-- What the system reports, as a fault. -/
def faultOf : IO.Error → AccessFault
  | .noFileOrDirectory .. => .missing
  | .permissionDenied _ 13 _ => .denied
  | .permissionDenied _ 1 _ => .forbidden
  | .permissionDenied _ number words => .other number.toNat words
  | .resourceExhausted _ number words => .other number.toNat words
  | .hardwareFault number words => .other number.toNat words
  | .otherError number words => .other number.toNat words
  | e => .other 0 (toString e)

/-- Add a file or a device that may be unreadable to a store. -/
def addReadable (store : Store) (place : List String) (isDevice : Bool)
    (content : Except IO.Error ByteArray) : Store :=
  let bytes := content.toOption.getD .empty
  let store :=
    if isDevice then { store with devices := (place, bytes) :: store.devices }
    else store.put place bytes
  match content with
  | .ok _ => store
  | .error e =>
    let system := store.system
    { store with system := { system with
        allowsReading := fun p => p != place && system.allowsReading p
        barsReading := fun p => if p = place then some (faultOf e) else system.barsReading p } }

/-- Add what is on disk at a place to a store.  A device is read only if its
content is wanted. -/
def observe (wanted : Bool) (store : Store) (place : List String) : IO Store := do
  let file := (← IO.currentDir) / Store.pathOf place
  match ← file.metadata.toBaseIO with
  | .error (.noFileOrDirectory ..) => return store
  | .error (.inappropriateType ..) => return store
  | .error e =>
    let system := store.system
    return { store with system := { system with
      hides := fun p => if p = place then some (faultOf e) else system.hides p } }
  | .ok data =>
    match data.type with
    | .dir => return store.addFolders [place]
    | .other =>
      if wanted then return addReadable store place true (← (IO.FS.readBinFile file).toBaseIO)
      else return addReadable store place true (.ok .empty)
    | _ => return addReadable store place false (← (IO.FS.readBinFile file).toBaseIO)

/-- What is on disk at the places that the paths of a command line lead through. -/
def survey (arguments : Command.Arguments) : IO Store := do
  let outputs := (arguments.value? .output).toList.flatMap Store.waypoints
  let inputs := (arguments.operands.take 1).flatMap Store.waypoints
  let wanted := !arguments.switches.any Command.Switch.isInquiry
  inputs.foldlM (observe wanted) (← outputs.foldlM (observe false) {})

/-- Write to a place, and note what the system has against it. -/
def saveAt (system : System) (target : List String × ByteArray) : IO System := do
  let (place, content) := target
  let file := (← IO.currentDir) / Store.pathOf place
  match ← (IO.FS.Handle.mk file .write).toBaseIO with
  | .error e =>
    return { system with
      barsWriting := fun p => if p = place then some (faultOf e) else system.barsWriting p }
  | .ok handle =>
    match ← (do handle.write content; handle.flush : IO Unit).toBaseIO with
    | .error e =>
      return { system with
        breaksWriting := fun p size =>
          if p = place then some (0, faultOf e) else system.breaksWriting p size }
    | .ok _ => return system

/-- What a run that succeeded has written: its output file, or what it sent to a
device. -/
def written (arguments : Command.Arguments) (before after : Store) :
    List (List String × ByteArray) :=
  let outputs := (arguments.value? .output).toList.filterMap fun path =>
    let place := (before.locate (Path.normal path)).1
    (after.files.lookup place).map (place, ·)
  outputs ++ after.sent

/-- Write what a run has written, and note what the system has against it. -/
def save (arguments : Command.Arguments) (before : Store) (outcome : Command.Outcome) :
    IO System :=
  match outcome.exit with
  | .success => (written arguments before outcome.store).foldlM saveAt before.system
  | _ => return before.system

end MacroAsm.Main

open MacroAsm in
/-- Run the command. -/
def main (args : List String) : IO UInt32 := do
  let arguments := (Command.Arguments.read args).toOption.getD {}
  let store ← Main.survey arguments
  let input ← if arguments.readsInput then (← IO.getStdin).readBinToEnd else pure .empty
  let run := Command.run Command.usualDepth args input
  let system ← Main.save arguments store (run store)
  let outcome := run { store with system := system }
  IO.print outcome.out
  IO.eprint outcome.err
  return UInt32.ofNat outcome.exit.code
