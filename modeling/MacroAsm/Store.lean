import MacroAsm.Store.Path
import MacroAsm.Text.Quoted

/-!
# MacroAsm.Store

Files, folders and devices.  A *place* is the list of names that lead to one of
them from the working folder; places outside start with `..` or with `/`.
Nothing is known about what lies outside, except that the folders above the
working folder and the root folder exist, and what a store says about the rest.

Whether a file may be used, and whether the use of it comes to its end, is for
the system to decide (`System`).  A file that is written is opened first, which
creates it or empties it; if the system breaks off the writing after that, a
beginning of the content is left.
-/

namespace MacroAsm

/-- Why a file cannot be used. -/
inductive AccessFault where
  | missing
  | denied
  | forbidden
  | isFolder
  | notFolder
  | tooLong
  | invalid
  /-- Whatever else the system reports, such as links in a circle or a full
  disk. -/
  | other (number : Nat) (words : String)
deriving DecidableEq, Repr

/-- A failed access.  A fault that shows when a file is opened comes with the
path that was tried. -/
structure FileFault where
  fault : AccessFault
  path : Option String
deriving DecidableEq, Repr

/-- The words for a failed access. -/
def AccessFault.text : AccessFault → String
  | missing => "[Errno 2] No such file or directory"
  | denied => "[Errno 13] Permission denied"
  | forbidden => "[Errno 1] Operation not permitted"
  | isFolder => "[Errno 21] Is a directory"
  | notFolder => "[Errno 20] Not a directory"
  | tooLong => "[Errno 36] File name too long"
  | invalid => "embedded null byte"
  | other number words => "[Errno " ++ toString number ++ "] " ++ words

/-- A fault that shows when a path is opened.  A text that is no path is not
repeated. -/
def FileFault.onOpening (fault : AccessFault) (path : String) : FileFault :=
  ⟨fault, if fault = .invalid then none else some path⟩

/-- The words for a failed access, with the path if it is known. -/
def FileFault.message (f : FileFault) : String :=
  match f.path with
  | some path => f.fault.text ++ ": " ++ Text.quoted path
  | none => f.fault.text

/-- What the system has against the use of files, by place. -/
structure System where
  /-- Why nothing can be looked up in a folder. -/
  bars : List String → Option AccessFault := fun _ => none
  /-- Why it cannot be told what is at a place. -/
  hides : List String → Option AccessFault := fun _ => none
  /-- Whether what is at a place may be read, as far as its rights tell. -/
  allowsReading : List String → Bool := fun _ => true
  /-- Why what is at a place cannot be opened for reading. -/
  barsReading : List String → Option AccessFault := fun _ => none
  /-- Why the reading of an open file breaks off. -/
  breaksReading : List String → Option AccessFault := fun _ => none
  /-- Why a file cannot be created or opened for writing. -/
  barsWriting : List String → Option AccessFault := fun _ => none
  /-- After how many bytes the writing of so many to an open file breaks off, and
  why. -/
  breaksWriting : List String → Nat → Option (Nat × AccessFault) := fun _ _ => none

/-- Folders, files and devices by place.  For a device, there is what can be read
from it, and what was sent to it. -/
structure Store where
  folders : List (List String) := [["/", "dev"]]
  files : List (List String × ByteArray) := []
  devices : List (List String × ByteArray) := [(["/", "dev", "null"], .empty)]
  sent : List (List String × ByteArray) := []
  system : System := {}

/-- What a path leads to. -/
inductive Entry where
  | folder
  | file (content : ByteArray)
  | device (content : ByteArray)
  /-- Nothing, in a folder that exists. -/
  | vacant
  /-- Nothing, because a folder on the way does not exist. -/
  | missing
  /-- Nothing, because a file is on the way. -/
  | blocked
  /-- Nothing, because the path or a name in it is too long. -/
  | tooLong
  /-- Nothing, because the text is no path. -/
  | invalid
  /-- Something that the system does not show. -/
  | hidden (fault : AccessFault)

/-- Why nothing can be opened where a path leads, if that is so for reading and
for writing. -/
def Entry.fault? : Entry → Option AccessFault
  | folder => some .isFolder
  | file _ => none
  | device _ => none
  | vacant => none
  | missing => some .missing
  | blocked => some .notFolder
  | tooLong => some .tooLong
  | invalid => some .invalid
  | hidden fault => some fault

namespace Store

/-- Places that are folders in every store. -/
def isOutside (place : List String) : Bool :=
  place == ["/"] || place.all (· == "..")

/-- What stands at a place whose folder exists. -/
def entryAt (store : Store) (place : List String) : Entry :=
  if isOutside place then .folder
  else
    match store.system.hides place with
    | some fault => .hidden fault
    | none =>
      if store.folders.contains place then .folder
      else
        match store.files.lookup place, store.devices.lookup place with
        | some content, _ => .file content
        | none, some content => .device content
        | none, none => .vacant

/-- The folder that holds a place. -/
def parent (place : List String) : List String :=
  if place == ["/"] then place
  else if place.all (· == "..") then place ++ [".."]
  else place.dropLast

/-- Follow steps from a place, and say what is there. -/
def walk (store : Store) (place : List String) : List String → List String × Entry
  | [] => (place, store.entryAt place)
  | step :: steps =>
    match store.entryAt place with
    | .folder =>
      match store.system.bars place with
      | some fault => (place, .hidden fault)
      | none =>
        if step == "." then walk store place steps
        else if step == ".." then walk store (parent place) steps
        else if Path.isTooLongName step then (place, .tooLong)
        else walk store (place ++ [step]) steps
    | .file _ => (place, .blocked)
    | .device _ => (place, .blocked)
    | .hidden fault => (place, .hidden fault)
    | _ => (place, .missing)

/-- The place where a path starts. -/
def start (path : String) : List String := if (Path.root path).isEmpty then [] else ["/"]

/-- The place that a path leads to, and what is there.  The empty path leads
nowhere. -/
def locate (store : Store) (path : String) : List String × Entry :=
  if !Path.isValid path then ([], .invalid)
  else if path.isEmpty then ([], .missing)
  else if Path.isTooLong path then ([], .tooLong)
  else walk store (start path) (Path.steps path)

/-- What a path leads to. -/
def look (store : Store) (path : String) : Entry := (store.locate path).2

/-- Put a file at a place. -/
def put (store : Store) (place : List String) (content : ByteArray) : Store :=
  { store with
    files :=
      if store.files.any (·.1 == place) then
        store.files.map fun f => if f.1 == place then (place, content) else f
      else store.files ++ [(place, content)] }

/-- Read what is at a place. -/
def readAt (store : Store) (path : String) (place : List String) (content : ByteArray) :
    Except FileFault ByteArray :=
  match store.system.barsReading place, store.system.breaksReading place with
  | some fault, _ => .error (.onOpening fault path)
  | none, some fault => .error ⟨fault, none⟩
  | none, none => .ok content

/-- The content of a file. -/
def read (store : Store) (path : String) : Except FileFault ByteArray :=
  match store.locate path with
  | (place, .file content) => store.readAt path place content
  | (place, .device content) => store.readAt path place content
  | (place, .folder) =>
    .error (.onOpening ((store.system.barsReading place).getD .isFolder) path)
  | (_, entry) => .error (.onOpening (entry.fault?.getD .missing) path)

/-- What becomes of a text that reaches a place: it is sent to a device, and put
in a file otherwise. -/
def accept (store : Store) (place : List String) (content : ByteArray) : Store :=
  match store.entryAt place with
  | .device _ => { store with sent := store.sent ++ [(place, content)] }
  | _ => store.put place content

/-- Write to a place that can be opened as far as the store tells. -/
def writeAt (store : Store) (path : String) (place : List String) (content : ByteArray) :
    Store × Except FileFault Unit :=
  match store.system.barsWriting place, store.system.breaksWriting place content.size with
  | some fault, _ => (store, .error (.onOpening fault path))
  | none, some (count, fault) =>
    (store.accept place (content.extract 0 count), .error ⟨fault, none⟩)
  | none, none => (store.accept place content, .ok ())

/-- Write a file, a new one or in place of an old one.  A failed write comes with
the store that it leaves. -/
def write (store : Store) (path : String) (content : ByteArray) :
    Store × Except FileFault Unit :=
  let (place, entry) := store.locate path
  match entry.fault? with
  | some fault => (store, .error (.onOpening fault path))
  | none => store.writeAt path place content

/-- Add folders to a store. -/
def addFolders (store : Store) (folders : List (List String)) : Store :=
  { store with folders := store.folders ++ folders.filter fun f => !store.folders.contains f }

/-- A place as a path. -/
def pathOf (place : List String) : String :=
  match place with
  | [] => "."
  | "/" :: names => "/" ++ "/".intercalate names
  | names => "/".intercalate names

/-- The places that the steps of a path lead through, the last one included, if
every folder on the way exists. -/
def waypointsFrom (place : List String) : List String → List (List String)
  | [] => [place]
  | step :: steps =>
    place ::
      if step == "." then waypointsFrom place steps
      else if step == ".." then waypointsFrom (parent place) steps
      else waypointsFrom (place ++ [step]) steps

/-- Every place that a path leads through. -/
def waypoints (path : String) : List (List String) :=
  waypointsFrom (start path) (Path.steps path)

end Store

end MacroAsm
