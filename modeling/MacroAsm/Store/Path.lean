/-!
# MacroAsm.Store.Path

File names as text.  A path is a sequence of steps divided by slashes.  Its
normal form has no step `.`, no repeated slashes and none at the end; steps `..`
stay, because where they lead depends on the folders.

No path holds the character NUL, and there are limits to how long a path and each
name in it may be.  Lengths count the bytes of the UTF-8 form.
-/

namespace MacroAsm.Path

/-- Cut characters at slashes.  There is always at least one piece, and pieces
may be empty. -/
def pieces : List Char → List (List Char)
  | [] => [[]]
  | '/' :: rest => [] :: pieces rest
  | c :: rest =>
    match pieces rest with
    | [] => [[c]]
    | piece :: more => (c :: piece) :: more

/-- What a path starts from: the working folder, or a root.  Exactly two slashes
in front are kept apart from one. -/
def root (path : String) : String :=
  match path.toList with
  | '/' :: '/' :: '/' :: _ => "/"
  | '/' :: '/' :: _ => "//"
  | '/' :: _ => "/"
  | _ => ""

/-- The steps of a path, the working folder and empty ones written as `.`. -/
def steps (path : String) : List String :=
  (pieces path.toList).map fun piece => if piece.isEmpty then "." else String.ofList piece

/-- Whether a text can be a path at all. -/
def isValid (path : String) : Bool := !path.toList.contains '\x00'

/-- Whether a path is longer than any path may be. -/
def isTooLong (path : String) : Bool := 4095 < path.utf8ByteSize

/-- Whether a name is longer than any name of a file or folder may be. -/
def isTooLongName (name : String) : Bool := 255 < name.utf8ByteSize

/-- The normal form of a path. -/
def normal (path : String) : String :=
  let text := root path ++ "/".intercalate ((steps path).filter (· != "."))
  if text.isEmpty then "." else text

end MacroAsm.Path
