import MacroAsm.Diagnostic
import MacroAsm.Expansion.Limits
import MacroAsm.Listing
import MacroAsm.Store
import MacroAsm.Text.Utf8

/-!
# MacroAsm.Failure

Everything that can keep a conversion from its end: a diagnostic of the source,
or some trouble outside of it.
-/

namespace MacroAsm

/-- Kinds of trouble that have nothing to do with the meaning of a source. -/
inductive Trouble where
  | missingFile
  | deniedFile
  | folderAsFile
  | fileAsFolder
  | longPath
  | invalidPath
  | unusableFile
  | badEncoding
  | deepNesting
  | badLimit
  | nothingYet
  | unlistable
  | badParameter
  | badUsage
  | other
deriving DecidableEq, Repr

/-- Why a conversion did not come to its end. -/
inductive Failure where
  | diagnosed (diagnostic : Diagnostic)
  | troubled (trouble : Trouble) (text : String)

namespace Failure

/-- The text that tells the user about a failure. -/
def text : Failure → String
  | diagnosed d => d.text
  | troubled _ text => text

/-- A limit below one. -/
def ofLimit (f : LimitFault) : Failure := .troubled .badLimit f.message

/-- A file that cannot be used. -/
def ofFile (f : FileFault) : Failure :=
  let trouble :=
    match f.fault with
    | .missing => Trouble.missingFile
    | .denied => .deniedFile
    | .forbidden => .deniedFile
    | .isFolder => .folderAsFile
    | .notFolder => .fileAsFolder
    | .tooLong => .longPath
    | .invalid => .invalidPath
    | .other _ _ => .unusableFile
  .troubled trouble f.message

/-- Bytes that are not text. -/
def ofEncoding (f : Text.Utf8.Fault) : Failure := .troubled .badEncoding f.message

/-- Declarations that are nested too deep to be read. -/
def tooDeep : Failure := .troubled .deepNesting "maximum recursion depth exceeded"

/-- An item that cannot be listed. -/
def ofUnlistable (u : Unlistable) : Failure := .troubled .unlistable u.message

/-- There is no listing to give. -/
def nothingYet : Failure := .troubled .nothingYet "nothing has been preprocessed yet"

end Failure

end MacroAsm
