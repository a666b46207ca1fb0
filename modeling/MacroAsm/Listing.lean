import MacroAsm.Item
import MacroAsm.Text.Quoted

/-!
# MacroAsm.Listing

Programs as text, an item to a line.  The label, the opcode and the operand of an
instruction are separated by a text of the user's choice.  Only instructions and
comments can be listed.
-/

namespace MacroAsm

/-- An item that has no place in a listing. -/
inductive Unlistable where
  | call (call : Call)
  | declaration (declaration : Declaration)

/-- The words for an item that cannot be listed. -/
def Unlistable.message : Unlistable → String
  | call c => refusal "MacroCall" c.name c.location
  | declaration d => refusal "MacroDeclaration" d.name d.location
where
  refusal (kind name : String) (location : Option Location) : String :=
    let place :=
      match location with
      | some place => " at " ++ place.text
      | none => ""
    "cannot render " ++ kind ++ " " ++ Text.mention name ++ place ++
      ": macros must be expanded before rendering"

/-- Separators that go by a name. -/
def separators : List (String × String) := [("space", " "), ("tab", "\t")]

/-- The separator that a text names, or else is. -/
def separatorNamed (text : String) : String := (separators.lookup text).getD text

/-- The fields of an instruction, in order. -/
def Instruction.fields (i : Instruction) : List String :=
  i.label.toList ++ [i.opcode.mnemonic] ++ i.operand.toList

/-- An instruction on a line of its own. -/
def Instruction.line (separator : String) (i : Instruction) : String :=
  separator.intercalate i.fields

namespace Listing

/-- The line of an item. -/
def line (separator : String) : Item → Except Unlistable String
  | .instruction i => .ok (i.line separator)
  | .comment text _ => .ok ("#" ++ text)
  | .call c => .error (.call c)
  | .declaration name parameters body location =>
    .error (.declaration ⟨name, parameters, body, location⟩)

/-- Lines as a text; each has its end. -/
def ofLines (lines : List String) : String :=
  String.join (lines.map (· ++ "\n"))

/-- The listing of a program. -/
def ofProgram (separator : String) (program : Program) : Except Unlistable String :=
  (program.mapM (line separator)).map ofLines

/-- The listing of instructions alone. -/
def ofInstructions (separator : String) (is : List Instruction) : String :=
  ofLines (is.map (Instruction.line separator))

end Listing

end MacroAsm
