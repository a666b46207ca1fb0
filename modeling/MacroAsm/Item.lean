import MacroAsm.Opcode
import MacroAsm.Source.Location

/-!
# MacroAsm.Item

Programs: lists of instructions, macro calls, comments and macro declarations,
whose bodies are programs again.  An item may know where it was written.  Two
items are the *same* (`Item.same`) when they differ in such places at most.
-/

namespace MacroAsm

/-- One instruction of the machine. -/
structure Instruction where
  opcode : Opcode
  label : Option String := none
  operand : Option String := none
  location : Option Location := none
deriving DecidableEq, Repr

/-- The use of a macro. -/
structure Call where
  name : String
  arguments : List String := []
  location : Option Location := none
deriving DecidableEq, Repr

/-- A piece of a program. -/
inductive Item where
  | instruction (instruction : Instruction)
  | call (call : Call)
  | comment (text : String) (location : Option Location)
  | declaration (name : String) (parameters : List String) (body : List Item)
      (location : Option Location)
deriving Repr

/-- A declared macro. -/
structure Declaration where
  name : String
  parameters : List String
  body : List Item
  location : Option Location

namespace Instruction

/-- The same instruction on another operand. -/
def withOperand (i : Instruction) (operand : String) : Instruction :=
  { i with operand := some operand }

/-- The instruction as if written nowhere. -/
def unplaced (i : Instruction) : Instruction := { i with location := none }

end Instruction

namespace Call

/-- The same call with other arguments. -/
def withArguments (c : Call) (arguments : List String) : Call :=
  { c with arguments := arguments }

/-- The call as if written nowhere. -/
def unplaced (c : Call) : Call := { c with location := none }

end Call

namespace Declaration

/-- How many arguments a call has to give. -/
def arity (d : Declaration) : Nat := d.parameters.length

/-- A declaration as an item. -/
def item (d : Declaration) : Item := .declaration d.name d.parameters d.body d.location

end Declaration

namespace Item

/-- The instruction that an item is. -/
def instruction? : Item → Option Instruction
  | instruction i => some i
  | _ => none

/-- The call that an item is. -/
def call? : Item → Option Call
  | call c => some c
  | _ => none

/-- The declaration that an item is. -/
def declaration? : Item → Option Declaration
  | declaration name parameters body location => some ⟨name, parameters, body, location⟩
  | _ => none

/-! ## Equality up to places -/

mutual
/-- Whether two items differ at most in where they were written, at any
depth. -/
def same : Item → Item → Bool
  | instruction i, instruction j => i.unplaced == j.unplaced
  | call c, call d => c.unplaced == d.unplaced
  | comment s _, comment t _ => s == t
  | declaration n ps body _, declaration m qs other _ => n == m && ps == qs && sameAll body other
  | _, _ => false

/-- Whether two programs are the same item by item. -/
def sameAll : List Item → List Item → Bool
  | [], [] => true
  | x :: xs, y :: ys => same x y && sameAll xs ys
  | _, _ => false
end

end Item

/-- A program, in the order in which it is written. -/
abbrev Program := List Item

namespace Program

/-- The calls that stand in a program, those inside declarations apart. -/
def calls (program : Program) : List Call := program.filterMap Item.call?

/-- The instructions that stand in a program, those inside declarations
apart. -/
def instructions (program : Program) : List Instruction := program.filterMap Item.instruction?

/-- A program of instructions alone. -/
def ofInstructions (instructions : List Instruction) : Program :=
  instructions.map Item.instruction

/-- Whether a program holds neither calls nor declarations. -/
def isPlain (program : Program) : Bool :=
  program.all fun
    | .instruction _ => true
    | .comment .. => true
    | _ => false

@[simp] theorem instructions_ofInstructions (is : List Instruction) :
    (ofInstructions is).instructions = is := by
  induction is with
  | nil => rfl
  | cons i is ih => simpa [ofInstructions, instructions, Item.instruction?] using ih

end Program

end MacroAsm
