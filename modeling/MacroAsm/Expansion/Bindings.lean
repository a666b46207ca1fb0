import MacroAsm.Item

/-!
# MacroAsm.Expansion.Bindings

Parameters bound to arguments.  Arguments are text: they are put in place of
operands and arguments that equal a parameter, once, and are not looked at
again.  Labels, names of called macros and nested declarations stay as they are.
-/

namespace MacroAsm

/-- Which text a name stands for.  The first pair with a name counts. -/
abbrev Bindings := List (String × String)

namespace Bindings

/-- Bind parameters to arguments by position.  A parameter that is repeated
keeps its first argument. -/
def ofLists (parameters arguments : List String) : Bindings :=
  (parameters.zip arguments).eraseDupsBy fun x y => x.1 == y.1

/-- The text that a name stands for: itself if it is not bound. -/
def apply (b : Bindings) (name : String) : String := (b.lookup name).getD name

/-- An instruction with its operand replaced. -/
def instruction (b : Bindings) (i : Instruction) : Instruction :=
  { i with operand := i.operand.map b.apply }

/-- A call with its arguments replaced. -/
def call (b : Bindings) (c : Call) : Call :=
  c.withArguments (c.arguments.map b.apply)

/-- An item of a body with the arguments in place. -/
def item (b : Bindings) : Item → Item
  | .instruction i => .instruction (b.instruction i)
  | .call c => .call (b.call c)
  | other => other

end Bindings

end MacroAsm
