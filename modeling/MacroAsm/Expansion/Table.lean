import MacroAsm.Diagnostic
import MacroAsm.Item

/-!
# MacroAsm.Expansion.Table

The macros in effect: the declarations that stand at the top of a program, the
first of each name.
-/

namespace MacroAsm

/-- Declarations in the order in which they were made, no name twice. -/
abbrev Table := List Declaration

namespace Table

/-- The declaration of a name. -/
def get? (table : Table) (name : String) : Option Declaration :=
  table.find? fun d => d.name == name

/-- The declared names, in order. -/
def names (table : Table) : List String := table.map (·.name)

/-- Take the declarations of a program into a table, and warn of those whose
names are already taken. -/
def collectFrom (table : Table) : Program → Table × List Diagnostic
  | [] => (table, [])
  | item :: items =>
    match item.declaration? with
    | none => collectFrom table items
    | some d =>
      match table.get? d.name with
      | none => collectFrom (table ++ [d]) items
      | some first =>
        let (table, warnings) := collectFrom table items
        (table, .duplicate d.name d.location first.location :: warnings)

/-- The macros of a program, and warnings of repeated declarations. -/
def collect (program : Program) : Table × List Diagnostic := collectFrom [] program

end Table

end MacroAsm
