import MacroAsm.Program

/-!
# MacroAsm.Proofs.PlaceMaps

Items at other places.  Every place in a program may be changed, at any depth, and nothing
else (`Item.mapPlace`): places may move (`Item.relocate`), and they may be forgotten.
-/

namespace MacroAsm

variable (m : Option Location → Option Location)

/-- An instruction at another place. -/
def Instruction.mapPlace (i : Instruction) : Instruction := { i with location := m i.location }

/-- A call at another place. -/
def Call.mapPlace (c : Call) : Call := { c with location := m c.location }

mutual
/-- An item with other places, at any depth. -/
def Item.mapPlace : Item → Item
  | .instruction i => .instruction (i.mapPlace m)
  | .call c => .call (c.mapPlace m)
  | .comment text place => .comment text (m place)
  | .declaration name parameters body place =>
    .declaration name parameters (Program.mapPlace body) (m place)

/-- A program with other places. -/
def Program.mapPlace : List Item → List Item
  | [] => []
  | x :: xs => x.mapPlace :: Program.mapPlace xs
end

theorem Program.mapPlace_eq_map (program : Program) :
    Program.mapPlace m program = program.map (Item.mapPlace m) := by
  induction program with
  | nil => rfl
  | cons x xs ih => simp [Program.mapPlace, ih]

mutual
/-- Items that stay where they are. -/
theorem Item.mapPlace_id : (x : Item) → x.mapPlace id = x
  | .instruction _ => rfl
  | .call _ => rfl
  | .comment _ _ => rfl
  | .declaration name parameters body place => by
    rw [Item.mapPlace, Program.mapPlace_id body, id_eq]

/-- A program that stays where it is. -/
theorem Program.mapPlace_id : (xs : List Item) → Program.mapPlace id xs = xs
  | [] => rfl
  | x :: xs => by rw [Program.mapPlace, Item.mapPlace_id x, Program.mapPlace_id xs]
end

/-! ## Moves -/

/-- An instruction that has moved. -/
abbrev Instruction.relocate (f : Location → Location) : Instruction → Instruction :=
  Instruction.mapPlace (Option.map f)

/-- A call that has moved. -/
abbrev Call.relocate (f : Location → Location) : Call → Call := Call.mapPlace (Option.map f)

/-- An item that has moved, with all that is inside it. -/
abbrev Item.relocate (f : Location → Location) : Item → Item := Item.mapPlace (Option.map f)

/-- A program that has moved. -/
abbrev Program.relocate (f : Location → Location) : List Item → List Item :=
  Program.mapPlace (Option.map f)

end MacroAsm
