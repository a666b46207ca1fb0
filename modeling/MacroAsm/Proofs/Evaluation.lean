import MacroAsm.Item

/-!
# MacroAsm.Proofs.Evaluation

What a program with macros means, without rewriting it.  A call is evaluated by
walking the body of its macro, depth first and from left to right, in a *scope*
that says which text each parameter stands for; operands and arguments are
looked up in the scope once, and the body itself stays as it was written.

`Means program scope items m` is the evaluation of a list of items.  Next to the
instructions, the meaning `m` measures the tree of calls that was walked: how
deep it is, and how many of its calls had a macro to run.  A program whose calls
never come to an end has no meaning.

* `Means.unique` — a list of items has at most one meaning;
* `means_append` — the meaning of two lists is put together from theirs;
* `means_map_item` — looking names up while walking is the same as walking a
  copy in which they have been replaced.
-/

namespace MacroAsm

/-! ## Which macro a call runs -/

namespace Program

/-- The declarations that stand at the top of a program, in order. -/
def declarations (program : Program) : List Declaration :=
  program.filterMap Item.declaration?

/-- The declaration of a name: the first one at the top of the program. -/
def declared? (program : Program) (name : String) : Option Declaration :=
  program.declarations.find? fun d => d.name == name

theorem declared?_cons (x : Item) (program : Program) (name : String) :
    declared? (x :: program) name =
      match x.declaration? with
      | none => program.declared? name
      | some d => if d.name = name then some d else program.declared? name := by
  unfold declared? declarations
  cases hx : x.declaration? with
  | none => rw [List.filterMap_cons_none hx]
  | some d =>
      rw [List.filterMap_cons_some hx, List.find?_cons]
      by_cases h : d.name = name
      · simp [h]
      · simp only [beq_false_of_ne h, if_neg h]

/-- The macro that a call runs: there is none if the name is not declared, or if
the call gives another number of arguments than the macro takes. -/
def target? (program : Program) (call : Call) : Option Declaration :=
  (program.declared? call.name).filter fun d => call.arguments.length == d.parameters.length

theorem target?_eq_some {program : Program} {call : Call} {d : Declaration} :
    program.target? call = some d ↔
      program.declared? call.name = some d ∧ call.arguments.length = d.parameters.length := by
  simp [target?, Option.filter_eq_some_iff]

end Program

/-! ## Scopes -/

/-- The text that each name stands for. -/
abbrev Scope := String → String

namespace Scope

/-- Outside of all macros a name stands for itself. -/
def top : Scope := id

/-- Inside a body the parameters stand for the arguments in the same places, the
first place counting where a parameter is repeated; any other name stands for
itself. -/
def bind : List String → List String → Scope
  | p :: ps, a :: as => fun name => if name = p then a else bind ps as name
  | _, _ => id

/-- An instruction whose operand is looked up. -/
def instruction (scope : Scope) (i : Instruction) : Instruction :=
  { i with operand := i.operand.map scope }

/-- A call whose arguments are looked up. -/
def call (scope : Scope) (c : Call) : Call :=
  { c with arguments := c.arguments.map scope }

/-- A copy of an item with everything looked up. -/
def item (scope : Scope) : Item → Item
  | .instruction i => .instruction (scope.instruction i)
  | .call c => .call (scope.call c)
  | other => other

theorem bind_cons_cons (p a : String) (ps as : List String) (name : String) :
    bind (p :: ps) (a :: as) name = if name = p then a else bind ps as name := rfl

@[simp] theorem instruction_top (i : Instruction) : top.instruction i = i := by
  simp [instruction, top]

@[simp] theorem call_top (c : Call) : top.call c = c := by
  simp [call, top]

@[simp] theorem name_call (scope : Scope) (c : Call) : (scope.call c).name = c.name := rfl

@[simp] theorem length_arguments_call (scope : Scope) (c : Call) :
    (scope.call c).arguments.length = c.arguments.length := by
  simp [call]

end Scope

/-! ## Meanings -/

/-- What items come to: their instructions, and the measures of the tree of calls
behind them. -/
structure Meaning where
  /-- What is left of the items when all calls are gone. -/
  instructions : List Instruction := []
  /-- How many calls stand below each other at most. -/
  depth : Nat := 0
  /-- How many calls have a macro to run. -/
  expanded : Nat := 0

namespace Meaning

/-- One meaning after another: their trees stand side by side. -/
instance : Append Meaning where
  append m n := ⟨m.instructions ++ n.instructions, max m.depth n.depth, m.expanded + n.expanded⟩

/-- The meaning of an instruction. -/
def ofInstruction (i : Instruction) : Meaning := { instructions := [i] }

/-- The meaning of a call that has no macro to run: nothing is left of it, but it
is a call. -/
def dropped : Meaning := { depth := 1 }

/-- The meaning of a call, from that of the body it runs. -/
def called (body : Meaning) : Meaning :=
  { body with depth := body.depth + 1, expanded := body.expanded + 1 }

theorem append_def (m n : Meaning) :
    m ++ n = ⟨m.instructions ++ n.instructions, max m.depth n.depth, m.expanded + n.expanded⟩ :=
  rfl

@[simp] theorem instructions_append (m n : Meaning) :
    (m ++ n).instructions = m.instructions ++ n.instructions := rfl

@[simp] theorem depth_append (m n : Meaning) : (m ++ n).depth = max m.depth n.depth := rfl

@[simp] theorem expanded_append (m n : Meaning) :
    (m ++ n).expanded = m.expanded + n.expanded := rfl

@[simp] theorem empty_append (m : Meaning) : ({} : Meaning) ++ m = m := by
  simp [append_def]

@[simp] theorem append_empty (m : Meaning) : m ++ ({} : Meaning) = m := by
  simp [append_def]

theorem append_assoc (m n k : Meaning) : m ++ n ++ k = m ++ (n ++ k) := by
  simp [append_def, List.append_assoc, Nat.max_assoc, Nat.add_assoc]

end Meaning

/-- Evaluation of a list of items in a scope, with the macros of a program. -/
inductive Means (program : Program) : Scope → List Item → Meaning → Prop where
  | nil {scope : Scope} : Means program scope [] {}
  /-- An instruction is kept, its operand looked up. -/
  | instruction {scope : Scope} {i : Instruction} {items : List Item} {m : Meaning} :
      Means program scope items m →
      Means program scope (.instruction i :: items) (.ofInstruction (scope.instruction i) ++ m)
  | comment {scope : Scope} {text : String} {place : Option Location} {items : List Item}
      {m : Meaning} :
      Means program scope items m → Means program scope (.comment text place :: items) m
  | declaration {scope : Scope} {name : String} {parameters : List String} {body : List Item}
      {place : Option Location} {items : List Item} {m : Meaning} :
      Means program scope items m →
      Means program scope (.declaration name parameters body place :: items) m
  /-- A call without a macro to run yields nothing. -/
  | dropped {scope : Scope} {c : Call} {items : List Item} {m : Meaning} :
      program.target? (scope.call c) = none → Means program scope items m →
      Means program scope (.call c :: items) (.dropped ++ m)
  /-- A call yields what the body of its macro yields in a scope of its own. -/
  | expanded {scope : Scope} {c : Call} {d : Declaration} {items : List Item} {body m : Meaning} :
      program.target? (scope.call c) = some d →
      Means program (.bind d.parameters (scope.call c).arguments) d.body body →
      Means program scope items m →
      Means program scope (.call c :: items) (body.called ++ m)

namespace Means

variable {program : Program} {scope : Scope}

/-- **Determinism**: items have at most one meaning. -/
theorem unique {items : List Item} {m n : Meaning} (hm : Means program scope items m)
    (hn : Means program scope items n) : m = n := by
  induction hm generalizing n with
  | nil => cases hn; rfl
  | instruction _ ih =>
      cases hn with
      | instruction hn => rw [ih hn]
  | comment _ ih =>
      cases hn with
      | comment hn => exact ih hn
  | declaration _ ih =>
      cases hn with
      | declaration hn => exact ih hn
  | dropped hc _ ih =>
      cases hn with
      | dropped _ hn => rw [ih hn]
      | expanded hd _ _ => rw [hc] at hd; contradiction
  | expanded hd _ _ ihb ih =>
      cases hn with
      | dropped hc _ => rw [hd] at hc; contradiction
      | expanded hd' hb hn =>
          have hdd := hd.symm.trans hd'
          cases hdd
          rw [ihb hb, ih hn]

/-- What stands in front adds its meaning to whatever follows. -/
theorem append {xs ys : List Item} {m n : Meaning} (hx : Means program scope xs m)
    (hy : Means program scope ys n) : Means program scope (xs ++ ys) (m ++ n) := by
  induction xs generalizing m with
  | nil =>
      cases hx
      rw [Meaning.empty_append]
      exact hy
  | cons x xs ih =>
      rw [List.cons_append]
      cases hx with
      | instruction hx =>
          rw [Meaning.append_assoc]
          exact .instruction (ih hx)
      | comment hx => exact .comment (ih hx)
      | declaration hx => exact .declaration (ih hx)
      | dropped hc hx =>
          rw [Meaning.append_assoc]
          exact .dropped hc (ih hx)
      | expanded hd hb hx =>
          rw [Meaning.append_assoc]
          exact .expanded hd hb (ih hx)

end Means

variable {program : Program} {scope : Scope}

/-- The meaning of two lists of items is put together from the meanings of each. -/
theorem means_append {xs ys : List Item} {k : Meaning} :
    Means program scope (xs ++ ys) k ↔
      ∃ m n, Means program scope xs m ∧ Means program scope ys n ∧ k = m ++ n := by
  refine ⟨fun h => ?_, fun ⟨m, n, hm, hn, hk⟩ => hk ▸ hm.append hn⟩
  induction xs generalizing k with
  | nil => exact ⟨{}, k, .nil, h, (Meaning.empty_append k).symm⟩
  | cons x xs ih =>
      rw [List.cons_append] at h
      cases h with
      | instruction h =>
          obtain ⟨m, n, hm, hn, rfl⟩ := ih h
          exact ⟨_, n, .instruction hm, hn, (Meaning.append_assoc ..).symm⟩
      | comment h =>
          obtain ⟨m, n, hm, hn, rfl⟩ := ih h
          exact ⟨m, n, .comment hm, hn, rfl⟩
      | declaration h =>
          obtain ⟨m, n, hm, hn, rfl⟩ := ih h
          exact ⟨m, n, .declaration hm, hn, rfl⟩
      | dropped hc h =>
          obtain ⟨m, n, hm, hn, rfl⟩ := ih h
          exact ⟨_, n, .dropped hc hm, hn, (Meaning.append_assoc ..).symm⟩
      | expanded hd hb h =>
          obtain ⟨m, n, hm, hn, rfl⟩ := ih h
          exact ⟨_, n, .expanded hd hb hm, hn, (Meaning.append_assoc ..).symm⟩

/-- The meaning of a list of items is put together from those of its first item and
of the rest. -/
theorem means_cons {x : Item} {items : List Item} {k : Meaning} :
    Means program scope (x :: items) k ↔
      ∃ m n, Means program scope [x] m ∧ Means program scope items n ∧ k = m ++ n := by
  rw [← List.singleton_append, means_append]

/-- **Substitution is evaluation**: a copy of the items with every name of the
scope replaced means at top level what the items mean in the scope.  The bodies
of the macros that they call are the same on both sides, so a walk along the list
is enough. -/
theorem means_map_item {items : List Item} {m : Meaning} :
    Means program .top (items.map scope.item) m ↔ Means program scope items m := by
  constructor
  · intro h
    induction items generalizing m with
    | nil => cases h; exact .nil
    | cons x items ih =>
        rw [List.map_cons] at h
        cases x with
        | instruction i =>
            simp only [Scope.item] at h
            cases h with
            | instruction h =>
                rw [Scope.instruction_top]
                exact .instruction (ih h)
        | call c =>
            simp only [Scope.item] at h
            cases h with
            | dropped hc h =>
                rw [Scope.call_top] at hc
                exact .dropped hc (ih h)
            | expanded hd hb h =>
                rw [Scope.call_top] at hd hb
                exact .expanded hd hb (ih h)
        | comment text place =>
            simp only [Scope.item] at h
            cases h with
            | comment h => exact .comment (ih h)
        | declaration name parameters body place =>
            simp only [Scope.item] at h
            cases h with
            | declaration h => exact .declaration (ih h)
  · intro h
    induction items generalizing m with
    | nil => cases h; exact .nil
    | cons x items ih =>
        rw [List.map_cons]
        cases h with
        | instruction h =>
            rw [← Scope.instruction_top (scope.instruction _)]
            exact .instruction (ih h)
        | comment h => exact .comment (ih h)
        | declaration h => exact .declaration (ih h)
        | dropped hc h =>
            rw [← Scope.call_top (scope.call _)] at hc
            exact .dropped hc (ih h)
        | expanded hd hb h =>
            rw [← Scope.call_top (scope.call _)] at hd hb
            exact .expanded hd hb (ih h)

end MacroAsm
