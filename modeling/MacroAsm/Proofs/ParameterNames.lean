import MacroAsm.Proofs.Lockstep
import MacroAsm.Proofs.Outcome

/-!
# MacroAsm.Proofs.ParameterNames

The names of parameters are bound names.  Of a declaration a run sees its name, its place, how
many parameters it has, and what its body becomes when a call gives it arguments; two
declarations that agree in these can take each other's place (`Declaration.Interchangeable`).  A
parameter that is renamed to a name which the declaration does not use leaves all of them
as they are, since every name in the body still stands for the same argument.

* `expand_interchangeable` — programs with interchangeable declarations have the same
  expansions, diagnostics included;
* `Scope.bind_rename` — a renamed name in the scope of renamed parameters;
* `expand_rename_parameter` — renaming a parameter changes nothing.
-/

namespace MacroAsm

open Expansion
open List (Forall₂)

/-! ## Interchangeable declarations -/

/-- Two declarations between which no run can tell the difference. -/
structure Declaration.Interchangeable (d d' : Declaration) : Prop where
  name : d'.name = d.name
  location : d'.location = d.location
  arity : d'.arity = d.arity
  body (arguments : List String) : arguments.length = d.arity →
    d'.body.map (Bindings.ofLists d'.parameters arguments).item =
      d.body.map (Bindings.ofLists d.parameters arguments).item

/-- Items that are equal or interchangeable declarations. -/
inductive Item.Interchangeable : Item → Item → Prop where
  | same (x : Item) : Interchangeable x x
  | declaration {d d' : Declaration} :
      d.Interchangeable d' → Interchangeable d.item d'.item

theorem Item.Interchangeable.rel_declaration? {x x' : Item} (h : x.Interchangeable x') :
    Option.Rel Declaration.Interchangeable x.declaration? x'.declaration? := by
  cases h with
  | declaration hd => exact .some hd
  | same =>
    cases x.declaration? with
    | none => exact .none
    | some d => exact .some ⟨rfl, rfl, rfl, fun _ _ => rfl⟩

namespace Table

variable {table table' : Table}

theorem names_of_interchangeable (h : Forall₂ Declaration.Interchangeable table table') :
    table'.names = table.names := by
  induction h with
  | nil => rfl
  | cons hd _ ih => exact congrArg₂ List.cons hd.name ih

theorem rel_get?_of_interchangeable (h : Forall₂ Declaration.Interchangeable table table')
    (name : String) :
    Option.Rel Declaration.Interchangeable (table.get? name) (table'.get? name) := by
  induction h with
  | nil => exact .none
  | @cons d d' table table' hd _ ih =>
    rw [get?, get?, List.find?_cons, List.find?_cons, hd.name]
    cases d.name == name with
    | true => exact .some hd
    | false => exact ih

/-- Programs with interchangeable declarations have such tables, and repeat the same names. -/
theorem collectFrom_of_interchangeable {p q : Program} (hp : Forall₂ Item.Interchangeable p q)
    (h : Forall₂ Declaration.Interchangeable table table') :
    Forall₂ Declaration.Interchangeable (collectFrom table p).1 (collectFrom table' q).1 ∧
      (collectFrom table' q).2 = (collectFrom table p).2 := by
  induction hp generalizing table table' with
  | nil => exact ⟨h, rfl⟩
  | @cons x x' p q hx _ ih =>
    have hrel := hx.rel_declaration?
    rw [collectFrom, collectFrom]
    generalize x.declaration? = declared at hrel
    generalize x'.declaration? = declared' at hrel
    cases hrel with
    | none => exact ih h
    | @some d d' hd =>
      have hfirst := rel_get?_of_interchangeable h d.name
      dsimp only
      rw [hd.name, hd.location]
      generalize table.get? d.name = found at hfirst
      generalize table'.get? d.name = found' at hfirst
      cases hfirst with
      | none => exact ih (List.rel_append h (.cons hd .nil))
      | @some first first' hfirst =>
        obtain ⟨htable, hwarnings⟩ := ih h
        dsimp only
        rw [hfirst.location, hwarnings]
        exact ⟨htable, rfl⟩

end Table

/-! ## Runs that cannot tell -/

/-- The bond of two runs that are equal. -/
def equalBond : Bond where
  states := Eq
  instructions := Eq
  calls c origin c' origin' := c = c' ∧ origin = origin'

theorem forall₂_matched_equalBond (ts : List Traced) : Forall₂ equalBond.Matched ts ts :=
  Bond.forall₂_matched_self (b := equalBond) (fun _ => rfl) (fun _ _ => ⟨rfl, rfl⟩) ts

/-- A call meets the same obstacle in interchangeable tables, or finds interchangeable bodies. -/
theorem resolve_of_interchangeable {table table' : Table}
    (h : Forall₂ Declaration.Interchangeable table table') (c : Call) :
    (∃ obstacle obstacle', resolve table c = .error obstacle ∧
      resolve table' c = .error obstacle' ∧
      obstacle'.diagnostic table' c = obstacle.diagnostic table c) ∨
    ∃ d d', resolve table c = .ok d ∧ resolve table' c = .ok d' ∧
      d'.body.map (Bindings.ofLists d'.parameters c.arguments).item =
        d.body.map (Bindings.ofLists d.parameters c.arguments).item := by
  have hrel := Table.rel_get?_of_interchangeable h c.name
  unfold resolve
  generalize table.get? c.name = found at hrel
  generalize table'.get? c.name = found' at hrel
  cases hrel with
  | none =>
    refine .inl ⟨.undeclared, .undeclared, rfl, rfl, ?_⟩
    rw [Obstacle.diagnostic, Obstacle.diagnostic, Table.names_of_interchangeable h]
  | @some d d' hd =>
    dsimp only
    rw [hd.arity]
    by_cases hlength : c.arguments.length = d.arity
    · rw [if_pos hlength, if_pos hlength]
      exact .inr ⟨d, d', rfl, rfl, hd.body c.arguments hlength⟩
    · rw [if_neg hlength, if_neg hlength]
      refine .inl ⟨.arity d, .arity d', rfl, rfl, ?_⟩
      rw [Obstacle.diagnostic, Obstacle.diagnostic, hd.arity, hd.location]

/-- A run and one with interchangeable declarations do the same about every call. -/
theorem holds_equalBond (settings : Settings) {table table' : Table}
    (h : Forall₂ Declaration.Interchangeable table table') :
    equalBond.Holds settings table table' where
  calls := by
    rintro s _ rfl
    rfl
  count := by
    rintro s _ rfl
    rfl
  name := by
    rintro c _ _ _ ⟨rfl, _⟩
    rfl
  met := by
    rintro c _ origin _ ⟨rfl, rfl⟩
    rcases resolve_of_interchangeable h c with
      ⟨obstacle, obstacle', hbad, hbad', hdiagnostic⟩ | ⟨d, d', hgood, hgood', hbody⟩
    · refine .bad hbad hbad' ?_
      rintro s _ rfl
      rw [hdiagnostic]
      exact Bond.reported_of rfl rfl
    · refine .good hgood hgood' ?_
      rw [hbody]
      exact forall₂_matched_equalBond _

theorem eq_of_runsEnd_equalBond {r r' : Run} (h : equalBond.RunsEnd r r') : r = r' := by
  cases h with
  | returned hstate his =>
    obtain rfl := hstate
    obtain rfl := List.forall₂_eq_eq_eq ▸ his
    rfl
  | failed hstate =>
    cases hstate
    rfl
  | stopped hd => exact hd.elim

theorem filter_isCode_of_interchangeable {p q : Program} (h : Forall₂ Item.Interchangeable p q) :
    q.filter Item.isCode = p.filter Item.isCode := by
  induction h with
  | nil => rfl
  | cons hx _ ih =>
    cases hx with
    | same => rw [List.filter_cons, List.filter_cons, ih]
    | declaration _ => exact ih

/-- **Interchangeable declarations** give equal runs. -/
theorem runOf_interchangeable {p q : Program} (h : Forall₂ Item.Interchangeable p q)
    (e : Expander) : e.runOf q = e.runOf p := by
  obtain ⟨htable, hwarnings⟩ := Table.collectFrom_of_interchangeable h .nil
  have hitems : Forall₂ equalBond.Matched (trace none (p.filter Item.isCode))
      (trace none (q.filter Item.isCode)) := by
    rw [filter_isCode_of_interchangeable h]
    exact forall₂_matched_equalBond _
  have hstart : (Table.collect q).2 = (Table.collect p).2 := hwarnings
  have hends : equalBond.RunsEnd (e.runOf p) (e.runOf q) := by
    refine (holds_equalBond e.settings htable).runOf rfl hitems ?_
    rw [hstart]
    rfl
  exact (eq_of_runsEnd_equalBond hends).symm

/-- So the expansions have all in common but the declarations themselves. -/
theorem expand_interchangeable {p q : Program} (h : Forall₂ Item.Interchangeable p q)
    (e : Expander) :
    (e.expand q).outcome = (e.expand p).outcome ∧ (e.expand q).events = (e.expand p).events ∧
      (e.expand q).expander.passes = (e.expand p).expander.passes ∧
      (e.expand q).expander.calls = (e.expand p).expander.calls ∧
      (e.expand q).expander.ledger = (e.expand p).expander.ledger := by
  have hrun := runOf_interchangeable h e
  refine ⟨?_, ?_, ?_, ?_, ?_⟩
  · rw [e.outcome_expand, e.outcome_expand, hrun]
  · rw [e.events_expand, e.events_expand, hrun]
  · rw [e.passes_expand, e.passes_expand, hrun]
  · rw [e.calls_expand, e.calls_expand, hrun]
  · rw [e.ledger_expand, e.ledger_expand, hrun]

/-! ## Renaming -/

namespace Scope

/-- Every name stands for itself, but `x` for `y`. -/
def rename (x y : String) : Scope := fun name => if name = x then y else name

variable {x y : String}

/-- Two names that are not `y` are renamed to the same only if they are equal. -/
theorem rename_inj {n p : String} (hn : n ≠ y) (hp : p ≠ y) :
    rename x y n = rename x y p ↔ n = p := by
  unfold rename
  grind

/-- **A renamed name stands for the same** in the scope of renamed parameters, unless it is the
new name itself. -/
theorem bind_rename {ps as : List String} (hlength : as.length = ps.length) (hy : y ∉ ps)
    {n : String} (hn : n ≠ y) (hx : n = x → x ∈ ps) :
    bind (ps.map (rename x y)) as (rename x y n) = bind ps as n := by
  induction ps generalizing as with
  | nil =>
    have hnx : n ≠ x := fun h => List.not_mem_nil (hx h)
    exact if_neg hnx
  | cons p ps ih =>
    cases as with
    | nil => cases hlength
    | cons a as =>
      have hpy : p ≠ y := fun h => hy (h ▸ List.mem_cons_self)
      have hys : y ∉ ps := fun h => hy (List.mem_cons_of_mem p h)
      rw [List.map_cons, bind_cons_cons, bind_cons_cons]
      -- the first parameter with a name binds it, and renaming keeps the first one the first
      by_cases hnp : n = p
      · rw [if_pos hnp, if_pos ((rename_inj hn hpy).mpr hnp)]
      · rw [if_neg hnp, if_neg fun h => hnp ((rename_inj hn hpy).mp h)]
        refine ih (Nat.succ.inj hlength) hys fun hnx => ?_
        exact (List.mem_cons.mp (hx hnx)).resolve_left fun hxp => hnp (hnx.trans hxp)

end Scope

/-- The names that an item looks up: the operand of an instruction, the arguments of a call. -/
def Item.mentions : Item → List String
  | .instruction i => i.operand.toList
  | .call c => c.arguments
  | _ => []

/-- A scope counts only for the names that an item looks up. -/
theorem Scope.item_item {scope inner outer : Scope} {x : Item}
    (h : ∀ n ∈ x.mentions, outer (inner n) = scope n) :
    outer.item (inner.item x) = scope.item x := by
  cases x with
  | instruction i =>
    obtain ⟨opcode, label, operand, location⟩ := i
    cases operand with
    | none => rfl
    | some n =>
      have hn : outer (inner n) = scope n := h n (List.mem_singleton.mpr rfl)
      simp [Scope.item, Scope.instruction, hn]
  | call c =>
    have harguments : (c.arguments.map inner).map outer = c.arguments.map scope := by
      rw [List.map_map]
      exact List.map_congr_left h
    simp only [Scope.item, Scope.call, harguments]
  | comment text place => rfl
  | declaration name parameters body place => rfl

namespace Declaration

/-- A declaration with a parameter renamed, in all its places and wherever the body itself looks
it up.  Declarations in the body stay as they are. -/
def renameParameter (d : Declaration) (x y : String) : Declaration :=
  { d with
    parameters := d.parameters.map (Scope.rename x y)
    body := d.body.map (Scope.rename x y).item }

/-- **Renaming a parameter** to a name that the declaration does not use makes no difference. -/
theorem interchangeable_renameParameter {d : Declaration} {x y : String}
    (hx : x ∈ d.parameters) (hy : y ∉ d.parameters) (hbody : ∀ item ∈ d.body, y ∉ item.mentions) :
    d.Interchangeable (d.renameParameter x y) where
  name := rfl
  location := rfl
  arity := List.length_map _
  body arguments hlength := by
    simp only [renameParameter, Bindings.item_ofLists, List.map_map]
    refine List.map_congr_left fun item hitem => Scope.item_item fun n hn => ?_
    have hny : n ≠ y := fun h => hbody item hitem (h ▸ hn)
    exact Scope.bind_rename hlength hy hny fun _ => hx

end Declaration

/-- **Parameter names are bound names.**  If a parameter `x` of a declaration of the program is
renamed to a name `y` that is no parameter of it and is not looked up by its body, the expansion
stays the same, strict or not and whatever the limits are: instructions or reason to give up,
passes, calls, diagnostics and events. -/
theorem expand_rename_parameter (e : Expander) (before after : Program) (d : Declaration)
    (x y : String) (hx : x ∈ d.parameters) (hy : y ∉ d.parameters)
    (hbody : ∀ item ∈ d.body, y ∉ item.mentions) :
    let r := e.expand (before ++ d.item :: after)
    let r' := e.expand (before ++ (d.renameParameter x y).item :: after)
    r'.outcome = r.outcome ∧ r'.events = r.events ∧
      r'.expander.passes = r.expander.passes ∧ r'.expander.calls = r.expander.calls ∧
      r'.expander.ledger = r.expander.ledger := by
  have hsame (items : List Item) : Forall₂ Item.Interchangeable items items :=
    List.forall₂_same.mpr fun item _ => .same item
  have hdeclaration := Declaration.interchangeable_renameParameter hx hy hbody
  exact expand_interchangeable
    (List.rel_append (hsame before) (.cons (.declaration hdeclaration) (hsame after))) e

/-- The macro of `chain` that takes a parameter twice. -/
def passingOn : Declaration :=
  { name := "F"
    parameters := ["x", "x"]
    body :=
      [.call { name := "G", arguments := ["x"] },
       .instruction { opcode := .sto, operand := some "y" }]
    location := none }

/-- In `chain` the parameter may even get the name of the argument that a call gives for it. -/
theorem expand_chain_renamed :
    let e : Expander := { settings := { strict := true } }
    let renamed := passingOn.renameParameter "x" "a"
    let r := e.expand (chain.take 1 ++ renamed.item :: chain.drop 2)
    "x" ∈ passingOn.parameters ∧ "a" ∉ passingOn.parameters ∧
      (∀ item ∈ passingOn.body, "a" ∉ item.mentions) ∧
      renamed.parameters = ["a", "a"] ∧
      r.outcome =
        .ok [{ opcode := .add, operand := some "a" }, { opcode := .sto, operand := some "y" }] ∧
      r.expander.passes = 2 ∧ r.expander.calls = 2 := by
  intro e renamed r
  have hbody : ∀ item ∈ passingOn.body, "a" ∉ item.mentions := by
    simp [passingOn, Item.mentions]
  obtain ⟨houtcome, _, hpasses, hcalls, _⟩ := expand_rename_parameter e (chain.take 1)
    (chain.drop 2) passingOn "x" "a" (by decide) (by decide) hbody
  exact ⟨by decide, by decide, hbody, rfl, houtcome, hpasses, hcalls⟩

end MacroAsm
