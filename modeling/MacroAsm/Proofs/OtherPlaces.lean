import MacroAsm.Listing
import MacroAsm.Proofs.Lockstep
import MacroAsm.Proofs.PlaceMaps

/-!
# MacroAsm.Proofs.OtherPlaces

Expansion hands places on and otherwise only compares them, to tell bad calls apart.  A
program may have other places (`Item.mapPlace`): all of them moved, or all of them
forgotten.  It declares the same macros, and its calls meet the same obstacles.

What becomes of the comparisons is up to a relation of the states of two runs.  If that
relation outlives counting a call and reporting a bad one (`Keeps`), the two runs are bound to
each other (`holds_placeBond`) and stay in step to their end (`passes_mapPlace`).
-/

namespace MacroAsm

/-! ## Items -/

variable (m : Option Location → Option Location)

/-- The listing of instructions does not depend on where they were written. -/
theorem Listing.ofInstructions_mapPlace (separator : String) (is : List Instruction) :
    ofInstructions separator (is.map (Instruction.mapPlace m)) = ofInstructions separator is := by
  rw [ofInstructions, List.map_map]
  rfl

/-- A declaration with other places. -/
def Declaration.mapPlace (d : Declaration) : Declaration :=
  { d with body := d.body.map (Item.mapPlace m), location := m d.location }

namespace Item

theorem declaration?_mapPlace (x : Item) :
    (x.mapPlace m).declaration? = x.declaration?.map (Declaration.mapPlace m) := by
  cases x with
  | declaration name parameters body place =>
    simp [mapPlace, declaration?, Program.mapPlace_eq_map, Declaration.mapPlace]
  | _ => rfl

theorem mapPlace_bindings (b : Bindings) (x : Item) :
    (b.item x).mapPlace m = b.item (x.mapPlace m) := by
  cases x <;> rfl

end Item

/-! ## Tables -/

namespace Table

theorem get?_map_mapPlace (table : Table) (name : String) :
    get? (table.map (Declaration.mapPlace m)) name =
      (table.get? name).map (Declaration.mapPlace m) := by
  rw [get?, get?, List.find?_map]
  rfl

theorem names_map_mapPlace (table : Table) :
    names (table.map (Declaration.mapPlace m)) = table.names := by
  simp [names, Declaration.mapPlace]

/-- A program with other places declares the same macros. -/
theorem collectFrom_map_mapPlace (table : Table) (program : Program) :
    (collectFrom (table.map (Declaration.mapPlace m)) (program.map (Item.mapPlace m))).1 =
      (collectFrom table program).1.map (Declaration.mapPlace m) := by
  induction program generalizing table with
  | nil => rfl
  | cons x xs ih =>
    rw [List.map_cons, collectFrom, collectFrom, Item.declaration?_mapPlace]
    cases x.declaration? with
    | none => exact ih table
    | some d =>
      have hname : (d.mapPlace m).name = d.name := rfl
      simp only [Option.map_some, hname, get?_map_mapPlace]
      cases table.get? d.name with
      | none =>
        have := ih (table ++ [d])
        simpa using this
      | some first => exact ih table

end Table

namespace Expansion

/-! ## Calls -/

/-- A traced item with other places. -/
def Traced.mapPlace (t : Traced) : Traced := ⟨t.item.mapPlace m, m t.origin⟩

/-- What is in the way of a call with another place. -/
def Obstacle.mapPlace : Obstacle → Obstacle
  | undeclared => undeclared
  | arity d => arity (d.mapPlace m)

theorem trace_mapPlace (origin : Option Location) (items : List Item) :
    (trace origin items).map (Traced.mapPlace m) =
      trace (m origin) (items.map (Item.mapPlace m)) := by
  simp [trace, Traced.mapPlace]

theorem resolve_mapPlace (table : Table) (c : Call) :
    resolve (table.map (Declaration.mapPlace m)) (c.mapPlace m) =
      ((resolve table c).map (Declaration.mapPlace m)).mapError (Obstacle.mapPlace m) := by
  have hname : (c.mapPlace m).name = c.name := rfl
  rw [resolve, resolve, hname, Table.get?_map_mapPlace]
  cases table.get? c.name with
  | none => rfl
  | some d =>
    have harity : (d.mapPlace m).arity = d.arity := rfl
    by_cases hlength : c.arguments.length = d.arity
    · simp [hlength, harity, Call.mapPlace, Except.map, Except.mapError]
    · simp [hlength, harity, Call.mapPlace, Except.map, Except.mapError, Obstacle.mapPlace]

/-- The diagnostic of a bad call with other places. -/
abbrev diagnosticMapPlace (table : Table) (c : Call) (obstacle : Obstacle) : Diagnostic :=
  (obstacle.mapPlace m).diagnostic (table.map (Declaration.mapPlace m)) (c.mapPlace m)

theorem cause_diagnosticMapPlace (table : Table) (c : Call) (obstacle : Obstacle) :
    (diagnosticMapPlace m table c obstacle).cause = (obstacle.diagnostic table c).cause := by
  cases obstacle with
  | undeclared =>
    simp [diagnosticMapPlace, Obstacle.mapPlace, Obstacle.diagnostic, Diagnostic.undeclared,
      Table.names_map_mapPlace, Call.mapPlace]
  | arity d => rfl

/-! ## Runs in step -/

/-- Other places as a run may have them: an item without a place gets none, and what came from a
call comes from that call's other place. -/
structure Rehomes : Prop where
  none : m none = none
  or (a b : Option Location) : m (a.or b) = (m a).or (m b)

/-- A relation of the states of two runs that outlives counting a call and reporting a bad one.
Both runs count alike, and both give up over a bad call or neither does. -/
structure Keeps (settings : Settings) (table : Table) (R : State → State → Prop) : Prop where
  calls {s s' : State} : R s s' → s'.calls = s.calls
  count {s s' : State} : R s s' →
    R { s with calls := s.calls + 1 } { s' with calls := s.calls + 1 }
  report {s s' : State} {c : Call} {obstacle : Obstacle} (origin : Option Location) : R s s' →
    resolve table c = .error obstacle →
    R (s.report settings c origin (obstacle.diagnostic table c)).1
        (s'.report settings (c.mapPlace m) (m origin) (diagnosticMapPlace m table c obstacle)).1 ∧
      (s'.report settings (c.mapPlace m) (m origin) (diagnosticMapPlace m table c obstacle)).2 =
        (s.report settings c origin (obstacle.diagnostic table c)).2

variable {m} {settings : Settings} {table : Table} {R : State → State → Prop} {s s' : State}

/-- The bond of a run with a run at other places. -/
def placeBond (m : Option Location → Option Location) (R : State → State → Prop) : Bond where
  states := R
  instructions i j := j = i.mapPlace m
  calls c origin c' origin' := c' = c.mapPlace m ∧ origin' = m origin

/-- Items match themselves at other places. -/
theorem matched_mapPlace (t : Traced) : (placeBond m R).Matched t (t.mapPlace m) := by
  obtain ⟨item, origin⟩ := t
  cases item with
  | instruction i => exact .instruction rfl
  | call c => exact .call ⟨rfl, rfl⟩
  | comment text place => exact .dropped rfl rfl
  | declaration name parameters body place => exact .dropped rfl rfl

theorem forall₂_matched_mapPlace (ts : List Traced) :
    List.Forall₂ (placeBond m R).Matched ts (ts.map (Traced.mapPlace m)) := by
  rw [List.forall₂_map_right_iff, List.forall₂_same]
  exact fun t _ => matched_mapPlace t

/-- The body of a macro at other places takes the place of a call at another place. -/
theorem trace_body_mapPlace (hm : Rehomes m) (d : Declaration) (c : Call)
    (origin : Option Location) :
    trace ((m origin).or (c.mapPlace m).location) ((d.mapPlace m).body.map
        (Bindings.ofLists (d.mapPlace m).parameters (c.mapPlace m).arguments).item) =
      (trace (origin.or c.location)
        (d.body.map (Bindings.ofLists d.parameters c.arguments).item)).map (Traced.mapPlace m) := by
  have horigin : (m origin).or (c.mapPlace m).location = m (origin.or c.location) :=
    (hm.or origin c.location).symm
  rw [horigin, trace_mapPlace]
  simp [Declaration.mapPlace, Call.mapPlace, Function.comp_def, Item.mapPlace_bindings]

/-- If a relation of states outlives what happens to them, the bond lasts. -/
theorem holds_placeBond (hR : Keeps m settings table R) (hm : Rehomes m) :
    (placeBond m R).Holds settings table (table.map (Declaration.mapPlace m)) where
  calls h := hR.calls h
  count h := hR.count h
  name := by
    rintro c _ _ _ ⟨rfl, _⟩
    rfl
  met := by
    rintro c _ origin _ ⟨rfl, rfl⟩
    have hresolve' := resolve_mapPlace m table c
    cases hresolve : resolve table c with
    | error obstacle =>
      rw [hresolve] at hresolve'
      refine .bad hresolve hresolve' fun s s' h => ?_
      obtain ⟨hstate, hstop⟩ := hR.report origin h hresolve
      exact Bond.reported_of hstate hstop
    | ok d =>
      rw [hresolve] at hresolve'
      refine .good hresolve hresolve' ?_
      rw [trace_body_mapPlace hm]
      exact forall₂_matched_mapPlace _

/-- **A whole run** over items with other places. -/
theorem passes_mapPlace (hR : Keeps m settings table R) (hm : Rehomes m) (number : Nat)
    (ts : List Traced) (more : Nat) (h : R s s') :
    let r := passes settings table number ts s more
    let r' := passes settings (table.map (Declaration.mapPlace m)) number
      (ts.map (Traced.mapPlace m)) s' more
    r'.passes = r.passes ∧ R r.state r'.state ∧
      r'.outcome = r.outcome.map (List.map (Instruction.mapPlace m)) := by
  intro r r'
  have hend : (placeBond m R).RunsEnd r r' :=
    (holds_placeBond hR hm).passes number (forall₂_matched_mapPlace ts) more h
  generalize r = r at hend
  generalize r' = r' at hend
  cases hend with
  | @returned _ _ _ is js hstate his =>
    have hjs : js = is.map (Instruction.mapPlace m) := by
      rw [← List.forall₂_eq_eq_eq, List.forall₂_map_right_iff]
      exact List.Forall₂.flip his
    exact ⟨rfl, hstate, congrArg Except.ok hjs⟩
  | failed hstate => exact ⟨rfl, hstate, rfl⟩
  | stopped hd => exact hd.elim

end Expansion

open Expansion

/-- **Expanding a program with other places**: if the runs are in step from the start, they have
the same counts and macros in the end, and the instructions have other places or the reason to
give up is the same. -/
theorem expand_map_mapPlace {m : Option Location → Option Location} {e : Expander}
    {program : Program} {R : State → State → Prop}
    (hR : Keeps m e.settings (Table.collect program).1 R) (hm : Rehomes m)
    (hstart : R { ledger := (Table.collect program).2.foldl Ledger.addWarning e.ledger }
      { ledger := (Table.collect (program.map (Item.mapPlace m))).2.foldl Ledger.addWarning
          e.ledger }) :
    let r := e.expand program
    let r' := e.expand (program.map (Item.mapPlace m))
    r'.expander.passes = r.expander.passes ∧
      r'.expander.table = r.expander.table.map (Declaration.mapPlace m) ∧
      r'.outcome = r.outcome.map (List.map (Instruction.mapPlace m)) ∧
      ∃ s s', R s s' ∧ r.expander.ledger = s.ledger ∧ r.expander.calls = s.calls ∧
        r'.expander.ledger = s'.ledger ∧ r'.expander.calls = s'.calls := by
  intro r r'
  have htable : (Table.collect (program.map (Item.mapPlace m))).1 =
      (Table.collect program).1.map (Declaration.mapPlace m) :=
    Table.collectFrom_map_mapPlace m [] program
  have hitems : trace none (program.map (Item.mapPlace m)) =
      (trace none program).map (Traced.mapPlace m) := by
    rw [trace_mapPlace, hm.none]
  obtain ⟨hpasses, hstate, hout⟩ := passes_mapPlace hR hm 1 (trace none program)
    (e.settings.limits.passes - 1) hstart
  rw [← htable, ← hitems] at hpasses hstate hout
  exact ⟨hpasses, htable, hout, _, _, hstate, rfl, rfl, rfl, rfl⟩

end MacroAsm
