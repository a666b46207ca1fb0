import MacroAsm.Proofs.OtherPlaces
import MacroAsm.Proofs.Reports
import MacroAsm.Proofs.RoundTrip

/-!
# MacroAsm.Proofs.Unplaced

Where the items of a program were written has no influence on what it is expanded to.  Two
programs that are the same, places aside, become one program when their places are forgotten
(`sameAll_iff`).  A run of that program reports every bad call that it meets, since it cannot
tell two of them apart; a run of the program with places reports some of them once.  Nothing
else depends on what has been reported:

* `State.Forgetful` — what the states of the two runs have in common: the count of calls, and
  which macros are complained about for which reason;
* `keeps_forgetful` — so the runs stay in step;
* `expand_forgets` — and programs that are the same are expanded to the same.
-/

namespace MacroAsm

open Program

/-! ## Forgetting places -/

/-- No place, whatever place there was. -/
def nowhere : Option Location → Option Location := fun _ => none

mutual
/-- Items are the same if they are equal once their places are forgotten. -/
theorem Item.same_iff : (x y : Item) → (x.same y = true ↔ x.mapPlace nowhere = y.mapPlace nowhere)
  | .instruction i, y => by
    cases y <;> simp [same, mapPlace, Instruction.mapPlace, Instruction.unplaced, nowhere]
  | .call c, y => by
    cases y <;> simp [same, mapPlace, Call.mapPlace, Call.unplaced, nowhere]
  | .comment text place, y => by
    cases y <;> simp [same, mapPlace, nowhere]
  | .declaration name parameters body place, y => by
    cases y with
    | declaration name' parameters' body' place' =>
      simp [same, mapPlace, nowhere, Item.sameAll_iff body body', and_assoc]
    | _ => simp [same, mapPlace]

/-- Programs are the same if they are equal once their places are forgotten. -/
theorem Item.sameAll_iff : (xs ys : List Item) →
    (sameAll xs ys = true ↔ Program.mapPlace nowhere xs = Program.mapPlace nowhere ys)
  | [], ys => by cases ys <;> simp [sameAll, Program.mapPlace]
  | x :: xs, ys => by
    cases ys with
    | nil => simp [sameAll, Program.mapPlace]
    | cons y ys =>
      simp [sameAll, Program.mapPlace, Item.same_iff x y, Item.sameAll_iff xs ys]
end

/-! ## Complaints about macros -/

/-- What is wrong with a macro: the class of a diagnostic, and the name that it is about. -/
inductive MacroFault where
  | undeclared (name : String)
  | arity (name : String)
  | duplicate (name : String)
deriving DecidableEq, Repr

/-- What a cause says of a macro. -/
def Cause.macroFault? : Cause → Option MacroFault
  | undeclared name _ => some (.undeclared name)
  | arity name _ _ => some (.arity name)
  | duplicate name _ => some (.duplicate name)
  | _ => none

/-- What the entries of a ledger say of macros. -/
def Ledger.macroFaults (ledger : Ledger Diagnostic) : List MacroFault :=
  (ledger.errors.toList ++ ledger.warnings.toList).filterMap (·.cause.macroFault?)

/-- What is wrong with a bad call of a name. -/
def Table.callFault (table : Table) (name : String) : MacroFault :=
  match table.get? name with
  | none => .undeclared name
  | some _ => .arity name

theorem Ledger.mem_macroFaults_addWarning {ledger : Ledger Diagnostic} {d : Diagnostic}
    {fault : MacroFault} :
    fault ∈ (ledger.addWarning d).macroFaults ↔
      fault ∈ ledger.macroFaults ∨ d.cause.macroFault? = some fault := by
  simp [macroFaults, addWarning, or_assoc]

/-- Repeated declarations are complained about wherever they stand. -/
theorem Table.macroFaults_collectFrom (m : Option Location → Option Location) (table : Table)
    (program : Program) :
    (collectFrom (table.map (Declaration.mapPlace m)) (program.map (Item.mapPlace m))).2.map
        (·.cause.macroFault?) =
      (collectFrom table program).2.map (·.cause.macroFault?) := by
  induction program generalizing table with
  | nil => rfl
  | cons x xs ih =>
    rw [List.map_cons, collectFrom, collectFrom, Item.declaration?_mapPlace]
    cases x.declaration? with
    | none => exact ih table
    | some d =>
      have hname : (d.mapPlace m).name = d.name := rfl
      simp only [Option.map_some, hname, get?_map_mapPlace]
      cases table.get? d.name with
      | none =>
        have := ih (table ++ [d])
        simpa using this
      | some first => exact congrArg (List.cons _) (ih table)

namespace Expansion

/-- The name of a bad call decides what is wrong with it. -/
theorem macroFault?_diagnostic {table : Table} {c : Call} {obstacle : Obstacle}
    (h : resolve table c = .error obstacle) :
    (obstacle.diagnostic table c).cause.macroFault? = some (table.callFault c.name) := by
  unfold resolve at h
  unfold Table.callFault
  cases hget : table.get? c.name with
  | none =>
    rw [hget] at h
    cases h
    rfl
  | some d =>
    rw [hget] at h
    dsimp only at h
    split at h
    · cases h
    · cases h
      rfl

/-! ## Runs with and without places -/

/-- What the states of two runs have in common, of which the second knows no places.  What the
first has seen, it has complained about. -/
structure State.Forgetful (table : Table) (s s' : State) : Prop where
  calls : s'.calls = s.calls
  faults (fault : MacroFault) : fault ∈ s'.ledger.macroFaults ↔ fault ∈ s.ledger.macroFaults
  seen : ∀ sighting ∈ s.sightings, table.callFault sighting.name ∈ s.ledger.macroFaults

variable {settings : Settings} {table : Table} {s s' : State}

/-- A lenient run complains about a bad call and goes on. -/
theorem mem_macroFaults_enter {d : Diagnostic} {fault : MacroFault} :
    fault ∈ (s.enter false d).1.ledger.macroFaults ↔
      fault ∈ s.ledger.macroFaults ∨ d.cause.macroFault? = some fault :=
  Ledger.mem_macroFaults_addWarning

/-- Both runs complain about a bad call. -/
theorem State.Forgetful.enter (h : State.Forgetful table s s') {d d' : Diagnostic}
    (hd : d'.cause = d.cause) :
    State.Forgetful table (s.enter false d).1 (s'.enter false d').1 where
  calls := h.calls
  faults fault := by
    rw [mem_macroFaults_enter, mem_macroFaults_enter, h.faults, hd]
  seen sighting hsighting := mem_macroFaults_enter.mpr (.inl (h.seen sighting hsighting))

/-- The run with places takes note of a bad call that it has complained about. -/
theorem State.Forgetful.note (h : State.Forgetful table s s') {sighting : Sighting}
    (hfault : table.callFault sighting.name ∈ s.ledger.macroFaults) :
    State.Forgetful table { s with sightings := sighting :: s.sightings } s' where
  calls := h.calls
  faults := h.faults
  seen := List.forall_mem_cons.mpr ⟨hfault, h.seen⟩

/-- Only the run without places complains about a bad call, which the other has seen. -/
theorem State.Forgetful.enter_seen (h : State.Forgetful table s s') {d : Diagnostic}
    {sighting : Sighting} (hseen : sighting ∈ s.sightings)
    (hd : d.cause.macroFault? = some (table.callFault sighting.name)) :
    State.Forgetful table s (s'.enter false d).1 where
  calls := h.calls
  faults fault := by
    rw [mem_macroFaults_enter, h.faults, hd]
    constructor
    · rintro (hfault | hfault)
      · exact hfault
      · rw [← Option.some.inj hfault]
        exact h.seen sighting hseen
    · exact .inl
  seen := h.seen

theorem State.Forgetful.report (h : State.Forgetful table s s') (hlenient : settings.strict = false)
    {c : Call} {obstacle : Obstacle} (origin : Option Location)
    (hresolve : resolve table c = .error obstacle) :
    let d := obstacle.diagnostic table c
    let d' := diagnosticMapPlace nowhere table c obstacle
    State.Forgetful table (s.report settings c origin d).1
        (s'.report settings (c.mapPlace nowhere) (nowhere origin) d').1 ∧
      (s'.report settings (c.mapPlace nowhere) (nowhere origin) d').2 =
        (s.report settings c origin d).2 := by
  intro d d'
  have hreport : s'.report settings (c.mapPlace nowhere) (nowhere origin) d' =
      s'.enter false d' := by
    rw [← hlenient]
    rfl
  have hcause : d'.cause = (withOrigin origin d).cause := by
    rw [(withOrigin_fields origin d).1]
    exact cause_diagnosticMapPlace nowhere table c obstacle
  have hfault : d'.cause.macroFault? = some (table.callFault c.name) := by
    rw [hcause, (withOrigin_fields origin d).1]
    exact macroFault?_diagnostic hresolve
  rw [hreport]
  unfold State.report
  rw [hlenient]
  cases hplace : c.location with
  | none => exact ⟨h.enter hcause, rfl⟩
  | some place =>
    dsimp only
    by_cases hseen : s.sightings.contains ⟨c.name, place, origin⟩
    · rw [if_pos hseen]
      have hmem : (⟨c.name, place, origin⟩ : Sighting) ∈ s.sightings := by simpa using hseen
      exact ⟨h.enter_seen hmem hfault, rfl⟩
    · rw [if_neg hseen]
      have hentered : table.callFault c.name ∈
          (s.enter false (withOrigin origin d)).1.ledger.macroFaults :=
        mem_macroFaults_enter.mpr (.inr (hcause ▸ hfault))
      exact ⟨(h.enter hcause).note hentered, rfl⟩

/-- Runs with and without places stay in step. -/
theorem keeps_forgetful (hlenient : settings.strict = false) (table : Table) :
    Keeps nowhere settings table (State.Forgetful table) where
  calls h := h.calls
  count h := ⟨rfl, h.faults, h.seen⟩
  report origin h hresolve := h.report hlenient origin hresolve

theorem rehomes_nowhere : Rehomes nowhere := ⟨rfl, fun _ _ => rfl⟩

end Expansion

open Expansion

/-- Two expansions that differ in nothing but places. -/
structure Expanded.Same (r r' : Expanded) : Prop where
  passes : r'.expander.passes = r.expander.passes
  calls : r'.expander.calls = r.expander.calls
  names : r'.expander.table.names = r.expander.table.names
  faults (fault : MacroFault) :
    fault ∈ r'.expander.ledger.macroFaults ↔ fault ∈ r.expander.ledger.macroFaults
  outcome : r'.outcome.map (List.map Instruction.unplaced) =
    r.outcome.map (List.map Instruction.unplaced)

theorem Expanded.Same.symm {r r' : Expanded} (h : r.Same r') : r'.Same r :=
  ⟨h.passes.symm, h.calls.symm, h.names.symm, fun fault => (h.faults fault).symm, h.outcome.symm⟩

theorem Expanded.Same.trans {r r' r'' : Expanded} (h : r.Same r') (h' : r'.Same r'') :
    r.Same r'' :=
  ⟨h'.passes.trans h.passes, h'.calls.trans h.calls, h'.names.trans h.names,
    fun fault => (h'.faults fault).trans (h.faults fault), h'.outcome.trans h.outcome⟩

/-- **Forgetting the places of a program** changes nothing but places. -/
theorem expand_mapPlace_nowhere {e : Expander} (hlenient : e.settings.strict = false)
    (program : Program) :
    (e.expand program).Same (e.expand (program.map (Item.mapPlace nowhere))) := by
  have hduplicates : (Table.collect (program.map (Item.mapPlace nowhere))).2.map
      (·.cause.macroFault?) = (Table.collect program).2.map (·.cause.macroFault?) :=
    Table.macroFaults_collectFrom nowhere [] program
  have hstart : State.Forgetful (Table.collect program).1
      { ledger := (Table.collect program).2.foldl Ledger.addWarning e.ledger }
      { ledger := (Table.collect (program.map (Item.mapPlace nowhere))).2.foldl Ledger.addWarning
          e.ledger } := by
    refine ⟨rfl, fun fault => ?_, by simp⟩
    rw [Ledger.foldl_addWarning, Ledger.foldl_addWarning]
    have hmem := congrArg (some fault ∈ ·) hduplicates
    simp only [List.mem_map] at hmem
    simp [Ledger.macroFaults, hmem]
  obtain ⟨hpasses, htable, hout, s, s', hstate, hledger, hcalls, hledger', hcalls'⟩ :=
    expand_map_mapPlace (keeps_forgetful hlenient _) rehomes_nowhere hstart
  refine ⟨hpasses, ?_, ?_, fun fault => ?_, ?_⟩
  · rw [hcalls, hcalls', hstate.calls]
  · rw [htable, Table.names_map_mapPlace]
  · rw [hledger, hledger', hstate.faults]
  · rw [hout]
    cases (e.expand program).outcome with
    | error d => rfl
    | ok is =>
      have hunplaced : Instruction.unplaced ∘ Instruction.mapPlace nowhere =
          Instruction.unplaced := rfl
      simp [Except.map, hunplaced]

/-- Programs that are the same, places aside, are expanded to the same. -/
theorem same_expand {e : Expander} (hlenient : e.settings.strict = false) {p q : Program}
    (h : Item.sameAll p q = true) : (e.expand p).Same (e.expand q) := by
  have hforgotten := (Item.sameAll_iff p q).mp h
  rw [Program.mapPlace_eq_map, Program.mapPlace_eq_map] at hforgotten
  have hp := expand_mapPlace_nowhere hlenient p
  have hq := expand_mapPlace_nowhere hlenient q
  rw [hforgotten] at hp
  exact hp.trans hq.symm

/-- Instructions are the same if they are equal once their places are forgotten. -/
theorem sameAll_ofInstructions_iff {is js : List Instruction} :
    Item.sameAll (ofInstructions is) (ofInstructions js) = true ↔
      is.map Instruction.unplaced = js.map Instruction.unplaced := by
  have hforget (ks : List Instruction) : Program.mapPlace nowhere (ofInstructions ks) =
      ofInstructions (ks.map Instruction.unplaced) := by
    rw [Program.mapPlace_eq_map, ofInstructions, ofInstructions, List.map_map, List.map_map]
    rfl
  rw [Item.sameAll_iff, hforget, hforget]
  constructor
  · intro h
    simpa using congrArg Program.instructions h
  · exact congrArg ofInstructions

/-- **Places have no influence on an expansion.**  Two programs that are the same, places aside,
are expanded by a lenient expander to the same instructions, with the same listings, or both
expansions are given up for the same reason: they do not end.  Passes, calls, declared names
and, for each class of diagnostics, the macros that are complained about are the same. -/
theorem expand_forgets (e : Expander) (p q : Program) (hlenient : e.settings.strict = false)
    (h : Item.sameAll p q = true) :
    let r := e.expand p
    let r' := e.expand q
    ((∃ is js, r.outcome = .ok is ∧ r'.outcome = .ok js ∧
        Item.sameAll (ofInstructions is) (ofInstructions js) = true ∧
        ∀ separator, Listing.ofProgram separator (ofInstructions is) =
          Listing.ofProgram separator (ofInstructions js)) ∨
      ∃ d passes names bound, r.outcome = .error d ∧ r'.outcome = .error d ∧
        d.cause = .endless passes names bound) ∧
    r'.expander.passes = r.expander.passes ∧ r'.expander.calls = r.expander.calls ∧
    r'.expander.table.names = r.expander.table.names ∧
    ∀ fault, fault ∈ r'.expander.ledger.macroFaults ↔ fault ∈ r.expander.ledger.macroFaults := by
  intro r r'
  have hsame : r.Same r' := same_expand hlenient h
  refine ⟨?_, hsame.passes, hsame.calls, hsame.names, hsame.faults⟩
  have houtcome := hsame.outcome
  cases hout : r.outcome with
  | ok is =>
    cases hout' : r'.outcome with
    | error d => simp [hout, hout', Except.map] at houtcome
    | ok js =>
      have hinstructions : is.map Instruction.unplaced = js.map Instruction.unplaced := by
        simpa [hout, hout', Except.map] using houtcome.symm
      refine .inl ⟨is, js, rfl, rfl, sameAll_ofInstructions_iff.mpr hinstructions, ?_⟩
      intro separator
      have hlisting (ks : List Instruction) : Listing.ofInstructions separator
          (ks.map Instruction.unplaced) = Listing.ofInstructions separator ks :=
        Listing.ofInstructions_mapPlace nowhere separator ks
      rw [Listing.ofProgram_ofInstructions, Listing.ofProgram_ofInstructions, ← hlisting,
        hinstructions, hlisting]
  | error d =>
    cases hout' : r'.outcome with
    | ok js => simp [hout, hout', Except.map] at houtcome
    | error d' =>
      obtain rfl : d' = d := by simpa [hout, hout', Except.map] using houtcome
      rcases expand_eq_error_cases hlenient hout with ⟨_, _, _, _, _, rfl, _⟩ | ⟨_, _, rfl⟩
      · exact .inr ⟨_, _, _, _, rfl, rfl, rfl⟩
      · exact .inr ⟨_, _, _, _, rfl, rfl, rfl⟩

/-- A macro that calls another one twice, and so comes to the same bad call twice. -/
def echoing : Program :=
  [.declaration "F" [] [.call ⟨"G", [], some ⟨"f", 1, 7⟩⟩] (some ⟨"f", 1, 1⟩),
   .declaration "H" []
     [.call ⟨"F", [], some ⟨"f", 2, 7⟩⟩, .call ⟨"F", [], some ⟨"f", 2, 12⟩⟩,
      .instruction ⟨.hlt, some "x", none, some ⟨"f", 2, 17⟩⟩] (some ⟨"f", 2, 1⟩),
   .call ⟨"H", [], some ⟨"f", 3, 1⟩⟩]

/-- The bad call of `echoing` is reported once, and without places twice; all else is the
same. -/
theorem expand_echoing_forgets :
    let e : Expander := {}
    let r := e.expand echoing
    let r' := e.expand (Program.mapPlace nowhere echoing)
    e.settings.strict = false ∧ Item.sameAll echoing (Program.mapPlace nowhere echoing) = true ∧
      r.expander.ledger.warnings.size = 1 ∧ r'.expander.ledger.warnings.size = 2 ∧
      r.outcome = .ok [⟨.hlt, some "x", none, some ⟨"f", 2, 17⟩⟩] ∧
      r'.expander.passes = r.expander.passes ∧ r'.expander.calls = r.expander.calls ∧
      r'.expander.table.names = r.expander.table.names ∧
      ∀ fault, fault ∈ r'.expander.ledger.macroFaults ↔
        fault ∈ r.expander.ledger.macroFaults := by
  intro e r r'
  have hsame : Item.sameAll echoing (Program.mapPlace nowhere echoing) = true := by decide
  exact ⟨rfl, hsame, rfl, rfl, rfl,
    (expand_forgets e echoing (Program.mapPlace nowhere echoing) rfl hsame).2⟩

end MacroAsm
