import MacroAsm.Proofs.Lockstep
import MacroAsm.Proofs.Outcome
import MacroAsm.Proofs.Reports

/-!
# MacroAsm.Proofs.RepeatedRuns

One expander expands many programs and enters the diagnostics of all of them in one ledger.  Its
runs do not affect each other: but for the entries that the ledger held before, each is the run
of a new expander (`Expander.fresh`).  The only thing that a run could notice of them is that the
ledger is full, and then it stops.

* `State.behind` — the state of a run with earlier entries in front of its own;
* `reported_behind` — earlier entries do not change what is reported, unless the ledger is full;
* `runOf_eq_behind_fresh` — a run is a new run with the earlier entries in front, and
  `repeats_fresh` says so of what an expander gives back;
* `expandAll_repeats_fresh` — and so for any number of runs.
-/

namespace MacroAsm

open Expansion
open List (Forall₂)

/-! ## Earlier entries -/

/-- There was no room for another error. -/
def Cause.isTooMany : Cause → Bool
  | tooMany _ => true
  | _ => false

/-- The entries of one ledger before those of another. -/
def Ledger.append {α : Type} (ledger later : Ledger α) : Ledger α :=
  { ledger with
    errors := ledger.errors ++ later.errors
    warnings := ledger.warnings ++ later.warnings }

/-- Warnings may be entered in an empty ledger first. -/
theorem Ledger.foldl_addWarning_eq_append {α : Type} (ledger : Ledger α) (entries : List α) :
    entries.foldl addWarning ledger = ledger.append (entries.foldl addWarning ledger.clear) := by
  have hwarnings : ledger.warnings ++ entries =
      ledger.warnings ++ ((#[] : Array α) ++ entries) := by
    apply Array.ext'
    rw [Array.toList_appendList, Array.toList_append, Array.toList_appendList]
    rfl
  rw [foldl_addWarning, foldl_addWarning]
  simp only [append, clear, hwarnings, Array.append_empty]

/-- Entering an error behind earlier entries: there may be no room left because of these, but
if there is, there is room without them. -/
theorem Ledger.addOrStop_append {earlier ledger : Ledger Diagnostic}
    (h : ledger.capacity = earlier.capacity) (d : Diagnostic) :
    ((earlier.append ledger).addOrStop d).1 = earlier.append (ledger.addOrStop d).1 ∧
      (((earlier.append ledger).addOrStop d).2 = some (.tooMany earlier.capacity) ∨
        ((earlier.append ledger).addOrStop d).2 = (ledger.addOrStop d).2) := by
  constructor
  · simp [addOrStop, addError, append]
  · by_cases hfull : earlier.capacity ≤ (earlier.errors.size + ledger.errors.size + 1 : Int)
    · left
      simp [addOrStop, addError, append, isFull, ← Int.add_assoc, hfull]
    · right
      have hroom : ¬ earlier.capacity ≤ (ledger.errors.size + 1 : Int) := by omega
      simp [addOrStop, addError, append, isFull, ← Int.add_assoc, hfull, h, hroom]

namespace Expansion

/-- A state with earlier entries before its own. -/
def State.behind (earlier : Ledger Diagnostic) (s : State) : State :=
  { s with ledger := earlier.append s.ledger }

/-- The bond of a run that finds earlier entries in its ledger with a run that finds none.  The
ledger may be full for the first one alone. -/
def ledgerBond (earlier : Ledger Diagnostic) : Bond where
  states s s' := s = s'.behind earlier ∧ s'.ledger.capacity = earlier.capacity
  instructions := Eq
  calls c origin c' origin' := c = c' ∧ origin = origin'
  stops d := d.cause.isTooMany = true

variable {earlier : Ledger Diagnostic} {s : State}

/-- Entering a diagnostic behind earlier entries. -/
theorem reported_enter_behind (hs : s.ledger.capacity = earlier.capacity) (strict : Bool)
    (d : Diagnostic) :
    (ledgerBond earlier).Reported ((s.behind earlier).enter strict d) (s.enter strict d) := by
  cases strict with
  | false =>
    refine Bond.reported_of ⟨?_, hs⟩ rfl
    simp [State.enter, State.behind, Ledger.append, Ledger.addWarning]
  | true =>
    obtain ⟨hledger, hstop⟩ := Ledger.addOrStop_append hs d
    have henter : (s.behind earlier).enter true d =
        ((s.enter true d).1.behind earlier, ((earlier.append s.ledger).addOrStop d).2) := by
      simp only [State.enter, State.behind, if_true, hledger]
    rw [henter]
    rcases hstop with hfull | hsame
    · rw [hfull]
      exact .stopped rfl
    · rw [hsame]
      exact Bond.reported_of ⟨rfl, hs⟩ rfl

/-- **Reporting a bad call** behind earlier entries: it has been seen before if it has been seen
by this run. -/
theorem reported_behind (hs : s.ledger.capacity = earlier.capacity) (settings : Settings)
    (c : Call) (origin : Option Location) (d : Diagnostic) :
    (ledgerBond earlier).Reported ((s.behind earlier).report settings c origin d)
      (s.report settings c origin d) := by
  unfold State.report
  cases c.location with
  | none => exact reported_enter_behind hs settings.strict _
  | some place =>
    have hsightings : (s.behind earlier).sightings = s.sightings := rfl
    dsimp only
    rw [hsightings]
    by_cases hseen : s.sightings.contains ⟨c.name, place, origin⟩
    · rw [if_pos hseen, if_pos hseen]
      exact Bond.reported_of ⟨rfl, hs⟩ rfl
    · rw [if_neg hseen, if_neg hseen]
      exact reported_enter_behind
        (s := { s with sightings := ⟨c.name, place, origin⟩ :: s.sightings }) hs settings.strict _

theorem forall₂_matched_ledgerBond (ts : List Traced) :
    Forall₂ (ledgerBond earlier).Matched ts ts :=
  Bond.forall₂_matched_self (b := ledgerBond earlier) (fun _ => rfl) (fun _ _ => ⟨rfl, rfl⟩) ts

/-- Earlier entries keep a run in step with a run without them. -/
theorem holds_ledgerBond (earlier : Ledger Diagnostic) (settings : Settings) (table : Table) :
    (ledgerBond earlier).Holds settings table table where
  calls := by
    rintro _ s' ⟨rfl, _⟩
    rfl
  count := by
    rintro _ s' ⟨rfl, hcapacity⟩
    exact ⟨rfl, hcapacity⟩
  name := by
    rintro c _ _ _ ⟨rfl, _⟩
    rfl
  met := by
    rintro c _ origin _ ⟨rfl, rfl⟩
    cases hresolve : resolve table c with
    | error obstacle =>
      refine .bad hresolve hresolve ?_
      rintro _ s' ⟨rfl, hcapacity⟩
      exact reported_behind hcapacity settings c origin _
    | ok d =>
      exact .good hresolve hresolve (forall₂_matched_ledgerBond _)

end Expansion

/-! ## One run -/

/-- Whether an expansion was stopped since the ledger was full. -/
def Expanded.isStopped (r : Expanded) : Bool :=
  match r.outcome with
  | .error d => d.cause.isTooMany
  | .ok _ => false

/-- An expansion that comes to what another one does.  The entries in the two ledgers may
differ. -/
structure Expanded.Repeats (r r' : Expanded) : Prop where
  outcome : r.outcome = r'.outcome
  events : r.events = r'.events
  passes : r.expander.passes = r'.expander.passes
  calls : r.expander.calls = r'.expander.calls
  table : r.expander.table = r'.expander.table

namespace Expander

variable (e : Expander)

/-- A new expander with the same settings, and as much room in its ledger. -/
def fresh : Expander := { settings := e.settings, ledger := e.ledger.clear }

variable {e} {program : Program}

/-- **A run is a new run** with the earlier entries in front, unless these leave no room. -/
theorem runOf_eq_behind_fresh (h : (e.expand program).isStopped = false) :
    (e.runOf program).passes = (e.fresh.runOf program).passes ∧
      (e.runOf program).outcome = (e.fresh.runOf program).outcome ∧
      (e.runOf program).state = (e.fresh.runOf program).state.behind e.ledger := by
  have hstart : (ledgerBond e.ledger).states
      { ledger := (Table.collect program).2.foldl Ledger.addWarning e.ledger }
      { ledger := (Table.collect program).2.foldl Ledger.addWarning e.fresh.ledger } := by
    constructor
    · rw [Ledger.foldl_addWarning_eq_append e.ledger]
      rfl
    · rw [Ledger.foldl_addWarning]
      rfl
  have hends : (ledgerBond e.ledger).RunsEnd (e.runOf program) (e.fresh.runOf program) :=
    (holds_ledgerBond e.ledger e.settings _).runOf rfl (forall₂_matched_ledgerBond _) hstart
  rw [Expanded.isStopped, outcome_expand] at h
  generalize e.runOf program = r at hends h
  generalize e.fresh.runOf program = r' at hends
  cases hends with
  | returned hstate his =>
    obtain rfl := List.forall₂_eq_eq_eq ▸ his
    exact ⟨rfl, rfl, hstate.1⟩
  | failed hstate => exact ⟨rfl, rfl, hstate.1⟩
  | stopped hd => exact absurd hd (Bool.eq_false_iff.mp h)

theorem repeats_fresh (h : (e.expand program).isStopped = false) :
    (e.expand program).Repeats (e.fresh.expand program) := by
  obtain ⟨hpasses, houtcome, hstate⟩ := runOf_eq_behind_fresh h
  constructor
  case outcome => rw [outcome_expand, outcome_expand, houtcome]
  case events =>
    rw [events_expand, events_expand, houtcome, hpasses, hstate]
    rfl
  case passes => rw [passes_expand, passes_expand, hpasses]
  case calls =>
    rw [calls_expand, calls_expand, hstate]
    rfl
  case table => rfl

theorem ledger_expand_eq_append (h : (e.expand program).isStopped = false) :
    (e.expand program).expander.ledger =
      e.ledger.append (e.fresh.expand program).expander.ledger := by
  rw [ledger_expand, ledger_expand, (runOf_eq_behind_fresh h).2.2]
  rfl

/-- A new expander is the same before a run and after it. -/
theorem fresh_expand (h : (e.expand program).isStopped = false) :
    (e.expand program).expander.fresh = e.fresh := by
  rw [fresh, ledger_expand_eq_append h]
  rfl

/-! ## One run after the other -/

/-- Expand programs, one after the other. -/
def expandAll (e : Expander) : List Program → List Expanded
  | [] => []
  | program :: programs => e.expand program :: (e.expand program).expander.expandAll programs

/-- An expander after it has expanded some programs. -/
def after (e : Expander) (programs : List Program) : Expander :=
  programs.foldl (fun e program => (e.expand program).expander) e

end Expander

/-- **Runs do not affect each other.**  As long as there is room in the ledger, each run of an
expander comes to what a new expander comes to on that program alone; and the ledger at the end
holds, after what it held before, what the new expanders enter in theirs. -/
theorem expandAll_repeats_fresh (e : Expander) (programs : List Program)
    (h : ∀ r ∈ e.expandAll programs, r.isStopped = false) :
    Forall₂ Expanded.Repeats (e.expandAll programs) (programs.map e.fresh.expand) ∧
      (e.after programs).ledger.errors.toList = e.ledger.errors.toList ++
        programs.flatMap (fun program => (e.fresh.expand program).expander.ledger.errors.toList) ∧
      (e.after programs).ledger.warnings.toList = e.ledger.warnings.toList ++
        programs.flatMap
          (fun program => (e.fresh.expand program).expander.ledger.warnings.toList) := by
  induction programs generalizing e with
  | nil => simp [Expander.expandAll, Expander.after]
  | cons program programs ih =>
    obtain ⟨hfirst, hrest⟩ := List.forall_mem_cons.mp h
    obtain ⟨hruns, herrors, hwarnings⟩ := ih _ hrest
    have hledger := Expander.ledger_expand_eq_append hfirst
    -- a new expander after the first run is one before it
    rw [Expander.fresh_expand hfirst] at hruns herrors hwarnings
    refine ⟨.cons (Expander.repeats_fresh hfirst) hruns, herrors.trans ?_, hwarnings.trans ?_⟩
    · rw [hledger, Ledger.append, Array.toList_append, List.append_assoc, List.flatMap_cons]
    · rw [hledger, Ledger.append, Array.toList_append, List.append_assoc, List.flatMap_cons]

/-- A program that comes to one bad call again and again, and does not end. -/
def stumbling : Program :=
  [.declaration "R" []
     [.call ⟨"F", [], some ⟨"f", 1, 7⟩⟩, .call ⟨"R", [], some ⟨"f", 1, 12⟩⟩] (some ⟨"f", 1, 1⟩),
   .call ⟨"R", [], some ⟨"f", 2, 1⟩⟩]

/-- The bad call of `stumbling` is entered once in each of two runs, with another run between
them.  There is room for no more. -/
theorem expandAll_stumbling_chain :
    let e : Expander :=
      { settings := { strict := true, limits := ⟨3, 9, by decide, by decide⟩ }
        ledger := { capacity := 3 } }
    let programs := [stumbling, chain, stumbling]
    (∀ r ∈ e.expandAll programs, r.isStopped = false) ∧
      (e.expandAll programs).map (·.outcome.isOk) = [false, true, false] ∧
      Forall₂ Expanded.Repeats (e.expandAll programs) (programs.map e.fresh.expand) ∧
      (e.after programs).ledger.errors.toList =
        (e.fresh.expand stumbling).expander.ledger.errors.toList ++
          (e.fresh.expand stumbling).expander.ledger.errors.toList ∧
      (e.after programs).ledger.errors.size = 2 := by
  intro e programs
  have hroom : ∀ r ∈ e.expandAll programs, r.isStopped = false := by decide +kernel
  obtain ⟨hruns, herrors, _⟩ := expandAll_repeats_fresh e programs hroom
  exact ⟨hroom, by decide +kernel, hruns, herrors, by decide +kernel⟩

end MacroAsm
