import MacroAsm.Proofs.OtherPlaces
import MacroAsm.Proofs.Relocation
import MacroAsm.Proofs.Reports

/-!
# MacroAsm.Proofs.Displacement

Expansion compares places and does nothing else with them.  A program that has moved by an
injective `f` is expanded, call by call, to what the program is expanded to, moved by `f`;
the two runs keep the same counts, give up for the same reason, and enter errors of the
same causes (`expand_map_relocate`).
-/

namespace MacroAsm

namespace Expansion

/-- A sighting that has moved. -/
def Sighting.relocate (f : Location → Location) (s : Sighting) : Sighting :=
  ⟨s.name, f s.place, s.origin.map f⟩

/-- Two states of runs that differ by a move.  The wording of hints and the events may differ,
and so may warnings. -/
structure State.Moved (f : Location → Location) (s s' : State) : Prop where
  capacity : s'.ledger.capacity = s.ledger.capacity
  errors : s'.ledger.errors.map Diagnostic.cause = s.ledger.errors.map Diagnostic.cause
  sightings : s'.sightings = s.sightings.map (Sighting.relocate f)
  calls : s'.calls = s.calls

variable {f : Location → Location} {s s' : State}

theorem relocate_injective (hf : Function.Injective f) :
    Function.Injective (Sighting.relocate f) := by
  intro a b h
  obtain ⟨name, place, origin⟩ := a
  obtain ⟨name', place', origin'⟩ := b
  simp only [Sighting.relocate, Sighting.mk.injEq] at h
  obtain ⟨rfl, hplace, horigin⟩ := h
  rw [hf hplace, Option.map_injective hf horigin]

/-- Entering a diagnostic of the same cause: the ledger is full at the same time. -/
theorem State.Moved.enter (h : State.Moved f s s') {d d' : Diagnostic} (hd : d'.cause = d.cause)
    (strict : Bool) :
    State.Moved f (s.enter strict d).1 (s'.enter strict d').1 ∧
      (s'.enter strict d').2 = (s.enter strict d).2 := by
  have hsize : s'.ledger.errors.size = s.ledger.errors.size := by
    simpa using congrArg Array.size h.errors
  cases strict with
  | false => exact ⟨⟨h.capacity, h.errors, h.sightings, h.calls⟩, rfl⟩
  | true =>
    constructor
    · exact ⟨h.capacity, by simp [State.enter, Ledger.addOrStop, Ledger.addError, h.errors, hd],
        h.sightings, h.calls⟩
    · simp [State.enter, Ledger.addOrStop, Ledger.addError, Ledger.isFull, h.capacity, hsize]

/-- A bad call that has moved was reported before if the call was. -/
theorem State.Moved.report (h : State.Moved f s s') (hf : Function.Injective f)
    (settings : Settings) (c : Call) (origin : Option Location) {d d' : Diagnostic}
    (hd : d'.cause = d.cause) :
    State.Moved f (s.report settings c origin d).1
        (s'.report settings (c.relocate f) (origin.map f) d').1 ∧
      (s'.report settings (c.relocate f) (origin.map f) d').2 =
        (s.report settings c origin d).2 := by
  have hcause : (withOrigin (origin.map f) d').cause = (withOrigin origin d).cause := by
    rw [(withOrigin_fields _ d').1, (withOrigin_fields _ d).1, hd]
  obtain ⟨name, arguments, location⟩ := c
  cases location with
  | none => exact h.enter hcause settings.strict
  | some place =>
    have hseen : s'.sightings.contains ⟨name, f place, origin.map f⟩ =
        s.sightings.contains ⟨name, place, origin⟩ := by
      rw [h.sightings, List.contains_eq_mem, List.contains_eq_mem]
      exact decide_eq_decide.mpr
        (List.mem_map_of_injective (relocate_injective hf) (a := ⟨name, place, origin⟩))
    simp only [State.report, Call.mapPlace, Option.map_some, hseen]
    by_cases hs : s.sightings.contains ⟨name, place, origin⟩
    · simp only [hs, if_true]
      exact ⟨h, trivial⟩
    · simp only [hs, Bool.false_eq_true, if_false]
      have hnoted : State.Moved f { s with sightings := ⟨name, place, origin⟩ :: s.sightings }
          { s' with sightings := ⟨name, f place, origin.map f⟩ :: s'.sightings } :=
        ⟨h.capacity, h.errors, by simp [h.sightings, Sighting.relocate], h.calls⟩
      exact hnoted.enter hcause settings.strict

theorem rehomes_map (f : Location → Location) : Rehomes (Option.map f) where
  none := rfl
  or a b := by cases a <;> rfl

/-- Runs that differ by a move stay in step. -/
theorem keeps_moved (hf : Function.Injective f) (settings : Settings) (table : Table) :
    Keeps (Option.map f) settings table (State.Moved f) where
  calls h := h.calls
  count h := ⟨h.capacity, h.errors, h.sightings, rfl⟩
  report origin h _ :=
    h.report hf settings _ origin (cause_diagnosticMapPlace (Option.map f) table _ _)

end Expansion

open Expansion

/-- **Expanding a program that has moved**: instructions that have moved or the same reason to
give up, and errors of the same causes. -/
theorem expand_map_relocate {f : Location → Location} (hf : Function.Injective f) (e : Expander)
    (program : Program) :
    (e.expand (program.map (Item.relocate f))).outcome =
        (e.expand program).outcome.map (List.map (Instruction.relocate f)) ∧
      (e.expand (program.map (Item.relocate f))).expander.ledger.errors.map Diagnostic.cause =
        (e.expand program).expander.ledger.errors.map Diagnostic.cause := by
  have hstart : State.Moved f
      { ledger := (Table.collect program).2.foldl Ledger.addWarning e.ledger }
      { ledger := (Table.collect (program.map (Item.mapPlace (Option.map f)))).2.foldl
          Ledger.addWarning e.ledger } := by
    rw [Ledger.foldl_addWarning, Ledger.foldl_addWarning]
    exact ⟨rfl, rfl, rfl, rfl⟩
  obtain ⟨_, _, hout, s, s', hmoved, hledger, _, hledger', _⟩ :=
    expand_map_mapPlace (keeps_moved hf e.settings _) (rehomes_map f) hstart
  rw [hledger, hledger']
  exact ⟨hout, hmoved.errors⟩

end MacroAsm
