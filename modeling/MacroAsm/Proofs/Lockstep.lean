import Mathlib.Data.List.Forall2
import MacroAsm.Expansion.Expander

/-!
# MacroAsm.Proofs.Lockstep

Two runs side by side, with tables of their own.  They keep step as long as they meet
calls that come to the same: both are bad, or the bodies that take their places match item
by item.  What has to match is said by a `Bond`, a relation of the instructions, of the calls
and of the states of the two runs.

* `Bond.Holds.expandCall`, `Bond.Holds.pass` — a bond that holds for every call that is met
  lasts over a pass;
* `Bond.Holds.passes` — and so over a whole run;
* `pass_filter_isCode`, `passes_filter_isCode` — the items that a pass drops make no
  difference, so two runs may start with different ones;
* `Bond.Holds.runOf` — what that means for two expanders.
-/

namespace MacroAsm

namespace Item

/-- Whether an item is more to a pass than something to drop. -/
def isCode : Item → Bool
  | instruction _ => true
  | call _ => true
  | _ => false

theorem instruction?_of_not_isCode {x : Item} (h : x.isCode = false) : x.instruction? = none := by
  cases x with
  | instruction i => cases h
  | _ => rfl

theorem call?_of_not_isCode {x : Item} (h : x.isCode = false) : x.call? = none := by
  cases x with
  | call c => cases h
  | _ => rfl

end Item

namespace Expansion

open List (Forall₂)

variable {settings : Settings} {table table' : Table}

/-! ## Items that are dropped -/

theorem pass_dropped {x : Item} (hx : x.isCode = false) (number : Nat) (out : Array Traced)
    (origin : Option Location) (ts : List Traced) (s : State) :
    pass settings table number out (⟨x, origin⟩ :: ts) s =
      pass settings table number out ts s := by
  cases x with
  | instruction i => cases hx
  | call c => cases hx
  | _ => rfl

/-- A pass sees instructions and calls only. -/
theorem pass_filter_isCode (number : Nat) (out : Array Traced) (ts : List Traced) (s : State) :
    pass settings table number out (ts.filter fun t => t.item.isCode) s =
      pass settings table number out ts s := by
  induction ts generalizing out s with
  | nil => rfl
  | cons t ts ih =>
    obtain ⟨x, origin⟩ := t
    cases x with
    | instruction i => exact ih _ s
    | call c =>
      rw [List.filter_cons_of_pos rfl, pass, pass]
      cases expandCall settings table number c origin s with
      | mk s' outcome =>
        cases outcome with
        | error d => rfl
        | ok items => exact ih _ s'
    | comment text place => exact ih out s
    | declaration name parameters body place => exact ih out s

/-- So a run does not depend on the other items that it starts with. -/
theorem passes_filter_isCode (number : Nat) (ts : List Traced) (s : State) (more : Nat) :
    passes settings table number (ts.filter fun t => t.item.isCode) s more =
      passes settings table number ts s more := by
  rw [passes.eq_def, passes.eq_def settings table number ts, pass_filter_isCode]

/-! ## Bonds -/

/-- What ties one run to another: how their instructions, their calls, with the places of the
top-level calls that these came from, and their states are related, and for which reasons the
first run may give up on its own. -/
structure Bond where
  states : State → State → Prop
  instructions : Instruction → Instruction → Prop
  calls : Call → Option Location → Call → Option Location → Prop
  stops : Diagnostic → Prop := fun _ => False

namespace Bond

variable (b : Bond)

/-- Items that the two runs treat alike. -/
inductive Matched : Traced → Traced → Prop where
  | instruction {i j : Instruction} {origin origin' : Option Location} :
      b.instructions i j → Matched ⟨.instruction i, origin⟩ ⟨.instruction j, origin'⟩
  | call {c c' : Call} {origin origin' : Option Location} :
      b.calls c origin c' origin' → Matched ⟨.call c, origin⟩ ⟨.call c', origin'⟩
  | dropped {x x' : Item} {origin origin' : Option Location} :
      x.isCode = false → x'.isCode = false → Matched ⟨x, origin⟩ ⟨x', origin'⟩

/-- How two stages end that are in step: with related results, with the same reason to give
up, or with a reason that concerns the first run alone. -/
inductive Ends {α : Type} (related : α → α → Prop) :
    State × Except Diagnostic α → State × Except Diagnostic α → Prop where
  | returned {s s' : State} {a a' : α} :
      b.states s s' → related a a' → Ends related (s, .ok a) (s', .ok a')
  | failed {s s' : State} {d : Diagnostic} :
      b.states s s' → Ends related (s, .error d) (s', .error d)
  | stopped {s : State} {d : Diagnostic} {r' : State × Except Diagnostic α} :
      b.stops d → Ends related (s, .error d) r'

/-- How two runs end that are in step. -/
inductive RunsEnd : Run → Run → Prop where
  | returned {number : Nat} {s s' : State} {is js : List Instruction} :
      b.states s s' → Forall₂ b.instructions is js →
      RunsEnd ⟨number, s, .ok is⟩ ⟨number, s', .ok js⟩
  | failed {number : Nat} {s s' : State} {d : Diagnostic} :
      b.states s s' → RunsEnd ⟨number, s, .error d⟩ ⟨number, s', .error d⟩
  | stopped {number : Nat} {s : State} {d : Diagnostic} {r' : Run} :
      b.stops d → RunsEnd ⟨number, s, .error d⟩ r'

/-- Two reports of a bad call, after which both runs go on or both give up, unless the first
one gives up on its own. -/
inductive Reported : State × Option Diagnostic → State × Option Diagnostic → Prop where
  | both {s s' : State} {stop : Option Diagnostic} :
      b.states s s' → Reported (s, stop) (s', stop)
  | stopped {s : State} {d : Diagnostic} {r' : State × Option Diagnostic} :
      b.stops d → Reported (s, some d) r'

/-- Two calls come to the same: both are bad and reported, or their bodies match. -/
inductive Met (settings : Settings) (table table' : Table) (c : Call) (origin : Option Location)
    (c' : Call) (origin' : Option Location) : Prop where
  | bad {obstacle obstacle' : Obstacle} :
      resolve table c = .error obstacle → resolve table' c' = .error obstacle' →
      (∀ s s', b.states s s' →
        b.Reported (s.report settings c origin (obstacle.diagnostic table c))
          (s'.report settings c' origin' (obstacle'.diagnostic table' c'))) →
      Met settings table table' c origin c' origin'
  | good {d d' : Declaration} :
      resolve table c = .ok d → resolve table' c' = .ok d' →
      Forall₂ b.Matched
        (trace (origin.or c.location) (d.body.map (Bindings.ofLists d.parameters c.arguments).item))
        (trace (origin'.or c'.location)
          (d'.body.map (Bindings.ofLists d'.parameters c'.arguments).item)) →
      Met settings table table' c origin c' origin'

/-- A bond that lasts: related calls come to the same, and calls are counted alike. -/
structure Holds (settings : Settings) (table table' : Table) : Prop where
  calls {s s' : State} : b.states s s' → s'.calls = s.calls
  count {s s' : State} : b.states s s' →
    b.states { s with calls := s.calls + 1 } { s' with calls := s.calls + 1 }
  name {c c' : Call} {origin origin' : Option Location} :
    b.calls c origin c' origin' → c'.name = c.name
  met {c c' : Call} {origin origin' : Option Location} :
    b.calls c origin c' origin' → b.Met settings table table' c origin c' origin'

variable {b}

theorem reported_of {r r' : State × Option Diagnostic} (hstates : b.states r.1 r'.1)
    (hstop : r'.2 = r.2) : b.Reported r r' := by
  obtain ⟨s, stop⟩ := r
  obtain ⟨s', stop'⟩ := r'
  cases hstop
  exact .both hstates

/-! ## What matched items have in common -/

/-- Items match themselves under a bond of equal instructions and equal calls. -/
theorem forall₂_matched_self (hinstructions : ∀ i, b.instructions i i)
    (hcalls : ∀ c origin, b.calls c origin c origin) (ts : List Traced) :
    Forall₂ b.Matched ts ts := by
  refine List.forall₂_same.mpr fun t _ => ?_
  obtain ⟨x, origin⟩ := t
  cases x with
  | instruction i => exact .instruction (hinstructions i)
  | call c => exact .call (hcalls c origin)
  | comment text place => exact .dropped rfl rfl
  | declaration name parameters body place => exact .dropped rfl rfl

theorem forall₂_instructions {ts ts' : List Traced} (h : Forall₂ b.Matched ts ts') :
    Forall₂ b.instructions (ts.filterMap fun t => t.item.instruction?)
      (ts'.filterMap fun t => t.item.instruction?) := by
  induction h with
  | nil => exact .nil
  | cons hx _ ih =>
    cases hx with
    | instruction hi => exact .cons hi ih
    | call _ => exact ih
    | dropped hx hx' =>
      simpa only [List.filterMap_cons, Item.instruction?_of_not_isCode hx,
        Item.instruction?_of_not_isCode hx'] using ih

/-- Calls are left on both sides, and they have the same names. -/
theorem Holds.names_pending (h : b.Holds settings table table') {ts ts' : List Traced}
    (hts : Forall₂ b.Matched ts ts') :
    (pending ts').map (·.name) = (pending ts).map (·.name) := by
  induction hts with
  | nil => rfl
  | cons hx _ ih =>
    cases hx with
    | instruction _ => exact ih
    | call hc => exact congrArg₂ List.cons (h.name hc) ih
    | dropped hx hx' =>
      simpa only [pending, List.filterMap_cons, Item.call?_of_not_isCode hx,
        Item.call?_of_not_isCode hx'] using ih

/-! ## Keeping step -/

variable {s s' : State}

/-- **One call.** -/
theorem Holds.expandCall (h : b.Holds settings table table') {c c' : Call}
    {origin origin' : Option Location} (hc : b.calls c origin c' origin') (hs : b.states s s')
    (number : Nat) :
    b.Ends (fun items items' => Forall₂ b.Matched (trace (origin.or c.location) items)
        (trace (origin'.or c'.location) items'))
      (expandCall settings table number c origin s)
      (expandCall settings table' number c' origin' s') := by
  unfold Expansion.expandCall
  cases h.met hc with
  | @bad obstacle obstacle' hbad hbad' hreport =>
    rw [hbad, hbad']
    have hreported := hreport s s' hs
    dsimp only
    generalize s.report settings c origin _ = r at hreported
    generalize s'.report settings c' origin' _ = r' at hreported
    cases hreported with
    | @both _ _ stop hstates =>
      cases stop with
      | none => exact .returned hstates .nil
      | some d => exact .failed hstates
    | stopped hd => exact .stopped hd
  | good hgood hgood' hbody =>
    rw [hgood, hgood']
    simp only [h.calls hs, h.name hc]
    split
    · exact .failed (h.count hs)
    · exact .returned (h.count hs) hbody

/-- **One pass.** -/
theorem Holds.pass (h : b.Holds settings table table') (number : Nat) {ts ts' : List Traced}
    (hts : Forall₂ b.Matched ts ts') {out out' : Array Traced}
    (hout : Forall₂ b.Matched out.toList out'.toList) (hs : b.states s s') :
    b.Ends (fun out out' => Forall₂ b.Matched out.toList out'.toList)
      (pass settings table number out ts s) (pass settings table' number out' ts' s') := by
  induction hts generalizing out out' s s' with
  | nil => exact .returned hs hout
  | @cons _ _ ts ts' hx _ ih =>
    cases hx with
    | @instruction i j origin origin' hi =>
      refine ih ?_ hs
      rw [Array.toList_push, Array.toList_push]
      exact List.rel_append hout (.cons (.instruction hi) .nil)
    | @call c c' origin origin' hc =>
      rw [Expansion.pass, Expansion.pass]
      have hcall := h.expandCall hc hs number
      generalize Expansion.expandCall settings table number c origin s = r at hcall
      generalize Expansion.expandCall settings table' number c' origin' s' = r' at hcall
      cases hcall with
      | returned hstates hitems =>
        refine ih ?_ hstates
        rw [Array.toList_appendList, Array.toList_appendList]
        exact List.rel_append hout hitems
      | failed hstates => exact .failed hstates
      | stopped hd => exact .stopped hd
    | dropped hx hx' =>
      rw [pass_dropped hx, pass_dropped hx']
      exact ih hout hs

/-- **A whole run.** -/
theorem Holds.passes (h : b.Holds settings table table') (number : Nat) {ts ts' : List Traced}
    (hts : Forall₂ b.Matched ts ts') (more : Nat) (hs : b.states s s') :
    b.RunsEnd (passes settings table number ts s more)
      (passes settings table' number ts' s' more) := by
  induction more using Nat.strongRecOn generalizing number ts ts' s s' with
  | ind more ih =>
    have hpass : b.Ends (fun out out' => Forall₂ b.Matched out.toList out'.toList)
        (Expansion.pass settings table number #[] ts s)
        (Expansion.pass settings table' number #[] ts' s') := h.pass number hts .nil hs
    unfold Expansion.passes
    generalize Expansion.pass settings table number #[] ts s = r at hpass
    generalize Expansion.pass settings table' number #[] ts' s' = r' at hpass
    cases hpass with
    | failed hstates => exact .failed hstates
    | stopped hd => exact .stopped hd
    | @returned _ _ out out' hstates hout =>
      -- whether to go on, and over which names to give up, is decided by the calls left
      have hnames := h.names_pending hout
      have hempty : (pending out'.toList).isEmpty = (pending out.toList).isEmpty := by
        rw [← List.isEmpty_map (f := Call.name), hnames, List.isEmpty_map]
      simp only [hempty, hnames]
      split
      · exact .returned hstates (forall₂_instructions hout)
      · cases more with
        | zero => exact .failed hstates
        | succ more => exact ih more (Nat.lt_succ_self more) (number + 1) hout hstates

end Bond

end Expansion

/-! ## Expanders -/

open Expansion

namespace Expander

variable (e : Expander) (program : Program)

/-- The run behind an expansion. -/
def runOf : Run :=
  run e.settings (Table.collect program).1
    { ledger := (Table.collect program).2.foldl Ledger.addWarning e.ledger } program

theorem outcome_expand : (e.expand program).outcome = (e.runOf program).outcome := rfl

theorem passes_expand : (e.expand program).expander.passes = (e.runOf program).passes := rfl

theorem calls_expand : (e.expand program).expander.calls = (e.runOf program).state.calls := rfl

theorem ledger_expand : (e.expand program).expander.ledger = (e.runOf program).state.ledger := rfl

theorem events_expand :
    (e.expand program).events =
      match (e.runOf program).outcome with
      | .error _ => (e.runOf program).state.events.toList
      | .ok is => (e.runOf program).state.events.toList ++
          [.expanded (e.runOf program).passes (e.runOf program).state.calls is.length] := rfl

end Expander

/-- **Two expansions.**  If a bond holds for the tables of two programs, for their instructions
and calls and for the states before the first pass, the expansions are in step. -/
theorem Expansion.Bond.Holds.runOf {b : Bond} {e e' : Expander} {p q : Program}
    (h : b.Holds e.settings (Table.collect p).1 (Table.collect q).1)
    (hsettings : e'.settings = e.settings)
    (hitems : List.Forall₂ b.Matched (trace none (p.filter Item.isCode))
      (trace none (q.filter Item.isCode)))
    (hstart : b.states { ledger := (Table.collect p).2.foldl Ledger.addWarning e.ledger }
      { ledger := (Table.collect q).2.foldl Ledger.addWarning e'.ledger }) :
    b.RunsEnd (e.runOf p) (e'.runOf q) := by
  have hfilter (program : Program) : trace none (program.filter Item.isCode) =
      (trace none program).filter fun t => t.item.isCode := by
    rw [trace, trace, List.filter_map]
    rfl
  rw [hfilter, hfilter] at hitems
  have hpasses := h.passes 1 hitems (e.settings.limits.passes - 1) hstart
  rw [passes_filter_isCode, passes_filter_isCode] at hpasses
  rw [Expander.runOf, Expander.runOf, run, run, hsettings]
  exact hpasses

end MacroAsm
